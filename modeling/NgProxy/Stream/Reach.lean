/-
Which headers of strings `ngx_stream_lua_redis_parse` gets to, and which of them lead it out of its buffer,
said of the bytes of the buffer alone: the reply is a string, or an array whose elements before this one are
whole. A length of 2^63 - 2 and the next one pass every check. From 2^63 on a length stands for a negative
one, and the line end behind the string is looked for so many bytes before it.
-/
import NgProxy.Stream.Bounds
import NgProxy.Stream.Header

namespace NgProxy.Stream

open Lua Codec Memory Text

/-! ## Headers -/

/-- A whole element of an array: a line up to its first line end, a null, or a string with its length. -/
inductive Element : Bytes → Prop where
  | line {t : UInt8} {text : Bytes} (ht : t = 43 ∨ t = 45 ∨ t = 58) (hfirst : ¬ crlf <:+: text ++ [13]) :
    Element (t :: (text ++ crlf))
  | null {ds : Bytes} (hds : Digits ds) : Element (36 :: 45 :: (ds ++ crlf))
  | bulk {ds data : Bytes} (hds : Digits ds) (hsize : int64 (readNat ds) = data.length) :
    Element (36 :: (ds ++ crlf ++ (data ++ crlf)))

/-- The parser gets to the length `ds` of a string behind the bytes `before`: these are none, or the header
of an array and fewer whole elements than it says. -/
def Reached (b before ds : Bytes) : Prop :=
  Digits ds ∧ before ++ 36 :: (ds ++ crlf) <+: b ∧
    (before = [] ∨ ∃ (h : Bytes) (es : List Bytes), before = 42 :: (h ++ crlf ++ es.flatten) ∧ Digits h ∧
      (∀ e ∈ es, Element e) ∧ (es.length : Int) < int32 (readNat h) ∧ int32 (readNat h) ≤ maxArr)

/-- Modulo 2^64 the length is 2^63 - 2 or the next number; or it stands for a number below -2, and so many
bytes before its string the buffer has not begun or there is a line end. -/
def Misleads (before ds : Bytes) : Prop :=
  let text := before ++ 36 :: (ds ++ crlf)
  let v := readNat ds % 2 ^ 64
  2 ^ 63 - 2 ≤ v ∧ v < 2 ^ 63 ∨
    2 ^ 63 ≤ v ∧ v < 2 ^ 64 - 2 ∧ (text.length < 2 ^ 64 - v ∨ crlf <+: text.drop (text.length - (2 ^ 64 - v)))

/-! ## What the loops find -/

section Loops

variable {mem : Mem} {last : Int}

theorem crlf_at {p : Int} {t : Bytes} (hat : At mem p t) (hlen : 2 ≤ t.length) :
    crlf <+: t ↔ mem p = 13 ∧ mem (p + 1) = 10 := by
  obtain ⟨a, b, t, rfl⟩ : ∃ a b t', t = a :: b :: t' := by
    rcases t with _ | ⟨a, _ | ⟨b, t⟩⟩
    · simp at hlen
    · simp at hlen
    · exact ⟨a, b, t, rfl⟩
  rw [hat.head, hat.tail.head, crlf, List.cons_prefix_cons, List.cons_prefix_cons]
  simp [eq_comm]

/-- The digits a text begins with, up to a line end. -/
theorem takeWhile_digits {ds rest : Bytes} (hds : Digits ds) :
    (ds ++ crlf ++ rest).takeWhile isDigit = ds ∧ (ds ++ crlf ++ rest).dropWhile isDigit = crlf ++ rest := by
  have hcr : isDigit 13 = false := rfl
  rw [List.append_assoc, List.takeWhile_append_of_pos hds, List.dropWhile_append_of_pos hds]
  simp [crlf, hcr]

theorem digits_crlf {ds l : Bytes} (hds : Digits ds) (h : ds ++ crlf <+: l) :
    ds = l.takeWhile isDigit ∧ crlf <+: l.dropWhile isDigit := by
  obtain ⟨rest, rfl⟩ := h
  rw [(takeWhile_digits hds).1, (takeWhile_digits hds).2]
  exact ⟨rfl, List.prefix_append _ _⟩

theorem digits_takeWhile (l : Bytes) : Digits (l.takeWhile isDigit) := fun _ hb => List.mem_takeWhile_imp hb

theorem readSize_span {l : Bytes} {n : Nat} {q : Int} {c : Nat} (hat : At mem q l) (hend : q + l.length = last)
    (hn : l.length ≤ n) : readSize mem last n q (int64 c) =
      if (l.dropWhile isDigit).head? = some 13 then
        some (q + (l.takeWhile isDigit).length, int64 (readFrom c (l.takeWhile isDigit)))
      else none := by
  induction l generalizing n q c with
  | nil =>
    cases n with
    | zero => rfl
    | succ n => rw [readSize, if_pos (by simp at hend; omega)]; rfl
  | cons b l ih =>
    obtain ⟨n, rfl⟩ : ∃ m, n = m + 1 := ⟨n - 1, by simp at hn; omega⟩
    rw [List.length_cons, Nat.cast_add, Nat.cast_one] at hend
    rw [readSize, if_neg (by omega), digitAt, hat.head]
    by_cases hcr : b = 13
    · subst hcr
      have hno : isDigit 13 = false := rfl
      simp [hno, readFrom]
    · rw [if_neg hcr]
      cases hdigit : isDigit b with
      | false => simp [hdigit, hcr]
      | true =>
        have hcast : 10 * (c : Int) + digitVal b = ((10 * c + digitVal b : Nat) : Int) := by simp
        rw [if_pos rfl, int64_step, hcast, ih hat.tail (by omega) (by simp at hn; omega),
          List.takeWhile_cons_of_pos hdigit, List.dropWhile_cons_of_pos hdigit, List.length_cons, Nat.cast_add,
          Nat.cast_one, show q + 1 + ((l.takeWhile isDigit).length : Int) = q + ((l.takeWhile isDigit).length + 1) by
            omega]
        rfl

theorem skipDigits_span {l : Bytes} (n : Nat) {q : Int} (hat : At mem q l) (hend : q + l.length = last)
    (hn : l.length ≤ n) : skipDigits mem last n q =
      if (l.dropWhile isDigit).head? = some 13 then some (q + (l.takeWhile isDigit).length) else none := by
  induction l generalizing n q with
  | nil =>
    cases n with
    | zero => rfl
    | succ n => rw [skipDigits, if_pos (by simp at hend; omega)]; rfl
  | cons b l ih =>
    obtain ⟨n, rfl⟩ : ∃ m, n = m + 1 := ⟨n - 1, by simp at hn; omega⟩
    rw [List.length_cons, Nat.cast_add, Nat.cast_one] at hend
    rw [skipDigits, if_neg (by omega), digitAt, hat.head]
    by_cases hcr : b = 13
    · subst hcr
      have hno : isDigit 13 = false := rfl
      simp [hno]
    · rw [if_neg hcr]
      cases hdigit : isDigit b with
      | false => simp [hdigit, hcr]
      | true =>
        rw [if_pos rfl, ih n hat.tail (by omega) (by simp at hn; omega), List.takeWhile_cons_of_pos hdigit,
          List.dropWhile_cons_of_pos hdigit, List.length_cons, Nat.cast_add, Nat.cast_one,
          show q + 1 + ((l.takeWhile isDigit).length : Int) = q + ((l.takeWhile isDigit).length + 1) by omega]

/-- The count of a header of digits, as far as an `int` holds it. -/
theorem readCount_digits {ds rest : Bytes} (hds : Digits ds) {n : Nat} {q : Int} {c : Nat}
    (hat : At mem q (ds ++ 13 :: rest)) (hend : q + ds.length < last) (hn : ds.length < n) :
    readCount mem last n q (int32 c) = some (q + ds.length, int32 (readFrom c ds)) := by
  induction ds generalizing n q c with
  | nil =>
    obtain ⟨n, rfl⟩ : ∃ m, n = m + 1 := ⟨n - 1, by simp at hn; omega⟩
    simp only [List.length_nil, Nat.cast_zero] at hend ⊢
    rw [readCount, if_neg (by omega), if_pos hat.head]
    simp [readFrom]
  | cons b ds ih =>
    obtain ⟨n, rfl⟩ : ∃ m, n = m + 1 := ⟨n - 1, by simp at hn; omega⟩
    obtain ⟨hb, hds⟩ := List.forall_mem_cons.1 hds
    simp only [List.length_cons, Nat.cast_add, Nat.cast_one] at hend hn ⊢
    rw [List.cons_append] at hat
    have hcast : 10 * (c : Int) + digitVal b = ((10 * c + digitVal b : Nat) : Int) := by simp
    rw [readCount, if_neg (by omega), hat.head, if_neg (digit_ne hb).1, if_neg (digit_ne hb).2, digitAt, hat.head,
      if_pos hb, int32_step, hcast, ih hds hat.tail (by omega) (by omega),
      show q + 1 + (ds.length : Int) = q + (ds.length + 1) by omega]
    rfl

/-! ### Line ends -/

/-- The carriage return that was seen last. -/
def seen (cr : Bool) : Bytes := if cr then [13] else []

/-- Of two carriage returns only the second one can end a line. -/
theorem crlf_cr_cr {s : Bytes} (h : crlf <:+: 13 :: 13 :: s) : crlf <:+: 13 :: s := by
  refine (List.infix_cons_iff.1 h).resolve_left fun hpre => ?_
  exact absurd (List.cons_prefix_cons.1 (List.cons_prefix_cons.1 hpre).2).1 (by decide)

/-- A byte that neither begins nor ends a line end separates what is before it from what is behind. -/
theorem crlf_skip {cr : Bool} {b : UInt8} {s : Bytes} (hb : b ≠ 13) (hlf : ¬ (cr = true ∧ b = 10))
    (h : crlf <:+: seen cr ++ b :: s) : crlf <:+: s := by
  have hcons (h : crlf <:+: b :: s) : crlf <:+: s :=
    (List.infix_cons_iff.1 h).resolve_left fun hpre => hb (List.cons_prefix_cons.1 hpre).1.symm
  cases cr with
  | false => exact hcons h
  | true =>
    refine hcons ((List.infix_cons_iff.1 h).resolve_left fun hpre => hlf ⟨rfl, ?_⟩)
    exact (List.cons_prefix_cons.1 (List.cons_prefix_cons.1 hpre).2).1.symm

/-- A line that begins with a carriage return, and the one that ends it. -/
theorem starts_cr {text rest l : Bytes} (h : 13 :: l = text ++ crlf ++ rest) : ∃ s, text ++ [13] = 13 :: s := by
  cases text with
  | nil => exact ⟨[], rfl⟩
  | cons a text =>
    obtain ⟨rfl, -⟩ := List.cons.inj h
    exact ⟨text ++ [13], rfl⟩

/-- The first line end. By induction on the bytes left; a carriage return right before them counts. -/
theorem findCrlf_cases {l : Bytes} (n : Nat) {q : Int} (cr : Bool) (hat : At mem q l) (hend : q + l.length = last)
    (hn : l.length ≤ n) :
    findCrlf mem last n q cr = none ∧ ¬ crlf <:+: seen cr ++ l ∨
      ∃ text rest, seen cr ++ l = text ++ crlf ++ rest ∧ (¬ crlf <:+: text ++ [13]) ∧
        findCrlf mem last n q cr = some (q - (seen cr).length + text.length + 1) := by
  induction l generalizing n q cr with
  | nil =>
    refine .inl ⟨?_, ?_⟩
    · cases n with
      | zero => rfl
      | succ n => rw [findCrlf, if_pos (by simpa using hend)]
    · cases cr <;> decide
  | cons b l ih =>
    obtain ⟨n, rfl⟩ : ∃ m, n = m + 1 := ⟨n - 1, by simp at hn; omega⟩
    rw [List.length_cons, Nat.cast_add, Nat.cast_one] at hend
    rw [findCrlf, if_neg (by omega), hat.head]
    have hrec (cr : Bool) := ih n cr hat.tail (by omega) (by simp at hn; omega)
    by_cases hb : b = 13
    · subst hb
      rw [if_pos rfl]
      rcases hrec true with ⟨hnone, hno⟩ | ⟨text, rest, htext, hfirst, hsome⟩
      · refine .inl ⟨hnone, fun h => hno ?_⟩
        cases cr with
        | false => exact h
        | true => exact crlf_cr_cr h
      · cases cr with
        | false => exact .inr ⟨text, rest, htext, hfirst, by rw [hsome]; simp [seen]⟩
        | true =>
          refine .inr ⟨13 :: text, rest, congrArg (13 :: ·) htext, fun h => hfirst ?_, by rw [hsome]; simp [seen]⟩
          obtain ⟨s, hs⟩ := starts_cr htext
          rw [List.cons_append, hs] at h
          rw [hs]
          exact crlf_cr_cr h
    · rw [if_neg hb]
      by_cases hlf : cr = true ∧ b = 10
      · obtain ⟨rfl, rfl⟩ := hlf
        rw [if_pos ⟨rfl, rfl⟩]
        exact .inr ⟨[], l, rfl, by decide, by simp [seen]⟩
      · rw [if_neg hlf]
        rcases hrec false with ⟨hnone, hno⟩ | ⟨text, rest, htext, hfirst, hsome⟩
        · exact .inl ⟨hnone, fun h => hno (crlf_skip hb hlf h)⟩
        · rw [seen, if_neg (by decide), List.nil_append] at htext
          refine .inr ⟨seen cr ++ b :: text, rest, by simp [htext], fun h => hfirst ?_, ?_⟩
          · rw [List.append_assoc, List.cons_append] at h
            exact crlf_skip hb hlf h
          · rw [hsome, List.length_append, List.length_cons]
            simp [seen]
            omega

/-- There is one first line end. -/
theorem first_unique {text text' rest rest' : Bytes} (h : text ++ crlf ++ rest = text' ++ crlf ++ rest')
    (hfirst : ¬ crlf <:+: text ++ [13]) (hfirst' : ¬ crlf <:+: text' ++ [13]) : text = text' := by
  have hle {s s' r r' : Bytes} (h : s ++ crlf ++ r = s' ++ crlf ++ r') (hs : ¬ crlf <:+: s ++ [13]) :
      s.length ≤ s'.length := by
    by_contra hlt
    -- otherwise the second line end is in the first text
    have hpre : s' ++ crlf <+: s ++ [13] := by
      have h₁ : s' ++ crlf <+: s ++ crlf ++ r := h ▸ List.prefix_append _ _
      have h₂ : s ++ [13] <+: s ++ crlf ++ r := ⟨10 :: r, by simp [crlf]⟩
      exact List.prefix_of_prefix_length_le h₁ h₂ (by simp [crlf]; omega)
    exact hs ((List.suffix_append s' crlf).isInfix.trans hpre.isInfix)
  have hlen : text.length = text'.length := le_antisymm (hle h hfirst) (hle h.symm hfirst')
  rw [List.append_assoc, List.append_assoc] at h
  exact (List.append_inj h hlen).1

/-- A line up to its first line end. -/
theorem parseLine_first {text rest : Bytes} {p : Int} (hat : At mem p (text ++ crlf ++ rest))
    (hend : p + (text ++ crlf ++ rest).length = last) (hfirst : ¬ crlf <:+: text ++ [13]) :
    parseLine mem last p = (p, int32 text.length) := by
  rcases findCrlf_cases (last - p).toNat false hat hend (by omega) with
    ⟨-, hno⟩ | ⟨text', rest', htext, hfirst', hsome⟩
  · exact absurd ⟨text, rest, rfl⟩ hno
  · obtain rfl : text = text' := first_unique htext hfirst hfirst'
    have hlen : p - (seen false).length + text.length + 1 - p - 1 = text.length := by
      simp [seen]
      omega
    rw [parseLine, hsome]
    dsimp only
    rw [hlen]

theorem parseLine_found {l : Bytes} {p : Int} (hat : At mem p l) (hend : p + l.length = last)
    (hok : (parseLine mem last p).2 ≠ -2) :
    ∃ text rest, l = text ++ crlf ++ rest ∧ ¬ crlf <:+: text ++ [13] := by
  rcases findCrlf_cases (last - p).toNat false hat hend (by omega) with
    ⟨hnone, -⟩ | ⟨text, rest, htext, hfirst, -⟩
  · rw [parseLine, hnone] at hok
    exact absurd rfl hok
  · exact ⟨text, rest, htext, hfirst⟩

end Loops

/-! ## Strings -/

section Strings

open Walk Scan

variable {mem : Mem} {before l : Bytes} {last : Int}

/-- Where a string begins whose header is behind `before`. -/
theorem wild_iff {before ds rest : Bytes} (hat : At mem 0 (before ++ 36 :: (ds ++ crlf ++ rest))) :
    Wild mem ⟨before.length + 1 + ds.length + 2, int64 (readNat ds)⟩ ↔ Misleads before ds := by
  have htext : At mem 0 (before ++ 36 :: (ds ++ crlf)) := by
    rw [← List.cons_append, ← List.append_assoc] at hat
    exact (at_append.1 hat).1
  have hlen : (before ++ 36 :: (ds ++ crlf)).length = before.length + 1 + ds.length + 2 := by
    simp [crlf]
    omega
  unfold Wild Misleads
  dsimp only
  rw [hlen]
  generalize readNat ds = v
  have hsize : int64 v = (v % 2 ^ 64 : Nat) - if v % 2 ^ 64 < 2 ^ 63 then (0 : Int) else 2 ^ 64 := by
    unfold int64
    split <;> omega
  rw [hsize]
  generalize hw : v % 2 ^ 64 = w
  have hlt : w < 2 ^ 64 := hw ▸ Nat.mod_lt _ (by decide)
  refine or_congr (by split <;> omega) ?_
  split
  · rename_i hsmall
    exact iff_of_false (fun h => by omega) fun h => by omega
  · rename_i hbig
    by_cases hneg : w < 2 ^ 64 - 2
    · by_cases hin : before.length + 1 + ds.length + 2 < 2 ^ 64 - w
      · exact iff_of_true ⟨by omega, .inl (by omega)⟩ ⟨by omega, hneg, .inl hin⟩
      · have hdrop := htext.drop (n := before.length + 1 + ds.length + 2 - (2 ^ 64 - w)) (by omega)
        have hcrlf := crlf_at hdrop (by rw [List.length_drop]; omega)
        rw [show (0 : Int) + ((before.length + 1 + ds.length + 2 - (2 ^ 64 - w) : Nat) : Int) =
          before.length + 1 + ds.length + 2 + (w - 2 ^ 64) by omega] at hcrlf
        rw [hcrlf]
        constructor
        · rintro ⟨-, hbefore | hfound⟩
          · omega
          · exact ⟨by omega, hneg, .inr hfound⟩
        · rintro ⟨-, -, hbefore | hfound⟩
          · omega
          · exact ⟨by omega, .inr hfound⟩
    · exact iff_of_false (fun h => by omega) fun h => hneg h.2.1

theorem nullBulk_tame {p : Int} : All (Tame mem) (Walk.nullBulk last p) mem := by
  refine all_bind.2 ⟨crAfter_reads _ fun _ _ _ => trivial, ?_⟩
  split
  · exact all_pure _
  · split
    · exact all_pure _
    · refine all_read_bind.2 ⟨trivial, ?_⟩
      split <;> exact all_pure _

theorem not_dash {ds : Bytes} (hds : Digits ds) : ¬ ds ++ crlf <+: 45 :: l := by
  cases ds with
  | nil => exact fun h => absurd (List.cons_prefix_cons.1 h).1 (by decide)
  | cons d ds =>
    intro h
    rw [(List.cons_prefix_cons.1 h).1] at hds
    exact absurd (hds 45 (List.mem_cons_self ..)) (by decide)

/-- A text begins with digits and a line end, or it does not. -/
theorem digits_cases (l : Bytes) :
    (∃ ds rest, Digits ds ∧ l = ds ++ crlf ++ rest) ∨ ∀ ds, Digits ds → ¬ ds ++ crlf <+: l := by
  by_cases h : crlf <+: l.dropWhile isDigit
  · obtain ⟨rest, hrest⟩ := h
    refine .inl ⟨l.takeWhile isDigit, rest, digits_takeWhile l, ?_⟩
    rw [List.append_assoc, hrest, List.takeWhile_append_dropWhile]
  · exact .inr fun ds hds hpre => h (digits_crlf hds hpre).2

theorem digits_unique {ds ds' rest : Bytes} (hds : Digits ds) (hds' : Digits ds')
    (h : ds' ++ crlf <+: ds ++ crlf ++ rest) : ds' = ds :=
  (digits_crlf hds' h).1.trans (takeWhile_digits hds).1

/-- The length of a string is read, and then its data. -/
theorem readSize_digits {ds rest : Bytes} {p : Int} (hds : Digits ds) (hat : At mem p (ds ++ crlf ++ rest))
    (hend : p + (ds ++ crlf ++ rest).length = last) :
    readSize mem last (last - p).toNat p 0 = some (p + ds.length, int64 (readNat ds)) := by
  have h := readSize_span (c := 0) (n := (last - p).toNat) hat hend (by omega)
  rw [(takeWhile_digits hds).1, (takeWhile_digits hds).2] at h
  exact h

/-- Digits and a carriage return without a line feed. -/
theorem no_line_feed {p : Int} (hat : At mem p l) (hend : p + l.length = last)
    (hno : ∀ ds, Digits ds → ¬ ds ++ crlf <+: l) (hcr : (l.dropWhile isDigit).head? = some 13) :
    p + (l.takeWhile isDigit).length + 1 < last → mem (p + (l.takeWhile isDigit).length + 1) ≠ 10 := by
  obtain ⟨r, hr⟩ : ∃ r, l.dropWhile isDigit = 13 :: r := List.head?_eq_some_iff.1 hcr
  have hsplit : l.takeWhile isDigit ++ 13 :: r = l := by rw [← hr, List.takeWhile_append_dropWhile]
  intro hroom hlf
  cases r with
  | nil =>
    have hlen := congrArg List.length hsplit
    simp at hlen
    omega
  | cons c r =>
    have htail := (at_append.1 (hsplit ▸ hat)).2
    rw [htail.tail.head] at hlf
    subst hlf
    exact hno _ (digits_takeWhile l) ⟨r, by simpa [crlf] using hsplit⟩

theorem bulkData_refused {q : Int} (size : Int) (h : q + 1 < last → mem (q + 1) ≠ 10) :
    All (Tame mem) (Walk.bulkData last q size) mem ∧ ((Walk.bulkData last q size).value mem).2 = -2 := by
  unfold Walk.bulkData
  split
  · exact ⟨all_pure _, rfl⟩
  · rename_i hroom
    rw [all_read_bind, value_read_bind, if_pos (h (not_le.1 hroom))]
    exact ⟨⟨trivial, all_pure _⟩, rfl⟩

/-- Without a length and its line end nothing is returned, and no length is noted. -/
theorem parseBulk_refused {p : Int} (hat : At mem p l) (hend : p + l.length = last) (hdash : l.head? ≠ some 45)
    (h : ∀ ds, Digits ds → ¬ ds ++ crlf <+: l) :
    All (Tame mem) (Walk.parseBulk last p) mem ∧ ((Walk.parseBulk last p).value mem).2 = -2 := by
  unfold Walk.parseBulk
  cases l with
  | nil =>
    rw [if_pos (by simp at hend; omega)]
    exact ⟨all_pure _, rfl⟩
  | cons b l =>
    have hb : mem p ≠ 45 := by
      rw [hat.head]
      exact fun h => hdash (congrArg some h)
    have hlen : p < last := by
      simp at hend
      omega
    rw [if_neg (not_le.2 hlen), all_read_bind, value_read_bind, if_neg hb, all_bind, value_bind, readSize_value]
    have hspan : readSize mem last (last - p).toNat p 0 = _ := readSize_span (c := 0) hat hend (by omega)
    rw [hspan]
    by_cases hcr : ((b :: l).dropWhile isDigit).head? = some 13
    · rw [if_pos hcr]
      have hdata := bulkData_refused (int64 (readFrom 0 ((b :: l).takeWhile isDigit)))
        (no_line_feed hat hend h hcr)
      exact ⟨⟨trivial, readSize_reads _ fun _ _ _ => trivial, hdata.1⟩, hdata.2⟩
    · rw [if_neg hcr]
      exact ⟨⟨trivial, readSize_reads _ fun _ _ _ => trivial, all_pure _⟩, rfl⟩

theorem bulkData_header {q : Int} (size : Int) (hroom : q + 1 < last) (hlf : mem (q + 1) = 10) :
    (All (Tame mem) (Walk.bulkData last q size) mem ↔ ¬ Wild mem ⟨q + 2, size⟩) ∧
      (Walk.bulkData last q size).value mem =
        if last - (q + 2) < int64 (size + 2) then invalid else (dataEnd (q + 2) size).value mem := by
  unfold Walk.bulkData
  rw [if_neg (not_le.2 hroom), all_read_bind, value_read_bind, if_neg (not_not.2 hlf), all_bind, all_note, value_bind,
    value_ite]
  refine ⟨?_, rfl⟩
  constructor
  · exact fun h => h.2.1
  · refine fun h => ⟨trivial, h, ?_⟩
    split
    · exact all_pure _
    · exact dataEnd_all.2 ⟨trivial, fun _ => trivial⟩

/-- A length and its line end: the length is noted and the data is looked at. -/
theorem parseBulk_header {ds rest : Bytes} {p : Int} (hds : Digits ds) (hat : At mem p (ds ++ crlf ++ rest))
    (hend : p + (ds ++ crlf ++ rest).length = last) :
    (All (Tame mem) (Walk.parseBulk last p) mem ↔ ¬ Wild mem ⟨p + ds.length + 2, int64 (readNat ds)⟩) ∧
      (Walk.parseBulk last p).value mem =
        if last - (p + ds.length + 2) < int64 (int64 (readNat ds) + 2) then invalid
        else (dataEnd (p + ds.length + 2) (int64 (readNat ds))).value mem := by
  have hlen : p + ds.length + 2 + rest.length = last := by
    simp [crlf] at hend
    omega
  have hcrlf := (at_append.1 (List.append_assoc .. ▸ hat)).2
  have hdash : mem p ≠ 45 := by
    cases ds with
    | nil =>
      rw [hat.head]
      decide
    | cons d ds =>
      rw [hat.head]
      exact (digit_ne (hds d (List.mem_cons_self ..))).2
  obtain ⟨htame, hval⟩ := bulkData_header (int64 (readNat ds)) (show p + ds.length + 1 < last by omega)
    hcrlf.tail.head
  unfold Walk.parseBulk
  rw [if_neg (by omega), all_read_bind, value_read_bind, if_neg hdash, all_bind, value_bind, readSize_value,
    readSize_digits hds hat hend]
  dsimp only
  rw [htame]
  refine ⟨?_, hval⟩
  constructor
  · exact fun h => h.2.2
  · exact fun h => ⟨trivial, readSize_reads _ fun _ _ _ => trivial, h⟩

/-- Digits behind a dash are a null. -/
theorem parseBulk_dash {ds rest : Bytes} {p : Int} (hds : Digits ds) (hat : At mem p (45 :: (ds ++ crlf ++ rest)))
    (hend : p + (45 :: (ds ++ crlf ++ rest)).length = last) : parseBulk mem last p = (p + 1 + ds.length, -1) := by
  have hlen : p + 1 + ds.length + 2 + rest.length = last := by
    simp [crlf] at hend
    omega
  have hcrlf := (at_append.1 (List.append_assoc .. ▸ hat.tail)).2
  have hspan : skipDigits mem last _ _ = _ := skipDigits_span (last - (p + 1)).toNat hat.tail
    (by simp [crlf]; omega) (by simp [crlf]; omega)
  rw [(takeWhile_digits hds).1, (takeWhile_digits hds).2] at hspan
  have hskip : skipDigits mem last (last - (p + 1)).toNat (p + 1) = some (p + 1 + ds.length) := hspan
  have hlf : mem (p + 1 + ds.length + 1) = 10 := hcrlf.tail.head
  rw [parseBulk, if_neg (by omega), if_pos hat.head, nullBulk, hskip]
  dsimp only
  rw [if_neg (by omega), if_neg (not_not.2 hlf)]

/-- What a dash begins is a null or refused. -/
theorem parseBulk_dash_ok {p : Int} (hat : At mem p (45 :: l)) (hend : p + (45 :: l).length = last)
    (hok : (parseBulk mem last p).2 ≠ -2) : ∃ ds rest, Digits ds ∧ l = ds ++ crlf ++ rest := by
  rcases digits_cases l with h | hno
  · exact h
  · exfalso
    apply hok
    have hend' : p + 1 + l.length = last := by
      simp at hend
      omega
    have hspan : skipDigits mem last _ _ = _ := skipDigits_span (last - (p + 1)).toNat hat.tail hend' (by omega)
    rw [parseBulk, if_pos hat.head, nullBulk, hspan]
    split
    · rfl
    · by_cases hcr : (l.dropWhile isDigit).head? = some 13
      · rw [if_pos hcr]
        dsimp only
        split
        · rfl
        · rename_i hroom
          rw [if_pos (no_line_feed hat.tail hend' hno hcr (by omega))]
          rfl
      · rw [if_neg hcr]
        rfl

theorem at_behind (hat : At mem 0 (before ++ l)) : At mem before.length l := by
  have h := (at_append.1 hat).2
  rwa [Int.zero_add] at h

/-- The string behind the bytes `before` and its `$`. -/
theorem parseBulk_tame (before : Bytes) (hat : At mem 0 (before ++ 36 :: l))
    (hend : (before ++ 36 :: l).length = last) :
    All (Tame mem) (Walk.parseBulk last (before.length + 1)) mem ↔
      ∀ ds, Digits ds → ds ++ crlf <+: l → ¬ Misleads before ds := by
  have hat' : At mem (before.length + 1) l := (at_behind hat).tail
  have hend' : (before.length : Int) + 1 + l.length = last := by
    rw [← hend]
    simp
    omega
  by_cases hdash : l.head? = some 45
  · obtain ⟨l', rfl⟩ := List.head?_eq_some_iff.1 hdash
    refine iff_of_true ?_ fun ds hds hpre => absurd hpre (not_dash hds)
    unfold Walk.parseBulk
    split
    · exact all_pure _
    · rw [all_read_bind, if_pos hat'.head]
      exact ⟨trivial, nullBulk_tame⟩
  · rcases digits_cases l with ⟨ds, rest, hds, rfl⟩ | hno
    · rw [(parseBulk_header hds hat' hend').1, wild_iff hat]
      constructor
      · intro h ds' hds' hpre
        rwa [digits_unique hds hds' hpre]
      · exact fun h => h ds hds (List.prefix_append _ _)
    · exact iff_of_true (parseBulk_refused hat' hend' hdash hno).1 fun ds hds hpre => absurd hpre (hno ds hds)

end Strings

/-! ## Elements -/

section Elements

open Walk Scan

variable {mem : Mem} {before l : Bytes} {last : Int}

/-- A whole element is taken, and the parser goes on behind it. -/
theorem Element.taken {e : Bytes} (he : Element e) {p : Int} (h₀ : 0 ≤ p) (hat : At mem p (e ++ l))
    (hend : p + (e ++ l).length = last) (hlast : last < 2 ^ 31) :
    ((Walk.parseElement last p).value mem).2 ≠ -2 ∧
      sliceStop ((Walk.parseElement last p).value mem) = p + e.length := by
  rw [parseElement_value]
  cases he with
  | @line t text ht hfirst =>
    have hlen : p + 1 + text.length + 2 + l.length = last := by
      simp [crlf] at hend
      omega
    have hline : parseLine mem last (p + 1) = (p + 1, int32 text.length) :=
      parseLine_first hat.tail (by simp [crlf]; omega) hfirst
    have hhead : mem p = t := hat.head
    rw [int32_eq (by omega) (by omega)] at hline
    rw [parseElement, if_neg (by omega), hhead, if_pos ht, hline]
    refine ⟨by dsimp only; omega, ?_⟩
    rw [sliceStop, if_neg (by dsimp only; omega)]
    simp [crlf]
    omega
  | @null ds hds =>
    have htail : At mem (p + 1) (45 :: (ds ++ crlf ++ l)) := hat.tail
    have hnull : parseBulk mem last (p + 1) = _ := parseBulk_dash hds htail (by simp [crlf] at hend ⊢; omega)
    have hhead : mem p = 36 := hat.head
    rw [parseElement, if_neg (by simp at hend; omega), hhead, if_neg (by decide), if_pos rfl, hnull]
    refine ⟨show (-1 : Int) ≠ -2 by decide, ?_⟩
    rw [sliceStop, if_pos rfl]
    simp [crlf]
    omega
  | @bulk ds data hds hsize =>
    have hhead : mem p = 36 := hat.head
    have htail : At mem (p + 1) (ds ++ crlf ++ (data ++ crlf ++ l)) := by
      rw [← List.append_assoc]
      exact hat.tail
    have hlen : p + 1 + ds.length + 2 + data.length + 2 + l.length = last := by
      simp [crlf] at hend
      omega
    have hval : (Walk.parseBulk last (p + 1)).value mem = _ := (parseBulk_header hds htail (by simp [crlf]; omega)).2
    have hcrlf : At mem (p + 1 + ds.length + 2 + data.length) (crlf ++ l) := by
      have := (at_append.1 (List.append_assoc .. ▸ (at_append.1 htail).2)).2
      simpa [crlf, Int.add_assoc] using this
    rw [hsize, int64_eq (by omega) (by omega), if_neg (by omega), dataEnd_value,
      if_pos ⟨hcrlf.head, hcrlf.tail.head⟩, int32_eq (by omega) (by omega)] at hval
    rw [parseElement, if_neg (by omega), hhead, if_neg (by decide), if_pos rfl, ← parseBulk_value, hval]
    refine ⟨by dsimp only; omega, ?_⟩
    rw [sliceStop, if_neg (by dsimp only; omega)]
    simp [crlf]
    omega

/-- The data of a string that is taken, if its length does not mislead. -/
theorem data_taken {ds rest : Bytes} {p : Int} (hds : Digits ds) (hat : At mem p (ds ++ crlf ++ rest))
    (hend : p + (ds ++ crlf ++ rest).length = last)
    (hwild : ¬ Wild mem ⟨p + ds.length + 2, int64 (readNat ds)⟩)
    (hok : ((Walk.parseBulk last p).value mem).2 ≠ -2) :
    ∃ data l, rest = data ++ crlf ++ l ∧ int64 (readNat ds) = data.length := by
  have hlen : p + ds.length + 2 + rest.length = last := by
    simp [crlf] at hend
    omega
  have hrest : At mem (p + ds.length + 2) rest := by
    have := (at_append.1 hat).2
    simpa [crlf, Int.add_assoc] using this
  have hlf : mem (p + ds.length + 2 - 1) = 10 := by
    have := (at_append.1 (List.append_assoc .. ▸ hat)).2.tail.head
    rwa [show p + (ds.length : Int) + 2 - 1 = p + ds.length + 1 by omega]
  have hbounds := int64_bounds (readNat ds)
  rw [(parseBulk_header hds hat hend).2, dataEnd_value] at hok
  generalize int64 (readNat ds) = size at *
  have htop : size < 2 ^ 63 - 2 := not_le.1 fun hle => hwild (.inl hle)
  rw [int64_eq (by omega) (by omega)] at hok
  split at hok
  · exact absurd rfl hok
  · split at hok
    · rename_i hroom hfound
      rcases size_of_lineEnd hlf hwild hfound with rfl | hpos
      · exact absurd rfl hok
      · obtain ⟨k, rfl⟩ : ∃ k : Nat, size = k := ⟨size.toNat, by omega⟩
        have hk : k + 2 ≤ rest.length := by omega
        have hcrlf := (crlf_at (hrest.drop (n := k) (by omega)) (by rw [List.length_drop]; omega)).2 hfound
        obtain ⟨l, hl⟩ := hcrlf
        refine ⟨rest.take k, l, ?_, ?_⟩
        · rw [List.append_assoc, hl, List.take_append_drop]
        · rw [List.length_take, Nat.min_eq_left (by omega)]
    · exact absurd rfl hok

/-- Behind a length that does not mislead, only a whole element is taken. -/
theorem taken_element (hat : At mem 0 (before ++ l)) (hend : (before ++ l).length = last)
    (htame : All (Tame mem) (Walk.parseElement last before.length) mem)
    (hok : ((Walk.parseElement last before.length).value mem).2 ≠ -2) : ∃ e l', l = e ++ l' ∧ Element e := by
  have hat' : At mem before.length l := at_behind hat
  have hend' : (before.length : Int) + l.length = last := by
    rw [← hend, List.length_append]
    push_cast
    rfl
  unfold Walk.parseElement at htame hok
  cases l with
  | nil =>
    rw [if_pos (by simp at hend'; omega)] at hok
    exact absurd rfl hok
  | cons c l =>
    rw [List.length_cons, Nat.cast_add, Nat.cast_one] at hend'
    rw [if_neg (by omega), all_read_bind, hat'.head] at htame
    rw [if_neg (by omega), value_read_bind, hat'.head] at hok
    by_cases hline : c = 43 ∨ c = 45 ∨ c = 58
    · rw [if_pos hline, parseLine_value] at hok
      obtain ⟨text, rest, rfl, hfirst⟩ := parseLine_found hat'.tail (by omega) hok
      exact ⟨c :: (text ++ crlf), rest, by simp, .line hline hfirst⟩
    · rw [if_neg hline] at htame hok
      by_cases hbulk : c = 36
      · subst hbulk
        rw [if_pos rfl] at htame hok
        by_cases hdash : l.head? = some 45
        · obtain ⟨l', rfl⟩ := List.head?_eq_some_iff.1 hdash
          rw [parseBulk_value] at hok
          obtain ⟨ds, rest, hds, rfl⟩ := parseBulk_dash_ok hat'.tail (by omega) hok
          exact ⟨36 :: 45 :: (ds ++ crlf), rest, by simp, .null hds⟩
        · rcases digits_cases l with ⟨ds, rest, hds, rfl⟩ | hno
          · have hwild := (parseBulk_header hds hat'.tail (by omega)).1.1 htame.2
            obtain ⟨data, l', rfl, hsize⟩ := data_taken hds hat'.tail (by omega) hwild hok
            exact ⟨36 :: (ds ++ crlf ++ (data ++ crlf)), l', by simp, .bulk hds hsize⟩
          · exact absurd (parseBulk_refused hat'.tail (by omega) hdash hno).2 hok
      · rw [if_neg hbulk] at hok
        exact absurd rfl hok

/-- The element behind the bytes `before`. -/
theorem parseElement_tame (hat : At mem 0 (before ++ l)) (hend : (before ++ l).length = last) :
    All (Tame mem) (Walk.parseElement last before.length) mem ↔
      ∀ ds, Digits ds → 36 :: (ds ++ crlf) <+: l → ¬ Misleads before ds := by
  have hat' : At mem before.length l := at_behind hat
  unfold Walk.parseElement
  cases l with
  | nil =>
    rw [if_pos (by simp at hend; omega)]
    exact iff_of_true (all_pure _) fun ds _ hpre => absurd (List.prefix_nil.1 hpre) (List.cons_ne_nil _ _)
  | cons c l =>
    have hlen : (before.length : Int) < last := by
      rw [← hend]
      simp
    rw [if_neg (not_le.2 hlen), all_read_bind, hat'.head]
    by_cases hbulk : c = 36
    · subst hbulk
      rw [if_neg (by decide), if_pos rfl, parseBulk_tame before hat hend]
      constructor
      · exact fun h ds hds hpre => h.2 ds hds (List.cons_prefix_cons.1 hpre).2
      · exact fun h => ⟨trivial, fun ds hds hpre => h ds hds (List.cons_prefix_cons.2 ⟨rfl, hpre⟩)⟩
    · refine iff_of_true ⟨trivial, ?_⟩ fun ds _ hpre => absurd (List.cons_prefix_cons.1 hpre).1.symm hbulk
      split
      · exact parseLine_reads (by omega) _ fun _ _ _ => trivial
      · exact all_pure _

theorem sliceValue_tame (d : Slice) : All (Tame mem) (Walk.sliceValue d) mem := by
  unfold Walk.sliceValue
  split
  · exact all_pure _
  · exact all_bind.2 ⟨all_copy.2 trivial, all_pure _⟩

/-- The elements behind the bytes `before`, by induction on how many the parser asks for: a length it gets to
has whole elements before it. -/
theorem elements_tame (before : Bytes) {n : Nat} (hat : At mem 0 (before ++ l)) (hend : (before ++ l).length = last)
    (hlast : last < 2 ^ 31) :
    All (Tame mem) (Walk.elements last n before.length) mem ↔
      ∀ (es : List Bytes) (ds : Bytes), es.length < n → (∀ e ∈ es, Element e) → Digits ds →
        es.flatten ++ 36 :: (ds ++ crlf) <+: l → ¬ Misleads (before ++ es.flatten) ds := by
  induction n generalizing before l with
  | zero => exact iff_of_true (all_pure _) fun es ds h => absurd h (Nat.not_lt_zero _)
  | succ n ih =>
    -- behind the element `e` everything is as before
    have hnext (e l' : Bytes) (hl : l = e ++ l') (he : Element e) :
        ((Walk.parseElement last before.length).value mem).2 ≠ -2 ∧
          (All (Tame mem) (Walk.elements last n
              ((Walk.sliceValue ((Walk.parseElement last before.length).value mem)).value mem).2) mem ↔
            ∀ (es : List Bytes) (ds : Bytes), es.length < n → (∀ e ∈ es, Element e) → Digits ds →
              es.flatten ++ 36 :: (ds ++ crlf) <+: l' → ¬ Misleads (before ++ e ++ es.flatten) ds) := by
      subst hl
      obtain ⟨hok, hstop⟩ := he.taken (Int.natCast_nonneg _) (at_behind hat) (by rw [← hend]; simp) hlast
      refine ⟨hok, ?_⟩
      rw [sliceValue_stop, hstop, ← Nat.cast_add, ← List.length_append]
      exact ih _ (by rwa [List.append_assoc]) (by rwa [List.append_assoc])
    unfold Walk.elements
    rw [all_bind, parseElement_tame hat hend]
    constructor
    · rintro ⟨hfirst, hrest⟩ es ds hlen hes hds hpre
      cases es with
      | nil => simpa using hfirst ds hds (by simpa using hpre)
      | cons e es =>
        obtain ⟨he, hes⟩ := List.forall_mem_cons.1 hes
        rw [List.flatten_cons, List.append_assoc] at hpre
        obtain ⟨l', rfl⟩ := (List.prefix_append e _).trans hpre
        obtain ⟨hok, hiff⟩ := hnext e l' rfl he
        rw [if_neg hok, all_bind, all_bind] at hrest
        rw [List.flatten_cons, ← List.append_assoc]
        exact hiff.1 hrest.2.1 es ds (Nat.lt_of_succ_lt_succ hlen) hes hds ((List.prefix_append_right_inj e).1 hpre)
    · intro h
      have hfirst (ds : Bytes) (hds : Digits ds) (hpre : 36 :: (ds ++ crlf) <+: l) : ¬ Misleads before ds := by
        have := h [] ds (Nat.succ_pos n) (by simp) hds (by simpa using hpre)
        simpa using this
      refine ⟨hfirst, ?_⟩
      split
      · exact all_pure _
      · rename_i hok
        obtain ⟨e, l', rfl, he⟩ := taken_element hat hend ((parseElement_tame hat hend).2 hfirst) hok
        rw [all_bind, all_bind, (hnext e l' rfl he).2]
        refine ⟨sliceValue_tame _, fun es ds hlen hes hds hpre => ?_, all_pure _⟩
        have := h (e :: es) ds (Nat.succ_lt_succ hlen) (List.forall_mem_cons.2 ⟨he, hes⟩) hds ?_
        · rwa [List.flatten_cons, ← List.append_assoc] at this
        · rw [List.flatten_cons, List.append_assoc]
          exact (List.prefix_append_right_inj e).2 hpre

end Elements

/-! ## Replies -/

section Replies

open Walk Scan

variable {mem : Mem} {last : Int}

/-- An array behind its header. -/
theorem arrayBody_tame {h l : Bytes} (count : Int) (hat : At mem 0 (42 :: (h ++ crlf ++ l)))
    (hend : ((42 :: (h ++ crlf ++ l)).length : Int) = last) :
    All (Tame mem) (arrayBody last (1 + h.length) count) mem ↔ (count ≠ -1 → count ≤ maxArr →
      All (Tame mem) (Walk.elements last count.toNat (42 :: (h ++ crlf)).length) mem) := by
  have hlen : 1 + (h.length : Int) + 2 + l.length = last := by
    simp [crlf] at hend
    omega
  have hlf : mem (1 + h.length + 1) = 10 := by
    have := (at_append.1 (List.append_assoc .. ▸ hat.tail)).2.tail.head
    rwa [Int.zero_add] at this
  have hstart : ((42 :: (h ++ crlf)).length : Int) = 1 + h.length + 2 := by
    simp [crlf]
    omega
  unfold arrayBody
  rw [if_neg (by omega), all_read_bind, if_neg (not_not.2 hlf), hstart]
  by_cases hnil : count = -1
  · rw [if_pos hnil]
    exact iff_of_true ⟨trivial, all_pure _⟩ fun hne => absurd hnil hne
  · rw [if_neg hnil]
    by_cases hmax : (maxArr : Int) < count
    · rw [if_pos hmax]
      exact iff_of_true ⟨trivial, all_pure _⟩ fun _ hle => absurd hmax (not_lt.2 hle)
    · rw [if_neg hmax, all_bind]
      constructor
      · exact fun h _ _ => h.2.1
      · exact fun h => ⟨trivial, h hnil (not_lt.1 hmax), all_pure _⟩

/-- A header without a line end is refused. -/
theorem arrayBody_refused {p count : Int} (h : p + 1 < last → mem (p + 1) ≠ 10) :
    All (Tame mem) (arrayBody last p count) mem := by
  unfold arrayBody
  split
  · exact all_pure _
  · rename_i hroom
    rw [all_read_bind, if_pos (h (not_le.1 hroom))]
    exact ⟨trivial, all_pure _⟩

theorem parseMultiBulk_tame {l : Bytes} (hat : At mem 0 (42 :: l)) (hend : ((42 :: l).length : Int) = last)
    (hlast : last < 2 ^ 31) :
    All (Tame mem) (Walk.parseMultiBulk last 1) mem ↔
      ∀ (h : Bytes) (es : List Bytes) (ds : Bytes), Digits h → (∀ e ∈ es, Element e) →
        (es.length : Int) < int32 (readNat h) → int32 (readNat h) ≤ maxArr → Digits ds →
        h ++ crlf ++ (es.flatten ++ 36 :: (ds ++ crlf)) <+: l → ¬ Misleads (42 :: (h ++ crlf ++ es.flatten)) ds := by
  have hat' : At mem 1 l := hat.tail
  have hlen : 1 + (l.length : Int) = last := by
    rw [← hend, List.length_cons]
    push_cast
    omega
  have hcast (es : List Bytes) (h : Bytes) : (42 :: (h ++ crlf)) ++ es.flatten = 42 :: (h ++ crlf ++ es.flatten) := rfl
  constructor
  · intro htame h es ds hh hes hcount hmax hds hpre
    obtain ⟨l', rfl⟩ := (List.prefix_append _ _).trans hpre
    have hread : readCount mem last (last - 1).toNat 1 0 = some (1 + (h.length : Int), int32 (readNat h)) := by
      rw [List.append_assoc] at hat'
      exact readCount_digits (c := 0) hh hat' (by simp [crlf] at hlen; omega) (by simp [crlf] at hlen; omega)
    unfold Walk.parseMultiBulk at htame
    rw [if_neg (by simp [crlf] at hlen; omega), all_bind, readCount_value, hread] at htame
    have helems := (arrayBody_tame _ hat hend).1 htame.2 (by omega) hmax
    have := (elements_tame (42 :: (h ++ crlf)) (l := l') hat hend hlast).1 helems es ds (by omega) hes hds
      ((List.prefix_append_right_inj _).1 hpre)
    rwa [hcast] at this
  · intro hall
    unfold Walk.parseMultiBulk
    split
    · exact all_pure _
    · rw [all_bind, readCount_value]
      refine ⟨Walk.readCount_reads _ fun _ _ _ => trivial, ?_⟩
      cases hr : readCount mem last (last - 1).toNat 1 0 with
      | none => exact all_pure _
      | some r =>
        obtain ⟨q, k⟩ := r
        obtain ⟨text, ⟨-, rfl, rest, rfl⟩, hk⟩ := Stream.readCount_some (c := 0) hat' hlen hr
        dsimp only
        -- only a line feed behind the CR makes it a header
        cases rest with
        | nil => exact arrayBody_refused fun hroom => by simp at hlen; omega
        | cons c rest =>
          by_cases hlf : c = 10
          · subst hlf
            have htext : text ++ 13 :: 10 :: rest = text ++ crlf ++ rest := by simp [crlf]
            rw [htext] at hat hend hall
            rw [arrayBody_tame _ hat hend]
            intro hne hmax
            rcases hk with ⟨hdigits, hk⟩ | ⟨-, hk⟩
            · have hcount : k = int32 (readNat text) := hk
              refine (elements_tame (42 :: (text ++ crlf)) (l := rest) hat hend hlast).2 ?_
              intro es ds hlt hes hds hpre
              have hlt := Int.lt_toNat.1 hlt
              rw [hcount] at hlt hmax
              rw [hcast]
              exact hall text es ds hdigits hes hlt hmax hds ((List.prefix_append_right_inj _).2 hpre)
            · exact absurd hk hne
          · refine arrayBody_refused fun _ h => hlf ?_
            have := (at_append.1 hat').2.tail.head
            rw [← h, this]

theorem lineReply_tame (hlast : 1 ≤ last) (type : ReplyType) (value : Bytes → Value) (message : String) :
    All (Tame mem) (Walk.lineReply last 0 type value message) mem := by
  refine all_bind.2 ⟨parseLine_reads hlast _ fun _ _ _ => trivial, ?_⟩
  split
  · exact all_pure _
  · exact all_bind.2 ⟨all_copy.2 trivial, all_pure _⟩

theorem bulkReply_tame :
    All (Tame mem) (Walk.bulkReply last 0) mem ↔ All (Tame mem) (Walk.parseBulk last (0 + 1)) mem := by
  refine all_bind.trans (and_iff_left ?_)
  split
  · exact all_pure _
  · exact all_bind.2 ⟨sliceValue_tame _, all_pure _⟩

/-- The lengths the parser gets to are those its bytes show. -/
theorem redisParse_tame {b : Bytes} (hat : At mem 0 b) (hlast : b.length < 2 ^ 31) :
    All (Tame mem) (Walk.redisParse b.length 0) mem ↔ ∀ before ds, Reached b before ds → ¬ Misleads before ds := by
  unfold Walk.redisParse
  cases b with
  | nil =>
    rw [if_pos (show ((([] : Bytes).length : Nat) : Int) = 0 from rfl)]
    refine iff_of_true (all_pure _) fun before ds h => ?_
    exact absurd (List.prefix_nil.1 h.2.1) (by simp)
  | cons c l =>
    have hpos : (1 : Int) ≤ (c :: l).length := by simp
    rw [if_neg (by omega), all_read_bind, hat.head]
    by_cases hbulk : c = 36
    · subst hbulk
      rw [if_neg (by decide), if_neg (by decide), if_neg (by decide), if_pos rfl, all_map, bulkReply_tame]
      have hbody := parseBulk_tame [] (l := l) hat rfl
      refine (and_iff_right trivial).trans (hbody.trans ?_)
      constructor
      · rintro h before ds ⟨hds, hpre, rfl | ⟨t, es, rfl, -⟩⟩
        · exact h ds hds (List.cons_prefix_cons.1 hpre).2
        · exact absurd (List.cons_prefix_cons.1 hpre).1 (by decide)
      · exact fun h ds hds hpre => h [] ds ⟨hds, List.cons_prefix_cons.2 ⟨rfl, hpre⟩, .inl rfl⟩
    · by_cases hmulti : c = 42
      · subst hmulti
        rw [if_neg (by decide), if_neg (by decide), if_neg (by decide), if_neg (by decide), if_pos rfl]
        have hbody := parseMultiBulk_tame hat rfl (by exact_mod_cast hlast)
        refine (and_iff_right trivial).trans ((all_bind.trans (and_iff_left (all_pure _))).trans (hbody.trans ?_))
        constructor
        · rintro h before ds ⟨hds, hpre, rfl | ⟨t, es, rfl, ht, hes, hcount, hmax⟩⟩
          · exact absurd (List.cons_prefix_cons.1 hpre).1 (by decide)
          · refine h t es ds ht hes hcount hmax hds ?_
            rw [← List.append_assoc]
            exact (List.cons_prefix_cons.1 hpre).2
        · intro h t es ds ht hes hcount hmax hds hpre
          rw [← List.append_assoc] at hpre
          exact h _ ds ⟨hds, List.cons_prefix_cons.2 ⟨rfl, hpre⟩, .inr ⟨t, es, rfl, ht, hes, hcount, hmax⟩⟩
      · refine iff_of_true ⟨trivial, ?_⟩ ?_
        · have hline (type : ReplyType) (value : Bytes → Value) (message : String) :
              All (Tame mem) ((.ok : Parsed → Except LuaError Parsed) <$>
                Walk.lineReply (c :: l).length 0 type value message) mem :=
            all_map.2 (lineReply_tame hpos type value message)
          split_ifs
          · exact hline _ _ _
          · exact hline _ _ _
          · exact hline _ _ _
          · exact all_pure _
        · rintro before ds ⟨-, hpre, rfl | ⟨t, es, rfl, -⟩⟩
          · exact absurd (List.cons_prefix_cons.1 hpre).1.symm hbulk
          · exact absurd (List.cons_prefix_cons.1 hpre).1.symm hmulti

end Replies

open Walk in
/-- In a buffer of less than 2 GiB, the reads, the slices that are pushed and the final pointer of
`ngx_stream_lua_redis_parse` all keep to the buffer, exactly if no length it gets to misleads it. -/
theorem parse_inside_iff (outside : Mem) (b : Bytes) (hn : b.length < 2 ^ 31) :
    (Walk.redisParse b.length 0).value (load b outside) = redisDecode outside b ∧
      (Scan.All (Access.Within b.length) (Walk.redisParse b.length 0) (load b outside) ∧
        CursorIn b.length (redisDecode outside b) ↔ ∀ before ds, Reached b before ds → ¬ Misleads before ds) := by
  have hval := redisParse_value b.length (load b outside) 0
  have hmain : Confined b.length (load b outside) (Walk.redisParse b.length 0) (CursorIn b.length) :=
    redisParse_confined le_rfl (Int.natCast_nonneg b.length) (by exact_mod_cast hn)
  refine ⟨hval, ?_⟩
  rw [← redisParse_tame (at_load b outside) hn]
  constructor
  · exact fun h => hmain.iff.2 h.1
  · intro h
    refine ⟨hmain.iff.1 h, ?_⟩
    have hpost := hmain.post h
    rwa [hval] at hpost

def arrayReply : Bytes := bytes "*2\r\n$1\r\nx\r\n:7\r\n"

/-- Short digits mislead nobody. -/
theorem not_misleads {before ds : Bytes} (h : readNat ds < 2 ^ 63 - 2) : ¬ Misleads before ds := by
  unfold Misleads
  dsimp only
  omega

/-- The digits behind every `$` are as in the bytes themselves. -/
theorem Reached.digits {b before ds : Bytes} (h : Reached b before ds) :
    b[before.length]? = some 36 ∧ ds = (b.drop (before.length + 1)).takeWhile isDigit := by
  obtain ⟨hds, ⟨rest, rfl⟩, -⟩ := h
  have hdrop : (before ++ 36 :: (ds ++ crlf) ++ rest).drop (before.length + 1) = ds ++ crlf ++ rest := by
    rw [List.append_assoc, List.drop_append, List.drop_eq_nil_of_le (by omega)]
    simp
  rw [hdrop, (takeWhile_digits hds).1]
  simp

theorem parse_inside_array :
    Scan.All (Access.Within arrayReply.length) (Walk.redisParse arrayReply.length 0) (load arrayReply fun _ => 0) := by
  refine ((parse_inside_iff (fun _ => 0) arrayReply (by decide)).2.2 fun before ds h => not_misleads ?_).1
  obtain ⟨hdollar, hds⟩ := h.digits
  have hshort : ∀ i < arrayReply.length, arrayReply[i]? = some 36 →
      readNat ((arrayReply.drop (i + 1)).takeWhile isDigit) < 2 ^ 63 - 2 := by decide +kernel
  rw [hds]
  exact hshort _ (List.getElem?_eq_some_iff.1 hdollar).1 hdollar

def topReply : Bytes := bytes "$9223372036854775806\r\n"

def belowReply : Bytes := bytes "*1\r\n$18446744073709551591\r\n"

/-- A length of 2^63 - 2 passes the bound check and is read at once. One of 2^64 - 25 stands for -25: the
line end of the array's header is taken for that of the string, which is pushed with a length below zero. -/
theorem parse_leaves_buffer :
    ¬ Scan.All (Access.Within topReply.length) (Walk.redisParse topReply.length 0) (load topReply fun _ => 0) ∧
      ¬ Scan.All (Access.Within belowReply.length) (Walk.redisParse belowReply.length 0)
        (load belowReply fun _ => 0) := by
  decide +kernel

end NgProxy.Stream
