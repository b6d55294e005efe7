/-
When the completeness test is exact: it says yes to a whole message and `NGX_AGAIN` to every beginning of it,
whatever is in the memory behind, as long as these are no digits. Lines and strings that are not empty are
recognised so; a null is taken for whole before its line end has come, and an array is whole with its `*`.
-/
import NgProxy.Stream.Framing

namespace NgProxy.Stream

open Lua Codec Memory Text

/-! ## The specification -/

/-- Behind the chunk there are no digits. -/
def Chunk.Quiet (c : Chunk) : Prop := ∀ i, (c.data.length : Int) ≤ i → isDigit (c.around i) = false

/-- The messages of the protocol: lines, strings and nulls, and arrays of the latter; lengths are below
2^30. -/
def WellFormed : Reply → Prop
  | .status s => isLine s = true ∧ s.length < 2 ^ 30
  | .error s => isLine s = true ∧ s.length < 2 ^ 30
  | .int n => (decimalInt n).length < 2 ^ 30
  | .bulk s => s.length < 2 ^ 30
  | .nilBulk => True
  | .nilArray => False
  | .array l => l.length < 2 ^ 30 ∧ ∀ r ∈ l, r = .nilBulk ∨ ∃ s, r = .bulk s ∧ s.length < 2 ^ 30

/-- The test is exact for `m`. -/
structure Exact (m : Reply) : Prop where
  whole : ∀ c : Chunk, c.Quiet → c.data = m.bytes → c.decode = .ok
  part : ∀ c : Chunk, c.Quiet → c.data <+: m.bytes → c.data ≠ m.bytes → c.decode = .again

/-- A line, or a string that is not empty. -/
def Sure : Reply → Prop
  | .status _ => True
  | .error _ => True
  | .int _ => True
  | .bulk s => s ≠ []
  | .nilBulk => False
  | .nilArray => False
  | .array _ => False

/-! ## Beginnings of lines -/

section Beginnings

variable {mem : Mem} {top : Int}

theorem findCrlf_none {text : Bytes} (hno : 10 ∉ text) :
    ∀ {n : Nat} {q last : Int} {cr : Bool}, At mem q text → q + text.length = last →
      findCrlf mem last n q cr = none := by
  induction text with
  | nil =>
    intro n q last cr _ hlast
    cases n with
    | zero => rfl
    | succ n => rw [findCrlf, if_pos (by simpa using hlast)]
  | cons b text ih =>
    intro n q last cr h hlast
    cases n with
    | zero => rfl
    | succ n =>
      have hb : b ≠ 10 := fun hb => hno (by simp [hb])
      have hrest : 10 ∉ text := fun hin => hno (List.mem_cons_of_mem _ hin)
      rw [List.length_cons, Nat.cast_add, Nat.cast_one] at hlast
      rw [findCrlf, if_neg (by omega), h.head]
      split
      · exact ih hrest h.tail (by omega)
      · rw [if_neg fun hlf => hb hlf.2]
        exact ih hrest h.tail (by omega)

/-- A beginning of a line has no line feed. -/
theorem lineFeed_last {b : UInt8} {line t : Bytes} (hb : b ≠ 10) (hline : isLine line = true)
    (ht : t <+: b :: (line ++ crlf)) (hne : t ≠ b :: (line ++ crlf)) : 10 ∉ t := by
  have hsplit : b :: (line ++ crlf) = (b :: (line ++ [13])) ++ [10] := by simp [crlf]
  rw [hsplit] at ht hne
  have hfront := (List.prefix_concat_iff.1 ht).resolve_left hne
  intro hin
  have hmem := hfront.subset hin
  simp only [List.mem_cons, List.mem_append, List.not_mem_nil, or_false] at hmem
  rcases hmem with h | h | h
  · exact hb h.symm
  · have := List.all_eq_true.1 hline 10 h
    exact absurd this (by decide)
  · exact absurd h (by decide)

theorem line_whole {c : Chunk} {b : UInt8} {line : Bytes} (hb : b = 45 ∨ b = 43 ∨ b = 58) (hline : isLine line = true)
    (hc : c.data = b :: (line ++ crlf)) : c.decode = .ok := by
  have hat := at_load c.data c.around
  rw [hc] at hat
  rw [Chunk.decode, hc, redisProtoDecode, if_pos (by rw [hat.head]; exact hb)]
  refine redisParseLine_at hline ?_ hat
  rcases hb with rfl | rfl | rfl <;> decide

theorem line_part {c : Chunk} {b : UInt8} {line : Bytes} (hb : b = 45 ∨ b = 43 ∨ b = 58) (hline : isLine line = true)
    (hc : c.data <+: b :: (line ++ crlf)) (hne : c.data ≠ b :: (line ++ crlf)) : c.decode = .again := by
  have hb' : b ≠ 10 := by
    rcases hb with rfl | rfl | rfl <;> decide
  have hno := lineFeed_last hb' hline hc hne
  have hat := at_load c.data c.around
  have hhead : load c.data c.around 0 = b := by
    obtain ⟨d, t, hd⟩ := List.exists_cons_of_ne_nil c.ne
    rw [hd] at hat hc ⊢
    rw [hat.head]
    exact (List.cons_prefix_cons.1 hc).1
  rw [Chunk.decode, redisProtoDecode, if_pos (by rw [hhead]; exact hb), redisParseLine, Int.toNat_natCast,
    findCrlf_none hno hat (by simp)]
  rfl

/-! ## Beginnings of strings -/

theorem load_quiet {c : Chunk} (hc : c.Quiet) {i : Int} (hi : (c.data.length : Int) ≤ i) :
    isDigit (load c.data c.around i) = false := by
  rw [load, if_pos (by omega), List.getD_eq_getElem?_getD, List.getElem?_eq_none (by omega)]
  exact hc i hi

theorem decimal_length_le {v : Nat} (hv : v < 2 ^ 30) : (decimal v).length ≤ 10 := by
  by_cases h0 : v = 0
  · subst h0
    decide
  · refine Nat.le_of_not_lt fun hlt => ?_
    have := (lt_decimal_length h0 10).1 hlt
    omega

/-- A length, or its first digits, with which the string would go on behind the chunk. -/
theorem redisParseBulk_again {rdata len : Int} {v : Nat} (hnum : (strtol mem top rdata).1 = v) (hv : v < 2 ^ 30)
    (hlen : len < 1 + (decimal v).length + 2 + v + 2) : redisParseBulk mem top rdata len = .again := by
  have hdigits := decimal_length_le hv
  have hsum : 1 + (decimal v).length + 2 + v + 2 < 2 ^ 31 := by omega
  have hadd : addBulk 1 v = ((1 + (decimal v).length + 2 + v + 2 : Nat) : Int) := addBulk_eq hsum
  rw [redisParseBulk, hnum, int32_eq (by omega) (by omega), if_neg (by omega), hadd, if_pos (by push_cast; omega)]

/-- A number without a leading zero is at least as large as its text is long. -/
theorem length_le_readNat {b : UInt8} {ds : Bytes} (hb : b ≠ 48) (hdigit : isDigit b = true) :
    (b :: ds).length ≤ readNat (b :: ds) := by
  have hgrow : ∀ (ds : Bytes) (acc : Nat), 1 ≤ acc → acc + ds.length ≤ readFrom acc ds := by
    intro ds
    induction ds with
    | nil => exact fun acc _ => le_rfl
    | cons d ds ih =>
      intro acc hacc
      have := ih (10 * acc + digitVal d) (by omega)
      simp only [readFrom, List.foldl_cons, List.length_cons] at this ⊢
      omega
  have hval : 1 ≤ digitVal b := by
    have hrange := (isDigit_iff b).1 hdigit
    have hne : b.toNat ≠ 48 := fun h => hb (UInt8.toNat_inj.1 h)
    unfold digitVal
    omega
  have := hgrow ds (10 * 0 + digitVal b) (by omega)
  simp only [readFrom, readNat, List.foldl_cons, List.length_cons] at this ⊢
  omega

theorem readNat_le_append (ds es : Bytes) : readNat ds ≤ readNat (ds ++ es) := by
  have := le_readFrom (readNat ds) es
  rwa [readFrom, readNat, ← List.foldl_append] at this

/-- The buffer ends in the digits of the length, or in front of them. -/
theorem digits_part {v : Nat} {t : Bytes} (hv : v ≠ 0) (hlt : v < 2 ^ 30) (hin : t <+: decimal v)
    (hat : At mem 1 t) (hbehind : ∀ i, (t.length : Int) + 1 ≤ i → isDigit (mem i) = false)
    (htop : (t.length : Int) + 1 ≤ top) : redisParseBulk mem top 1 (t.length + 1) = .again := by
  cases t with
  | nil =>
    have hzero : (strtol mem top 1).1 = ((0 : Nat) : Int) := strtol_other fun i hi => hbehind i (by simpa using hi)
    exact redisParseBulk_again hzero (by decide) (by simp; omega)
  | cons b ds =>
    have hdig := decimal_isDigit v
    have hval := readNat_decimal v
    obtain ⟨es, hes⟩ := hin
    have hb : b ≠ 48 := by
      rintro rfl
      exact decimal_head hv (ds ++ es) hes.symm
    rw [← hes] at hdig
    have hdigits : ∀ c ∈ b :: ds, isDigit c = true := fun c hc => hdig c (List.mem_append_left _ hc)
    have hsmall : readNat (b :: ds) ≤ v := by
      rw [← hval, ← hes]
      exact readNat_le_append _ _
    have hlong : (b :: ds).length ≤ readNat (b :: ds) := length_le_readNat hb (hdigits b (List.mem_cons_self ..))
    have hnum : strtol mem top 1 = _ := strtol_run hb hdigits hat (hbehind _ (by omega)) (by omega) (by omega)
    exact redisParseBulk_again (congrArg Prod.fst hnum) (by omega) (by omega)

theorem bulk_part {c : Chunk} {s : Bytes} (hs : s ≠ []) (hlen : s.length < 2 ^ 30) (hquiet : c.Quiet)
    (hc : c.data <+: (Reply.bulk s).bytes) (hne : c.data ≠ (Reply.bulk s).bytes) : c.decode = .again := by
  have hlt : c.data.length < (Reply.bulk s).bytes.length :=
    lt_of_le_of_ne hc.length_le fun heq => hne (hc.eq_of_length heq)
  have hat := at_load c.data c.around
  have hnot : s.length ≠ 0 := fun h => hs (List.length_eq_zero_iff.1 h)
  have hbehind (i : Int) (hi : (c.data.length : Int) ≤ i) := load_quiet hquiet hi
  rw [bulk_length] at hlt
  rw [← List.append_nil (Reply.bulk s).bytes, bulk_bytes] at hc
  obtain ⟨d, t, hd⟩ := List.exists_cons_of_ne_nil c.ne
  rw [Chunk.decode]
  rw [hd] at hat hc hlt hbehind ⊢
  obtain ⟨rfl, ht⟩ := List.cons_prefix_cons.1 hc
  rw [redisProtoDecode, hat.head, if_neg (by decide), if_pos rfl]
  rw [List.length_cons] at hlt hbehind ⊢
  push_cast at hbehind ⊢
  -- the chunk ends in the digits of the length, or has all of them
  rcases List.prefix_or_prefix_of_prefix ht (List.prefix_append _ _) with hin | ⟨u, rfl⟩
  · exact digits_part hnot hlen hin hat.tail hbehind (by omega)
  · obtain ⟨hrun, hrest⟩ := at_append.1 hat.tail
    have hstop :
        isDigit (load (36 :: (decimal s.length ++ u)) c.around (0 + 1 + (decimal s.length).length)) = false := by
      cases u with
      | nil => exact hbehind _ (by rw [List.append_nil]; omega)
      | cons e u =>
        have he : e = 13 := (List.cons_prefix_cons.1 ((List.prefix_append_right_inj _).1 ht)).1
        rw [hrest.head, he]
        rfl
    have hnum : strtol _ (((decimal s.length ++ u).length : Int) + 1 + c.reach) _ = _ :=
      strtol_positive hnot (by omega) hrun hstop (by simp; omega)
    exact redisParseBulk_again (congrArg Prod.fst hnum) hlen (by omega)

end Beginnings

/-! ## Exactly these messages -/

theorem exact_line {m : Reply} {b : UInt8} {line : Bytes} (hm : m.bytes = b :: (line ++ crlf))
    (hb : b = 45 ∨ b = 43 ∨ b = 58) (hline : isLine line = true) : Exact m where
  whole c _ hc := line_whole hb hline (by rw [hc, hm])
  part c _ hc hne := line_part hb hline (by rwa [hm] at hc) (by rwa [hm] at hne)

theorem exact_bulk {s : Bytes} (hs : s ≠ []) (hlen : s.length < 2 ^ 30) : Exact (.bulk s) where
  whole c _ hc := by
    have hdigits := decimal_length_le hlen
    exact decode_whole hc rfl (by rw [bulk_length]; omega)
  part c hquiet hc hne := bulk_part hs hlen hquiet hc hne

/-- The test is not exact if it accepts a beginning. -/
theorem not_exact {m : Reply} (c : Chunk) (hquiet : c.Quiet) (hc : c.data <+: m.bytes) (hne : c.data ≠ m.bytes)
    (hok : c.decode = .ok) : ¬ Exact m := by
  intro h
  have := h.part c hquiet hc hne
  rw [hok] at this
  cases this

theorem plain_quiet (data : Bytes) (ne : data ≠ []) : (Chunk.plain data ne).Quiet := fun _ _ => rfl

/-- The digit of a `$0`, and letters behind it that make it `0xffffffff`. -/
def hexZero : Chunk where
  data := bytes "$0"
  ne := by decide
  around i := if i = 2 then 120 else if 3 ≤ i ∧ i ≤ 10 then 102 else 0
  reach := 10

theorem hexZero_quiet : hexZero.Quiet := by
  intro i _
  show isDigit (if i = 2 then 120 else if 3 ≤ i ∧ i ≤ 10 then 102 else 0) = false
  split
  · rfl
  · split <;> rfl

/-- Of the messages of the protocol, the completeness test is exact for the lines and for the strings that are
not empty, and for no other. -/
theorem complete_exact_iff (m : Reply) (hm : WellFormed m) : Exact m ↔ Sure m := by
  cases m with
  | status line => exact iff_of_true (exact_line rfl (.inr (.inl rfl)) hm.1) trivial
  | error line => exact iff_of_true (exact_line rfl (.inl rfl) hm.1) trivial
  | int n => exact iff_of_true (exact_line rfl (.inr (.inr rfl)) (isLine_decimalInt n)) trivial
  | bulk s =>
    by_cases hs : s = []
    · subst hs
      refine iff_of_false (not_exact hexZero hexZero_quiet ?_ ?_ ?_) fun h => h rfl
      · exact ⟨bytes "\r\n\r\n", by decide⟩
      · decide
      · decide +kernel
    · exact iff_of_true (exact_bulk hs hm) hs
  | nilBulk =>
    refine iff_of_false (not_exact (.plain (bytes "$-1") (by decide)) (plain_quiet _ _) ?_ ?_ ?_) id
    · exact ⟨bytes "\r\n", by decide⟩
    · decide
    · decide +kernel
  | nilArray => exact absurd hm id
  | array l =>
    refine iff_of_false (not_exact (.plain [42] (by decide)) (plain_quiet _ _) ?_ ?_ ?_) id
    · exact ⟨decimal l.length ++ crlf ++ Reply.bytesList l, rfl⟩
    · intro h
      have := congrArg List.length h
      rw [array_length, Chunk.plain, List.length_singleton] at this
      omega
    · decide +kernel

theorem complete_exact_iff_string :
    Chunk.decode (.plain (bytes "$3\r\nabc\r\n") (by decide)) = .ok ∧
      Chunk.decode (.plain (bytes "$3\r\nabc\r") (by decide)) = .again := by
  have h := (complete_exact_iff (.bulk (bytes "abc")) (show (bytes "abc").length < 2 ^ 30 by decide)).2
    (show bytes "abc" ≠ [] by decide)
  exact ⟨h.whole _ (plain_quiet _ _) (by decide),
    h.part _ (plain_quiet _ _) ⟨[10], by decide⟩ (by decide)⟩

/-- Behind the first line of its last element an array is taken for whole, and a null in front of its line
end; an array with a null that is not its last element may not be recognised at all. -/
theorem complete_not_exact :
    Chunk.decode (.plain (bytes "*1\r\n$1\r\n") (by decide)) = .ok ∧
      Chunk.decode (.plain (bytes "$-1") (by decide)) = .ok ∧
      Chunk.decode (.plain (Reply.array [.nilBulk, .bulk (bytes "999"), .bulk (bytes "a"), .bulk (bytes "b")]).bytes
        (by decide)) = .again := by
  decide +kernel

end NgProxy.Stream
