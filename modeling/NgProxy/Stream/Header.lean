/-
The header of an array, as `ngx_stream_lua_redis_parse_multi_bulk` reads it: digits into an `int` that wraps
around, and a `-` at any place that turns the rest of the line into -1. It is honoured exactly if it is a
number below 2^31 or a `-` and digits.
-/
import NgProxy.Stream.Agree

namespace NgProxy.Stream

open Lua Memory Text

/-! ## What the header loop accepts -/

/-- Decimal digits and nothing else. -/
def Digits (s : Bytes) : Prop := ∀ b ∈ s, isDigit b = true

instance : DecidablePred Digits := fun s => inferInstanceAs (Decidable (∀ b ∈ s, isDigit b = true))

/-- A `-` with a digit behind it, after digits, and then anything. -/
def Dashed (s : Bytes) : Prop := ∃ ds d junk, s = ds ++ 45 :: d :: junk ∧ Digits ds ∧ isDigit d = true

section Loop

variable {mem : Mem} {last : Int}

/-- The first CR of the bytes `l` at `p` is at `q`, behind `text`. -/
def FirstCr (l : Bytes) (p q : Int) (text : Bytes) : Prop :=
  13 ∉ text ∧ q = p + text.length ∧ ∃ rest, l = text ++ 13 :: rest

theorem firstCr_here (l : Bytes) (p : Int) : FirstCr (13 :: l) p p [] :=
  ⟨List.not_mem_nil, by simp, l, rfl⟩

theorem FirstCr.cons {l text : Bytes} {p q : Int} {b : UInt8} (h : FirstCr l (p + 1) q text) (hb : b ≠ 13) :
    FirstCr (b :: l) p q (b :: text) := by
  obtain ⟨hno, rfl, rest, rfl⟩ := h
  refine ⟨?_, ?_, rest, rfl⟩
  · simp [Ne.symm hb, hno]
  · rw [List.length_cons]
    omega

theorem digits_nil : Digits [] := fun _ hb => absurd hb List.not_mem_nil

theorem skipLine_some {l : Bytes} {n : Nat} {p q : Int} (hat : At mem p l) (hend : p + l.length = last)
    (h : skipLine mem last n p = some q) : ∃ text, FirstCr l p q text := by
  induction l generalizing n p with
  | nil =>
    cases n with
    | zero => cases h
    | succ n =>
      rw [skipLine, if_pos (by simp at hend; omega)] at h
      cases h
  | cons b l ih =>
    cases n with
    | zero => cases h
    | succ n =>
      rw [List.length_cons, Nat.cast_add, Nat.cast_one] at hend
      rw [skipLine, if_neg (by omega), hat.head] at h
      by_cases hcr : b = 13
      · rw [if_pos hcr] at h
        cases h
        subst hcr
        exact ⟨[], firstCr_here l _⟩
      · rw [if_neg hcr] at h
        obtain ⟨text, htext⟩ := ih hat.tail (by omega) h
        exact ⟨b :: text, htext.cons hcr⟩

/-- Behind a `-` with a digit the loop takes everything up to the CR. -/
theorem dashed_some {l : Bytes} {p q : Int} (hat : At mem p (45 :: l)) (hend : p + 1 + l.length = last)
    (hdigit : digitAt mem (p + 1) = true) (h : skipLine mem last (last - (p + 1)).toNat (p + 1) = some q) :
    ∃ text, FirstCr (45 :: l) p q text ∧ Dashed text := by
  obtain ⟨text, htext⟩ := skipLine_some hat.tail hend h
  obtain ⟨rest, rfl⟩ := htext.2.2
  rw [digitAt] at hdigit
  -- the digit behind the dash is the first byte of the rest of the line
  cases text with
  | nil =>
    rw [hat.tail.head] at hdigit
    exact absurd hdigit (by decide)
  | cons d junk =>
    rw [hat.tail.head] at hdigit
    exact ⟨45 :: d :: junk, htext.cons (by decide), [], d, junk, rfl, digits_nil, hdigit⟩

/-- By induction on what is left of the buffer; the count so far is that of the digits read, wrapped
around. -/
theorem readCount_some {l : Bytes} {n : Nat} {p q k : Int} {c : Nat} (hat : At mem p l) (hend : p + l.length = last)
    (h : readCount mem last n p (int32 c) = some (q, k)) :
    ∃ text, FirstCr l p q text ∧ (Digits text ∧ k = int32 (readFrom c text) ∨ Dashed text ∧ k = -1) := by
  induction l generalizing n p c with
  | nil =>
    cases n with
    | zero => cases h
    | succ n =>
      rw [readCount, if_pos (by simp at hend; omega)] at h
      cases h
  | cons b l ih =>
    cases n with
    | zero => cases h
    | succ n =>
      rw [List.length_cons, Nat.cast_add, Nat.cast_one] at hend
      rw [readCount, if_neg (by omega), hat.head] at h
      by_cases hcr : b = 13
      · rw [if_pos hcr] at h
        cases h
        subst hcr
        exact ⟨[], firstCr_here l _, .inl ⟨digits_nil, rfl⟩⟩
      · rw [if_neg hcr] at h
        by_cases hdash : b = 45
        · subst hdash
          rw [if_pos rfl] at h
          split at h
          · cases h
          · split at h
            · rename_i hdigit
              obtain ⟨r, hskip, hr⟩ := Option.map_eq_some_iff.1 h
              cases hr
              obtain ⟨text, htext, hdashed⟩ := dashed_some hat (by omega) hdigit hskip
              exact ⟨text, htext, .inr ⟨hdashed, rfl⟩⟩
            · cases h
        · rw [if_neg hdash] at h
          split at h
          · rename_i hdigit
            rw [digitAt, hat.head] at hdigit
            have hcast : 10 * (c : Int) + digitVal b = ((10 * c + digitVal b : Nat) : Int) := by simp
            rw [int32_step, hcast] at h
            obtain ⟨text, htext, hk⟩ := ih hat.tail (by omega) h
            refine ⟨b :: text, htext.cons hcr, ?_⟩
            rcases hk with ⟨hds, hk⟩ | ⟨⟨ds, d, junk, rfl, hds, hd⟩, hk⟩
            · exact .inl ⟨List.forall_mem_cons.2 ⟨hdigit, hds⟩, hk⟩
            · exact .inr ⟨⟨b :: ds, d, junk, rfl, List.forall_mem_cons.2 ⟨hdigit, hds⟩, hd⟩, hk⟩
          · cases h

theorem elements_length {n : Nat} {p : Int} {r : List Value × Int} (h : elements mem last n p = some r) :
    r.1.length = n := by
  induction n generalizing p r with
  | zero =>
    cases h
    rfl
  | succ n ih =>
    rw [elements] at h
    split at h
    · cases h
    · obtain ⟨r', hrec, rfl⟩ := Option.map_eq_some_iff.1 h
      rw [List.length_cons, ih hrec]

end Loop

/-! ## What it makes of a header -/

/-- The text between the `*` and the first CR. -/
def header (b : Bytes) : Bytes := (b.drop 1).takeWhile (· ≠ 13)

/-- The header is honoured: a number of elements that is stored, or a negative number and nil. -/
def Honours (h : Bytes) (v : Value) : Prop :=
  h ≠ [] ∧ Digits h ∧ (∃ l, v = .tab l ∧ l.length = readNat h) ∨
    v = .nil ∧ ∃ ds, ds ≠ [] ∧ Digits ds ∧ h = 45 :: ds

/-- A number below 2^31, or a `-` and digits. -/
def Plain (h : Bytes) : Prop :=
  h ≠ [] ∧ Digits h ∧ readNat h < 2 ^ 31 ∨ ∃ ds, ds ≠ [] ∧ Digits ds ∧ h = 45 :: ds

theorem takeWhile_cr {text rest : Bytes} (h : 13 ∉ text) : (text ++ 13 :: rest).takeWhile (· ≠ 13) = text := by
  rw [List.takeWhile_append_of_pos]
  · simp
  · intro b hb
    simp only [ne_eq, decide_eq_true_eq]
    rintro rfl
    exact h hb

theorem lineReply_type (mem : Mem) (last src : Int) (type : ReplyType) (value : Bytes → Value) (message : String) :
    (lineReply mem last src type value message).type = .bad ∨
      (lineReply mem last src type value message).type = type := by
  unfold lineReply
  dsimp only
  split
  · exact .inl rfl
  · exact .inr rfl

theorem bulkReply_type (mem : Mem) (last src : Int) :
    (bulkReply mem last src).type = .bad ∨ (bulkReply mem last src).type = .bulk := by
  unfold bulkReply
  dsimp only
  split
  · exact .inl rfl
  · exact .inr rfl

/-- Only `*` starts an array. -/
theorem redisParse_array {mem : Mem} {last src : Int} {r : Parsed} (h : redisParse mem last src = .ok r)
    (htype : r.type = .multiBulk) :
    last ≠ src ∧ ∃ q, parseMultiBulk mem last (src + 1) = .ok (some (r.value, q)) := by
  have hline (type : ReplyType) (value : Bytes → Value) (message : String) (hne : type ≠ .multiBulk) :
      .ok (lineReply mem last src type value message) ≠ (.ok r : Except LuaError Parsed) := by
    rintro ⟨⟩
    rcases lineReply_type mem last src type value message with hb | hb
    all_goals
      rw [htype] at hb
      first | exact hne hb.symm | cases hb
  unfold redisParse at h
  split at h
  · cases h
    cases htype
  · rename_i hne
    refine ⟨hne, ?_⟩
    split at h
    · exact absurd h (hline _ _ _ (by decide))
    · split at h
      · exact absurd h (hline _ _ _ (by decide))
      · split at h
        · exact absurd h (hline _ _ _ (by decide))
        · split at h
          · cases h
            rcases bulkReply_type mem last src with hb | hb
            all_goals
              rw [htype] at hb
              cases hb
          · split at h
            · unfold multiBulkReply at h
              rcases hp : parseMultiBulk mem last (src + 1) with e | _ | ⟨v, q⟩
              all_goals
                rw [hp] at h
                cases h
              · cases htype
              · exact ⟨q, rfl⟩
            · cases h
              cases htype

/-- The count of an array that is accepted, by its header. -/
theorem array_cases {outside : Mem} {b : Bytes} {r : Parsed} (h : redisDecode outside b = .ok r)
    (htype : r.type = .multiBulk) :
    ∃ k, (Digits (header b) ∧ k = int32 (readNat (header b)) ∨ Dashed (header b) ∧ k = -1) ∧
      (k = -1 ∧ r.value = .nil ∨ k ≠ -1 ∧ ∃ l, r.value = .tab l ∧ l.length = k.toNat) := by
  obtain ⟨hne, q, hparse⟩ := redisParse_array h htype
  have hat := at_load b outside
  generalize r.value = v at hparse ⊢
  cases b with
  | nil => exact absurd rfl hne
  | cons c l =>
    rw [parseMultiBulk] at hparse
    split at hparse
    · cases hparse
    · split at hparse
      · cases hparse
      · rename_i p k hcount
        obtain ⟨text, ⟨hno, -, rest, rfl⟩, hk⟩ := readCount_some (c := 0) hat.tail (by simp; omega) hcount
        have hheader : header (c :: (text ++ 13 :: rest)) = text := takeWhile_cr hno
        rw [hheader]
        refine ⟨k, hk, ?_⟩
        split at hparse
        · cases hparse
        · split at hparse
          · cases hparse
          · split at hparse
            · rename_i hnil
              cases hparse
              exact .inl ⟨hnil, rfl⟩
            · rename_i hcount'
              split at hparse
              · cases hparse
              · obtain ⟨t, ht, heq⟩ := Option.map_eq_some_iff.1 (Except.ok.inj hparse)
                cases heq
                exact .inr ⟨hcount', t.1, rfl, elements_length ht⟩

/-! ## Headers that are honoured -/

/-- A call that returns, with a reply of this type. -/
theorem returned_type {x : Except LuaError Parsed} {type : ReplyType} (h : x.toOption.map Parsed.type = some type) :
    ∃ r, x = .ok r ∧ r.type = type := by
  obtain ⟨r, hr, htype⟩ := Option.map_eq_some_iff.1 h
  cases x with
  | error e => cases hr
  | ok r' =>
    cases hr
    exact ⟨r, rfl, htype⟩

theorem Dashed.not_digits {h : Bytes} (hd : Dashed h) : ¬ Digits h := by
  obtain ⟨ds, d, junk, rfl, -⟩ := hd
  intro hall
  exact absurd (hall 45 (by simp)) (by decide)

theorem int32_lt (x : Int) : int32 x < 2 ^ 31 := by
  unfold int32
  omega

/-- The header of an array is honoured exactly if it is a number below 2^31, or a `-` and digits; whatever
the memory around the buffer holds. -/
theorem array_header_iff (outside : Mem) (b : Bytes) (r : Parsed) (h : redisDecode outside b = .ok r)
    (htype : r.type = .multiBulk) : Honours (header b) r.value ↔ Plain (header b) := by
  obtain ⟨k, hk, hval⟩ := array_cases h htype
  constructor
  · rintro (⟨hne, hds, l, hv, hlen⟩ | ⟨-, hneg⟩)
    · refine .inl ⟨hne, hds, ?_⟩
      rcases hk with ⟨-, hk⟩ | ⟨hdash, -⟩
      · rcases hval with ⟨-, hnil⟩ | ⟨-, l', hv', hlen'⟩
        · rw [hv] at hnil
          cases hnil
        · rw [hv] at hv'
          cases hv'
          have hlt := int32_lt (readNat (header b))
          omega
      · exact absurd hds hdash.not_digits
    · exact .inr hneg
  · rintro (⟨hne, hds, hlt⟩ | ⟨ds, hne, hds, heq⟩)
    · rcases hk with ⟨-, hk⟩ | ⟨hdash, -⟩
      · rw [int32_eq (by omega) (by omega)] at hk
        rcases hval with ⟨hneg, -⟩ | ⟨-, l, hv, hlen⟩
        · omega
        · exact .inl ⟨hne, hds, l, hv, by omega⟩
      · exact absurd hds hdash.not_digits
    · rcases hk with ⟨hdigits, -⟩ | ⟨-, hk⟩
      · rw [heq] at hdigits
        exact absurd (hdigits 45 (List.mem_cons_self ..)) (by decide)
      · rcases hval with ⟨-, hnil⟩ | ⟨hne', -⟩
        · exact .inr ⟨hnil, ds, hne, hds, heq⟩
        · exact absurd hk hne'

def pairReply : Bytes := bytes "*2\r\n$1\r\nx\r\n:7\r\n"

theorem array_header_iff_pair :
    ∃ r, redisDecode (fun _ => 0) pairReply = .ok r ∧ Honours (header pairReply) r.value := by
  have hret : (redisDecode (fun _ => 0) pairReply).toOption.map Parsed.type = some .multiBulk := by decide +kernel
  obtain ⟨r, h, htype⟩ := returned_type hret
  exact ⟨r, h, (array_header_iff (fun _ => 0) pairReply r h htype).2 (.inl (by decide +kernel))⟩

/-- Without a `-` in front, an empty header or a nil is not what it should be. -/
theorem not_honours {h : Bytes} {v : Value} (hdash : h.head? ≠ some 45) (hv : h = [] ∨ v.isNil = true) :
    ¬ Honours h v := by
  rintro (⟨hne, -, l, rfl, -⟩ | ⟨-, ds, -, -, rfl⟩)
  · exact hv.elim hne (by simp [Value.isNil])
  · exact hdash rfl

/-- An array is returned whose header is not honoured. -/
def Misread (b : Bytes) : Prop :=
  ∃ r, redisDecode (fun _ => 0) b = .ok r ∧ r.type = .multiBulk ∧ ¬ Honours (header b) r.value

theorem misread {b : Bytes}
    (h : (redisDecode (fun _ => 0) b).toOption.map (fun r => (r.type, r.value.isNil)) =
      some (.multiBulk, !(header b).isEmpty))
    (hdash : (header b).head? ≠ some 45) : Misread b := by
  cases hr : redisDecode (fun _ => 0) b with
  | error e =>
    rw [hr] at h
    cases h
  | ok r =>
    rw [hr] at h
    have hpair : (r.type, r.value.isNil) = (.multiBulk, !(header b).isEmpty) := Option.some.inj h
    have hnil : r.value.isNil = !(header b).isEmpty := congrArg Prod.snd hpair
    refine ⟨r, hr, congrArg Prod.fst hpair, not_honours hdash ?_⟩
    cases hb : header b with
    | nil => exact .inl rfl
    | cons c l => exact .inr (by rw [hnil, hb]; rfl)

/-- No count at all is taken for 0; a `-` behind digits makes a nil of what follows, and so does 2^32 - 1. -/
theorem array_headers_misread :
    Misread (bytes "*\r\n") ∧ Misread (bytes "*1-2x\r\n") ∧ Misread (bytes "*4294967295\r\n") :=
  ⟨misread (by decide +kernel) (by decide), misread (by decide +kernel) (by decide),
    misread (by decide +kernel) (by decide)⟩

end NgProxy.Stream
