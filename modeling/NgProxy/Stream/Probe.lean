/-
What `redis_proto_decode` does to find out whether a message is complete: which bytes it reads, how its
running length grows, and how often the array loop turns. The lengths come from the data, and `strtol` is not
told where the data ends; the test keeps to the received bytes exactly if every number it gets to ends among
them and no length but -1 and -2 is negative or too large for an `int`.
-/
import NgProxy.Stream.Bounds
import NgProxy.Stream.Framing

namespace NgProxy.Stream

open Lua Memory Text

/-- What happens besides reading: `d` is added to the running length, the length is compared with that of the
buffer, or the array loop begins a turn. -/
inductive Mark where
  | add (len d : Int)
  | compare (len : Int)
  | turn

abbrev Probe := Scan Mark

/-! ## The test with a trace -/

namespace Probe

open Scan

def grow (len d : Int) : Probe Int := do
  note (.add len d)
  pure (int32 (len + d))

def addBulk (len bulklen : Int) : Probe Int := do
  let len ← grow len (redisGetNumSize bulklen)
  let len ← grow len 2
  grow len (int32 (bulklen + 2))

def redisParseLine (rdata rdataLen : Int) : Probe Rc := do
  let p ← unnoted (Walk.findCrlf (rdata + rdataLen) rdataLen.toNat rdata false)
  pure (if p.isSome then .ok else .again)

variable (top : Int)

def redisParseBulk (rdata rdataLen : Int) : Probe Rc := do
  let r ← strtol top rdata
  if int32 r.1 = -1 then pure .ok
  else do
    let len ← addBulk 1 (int32 r.1)
    note (.compare len)
    if len > rdataLen then pure .again else pure .ok

def multibulkLoop (rdataLen : Int) : Nat → Int → Int → Probe Rc
  | 0, _, _ => pure .ok
  | n + 1, rest, len => do
    note .turn
    note (.compare len)
    if len > rdataLen then pure .again
    else do
      let len ← grow len 1
      let r ← strtol top (rest + 1)
      -- a null leaves the pointer in front of its line end
      if int32 r.1 = -1 then multibulkLoop rdataLen n r.2 len
      else do
        let len ← addBulk len (int32 r.1)
        multibulkLoop rdataLen n (r.2 + 2 + int32 (int32 r.1 + 2)) len

def redisParseMultibulk (rdata rdataLen : Int) : Probe Rc := do
  let r ← strtol top rdata
  let len ← grow 1 2
  multibulkLoop top rdataLen (int32 r.1).toNat (r.2 + 2) len

/-- `redis_proto_decode` and what it does. -/
def redisProtoDecode (rdata len : Int) : Probe Rc := do
  let c ← read rdata
  if c = 45 ∨ c = 43 ∨ c = 58 then redisParseLine rdata len
  else if c = 36 then redisParseBulk top (rdata + 1) len
  else if c = 42 then redisParseMultibulk top (rdata + 1) len
  else pure .error

/-! ## It is the test -/

section Value

variable (mem : Mem)

@[simp] theorem grow_value (len d : Int) : (grow len d).value mem = int32 (len + d) := rfl

@[simp] theorem addBulk_value (len bulklen : Int) : (addBulk len bulklen).value mem = Stream.addBulk len bulklen := by
  simp only [addBulk, Stream.addBulk, value_bind, grow_value]

theorem redisParseLine_value (rdata rdataLen : Int) :
    (redisParseLine rdata rdataLen).value mem = Stream.redisParseLine mem rdata rdataLen := by
  simp only [redisParseLine, Stream.redisParseLine, value_bind, value_pure, value_unnoted, Walk.findCrlf_value]

theorem redisParseBulk_value (rdata rdataLen : Int) :
    (redisParseBulk top rdata rdataLen).value mem = Stream.redisParseBulk mem top rdata rdataLen := by
  rw [redisParseBulk, Stream.redisParseBulk, value_bind, strtol_value, value_ite]
  by_cases hnull : int32 (Memory.strtol mem top rdata).1 = -1
  · rw [if_pos hnull, if_pos hnull, value_pure]
  · rw [if_neg hnull, if_neg hnull, value_bind, addBulk_value, value_bind, value_ite, value_pure, value_pure]

theorem multibulkLoop_value (rdataLen : Int) (n : Nat) (rest len : Int) :
    (multibulkLoop top rdataLen n rest len).value mem = Stream.multibulkLoop mem top rdataLen n rest len := by
  induction n generalizing rest len with
  | zero => rfl
  | succ n ih =>
    simp only [multibulkLoop, Stream.multibulkLoop, value_bind, value_ite, value_pure, strtol_value, grow_value,
      addBulk_value, ih]

theorem redisParseMultibulk_value (rdata rdataLen : Int) :
    (redisParseMultibulk top rdata rdataLen).value mem = Stream.redisParseMultibulk mem top rdata rdataLen := by
  simp only [redisParseMultibulk, Stream.redisParseMultibulk, value_bind, strtol_value, multibulkLoop_value, grow_value]
  rfl

/-- The trace aside, it is the test. -/
theorem redisProtoDecode_value (rdata len : Int) :
    (redisProtoDecode top rdata len).value mem = Stream.redisProtoDecode mem top rdata len := by
  simp only [redisProtoDecode, Stream.redisProtoDecode, value_bind, value_ite, value_pure, redisParseLine_value,
    redisParseBulk_value, redisParseMultibulk_value]
  rfl

end Value

/-! ## What is asked of the trace -/

def isCompare : Access Mark → Bool
  | .note (.compare _) => true
  | _ => false

def isTurn : Access Mark → Bool
  | .note .turn => true
  | _ => false

/-- What is added to the length lets it neither fall nor leave the range of `int`, if the length is compared
later. -/
def Steady (later : List (Access Mark)) : Access Mark → Prop
  | .note (.add len d) => later.any isCompare = true → 0 ≤ d ∧ len + d < 2 ^ 31
  | _ => True

instance (later : List (Access Mark)) : DecidablePred (Steady later)
  | .note (.add _ _) => inferInstanceAs (Decidable (_ → _ ∧ _))
  | .note (.compare _) => inferInstanceAs (Decidable True)
  | .note .turn => inferInstanceAs (Decidable True)
  | .read _ => inferInstanceAs (Decidable True)
  | .copy _ _ => inferInstanceAs (Decidable True)

/-- The running length only grows, and within `int`, up to the last comparison. -/
def Grows : List (Access Mark) → Prop
  | [] => True
  | a :: l => Steady l a ∧ Grows l

def decGrows : (l : List (Access Mark)) → Decidable (Grows l)
  | [] => inferInstanceAs (Decidable True)
  | _ :: l => @instDecidableAnd _ _ _ (decGrows l)

instance : DecidablePred Grows := decGrows

/-- Only the `n` received bytes are read, and the running length grows. -/
def Kept (n : Int) (l : List (Access Mark)) : Prop := (∀ a ∈ l, a.Within n) ∧ Grows l

instance (n : Int) : DecidablePred (Kept n) := fun _ => inferInstanceAs (Decidable (_ ∧ _))

/-- Nothing but reads. -/
def Reads (l : List (Access Mark)) : Prop := ∀ a ∈ l, ∃ i, a = .read i

section Trace

variable {n : Int} {l t : List (Access Mark)}

theorem kept_nil : Kept n [] := ⟨fun _ h => absurd h List.not_mem_nil, trivial⟩

theorem kept_add {len d : Int} :
    Kept n (.note (.add len d) :: t) ↔ (t.any isCompare = true → 0 ≤ d ∧ len + d < 2 ^ 31) ∧ Kept n t := by
  unfold Kept
  rw [List.forall_mem_cons]
  constructor
  · rintro ⟨⟨-, hin⟩, hstep, hgrows⟩
    exact ⟨hstep, hin, hgrows⟩
  · rintro ⟨hstep, hin, hgrows⟩
    exact ⟨⟨trivial, hin⟩, hstep, hgrows⟩

theorem kept_compare {len : Int} : Kept n (.note (.compare len) :: t) ↔ Kept n t := by
  unfold Kept
  rw [List.forall_mem_cons]
  exact and_congr (and_iff_right trivial) (and_iff_right trivial)

theorem kept_turn : Kept n (.note .turn :: t) ↔ Kept n t := by
  unfold Kept
  rw [List.forall_mem_cons]
  exact and_congr (and_iff_right trivial) (and_iff_right trivial)

theorem Reads.any (h : Reads l) : (l ++ t).any isCompare = t.any isCompare := by
  have hl : l.any isCompare = false := by
    rw [List.any_eq_false]
    intro a ha
    obtain ⟨i, rfl⟩ := h a ha
    exact Bool.false_ne_true
  rw [List.any_append, hl, Bool.false_or]

theorem Reads.countP (h : Reads l) : (l ++ t).countP isTurn = t.countP isTurn := by
  have hl : l.countP isTurn = 0 := by
    rw [List.countP_eq_zero]
    intro a ha
    obtain ⟨i, rfl⟩ := h a ha
    exact Bool.false_ne_true
  rw [List.countP_append, hl, Nat.zero_add]

theorem Reads.grows (h : Reads l) : Grows (l ++ t) ↔ Grows t := by
  induction l with
  | nil => exact Iff.rfl
  | cons a l ih =>
    obtain ⟨i, rfl⟩ := h a (List.mem_cons_self ..)
    have hl : Reads l := fun b hb => h b (List.mem_cons_of_mem _ hb)
    exact (and_iff_right trivial).trans (ih hl)

theorem Reads.kept (h : Reads l) : Kept n (l ++ t) ↔ (∀ a ∈ l, a.Within n) ∧ Kept n t := by
  unfold Kept
  rw [List.forall_mem_append, h.grows, and_assoc]

variable {mem : Mem} {top : Int}

theorem strtol_only_reads (p : Int) : Reads ((strtol top p : Probe (Int × Int)).trace mem) :=
  strtol_reads fun i => ⟨i, rfl⟩

theorem strtol_kept {p : Int} (hp : 0 ≤ p) (htop : n ≤ top) :
    Kept n ((strtol top p : Probe (Int × Int)).trace mem ++ t) ↔ strtolStop mem top p < n ∧ Kept n t :=
  (strtol_only_reads p).kept.trans (and_congr_left' (strtol_within hp htop))

/-! ### The running length -/

theorem int32_range (x : Int) : -2 ^ 31 ≤ int32 x ∧ int32 x < 2 ^ 31 := by
  unfold int32
  omega

/-- The length behind a bulk of length `v`, if no `int` were too small for it. -/
def bulkEnd (len v : Int) : Int := len + redisGetNumSize v + 2 + (v + 2)

theorem lt_bulkEnd (len v : Int) : len + (v + 2) < bulkEnd len v := by
  unfold bulkEnd
  omega

theorem addBulk_trace (len v : Int) : (addBulk len v).trace mem =
    [.note (.add len (redisGetNumSize v)), .note (.add (int32 (len + redisGetNumSize v)) 2),
      .note (.add (int32 (int32 (len + redisGetNumSize v) + 2)) (int32 (v + 2)))] := rfl

/-- Behind a sum that did not wrap around the length is what it should be. -/
theorem addBulk_exact {len v : Int} (h₀ : 0 ≤ len) (hv : -2 ≤ v) (hend : bulkEnd len v < 2 ^ 31) :
    Stream.addBulk len v = bulkEnd len v := by
  unfold bulkEnd at hend ⊢
  rw [Stream.addBulk, int32_eq (x := len + redisGetNumSize v) (by omega) (by omega),
    int32_eq (x := len + redisGetNumSize v + 2) (by omega) (by omega), int32_eq (x := v + 2) (by omega) (by omega),
    int32_eq (by omega) (by omega)]

theorem addBulk_turns (len v : Int) : ((addBulk len v).trace mem).countP isTurn = 0 := rfl

/-- If the length is compared afterwards, a bulk may be added exactly if it is not shorter than -2 and its
end is in the range of `int`. -/
theorem addBulk_kept {len v : Int} (h₀ : 0 ≤ len) (hv : -2 ^ 31 ≤ v ∧ v < 2 ^ 31) (ht : t.any isCompare = true) :
    Kept n ((addBulk len v).trace mem ++ t) ↔ (-2 ≤ v ∧ bulkEnd len v < 2 ^ 31) ∧ Kept n t := by
  obtain ⟨hlo, hhi⟩ := hv
  rw [addBulk_trace]
  simp only [List.cons_append, List.nil_append]
  rw [kept_add, kept_add, kept_add]
  simp only [List.any_cons, isCompare, Bool.false_or, ht, true_imp_iff]
  rw [← and_assoc, ← and_assoc]
  refine and_congr_left' ?_
  unfold bulkEnd
  constructor
  · rintro ⟨⟨⟨-, h₁⟩, -, h₂⟩, h₃, h₄⟩
    rw [int32_eq (x := len + redisGetNumSize v) (by omega) (by omega)] at h₂ h₄
    rw [int32_eq (x := len + redisGetNumSize v + 2) (by omega) (by omega)] at h₄
    -- `bulklen + 2` is an `int` of its own, and negative if it wraps around
    have hwrap : int32 (v + 2) = v + 2 ∨ int32 (v + 2) < 0 := by
      unfold int32
      omega
    omega
  · rintro ⟨hlow, hend⟩
    rw [int32_eq (x := len + redisGetNumSize v) (by omega) (by omega),
      int32_eq (x := len + redisGetNumSize v + 2) (by omega) (by omega), int32_eq (x := v + 2) (by omega) (by omega)]
    omega

/-- What is added and not compared any more may wrap around. -/
theorem addBulk_unchecked {len v : Int} (ht : t.any isCompare = false) :
    Kept n ((addBulk len v).trace mem ++ t) ↔ Kept n t := by
  rw [addBulk_trace]
  simp only [List.cons_append, List.nil_append]
  rw [kept_add, kept_add, kept_add]
  simp [isCompare, ht]

/-! ### The array loop -/

/-- The length behind an element with the length `v`; a null counts only its `$`. -/
def elementEnd (len v : Int) : Int := if v = -1 then len + 1 else bulkEnd (len + 1) v

end Trace

section Loop

variable (mem : Mem) (top n : Int)

/-- The header of each element the loop gets to, with the length `len` so far, ends in the received bytes; and
behind all but the last the length has grown and is in the range of `int`. -/
def Orderly : Nat → Int → Int → Prop
  | 0, _, _ => True
  | k + 1, rest, len =>
    let r := Memory.strtol mem top (rest + 1)
    let v := int32 r.1
    len ≤ n → strtolStop mem top (rest + 1) < n ∧
      (k = 0 ∨ -2 ≤ v ∧ elementEnd len v < 2 ^ 31 ∧
        Orderly k (if v = -1 then r.2 else r.2 + 2 + (v + 2)) (elementEnd len v))

variable {mem top n}

theorem loop_any (k : Nat) (rest len : Int) :
    ((multibulkLoop top n k rest len).trace mem).any isCompare = decide (0 < k) := by
  cases k with
  | zero => rfl
  | succ k => simp [multibulkLoop, isCompare]

theorem loop_trace (k : Nat) (rest : Int) {len : Int} (hlen : len ≤ n) :
    (multibulkLoop top n (k + 1) rest len).trace mem =
      .note .turn :: .note (.compare len) :: .note (.add len 1) ::
        ((strtol top (rest + 1) : Probe (Int × Int)).trace mem ++
          let r := Memory.strtol mem top (rest + 1)
          if int32 r.1 = -1 then (multibulkLoop top n k r.2 (int32 (len + 1))).trace mem
          else (addBulk (int32 (len + 1)) (int32 r.1)).trace mem ++
            (multibulkLoop top n k (r.2 + 2 + int32 (int32 r.1 + 2))
              (Stream.addBulk (int32 (len + 1)) (int32 r.1))).trace mem) := by
  rw [multibulkLoop]
  simp only [trace_bind, trace_note, trace_ite, if_neg (not_lt.2 hlen), grow_value, strtol_value, addBulk_value]
  rfl

theorem loop_stops (k : Nat) (rest : Int) {len : Int} (hlen : n < len) :
    (multibulkLoop top n (k + 1) rest len).trace mem = [.note .turn, .note (.compare len)] := by
  rw [multibulkLoop]
  simp only [trace_bind, trace_note, if_pos hlen, trace_pure]
  rfl

theorem turn_countP (len : Int) (t : List (Access Mark)) :
    (.note .turn :: .note (.compare len) :: .note (.add len 1) :: t).countP isTurn = t.countP isTurn + 1 := by
  simp [List.countP_cons, isTurn]

theorem loop_compares (k : Nat) (rest len : Int) :
    ((multibulkLoop top n (k + 1) rest len).trace mem).any isCompare = true := by
  rw [loop_any]
  exact decide_eq_true (Nat.succ_pos k)

/-- Behind an element that is not the last, the running length must still be one. -/
theorem element_bounds {k : Nat} {rest len v : Int} (h₀ : 0 ≤ len) (hle : len ≤ n)
    (hv : int32 (Memory.strtol mem top (rest + 1)).1 = v)
    (h : Kept n ((multibulkLoop top n (k + 2) rest len).trace mem)) : -2 ≤ v ∧ elementEnd len v < 2 ^ 31 := by
  have hrange : -2 ^ 31 ≤ v ∧ v < 2 ^ 31 := hv ▸ int32_range _
  rw [loop_trace (k + 1) rest hle, kept_turn, kept_compare, kept_add, (strtol_only_reads _).any,
    (strtol_only_reads _).kept] at h
  obtain ⟨hone, -, htail⟩ := h
  dsimp only at hone htail
  rw [hv] at hone htail
  unfold elementEnd
  by_cases hnull : v = -1
  · rw [if_pos hnull] at hone ⊢
    exact ⟨by omega, (hone (loop_compares _ _ _)).2⟩
  · -- the next turn compares, so no sum of this one may wrap around
    rw [if_neg hnull] at hone htail ⊢
    have hone := (hone (by rw [List.any_append, loop_compares, Bool.or_true])).2
    rw [int32_eq (by omega) hone, addBulk_kept (by omega) hrange (loop_compares _ _ _)] at htail
    exact htail.1

/-- What an element with the length `v` adds behind its `$`. -/
def elementMarks (mem : Mem) (len v : Int) : List (Access Mark) :=
  if v = -1 then [] else (addBulk (len + 1) v).trace mem

/-- The loop goes on behind such an element. -/
theorem loop_next (k : Nat) {rest len v : Int} (h₀ : 0 ≤ len) (hle : len ≤ n)
    (hv : int32 (Memory.strtol mem top (rest + 1)).1 = v) (hlow : -2 ≤ v) (hend : elementEnd len v < 2 ^ 31) :
    (multibulkLoop top n (k + 1) rest len).trace mem =
      .note .turn :: .note (.compare len) :: .note (.add len 1) ::
        ((strtol top (rest + 1) : Probe (Int × Int)).trace mem ++ (elementMarks mem len v ++
          (multibulkLoop top n k (if v = -1 then (Memory.strtol mem top (rest + 1)).2
            else (Memory.strtol mem top (rest + 1)).2 + 2 + (v + 2)) (elementEnd len v)).trace mem)) := by
  rw [loop_trace k rest hle]
  dsimp only
  rw [hv]
  unfold elementEnd at hend
  unfold elementMarks elementEnd
  by_cases hnull : v = -1
  · rw [if_pos hnull] at hend
    simp only [if_pos hnull, List.nil_append]
    rw [int32_eq (by omega) hend]
  · rw [if_neg hnull] at hend
    have hgrow := lt_bulkEnd (len + 1) v
    simp only [if_neg hnull]
    rw [int32_eq (x := len + 1) (by omega) (by omega), int32_eq (x := v + 2) (by omega) (by omega),
      addBulk_exact (by omega) hlow hend]

theorem lt_elementEnd (len : Int) {v : Int} (hlow : -2 ≤ v) : len < elementEnd len v := by
  have := lt_bulkEnd (len + 1) v
  unfold elementEnd
  split <;> omega

theorem elementMarks_kept {len v : Int} {t : List (Access Mark)} (h₀ : 0 ≤ len) (hlow : -2 ≤ v)
    (hend : elementEnd len v < 2 ^ 31) : Kept n (elementMarks mem len v ++ t) ↔ Kept n t := by
  have hgrow := lt_bulkEnd (len + 1) v
  unfold elementEnd at hend
  unfold elementMarks
  split
  · rw [List.nil_append]
  · rename_i hnull
    rw [if_neg hnull] at hend
    cases ht : t.any isCompare with
    | false => exact addBulk_unchecked ht
    | true =>
      rw [addBulk_kept (by omega) ⟨by omega, by omega⟩ ht]
      exact and_iff_right ⟨hlow, hend⟩

theorem elementMarks_turns (len v : Int) : (elementMarks mem len v).countP isTurn = 0 := by
  unfold elementMarks
  split <;> rfl

/-- Nothing is compared behind the last element. -/
theorem last_kept (htop : n ≤ top) {rest len : Int} (hrest : 0 ≤ rest) (hle : len ≤ n) :
    Kept n ((multibulkLoop top n 1 rest len).trace mem) ↔ strtolStop mem top (rest + 1) < n := by
  rw [loop_trace 0 rest hle, kept_turn, kept_compare, kept_add, strtol_kept (by omega) htop,
    (strtol_only_reads _).any]
  dsimp only
  split
  · exact (and_iff_right fun h => absurd h Bool.false_ne_true).trans (and_iff_left kept_nil)
  · exact (and_iff_right fun h => absurd h Bool.false_ne_true).trans
      (and_iff_left ((addBulk_unchecked rfl).2 kept_nil))

theorem last_turns (mem : Mem) (top rest : Int) {len : Int} (hle : len ≤ n) :
    ((multibulkLoop top n 1 rest len).trace mem).countP isTurn = 1 := by
  rw [loop_trace 0 rest hle, turn_countP, (strtol_only_reads _).countP]
  dsimp only
  split <;> rfl

/-- By induction on how many elements are left. The pointer is in front of an element or behind the last one,
and the length is an `int` that is not negative. -/
theorem loop_kept (htop : n ≤ top) (k : Nat) {rest len : Int} (hrest : 0 ≤ rest) (h₀ : 0 ≤ len) (hlen : len < 2 ^ 31) :
    Kept n ((multibulkLoop top n k rest len).trace mem) ↔ Orderly mem top n k rest len := by
  induction k generalizing rest len with
  | zero => exact iff_of_true kept_nil trivial
  | succ k ih =>
    by_cases hover : n < len
    · rw [loop_stops k rest hover, kept_turn, kept_compare]
      exact iff_of_true kept_nil fun h => absurd h (not_le.2 hover)
    · have hle : len ≤ n := not_lt.1 hover
      have hmove := le_strtol_rest mem top (rest + 1)
      generalize hv : int32 (Memory.strtol mem top (rest + 1)).1 = v
      rw [Orderly, hv, imp_iff_right hle]
      have hstep (hlow : -2 ≤ v) (hend : elementEnd len v < 2 ^ 31) :
          Kept n ((multibulkLoop top n (k + 1) rest len).trace mem) ↔ strtolStop mem top (rest + 1) < n ∧
            Orderly mem top n k (if v = -1 then (Memory.strtol mem top (rest + 1)).2
              else (Memory.strtol mem top (rest + 1)).2 + 2 + (v + 2)) (elementEnd len v) := by
        have hgrow := lt_elementEnd len hlow
        rw [loop_next k h₀ hle hv hlow hend, kept_turn, kept_compare, kept_add, strtol_kept (by omega) htop,
          elementMarks_kept h₀ hlow hend, ih (by split <;> omega) (by omega) hend]
        exact and_iff_right fun _ => ⟨by decide, by omega⟩
      cases k with
      | zero =>
        rw [last_kept htop hrest hle]
        exact (and_iff_left (.inl rfl)).symm
      | succ k =>
        constructor
        · intro h
          obtain ⟨hlow, hend⟩ := element_bounds h₀ hle hv h
          obtain ⟨hstop, hrest⟩ := (hstep hlow hend).1 h
          exact ⟨hstop, .inr ⟨hlow, hend, hrest⟩⟩
        · rintro ⟨hstop, hk | ⟨hlow, hend, hrest⟩⟩
          · cases hk
          · exact (hstep hlow hend).2 ⟨hstop, hrest⟩

/-- A turn that does not return adds to the length, which was compared before it. -/
theorem loop_turns (k : Nat) {rest len : Int} (h₀ : 0 ≤ len) (h : Orderly mem top n k rest len) :
    (((multibulkLoop top n k rest len).trace mem).countP isTurn : Int) ≤ max 0 (n + 1 - len) + 1 := by
  induction k generalizing rest len with
  | zero =>
    have hzero : ((multibulkLoop top n 0 rest len).trace mem).countP isTurn = 0 := rfl
    omega
  | succ k ih =>
    by_cases hover : n < len
    · rw [loop_stops k rest hover]
      have hone : [.note .turn, .note (.compare len)].countP isTurn = 1 := rfl
      omega
    · have hle : len ≤ n := not_lt.1 hover
      obtain ⟨-, hlater⟩ := h hle
      rcases hlater with rfl | ⟨hlow, hend, hrest⟩
      · have hone : ((multibulkLoop top n (0 + 1) rest len).trace mem).countP isTurn = 1 := last_turns mem top rest hle
        omega
      · have hgrow := lt_elementEnd len hlow
        have hturns := ih (by omega) hrest
        rw [loop_next k h₀ hle rfl hlow hend, turn_countP, (strtol_only_reads _).countP, List.countP_append,
          elementMarks_turns]
        omega

end Loop

/-! ## When it keeps to the received bytes -/

/-- Only the `n` received bytes are read, the running length grows within `int` up to where it is compared,
and the array loop makes at most `n` turns. -/
structure Safe (n : Nat) (l : List (Access Mark)) : Prop where
  kept : Kept n l
  turns : l.countP isTurn ≤ n

instance (n : Nat) (l : List (Access Mark)) : Decidable (Safe n l) :=
  decidable_of_iff (Kept n l ∧ l.countP isTurn ≤ n) ⟨fun h => ⟨h.1, h.2⟩, fun h => ⟨h.1, h.2⟩⟩

end Probe

open Probe

/-- `redis_proto_decode(b->pos, bytes)` with its trace. -/
def Chunk.probe (c : Chunk) : Probe Rc := Probe.redisProtoDecode (c.data.length + c.reach) 0 c.data.length

/-- The numbers of a string or an array are orderly: all that the test gets to end in the chunk, and the
lengths they give fit into an `int`. -/
def Chunk.Orderly (c : Chunk) : Prop :=
  let mem := load c.data c.around
  let n : Int := c.data.length
  let top := n + c.reach
  let r := Memory.strtol mem top 1
  (mem 0 = 36 → strtolStop mem top 1 < n ∧
    (int32 r.1 = -1 ∨ -2 ≤ int32 r.1 ∧ bulkEnd 1 (int32 r.1) < 2 ^ 31)) ∧
  (mem 0 = 42 → strtolStop mem top 1 < n ∧ Probe.Orderly mem top n (int32 r.1).toNat (r.2 + 2) 3)

namespace Probe

variable {mem : Mem} {top n : Int}

theorem redisParseLine_reads (mem : Mem) (hn : 0 ≤ n) :
    (∀ a ∈ (redisParseLine 0 n).trace mem, a.Within n) ∧ Reads ((redisParseLine 0 n).trace mem) := by
  have hall (P : Access Mark → Prop) (hP : ∀ i, 0 ≤ i → i < n → P (.read i)) :
      Scan.All P (redisParseLine 0 n) mem := by
    refine Scan.all_bind.2 ⟨?_, Scan.all_pure _⟩
    refine Scan.all_unnoted (P := fun a => ∃ i, a = .read i ∧ 0 ≤ i ∧ i < n) ?_ ?_ ?_
    · exact Walk.findCrlf_all (by omega) fun q h₁ h₂ => ⟨q, rfl, h₁, by omega⟩
    · rintro p ⟨i, hi, h₁, h₂⟩
      cases hi
      exact hP p h₁ h₂
    · rintro p len ⟨i, hi, -⟩
      cases hi
  exact ⟨hall _ fun i h₁ h₂ => ⟨h₁, h₂⟩, hall _ fun i _ _ => ⟨i, rfl⟩⟩

theorem redisParseBulk_kept (htop : n ≤ top) :
    Kept n ((redisParseBulk top 1 n).trace mem) ↔ strtolStop mem top 1 < n ∧
      (int32 (Memory.strtol mem top 1).1 = -1 ∨
        -2 ≤ int32 (Memory.strtol mem top 1).1 ∧ bulkEnd 1 (int32 (Memory.strtol mem top 1).1) < 2 ^ 31) := by
  have hv := int32_range (Memory.strtol mem top 1).1
  rw [redisParseBulk, Scan.trace_bind, strtol_kept (by decide) htop, Scan.strtol_value, Scan.trace_ite]
  refine and_congr_right' ?_
  by_cases hnull : int32 (Memory.strtol mem top 1).1 = -1
  · rw [if_pos hnull]
    exact iff_of_true kept_nil (.inl hnull)
  · rw [if_neg hnull, Scan.trace_bind, or_iff_right hnull, addBulk_kept (by decide) hv rfl]
    refine and_iff_left ?_
    rw [Scan.trace_bind, Scan.trace_note, List.singleton_append, kept_compare, Scan.trace_ite]
    split <;> exact kept_nil

theorem redisParseBulk_turns : ((redisParseBulk top 1 n).trace mem).countP isTurn = 0 := by
  rw [redisParseBulk, Scan.trace_bind, (strtol_only_reads _).countP, Scan.trace_ite]
  split
  · rfl
  · rw [Scan.trace_bind, List.countP_append, addBulk_turns, Scan.trace_bind, Scan.trace_ite]
    split <;> rfl

theorem redisParseMultibulk_trace : (redisParseMultibulk top 1 n).trace mem =
    (Scan.strtol top 1 : Probe (Int × Int)).trace mem ++ .note (.add 1 2) ::
      (multibulkLoop top n (int32 (Memory.strtol mem top 1).1).toNat ((Memory.strtol mem top 1).2 + 2)
        3).trace mem := by
  rw [redisParseMultibulk, Scan.trace_bind, Scan.trace_bind, Scan.strtol_value, grow_value]
  rfl

theorem redisParseMultibulk_kept (htop : n ≤ top) :
    Kept n ((redisParseMultibulk top 1 n).trace mem) ↔ strtolStop mem top 1 < n ∧
      Orderly mem top n (int32 (Memory.strtol mem top 1).1).toNat ((Memory.strtol mem top 1).2 + 2) 3 := by
  have hrest := le_strtol_rest mem top 1
  rw [redisParseMultibulk_trace, strtol_kept (by decide) htop, kept_add,
    loop_kept htop _ (by omega) (by decide) (by decide)]
  exact and_congr_right' (and_iff_right fun _ => by decide)

theorem redisParseMultibulk_turns {n : Nat}
    (h : Orderly mem top n (int32 (Memory.strtol mem top 1).1).toNat ((Memory.strtol mem top 1).2 + 2) 3) (hn : 0 < n) :
    ((redisParseMultibulk top 1 n).trace mem).countP isTurn ≤ n := by
  have hturns := loop_turns _ (by decide) h
  have hadd : ∀ t, (.note (.add 1 2) :: t).countP isTurn = t.countP isTurn := by simp [isTurn]
  rw [redisParseMultibulk_trace, (strtol_only_reads _).countP, hadd]
  omega

theorem redisProtoDecode_trace : (redisProtoDecode top 0 n).trace mem = .read 0 ::
    (if mem 0 = 45 ∨ mem 0 = 43 ∨ mem 0 = 58 then (redisParseLine 0 n).trace mem
      else if mem 0 = 36 then (redisParseBulk top 1 n).trace mem
      else if mem 0 = 42 then (redisParseMultibulk top 1 n).trace mem
      else []) := by
  rw [redisProtoDecode, Scan.trace_bind, Scan.trace_ite, Scan.trace_ite, Scan.trace_ite]
  rfl

theorem safe_read {n : Nat} {l : List (Access Mark)} (hn : 0 < n) : Safe n (.read 0 :: l) ↔ Safe n l := by
  have hread : Reads [.read 0] := fun a ha => ⟨0, List.mem_singleton.1 ha⟩
  have hkept : Kept n (.read 0 :: l) ↔ Kept n l := by
    refine (hread.kept (t := l)).trans (and_iff_right ?_)
    exact List.forall_mem_singleton.2 ⟨le_rfl, by exact_mod_cast hn⟩
  have hcount : (.read 0 :: l).countP isTurn = l.countP isTurn := hread.countP
  constructor
  · exact fun h => ⟨hkept.1 h.kept, by rw [← hcount]; exact h.turns⟩
  · exact fun h => ⟨hkept.2 h.kept, by rw [hcount]; exact h.turns⟩

theorem redisParseLine_safe (n : Nat) : Safe n ((redisParseLine 0 n).trace mem) := by
  obtain ⟨hin, hreads⟩ := redisParseLine_reads mem (Int.natCast_nonneg n)
  have hkept := (hreads.kept (n := n) (t := [])).2 ⟨hin, kept_nil⟩
  have hcount := hreads.countP (t := [])
  rw [List.append_nil] at hkept hcount
  exact ⟨hkept, by rw [hcount]; exact Nat.zero_le n⟩

end Probe

/-- For every chunk, the completeness test reads received bytes only, its running length grows within `int` up
to where it is compared and its loop makes no more turns than there are bytes, exactly if the numbers are
orderly. -/
theorem probe_safe_iff (c : Chunk) :
    c.probe.value (load c.data c.around) = c.decode ∧
      (Safe c.data.length (c.probe.trace (load c.data c.around)) ↔ c.Orderly) := by
  refine ⟨redisProtoDecode_value _ _ _ _, ?_⟩
  have hn : 0 < c.data.length := List.length_pos_of_ne_nil c.ne
  have htop : (c.data.length : Int) ≤ c.data.length + c.reach := by omega
  rw [Chunk.probe, redisProtoDecode_trace, safe_read hn]
  unfold Chunk.Orderly
  dsimp only
  generalize load c.data c.around = mem
  by_cases hline : mem 0 = 45 ∨ mem 0 = 43 ∨ mem 0 = 58
  · rw [if_pos hline]
    refine iff_of_true (redisParseLine_safe _) ⟨fun h => ?_, fun h => ?_⟩
    all_goals
      rw [h] at hline
      exact absurd hline (by decide)
  · rw [if_neg hline]
    by_cases hbulk : mem 0 = 36
    · rw [if_pos hbulk, ← redisParseBulk_kept htop, imp_iff_right hbulk]
      constructor
      · exact fun h => ⟨h.kept, fun h' => absurd (hbulk.symm.trans h') (by decide)⟩
      · exact fun h => ⟨h.1, by rw [redisParseBulk_turns]; exact Nat.zero_le _⟩
    · rw [if_neg hbulk, and_iff_right fun h => absurd h hbulk]
      by_cases hmulti : mem 0 = 42
      · rw [if_pos hmulti, imp_iff_right hmulti]
        constructor
        · exact fun h => (redisParseMultibulk_kept htop).1 h.kept
        · exact fun h => ⟨(redisParseMultibulk_kept htop).2 h, redisParseMultibulk_turns h.2 hn⟩
      · rw [if_neg hmulti]
        exact iff_of_true ⟨kept_nil, Nat.zero_le _⟩ fun h => absurd h hmulti

def backward : Bytes := bytes "*40\r\n$-0000000000000000031\r\n"

/-- A `$` alone sends `strtol` behind the chunk. A negative length takes the running length back, and a large
one overflows it. The length of the element of `backward` is the octal number -25, which leads the pointer
back to its own `$`, forty times. -/
theorem probe_unsafe :
    (∀ b ∈ [bytes "$", bytes "$-100\r\n", bytes "$2147483647\r\n"], ∃ ne : b ≠ [],
      ¬ Safe b.length ((Chunk.plain b ne).probe.trace (load b (Chunk.plain b ne).around))) ∧
    (∃ ne : backward ≠ [], backward.length = 28 ∧
      ((Chunk.plain backward ne).probe.trace (load backward (Chunk.plain backward ne).around)).countP isTurn = 40) := by
  decide +kernel

end NgProxy.Stream
