/-
Searching for a pattern in one pass. The state of a search is the length of the longest beginning of the pattern that is
an end of what has been read; the next symbol needs no more than that to be known.
-/
import Mathlib.Data.List.Infix
import Mathlib.Tactic.Common

namespace NgProxy.Matching

variable {α : Type} {p w : List α} {c : α} {j k q : Nat}

/-- The first `k` symbols of the pattern are the last ones of `w`. -/
def Border (p w : List α) (k : Nat) : Prop := k ≤ p.length ∧ p.take k <:+ w

/-- The state of a search. -/
structure Longest (p w : List α) (k : Nat) : Prop where
  border : Border p w k
  max : ∀ j, Border p w j → j ≤ k

theorem border_zero (p w : List α) : Border p w 0 := ⟨Nat.zero_le _, by simp⟩

theorem border_length : Border p w p.length ↔ p <:+ w := by simp [Border]

theorem Border.le (h : Border p w k) : k ≤ w.length := by
  have := h.2.length_le
  rw [List.length_take_of_le h.1] at this
  exact this

theorem border_snoc : Border p (w ++ [c]) (k + 1) ↔ Border p w k ∧ p[k]? = some c := by
  constructor
  · rintro ⟨hk, t, ht⟩
    rw [List.take_succ_eq_append_getElem hk, ← List.append_assoc] at ht
    obtain ⟨hw, hc⟩ := List.append_inj' ht rfl
    refine ⟨⟨by omega, t, hw⟩, ?_⟩
    rw [List.getElem?_eq_getElem hk]
    simpa using hc
  · rintro ⟨⟨-, t, rfl⟩, hc⟩
    obtain ⟨hk, rfl⟩ := List.getElem?_eq_some_iff.1 hc
    refine ⟨hk, t, ?_⟩
    rw [List.take_succ_eq_append_getElem hk, List.append_assoc]

/-- What has been read may be replaced by the beginning of the pattern it ends with. -/
theorem Longest.border_iff (h : Longest p w q) : Border p w j ↔ Border p (p.take q) j := by
  constructor
  · intro hj
    refine ⟨hj.1, List.suffix_of_suffix_length_le hj.2 h.border.2 ?_⟩
    rw [List.length_take_of_le hj.1, List.length_take_of_le h.border.1]
    exact h.max j hj
  · intro hj
    exact ⟨hj.1, hj.2.trans h.border.2⟩

theorem Longest.border_snoc_iff (h : Longest p w q) : Border p (w ++ [c]) j ↔ Border p (p.take q ++ [c]) j := by
  cases j with
  | zero => exact iff_of_true (border_zero ..) (border_zero ..)
  | succ j => rw [border_snoc, border_snoc, h.border_iff]

/-- The next state, from the state alone. -/
theorem Longest.snoc (h : Longest p w q) (hk : Longest p (p.take q ++ [c]) k) : Longest p (w ++ [c]) k :=
  ⟨h.border_snoc_iff.2 hk.border, fun j hj => hk.max j (h.border_snoc_iff.1 hj)⟩

/-- The next symbol of the pattern. -/
theorem Longest.hit (h : Longest p w q) (hc : p[q]? = some c) : Longest p (w ++ [c]) (q + 1) := by
  refine ⟨border_snoc.2 ⟨h.border, hc⟩, fun j hj => ?_⟩
  cases j with
  | zero => exact Nat.zero_le _
  | succ j => exact Nat.succ_le_succ (h.max j (border_snoc.1 hj).1)

/-- A symbol after which no more than itself can count is looked at as if it were the first. -/
theorem longest_restart (h : ∀ j, Border p (w ++ [c]) j → j ≤ 1) :
    (p[0]? = some c → Longest p (w ++ [c]) 1) ∧ (p[0]? ≠ some c → Longest p (w ++ [c]) 0) := by
  refine ⟨fun hc => ⟨border_snoc.2 ⟨border_zero .., hc⟩, h⟩, fun hc => ⟨border_zero .., fun j hj => ?_⟩⟩
  cases j with
  | zero => exact le_rfl
  | succ j =>
    obtain rfl : j = 0 := by
      have := h _ hj
      omega
    exact absurd (border_snoc.1 hj).2 hc

theorem longest_nil (p : List α) : Longest p [] 0 := ⟨border_zero .., fun _ hj => hj.le⟩

/-! ## Occurrences -/

/-- The pattern has not occurred, and does not with a symbol more that leaves the state below its length. -/
theorem not_infix_snoc (hw : ¬p <:+: w) (h : Longest p (w ++ [c]) k) (hk : k < p.length) : ¬p <:+: w ++ [c] := by
  rw [List.infix_concat_iff]
  rintro (hs | hi)
  · exact absurd (h.max _ (border_length.2 hs)) (by omega)
  · exact hw hi

/-- The first occurrence of the pattern in `l` is behind `out`. -/
def First (p l out : List α) : Prop := out ++ p <+: l ∧ ¬p <:+: (out ++ p).dropLast

theorem First.infix {l out : List α} (h : First p l out) : p <:+: l := by
  obtain ⟨rest, rfl⟩ := h.1
  exact ⟨out, rest, rfl⟩

theorem First.length_le {l out out' : List α} (hp : p ≠ []) (h : First p l out) (h' : First p l out') :
    out.length ≤ out'.length := by
  by_contra hlt
  -- the other occurrence would end before this one does
  refine h.2 (List.IsInfix.trans ⟨out', [], List.append_nil _⟩ (List.IsPrefix.isInfix ?_))
  refine List.prefix_of_prefix_length_le h'.1 ((List.dropLast_prefix _).trans h.1) ?_
  have := List.length_pos_iff.2 hp
  simp
  omega

theorem First.unique {l out out' : List α} (hp : p ≠ []) (h : First p l out) (h' : First p l out') : out = out' := by
  have hlen := Nat.le_antisymm (h.length_le hp h') (h'.length_le hp h)
  have := List.prefix_of_prefix_length_le h.1 h'.1 (by simp [hlen])
  exact (List.append_inj (this.eq_of_length (by simp [hlen])) hlen).1

/-! ## Searches -/

/-- A search that has read `w` without finding the pattern. -/
structure Seeks (p w : List α) (q : Nat) : Prop where
  absent : ¬p <:+: w
  lt : q < p.length
  longest : Longest p w q

/-- The same of a search that goes on with `l`. In state 0 it is enough that of what has been read nothing counts any
more once the next symbol is there. -/
structure Resumes (p w : List α) (q : Nat) (l : List α) : Prop where
  absent : ¬p <:+: w
  lt : q < p.length
  fits : Longest p w q ∨ q = 0 ∧ ∀ c t, l = c :: t → ∀ j, Border p (w ++ [c]) j → j ≤ 1

theorem seeks_nil (hp : p ≠ []) : Seeks p [] 0 :=
  ⟨fun h => hp (List.infix_nil.1 h), List.length_pos_iff.2 hp, longest_nil p⟩

theorem Seeks.resumes (h : Seeks p w q) (l : List α) : Resumes p w q l := ⟨h.absent, h.lt, .inl h.longest⟩

variable {l : List α}

theorem Resumes.longest (h : Resumes p w q l) (hq : 0 < q) : Longest p w q := by
  rcases h.fits with hl | ⟨rfl, -⟩
  · exact hl
  · omega

theorem Resumes.alone (h : Resumes p w 0 (c :: l)) (hj : Border p (w ++ [c]) j) : j ≤ 1 := by
  rcases h.fits with hl | ⟨-, ha⟩
  · cases j with
    | zero => exact Nat.zero_le _
    | succ j => exact Nat.succ_le_succ (hl.max j (border_snoc.1 hj).1)
  · exact ha c l rfl j hj

/-- The pattern is not behind the end of the stream. -/
theorem Resumes.ne_nil {out : List α} (h : Resumes p w q l) (hfirst : First p (w ++ l) out) : l ≠ [] := by
  rintro rfl
  rw [List.append_nil] at hfirst
  exact h.absent hfirst.infix

theorem Seeks.snoc (h : Longest p (w ++ [c]) k) (hw : ¬p <:+: w) (hk : k < p.length) : Seeks p (w ++ [c]) k :=
  ⟨not_infix_snoc hw h hk, hk, h⟩

end NgProxy.Matching
