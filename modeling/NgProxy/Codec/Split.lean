/-
`string_split` with its indices and its table. `stringSplit` cuts what is left of the string; the loop of
the source walks a start index over the whole string instead and leaves the last part to a slot of its own.
Both return the same parts: at most so many cuts, each at the first occurrence of the delimiter that is
left, and joining the parts gives the string back.
-/
import NgProxy.Codec.Proto

namespace NgProxy.Codec

open Lua

/-! ## The loop -/

namespace Split

/-- `string.find(str, delim, start, true)`: where the next occurrence begins and ends, counted from 1. -/
def find (str delim : Bytes) (start : Nat) : Option (Nat × Nat) :=
  let st := min (start - 1) str.length
  (breakAt delim (str.drop st)).map fun p => (st + p.1.length + 1, st + p.1.length + delim.length)

/-- `string.sub(str, i, j)`, for positive `i`. -/
def sub (str : Bytes) (i j : Nat) : Bytes := (str.take j).drop (i - 1)

/-- `for i = 1, max`, so many turns of it: the parts `t[1]`, …, `t[index - 1]` and `start`. -/
def loop (str delim : Bytes) : Nat → Nat → List Bytes → List Bytes × Nat
  | 0, start, t => (t, start)
  | n + 1, start, t =>
    match find str delim start with
    | none => (t, start)
    | some (last, delimLast) => loop str delim n (delimLast + 1) (t ++ [sub str start (last - 1)])

/-- `max` of nil, or not above 0, is 1000. -/
def maxOf : Option Number → Number
  | none => .int 1000
  | some max => if max.nonPos then .int 1000 else max

/-- `string_split`. Where the loop has no end of its own it ends with the string, for a delimiter that is
not empty. -/
def stringSplit (str delim : Option Bytes) (max : Option Number) : Except LuaError (Option (List Bytes)) :=
  match str, delim with
  | some str, some delim =>
    match newTab (maxOf max) with
    | .error e => .error e
    | .ok () =>
      let r := loop str delim ((maxOf max).loopCount.getD (str.length + 1)) 1 []
      .ok (some (r.1 ++ [sub str r.2 str.length]))
  | _, _ => .ok none

end Split

/-! ## The first occurrence -/

/-- How often `d` occurs in a string, from left to right and without overlaps; the next so many bytes
belong to an occurrence already counted. -/
def occurrencesFrom (d : Bytes) : Nat → Bytes → Nat
  | _, [] => 0
  | skip + 1, _ :: s => occurrencesFrom d skip s
  | 0, c :: s => if d.isPrefixOf (c :: s) then occurrencesFrom d (d.length - 1) s + 1 else occurrencesFrom d 0 s

def occurrences (d s : Bytes) : Nat := occurrencesFrom d 0 s

theorem occurrencesFrom_eq (d : Bytes) (skip : Nat) (s : Bytes) :
    occurrencesFrom d skip s = occurrences d (s.drop skip) := by
  induction skip generalizing s with
  | zero => rfl
  | succ skip ih =>
    cases s with
    | nil => rfl
    | cons c s => exact ih s

theorem occurrences_cons (d : Bytes) (c : UInt8) (s : Bytes) (hd : d ≠ []) :
    occurrences d (c :: s) =
      if d.isPrefixOf (c :: s) then occurrences d ((c :: s).drop d.length) + 1 else occurrences d s := by
  obtain ⟨k, hk⟩ : ∃ k, d.length = k + 1 := ⟨d.length - 1, by have := List.length_pos_of_ne_nil hd; omega⟩
  rw [hk, List.drop_succ_cons, ← occurrencesFrom_eq, occurrences, occurrencesFrom, hk]
  rfl

theorem breakAt_none {d s : Bytes} (hd : d ≠ []) (h : breakAt d s = none) : occurrences d s = 0 := by
  induction s with
  | nil => rfl
  | cons c s ih =>
    rw [breakAt] at h
    rw [occurrences_cons d c s hd]
    split at h
    · cases h
    · rename_i hno
      rw [if_neg hno]
      exact ih (Option.map_eq_none_iff.1 h)

theorem breakAt_append {d s a b : Bytes} (h : breakAt d s = some (a, b)) : s = a ++ d ++ b := by
  induction s generalizing a with
  | nil =>
    rw [breakAt] at h
    split at h
    · rename_i hd
      cases h
      rw [hd]
      rfl
    · cases h
  | cons c s ih =>
    rw [breakAt] at h
    split at h
    · rename_i hfront
      obtain ⟨t, ht⟩ := List.isPrefixOf_iff_prefix.1 hfront
      cases h
      rw [← ht, List.drop_left]
      rfl
    · obtain ⟨⟨a', b'⟩, hrec, heq⟩ := Option.map_eq_some_iff.1 h
      cases heq
      rw [ih hrec]
      rfl

/-- What precedes the delimiter does not contain it, and what follows has one occurrence less. -/
theorem breakAt_first {d s a b : Bytes} (hd : d ≠ []) (h : breakAt d s = some (a, b)) :
    ¬ d <:+: a ∧ occurrences d s = occurrences d b + 1 := by
  induction s generalizing a with
  | nil =>
    rw [breakAt, if_neg hd] at h
    cases h
  | cons c s ih =>
    rw [breakAt] at h
    rw [occurrences_cons d c s hd]
    split at h
    · rename_i hfront
      cases h
      rw [if_pos hfront]
      exact ⟨fun hnil => hd (List.infix_nil.1 hnil), rfl⟩
    · rename_i hno
      obtain ⟨⟨a', b'⟩, hrec, heq⟩ := Option.map_eq_some_iff.1 h
      cases heq
      obtain ⟨hfree, hcount⟩ := ih hrec
      rw [if_neg hno, hcount]
      refine ⟨fun hin => ?_, rfl⟩
      -- an occurrence in front would be at the head, where there is none, or in the tail
      rcases List.infix_cons_iff.1 hin with hhead | htail
      · refine hno (List.isPrefixOf_iff_prefix.2 (hhead.trans ⟨d ++ b', ?_⟩))
        rw [breakAt_append hrec, List.append_assoc]
        rfl
      · exact hfree htail

/-! ## The parts -/

section Parts

variable {d : Bytes}

theorem intercalate_splitLoop (n : Nat) (s : Bytes) : d.intercalate (splitLoop d n s) = s := by
  induction n generalizing s with
  | zero => exact List.intercalate_singleton
  | succ n ih =>
    rw [splitLoop]
    cases h : breakAt d s with
    | none => exact List.intercalate_singleton
    | some p =>
      obtain ⟨a, b⟩ := p
      dsimp only
      rw [List.intercalate_cons_of_ne_nil (splitLoop_ne_nil d n b), ih]
      exact (breakAt_append h).symm

theorem length_splitLoop (hd : d ≠ []) (n : Nat) (s : Bytes) :
    (splitLoop d n s).length = 1 + min n (occurrences d s) := by
  induction n generalizing s with
  | zero => simp [splitLoop]
  | succ n ih =>
    rw [splitLoop]
    cases h : breakAt d s with
    | none => simp [breakAt_none hd h]
    | some p =>
      obtain ⟨a, b⟩ := p
      dsimp only
      rw [List.length_cons, ih, (breakAt_first hd h).2]
      omega

theorem splitLoop_free (hd : d ≠ []) (n : Nat) (s : Bytes) : ∀ p ∈ (splitLoop d n s).dropLast, ¬ d <:+: p := by
  induction n generalizing s with
  | zero => simp [splitLoop]
  | succ n ih =>
    rw [splitLoop]
    cases h : breakAt d s with
    | none => simp
    | some q =>
      obtain ⟨a, b⟩ := q
      dsimp only
      rw [List.dropLast_cons_of_ne_nil (splitLoop_ne_nil d n b)]
      intro p hp
      rcases List.mem_cons.1 hp with rfl | hp
      · exact (breakAt_first hd h).1
      · exact ih b p hp

/-- The loop over the whole string cuts what is left of it. -/
theorem loop_eq (str : Bytes) (n : Nat) {k : Nat} (hk : k ≤ str.length) (t : List Bytes) :
    (Split.loop str d n (k + 1) t).1 ++ [Split.sub str (Split.loop str d n (k + 1) t).2 str.length] =
      t ++ splitLoop d n (str.drop k) := by
  have hrest (t : List Bytes) (k : Nat) : t ++ [Split.sub str (k + 1) str.length] = t ++ [str.drop k] := by
    rw [Split.sub, List.take_length, Nat.add_sub_cancel]
  induction n generalizing k t with
  | zero => exact hrest t k
  | succ n ih =>
    rw [Split.loop, splitLoop, Split.find, Nat.add_sub_cancel, Nat.min_eq_left hk]
    cases h : breakAt d (str.drop k) with
    | none => exact hrest t k
    | some p =>
      obtain ⟨a, b⟩ := p
      have hcut : str.drop k = a ++ d ++ b := breakAt_append h
      have hlen := congrArg List.length hcut
      rw [List.length_drop, List.length_append, List.length_append] at hlen
      have hpart : Split.sub str (k + 1) (k + a.length + 1 - 1) = a := by
        rw [Split.sub, Nat.add_sub_cancel, Nat.add_sub_cancel, List.drop_take, Nat.add_sub_cancel_left, hcut,
          List.append_assoc, List.take_left]
      have hnext : str.drop (k + a.length + d.length) = b := by
        rw [Nat.add_assoc, ← List.drop_drop, hcut, ← List.length_append, List.drop_left]
      rw [Option.map_some]
      dsimp only
      rw [hpart, ih (by omega), hnext, List.append_assoc]
      rfl

end Parts

/-! ## The call -/

/-- The number of cuts `max` allows. -/
def Split.cap (max : Option Int) : Nat := if max.getD 0 ≤ 0 then 1000 else (max.getD 0).toNat

theorem Split.maxOf_eq (max : Option Int) : Split.maxOf (max.map Number.int) = .int (Split.cap max) := by
  cases max with
  | none => rfl
  | some m =>
    rw [Option.map_some, Split.maxOf, Number.nonPos, Split.cap, Option.getD_some]
    by_cases hm : m ≤ 0
    · simp [hm]
    · simp only [decide_eq_true_eq, if_neg hm, Number.int.injEq]
      omega

/-- `new_tab` refuses a `max` above its limit; apart from that, indices and table make no difference. -/
theorem Split.stringSplit_eq (s d : Bytes) (max : Option Int) :
    Split.stringSplit (some s) (some d) (max.map Number.int) =
      if maxArr < Split.cap max ∧ Split.cap max < 2 ^ 31 then .error .overflow
      else .ok (Codec.stringSplit (some s) d (max.getD 0)) := by
  have hparts := loop_eq (d := d) s (Split.cap max) (Nat.zero_le _) []
  have hcap : Codec.stringSplit (some s) d (max.getD 0) = some (splitLoop d (Split.cap max) s) := rfl
  rw [List.drop_zero, List.nil_append, Nat.zero_add] at hparts
  rw [hcap, ← hparts, Split.stringSplit, Split.maxOf_eq, newTab]
  by_cases hlimit : maxArr < Split.cap max ∧ Split.cap max < 2 ^ 31
  · have hint : (maxArr : Int) < (Number.int (Split.cap max)).toInteger ∧
        (Number.int (Split.cap max)).toInteger < 2 ^ 31 := by
      rw [Number.toInteger, if_pos (by omega)]
      omega
    rw [if_pos hlimit, if_pos hint]
  · have hint : ¬ ((maxArr : Int) < (Number.int (Split.cap max)).toInteger ∧
        (Number.int (Split.cap max)).toInteger < 2 ^ 31) := by
      rw [Number.toInteger]
      split <;> omega
    rw [if_neg hlimit, if_neg hint]
    rfl

/-- For a delimiter that is not empty and a `max` that `new_tab` takes, and for no other, `string_split`
returns parts that join to the string: one more than there are occurrences, or than `max` allows, and none
but the last contains the delimiter. -/
theorem string_split_joins (s d : Bytes) (hd : d ≠ []) (max : Option Int) :
    (∃ parts, Split.stringSplit (some s) (some d) (max.map Number.int) = .ok (some parts) ∧
      d.intercalate parts = s ∧ parts.length = 1 + min (Split.cap max) (occurrences d s) ∧
      ∀ p ∈ parts.dropLast, ¬ d <:+: p) ↔ ¬ (maxArr < Split.cap max ∧ Split.cap max < 2 ^ 31) := by
  rw [Split.stringSplit_eq]
  constructor
  · rintro ⟨parts, hparts, -⟩ hlimit
    rw [if_pos hlimit] at hparts
    cases hparts
  · intro hlimit
    rw [if_neg hlimit]
    exact ⟨_, rfl, intercalate_splitLoop _ s, length_splitLoop hd _ s, splitLoop_free hd _ s⟩

theorem string_split_joins_comma : ∃ parts,
    Split.stringSplit (some (bytes "a,,b,c")) (some (bytes ",")) (some (.int 2)) = .ok (some parts) ∧
      (bytes ",").intercalate parts = bytes "a,,b,c" ∧ parts.length = 1 + min 2 3 ∧
      ∀ p ∈ parts.dropLast, ¬ bytes "," <:+: p :=
  (string_split_joins (bytes "a,,b,c") (bytes ",") (by decide) (some 2)).2 (by decide)

/-- A `max` of 2^27 + 1 raises: the table would have too many slots. -/
theorem string_split_raises :
    Split.stringSplit (some (bytes "a")) (some (bytes ",")) (some (.int 134217729)) = .error .overflow := rfl

end NgProxy.Codec
