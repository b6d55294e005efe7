/-
A consumer that takes one symbol after another, puts out symbols and may stop. What it makes of a stream does not
depend on how the stream is cut into pieces.
-/
import Mathlib.Tactic.Common

namespace NgProxy.Machine

variable {κ α β : Type}

/-- What a machine does with a symbol: it takes it and goes on, takes it and stops, or stops in front of it. -/
inductive Step (κ β : Type) where
  | more (state : κ) (out : List β)
  | stop (state : κ) (out : List β)
  | back (state : κ) (out : List β)

/-- The same, with something put out before. -/
def Step.after (out : List β) : Step κ β → Step κ β
  | more k o => .more k (out ++ o)
  | stop k o => .stop k (out ++ o)
  | back k o => .back k (out ++ o)

/-- What a machine has done with a stream. -/
structure Fed (κ α β : Type) where
  stopped : Bool
  state : κ
  out : List β
  rest : List α

/-- The same, with something put out before. -/
def Fed.after (out : List β) (f : Fed κ α β) : Fed κ α β := { f with out := out ++ f.out }

def feed (m : κ → α → Step κ β) : κ → List α → Fed κ α β
  | k, [] => ⟨false, k, [], []⟩
  | k, a :: l =>
    match m k a with
    | .more k out => (feed m k l).after out
    | .stop k out => ⟨true, k, out, l⟩
    | .back k out => ⟨true, k, out, a :: l⟩

variable {m : κ → α → Step κ β} {k k' : κ} {a : α} {l : List α} {out : List β}

@[simp] theorem feed_nil : feed m k [] = ⟨false, k, [], []⟩ := rfl

theorem feed_more (h : m k a = .more k' out) : feed m k (a :: l) = (feed m k' l).after out := by
  rw [feed, h]

theorem feed_stop (h : m k a = .stop k' out) : feed m k (a :: l) = ⟨true, k', out, l⟩ := by
  rw [feed, h]

theorem feed_back (h : m k a = .back k' out) : feed m k (a :: l) = ⟨true, k', out, a :: l⟩ := by
  rw [feed, h]

/-- A machine that does not stop takes everything. -/
theorem feed_rest (h : (feed m k l).stopped = false) : (feed m k l).rest = [] := by
  induction l generalizing k with
  | nil => rfl
  | cons a l ih =>
    cases hm : m k a with
    | more k out =>
      rw [feed_more hm] at h ⊢
      exact ih h
    | stop k out =>
      rw [feed_stop hm] at h
      cases h
    | back k out =>
      rw [feed_back hm] at h
      cases h

/-- Of two pieces, the machine may stop in the first one. -/
theorem feed_append_stop (h : (feed m k l).stopped = true) (l' : List α) :
    feed m k (l ++ l') = { feed m k l with rest := (feed m k l).rest ++ l' } := by
  induction l generalizing k with
  | nil => cases h
  | cons a l ih =>
    cases hm : m k a with
    | more k out =>
      rw [List.cons_append, feed_more hm, feed_more hm, ih (by rwa [feed_more hm] at h)]
      rfl
    | stop k out => rw [List.cons_append, feed_stop hm, feed_stop hm]
    | back k out => rw [List.cons_append, feed_back hm, feed_back hm, List.cons_append]

/-- Otherwise it goes on with the second one. -/
theorem feed_append_more (h : (feed m k l).stopped = false) (l' : List α) :
    feed m k (l ++ l') = (feed m (feed m k l).state l').after (feed m k l).out := by
  induction l generalizing k with
  | nil => rfl
  | cons a l ih =>
    cases hm : m k a with
    | more k out =>
      rw [feed_more hm] at h
      rw [List.cons_append, feed_more hm, feed_more hm, ih h]
      simp [Fed.after]
    | stop k out =>
      rw [feed_stop hm] at h
      cases h
    | back k out =>
      rw [feed_back hm] at h
      cases h

end NgProxy.Machine
