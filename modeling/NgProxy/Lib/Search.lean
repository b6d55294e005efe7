/-
Search trees as ordered lists. A search compares a target with the element of each node and goes left,
right or stops; whatever the shape of the tree, it finds what a search of the elements from left to right
finds, as long as these lie in order with respect to the target. So rotations change nothing.
-/
import Mathlib.Data.Tree.Basic
import Mathlib.Data.List.Basic

namespace NgProxy.Search

variable {α : Type}

/-- The elements from left to right. -/
def toList : BinaryTree α → List α
  | .nil => []
  | .node a l r => toList l ++ a :: toList r

/-- `dir a` says where the target lies, seen from `a`. -/
def find (dir : α → Ordering) : BinaryTree α → Option α
  | .nil => none
  | .node a l r =>
    match dir a with
    | .lt => find dir l
    | .gt => find dir r
    | .eq => some a

/-- A new leaf; behind an equal element. -/
def insert (dir : α → Ordering) (x : α) : BinaryTree α → BinaryTree α
  | .nil => .node x .nil .nil
  | .node a l r => if dir a = .lt then .node a (insert dir x l) r else .node a l (insert dir x r)

/-- Where the target lies changes once, and at most one element is equal to it. -/
def Aligned (dir : α → Ordering) (l : List α) : Prop := l.Pairwise fun a b => dir a ≠ .gt → dir b = .lt

section Aligned

variable {dir : α → Ordering} {a : α} {l r : List α}

theorem Aligned.left (h : Aligned dir (l ++ a :: r)) : Aligned dir l := (List.pairwise_append.1 h).1

theorem Aligned.right (h : Aligned dir (l ++ a :: r)) : Aligned dir r :=
  (List.pairwise_cons.1 (List.pairwise_append.1 h).2.1).2

theorem Aligned.above (h : Aligned dir (l ++ a :: r)) (ha : dir a ≠ .gt) : ∀ b ∈ r, dir b = .lt :=
  fun b hb => (List.pairwise_cons.1 (List.pairwise_append.1 h).2.1).1 b hb ha

theorem Aligned.below (h : Aligned dir (l ++ a :: r)) (ha : dir a ≠ .lt) : ∀ b ∈ l, dir b = .gt := by
  intro b hb
  by_contra hgt
  exact ha ((List.pairwise_append.1 h).2.2 b hb a (List.mem_cons_self ..) hgt)

end Aligned

/-- The search finds the element that is equal to the target. -/
theorem find_eq {dir : α → Ordering} {t : BinaryTree α} (h : Aligned dir (toList t)) :
    find dir t = (toList t).find? fun a => dir a = .eq := by
  induction t with
  | nil => rfl
  | node a l r ihl ihr =>
    rw [toList] at h
    rw [find, toList, List.find?_append, List.find?_cons]
    rcases hd : dir a with _ | _ | _
    · have hr : (toList r).find? (fun a => decide (dir a = .eq)) = none :=
        List.find?_eq_none.2 fun b hb => by simp [h.above (by simp [hd]) b hb]
      simp [ihl h.left, hr]
    · have hl : (toList l).find? (fun a => decide (dir a = .eq)) = none :=
        List.find?_eq_none.2 fun b hb => by simp [h.below (by simp [hd]) b hb]
      simp [hl]
    · have hl : (toList l).find? (fun a => decide (dir a = .eq)) = none :=
        List.find?_eq_none.2 fun b hb => by simp [h.below (by simp [hd]) b hb]
      simp [ihr h.right, hl]

/-- A new element lies between those the target does not lie left of and the others. -/
theorem insert_toList {dir : α → Ordering} (x : α) {t : BinaryTree α} (h : Aligned dir (toList t)) :
    ∃ pre post, toList t = pre ++ post ∧ toList (insert dir x t) = pre ++ x :: post ∧
      (∀ a ∈ pre, dir a ≠ .lt) ∧ ∀ b ∈ post, dir b = .lt := by
  induction t with
  | nil => exact ⟨[], [], by simp [toList, insert]⟩
  | node a l r ihl ihr =>
    rw [toList] at h
    by_cases ha : dir a = .lt
    · obtain ⟨pre, post, hl, hx, hpre, hpost⟩ := ihl h.left
      refine ⟨pre, post ++ a :: toList r, by simp [toList, hl], by simp [insert, ha, toList, hx], hpre, ?_⟩
      intro b hb
      rcases List.mem_append.1 hb with hb | hb
      · exact hpost b hb
      · rcases List.mem_cons.1 hb with rfl | hb
        · exact ha
        · exact h.above (by simp [ha]) b hb
    · obtain ⟨pre, post, hr, hx, hpre, hpost⟩ := ihr h.right
      refine ⟨toList l ++ a :: pre, post, by simp [toList, hr], by simp [insert, ha, toList, hx], ?_, hpost⟩
      intro b hb
      rcases List.mem_append.1 hb with hb | hb
      · simp [h.below ha b hb]
      · rcases List.mem_cons.1 hb with rfl | hb
        · exact ha
        · exact hpre b hb

/-! ## Removal -/

/-- Two trees side by side. -/
def join : BinaryTree α → BinaryTree α → BinaryTree α
  | .nil, t => t
  | .node a l r, t => .node a l (join r t)

theorem toList_join (s t : BinaryTree α) : toList (join s t) = toList s ++ toList t := by
  induction s with
  | nil => rfl
  | node a l r _ ihr => simp [join, toList, ihr]

/-- The tree without `a`. -/
def remove [DecidableEq α] (a : α) : BinaryTree α → BinaryTree α
  | .nil => .nil
  | .node b l r =>
    if a ∈ toList l then .node b (remove a l) r
    else if b = a then join l r
    else .node b l (remove a r)

theorem toList_remove [DecidableEq α] (a : α) (t : BinaryTree α) : toList (remove a t) = (toList t).erase a := by
  induction t with
  | nil => rfl
  | node b l r ihl ihr =>
    rw [remove, toList, List.erase_append]
    split
    · rw [toList, ihl]
    · rw [List.erase_cons]
      by_cases hb : b = a
      · simp [hb, toList_join]
      · simp [hb, toList, ihr]

end NgProxy.Search
