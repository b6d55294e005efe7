/-
Grouping a list by a key: a table of lists that each item is appended to in turn, the group created
when its key is new. A group holds what was appended under its key in the original order, and
together the groups hold everything.
-/
import Mathlib.Data.List.Perm.Basic
import Mathlib.Data.List.Nodup
import Mathlib.Data.List.Induction

namespace NgProxy.GroupBy

variable {κ α β : Type} [DecidableEq κ]

/-- Append `xs` to the group of `k`. -/
def add (k : κ) (xs : List α) : List (κ × List α) → List (κ × List α)
  | [] => [(k, xs)]
  | (k', ys) :: t => if k' = k then (k', ys ++ xs) :: t else (k', ys) :: add k xs t

/-- Append every item to the group of its key. -/
def group (items : List (κ × List α)) : List (κ × List α) :=
  items.foldl (fun t i => add i.1 i.2 t) []

/-- What the items under key `k` append, in order. -/
def under (k : κ) (items : List (κ × List α)) : List α :=
  (items.filter fun i => i.1 = k).flatMap (·.2)

theorem group_append_one (items : List (κ × List α)) (i : κ × List α) :
    group (items ++ [i]) = add i.1 i.2 (group items) := by
  simp [group]

/-! ## One insertion -/

theorem keys_add (k : κ) (xs : List α) (t : List (κ × List α)) :
    (add k xs t).map (·.1) = if k ∈ t.map (·.1) then t.map (·.1) else t.map (·.1) ++ [k] := by
  induction t with
  | nil => simp [add]
  | cons p t ih =>
    obtain ⟨k', ys⟩ := p
    by_cases h : k' = k
    · simp [add, h]
    · have h' : k ≠ k' := fun e => h e.symm
      simp only [add, h, if_false, List.map_cons, ih, List.mem_cons, h', false_or]
      split <;> simp

theorem mem_add {k : κ} {xs : List α} {t : List (κ × List α)} (hn : (t.map (·.1)).Nodup) {g : κ × List α}
    (h : g ∈ add k xs t) :
    g ∈ t ∧ g.1 ≠ k ∨ (∃ ys, (k, ys) ∈ t ∧ g = (k, ys ++ xs)) ∨ (k ∉ t.map (·.1) ∧ g = (k, xs)) := by
  induction t with
  | nil =>
    simp only [add, List.mem_singleton] at h
    exact .inr (.inr ⟨by simp, h⟩)
  | cons p t ih =>
    obtain ⟨k', ys⟩ := p
    rw [List.map_cons, List.nodup_cons] at hn
    rw [add] at h
    split at h
    · rename_i hk
      subst hk
      rcases List.mem_cons.1 h with rfl | h
      · exact .inr (.inl ⟨ys, List.mem_cons_self .., rfl⟩)
      · exact .inl ⟨List.mem_cons_of_mem _ h, fun hg => hn.1 (List.mem_map.2 ⟨g, h, hg⟩)⟩
    · rename_i hk
      rcases List.mem_cons.1 h with rfl | h
      · exact .inl ⟨List.mem_cons_self .., hk⟩
      · rcases ih hn.2 h with ⟨hm, hg⟩ | ⟨zs, hm, rfl⟩ | ⟨hn, rfl⟩
        · exact .inl ⟨List.mem_cons_of_mem _ hm, hg⟩
        · exact .inr (.inl ⟨zs, List.mem_cons_of_mem _ hm, rfl⟩)
        · exact .inr (.inr ⟨by simpa [hn] using fun e => hk e.symm, rfl⟩)

theorem flatMap_add_perm (k : κ) (xs : List α) (t : List (κ × List α)) :
    ((add k xs t).flatMap (·.2)).Perm (t.flatMap (·.2) ++ xs) := by
  induction t with
  | nil => simp [add]
  | cons p t ih =>
    obtain ⟨k', ys⟩ := p
    rw [add]
    split
    · simp only [List.flatMap_cons, List.append_assoc]
      exact List.Perm.append_left _ List.perm_append_comm
    · simp only [List.flatMap_cons, List.append_assoc]
      exact List.Perm.append_left _ ih

/-! ## The whole table -/

/-- The table `t` is the grouping of `items`. -/
structure Grouped (items t : List (κ × List α)) : Prop where
  nodup : (t.map (·.1)).Nodup
  mem : ∀ g ∈ t, g.2 = under g.1 items
  keys : ∀ k, k ∈ t.map (·.1) ↔ k ∈ items.map (·.1)

theorem under_append_one (k : κ) (items : List (κ × List α)) (i : κ × List α) :
    under k (items ++ [i]) = if i.1 = k then under k items ++ i.2 else under k items := by
  unfold under
  split <;> rename_i h <;> simp [h]

theorem Grouped.add {items t : List (κ × List α)} (h : Grouped items t) (k : κ) (xs : List α) :
    Grouped (items ++ [(k, xs)]) (add k xs t) where
  nodup := by
    rw [keys_add]
    split
    · exact h.nodup
    · rename_i hk
      exact List.nodup_append.2 ⟨h.nodup, List.nodup_singleton k, fun a ha b hb e =>
        hk (by rw [List.mem_singleton] at hb; rwa [← hb, ← e])⟩
  mem := by
    intro g hg
    rw [under_append_one]
    rcases mem_add h.nodup hg with ⟨hm, hne⟩ | ⟨ys, hm, rfl⟩ | ⟨hk, rfl⟩
    · rw [if_neg fun e => hne e.symm]; exact h.mem g hm
    · rw [if_pos rfl, ← h.mem _ hm]
    · -- a new key: no earlier item was under it
      have hnone : under k items = [] := by
        unfold under
        rw [List.filter_eq_nil_iff.2, List.flatMap_nil]
        intro i hi
        simpa using fun e : i.1 = k => hk ((h.keys k).2 (e ▸ List.mem_map_of_mem hi))
      rw [if_pos rfl, hnone, List.nil_append]
  keys := by
    intro j
    rw [keys_add, List.map_append, List.mem_append, ← h.keys j]
    split
    · rename_i hk
      constructor
      · exact .inl
      · rintro (hj | hj)
        · exact hj
        · rw [List.map_cons, List.map_nil, List.mem_singleton] at hj
          exact hj ▸ hk
    · rw [List.mem_append]
      rfl

theorem grouped_group (items : List (κ × List α)) : Grouped items (group items) := by
  induction items using List.reverseRecOn with
  | nil => exact ⟨List.nodup_nil, by simp [group], by simp [group]⟩
  | append_singleton l i ih => rw [group_append_one]; exact ih.add i.1 i.2

/-- Together the groups hold everything that was appended. -/
theorem flatMap_group_perm (items : List (κ × List α)) :
    ((group items).flatMap (·.2)).Perm (items.flatMap (·.2)) := by
  induction items using List.reverseRecOn with
  | nil => exact .refl _
  | append_singleton l i ih =>
    rw [group_append_one, List.flatMap_append]
    refine (flatMap_add_perm i.1 i.2 _).trans ?_
    simpa using ih.append_right i.2

theorem add_map_flatMap (f : α → List β) (k : κ) (xs : List α) (t : List (κ × List α)) :
    add k (xs.flatMap f) (t.map fun g => (g.1, g.2.flatMap f)) =
      (add k xs t).map fun g => (g.1, g.2.flatMap f) := by
  induction t with
  | nil => rfl
  | cons p t ih =>
    obtain ⟨k', ys⟩ := p
    simp only [add, List.map_cons]
    split
    · simp
    · simp [ih]

/-- Expanding the elements before or after grouping is the same. -/
theorem group_flatMap (f : α → List β) (items : List (κ × List α)) :
    group (items.map fun i => (i.1, i.2.flatMap f)) = (group items).map fun g => (g.1, g.2.flatMap f) := by
  induction items using List.reverseRecOn with
  | nil => rfl
  | append_singleton l i ih =>
    rw [List.map_append, List.map_cons, List.map_nil, group_append_one, group_append_one, ih, add_map_flatMap]

theorem mem_under {k : κ} {items : List (κ × List α)} {x : α} :
    x ∈ under k items ↔ ∃ i ∈ items, i.1 = k ∧ x ∈ i.2 := by
  simp [under, and_assoc]

/-- With distinct keys, a function that is empty away from key `k` picks that one group. -/
theorem flatMap_eq_of_key {t : List (κ × List α)} (hn : (t.map (·.1)).Nodup) (f : κ × List α → List β) (k : κ)
    (l : List β) (hne : ∀ g ∈ t, g.1 ≠ k → f g = []) (heq : ∀ g ∈ t, g.1 = k → f g = l) :
    t.flatMap f = if k ∈ t.map (·.1) then l else [] := by
  induction t with
  | nil => simp
  | cons g t ih =>
    rw [List.map_cons, List.nodup_cons] at hn
    rw [List.flatMap_cons, ih hn.2 (fun g hg => hne g (List.mem_cons_of_mem _ hg))
      (fun g hg => heq g (List.mem_cons_of_mem _ hg))]
    by_cases hk : g.1 = k
    · subst hk
      rw [heq g (List.mem_cons_self ..) rfl, if_neg hn.1]
      simp
    · rw [hne g (List.mem_cons_self ..) hk, List.nil_append]
      by_cases hm : k ∈ t.map (·.1)
      · have hm' : k ∈ (g :: t).map (·.1) := List.mem_cons_of_mem _ hm
        rw [if_pos hm, if_pos hm']
      · have hm' : k ∉ (g :: t).map (·.1) := fun h => (List.mem_cons.1 h).elim (fun e => hk e.symm) hm
        rw [if_neg hm, if_neg hm']

/-- Elements that all lie under one key keep their order, however the groups are arranged. -/
theorem filter_groups {items t : List (κ × List α)} (ht : t.Perm (group items)) (p : α → Bool) (k : κ)
    (hp : ∀ i ∈ items, ∀ x ∈ i.2, p x = true → i.1 = k) :
    (t.flatMap (·.2)).filter p = (items.flatMap (·.2)).filter p := by
  have hg := grouped_group items
  have hmem : ∀ g ∈ t, g.2 = under g.1 items := fun g h => hg.mem g (ht.subset h)
  -- both sides are the elements of the group of `k`
  have hitems : (items.flatMap (·.2)).filter p = (under k items).filter p := by
    clear hg hmem ht t
    induction items with
    | nil => rfl
    | cons i items ih =>
      have ih' := ih fun j hj => hp j (List.mem_cons_of_mem _ hj)
      unfold under at ih' ⊢
      by_cases hk : i.1 = k
      · simp [hk, ih']
      · have : i.2.filter p = [] := List.filter_eq_nil_iff.2 fun x hx h => hk (hp i (List.mem_cons_self ..) x hx h)
        simp [hk, ih', this]
  rw [List.filter_flatMap, hitems, flatMap_eq_of_key (k := k) (l := (under k items).filter p)
    ((ht.map _).nodup_iff.2 hg.nodup)]
  · split
    · rfl
    · rename_i hk
      symm
      refine List.filter_eq_nil_iff.2 fun x hx _ => hk ?_
      obtain ⟨i, hi, rfl, -⟩ := mem_under.1 hx
      exact (ht.map _).symm.subset ((hg.keys _).2 (List.mem_map_of_mem hi))
  · intro g h hne
    refine List.filter_eq_nil_iff.2 fun x hx hpx => hne ?_
    rw [hmem g h] at hx
    obtain ⟨i, hi, he, hx⟩ := mem_under.1 hx
    rw [← he, hp i hi x hx hpx]
  · rintro g h rfl
    rw [hmem g h]

end NgProxy.GroupBy
