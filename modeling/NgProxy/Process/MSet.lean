/-
MSET split by slots leaves the store as one MSET would: equal keys lie in one part, in their
original order, and parts of different slots assign different keys.
-/
import NgProxy.Process.Split
import Mathlib.Logic.Function.Basic

namespace NgProxy.Process

open Lua Codec Cluster GroupBy Pool

/-! ## Assignment -/

def put (k v : Bytes) (st : Store) : Store := Function.update st k (some v)

/-- How a backend executes MSET: the pairs are assigned from left to right. -/
def assign : List Bytes → Store → Store
  | k :: v :: l, st => assign l (put k v st)
  | _, st => st

/-- The arguments of MSET for a list of pairs. -/
def flatPairs (ps : List (Bytes × Bytes)) : List Bytes := ps.flatMap fun p => [p.1, p.2]

theorem exists_pairs {args : List Bytes} (h : args.length % 2 = 0) : ∃ ps, args = flatPairs ps := by
  induction args using List.twoStepInduction with
  | nil => exact ⟨[], rfl⟩
  | singleton a => simp at h
  | cons_cons k v l ih _ =>
    obtain ⟨ps, rfl⟩ := ih (by simp only [List.length_cons] at h; omega)
    exact ⟨(k, v) :: ps, rfl⟩

def putAll (ps : List (Bytes × Bytes)) (st : Store) : Store := ps.foldl (fun st p => put p.1 p.2 st) st

theorem assign_flatPairs (ps : List (Bytes × Bytes)) (st : Store) :
    assign (flatPairs ps) st = putAll ps st := by
  induction ps generalizing st with
  | nil => rfl
  | cons p ps ih => exact ih _

/-- The value of a key after the assignments: that of its last pair. -/
theorem putAll_apply (ps : List (Bytes × Bytes)) (st : Store) (k : Bytes) :
    putAll ps st k =
      (ps.filter fun p => p.1 = k).foldl (fun _ p => some p.2) (st k) := by
  induction ps generalizing st with
  | nil => rfl
  | cons p ps ih =>
    refine (ih (put p.1 p.2 st)).trans ?_
    by_cases h : p.1 = k
    · subst h; simp [put]
    · have hk : put p.1 p.2 st k = st k := Function.update_of_ne (fun e => h e.symm) _ _
      simp [h, hk]

/-- The store depends only on the order of the pairs of each key. -/
theorem putAll_congr {ps qs : List (Bytes × Bytes)} (st : Store)
    (h : ∀ k, (ps.filter fun p => p.1 = k) = qs.filter fun p => p.1 = k) :
    putAll ps st =
      putAll qs st := by
  funext k
  rw [putAll_apply, putAll_apply, h k]

/-! ## Parts -/

/-- The pairs of a request as items of their slots. -/
def pairItems (ps : List (Bytes × Bytes)) : List (SlotKey × List (Bytes × Bytes)) :=
  ps.map fun p => (redisSlot (some p.1), [p])

theorem kvItems_flatPairs (ps : List (Bytes × Bytes)) :
    kvItems (flatPairs ps) = (pairItems ps).map fun i => (i.1, flatPairs i.2) := by
  induction ps with
  | nil => rfl
  | cons p ps ih => exact congrArg _ ih

theorem kvTable_flatPairs (ps : List (Bytes × Bytes)) :
    kvTable (flatPairs ps) = (group (pairItems ps)).map fun g => (g.1, flatPairs g.2) := by
  unfold kvTable
  rw [kvItems_flatPairs]
  exact group_flatMap _ _

theorem kvTable_ne_nil {args : List Bytes} (h : args ≠ []) : kvTable args ≠ [] := by
  intro hnil
  have := flatMap_group_perm (kvItems args)
  rw [show group (kvItems args) = [] from hnil] at this
  rcases args with _ | ⟨k, _ | ⟨v, l⟩⟩
  · exact h rfl
  · exact absurd this.symm.eq_nil (by simp [kvItems])
  · exact absurd this.symm.eq_nil (by simp [kvItems])

/-- Executing the parts one after another, in any order, assigns the pairs of the request. -/
theorem foldl_assign_parts (ps : List (Bytes × Bytes)) {parts : List Part}
    (hparts : parts.Perm (kvTable (flatPairs ps))) (st : Store) :
    parts.foldl (fun st g => assign g.2 st) st = assign (flatPairs ps) st := by
  rw [kvTable_flatPairs] at hparts
  obtain ⟨gs, rfl, hgs⟩ : ∃ gs : List (SlotKey × List (Bytes × Bytes)),
      parts = gs.map (fun g => (g.1, flatPairs g.2)) ∧ gs.Perm (group (pairItems ps)) := by
    have := List.eq_map_comp_perm (fun g : SlotKey × List (Bytes × Bytes) => (g.1, flatPairs g.2))
    exact (congrFun (congrFun this parts) _).mpr hparts
  have hrun : ∀ (gs : List (SlotKey × List (Bytes × Bytes))) (st : Store),
      (gs.map fun g => (g.1, flatPairs g.2)).foldl (fun st g => assign g.2 st) st =
        putAll (gs.flatMap (·.2)) st := by
    intro gs
    induction gs with
    | nil => intro st; rfl
    | cons g gs ih =>
      intro st
      rw [List.map_cons, List.foldl_cons, ih, assign_flatPairs, List.flatMap_cons]
      exact (List.foldl_append ..).symm
  have hflat : (pairItems ps).flatMap (·.2) = ps := by
    unfold pairItems
    rw [List.flatMap_map, List.flatMap_singleton']
  rw [hrun, assign_flatPairs]
  refine putAll_congr st fun k => ?_
  rw [filter_groups hgs _ (redisSlot (some k)), hflat]
  intro i hi p hp hk
  obtain ⟨q, -, rfl⟩ := List.mem_map.1 hi
  rw [List.mem_singleton] at hp
  subst hp
  simp only [decide_eq_true_eq] at hk
  rw [hk]

/-! ## MSET -/

section MSet

variable {σ : Type} (send : Send σ) (store : σ → Store)

/-- Every sub-request succeeds and a backend executes it: the world's keyspace `store` changes by
the assignment of its pairs. The invariant `P` of the world says when it can be relied on. -/
def Assigns (P : σ → Prop) (cmd : Bytes) (args : List Bytes) : Prop :=
  ∀ g ∈ kvTable args, ∀ w, P w → ∃ w', P w' ∧
    subRequest send g.1 cmd g.2 w = (.ok ⟨.str (bytes "OK"), some typeStatusReply, .nil⟩, w') ∧
    store w' = assign g.2 (store w)

variable {send store} {P : σ → Prop} {cmd : Bytes} {args : List Bytes}

theorem multiKvs_finish (left : LuaError → Value) (p : Part) (val : Value) (pre : Option Nat) :
    (multiKvs left send cmd).finish p (.ok ⟨val, pre, .nil⟩) () = (.ok ⟨lhlhOk, pre, .nil⟩, ()) := rfl

theorem Assigns.call (h : Assigns send store P cmd args) (left : LuaError → Value) {g : Part} (hg : g ∈ kvTable args)
    {w : σ} (hw : P w) :
    P ((multiKvs left send cmd).call g w).2 ∧
      ((multiKvs left send cmd).call g w).1 = .ok ⟨.str (bytes "OK"), some typeStatusReply, .nil⟩ ∧
      store ((multiKvs left send cmd).call g w).2 = assign g.2 (store w) := by
  obtain ⟨w', hw', hcall, hstore⟩ := h g hg w hw
  have hc : (multiKvs left send cmd).call g w = _ := hcall
  rw [hc]
  exact ⟨hw', rfl, hstore⟩

theorem Assigns.endsWell (h : Assigns send store P cmd args) (left : LuaError → Value) {g : Part}
    (hg : g ∈ kvTable args) :
    EndsWell (multiKvs left send cmd) P g := by
  intro w hw
  obtain ⟨hP, hans, -⟩ := h.call left hg hw
  refine ⟨hP, fun m => ?_⟩
  rw [hans]
  exact ⟨_, rfl, rfl⟩

/-- An MSET with an even number of arguments leaves the store that assigning all its pairs from left
to right leaves, and answers `+OK`, however the parts are ordered and interleaved. -/
theorem mset_assigns {w : σ} (sc : Sched) (hne : args ≠ []) (heven : args.length % 2 = 0) (hw : P w)
    (h : Assigns send store P cmd args) :
    ∃ t w', redisKvs send sc cmd args w = (.ok (some t), w') ∧ flatTab t = .ok (bytes "+OK\r\n") ∧
      store w' = assign args (store w) := by
  have hparts := sc.arrange_perm (kvTable_nodup args)
  obtain ⟨st, s, cs, fs, hwait, hrc, ⟨t, ht, w₁, m₁, st₁, hw₁, hfin, hpre⟩, hcs, -, hcalls, -⟩ :=
    threadWait_serial _ sc.steps () (sc.arrange_ne_nil (kvTable_nodup args) (kvTable_ne_nil hne)) hw
      fun g hg => h.endsWell sc.left (hparts.subset hg)
  have hfront : st.pre = some typeStatusReply := by
    rw [(h.call sc.left (hparts.subset ht) hw₁).2.1, multiKvs_finish] at hfin
    cases hfin
    exact hpre
  have hin : ∀ p ∈ cs, p.1 ∈ kvTable args := fun p hp => hparts.subset (hcs.subset (List.mem_map_of_mem hp))
  have hstore : store s.world = (cs.map (·.1)).foldl (fun st g => assign g.2 st) (store w) := by
    rw [List.foldl_map]
    exact hcalls.acts store (fun g st => assign g.2 st) hw (fun p hp w hw => (h.call sc.left (hin p hp) hw).1)
      fun p hp w hw => (h.call sc.left (hin p hp) hw).2.2
  obtain ⟨ps, rfl⟩ := exists_pairs heven
  refine ⟨[.str (bytes "+"), .str (bytes "OK"), .str crlf], s.world, ?_, by rfl, ?_⟩
  · simp only [redisKvs, kvsOver, hwait, hrc, hfront, ne_eq, not_true_eq_false, ite_false]
    rfl
  · rw [hstore, foldl_assign_parts ps (hcs.trans hparts)]

/-- Two slots, a key set twice. -/
theorem mset_assigns_repeated :
    ∃ t w', redisKvs (σ := Store)
        (fun _ _ kvs st => (.ok ⟨.str (bytes "OK"), some typeStatusReply, .nil⟩, assign kvs st))
        ⟨List.reverse, List.reverse_perm, fun _ => [1], fun _ => .nil⟩ (bytes "mset")
        [bytes "a", bytes "1", bytes "b", bytes "2", bytes "a", bytes "3"] (fun _ => none) = (.ok (some t), w') ∧
      flatTab t = .ok (bytes "+OK\r\n") ∧
      w' = assign [bytes "a", bytes "1", bytes "b", bytes "2", bytes "a", bytes "3"] fun _ => none := by
  have hlen : ∀ g ∈ kvTable [bytes "a", bytes "1", bytes "b", bytes "2", bytes "a", bytes "3"],
      g.2.length + 1 ≤ maxStack := by decide +kernel
  refine mset_assigns (P := fun _ => True) _ (by decide) (by decide) trivial fun g hg w _ => ?_
  exact ⟨assign g.2 w, trivial, subRequest_run _ _ _ (hlen g hg) w, rfl⟩

end MSet

end NgProxy.Process
