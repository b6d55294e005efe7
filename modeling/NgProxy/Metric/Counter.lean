/-
`lhlh_metric_counter`: a counter is a key of a shared dictionary; it is incremented, and when it is not
there it is set. The dictionary's operations are atomic, but the two of them are not one: workers that
find the key absent together overwrite what the others have set.
-/
import NgProxy.Lib.Prog
import NgProxy.Lib.Trace
import NgProxy.Lua.Number

namespace NgProxy.Metric

open Lua

/-! ## The shared dictionary -/

/-- A shared dictionary that holds numbers. -/
abbrev Dict := Bytes → Option Number

namespace Dict

/-- `incr`: nothing is returned, or changed, when the key is not found. -/
def incr (d : Dict) (name : Bytes) (value : Number) : Option Number × Dict :=
  match d name with
  | none => (none, d)
  | some n => (some (n.add value), fun k => if k = name then some (n.add value) else d k)

def set (d : Dict) (name : Bytes) (value : Number) : Dict := fun k => if k = name then some value else d k

end Dict

/-- `metric_incr`. -/
def metricIncr (name : Bytes) (value : Number) : Prog Empty Dict Unit := do
  let res ← fun d => (.ok (d.incr name value).1, (d.incr name value).2)
  Prog.when res.isNone (Prog.modify fun d => d.set name value)

/-- `metric_get`: a counter that is not there is 0. -/
def metricGet (d : Dict) (name : Bytes) : Number := (d name).getD (.int 0)

/-! ## Calls of several workers -/

/-- How far a call of `metric_incr` has come: it has incremented the counter, or it has not found it
and will set it. -/
inductive Phase where
  | start
  | counted
  | missed
  | stored
  deriving DecidableEq

/-- The dictionary and the calls, each with its value. -/
structure State where
  dict : Dict
  calls : List (Number × Phase)

/-- The next operation of a call. -/
def act (name : Bytes) (d : Dict) (value : Number) : Phase → Option (Dict × Phase)
  | .start =>
    match d.incr name value with
    | (none, d) => some (d, .missed)
    | (some _, d) => some (d, .counted)
  | .missed => some (d.set name value, .stored)
  | .counted => none
  | .stored => none

/-- Call number `i` takes its next step. -/
def step (name : Bytes) (s : State) (i : Nat) : Option State :=
  match s.calls[i]? with
  | none => none
  | some (v, p) => (act name s.dict v p).map fun r => ⟨r.1, s.calls.set i (v, r.2)⟩

/-- The calls have not begun. -/
def begin (d : Dict) (values : List Int) : State := ⟨d, values.map fun v => (.int v, .start)⟩

/-- Every call has returned. -/
def State.Done (s : State) : Prop := ∀ p ∈ s.calls, p.2 = .counted ∨ p.2 = .stored

/-- A call that runs alone does what `metric_incr` does. -/
theorem metricIncr_steps (name : Bytes) (value : Number) (d : Dict) :
    ∃ tr p, Trace.run (step name) ⟨d, [(value, .start)]⟩ tr = some ⟨(metricIncr name value d).2, [(value, p)]⟩ ∧
      (p = .counted ∨ p = .stored) := by
  rcases h : d name with _ | n
  · refine ⟨[0, 0], .stored, ?_, .inr rfl⟩
    simp [Trace.run, step, act, Dict.incr, h, metricIncr, bind, Prog.when]
  · refine ⟨[0], .counted, ?_, .inl rfl⟩
    simp [Trace.run, step, act, Dict.incr, h, metricIncr, bind, Prog.when]

/-- Everything a step can do: a call misses the counter, increments it, or sets it. -/
theorem step_cases {name : Bytes} {s s' : State} {i : Nat} (h : step name s i = some s') :
    ∃ pre v p post, s.calls = pre ++ (v, p) :: post ∧
      ((p = .start ∧ s.dict name = none ∧ s'.dict name = none ∧ s'.calls = pre ++ (v, .missed) :: post) ∨
        (∃ n, p = .start ∧ s.dict name = some n ∧ s'.dict name = some (n.add v) ∧
          s'.calls = pre ++ (v, .counted) :: post) ∨
        (p = .missed ∧ s'.dict name = some v ∧ s'.calls = pre ++ (v, .stored) :: post)) := by
  unfold step at h
  rcases hi : s.calls[i]? with _ | ⟨v, p⟩
  · rw [hi] at h
    cases h
  · rw [hi] at h
    obtain ⟨hlt, hget⟩ := List.getElem?_eq_some_iff.1 hi
    have hcalls : s.calls = s.calls.take i ++ (v, p) :: s.calls.drop (i + 1) := by
      rw [← hget, List.getElem_cons_drop, List.take_append_drop]
    have hset : ∀ q, s.calls.set i (v, q) = s.calls.take i ++ (v, q) :: s.calls.drop (i + 1) := fun q => by
      rw [List.set_eq_take_append_cons_drop, if_pos hlt]
    refine ⟨s.calls.take i, v, p, s.calls.drop (i + 1), hcalls, ?_⟩
    cases p with
    | start =>
      rcases hd : s.dict name with _ | n
      · simp only [act, Dict.incr, hd, Option.map_some, Option.some.injEq] at h
        subst h
        exact .inl ⟨rfl, rfl, hd, hset _⟩
      · simp only [act, Dict.incr, hd, Option.map_some, Option.some.injEq] at h
        subst h
        exact .inr (.inl ⟨n, rfl, rfl, if_pos rfl, hset _⟩)
    | missed =>
      simp only [act, Option.map_some, Option.some.injEq] at h
      subst h
      exact .inr (.inr ⟨rfl, if_pos rfl, hset _⟩)
    | counted => simp [act] at h
    | stored => simp [act] at h

/-! ## No update is lost while only one call misses -/

/-- The call has not found the counter. -/
def isLate (p : Number × Phase) : Bool := p.2 = .missed || p.2 = .stored

/-- How many calls have not found the counter. -/
def late (calls : List (Number × Phase)) : Nat := calls.countP isLate

/-- What a call that has returned has added. -/
def gain (p : Number × Phase) : Int := if p.2 = .counted ∨ p.2 = .stored then p.1.mant else 0

def total (calls : List (Number × Phase)) : Int := (calls.map gain).sum

/-- No sum of some of the values is larger than this. -/
def size (calls : List (Number × Phase)) : Nat := (calls.map fun p => p.1.mant.natAbs).sum

theorem natAbs_total_le (calls : List (Number × Phase)) : (total calls).natAbs ≤ size calls := by
  induction calls with
  | nil => simp [total, size]
  | cons p calls ih =>
    have hp : (gain p).natAbs ≤ p.1.mant.natAbs := by
      unfold gain
      split <;> simp
    simp only [total, size, List.map_cons, List.sum_cons] at ih ⊢
    omega

theorem total_eq_zero {calls : List (Number × Phase)} (h : ∀ p ∈ calls, p.2 = .start) : total calls = 0 := by
  induction calls with
  | nil => rfl
  | cons p calls ih =>
    rw [List.forall_mem_cons] at h
    have hp : gain p = 0 := by simp [gain, h.1]
    simp only [total, List.map_cons, List.sum_cons] at ih ⊢
    rw [hp, ih h.2]
    rfl

/-- The counter is absent and no call has returned, or it is the initial value and what was added. -/
def Exact (name : Bytes) (c : Option Int) (s : State) : Prop :=
  (s.dict name = none ∧ c = none ∧ ∀ p ∈ s.calls, p.2 = .start ∨ p.2 = .missed) ∨
    (s.dict name = some (.int (c.getD 0 + total s.calls)) ∧ ∀ p ∈ s.calls, p.2 ≠ .missed)

/-- What every step keeps: the values, and the exact count as long as at most one call has missed the
counter. -/
structure Inv (name : Bytes) (c : Option Int) (values : List Int) (s : State) : Prop where
  values : s.calls.map Prod.fst = values.map Number.int
  exact : late s.calls ≤ 1 → Exact name c s

theorem Inv.int {name : Bytes} {c : Option Int} {values : List Int} {s : State} (h : Inv name c values s) :
    ∀ p ∈ s.calls, p.1 = .int p.1.mant := by
  intro p hp
  obtain ⟨z, -, hz⟩ := List.mem_map.1 (h.values ▸ List.mem_map_of_mem hp : p.1 ∈ values.map Number.int)
  rw [← hz]
  rfl

theorem size_eq {calls : List (Number × Phase)} {values : List Int} (h : calls.map Prod.fst = values.map Number.int) :
    size calls = (values.map Int.natAbs).sum := by
  have hmap : calls.map (fun p => p.1.mant.natAbs) = (calls.map Prod.fst).map fun n => n.mant.natAbs := by simp
  rw [size, hmap, h, List.map_map]
  rfl

/-- A call that turns from one phase into another changes the sums by what it gains. -/
theorem total_append_cons (pre post : List (Number × Phase)) (p : Number × Phase) :
    total (pre ++ p :: post) = total pre + gain p + total post := by
  simp [total]
  omega

theorem late_append_cons (pre post : List (Number × Phase)) (p : Number × Phase) :
    late (pre ++ p :: post) = late pre + late post + if isLate p then 1 else 0 := by
  simp [late, List.countP_append, List.countP_cons]
  omega

theorem not_late {calls : List (Number × Phase)} (h : late calls = 0) : ∀ p ∈ calls, p.2 ≠ .missed ∧ p.2 ≠ .stored := by
  intro p hp
  have := List.countP_eq_zero.1 h p hp
  simpa [isLate] using this

theorem late_le {pre post : List (Number × Phase)} {p q : Number × Phase} (h : isLate p → isLate q) :
    late (pre ++ p :: post) ≤ late (pre ++ q :: post) := by
  rw [late_append_cons, late_append_cons]
  split
  · rw [if_pos (h ‹_›)]
  · omega

section Exact

variable {name : Bytes} {c : Option Int} {s s' : State} {pre post : List (Number × Phase)} {v : Number}

/-- Another call has missed the counter: it is still absent. -/
theorem Exact.missed (hs : Exact name c s) (hcalls : s.calls = pre ++ (v, .start) :: post)
    (hcalls' : s'.calls = pre ++ (v, .missed) :: post) (hd : s.dict name = none) (hd' : s'.dict name = none) :
    Exact name c s' := by
  rcases hs with ⟨-, hnone, hall⟩ | ⟨hsome, -⟩
  · refine .inl ⟨hd', hnone, ?_⟩
    rw [hcalls] at hall
    rw [hcalls']
    simp only [List.forall_mem_append, List.forall_mem_cons] at hall ⊢
    exact ⟨hall.1, .inr trivial, hall.2.2⟩
  · rw [hd] at hsome
    cases hsome

/-- The counter is incremented. -/
theorem Exact.counted (hs : Exact name c s) (hcalls : s.calls = pre ++ (v, .start) :: post)
    (hcalls' : s'.calls = pre ++ (v, .counted) :: post) {n : Number} (hd : s.dict name = some n)
    (hd' : s'.dict name = some (n.add v)) (hint : v = .int v.mant)
    (hbound : (c.getD 0 + total s'.calls).natAbs ≤ 2 ^ 53) : Exact name c s' := by
  rcases hs with ⟨hnone, -⟩ | ⟨hsome, hall⟩
  · rw [hd] at hnone
    cases hnone
  · have htotal : c.getD 0 + total s'.calls = c.getD 0 + total s.calls + v.mant := by
      rw [hcalls', hcalls, total_append_cons, total_append_cons]
      simp [gain]
      omega
    obtain rfl : n = .int (c.getD 0 + total s.calls) := Option.some.inj (hd.symm.trans hsome)
    refine .inr ⟨?_, ?_⟩
    · rw [hd', hint, add_int _ _ (htotal ▸ hbound), ← htotal]
    · rw [hcalls] at hall
      rw [hcalls']
      simp only [List.forall_mem_append, List.forall_mem_cons] at hall ⊢
      exact ⟨hall.1, by decide, hall.2.2⟩

/-- The counter is set by the one call that has missed it: no other call can have returned. -/
theorem Exact.stored (hs : Exact name c s) (hcalls : s.calls = pre ++ (v, .missed) :: post)
    (hcalls' : s'.calls = pre ++ (v, .stored) :: post) (hd' : s'.dict name = some v) (hint : v = .int v.mant)
    (hpre : late pre = 0) (hpost : late post = 0) : Exact name c s' := by
  rcases hs with ⟨-, rfl, hall⟩ | ⟨-, hall⟩
  · rw [hcalls] at hall
    simp only [List.forall_mem_append, List.forall_mem_cons] at hall
    have hstart : ∀ p ∈ pre, p.2 = .start := fun p hp => (hall.1 p hp).resolve_right (not_late hpre p hp).1
    have hstart' : ∀ p ∈ post, p.2 = .start := fun p hp => (hall.2.2 p hp).resolve_right (not_late hpost p hp).1
    refine .inr ⟨?_, ?_⟩
    · rw [hd', hcalls', total_append_cons, total_eq_zero hstart, total_eq_zero hstart', hint]
      simp [gain, Number.mant]
    · rw [hcalls']
      simp only [List.forall_mem_append, List.forall_mem_cons]
      exact ⟨fun p hp => (not_late hpre p hp).1, by decide, fun p hp => (not_late hpost p hp).1⟩
  · exact absurd rfl (hall (v, .missed) (by simp [hcalls]))

end Exact

theorem inv_step {name : Bytes} {c : Option Int} {values : List Int}
    (hsize : (c.getD 0).natAbs + (values.map Int.natAbs).sum ≤ 2 ^ 53) {s s' : State} {i : Nat}
    (hs : Inv name c values s) (h : step name s i = some s') : Inv name c values s' := by
  obtain ⟨pre, v, p, post, hcalls, hcases⟩ := step_cases h
  have hint : v = .int v.mant := hs.int (v, p) (by simp [hcalls])
  -- only the phase of one call changes, and a call that has missed the counter stays one
  have hturn : ∀ q, s'.calls = pre ++ (v, q) :: post → (isLate (v, p) → isLate (v, q)) →
      (s'.calls.map Prod.fst = values.map Number.int → late s'.calls ≤ 1 → Exact name c s → Exact name c s') →
      Inv name c values s' := by
    intro q hq hmono hexact
    have hvalues : s'.calls.map Prod.fst = values.map Number.int := by
      rw [hq, ← hs.values, hcalls]
      simp
    refine ⟨hvalues, fun hlate => hexact hvalues hlate (hs.exact (le_trans ?_ hlate))⟩
    rw [hcalls, hq]
    exact late_le hmono
  rcases hcases with ⟨rfl, hd, hd', hcalls'⟩ | ⟨n, rfl, hd, hd', hcalls'⟩ | ⟨rfl, hd', hcalls'⟩
  · exact hturn _ hcalls' (by simp [isLate]) fun _ _ hex => hex.missed hcalls hcalls' hd hd'
  · refine hturn _ hcalls' (by simp [isLate]) fun hvalues _ hex => hex.counted hcalls hcalls' hd hd' hint ?_
    have htotal := natAbs_total_le s'.calls
    rw [size_eq hvalues] at htotal
    omega
  · refine hturn _ hcalls' (by simp [isLate]) fun _ hlate hex => ?_
    have hsum : late pre = 0 ∧ late post = 0 := by
      rw [hcalls', late_append_cons] at hlate
      simp [isLate] at hlate
      omega
    exact hex.stored hcalls hcalls' hd' hint hsum.1 hsum.2

theorem inv_begin {name : Bytes} {d : Dict} {c : Option Int} (values : List Int) (hd : d name = c.map Number.int) :
    Inv name c values (begin d values) := by
  have hstart : ∀ p ∈ (begin d values).calls, p.2 = .start := by simp [begin]
  refine ⟨by simp [begin, Function.comp_def], fun _ => ?_⟩
  cases c with
  | none => exact .inl ⟨hd, rfl, fun p hp => .inl (hstart p hp)⟩
  | some n =>
    refine .inr ⟨?_, fun p hp => by simp [hstart p hp]⟩
    rw [total_eq_zero hstart]
    simpa [begin] using hd

theorem total_done {calls : List (Number × Phase)} {values : List Int} (h : calls.map Prod.fst = values.map Number.int)
    (hdone : ∀ p ∈ calls, p.2 = .counted ∨ p.2 = .stored) : total calls = values.sum := by
  have hgain : calls.map gain = (calls.map Prod.fst).map Number.mant := by
    rw [List.map_map]
    exact List.map_congr_left fun p hp => if_pos (hdone p hp)
  rw [total, hgain, h, List.map_map]
  exact congrArg List.sum (List.map_id _)

/-- In every run of any calls in which at most one of them misses the counter, the counter is in the end
what it was before and the sum of all values. -/
theorem counter_exact (name : Bytes) (d : Dict) (c : Option Int) (values : List Int) (tr : List Nat) (s : State)
    (hd : d name = c.map Number.int) (hsize : (c.getD 0).natAbs + (values.map Int.natAbs).sum ≤ 2 ^ 53)
    (hrun : Trace.run (step name) (begin d values) tr = some s) (hdone : s.Done) (hlate : late s.calls ≤ 1) :
    metricGet s.dict name = .int (c.getD 0 + values.sum) := by
  have hinv : Inv name c values s :=
    Trace.run_invariant (I := fun _ s => Inv name c values s) (P := fun _ => True)
      (fun _ _ _ _ _ hs h => inv_step hsize hs h) (fun _ _ => trivial) (inv_begin values hd) hrun
  have htotal := total_done hinv.values hdone
  unfold metricGet
  rcases hinv.exact hlate with ⟨hnone, rfl, hall⟩ | ⟨hsome, -⟩
  · -- an absent counter means that there were no calls
    have hnil : s.calls = [] := by
      refine List.eq_nil_iff_forall_not_mem.2 fun p hp => ?_
      rcases hall p hp with h | h <;> rcases hdone p hp with h' | h' <;> simp [h] at h'
    rw [hnil] at htotal
    rw [hnone, ← htotal]
    rfl
  · rw [hsome, htotal]
    rfl

/-- Two workers count one query each; the first finds the counter absent and sets it in time. -/
theorem counter_exact_two :
    ∃ s, Trace.run (step (bytes "query_count")) (begin (fun _ => none) [1, 1]) [0, 0, 1] = some s ∧
      metricGet s.dict (bytes "query_count") = .int (0 + [1, 1].sum) :=
  ⟨_, rfl, counter_exact (bytes "query_count") (fun _ => none) none [1, 1] [0, 0, 1] _ rfl (by decide) rfl
    (by simp [State.Done, begin]) (by decide)⟩

/-- When both find it absent, the second to set it overwrites the first: one query is lost. -/
theorem counter_loses :
    ∃ s, Trace.run (step (bytes "query_count")) (begin (fun _ => none) [1, 1]) [0, 1, 0, 1] = some s ∧ s.Done ∧
      metricGet s.dict (bytes "query_count") = .int 1 :=
  ⟨_, rfl, by simp [State.Done, begin], by decide⟩

end NgProxy.Metric
