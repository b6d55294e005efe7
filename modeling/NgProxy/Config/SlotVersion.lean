/-
The version of the slot map. `cluster_nodes` waits for the network, so the refreshes of a worker interleave:
each asks for CLUSTER NODES, and a reply may be applied long after it was asked for, or never. The version
is recorded all the same, in the same breath: nothing comes between the end of `cluster_nodes` and the
assignment. So it is ahead of the map exactly when a refresh that has run out of nodes records a version
that the reply in the map is too old for.
-/
import NgProxy.Cluster.Redirect
import NgProxy.Cluster.Nodes
import NgProxy.Config.Version

namespace NgProxy.Config

open Text Trace

/-! ## Asking and applying -/

/-- The machine of the versions, and what happens within `fetch`. A reply is known by the versions that were
published when it was requested: `awaits` are those of the requests without an answer, `applied` those of
the replies in each worker's map, in order. -/
structure Slots (ω : Type) where
  base : State ω
  published : List Tm
  awaits : Nat → Option (List Tm)
  applied : ω → List (List Tm)

/-- A thread in `cluster_nodes` sends CLUSTER NODES, gets no reply, applies one, or has no node left. All other
statements are those of the versions. -/
inductive SlotEvent (ω : Type) where
  | base (e : Event ω)
  | ask (q : Nat) (w : ω)
  | fail (q : Nat)
  | apply (q : Nat) (w : ω)
  | giveUp (q : Nat) (w : ω)

/-- The thread is in `cluster_nodes`. -/
def Phase.isFetching : Phase → Bool
  | .fetching _ => true
  | _ => false

/-- `fetch` and the assignment behind it are events of their own. -/
def Event.inNodes {ω : Type} : Event ω → Bool
  | .act _ _ .fetch => true
  | .act _ _ .noteSlots => true
  | _ => false

/-- The thread that ends. -/
def Event.aborts {ω : Type} : Event ω → Option Nat
  | .act q _ .abort => some q
  | _ => none

section Slots

variable {ω : Type} [DecidableEq ω]

/-- The end of `cluster_nodes` and the assignment of the version, between which no other thread runs. -/
def State.refreshed (s : State ω) (q : Nat) (w : ω) : Option (State ω) :=
  run step s [.act q w .fetch, .act q w .noteSlots]

def slotStep (s : Slots ω) : SlotEvent ω → Option (Slots ω)
  | .base e =>
    if e.inNodes then none
    else (step s.base e).map fun b =>
      { s with
        base := b
        published := s.published ++ e.stamp.toList
        awaits := fun q => if e.aborts = some q then none else s.awaits q }
  | .ask q w =>
    match s.base.threads q, s.awaits q with
    | some t, none =>
      if t.worker = w ∧ t.phase.isFetching then
        some { s with awaits := Function.update s.awaits q (some s.published) }
      else none
    | _, _ => none
  | .fail q => if (s.awaits q).isSome then some { s with awaits := Function.update s.awaits q none } else none
  | .apply q w =>
    match s.awaits q with
    | none => none
    | some r => (s.base.refreshed q w).map fun b =>
      { s with
        base := b
        awaits := Function.update s.awaits q none
        applied := Function.update s.applied w (s.applied w ++ [r]) }
  | .giveUp q w =>
    if (s.awaits q).isNone then (s.base.refreshed q w).map fun b => { s with base := b } else none

def slotBoot : Slots ω := ⟨boot, [], fun _ => none, fun _ => []⟩

/-! ## When the version may be recorded -/

/-- The reply applied last was requested when `tm` had been published. -/
def Last (tm : Tm) (replies : List (List Tm)) : Prop := ∃ pre r, replies = pre ++ [r] ∧ tm ∈ r

/-- A refresh that has run out of nodes finds a reply in the map that is new enough for its version. -/
def Orderly (s : Slots ω) : SlotEvent ω → Prop
  | .giveUp q w => ∀ t tm, s.base.threads q = some t → t.phase = .fetching (some (localtime tm)) → Last tm (s.applied w)
  | _ => True

/-- A reply requested after `tm` was published has been applied, and since then none requested before. -/
def NewEnough (tm : Tm) (replies : List (List Tm)) : Prop :=
  ∃ pre r post, replies = pre ++ r :: post ∧ tm ∈ r ∧ ∀ r' ∈ post, tm ∈ r'

/-- It is the reply applied last that counts. -/
theorem newEnough_iff {tm : Tm} {replies : List (List Tm)} : NewEnough tm replies ↔ Last tm replies := by
  constructor
  · rintro ⟨pre, r, post, rfl, hr, hpost⟩
    rcases List.eq_nil_or_concat post with rfl | ⟨init, r', rfl⟩
    · exact ⟨pre, r, rfl, hr⟩
    · exact ⟨pre ++ r :: init, r', by simp, hpost r' (by simp)⟩
  · rintro ⟨pre, r, rfl, hr⟩
    exact ⟨pre, r, [], rfl, hr, by simp⟩

/-- No worker has recorded a version that its map is too old for. -/
def NotAhead (s : Slots ω) : Prop :=
  ∀ w tm, s.base.slot w = some (localtime tm) → tm ∈ s.published ∧ NewEnough tm (s.applied w)

/-- The version, if it is a stamp, is one of these. -/
def StampIn (tms : List Tm) (v : Option Bytes) : Prop := ∀ tm, v = some (localtime tm) → tm ∈ tms

/-- In an orderly run the map is as new as the version: a request without an answer was made when the
version of its thread had been published. -/
structure Fresh (s : Slots ω) : Prop where
  entry : StampIn s.published s.base.version
  slot : ∀ w, StampIn s.published (s.base.slot w)
  threads : ∀ q t v, s.base.threads q = some t → t.phase.version = some v → StampIn s.published v
  pending : ∀ q r, s.awaits q = some r → ∃ t v, s.base.threads q = some t ∧ t.phase = .fetching v ∧ StampIn r v
  recorded : ∀ w tm, s.base.slot w = some (localtime tm) → Last tm (s.applied w)

theorem StampIn.mono {tms tms' : List Tm} {v : Option Bytes} (h : StampIn tms v) (hsub : ∀ tm ∈ tms, tm ∈ tms') :
    StampIn tms' v := fun tm hv => hsub tm (h tm hv)

theorem stampIn_none (tms : List Tm) : StampIn tms none := fun _ h => by cases h

omit [DecidableEq ω] in
theorem Fresh.notAhead {s : Slots ω} (hs : Fresh s) : NotAhead s :=
  fun w tm hv => ⟨hs.slot w tm hv, newEnough_iff.2 (hs.recorded w tm hv)⟩

theorem firstSlots_ne (tm : Tm) : some (bytes "0.02") ≠ some (localtime tm) := by
  intro h
  have hlen := congrArg List.length (Option.some.inj h)
  rw [length_localtime] at hlen
  exact absurd hlen (by decide)

omit [DecidableEq ω] in
theorem slotBoot_fresh : Fresh (slotBoot : Slots ω) where
  entry := stampIn_none _
  slot _ tm h := absurd h (firstSlots_ne tm)
  threads _ _ _ h := by cases h
  pending _ _ h := by cases h
  recorded _ tm h := absurd h (firstSlots_ne tm)

/-! ## Statements -/

/-- What the other statements do to the versions. -/
theorem acts_slots {job : Job} {p p' : Phase} {a : Action} {x x' : View} (h : Acts job p a x p' x') (ha : a ≠ .fetch)
    (ha' : a ≠ .noteSlots) :
    x'.slot = x.slot ∧ (∀ v, p'.version = some v → v = none ∨ v = x.version ∨ p.version = some v) ∧
      (x'.version = x.version ∨ ∃ tm, a.stamp = some tm ∧ x'.version = some (localtime tm)) ∧
      (∀ v, p = .fetching v → a = .abort) := by
  cases h with
  | fetch => exact absurd rfl ha
  | noteSlots => exact absurd rfl ha'
  | read hv => simp [Phase.version, hv]
  | seed tm => simp [Phase.version, Action.stamp]
  | publish tm => simp [Phase.version, Action.stamp]
  | _ => simp [Phase.version]

theorem refreshed_run {s : State ω} {q : Nat} {t : Thread ω} {v : Option Bytes} (ht : s.threads q = some t)
    (hphase : t.phase = .fetching v) :
    s.refreshed q t.worker = some (s.put q { t with phase := .ready } { s.view t.worker with slot := v }) := by
  have hfetch : step s (.act q t.worker .fetch) = some (s.put q { t with phase := .fetched v } (s.view t.worker)) := by
    simp [step, ht, hphase, act]
  have hnote : step (s.put q { t with phase := .fetched v } (s.view t.worker)) (.act q t.worker .noteSlots) =
      some (s.put q { t with phase := .ready } { s.view t.worker with slot := v }) := by
    simp [step, act, State.put, State.view]
  exact run_cons.2 ⟨_, hfetch, run_cons.2 ⟨_, hnote, rfl⟩⟩

/-- A refresh ends: its version is the worker's now. -/
theorem refreshed_cases {s b : State ω} {q : Nat} {w : ω} (h : s.refreshed q w = some b) :
    ∃ t v, s.threads q = some t ∧ t.worker = w ∧ t.phase = .fetching v ∧
      b = s.put q { t with phase := .ready } { s.view w with slot := v } := by
  obtain ⟨m, hfetch, -⟩ := run_cons.1 h
  rcases step_cases hfetch with ⟨_, _, _, he, -⟩ | ⟨q', t, a, p, x, he, ht, hact, -⟩ | ⟨he, -⟩
  · cases he
  · cases he
    obtain ⟨v, hphase⟩ : ∃ v, t.phase = .fetching v := by
      generalize t.phase = p₀ at hact
      cases hact
      exact ⟨_, rfl⟩
    rw [refreshed_run ht hphase] at h
    exact ⟨t, v, ht, rfl, hphase, (Option.some.inj h).symm⟩
  · cases he

/-! ## Steps -/

theorem update_some {f : Nat → Option (List Tm)} {q q' : Nat} {r : List Tm}
    (h : Function.update f q none q' = some r) : q' ≠ q ∧ f q' = some r := by
  by_cases hq : q' = q
  · simp [hq] at h
  · exact ⟨hq, by simpa [hq] using h⟩

/-- A thread moves on: nobody's request is touched but its own. What its worker has recorded then must be covered
by the replies in the worker's map. -/
theorem Fresh.put {s : Slots ω} (hs : Fresh s) {q : Nat} {t : Thread ω} {x : View} {published : List Tm}
    {replies : List (List Tm)} (hsub : ∀ tm ∈ s.published, tm ∈ published) (hversion : StampIn published x.version)
    (hslot : StampIn published x.slot) (hphase : ∀ v, t.phase.version = some v → StampIn published v)
    (hlast : ∀ tm, x.slot = some (localtime tm) → Last tm replies) :
    Fresh ⟨s.base.put q t x, published, Function.update s.awaits q none,
      Function.update s.applied t.worker replies⟩ where
  entry := hversion
  slot w := by
    show StampIn published ((s.base.put q t x).slot w)
    rw [put_slot]
    split
    · exact hslot
    · exact (hs.slot w).mono hsub
  threads q' t' v ht' hv := by
    rcases put_some ht' with ⟨-, rfl⟩ | ⟨-, ht'⟩
    · exact hphase v hv
    · exact (hs.threads q' t' v ht' hv).mono hsub
  pending q' r hr := by
    obtain ⟨hq, hr⟩ := update_some hr
    obtain ⟨t', v, ht', hv⟩ := hs.pending q' r hr
    exact ⟨t', v, by rw [put_threads, if_neg hq]; exact ht', hv⟩
  recorded w tm h := by
    change (s.base.put q t x).slot w = _ at h
    show Last tm (Function.update s.applied t.worker replies w)
    rw [put_slot] at h
    rw [Function.update_apply]
    split
    · rename_i hw
      rw [if_pos hw] at h
      exact hlast tm h
    · rename_i hw
      rw [if_neg hw] at h
      exact hs.recorded w tm h

/-- The same where nothing is applied. -/
theorem Fresh.put_same {s : Slots ω} (hs : Fresh s) {q : Nat} {t : Thread ω} {x : View} {published : List Tm}
    (hsub : ∀ tm ∈ s.published, tm ∈ published) (hversion : StampIn published x.version)
    (hslot : StampIn published x.slot) (hphase : ∀ v, t.phase.version = some v → StampIn published v)
    (hlast : ∀ tm, x.slot = some (localtime tm) → Last tm (s.applied t.worker)) :
    Fresh ⟨s.base.put q t x, published, Function.update s.awaits q none, s.applied⟩ := by
  have h := hs.put (q := q) hsub hversion hslot hphase hlast
  rwa [Function.update_eq_self] at h

omit [DecidableEq ω] in
/-- A request is without an answer only while its thread is in `cluster_nodes`. -/
theorem Fresh.awaits_none {s : Slots ω} (hs : Fresh s) {q : Nat}
    (h : ∀ t v, s.base.threads q = some t → t.phase ≠ .fetching v) : s.awaits q = none := by
  cases hr : s.awaits q with
  | none => rfl
  | some r =>
    obtain ⟨t, v, ht, hv, -⟩ := hs.pending q r hr
    exact absurd hv (h t v ht)

omit [DecidableEq ω] in
/-- A thread that acts has no request without an answer afterwards: it had none, or is aborted. -/
theorem Fresh.awaits_act {s : Slots ω} (hs : Fresh s) {q : Nat} {t : Thread ω} {a : Action}
    (ht : s.base.threads q = some t) (habort : ∀ v, t.phase = .fetching v → a = .abort) :
    (fun q' => if (Event.act q t.worker a).aborts = some q' then none else s.awaits q') =
      Function.update s.awaits q none := by
  funext q'
  by_cases hq : q' = q
  · subst hq
    rw [Function.update_self]
    split
    · rfl
    · rename_i hno
      refine hs.awaits_none fun t' v ht' hv => ?_
      rw [ht] at ht'
      cases ht'
      rw [habort v hv] at hno
      exact hno rfl
  · rw [Function.update_of_ne hq, if_neg]
    cases a <;> simp [Event.aborts, Ne.symm hq]

theorem fresh_base {s : Slots ω} {e : Event ω} {b : State ω} (hs : Fresh s) (he : e.inNodes = false)
    (h : step s.base e = some b) :
    Fresh { s with
      base := b
      published := s.published ++ e.stamp.toList
      awaits := fun q => if e.aborts = some q then none else s.awaits q } := by
  have hsub : ∀ tm ∈ s.published, tm ∈ s.published ++ e.stamp.toList := fun tm htm => List.mem_append_left _ htm
  rcases step_cases h with ⟨q, w, job, rfl, hq, rfl⟩ | ⟨q, t, a, p, x, rfl, ht, hact, rfl⟩ | ⟨rfl, rfl⟩
  · have hnone : s.awaits q = none := hs.awaits_none fun t v ht => by rw [hq] at ht; cases ht
    have hput := hs.put_same (q := q) (t := ⟨w, job, .start⟩) (x := s.base.view w) hsub (hs.entry.mono hsub)
      ((hs.slot w).mono hsub) (fun v hv => by cases hv) (hs.recorded w)
    rwa [show Function.update s.awaits q none = s.awaits from Function.update_eq_self_iff.2 hnone.symm] at hput
  · have ha : a ≠ .fetch := by
      rintro rfl
      cases he
    have ha' : a ≠ .noteSlots := by
      rintro rfl
      cases he
    obtain ⟨hslot, hphase, hversion, habort⟩ := acts_slots hact ha ha'
    have hput := hs.put_same (q := q) (t := { t with phase := p }) (x := x) hsub ?_ ?_ ?_ ?_
    · rw [hs.awaits_act ht habort]
      exact hput
    · rcases hversion with hsame | ⟨tm, hstamp, hnew⟩
      · rw [hsame]
        exact hs.entry.mono hsub
      · intro tm' htm'
        rw [hnew] at htm'
        rw [← localtime_inj (Option.some.inj htm')]
        exact List.mem_append_right _ (by simp [Event.stamp, hstamp])
    · rw [hslot]
      exact (hs.slot t.worker).mono hsub
    · intro v hv
      rcases hphase v hv with rfl | rfl | hold
      · exact stampIn_none _
      · exact hs.entry.mono hsub
      · exact (hs.threads q t v ht hold).mono hsub
    · rw [hslot]
      exact hs.recorded t.worker
  · simpa [Event.stamp, Event.aborts] using hs

omit [DecidableEq ω] in
theorem fresh_ask {s : Slots ω} {q : Nat} {t : Thread ω} (hs : Fresh s) (ht : s.base.threads q = some t)
    (hphase : t.phase.isFetching = true) :
    Fresh { s with awaits := Function.update s.awaits q (some s.published) } where
  entry := hs.entry
  slot := hs.slot
  threads := hs.threads
  pending q' r hr := by
    by_cases hq : q' = q
    · subst hq
      obtain rfl : s.published = r := by simpa using hr
      obtain ⟨v, hv⟩ : ∃ v, t.phase = .fetching v := by
        cases hp : t.phase
        case fetching v => exact ⟨v, rfl⟩
        all_goals simp [hp, Phase.isFetching] at hphase
      exact ⟨t, v, ht, hv, hs.threads q' t v ht (by rw [hv]; rfl)⟩
    · exact hs.pending q' r (by simpa [hq] using hr)
  recorded := hs.recorded

omit [DecidableEq ω] in
theorem fresh_fail {s : Slots ω} (hs : Fresh s) (q : Nat) :
    Fresh { s with awaits := Function.update s.awaits q none } where
  entry := hs.entry
  slot := hs.slot
  threads := hs.threads
  pending q' r hr := hs.pending q' r (update_some hr).2
  recorded := hs.recorded

/-- The reply that is applied was requested when the version that is recorded with it had been published. -/
theorem fresh_apply {s : Slots ω} {q : Nat} {w : ω} {r : List Tm} {b : State ω} (hs : Fresh s)
    (hr : s.awaits q = some r) (h : s.base.refreshed q w = some b) :
    Fresh { s with
      base := b
      awaits := Function.update s.awaits q none
      applied := Function.update s.applied w (s.applied w ++ [r]) } := by
  obtain ⟨t, v, ht, rfl, hphase, rfl⟩ := refreshed_cases h
  obtain ⟨t', v', ht', hphase', hown⟩ := hs.pending q r hr
  obtain rfl : t = t' := Option.some.inj (ht.symm.trans ht')
  obtain rfl : v = v' := Phase.fetching.inj (hphase.symm.trans hphase')
  exact hs.put (t := { t with phase := .ready }) (x := { s.base.view t.worker with slot := v }) (fun _ h => h) hs.entry
    (hs.threads q t v ht (by rw [hphase]; rfl)) (fun v hv => by cases hv) fun tm htm => ⟨_, r, rfl, hown tm htm⟩

theorem fresh_giveUp {s : Slots ω} {q : Nat} {w : ω} {b : State ω} (hs : Fresh s) (hnone : s.awaits q = none)
    (hcovered : Orderly s (.giveUp q w)) (h : s.base.refreshed q w = some b) : Fresh { s with base := b } := by
  obtain ⟨t, v, ht, rfl, hphase, rfl⟩ := refreshed_cases h
  have hput := hs.put_same (q := q) (t := { t with phase := .ready }) (x := { s.base.view t.worker with slot := v })
    (fun _ h => h) hs.entry (hs.threads q t v ht (by rw [hphase]; rfl)) (fun v hv => by cases hv)
    fun tm htm => hcovered t tm ht (by rw [hphase]; exact congrArg Phase.fetching htm)
  rwa [show Function.update s.awaits q none = s.awaits from Function.update_eq_self_iff.2 hnone.symm] at hput

theorem fresh_step {s s' : Slots ω} {e : SlotEvent ω} (he : Orderly s e) (hs : Fresh s) (h : slotStep s e = some s') :
    Fresh s' := by
  cases e with
  | base e =>
    rw [slotStep] at h
    split at h
    · cases h
    · rename_i hfetch
      obtain ⟨b, hb, rfl⟩ := Option.map_eq_some_iff.1 h
      exact fresh_base hs (by simpa using hfetch) hb
  | ask q w =>
    rw [slotStep] at h
    split at h
    · rename_i t ht _
      split at h
      · rename_i hphase
        cases h
        exact fresh_ask hs ht hphase.2
      · cases h
    · cases h
  | fail q =>
    rw [slotStep] at h
    split at h
    · cases h
      exact fresh_fail hs q
    · cases h
  | apply q w =>
    rw [slotStep] at h
    split at h
    · cases h
    · rename_i r hr
      obtain ⟨b, hb, rfl⟩ := Option.map_eq_some_iff.1 h
      exact fresh_apply hs hr hb
  | giveUp q w =>
    rw [slotStep] at h
    split at h
    · rename_i hnone
      obtain ⟨b, hb, rfl⟩ := Option.map_eq_some_iff.1 h
      exact fresh_giveUp hs (by simpa using hnone) he hb
    · cases h

/-- A refresh that gives up records its version, and the map stays as it is. -/
theorem orderly_of_notAhead {s s' : Slots ω} {e : SlotEvent ω} (h : slotStep s e = some s') (hs' : NotAhead s') :
    Orderly s e := by
  cases e with
  | giveUp q w =>
    intro t tm ht hphase
    rw [slotStep] at h
    split at h
    · obtain ⟨b, hb, rfl⟩ := Option.map_eq_some_iff.1 h
      obtain ⟨t', v, ht', rfl, hphase', rfl⟩ := refreshed_cases hb
      obtain rfl : t = t' := Option.some.inj (ht.symm.trans ht')
      rw [hphase] at hphase'
      cases hphase'
      exact newEnough_iff.1 (hs' t.worker tm (by rw [put_slot, if_pos rfl])).2
    · cases h
  | _ => trivial

end Slots

/-! ## A worker whose nodes answer late, or not at all -/

def slotActs (q : Nat) (as : List Action) : List (SlotEvent Unit) := (acts q as).map .base

/-- The refresh up to `cluster_nodes`. -/
def upToNodes : List Action := [.read, .compare, .load, .note, .compareSlots]

/-- A worker starts, and a first request gets as far as `cluster_nodes`. -/
def firstRefresh : List (SlotEvent Unit) :=
  (.start 0 () .init :: acts 0 [.read, .seed (noon 0), .compare, .load, .note] ++
    .start 1 () .command :: acts 1 upToNodes).map .base

/-- A second refresh asks while the first one awaits its reply, and is answered first. -/
def overlapping : List (SlotEvent Unit) :=
  firstRefresh ++ .ask 1 () :: .base (.start 2 () .reload) :: slotActs 2 [.read, .compare, .compareSlots] ++
    [.ask 2 (), .apply 2 (), .apply 1 ()]

section Nodes

open Cluster Lua

variable {W ω : Type} [DecidableEq ω]

/-- So many requests without a reply. -/
def vain (q : Nat) (w : ω) (n : Nat) : List (SlotEvent ω) := (List.replicate n [.ask q w, .fail q]).flatten

theorem ask_run {m : Slots ω} {q : Nat} {t : Thread ω} {v : Option Bytes} (ht : m.base.threads q = some t)
    (hphase : t.phase = .fetching v) (hnone : m.awaits q = none) :
    slotStep m (.ask q t.worker) = some { m with awaits := Function.update m.awaits q (some m.published) } := by
  simp [slotStep, ht, hnone, hphase, Phase.isFetching]

/-- Requests in vain leave everything as it was. -/
theorem run_vain {m m' : Slots ω} {q : Nat} {t : Thread ω} {v : Option Bytes} (ht : m.base.threads q = some t)
    (hphase : t.phase = .fetching v) (hnone : m.awaits q = none) {es : List (SlotEvent ω)}
    (hes : run slotStep m es = some m') (n : Nat) : run slotStep m (vain q t.worker n ++ es) = some m' := by
  have hfail : slotStep { m with awaits := Function.update m.awaits q (some m.published) } (.fail q) = some m := by
    simp only [slotStep, Function.update_self, Option.isSome_some, if_true, Function.update_idem, Option.some.injEq]
    rw [Function.update_eq_self_iff.2 hnone.symm]
  induction n with
  | zero => exact hes
  | succ n ih => exact run_cons.2 ⟨_, ask_run ht hphase hnone, run_cons.2 ⟨_, hfail, ih⟩⟩

/-- `cluster_nodes` of a thread alone is a run of the machine, however many nodes are asked in vain: without an
answer the slot map stays as it is and the thread gives up; with one, `update_cluster_nodes` changes the
map and the reply counts as applied. The version is recorded either way. -/
theorem clusterNodes_run {net : Net W} {s s' : St W} (h : clusterNodes net s = (.ok (), s')) {m : Slots ω} {q : Nat}
    {t : Thread ω} {v : Option Bytes} (ht : m.base.threads q = some t) (hphase : t.phase = .fetching v)
    (hnone : m.awaits q = none) :
    ∃ es m', (∀ n, run slotStep m (vain q t.worker n ++ es) = some m') ∧
      m'.base.threads q = some { t with phase := .ready } ∧ m'.base.slot t.worker = v ∧
      ((m'.applied = m.applied ∧ s'.slots = s.slots) ∨
        m'.applied t.worker = m.applied t.worker ++ [m.published] ∧
          ∃ (node : Node) (results : Value) (u u' : St W), u.slots = s.slots ∧
            updateClusterNodes results node u = (.ok (), u') ∧ s'.slots = u'.slots) := by
  have hrefresh := refreshed_run ht hphase
  have hthread : (m.base.put q { t with phase := .ready } { m.base.view t.worker with slot := v }).threads q =
      some { t with phase := .ready } := by rw [put_threads, if_pos rfl]
  have hslot : (m.base.put q { t with phase := .ready } { m.base.view t.worker with slot := v }).slot t.worker = v := by
    rw [put_slot, if_pos rfl]
  rw [clusterNodes, Prog.bind_ok (Prog.get_run s)] at h
  obtain ⟨es, hadds, -⟩ : Quiet s (firstAnswer net s.nodes s).2 := firstAnswer_frame net s.nodes s
  rcases hfirst : firstAnswer net s.nodes s with ⟨e | _ | ⟨node, r, results⟩, u⟩
  all_goals rw [hfirst] at hadds
  · rw [Prog.bind_error hfirst] at h
    cases h
  · rw [Prog.bind_ok hfirst] at h
    cases h
    have hgive : slotStep m (.giveUp q t.worker) =
        some { m with base := m.base.put q { t with phase := .ready } { m.base.view t.worker with slot := v } } := by
      simp only [slotStep, hnone, Option.isNone_none, if_true, hrefresh, Option.map_some]
    have hrun : run slotStep m [.giveUp q t.worker] = some _ := run_cons.2 ⟨_, hgive, rfl⟩
    exact ⟨_, _, run_vain ht hphase hnone hrun, hthread, hslot, .inl ⟨rfl, hadds.slots⟩⟩
  · rw [Prog.bind_ok hfirst] at h
    dsimp only at h
    rcases hupdate : updateClusterNodes results node u with ⟨e | _, u'⟩
    · rw [Prog.bind_error hupdate] at h
      cases h
    · rw [Prog.bind_ok hupdate] at h
      cases h
      have happly : slotStep { m with awaits := Function.update m.awaits q (some m.published) } (.apply q t.worker) =
          some
            { m with
              base := m.base.put q { t with phase := .ready } { m.base.view t.worker with slot := v }
              awaits := Function.update (Function.update m.awaits q (some m.published)) q none
              applied := Function.update m.applied t.worker (m.applied t.worker ++ [m.published]) } := by
        simp only [slotStep, Function.update_self, hrefresh, Option.map_some]
      have hrun : run slotStep m [.ask q t.worker, .apply q t.worker] = some _ :=
        run_cons.2 ⟨_, ask_run ht hphase hnone, run_cons.2 ⟨_, happly, rfl⟩⟩
      exact ⟨_, _, run_vain ht hphase hnone hrun, hthread, hslot,
        .inr ⟨Function.update_self .., node, results, u, u', hadds.slots, hupdate, rfl⟩⟩

end Nodes

end NgProxy.Config
