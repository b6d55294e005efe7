/-
A pool of cooperative threads and their parent. A thread makes one call to the outside world and
then runs, uninterrupted, over the memory it shares with its siblings; between its two steps any
other thread may run. The parent waits for the threads in pool order and stops at the first one
that did not end well. Every such run is a serial one: the calls happen in some order of the
threads, and the uninterrupted segments in another.
-/
import Mathlib.Data.List.Perm.Basic
import Mathlib.Data.List.Nodup
import Mathlib.Data.List.Range
import Mathlib.Order.Defs.Unbundled

namespace NgProxy.Pool

/-- What a thread spawned with `ι` does: its call on the world `σ` answers `α`, then it runs over the
shared memory `τ` and ends with `ο`. -/
structure Body (ι σ τ α ο : Type) where
  call : ι → σ → α × σ
  finish : ι → α → τ → ο × τ

/-- How far a thread has come. -/
inductive Phase (α ο : Type) where
  | ready
  | called (a : α)
  | done (o : ο)

structure State (σ τ α ο : Type) where
  world : σ
  mem : τ
  phase : Nat → Phase α ο

variable {ι σ τ α ο : Type} (b : Body ι σ τ α ο)

def State.init (w : σ) (m : τ) : State σ τ α ο := ⟨w, m, fun _ => .ready⟩

def setPhase (phase : Nat → Phase α ο) (i : Nat) (p : Phase α ο) : Nat → Phase α ο :=
  fun j => if j = i then p else phase j

/-- The next step of thread `i`, if it has one. -/
def step (ts : List ι) (i : Nat) (s : State σ τ α ο) : State σ τ α ο :=
  match ts[i]?, s.phase i with
  | some t, .ready => ⟨(b.call t s.world).2, s.mem, setPhase s.phase i (.called (b.call t s.world).1)⟩
  | some t, .called a => ⟨s.world, (b.finish t a s.mem).2, setPhase s.phase i (.done (b.finish t a s.mem).1)⟩
  | _, _ => s

/-- The threads named by `sched`, one step each. -/
def run (ts : List ι) (sched : List Nat) (s : State σ τ α ο) : State σ τ α ο :=
  sched.foldl (fun s i => step b ts i s) s

/-- The parent waits for `n` threads from thread `i` on. While it waits for thread `i` the steps
`sched i` are taken, and those thread `i` still has; `last` is how the previous thread ended. -/
def join (ts : List ι) (good : ο → Bool) (sched : Nat → List Nat) :
    Nat → Nat → Option ο → State σ τ α ο → Option ο × State σ τ α ο
  | 0, _, last, s => (last, s)
  | n + 1, i, last, s =>
    let s := run b ts (sched i ++ [i, i]) s
    match s.phase i with
    | .done o => if good o then join ts good sched n (i + 1) (some o) s else (some o, s)
    | _ => (last, s)

/-! ## Serial runs -/

/-- The calls of the threads in the order of the list, each with its answer. -/
inductive Calls : σ → List (ι × α) → σ → Prop
  | nil (w) : Calls w [] w
  | snoc {w l w'} (t : ι) (h : Calls w l w') : Calls w (l ++ [(t, (b.call t w').1)]) (b.call t w').2

/-- The uninterrupted segments in the order of the list. -/
def finishAll (l : List (ι × α)) (m : τ) : τ :=
  l.foldl (fun m p => (b.finish p.1 p.2 m).2) m

theorem finishAll_snoc (l : List (ι × α)) (t : ι) (a : α) (m : τ) :
    finishAll b (l ++ [(t, a)]) m = (b.finish t a (finishAll b l m)).2 := by
  simp [finishAll]

variable {b}

/-- Every answer of a serial run was given between the first world and the last one, in the sense of a
relation that every call respects. -/
theorem Calls.between {R : σ → σ → Prop} [IsPreorder σ R] {w w' : σ} {l : List (ι × α)} (h : Calls b w l w')
    (hR : ∀ p ∈ l, ∀ w, R w (b.call p.1 w).2) :
    R w w' ∧ ∀ p ∈ l, ∃ v, R w v ∧ R (b.call p.1 v).2 w' ∧ p.2 = (b.call p.1 v).1 := by
  induction h with
  | nil => exact ⟨Std.Refl.refl _, by simp⟩
  | snoc t h ih =>
    obtain ⟨hw', hl⟩ := ih fun p hp => hR p (List.mem_append_left _ hp)
    have ht := hR _ (List.mem_append_right _ (List.mem_singleton.2 rfl))
    refine ⟨IsTrans.trans _ _ _ hw' (ht _), fun p hp => ?_⟩
    rcases List.mem_append.1 hp with hp | hp
    · obtain ⟨v, hv, hv', ha⟩ := hl p hp
      exact ⟨v, hv, IsTrans.trans _ _ _ hv' (ht _), ha⟩
    · rw [List.mem_singleton] at hp
      subst hp
      exact ⟨_, hw', Std.Refl.refl _, rfl⟩

/-- What holds of one world holds of the other. -/
def Keeps (P : σ → Prop) (w w' : σ) : Prop := P w → P w'

instance (P : σ → Prop) : IsPreorder σ (Keeps P) where
  refl _ h := h
  trans _ _ _ h h' hw := h' (h hw)

/-- Every answer of a serial run was given in a world that satisfies an invariant of the calls. -/
theorem Calls.answer {P : σ → Prop} {w w' : σ} {l : List (ι × α)} (h : Calls b w l w') (hw : P w)
    (hP : ∀ p ∈ l, ∀ w, P w → P (b.call p.1 w).2) : P w' ∧ ∀ p ∈ l, ∃ w, P w ∧ p.2 = (b.call p.1 w).1 := by
  obtain ⟨hw', hl⟩ := h.between (R := Keeps P) hP
  refine ⟨hw' hw, fun p hp => ?_⟩
  obtain ⟨v, hv, -, ha⟩ := hl p hp
  exact ⟨v, hv hw, ha⟩

/-- A part of the world on which every call acts by `act` is acted on in the order of the calls. -/
theorem Calls.acts {X : Type} {P : σ → Prop} {w w' : σ} {l : List (ι × α)} (h : Calls b w l w')
    (f : σ → X) (act : ι → X → X) (hw : P w) (hP : ∀ p ∈ l, ∀ w, P w → P (b.call p.1 w).2)
    (hact : ∀ p ∈ l, ∀ w, P w → f (b.call p.1 w).2 = act p.1 (f w)) :
    f w' = l.foldl (fun x p => act p.1 x) (f w) := by
  induction h with
  | nil => rfl
  | snoc t h ih =>
    have hw' := (h.answer hw fun p hp => hP p (List.mem_append_left _ hp)).1
    have ht := hact _ (List.mem_append_right _ (List.mem_singleton.2 rfl)) _ hw'
    rw [List.foldl_append, ← ih (fun p hp => hP p (List.mem_append_left _ hp))
      fun p hp => hact p (List.mem_append_left _ hp)]
    exact ht

/-- The state `s` is reached by the calls `cs` and the segments `fs`, both tagged with their
thread's index. -/
structure Serial (b : Body ι σ τ α ο) (ts : List ι) (w : σ) (m : τ) (s : State σ τ α ο)
    (cs fs : List (Nat × ι × α)) : Prop where
  calls : Calls b w (cs.map (·.2)) s.world
  mem : s.mem = finishAll b (fs.map (·.2)) m
  thread : ∀ p ∈ cs, ts[p.1]? = some p.2.1
  sub : fs ⊆ cs
  nodup : (cs.map (·.1)).Nodup
  nodup_fs : (fs.map (·.1)).Nodup
  ready : ∀ i, s.phase i = .ready → i ∉ cs.map (·.1)
  called : ∀ i a, s.phase i = .called a → (∃ t, (i, t, a) ∈ cs) ∧ i ∉ fs.map (·.1)
  done : ∀ i o, s.phase i = .done o → ∃ t a, (i, t, a) ∈ fs ∧ ∃ m, o = (b.finish t a m).1

theorem nodup_snoc {l : List Nat} {i : Nat} (hl : l.Nodup) (hi : i ∉ l) : (l ++ [i]).Nodup :=
  List.nodup_append.2 ⟨hl, List.nodup_singleton i, fun a ha b hb e =>
    hi (by rw [List.mem_singleton] at hb; rwa [← hb, ← e])⟩

theorem Serial.init (b : Body ι σ τ α ο) (ts : List ι) (w : σ) (m : τ) : Serial b ts w m (State.init w m) [] [] where
  calls := .nil w
  mem := rfl
  thread := by simp
  sub := by simp
  nodup := by simp
  nodup_fs := by simp
  ready := by simp
  called := by simp [State.init]
  done := by simp [State.init]

variable {ts : List ι} {w : σ} {m : τ}

/-- A call extends the order of calls. -/
theorem Serial.call {s : State σ τ α ο} {cs fs : List (Nat × ι × α)} (h : Serial b ts w m s cs fs)
    {i : Nat} {t : ι} (ht : ts[i]? = some t) (hp : s.phase i = .ready) :
    Serial b ts w m ⟨(b.call t s.world).2, s.mem, setPhase s.phase i (.called (b.call t s.world).1)⟩
      (cs ++ [(i, t, (b.call t s.world).1)]) fs where
  calls := by rw [List.map_append]; exact .snoc t h.calls
  mem := h.mem
  thread := by
    intro p hp
    rcases List.mem_append.1 hp with hp | hp
    · exact h.thread p hp
    · rw [List.mem_singleton] at hp; subst hp; exact ht
  sub := fun p hp => List.mem_append_left _ (h.sub hp)
  nodup := by rw [List.map_append]; exact nodup_snoc h.nodup (h.ready i hp)
  nodup_fs := h.nodup_fs
  ready := by
    intro j hj
    simp only [setPhase] at hj
    split at hj
    · cases hj
    · rename_i hne
      have := h.ready j hj
      simpa [hne] using this
  called := by
    intro j a hj
    simp only [setPhase] at hj
    split at hj
    · rename_i he
      cases hj; subst he
      refine ⟨⟨t, List.mem_append_right _ (List.mem_singleton.2 rfl)⟩, fun hf => h.ready j hp ?_⟩
      exact List.map_subset _ h.sub hf
    · obtain ⟨⟨t', ht'⟩, hf⟩ := h.called j a hj
      exact ⟨⟨t', List.mem_append_left _ ht'⟩, hf⟩
  done := by
    intro j o hj
    simp only [setPhase] at hj
    split at hj
    · cases hj
    · exact h.done j o hj

/-- A thread's end extends the order of segments. -/
theorem Serial.finish {s : State σ τ α ο} {cs fs : List (Nat × ι × α)} (h : Serial b ts w m s cs fs)
    {i : Nat} {t : ι} {a : α} (ht : ts[i]? = some t) (hp : s.phase i = .called a) :
    Serial b ts w m ⟨s.world, (b.finish t a s.mem).2, setPhase s.phase i (.done (b.finish t a s.mem).1)⟩
      cs (fs ++ [(i, t, a)]) := by
  obtain ⟨⟨t', hc⟩, hf⟩ := h.called i a hp
  obtain rfl : t' = t := by have := h.thread _ hc; rw [ht] at this; exact (Option.some.inj this).symm
  refine ⟨h.calls, ?_, h.thread, ?_, h.nodup, ?_, ?_, ?_, ?_⟩
  · rw [List.map_append, List.map_cons, List.map_nil, finishAll_snoc, ← h.mem]
  · intro p hp
    rcases List.mem_append.1 hp with hp | hp
    · exact h.sub hp
    · rw [List.mem_singleton] at hp; subst hp; exact hc
  · rw [List.map_append]; exact nodup_snoc h.nodup_fs hf
  · intro j hj
    simp only [setPhase] at hj
    split at hj
    · cases hj
    · exact h.ready j hj
  · intro j b hj
    simp only [setPhase] at hj
    split at hj
    · cases hj
    · rename_i hne
      obtain ⟨ht', hf'⟩ := h.called j b hj
      exact ⟨ht', by simpa [hne] using hf'⟩
  · intro j o hj
    simp only [setPhase] at hj
    split at hj
    · rename_i he
      cases hj; subst he
      exact ⟨t', a, List.mem_append_right _ (List.mem_singleton.2 rfl), s.mem, rfl⟩
    · obtain ⟨t', b, hf', hd⟩ := h.done j o hj
      exact ⟨t', b, List.mem_append_left _ hf', hd⟩

/-- The state `s` is reached by some serial run. -/
def Reached (b : Body ι σ τ α ο) (ts : List ι) (w : σ) (m : τ) (s : State σ τ α ο) : Prop :=
  ∃ cs fs, Serial b ts w m s cs fs

theorem Reached.step {s : State σ τ α ο} (h : Reached b ts w m s) (i : Nat) : Reached b ts w m (step b ts i s) := by
  obtain ⟨cs, fs, h⟩ := h
  unfold Pool.step
  split
  · rename_i t ht hp; exact ⟨_, _, h.call ht hp⟩
  · rename_i t a ht hp; exact ⟨_, _, h.finish ht hp⟩
  · exact ⟨cs, fs, h⟩

theorem Reached.run {s : State σ τ α ο} (h : Reached b ts w m s) (sched : List Nat) :
    Reached b ts w m (run b ts sched s) := by
  induction sched generalizing s with
  | nil => exact h
  | cons i l ih => exact ih (h.step i)

/-! ## Waiting for all threads -/

/-- A thread that has ended stays so. -/
theorem done_step {s : State σ τ α ο} {i : Nat} {o : ο} (h : s.phase i = .done o) (j : Nat) :
    (step b ts j s).phase i = .done o := by
  unfold Pool.step
  split
  · rename_i t ht hp
    rw [← h]
    exact if_neg fun e => by rw [← e, h] at hp; cases hp
  · rename_i t a ht hp
    rw [← h]
    exact if_neg fun e => by rw [← e, h] at hp; cases hp
  · exact h

theorem done_run {s : State σ τ α ο} {i : Nat} {o : ο} (h : s.phase i = .done o) (sched : List Nat) :
    (run b ts sched s).phase i = .done o := by
  induction sched generalizing s with
  | nil => exact h
  | cons j l ih => exact ih (done_step h j)

/-- Two steps end a thread. -/
theorem step_step_done {i : Nat} (hi : i < ts.length) (s : State σ τ α ο) :
    ∃ o, (step b ts i (step b ts i s)).phase i = .done o := by
  have ht : ts[i]? = some ts[i] := List.getElem?_eq_getElem hi
  rcases hp : s.phase i with _ | a | o
  · have h1 : (step b ts i s).phase i = .called (b.call ts[i] s.world).1 := by simp [step, ht, hp, setPhase]
    exact ⟨_, by rw [step, ht, h1]; exact if_pos rfl⟩
  · have h1 : (step b ts i s).phase i = .done (b.finish ts[i] a s.mem).1 := by simp [step, ht, hp, setPhase]
    exact ⟨_, done_step h1 i⟩
  · exact ⟨o, done_step (done_step hp i) i⟩

theorem run_done {i : Nat} (hi : i < ts.length) (sched : List Nat) (s : State σ τ α ο) :
    ∃ o, (run b ts (sched ++ [i, i]) s).phase i = .done o := by
  unfold run
  rw [List.foldl_append]
  exact step_step_done hi _

/-! ## Other names for the threads -/

/-- The bodies of threads that are spawned with the images under `f`. -/
def Body.comap {κ : Type} (b : Body ι σ τ α ο) (f : κ → ι) : Body κ σ τ α ο where
  call t := b.call (f t)
  finish t := b.finish (f t)

theorem step_map {κ : Type} (b : Body ι σ τ α ο) (f : κ → ι) (ts : List κ) (i : Nat) (s : State σ τ α ο) :
    step b (ts.map f) i s = step (b.comap f) ts i s := by
  unfold Pool.step
  rw [List.getElem?_map]
  cases ts[i]? with
  | none => rfl
  | some t => cases s.phase i <;> rfl

theorem join_map {κ : Type} (b : Body ι σ τ α ο) (f : κ → ι) (ts : List κ) (good : ο → Bool) (sched : Nat → List Nat)
    (n i : Nat) (last : Option ο) (s : State σ τ α ο) :
    join b (ts.map f) good sched n i last s = join (b.comap f) ts good sched n i last s := by
  have hrun : ∀ l s, run b (ts.map f) l s = run (b.comap f) ts l s := by
    intro l s
    unfold Pool.run
    simp only [step_map]
  induction n generalizing i last s with
  | zero => rfl
  | succ n ih =>
    rw [join, join, hrun]
    split
    · rw [ih]
    · rfl

section Join

variable {P : σ → Prop} (good : ο → Bool)

/-- Every thread has ended well, or one has not and is what the parent saw last. -/
def Joined (ts : List ι) (good : ο → Bool) (last : Option ο) (s : State σ τ α ο) : Prop :=
  ((∀ j < ts.length, ∃ o, s.phase j = .done o ∧ good o = true) ∧ (last = none → ts = []) ∧
      ∀ o, last = some o → good o = true ∧ ∃ j, s.phase j = .done o) ∨
    ∃ j o, last = some o ∧ good o = false ∧ s.phase j = .done o

/-- An end the parent saw last and that is not good is that of the first such thread. -/
def First (good : ο → Bool) (last : Option ο) (s : State σ τ α ο) : Prop :=
  ∀ o, last = some o → good o = false → ∃ i, s.phase i = .done o ∧ ∀ j < i, ∃ o', s.phase j = .done o' ∧ good o' = true

/-- The parent's loop, by induction on the threads left: those before `i` have ended well. -/
theorem join_cases (sched : Nat → List Nat) (n : Nat) :
    ∀ (i : Nat) (last : Option ο) (s : State σ τ α ο), i + n = ts.length → Reached b ts w m s →
      (∀ j < i, ∃ o, s.phase j = .done o ∧ good o = true) → (last = none → i = 0) →
      (∀ o, last = some o → good o = true ∧ ∃ j, s.phase j = .done o) →
      Reached b ts w m (join b ts good sched n i last s).2 ∧
        Joined ts good (join b ts good sched n i last s).1 (join b ts good sched n i last s).2 ∧
        First good (join b ts good sched n i last s).1 (join b ts good sched n i last s).2 := by
  induction n with
  | zero =>
    intro i last s hi hr hd hnone hlast
    refine ⟨hr, .inl ⟨fun j hj => hd j (by omega), fun h => ?_, hlast⟩, fun o ho hbad => ?_⟩
    · have := hnone h
      exact List.eq_nil_of_length_eq_zero (by omega)
    · exact absurd (hlast o ho).1 (by simp [hbad])
  | succ n ih =>
    intro i last s hi hr hd hnone hlast
    have hr' := hr.run (sched i ++ [i, i])
    obtain ⟨o, ho⟩ := run_done (b := b) (show i < ts.length by omega) (sched i) s
    by_cases hgood : good o = true
    · have heq : join b ts good sched (n + 1) i last s =
          join b ts good sched n (i + 1) (some o) (run b ts (sched i ++ [i, i]) s) := by
        rw [join, ho]
        exact if_pos hgood
      rw [heq]
      refine ih (i + 1) (some o) _ (by omega) hr' (fun j hj => ?_) (by simp) ?_
      · rcases Nat.lt_succ_iff_lt_or_eq.1 hj with hj | rfl
        · obtain ⟨o', ho', hg'⟩ := hd j hj
          exact ⟨o', done_run ho' _, hg'⟩
        · exact ⟨o, ho, hgood⟩
      · rintro o' h
        cases h
        exact ⟨hgood, i, ho⟩
    · have heq : join b ts good sched (n + 1) i last s = (some o, run b ts (sched i ++ [i, i]) s) := by
        rw [join, ho]
        exact if_neg hgood
      rw [heq]
      refine ⟨hr', .inr ⟨i, o, rfl, Bool.eq_false_iff.2 hgood, ho⟩, fun o' ho' _ => ?_⟩
      cases ho'
      refine ⟨i, ho, fun j hj => ?_⟩
      obtain ⟨o', ho', hg'⟩ := hd j hj
      exact ⟨o', done_run ho' _, hg'⟩

/-- Every end of a thread is the end it comes to from an answer given under an invariant `P` of the
calls. -/
theorem Serial.done_answer {s : State σ τ α ο} {cs fs : List (Nat × ι × α)} (h : Serial b ts w m s cs fs)
    (hw : P w) (hP : ∀ t ∈ ts, ∀ w, P w → P (b.call t w).2) :
    P s.world ∧ ∀ j o, s.phase j = .done o →
      ∃ t, ts[j]? = some t ∧ ∃ w m, P w ∧ o = (b.finish t (b.call t w).1 m).1 := by
  have hmem : ∀ p ∈ cs, p.2.1 ∈ ts := fun p hp => List.mem_of_getElem? (h.thread p hp)
  have hP' : ∀ p ∈ cs.map (·.2), ∀ w, P w → P (b.call p.1 w).2 := by
    intro p hp w hw
    obtain ⟨q, hq, rfl⟩ := List.mem_map.1 hp
    exact hP _ (hmem q hq) w hw
  obtain ⟨hworld, hanswer⟩ := h.calls.answer hw hP'
  refine ⟨hworld, fun j o ho => ?_⟩
  obtain ⟨t, a, hf, m', rfl⟩ := h.done j o ho
  obtain ⟨w', hw', ha⟩ := hanswer (t, a) (List.mem_map.2 ⟨_, h.sub hf, rfl⟩)
  dsimp only at ha
  subst ha
  exact ⟨t, h.thread _ (h.sub hf), w', m', hw', rfl⟩

theorem range_map_get (ts : List ι) : (List.range ts.length).map (ts[·]?) = ts.map some := by
  apply List.ext_getElem?
  intro j
  by_cases hj : j < ts.length
  · simp [hj]
  · simp [hj]

theorem Serial.threads {s : State σ τ α ο} {cs fs : List (Nat × ι × α)} (h : Serial b ts w m s cs fs) :
    (cs.map (·.1)).map (ts[·]?) = (cs.map (·.2.1)).map some := by
  rw [List.map_map, List.map_map]
  exact List.map_congr_left fun p hp => h.thread p hp

/-- Once all threads have ended, both orders are orders of all threads. -/
theorem Serial.perm {s : State σ τ α ο} {cs fs : List (Nat × ι × α)} (h : Serial b ts w m s cs fs)
    (hd : ∀ j < ts.length, ∃ o, s.phase j = .done o) : fs.Perm cs ∧ (cs.map (·.2.1)).Perm ts := by
  have hfs : ∀ j < ts.length, j ∈ fs.map (·.1) := by
    intro j hj
    obtain ⟨o, ho⟩ := hd j hj
    obtain ⟨t, a, hf, -⟩ := h.done j o ho
    exact List.mem_map.2 ⟨_, hf, rfl⟩
  have hlt : ∀ j ∈ cs.map (·.1), j < ts.length := by
    intro j hj
    obtain ⟨p, hp, rfl⟩ := List.mem_map.1 hj
    exact (List.getElem?_eq_some_iff.1 (h.thread p hp)).1
  have hcs : (cs.map (·.1)).Perm (List.range ts.length) :=
    (List.perm_ext_iff_of_nodup h.nodup List.nodup_range).2 fun j =>
      ⟨fun hj => List.mem_range.2 (hlt j hj), fun hj => List.map_subset _ h.sub (hfs j (List.mem_range.1 hj))⟩
  have hfsr : (fs.map (·.1)).Perm (List.range ts.length) :=
    (List.perm_ext_iff_of_nodup h.nodup_fs List.nodup_range).2 fun j =>
      ⟨fun hj => List.mem_range.2 (hlt j (List.map_subset _ h.sub hj)), fun hj => hfs j (List.mem_range.1 hj)⟩
  refine ⟨?_, ?_⟩
  · have hlen : cs.length ≤ fs.length := by
      have h1 := hcs.length_eq
      have h2 := hfsr.length_eq
      simp only [List.length_map] at h1 h2
      omega
    exact (List.subperm_of_subset (List.Nodup.of_map _ h.nodup_fs) h.sub).perm_of_length_le hlen
  · have := hcs.map (ts[·]?)
    rw [h.threads, range_map_get] at this
    exact (List.map_perm_map_iff (fun _ _ => Option.some.inj)).1 this

/-- If all threads have ended well, every segment is one of them. -/
theorem Serial.segment_good {s : State σ τ α ο} {cs fs : List (Nat × ι × α)} (h : Serial b ts w m s cs fs)
    (hall : ∀ j < ts.length, ∃ o, s.phase j = .done o ∧ good o = true) {p : Nat × ι × α} (hp : p ∈ fs) :
    ∃ m, good (b.finish p.2.1 p.2.2 m).1 = true := by
  obtain ⟨o, ho, hgood⟩ := hall p.1 (List.getElem?_eq_some_iff.1 (h.thread p (h.sub hp))).1
  obtain ⟨t, a, hf, m', rfl⟩ := h.done p.1 o ho
  have heq : p = (p.1, t, a) := List.inj_on_of_nodup_map h.nodup_fs hp hf rfl
  rw [heq]
  exact ⟨m', hgood⟩

/-- No thread has called twice. -/
theorem Serial.subperm {s : State σ τ α ο} {cs fs : List (Nat × ι × α)} (h : Serial b ts w m s cs fs) :
    (cs.map (·.2.1)).Subperm ts := by
  have hlt : cs.map (·.1) ⊆ List.range ts.length := by
    intro j hj
    obtain ⟨p, hp, rfl⟩ := List.mem_map.1 hj
    exact List.mem_range.2 (List.getElem?_eq_some_iff.1 (h.thread p hp)).1
  obtain ⟨l, hl, hsub⟩ := List.subperm_of_subset h.nodup hlt
  have hperm := (hl.map (ts[·]?)).filterMap id
  have hpart := (hsub.map (ts[·]?)).filterMap id
  rw [h.threads] at hperm
  rw [range_map_get] at hpart
  exact ⟨_, by simpa using hperm, by simpa using hpart⟩

/-- The first thread has made its call once it has ended. -/
theorem Serial.head_called {s : State σ τ α ο} {cs fs : List (Nat × ι × α)} (h : Serial b ts w m s cs fs)
    (hdone : 0 < ts.length → ∃ o, s.phase 0 = .done o) {t : ι} (ht : ts.head? = some t) : t ∈ cs.map (·.2.1) := by
  rw [List.head?_eq_getElem?] at ht
  obtain ⟨o, ho⟩ := hdone (List.getElem?_eq_some_iff.1 ht).1
  obtain ⟨t', a, hf, -⟩ := h.done 0 o ho
  have ht' : ts[0]? = some t' := h.thread _ (h.sub hf)
  rw [ht'] at ht
  cases ht
  exact List.mem_map.2 ⟨_, h.sub hf, rfl⟩

/-- Whatever the schedule: the calls `cs` have been made and the segments `fs` have been run, no thread's
twice, and the first thread's among them. The parent saw the end of one of them; either it is not a good
one, or all threads have ended well. -/
theorem join_run (b : Body ι σ τ α ο) (ts : List ι) (sched : Nat → List Nat) (w : σ) (m : τ) :
    ∃ last s, ∃ cs fs : List (ι × α), join b ts good sched ts.length 0 none (State.init w m) = (last, s) ∧
      Calls b w cs s.world ∧ s.mem = finishAll b fs m ∧ fs ⊆ cs ∧ (cs.map (·.1)).Subperm ts ∧
      (∀ t, ts.head? = some t → t ∈ cs.map (·.1)) ∧
      (∀ o, last = some o → ∃ p ∈ fs, ∃ m, o = (b.finish p.1 p.2 m).1) ∧
      ((∃ o, last = some o ∧ good o = false) ∨
        (∀ o, last = some o → good o = true) ∧ (last = none → ts = []) ∧ (cs.map (·.1)).Perm ts ∧ fs.Perm cs ∧
          ∀ p ∈ fs, ∃ m, good (b.finish p.1 p.2 m).1 = true) := by
  rcases hj : join b ts good sched ts.length 0 none (State.init w m) with ⟨last, s⟩
  have hcases := join_cases good sched ts.length 0 none (State.init w m) (by omega)
    ⟨[], [], Serial.init b ts w m⟩ (fun j hj => absurd hj (by omega)) (fun _ => rfl) (by simp)
  rw [hj] at hcases
  dsimp only at hcases
  obtain ⟨⟨cs, fs, hs⟩, hjoined, hfirst⟩ := hcases
  have hdone : ∀ j o, s.phase j = .done o → ∃ p ∈ fs.map (·.2), ∃ m, o = (b.finish p.1 p.2 m).1 := by
    intro j o ho
    obtain ⟨t, a, hf, m', rfl⟩ := hs.done j o ho
    exact ⟨(t, a), List.mem_map.2 ⟨_, hf, rfl⟩, m', rfl⟩
  have hmap : (cs.map (·.2)).map (·.1) = cs.map (·.2.1) := by rw [List.map_map]; rfl
  refine ⟨last, s, cs.map (·.2), fs.map (·.2), rfl, hs.calls, hs.mem, List.map_subset _ hs.sub, ?_, ?_, ?_, ?_⟩
  · rw [hmap]
    exact hs.subperm
  · -- the first thread has ended: it is waited for first
    rw [hmap]
    refine fun t ht => hs.head_called (fun hlt => ?_) ht
    rcases hjoined with ⟨hall, -⟩ | ⟨j, o, hlast, hbad, -⟩
    · exact (hall 0 hlt).imp fun _ h => h.1
    · obtain ⟨i, hi, hbefore⟩ := hfirst o hlast hbad
      rcases Nat.eq_zero_or_pos i with rfl | hpos
      · exact ⟨o, hi⟩
      · exact (hbefore 0 hpos).imp fun _ h => h.1
  · intro o ho
    rcases hjoined with ⟨-, -, hlast⟩ | ⟨j, o', hlast, -, hph⟩
    · obtain ⟨-, j, hph⟩ := hlast o ho
      exact hdone j o hph
    · rw [hlast] at ho
      cases ho
      exact hdone j _ hph
  · rcases hjoined with ⟨hall, hnone, hlast⟩ | ⟨j, o, hlast, hbad, -⟩
    · obtain ⟨hp, hperm⟩ := hs.perm fun j hj => (hall j hj).imp fun _ h => h.1
      refine .inr ⟨fun o ho => (hlast o ho).1, hnone, ?_, hp.map _, fun p hp => ?_⟩
      · rw [hmap]
        exact hperm
      · obtain ⟨q, hq, rfl⟩ := List.mem_map.1 hp
        exact hs.segment_good good hall hq
    · exact .inl ⟨o, hlast, hbad⟩

/-- If it is settled by `verdict` which threads end well, and some do not, the parent sees the end of
the first of these, whatever the schedule. -/
theorem join_first (sched : Nat → List Nat) (m : τ) (hw : P w) (hP : ∀ t ∈ ts, ∀ w, P w → P (b.call t w).2)
    {verdict : ι → Bool} (hverdict : ∀ t ∈ ts, ∀ w m, P w → good (b.finish t (b.call t w).1 m).1 = verdict t)
    (hbad : ∃ t ∈ ts, verdict t = false) :
    ∃ t w' m' s, ts.find? (fun t => !verdict t) = some t ∧ P w' ∧
      join b ts good sched ts.length 0 none (State.init w m) = (some (b.finish t (b.call t w').1 m').1, s) := by
  rcases hj : join b ts good sched ts.length 0 none (State.init w m) with ⟨last, s⟩
  have hcases := join_cases good sched ts.length 0 none (State.init w m) (by omega)
    ⟨[], [], Serial.init b ts w m⟩ (fun j hj => absurd hj (by omega)) (fun _ => rfl) (by simp)
  rw [hj] at hcases
  dsimp only at hcases
  obtain ⟨⟨cs, fs, hs⟩, hjoined, hfirst⟩ := hcases
  obtain ⟨-, hdone⟩ := hs.done_answer hw hP
  have hend : ∀ j o, s.phase j = .done o → ∃ t, ts[j]? = some t ∧ good o = verdict t := by
    intro j o ho
    obtain ⟨t, ht, w', m', hw', rfl⟩ := hdone j o ho
    exact ⟨t, ht, hverdict t (List.mem_of_getElem? ht) w' m' hw'⟩
  rcases hjoined with ⟨hall, -⟩ | ⟨-, o, rfl, hgood, -⟩
  · -- not all of them end well
    obtain ⟨t, ht, hv⟩ := hbad
    obtain ⟨j, hlt, rfl⟩ := List.getElem_of_mem ht
    obtain ⟨o, ho, hgood⟩ := hall j hlt
    obtain ⟨t, htj, hvt⟩ := hend j o ho
    rw [List.getElem?_eq_getElem hlt] at htj
    cases htj
    rw [hgood, hv] at hvt
    cases hvt
  · obtain ⟨i, hi, hbefore⟩ := hfirst o rfl hgood
    obtain ⟨t, ht, w', m', hw', rfl⟩ := hdone i _ hi
    obtain ⟨hlt, rfl⟩ := List.getElem?_eq_some_iff.1 ht
    refine ⟨_, w', m', s, List.find?_eq_some_iff_getElem.2 ⟨?_, i, hlt, rfl, fun j hj => ?_⟩, hw', rfl⟩
    · rw [← hverdict _ (List.getElem_mem hlt) w' m' hw', hgood]
      rfl
    · obtain ⟨o', ho', hg'⟩ := hbefore j hj
      obtain ⟨t', ht', hv'⟩ := hend j o' ho'
      rw [List.getElem?_eq_getElem (hj.trans hlt)] at ht'
      cases ht'
      simp [← hv', hg']

end Join

end NgProxy.Pool
