/-
The version of the configuration: `lhlh_conf_version` keeps a time stamp in the dictionary all
workers share, RELOAD writes a new one, and a request that finds another stamp than its worker's
loads the configuration first. The workers and the requests they handle are interleaved statement
by statement. If no two stamps are of the same second, every reload is seen; two reloads within a
second are one to a worker that loaded between them.
-/
import NgProxy.Handler.Handle
import NgProxy.Lib.Trace

namespace NgProxy.Config

open Text Trace

/-! ## `ngx.localtime` -/

/-- A clock reading, to the second, as `ngx_gmtime` gives it. -/
structure Tm where
  year : Nat
  mon : Nat
  mday : Nat
  hour : Nat
  min : Nat
  sec : Nat
  fits : year < 10000 ∧ mon < 100 ∧ mday < 100 ∧ hour < 100 ∧ min < 100 ∧ sec < 100
  deriving DecidableEq

/-- `%0wd` of a number of at most `w` digits. -/
def padded : Nat → Nat → Bytes
  | 0, _ => []
  | w + 1, n => padded w (n / 10) ++ [UInt8.ofNat (48 + n % 10)]

/-- `ngx_stream_lua_ngx_localtime`. -/
def localtime (tm : Tm) : Bytes :=
  padded 4 tm.year ++ bytes "-" ++ padded 2 tm.mon ++ bytes "-" ++ padded 2 tm.mday ++ bytes " " ++
    padded 2 tm.hour ++ bytes ":" ++ padded 2 tm.min ++ bytes ":" ++ padded 2 tm.sec

@[simp] theorem length_padded (w n : Nat) : (padded w n).length = w := by
  induction w generalizing n with
  | zero => rfl
  | succ w ih => simp [padded, ih]

theorem padded_inj {w n m : Nat} (hn : n < 10 ^ w) (hm : m < 10 ^ w) (h : padded w n = padded w m) : n = m := by
  induction w generalizing n m with
  | zero => omega
  | succ w ih =>
    obtain ⟨hhigh, hlow⟩ := List.append_inj' h rfl
    have hdiv := ih (Nat.div_lt_of_lt_mul (by rw [← Nat.pow_succ']; exact hn))
      (Nat.div_lt_of_lt_mul (by rw [← Nat.pow_succ']; exact hm)) hhigh
    have hmod := congrArg UInt8.toNat (List.singleton_inj.1 hlow)
    rw [toNat_digit (Nat.mod_lt _ (by decide)), toNat_digit (Nat.mod_lt _ (by decide))] at hmod
    omega

/-- Stamps are equal only within the same second. -/
theorem localtime_inj {a b : Tm} (h : localtime a = localtime b) : a = b := by
  unfold localtime at h
  obtain ⟨h, hsec⟩ := List.append_inj' h (by simp)
  obtain ⟨h, hmin⟩ := List.append_inj' (List.append_inj_left' h rfl) (by simp)
  obtain ⟨h, hhour⟩ := List.append_inj' (List.append_inj_left' h rfl) (by simp)
  obtain ⟨h, hmday⟩ := List.append_inj' (List.append_inj_left' h rfl) (by simp)
  obtain ⟨h, hmon⟩ := List.append_inj' (List.append_inj_left' h rfl) (by simp)
  have hyear := List.append_inj_left' h rfl
  obtain ⟨ay, an, ad, ah, ai, as, afits⟩ := a
  obtain ⟨y, n, d, h, i, s, fits⟩ := b
  dsimp only at *
  obtain rfl := padded_inj (by omega) (by omega) hyear
  obtain rfl := padded_inj (by omega) (by omega) hmon
  obtain rfl := padded_inj (by omega) (by omega) hmday
  obtain rfl := padded_inj (by omega) (by omega) hhour
  obtain rfl := padded_inj (by omega) (by omega) hmin
  obtain rfl := padded_inj (by omega) (by omega) hsec
  rfl

@[simp] theorem length_localtime (tm : Tm) : (localtime tm).length = 19 := by simp [localtime, bytes]

/-- The version a module starts with. -/
def firstVersion : Bytes := bytes "0.01"

theorem localtime_ne_first (tm : Tm) : localtime tm ≠ firstVersion := by
  intro h
  have := congrArg List.length h
  rw [length_localtime] at this
  exact absurd this (by decide)

/-! ## Workers and their requests -/

/-- What a thread of a worker runs: `lhlh_init`, or `handle` on RELOAD or another request. -/
inductive Job where
  | init
  | reload
  | command
  deriving DecidableEq

/-- Where it is. `v` is its `config_version`. -/
inductive Phase where
  | start
  | absent
  | got (v : Option Bytes)
  | loading (v : Option Bytes)
  | loaded (v : Option Bytes)
  | checked (v : Option Bytes)
  | fetching (v : Option Bytes)
  | fetched (v : Option Bytes)
  | ready
  | reloading
  | done
  deriving DecidableEq

/-- Its statements. `seed` is the `set_version` of `get_version`, `publish` that of RELOAD. -/
inductive Action where
  | read
  | seed (tm : Tm)
  | compare
  | load
  | note
  | compareSlots
  | fetch
  | noteSlots
  | refuse
  | process
  | publish (tm : Tm)
  | abort
  deriving DecidableEq

/-- What it reads and writes: the entry of the dictionary and the two versions of its worker. -/
structure View where
  version : Option Bytes
  conf : Option Bytes
  slot : Option Bytes

/-- One statement. It may also end here: the client has gone, or something raised. -/
def act (job : Job) : Phase → Action → View → Option (Phase × View)
  | .start, .read, x =>
    match x.version with
    | none => some (.absent, x)
    | some v => some (.got (some v), x)
  -- `get_version` returns what `set_version` returns, which is nothing
  | .absent, .seed tm, x => some (.got none, { x with version := some (localtime tm) })
  | .got v, .compare, x =>
    if job = .init ∨ x.conf ≠ v then some (.loading v, x) else some (.checked v, x)
  | .loading v, .load, x => some (.loaded v, x)
  | .loaded v, .note, x => some (if job = .init then .done else .checked v, { x with conf := v })
  | .checked v, .compareSlots, x => some (if x.slot ≠ v then .fetching v else .ready, x)
  | .fetching v, .fetch, x => some (.fetched v, x)
  | .fetched v, .noteSlots, x => some (.ready, { x with slot := v })
  | .ready, .refuse, x => some (.done, x)
  | .ready, .process, x => some (if job = .reload then .reloading else .done, x)
  | .reloading, .publish tm, x => some (.done, { x with version := some (localtime tm) })
  | _, .abort, x => some (.done, x)
  | _, _, _ => none

structure Thread (ω : Type) where
  worker : ω
  job : Job
  phase : Phase

/-- The dictionary, the workers' versions, and all threads so far. -/
structure State (ω : Type) where
  version : Option Bytes
  conf : ω → Option Bytes
  slot : ω → Option Bytes
  threads : Nat → Option (Thread ω)

/-- A thread starts, runs a statement, or the configuration file is edited. -/
inductive Event (ω : Type) where
  | start (q : Nat) (w : ω) (job : Job)
  | act (q : Nat) (w : ω) (a : Action)
  | edit
  deriving DecidableEq

section Machine

variable {ω : Type} [DecidableEq ω]

def State.view (s : State ω) (w : ω) : View := ⟨s.version, s.conf w, s.slot w⟩

def State.put (s : State ω) (q : Nat) (t : Thread ω) (x : View) : State ω where
  version := x.version
  conf := Function.update s.conf t.worker x.conf
  slot := Function.update s.slot t.worker x.slot
  threads := Function.update s.threads q (some t)

theorem put_conf (s : State ω) (q : Nat) (t : Thread ω) (x : View) (w : ω) :
    (s.put q t x).conf w = if w = t.worker then x.conf else s.conf w := Function.update_apply ..

theorem put_slot (s : State ω) (q : Nat) (t : Thread ω) (x : View) (w : ω) :
    (s.put q t x).slot w = if w = t.worker then x.slot else s.slot w := Function.update_apply ..

theorem put_threads (s : State ω) (q : Nat) (t : Thread ω) (x : View) (q' : Nat) :
    (s.put q t x).threads q' = if q' = q then some t else s.threads q' := Function.update_apply ..

theorem put_some {s : State ω} {q q' : Nat} {t t' : Thread ω} {x : View} (h : (s.put q t x).threads q' = some t') :
    q' = q ∧ t' = t ∨ q' ≠ q ∧ s.threads q' = some t' := by
  rw [put_threads] at h
  split at h
  · exact .inl ⟨‹_›, (Option.some.inj h).symm⟩
  · exact .inr ⟨‹_›, h⟩

/-- The versions know nothing of the file: an edit is seen by `load_config` alone. -/
def step (s : State ω) : Event ω → Option (State ω)
  | .start q w job =>
    if (s.threads q).isNone then some (s.put q ⟨w, job, .start⟩ (s.view w)) else none
  | .act q w a =>
    match s.threads q with
    | none => none
    | some t =>
      if t.worker = w then
        (act t.job t.phase a (s.view w)).map fun p => s.put q { t with phase := p.1 } p.2
      else none
  | .edit => some s

/-- nginx has been started: the dictionary is empty, and the modules are loaded. -/
def boot : State ω := ⟨none, fun _ => some firstVersion, fun _ => some (bytes "0.02"), fun _ => none⟩

/-! ## What a step does -/

/-- The `config_version` a thread holds. -/
def Phase.version : Phase → Option (Option Bytes)
  | .got v | .loading v | .loaded v | .checked v | .fetching v | .fetched v => some v
  | _ => none

/-- The second in which a statement writes the version. -/
def Action.stamp : Action → Option Tm
  | .seed tm | .publish tm => some tm
  | _ => none

def Event.stamp : Event ω → Option Tm
  | .act _ _ a => a.stamp
  | _ => none

/-- The seconds in which versions were written. -/
def stamps (tr : List (Event ω)) : List Tm := tr.filterMap Event.stamp

omit [DecidableEq ω] in
theorem mem_stamps {tr : List (Event ω)} {e : Event ω} {tm : Tm} (he : e ∈ tr) (h : e.stamp = some tm) :
    tm ∈ stamps tr :=
  List.mem_filterMap.2 ⟨e, he, h⟩

/-- The statements one by one. -/
inductive Acts (job : Job) : Phase → Action → View → Phase → View → Prop
  | absent {x : View} (h : x.version = none) : Acts job .start .read x .absent x
  | read {x : View} {v : Bytes} (h : x.version = some v) : Acts job .start .read x (.got (some v)) x
  | seed {x : View} (tm : Tm) : Acts job .absent (.seed tm) x (.got none) { x with version := some (localtime tm) }
  | stale {x : View} {v : Option Bytes} : Acts job (.got v) .compare x (.loading v) x
  | current {x : View} : Acts job (.got x.conf) .compare x (.checked x.conf) x
  | load {x : View} {v : Option Bytes} : Acts job (.loading v) .load x (.loaded v) x
  | noteInit {x : View} {v : Option Bytes} : Acts job (.loaded v) .note x .done { x with conf := v }
  | note {x : View} {v : Option Bytes} : Acts job (.loaded v) .note x (.checked v) { x with conf := v }
  | staleSlots {x : View} {v : Option Bytes} : Acts job (.checked v) .compareSlots x (.fetching v) x
  | currentSlots {x : View} {v : Option Bytes} : Acts job (.checked v) .compareSlots x .ready x
  | fetch {x : View} {v : Option Bytes} : Acts job (.fetching v) .fetch x (.fetched v) x
  | noteSlots {x : View} {v : Option Bytes} : Acts job (.fetched v) .noteSlots x .ready { x with slot := v }
  | refuse {x : View} : Acts job .ready .refuse x .done x
  | processReload {x : View} : Acts job .ready .process x .reloading x
  | process {x : View} : Acts job .ready .process x .done x
  | publish {x : View} (tm : Tm) :
      Acts job .reloading (.publish tm) x .done { x with version := some (localtime tm) }
  | abort {x : View} {p : Phase} : Acts job p .abort x .done x

theorem acts_of_act {job : Job} {p p' : Phase} {a : Action} {x x' : View} (h : act job p a x = some (p', x')) :
    Acts job p a x p' x' := by
  unfold act at h
  split at h
  case h_1 =>
    split at h <;> cases h
    · exact .absent ‹_›
    · exact .read ‹_›
  case h_2 => cases h; exact .seed _
  case h_3 =>
    split at h <;> cases h
    · exact .stale
    · rename_i hc
      obtain rfl := not_not.1 (not_or.1 hc).2
      exact .current
  case h_4 => cases h; exact .load
  case h_5 => split at h <;> cases h; exacts [.noteInit, .note]
  case h_6 => split at h <;> cases h; exacts [.staleSlots, .currentSlots]
  case h_7 => cases h; exact .fetch
  case h_8 => cases h; exact .noteSlots
  case h_9 => cases h; exact .refuse
  case h_10 => split at h <;> cases h; exacts [.processReload, .process]
  case h_11 => cases h; exact .publish _
  case h_12 => cases h; exact .abort
  case h_13 => cases h

theorem acts_process {job : Job} {p p' : Phase} {x x' : View} (h : Acts job p .process x p' x') : p = .ready := by
  cases h <;> rfl

theorem acts_publish {job : Job} {p p' : Phase} {tm : Tm} {x x' : View} (h : Acts job p (.publish tm) x p' x') :
    p' = .done ∧ x' = { x with version := some (localtime tm) } := by
  cases h
  exact ⟨rfl, rfl⟩

/-- A step starts a new thread, runs a statement of one, or changes nothing. -/
theorem step_cases {s s' : State ω} {e : Event ω} (h : step s e = some s') :
    (∃ q w job, e = .start q w job ∧ s.threads q = none ∧
      s' = s.put q ⟨w, job, .start⟩ (s.view w)) ∨
    (∃ q t a p x, e = .act q t.worker a ∧ s.threads q = some t ∧ Acts t.job t.phase a (s.view t.worker) p x ∧
      s' = s.put q { t with phase := p } x) ∨
    e = .edit ∧ s' = s := by
  cases e with
  | start q w job =>
    rw [step] at h
    split at h <;> cases h
    exact .inl ⟨q, w, job, rfl, Option.isNone_iff_eq_none.1 ‹_›, rfl⟩
  | act q w a =>
    rw [step] at h
    split at h
    · cases h
    · rename_i t ht
      split at h
      · rename_i hw
        subst hw
        obtain ⟨⟨p, x⟩, hact, rfl⟩ := Option.map_eq_some_iff.1 h
        exact .inr (.inl ⟨q, t, a, p, x, rfl, ht, acts_of_act hact, rfl⟩)
      · cases h
  | edit => cases h; exact .inr (.inr ⟨rfl, rfl⟩)

/-! ## Versions that are known -/

section Known

variable {K : Option Bytes → Prop}

/-- All versions in sight are of `K`. -/
structure Known (K : Option Bytes → Prop) (s : State ω) : Prop where
  entry : K s.version
  conf : ∀ w, K (s.conf w)
  threads : ∀ q t v, s.threads q = some t → t.phase.version = some v → K v

theorem acts_known {job : Job} {p p' : Phase} {a : Action} {x x' : View} (hnil : K none)
    (ha : ∀ tm, a.stamp = some tm → K (some (localtime tm))) (hx : K x.version ∧ K x.conf)
    (hp : ∀ v, p.version = some v → K v) (h : Acts job p a x p' x') :
    (K x'.version ∧ K x'.conf) ∧ ∀ v, p'.version = some v → K v := by
  cases h with
  | read hv => exact ⟨hx, fun v h => by cases h; rw [← hv]; exact hx.1⟩
  | seed tm => exact ⟨⟨ha tm rfl, hx.2⟩, fun v h => by cases h; exact hnil⟩
  | noteInit => exact ⟨⟨hx.1, hp _ rfl⟩, fun v h => by cases h⟩
  | note => exact ⟨⟨hx.1, hp _ rfl⟩, hp⟩
  | publish tm => exact ⟨⟨ha tm rfl, hx.2⟩, fun v h => by cases h⟩
  | current => exact ⟨hx, hp⟩
  | stale => exact ⟨hx, hp⟩
  | load => exact ⟨hx, hp⟩
  | staleSlots => exact ⟨hx, hp⟩
  | fetch => exact ⟨hx, hp⟩
  | _ => exact ⟨hx, fun v h => by cases h⟩

theorem Known.put {s : State ω} (hs : Known K s) {q : Nat} {t : Thread ω} {x : View} (hx : K x.version ∧ K x.conf)
    (ht : ∀ v, t.phase.version = some v → K v) : Known K (s.put q t x) := by
  refine ⟨hx.1, fun w => ?_, fun q' t' v h hv => ?_⟩
  · rw [put_conf]
    split
    · exact hx.2
    · exact hs.conf w
  · rcases put_some h with ⟨-, rfl⟩ | ⟨-, h⟩
    · exact ht v hv
    · exact hs.threads q' t' v h hv

theorem known_step (hnil : K none) {s s' : State ω} {e : Event ω}
    (he : ∀ tm, e.stamp = some tm → K (some (localtime tm)))
    (hs : Known K s) (h : step s e = some s') : Known K s' := by
  rcases step_cases h with ⟨q, w, job, rfl, -, rfl⟩ | ⟨q, t, a, p, x, rfl, ht, hact, rfl⟩ | ⟨-, rfl⟩
  · exact hs.put ⟨hs.entry, hs.conf w⟩ fun v hv => by cases hv
  · obtain ⟨hx, hp⟩ := acts_known hnil he ⟨hs.entry, hs.conf t.worker⟩ (fun v => hs.threads q t v ht) hact
    exact hs.put hx hp
  · exact hs

end Known

/-! ## What a request has seen -/

/-- The worker has executed `load_config`. -/
def Loaded (w : ω) (tr : List (Event ω)) : Prop := ∃ q, .act q w .load ∈ tr

/-- What a thread that started after the reload has done: `old` versions it has not read, and past the
refresh its worker has loaded, `l`. -/
def Phase.Sees (old : Option Bytes → Prop) (l : Prop) : Phase → Prop
  | .absent => False
  | .got v | .loading v => ¬ old v
  | .loaded _ | .checked _ | .fetching _ | .fetched _ | .ready | .reloading => l
  | .start | .done => True

/-- The events `tr` have passed since a reload, and `old` are the versions up to it. -/
structure Seen (old : Option Bytes → Prop) (tr : List (Event ω)) (s : State ω) : Prop where
  entry : ∃ v, s.version = some v ∧ ¬ old (some v)
  conf : ∀ w, ¬ old (s.conf w) → Loaded w tr
  loaded : ∀ q t v, s.threads q = some t → t.phase = .loaded v → ¬ old v → Loaded t.worker tr
  started : ∀ q w job, .start q w job ∈ tr → ∃ t, s.threads q = some t ∧ t.worker = w ∧
    t.phase.Sees old (Loaded w tr)

/-- A statement of a thread, when `l` says that the worker has loaded before it and `l'` after it. -/
theorem acts_sees {old : Option Bytes → Prop} {l l' : Prop} {job : Job} {p p' : Phase} {a : Action} {x x' : View}
    (hl : l → l') (hload : a = .load → l') (ha : ∀ tm, a.stamp = some tm → ¬ old (some (localtime tm)))
    (hv : ∃ v, x.version = some v ∧ ¬ old (some v)) (hc : ¬ old x.conf → l)
    (hp : ∀ v, p = .loaded v → ¬ old v → l) (h : Acts job p a x p' x') :
    (∃ v, x'.version = some v ∧ ¬ old (some v)) ∧ (¬ old x'.conf → l') ∧
      (∀ v, p' = .loaded v → ¬ old v → l') ∧ (p.Sees old l → p'.Sees old l') := by
  have hc' := fun hn => hl (hc hn)
  cases h with
  | absent hnone =>
    obtain ⟨v, hsome, -⟩ := hv
    rw [hnone] at hsome
    cases hsome
  | read hsome =>
    obtain ⟨v, hv', hn⟩ := hv
    rw [hsome] at hv'
    cases hv'
    exact ⟨⟨_, hsome, hn⟩, hc', fun _ h => (by cases h), fun _ => hn⟩
  | seed tm => exact ⟨⟨_, rfl, ha tm rfl⟩, hc', fun _ h => (by cases h), fun h => h.elim⟩
  | stale => exact ⟨hv, hc', fun _ h => (by cases h), id⟩
  -- the worker has the version that was read after the reload, so it has loaded since
  | current => exact ⟨hv, hc', fun _ h => (by cases h), hc'⟩
  | load => exact ⟨hv, hc', fun _ _ _ => hload rfl, fun _ => hload rfl⟩
  | noteInit => exact ⟨hv, fun hn => hl (hp _ rfl hn), fun _ h => (by cases h), fun _ => trivial⟩
  | note => exact ⟨hv, fun hn => hl (hp _ rfl hn), fun _ h => (by cases h), hl⟩
  | publish tm => exact ⟨⟨_, rfl, ha tm rfl⟩, hc', fun _ h => (by cases h), fun _ => trivial⟩
  | staleSlots => exact ⟨hv, hc', fun _ h => (by cases h), hl⟩
  | currentSlots => exact ⟨hv, hc', fun _ h => (by cases h), hl⟩
  | fetch => exact ⟨hv, hc', fun _ h => (by cases h), hl⟩
  | noteSlots => exact ⟨hv, hc', fun _ h => (by cases h), hl⟩
  | processReload => exact ⟨hv, hc', fun _ h => (by cases h), hl⟩
  | _ => exact ⟨hv, hc', fun _ h => (by cases h), fun _ => trivial⟩

omit [DecidableEq ω] in
theorem Loaded.mono {w : ω} {tr : List (Event ω)} (h : Loaded w tr) (e : Event ω) : Loaded w (tr ++ [e]) :=
  h.imp fun _ h => List.mem_append_left _ h

theorem Phase.Sees.mono {old : Option Bytes → Prop} {l l' : Prop} (hl : l → l') {p : Phase} (h : p.Sees old l) :
    p.Sees old l' := by
  cases p <;> first | exact h | exact hl h

/-- A thread is put in its new phase by the event `e`; all other threads stay as they are. -/
theorem Seen.put {old : Option Bytes → Prop} {tr : List (Event ω)} {s : State ω} {e : Event ω} (hs : Seen old tr s)
    {q : Nat} {t : Thread ω} {x : View} (hv : ∃ v, x.version = some v ∧ ¬ old (some v))
    (hc : ¬ old x.conf → Loaded t.worker (tr ++ [e]))
    (hl : ∀ v, t.phase = .loaded v → ¬ old v → Loaded t.worker (tr ++ [e]))
    (hself : ∀ w job, .start q w job ∈ tr ++ [e] → t.worker = w ∧ t.phase.Sees old (Loaded w (tr ++ [e])))
    (hother : ∀ q' w job, q' ≠ q → .start q' w job ∈ tr ++ [e] → .start q' w job ∈ tr) :
    Seen old (tr ++ [e]) (s.put q t x) := by
  refine ⟨hv, fun w hn => ?_, fun q' t' v ht hp hn => ?_, fun q' w job hin => ?_⟩
  · rw [put_conf] at hn
    split at hn
    · rename_i hw
      subst hw
      exact hc hn
    · exact (hs.conf w hn).mono e
  · rcases put_some ht with ⟨-, rfl⟩ | ⟨-, ht⟩
    · exact hl v hp hn
    · exact (hs.loaded q' t' v ht hp hn).mono e
  · rw [put_threads]
    by_cases hq : q' = q
    · subst hq
      exact ⟨t, if_pos rfl, hself w job hin⟩
    · obtain ⟨t', ht, hw, hsees⟩ := hs.started q' w job (hother q' w job hq hin)
      exact ⟨t', by rw [if_neg hq]; exact ht, hw, hsees.mono (Loaded.mono · e)⟩

theorem seen_step {old : Option Bytes → Prop} {tr : List (Event ω)} {s s' : State ω} {e : Event ω}
    (he : ∀ tm, e.stamp = some tm → ¬ old (some (localtime tm))) (hs : Seen old tr s) (h : step s e = some s') :
    Seen old (tr ++ [e]) s' := by
  rcases step_cases h with ⟨q, w, job, rfl, hq, rfl⟩ | ⟨q, t, a, p, x, rfl, ht, hact, rfl⟩ | ⟨rfl, rfl⟩
  · refine hs.put hs.entry (fun hn => (hs.conf w hn).mono _) (fun v h => by cases h) ?_ ?_
    · intro w' job' hin
      rcases List.mem_append.1 hin with hin | hin
      · obtain ⟨t, ht, -⟩ := hs.started q w' job' hin
        rw [hq] at ht
        cases ht
      · cases List.mem_singleton.1 hin
        exact ⟨rfl, trivial⟩
    · intro q' w' job' hne hin
      rcases List.mem_append.1 hin with hin | hin
      · exact hin
      · cases List.mem_singleton.1 hin
        exact absurd rfl hne
  · have hload : a = .load → Loaded t.worker (tr ++ [.act q t.worker a]) := by
      rintro rfl
      exact ⟨q, by simp⟩
    obtain ⟨hv, hc, hl, hsees⟩ := acts_sees (Loaded.mono · _) hload he hs.entry (hs.conf t.worker)
      (fun v => hs.loaded q t v ht) hact
    refine hs.put hv hc hl ?_ fun q' w job _ hin => by simpa using hin
    intro w job hin
    obtain ⟨t', ht', hw, hsees'⟩ := hs.started q w job (by simpa using hin)
    rw [ht] at ht'
    cases ht'
    subst hw
    exact ⟨rfl, hsees hsees'⟩
  · refine ⟨hs.entry, fun w hn => (hs.conf w hn).mono _, fun q t v ht hp hn => (hs.loaded q t v ht hp hn).mono _, ?_⟩
    intro q w job hin
    obtain ⟨t, ht, hw, hsees⟩ := hs.started q w job (by simpa using hin)
    exact ⟨t, ht, hw, hsees.mono (Loaded.mono · _)⟩

/-! ## Every reload is seen -/

/-- The versions before any stamp, and those of the stamps. -/
def Old (tms : List Tm) (v : Option Bytes) : Prop :=
  v = none ∨ v = some firstVersion ∨ ∃ tm ∈ tms, v = some (localtime tm)

theorem old_stamp {tms : List Tm} {tm : Tm} (h : Old tms (some (localtime tm))) : tm ∈ tms := by
  rcases h with h | h | ⟨tm', hin, h⟩
  · cases h
  · exact absurd (Option.some.inj h) (localtime_ne_first tm)
  · rwa [localtime_inj (Option.some.inj h)]

/-- Before a reload all versions are old. -/
theorem run_known {pre : List (Event ω)} {s : State ω} (h : run step boot pre = some s) :
    Known (Old (stamps pre)) s := by
  refine run_invariant (I := fun _ s => Known (Old (stamps pre)) s)
    (P := fun e => ∀ tm, e.stamp = some tm → Old (stamps pre) (some (localtime tm)))
    (fun _ _ _ _ he hs hstep => known_step (.inl rfl) he hs hstep) ?_ ?_ h
  · exact fun e he tm hst => .inr (.inr ⟨tm, mem_stamps he hst, rfl⟩)
  · exact ⟨.inl rfl, fun _ => .inr (.inl rfl), fun _ _ _ h => by cases h⟩

/-- Right after a reload. -/
theorem seen_reload {tms : List Tm} {s s' : State ω} {q : Nat} {w : ω} {tm : Tm} (hs : Known (Old tms) s)
    (hnew : tm ∉ tms) (h : step s (.act q w (.publish tm)) = some s') : Seen (Old tms) [] s' := by
  rcases step_cases h with ⟨_, _, _, h, -⟩ | ⟨q', t, a, p, x, he, ht, hact, rfl⟩ | ⟨h, -⟩
  · cases h
  · cases he
    obtain ⟨rfl, rfl⟩ := acts_publish hact
    refine ⟨⟨_, rfl, fun hold => hnew (old_stamp hold)⟩, fun w hn => ?_, fun q' t' v ht' hp hn => ?_, ?_⟩
    · rw [put_conf] at hn
      split at hn
      · exact absurd (hs.conf t.worker) hn
      · exact absurd (hs.conf w) hn
    · rcases put_some ht' with ⟨-, rfl⟩ | ⟨-, ht'⟩
      · cases hp
      · exact absurd (hs.threads q' t' v ht' (by rw [hp]; rfl)) hn
    · intro q' w job hin
      cases hin
  · cases h

/-- If the stamps since a reload are of other seconds than those before it: between the reload and the
processing of a request that started after it, the request's worker executes `load_config`. -/
theorem every_reload_seen (pre mid post : List (Event ω)) (q₀ q : Nat) (w₀ w : ω) (tm : Tm) (job : Job) (s : State ω)
    (hrun : run step boot
      (pre ++ .act q₀ w₀ (.publish tm) :: (mid ++ .start q w job :: post ++ [.act q w .process])) = some s)
    (hstamps : ∀ tm' ∈ stamps (.act q₀ w₀ (.publish tm) :: (mid ++ .start q w job :: post)), tm' ∉ stamps pre) :
    ∃ q', .act q' w .load ∈ mid ++ .start q w job :: post := by
  obtain ⟨s₁, hpre, hrest⟩ := run_append.1 hrun
  obtain ⟨s₂, hreload, hrest⟩ := run_cons.1 hrest
  obtain ⟨s₃, hmid, hlast⟩ := run_append.1 hrest
  have hseen : Seen (Old (stamps pre)) (mid ++ .start q w job :: post) s₃ := by
    refine run_invariant (I := Seen (Old (stamps pre)))
      (P := fun e => ∀ tm', e.stamp = some tm' → ¬ Old (stamps pre) (some (localtime tm')))
      (fun _ _ _ _ he hs hstep => seen_step he hs hstep) ?_ ?_ hmid
    · intro e he tm' hst hold
      exact hstamps tm' (mem_stamps (List.mem_cons_of_mem _ he) hst) (old_stamp hold)
    · exact seen_reload (run_known hpre) (hstamps tm (mem_stamps (List.mem_cons_self ..) rfl)) hreload
  obtain ⟨t, ht, hw, hsees⟩ := hseen.started q w job (by simp)
  obtain ⟨s₄, hproc, -⟩ := run_cons.1 hlast
  rcases step_cases hproc with ⟨_, _, _, h, -⟩ | ⟨q', t', a, p, x, he, ht', hact, -⟩ | ⟨h, -⟩
  · cases h
  · cases he
    rw [ht] at ht'
    cases ht'
    rw [acts_process hact] at hsees
    exact hsees
  · cases h

end Machine

/-! ## Two reloads -/

/-- A reading in the first minute past noon. -/
def noon (sec : Nat) : Tm := ⟨2016, 1, 1, 12, 0, sec % 60, by omega⟩

def acts (q : Nat) (as : List Action) : List (Event Unit) := as.map (.act q ())

/-- The refresh of a worker whose versions are stale, and of one whose versions are current. -/
def staleRefresh : List Action := [.read, .compare, .load, .note, .compareSlots, .fetch, .noteSlots]

def currentRefresh : List Action := [.read, .compare, .compareSlots]

/-- A worker starts, reloads in second 1, handles a request, and gets a second RELOAD after the
configuration was edited. -/
def history : List (Event Unit) :=
  .start 0 () .init :: acts 0 [.read, .seed (noon 0), .compare, .load, .note] ++
  .start 1 () .reload :: acts 1 (staleRefresh ++ [.process, .publish (noon 1)]) ++
  .start 2 () .command :: acts 2 (staleRefresh ++ [.process]) ++
  .edit :: .start 3 () .reload :: acts 3 (currentRefresh ++ [.process])

/-- The second reload comes a second later. -/
theorem every_reload_seen_later : ∃ q', .act q' () .load ∈ [] ++ .start 4 () .command :: acts 4 staleRefresh :=
  every_reload_seen history [] (acts 4 staleRefresh) 3 4 () () (noon 2) .command _ rfl (by decide)

/-- The second reload comes within the second of the first: the request after it loads nothing. -/
theorem reload_missed :
    (run step boot (history ++ .act 3 () (.publish (noon 1)) ::
      ([] ++ .start 4 () .command :: acts 4 currentRefresh ++ [.act 4 () .process]))).isSome = true ∧
      ∀ q', .act q' () .load ∉ [] ++ .start 4 () .command :: acts 4 currentRefresh := by
  refine ⟨rfl, fun q' h => ?_⟩
  simp [acts, currentRefresh] at h

/-! ## The handler's refresh -/

section Alone

open Handler Cluster Lua

variable {W : Type}

/-- The versions a worker sees. -/
def viewOf (entry : W → Option Bytes) (s : Handler.Worker W) : View :=
  ⟨entry s.cluster.world, s.confVersion, s.slotVersion⟩

/-- The dictionary and the clock are part of the host's world, and loading leaves the versions alone. -/
structure Keeps (host : Host W) (entry : W → Option Bytes) (clock : W → Tm) : Prop where
  get : ∀ w, (host.versionGet w).1 = entry w ∧ entry (host.versionGet w).2 = entry w
  set : ∀ v w, entry (host.versionSet v w) = some v
  time : ∀ w, (host.localtime w).1 = localtime (clock w)
  loads : ∀ s u s', host.loadConfig s = (.ok u, s') → viewOf entry s' = viewOf entry s
  nodes : ∀ s u s', host.clusterNodes s = (.ok u, s') → viewOf entry s' = viewOf entry s

/-- A thread on its own. -/
def alone (px : Phase × View) (a : Action) : Option (Phase × View) := act .command px.1 a px.2

variable {host : Host W} {entry : W → Option Bytes} {clock : W → Tm}

theorem setVersion_alone (h : Keeps host entry clock) (s : Handler.Worker W) :
    ∃ s', setVersion host s = (.ok (), s') ∧
      viewOf entry s' = { viewOf entry s with version := some (localtime (clock s.cluster.world)) } := by
  refine ⟨_, rfl, ?_⟩
  simp only [viewOf, h.set, h.time]

theorem getVersion_alone (h : Keeps host entry clock) (s : Handler.Worker W) :
    ∃ v s' as, getVersion host s = (.ok v, s') ∧
      run alone (.start, viewOf entry s) as = some (.got v, viewOf entry s') := by
  obtain ⟨hget, hkeep⟩ := h.get s.cluster.world
  have hread : world host.versionGet s = (.ok (entry s.cluster.world),
      { s with cluster := { s.cluster with world := (host.versionGet s.cluster.world).2 } }) := by
    rw [← hget]
    rfl
  rcases hentry : entry s.cluster.world with _ | v <;> rw [hentry] at hread hkeep
  · obtain ⟨s', hset, hview⟩ := setVersion_alone h
      { s with cluster := { s.cluster with world := (host.versionGet s.cluster.world).2 } }
    refine ⟨none, s', [.read, .seed (clock (host.versionGet s.cluster.world).2)], ?_, ?_⟩
    · rw [getVersion, Prog.bind_ok hread]
      dsimp only
      rw [Prog.bind_ok hset, Prog.pure_run]
    · rw [hview]
      simp [run, alone, act, viewOf, hentry]
  · refine ⟨some v, _, [.read], Prog.bind_ok hread, ?_⟩
    simp [run, alone, act, viewOf, hentry, hkeep]

theorem refreshConfig_alone (h : Keeps host entry clock) {v : Option Bytes} {s s' : Handler.Worker W}
    (hrun : refreshConfig host v s = (.ok (), s')) :
    ∃ as, run alone (.got v, viewOf entry s) as = some (.checked v, viewOf entry s') := by
  rcases Prog.get_when_ok hrun with ⟨hv, rfl⟩ | ⟨hv, u, t, hload, rfl⟩
  · have hv := of_decide_eq_false hv
    exact ⟨[.compare], by simp [run, alone, act, viewOf, not_not.1 hv]⟩
  · have hv := of_decide_eq_true hv
    have hview := h.loads s u t hload
    simp only [viewOf, View.mk.injEq] at hview
    exact ⟨[.compare, .load, .note], by simp [run, alone, act, viewOf, hv, hview]⟩

theorem refreshSlots_alone (h : Keeps host entry clock) {v : Option Bytes} {s s' : Handler.Worker W}
    (hrun : refreshSlots host v s = (.ok (), s')) :
    ∃ as, run alone (.checked v, viewOf entry s) as = some (.ready, viewOf entry s') := by
  rcases Prog.get_when_ok hrun with ⟨hv, rfl⟩ | ⟨hv, u, t, hload, rfl⟩
  · have hv := of_decide_eq_false hv
    exact ⟨[.compareSlots], by simp [run, alone, act, viewOf, not_not.1 hv]⟩
  · have hv := of_decide_eq_true hv
    have hview := h.nodes s u t hload
    simp only [viewOf, View.mk.injEq] at hview
    exact ⟨[.compareSlots, .fetch, .noteSlots], by simp [run, alone, act, viewOf, hv, hview]⟩

/-- A thread's run on its own is a run of the machine. -/
theorem run_of_alone {ω : Type} [DecidableEq ω] {q : Nat} {as : List Action} {p : Phase} {x : View} {s : State ω}
    {t : Thread ω} (hjob : t.job = .command) (ht : s.threads q = some t)
    (h : run alone (t.phase, s.view t.worker) as = some (p, x)) :
    ∃ s', run step s (as.map (.act q t.worker)) = some s' ∧ s'.threads q = some { t with phase := p } ∧
      s'.view t.worker = x := by
  induction as generalizing s t with
  | nil =>
    cases h
    exact ⟨s, rfl, ht, rfl⟩
  | cons a as ih =>
    obtain ⟨⟨p', x'⟩, hact, hrest⟩ := run_cons.1 h
    have hstep : step s (.act q t.worker a) = some (s.put q { t with phase := p' } x') := by
      rw [alone, ← hjob] at hact
      simp only [step, ht, if_true, hact, Option.map_some]
    have hview : (s.put q { t with phase := p' } x').view t.worker = x' := by
      simp [State.view, State.put]
    rw [← hview] at hrest
    obtain ⟨s', hrun, ht', hx⟩ := ih (t := { t with phase := p' }) hjob (by rw [put_threads, if_pos rfl]) hrest
    exact ⟨s', run_cons.2 ⟨_, hstep, hrun⟩, ht', hx⟩

/-- What `handle` does before it looks at the request is a run of the machine, if nothing comes between. -/
theorem refresh_run {ω : Type} [DecidableEq ω] (h : Keeps host entry clock) {s s' : Handler.Worker W}
    (hrun : refresh host s = (.ok (), s')) {m : State ω} {q : Nat} {w : ω}
    (ht : m.threads q = some ⟨w, .command, .start⟩) (hm : m.view w = viewOf entry s) :
    ∃ (as : List Action) (m' : State ω), run step m (as.map (.act q w)) = some m' ∧
      m'.threads q = some ⟨w, .command, .ready⟩ ∧ m'.view w = viewOf entry s' := by
  obtain ⟨v, s₁, as, hget, hread⟩ := getVersion_alone h s
  rw [refresh, Prog.bind_ok hget] at hrun
  rcases hconf : refreshConfig host v s₁ with ⟨_ | u, s₂⟩
  · rw [Prog.bind_error hconf] at hrun
    cases hrun
  · rw [Prog.bind_ok hconf] at hrun
    obtain ⟨bs, hbs⟩ := refreshConfig_alone h hconf
    obtain ⟨cs, hcs⟩ := refreshSlots_alone h hrun
    rw [← hm] at hread
    exact ⟨_, run_of_alone rfl ht (run_append.2 ⟨_, hread, run_append.2 ⟨_, hbs, hcs⟩⟩)⟩

end Alone

end NgProxy.Config
