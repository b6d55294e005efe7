/-
The latency counter. `handle` puts the start of a request into `ngx.ctx.now`, but only in front of
`process`; the context lives as long as the connection, so a request that is refused is measured from the
start of an earlier one, or from 0.
-/
import NgProxy.Cluster.Frame
import NgProxy.Handler.Handle

namespace NgProxy.Handler

open Lua Codec Cluster Process Prog

variable {W : Type}

/-! ## The clock -/

/-- What is looked at in a world: its time in microseconds, and what this connection has added to the
latency counter so far. -/
structure View (W : Type) where
  time : W → Int
  added : W → List Number

/-- Time may have passed, and nothing was added. -/
def View.Later (v : View W) (w w' : W) : Prop := v.time w ≤ v.time w' ∧ v.added w' = v.added w

theorem View.Later.refl (v : View W) (w : W) : v.Later w w := ⟨le_refl _, rfl⟩

theorem View.Later.trans {v : View W} {a b c : W} (h : v.Later a b) (h' : v.Later b c) : v.Later a c :=
  ⟨le_trans h.1 h'.1, h'.2.trans h.2⟩

/-- The same of the worlds in two states. -/
def View.Over {σ : Type} (v : View W) (f : σ → W) (s s' : σ) : Prop := v.Later (f s) (f s')

instance {σ : Type} (v : View W) (f : σ → W) : IsPreorder σ (v.Over f) where
  refl s := View.Later.refl v (f s)
  trans _ _ _ h h' := View.Later.trans h h'

def Worker.world (s : Worker W) : W := s.cluster.world

def Session.world (s : Session W) : W := s.worker.world

/-- The start `latency` subtracts. -/
def Session.start (s : Session W) : Number := s.now.getD (.int 0)

/-- The connection when the clock has been read in front of `process`. -/
def Session.started (host : Host W) (s : Session W) : Session W :=
  { s with
    worker := { s.worker with cluster := { s.worker.cluster with world := (host.usec s.world).2 } }
    now := some (host.usec s.world).1 }

theorem handleCmd_run (host : Host W) (name : Bytes) (cmd : Value) (args : List Value) (s : Session W) :
    handleCmd host name cmd args s =
      (do
        let rsp ← inWorker (process host name cmd args)
        parseRsp host (rsp.getD (.str serverErr))
        pure lhlhOk : Prog LuaError (Session W) Int) (s.started host) := rfl

section Turned

variable (v : View W)

/-- Time passes in a connection, and its start stays. -/
def Calm (s s' : Session W) : Prop := v.Later s.world s'.world ∧ s'.now = s.now

/-- Up to the response: a request that is processed takes a start since it was read, any other one leaves
the start the connection had. -/
def Awaits (processed : Prop) (s u : Session W) : Prop :=
  v.Later s.world u.world ∧
    (processed ∧ (∃ t, u.now = some (.int t) ∧ v.time s.world ≤ t ∧ t ≤ v.time u.world) ∨
      ¬ processed ∧ u.now = s.now)

/-- At some time `t` the time since the start is added. -/
def Counted (u s' : Session W) : Prop :=
  s'.now = u.now ∧ ∃ t, v.time u.world ≤ t ∧ t ≤ v.time s'.world ∧
    v.added s'.world = v.added u.world ++ [(Number.int t).sub u.start]

/-- What a request does: it is counted once, or not at all. -/
def Turned (processed : Prop) (s s' : Session W) : Prop :=
  ∃ u, Awaits v processed s u ∧ (Calm v u s' ∨ Counted v u s')

end Turned

/-- The clock of a host is exact, as Lua's numbers are up to `2^53`, and never goes back; only `latency` adds
to its counter. -/
structure Clock (host : Host W) extends View W where
  range : ∀ w, 0 ≤ time w ∧ time w ≤ 2 ^ 53
  exact : ∀ w, (host.usec w).1 = .int (time w)
  usec : ∀ w, toView.Later w (host.usec w).2
  net : ∀ w w', Step host.toNet w w' → toView.Later w w'
  localtime : ∀ w, toView.Later w (host.localtime w).2
  versionGet : ∀ w, toView.Later w (host.versionGet w).2
  versionSet : ∀ b w, toView.Later w (host.versionSet b w)
  metricGet : ∀ c w, toView.Later w (host.metricGet c w).2
  sched : ∀ w, toView.Later w (host.sched w).2
  queryCount : ∀ n w, toView.Later w (host.metricIncr .queryCount n w)
  latency : ∀ n w, time w ≤ time (host.metricIncr .latency n w) ∧
    added (host.metricIncr .latency n w) = added w ++ [n]
  loads : Relates (toView.Over Worker.world) host.loadConfig
  nodes : Relates (toView.Over Worker.world) host.clusterNodes

section Latency

variable {host : Host W} (c : Clock host)

/-! ## The worker -/

theorem world_later {α : Type} {f : W → α × W} (h : ∀ w, c.Later w (f w).2) :
    Relates (c.Over Worker.world) (world f) := fun s => h s.cluster.world

theorem setVersion_later : Relates (c.Over Worker.world) (setVersion host) :=
  (world_later c c.localtime).bind fun _ => world_later c (c.versionSet _)

theorem refresh_later : Relates (c.Over Worker.world) (refresh host) := by
  have hnote (f : Worker W → Worker W) (hf : ∀ s, (f s).world = s.world) :
      Relates (c.Over Worker.world) (modify f : Prog LuaError (Worker W) Unit) := by
    intro s
    show c.Later s.world (f s).world
    rw [hf]
    exact View.Later.refl _ _
  have hversion : Relates (c.Over Worker.world) (getVersion host) := by
    refine (world_later c c.versionGet).bind fun v => ?_
    cases v with
    | none => exact (setVersion_later c).bind fun _ => Relates.pure _
    | some v => exact Relates.pure _
  refine hversion.bind fun v => Relates.bind ?_ fun _ => ?_
  · exact Relates.get.bind fun _ => Relates.when (c.loads.bind fun _ => hnote _ fun _ => rfl)
  · exact Relates.get.bind fun _ => Relates.when (c.nodes.bind fun _ => hnote _ fun _ => rfl)

/-- The cluster code reaches the world through the network only. -/
instance : Allows host.toNet (c.Over St.world) where
  move s w _ _ hstep _ := c.net s.world w hstep

theorem clusterValues_later (ttl : Int) (slot : Option SlotKey) (cmd : Value) (args : List Value) :
    Relates (c.Over St.world) (clusterValues host ttl slot cmd args) := by
  refine sendValues_allowed host.toNet (fun s _ _ _ => View.Later.refl _ s.world) (fun r req s => ?_) ttl slot cmd args
  unfold exchange
  split
  · exact View.Later.refl _ s.world
  · exact c.net s.world _ (.exchange .command r req)

theorem clusterCmd_later (ttl : Int) (sc : Sched) (name : Bytes) (cmd : Value) (args : List Value) :
    Relates (c.Over St.world) (clusterCmd host ttl sc name cmd args) := by
  have hsend := clusterValues_later c ttl
  unfold clusterCmd
  split
  · exact redisMgetValues_relates hsend sc name args
  · split
    · exact redisMultiValues_relates hsend sc cmd args
    · split
      · exact redisMultiValues_relates hsend sc cmd args
      · split
        · exact redisKvValues_relates hsend sc cmd args
        · exact redisKey_relates hsend cmd args

theorem proxyKey_later (args : List Value) : Relates (c.Over Worker.world) (proxyKey host args) := by
  refine (Relates.lift _).bind fun cmd => ?_
  unfold proxyHandler
  split
  · exact (world_later c (c.metricGet _)).bind fun _ => Relates.lift _
  · split
    · exact (setVersion_later c).bind fun _ => Relates.lift _
    · split
      · exact Relates.lift _
      · exact Relates.pure _

theorem process_later (name : Bytes) (cmd : Value) (args : List Value) :
    Relates (c.Over Worker.world) (process host name cmd args) := by
  unfold process
  split
  · exact proxyKey_later c args
  · refine (world_later c c.sched).bind fun sc => Relates.get.bind fun s => Relates.bind ?_ fun _ => Relates.pure _
    exact (clusterCmd_later c s.tryCount sc name cmd args).zoom fun _ _ h => h

/-! ## One request -/

instance : IsPreorder (Session W) (Calm c.toView) where
  refl _ := ⟨View.Later.refl _ _, rfl⟩
  trans _ _ _ h h' := ⟨h.1.trans h'.1, h'.2.trans h.2⟩

theorem inWorker_calm {α : Type} {x : Prog LuaError (Worker W) α} (hx : Relates (c.Over Worker.world) x) :
    Relates (Calm c.toView) (inWorker x) := hx.zoom fun _ _ h => ⟨h, rfl⟩

variable {c}

variable {processed : Prop}

theorem Awaits.calm {s u u' : Session W} (h : Awaits c.toView processed s u) (h' : Calm c.toView u u') :
    Awaits c.toView processed s u' := by
  refine ⟨h.1.trans h'.1, ?_⟩
  rcases h.2 with ⟨hp, t, hnow, hlo, hhi⟩ | ⟨hp, hkept⟩
  · exact .inl ⟨hp, t, h'.2.trans hnow, hlo, le_trans hhi h'.1.1⟩
  · exact .inr ⟨hp, h'.2.trans hkept⟩

theorem Calm.awaits {s u : Session W} (h : Calm c.toView s u) (hp : ¬ processed) : Awaits c.toView processed s u :=
  ⟨h.1, .inr ⟨hp, h.2⟩⟩

theorem Calm.turned {s u s' : Session W} (h : Calm c.toView s u) (h' : Turned c.toView processed u s') :
    Turned c.toView processed s s' := by
  obtain ⟨x, ⟨hlater, hnow⟩, hend⟩ := h'
  refine ⟨x, ⟨h.1.trans hlater, ?_⟩, hend⟩
  rcases hnow with ⟨hp, t, hset, hlo, hhi⟩ | ⟨hp, hkept⟩
  · exact .inl ⟨hp, t, hset, le_trans h.1.1 hlo, hhi⟩
  · exact .inr ⟨hp, hkept.trans h.2⟩

/-- A request that ends before it is counted. -/
theorem Calm.ends {s s' : Session W} (h : Calm c.toView s s') (hp : ¬ processed) : Turned c.toView processed s s' :=
  ⟨s', h.awaits hp, .inl (Std.Refl.refl s')⟩

variable (c)

/-- The response is sent and the request counted, unless the response cannot be flattened. -/
theorem parseRsp_counts (rsp : Value) (u : Session W) :
    Calm c.toView u (parseRsp host rsp u).2 ∨ Counted c.toView u (parseRsp host rsp u).2 := by
  unfold parseRsp
  rcases hflat : flat rsp with e | b
  · left
    rw [bind_error (lift_run _ _)]
    exact Std.Refl.refl u
  · right
    rw [bind_ok (lift_run _ _)]
    -- the world when the query has been counted, when the clock has been read, and at the end
    have hcount := c.queryCount (.int 1) u.world
    have hread := c.usec (host.metricIncr .queryCount (.int 1) u.world)
    have hexact := c.exact (host.metricIncr .queryCount (.int 1) u.world)
    have hadd := c.latency ((host.usec (host.metricIncr .queryCount (.int 1) u.world)).1.sub u.start)
      (host.usec (host.metricIncr .queryCount (.int 1) u.world)).2
    refine ⟨rfl, c.time (host.metricIncr .queryCount (.int 1) u.world), hcount.1, le_trans hread.1 hadd.1, ?_⟩
    refine hadd.2.trans ?_
    rw [hread.2, hcount.2, hexact]

theorem parseRsp_turned {α : Type} {processed : Prop} {s u : Session W} (h : Awaits c.toView processed s u)
    (rsp : Value) (a : α) :
    Turned c.toView processed s ((do parseRsp host rsp; pure a : Prog LuaError (Session W) α) u).2 := by
  have hrsp := parseRsp_counts c rsp u
  rcases hs : parseRsp host rsp u with ⟨_ | _, s'⟩
  all_goals rw [hs] at hrsp
  · rw [bind_error hs]
    exact ⟨u, h, hrsp⟩
  · rw [bind_ok hs]
    exact ⟨u, h, hrsp⟩

/-- The start is taken in front of `process`. -/
theorem started_awaits {processed : Prop} (hp : processed) (s : Session W) :
    Awaits c.toView processed s (s.started host) :=
  ⟨c.usec s.world, .inl ⟨hp, c.time s.world, congrArg some (c.exact s.world), le_refl _, (c.usec s.world).1⟩⟩

theorem handleCmd_turned {processed : Prop} (hp : processed) (name : Bytes) (cmd : Value) (args : List Value)
    (s : Session W) : Turned c.toView processed s (handleCmd host name cmd args s).2 := by
  have hstart := started_awaits c hp s
  have hproc := inWorker_calm c (process_later c name cmd args) (s.started host)
  rw [handleCmd_run]
  rcases hp : inWorker (process host name cmd args) (s.started host) with ⟨_ | rsp, u⟩
  all_goals rw [hp] at hproc
  · rw [bind_error hp]
    exact ⟨u, hstart.calm hproc, .inl (Std.Refl.refl u)⟩
  · rw [bind_ok hp]
    exact parseRsp_turned c (hstart.calm hproc) _ _

/-! ## Which requests are processed -/

/-- The client and the command are on their whitelists. -/
def Allowed (host : Host W) (req : Value) (s : Worker W) : Prop :=
  auth host s = lhlhOk ∧ ∃ r name, requestParts req = .ok r ∧ textOf r.1 = .ok name ∧ checkCmd s name = lhlhOk

/-- The request gets as far as `process`: the tables are up to date, the client and the command are on their
whitelists. -/
def Passes (host : Host W) (s : Session W) : Prop :=
  ∃ req s₁ s₂, parseReq s = (.ok (some req), s₁) ∧ inWorker (refresh host) s₁ = (.ok (), s₂) ∧
    Allowed host req s₂.worker

theorem handleReq_turned (req : Value) (s : Session W) :
    Turned c.toView (Allowed host req s.worker) s (handleReq host req s).2 := by
  have hcalm : Calm c.toView s s := Std.Refl.refl s
  unfold handleReq
  rw [bind_ok (get_run s)]
  by_cases hauth : auth host s.worker = lhlhOk
  · rw [if_neg (not_not.2 hauth)]
    -- where the request has no name, or one that is not on the whitelist, it is not processed
    rcases hreq : requestParts req with e | r
    · rw [bind_error (lift_run _ _)]
      refine hcalm.ends ?_
      rintro ⟨-, r, name, hr, -⟩
      rw [hreq] at hr
      cases hr
    · rw [bind_ok (lift_run _ _)]
      rcases htext : textOf r.1 with e | name
      · rw [bind_error (lift_run _ _)]
        refine hcalm.ends ?_
        rintro ⟨-, r', name, hr, hname, -⟩
        rw [hreq] at hr
        cases hr
        rw [htext] at hname
        cases hname
      · rw [bind_ok (lift_run _ _)]
        by_cases hcmd : checkCmd s.worker name = lhlhOk
        · rw [if_neg (not_not.2 hcmd)]
          exact handleCmd_turned c ⟨hauth, r, name, hreq, htext, hcmd⟩ name r.1 r.2 s
        · rw [if_pos hcmd]
          refine parseRsp_turned c (hcalm.awaits ?_) _ _
          rintro ⟨-, r', name', hr, hname, hcheck⟩
          rw [hreq] at hr
          cases hr
          rw [htext] at hname
          cases hname
          exact hcmd hcheck
  · rw [if_pos hauth]
    exact parseRsp_turned c (hcalm.awaits fun h => hauth h.1) _ _

theorem parseReq_calm {s s₁ : Session W} {r : Except LuaError (Option Value)} (h : parseReq s = (r, s₁)) :
    Calm c.toView s s₁ := by
  unfold parseReq at h
  split at h
  all_goals
    cases h
    exact ⟨View.Later.refl _ _, rfl⟩

/-- A request is counted at most once, from a start that was there or, if it is processed, was taken since it
was read. -/
theorem handle_turned (s : Session W) : Turned c.toView (Passes host s) s (handle host s).2 := by
  unfold handle
  rcases hreq : parseReq s with ⟨e | req, s₁⟩
  all_goals have hcalm := parseReq_calm c hreq
  · rw [bind_error hreq]
    refine hcalm.ends ?_
    rintro ⟨req, _, _, hreq', -⟩
    rw [hreq] at hreq'
    cases hreq'
  · rw [bind_ok hreq]
    cases req with
    | none =>
      refine hcalm.ends ?_
      rintro ⟨req, _, _, hreq', -⟩
      rw [hreq] at hreq'
      cases hreq'
    | some req =>
      have hrefresh := inWorker_calm c (refresh_later c) s₁
      rcases hr : inWorker (refresh host) s₁ with ⟨e | u, s₂⟩
      all_goals rw [hr] at hrefresh
      · dsimp only
        rw [bind_error hr]
        refine hcalm.turned (hrefresh.ends ?_)
        rintro ⟨req', _, _, hreq', hr', -⟩
        rw [hreq] at hreq'
        cases hreq'
        rw [hr] at hr'
        cases hr'
      · have hpasses : Passes host s ↔ Allowed host req s₂.worker := by
          constructor
          · rintro ⟨req', _, _, hreq', hr', hallowed⟩
            rw [hreq] at hreq'
            cases hreq'
            rw [hr] at hr'
            cases hr'
            exact hallowed
          · exact fun hallowed => ⟨req, s₁, s₂, hreq, hr, hallowed⟩
        dsimp only
        rw [bind_ok hr, hpasses]
        exact hcalm.turned (hrefresh.turned (handleReq_turned c req s₂))

/-! ## Runs of a connection -/

/-- A run: while a request is awaited the worker may do anything, then `handle` runs. The list holds the
connection when each request is read and when it has been handled. -/
inductive Served : Session W → List (Session W × Session W) → Session W → Prop
  | done (s : Session W) : Served s [] s
  | turn {s s' : Session W} {ts : List (Session W × Session W)} (worker : Worker W)
      (later : c.Later s.world worker.world) (rest : Served (handle host { s with worker := worker }).2 ts s') :
      Served s (({ s with worker := worker }, (handle host { s with worker := worker }).2) :: ts) s'

/-- The start in the context is 0 or a time that has been. -/
def Stored (s : Session W) : Prop := ∃ b, s.start = .int b ∧ 0 ≤ b ∧ b ≤ c.time s.world

theorem sub_int {a b : Int} (h : (a - b).natAbs ≤ 2 ^ 53) : (Number.int a).sub (.int b) = .int (a - b) := by
  have hadd := add_int a (-b) (by rwa [← Int.sub_eq_add_neg])
  rwa [← Int.sub_eq_add_neg] at hadd

/-- The start in the context is not before the request was read. -/
def Recent (s : Session W) : Prop := ∃ b, s.start = .int b ∧ c.time s.world ≤ b

variable {c} {processed : Prop}

/-- The start when the response is sent: the one of the connection, or the request's own. -/
theorem Awaits.start {s u : Session W} (h : Awaits c.toView processed s u) (hs : Stored c s) :
    ∃ b, u.start = .int b ∧ 0 ≤ b ∧ b ≤ c.time u.world ∧ (c.time s.world ≤ b ↔ processed ∨ Recent c s) := by
  obtain ⟨b, hb, h0, hle⟩ := hs
  rcases h.2 with ⟨hp, t, hset, hlo, hhi⟩ | ⟨hp, hkept⟩
  · exact ⟨t, by rw [Session.start, hset]; rfl, le_trans (c.range _).1 hlo, hhi, fun _ => .inl hp, fun _ => hlo⟩
  · refine ⟨b, by rw [Session.start, hkept]; exact hb, h0, le_trans hle h.1.1, fun hlo => .inr ⟨b, hb, hlo⟩, ?_⟩
    rintro (hp' | ⟨b', hb', hlo⟩)
    · exact absurd hp' hp
    · rw [hb, Number.int.injEq] at hb'
      rwa [hb']

/-- One request: nothing is added, or the time since the start, which is what it should be exactly when the
request is processed or the start in the context was recent. -/
theorem Turned.amount {s s' : Session W} (h : Turned c.toView processed s s') (hs : Stored c s) :
    Stored c s' ∧ c.time s.world ≤ c.time s'.world ∧
      (c.added s'.world = c.added s.world ∨
        ∃ t a, c.time s.world ≤ t ∧ t ≤ c.time s'.world ∧ c.added s'.world = c.added s.world ++ [.int a] ∧
          (0 ≤ a ∧ a ≤ t - c.time s.world ↔ processed ∨ Recent c s)) := by
  obtain ⟨u, hu, hend⟩ := h
  have hmono := hu.1.1
  obtain ⟨b, hb, h0, hle, hown⟩ := hu.start hs
  rcases hend with hcalm | ⟨hnow, t, hlo, hhi, hadded⟩
  · refine ⟨⟨b, ?_, h0, le_trans hle hcalm.1.1⟩, le_trans hmono hcalm.1.1, .inl (hcalm.1.2.trans hu.1.2)⟩
    rw [Session.start, hcalm.2]
    exact hb
  · have hstart : s'.start = .int b := by
      rw [Session.start, hnow]
      exact hb
    have hmax := (c.range s'.world).2
    have hsub : (Number.int t).sub (.int b) = .int (t - b) := sub_int (by omega)
    refine ⟨⟨b, hstart, h0, by omega⟩, by omega, .inr ⟨t, t - b, by omega, hhi, ?_, ?_⟩⟩
    · rw [hadded, hu.1.2, hb, hsub]
    · rw [← hown]
      constructor
      · intro h
        omega
      · intro h
        omega

theorem Stored.wait {s : Session W} (hs : Stored c s) {worker : Worker W} (later : c.Later s.world worker.world) :
    Stored c { s with worker := worker } := by
  obtain ⟨b, hb, h0, hle⟩ := hs
  exact ⟨b, hb, h0, le_trans hle later.1⟩

variable (c)

/-- Every request of a run on a connection that began with a start as it should be. -/
theorem served_turn {s s' : Session W} {ts : List (Session W × Session W)} (hrun : Served c s ts s')
    (hs : Stored c s) : ∀ T ∈ ts, Stored c T.1 ∧ Turned c.toView (Passes host T.1) T.1 T.2 := by
  induction hrun with
  | done s => simp
  | turn worker later rest ih =>
    rename_i s s' ts
    have hread := hs.wait later
    have hturn := handle_turned c { s with worker := worker }
    exact List.forall_mem_cons.2 ⟨⟨hread, hturn⟩, ih (hturn.amount hread).1⟩

/-- What a run adds is bounded by what its requests took, if each one that was counted was processed or found
a recent start. -/
theorem served_total {s s' : Session W} {ts : List (Session W × Session W)} (hrun : Served c s ts s')
    (hs : Stored c s)
    (howned : ∀ T ∈ ts, c.added T.2.world ≠ c.added T.1.world → Passes host T.1 ∨ Recent c T.1) :
    ∃ l : List Int, c.added s'.world = c.added s.world ++ l.map Number.int ∧
      l.sum ≤ (ts.map fun T => c.time T.2.world - c.time T.1.world).sum := by
  induction hrun with
  | done s => exact ⟨[], by simp, by simp⟩
  | turn worker later rest ih =>
    rename_i s s' ts
    have hread := hs.wait later
    obtain ⟨hstored, hmono, hamount⟩ := (handle_turned c { s with worker := worker }).amount hread
    rw [List.forall_mem_cons] at howned
    obtain ⟨l, hl, hsum⟩ := ih hstored howned.2
    have hsame : c.added (Session.world { s with worker := worker }) = c.added s.world := later.2
    rw [List.map_cons, List.sum_cons]
    rcases hamount with hnone | ⟨t, a, hlo, hhi, hadd, hiff⟩
    · exact ⟨l, by rw [hl, hnone, hsame], by dsimp only; omega⟩
    · have hne : c.added (handle host { s with worker := worker }).2.world ≠
          c.added (Session.world { s with worker := worker }) := by simp [hadd]
      have hbound := hiff.2 (howned.1 hne)
      refine ⟨a :: l, by rw [hl, hadd, hsame]; simp, ?_⟩
      rw [List.sum_cons]
      dsimp only
      omega

/-- The latency of a connection. A request that is counted adds a time between 0 and what has passed since
it was read exactly if it gets as far as `process`, or the start in the context when it is read is not older
than the request. If that is so for all that are counted, the counter grows by no more than the requests
took. -/
theorem latency_sound (host : Host W) (c : Clock host) (s s' : Session W) (ts : List (Session W × Session W))
    (hnow : s.now = none) (hrun : Served c s ts s') :
    (∀ T ∈ ts, c.added T.2.world = c.added T.1.world ∨
      ∃ t a, c.time T.1.world ≤ t ∧ t ≤ c.time T.2.world ∧ c.added T.2.world = c.added T.1.world ++ [.int a] ∧
        (0 ≤ a ∧ a ≤ t - c.time T.1.world ↔ Passes host T.1 ∨ Recent c T.1)) ∧
      ((∀ T ∈ ts, c.added T.2.world ≠ c.added T.1.world → Passes host T.1 ∨ Recent c T.1) →
        ∃ l : List Int, c.added s'.world = c.added s.world ++ l.map Number.int ∧
          l.sum ≤ (ts.map fun T => c.time T.2.world - c.time T.1.world).sum) := by
  have hs : Stored c s := ⟨0, by rw [Session.start, hnow]; rfl, le_refl _, (c.range _).1⟩
  refine ⟨fun T hT => ?_, served_total c hrun hs⟩
  obtain ⟨hstored, hturn⟩ := served_turn c hrun hs T hT
  exact (hturn.amount hstored).2.2

end Latency

/-! ## A clock that ticks when it is read -/

/-- The number of readings since the start of time, and what was added to the latency counter. -/
abbrev Ticks := Nat × List Number

def tickHost : Host Ticks where
  connect _ _ w := (true, w)
  random _ w := (0, w)
  exchange _ _ _ w := (⟨.sendError closedErr, none⟩, w)
  remoteAddr := bytes "10.0.0.1"
  localtime w := (bytes "2016-01-01 00:00:00", w)
  usec w := (.int (min w.1 (2 ^ 53) : Nat), (w.1 + 1, w.2))
  versionGet w := (some (bytes "1"), w)
  versionSet _ w := w
  metricGet _ w := (.int 0, w)
  metricIncr c n w := if c = .latency then (w.1, w.2 ++ [n]) else w
  sched w := (idleSched, w)
  loadConfig := pure ()
  clusterNodes := pure ()

/-- The view of a tick: the readings so far are the time. -/
def tickView : View Ticks := ⟨fun w => (min w.1 (2 ^ 53) : Nat), Prod.snd⟩

def tickClock : Clock tickHost where
  toView := tickView
  range w := ⟨by simp [tickView], by simp only [tickView]; omega⟩
  exact _ := rfl
  usec w := ⟨by simp only [tickView, tickHost]; omega, rfl⟩
  net w w' h := by cases h <;> exact View.Later.refl _ _
  localtime _ := View.Later.refl _ _
  versionGet _ := View.Later.refl _ _
  versionSet _ _ := View.Later.refl _ _
  metricGet _ _ := View.Later.refl _ _
  sched _ := View.Later.refl _ _
  queryCount _ _ := View.Later.refl _ _
  latency _ _ := ⟨le_refl _, rfl⟩
  loads _ := View.Later.refl _ _
  nodes _ := View.Later.refl _ _

/-- A new connection at a time, from a client that may or may not be on the whitelist. -/
def tickStart (time : Nat) (allowed : Bool) : Session Ticks where
  worker :=
    { cluster := ⟨(time, []), fun _ => none, [], 0, []⟩
      tryCount := 3
      ipWhitelist := fun _ => allowed
      cmdWhitelist := fun _ => true
      confVersion := some (bytes "1")
      slotVersion := some (bytes "1") }
  sock := ⟨bytes "*2\r\n$5\r\nPROXY\r\n$7\r\nVERSION\r\n", bytes "closed"⟩
  sent := []
  now := none

theorem latency_sound_version :
    Passes tickHost (tickStart 1000 true) ∧
      ∃ l : List Int, (handle tickHost (tickStart 1000 true)).2.world.2 = [] ++ l.map Number.int ∧ l.sum ≤ 2 := by
  have hpasses : Passes tickHost (tickStart 1000 true) := ⟨_, _, _, rfl, rfl, rfl, _, _, rfl, rfl, rfl⟩
  refine ⟨hpasses, ?_⟩
  have h := latency_sound tickHost tickClock (tickStart 1000 true) _ _ rfl
    (.turn (tickStart 1000 true).worker (View.Later.refl _ _) (.done _))
  exact h.2 fun T hT _ => by rw [List.mem_singleton.1 hT]; exact .inl hpasses

/-- The first request of a client that is not on the whitelist adds the clock itself. -/
theorem refused_adds_clock :
    Served tickClock (tickStart 1000 false) [(tickStart 1000 false, (handle tickHost (tickStart 1000 false)).2)]
        (handle tickHost (tickStart 1000 false)).2 ∧
      tickClock.time (tickStart 1000 false).world = 1000 ∧
      tickClock.time (handle tickHost (tickStart 1000 false)).2.world = 1001 ∧
      tickClock.added (handle tickHost (tickStart 1000 false)).2.world = [.int 1000] :=
  ⟨.turn (tickStart 1000 false).worker (View.Later.refl _ _) (.done _), rfl, rfl, rfl⟩

end NgProxy.Handler
