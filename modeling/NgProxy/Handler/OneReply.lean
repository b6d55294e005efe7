/-
One reply per request: on a connection from a whitelisted address every request is answered by one
well-formed reply, in order, and `handle` returns `LHLH_OK`, as long as the requests and the replies they
get from the backends stay within what the command functions can take apart.
-/
import NgProxy.Handler.Handle
import NgProxy.Process.Replies

namespace NgProxy.Handler

open Lua Codec Cluster Process Prog Text

variable {W : Type}

/-! ## What the command functions can take apart -/

/-- The replies the function of a command can use. -/
def Suits (cmd : Bytes) (r : Reply) : Prop :=
  if cmd = bytes "MGET" then Texts r
  else if cmd = bytes "DEL" ∨ cmd = bytes "EXISTS" then CountTo (2 ^ 32) r
  else if cmd = bytes "MSET" then NotInt r
  else Relayable r = true

/-- A request as the client sends it: an array of strings Lua can hold. -/
structure Request where
  cmd : Bytes
  args : List Bytes
  strings : ∀ a ∈ cmd :: args, a.length ≤ maxStr
  table : args.length + 1 ≤ maxArr

namespace Request

def reply (q : Request) : Reply := .array ((q.cmd :: q.args).map .bulk)

/-- What is unpacked fits on the stack and the table of an MGET's reply can be made; a command for one key
is no name of the client object, nor `hmset` with one value. -/
def Ok (q : Request) : Prop :=
  if upper q.cmd = bytes "MGET" then q.args.length + 1 ≤ maxArgs ∧ ∀ g ∈ slotTable q.args, g.2.length + 1 ≤ maxStack
  else if upper q.cmd = bytes "DEL" ∨ upper q.cmd = bytes "EXISTS" then
    ∀ g ∈ slotTable q.args, g.2.length + 1 ≤ maxStack
  else if upper q.cmd = bytes "MSET" then ∀ g ∈ kvTable q.args, g.2.length + 1 ≤ maxStack
  else q.args.length + 2 ≤ maxStack ∧ method q.cmd ≠ .own ∧ ¬ (method q.cmd = .hmset ∧ q.args.length = 2)

/-- `process` of the request. -/
def process (q : Request) (host : Host W) : Prog LuaError (Worker W) (Option Value) :=
  Handler.process host q.cmd (.str q.cmd) (q.args.map .str)

theorem reply_wf (q : Request) : q.reply.wf = true := by
  have hw : ∀ r ∈ (q.cmd :: q.args).map Reply.bulk, r.wf = true := by
    intro r hr
    obtain ⟨a, ha, rfl⟩ := List.mem_map.1 hr
    exact decide_eq_true (q.strings a ha)
  have hlen : ((q.cmd :: q.args).map Reply.bulk).length ≤ maxArr := by
    rw [List.length_map]
    exact q.table
  rw [reply, Reply.wf, decide_eq_true hlen, wfList_of_mem hw]
  rfl

theorem reply_ret (q : Request) : q.reply.ret = ⟨.tab ((q.cmd :: q.args).map .str), some typeMultiBulkReply, .nil⟩ := by
  rw [reply, Reply.ret, vals_eq_map, List.map_map]
  rfl

end Request

/-! ## The command functions -/

section Commands

variable (host : Host W)

/-- No name but HMSET is the client's `hmset`. -/
theorem method_ne_hmset {cmd : Bytes} (h : upper cmd ≠ bytes "HMSET") : method cmd ≠ .hmset := by
  intro hm
  unfold method at hm
  split at hm
  · rename_i hc
    exact h (by rw [hc]; decide)
  · split at hm <;> cases hm

/-- The commands that are split are no names of the client object. -/
theorem forwarded_part {cmd : Bytes}
    (h : upper cmd ∈ [bytes "MGET", bytes "DEL", bytes "EXISTS", bytes "MSET"]) {keys : List Bytes}
    (hlen : keys.length + 1 ≤ maxStack) : Command.Forwarded ⟨cmd, keys⟩ where
  known := by
    intro hm
    have hown : upper cmd ∈ ownNames.map upper := List.mem_map_of_mem (mem_ownNames hm)
    have hnone : ∀ c ∈ [bytes "MGET", bytes "DEL", bytes "EXISTS", bytes "MSET"], c ∉ ownNames.map upper := by decide
    exact hnone _ h hown
  fields := by
    have hnone : ∀ c ∈ [bytes "MGET", bytes "DEL", bytes "EXISTS", bytes "MSET"], c ≠ bytes "HMSET" := by decide
    exact fun hf => method_ne_hmset (hnone _ h) hf.1
  short := hlen.trans (by decide)

theorem clusterSend_serves {Q : Reply → Prop} (ttl : Int) (slot : Option SlotKey) {cmd : Bytes} {args : List Bytes}
    (hf : Command.Forwarded ⟨cmd, args⟩) :
    Serves St.log (Acceptable Q) Usable Q (clusterSend host ttl) slot cmd args :=
  Guarded.mono (sendClusterCommand_yields host.toNet ttl slot hf) (fun _ hs => ⟨trivial, hs⟩) fun _ _ h => h

/-- A request that is forwarded has a reply, unless one of its own replies does not suit it. -/
theorem stringCmd_handles (ttl : Int) (sc : Sched) (q : Request) (hq : q.Ok) :
    Handles St.log (Acceptable (Suits (upper q.cmd))) Usable (stringCmd host ttl sc q.cmd q.args) := by
  have hpart (c : Bytes) (hc : upper c = upper q.cmd)
      (hsplit : upper q.cmd ∈ [bytes "MGET", bytes "DEL", bytes "EXISTS", bytes "MSET"]) {t : List Part}
      (hlen : ∀ g ∈ t, g.2.length + 1 ≤ maxStack) (g : Part) (hg : g ∈ t) :
      Serves St.log (Acceptable (Suits (upper q.cmd))) Usable (Suits (upper q.cmd)) (clusterSend host ttl)
        (some g.1) c g.2 :=
    clusterSend_serves host ttl _ (forwarded_part (by rwa [hc]) (hlen g hg))
  unfold Request.Ok at hq
  unfold stringCmd
  by_cases hmget : upper q.cmd = bytes "MGET"
  · rw [if_pos hmget] at hq ⊢
    have hs := hpart (lower q.cmd) (upper_lower q.cmd) (by rw [hmget]; decide) hq.2
    have hsuits : Suits (upper q.cmd) = Texts := funext fun r => by rw [Suits, if_pos hmget]
    rw [hsuits] at hs ⊢
    exact redisMgetKeys_handles sc (le_trans (Nat.le_succ _) hq.1) hq.2 hs
  rw [if_neg hmget] at hq ⊢
  by_cases hcount : upper q.cmd = bytes "DEL" ∨ upper q.cmd = bytes "EXISTS"
  · rw [if_pos hcount] at hq
    have hs := hpart q.cmd rfl (by rcases hcount with h | h <;> rw [h] <;> decide) hq
    have hsuits : Suits (upper q.cmd) = CountTo (2 ^ 32) := funext fun r => by rw [Suits, if_neg hmget, if_pos hcount]
    rw [hsuits] at hs ⊢
    have hh := redisMultiKeys_handles sc hq hs
    rcases hcount with h | h
    · rwa [if_pos h]
    · rwa [if_neg (by rw [h]; decide), if_pos h]
  have hnot := not_or.1 hcount
  rw [if_neg hcount] at hq
  rw [if_neg hnot.1, if_neg hnot.2]
  by_cases hmset : upper q.cmd = bytes "MSET"
  · rw [if_pos hmset] at hq ⊢
    have hs := hpart q.cmd rfl (by rw [hmset]; decide) hq
    have hsuits : Suits (upper q.cmd) = NotInt :=
      funext fun r => by rw [Suits, if_neg hmget, if_neg hcount, if_pos hmset]
    rw [hsuits] at hs ⊢
    exact redisKvs_handles sc hq hs
  · rw [if_neg hmset] at hq ⊢
    have hsuits : Suits (upper q.cmd) = fun r => Relayable r = true :=
      funext fun r => by rw [Suits, if_neg hmget, if_neg hcount, if_neg hmset]
    rw [hsuits]
    exact redisKey_handles hq.1 (clusterSend_serves host ttl none
      ⟨hq.2.1, hq.2.2, le_trans (Nat.le_succ _) (hq.1.trans (by decide))⟩)

end Commands

/-! ## `process` -/

section Process

variable {host : Host W}

/-- The socket's `send` writes one well-formed reply. -/
def Sends (rsp : Value) : Prop := ∃ r : Reply, r.wf = true ∧ flat rsp = .ok r.bytes

theorem replied_sends {rsp : Option (List Value)} (h : Replied rsp) :
    Sends ((rsp.map Value.tab).getD (.str serverErr)) := by
  obtain ⟨r, hw, hsend⟩ := h
  refine ⟨r, hw, ?_⟩
  cases rsp with
  | none => exact hsend
  | some l => exact (flat_tab l).trans hsend

theorem illegalCmd_sends : Sends (.str illegalCmd) := ⟨.error (bytes "ERR ILLEGAL CMD"), by decide, rfl⟩

/-- A counter that `tostring` writes in full. -/
def Short (n : Number) : Prop := ∃ z : Int, n = .int z ∧ z.natAbs < 10 ^ 14

/-- Every subcommand of PROXY has a reply; a counter must be short. -/
theorem proxyHandler_sends {cmd : Bytes} {s : Worker W}
    (hcount : ∀ c, proxyCounter cmd = some c → Short (host.metricGet c s.cluster.world).1) :
    ∃ rsp s', proxyHandler host cmd s = (.ok rsp, s') ∧ Sends (rsp.getD (.str serverErr)) := by
  unfold proxyHandler
  cases hc : proxyCounter cmd with
  | some c =>
    obtain ⟨z, hz, hshort⟩ := hcount c hc
    obtain ⟨l, hl, hrep⟩ := int_replied hshort
    refine ⟨some (.tab l), { s with cluster := { s.cluster with world := (host.metricGet c s.cluster.world).2 } }, ?_,
      replied_sends hrep⟩
    show encoded (.num (host.metricGet c s.cluster.world).1) typeIntegerReply _ = _
    rw [hz, encoded, lift_run, hl]
    rfl
  | none =>
    dsimp only
    split
    · exact ⟨_, _, rfl, .status (bytes "OK"), by decide, rfl⟩
    · split
      · exact ⟨_, _, rfl, .bulk (bytes "0.01"), by decide, rfl⟩
      · exact ⟨_, s, rfl, illegalCmd_sends⟩

/-- The worker when a schedule has been drawn. -/
def Worker.drawn (host : Host W) (s : Worker W) : Worker W :=
  { s with cluster := { s.cluster with world := (host.sched s.cluster.world).2 } }

theorem process_run {q : Request} (hp : upper q.cmd ≠ bytes "PROXY") (s : Worker W) :
    q.process host s =
      ((stringCmd host s.tryCount (host.sched s.cluster.world).1 q.cmd q.args (s.drawn host).cluster).1.map
          (Option.map .tab),
        { s.drawn host with
          cluster := (stringCmd host s.tryCount (host.sched s.cluster.world).1 q.cmd q.args
            (s.drawn host).cluster).2 }) := by
  unfold Request.process process
  rw [if_neg hp]
  simp only [clusterCmd_strings]
  show (inCluster (stringCmd host s.tryCount (host.sched s.cluster.world).1 q.cmd q.args) >>= fun rsp =>
    pure (rsp.map Value.tab)) (s.drawn host) = _
  rcases hrun : stringCmd host s.tryCount (host.sched s.cluster.world).1 q.cmd q.args (s.drawn host).cluster with
    ⟨e | rsp, c⟩
  · rw [inCluster, bind_error (zoom_error hrun)]
    rfl
  · rw [inCluster, bind_ok (zoom_ok hrun), pure_run]
    rfl

/-- What a request needs of the worker that has taken it: PROXY a subcommand, whose counter is short; any
other command usable tables, and replies that suit it. -/
def Suited (host : Host W) (q : Request) (s : Worker W) : Prop :=
  if upper q.cmd = bytes "PROXY" then
    ∃ sub, q.args.head? = some sub ∧
      ∀ c, proxyCounter (upper sub) = some c → Short (host.metricGet c s.cluster.world).1
  else q.Ok ∧ Usable s.cluster ∧
    ∀ e ∈ (q.process host s).2.cluster.log.drop s.cluster.log.length, Acceptable (Suits (upper q.cmd)) e

theorem process_sends {q : Request} {s : Worker W} (h : Suited host q s) :
    ∃ rsp s', q.process host s = (.ok rsp, s') ∧ Sends (rsp.getD (.str serverErr)) := by
  unfold Suited at h
  split at h
  · rename_i hp
    obtain ⟨sub, hsub, hcount⟩ := h
    obtain ⟨args, hargs⟩ := List.head?_eq_some_iff.1 hsub
    obtain ⟨rsp, s', hrun, hsends⟩ := proxyHandler_sends hcount
    refine ⟨rsp, s', ?_, hsends⟩
    unfold Request.process process
    rw [if_pos hp, hargs]
    exact hrun
  · rename_i hp
    obtain ⟨hq, husable, hfit⟩ := h
    obtain ⟨es, hlog, hret⟩ := stringCmd_handles host s.tryCount (host.sched s.cluster.world).1 q hq
      (s.drawn host).cluster
    rw [process_run hp] at hfit ⊢
    have hstart : (s.drawn host).cluster.log = s.cluster.log := rfl
    rw [hlog, hstart, List.drop_left] at hfit
    have hdrawn : Usable (s.drawn host).cluster := husable.of_tables rfl rfl
    obtain ⟨rsp, c, hrun, hrep, -⟩ := hret hdrawn hfit
    rw [hrun]
    exact ⟨rsp.map .tab, _, rfl, replied_sends hrep⟩

end Process

/-! ## `handle` -/

section Handle

variable {host : Host W}

/-- The response goes out as one reply, and the request is counted. -/
theorem parseRsp_sends (host : Host W) {rsp : Value} (h : Sends rsp) (s : Session W) :
    ∃ (r : Reply) (s' : Session W), r.wf = true ∧ parseRsp host rsp s = (.ok (), s') ∧ s'.sent = s.sent ++ [r.bytes] ∧
      s'.sock = s.sock := by
  obtain ⟨r, hw, hflat⟩ := h
  refine ⟨r, (countQuery host { s with sent := s.sent ++ [r.bytes] }).2, hw, ?_, rfl, rfl⟩
  rw [parseRsp, hflat]
  rfl

/-- The worker when the clock has been read. -/
def Worker.ticked (host : Host W) (s : Worker W) : Worker W :=
  { s with cluster := { s.cluster with world := (host.usec s.cluster.world).2 } }

/-- What a request needs: the refresh in front of it does not raise, its client is on the whitelist, and
if its command is, the rest is as the command needs it. -/
structure Fit (host : Host W) (q : Request) (s : Worker W) : Prop where
  refreshes : (refresh host s).1 = .ok ()
  client : (refresh host s).2.ipWhitelist host.remoteAddr = true
  suited : (refresh host s).2.cmdWhitelist (upper q.cmd) = true → Suited host q ((refresh host s).2.ticked host)

/-- The requests of a run, each where the ones before it have left the connection. -/
def AllFit (host : Host W) : List Request → Session W → Prop
  | [], _ => True
  | q :: qs, s => Fit host q s.worker ∧ AllFit host qs (handle host s).2

/-- A request whose client is on the whitelist is refused or processed, and answered. -/
theorem handleReq_sends {q : Request} {s : Session W} (hclient : s.worker.ipWhitelist host.remoteAddr = true)
    (hsuited : s.worker.cmdWhitelist (upper q.cmd) = true → Suited host q (s.worker.ticked host)) :
    ∃ (r : Reply) (s' : Session W), r.wf = true ∧
      handleReq host (.tab ((q.cmd :: q.args).map .str)) s = (.ok lhlhOk, s') ∧ s'.sent = s.sent ++ [r.bytes] ∧
      s'.sock = s.sock := by
  have hauth : auth host s.worker = lhlhOk := by
    unfold auth
    rw [hclient]
    rfl
  unfold handleReq
  rw [bind_ok (get_run s), if_neg (not_not.2 hauth)]
  -- the request is an array of strings, so its first element is the name
  show ∃ (r : Reply) (s' : Session W), r.wf = true ∧ (if checkCmd s.worker q.cmd ≠ lhlhOk then
      parseRsp host (.str illegalCmd) >>= fun _ => pure lhlhOk
    else handleCmd host q.cmd (.str q.cmd) (q.args.map .str)) s = (.ok lhlhOk, s') ∧ _
  by_cases hc : s.worker.cmdWhitelist (upper q.cmd) = true
  · rw [if_neg (by rw [checkCmd, if_pos hc]; decide)]
    obtain ⟨rsp, w, hrun, hsends⟩ := process_sends (hsuited hc)
    let s₁ : Session W := { s with worker := s.worker.ticked host, now := some (host.usec s.worker.cluster.world).1 }
    obtain ⟨r, s', hw, hparse, hsent, hsock⟩ := parseRsp_sends host hsends { s₁ with worker := w }
    refine ⟨r, s', hw, ?_, hsent, hsock⟩
    show (inWorker (q.process host) >>= fun rsp =>
      parseRsp host (rsp.getD (.str serverErr)) >>= fun _ => pure lhlhOk) s₁ = _
    have hin : inWorker (q.process host) s₁ = (.ok rsp, { s₁ with worker := w }) := zoom_ok hrun
    rw [bind_ok hin, bind_ok hparse, pure_run]
  · rw [if_pos (by rw [checkCmd, if_neg hc]; decide)]
    obtain ⟨r, s', hw, hparse, hsent, hsock⟩ := parseRsp_sends host illegalCmd_sends s
    exact ⟨r, s', hw, by rw [bind_ok hparse, pure_run], hsent, hsock⟩

/-- One request, one reply: what `handle` reads is the request, and what it sends is one reply. -/
theorem handle_sends {q : Request} {s : Session W} (h : Fit host q s.worker) {rest : Bytes}
    (hin : s.sock.input = q.reply.bytes ++ rest) :
    ∃ (r : Reply) (s' : Session W), r.wf = true ∧ handle host s = (.ok lhlhOk, s') ∧ s'.sent = s.sent ++ [r.bytes] ∧
      s'.sock.input = rest := by
  have hread : parseReq s =
      (.ok (some (.tab ((q.cmd :: q.args).map .str))), { s with sock := ⟨rest, s.sock.fault⟩ }) := by
    have hdec := decode_bytes q.reply q.reply_wf rest s.sock.fault
    rw [← hin, q.reply_ret] at hdec
    rw [parseReq, show s.sock = ⟨s.sock.input, s.sock.fault⟩ from rfl, hdec]
    rfl
  let s₁ : Session W := { s with sock := ⟨rest, s.sock.fault⟩, worker := (refresh host s.worker).2 }
  have hrefresh : inWorker (refresh host) { s with sock := ⟨rest, s.sock.fault⟩ } = (.ok (), s₁) :=
    zoom_ok (Prod.ext h.refreshes rfl)
  obtain ⟨r, s', hw, hrun, hsent, hsock⟩ := handleReq_sends (q := q) (s := s₁) h.client h.suited
  refine ⟨r, s', hw, ?_, hsent, by rw [hsock]⟩
  rw [handle, bind_ok hread]
  exact (bind_ok hrefresh).trans hrun

/-- On a connection from a whitelisted address, requests that fit are answered by one well-formed reply
each: after `k` calls of `handle`, all of which return `LHLH_OK`, the first `k` replies have been sent and
the other requests are still unread. -/
theorem one_reply_per_request (host : Host W) (qs : List Request) (rest : Bytes) (s : Session W)
    (hfit : AllFit host qs s) (hin : s.sock.input = qs.flatMap (·.reply.bytes) ++ rest) :
    ∃ rs : List Reply, rs.length = qs.length ∧ (∀ r ∈ rs, r.wf = true) ∧ ∀ k ≤ qs.length, ∃ s',
      serve host k s = (.ok lhlhOk, s') ∧ s'.sent = s.sent ++ (rs.take k).map Reply.bytes ∧
        s'.sock.input = (qs.drop k).flatMap (·.reply.bytes) ++ rest := by
  induction qs generalizing s with
  | nil =>
    refine ⟨[], rfl, by simp, fun k hk => ?_⟩
    obtain rfl := Nat.le_zero.1 hk
    exact ⟨s, rfl, by simp, hin⟩
  | cons q qs ih =>
    rw [List.flatMap_cons, List.append_assoc] at hin
    obtain ⟨r, s₁, hw, hrun, hsent, hsock⟩ := handle_sends hfit.1 hin
    have hnext : AllFit host qs s₁ := by
      have := hfit.2
      rwa [hrun] at this
    obtain ⟨rs, hlen, hws, hserve⟩ := ih s₁ hnext hsock
    refine ⟨r :: rs, by simp [hlen], List.forall_mem_cons.2 ⟨hw, hws⟩, fun k hk => ?_⟩
    cases k with
    | zero => exact ⟨s, rfl, by simp, by simpa using hin⟩
    | succ k =>
      obtain ⟨s', hrun', hsent', hsock'⟩ := hserve k (Nat.le_of_succ_le_succ hk)
      refine ⟨s', ?_, ?_, hsock'⟩
      · rw [serve, bind_ok hrun, if_pos rfl, hrun']
      · rw [hsent', hsent, List.take_succ_cons, List.map_cons, List.append_assoc]
        rfl

end Handle

/-! ## A small proxy -/

/-- `GET k` on the wire. -/
def getReq : Bytes := bytes "*2\r\n$3\r\nGET\r\n$1\r\nk\r\n"

/-- A node that knows one key. -/
def oneReply (req : Bytes) : Reply := if req = getReq then .bulk (bytes "v") else .error (bytes "ERR")

def oneHost : Host Unit where
  connect _ _ w := (true, w)
  random _ w := (0, w)
  exchange p _ req w :=
    match p with
    | .command => (⟨.reply (oneReply req).bytes closedErr, some (oneReply req)⟩, w)
    | _ => (⟨.reply (Reply.status (bytes "PONG")).bytes closedErr, none⟩, w)
  remoteAddr := bytes "10.0.0.1"
  localtime w := (bytes "2016-01-01 00:00:00", w)
  usec w := (.int 0, w)
  versionGet w := (some (bytes "1"), w)
  versionSet _ w := w
  metricGet _ w := (.int 0, w)
  metricIncr _ _ w := w
  sched w := (idleSched, w)
  loadConfig := pure ()
  clusterNodes := pure ()

def oneNode : Node := ⟨bytes "10.0.0.2", some (.int 7000)⟩

/-- A worker that knows one node. -/
def oneCluster : St Unit := ⟨(), fun _ => some oneNode, [oneNode], 0, []⟩

/-- A connection to a worker that allows GET and PROXY. -/
def oneStart (input : Bytes) : Session Unit where
  worker :=
    { cluster := oneCluster
      tryCount := 3
      ipWhitelist := fun ip => ip = bytes "10.0.0.1"
      cmdWhitelist := fun cmd => cmd ∈ [bytes "GET", bytes "PROXY"]
      confVersion := some (bytes "1")
      slotVersion := some (bytes "1") }
  sock := ⟨input, bytes "closed"⟩
  sent := []
  now := none

theorem oneStart_usable (input : Bytes) : Usable (oneStart input).worker.cluster where
  nodes := List.cons_ne_nil _ _
  ports node hnode := by
    rw [List.mem_singleton.1 hnode]
    exact Option.some_ne_none _
  entries _ node hnode := by
    cases hnode
    exact Option.some_ne_none _

/-- No command has been sent but such as got the value. -/
def gotValue : Event → Bool
  | .send _ .command _ ⟨.reply input _, _⟩ => input == (Reply.bulk (bytes "v")).bytes
  | .send _ _ _ _ => false
  | _ => true

theorem gotValue_acceptable {e : Event} (h : gotValue e = true) : Acceptable (Suits (bytes "GET")) e := by
  cases e with
  | send c p req a =>
    obtain ⟨_ | ⟨input, fault⟩, ex⟩ := a
    · cases p <;> cases h
    · cases p with
      | command =>
        refine ⟨.bulk (bytes "v"), fault, congrArg (Outcome.reply · fault) (eq_of_beq h), by decide, fun _ => ?_, ?_⟩
        · rw [Suits, if_neg (by decide), if_neg (by decide), if_neg (by decide)]
          rfl
        · rintro t ⟨⟩
      | _ => cases h
  | _ => trivial

def request (cmd : String) (args : List String) (h : ∀ a ∈ bytes cmd :: args.map bytes, a.length ≤ maxStr)
    (ht : (args.map bytes).length + 1 ≤ maxArr) : Request := ⟨bytes cmd, args.map bytes, h, ht⟩

def threeRequests : List Request :=
  [request "GET" ["k"] (by decide) (by decide), request "Flushall" [] (by decide) (by decide),
    request "proxy" ["version"] (by decide) (by decide)]

def proxyAlone : Request := request "PROXY" [] (by decide) (by decide)

theorem threeRequests_fit : AllFit oneHost threeRequests (oneStart (threeRequests.flatMap (·.reply.bytes))) := by
  refine ⟨⟨rfl, rfl, fun _ => ?_⟩, ⟨by decide +kernel, by decide +kernel, fun h => absurd h (by decide +kernel)⟩,
    ⟨by decide +kernel, by decide +kernel, fun _ => ?_⟩, trivial⟩
  · have hall : ((request "GET" ["k"] (by decide) (by decide)).process oneHost
        (((refresh oneHost (oneStart (threeRequests.flatMap (·.reply.bytes))).worker).2).ticked
          oneHost)).2.cluster.log.all gotValue = true := by decide +kernel
    refine ⟨by unfold Request.Ok; decide, (oneStart_usable []).of_tables rfl rfl, fun e he => ?_⟩
    exact gotValue_acceptable (List.all_eq_true.1 hall e (List.mem_of_mem_drop he))
  · refine ⟨bytes "version", rfl, fun c hc => ?_⟩
    cases hc

theorem one_reply_per_request_three :
    AllFit oneHost threeRequests (oneStart (threeRequests.flatMap (·.reply.bytes))) ∧
      ∃ rs : List Reply, rs.length = 3 ∧ (∀ r ∈ rs, r.wf = true) ∧ ∀ k ≤ 3, ∃ s',
        serve oneHost k (oneStart (threeRequests.flatMap (·.reply.bytes))) = (.ok lhlhOk, s') ∧
          s'.sent = [] ++ (rs.take k).map Reply.bytes ∧
          s'.sock.input = (threeRequests.drop k).flatMap (·.reply.bytes) ++ [] :=
  ⟨threeRequests_fit, one_reply_per_request oneHost threeRequests [] (oneStart _) threeRequests_fit
    (by rw [List.append_nil]; rfl)⟩

/-- PROXY without a subcommand raises: the connection ends and nothing is sent. -/
theorem proxy_alone_aborts :
    (oneStart proxyAlone.reply.bytes).worker.ipWhitelist oneHost.remoteAddr = true ∧
      (oneStart proxyAlone.reply.bytes).worker.cmdWhitelist (upper proxyAlone.cmd) = true ∧
      Usable (oneStart proxyAlone.reply.bytes).worker.cluster ∧
      ∃ s', handle oneHost (oneStart proxyAlone.reply.bytes) = (.error .argument, s') ∧ s'.sent = [] :=
  ⟨rfl, rfl, oneStart_usable _, _, rfl, rfl⟩

end NgProxy.Handler
