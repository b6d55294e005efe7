/-
`lhlh_handler` and what it calls directly: the refresh of configuration and slot map, the two
whitelists, the dispatch of `lhlh_process` and `lhlh_proxy`, and `lhlh_parser`. The shared
dictionaries, the clocks and the files belong to the world a worker runs in; other workers may
change it between any two of its steps.
-/
import NgProxy.Cluster.Send
import NgProxy.Process.Values

namespace NgProxy.Handler

open Lua Codec Cluster Process

/-! ## The worker and its world -/

/-- The counters of `lhlh_metric`. -/
inductive Counter where
  | queryCount
  | latency
  | errorCount
  | movedCount
  | askCount
  deriving DecidableEq

/-- The tables of a worker: those of the cluster, the configuration and the versions they have. -/
structure Worker (W : Type) where
  cluster : St W
  tryCount : Int
  ipWhitelist : Bytes → Bool
  cmdWhitelist : Bytes → Bool
  confVersion : Option Bytes
  slotVersion : Option Bytes

/-- A client's connection: what it still sends, what it was sent, and `ngx.ctx.now`. -/
structure Session (W : Type) where
  worker : Worker W
  sock : Sock
  sent : List Bytes
  now : Option Number

variable {W : Type}

/-- What a worker runs on besides the network: clocks, the shared dictionaries, the order of `pairs`
and of the threads; `load_config` and `cluster_nodes`, which read files and backends. -/
structure Host (W : Type) extends Net W where
  remoteAddr : Bytes
  localtime : W → Bytes × W
  usec : W → Number × W
  versionGet : W → Option Bytes × W
  versionSet : Bytes → W → W
  metricGet : Counter → W → Number × W
  metricIncr : Counter → Number → W → W
  sched : W → Sched × W
  loadConfig : Prog LuaError (Worker W) Unit
  clusterNodes : Prog LuaError (Worker W) Unit

/-- A step of the world. -/
def world {α : Type} (f : W → α × W) : Prog LuaError (Worker W) α := fun s =>
  (.ok (f s.cluster.world).1, { s with cluster := { s.cluster with world := (f s.cluster.world).2 } })

/-- Code of the worker, within a connection. -/
def inWorker {α : Type} (x : Prog LuaError (Worker W) α) : Prog LuaError (Session W) α :=
  Prog.zoom Session.worker (fun w s => { s with worker := w }) x

/-- Code of the cluster modules, within the worker. -/
def inCluster {α : Type} (x : Run W α) : Prog LuaError (Worker W) α :=
  Prog.zoom Worker.cluster (fun c s => { s with cluster := c }) x

variable (host : Host W)

/-! ## `lhlh_conf_version` and the refresh -/

/-- `set_version`; it returns nothing. -/
def setVersion : Prog LuaError (Worker W) Unit := do
  let version ← world host.localtime
  world fun w => ((), host.versionSet version w)

/-- `get_version`: without an entry one is made, and nil returned. -/
def getVersion : Prog LuaError (Worker W) (Option Bytes) := do
  match ← world host.versionGet with
  | none =>
    setVersion host
    pure none
  | some v => pure (some v)

/-- The configuration is loaded if its version is another one. -/
def refreshConfig (v : Option Bytes) : Prog LuaError (Worker W) Unit := do
  let s ← Prog.get
  Prog.when (s.confVersion ≠ v) do
    host.loadConfig
    Prog.modify fun s => { s with confVersion := v }

/-- The slot map is fetched if its version is another one. -/
def refreshSlots (v : Option Bytes) : Prog LuaError (Worker W) Unit := do
  let s ← Prog.get
  Prog.when (s.slotVersion ≠ v) do
    host.clusterNodes
    Prog.modify fun s => { s with slotVersion := v }

def refresh : Prog LuaError (Worker W) Unit := do
  let v ← getVersion host
  refreshConfig host v
  refreshSlots host v

/-! ## Whitelists -/

/-- `auth`. -/
def auth (s : Worker W) : Int := if s.ipWhitelist host.remoteAddr then lhlhOk else lhlhError

/-- `check_cmd`. -/
def checkCmd (s : Worker W) (cmd : Bytes) : Int := if s.cmdWhitelist (upper cmd) then lhlhOk else lhlhError

/-! ## `lhlh_proxy` -/

/-- The counter a subcommand reports. -/
def proxyCounter (cmd : Bytes) : Option Counter :=
  if cmd = bytes "LATENCY" then some .latency
  else if cmd = bytes "COUNT" then some .queryCount
  else if cmd = bytes "ERROR" then some .errorCount
  else if cmd = bytes "MOVED" then some .movedCount
  else if cmd = bytes "ASK" then some .askCount
  else none

/-- The table `encode` returns, as a value. -/
def encoded (args : Value) (pre : Nat) : Prog LuaError (Worker W) (Option Value) :=
  Prog.lift ((encode args (some pre)).map (Option.map .tab))

/-- The handlers of `proxy_cmds`. -/
def proxyHandler (cmd : Bytes) : Prog LuaError (Worker W) (Option Value) :=
  match proxyCounter cmd with
  | some c => do
    let n ← world (host.metricGet c)
    encoded (.num n) typeIntegerReply
  | none =>
    if cmd = bytes "RELOAD" then do
      setVersion host
      encoded (.str (bytes "OK")) typeStatusReply
    else if cmd = bytes "VERSION" then encoded (.str (bytes "0.01")) typeBulkReply
    else pure (some (.str illegalCmd))

/-- The text of an argument of `upper`, which refuses all but strings and numbers. -/
def textOf (v : Value) : Except LuaError Bytes :=
  match v.toStr with
  | none => .error .argument
  | some s => .ok s

/-- `lhlh_proxy.process`: `upper` refuses a missing subcommand. -/
def proxyKey (args : List Value) : Prog LuaError (Worker W) (Option Value) := do
  let cmd ← Prog.lift (textOf (args.headD .nil))
  proxyHandler host (upper cmd)

/-! ## `lhlh_process` -/

/-- `send_cluster_command`, with the try count of the configuration. -/
def clusterValues (ttl : Int) : SendOf Value (St W) := sendValues host.toNet ttl

/-- The same for a command of strings. -/
def clusterSend (ttl : Int) : Send (St W) := fun slotid cmd args => sendClusterCommand host.toNet ttl slotid ⟨cmd, args⟩

/-- The functions of `redis_cmds` that talk to the cluster; `name` is the text of `cmd`. -/
def clusterCmd (ttl : Int) (sc : Sched) (name : Bytes) (cmd : Value) (args : List Value) :
    Run W (Option (List Value)) :=
  if upper name = bytes "MGET" then redisMgetValues (clusterValues host ttl) sc name args
  else if upper name = bytes "DEL" then redisMultiValues (clusterValues host ttl) sc cmd args
  else if upper name = bytes "EXISTS" then redisMultiValues (clusterValues host ttl) sc cmd args
  else if upper name = bytes "MSET" then redisKvValues (clusterValues host ttl) sc cmd args
  else redisKey (clusterValues host ttl) cmd args

/-- The same for a request of strings. -/
def stringCmd (ttl : Int) (sc : Sched) (cmd : Bytes) (args : List Bytes) : Run W (Option (List Value)) :=
  if upper cmd = bytes "MGET" then redisMgetKeys (clusterSend host ttl) sc cmd args
  else if upper cmd = bytes "DEL" then redisMultiKeys (clusterSend host ttl) sc cmd args
  else if upper cmd = bytes "EXISTS" then redisMultiKeys (clusterSend host ttl) sc cmd args
  else if upper cmd = bytes "MSET" then redisKvs (clusterSend host ttl) sc cmd args
  else redisKey (clusterSend host ttl) cmd args

theorem clusterValues_strings (ttl : Int) : SendOf.comap .str (clusterValues host ttl) = clusterSend host ttl := by
  funext slotid cmd args
  exact sendValues_strings host.toNet ttl slotid cmd args

theorem clusterCmd_strings (ttl : Int) (sc : Sched) (cmd : Bytes) (args : List Bytes) :
    clusterCmd host ttl sc cmd (.str cmd) (args.map .str) = stringCmd host ttl sc cmd args := by
  have hkey := redisKey_map Value.str (clusterValues host ttl) cmd args
  unfold clusterCmd stringCmd
  simp only [redisMgetValues_strings, redisMultiValues_strings, redisKvValues_strings, hkey, clusterValues_strings]

/-- `lhlh_process.process`. -/
def process (name : Bytes) (cmd : Value) (args : List Value) : Prog LuaError (Worker W) (Option Value) :=
  if upper name = bytes "PROXY" then proxyKey host args
  else do
    let sc ← world host.sched
    let s ← Prog.get
    let rsp ← inCluster (clusterCmd host s.tryCount sc name cmd args)
    pure (rsp.map .tab)

/-! ## `lhlh_parser` and `handle` -/

/-- `parse_req`: one request is read; an error or nothing at all is no request. -/
def parseReq : Prog LuaError (Session W) (Option Value) := fun s =>
  match decode s.sock with
  | .error e => (.error e, s)
  | .ok (ret, sock) =>
    (.ok (if ret.err.truthy ∨ ret.val.isNull then none else some ret.val), { s with sock := sock })

/-- The client socket's `send`. -/
def sendClient (b : Bytes) : Prog LuaError (Session W) Unit := Prog.modify fun s => { s with sent := s.sent ++ [b] }

/-- `query_count` and `latency`. -/
def countQuery : Prog LuaError (Session W) Unit := do
  inWorker (world fun w => ((), host.metricIncr .queryCount (.int 1) w))
  let s ← Prog.get
  let t ← inWorker (world host.usec)
  inWorker (world fun w => ((), host.metricIncr .latency (t.sub (s.now.getD (.int 0))) w))

/-- `parse_rsp`: the response is flattened and sent. -/
def parseRsp (rsp : Value) : Prog LuaError (Session W) Unit := do
  let b ← Prog.lift (flat rsp)
  sendClient b
  countQuery host

/-- `req_data[1]` and what stands behind it; a string has no elements. -/
def requestParts : Value → Except LuaError (Value × List Value)
  | .tab [] => .ok (.nil, [])
  | .tab (cmd :: args) => .ok (cmd, args)
  | .str _ => .ok (.nil, [])
  | _ => .error .index

/-- The last part of `handle`: the request is processed. -/
def handleCmd (name : Bytes) (cmd : Value) (args : List Value) : Prog LuaError (Session W) Int := do
  let t ← inWorker (world host.usec)
  Prog.modify fun s => { s with now := some t }
  let rsp ← inWorker (process host name cmd args)
  parseRsp host (rsp.getD (.str serverErr))
  pure lhlhOk

/-- `handle` once the tables are up to date. -/
def handleReq (req : Value) : Prog LuaError (Session W) Int := do
  let s ← Prog.get
  if auth host s.worker ≠ lhlhOk then do
    parseRsp host (.str noAuth)
    pure lhlhOk
  else do
    let r ← Prog.lift (requestParts req)
    let name ← Prog.lift (textOf r.1)
    if checkCmd s.worker name ≠ lhlhOk then do
      parseRsp host (.str illegalCmd)
      pure lhlhOk
    else handleCmd host name r.1 r.2

/-- `handle`. -/
def handle : Prog LuaError (Session W) Int := do
  match ← parseReq with
  | none => pure lhlhError
  | some req =>
    inWorker (refresh host)
    handleReq host req

/-- The loop of `lhlh_service`, for at most `n` requests. -/
def serve : Nat → Prog LuaError (Session W) Int
  | 0 => pure lhlhOk
  | n + 1 => do
    let rc ← handle host
    if rc = lhlhOk then serve n else pure rc

end NgProxy.Handler
