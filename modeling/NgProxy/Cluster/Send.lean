/-
`lhlh_redis_cluster`: choosing a connection for a slot, following MOVED, ASK and TRYAGAIN, and the
retry loop of `send_cluster_command`.
-/
import NgProxy.Cluster.Client

namespace NgProxy.Cluster

open Lua Codec

variable {W : Type}

/-! ## Connections -/

/-- `get_redis_link`. -/
def getRedisLink (net : Net W) (host : Bytes) (port : Option Number) : Run W (Option Conn) := do
  match ← connect net host port with
  | none =>
    record (.metric .error)
    pure none
  | some r => pure (some r)

/-- `math.random(n)`, counted from zero: any number below `n`, and 0 when `n` is 0. -/
def mathRandom (net : Net W) (n : Nat) : Run W Nat := fun s =>
  match net.random n s.world with
  | (i, w) => (.ok (i % n), { s with world := w })

/-- The loop of `get_random_connection`. -/
def randomLoop (net : Net W) : Nat → Run W (Option Conn)
  | 0 => pure none
  | n + 1 => do
    let s ← Prog.get
    let num ← mathRandom net s.nodes.length
    match s.nodes[num]? with
    | none => Prog.raise .index
    | some node =>
      match ← getRedisLink net node.host node.port with
      | none => randomLoop net n
      | some r =>
        let ret ← doCmd net .probe r [bytes "ping"]
        if ret.val.eqStr (bytes "PONG") then pure (some r)
        else
          close r
          randomLoop net n

/-- `get_random_connection`: five attempts. -/
def getRandomConnection (net : Net W) : Run W (Option Conn) := randomLoop net 5

/-- `get_connection_by_slot`. -/
def getConnectionBySlot (net : Net W) (slot : SlotKey) : Run W (Option Conn) := do
  let s ← Prog.get
  match s.slots slot with
  | none => getRandomConnection net
  | some node => getRedisLink net node.host node.port

/-- `get_connection_by_key`. -/
def getConnectionByKey (net : Net W) (key : Option Bytes) : Run W (Option Conn) :=
  getConnectionBySlot net (redisSlot key)

/-! ## Redirects -/

/-- `g_redis_cluster_slots[slot] = node`: nil and NaN are no table keys. -/
def assignSlot (slot : Option Number) (node : Node) : Run W Unit :=
  match slot with
  | none => Prog.raise .key
  | some .nan => Prog.raise .key
  | some n => Prog.modify fun s => { s with slots := fun j => if j = .num n then some node else s.slots j }

/-- `r:asking()` and its metric. -/
def asking (net : Net W) (r : Conn) : Run W Unit := do
  let _ ← doCmd net .asking r [bytes "asking"]
  record (.metric .ask)

/-- The assignment a MOVED makes, and its metric. -/
def moved (slot : Option Number) (node : Node) : Run W Unit := do
  assignSlot slot node
  record (.metric .moved)

/-- The end of `cluster_error`: connect to the node a redirect names. -/
def followNode (net : Net W) (node : Node) (ask : Bool) : Run W (Option Conn) := do
  match ← getRedisLink net node.host node.port with
  | none => getRandomConnection net
  | some r =>
    Prog.when ask (asking net r)
    pure (some r)

/-- `cluster_error` once the error names a slot and a node. -/
def redirect (net : Net W) (ask : Bool) (slot : Option Number) (addr : Option Bytes) : Run W (Option Conn) :=
  match stringSplit addr (bytes ":") 0 with
  | none => Prog.raise .index
  | some ipPort =>
    match ipPort[1]?.bind tonumber with
    | none => Prog.raise .compare
    | some port =>
      if port.nonPos then getRandomConnection net
      else do
        let node : Node := ⟨ipPort.headD [], some port⟩
        Prog.when (!ask) (moved slot node)
        followNode net node ask

/-- `cluster_error`. -/
def clusterError (net : Net W) (err : Value) : Run W (Option Conn) :=
  match stringSplit err.toStr (bytes " ") 0 with
  | none => Prog.raise .index
  | some words =>
    if words.head? = some (bytes "TRYAGAIN") then getRandomConnection net
    else if words.head? ≠ some (bytes "ASK") ∧ words.head? ≠ some (bytes "MOVED") then do
      record (.metric .error)
      pure none
    else redirect net (words.head? = some (bytes "ASK")) (words[1]?.bind tonumber) words[2]?

/-! ## The retry loop -/

/-- The loop of `send_cluster_command`, with `r[cmd](r, ...)` as `call`; `last` holds the prefix and the
error of the last attempt. -/
def sendLoop (net : Net W) (call : Conn → Run W Ret) : Nat → Option Nat × Value → Conn → Run W Ret
  | 0, last, _ => pure ⟨.nil, last.1, last.2⟩
  | n + 1, _, r => do
    let ret ← call r
    setKeepalive r
    if ret.err.isNil ∧ ¬ ret.val.isNil then pure ⟨ret.val, ret.pre, .nil⟩
    else
      match ← clusterError net ret.err with
      | none => pure ⟨.nil, ret.pre, ret.err⟩
      | some r => sendLoop net call n (ret.pre, ret.err) r

/-- The connection for the slot a caller gives, or for the slot of the key. -/
def slotConnection (net : Net W) (slotid : Option SlotKey) (key : Option Bytes) : Run W (Option Conn) :=
  match slotid with
  | none => getConnectionByKey net key
  | some slot => getConnectionBySlot net slot

/-- The start of `send_cluster_command`: a random connection stands in for a failed one. -/
def firstConnection (net : Net W) (slotid : Option SlotKey) (key : Option Bytes) : Run W (Option Conn) := do
  match ← slotConnection net slotid key with
  | some r => pure (some r)
  | none => getRandomConnection net

/-- `send_cluster_command` with the call of an attempt; `ttl` is `proxy_try_count`. -/
def sendCall (net : Net W) (ttl : Int) (slotid : Option SlotKey) (key : Option Bytes) (call : Conn → Run W Ret) :
    Run W Ret := do
  match ← firstConnection net slotid key with
  | none => pure ⟨.nil, some typeErrorReply, .str timeoutErr⟩
  | some r => sendLoop net call (ttl + 1).toNat (none, .nil) r

/-- `send_cluster_command`. -/
def sendClusterCommand (net : Net W) (ttl : Int) (slotid : Option SlotKey) (cmd : Command) : Run W Ret :=
  sendCall net ttl slotid cmd.args.head? (cmd.call net)

/-- The same with arbitrary values: `redis_slot` refuses a key that is neither a string nor a number. -/
def sendValues (net : Net W) (ttl : Int) (slotid : Option SlotKey) (cmd : Value) (args : List Value) : Run W Ret :=
  match slotid with
  | some slot => sendCall net ttl (some slot) none (callValues net cmd args)
  | none => do
    let slot ← Prog.lift (slotOf (args.headD .nil))
    sendCall net ttl (some slot) none (callValues net cmd args)

theorem sendValues_strings (net : Net W) (ttl : Int) (slotid : Option SlotKey) (cmd : Bytes) (args : List Bytes) :
    sendValues net ttl slotid (.str cmd) (args.map .str) = sendClusterCommand net ttl slotid ⟨cmd, args⟩ := by
  cases slotid with
  | some slot => rfl
  | none => cases args <;> rfl

/-! ## One attempt -/

theorem Command.Forwarded.wire {cmd : Command} (hf : cmd.Forwarded) :
    ∃ req, wire (.tab ((cmd.name :: cmd.args).map .str)) (some typeMultiBulkReply) = .ok req := wire_strs hf.short

/-- The method `r[cmd]` of a command that is forwarded sends its request. -/
theorem call_run (net : Net W) {cmd : Command} (hf : cmd.Forwarded) {req : Bytes}
    (hreq : wire (.tab ((cmd.name :: cmd.args).map .str)) (some typeMultiBulkReply) = .ok req) {r : Conn} {s : St W}
    (hopen : s.isClosed r = false) :
    cmd.call net r s = ((net.exchange .command r req s.world).1.result, s.sent net .command r req) := by
  rw [call_known net hf.known hf.fields, doCmd_run net .command hreq hopen]

/-- A call of a method that is not the client object's own raises before anything is sent, or fails
because the connection was closed, or sends one request and returns what its answer gives. -/
theorem call_cases (net : Net W) {cmd : Command} (hk : method cmd.name ≠ .own) (r : Conn) (s : St W) :
    (∃ e, cmd.call net r s = (.error e, s)) ∨ s.isClosed r = true ∧ cmd.call net r s = (.ok closedRet, s) ∨
      s.isClosed r = false ∧
        ∃ req, cmd.call net r s = ((net.exchange .command r req s.world).1.result, s.sent net .command r req) := by
  by_cases hf : method cmd.name = .hmset ∧ cmd.args.length = 2
  · left
    rw [call_hmset net hf]
    exact ⟨_, rfl⟩
  · rw [call_known net hk hf]
    exact doCmd_cases net .command r _ s

section Attempt

variable (net : Net W) {call : Conn → Run W Ret} {r : Conn} {s s' : St W}

/-- The attempt raises and nothing is sent. -/
theorem sendLoop_raise {e : LuaError} (hc : call r s = (.error e, s')) (n : Nat) (last : Option Nat × Value) :
    sendLoop net call (n + 1) last r s = (.error e, s') := by
  rw [sendLoop, Prog.bind_error hc]

/-- The attempt has a result. -/
theorem sendLoop_value {v : Value} {pre : Option Nat} (hc : call r s = (.ok ⟨v, pre, .nil⟩, s'))
    (hv : v.isNil = false) (n : Nat) (last : Option Nat × Value) :
    sendLoop net call (n + 1) last r s = (.ok ⟨v, pre, .nil⟩, s'.push [.keepalive r]) := by
  rw [sendLoop, Prog.bind_ok hc, Prog.bind_ok (x := setKeepalive r) (record_run _ _), if_pos ⟨rfl, by simp [hv]⟩]
  rfl

/-- The attempt has no result: its error decides whether there is another one. -/
theorem sendLoop_error {ret : Ret} (hc : call r s = (.ok ret, s'))
    (hret : ¬ (ret.err = .nil ∧ ret.val.isNil = false)) (n : Nat) (last : Option Nat × Value) :
    sendLoop net call (n + 1) last r s =
      match clusterError net ret.err (s'.push [.keepalive r]) with
      | (.error e, s₂) => (.error e, s₂)
      | (.ok none, s₂) => (.ok ⟨.nil, ret.pre, ret.err⟩, s₂)
      | (.ok (some r'), s₂) => sendLoop net call n (ret.pre, ret.err) r' s₂ := by
  rw [sendLoop, Prog.bind_ok hc, Prog.bind_ok (x := setKeepalive r) (record_run _ _),
    if_neg (by simpa [Value.isNil_iff] using hret)]
  rcases hce : clusterError net ret.err (s'.push [.keepalive r]) with ⟨e | _ | r', s₂⟩
  · rw [Prog.bind_error hce]
  · rw [Prog.bind_ok hce]; rfl
  · rw [Prog.bind_ok hce]

end Attempt

end NgProxy.Cluster
