/-
`lhlh_redis`: the client object of one backend connection, over an arbitrary network. The network
decides which connects succeed, what `math.random` draws and what comes back for a request; every
use of a connection is logged.
-/
import NgProxy.Lib.Prog
import NgProxy.Cluster.Slot
import NgProxy.Codec.RoundTrip

namespace NgProxy.Cluster

open Lua Codec

/-! ## The network -/

/-- An error text of the socket API; these are lower case (`ngx_strlow` and literals). -/
structure ErrText where
  text : Bytes
  low : (text.all fun b => !(decide (65 ≤ b) && decide (b ≤ 90))) = true

/-- The peer has closed the connection. -/
def closedErr : ErrText := ⟨bytes "closed", by decide⟩

/-- What comes of sending a request: `send` fails, or some bytes arrive and then the error. -/
inductive Outcome where
  | sendError (e : ErrText)
  | reply (input : Bytes) (fault : ErrText)

/-- The outcome, and the reply of the backend's execution, if it has executed the request. -/
structure Answer where
  outcome : Outcome
  executed : Option Reply

/-- An open connection and the address it was opened to. -/
structure Conn where
  id : Nat
  host : Bytes
  port : Nat
  deriving DecidableEq

/-- Why a request is sent: `ping` on a random connection, `asking` before a redirected command,
`cluster nodes` to learn the slot map, or the client's command. -/
inductive Purpose where
  | probe
  | asking
  | discover
  | command
  deriving DecidableEq

/-- The network and the backends behind it, with a state `W` of their own; `own` is what a method of the
client object itself (`connect`, `close` and the like) comes to when a client sends its name as a
command. -/
structure Net (W : Type) where
  connect : Bytes → Nat → W → Bool × W
  random : Nat → W → Nat × W
  exchange : Purpose → Conn → Bytes → W → Answer × W
  own : Bytes → List Value → Conn → W → Except LuaError Ret × W := fun _ _ _ w => (.error .argument, w)

/-! ## The worker's state -/

/-- An entry of `g_redis_cluster_slots` and `g_redis_cluster_nodes`. -/
structure Node where
  host : Bytes
  port : Option Number
  deriving DecidableEq

inductive Metric where
  | error
  | moved
  | ask
  deriving DecidableEq

inductive Event where
  | connect (c : Conn)
  | send (c : Conn) (p : Purpose) (req : Bytes) (a : Answer)
  | read (c : Conn) (ret : Ret)
  | keepalive (c : Conn)
  | close (c : Conn)
  | metric (m : Metric)

/-- The client's command was sent. -/
def Event.isCommand : Event → Bool
  | .send _ .command _ _ => true
  | _ => false

/-- Whether a connection is closed after an event. -/
def Event.closing (r : Conn) (closed : Bool) : Event → Bool
  | .connect c => closed && c != r
  | .close c => closed || c == r
  | _ => closed

/-- Whether a connection is closed after these events. -/
def closedBy (r : Conn) (es : List Event) : Bool := es.foldl (Event.closing r) false

/-- The tables a worker keeps, the network it talks to, and what it has done so far. -/
structure St (W : Type) where
  world : W
  slots : SlotKey → Option Node
  nodes : List Node
  nextConn : Nat
  log : List Event

/-- Code of a worker. -/
abbrev Run (W : Type) := Prog LuaError (St W)

variable {W : Type}

/-- The same state after more events. -/
def St.push (s : St W) (es : List Event) : St W := { s with log := s.log ++ es }

@[simp] theorem St.push_log (s : St W) (es : List Event) : (s.push es).log = s.log ++ es := rfl

@[simp] theorem St.push_slots (s : St W) (es : List Event) : (s.push es).slots = s.slots := rfl

@[simp] theorem St.push_nodes (s : St W) (es : List Event) : (s.push es).nodes = s.nodes := rfl

@[simp] theorem St.push_push (s : St W) (es fs : List Event) : (s.push es).push fs = s.push (es ++ fs) := by
  simp [St.push]

/-- The connection was closed. -/
def St.isClosed (s : St W) (r : Conn) : Bool := closedBy r s.log

def record (e : Event) : Run W Unit := Prog.modify fun s => s.push [e]

theorem record_run (e : Event) (s : St W) : record e s = (.ok (), s.push [e]) := rfl

/-- `lua_tointeger` of a number assigned to a C `int`. -/
def toInt32 (n : Number) : Int := (n.toInteger + 2 ^ 31) % 2 ^ 32 - 2 ^ 31

/-- The network connects, or does not. -/
def dial (net : Net W) (host : Bytes) (port : Nat) : Run W (Option Conn) := fun s =>
  match net.connect host port s.world with
  | (false, w) => (.ok none, { s with world := w })
  | (true, w) =>
    (.ok (some ⟨s.nextConn, host, port⟩),
      { s with world := w, nextConn := s.nextConn + 1, log := s.log ++ [.connect ⟨s.nextConn, host, port⟩] })

/-- `connect`: a missing port is refused with a raise, a port out of range with an error. -/
def connect (net : Net W) (host : Bytes) (port : Option Number) : Run W (Option Conn) :=
  match port with
  | none => Prog.raise .argument
  | some p => if toInt32 p < 0 ∨ 65536 < toInt32 p then pure none else dial net host (toInt32 p).toNat

def setKeepalive (r : Conn) : Run W Unit := record (.keepalive r)

def close (r : Conn) : Run W Unit := record (.close r)

/-- What comes of a request: on a connection that was closed `send` fails, and nothing is sent. -/
def exchange (net : Net W) (p : Purpose) (r : Conn) (req : Bytes) : Run W Answer := fun s =>
  if s.isClosed r then (.ok ⟨.sendError closedErr, none⟩, s)
  else
    match net.exchange p r req s.world with
    | (a, w) => (.ok a, { s with world := w, log := s.log ++ [.send r p req a] })

/-- The second half of `_do_cmd`: one reply is read, a timeout closes the connection. -/
def readReply (r : Conn) (a : Answer) : Run W Ret :=
  match a.outcome with
  | .sendError e => pure ⟨.nil, some 0, .str e.text⟩
  | .reply input fault => do
    let d ← Prog.lift (decode ⟨input, fault.text⟩)
    record (.read r d.1)
    Prog.when (d.1.err.eqStr (bytes "timeout")) (close r)
    pure d.1

/-- `_do_cmd`: the request is sent as an array. -/
def doCmdValues (net : Net W) (p : Purpose) (r : Conn) (args : List Value) : Run W Ret := do
  let req ← Prog.lift (wire (.tab args) (some typeMultiBulkReply))
  let a ← exchange net p r req
  readReply r a

/-- The same with strings. -/
def doCmd (net : Net W) (p : Purpose) (r : Conn) (args : List Bytes) : Run W Ret :=
  doCmdValues net p r (args.map .str)

/-- What an answer makes `_do_cmd` return. -/
def Answer.result (a : Answer) : Except LuaError Ret :=
  match a.outcome with
  | .sendError e => .ok ⟨.nil, some 0, .str e.text⟩
  | .reply input fault => (decode ⟨input, fault.text⟩).map (·.1)

/-- The events of reading an answer. -/
def Answer.reads (a : Answer) (r : Conn) : List Event :=
  match a.outcome with
  | .sendError _ => []
  | .reply input fault =>
    match decode ⟨input, fault.text⟩ with
    | .error _ => []
    | .ok d => .read r d.1 :: if d.1.err.eqStr (bytes "timeout") then [.close r] else []

theorem readReply_run (r : Conn) (a : Answer) (s : St W) : readReply r a s = (a.result, s.push (a.reads r)) := by
  have hnil : s.push [] = s := by simp [St.push]
  obtain ⟨o | ⟨input, fault⟩, ex⟩ := a
  · simp [readReply, Answer.result, Answer.reads, hnil]
  · simp only [readReply, Answer.result, Answer.reads]
    rcases decode ⟨input, fault.text⟩ with e | d
    · rw [Prog.bind_error (Prog.lift_run _ _), hnil]
      rfl
    · rw [Prog.bind_ok (Prog.lift_run _ _), Prog.bind_ok (record_run _ _)]
      dsimp only [Except.map]
      cases d.1.err.eqStr (bytes "timeout") with
      | false => rfl
      | true => exact congrArg (Prod.mk _) (St.push_push _ _ _)

theorem Answer.reads_cases (a : Answer) (r : Conn) {e : Event} (he : e ∈ a.reads r) :
    (∃ ret, e = .read r ret) ∨ e = .close r := by
  unfold Answer.reads at he
  split at he
  · cases he
  · split at he
    · cases he
    · rcases List.mem_cons.1 he with rfl | he
      · exact .inl ⟨_, rfl⟩
      · split at he
        · exact .inr (List.mem_singleton.1 he)
        · cases he

theorem Answer.reads_mute (a : Answer) (r : Conn) : ∀ e ∈ a.reads r, e.isCommand = false := by
  intro e he
  rcases a.reads_cases r he with ⟨ret, rfl⟩ | rfl
  · rfl
  · rfl

/-- The state after a request has been sent and its answer read. -/
def St.sent (net : Net W) (p : Purpose) (r : Conn) (req : Bytes) (s : St W) : St W :=
  { s with world := (net.exchange p r req s.world).2 }.push
    (.send r p req (net.exchange p r req s.world).1 :: (net.exchange p r req s.world).1.reads r)

/-- `_do_cmd` on an open connection sends its request once and returns what the answer gives. -/
theorem doCmd_run (net : Net W) (p : Purpose) {r : Conn} {args : List Bytes} {req : Bytes}
    (hreq : wire (.tab (args.map .str)) (some typeMultiBulkReply) = .ok req) {s : St W} (hopen : s.isClosed r = false) :
    doCmd net p r args s = ((net.exchange p r req s.world).1.result, s.sent net p r req) := by
  have hx : exchange net p r req s = (.ok (net.exchange p r req s.world).1,
      { s with world := (net.exchange p r req s.world).2 }.push
        [.send r p req (net.exchange p r req s.world).1]) := by
    rw [exchange, hopen]
    rfl
  unfold doCmd doCmdValues
  rw [hreq, Prog.bind_ok (Prog.lift_run _ _), Prog.bind_ok hx, readReply_run, St.push_push]
  rfl

/-- What `_do_cmd` returns on a connection that was closed. -/
def closedRet : Ret := ⟨.nil, some 0, .str closedErr.text⟩

/-- An array that cannot be encoded is not sent. -/
theorem doCmd_raise (net : Net W) (p : Purpose) (r : Conn) {args : List Bytes} {e : LuaError}
    (hreq : wire (.tab (args.map .str)) (some typeMultiBulkReply) = .error e) (s : St W) :
    doCmd net p r args s = (.error e, s) := by
  unfold doCmd doCmdValues
  rw [hreq, Prog.bind_error (Prog.lift_run _ _)]

/-- Nothing is sent on a connection that was closed. -/
theorem doCmd_closed (net : Net W) (p : Purpose) {r : Conn} {args : List Bytes} {req : Bytes}
    (hreq : wire (.tab (args.map .str)) (some typeMultiBulkReply) = .ok req) {s : St W}
    (hclosed : s.isClosed r = true) :
    doCmd net p r args s = (.ok closedRet, s) := by
  have hx : exchange net p r req s = (.ok ⟨.sendError closedErr, none⟩, s) := by
    rw [exchange, hclosed]
    rfl
  unfold doCmd doCmdValues
  rw [hreq, Prog.bind_ok (Prog.lift_run _ _), Prog.bind_ok hx]
  rfl

/-- `_do_cmd` raises before it sends anything, or fails because the connection was closed, or sends its
request. -/
theorem doCmd_cases (net : Net W) (p : Purpose) (r : Conn) (args : List Bytes) (s : St W) :
    (∃ e, doCmd net p r args s = (.error e, s)) ∨ s.isClosed r = true ∧ doCmd net p r args s = (.ok closedRet, s) ∨
      s.isClosed r = false ∧
        ∃ req, doCmd net p r args s = ((net.exchange p r req s.world).1.result, s.sent net p r req) := by
  rcases hreq : wire (.tab (args.map .str)) (some typeMultiBulkReply) with e | req
  · exact .inl ⟨e, doCmd_raise net p r hreq s⟩
  · cases hopen : s.isClosed r with
    | false => exact .inr (.inr ⟨rfl, req, doCmd_run net p hreq hopen⟩)
    | true => exact .inr (.inl ⟨rfl, doCmd_closed net p hreq hopen⟩)

/-! ## Commands -/

/-- What `r[cmd]` is: a method that forwards its arguments (listed in `common_cmds`, or generated on
first use), `hmset`, or another name of the client object (its own functions and fields, and the
subscription commands, which keep state in it). -/
inductive Method where
  | plain
  | hmset
  | own
  deriving DecidableEq

def ownNames : List Bytes :=
  ["new", "set_timeout", "connect", "set_keepalive", "get_reused_times", "close", "init_pipeline",
    "cancel_pipeline", "commit_pipeline", "array_to_hash", "add_commands", "_VERSION", "_sock", "_subscribed",
    "subscribe", "psubscribe", "unsubscribe", "punsubscribe"].map bytes

def method (cmd : Bytes) : Method :=
  if cmd = bytes "hmset" then .hmset else if cmd ∈ ownNames then .own else .plain

theorem mem_ownNames {cmd : Bytes} (h : method cmd = .own) : cmd ∈ ownNames := by
  unfold method at h
  split at h
  · cases h
  · split at h
    · assumption
    · cases h

/-- A command with its arguments, as spelled by the client. -/
structure Command where
  name : Bytes
  args : List Bytes

/-- A method of the client object itself. -/
def ownMethod (net : Net W) (name : Bytes) (args : List Value) (r : Conn) : Run W Ret := fun s =>
  match net.own name args r s.world with
  | (res, w) => (res, { s with world := w })

/-- The fields `hmset` reads from a table: `pairs` gives each index with its value. -/
def fieldList (l : List Value) : List Value := (l.zipIdx 1).flatMap fun p => [.num (.int p.2), p.1]

/-- `r[cmd](r, ...)`. `hmset` with one value takes it for a table of fields: `pairs` of anything else
raises. A name that is a number is no name of the client object. -/
def callValues (net : Net W) (cmd : Value) (args : List Value) (r : Conn) : Run W Ret :=
  match cmd with
  | .str name =>
    if method name = .own then ownMethod net name args r
    else if method name = .hmset ∧ args.length = 2 then
      match args with
      | [key, .tab l] => doCmdValues net .command r (cmd :: key :: fieldList l)
      | _ => Prog.raise .argument
    else doCmdValues net .command r (cmd :: args)
  | _ => doCmdValues net .command r (cmd :: args)

/-- The same for a command of strings. -/
def Command.call (net : Net W) (cmd : Command) (r : Conn) : Run W Ret :=
  callValues net (.str cmd.name) (cmd.args.map .str) r

/-- The one value `hmset` takes for a table is a string. -/
theorem call_hmset (net : Net W) {cmd : Command} (h : method cmd.name = .hmset ∧ cmd.args.length = 2) (r : Conn) :
    cmd.call net r = Prog.raise .argument := by
  obtain ⟨k, v, hargs⟩ := List.length_eq_two.1 h.2
  unfold Command.call callValues
  dsimp only
  rw [hargs, h.1]
  rfl

theorem call_known (net : Net W) {cmd : Command} (hk : method cmd.name ≠ .own)
    (hf : ¬ (method cmd.name = .hmset ∧ cmd.args.length = 2)) (r : Conn) :
    cmd.call net r = doCmd net .command r (cmd.name :: cmd.args) := by
  unfold Command.call callValues
  dsimp only
  rw [if_neg hk, if_neg (by rwa [List.length_map])]
  rfl

/-- The command goes to a backend: it is no name of the client object, not `hmset` with one value, and
has no more words than `encode` takes. -/
structure Command.Forwarded (cmd : Command) : Prop where
  known : method cmd.name ≠ .own
  fields : ¬ (method cmd.name = .hmset ∧ cmd.args.length = 2)
  short : cmd.args.length + 1 ≤ maxArgs

end NgProxy.Cluster
