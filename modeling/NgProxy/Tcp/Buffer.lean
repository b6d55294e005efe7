/-
The reading side of `ngx_stream_lua_socket_tcp.c`: the chain of buffers a socket receives into, the input filters
that collect the result of `receive` in them, and the loop that calls the filter and the kernel in turns until the
filter is content. A pointer into a buffer is its distance from the buffer's start.
-/
import NgProxy.Stream.Framing

namespace NgProxy.Tcp

open Lua Memory
open NgProxy.Stream (Rc)

/-! ## The connection -/

/-- What comes behind the last byte: the peer closes the connection, nothing until the timer fires, or an error, whose
text is that of `strerror` in lower case. -/
inductive Fault where
  | closed
  | timeout
  | errno (text : Bytes)
  deriving DecidableEq

/-- What the kernel has for the socket: the bytes still to come and what is behind them, and for each call of `recv` how
many bytes it gets at most. One that gets none has come too early. -/
structure Wire where
  pending : Bytes
  fault : Fault
  cuts : List Nat
  deriving DecidableEq

/-- What `recv` returns. No bytes mean that the connection is closed. A wait that is longer than the timer is a result
of its own. -/
inductive Recv where
  | bytes (s : Bytes)
  | again
  | timeout
  | error (text : Bytes)

def Fault.recv : Fault → Recv
  | closed => .bytes []
  | timeout => .timeout
  | errno text => .error text

/-- `c->recv(c, b->last, size)`. -/
def Wire.recv (size : Nat) (w : Wire) : Recv × Wire :=
  match w.cuts with
  | 0 :: cuts => (.again, { w with cuts := cuts })
  | cuts =>
    if w.pending = [] then (w.fault.recv, w)
    else
      let n := min size (cuts.headD size)
      (.bytes (w.pending.take n), { w with pending := w.pending.drop n, cuts := cuts.tail })

/-! ## Buffers -/

/-- An `ngx_buf_t` and its memory, of `size` bytes. -/
structure Buf where
  mem : Mem
  size : Nat
  pos : Nat
  last : Nat

/-- The bytes from `pos` to `last`. -/
def Buf.text (b : Buf) : Bytes := slice b.mem b.pos (b.last - b.pos)

/-- The settings of a socket: `buffer_size`, whether it is the client's own with `lua_check_client_abort on`, and what
newly allocated memory happens to hold. -/
structure Conf where
  bufferSize : Nat
  clientAbort : Bool
  fresh : Mem

/-- `ngx_stream_lua_chain_get_free_buf`. A free buffer is taken in any case, but its memory only if it is large
enough. -/
def getFreeBuf (conf : Conf) (len : Nat) : List Buf → Buf × List Buf
  | b :: free =>
    if len ≤ b.size then ({ b with pos := 0, last := 0 }, free)
    else (⟨conf.fresh, len, 0, 0⟩, free)
  | [] => (⟨conf.fresh, len, 0, 0⟩, [])

theorem getFreeBuf_spec (conf : Conf) (len : Nat) (free : List Buf) :
    (getFreeBuf conf len free).1.pos = 0 ∧ (getFreeBuf conf len free).1.last = 0 ∧
      len ≤ (getFreeBuf conf len free).1.size := by
  cases free with
  | nil => exact ⟨rfl, rfl, le_rfl⟩
  | cons b free =>
    rw [getFreeBuf]
    split
    · exact ⟨rfl, rfl, by assumption⟩
    · exact ⟨rfl, rfl, le_rfl⟩

/-- The chain `bufs_in`: the buffers in front of the last one, the last one, `buf_in`, and the positions of `buffer`, a
copy of it. Each buffer holds between its own positions what the call has collected; between `pos` and `last` is what
has been received and not been looked at. -/
structure Chain where
  before : List Buf
  bufIn : Buf
  pos : Nat
  last : Nat

/-- A socket in between two calls. Before the first one it has no buffers. Not to be read are also a socket that is not
connected and one that has been closed. -/
structure Upstream where
  bufs : Option Chain
  free : List Buf
  eof : Bool
  readClosed : Bool

/-- A socket during a call, with the errors of the call so far. -/
structure Input extends Chain where
  free : List Buf
  eof : Bool
  ftType : BitVec 16
  errno : Bytes

def ftError : BitVec 16 := 0x0001
def ftTimeout : BitVec 16 := 0x0002
def ftClosed : BitVec 16 := 0x0004
def ftClientAbort : BitVec 16 := 0x0080

namespace Input

/-- `ngx_stream_lua_socket_handle_read_error`. -/
def fail (ft : BitVec 16) (u : Input) : Input := { u with ftType := u.ftType ||| ft }

/-- `ngx_stream_lua_socket_add_input_buffer`. -/
def addInputBuffer (conf : Conf) (u : Input) : Input :=
  let r := getFreeBuf conf conf.bufferSize u.free
  { u with before := u.before ++ [u.bufIn], bufIn := r.1, pos := r.1.pos, last := r.1.last, free := r.2 }

/-- The bytes `recv` has put at `last`. -/
def received (s : Bytes) (u : Input) : Input :=
  { u with bufIn := { u.bufIn with mem := write u.bufIn.mem u.last s }, last := u.last + s.length }

/-- The next `n` bytes are part of the result. -/
def collect (n : Nat) (u : Input) : Input :=
  { u with bufIn := { u.bufIn with last := u.bufIn.last + n }, pos := u.pos + n }

/-- `ngx_stream_lua_socket_push_input_data`: the bytes collected in all buffers. All buffers but the last one become
free; what has not been looked at stays in that one. -/
def pushInputData (u : Input) : Bytes × Input :=
  let text := (u.before ++ [u.bufIn]).flatMap Buf.text
  let pos := if u.pos = u.last then 0 else u.pos
  let last := if u.pos = u.last then 0 else u.last
  (text, { u with before := [], bufIn := { u.bufIn with pos := pos, last := pos }, pos := pos, last := last,
                  free := u.before ++ u.free })

end Input

/-! ## The filters -/

/-- An input filter, with what it keeps from one call of it to the next and the number of bytes there are. -/
abbrev Filter (κ : Type) := κ → Nat → Input → Rc × κ × Input

/-- `ngx_stream_lua_socket_read_chunk`, with `u->rest`. -/
def readChunk : Filter Nat := fun rest bytes u =>
  if bytes = 0 then (.error, rest, u.fail ftClosed)
  else if rest ≤ bytes then (.ok, 0, u.collect rest)
  else (.again, rest - bytes, u.collect bytes)

/-- `ngx_stream_lua_socket_read_all`. -/
def readAll : Filter Unit := fun _ bytes u =>
  if bytes = 0 then (.ok, (), u) else (.again, (), u.collect bytes)

/-- The loop of `ngx_stream_lua_socket_read_line`: the bytes of the line move down to `dst`, over those already read. -/
def readLineLoop : Nat → Nat → Input → Rc × Input
  | 0, dst, u => (.again, { u with bufIn := { u.bufIn with last := dst } })
  | bytes + 1, dst, u =>
    let c := u.bufIn.mem u.pos
    let u := { u with pos := u.pos + 1 }
    if c = 10 then (.ok, { u with bufIn := { u.bufIn with last := dst } })
    else if c = 13 then readLineLoop bytes dst u
    else readLineLoop bytes (dst + 1) { u with bufIn := { u.bufIn with mem := store u.bufIn.mem dst c } }

/-- `ngx_stream_lua_socket_read_line`. -/
def readLine : Filter Unit := fun _ bytes u =>
  if bytes = 0 then (.error, (), u.fail ftClosed)
  else
    let (rc, u) := readLineLoop bytes u.bufIn.last u
    (rc, (), u)

/-- `redis_proto_decode` of the bytes that have not been looked at. -/
def Input.decode (bytes : Nat) (u : Input) : Rc :=
  NgProxy.Stream.redisProtoDecode (fun i => u.bufIn.mem (u.pos + i)) (u.bufIn.size - u.pos) 0 bytes

/-- `ngx_stream_lua_socket_read_redis`. At the end of the stream it returns `NGX_OK`, with an error noted. -/
def readRedis : Filter Unit := fun _ bytes u =>
  if bytes = 0 then (.ok, (), u.fail ftClosed)
  else if u.decode bytes = .ok then (.ok, (), u.collect bytes)
  else (.again, (), u.collect bytes)

/-! ## Reading -/

section Read

variable {κ : Type} (conf : Conf) (f : Filter κ)

/-- The loop of `ngx_stream_lua_socket_tcp_read`, of so many turns at most. When `recv` has nothing yet the call waits,
and the loop begins anew where it was. -/
def tcpRead : Nat → κ → Input → Wire → Option (Rc × κ × Input × Wire)
  | 0, _, _, _ => none
  | fuel + 1, k, u, w =>
    if u.last - u.pos ≠ 0 ∨ u.eof = true then
      match f k (u.last - u.pos) u with
      | (.ok, k, u) => some (.ok, k, u, w)
      | (.error, k, u) => some (.error, k, u.fail ftError, w)
      | (.again, k, u) => tcpRead fuel k u w
    else
      let u := if u.bufIn.size - u.last = 0 then u.addInputBuffer conf else u
      match w.recv (u.bufIn.size - u.last) with
      | (.again, w) => tcpRead fuel k u w
      | (.timeout, w) => some (.error, k, u.fail ftTimeout, w)
      | (.error text, w) => some (.error, k, { u with errno := text }.fail ftError, w)
      | (.bytes [], w) =>
        if conf.clientAbort = true then some (.error, k, u.fail ftClientAbort, w)
        else tcpRead fuel k { u with eof := true } w
      | (.bytes s, w) => tcpRead fuel k (u.received s) w

/-- As many turns as the loop can need: one for the bytes that are there, one for each `recv` and one for each byte it
brings, and two at the end. -/
def Wire.turns (w : Wire) : Nat := w.cuts.length + 2 * w.pending.length + 4

/-- `ngx_stream_lua_socket_prepare_error_retvals`, the text. -/
def Input.errorText (u : Input) : Bytes :=
  if u.ftType &&& ftTimeout ≠ 0 then bytes "timeout"
  else if u.ftType &&& ftClosed ≠ 0 then bytes "closed"
  else if u.ftType &&& ftClientAbort ≠ 0 then bytes "client aborted"
  else if u.errno ≠ [] then u.errno
  else bytes "error"

/-- The socket behind a call that leaves it open. -/
def Input.upstream (u : Input) : Upstream := ⟨some u.toChain, u.free, u.eof, false⟩

/-- `ngx_stream_lua_socket_tcp_finalize_read_part`: all buffers become free. -/
def Input.finalizeReadPart (u : Input) : Upstream := ⟨none, u.before ++ u.bufIn :: u.free, u.eof, true⟩

/-- `ngx_stream_lua_socket_tcp_receive_retval_handler`. After a timeout, and only then, the socket can be read again. -/
def Input.receiveRetvalHandler (u : Input) : List Value × Upstream :=
  let (text, u) := u.pushInputData
  if u.ftType ≠ 0 then
    ([.nil, .str u.errorText, .str text],
      if u.ftType &&& ftTimeout ≠ 0 then u.upstream else u.finalizeReadPart)
  else ([.str text], u.upstream)

/-- The socket at the beginning of a call. The first call gets the first buffer. -/
def Upstream.input (u : Upstream) : Input :=
  match u.bufs with
  | some c => ⟨c, u.free, u.eof, 0, []⟩
  | none =>
    let r := getFreeBuf conf conf.bufferSize u.free
    ⟨⟨[], r.1, r.1.pos, r.1.last⟩, r.2, u.eof, 0, []⟩

end Read

structure Socket where
  upstream : Upstream
  wire : Wire

/-- A call with the filter `f`, up to what it returns and what the filter keeps. -/
def Socket.read {κ : Type} (conf : Conf) (f : Filter κ) (k : κ) (s : Socket) :
    Except LuaError (List Value) × κ × Socket :=
  match tcpRead conf f s.wire.turns k (s.upstream.input conf) s.wire with
  | none => (.error .fuel, k, s)
  | some (_, k, u, w) =>
    let (ret, upstream) := u.receiveRetvalHandler
    (.ok ret, k, ⟨upstream, w⟩)

/-! ## `receive` -/

/-- What `receive` is asked for. -/
inductive Want where
  | line
  | all
  | redis
  | size (n : Nat)
  deriving DecidableEq

/-- The argument of `receive`. A string that is a number counts as one. -/
def Want.ofArg : Option Value → Except LuaError Want
  | none => .ok .line
  | some v =>
    match v.toNum with
    | some n => if n.toInteger < 0 then .error .argument else .ok (.size n.toInteger.toNat)
    | none =>
      if v.eqStr (bytes "*r") then .ok .redis
      else if v.eqStr (bytes "*l") then .ok .line
      else if v.eqStr (bytes "*a") then .ok .all
      else .error .argument

def Socket.want (conf : Conf) (s : Socket) : Want → Except LuaError (List Value) × Socket
  | .line =>
    let (ret, _, s) := s.read conf readLine ()
    (ret, s)
  | .all =>
    let (ret, _, s) := s.read conf readAll ()
    (ret, s)
  | .redis =>
    let (ret, _, s) := s.read conf readRedis ()
    (ret, s)
  | .size 0 => (.ok [.str []], s)
  | .size (n + 1) =>
    let (ret, _, s) := s.read conf readChunk (n + 1)
    (ret, s)

/-- `ngx_stream_lua_socket_tcp_receive`. Whether the socket can be read is looked at before the argument is. -/
def Socket.receive (conf : Conf) (arg : Option Value) (s : Socket) : Except LuaError (List Value) × Socket :=
  if s.upstream.readClosed = true then (.ok [.nil, .str (bytes "closed")], s)
  else
    match Want.ofArg arg with
    | .error e => (.error e, s)
    | .ok want => s.want conf want

end NgProxy.Tcp
