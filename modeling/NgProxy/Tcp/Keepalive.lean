/-
The pools of idle connections of `ngx_stream_lua_socket_tcp.c`: `connect`, which takes a connection out of the pool of
its key if there is one, `setkeepalive`, which puts one back, and the events that close connections. A pool is memory of
the Lua VM that only the table of pools refers to; its count of connections says when that entry is removed, and then
the memory goes sooner or later. So there are calls in which the model is undefined: those that would touch a pool that
is gone.
-/
import NgProxy.Lib.Memory
import NgProxy.Lua.Value

namespace NgProxy.Keepalive

open Lua Memory

/-! ## Sockets -/

/-- The fields of `ngx_stream_lua_socket_tcp_upstream_t` that matter here, but for `socket_pool`. A connection is a
number. -/
structure Peer where
  connection : Option Nat
  reused : Nat
  readClosed : Bool
  writeClosed : Bool
  connWaiting : Bool
  readWaiting : Bool
  writeWaiting : Bool

namespace Peer

/-- After `ngx_memzero`. -/
def new : Peer := ⟨none, 0, false, false, false, false, false⟩

/-- After `ngx_stream_lua_socket_tcp_finalize`. -/
def closed (u : Peer) : Peer := { u with connection := none, readClosed := true, writeClosed := true }

/-- `ngx_stream_lua_socket_check_busy_connecting`, `_reading` and `_writing`. -/
def busy (u : Peer) : Option Bytes :=
  if u.connWaiting then some (bytes "socket busy connecting")
  else if u.readWaiting then some (bytes "socket busy reading")
  else if u.writeWaiting then some (bytes "socket busy writing")
  else none

/-- The peer holds a connection that has been in a pool. -/
def out (u : Peer) : Bool := u.connection.isSome && u.reused != 0

end Peer

/-- The Lua object of a socket: the key of its pool, its upstream, and `u->socket_pool`. -/
structure Sock (π : Type) where
  key : Option Bytes
  peer : Option Peer
  pool : Option π

/-- The sockets of the worker, the connections that are open, and the next new one. -/
structure Base (π : Type) where
  socks : List (Sock π)
  opened : List Nat
  next : Nat

section Base

variable {π : Type}

def Base.set (i : Nat) (s : Sock π) (b : Base π) : Base π := { b with socks := b.socks.set i s }

/-- `ngx_stream_lua_socket_tcp_close_connection`. -/
def Base.close (c : Nat) (b : Base π) : Base π := { b with opened := b.opened.erase c }

/-- `connect` without a pooled connection: either the error at once, or a new connection. One that is not established
yet counts as open; if it fails later on, the socket is finalized. -/
def Base.dial (i : Nat) (s : Sock π) (error : Option Bytes) (b : Base π) : List Value × Base π :=
  match error with
  | some text => ([.nil, .str text], b.set i s)
  | none =>
    let b' := b.set i { s with peer := some { Peer.new with connection := some b.next } }
    ([.num (.int 1)], { b' with opened := b.next :: b.opened, next := b.next + 1 })

end Base

/-! ## What the calls look at first -/

/-- The `int` that `connect` makes of the port. -/
def portNumber (port : Option Int) : Int := int32 (port.getD 0)

def badPort (port : Option Int) : Bool := portNumber port < 0 || 65536 < portNumber port

/-- The key if there is no `pool` option; the port in it is the argument itself. -/
def target (host : Bytes) : Option Int → Bytes
  | some n => host ++ bytes ":" ++ (Number.int n).text
  | none => host

/-- The first part of `connect`: the key of the object afterwards, and either what the call returns or the key to look
for. The option `pool` becomes the key even if the port turns out to be bad, and so does every key if the socket is
busy. -/
def prepare (host : Bytes) (port : Option Int) (pool key : Option Bytes) (peer : Option Peer) :
    Option Bytes × Except (List Value) Bytes :=
  if badPort port then
    (pool.orElse fun _ => key, .error [.nil, .str (bytes "bad port number: " ++ (Number.int (portNumber port)).text)])
  else
    let name := pool.getD (target host port)
    match peer.bind Peer.busy with
    | some text => (some name, .error [.nil, .str text])
    | none => (some name, .ok name)

/-- What `setkeepalive` finds on the connection: unread bytes, an error or the end of the stream noted before, a read
event that cannot be handled, or nothing. The last one is a read event that is ready, and whether it is stale, which
`recv` with `MSG_PEEK` tells. -/
inductive Readiness where
  | unread
  | invalid
  | failed
  | quiet
  | ready (stale : Bool)
  deriving DecidableEq

def closedResult : List Value := [.nil, .str (bytes "closed")]

/-- The first part of `setkeepalive`: either what the call returns or the key, the peer and its connection. -/
def keepable (state : Readiness) (key : Option Bytes) (peer : Option Peer) : Except (List Value) (Bytes × Peer × Nat) :=
  match key, peer with
  | none, _ => .error [.nil, .str (bytes "key not found")]
  | some _, none => .error closedResult
  | some key, some u =>
    match u.connection with
    | none => .error closedResult
    | some c =>
      if u.readClosed || u.writeClosed then .error closedResult
      else
        match u.busy, state with
        | some text, _ => .error [.nil, .str text]
        | none, .unread => .error [.nil, .str (bytes "unread data in buffer")]
        | none, .invalid => .error [.nil, .str (bytes "invalid connection")]
        | none, .failed => .error [.nil, .str (bytes "failed to handle read event")]
        | none, _ => .ok (key, u, c)

/-- The peer of a call of `close` or `getreusedtimes`, if it is connected. -/
def connected (peer : Option Peer) : Option Peer :=
  peer.filter fun u => u.connection.isSome && !(u.readClosed && u.writeClosed)

/-! ## Pools -/

/-- An item of a pool that is in use. -/
structure Item where
  conn : Nat
  reused : Nat
  deriving DecidableEq

/-- `ngx_stream_lua_socket_pool_t`: of the items that are free only the number matters. -/
structure SocketPool where
  key : Bytes
  activeConnections : Int
  cache : List Item
  free : Nat

/-- The worker: the table of pools and the memory they are in. -/
structure Worker extends Base Nat where
  registry : Bytes → Option Nat
  heap : List (Option SocketPool)

namespace Worker

/-- The pool at an address, if it is still there. -/
def pool? (p : Nat) (w : Worker) : Option SocketPool := w.heap[p]?.join

def setPool (p : Nat) (pool : SocketPool) (w : Worker) : Worker := { w with heap := w.heap.set p (some pool) }

def set (i : Nat) (s : Sock Nat) (w : Worker) : Worker := { w with toBase := w.toBase.set i s }

def close (c : Nat) (w : Worker) : Worker := { w with toBase := w.toBase.close c }

/-- `ngx_stream_lua_socket_free_pool`: the entry of the table is removed. The key is read as a C string. -/
def freePool (pool : SocketPool) (w : Worker) : Worker :=
  { w with registry := fun k => if k = pool.key.takeWhile (· ≠ 0) then none else w.registry k }

/-- One connection of the pool less. -/
def leave (p : Nat) (w : Worker) : Option Worker :=
  match w.pool? p with
  | none => none
  | some pool =>
    let pool := { pool with activeConnections := pool.activeConnections - 1 }
    let w := w.setPool p pool
    some (if pool.activeConnections = 0 then w.freePool pool else w)

/-- `ngx_stream_lua_socket_tcp_finalize`. -/
def finalize (i : Nat) (s : Sock Nat) (u : Peer) (w : Worker) : Option Worker :=
  let w := w.set i { s with peer := some u.closed }
  match u.connection with
  | none => some w
  | some c =>
    let w := w.close c
    if u.reused = 0 then some w
    else
      match s.pool with
      | none => some w
      | some p => w.leave p

/-- The end of `ngx_stream_lua_socket_keepalive_close_handler`. -/
def closeHandler (p c : Nat) (w : Worker) : Option Worker :=
  match w.pool? p with
  | none => none
  | some pool =>
    let pool := { pool with cache := pool.cache.eraseP (·.conn = c), free := pool.free + 1 }
    ((w.close c).setPool p pool).leave p

/-- `ngx_stream_lua_get_keepalive_peer`. Behind it the rest of `connect`. -/
def getKeepalivePeer (i : Nat) (key : Bytes) (error : Option Bytes) (w : Worker) : Option (List Value × Worker) :=
  let s := ⟨some key, some Peer.new, none⟩
  match w.registry key with
  | none =>
    let r := w.toBase.dial i s error
    some (r.1, { w with toBase := r.2 })
  | some p =>
    match w.pool? p with
    | none => none
    | some pool =>
      match pool.cache with
      | [] =>
        let r := w.toBase.dial i { s with pool := some p } error
        some (r.1, { w with toBase := r.2 })
      | item :: cache =>
        let w := w.setPool p { pool with cache := cache, free := pool.free + 1 }
        let u := { Peer.new with connection := some item.conn, reused := item.reused + 1 }
        some ([.num (.int 1)], w.set i ⟨some key, some u, some p⟩)

/-- `ngx_stream_lua_socket_tcp_connect`. -/
def connect (i : Nat) (host : Bytes) (port : Option Int) (pool error : Option Bytes) (s : Sock Nat) (w : Worker) :
    Option (List Value × Worker) :=
  let (key, r) := prepare host port pool s.key s.peer
  let s := { s with key := key }
  let w := w.set i s
  match r with
  | .error ret => some (ret, w)
  | .ok key =>
    match s.peer with
    | none => w.getKeepalivePeer i key error
    | some u => (w.finalize i s u).bind (getKeepalivePeer i key error)

/-- An item for `setkeepalive`: a free one, or that of the connection that has been idle the longest, which is
closed. -/
def makeRoom (pool : SocketPool) (w : Worker) : Option (SocketPool × Worker) :=
  if pool.free = 0 then
    match pool.cache.getLast? with
    | none => none
    | some item =>
      some ({ pool with cache := pool.cache.dropLast, activeConnections := pool.activeConnections - 1 },
        w.close item.conn)
  else some ({ pool with free := pool.free - 1 }, w)

/-- The rest of `setkeepalive`, with the pool at `p`. -/
def keep (i p : Nat) (s : Sock Nat) (u : Peer) (c : Nat) (state : Readiness) (w : Worker) :
    Option (List Value × Worker) :=
  match w.pool? p with
  | none => none
  | some pool =>
    match w.makeRoom pool with
    | none => none
    | some (pool, w) =>
      let active := if u.reused = 0 then pool.activeConnections + 1 else pool.activeConnections
      let w := w.setPool p { pool with cache := ⟨c, u.reused⟩ :: pool.cache, activeConnections := active }
      let u := { u with connection := none }
      let s := { s with peer := some u }
      if state = .ready false then
        ((w.set i s).closeHandler p c).map fun w => ([.nil, .str (bytes "connection in dubious state")], w)
      else (w.finalize i s u).map fun w => ([.num (.int 1)], w)

/-- A new pool with so many items. -/
def createPool (key : Bytes) (size : Nat) (w : Worker) : Worker :=
  { w with registry := fun k => if k = key then some w.heap.length else w.registry k,
           heap := w.heap ++ [some ⟨key, 0, [], size⟩] }

/-- `ngx_stream_lua_socket_tcp_setkeepalive`, with the size for a new pool. -/
def setkeepalive (i size : Nat) (state : Readiness) (s : Sock Nat) (w : Worker) : Option (List Value × Worker) :=
  match keepable state s.key s.peer with
  | .error ret => some (ret, w)
  | .ok (key, u, c) =>
    match w.registry key with
    | some p => w.keep i p s u c state
    | none =>
      if size = 0 then some ([.nil, .str (bytes "zero pool size")], w)
      else (w.createPool key size).keep i w.heap.length s u c state

/-- `ngx_stream_lua_socket_tcp_close`. -/
def closeCall (i : Nat) (s : Sock Nat) (w : Worker) : Option (List Value × Worker) :=
  match connected s.peer with
  | none => some (closedResult, w)
  | some u =>
    match u.busy with
    | some text => some ([.nil, .str text], w)
    | none => (w.finalize i s u).map fun w => ([.num (.int 1)], w)

/-- `ngx_stream_lua_socket_shutdown_pool`, when the memory of a pool goes that the table does not have any more. -/
def collect (p : Nat) (w : Worker) : Worker :=
  match w.pool? p with
  | none => w
  | some pool =>
    if w.registry pool.key = some p then w
    else { pool.cache.foldl (fun w item => w.close item.conn) w with heap := w.heap.set p none }

end Worker

/-! ## Runs -/

/-- What happens to a worker: calls on its sockets, a request or an object that ends, other coroutines that begin or end
to wait for a socket, a read or write that fails, an event on an idle connection, and the memory of a pool that goes. -/
inductive Op where
  | tcp
  | connect (i : Nat) (host : Bytes) (port : Option Int) (pool error : Option Bytes)
  | setkeepalive (i size : Nat) (state : Readiness)
  | close (i : Nat)
  | getreusedtimes (i : Nat)
  | cleanup (i : Nat)
  | wait (i : Nat) (conn read write : Bool)
  | shut (i : Nat) (read write : Bool)
  | event (key : Bytes) (c : Nat) (stale : Bool)
  | collect (p : Nat)

/-- The peer while others wait for it. -/
def Peer.wait (conn read write : Bool) (u : Peer) : Peer :=
  { u with connWaiting := conn, readWaiting := read, writeWaiting := write }

/-- `ngx_stream_lua_socket_tcp_finalize_read_part` and `_write_part`. -/
def Peer.shut (read write : Bool) (u : Peer) : Peer :=
  { u with readClosed := u.readClosed || read, writeClosed := u.writeClosed || write }

/-- `ngx_stream_lua_socket_tcp_getreusedtimes`. -/
def reusedTimes (peer : Option Peer) : List Value :=
  match connected peer with
  | none => closedResult
  | some u => [.num (.int u.reused)]

/-- One of them, and what it returns. -/
def Worker.step (op : Op) (w : Worker) : Option (List Value × Worker) :=
  let on (i : Nat) (f : Sock Nat → Option (List Value × Worker)) := (w.socks[i]?).elim (some ([], w)) f
  match op with
  | .tcp => some ([], { w with socks := w.socks ++ [⟨none, none, none⟩] })
  | .connect i host port pool error => on i fun s => w.connect i host port pool error s
  | .setkeepalive i size state => on i fun s => w.setkeepalive i size state s
  | .close i => on i fun s => w.closeCall i s
  | .getreusedtimes i => on i fun s => some (reusedTimes s.peer, w)
  | .cleanup i => on i fun s => s.peer.elim (some ([], w)) fun u => (w.finalize i s u).map fun w => ([], w)
  | .wait i conn read write => on i fun s =>
    some ([], w.set i { s with peer := s.peer.map (Peer.wait conn read write) })
  | .shut i read write => on i fun s => some ([], w.set i { s with peer := s.peer.map (Peer.shut read write) })
  | .event key c stale =>
    match w.registry key with
    | none => some ([], w)
    | some p =>
      match w.pool? p with
      | none => none
      | some pool =>
        if stale = false ∧ c ∈ pool.cache.map Item.conn then (w.closeHandler p c).map fun w => ([], w)
        else some ([], w)
  | .collect p => some ([], w.collect p)

def Worker.run : List Op → Worker → Option (List (List Value) × Worker)
  | [], w => some ([], w)
  | op :: ops, w =>
    match w.step op with
    | none => none
    | some (ret, w) => (Worker.run ops w).map fun r => (ret :: r.1, r.2)

def Worker.init : Worker := ⟨⟨[], [], 0⟩, fun _ => none, []⟩

end NgProxy.Keepalive
