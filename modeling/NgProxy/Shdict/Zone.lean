/-
`ngx_stream_lua_shdict`: the shared dictionaries. A node hangs in a red-black tree, ordered by the hash of
its key and then by the key, and in a queue, the most recently used node first. Every operation runs under
the lock of the zone's memory. The hash is any function; the rotations of nginx's tree are any that keep the
order of the nodes, and the slab allocator finds memory or does not, as it likes.
-/
import NgProxy.Lib.Prog
import NgProxy.Lib.Search
import NgProxy.Lua.Value
import Mathlib.Logic.Function.Basic

namespace NgProxy.Shdict

open Lua

/-! ## Nodes -/

/-- A stored value with its Lua type. -/
inductive Val where
  | str (s : Bytes)
  | num (n : Number)
  | bool (b : Bool)
  deriving DecidableEq

namespace Val

/-- `value_len`: a number is stored as a double, a boolean as a byte. -/
def len : Val → Nat
  | str s => s.length
  | num _ => 8
  | bool _ => 1

/-- The value, pushed onto the Lua stack. -/
def push : Val → Value
  | str s => .str s
  | num n => .num n
  | bool b => .bool b

end Val

structure Node where
  /-- `node->key`. -/
  hash : UInt32
  key : Bytes
  /-- In milliseconds; 0 means never. -/
  expires : BitVec 64
  flags : BitVec 32
  value : Val
  deriving DecidableEq

namespace Node

/-- `sd->expires - now`, as a signed number. -/
def ms (sd : Node) (now : BitVec 64) : Int := (sd.expires - now).toInt

/-- `lookup` takes the node for expired. -/
def stale (sd : Node) (now : BitVec 64) : Bool := sd.expires ≠ 0 && sd.ms now < 0

/-- `expire` may delete the node without force. -/
def due (sd : Node) (now : BitVec 64) : Bool := sd.expires ≠ 0 && sd.ms now ≤ 0

/-- `flush_expired` deletes the node, and `get_keys` leaves it out. -/
def gone (sd : Node) (now : BitVec 64) : Bool := sd.expires ≠ 0 && sd.expires ≤ now

/-- Where a key lies, seen from the node. -/
def walk (hash : UInt32) (key : Bytes) (sd : Node) : Ordering := (compare hash sd.hash).then (compare key sd.key)

end Node

/-! ## The tree and the queue -/

/-- nginx's tree: an insertion ends with rotations, and a deletion closes the gap; both keep the order. -/
structure Rbtree where
  fixup : BinaryTree Nat → BinaryTree Nat
  fixup_toList : ∀ t, Search.toList (fixup t) = Search.toList t
  delete : Nat → BinaryTree Nat → BinaryTree Nat
  delete_toList : ∀ a t, Search.toList (delete a t) = (Search.toList t).erase a

/-- A tree that is never rotated. -/
def Rbtree.plain : Rbtree := ⟨id, fun _ => rfl, Search.remove, Search.toList_remove⟩

/-- The nodes by their addresses, the tree, the queue, and the address the slab hands out next. -/
structure Zone where
  nodes : Nat → Node
  tree : BinaryTree Nat
  queue : List Nat
  next : Nat

/-- What `lookup` returns besides the node: `NGX_OK`, `NGX_DONE` for an expired node, `NGX_DECLINED`. -/
inductive Found (ρ : Type) where
  | ok (sd : ρ)
  | done (sd : ρ)
  | declined

namespace Zone

/-- `init_zone`. -/
def init : Zone := ⟨fun _ => ⟨0, [], 0, 0, .bool false⟩, .nil, [], 0⟩

/-- `ngx_queue_remove` and `ngx_queue_insert_head`. -/
def touch (a : Nat) (z : Zone) : Zone := { z with queue := a :: z.queue.erase a }

def write (a : Nat) (f : Node → Node) (z : Zone) : Zone := { z with nodes := Function.update z.nodes a (f (z.nodes a)) }

/-- The node leaves the queue and the tree, and its memory is freed. -/
def unlink (rb : Rbtree) (a : Nat) (z : Zone) : Zone := { z with queue := z.queue.erase a, tree := rb.delete a z.tree }

/-- A node in fresh memory: `rbtree_insert_value`, rotations, and the head of the queue. -/
def insert (rb : Rbtree) (sd : Node) (z : Zone) : Zone where
  nodes := Function.update z.nodes z.next sd
  tree := rb.fixup (Search.insert (fun b => Node.walk sd.hash sd.key (z.nodes b)) z.next z.tree)
  queue := z.next :: z.queue
  next := z.next + 1

/-- `lookup`: a node that is found becomes the most recently used one, expired or not. -/
def lookup (hash : Bytes → UInt32) (now : BitVec 64) (key : Bytes) (z : Zone) : Found Nat × Zone :=
  match Search.find (fun a => Node.walk (hash key) key (z.nodes a)) z.tree with
  | none => (.declined, z)
  | some a => (if (z.nodes a).stale now then .done a else .ok a, z.touch a)

/-- The loop of `expire`, `k` rounds before the end; round 0 deletes by force. -/
def expireLoop (rb : Rbtree) (now : BitVec 64) : Nat → Nat → Zone → Nat × Zone
  | 0, _, z => (0, z)
  | k + 1, n, z =>
    match z.queue.getLast? with
    | none => (0, z)
    | some a =>
      if n ≠ 0 ∧ !(z.nodes a).due now then (0, z)
      else
        let r := expireLoop rb now k (n + 1) (z.unlink rb a)
        (r.1 + 1, r.2)

/-- `expire`: how many nodes were freed. -/
def expire (rb : Rbtree) (now : BitVec 64) (n : Nat) (z : Zone) : Nat × Zone := expireLoop rb now (3 - n) n z

end Zone

/-! ## Reading -/

/-- The flags as a Lua value; without flags, nil. -/
def pushFlags (sd : Node) : Value := if sd.flags = 0 then .nil else .num (.int sd.flags.toNat)

/-- What `get` returns for a node. -/
def getReturn (sd : Node) : List Value := if sd.flags = 0 then [sd.value.push] else [sd.value.push, pushFlags sd]

/-- What `get_stale` returns for a node. -/
def staleReturn (sd : Node) (stale : Bool) : List Value := [sd.value.push, pushFlags sd, .bool stale]

def getHelper (rb : Rbtree) (hash : Bytes → UInt32) (getStale : Bool) (now : BitVec 64) (key : Bytes) (z : Zone) :
    List Value × Zone :=
  let z := if getStale then z else (z.expire rb now 1).2
  match z.lookup hash now key with
  | (.declined, z) => ([.nil], z)
  | (.done a, z) => (if getStale then staleReturn (z.nodes a) true else [.nil], z)
  | (.ok a, z) => (if getStale then staleReturn (z.nodes a) false else getReturn (z.nodes a), z)

/-! ## Storing -/

/-- The callers of `set_helper`. -/
inductive Kind where
  | set
  | safeSet
  | add
  | safeAdd
  | replace
  deriving DecidableEq

namespace Kind

/-- `NGX_STREAM_LUA_SHDICT_ADD`. -/
def isAdd : Kind → Bool
  | add => true
  | safeAdd => true
  | _ => false

/-- `NGX_STREAM_LUA_SHDICT_REPLACE`. -/
def isReplace : Kind → Bool
  | replace => true
  | _ => false

/-- `NGX_STREAM_LUA_SHDICT_SAFE_STORE`. -/
def isSafe : Kind → Bool
  | safeSet => true
  | safeAdd => true
  | _ => false

end Kind

def stored (forcible : Bool) : List Value := [.bool true, .nil, .bool forcible]

def refused (err : String) (forcible : Bool) : List Value := [.bool false, .str (bytes err), .bool forcible]

/-- A safe store returns two values when there is no memory. -/
def safeRefused : List Value := [.bool false, .str (bytes "no memory")]

/-- The 30 rounds of a store that finds no memory; `alloc i` is the slab's answer to the request number `i`. -/
def evictLoop (rb : Rbtree) (now : BitVec 64) (alloc : Nat → Bool) (sd : Node) :
    Nat → Nat → Bool → Zone → List Value × Zone
  | 0, _, forcible, z => (refused "no memory" forcible, z)
  | rounds + 1, i, forcible, z =>
    match z.expire rb now 0 with
    | (0, z) => (refused "no memory" forcible, z)
    | (_, z) => if alloc i then (stored true, z.insert rb sd) else evictLoop rb now alloc sd rounds (i + 1) true z

/-- From the label `insert` on; nil is not stored. -/
def insertNode (rb : Rbtree) (now : BitVec 64) (alloc : Nat → Bool) (safe : Bool) (new : Option Node) (z : Zone) :
    List Value × Zone :=
  match new with
  | none => (stored false, z)
  | some sd =>
    if alloc 0 then (stored false, z.insert rb sd)
    else if safe then (safeRefused, z)
    else evictLoop rb now alloc sd 30 1 false z

/-- From the labels `replace` and `remove` on: a value of the same size is overwritten, any other makes the
old node go first. -/
def replaceNode (rb : Rbtree) (now : BitVec 64) (alloc : Nat → Bool) (safe : Bool) (new : Option Node) (a : Nat)
    (z : Zone) : List Value × Zone :=
  match new with
  | none => insertNode rb now alloc safe none (z.unlink rb a)
  | some sd =>
    if sd.value.len = (z.nodes a).value.len then
      (stored false, (z.touch a).write a fun old => { sd with hash := old.hash })
    else insertNode rb now alloc safe (some sd) (z.unlink rb a)

/-- `expires` of a new entry; `ttl` is a positive `exptime` in milliseconds. -/
def expiry (now : BitVec 64) (ttl : Option Nat) : BitVec 64 := ttl.elim 0 fun ms => now + BitVec.ofNat 64 ms

/-- The node a store makes. -/
def newNode (hash : Bytes → UInt32) (now : BitVec 64) (key : Bytes) (ttl : Option Nat) (flags : BitVec 32) (v : Val) :
    Node := ⟨hash key, key, expiry now ttl, flags, v⟩

def setHelper (rb : Rbtree) (hash : Bytes → UInt32) (kind : Kind) (now : BitVec 64) (alloc : Nat → Bool) (key : Bytes)
    (value : Option Val) (ttl : Option Nat) (flags : BitVec 32) (z : Zone) : List Value × Zone :=
  if value.isNone ∧ (kind.isAdd ∨ kind.isReplace) then
    ([.nil, .str (bytes "attempt to add or replace nil values")], z)
  else
    let new := value.map (newNode hash now key ttl flags)
    let r := ((z.expire rb now 1).2).lookup hash now key
    if kind.isReplace then
      match r with
      | (.ok a, z) => replaceNode rb now alloc kind.isSafe new a z
      | (_, z) => (refused "not found" false, z)
    else if kind.isAdd then
      match r with
      | (.ok _, z) => (refused "exists" false, z)
      | (.done a, z) => replaceNode rb now alloc kind.isSafe new a z
      | (.declined, z) => insertNode rb now alloc kind.isSafe new z
    else
      match r with
      | (.ok a, z) => replaceNode rb now alloc kind.isSafe new a z
      | (.done a, z) => replaceNode rb now alloc kind.isSafe new a z
      | (.declined, z) => insertNode rb now alloc kind.isSafe new z

/-! ## The other operations -/

/-- `incr`: the expiry stays as it is. -/
def incr (rb : Rbtree) (hash : Bytes → UInt32) (now : BitVec 64) (key : Bytes) (value : Number) (z : Zone) :
    List Value × Zone :=
  match ((z.expire rb now 1).2).lookup hash now key with
  | (.ok a, z) =>
    match (z.nodes a).value with
    | .num n => ([.num (n.add value), .nil], (z.touch a).write a fun sd => { sd with value := .num (n.add value) })
    | _ => ([.nil, .str (bytes "not a number")], z)
  | (_, z) => ([.nil, .str (bytes "not found")], z)

/-- `flush_all`: everything has expired since the first millisecond; up to three nodes are freed at once. -/
def flushAll (rb : Rbtree) (now : BitVec 64) (z : Zone) : List Value × Zone :=
  ([], (Zone.expire rb now 0
    { z with nodes := fun a => if a ∈ z.queue then { z.nodes a with expires := 1 } else z.nodes a }).2)

/-- The loop of `flush_expired` over the rest of the queue, from its end. -/
def flushLoop (rb : Rbtree) (now : BitVec 64) (attempts : Int) : List Nat → Nat → Zone → Nat × Zone
  | [], freed, z => (freed, z)
  | a :: l, freed, z =>
    if (z.nodes a).gone now then
      if attempts ≠ 0 ∧ (freed + 1 : Nat) = attempts then (freed + 1, z.unlink rb a)
      else flushLoop rb now attempts l (freed + 1) (z.unlink rb a)
    else flushLoop rb now attempts l freed z

def flushExpired (rb : Rbtree) (now : BitVec 64) (attempts : Int) (z : Zone) : List Value × Zone :=
  let r := flushLoop rb now attempts z.queue.reverse 0 z
  ([.num (.int r.1)], r.2)

/-- The second loop of `get_keys`; the first one counts for the size of the table. -/
def keysLoop (now : BitVec 64) (attempts : Int) : List Node → Nat → List Bytes
  | [], _ => []
  | sd :: l, total =>
    if sd.gone now then keysLoop now attempts l total
    else if attempts ≠ 0 ∧ (total + 1 : Nat) = attempts then [sd.key]
    else sd.key :: keysLoop now attempts l (total + 1)

def getKeys (now : BitVec 64) (attempts : Int) (z : Zone) : List Value × Zone :=
  ([.tab ((keysLoop now attempts (z.queue.reverse.map z.nodes) 0).map .str)], z)

/-! ## Calls -/

/-- The checks on a key: its bytes, or what is returned for a refused one. -/
def checkKey (key : Value) : Except LuaError (Except (List Value) Bytes) :=
  if key.isNil then .ok (.error [.nil, .str (bytes "nil key")])
  else
    match key.toStr with
    | none => .error .argument
    | some k =>
      if k = [] then .ok (.error [.nil, .str (bytes "empty key")])
      else if 65535 < k.length then .ok (.error [.nil, .str (bytes "key too long")])
      else .ok (.ok k)

/-- The value `set_helper` is given; nil deletes. -/
def checkValue : Value → Option (Option Val)
  | .nil => some none
  | .str s => some (some (.str s))
  | .num n => some (some (.num n))
  | .bool b => some (some (.bool b))
  | _ => none

/-- A call with its arguments. `exptime` is what is left of it: none unless positive. -/
inductive Op where
  | get (key : Value)
  | getStale (key : Value)
  | store (kind : Kind) (key value : Value) (ttl : Option Nat) (flags : BitVec 32)
  | delete (key : Value)
  | incr (key value : Value)
  | flushAll
  | flushExpired (attempts : Int)
  | getKeys (attempts : Int)

/-- A call, the time it is made, and what the slab answers to its requests for memory. -/
structure Event where
  now : BitVec 64
  alloc : Nat → Bool
  op : Op

/-- The operations behind their checks, on any representation of the dictionary. -/
structure Calls (σ : Type) where
  getHelper (getStale : Bool) (now : BitVec 64) (key : Bytes) : σ → List Value × σ
  setHelper (kind : Kind) (now : BitVec 64) (alloc : Nat → Bool) (key : Bytes) (value : Option Val) (ttl : Option Nat)
    (flags : BitVec 32) : σ → List Value × σ
  incr (now : BitVec 64) (key : Bytes) (value : Number) : σ → List Value × σ
  flushAll (now : BitVec 64) : σ → List Value × σ
  flushExpired (now : BitVec 64) (attempts : Int) : σ → List Value × σ
  getKeys (now : BitVec 64) (attempts : Int) : σ → List Value × σ

section Dispatch

variable {σ : Type}

/-- An operation that does not raise. -/
def quiet (f : σ → List Value × σ) : Prog LuaError σ (List Value) := fun z => (.ok (f z).1, (f z).2)

/-- An operation on a key. -/
def onKey (key : Value) (f : Bytes → Prog LuaError σ (List Value)) : Prog LuaError σ (List Value) :=
  match checkKey key with
  | .error e => Prog.raise e
  | .ok (.error rets) => pure rets
  | .ok (.ok k) => f k

/-- The C functions from the arguments on. -/
def Calls.exec (c : Calls σ) (now : BitVec 64) (alloc : Nat → Bool) : Op → Prog LuaError σ (List Value)
  | .get key => onKey key fun k => quiet (c.getHelper false now k)
  | .getStale key => onKey key fun k => quiet (c.getHelper true now k)
  | .store kind key value ttl flags => onKey key fun k =>
    match checkValue value with
    | none => pure [.nil, .str (bytes "bad value type")]
    | some v => quiet (c.setHelper kind now alloc k v ttl flags)
  | .delete key => onKey key fun k => quiet (c.setHelper .set now alloc k none none 0)
  | .incr key value => onKey key fun k =>
    match value.toNum with
    | none => Prog.raise .argument
    | some n => quiet (c.incr now k n)
  | .flushAll => quiet (c.flushAll now)
  | .flushExpired attempts => quiet (c.flushExpired now attempts)
  | .getKeys attempts => quiet (c.getKeys now attempts)

def Calls.call (c : Calls σ) (e : Event) : Prog LuaError σ (List Value) := c.exec e.now e.alloc e.op

/-- What the calls of a run return, and the dictionary behind them. -/
def Calls.run (c : Calls σ) : List Event → σ → List (Except LuaError (List Value)) × σ
  | [], z => ([], z)
  | e :: es, z => ((c.call e z).1 :: (Calls.run c es (c.call e z).2).1, (Calls.run c es (c.call e z).2).2)

end Dispatch

/-- The calls on a zone. -/
def zoneCalls (rb : Rbtree) (hash : Bytes → UInt32) : Calls Zone where
  getHelper := getHelper rb hash
  setHelper := setHelper rb hash
  incr := incr rb hash
  flushAll := flushAll rb
  flushExpired := flushExpired rb
  getKeys := getKeys

end NgProxy.Shdict
