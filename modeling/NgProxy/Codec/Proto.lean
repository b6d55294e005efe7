/-
`lhlh_redis_proto`: the RESP decoder that reads a cosocket line by line, and the encoder that
builds the table handed to the socket's `send`. Also the constants and `string_split` of
`lhlh_common`, which both sides of the proxy share.
-/
import NgProxy.Lua.Value

namespace NgProxy.Codec

open Lua Text

/-! ## `lhlh_common` -/

def lhlhOk : Int := 0
def lhlhError : Int := -1

def typeIntegerReply : Nat := 58
def typeErrorReply : Nat := 45
def typeStatusReply : Nat := 43
def typeBulkReply : Nat := 36
def typeMultiBulkReply : Nat := 42

def illegalCmd : Bytes := bytes "-ERR ILLEGAL CMD\r\n"
def noAuth : Bytes := bytes "-ERR NO AUTH\r\n"
def serverErr : Bytes := bytes "-ERR SERVER INTERNAL\r\n"
def timeoutErr : Bytes := bytes "ERR REDIS TIMEOUT"

/-- A carriage return and a line feed. -/
def crlf : Bytes := [13, 10]

/-- `string.find` in plain mode: what precedes the first occurrence of `delim`, and what follows it. -/
def breakAt (delim : Bytes) : Bytes → Option (Bytes × Bytes)
  | [] => if delim = [] then some ([], []) else none
  | c :: s =>
    if delim.isPrefixOf (c :: s) then some ([], (c :: s).drop delim.length)
    else (breakAt delim s).map fun p => (c :: p.1, p.2)

/-- The loop of `string_split`: at most `max` cuts, the remainder is the last part. -/
def splitLoop (delim : Bytes) : Nat → Bytes → List Bytes
  | 0, s => [s]
  | max + 1, s =>
    match breakAt delim s with
    | none => [s]
    | some (a, b) => a :: splitLoop delim max b

theorem splitLoop_ne_nil (delim : Bytes) (n : Nat) (s : Bytes) : splitLoop delim n s ≠ [] := by
  unfold splitLoop
  split
  · exact List.cons_ne_nil _ _
  · split <;> exact List.cons_ne_nil _ _

/-- `string_split`. A `max` of nil is written 0: both mean 1000. -/
def stringSplit (str : Option Bytes) (delim : Bytes) (max : Int) : Option (List Bytes) :=
  str.map fun s => splitLoop delim (if max ≤ 0 then 1000 else max.toNat) s

/-! ## The cosocket -/

/-- A socket being read: the bytes still to come and the error reported once they have run out
(`closed`, `timeout`). -/
structure Sock where
  input : Bytes
  fault : Bytes
  deriving DecidableEq

/-- `receive()`: the bytes up to the next line feed, carriage returns dropped. -/
def Sock.receiveLine (s : Sock) : Except Bytes Bytes × Sock :=
  match s.input.dropWhile (· ≠ 10) with
  | [] => (.error s.fault, { s with input := [] })
  | _ :: rest => (.ok ((s.input.takeWhile (· ≠ 10)).filter (· ≠ 13)), { s with input := rest })

/-- `receive(n)`: exactly `n` bytes. -/
def Sock.receive (n : Int) (s : Sock) : Except LuaError (Except Bytes Bytes × Sock) :=
  if n < 0 then .error .argument
  else if n.toNat ≤ s.input.length then
    .ok (.ok (s.input.take n.toNat), { s with input := s.input.drop n.toNat })
  else .ok (.error s.fault, { s with input := [] })

/-! ## Decoding -/

/-- The results of `decode`: a value, the prefix byte and an error. -/
structure Ret where
  val : Value
  pre : Option Nat
  err : Value

/-- The prefix as a Lua value. -/
def preVal : Option Nat → Value
  | none => .nil
  | some p => .num (.int p)

/-- `new_tab(n, 0)`: LuaJIT converts `n` to 32 bits and refuses array parts above its limit. -/
def newTab (n : Number) : Except LuaError Unit :=
  if (maxArr : Int) < n.toInteger ∧ n.toInteger < 2 ^ 31 then .error .overflow else .ok ()

/-- The element loop of an array reply. `dec` is the recursive `decode`. -/
def decodeVals (dec : Sock → Except LuaError (Ret × Sock)) (pre : Nat) :
    Nat → List Value → Sock → Except LuaError (Ret × Sock)
  | 0, vals, s => .ok (⟨.tab vals, some pre, .nil⟩, s)
  | n + 1, vals, s =>
    match dec s with
    | .error e => .error e
    | .ok (r, s) =>
      -- `local res, err = self:decode(..)`: the second result is the element's prefix
      match r.val with
      | .nil => .ok (⟨.nil, some pre, preVal r.pre⟩, s)
      | .bool false => decodeVals dec pre n (vals ++ [.tab [.bool false, preVal r.pre]]) s
      | v => decodeVals dec pre n (vals ++ [v]) s

/-- The `$` branch: the payload and its line end. -/
def decodeBulk (text : Bytes) (s : Sock) : Except LuaError (Ret × Sock) :=
  match tonumber text with
  | none => .error .compare
  | some size =>
    if size.isNeg then .ok (⟨.null, some typeBulkReply, .nil⟩, s)
    else
      match s.receive size.toInteger with
      | .error e => .error e
      | .ok (.error e, s) => .ok (⟨.nil, some typeBulkReply, .str e⟩, s)
      | .ok (.ok data, s) =>
        match s.receive 2 with
        | .error e => .error e
        | .ok (.error e, s) => .ok (⟨.nil, some typeBulkReply, .str e⟩, s)
        | .ok (.ok _, s) => .ok (⟨.str data, some typeBulkReply, .nil⟩, s)

/-- The `*` branch. -/
def decodeMulti (dec : Sock → Except LuaError (Ret × Sock)) (text : Bytes) (s : Sock) :
    Except LuaError (Ret × Sock) :=
  match tonumber text with
  | none => .error .compare
  | some n =>
    if n.isNeg then .ok (⟨.null, some typeMultiBulkReply, .nil⟩, s)
    else
      match newTab n with
      | .error e => .error e
      -- an endless loop ends with the input, since every element takes at least one byte of it
      | .ok () => decodeVals dec typeMultiBulkReply (n.loopCount.getD (s.input.length + 1)) [] s

/-- `decode` with a bound on the nesting depth. -/
def decodeAux : Nat → Sock → Except LuaError (Ret × Sock)
  | 0, _ => .error .fuel
  | fuel + 1, s =>
    match s.receiveLine with
    | (.error e, s) => .ok (⟨.nil, some 0, .str e⟩, s)
    | (.ok [], s) => .ok (⟨.nil, some 0, .nil⟩, s)
    | (.ok (b :: text), s) =>
      if b.toNat = typeBulkReply then decodeBulk text s
      else if b.toNat = typeStatusReply then .ok (⟨.str text, some typeStatusReply, .nil⟩, s)
      else if b.toNat = typeMultiBulkReply then decodeMulti (decodeAux fuel) text s
      else if b.toNat = typeIntegerReply then
        .ok (⟨(tonumber text).elim .nil .num, some typeIntegerReply, .nil⟩, s)
      else if b.toNat = typeErrorReply then .ok (⟨.bool false, some typeErrorReply, .str text⟩, s)
      else
        .ok (⟨.nil, some b.toNat, .str (bytes "unkown prefix: \"" ++ decimal b.toNat ++ bytes "\"")⟩, s)

/-- `decode`. Every nested call has consumed a line, so the input bounds the depth. -/
def decode (s : Sock) : Except LuaError (Ret × Sock) := decodeAux (s.input.length + 1) s

/-! ## Encoding -/

/-- A bulk string of the reply table, the null bulk for nil and `ngx.null`. -/
def encodeArg (arg : Value) : Except LuaError (List Value) :=
  if arg.isNull then .ok [.str (bytes "$"), .num (.int (-1)), .str crlf]
  else
    match arg.len with
    | .error e => .error e
    | .ok n => .ok [.str (bytes "$"), .num (.int n), .str crlf, arg, .str crlf]

def encodeArgs : List Value → Except LuaError (List Value)
  | [] => .ok []
  | a :: l =>
    match encodeArg a with
    | .error e => .error e
    | .ok x =>
      match encodeArgs l with
      | .error e => .error e
      | .ok y => .ok (x ++ y)

/-- `args[1]` to `args[#args]`. -/
def argList (args : Value) (n : Nat) : List Value :=
  match args with
  | .tab l => l
  | _ => List.replicate n .nil

/-- The most elements an array can have for `encode` to build its table. -/
def maxArgs : Nat := 26843545

/-- The table of an array reply, filled element by element behind its header. -/
def multiTab (l : List Value) : Except LuaError (List Value) :=
  (encodeArgs l).map (.str (bytes "*" ++ (Number.int l.length).text ++ crlf) :: ·)

/-- `encode`: the reply table, nil for an unknown prefix. -/
def encode (args : Value) (pre : Option Nat) : Except LuaError (Option (List Value)) :=
  if pre = some typeBulkReply then (encodeArg args).map some
  else if pre = some typeStatusReply then .ok (some [.str (bytes "+"), args, .str crlf])
  else if pre = some typeMultiBulkReply then
    match args.len with
    | .error e => .error e
    | .ok n =>
      -- `new_tab(nargs * 5 + 1, 0)`; where this no longer fits an `int` the table overflows as it grows
      if maxArr < n * 5 + 1 then .error .overflow else (multiTab (argList args n)).map some
  else if pre = some typeIntegerReply then .ok (some [.str (bytes ":"), .str args.tostring, .str crlf])
  else if pre = some typeErrorReply then .ok (some [.str (bytes "-"), args, .str crlf])
  else .ok none

theorem maxArgs_iff (n : Nat) : n * 5 + 1 ≤ maxArr ↔ n ≤ maxArgs := by
  unfold maxArr maxArgs
  omega

end NgProxy.Codec
