/-
`ngx_stream_lua_redis_parse`, the parser behind `ngx.redis_decode`: it walks a pointer over the buffer,
takes a length or a count from a header and hands out slices of the buffer. Lengths are 64-bit integers,
counts and the lengths of slices 32-bit ones.
-/
import NgProxy.Lib.Memory
import NgProxy.Codec.RoundTrip

namespace NgProxy.Stream

open Lua Memory Text

/-- The reply types `redis_decode` returns besides the value. -/
inductive ReplyType where
  | bad
  | status
  | error
  | integer
  | bulk
  | multiBulk
  deriving DecidableEq, Repr

section Parser

variable (mem : Mem) (last : Int)

/-! ## Lines -/

/-- A slice of the buffer: its address and `dst_len`, which is `-2` when there is none and `-1` for nil. -/
abbrev Slice := Int × Int

/-- `NULL` and `-2`. -/
def invalid : Slice := (0, -2)

/-- The address of the LF of the first CR LF, among so many bytes at most. -/
def findCrlf : Nat → Int → Bool → Option Int
  | 0, _, _ => none
  | n + 1, p, seenCr =>
    if p = last then none
    else if mem p = 13 then findCrlf n (p + 1) true
    else if seenCr ∧ mem p = 10 then some p
    else findCrlf n (p + 1) false

/-- `ngx_stream_lua_redis_parse_line`: up to the first CR LF. -/
def parseLine (src : Int) : Slice :=
  match findCrlf mem last (last - src).toNat src false with
  | none => invalid
  | some p => (src, int32 (p - src - 1))

/-! ## Bulk strings -/

/-- `*p < '0' || *p > '9'`, negated. -/
def digitAt (p : Int) : Bool := isDigit (mem p)

/-- The digits of a negative length, which are not read: the address of the CR behind them. -/
def skipDigits : Nat → Int → Option Int
  | 0, _ => none
  | n + 1, p =>
    if last ≤ p then none
    else if mem p = 13 then some p
    else if digitAt mem p then skipDigits n (p + 1)
    else none

/-- The digits of a length: the address of the CR behind them and the value. -/
def readSize : Nat → Int → Int → Option (Int × Int)
  | 0, _, _ => none
  | n + 1, p, size =>
    if last ≤ p then none
    else if mem p = 13 then some (p, size)
    else if digitAt mem p then readSize n (p + 1) (int64 (int64 (size * 10) + digitVal (mem p)))
    else none

/-- A negative length: nil, at the address of its CR. -/
def nullBulk (p : Int) : Slice :=
  match skipDigits mem last (last - p).toNat p with
  | none => invalid
  | some p => if last - p < 2 then invalid else if mem (p + 1) ≠ 10 then invalid else (p, -1)

/-- The data behind a header whose CR is at `p`. -/
def bulkData (p size : Int) : Slice :=
  if last ≤ p + 1 then invalid
  else if mem (p + 1) ≠ 10 then invalid
  else if last - (p + 2) < int64 (size + 2) then invalid
  else if mem (p + 2 + size) ≠ 13 then invalid
  else if mem (p + 2 + size + 1) ≠ 10 then invalid
  else (p + 2, int32 size)

/-- `ngx_stream_lua_redis_parse_bulk`. -/
def parseBulk (src : Int) : Slice :=
  if last ≤ src then invalid
  else if mem src = 45 then nullBulk mem last (src + 1)
  else
    match readSize mem last (last - src).toNat src 0 with
    | none => invalid
    | some (p, size) => bulkData mem last p size

/-! ## Arrays -/

/-- To the CR of a header. -/
def skipLine : Nat → Int → Option Int
  | 0, _ => none
  | n + 1, p => if last ≤ p then none else if mem p = 13 then some p else skipLine n (p + 1)

/-- The count: a `-` and a digit anywhere in it make it `-1`. -/
def readCount : Nat → Int → Int → Option (Int × Int)
  | 0, _, _ => none
  | n + 1, p, count =>
    if last ≤ p then none
    else if mem p = 13 then some (p, count)
    else if mem p = 45 then
      if last ≤ p + 1 then none
      else if digitAt mem (p + 1) then (skipLine mem last (last - (p + 1)).toNat (p + 1)).map fun p => (p, -1)
      else none
    else if digitAt mem p then readCount n (p + 1) (int32 (int32 (count * 10) + digitVal (mem p)))
    else none

/-- One element: a line of any type, or a bulk string. -/
def parseElement (p : Int) : Slice :=
  if last ≤ p then invalid
  else if mem p = 43 ∨ mem p = 45 ∨ mem p = 58 then parseLine mem last (p + 1)
  else if mem p = 36 then parseBulk mem last (p + 1)
  else invalid

/-- The value of a slice, and the address behind its line end. -/
def sliceValue (d : Slice) : Value × Int :=
  if d.2 = -1 then (.nil, d.1 + 2) else (.str (slice mem d.1 d.2.toNat), d.1 + d.2 + 2)

/-- The loop over the elements. -/
def elements : Nat → Int → Option (List Value × Int)
  | 0, p => some ([], p)
  | n + 1, p =>
    let d := parseElement mem last p
    if d.2 = -2 then none
    else (elements n (sliceValue mem d).2).map fun r => ((sliceValue mem d).1 :: r.1, r.2)

/-- `ngx_stream_lua_redis_parse_multi_bulk`: the value and the address behind it, nothing for
`PARSE_ERROR`. `lua_createtable` raises when the count is above LuaJIT's limit. -/
def parseMultiBulk (src : Int) : Except LuaError (Option (Value × Int)) :=
  if last ≤ src then .ok none
  else
    match readCount mem last (last - src).toNat src 0 with
    | none => .ok none
    | some (p, count) =>
      if last ≤ p + 1 then .ok none
      else if mem (p + 1) ≠ 10 then .ok none
      else if count = -1 then .ok (some (.nil, p + 2))
      else if maxArr < count then .error .overflow
      else .ok ((elements mem last count.toNat (p + 2)).map fun r => (.tab r.1, r.2))

/-! ## Replies -/

/-- What `ngx_stream_lua_redis_parse` pushes, and where it leaves `*src`. -/
structure Parsed where
  value : Value
  type : ReplyType
  src : Int

/-- A reply that cannot be parsed: a message, and the pointer stays. -/
def badReply (src : Int) (message : String) : Parsed := ⟨.str (bytes message), .bad, src⟩

/-- A reply of one line: `*src += dst_len + 1 + sizeof("\r\n") - 1`, whose first sum is one of ints. -/
def lineReply (src : Int) (type : ReplyType) (value : Bytes → Value) (message : String) : Parsed :=
  let d := parseLine mem last (src + 1)
  if d.2 = -2 then badReply src message
  else ⟨value (slice mem d.1 d.2.toNat), type, src + int32 (d.2 + 1) + 2⟩

def bulkReply (src : Int) : Parsed :=
  let d := parseBulk mem last (src + 1)
  if d.2 = -2 then badReply src "bad bulk reply"
  else ⟨(sliceValue mem d).1, .bulk, (sliceValue mem d).2⟩

def multiReply (src : Int) : Option (Value × Int) → Parsed
  | none => badReply src "bad multi bulk reply"
  | some (v, p) => ⟨v, .multiBulk, p⟩

def multiBulkReply (src : Int) : Except LuaError Parsed :=
  (parseMultiBulk mem last (src + 1)).map (multiReply src)

/-- `ngx_stream_lua_redis_parse`. -/
def redisParse (src : Int) : Except LuaError Parsed :=
  if last = src then .ok (badReply src "empty reply")
  else if mem src = 43 then .ok (lineReply mem last src .status .str "bad status reply")
  else if mem src = 45 then .ok (lineReply mem last src .error .str "bad error reply")
  else if mem src = 58 then
    .ok (lineReply mem last src .integer (fun t => .num ((tonumber t).getD (.int 0))) "bad integer reply")
  else if mem src = 36 then .ok (bulkReply mem last src)
  else if mem src = 42 then multiBulkReply mem last src
  else .ok (badReply src "invalid reply")

end Parser

/-- `ngx.redis_decode` of a string; `outside` is the memory around it. -/
def redisDecode (outside : Mem) (b : Bytes) : Except LuaError Parsed := redisParse (load b outside) b.length 0

end NgProxy.Stream
