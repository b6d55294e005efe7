/-
`ngx_stream_lua_redis_parse` once more, with a trace: every byte it reads, every slice it pushes as a Lua
string, and every length it takes from the header of a bulk string. Apart from the trace it is the parser.
-/
import NgProxy.Lib.Scan
import NgProxy.Stream.Parser

namespace NgProxy.Stream

open Lua Memory Text

/-- The length taken from a header, and where its data starts. -/
structure Header where
  data : Int
  size : Int

abbrev Walk := Scan Header

/-! ## The parser with a trace -/

namespace Walk

open Scan

variable (last : Int)

def findCrlf : Nat → Int → Bool → Walk (Option Int)
  | 0, _, _ => pure none
  | n + 1, p, seenCr =>
    if p = last then pure none
    else do
      let c ← read p
      if c = 13 then findCrlf n (p + 1) true
      else if seenCr ∧ c = 10 then pure (some p)
      else findCrlf n (p + 1) false

def lineSlice (src : Int) : Option Int → Slice
  | none => invalid
  | some p => (src, int32 (p - src - 1))

def parseLine (src : Int) : Walk Slice := do
  let p ← findCrlf last (last - src).toNat src false
  pure (lineSlice src p)

/-- The loops over a header: bytes are taken up to a CR, each by `step`, which may refuse it. -/
def toCr {σ : Type} (step : σ → UInt8 → Option σ) : Nat → Int → σ → Walk (Option (Int × σ))
  | 0, _, _ => pure none
  | n + 1, p, x =>
    if last ≤ p then pure none
    else do
      let c ← read p
      if c = 13 then pure (some (p, x))
      else
        match step x c with
        | none => pure none
        | some x => toCr step n (p + 1) x

/-- The same where only the address of the CR is used: `ok` says which bytes may stand before it. -/
def crAfter (ok : UInt8 → Bool) (n : Nat) (p : Int) : Walk (Option Int) := do
  let r ← toCr last (fun _ c => if ok c then some () else none) n p ()
  pure (r.map Prod.fst)

def skipDigits : Nat → Int → Walk (Option Int) := crAfter last isDigit

def sizeDigit (size : Int) (c : UInt8) : Option Int :=
  if isDigit c then some (int64 (int64 (size * 10) + digitVal c)) else none

def readSize : Nat → Int → Int → Walk (Option (Int × Int)) := toCr last sizeDigit

def nullBulk (p : Int) : Walk Slice := do
  match ← skipDigits last (last - p).toNat p with
  | none => pure invalid
  | some p =>
    if last - p < 2 then pure invalid
    else do
      let c ← read (p + 1)
      if c ≠ 10 then pure invalid else pure (p, -1)

/-- The line end behind the data. -/
def dataEnd (q size : Int) : Walk Slice := do
  let cr ← read (q + size)
  if cr ≠ 13 then pure invalid
  else do
    let lf ← read (q + size + 1)
    if lf ≠ 10 then pure invalid else pure (q, int32 size)

def bulkData (p size : Int) : Walk Slice :=
  if last ≤ p + 1 then pure invalid
  else do
    let c ← read (p + 1)
    if c ≠ 10 then pure invalid
    else do
      note ⟨p + 2, size⟩
      if last - (p + 2) < int64 (size + 2) then pure invalid else dataEnd (p + 2) size

def parseBulk (src : Int) : Walk Slice :=
  if last ≤ src then pure invalid
  else do
    let c ← read src
    if c = 45 then nullBulk last (src + 1)
    else
      match ← readSize last (last - src).toNat src 0 with
      | none => pure invalid
      | some (p, size) => bulkData last p size

def skipLine : Nat → Int → Walk (Option Int) := crAfter last fun _ => true

def readCount : Nat → Int → Int → Walk (Option (Int × Int))
  | 0, _, _ => pure none
  | n + 1, p, count =>
    if last ≤ p then pure none
    else do
      let c ← read p
      if c = 13 then pure (some (p, count))
      else if c = 45 then
        if last ≤ p + 1 then pure none
        else do
          let d ← read (p + 1)
          if isDigit d then do
            let q ← skipLine last (last - (p + 1)).toNat (p + 1)
            pure (q.map fun q => (q, -1))
          else pure none
      else if isDigit c then readCount n (p + 1) (int32 (int32 (count * 10) + digitVal c))
      else pure none

def parseElement (p : Int) : Walk Slice :=
  if last ≤ p then pure invalid
  else do
    let c ← read p
    if c = 43 ∨ c = 45 ∨ c = 58 then parseLine last (p + 1)
    else if c = 36 then parseBulk last (p + 1)
    else pure invalid

/-- `lua_pushnil` or `lua_pushlstring`. -/
def sliceValue (d : Slice) : Walk (Value × Int) :=
  if d.2 = -1 then pure (.nil, d.1 + 2)
  else do
    let s ← copy d.1 d.2
    pure (.str s, d.1 + d.2 + 2)

def elements : Nat → Int → Walk (Option (List Value × Int))
  | 0, p => pure (some ([], p))
  | n + 1, p => do
    let d ← parseElement last p
    if d.2 = -2 then pure none
    else do
      let v ← sliceValue d
      let r ← elements n v.2
      pure (r.map fun r => (v.1 :: r.1, r.2))

/-- The array behind a header whose CR is at `p`. -/
def arrayBody (p count : Int) : Walk (Except LuaError (Option (Value × Int))) :=
  if last ≤ p + 1 then pure (.ok none)
  else do
    let c ← read (p + 1)
    if c ≠ 10 then pure (.ok none)
    else if count = -1 then pure (.ok (some (.nil, p + 2)))
    else if maxArr < count then pure (.error .overflow)
    else do
      let r ← elements last count.toNat (p + 2)
      pure (.ok (r.map fun r => (.tab r.1, r.2)))

def parseMultiBulk (src : Int) : Walk (Except LuaError (Option (Value × Int))) :=
  if last ≤ src then pure (.ok none)
  else do
    match ← readCount last (last - src).toNat src 0 with
    | none => pure (.ok none)
    | some (p, count) => arrayBody last p count

def lineReply (src : Int) (type : ReplyType) (value : Bytes → Value) (message : String) : Walk Parsed := do
  let d ← parseLine last (src + 1)
  if d.2 = -2 then pure (badReply src message)
  else do
    let s ← copy d.1 d.2
    pure ⟨value s, type, src + int32 (d.2 + 1) + 2⟩

def bulkReply (src : Int) : Walk Parsed := do
  let d ← parseBulk last (src + 1)
  if d.2 = -2 then pure (badReply src "bad bulk reply")
  else do
    let v ← sliceValue d
    pure ⟨v.1, .bulk, v.2⟩

def multiBulkReply (src : Int) : Walk (Except LuaError Parsed) := do
  let r ← parseMultiBulk last (src + 1)
  pure (r.map (multiReply src))

/-- `ngx_stream_lua_redis_parse` and its accesses. -/
def redisParse (src : Int) : Walk (Except LuaError Parsed) :=
  if last = src then pure (.ok (badReply src "empty reply"))
  else do
    let c ← read src
    if c = 43 then .ok <$> lineReply last src .status .str "bad status reply"
    else if c = 45 then .ok <$> lineReply last src .error .str "bad error reply"
    else if c = 58 then
      .ok <$> lineReply last src .integer (fun t => .num ((tonumber t).getD (.int 0))) "bad integer reply"
    else if c = 36 then .ok <$> bulkReply last src
    else if c = 42 then multiBulkReply last src
    else pure (.ok (badReply src "invalid reply"))

/-! ## It is the parser -/

section Value

variable (mem : Mem)

theorem findCrlf_value (n : Nat) (p : Int) (seenCr : Bool) :
    (findCrlf last n p seenCr).value mem = Stream.findCrlf mem last n p seenCr := by
  induction n generalizing p seenCr with
  | zero => rfl
  | succ n ih =>
    simp only [findCrlf, Stream.findCrlf, value_ite, value_bind, value_pure, ih]
    rfl

theorem parseLine_value (src : Int) : (parseLine last src).value mem = Stream.parseLine mem last src := by
  simp only [parseLine, Stream.parseLine, value_bind, value_pure, findCrlf_value]
  cases Stream.findCrlf mem last (last - src).toNat src false <;> rfl

theorem toCr_succ_value {σ : Type} (step : σ → UInt8 → Option σ) (n : Nat) (p : Int) (x : σ) :
    (toCr last step (n + 1) p x).value mem =
      if last ≤ p then none
      else if mem p = 13 then some (p, x)
      else (step x (mem p)).bind fun y => (toCr last step n (p + 1) y).value mem := by
  simp only [toCr, value_ite, value_bind, value_pure]
  cases hs : step x (mem p)
  all_goals
    rw [show step x ((Scan.read p : Walk UInt8).value mem) = _ from hs]
    rfl

theorem crAfter_succ_value (ok : UInt8 → Bool) (n : Nat) (p : Int) :
    (crAfter last ok (n + 1) p).value mem =
      if last ≤ p then none
      else if mem p = 13 then some p
      else if ok (mem p) then (crAfter last ok n (p + 1)).value mem
      else none := by
  simp only [crAfter, value_bind, value_pure]
  rw [toCr_succ_value]
  split_ifs <;> rfl

theorem skipDigits_value (n : Nat) (p : Int) :
    (skipDigits last n p).value mem = Stream.skipDigits mem last n p := by
  induction n generalizing p with
  | zero => rfl
  | succ n ih =>
    unfold skipDigits at ih ⊢
    rw [crAfter_succ_value, Stream.skipDigits, digitAt, ih]

theorem readSize_value (n : Nat) (p size : Int) :
    (readSize last n p size).value mem = Stream.readSize mem last n p size := by
  induction n generalizing p size with
  | zero => rfl
  | succ n ih =>
    unfold readSize at ih ⊢
    rw [toCr_succ_value, Stream.readSize, digitAt, sizeDigit]
    split_ifs
    · rfl
    · rfl
    · exact ih (p + 1) _
    · rfl

theorem nullBulk_value (p : Int) : (nullBulk last p).value mem = Stream.nullBulk mem last p := by
  simp only [nullBulk, Stream.nullBulk, value_bind, skipDigits_value]
  cases Stream.skipDigits mem last (last - p).toNat p with
  | none => rfl
  | some p =>
    simp only [value_ite, value_bind, value_pure]
    rfl

theorem bulkData_value (p size : Int) : (bulkData last p size).value mem = Stream.bulkData mem last p size := by
  simp only [bulkData, dataEnd, Stream.bulkData, value_ite, value_bind, value_pure]
  rfl

theorem parseBulk_value (src : Int) : (parseBulk last src).value mem = Stream.parseBulk mem last src := by
  simp only [parseBulk, Stream.parseBulk, value_ite, value_bind, value_pure, nullBulk_value, readSize_value]
  cases Stream.readSize mem last (last - src).toNat src 0 with
  | none => rfl
  | some r =>
    simp only [bulkData_value]
    rfl

theorem skipLine_value (n : Nat) (p : Int) : (skipLine last n p).value mem = Stream.skipLine mem last n p := by
  induction n generalizing p with
  | zero => rfl
  | succ n ih =>
    unfold skipLine at ih ⊢
    rw [crAfter_succ_value, Stream.skipLine, if_pos rfl, ih]

theorem readCount_value (n : Nat) (p count : Int) :
    (readCount last n p count).value mem = Stream.readCount mem last n p count := by
  induction n generalizing p count with
  | zero => rfl
  | succ n ih =>
    simp only [readCount, Stream.readCount, value_ite, value_bind, value_pure, skipLine_value, ih]
    rfl

theorem parseElement_value (p : Int) : (parseElement last p).value mem = Stream.parseElement mem last p := by
  simp only [parseElement, Stream.parseElement, value_ite, value_bind, value_pure, parseLine_value, parseBulk_value]
  rfl

theorem sliceValue_value (d : Slice) : (sliceValue d).value mem = Stream.sliceValue mem d := by
  simp only [sliceValue, Stream.sliceValue, value_ite, value_bind, value_copy, value_pure]

theorem elements_value (n : Nat) (p : Int) : (elements last n p).value mem = Stream.elements mem last n p := by
  induction n generalizing p with
  | zero => rfl
  | succ n ih =>
    simp only [elements, Stream.elements, value_ite, value_bind, value_pure, parseElement_value, sliceValue_value, ih]

theorem parseMultiBulk_value (src : Int) :
    (parseMultiBulk last src).value mem = Stream.parseMultiBulk mem last src := by
  simp only [parseMultiBulk, Stream.parseMultiBulk, value_ite, value_bind, value_pure, readCount_value]
  cases Stream.readCount mem last (last - src).toNat src 0 with
  | none => rfl
  | some r =>
    simp only [arrayBody, value_ite, value_bind, value_pure, elements_value]
    rfl

theorem lineReply_value (src : Int) (type : ReplyType) (value : Bytes → Value) (message : String) :
    (lineReply last src type value message).value mem = Stream.lineReply mem last src type value message := by
  simp only [lineReply, Stream.lineReply, value_ite, value_bind, value_copy, value_pure, parseLine_value]

theorem bulkReply_value (src : Int) : (bulkReply last src).value mem = Stream.bulkReply mem last src := by
  simp only [bulkReply, Stream.bulkReply, value_ite, value_bind, value_pure, parseBulk_value, sliceValue_value]

theorem multiBulkReply_value (src : Int) :
    (multiBulkReply last src).value mem = Stream.multiBulkReply mem last src := by
  simp only [multiBulkReply, Stream.multiBulkReply, value_bind, value_pure, parseMultiBulk_value]

/-- The accesses aside, it is the parser. -/
theorem redisParse_value (src : Int) : (redisParse last src).value mem = Stream.redisParse mem last src := by
  simp only [redisParse, Stream.redisParse, value_ite, value_bind, value_map, value_pure, lineReply_value,
    bulkReply_value, multiBulkReply_value]
  rfl

end Value

end Walk

end NgProxy.Stream
