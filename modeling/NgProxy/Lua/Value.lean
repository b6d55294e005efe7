/-
Lua values as the proxy's modules pass them around, the Lua errors they can raise, and the
flattening of a reply table by the socket's `send`
(`ngx_stream_lua_calc_strlen_in_table` and `ngx_stream_lua_copy_str_in_table`).
-/
import NgProxy.Lua.Number

namespace NgProxy.Lua

/-- A Lua value: `null` is `ngx.null`, a table is its array part. -/
inductive Value where
  | nil
  | null
  | bool (b : Bool)
  | num (n : Number)
  | str (s : Bytes)
  | tab (l : List Value)
  deriving Repr

/-- Why a Lua chunk raised. -/
inductive LuaError where
  /-- A comparison of a number with nil. -/
  | compare
  /-- `#` of a value that is neither string nor table. -/
  | length
  /-- Indexing nil, a number or `ngx.null`. -/
  | index
  /-- Assigning a table entry whose key is nil or NaN. -/
  | key
  /-- Arithmetic on a value that is not a number. -/
  | arith
  /-- A bad argument to a library function. -/
  | argument
  /-- A table above LuaJIT's size limit. -/
  | overflow
  /-- `unpack` of more values than fit on the stack. -/
  | unpack
  /-- A value `send` refuses. -/
  | badType
  /-- Reading a file failed. -/
  | read
  /-- No error: a loop that never ends, so that nothing is returned either. -/
  | endless
  /-- The model's recursion bound; never reached (`decode_fuel`). -/
  | fuel
  deriving DecidableEq, Repr

/-- The longest string LuaJIT holds (`LJ_MAX_STR`). -/
def maxStr : Nat := 0x7fffff00

/-- The largest array LuaJIT allocates (`LJ_MAX_ASIZE` less the unused slot 0). -/
def maxArr : Nat := 0x8000000

namespace Value

/-- Lua's truth: everything but `nil` and `false`. -/
def truthy : Value → Bool
  | .nil => false
  | .bool b => b
  | _ => true

/-- The length operator `#`. -/
def len : Value → Except LuaError Nat
  | .str s => .ok s.length
  | .tab l => .ok l.length
  | _ => .error .length

/-- `v[i]` for a positive integer `i`; a string has no such field. -/
def index (v : Value) (i : Nat) : Except LuaError Value :=
  match v with
  | .tab l => .ok (l.getD (i - 1) .nil)
  | .str _ => .ok .nil
  | _ => .error .index

/-- `v == nil`. -/
def isNil : Value → Bool
  | .nil => true
  | _ => false

theorem isNil_iff (v : Value) : v.isNil = true ↔ v = .nil := by
  cases v <;> simp [isNil]

/-- `v == ngx.null or v == nil`. -/
def isNull : Value → Bool
  | .nil => true
  | .null => true
  | _ => false

/-- `v == s` for a string `s`. -/
def eqStr : Value → Bytes → Bool
  | .str t, s => t == s
  | _, _ => false

theorem eqStr_iff (v : Value) (s : Bytes) : v.eqStr s = true ↔ v = .str s := by
  cases v <;> simp [eqStr]

/-- `v == w`. Tables are compared by identity, and no table is compared with itself here. -/
def rawEq : Value → Value → Bool
  | .nil, .nil => true
  | .null, .null => true
  | .bool a, .bool b => a == b
  | .num a, .num b => a == b && a != .nan
  | .str s, .str t => s == t
  | _, _ => false

@[simp] theorem rawEq_str (v : Value) (s : Bytes) : v.rawEq (.str s) = v.eqStr s := by
  cases v <;> rfl

/-- The string a library function reads: numbers are converted, anything else is refused. -/
def toStr : Value → Option Bytes
  | .str s => some s
  | .num n => some n.text
  | _ => none

/-- `tostring`. The address in a table's text is not modelled. -/
def tostring : Value → Bytes
  | .nil => bytes "nil"
  | .null => bytes "userdata: NULL"
  | .bool b => if b then bytes "true" else bytes "false"
  | .num n => n.text
  | .str s => s
  | .tab _ => bytes "table"

/-- The number an arithmetic operator reads: numeric strings are converted. -/
def toNum : Value → Option Number
  | .num n => some n
  | .str s => tonumber s
  | _ => none

end Value

/-! ## Flattening -/

mutual

/-- One entry of a reply table: strings and numbers are copied, tables are flattened depth first,
nil, booleans and userdata are refused. -/
def flat : Value → Except LuaError Bytes
  | .str s => .ok s
  | .num n => .ok n.text
  | .tab l => flatTab l
  | .nil => .error .badType
  | .null => .error .badType
  | .bool _ => .error .badType

/-- A reply table, entry by entry. -/
def flatTab : List Value → Except LuaError Bytes
  | [] => .ok []
  | v :: l =>
    match flat v with
    | .error e => .error e
    | .ok a =>
      match flatTab l with
      | .error e => .error e
      | .ok b => .ok (a ++ b)

end

@[simp] theorem flat_str (s : Bytes) : flat (.str s) = .ok s := by simp [flat]

@[simp] theorem flat_num (n : Number) : flat (.num n) = .ok n.text := by simp [flat]

@[simp] theorem flat_tab (l : List Value) : flat (.tab l) = flatTab l := by simp [flat]

@[simp] theorem flatTab_nil : flatTab [] = .ok [] := by simp [flatTab]

theorem flatTab_cons_ok {v : Value} {l : List Value} {a b : Bytes} (hv : flat v = .ok a) (hl : flatTab l = .ok b) :
    flatTab (v :: l) = .ok (a ++ b) := by
  rw [flatTab, hv, hl]

theorem flatTab_append_ok {l m : List Value} {a b : Bytes} (hl : flatTab l = .ok a) (hm : flatTab m = .ok b) :
    flatTab (l ++ m) = .ok (a ++ b) := by
  induction l generalizing a with
  | nil => rw [flatTab_nil] at hl; cases hl; simpa using hm
  | cons v l ih =>
    rw [flatTab] at hl
    rcases hv : flat v with e | x <;> rw [hv] at hl
    · cases hl
    · rcases hr : flatTab l with e | y <;> rw [hr] at hl
      · cases hl
      · cases hl
        rw [List.cons_append, flatTab_cons_ok hv (ih hr), List.append_assoc]

end NgProxy.Lua
