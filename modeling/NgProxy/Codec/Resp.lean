/-
RESP replies as a type, their wire form, and what `decode` makes of them: reading the wire form of
a well-formed reply returns the reply's value, prefix and error and leaves exactly the bytes after
it, at every nesting depth.
-/
import NgProxy.Codec.Proto

namespace NgProxy.Codec

open Lua Text

/-! ## Replies -/

/-- A RESP reply. -/
inductive Reply where
  | status (s : Bytes)
  | error (s : Bytes)
  | int (n : Int)
  | bulk (s : Bytes)
  | nilBulk
  | nilArray
  | array (l : List Reply)
  deriving Repr

mutual

/-- The wire form of a reply. -/
def Reply.bytes : Reply → Bytes
  | .status s => 43 :: (s ++ crlf)
  | .error s => 45 :: (s ++ crlf)
  | .int n => 58 :: (decimalInt n ++ crlf)
  | .bulk s => 36 :: (decimal s.length ++ crlf ++ s ++ crlf)
  | .nilBulk => NgProxy.bytes "$-1\r\n"
  | .nilArray => NgProxy.bytes "*-1\r\n"
  | .array l => 42 :: (decimal l.length ++ crlf ++ Reply.bytesList l)

def Reply.bytesList : List Reply → Bytes
  | [] => []
  | r :: l => r.bytes ++ Reply.bytesList l

end

/-- A line of text holds no carriage return and no line feed. -/
def isLine (s : Bytes) : Bool := s.all fun b => b != 13 && b != 10

mutual

/-- Well formed: lines are lines, integers have 64 bits, and strings and arrays are no longer than
a Lua string or table. -/
def Reply.wf : Reply → Bool
  | .status s => isLine s
  | .error s => isLine s
  | .int n => decide (-2 ^ 63 ≤ n) && decide (n < 2 ^ 63)
  | .bulk s => decide (s.length ≤ maxStr)
  | .nilBulk => true
  | .nilArray => true
  | .array l => decide (l.length ≤ maxArr) && Reply.wfList l

def Reply.wfList : List Reply → Bool
  | [] => true
  | r :: l => r.wf && Reply.wfList l

end

mutual

/-- Well formed, with arrays of any length. -/
def Reply.wellFormed : Reply → Bool
  | .array l => Reply.wellFormedList l
  | r => r.wf

def Reply.wellFormedList : List Reply → Bool
  | [] => true
  | r :: l => r.wellFormed && Reply.wellFormedList l

end

/-- The double nearest to an integer. -/
def toDouble (n : Int) : Number := ofRatio (decide (n < 0)) n.natAbs 1

mutual

/-- The Lua value of a reply inside an array. An error element keeps only its prefix. -/
def Reply.val : Reply → Value
  | .status s => .str s
  | .error _ => .tab [.bool false, .num (.int 45)]
  | .int n => .num (toDouble n)
  | .bulk s => .str s
  | .nilBulk => .null
  | .nilArray => .null
  | .array l => .tab (Reply.vals l)

def Reply.vals : List Reply → List Value
  | [] => []
  | r :: l => r.val :: Reply.vals l

end

/-- The results of decoding a reply. -/
def Reply.ret : Reply → Ret
  | .status s => ⟨.str s, some typeStatusReply, .nil⟩
  | .error s => ⟨.bool false, some typeErrorReply, .str s⟩
  | .int n => ⟨.num (toDouble n), some typeIntegerReply, .nil⟩
  | .bulk s => ⟨.str s, some typeBulkReply, .nil⟩
  | .nilBulk => ⟨.null, some typeBulkReply, .nil⟩
  | .nilArray => ⟨.null, some typeMultiBulkReply, .nil⟩
  | .array l => ⟨.tab (Reply.vals l), some typeMultiBulkReply, .nil⟩

def Reply.isError : Reply → Bool
  | .error _ => true
  | _ => false

theorem Reply.eq_error {r : Reply} (h : r.isError = true) : ∃ s, r = .error s := by
  cases r with
  | error s => exact ⟨s, rfl⟩
  | _ => cases h

/-- Every reply but an error decodes to a value without error. -/
theorem Reply.ret_value {r : Reply} (h : r.isError = false) : ∃ v pre, r.ret = ⟨v, pre, .nil⟩ ∧ v.isNil = false := by
  cases r with
  | error s => cases h
  | _ => exact ⟨_, _, rfl, rfl⟩

/-- Induction over replies: an array after its elements. -/
@[induction_eliminator]
theorem Reply.ind {P : Reply → Prop} (status : ∀ s, P (.status s)) (error : ∀ s, P (.error s))
    (int : ∀ n, P (.int n)) (bulk : ∀ s, P (.bulk s)) (nilBulk : P .nilBulk) (nilArray : P .nilArray)
    (array : ∀ l, (∀ r ∈ l, P r) → P (.array l)) : ∀ r, P r
  | .status s => status s
  | .error s => error s
  | .int n => int n
  | .bulk s => bulk s
  | .nilBulk => nilBulk
  | .nilArray => nilArray
  | .array l => array l fun r hr =>
    have := List.sizeOf_lt_of_mem hr
    Reply.ind status error int bulk nilBulk nilArray array r

theorem wfList_mem {l : List Reply} (h : Reply.wfList l = true) : ∀ r ∈ l, r.wf = true := by
  induction l with
  | nil => intro r hr; cases hr
  | cons a l ih =>
    simp only [Reply.wfList, Bool.and_eq_true] at h
    intro r hr
    rcases List.mem_cons.1 hr with rfl | hr
    · exact h.1
    · exact ih h.2 r hr

theorem wfList_of_mem {l : List Reply} (h : ∀ r ∈ l, r.wf = true) : Reply.wfList l = true := by
  induction l with
  | nil => rfl
  | cons a l ih =>
    rw [Reply.wfList, h a (List.mem_cons_self ..), ih fun r hr => h r (List.mem_cons_of_mem _ hr)]
    rfl

theorem bytes_pos (r : Reply) : 0 < r.bytes.length := by
  cases r <;> simp [Reply.bytes, bytes]

theorem length_le_bytesList {l : List Reply} {r : Reply} (hr : r ∈ l) :
    r.bytes.length ≤ (Reply.bytesList l).length := by
  induction l with
  | nil => cases hr
  | cons a l ih =>
    simp only [Reply.bytesList, List.length_append]
    rcases List.mem_cons.1 hr with rfl | hr
    · omega
    · have := ih hr; omega

theorem count_le_bytesList (l : List Reply) : l.length ≤ (Reply.bytesList l).length := by
  induction l with
  | nil => exact Nat.le_refl _
  | cons r l ih =>
    have := bytes_pos r
    simp only [Reply.bytesList, List.length_cons, List.length_append]
    omega

theorem bulk_bytes (s rest : Bytes) : (Reply.bulk s).bytes ++ rest =
    36 :: (decimal s.length ++ 13 :: 10 :: (s ++ 13 :: 10 :: rest)) := by
  simp [Reply.bytes, crlf]

theorem bulk_length (s : Bytes) : (Reply.bulk s).bytes.length = 1 + (decimal s.length).length + 2 + s.length + 2 := by
  simp [Reply.bytes, crlf]
  omega

theorem array_bytes (l : List Reply) (rest : Bytes) : (Reply.array l).bytes ++ rest =
    42 :: (decimal l.length ++ 13 :: 10 :: (Reply.bytesList l ++ rest)) := by
  simp [Reply.bytes, crlf]

theorem array_length (l : List Reply) :
    (Reply.array l).bytes.length = 1 + (decimal l.length).length + 2 + (Reply.bytesList l).length := by
  simp [Reply.bytes, crlf]
  omega

theorem vals_eq_map (l : List Reply) : Reply.vals l = l.map Reply.val := by
  induction l with
  | nil => simp [Reply.vals]
  | cons a l ih => simp [Reply.vals, ih]

theorem isLine_mem {s : Bytes} (h : isLine s = true) : ∀ b ∈ s, b ≠ 13 ∧ b ≠ 10 := by
  intro b hb
  have := List.all_eq_true.1 h b hb
  simpa using this

theorem toDouble_small (n : Int) (h : n.natAbs ≤ 2 ^ 53) : toDouble n = .int n := by
  unfold toDouble
  rw [ofRatio_int _ _ h]
  simp only [signed, decide_eq_true_eq, Number.int.injEq]
  split <;> omega

theorem tonumber_toDouble (n : Int) : tonumber (decimalInt n) = some (toDouble n) := by
  unfold decimalInt toDouble
  split
  · rename_i hn
    rw [tonumber_neg_digits _ (decimal_ne_nil _) (decimal_isDigit _), readNat_decimal, decide_eq_true hn]
  · rename_i hn
    rw [tonumber_digits _ (decimal_ne_nil _) (decimal_isDigit _), readNat_decimal, decide_eq_false hn]

/-- The nearest double keeps an integer's text exactly when that has at most fourteen digits. -/
theorem toDouble_text_iff (n : Int) : (toDouble n).text = decimalInt n ↔ n.natAbs < 10 ^ 14 := by
  constructor
  · intro h
    rcases ofRatio_integral (decide (n < 0)) n.natAbs with ⟨m, hm⟩ | hinf
    · rw [toDouble, hm] at h
      exact (text_eq_decimalInt h).2
    · rw [toDouble, hinf] at h
      have hletter : 110 ∈ (Number.inf (decide (n < 0))).text := by
        cases decide (n < 0) <;> decide
      exact absurd (h ▸ hletter) (decimalInt_letter n (by decide) (by decide))
  · intro h
    rw [toDouble_small n (by omega), text_int n h]

/-! ## Reading -/

theorem isDigit_line {b : UInt8} (h : isDigit b = true) : b ≠ 13 ∧ b ≠ 10 := by
  constructor <;> (rintro rfl; exact absurd h (by decide))

theorem decimal_line (n : Nat) : ∀ b ∈ decimal n, b ≠ 13 ∧ b ≠ 10 :=
  fun b hb => isDigit_line (decimal_isDigit n b hb)

theorem decimalInt_line (n : Int) : ∀ b ∈ decimalInt n, b ≠ 13 ∧ b ≠ 10 := by
  unfold decimalInt
  split
  · intro b hb
    rcases List.mem_cons.1 hb with rfl | hb
    · decide
    · exact decimal_line _ b hb
  · exact decimal_line _

/-- A line and its end are read as the line. -/
theorem receiveLine_line (line rest fault : Bytes) (h : ∀ b ∈ line, b ≠ 13 ∧ b ≠ 10) :
    (Sock.mk (line ++ crlf ++ rest) fault).receiveLine = (.ok line, ⟨rest, fault⟩) := by
  have hlf : ∀ b ∈ line, decide (b ≠ 10) = true := fun b hb => by simpa using (h b hb).2
  have hcr : line.filter (· ≠ 13) = line := List.filter_eq_self.2 fun b hb => by simpa using (h b hb).1
  unfold Sock.receiveLine
  rw [List.append_assoc, List.dropWhile_append_of_pos hlf, List.takeWhile_append_of_pos hlf]
  have hd : (crlf ++ rest).dropWhile (fun b => decide (b ≠ 10)) = 10 :: rest := by simp [crlf]
  have ht : (crlf ++ rest).takeWhile (fun b => decide (b ≠ 10)) = [13] := by simp [crlf]
  rw [hd, ht, List.filter_append, hcr]
  simp

theorem receive_append (data rest fault : Bytes) :
    (Sock.mk (data ++ rest) fault).receive data.length = .ok (.ok data, ⟨rest, fault⟩) := by
  unfold Sock.receive
  rw [if_neg (by omega), if_pos (by simp)]
  simp

theorem receive_crlf (rest fault : Bytes) :
    (Sock.mk (crlf ++ rest) fault).receive 2 = .ok (.ok crlf, ⟨rest, fault⟩) :=
  receive_append crlf rest fault

theorem toInteger_nat (n : Nat) (h : n < 2 ^ 63) : (Number.int n).toInteger = n := by
  simp only [Number.toInteger]
  rw [if_pos (by omega)]

theorem isNeg_nat (n : Nat) : (Number.int n).isNeg = false := by simp [Number.isNeg]

theorem decodeBulk_bulk (s rest fault : Bytes) (h : s.length ≤ maxStr) :
    decodeBulk (decimal s.length) ⟨s ++ crlf ++ rest, fault⟩ =
      .ok (⟨.str s, some typeBulkReply, .nil⟩, ⟨rest, fault⟩) := by
  have hmax : maxStr ≤ 2 ^ 53 := by unfold maxStr; omega
  unfold decodeBulk
  rw [tonumber_decimal _ (by omega)]
  dsimp only
  rw [isNeg_nat, if_neg Bool.false_ne_true, toInteger_nat _ (by omega), List.append_assoc, receive_append]
  dsimp only
  rw [receive_crlf]

/-- The element loop over the wire forms of `l`, when `dec` reads each of them. -/
theorem decodeVals_replies (dec : Sock → Except LuaError (Ret × Sock)) (pre : Nat) (fault : Bytes) (l : List Reply)
    (hdec : ∀ r ∈ l, ∀ rest, dec ⟨r.bytes ++ rest, fault⟩ = .ok (r.ret, ⟨rest, fault⟩)) :
    ∀ (vals : List Value) (rest : Bytes),
      decodeVals dec pre l.length vals ⟨Reply.bytesList l ++ rest, fault⟩ =
        .ok (⟨.tab (vals ++ Reply.vals l), some pre, .nil⟩, ⟨rest, fault⟩) := by
  induction l with
  | nil => intro vals rest; simp [decodeVals, Reply.bytesList, Reply.vals]
  | cons r l ih =>
    intro vals rest
    have ih' := ih fun x hx => hdec x (List.mem_cons_of_mem _ hx)
    have hr := hdec r (List.mem_cons_self ..) (Reply.bytesList l ++ rest)
    simp only [List.length_cons, decodeVals, Reply.bytesList, List.append_assoc, hr]
    cases r <;> simp [Reply.ret, Reply.vals, Reply.val, ih', preVal, typeErrorReply]

theorem newTab_small (n : Nat) (h : n ≤ maxArr) : newTab (.int n) = .ok () := by
  have hmax : maxArr = 0x8000000 := rfl
  unfold newTab
  rw [toInteger_nat _ (by omega), if_neg (by omega)]

theorem decodeMulti_count {dec : Sock → Except LuaError (Ret × Sock)} {text : Bytes} {n : Nat} (s : Sock)
    (ht : tonumber text = some (.int n)) (hn : n ≤ maxArr) :
    decodeMulti dec text s = decodeVals dec typeMultiBulkReply n [] s := by
  unfold decodeMulti
  rw [ht]
  dsimp only
  rw [isNeg_nat, if_neg Bool.false_ne_true, newTab_small _ hn]
  rfl

theorem decodeMulti_array (dec : Sock → Except LuaError (Ret × Sock)) (fault : Bytes) (l : List Reply)
    (hl : l.length ≤ maxArr)
    (hdec : ∀ r ∈ l, ∀ rest, dec ⟨r.bytes ++ rest, fault⟩ = .ok (r.ret, ⟨rest, fault⟩)) (rest : Bytes) :
    decodeMulti dec (decimal l.length) ⟨Reply.bytesList l ++ rest, fault⟩ =
      .ok ((Reply.array l).ret, ⟨rest, fault⟩) := by
  have hmax : maxArr ≤ 2 ^ 53 := by unfold maxArr; omega
  rw [decodeMulti_count _ (tonumber_decimal _ (by omega)) hl, decodeVals_replies dec _ fault l hdec, List.nil_append]
  rfl

/-- The first byte of a line decides the branch of `decode`. -/
theorem decodeAux_line (fuel : Nat) (b : UInt8) (text rest fault : Bytes) (hb : b ≠ 13 ∧ b ≠ 10)
    (h : ∀ x ∈ text, x ≠ 13 ∧ x ≠ 10) :
    decodeAux (fuel + 1) ⟨b :: (text ++ crlf ++ rest), fault⟩ =
      if b.toNat = typeBulkReply then decodeBulk text ⟨rest, fault⟩
      else if b.toNat = typeStatusReply then .ok (⟨.str text, some typeStatusReply, .nil⟩, ⟨rest, fault⟩)
      else if b.toNat = typeMultiBulkReply then decodeMulti (decodeAux fuel) text ⟨rest, fault⟩
      else if b.toNat = typeIntegerReply then
        .ok (⟨(tonumber text).elim .nil .num, some typeIntegerReply, .nil⟩, ⟨rest, fault⟩)
      else if b.toNat = typeErrorReply then .ok (⟨.bool false, some typeErrorReply, .str text⟩, ⟨rest, fault⟩)
      else .ok (⟨.nil, some b.toNat, .str (bytes "unkown prefix: \"" ++ decimal b.toNat ++ bytes "\"")⟩,
        ⟨rest, fault⟩) := by
  have hl := receiveLine_line (b :: text) rest fault (by
    intro x hx
    rcases List.mem_cons.1 hx with rfl | hx
    · exact hb
    · exact h x hx)
  rw [List.cons_append, List.cons_append] at hl
  rw [decodeAux, hl]

/-- Reading the wire form of a well-formed reply. -/
theorem decodeAux_bytes (fault : Bytes) (r : Reply) (hw : r.wf = true) (fuel : Nat) (rest : Bytes)
    (hf : r.bytes.length ≤ fuel) : decodeAux fuel ⟨r.bytes ++ rest, fault⟩ = .ok (r.ret, ⟨rest, fault⟩) := by
  obtain ⟨fuel, rfl⟩ : ∃ k, fuel = k + 1 := ⟨fuel - 1, by have := bytes_pos r; omega⟩
  induction r generalizing fuel rest with
  | status s =>
    simp only [Reply.bytes, List.cons_append]
    rw [decodeAux_line _ _ _ _ _ (by decide) (isLine_mem hw)]; rfl
  | error s =>
    simp only [Reply.bytes, List.cons_append]
    rw [decodeAux_line _ _ _ _ _ (by decide) (isLine_mem hw)]; rfl
  | int n =>
    simp only [Reply.bytes, List.cons_append]
    rw [decodeAux_line _ _ _ _ _ (by decide) (decimalInt_line n), tonumber_toDouble]; rfl
  | bulk s =>
    simp only [Reply.wf, decide_eq_true_eq] at hw
    simp only [Reply.bytes, List.cons_append, List.append_assoc]
    rw [← List.append_assoc, decodeAux_line _ _ _ _ _ (by decide) (decimal_line _), if_pos (by decide),
      ← List.append_assoc, decodeBulk_bulk _ _ _ hw]
    rfl
  | nilBulk => exact decodeAux_line fuel 36 (NgProxy.bytes "-1") rest fault (by decide) (by simp [NgProxy.bytes])
  | nilArray => exact decodeAux_line fuel 42 (NgProxy.bytes "-1") rest fault (by decide) (by simp [NgProxy.bytes])
  | array l ih =>
    simp only [Reply.wf, Bool.and_eq_true, decide_eq_true_eq] at hw
    simp only [Reply.bytes, List.length_cons, List.length_append] at hf
    simp only [Reply.bytes, List.cons_append, List.append_assoc]
    rw [← List.append_assoc, decodeAux_line _ _ _ _ _ (by decide) (decimal_line _), if_neg (by decide),
      if_neg (by decide), if_pos (by decide)]
    refine decodeMulti_array _ fault l hw.1 (fun r hr rest => ?_) rest
    have hle := length_le_bytesList hr
    obtain ⟨k, rfl⟩ : ∃ k, fuel = k + 1 := ⟨fuel - 1, by have := bytes_pos r; omega⟩
    exact ih r hr (wfList_mem hw.2 r hr) rest k (by omega)

/-- `decode` reads a well-formed reply and stops right behind it. -/
theorem decode_bytes (r : Reply) (hw : r.wf = true) (rest fault : Bytes) :
    decode ⟨r.bytes ++ rest, fault⟩ = .ok (r.ret, ⟨rest, fault⟩) :=
  decodeAux_bytes fault r hw _ rest (by simp; omega)

end NgProxy.Codec
