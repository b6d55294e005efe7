/-
`redis_proto_decode`, the completeness test behind `receive('*r')`: whether the bytes just received are a
whole message. It keeps a running length next to a pointer that jumps by the lengths it reads, so the
pointer may leave the received bytes on either side.
-/
import NgProxy.Lib.Strtol
import NgProxy.Stream.Agree

namespace NgProxy.Stream

open Lua Codec Memory Text

/-- The return codes `NGX_OK`, `NGX_AGAIN` and `NGX_ERROR`. -/
inductive Rc where
  | ok
  | again
  | error
  deriving DecidableEq, Repr

/-! ## The test -/

/-- The loop of `redis_get_num_size`; a 64-bit number has at most 20 digits. -/
def numSizeLoop : Nat → Nat → Nat
  | 0, _ => 0
  | n + 1, i => if 0 < i / 10 then numSizeLoop n (i / 10) + 1 else 1

/-- `redis_get_num_size`: the number of digits. A negative `int` arrives as a huge `uint64_t`. -/
def redisGetNumSize (i : Int) : Nat := numSizeLoop 20 (i % 2 ^ 64).toNat

section Test

variable (mem : Mem) (top : Int)

/-- `redis_parse_line`. -/
def redisParseLine (rdata rdataLen : Int) : Rc :=
  if (findCrlf mem (rdata + rdataLen) rdataLen.toNat rdata false).isSome then .ok else .again

/-- The running length behind one more bulk: the digits of its length, a line end, the data and a line end. -/
def addBulk (len bulklen : Int) : Int :=
  int32 (int32 (int32 (len + redisGetNumSize bulklen) + 2) + int32 (bulklen + 2))

/-- `redis_parse_bulk`. -/
def redisParseBulk (rdata rdataLen : Int) : Rc :=
  let bulklen := int32 (strtol mem top rdata).1
  if bulklen = -1 then .ok
  else if addBulk 1 bulklen > rdataLen then .again
  else .ok

/-- The loop of `redis_parse_multibulk`. A null leaves `rest` in front of its line end, and nothing is
compared behind the last element. -/
def multibulkLoop (rdataLen : Int) : Nat → Int → Int → Rc
  | 0, _, _ => .ok
  | n + 1, rest, len =>
    if len > rdataLen then .again
    else
      let r := strtol mem top (rest + 1)
      let bulklen := int32 r.1
      if bulklen = -1 then multibulkLoop rdataLen n r.2 (int32 (len + 1))
      else multibulkLoop rdataLen n (r.2 + 2 + int32 (bulklen + 2)) (addBulk (int32 (len + 1)) bulklen)

/-- `redis_parse_multibulk`; the running length leaves out the digits of the count. -/
def redisParseMultibulk (rdata rdataLen : Int) : Rc :=
  let r := strtol mem top rdata
  multibulkLoop mem top rdataLen (int32 r.1).toNat (r.2 + 2) 3

/-- `redis_proto_decode`. -/
def redisProtoDecode (rdata len : Int) : Rc :=
  if mem rdata = 45 ∨ mem rdata = 43 ∨ mem rdata = 58 then redisParseLine mem rdata len
  else if mem rdata = 36 then redisParseBulk mem top (rdata + 1) len
  else if mem rdata = 42 then redisParseMultibulk mem top (rdata + 1) len
  else .error

end Test

/-! ## Whole messages -/

theorem numSizeLoop_eq {i f : Nat} (hf : 0 < f) (h : i < 10 ^ f) : numSizeLoop f i = (decimal i).length := by
  induction f generalizing i with
  | zero => omega
  | succ f ih =>
    rw [numSizeLoop]
    by_cases hi : 0 < i / 10
    · have hdiv : i / 10 < 10 ^ f := Nat.div_lt_of_lt_mul (by rw [pow_succ] at h; omega)
      have hf : 0 < f := by
        refine Nat.pos_of_ne_zero ?_
        rintro rfl
        omega
      rw [if_pos hi, ih hf hdiv, ← decimal_length_div (by omega)]
    · rw [if_neg hi, decimal_length_small (by omega)]

theorem redisGetNumSize_eq {n : Nat} (h : n < 2 ^ 63) : redisGetNumSize n = (decimal n).length := by
  rw [redisGetNumSize, Int.emod_eq_of_lt (by omega) (by omega), Int.toNat_natCast]
  exact numSizeLoop_eq (by norm_num) (by omega)

theorem addBulk_eq {len n : Nat} (h : len + (decimal n).length + 2 + n + 2 < 2 ^ 31) :
    addBulk len n = ((len + (decimal n).length + 2 + n + 2 : Nat) : Int) := by
  rw [addBulk, redisGetNumSize_eq (by omega), int32_eq (x := (len : Int) + (decimal n).length) (by omega) (by omega),
    int32_eq (x := (len : Int) + (decimal n).length + 2) (by omega) (by omega),
    int32_eq (x := (n : Int) + 2) (by omega) (by omega), int32_eq (by omega) (by omega)]
  push_cast
  omega

/-- Strings, and a null only at the end. -/
def nullLast : List Reply → Bool
  | [] => true
  | [.nilBulk] => true
  | .bulk _ :: l => nullLast l
  | _ => false

/-- The messages the test recognises when it is given all of their bytes. -/
def recognised : Reply → Bool
  | .status s => isLine s
  | .error s => isLine s
  | .int _ => true
  | .bulk _ => true
  | .nilBulk => true
  | .nilArray => false
  | .array l => nullLast l

variable {mem : Mem} {top : Int}

/-- The running length stays behind the pointer, and the pointer within the message. -/
theorem multibulkLoop_at {l : List Reply} (hl : nullLast l = true) {total : Int} (htotal : total < 2 ^ 31)
    (htop : total ≤ top) {p : Int} {len : Nat} (hlen : len ≤ p) (h : At mem p (Reply.bytesList l))
    (hend : p + (Reply.bytesList l).length ≤ total) : multibulkLoop mem top total l.length p len = .ok := by
  induction l using nullLast.induct generalizing p len with
  | case1 => rfl
  | case2 =>
    have h5 : (Reply.bytesList [.nilBulk]).length = 5 := rfl
    rw [List.length_singleton, multibulkLoop, if_neg (by omega), strtol_minus_one h.tail (by omega)]
    rfl
  | case3 s l ih =>
    rw [nullLast] at hl
    rw [Reply.bytesList, bulk_bytes] at h
    rw [Reply.bytesList, List.length_append, bulk_length] at hend
    push_cast at hend
    have hnum : strtol mem top (p + 1) = _ := strtol_decimal (by omega) h.tail (by omega)
    have hbody := (at_append.1 (at_append.1 h.tail).2.tail.tail).2.tail.tail
    rw [List.length_cons, multibulkLoop, if_neg (by omega), hnum]
    dsimp only
    rw [int32_eq (x := (s.length : Int)) (by omega) (by omega), if_neg (by omega),
      int32_eq (x := (len : Int) + 1) (by omega) (by omega), int32_eq (x := (s.length : Int) + 2) (by omega) (by omega),
      show ((len : Int) + 1) = ((len + 1 : Nat) : Int) by omega, addBulk_eq (by omega)]
    refine ih hl (by push_cast; omega) ?_ (by omega)
    convert hbody using 1
    omega
  | case4 l h1 h2 h3 => simp [nullLast] at hl

theorem isLine_decimalInt (n : Int) : isLine (decimalInt n) = true := by
  rw [isLine, List.all_eq_true]
  intro b hb
  simpa using decimalInt_line n b hb

/-- A line is complete when its line end has arrived. -/
theorem redisParseLine_at {line : Bytes} (hline : isLine line = true) {b : UInt8} (hb : b ≠ 13 ∧ b ≠ 10)
    (h : At mem 0 (b :: (line ++ crlf))) : redisParseLine mem 0 (b :: (line ++ crlf)).length = .ok := by
  have hline' : isLine (b :: line) = true := by
    simp only [isLine, List.all_cons, Bool.and_eq_true, bne_iff_ne]
    exact ⟨hb, hline⟩
  have hlen : (b :: (line ++ crlf)).length = (b :: line).length + 2 := by simp [crlf]
  have hfind : findCrlf mem (0 + ((b :: (line ++ crlf)).length : Int)) (b :: (line ++ crlf)).length 0 false = _ :=
    findCrlf_at hline' h (by omega) (by omega)
  rw [redisParseLine, Int.toNat_natCast, hfind]
  rfl

theorem redisParseBulk_at {s : Bytes} (hlen : (Reply.bulk s).bytes.length < 2 ^ 31) (h : At mem 0 (Reply.bulk s).bytes)
    (htop : ((Reply.bulk s).bytes.length : Int) ≤ top) :
    redisParseBulk mem top (0 + 1) (Reply.bulk s).bytes.length = .ok := by
  rw [← List.append_nil (Reply.bulk s).bytes, bulk_bytes] at h
  rw [bulk_length] at hlen htop ⊢
  push_cast at htop
  have hnum : strtol mem top (0 + 1) = _ := strtol_decimal (by omega) h.tail (by omega)
  have hadd : addBulk 1 s.length = ((1 + (decimal s.length).length + 2 + s.length + 2 : Nat) : Int) :=
    addBulk_eq hlen
  rw [redisParseBulk, hnum]
  dsimp only
  rw [int32_eq (x := (s.length : Int)) (by omega) (by omega), if_neg (by omega), hadd, if_neg (by omega)]

theorem redisParseMultibulk_at {l : List Reply} (hl : nullLast l = true) (hlen : (Reply.array l).bytes.length < 2 ^ 31)
    (h : At mem 0 (Reply.array l).bytes) (htop : ((Reply.array l).bytes.length : Int) ≤ top) :
    redisParseMultibulk mem top (0 + 1) (Reply.array l).bytes.length = .ok := by
  have hcount : l.length ≤ (Reply.bytesList l).length := count_le_bytesList l
  rw [← List.append_nil (Reply.array l).bytes, array_bytes, List.append_nil] at h
  rw [array_length] at hlen htop ⊢
  push_cast at htop
  have hnum : strtol mem top (0 + 1) = _ := strtol_decimal (by omega) h.tail (by omega)
  have hbody := (at_append.1 h.tail).2.tail.tail
  have hdig : 0 < (decimal l.length).length := List.length_pos_of_ne_nil (decimal_ne_nil _)
  rw [redisParseMultibulk, hnum]
  dsimp only
  rw [int32_eq (by omega) (by omega), Int.toNat_natCast]
  rw [show (0 : Int) + 1 + (decimal l.length).length + 1 + 1 = 0 + 1 + (decimal l.length).length + 2 by omega] at hbody
  exact multibulkLoop_at hl (by omega) (by omega) (show ((3 : Nat) : Int) ≤ _ by omega) hbody (by omega)

/-- The test accepts a message it recognises when it gets all of it and nothing else. -/
theorem redisProtoDecode_whole {m : Reply} (hm : recognised m = true) (hlen : m.bytes.length < 2 ^ 31)
    (h : At mem 0 m.bytes) (htop : (m.bytes.length : Int) ≤ top) :
    redisProtoDecode mem top 0 m.bytes.length = .ok := by
  cases m with
  | status line =>
    have hhead : mem 0 = 43 := h.head
    rw [redisProtoDecode, hhead, if_pos (by decide)]
    exact redisParseLine_at hm (by decide) h
  | error line =>
    have hhead : mem 0 = 45 := h.head
    rw [redisProtoDecode, hhead, if_pos (by decide)]
    exact redisParseLine_at hm (by decide) h
  | int n =>
    have hhead : mem 0 = 58 := h.head
    rw [redisProtoDecode, hhead, if_pos (by decide)]
    exact redisParseLine_at (isLine_decimalInt n) (by decide) h
  | bulk s =>
    have hhead : mem 0 = 36 := h.head
    rw [redisProtoDecode, hhead, if_neg (by decide), if_pos rfl]
    exact redisParseBulk_at hlen h htop
  | nilBulk =>
    have hhead : mem 0 = 36 := h.head
    have h5 : (Reply.nilBulk.bytes).length = 5 := rfl
    rw [redisProtoDecode, hhead, if_neg (by decide), if_pos rfl, redisParseBulk, strtol_minus_one h.tail (by omega)]
    rfl
  | nilArray => exact absurd hm (by decide)
  | array l =>
    have hhead : mem 0 = 42 := h.head
    rw [redisProtoDecode, hhead, if_neg (by decide), if_neg (by decide), if_pos rfl]
    exact redisParseMultibulk_at hm hlen h htop

end NgProxy.Stream
