/-
The two implementations of RESP agree: what `encode` of `lhlh_redis_proto` writes, `redis_decode` reads
back, and its pointer stops right behind it. Each function of the parser is run on the bytes it is meant
for, wherever they are in memory.
-/
import NgProxy.Stream.Parser

namespace NgProxy.Stream

open Lua Codec Memory Text

variable {mem : Mem} {last p : Int}

/-! ## Lines -/

theorem findCrlf_at {line rest : Bytes} (hline : isLine line = true) :
    ∀ {n : Nat} {q : Int} {cr : Bool}, At mem q (line ++ 13 :: 10 :: rest) → q + line.length + 2 ≤ last →
      line.length + 2 ≤ n → findCrlf mem last n q cr = some (q + line.length + 1) := by
  induction line with
  | nil =>
    intro n q cr h hlast hn
    obtain ⟨n, rfl⟩ : ∃ m, n = m + 2 := ⟨n - 2, by simp at hn; omega⟩
    have hcr : mem q = 13 := h.head
    have hlf : mem (q + 1) = 10 := h.tail.head
    simp only [List.length_nil, Nat.cast_zero] at hlast ⊢
    rw [findCrlf, if_neg (by omega), if_pos hcr, findCrlf, if_neg (by omega), if_neg (by simp [hlf]),
      if_pos ⟨rfl, hlf⟩]
    congr 1
    omega
  | cons b line ih =>
    intro n q cr h hlast hn
    obtain ⟨n, rfl⟩ : ∃ m, n = m + 1 := ⟨n - 1, by simp at hn; omega⟩
    simp only [isLine, List.all_cons, Bool.and_eq_true, bne_iff_ne] at hline
    simp only [List.length_cons, Nat.cast_add, Nat.cast_one] at hlast hn ⊢
    rw [List.cons_append] at h
    rw [findCrlf, if_neg (by omega), h.head, if_neg hline.1.1, if_neg (by simp [hline.1.2]),
      ih hline.2 h.tail (by omega) (by omega)]
    congr 1
    omega

/-- A line is found whole. -/
theorem parseLine_at {line rest : Bytes} (hline : isLine line = true) (h : At mem p (line ++ 13 :: 10 :: rest))
    (hlast : p + line.length + 2 ≤ last) : parseLine mem last p = (p, int32 line.length) := by
  rw [parseLine, findCrlf_at hline h hlast (by omega)]
  dsimp only
  congr 2
  omega

/-! ## Headers -/

theorem digit_ne {b : UInt8} (h : isDigit b = true) : b ≠ 13 ∧ b ≠ 45 := by
  constructor
  all_goals
    rintro rfl
    exact absurd h (by decide)

theorem readSize_at {ds rest : Bytes} (hds : ∀ b ∈ ds, isDigit b = true) :
    ∀ {n : Nat} {q : Int} {acc : Nat}, At mem q (ds ++ 13 :: rest) → q + ds.length < last → ds.length < n →
      readFrom acc ds < 2 ^ 63 → readSize mem last n q acc = some (q + ds.length, (readFrom acc ds : Int)) := by
  induction ds with
  | nil =>
    intro n q acc h hlast hn _
    obtain ⟨n, rfl⟩ : ∃ m, n = m + 1 := ⟨n - 1, by simp at hn; omega⟩
    simp only [List.length_nil, Nat.cast_zero] at hlast ⊢
    rw [readSize, if_neg (by omega), if_pos h.head]
    simp [readFrom]
  | cons b ds ih =>
    intro n q acc h hlast hn hval
    obtain ⟨n, rfl⟩ : ∃ m, n = m + 1 := ⟨n - 1, by simp at hn; omega⟩
    rw [List.forall_mem_cons] at hds
    simp only [List.length_cons, Nat.cast_add, Nat.cast_one] at hlast hn ⊢
    rw [List.cons_append] at h
    have hstep : readFrom (10 * acc + digitVal b) ds = readFrom acc (b :: ds) := rfl
    have hle := le_readFrom (10 * acc + digitVal b) ds
    -- nothing has wrapped around as long as the whole number fits
    have hwrap : int64 (int64 ((acc : Int) * 10) + digitVal b) = (10 * acc + digitVal b : Nat) := by
      rw [int64_eq (x := (acc : Int) * 10) (by omega) (by omega), int64_eq (by omega) (by omega)]
      push_cast
      omega
    rw [readSize, if_neg (by omega), h.head, if_neg (digit_ne hds.1).1, digitAt, h.head, if_pos hds.1, hwrap,
      ih hds.2 h.tail (by omega) (by omega) (by omega), hstep]
    simp only [Option.some.injEq, Prod.mk.injEq, and_true]
    omega

theorem readCount_at {ds rest : Bytes} (hds : ∀ b ∈ ds, isDigit b = true) :
    ∀ {n : Nat} {q : Int} {acc : Nat}, At mem q (ds ++ 13 :: rest) → q + ds.length < last → ds.length < n →
      readFrom acc ds < 2 ^ 31 → readCount mem last n q acc = some (q + ds.length, (readFrom acc ds : Int)) := by
  induction ds with
  | nil =>
    intro n q acc h hlast hn _
    obtain ⟨n, rfl⟩ : ∃ m, n = m + 1 := ⟨n - 1, by simp at hn; omega⟩
    simp only [List.length_nil, Nat.cast_zero] at hlast ⊢
    rw [readCount, if_neg (by omega), if_pos h.head]
    simp [readFrom]
  | cons b ds ih =>
    intro n q acc h hlast hn hval
    obtain ⟨n, rfl⟩ : ∃ m, n = m + 1 := ⟨n - 1, by simp at hn; omega⟩
    rw [List.forall_mem_cons] at hds
    simp only [List.length_cons, Nat.cast_add, Nat.cast_one] at hlast hn ⊢
    rw [List.cons_append] at h
    have hstep : readFrom (10 * acc + digitVal b) ds = readFrom acc (b :: ds) := rfl
    have hle := le_readFrom (10 * acc + digitVal b) ds
    have hwrap : int32 (int32 ((acc : Int) * 10) + digitVal b) = (10 * acc + digitVal b : Nat) := by
      rw [int32_eq (x := (acc : Int) * 10) (by omega) (by omega), int32_eq (by omega) (by omega)]
      push_cast
      omega
    rw [readCount, if_neg (by omega), h.head, if_neg (digit_ne hds.1).1, if_neg (digit_ne hds.1).2, digitAt, h.head,
      if_pos hds.1, hwrap, ih hds.2 h.tail (by omega) (by omega) (by omega), hstep]
    simp only [Option.some.injEq, Prod.mk.injEq, and_true]
    omega

/-! ## Bulk strings -/

/-- A string or a null: the reply, and the value the parser makes of it. -/
def itemReply : Option Bytes → Reply
  | some s => .bulk s
  | none => .nilBulk

def itemValue : Option Bytes → Value
  | some s => .str s
  | none => .nil

theorem parseBulk_null {rest : Bytes} (h : At mem p (bytes "-1\r\n" ++ rest)) (hlast : p + 4 ≤ last) :
    parseBulk mem last p = (p + 2, -1) := by
  have h0 : mem p = 45 := h.head
  have h1 : mem (p + 1) = 49 := h.tail.head
  have h2 : mem (p + 1 + 1) = 13 := h.tail.tail.head
  have h3 : mem (p + 1 + 1 + 1) = 10 := h.tail.tail.tail.head
  obtain ⟨n, hn⟩ : ∃ n, (last - (p + 1)).toNat = n + 2 := ⟨(last - (p + 1)).toNat - 2, by omega⟩
  have hskip : skipDigits mem last (n + 2) (p + 1) = some (p + 1 + 1) := by
    rw [skipDigits, if_neg (by omega), h1, if_neg (by decide), digitAt, h1, if_pos (by decide), skipDigits,
      if_neg (by omega), if_pos h2]
  rw [parseBulk, if_neg (by omega), if_pos h0, nullBulk, hn, hskip]
  dsimp only
  rw [if_neg (by omega), if_neg (by simp [h3])]
  congr 1
  omega

theorem parseBulk_at {s rest : Bytes} (hs : s.length < 2 ^ 31)
    (h : At mem p (decimal s.length ++ 13 :: 10 :: (s ++ 13 :: 10 :: rest)))
    (hlast : p + (decimal s.length).length + 2 + s.length + 2 ≤ last) :
    parseBulk mem last p = (p + (decimal s.length).length + 2, (s.length : Int)) := by
  have hdig := decimal_isDigit s.length
  have hhead : mem p ≠ 45 := by
    obtain ⟨b, ds, hb⟩ := List.exists_cons_of_ne_nil (decimal_ne_nil s.length)
    rw [hb] at h hdig
    rw [h.head]
    exact (digit_ne (hdig b (List.mem_cons_self ..))).2
  have hsize : readSize mem last (last - p).toNat p (0 : Nat) =
      some (p + (decimal s.length).length, ((readFrom 0 (decimal s.length) : Nat) : Int)) :=
    readSize_at hdig h (by omega) (by omega) (by rw [readFrom_decimal]; omega)
  rw [readFrom_decimal] at hsize
  obtain ⟨-, hcrlf⟩ := at_append.1 h
  have hlf := hcrlf.tail.head
  obtain ⟨-, hend⟩ := at_append.1 hcrlf.tail.tail
  have hcr' := hend.head
  have hlf' := hend.tail.head
  have hp : p < last := by omega
  generalize p + ((decimal s.length).length : Int) = q at *
  have hq : q + 1 + 1 = q + 2 := by omega
  rw [hq] at hcr' hlf'
  rw [parseBulk, if_neg (by omega), if_neg hhead]
  rw [Nat.cast_zero] at hsize
  rw [hsize]
  dsimp only
  rw [bulkData, if_neg (by omega), if_neg (by simp [hlf]), int64_eq (by omega) (by omega), if_neg (by omega),
    if_neg (by simp [hcr']), if_neg (by simp [hlf']), int32_eq (by omega) (by omega)]

/-- A bulk is read as its value, and the pointer moves behind it. -/
theorem bulk_at {o : Option Bytes} (ho : ∀ s ∈ o, s.length < 2 ^ 31) {rest : Bytes}
    (h : At mem p ((itemReply o).bytes ++ rest)) (hlast : p + (itemReply o).bytes.length ≤ last) :
    mem p = 36 ∧ (parseBulk mem last (p + 1)).2 ≠ -2 ∧
      sliceValue mem (parseBulk mem last (p + 1)) = (itemValue o, p + (itemReply o).bytes.length) := by
  cases o with
  | none =>
    have hlen : (itemReply none).bytes.length = 5 := rfl
    have hnull : parseBulk mem last (p + 1) = (p + 1 + 2, -1) := parseBulk_null h.tail (by omega)
    rw [hnull]
    refine ⟨h.head, by simp, ?_⟩
    show (Value.nil, p + 1 + 2 + 2) = (Value.nil, p + ((5 : Nat) : Int))
    congr 1
    omega
  | some s =>
    rw [itemReply, bulk_bytes] at h
    rw [itemReply, bulk_length] at hlast ⊢
    have hs := ho s rfl
    rw [parseBulk_at hs h.tail (by omega)]
    refine ⟨h.head, by dsimp only; omega, ?_⟩
    have hdata : At mem (p + 1 + (decimal s.length).length + 2) s := by
      have := (at_append.1 (at_append.1 h.tail).2.tail.tail).1
      rwa [show p + 1 + ((decimal s.length).length : Int) + 1 + 1 = p + 1 + (decimal s.length).length + 2 by omega]
        at this
    have hslice := hdata.slice_eq
    rw [sliceValue, if_neg (by dsimp only; omega)]
    simp only [Int.toNat_natCast, hslice, itemValue]
    congr 1
    push_cast
    omega

/-! ## Arrays -/

theorem elements_at {l : List (Option Bytes)} (hl : ∀ o ∈ l, ∀ s ∈ o, s.length < 2 ^ 31) {rest : Bytes}
    (h : At mem p (Reply.bytesList (l.map itemReply) ++ rest))
    (hlast : p + (Reply.bytesList (l.map itemReply)).length ≤ last) :
    elements mem last l.length p = some (l.map itemValue, p + (Reply.bytesList (l.map itemReply)).length) := by
  induction l generalizing p with
  | nil => simp [elements, Reply.bytesList]
  | cons o l ih =>
    rw [List.forall_mem_cons] at hl
    rw [List.map_cons, Reply.bytesList, List.append_assoc] at h
    simp only [List.map_cons, Reply.bytesList, List.length_append, Nat.cast_add] at hlast ⊢
    obtain ⟨hd, hok, hval⟩ := bulk_at hl.1 h (show _ ≤ last by omega)
    have helem : parseElement mem last p = parseBulk mem last (p + 1) := by
      have hpos : 0 < (itemReply o).bytes.length := bytes_pos _
      rw [parseElement, if_neg (by omega), hd, if_neg (by decide), if_pos rfl]
    rw [List.length_cons, elements, helem, if_neg hok, hval]
    dsimp only
    rw [ih hl.2 (at_append.1 h).2 (by omega)]
    simp only [Option.map_some, Option.some.injEq, Prod.mk.injEq, true_and]
    omega

theorem parseMultiBulk_at {l : List (Option Bytes)} (hlen : l.length ≤ maxArr)
    (hl : ∀ o ∈ l, ∀ s ∈ o, s.length < 2 ^ 31) {rest : Bytes}
    (h : At mem p (decimal l.length ++ 13 :: 10 :: (Reply.bytesList (l.map itemReply) ++ rest)))
    (hlast : p + (decimal l.length).length + 2 + (Reply.bytesList (l.map itemReply)).length ≤ last) :
    parseMultiBulk mem last p = .ok (some (.tab (l.map itemValue),
      p + (decimal l.length).length + 2 + (Reply.bytesList (l.map itemReply)).length)) := by
  have hmax : l.length < 2 ^ 31 := hlen.trans_lt (by decide)
  have hcount : readCount mem last (last - p).toNat p (0 : Nat) =
      some (p + (decimal l.length).length, ((readFrom 0 (decimal l.length) : Nat) : Int)) :=
    readCount_at (decimal_isDigit _) h (by omega) (by omega) (by rwa [readFrom_decimal])
  rw [readFrom_decimal, Nat.cast_zero] at hcount
  have hcrlf := (at_append.1 h).2
  have hlf := hcrlf.tail.head
  have hbody := hcrlf.tail.tail
  have hp : p < last := by omega
  generalize p + ((decimal l.length).length : Int) = q at *
  rw [show q + 1 + 1 = q + 2 by omega] at hbody
  have helems := elements_at hl hbody hlast
  rw [parseMultiBulk, if_neg (by omega), hcount]
  dsimp only
  rw [if_neg (by omega), if_neg (by simp [hlf]), if_neg (by omega), if_neg (not_lt.2 (by exact_mod_cast hlen)),
    Int.toNat_natCast, helems]
  rfl

/-! ## Messages -/

/-- What both implementations know: a list of strings and nulls, a string or null, a status or error line. -/
inductive Message where
  | list (l : List (Option Bytes))
  | bulk (o : Option Bytes)
  | status (line : Bytes)
  | error (line : Bytes)

namespace Message

/-- A null is given to `encode` as `ngx.null`. -/
def item : Option Bytes → Value
  | some s => .str s
  | none => .null

def args : Message → Value
  | .list l => .tab (l.map item)
  | .bulk o => item o
  | .status line => .str line
  | .error line => .str line

def pre : Message → Nat
  | .list _ => typeMultiBulkReply
  | .bulk _ => typeBulkReply
  | .status _ => typeStatusReply
  | .error _ => typeErrorReply

def type : Message → ReplyType
  | .list _ => .multiBulk
  | .bulk _ => .bulk
  | .status _ => .status
  | .error _ => .error

/-- The value `redis_decode` has to return: nulls are nil. -/
def value : Message → Value
  | .list l => .tab (l.map itemValue)
  | .bulk o => itemValue o
  | .status line => .str line
  | .error line => .str line

def reply : Message → Reply
  | .list l => .array (l.map itemReply)
  | .bulk o => itemReply o
  | .status line => .status line
  | .error line => .error line

/-- How many elements the list has. -/
def elements : Message → Nat
  | .list l => l.length
  | _ => 0

/-- Lengths are below `2^31`, and so is that of a line with one byte more: no Lua string comes near. -/
def Fits : Message → Prop
  | .list l => l.length < 2 ^ 31 ∧ ∀ o ∈ l, ∀ s ∈ o, s.length < 2 ^ 31
  | .bulk o => ∀ s ∈ o, s.length < 2 ^ 31
  | .status line => isLine line = true ∧ line.length + 1 < 2 ^ 31
  | .error line => isLine line = true ∧ line.length + 1 < 2 ^ 31

theorem itemReply_spec {o : Option Bytes} (h : ∀ s ∈ o, s.length < 2 ^ 31) :
    (itemReply o).isBulk = true ∧ (itemReply o).payload.length < 10 ^ 14 ∧ (itemReply o).val = item o := by
  cases o with
  | none => exact ⟨rfl, by simp [itemReply, Reply.payload], by simp [itemReply, Reply.val, item]⟩
  | some s =>
    have := h s rfl
    exact ⟨rfl, by simp only [itemReply, Reply.payload]; omega, by simp [itemReply, Reply.val, item]⟩

/-- `encode` writes the wire form. -/
theorem wire_eq {m : Message} (h : m.Fits) (hmax : m.elements ≤ maxArgs) :
    wire m.args (some m.pre) = .ok m.reply.bytes := by
  cases m with
  | list l =>
    have hl := h.2
    have hval : (l.map itemReply).map Reply.val = l.map item := by
      rw [List.map_map]
      exact List.map_congr_left fun o ho => (itemReply_spec (hl o ho)).2.2
    rw [args, ← hval]
    refine wire_short (by rw [List.length_map]; exact hmax) ?_ ?_
    all_goals
      intro r hr
      obtain ⟨o, ho, rfl⟩ := List.mem_map.1 hr
    · exact (itemReply_spec (hl o ho)).1
    · exact (itemReply_spec (hl o ho)).2.1
  | bulk o =>
    obtain ⟨hb, hs, hv⟩ := itemReply_spec h
    obtain ⟨x, hx, fx⟩ := encodeArg_short hb hs
    rw [hv] at hx
    simp only [wire, encode, args, pre, ite_true, hx, Except.map, fx, reply]
  | status line =>
    have := flatTab_three (v := .str line) (a := bytes "+") (c := crlf) (flat_str line)
    simpa [wire, encode, args, pre, reply, Reply.bytes, typeBulkReply, typeStatusReply, bytes] using this
  | error line =>
    have := flatTab_three (v := .str line) (a := bytes "-") (c := crlf) (flat_str line)
    simpa [wire, encode, args, pre, reply, Reply.bytes, typeBulkReply, typeStatusReply, typeMultiBulkReply,
      typeIntegerReply, typeErrorReply, bytes] using this

/-- A list that is longer raises. -/
theorem wire_overflow {m : Message} (h : maxArgs < m.elements) : wire m.args (some m.pre) = .error .overflow := by
  cases m with
  | list l => rw [wire, args, pre, encode_tab_long (by rw [List.length_map]; exact h)]
  | _ => exact absurd h (Nat.not_lt_zero _)

end Message

/-- A line reply is read to its end. -/
theorem lineReply_at {b : UInt8} {line rest : Bytes} (hline : isLine line = true) (hlen : line.length + 1 < 2 ^ 31)
    (h : At mem p (b :: (line ++ crlf) ++ rest)) (hlast : p + (b :: (line ++ crlf)).length ≤ last) (type : ReplyType)
    (value : Bytes → Value) (message : String) :
    lineReply mem last p type value message = ⟨value line, type, p + (b :: (line ++ crlf)).length⟩ := by
  have htext : b :: (line ++ crlf) ++ rest = b :: (line ++ 13 :: 10 :: rest) := by simp [crlf]
  have hbytes : (b :: (line ++ crlf)).length = line.length + 3 := by simp [crlf]
  rw [htext] at h
  rw [hbytes] at hlast ⊢
  have hslice := (at_append.1 h.tail).1.slice_eq
  rw [lineReply, parseLine_at hline h.tail (by omega)]
  dsimp only
  rw [int32_eq (x := (line.length : Int)) (by omega) (by omega), if_neg (by omega), int32_eq (by omega) (by omega),
    Int.toNat_natCast, hslice]
  congr 1
  omega

/-- The parser reads a message wherever it is. -/
theorem redisParse_at {m : Message} (hm : m.Fits) (hmax : m.elements ≤ maxArr) {rest : Bytes}
    (h : At mem p (m.reply.bytes ++ rest)) (hlast : p + m.reply.bytes.length ≤ last) :
    redisParse mem last p = .ok ⟨m.value, m.type, p + m.reply.bytes.length⟩ := by
  have hne : last ≠ p := by
    have := bytes_pos m.reply
    omega
  cases m with
  | list l =>
    rw [Message.reply, array_bytes, List.length_map] at h
    rw [Message.reply, array_length, List.length_map] at hlast ⊢
    have hmulti := parseMultiBulk_at hmax hm.2 h.tail (show _ ≤ last by omega)
    rw [redisParse, if_neg hne, h.head, if_neg (by decide), if_neg (by decide), if_neg (by decide),
      if_neg (by decide), if_pos rfl, multiBulkReply, hmulti]
    refine congrArg Except.ok ?_
    rw [multiReply, Message.value, Message.type, Parsed.mk.injEq]
    refine ⟨rfl, rfl, ?_⟩
    push_cast
    omega
  | bulk o =>
    obtain ⟨hd, hok, hval⟩ := bulk_at hm h hlast
    rw [redisParse, if_neg hne, hd, if_neg (by decide), if_neg (by decide), if_neg (by decide), if_pos rfl,
      bulkReply, if_neg hok, hval]
    rfl
  | status line =>
    have hhead : mem p = 43 := h.head
    rw [redisParse, if_neg hne, hhead, if_pos rfl]
    exact congrArg _ (lineReply_at hm.1 hm.2 h hlast ..)
  | error line =>
    have hhead : mem p = 45 := h.head
    rw [redisParse, if_neg hne, hhead, if_neg (by decide), if_pos rfl]
    exact congrArg _ (lineReply_at hm.1 hm.2 h hlast ..)

/-- `redis_decode` returns every message `encode` has written, with its type, whatever follows it in the
buffer and in memory; the pointer has moved by the length of the encoding. All are written but lists of
more than `maxArgs` elements, for which `encode` raises. -/
theorem redisDecode_encode (m : Message) (hm : m.Fits) :
    (m.elements ≤ maxArgs → ∃ w, wire m.args (some m.pre) = .ok w ∧
      ∀ trailing outside, redisDecode outside (w ++ trailing) = .ok ⟨m.value, m.type, w.length⟩) ∧
    (maxArgs < m.elements → wire m.args (some m.pre) = .error .overflow) := by
  refine ⟨fun hmax => ⟨m.reply.bytes, m.wire_eq hm hmax, fun trailing outside => ?_⟩, m.wire_overflow⟩
  have h := redisParse_at hm (hmax.trans (by decide)) (at_load (m.reply.bytes ++ trailing) outside)
    (show _ ≤ (((m.reply.bytes ++ trailing).length : Nat) : Int) by simp)
  rw [redisDecode, h]
  simp

theorem redisDecode_encode_list :
    ∃ w, wire (.tab [.str (bytes "GET"), .null]) (some typeMultiBulkReply) = .ok w ∧
      ∀ trailing outside,
        redisDecode outside (w ++ trailing) = .ok ⟨.tab [.str (bytes "GET"), .nil], .multiBulk, w.length⟩ :=
  (redisDecode_encode (.list [some (bytes "GET"), none]) ⟨by decide, by simp [bytes]⟩).1 (by decide)

/-- One null more than `encode` has room for. -/
theorem long_list_raises :
    wire (.tab (List.replicate 26843546 .null)) (some typeMultiBulkReply) = .error .overflow := by
  rw [wire, encode_tab_long (by rw [List.length_replicate]; decide)]

end NgProxy.Stream
