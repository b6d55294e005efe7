/-
The codec round trip: messages encoded one after another are read back by as many calls of
`decode`, in order and with their prefixes, and the bytes behind them stay unread. The encoder's
output is compared with the wire form of `Resp`, for which `decode` is already known.
-/
import NgProxy.Codec.Resp

namespace NgProxy.Codec

open Lua Text

/-! ## The bytes of an encoding -/

/-- The bytes `encode` produces: its table concatenated. -/
def wire (args : Value) (pre : Option Nat) : Except LuaError Bytes :=
  match encode args pre with
  | .error e => .error e
  | .ok none => .ok []
  | .ok (some l) => flatTab l

theorem flatTab_three {v : Value} {a c t : Bytes} (hv : flat v = .ok t) :
    flatTab [.str a, v, .str c] = .ok (a ++ t ++ c) := by
  rw [flatTab_cons_ok (flat_str a) (flatTab_cons_ok hv (flatTab_cons_ok (flat_str c) flatTab_nil))]
  simp

theorem flatTab_five {v : Value} {n : Number} {t : Bytes} (hv : flat v = .ok t) (a b c : Bytes) :
    flatTab [.str a, .num n, .str b, v, .str c] = .ok (a ++ n.text ++ b ++ t ++ c) := by
  rw [flatTab_cons_ok (flat_str a) (flatTab_cons_ok (flat_num n) (flatTab_cons_ok (flat_str b)
    (flatTab_cons_ok hv (flatTab_cons_ok (flat_str c) flatTab_nil))))]
  simp

theorem args_text {n : Nat} (h : n ≤ maxArgs) : (Number.int n).text = decimal n :=
  text_nat n (by unfold maxArgs at h; omega)

/-- A bulk string or a null bulk. -/
def Reply.isBulk : Reply → Bool
  | .bulk _ => true
  | .nilBulk => true
  | _ => false

/-- The string of a bulk. -/
def Reply.payload : Reply → Bytes
  | .bulk s => s
  | _ => []

theorem Reply.payload_of_wf {r : Reply} (h : r.wf = true) : r.payload.length < 10 ^ 14 := by
  cases r with
  | bulk s =>
    have hs : s.length ≤ maxStr := by simpa [Reply.wf] using h
    unfold maxStr at hs
    show s.length < 10 ^ 14
    omega
  | _ => exact Nat.pow_pos (by decide)

/-- A bulk string is encoded as its wire form. Up to fourteen digits its length is printed exactly. -/
theorem encodeArg_short {r : Reply} (hb : r.isBulk = true) (hs : r.payload.length < 10 ^ 14) :
    ∃ x, encodeArg r.val = .ok x ∧ flatTab x = .ok r.bytes := by
  cases r with
  | bulk s =>
    refine ⟨_, rfl, ?_⟩
    have := flatTab_five (n := .int s.length) (flat_str s) (bytes "$") crlf crlf
    rw [text_nat s.length hs] at this
    simpa [Reply.bytes, Reply.val, bytes] using this
  | nilBulk => exact ⟨_, rfl, rfl⟩
  | status s => cases hb
  | error s => cases hb
  | int n => cases hb
  | nilArray => cases hb
  | array l => cases hb

theorem encodeArgs_short {l : List Reply} (hb : ∀ r ∈ l, r.isBulk = true)
    (hs : ∀ r ∈ l, r.payload.length < 10 ^ 14) :
    ∃ x, encodeArgs (l.map Reply.val) = .ok x ∧ flatTab x = .ok (Reply.bytesList l) := by
  induction l with
  | nil => exact ⟨[], rfl, by simp [Reply.bytesList]⟩
  | cons r l ih =>
    obtain ⟨x, hx, fx⟩ := encodeArg_short (hb r (List.mem_cons_self ..)) (hs r (List.mem_cons_self ..))
    obtain ⟨y, hy, fy⟩ := ih (fun a ha => hb a (List.mem_cons_of_mem _ ha))
      (fun a ha => hs a (List.mem_cons_of_mem _ ha))
    refine ⟨x ++ y, ?_, ?_⟩
    · rw [List.map_cons, encodeArgs, hx, hy]
    · rw [flatTab_append_ok fx fy, Reply.bytesList]

theorem encode_tab_eq (l : List Value) : encode (.tab l) (some typeMultiBulkReply) =
    if maxArr < l.length * 5 + 1 then .error .overflow else (multiTab l).map some := by
  unfold encode
  rw [if_neg (by decide), if_neg (by decide), if_pos rfl]
  rfl

theorem encode_tab {l : List Value} (hl : l.length ≤ maxArgs) {x : List Value} (hx : encodeArgs l = .ok x) :
    encode (.tab l) (some typeMultiBulkReply) =
      .ok (some (.str (bytes "*" ++ (Number.int l.length).text ++ crlf) :: x)) := by
  rw [encode_tab_eq, if_neg (not_lt.2 ((maxArgs_iff _).2 hl)), multiTab, hx]
  rfl

/-- The table of an array that is too long cannot be made. -/
theorem encode_tab_long {l : List Value} (hl : maxArgs < l.length) :
    encode (.tab l) (some typeMultiBulkReply) = .error .overflow := by
  rw [encode_tab_eq, if_pos (by rw [← not_le, maxArgs_iff]; exact not_le.2 hl)]

/-- A flat array of bulk strings is encoded as its wire form. -/
theorem wire_short {l : List Reply} (hl : l.length ≤ maxArgs) (hb : ∀ r ∈ l, r.isBulk = true)
    (hs : ∀ r ∈ l, r.payload.length < 10 ^ 14) :
    wire (.tab (l.map Reply.val)) (some typeMultiBulkReply) = .ok (Reply.array l).bytes := by
  obtain ⟨x, hx, fx⟩ := encodeArgs_short hb hs
  unfold wire
  rw [encode_tab (by rwa [List.length_map]) hx]
  simp only
  rw [flatTab_cons_ok (flat_str _) fx, List.length_map, args_text hl]
  simp [Reply.bytes, bytes]

theorem encodeArg_bulk {r : Reply} (hb : r.isBulk = true) (hw : r.wf = true) :
    ∃ x, encodeArg r.val = .ok x ∧ flatTab x = .ok r.bytes :=
  encodeArg_short hb (Reply.payload_of_wf hw)

theorem encodeArgs_bulks {l : List Reply} (hb : ∀ r ∈ l, r.isBulk = true) (hw : ∀ r ∈ l, r.wf = true) :
    ∃ x, encodeArgs (l.map Reply.val) = .ok x ∧ flatTab x = .ok (Reply.bytesList l) :=
  encodeArgs_short hb fun r hr => Reply.payload_of_wf (hw r hr)

theorem wire_array {l : List Reply} (hl : l.length ≤ maxArgs) (hb : ∀ r ∈ l, r.isBulk = true)
    (hw : ∀ r ∈ l, r.wf = true) :
    wire (.tab (l.map Reply.val)) (some typeMultiBulkReply) = .ok (Reply.array l).bytes :=
  wire_short hl hb fun r hr => Reply.payload_of_wf (hw r hr)

theorem encodeArgs_strs (l : List Bytes) : ∃ x t, encodeArgs (l.map .str) = .ok x ∧ flatTab x = .ok t := by
  induction l with
  | nil => exact ⟨[], [], rfl, flatTab_nil⟩
  | cons s l ih =>
    obtain ⟨x, t, hx, ht⟩ := ih
    have hs : encodeArg (.str s) =
        .ok [.str (bytes "$"), .num (.int s.length), .str crlf, .str s, .str crlf] := rfl
    have ht' := flatTab_append_ok (flatTab_five (n := .int s.length) (flat_str s) (bytes "$") crlf crlf) ht
    exact ⟨_, _, by rw [List.map_cons, encodeArgs, hs, hx], ht'⟩

/-- Encoding an array of strings fails only where its table cannot be made. -/
theorem wire_strs {l : List Bytes} (hl : l.length ≤ maxArgs) :
    ∃ req, wire (.tab (l.map .str)) (some typeMultiBulkReply) = .ok req := by
  obtain ⟨x, t, hx, ht⟩ := encodeArgs_strs l
  unfold wire
  rw [encode_tab (by rwa [List.length_map]) hx]
  exact ⟨_, flatTab_cons_ok (flat_str _) ht⟩

/-! ## Messages -/

/-- A string LuaJIT can hold. -/
structure LuaString where
  data : Bytes
  fits : data.length ≤ maxStr

/-- What the proxy sends or receives as one message: a flat array of strings and nulls, a string, a
null, a status line or an error line. -/
inductive Msg where
  | multi (args : List (Option LuaString))
  | bulk (s : LuaString)
  | nilBulk
  | status (s : Bytes) (line : isLine s = true)
  | error (s : Bytes) (line : isLine s = true)

namespace Msg

/-- A string, `ngx.null` for a null. -/
def arg : Option LuaString → Value
  | some s => .str s.data
  | none => .null

/-- The value given to `encode`. -/
def args : Msg → Value
  | .multi l => .tab (l.map arg)
  | .bulk s => .str s.data
  | .nilBulk => .null
  | .status s _ => .str s
  | .error s _ => .str s

def pre : Msg → Nat
  | .multi _ => typeMultiBulkReply
  | .bulk _ => typeBulkReply
  | .nilBulk => typeBulkReply
  | .status _ _ => typeStatusReply
  | .error _ _ => typeErrorReply

/-- The results `decode` has to return: the message, its prefix and no error, or `false`, the
prefix and the text of an error line. -/
def ret : Msg → Ret
  | .multi l => ⟨.tab (l.map arg), some typeMultiBulkReply, .nil⟩
  | .bulk s => ⟨.str s.data, some typeBulkReply, .nil⟩
  | .nilBulk => ⟨.null, some typeBulkReply, .nil⟩
  | .status s _ => ⟨.str s, some typeStatusReply, .nil⟩
  | .error s _ => ⟨.bool false, some typeErrorReply, .str s⟩

def argReply : Option LuaString → Reply
  | some s => .bulk s.data
  | none => .nilBulk

/-- How many elements an array has. -/
def elements : Msg → Nat
  | .multi l => l.length
  | _ => 0

/-- The message as a RESP reply. -/
def reply : Msg → Reply
  | .multi l => .array (l.map argReply)
  | .bulk s => .bulk s.data
  | .nilBulk => .nilBulk
  | .status s _ => .status s
  | .error s _ => .error s

theorem argReply_spec (a : Option LuaString) :
    (argReply a).isBulk = true ∧ (argReply a).wf = true ∧ (argReply a).val = arg a := by
  cases a with
  | none => exact ⟨rfl, by simp [argReply, Reply.wf], by simp [argReply, Reply.val, arg]⟩
  | some s => exact ⟨rfl, by simp [argReply, Reply.wf, s.fits], by simp [argReply, Reply.val, arg]⟩

theorem argReplies_val (l : List (Option LuaString)) : (l.map argReply).map Reply.val = l.map arg := by
  rw [List.map_map]
  exact List.map_congr_left fun a _ => (argReply_spec a).2.2

theorem reply_wf {m : Msg} (hm : m.elements ≤ maxArgs) : m.reply.wf = true := by
  cases m with
  | multi l =>
    have hl : Reply.wfList (l.map argReply) = true := wfList_of_mem fun r hr => by
      obtain ⟨a, -, rfl⟩ := List.mem_map.1 hr
      exact (argReply_spec a).2.1
    have hlen : l.length ≤ maxArr := le_trans hm (by decide)
    simp [reply, Reply.wf, hlen, hl]
  | bulk s => simp [reply, Reply.wf, s.fits]
  | nilBulk => simp [reply, Reply.wf]
  | status s h => simpa [reply, Reply.wf] using h
  | error s h => simpa [reply, Reply.wf] using h

theorem reply_ret (m : Msg) : m.reply.ret = m.ret := by
  cases m with
  | multi l => simp only [reply, Reply.ret, ret, vals_eq_map, argReplies_val]
  | bulk s => rfl
  | nilBulk => rfl
  | status s h => rfl
  | error s h => rfl

/-- Encoding a message gives its wire form. -/
theorem wire_eq {m : Msg} (hm : m.elements ≤ maxArgs) : wire m.args (some m.pre) = .ok m.reply.bytes := by
  cases m with
  | multi l =>
    have := wire_array (l := l.map argReply) (by rw [List.length_map]; exact hm)
      (by intro r hr; obtain ⟨a, -, rfl⟩ := List.mem_map.1 hr; exact (argReply_spec a).1)
      (by intro r hr; obtain ⟨a, -, rfl⟩ := List.mem_map.1 hr; exact (argReply_spec a).2.1)
    rw [argReplies_val] at this
    exact this
  | bulk s =>
    obtain ⟨x, hx, fx⟩ := encodeArg_bulk (r := .bulk s.data) rfl (by simp [Reply.wf, s.fits])
    simp only [Reply.val] at hx
    simp only [wire, encode, args, pre, ite_true, hx, Except.map, fx, reply]
  | nilBulk => rfl
  | status s h =>
    have := flatTab_three (v := .str s) (a := bytes "+") (c := crlf) (flat_str s)
    simpa [wire, encode, args, pre, reply, Reply.bytes, typeBulkReply, typeStatusReply, bytes] using this
  | error s h =>
    have := flatTab_three (v := .str s) (a := bytes "-") (c := crlf) (flat_str s)
    simpa [wire, encode, args, pre, reply, Reply.bytes, typeBulkReply, typeStatusReply, typeMultiBulkReply,
      typeIntegerReply, typeErrorReply, bytes] using this

/-- A message is encoded exactly when its table can be made. -/
theorem wire_iff (m : Msg) : (∃ w, wire m.args (some m.pre) = .ok w) ↔ m.elements ≤ maxArgs := by
  constructor
  · rintro ⟨w, hw⟩
    by_contra hlong
    cases m with
    | multi l =>
      have hraise := encode_tab_long (l := l.map arg) (by simpa [elements] using hlong)
      rw [wire, args, pre, hraise] at hw
      cases hw
    | _ => exact hlong (Nat.zero_le _)
  · exact fun hm => ⟨_, wire_eq hm⟩

end Msg

/-! ## Pipelined traffic -/

/-- The encodings of several messages, concatenated. -/
def wireAll : List Msg → Except LuaError Bytes
  | [] => .ok []
  | m :: ms =>
    match wire m.args (some m.pre) with
    | .error e => .error e
    | .ok a =>
      match wireAll ms with
      | .error e => .error e
      | .ok b => .ok (a ++ b)

/-- `n` successive calls of `decode`. -/
def decodeN : Nat → Sock → Except LuaError (List Ret × Sock)
  | 0, s => .ok ([], s)
  | n + 1, s =>
    match decode s with
    | .error e => .error e
    | .ok (r, s) =>
      match decodeN n s with
      | .error e => .error e
      | .ok (rs, s) => .ok (r :: rs, s)

theorem wireAll_cons_ok {m : Msg} {ms : List Msg} {w : Bytes} (h : wireAll (m :: ms) = .ok w) :
    ∃ a b, wire m.args (some m.pre) = .ok a ∧ wireAll ms = .ok b ∧ w = a ++ b := by
  rw [wireAll] at h
  rcases ha : wire m.args (some m.pre) with e | a <;> rw [ha] at h
  · cases h
  · rcases hb : wireAll ms with e | b <;> rw [hb] at h
    · cases h
    · cases h
      exact ⟨a, b, rfl, rfl, rfl⟩

/-- A sequence of messages is encoded exactly when the tables of all of them can be made. -/
theorem wireAll_iff (ms : List Msg) : (∃ w, wireAll ms = .ok w) ↔ ∀ m ∈ ms, m.elements ≤ maxArgs := by
  induction ms with
  | nil => simp [wireAll]
  | cons m ms ih =>
    rw [List.forall_mem_cons, ← ih, ← m.wire_iff]
    constructor
    · rintro ⟨w, hw⟩
      obtain ⟨a, b, ha, hb, -⟩ := wireAll_cons_ok hw
      exact ⟨⟨a, ha⟩, b, hb⟩
    · rintro ⟨⟨a, ha⟩, b, hb⟩
      exact ⟨a ++ b, by rw [wireAll, ha, hb]⟩

/-- What a sequence of messages was encoded to is read back message by message, whatever bytes follow:
these remain unread. -/
theorem decodeN_wireAll {ms : List Msg} {w : Bytes} (hw : wireAll ms = .ok w) (rest fault : Bytes) :
    decodeN ms.length ⟨w ++ rest, fault⟩ = .ok (ms.map Msg.ret, ⟨rest, fault⟩) := by
  induction ms generalizing w with
  | nil =>
    cases hw
    rfl
  | cons m ms ih =>
    obtain ⟨a, b, ha, hb, rfl⟩ := wireAll_cons_ok hw
    have hm := m.wire_iff.1 ⟨a, ha⟩
    rw [m.wire_eq hm] at ha
    cases ha
    rw [List.length_cons, decodeN, List.append_assoc, decode_bytes _ (m.reply_wf hm)]
    simp only [ih hb, m.reply_ret, List.map_cons]

/-- Every sequence of messages whose arrays have at most `maxArgs` elements is encoded, no other one is;
and whatever is encoded is read back message by message from the concatenation, with any bytes behind
it, which remain unread. -/
theorem codec_round_trip (ms : List Msg) :
    ((∃ w, wireAll ms = .ok w) ↔ ∀ m ∈ ms, m.elements ≤ maxArgs) ∧
      ∀ w, wireAll ms = .ok w → ∀ rest fault,
        decodeN ms.length ⟨w ++ rest, fault⟩ = .ok (ms.map Msg.ret, ⟨rest, fault⟩) :=
  ⟨wireAll_iff ms, fun _ hw rest fault => decodeN_wireAll hw rest fault⟩

end NgProxy.Codec
