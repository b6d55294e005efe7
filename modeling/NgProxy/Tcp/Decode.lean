/-
`decode` over a socket that receives in pieces. It makes the same calls of `receive` as on the plain bytes, so it
returns the same and leaves the socket right behind what it has read: replies come out one by one and in order, however
the stream of them is cut.
-/
import NgProxy.Codec.RoundTrip
import NgProxy.Tcp.Receive

namespace NgProxy.Tcp

open Lua Codec Text

/-! ## `decode` of any socket -/

/-- `local first = …`. -/
def first (ret : List Value) : Value := ret.headD .nil

/-- `local _, second = …`. -/
def second (ret : List Value) : Value := ret.tail.headD .nil

section Decode

variable {σ : Type} (receive : Option Value → σ → Except LuaError (List Value) × σ)

/-- The `$` branch of `decode`. -/
def bulkFrom (text : Bytes) (s : σ) : Except LuaError (Ret × σ) :=
  match tonumber text with
  | none => .error .compare
  | some size =>
    if size.isNeg then .ok (⟨.null, some typeBulkReply, .nil⟩, s)
    else
      match receive (some (.num size)) s with
      | (.error e, _) => .error e
      | (.ok data, s) =>
        if (first data).truthy then
          match receive (some (.num (.int 2))) s with
          | (.error e, _) => .error e
          | (.ok dummy, s) =>
            if (first dummy).truthy then .ok (⟨first data, some typeBulkReply, .nil⟩, s)
            else .ok (⟨.nil, some typeBulkReply, second dummy⟩, s)
        else .ok (⟨.nil, some typeBulkReply, second data⟩, s)

/-- The element loop of `decode`. -/
def valsFrom (dec : σ → Except LuaError (Ret × σ)) (pre : Nat) : Nat → List Value → σ → Except LuaError (Ret × σ)
  | 0, vals, s => .ok (⟨.tab vals, some pre, .nil⟩, s)
  | n + 1, vals, s =>
    match dec s with
    | .error e => .error e
    | .ok (r, s) =>
      match r.val with
      | .nil => .ok (⟨.nil, some pre, preVal r.pre⟩, s)
      | .bool false => valsFrom dec pre n (vals ++ [.tab [.bool false, preVal r.pre]]) s
      | v => valsFrom dec pre n (vals ++ [v]) s

/-- The `*` branch of `decode`. A loop without an end of its own ends with the stream, of which there are `left`
bytes. -/
def multiFrom (left : σ → Nat) (dec : σ → Except LuaError (Ret × σ)) (text : Bytes) (s : σ) :
    Except LuaError (Ret × σ) :=
  match tonumber text with
  | none => .error .compare
  | some n =>
    if n.isNeg then .ok (⟨.null, some typeMultiBulkReply, .nil⟩, s)
    else
      match newTab n with
      | .error e => .error e
      | .ok () => valsFrom dec typeMultiBulkReply (n.loopCount.getD (left s + 1)) [] s

/-- `decode` of a socket, with a bound on the nesting depth. -/
def decodeFrom (left : σ → Nat) : Nat → σ → Except LuaError (Ret × σ)
  | 0, _ => .error .fuel
  | fuel + 1, s =>
    match receive none s with
    | (.error e, _) => .error e
    | (.ok ret, s) =>
      match first ret with
      | .str (b :: text) =>
        if b.toNat = typeBulkReply then bulkFrom receive text s
        else if b.toNat = typeStatusReply then .ok (⟨.str text, some typeStatusReply, .nil⟩, s)
        else if b.toNat = typeMultiBulkReply then multiFrom left (decodeFrom left fuel) text s
        else if b.toNat = typeIntegerReply then
          .ok (⟨(tonumber text).elim .nil .num, some typeIntegerReply, .nil⟩, s)
        else if b.toNat = typeErrorReply then .ok (⟨.bool false, some typeErrorReply, .str text⟩, s)
        else
          .ok (⟨.nil, some b.toNat, .str (bytes "unkown prefix: \"" ++ decimal b.toNat ++ bytes "\"")⟩, s)
      | _ => .ok (⟨.nil, some 0, second ret⟩, s)

end Decode

/-- The bytes a socket has still to read. -/
def Socket.left (conf : Conf) (s : Socket) : Nat :=
  (s.upstream.input conf).last - (s.upstream.input conf).pos + s.wire.pending.length

/-- `decode` of a cosocket. -/
def Socket.decode (conf : Conf) (s : Socket) : Except LuaError (Ret × Socket) :=
  decodeFrom (Socket.receive conf) (Socket.left conf) (s.left conf + 1) s

/-! ## The calls of `receive` -/

/-- The socket will read the bytes of `k`. -/
def Backs (conf : Conf) (s : Socket) (k : Sock) : Prop :=
  ∃ fault, Carries conf s ⟨k.input, fault⟩ ∧ k.fault = fault.text conf

variable {conf : Conf} {s : Socket} {k : Sock}

theorem Backs.left (h : Backs conf s k) : s.left conf = k.input.length := by
  obtain ⟨fault, ⟨unread, hready, hinput, -⟩, -⟩ := h
  have hlen := congrArg List.length hinput
  rw [List.length_append] at hlen
  rw [Socket.left, hready.holds.size]
  exact hlen

/-- A call on both levels: the same bytes and the same rest of the stream, or the same error, and nothing is left. -/
def Same (conf : Conf) (x : Except LuaError (List Value) × Socket) (y : Except Bytes Bytes × Sock) : Prop :=
  (∃ data s k, x = (.ok [.str data], s) ∧ y = (.ok data, k) ∧ Backs conf s k) ∨
    ∃ e part s k, x = (.ok [.nil, .str e, .str part], s) ∧ y = (.error e, k) ∧ k.input = []

theorem same_data (hsize : 0 < conf.bufferSize) {fault : Fault} (hs : Carries conf s ⟨k.input, fault⟩)
    (hfault : k.fault = fault.text conf) {arg : Option Value} {data rest : Bytes}
    (h : Source.receive conf arg ⟨k.input, fault⟩ = some (.ok [.str data], some ⟨rest, fault⟩)) :
    Same conf (s.receive conf arg) (.ok data, ⟨rest, k.fault⟩) := by
  obtain ⟨s', hs', hnext⟩ := receive_agrees hsize hs h
  rw [hs']
  exact .inl ⟨data, s', _, rfl, rfl, fault, hnext _ rfl, hfault⟩

theorem same_ended (hsize : 0 < conf.bufferSize) {fault : Fault} (hs : Carries conf s ⟨k.input, fault⟩)
    (hfault : k.fault = fault.text conf) {arg : Option Value} (part : Bytes) (next : Option Source)
    (h : Source.receive conf arg ⟨k.input, fault⟩ = some (.ok [.nil, .str (fault.text conf), .str part], next)) :
    Same conf (s.receive conf arg) (.error k.fault, ⟨[], k.fault⟩) := by
  obtain ⟨s', hs', -⟩ := receive_agrees hsize hs h
  rw [hs', hfault]
  exact .inr ⟨_, part, s', _, rfl, rfl, rfl⟩

theorem receive_line_same (hsize : 0 < conf.bufferSize) (h : Backs conf s k) :
    Same conf (s.receive conf none) k.receiveLine := by
  obtain ⟨fault, hs, hfault⟩ := h
  by_cases hl : (10 : UInt8) ∈ k.input
  · have hdrop : k.input.dropWhile (· ≠ 10) = 10 :: (k.input.dropWhile (· ≠ 10)).tail := by
      have hsplit := split_line hl
      conv_lhs at hsplit => rw [← List.takeWhile_append_dropWhile (p := fun b => decide (b ≠ 10)) (l := k.input)]
      exact List.append_cancel_left hsplit
    rw [Sock.receiveLine, hdrop]
    exact same_data hsize hs hfault (congrArg some (by rw [if_pos hl]))
  · have hdrop : k.input.dropWhile (· ≠ 10) = [] := by
      rw [List.dropWhile_eq_nil_iff]
      intro b hb
      have hne : b ≠ 10 := fun h => hl (h ▸ hb)
      simpa using hne
    rw [Sock.receiveLine, hdrop]
    exact same_ended hsize hs hfault _ _ (congrArg some (by rw [if_neg hl]; rfl))

theorem receive_size_same (hsize : 0 < conf.bufferSize) (h : Backs conf s k) (n : Number) :
    (s.receive conf (some (.num n)) = (.error .argument, s) ∧ k.receive n.toInteger = .error .argument) ∨
      ∃ y, k.receive n.toInteger = .ok y ∧ Same conf (s.receive conf (some (.num n))) y := by
  obtain ⟨fault, hs, hfault⟩ := h
  have hopen : ¬s.upstream.readClosed = true := by
    obtain ⟨unread, hready, -⟩ := hs
    simp [hready.readClosed]
  by_cases hn : n.toInteger < 0
  · left
    constructor
    · simp [Socket.receive, hopen, Want.ofArg, Value.toNum, hn]
    · rw [Sock.receive, if_pos hn]
  · right
    rw [Sock.receive, if_neg hn]
    by_cases hle : n.toInteger.toNat ≤ k.input.length
    · rw [if_pos hle]
      refine ⟨_, rfl, same_data hsize hs hfault ?_⟩
      simp [Source.receive, Want.ofArg, Value.toNum, hn, Source.want, hle]
    · rw [if_neg hle]
      refine ⟨_, rfl, same_ended hsize hs hfault k.input (Source.ended conf ⟨k.input, fault⟩ k.input).2 ?_⟩
      simp [Source.receive, Want.ofArg, Value.toNum, hn, Source.want, hle, Source.ended]

/-! ## The two decoders -/

/-- `decode` on both levels: the same error, or the same results; and the socket is where the plain one is, unless the
stream has ended. -/
def Agree (conf : Conf) (x : Except LuaError (Ret × Socket)) (y : Except LuaError (Ret × Sock)) : Prop :=
  (∃ e, x = .error e ∧ y = .error e) ∨
    ∃ r s k, x = .ok (r, s) ∧ y = .ok (r, k) ∧ (Backs conf s k ∨ r.val = .nil ∧ k.input = [])

theorem Agree.ok {r : Ret} (h : Backs conf s k) : Agree conf (.ok (r, s)) (.ok (r, k)) :=
  .inr ⟨r, s, k, rfl, rfl, .inl h⟩

theorem bulkFrom_agree (hsize : 0 < conf.bufferSize) (h : Backs conf s k) (text : Bytes) :
    Agree conf (bulkFrom (Socket.receive conf) text s) (decodeBulk text k) := by
  rw [bulkFrom, decodeBulk]
  rcases tonumber text with _ | size
  · exact .inl ⟨_, rfl, rfl⟩
  · dsimp only
    split
    · exact .ok h
    · rcases receive_size_same hsize h size with ⟨hx, hy⟩ | ⟨y, hy, hsame⟩
      · rw [hx, hy]
        exact .inl ⟨_, rfl, rfl⟩
      · rw [hy]
        rcases hsame with ⟨data, s₁, k₁, hx, rfl, h₁⟩ | ⟨e, part, s₁, k₁, hx, rfl, hk₁⟩
        · rw [hx]
          dsimp only
          rw [if_pos (show (first [.str data]).truthy = true from rfl)]
          -- the line end behind the data
          rcases receive_size_same hsize h₁ (.int 2) with ⟨-, hy₂⟩ | ⟨y, hy₂, hsame⟩
          · exact absurd hy₂ (by simp [Sock.receive, Number.toInteger]; split <;> simp)
          · rcases hsame with ⟨dummy, s₂, k₂, hx₂, rfl, h₂⟩ | ⟨e, part, s₂, k₂, hx₂, rfl, hk₂⟩
            · rw [hx₂, show k₁.receive 2 = _ from hy₂]
              exact .ok h₂
            · rw [hx₂, show k₁.receive 2 = _ from hy₂]
              exact .inr ⟨_, s₂, k₂, rfl, rfl, .inr ⟨rfl, hk₂⟩⟩
        · rw [hx]
          exact .inr ⟨_, s₁, k₁, rfl, rfl, .inr ⟨rfl, hk₁⟩⟩

section Elements

variable {dec : Socket → Except LuaError (Ret × Socket)} {dec' : Sock → Except LuaError (Ret × Sock)}

theorem valsFrom_agree (hdec : ∀ s k, Backs conf s k → Agree conf (dec s) (dec' k)) (h : Backs conf s k) (pre n : Nat)
    (vals : List Value) : Agree conf (valsFrom dec pre n vals s) (decodeVals dec' pre n vals k) := by
  induction n generalizing vals s k with
  | zero => exact .ok h
  | succ n ih =>
    rw [valsFrom, decodeVals]
    rcases hdec s k h with ⟨e, hx, hy⟩ | ⟨r, s₁, k₁, hx, hy, hback⟩
    · rw [hx, hy]
      exact .inl ⟨e, rfl, rfl⟩
    · rw [hx, hy]
      obtain ⟨v, p, err⟩ := r
      have hgo : v ≠ .nil → Backs conf s₁ k₁ := fun hv => hback.resolve_right fun h => hv h.1
      cases v with
      | nil => exact .inr ⟨_, s₁, k₁, rfl, rfl, hback.imp_right fun h => ⟨rfl, h.2⟩⟩
      | null => exact ih (hgo (by simp)) _
      | bool b =>
        cases b with
        | false => exact ih (hgo (by simp)) _
        | true => exact ih (hgo (by simp)) _
      | num n => exact ih (hgo (by simp)) _
      | str t => exact ih (hgo (by simp)) _
      | tab l => exact ih (hgo (by simp)) _

theorem multiFrom_agree (hdec : ∀ s k, Backs conf s k → Agree conf (dec s) (dec' k)) (h : Backs conf s k)
    (text : Bytes) :
    Agree conf (multiFrom (Socket.left conf) dec text s) (decodeMulti dec' text k) := by
  rw [multiFrom, decodeMulti]
  rcases tonumber text with _ | n
  · exact .inl ⟨_, rfl, rfl⟩
  · dsimp only
    split
    · exact .ok h
    · rcases newTab n with e | ⟨⟩
      · exact .inl ⟨e, rfl, rfl⟩
      · dsimp only
        rw [h.left]
        exact valsFrom_agree hdec h _ _ _

end Elements

theorem decodeFrom_agree (hsize : 0 < conf.bufferSize) (fuel : Nat) (h : Backs conf s k) :
    Agree conf (decodeFrom (Socket.receive conf) (Socket.left conf) fuel s) (decodeAux fuel k) := by
  induction fuel generalizing s k with
  | zero => exact .inl ⟨_, rfl, rfl⟩
  | succ fuel ih =>
    rw [decodeFrom, decodeAux]
    rcases receive_line_same hsize h with ⟨line, s₁, k₁, hx, hy, h₁⟩ | ⟨e, part, s₁, k₁, hx, hy, hk₁⟩
    · rw [hx, hy]
      cases line with
      | nil => exact .ok h₁
      | cons b text =>
        simp only [first, List.headD_cons]
        split
        · exact bulkFrom_agree hsize h₁ text
        split
        · exact .ok h₁
        split
        · exact multiFrom_agree (fun s k h => ih h) h₁ text
        split
        · exact .ok h₁
        split
        · exact .ok h₁
        · exact .ok h₁
    · rw [hx, hy]
      exact .inr ⟨_, s₁, k₁, rfl, rfl, .inr ⟨rfl, hk₁⟩⟩

theorem decode_agree (hsize : 0 < conf.bufferSize) (h : Backs conf s k) : Agree conf (s.decode conf) (decode k) := by
  rw [Socket.decode, decode, h.left]
  exact decodeFrom_agree hsize _ h

/-! ## Successive replies -/

/-- So many calls of `decode`, up to the first one that raises an error or returns nil. -/
def decodes {σ : Type} (dec : σ → Except LuaError (Ret × σ)) : Nat → σ → List (Except LuaError Ret)
  | 0, _ => []
  | n + 1, s =>
    match dec s with
    | .error e => [.error e]
    | .ok (r, s) => if r.val.isNil then [.ok r] else .ok r :: decodes dec n s

theorem decodes_agree (hsize : 0 < conf.bufferSize) (h : Backs conf s k) (n : Nat) :
    decodes (Socket.decode conf) n s = decodes decode n k := by
  induction n generalizing s k with
  | zero => rfl
  | succ n ih =>
    rw [decodes, decodes]
    rcases decode_agree hsize h with ⟨e, hx, hy⟩ | ⟨r, s₁, k₁, hx, hy, hback⟩
    · rw [hx, hy]
    · rw [hx, hy]
      dsimp only
      split
      · rfl
      · rename_i hval
        rw [ih (hback.resolve_right fun h => hval (by rw [h.1]; rfl))]

/-- However the stream is cut: as long as `decode` returns something, successive calls of it on a new connection return
what they would return on the plain bytes. -/
theorem decodes_plain_stream (conf : Conf) (hsize : 0 < conf.bufferSize) (free : List Buf) (w : Wire) (n : Nat) :
    decodes (Socket.decode conf) n ⟨⟨none, free, false, false⟩, w⟩ = decodes decode n ⟨w.pending, w.fault.text conf⟩ :=
  decodes_agree hsize ⟨w.fault, ⟨[], ready_new conf free, rfl, rfl⟩, rfl⟩ n

/-- Two replies in buffers of three bytes, the second one cut off. -/
theorem decodes_plain_stream_cut :
    decodes (Socket.decode ⟨3, false, fun _ => 0⟩) 2
        ⟨⟨none, [], false, false⟩, ⟨bytes "+OK\r\n$3\r\nab", .timeout, [4]⟩⟩ =
      decodes decode 2 ⟨bytes "+OK\r\n$3\r\nab", bytes "timeout"⟩ :=
  decodes_plain_stream ⟨3, false, fun _ => 0⟩ (by decide) [] ⟨bytes "+OK\r\n$3\r\nab", .timeout, [4]⟩ 2

end NgProxy.Tcp
