/-
Relaying a backend's reply to the client of a single-key command: `decode`, then `encode` with the
prefix `decode` returned, then the socket's `send`. The encoder knows one level of arrays whose
elements it takes for bulk strings, so an array reply passes unchanged exactly when it is such an
array, and short enough for the encoder's table.
-/
import NgProxy.Codec.RoundTrip

namespace NgProxy.Codec

open Lua Text

/-- `redis_key` once `send_cluster_command` has returned. -/
def redisKeyReply (ret : Ret) : Except LuaError (Option (List Value)) :=
  if ret.err.truthy then encode ret.err (some typeErrorReply) else encode ret.val ret.pre

/-- The end of `handle`: the reply table goes to `send`, a missing one is an internal error. -/
def sendReply : Option (List Value) → Except LuaError Bytes
  | none => .ok serverErr
  | some l => flatTab l

/-- What the client receives when the backend's answer is `reply`. -/
def relay (reply : Bytes) : Except LuaError Bytes :=
  match decode ⟨reply, bytes "closed"⟩ with
  | .error e => .error e
  | .ok (ret, _) =>
    match redisKeyReply ret with
    | .error e => .error e
    | .ok rsp => sendReply rsp

theorem relay_bytes (r : Reply) (hw : r.wf = true) :
    relay r.bytes = match redisKeyReply r.ret with
      | .error e => .error e
      | .ok rsp => sendReply rsp := by
  have h := decode_bytes r hw [] (bytes "closed")
  rw [List.append_nil] at h
  unfold relay
  rw [h]

/-! ## Array replies -/

/-- An array or the null array. -/
def Reply.isArray : Reply → Bool
  | .nilArray => true
  | .array _ => true
  | _ => false

theorem redisKeyReply_value (v : Value) (pre : Option Nat) : redisKeyReply ⟨v, pre, .nil⟩ = encode v pre := by
  simp [redisKeyReply, Value.truthy]

theorem redisKeyReply_error (v : Value) (pre : Option Nat) (t : Bytes) :
    redisKeyReply ⟨v, pre, .str t⟩ = encode (.str t) (some typeErrorReply) := by simp [redisKeyReply, Value.truthy]

theorem redisKeyReply_array (l : List Reply) :
    redisKeyReply (Reply.array l).ret = encode (.tab (l.map Reply.val)) (some typeMultiBulkReply) := by
  rw [Reply.ret, redisKeyReply_value, vals_eq_map]

theorem encodeArg_ok {v : Value} {x : List Value} (h : encodeArg v = .ok x) :
    ∃ y, x = .str (bytes "$") :: y := by
  unfold encodeArg at h
  split at h
  · cases h; exact ⟨_, rfl⟩
  · split at h
    · cases h
    · cases h; exact ⟨_, rfl⟩

theorem encodeArgs_cons_ok {v : Value} {l x : List Value} (h : encodeArgs (v :: l) = .ok x) :
    ∃ a b, encodeArg v = .ok a ∧ encodeArgs l = .ok b ∧ x = a ++ b := by
  rw [encodeArgs] at h
  rcases ha : encodeArg v with e | a <;> rw [ha] at h
  · cases h
  · rcases hb : encodeArgs l with e | b <;> rw [hb] at h
    · cases h
    · cases h; exact ⟨a, b, rfl, rfl, rfl⟩

theorem flatTab_cons_inv {v : Value} {l : List Value} {w : Bytes} (h : flatTab (v :: l) = .ok w) :
    ∃ a b, flat v = .ok a ∧ flatTab l = .ok b ∧ w = a ++ b := by
  rw [flatTab] at h
  rcases ha : flat v with e | a <;> rw [ha] at h
  · cases h
  · rcases hb : flatTab l with e | b <;> rw [hb] at h
    · cases h
    · cases h; exact ⟨a, b, rfl, rfl, rfl⟩

theorem flatTab_append_inv {l m : List Value} {w : Bytes} (h : flatTab (l ++ m) = .ok w) :
    ∃ a b, flatTab l = .ok a ∧ flatTab m = .ok b ∧ w = a ++ b := by
  induction l generalizing w with
  | nil => exact ⟨[], w, flatTab_nil, h, rfl⟩
  | cons v l ih =>
    obtain ⟨a, b, ha, hb, rfl⟩ := flatTab_cons_inv h
    obtain ⟨c, d, hc, hd, rfl⟩ := ih hb
    exact ⟨a ++ c, d, flatTab_cons_ok ha hc, hd, by rw [List.append_assoc]⟩

/-- Whatever is not a bulk string starts with another byte than `$`. -/
theorem bytes_head {r : Reply} (h : r.isBulk = false) (t u : Bytes) : 36 :: t ≠ r.bytes ++ u := by
  cases r with
  | bulk s => cases h
  | nilBulk => cases h
  | status s => simp [Reply.bytes]
  | error s => simp [Reply.bytes]
  | int n => simp [Reply.bytes]
  | nilArray => simp [Reply.bytes, bytes]
  | array l => simp [Reply.bytes]

/-! ### What is sent with the prefix of arrays -/

theorem argList_length {v : Value} {n : Nat} (h : v.len = .ok n) : (argList v n).length = n := by
  cases v with
  | tab l =>
    cases h
    rfl
  | str s => exact List.length_replicate
  | _ => cases h

/-- A line end is not a digit, so a number is told from what follows it. -/
theorem decimal_crlf {a b : Nat} {t u : Bytes} (h : decimal a ++ (crlf ++ t) = decimal b ++ (crlf ++ u)) :
    a = b ∧ t = u := by
  have hcut (n : Nat) (r : Bytes) : (decimal n ++ (crlf ++ r)).takeWhile (· ≠ 13) = decimal n := by
    rw [List.takeWhile_append_of_pos fun x hx => by simpa using (decimal_line n x hx).1]
    simp [crlf]
  have hdec : decimal a = decimal b := by
    rw [← hcut a t, h, hcut]
  have hab : a = b := by rw [← readNat_decimal a, hdec, readNat_decimal]
  subst hab
  exact ⟨rfl, List.append_cancel_left (List.append_cancel_left h)⟩

/-- A table starts with the byte of its first string. -/
theorem sendReply_head {b t : Bytes} {l : List Value} {c : UInt8} (hne : b ≠ [])
    (h : sendReply (some (.str b :: l)) = .ok (c :: t)) : b.head? = some c := by
  obtain ⟨a, d, ha, -, heq⟩ := flatTab_cons_inv (v := .str b) (l := l) h
  rw [flat_str] at ha
  cases ha
  obtain ⟨d, b, rfl⟩ := List.exists_cons_of_ne_nil hne
  rw [List.cons_append, List.cons.injEq] at heq
  rw [heq.1]
  rfl

/-- What `encode` makes: nothing, a table that does not start with the prefix of arrays, or an array whose
header counts the elements of `v`. -/
theorem encode_cases {v : Value} {pre : Option Nat} {o : Option (List Value)} (h : encode v pre = .ok o) :
    o = none ∨ (∃ b l, o = some (.str b :: l) ∧ b ≠ [] ∧ b.head? ≠ some 42) ∨
      pre = some typeMultiBulkReply ∧ ∃ n x, v.len = .ok n ∧ n ≤ maxArgs ∧ encodeArgs (argList v n) = .ok x ∧
        o = some (.str (bytes "*" ++ decimal n ++ crlf) :: x) := by
  unfold encode at h
  split at h
  · rcases ha : encodeArg v with e | x <;> rw [ha] at h
    · cases h
    · cases h
      obtain ⟨y, rfl⟩ := encodeArg_ok ha
      exact .inr (.inl ⟨_, _, rfl, by decide, by decide⟩)
  split at h
  · cases h
    exact .inr (.inl ⟨_, _, rfl, by decide, by decide⟩)
  split at h
  · rename_i hpre
    rcases hlen : v.len with e | n <;> rw [hlen] at h
    · cases h
    dsimp only at h
    split at h
    · cases h
    rename_i hmax
    have hn : n ≤ maxArgs := (maxArgs_iff n).1 (not_lt.1 hmax)
    rw [multiTab, argList_length hlen, args_text hn] at h
    rcases hx : encodeArgs (argList v n) with e | x <;> rw [hx] at h
    · cases h
    cases h
    exact .inr (.inr ⟨hpre, n, x, rfl, hn, hx, rfl⟩)
  split at h
  · cases h
    exact .inr (.inl ⟨_, _, rfl, by decide, by decide⟩)
  split at h
  · cases h
    exact .inr (.inl ⟨_, _, rfl, by decide, by decide⟩)
  · cases h
    exact .inl rfl

/-- A reply that starts with the prefix of arrays was encoded as one: its header counts the elements of
the table, which was short enough to be made. -/
theorem relay_multi {reply t : Bytes} (h : relay reply = .ok (42 :: t)) :
    ∃ v err s n x y, decode ⟨reply, bytes "closed"⟩ = .ok (⟨v, some typeMultiBulkReply, err⟩, s) ∧ v.len = .ok n ∧
      n ≤ maxArgs ∧ encodeArgs (argList v n) = .ok x ∧ flatTab x = .ok y ∧ t = decimal n ++ (crlf ++ y) := by
  unfold relay at h
  rcases hd : decode ⟨reply, bytes "closed"⟩ with e | ⟨⟨v, pre, err⟩, s⟩ <;> rw [hd] at h
  · cases h
  dsimp only at h
  rcases hk : redisKeyReply ⟨v, pre, err⟩ with e | rsp <;> rw [hk] at h
  · cases h
  dsimp only at h
  unfold redisKeyReply at hk
  split at hk
  · cases hk
    exact absurd (sendReply_head (by decide) h) (by decide)
  · rcases encode_cases hk with rfl | ⟨b, l, rfl, hne, hb⟩ | ⟨rfl, n, x, hlen, hn, hx, rfl⟩
    · cases h
    · exact absurd (sendReply_head hne h) hb
    · obtain ⟨a, y, ha, hy, heq⟩ := flatTab_cons_inv (v := .str (bytes "*" ++ decimal n ++ crlf)) (l := x) h
      rw [flat_str] at ha
      cases ha
      refine ⟨v, err, s, n, x, y, rfl, hlen, hn, hx, hy, ?_⟩
      simpa [bytes] using heq

/-! ### What was read -/

theorem decodeVals_extends {dec : Sock → Except LuaError (Ret × Sock)} {pre n : Nat} {vals full : List Value}
    {s s' : Sock} {p : Option Nat} {err : Value}
    (h : decodeVals dec pre n vals s = .ok (⟨.tab full, p, err⟩, s')) :
    ∃ more, full = vals ++ more := by
  induction n generalizing vals s with
  | zero =>
    cases h
    exact ⟨[], (List.append_nil _).symm⟩
  | succ n ih =>
    rw [decodeVals] at h
    rcases hd : dec s with e | ⟨r, s₁⟩ <;> rw [hd] at h
    · cases h
    dsimp only at h
    split at h
    · cases h
    all_goals
      obtain ⟨more, rfl⟩ := ih h
      exact ⟨_, List.append_assoc ..⟩

/-- The loop ends with a table, or gives up at an element that could not be read. -/
theorem decodeVals_val {dec : Sock → Except LuaError (Ret × Sock)} {pre n : Nat} {vals : List Value} {s s' : Sock}
    {ret : Ret} (h : decodeVals dec pre n vals s = .ok (ret, s')) : ret.val = .nil ∨ ∃ full, ret.val = .tab full := by
  induction n generalizing vals s with
  | zero =>
    cases h
    exact .inr ⟨_, rfl⟩
  | succ n ih =>
    rw [decodeVals] at h
    rcases hd : dec s with e | ⟨r, s₁⟩ <;> rw [hd] at h
    · cases h
    dsimp only at h
    split at h
    · cases h
      exact .inl rfl
    all_goals exact ih h

/-- One element more was read. -/
theorem decodeVals_succ {dec : Sock → Except LuaError (Ret × Sock)} {pre n : Nat} {vals full : List Value} {s s' : Sock}
    {p : Option Nat} {err : Value} (h : decodeVals dec pre (n + 1) vals s = .ok (⟨.tab full, p, err⟩, s')) :
    ∃ v more, full = vals ++ v :: more := by
  rw [decodeVals] at h
  rcases hd : dec s with e | ⟨r, s₁⟩ <;> rw [hd] at h
  · cases h
  dsimp only at h
  split at h
  · cases h
  all_goals
    obtain ⟨more, rfl⟩ := decodeVals_extends h
    exact ⟨_, more, by rw [List.append_assoc]; rfl⟩

/-- If what was read from the wire forms of `l` is encoded as these, every element is a bulk string: at
the first other one the encoder has written `$` for another prefix. -/
theorem bulks_of_decodeVals {dec : Sock → Except LuaError (Ret × Sock)} {fault : Bytes} {pre : Nat} {l : List Reply}
    (hdec : ∀ r ∈ l, r.isBulk = true → ∀ rest, dec ⟨r.bytes ++ rest, fault⟩ = .ok (r.ret, ⟨rest, fault⟩))
    (hlen : ∀ r ∈ l, r.payload.length < 10 ^ 14) {vals full : List Value} {p : Option Nat} {err : Value} {s : Sock}
    (hd : decodeVals dec pre l.length vals ⟨Reply.bytesList l, fault⟩ = .ok (⟨.tab full, p, err⟩, s)) :
    ∃ more, full = vals ++ more ∧
      ∀ x, encodeArgs more = .ok x → flatTab x = .ok (Reply.bytesList l) → ∀ r ∈ l, r.isBulk = true := by
  induction l generalizing vals with
  | nil => exact ⟨_, (decodeVals_extends hd).choose_spec, fun _ _ _ r hr => by cases hr⟩
  | cons r l ih =>
    rw [List.forall_mem_cons] at hdec hlen
    cases hr : r.isBulk with
    | false =>
      obtain ⟨v, more, rfl⟩ := decodeVals_succ hd
      refine ⟨v :: more, rfl, fun x hx fx => ?_⟩
      obtain ⟨a, b, ha, -, rfl⟩ := encodeArgs_cons_ok hx
      obtain ⟨wa, wb, fa, -, hw⟩ := flatTab_append_inv fx
      obtain ⟨y, rfl⟩ := encodeArg_ok ha
      obtain ⟨c, d, hc, -, rfl⟩ := flatTab_cons_inv fa
      rw [flat_str] at hc
      cases hc
      exact absurd hw.symm (bytes_head hr _ _)
    | true =>
      have hread : decodeVals dec pre l.length (vals ++ [r.val]) ⟨Reply.bytesList l, fault⟩ =
          .ok (⟨.tab full, p, err⟩, s) := by
        rw [List.length_cons, decodeVals, Reply.bytesList, hdec.1 hr] at hd
        cases r with
        | bulk s => exact hd
        | nilBulk => exact hd
        | _ => cases hr
      obtain ⟨more, rfl, hmore⟩ := ih hdec.2 hlen.2 hread
      refine ⟨r.val :: more, by rw [List.append_assoc]; rfl, fun x hx fx => ?_⟩
      obtain ⟨a, b, ha, hb, rfl⟩ := encodeArgs_cons_ok hx
      obtain ⟨wa, wb, fa, fb, hw⟩ := flatTab_append_inv fx
      obtain ⟨a', ha', fa'⟩ := encodeArg_short hr hlen.1
      rw [ha] at ha'; cases ha'
      rw [fa] at fa'; cases fa'
      rw [Reply.bytesList] at hw
      exact List.forall_mem_cons.2 ⟨hr, hmore b hb (by rw [fb, List.append_cancel_left hw])⟩

theorem wellFormedList_mem {l : List Reply} (h : Reply.wellFormedList l = true) : ∀ r ∈ l, r.wellFormed = true := by
  induction l with
  | nil => intro r hr; cases hr
  | cons a l ih =>
    rw [Reply.wellFormedList, Bool.and_eq_true] at h
    exact List.forall_mem_cons.2 ⟨h.1, ih h.2⟩

theorem Reply.wf_of_bulk {r : Reply} (hb : r.isBulk = true) (hw : r.wellFormed = true) : r.wf = true := by
  cases r with
  | bulk s => simpa [Reply.wellFormed] using hw
  | nilBulk => simp [Reply.wf]
  | _ => cases hb

theorem Reply.payload_of_wellFormed {r : Reply} (hw : r.wellFormed = true) : r.payload.length < 10 ^ 14 := by
  cases r with
  | bulk s => exact Reply.payload_of_wf (Reply.wf_of_bulk rfl hw)
  | _ => exact Nat.pow_pos (by decide)

/-- An array that is relayed unchanged has few enough elements, and these are bulk strings. -/
theorem bulks_of_relay {l : List Reply} (hw : ∀ r ∈ l, r.wellFormed = true)
    (h : relay (Reply.array l).bytes = .ok (Reply.array l).bytes) :
    l.length ≤ maxArgs ∧ ∀ r ∈ l, r.isBulk = true := by
  have hbytes : (Reply.array l).bytes = 42 :: (decimal l.length ++ crlf ++ Reply.bytesList l) := by rw [Reply.bytes]
  rw [hbytes] at h
  obtain ⟨v, err, s, n, x, y, hd, hv, hn, hx, hy, ht⟩ := relay_multi h
  -- the header that was sent is the one that was read
  rw [List.append_assoc] at ht
  obtain ⟨rfl, hrest⟩ := decimal_crlf ht
  refine ⟨hn, ?_⟩
  have hmax : l.length ≤ maxArr := le_trans hn (by decide)
  have hcount := tonumber_decimal l.length (le_trans hmax (by unfold maxArr; omega))
  rw [decode, decodeAux_line _ _ _ _ _ (by decide) (decimal_line _), if_neg (by decide), if_neg (by decide),
    if_pos (by decide), decodeMulti_count _ hcount hmax] at hd
  -- what was read is a table, so its elements are those that were encoded
  obtain ⟨full, rfl⟩ : ∃ full, v = .tab full := by
    rcases decodeVals_val hd with rfl | hfull
    · cases hv
    · exact hfull
  have hdec : ∀ r ∈ l, r.isBulk = true → ∀ rest, decodeAux
      (decimal l.length ++ crlf ++ Reply.bytesList l).length.succ ⟨r.bytes ++ rest, bytes "closed"⟩ =
        .ok (r.ret, ⟨rest, bytes "closed"⟩) := by
    intro r hr hb rest
    refine decodeAux_bytes _ r (Reply.wf_of_bulk hb (hw r hr)) _ rest ?_
    have := length_le_bytesList hr
    simp only [List.length_append]
    omega
  obtain ⟨more, hfull, hbulks⟩ := bulks_of_decodeVals hdec (fun r hr => Reply.payload_of_wellFormed (hw r hr)) hd
  rw [List.nil_append] at hfull
  subst hfull
  exact hbulks x hx (by rw [hy, hrest])

/-- An array reply reaches the client unchanged exactly when it is not the null array, all its elements
are bulk strings or null bulks, and there are at most `maxArgs` of them. -/
theorem relay_array_iff (r : Reply) (ha : r.isArray = true) (hw : r.wellFormed = true) :
    relay r.bytes = .ok r.bytes ↔ ∃ l, r = .array l ∧ l.length ≤ maxArgs ∧ ∀ e ∈ l, e.isBulk = true := by
  cases r with
  | array l =>
    rw [Reply.wellFormed] at hw
    have hwl := wellFormedList_mem hw
    constructor
    · exact fun h => ⟨l, rfl, bulks_of_relay hwl h⟩
    · rintro ⟨m, hm, hlen, hb⟩
      cases hm
      have hwb : ∀ r ∈ l, r.wf = true := fun r hr => Reply.wf_of_bulk (hb r hr) (hwl r hr)
      have hwf : (Reply.array l).wf = true := by
        rw [Reply.wf, decide_eq_true (le_trans hlen (by decide)), wfList_of_mem hwb]
        rfl
      have hwire := wire_array hlen hb hwb
      obtain ⟨x, hx, -⟩ := encodeArgs_bulks hb hwb
      have henc := encode_tab (by rwa [List.length_map]) hx
      rw [wire, henc] at hwire
      rw [relay_bytes _ hwf, redisKeyReply_array, henc]
      exact hwire
  | nilArray =>
    -- `#args` of `ngx.null` raises
    constructor
    · intro h; cases h
    · rintro ⟨l, hl, -⟩; cases hl
  | status s => cases ha
  | error s => cases ha
  | int n => cases ha
  | bulk s => cases ha
  | nilBulk => cases ha

/-- A cursor and a list of fields: what HSCAN answers. -/
def scanReply : Reply := .array [.bulk (bytes "0"), .array [.bulk (bytes "f"), .bulk (bytes "v")]]

theorem relay_array_iff_pair :
    (Reply.array [.bulk (bytes "a"), .nilBulk]).wellFormed = true ∧
      relay (bytes "*2\r\n$1\r\na\r\n$-1\r\n") = .ok (bytes "*2\r\n$1\r\na\r\n$-1\r\n") :=
  ⟨by decide, (relay_array_iff (.array [.bulk (bytes "a"), .nilBulk]) rfl (by decide)).2
    ⟨_, rfl, by decide, by decide⟩⟩

/-- The nested list of an HSCAN reply is sent as one bulk string whose announced length is the
number of its elements. -/
theorem relay_scan_broken :
    scanReply.isArray = true ∧ scanReply.wellFormed = true ∧
      scanReply.bytes = bytes "*2\r\n$1\r\n0\r\n*2\r\n$1\r\nf\r\n$1\r\nv\r\n" ∧
      relay scanReply.bytes = .ok (bytes "*2\r\n$1\r\n0\r\n$2\r\nfv\r\n") ∧
      ¬ ∀ r : Reply, r.isArray = true → r.wellFormed = true → relay r.bytes = .ok r.bytes := by
  have h : relay scanReply.bytes = .ok (bytes "*2\r\n$1\r\n0\r\n$2\r\nfv\r\n") := by rfl
  refine ⟨rfl, by decide, by rfl, h, fun hall => ?_⟩
  have := hall scanReply rfl (by decide)
  rw [h] at this
  exact absurd this (by decide)

/-! ## Integer replies -/

/-- What `encode` makes of a number under the prefix of integers, as it is sent. -/
theorem flatTab_integer (n : Number) :
    flatTab [.str (bytes ":"), .str n.text, .str crlf] = .ok (58 :: (n.text ++ crlf)) := by
  rw [flatTab_cons_ok (flat_str _) (flatTab_cons_ok (flat_str _) (flatTab_cons_ok (flat_str _) flatTab_nil)),
    List.append_nil]
  rfl

theorem integer_text_iff (n : Number) (m : Int) :
    (Except.ok (58 :: (n.text ++ crlf)) : Except LuaError Bytes) = .ok (Reply.int m).bytes ↔ n.text = decimalInt m := by
  rw [Reply.bytes]
  simp

/-- An integer reply reaches the client unchanged exactly when it has at most fourteen digits. -/
theorem relay_int_iff (n : Int) (hw : (Reply.int n).wf = true) :
    relay (Reply.int n).bytes = .ok (Reply.int n).bytes ↔ n.natAbs < 10 ^ 14 := by
  have henc : encode (.num (toDouble n)) (some typeIntegerReply) =
      .ok (some [.str (bytes ":"), .str (toDouble n).text, .str crlf]) := rfl
  rw [relay_bytes _ hw, Reply.ret, redisKeyReply_value, henc]
  dsimp only [sendReply]
  rw [flatTab_integer, integer_text_iff, toDouble_text_iff]

end NgProxy.Codec
