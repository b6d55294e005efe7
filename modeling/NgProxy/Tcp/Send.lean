/-
`send`: the length of the data is computed first, then the data is copied into one buffer of that length, and the
buffer goes out in as many pieces as the kernel takes. The two passes over the data agree, and every byte goes out
once and in order.
-/
import NgProxy.Tcp.Buffer

namespace NgProxy.Tcp

open Lua Memory

/-! ## The data -/

mutual

/-- `ngx_stream_lua_calc_strlen_in_table`, an entry. -/
def calcStrlen : Value → Except LuaError Nat
  | .str s => .ok s.length
  | .num n => .ok n.text.length
  | .tab l => calcStrlenInTable l
  | .nil => .error .badType
  | .null => .error .badType
  | .bool _ => .error .badType

def calcStrlenInTable : List Value → Except LuaError Nat
  | [] => .ok 0
  | v :: l =>
    match calcStrlen v with
    | .error e => .error e
    | .ok m =>
      match calcStrlenInTable l with
      | .error e => .error e
      | .ok n => .ok (m + n)

end

mutual

/-- `ngx_stream_lua_copy_str_in_table`, an entry, from `dst` on. This pass knows texts for the values the first one
refuses. -/
def copyStr (mem : Mem) (dst : Nat) : Value → Mem × Nat
  | .str s => (write mem dst s, dst + s.length)
  | .num n => (write mem dst n.text, dst + n.text.length)
  | .tab l => copyStrInTable mem dst l
  | .nil => (write mem dst (bytes "nil"), dst + 3)
  | .null => (write mem dst (bytes "null"), dst + 4)
  | .bool b => if b then (write mem dst (bytes "true"), dst + 4) else (write mem dst (bytes "false"), dst + 5)

def copyStrInTable (mem : Mem) (dst : Nat) : List Value → Mem × Nat
  | [] => (mem, dst)
  | v :: l =>
    let r := copyStr mem dst v
    copyStrInTable r.1 r.2 l

end

/-! ## The connection -/

/-- Why the kernel takes no more: until the timer fires, or for good. -/
inductive Refusal where
  | timeout
  | errno (text : Bytes)

/-- What the peer has been sent, and how many bytes each call of the kernel's `send` takes at most; one that takes none
has come too early. After these calls it takes everything, or nothing any more. -/
structure Sink where
  sent : Bytes
  cuts : List Nat
  refusal : Option Refusal

/-- What the kernel's `send` returns. -/
inductive Took where
  | bytes (n : Nat)
  | again
  | refused (r : Refusal)

/-- `c->send(c, b->pos, b->last - b->pos)`. -/
def Sink.send (data : Bytes) (k : Sink) : Took × Sink :=
  match k.cuts with
  | 0 :: cuts => (.again, { k with cuts := cuts })
  | (n + 1) :: cuts =>
    (.bytes (min (n + 1) data.length), { k with sent := k.sent ++ data.take (n + 1), cuts := cuts })
  | [] =>
    match k.refusal with
    | none => (.bytes data.length, { k with sent := k.sent ++ data })
    | some r => (.refused r, k)

/-- The loop of `ngx_stream_lua_socket_send`, of so many turns at most, with the waits in between. -/
def sendLoop : Nat → Buf → Sink → Option (Option Refusal × Sink)
  | 0, _, _ => none
  | fuel + 1, b, k =>
    match k.send b.text with
    | (.bytes n, k) => if b.pos + n = b.last then some (none, k) else sendLoop fuel { b with pos := b.pos + n } k
    | (.again, k) => sendLoop fuel b k
    | (.refused r, k) => some (some r, k)

/-- The writing side of a socket. Closed are also a socket that is not connected and one that has been closed. -/
structure Writer where
  sink : Sink
  free : List Buf
  writeClosed : Bool

def Refusal.text : Refusal → Bytes
  | timeout => bytes "timeout"
  | errno text => if text ≠ [] then text else bytes "error"

/-- The data of `send`, a string, a number or a table. -/
def sendable : Value → Bool
  | .str _ => true
  | .num _ => true
  | .tab _ => true
  | _ => false

/-- `ngx_stream_lua_socket_tcp_send`. -/
def Writer.send (conf : Conf) (v : Value) (w : Writer) : Except LuaError (List Value) × Writer :=
  if w.writeClosed = true then (.ok [.nil, .str (bytes "closed")], w)
  else if sendable v = false then (.error .argument, w)
  else
    match calcStrlen v with
    | .error e => (.error e, w)
    | .ok 0 => (.ok [.num (.int 0)], w)
    | .ok len =>
      let r := getFreeBuf conf len w.free
      let c := copyStr r.1.mem r.1.last v
      match sendLoop (w.sink.cuts.length + 1) { r.1 with mem := c.1, last := c.2 } w.sink with
      | none => (.error .fuel, w)
      | some (none, k) => (.ok [.num (.int len)], { w with sink := k, free := { r.1 with mem := c.1 } :: r.2 })
      | some (some refusal, k) => (.ok [.nil, .str refusal.text], ⟨k, r.2, true⟩)

/-! ## The two passes -/

theorem write_append (mem : Mem) (p : Int) (s t : Bytes) :
    write mem p (s ++ t) = write (write mem p s) (p + s.length) t := by
  induction s generalizing mem p with
  | nil => simp [write]
  | cons b s ih =>
    rw [List.cons_append, write, ih, write, List.length_cons]
    congr 1
    push_cast
    omega

mutual

theorem calcStrlen_flat (v : Value) : calcStrlen v = (flat v).map List.length := by
  cases v with
  | tab l => rw [calcStrlen, flat, calcStrlenInTable_flat]
  | nil => rfl
  | null => rfl
  | bool b => rfl
  | num n => rfl
  | str s => rfl

/-- The first pass finds the length of the text, or refuses what has none. -/
theorem calcStrlenInTable_flat (l : List Value) : calcStrlenInTable l = (flatTab l).map List.length := by
  cases l with
  | nil => rfl
  | cons v l =>
    rw [calcStrlenInTable, flatTab, calcStrlen_flat, calcStrlenInTable_flat]
    rcases flat v with e | s
    · rfl
    · rcases flatTab l with e | t
      · rfl
      · simp [Except.map]

end

mutual

theorem copyStr_flat {v : Value} {t : Bytes} (h : flat v = .ok t) (mem : Mem) (dst : Nat) :
    copyStr mem dst v = (write mem dst t, dst + t.length) := by
  cases v with
  | tab l =>
    rw [flat] at h
    rw [copyStr, copyStrInTable_flat h]
  | nil => cases h
  | null => cases h
  | bool b => cases h
  | num n =>
    cases h
    rfl
  | str s =>
    cases h
    rfl

/-- The second pass writes the text, and nothing else. -/
theorem copyStrInTable_flat {l : List Value} {t : Bytes} (h : flatTab l = .ok t) (mem : Mem) (dst : Nat) :
    copyStrInTable mem dst l = (write mem dst t, dst + t.length) := by
  cases l with
  | nil =>
    cases h
    rfl
  | cons v l =>
    rw [flatTab] at h
    rcases hv : flat v with e | s
    · rw [hv] at h
      cases h
    · rcases hl : flatTab l with e | t'
      · rw [hv, hl] at h
        cases h
      · rw [hv, hl] at h
        cases h
        rw [copyStrInTable, copyStr_flat hv, copyStrInTable_flat hl, write_append, List.length_append, Nat.add_assoc]
        push_cast
        rfl

end

/-- For data the first pass accepts, however tables are nested in it, the second pass ends where the buffer of the
first one's length ends at the latest, leaves the memory around alone, and has written the text of the data. -/
theorem copy_stays_inside (conf : Conf) (v : Value) (len : Nat) (h : calcStrlen v = .ok len) (free : List Buf) :
    (copyStr (getFreeBuf conf len free).1.mem 0 v).2 = len ∧ len ≤ (getFreeBuf conf len free).1.size ∧
      (∀ i : Int, i < 0 ∨ len ≤ i →
        (copyStr (getFreeBuf conf len free).1.mem 0 v).1 i = (getFreeBuf conf len free).1.mem i) ∧
      flat v = .ok (slice (copyStr (getFreeBuf conf len free).1.mem 0 v).1 0 len) := by
  rw [calcStrlen_flat] at h
  rcases hv : flat v with e | t
  · rw [hv] at h
    cases h
  · rw [hv] at h
    obtain rfl : t.length = len := Except.ok.inj h
    rw [copyStr_flat hv]
    refine ⟨Nat.zero_add _, (getFreeBuf_spec conf t.length free).2.2, fun i hi => write_out ?_, ?_⟩
    · simpa using hi
    · exact congrArg Except.ok at_write.slice_eq.symm

/-- A command as `encode` builds it. -/
theorem copy_stays_inside_ping :
    (copyStr (fun _ => 0) 0 (.tab [.str (bytes "*1\r\n"), .tab [.str (bytes "$"), .num (.int 4)]])).2 = 6 :=
  (copy_stays_inside ⟨1, false, fun _ => 0⟩ (.tab [.str (bytes "*1\r\n"), .tab [.str (bytes "$"), .num (.int 4)]]) 6
    (by decide) []).1

/-! ## The loop -/

theorem text_length (b : Buf) : b.text.length = b.last - b.pos := slice_length

/-- A part of the bytes is gone. -/
theorem text_advance {b : Buf} {n : Nat} (h : b.pos + n ≤ b.last) :
    b.text = b.text.take n ++ Buf.text { b with pos := b.pos + n } := by
  have hlen : b.last - b.pos = n + (b.last - (b.pos + n)) := by omega
  have hsplit : b.text = slice b.mem b.pos n ++ Buf.text { b with pos := b.pos + n } := by
    rw [Buf.text, hlen, slice_add]
    rfl
  rw [hsplit, List.take_left' slice_length]

/-- The loop sends the bytes of the buffer, all of them unless the kernel refuses the rest. -/
theorem sendLoop_delivers {fuel : Nat} {b : Buf} {k : Sink} (hb : b.pos < b.last) (hfuel : k.cuts.length < fuel) :
    (∃ k', sendLoop fuel b k = some (none, k') ∧ k'.sent = k.sent ++ b.text ∧ k'.refusal = k.refusal) ∨
      ∃ r k' done, k.refusal = some r ∧ sendLoop fuel b k = some (some r, k') ∧ k'.sent = k.sent ++ done ∧
        done <+: b.text ∧ done ≠ b.text := by
  induction fuel generalizing b k with
  | zero => omega
  | succ fuel ih =>
    obtain ⟨sent, cuts, refusal⟩ := k
    rw [sendLoop]
    rcases cuts with _ | ⟨_ | n, cuts⟩
    · cases refusal with
      | none =>
        have hend : b.pos + b.text.length = b.last := by
          rw [text_length]
          omega
        refine .inl ⟨⟨sent ++ b.text, [], none⟩, ?_, rfl, rfl⟩
        simp only [Sink.send, if_pos hend]
      | some r =>
        refine .inr ⟨r, ⟨sent, [], some r⟩, [], rfl, rfl, (List.append_nil _).symm, List.nil_prefix, fun h => ?_⟩
        have := text_length b
        rw [← h, List.length_nil] at this
        omega
    · -- too early: the same once more
      exact ih (k := ⟨sent, cuts, refusal⟩) hb (by simpa using hfuel)
    · simp only [Sink.send]
      have hlen := text_length b
      by_cases hend : b.pos + min (n + 1) b.text.length = b.last
      · rw [if_pos hend]
        refine .inl ⟨_, rfl, ?_, rfl⟩
        rw [List.take_of_length_le (by omega)]
      · rw [if_neg hend]
        have hmin : min (n + 1) b.text.length = n + 1 := by omega
        have hadv := text_advance (b := b) (n := n + 1) (by omega)
        rw [hmin] at hend ⊢
        rcases ih (b := { b with pos := b.pos + (n + 1) }) (k := ⟨sent ++ b.text.take (n + 1), cuts, refusal⟩)
          (by dsimp only; omega) (by simpa using hfuel) with
          ⟨k', hrun, hsent, href⟩ | ⟨r, k', done, href, hrun, hsent, hle, hne⟩
        · refine .inl ⟨k', hrun, ?_, href⟩
          rw [hsent, List.append_assoc, ← hadv]
        · refine .inr ⟨r, k', b.text.take (n + 1) ++ done, href, hrun, ?_, ?_, fun h => hne ?_⟩
          · rw [hsent, List.append_assoc]
          · conv_rhs => rw [hadv]
            exact (List.prefix_append_right_inj _).2 hle
          · exact List.append_cancel_left (h.trans hadv)

/-- What `send` does with data whose text is `t`: all of it goes out and its length is returned; or the kernel refuses,
something less has gone out, and nothing more can be sent. With a kernel that refuses nothing it is the former. -/
theorem send_outcome (conf : Conf) (v : Value) (w : Writer) (t : Bytes) (ht : flat v = .ok t)
    (hopen : w.writeClosed = false) :
    ∃ ret w', w.send conf v = (.ok ret, w') ∧
      ((ret = [.num (.int t.length)] ∧ w'.sink.sent = w.sink.sent ++ t ∧ w'.writeClosed = false ∧
          w'.sink.refusal = w.sink.refusal) ∨
        ∃ r done, w.sink.refusal = some r ∧ ret = [.nil, .str r.text] ∧ w'.sink.sent = w.sink.sent ++ done ∧
          done <+: t ∧ done ≠ t ∧ w'.writeClosed = true) := by
  have hlen : calcStrlen v = .ok t.length := by rw [calcStrlen_flat, ht]; rfl
  have hsendable : sendable v = true := by
    cases v with
    | nil => cases ht
    | null => cases ht
    | bool b => cases ht
    | num n => rfl
    | str s => rfl
    | tab l => rfl
  rw [Writer.send, if_neg (by simp [hopen]), if_neg (by simp [hsendable]), hlen]
  cases hn : t.length with
  | zero =>
    obtain rfl : t = [] := List.eq_nil_of_length_eq_zero hn
    exact ⟨_, w, rfl, .inl ⟨rfl, (List.append_nil _).symm, hopen, rfl⟩⟩
  | succ n =>
    obtain ⟨hpos, hlast, -⟩ := getFreeBuf_spec conf (n + 1) w.free
    -- the buffer holds the text from its start on
    have htext : Buf.text { (getFreeBuf conf (n + 1) w.free).1 with
        mem := write (getFreeBuf conf (n + 1) w.free).1.mem 0 t, last := t.length } = t := by
      simp only [Buf.text, hpos, Nat.sub_zero]
      exact at_write.slice_eq
    simp only [copyStr_flat ht, hlast, Nat.cast_zero, Nat.zero_add]
    have hloop := sendLoop_delivers (k := w.sink) (b := { (getFreeBuf conf (n + 1) w.free).1 with
        mem := write (getFreeBuf conf (n + 1) w.free).1.mem 0 t, last := t.length })
      (by dsimp only; omega) (Nat.lt_succ_self _)
    rw [htext] at hloop
    rcases hloop with ⟨k', hrun, hsent, href⟩ | ⟨r, k', done, href, hrun, hsent, hle, hne⟩
    · rw [hrun]
      exact ⟨_, _, rfl, .inl ⟨rfl, hsent, hopen, href⟩⟩
    · rw [hrun]
      exact ⟨_, _, rfl, .inr ⟨r, done, href, rfl, hsent, hle, hne, rfl⟩⟩

/-! ## Sending more -/

def Writer.sends (conf : Conf) : List Value → Writer → List (Except LuaError (List Value)) × Writer
  | [], w => ([], w)
  | v :: vs, w =>
    let r := w.send conf v
    let r' := Writer.sends conf vs r.2
    (r.1 :: r'.1, r'.2)

/-- What a call of `send` returns that has sent `t`. -/
def sentAll (t : Bytes) : Except LuaError (List Value) := .ok [.num (.int t.length)]

theorem sends_closed (conf : Conf) (vs : List Value) {w : Writer} (h : w.writeClosed = true) :
    w.sends conf vs = (vs.map fun _ => .ok [.nil, .str (bytes "closed")], w) := by
  induction vs with
  | nil => rfl
  | cons v vs ih =>
    have hsend : w.send conf v = (.ok [.nil, .str (bytes "closed")], w) := if_pos h
    simp only [Writer.sends, hsend, ih, List.map_cons]

/-- Whatever is sent, call after call, and however the kernel takes it: all the texts go out in order, and every call
returns the length of its own. Or there is a first call that the kernel refuses: what was sent before is out, and
something less than the whole of its own text; it returns the reason, and all calls after it find the socket closed. -/
theorem send_delivers (conf : Conf) (vs : List Value) (ts : List Bytes) (hts : List.Forall₂ (flat · = .ok ·) vs ts)
    (w : Writer) (hopen : w.writeClosed = false) :
    ((w.sends conf vs).1 = ts.map sentAll ∧ (w.sends conf vs).2.sink.sent = w.sink.sent ++ ts.flatten ∧
        (w.sends conf vs).2.writeClosed = false) ∨
      ∃ before t after r part, ts = before ++ t :: after ∧ w.sink.refusal = some r ∧ part <+: t ∧ part ≠ t ∧
        (w.sends conf vs).1 = before.map sentAll ++
          .ok [.nil, .str r.text] :: after.map (fun _ => .ok [.nil, .str (bytes "closed")]) ∧
        (w.sends conf vs).2.sink.sent = w.sink.sent ++ before.flatten ++ part ∧
        (w.sends conf vs).2.writeClosed = true := by
  induction hts generalizing w with
  | nil => exact .inl ⟨rfl, (List.append_nil _).symm, hopen⟩
  | @cons v t vs ts ht hts ih =>
    obtain ⟨ret, w₁, hsend, ⟨rfl, hsent, hopen₁, href⟩ | ⟨r, part, hr, rfl, hsent, hle, hne, hclosed⟩⟩ :=
      send_outcome conf v w t ht hopen
    · simp only [Writer.sends, hsend]
      rcases ih w₁ hopen₁ with ⟨hrets, hall, hend⟩ | ⟨before, t', after, r, part, rfl, hr, hle, hne, hrets, hall, hend⟩
      · refine .inl ⟨?_, ?_, hend⟩
        · rw [hrets]
          rfl
        · rw [hall, hsent, List.flatten_cons, List.append_assoc]
      · refine .inr ⟨t :: before, t', after, r, part, rfl, href ▸ hr, hle, hne, ?_, ?_, hend⟩
        · rw [hrets]
          rfl
        · rw [hall, hsent, List.flatten_cons, List.append_assoc w.sink.sent t]
    · -- the rest of the calls finds the socket closed
      simp only [Writer.sends, hsend, sends_closed conf vs hclosed]
      refine .inr ⟨[], t, ts, r, part, rfl, hr, hle, hne, ?_, ?_, hclosed⟩
      · rw [List.map_const', List.map_const', hts.length_eq]
        rfl
      · rw [hsent, List.flatten_nil, List.append_nil]

/-- Two lines that go out in four pieces, with a pause. -/
theorem send_delivers_pieces :
    (Writer.sends ⟨1, false, fun _ => 0⟩ [.str (bytes "PING\r\n"), .tab [.str (bytes "GET"), .num (.int 7)]]
      ⟨⟨[], [2, 0, 4, 3], none⟩, [], false⟩).2.sink.sent = bytes "PING\r\nGET7" := by
  rcases send_delivers ⟨1, false, fun _ => 0⟩ [.str (bytes "PING\r\n"), .tab [.str (bytes "GET"), .num (.int 7)]]
    [bytes "PING\r\n", bytes "GET7"] (.cons rfl (.cons rfl .nil)) ⟨⟨[], [2, 0, 4, 3], none⟩, [], false⟩ rfl with
    ⟨-, hsent, -⟩ | ⟨_, _, _, r, _, -, hr, -⟩
  · exact hsent
  · cases hr

end NgProxy.Tcp
