/-
`receiveuntil`: the filter `ngx_stream_lua_socket_read_until`, which searches the buffers for the pattern, and the
iterator Lua gets. What has been matched is not part of the result yet, and may lie in a buffer that has been left; when
it turns out to belong to the result it is taken from the pattern instead, and a buffer is put in for it.
-/
import NgProxy.Tcp.Pattern
import NgProxy.Tcp.Receive

namespace NgProxy.Tcp

open Lua Memory Machine Matching
open NgProxy.Stream (Rc)

/-! ## The filter -/

/-- `ngx_stream_lua_socket_insert_buffer`: a buffer with these bytes, in front of the last one. -/
def Input.insertBuffer (conf : Conf) (text : Bytes) (u : Input) : Input :=
  let r := getFreeBuf conf (if text.length ≤ conf.bufferSize then conf.bufferSize else text.length) u.free
  let b := { r.1 with mem := write r.1.mem r.1.last text, last := r.1.last + text.length }
  { u with before := u.before ++ [b], free := r.2 }

/-- `ngx_stream_lua_socket_add_pending_data`: the first bytes of the pattern are part of the result. If all that has
been matched lies right behind the result in this buffer, they are where they belong. -/
def Input.addPendingData (conf : Conf) (pat : Bytes) (count oldState : Nat) (u : Input) : Input :=
  if u.pos = u.bufIn.last + oldState then { u with bufIn := { u.bufIn with last := u.bufIn.last + count } }
  else
    let v := u.insertBuffer conf (pat.take count)
    { v with bufIn := { v.bufIn with pos := u.pos, last := u.pos } }

/-- What the loop of `read_until` does next. -/
inductive Turn where
  | next (k : Progress) (u : Input)
  | done (k : Progress) (u : Input)

section Turns

variable (conf : Conf) (cp : Pattern) (length : Nat) (k : Progress) (u : Input)

/-- The byte is the next one of the pattern. -/
def hitTurn : Turn :=
  let u := { u with pos := u.pos + 1 }
  let state := k.state + 1
  if state = cp.data.length then
    .done { k with state := 0, ended := decide (length ≠ 0) }
      (if cp.inclusive then u.addPendingData conf cp.data state state else u)
  else .next { k with state := state } u

/-- The byte is not the first one of the pattern, and nothing has been matched. `u->rest` is positive here, if the call
is for so many bytes. -/
def passTurn : Turn :=
  let u := u.collect 1
  if length ≠ 0 ∧ k.rest - 1 = 0 then .done { k with state := 0, rest := 0 } u
  else .next { k with state := 0, rest := if length ≠ 0 then k.rest - 1 else k.rest } u

/-- An edge. The bytes that count as returned are those of the new state. -/
def jumpTurn (new : Nat) : Turn :=
  let v := u.addPendingData conf cp.data (k.state + 1 - new) k.state
  let v := { v with pos := v.pos + 1 }
  if length ≠ 0 ∧ k.rest ≤ new then .done { k with state := new, rest := 0 } v
  else .next { k with state := new, rest := if length ≠ 0 then k.rest - new else k.rest } v

/-- The loop up to the next byte. Without an edge the state becomes 0 and the loop goes on with the same byte. -/
def untilTurn : Turn :=
  let c := u.bufIn.mem u.pos
  if cp.data[k.state]? = some c then hitTurn conf cp length k u
  else if k.state = 0 then passTurn length k u
  else
    match follow c (compilePattern cp.data k.state) with
    | some new => jumpTurn conf cp length k u new
    | none =>
      let u := u.addPendingData conf cp.data k.state k.state
      if length ≠ 0 ∧ k.rest ≤ k.state then .done { k with state := 0, rest := 0 } u
      else
        let k := { k with state := 0, rest := if length ≠ 0 then k.rest - k.state else k.rest }
        if cp.data[0]? = some c then hitTurn conf cp length k u else passTurn length k u

/-- The loop of `ngx_stream_lua_socket_read_until`. -/
def readUntilLoop : Nat → Progress → Input → Rc × Progress × Input
  | 0, k, u => (.again, k, u)
  | bytes + 1, k, u =>
    match untilTurn conf cp length k u with
    | .next k u => readUntilLoop bytes k u
    | .done k u => (.ok, k, u)

/-- `ngx_stream_lua_socket_read_until`, of a call for `length` bytes, or for all up to the pattern if that is 0. -/
def readUntil : Filter Progress := fun k bytes u =>
  if bytes = 0 then (.error, k, u.fail ftClosed) else readUntilLoop conf cp length bytes k u

end Turns

/-! ## The iterator -/

/-- The closure `receiveuntil` returns, with `cp->state`, which is −1 where `ended` is. -/
structure Iterator where
  pattern : Pattern
  state : Nat
  ended : Bool

/-- `ngx_stream_lua_socket_tcp_receiveuntil`, from the pattern on. -/
def receiveuntil (pattern : Bytes) (inclusive : Bool) : Except (List Value) Iterator :=
  if pattern = [] then .error [.nil, .str (bytes "pattern is empty")] else .ok ⟨⟨pattern, inclusive⟩, 0, false⟩

/-- `ngx_stream_lua_socket_receiveuntil_iterator`, with its argument, 0 if there is none. -/
def Iterator.call (conf : Conf) (size : Int) (it : Iterator) (s : Socket) :
    Except LuaError (List Value) × Iterator × Socket :=
  if s.upstream.readClosed = true then (.ok [.nil, .str (bytes "closed")], it, s)
  else if it.ended = true then (.ok [.nil, .nil, .nil], { it with state := 0, ended := false }, s)
  else
    let (ret, k, s) := s.read conf (readUntil conf it.pattern size.toNat) ⟨it.state, false, size.toNat⟩
    (ret, { it with state := k.state, ended := k.ended }, s)

/-! ## Pending bytes -/

/-- The bytes `s` have been read and are not part of the result. They lie behind it in this buffer, or it has nothing of
the result and not all of them. -/
def Pending (c : Chain) (s : Bytes) : Prop :=
  (c.bufIn.last + s.length = c.pos ∧ At c.bufIn.mem c.bufIn.last s) ∨
    (c.bufIn.pos = c.bufIn.last ∧ c.pos < c.bufIn.last + s.length)

section Pending

variable {u : Input} {c : Chain} {got unread s : Bytes} {b : UInt8} {n : Nat}

theorem pending_started (h : Started c) (s : Bytes) : Pending c s := by
  by_cases hs : s = []
  · subst hs
    exact .inl ⟨h.2, at_nil⟩
  · have := List.length_pos_iff.2 hs
    exact .inr ⟨h.1.trans h.2.symm, by rw [h.2]; omega⟩

theorem Pending.sync (h : Pending c []) (hmid : c.bufIn.last ≤ c.pos) : c.bufIn.last = c.pos := by
  rcases h with ⟨h, -⟩ | ⟨-, h⟩
  · exact h
  · rw [List.length_nil] at h
    omega

theorem pending_sync (h : c.bufIn.last = c.pos) : Pending c [] := .inl ⟨h, at_nil⟩

/-- One more byte. -/
theorem Pending.snoc (h : Pending c s) (hc : Holds c got (b :: unread)) :
    Pending { c with pos := c.pos + 1 } (s ++ [b]) := by
  rcases h with ⟨hpos, hat⟩ | ⟨hempty, hlt⟩
  · refine .inl ⟨?_, at_append.2 ⟨hat, at_cons.2 ⟨?_, at_nil⟩⟩⟩
    · rw [List.length_append, List.length_singleton, ← Nat.add_assoc, hpos]
    · rw [show (c.bufIn.last : Int) + s.length = c.pos by omega]
      exact hc.unread.head
  · refine .inr ⟨hempty, ?_⟩
    rw [List.length_append, List.length_singleton]
    dsimp only
    omega

theorem Pending.received (h : Pending u.toChain s) (hu : Holds u.toChain got []) (t : Bytes) :
    Pending (u.received t).toChain s := by
  have htop := hu.top
  rcases h with ⟨hpos, hat⟩ | hempty
  · refine .inl ⟨hpos, hat.congr fun i _ hi => write_out (.inl ?_)⟩
    simp only [List.length_nil] at htop
    omega
  · exact .inr hempty

theorem addInputBuffer_started (conf : Conf) (u : Input) : Started (u.addInputBuffer conf).toChain := by
  obtain ⟨hpos, hlast, -⟩ := getFreeBuf_spec conf conf.bufferSize u.free
  exact ⟨rfl, hlast.trans hpos.symm⟩

/-- The first `n` of the pending bytes become part of the result. -/
theorem Holds.addPendingData (conf : Conf) (h : Holds u.toChain got unread) {pat : Bytes} {q : Nat}
    (hq : q ≤ pat.length)
    (hn : n ≤ q) (hpend : Pending u.toChain (pat.take q)) :
    Holds (u.addPendingData conf pat n q).toChain (got ++ pat.take n) unread ∧
      (u.addPendingData conf pat n q).pos = u.pos ∧ Calm u (u.addPendingData conf pat n q) := by
  have hlow := h.low
  have hmid := h.mid
  rw [Pending, List.length_take_of_le hq] at hpend
  rcases hpend with ⟨hpos, hat⟩ | ⟨hempty, hlt⟩
  · rw [Input.addPendingData, if_pos hpos.symm]
    refine ⟨⟨?_, ?_, h.top, h.fits, ?_, h.unread⟩, rfl, ⟨rfl, rfl, rfl⟩⟩
    · dsimp only
      omega
    · dsimp only
      omega
    · have hat' : At u.bufIn.mem u.bufIn.last (pat.take n) := by
        rw [← List.take_append_drop n (pat.take q), List.take_take, Nat.min_eq_left hn] at hat
        exact (at_append.1 hat).1
      have hslice := hat'.slice_eq
      rw [List.length_take_of_le (by omega)] at hslice
      rw [← h.got, List.append_assoc]
      simp only [Buf.text]
      rw [show u.bufIn.last + n - u.bufIn.pos = u.bufIn.last - u.bufIn.pos + n by omega, slice_add,
        show (u.bufIn.pos : Int) + (u.bufIn.last - u.bufIn.pos : Nat) = u.bufIn.last by omega, hslice]
  · rw [Input.addPendingData, if_neg (by omega)]
    refine ⟨⟨le_rfl, le_rfl, h.top, h.fits, ?_, h.unread⟩, rfl, ⟨rfl, rfl, rfl⟩⟩
    have hold : u.bufIn.text = [] := text_empty (by omega)
    have hgot := h.got
    rw [hold, List.append_nil] at hgot
    obtain ⟨hp, hl, -⟩ := getFreeBuf_spec conf
      (if (pat.take n).length ≤ conf.bufferSize then conf.bufferSize else (pat.take n).length) u.free
    simp only [Input.insertBuffer, List.flatMap_append, List.flatMap_singleton, hgot, Buf.text, hp, hl, Nat.sub_self,
      slice_zero, List.append_nil, Nat.zero_add, Nat.sub_zero]
    rw [Nat.cast_zero, at_write.slice_eq]

/-- The pending bytes behind those. -/
theorem pending_addPendingData (conf : Conf) (h : Holds u.toChain got unread) {pat : Bytes} {q : Nat}
    (hq : q ≤ pat.length)
    (hn : n ≤ q) (hpend : Pending u.toChain (pat.take q)) :
    Pending (u.addPendingData conf pat n q).toChain ((pat.take q).drop n) := by
  have hmid := h.mid
  have hlen : ((pat.take q).drop n).length = q - n := by rw [List.length_drop, List.length_take_of_le hq]
  have hpend' := hpend
  rw [Pending, List.length_take_of_le hq] at hpend'
  rcases hpend' with ⟨hpos, hat⟩ | ⟨hempty, hlt⟩
  · rw [Input.addPendingData, if_pos hpos.symm]
    refine .inl ⟨?_, ?_⟩
    · rw [hlen]
      dsimp only
      omega
    · rw [← List.take_append_drop n (pat.take q)] at hat
      have hat' := (at_append.1 hat).2
      rw [List.length_take_of_le (by rw [List.length_take_of_le hq]; exact hn)] at hat'
      dsimp only
      push_cast
      exact hat'
  · rw [Input.addPendingData, if_neg (by omega)]
    exact pending_started ⟨rfl, rfl⟩ _

end Pending

/-! ## The filter as a machine -/

/-- What has been matched is pending. -/
def Matched (cp : Pattern) (k : Progress) (c : Chain) : Prop :=
  k.state < cp.data.length ∧ Pending c (cp.data.take k.state)

section Filter

variable (conf : Conf) {cp : Pattern} (length : Nat) {k k' : Progress} {u v : Input} {got out unread : Bytes}
  {c : UInt8}

/-- The turn of the loop does what the step of the machine does with the byte `c`. -/
def Takes (cp : Pattern) (u : Input) (got : Bytes) (c : UInt8) (unread : Bytes) : Step Progress UInt8 → Turn → Prop
  | .more k out, .next k' u' =>
    k' = k ∧ Holds u'.toChain (got ++ out) unread ∧ Matched cp k u'.toChain ∧ Calm u u'
  | .stop k out, .done k' u' => k' = k ∧ Holds u'.toChain (got ++ out) unread ∧ Calm u u'
  | .back k out, .done k' u' => k' = k ∧ Holds u'.toChain (got ++ out) (c :: unread) ∧ Calm u u'
  | _, _ => False

theorem Takes.after {step : Step Progress UInt8} {turn : Turn} (h : Takes cp v (got ++ out) c unread step turn)
    (hcalm : Calm u v) : Takes cp u got c unread (step.after out) turn := by
  cases step with
  | more k o =>
    cases turn with
    | next k' u' =>
      obtain ⟨hk, hu, hm, hcalm'⟩ := h
      exact ⟨hk, by rwa [List.append_assoc] at hu, hm, hcalm.trans' hcalm'⟩
    | done k' u' => exact h
  | stop k o =>
    cases turn with
    | next k' u' => exact h
    | done k' u' =>
      obtain ⟨hk, hu, hcalm'⟩ := h
      exact ⟨hk, by rwa [List.append_assoc] at hu, hcalm.trans' hcalm'⟩
  | back k o =>
    cases turn with
    | next k' u' => exact h
    | done k' u' =>
      obtain ⟨hk, hu, hcalm'⟩ := h
      exact ⟨hk, by rwa [List.append_assoc] at hu, hcalm.trans' hcalm'⟩

theorem hitTurn_takes (h : Holds u.toChain got (c :: unread)) (hm : Matched cp k u.toChain)
    (hc : cp.data[k.state]? = some c) : Takes cp u got c unread (cp.hit length k) (hitTurn conf cp length k u) := by
  obtain ⟨hlt, hget⟩ := List.getElem?_eq_some_iff.1 hc
  have hskip := h.skip
  have hpend := hm.2.snoc h
  rw [← hget, ← List.take_succ_eq_append_getElem hlt] at hpend
  rw [Pattern.hit, hitTurn]
  by_cases hfull : k.state + 1 = cp.data.length
  · rw [if_pos hfull, if_pos hfull]
    cases hi : cp.inclusive with
    | true =>
      obtain ⟨hadd, -, hcalm⟩ := Holds.addPendingData
        (u := { u with pos := u.pos + 1 }) conf hskip hfull.le le_rfl hpend
      rw [hfull, List.take_length] at hadd
      refine ⟨rfl, ?_, ⟨hcalm.ftType, hcalm.eof, hcalm.errno⟩⟩
      simpa [hfull] using hadd
    | false => exact ⟨rfl, by simpa using hskip, ⟨rfl, rfl, rfl⟩⟩
  · rw [if_neg hfull, if_neg hfull]
    exact ⟨rfl, by simpa using hskip, ⟨by dsimp only; omega, hpend⟩, ⟨rfl, rfl, rfl⟩⟩

theorem passTurn_takes (h : Holds u.toChain got (c :: unread)) (hm : Matched cp k u.toChain) (hzero : k.state = 0) :
    Takes cp u got c unread (Pattern.pass length k c) (passTurn length k u) := by
  have hpos := hm.1
  have hpend := hm.2
  rw [hzero] at hpos hpend
  have hsync := hpend.sync h.mid
  have hcollect : Holds (u.collect 1).toChain (got ++ [c]) unread := h.collect (s := [c]) hsync
  rw [Pattern.pass, passTurn]
  split
  · exact ⟨rfl, hcollect, ⟨rfl, rfl, rfl⟩⟩
  · refine ⟨rfl, hcollect, ⟨hpos, pending_sync ?_⟩, ⟨rfl, rfl, rfl⟩⟩
    simp [Input.collect, hsync]

theorem jumpTurn_takes {new : Nat} (h : Holds u.toChain got (c :: unread)) (hm : Matched cp k u.toChain)
    (hc : cp.data[k.state]? ≠ some c) (hnew : follow c (compilePattern cp.data k.state) = some new) :
    Takes cp u got c unread (cp.jump length k new) (jumpTurn conf cp length k u new) := by
  obtain ⟨htwo, hle, hlong⟩ := edge_longest hm.1 hc hnew
  have hlt := hm.1
  obtain ⟨hadd, -, hcalm⟩ := h.addPendingData conf hlt.le (show k.state + 1 - new ≤ k.state by omega) hm.2
  have hpend := pending_addPendingData conf h hlt.le (show k.state + 1 - new ≤ k.state by omega) hm.2
  -- the matched bytes behind those that are put out, and the new one, are those of the new state
  have hnext : (cp.data.take k.state).drop (k.state + 1 - new) ++ [c] = cp.data.take new := by
    have hsuffix := List.suffix_iff_eq_drop.1 hlong.border.2
    rw [List.length_append, List.length_take_of_le hlt.le, List.length_take_of_le (by omega),
      List.length_singleton] at hsuffix
    rw [hsuffix, List.drop_append_of_le_length (by rw [List.length_take_of_le hlt.le]; omega)]
  have hpend' := hpend.snoc hadd
  rw [hnext] at hpend'
  rw [Pattern.jump, jumpTurn]
  split
  · exact ⟨rfl, hadd.skip, ⟨hcalm.ftType, hcalm.eof, hcalm.errno⟩⟩
  · exact ⟨rfl, hadd.skip, ⟨by dsimp only; omega, hpend'⟩, ⟨hcalm.ftType, hcalm.eof, hcalm.errno⟩⟩

theorem firstTurn_takes (h : Holds u.toChain got (c :: unread)) (hm : Matched cp k u.toChain) (hzero : k.state = 0) :
    Takes cp u got c unread (cp.first length k c)
      (if cp.data[0]? = some c then hitTurn conf cp length k u else passTurn length k u) := by
  rw [Pattern.first]
  split
  · rename_i hc
    exact hitTurn_takes conf length h hm (by rwa [hzero])
  · exact passTurn_takes length h hm hzero

theorem untilTurn_takes (h : Holds u.toChain got (c :: unread)) (hm : Matched cp k u.toChain) :
    Takes cp u got c unread (cp.untilStep length k c) (untilTurn conf cp length k u) := by
  have hread : u.bufIn.mem u.pos = c := h.unread.head
  rw [Pattern.untilStep, untilTurn, hread]
  by_cases hzero : k.state = 0
  · rw [if_pos hzero]
    have hfirst := firstTurn_takes conf length h hm hzero
    simpa [hzero] using hfirst
  · rw [if_neg hzero]
    by_cases hc : cp.data[k.state]? = some c
    · rw [if_pos hc]
      simpa [hc] using hitTurn_takes conf length h hm hc
    · dsimp only
      rw [if_neg hc, if_neg hc, if_neg hzero]
      cases hnew : follow c (compilePattern cp.data k.state) with
      | some new => exact jumpTurn_takes conf length h hm hc hnew
      | none =>
        obtain ⟨hadd, -, hcalm⟩ := h.addPendingData conf hm.1.le le_rfl hm.2
        have hpend := pending_addPendingData conf h hm.1.le le_rfl hm.2
        have hlt := hm.1
        dsimp only
        split
        · exact ⟨rfl, hadd, hcalm⟩
        · refine Takes.after (firstTurn_takes conf length hadd ⟨by dsimp only; omega, ?_⟩ rfl) hcalm
          simpa using hpend

theorem readUntilLoop_feeds (h : Holds u.toChain got unread) (hm : Matched cp k u.toChain) :
    ∃ u' : Input, readUntilLoop conf cp length unread.length k u =
        (if (feed (cp.untilStep length) k unread).stopped then .ok else .again,
          (feed (cp.untilStep length) k unread).state, u') ∧
      Holds u'.toChain (got ++ (feed (cp.untilStep length) k unread).out)
        (feed (cp.untilStep length) k unread).rest ∧ Calm u u' ∧
      ((feed (cp.untilStep length) k unread).stopped = false →
        Matched cp (feed (cp.untilStep length) k unread).state u'.toChain) := by
  induction unread generalizing u got k with
  | nil => exact ⟨u, rfl, by simpa using h, Calm.rfl', fun _ => hm⟩
  | cons c unread ih =>
    have hturn := untilTurn_takes conf length h hm
    rw [List.length_cons, readUntilLoop]
    generalize untilTurn conf cp length k u = turn at hturn
    cases hs : cp.untilStep length k c with
    | more k' out =>
      rw [hs] at hturn
      rw [feed_more hs]
      cases turn with
      | done k'' v => exact hturn.elim
      | next k'' v =>
        obtain ⟨rfl, hv, hm', hcalm⟩ := hturn
        obtain ⟨u', hu', hholds, hcalm', hinv⟩ := ih hv hm'
        rw [List.append_assoc] at hholds
        exact ⟨u', hu', hholds, hcalm.trans' hcalm', hinv⟩
    | stop k' out =>
      rw [hs] at hturn
      rw [feed_stop hs]
      cases turn with
      | next k'' v => exact hturn.elim
      | done k'' v =>
        obtain ⟨rfl, hv, hcalm⟩ := hturn
        exact ⟨v, rfl, hv, hcalm, fun h => nomatch h⟩
    | back k' out =>
      rw [hs] at hturn
      rw [feed_back hs]
      cases turn with
      | next k'' v => exact hturn.elim
      | done k'' v =>
        obtain ⟨rfl, hv, hcalm⟩ := hturn
        exact ⟨v, rfl, hv, hcalm, fun h => nomatch h⟩

theorem readUntil_implements (conf : Conf) (cp : Pattern) (length : Nat) :
    Implements (readUntil conf cp length) (cp.untilStep length) (Matched cp) where
  feeds := by
    intro k u got unread h hm hne
    obtain ⟨u', hu', hrest⟩ := readUntilLoop_feeds conf length h hm
    exact ⟨u', by rw [readUntil, if_neg (by simpa using hne), hu'], hrest⟩
  received := by
    rintro k u got s h ⟨hlt, hpend⟩
    exact ⟨hlt, hpend.received h s⟩
  added := by
    rintro k u got conf' - ⟨hlt, -⟩
    exact ⟨hlt, pending_started (addInputBuffer_started conf' u) _⟩

end Filter

/-! ## Calls of the iterator -/

/-- So many calls without a size, and what they return. -/
def Iterator.calls (conf : Conf) : Nat → Iterator → Socket → List (Except LuaError (List Value))
  | 0, _, _ => []
  | n + 1, it, s =>
    let r := it.call conf 0 s
    r.1 :: Iterator.calls conf n r.2.1 r.2.2

/-- Calls for these sizes as long as they return bytes, and what the last one returns instead. -/
def Iterator.parts (conf : Conf) : List Nat → Iterator → Socket →
    List Bytes × Option (Except LuaError (List Value)) × Iterator × Socket
  | [], it, s => ([], none, it, s)
  | n :: sizes, it, s =>
    match it.call conf n s with
    | (.ok [.str d], it, s) =>
      let r := Iterator.parts conf sizes it s
      (d :: r.1, r.2)
    | (ret, it, s) => ([], some ret, it, s)

section Calls

variable {conf : Conf} {s : Socket} {size : Nat} {r got out l v : Bytes}
  {rest rest' : Bytes} {k : Progress} {fault : Fault}

/-- The iterator with the state of the search. -/
def Iterator.at (it : Iterator) (k : Progress) : Iterator := { it with state := k.state, ended := k.ended }

/-- What a call that looks at the stream returns: bytes, if it has found the pattern or has got enough of them, or what
has been put out before the end of the stream. -/
theorem call_ends (it : Iterator) (hsize : 0 < conf.bufferSize) (hs : Carries conf s ⟨l, fault⟩)
    (hopen : it.ended = false) (size : Nat)
    (h : Going it.pattern r got ⟨it.state, false, size⟩ ∨ l ≠ [] ∧ Paused it.pattern r got ⟨it.state, false, size⟩ l) :
    ∃ v rest d k s', l = v ++ rest ∧
      (it.call conf size s = (.ok [.str d], it.at k, s') ∧ Carries conf s' ⟨rest, fault⟩ ∧
          (Found it.pattern size (r ++ v) (got ++ d) k ∨
            size ≠ 0 ∧ Paused it.pattern (r ++ v) (got ++ d) k rest ∧ (v ≠ [] ∨ 0 < it.state ∧ k.state = 0)) ∨
        rest = [] ∧ it.call conf size s = (.ok [.nil, .str (fault.text conf), .str d], it.at k, s') ∧
          Going it.pattern (r ++ v) (got ++ d) k) := by
  have hlt : it.state < it.pattern.data.length := h.elim (fun h => h.seeks.lt) fun h => h.2.resumes.lt
  have hread : ¬s.upstream.readClosed = true := by
    obtain ⟨unread, hready, -⟩ := hs
    simp [hready.readClosed]
  obtain ⟨s', hcall, hnext⟩ := read_agrees (k := ⟨it.state, false, size⟩)
    (readUntil_implements conf it.pattern size) hsize hs (fun c hc => ⟨hlt, pending_started hc _⟩) fun _ _ _ _ => rfl
  have hcall' : it.call conf size s =
    (.ok (Source.read conf (it.pattern.untilStep size) ⟨it.state, false, size⟩ ⟨l, fault⟩).1,
      it.at (Source.read conf (it.pattern.untilStep size) ⟨it.state, false, size⟩ ⟨l, fault⟩).2.1, s') := by
    rw [Iterator.call, if_neg hread, if_neg (by simp [hopen]), Int.toNat_natCast, hcall]
    rfl
  obtain ⟨v, hv, hend⟩ := feed_until size h
  have hopenRest := feed_rest (m := it.pattern.untilStep size) (k := ⟨it.state, false, size⟩) (l := l)
  rw [hcall']
  rw [Source.read] at hnext ⊢
  dsimp only at hnext ⊢
  generalize feed (it.pattern.untilStep size) ⟨it.state, false, size⟩ l = o at hnext hv hend hopenRest
  refine ⟨v, o.rest, o.out, o.state, s', hv, ?_⟩
  rcases hend with ⟨hstop, hfound⟩ | ⟨hstop, hpaused⟩ | ⟨hstop, hgoing⟩
  · rw [if_pos hstop] at hnext ⊢
    exact .inl ⟨rfl, hnext _ rfl, .inl hfound⟩
  · rw [if_pos hstop] at hnext ⊢
    exact .inl ⟨rfl, hnext _ rfl, .inr hpaused⟩
  · rw [if_neg (by simp [hstop])]
    exact .inr ⟨hopenRest hstop, rfl, hgoing⟩

/-- A search that has found the pattern has found its first occurrence. -/
theorem Found.first {cp : Pattern} (h : Found cp size (r ++ v) got k) (hp : cp.data ≠ [])
    (hl : r ++ (v ++ rest) = out ++ cp.data ++ rest') (habs : ¬cp.data <:+: (out ++ cp.data).dropLast) :
    rest = rest' ∧ got = out ++ cp.tail := by
  obtain ⟨before, hv, habs', hgot, -⟩ := h
  have hfirst : First cp.data (out ++ cp.data ++ rest') before := by
    refine ⟨⟨rest, ?_⟩, hv ▸ habs'⟩
    rw [← hv, List.append_assoc, hl]
  obtain rfl := hfirst.unique hp ⟨⟨rest', rfl⟩, habs⟩
  rw [← List.append_assoc, hv] at hl
  exact ⟨List.append_cancel_left hl, hgot⟩

theorem going_start {cp : Pattern} (hp : cp.data ≠ []) (size : Nat) : Going cp [] [] ⟨0, false, size⟩ :=
  ⟨seeks_nil hp, by simp, rfl⟩

/-- A call for all up to the pattern. -/
theorem call_first (cp : Pattern) (hsize : 0 < conf.bufferSize) (hp : cp.data ≠ [])
    (hs : Carries conf s ⟨out ++ cp.data ++ rest, fault⟩) (habs : ¬cp.data <:+: (out ++ cp.data).dropLast) :
    ∃ s', Iterator.call conf 0 ⟨cp, 0, false⟩ s = (.ok [.str (out ++ cp.tail)], ⟨cp, 0, false⟩, s') ∧
      Carries conf s' ⟨rest, fault⟩ := by
  obtain ⟨v, rest', d, k, s', hv, ⟨hcall, hs', hend⟩ | ⟨hnil, -, hgoing⟩⟩ :=
    call_ends ⟨cp, 0, false⟩ hsize hs rfl 0 (.inl (going_start hp 0))
  · rcases hend with hfound | ⟨hne, -⟩
    · obtain ⟨rfl, hgot⟩ := hfound.first hp (show [] ++ (v ++ rest') = _ from hv.symm) habs
      obtain ⟨-, -, -, -, hstate, hended⟩ := hfound
      have hsame : Iterator.at ⟨cp, 0, false⟩ k = ⟨cp, 0, false⟩ := by
        rw [Iterator.at, hstate, hended]
        rfl
      rw [hsame, show d = out ++ cp.tail from hgot] at hcall
      exact ⟨s', hcall, hs'⟩
    · exact absurd rfl hne
  · -- the end of the stream is behind the pattern
    rw [hnil, List.append_nil] at hv
    exact absurd ⟨out, rest, hv⟩ hgoing.seeks.absent

/-- A call for all up to a pattern that does not come. -/
theorem call_absent (cp : Pattern) (hsize : 0 < conf.bufferSize) (hp : cp.data ≠ []) (hs : Carries conf s ⟨l, fault⟩)
    (habs : ¬cp.data <:+: l) :
    ∃ q, Longest cp.data l q ∧ (Iterator.call conf 0 ⟨cp, 0, false⟩ s).1 =
      .ok [.nil, .str (fault.text conf), .str (l.take (l.length - q))] := by
  obtain ⟨v, rest', d, k, s', hv, ⟨-, -, hend⟩ | ⟨hnil, hcall, hgoing⟩⟩ :=
    call_ends ⟨cp, 0, false⟩ hsize hs rfl 0 (.inl (going_start hp 0))
  · rcases hend with ⟨before, hbefore, -⟩ | ⟨hne, -⟩
    · refine absurd ⟨before, rest', ?_⟩ habs
      rw [← hbefore, hv, List.nil_append]
    · exact absurd rfl hne
  · rw [hnil, List.append_nil] at hv
    subst hv
    have hsplit : l = d ++ cp.data.take k.state := hgoing.split
    have htake : l.take (l.length - k.state) = d := by
      have hlen := congrArg List.length hsplit
      rw [List.length_append, List.length_take_of_le hgoing.seeks.lt.le] at hlen
      rw [show l.length - k.state = d.length by omega]
      conv_lhs => rw [hsplit]
      exact List.take_left
    refine ⟨k.state, hgoing.seeks.longest, ?_⟩
    rw [htake]
    exact congrArg Prod.fst hcall

theorem calls_split (cp : Pattern) (hsize : 0 < conf.bufferSize) (hp : cp.data ≠ []) {parts : List Bytes}
    (hparts : ∀ d ∈ parts, ¬cp.data <:+: (d ++ cp.data).dropLast) (hl : ¬cp.data <:+: l)
    (hs : Carries conf s ⟨parts.flatMap (· ++ cp.data) ++ l, fault⟩) :
    ∃ q, Longest cp.data l q ∧ Iterator.calls conf (parts.length + 1) ⟨cp, 0, false⟩ s =
      parts.map (fun d => .ok [.str (d ++ cp.tail)]) ++
        [.ok [.nil, .str (fault.text conf), .str (l.take (l.length - q))]] := by
  induction parts generalizing s with
  | nil =>
    obtain ⟨q, hq, hret⟩ := call_absent cp hsize hp hs hl
    exact ⟨q, hq, by simp [Iterator.calls, hret]⟩
  | cons d parts ih =>
    rw [List.forall_mem_cons] at hparts
    rw [List.flatMap_cons, List.append_assoc] at hs
    obtain ⟨s', hcall, hs'⟩ := call_first cp hsize hp hs hparts.1
    obtain ⟨q, hq, hcalls⟩ := ih hparts.2 hs'
    refine ⟨q, hq, ?_⟩
    rw [List.length_cons, Iterator.calls, hcall, hcalls]
    rfl

/-- A call after the one that has found the pattern. -/
theorem parts_ended {cp : Pattern} (hs : Carries conf s ⟨l, fault⟩) (n : Nat) (sizes : List Nat) :
    Iterator.parts conf (n :: sizes) ⟨cp, 0, true⟩ s = ([], some (.ok [.nil, .nil, .nil]), ⟨cp, 0, false⟩, s) := by
  have hread : ¬s.upstream.readClosed = true := by
    obtain ⟨unread, hready, -⟩ := hs
    simp [hready.readClosed]
  have hcall : Iterator.call conf n ⟨cp, 0, true⟩ s = (.ok [.nil, .nil, .nil], ⟨cp, 0, false⟩, s) := by
    rw [Iterator.call, if_neg hread, if_pos rfl]
  rw [Iterator.parts, hcall]

theorem parts_find (cp : Pattern) (hsize : 0 < conf.bufferSize) (hp : cp.data ≠ []) {sizes : List Nat} {q : Nat}
    (hpos : ∀ n ∈ sizes, n ≠ 0) (henough : 2 * l.length + min q 1 + 2 ≤ sizes.length)
    (hs : Carries conf s ⟨l, fault⟩) (h : ∀ n, Paused cp r got ⟨q, false, n⟩ l)
    (hl : r ++ l = out ++ cp.data ++ rest) (habs : ¬cp.data <:+: (out ++ cp.data).dropLast) :
    ∃ s' ds, Iterator.parts conf sizes ⟨cp, q, false⟩ s =
        (ds, some (.ok [.nil, .nil, .nil]), ⟨cp, 0, false⟩, s') ∧
      got ++ ds.flatten = out ++ cp.tail ∧ Carries conf s' ⟨rest, fault⟩ := by
  induction sizes generalizing s q r got l with
  | nil => simp at henough
  | cons n sizes ih =>
    rw [List.forall_mem_cons] at hpos
    rw [List.length_cons] at henough
    have hne : l ≠ [] := (h n).resumes.ne_nil ⟨⟨rest, hl.symm⟩, habs⟩
    obtain ⟨v, rest', d, k, s', rfl, ⟨hcall, hs', hend⟩ | ⟨hnil, -, hgoing⟩⟩ :=
      call_ends ⟨cp, q, false⟩ hsize hs rfl n (.inr ⟨hne, h n⟩)
    · rw [Iterator.parts, hcall]
      dsimp only
      rcases hend with hfound | ⟨-, hpaused, hless⟩
      · obtain ⟨rfl, hgot⟩ := hfound.first hp hl habs
        obtain ⟨-, -, -, -, hstate, hended⟩ := hfound
        have hat : Iterator.at ⟨cp, q, false⟩ k = ⟨cp, 0, true⟩ := by
          rw [Iterator.at, hstate, hended, decide_eq_true hpos.1]
        obtain ⟨m, sizes, rfl⟩ : ∃ m t, sizes = m :: t := List.exists_cons_of_length_pos (by omega)
        rw [hat, parts_ended hs']
        exact ⟨s', [d], rfl, by simpa using hgot, hs'⟩
      · have hat : Iterator.at ⟨cp, q, false⟩ k = ⟨cp, k.state, false⟩ := by
          rw [Iterator.at, hpaused.open']
        rw [List.length_append] at henough
        have hmeasure : 2 * rest'.length + min k.state 1 + 2 ≤ sizes.length := by
          rcases hless with hv | ⟨hq, hzero⟩
          · have := List.length_pos_iff.2 hv
            omega
          · have hq' : 0 < q := hq
            omega
        obtain ⟨s'', ds, hparts, hgot, hs''⟩ := ih hpos.2 hmeasure hs'
          (fun m => ⟨hpaused.resumes, hpaused.split, rfl⟩) (by rw [List.append_assoc]; exact hl)
        rw [hat, hparts]
        refine ⟨s'', d :: ds, rfl, ?_, hs''⟩
        rw [List.flatten_cons, ← List.append_assoc]
        exact hgot
    · -- the end of the stream is behind the pattern
      rw [hnil, List.append_nil] at hl
      refine absurd ⟨out, rest, ?_⟩ hgoing.seeks.absent
      exact hl.symm

end Calls

/-! ## `receiveuntil` -/

theorem receiveuntil_ok {pattern : Bytes} (h : pattern ≠ []) (inclusive : Bool) :
    receiveuntil pattern inclusive = .ok ⟨⟨pattern, inclusive⟩, 0, false⟩ := by
  rw [receiveuntil, if_neg h]

/-- However the stream is cut, whatever the size of the buffers and wherever they come from: the calls of the iterator
return what is in between the occurrences of the pattern, one after the other, and the last one fails. What that one has
got by then lacks the longest beginning of the pattern the stream ends with. -/
theorem receiveuntil_splits (conf : Conf) (hsize : 0 < conf.bufferSize) (free : List Buf) (w : Wire) (pattern : Bytes)
    (inclusive : Bool) (parts : List Bytes) (last : Bytes) (hpattern : pattern ≠ [])
    (hparts : ∀ d ∈ parts, ¬pattern <:+: (d ++ pattern).dropLast) (hlast : ¬pattern <:+: last)
    (hw : w.pending = parts.flatMap (· ++ pattern) ++ last) :
    ∃ it q, receiveuntil pattern inclusive = .ok it ∧ Longest pattern last q ∧
      it.calls conf (parts.length + 1) ⟨⟨none, free, false, false⟩, w⟩ =
        parts.map (fun d => .ok [.str (d ++ if inclusive then pattern else [])]) ++
          [.ok [.nil, .str (w.fault.text conf), .str (last.take (last.length - q))]] := by
  have hs := carries_new conf free w
  rw [hw] at hs
  obtain ⟨q, hq, hcalls⟩ := calls_split ⟨pattern, inclusive⟩ hsize hpattern hparts hlast hs
  exact ⟨_, q, receiveuntil_ok hpattern inclusive, hq, hcalls⟩

/-- The beginning of a match that overlaps with the pattern, in buffers of two bytes. -/
theorem receiveuntil_splits_overlap :
    ∃ it, receiveuntil (bytes "aab") false = .ok it ∧
      it.calls ⟨2, false, fun _ => 0⟩ 2 ⟨⟨none, [], false, false⟩, ⟨bytes "aaabyaa", .closed, [3, 0, 1]⟩⟩ =
        [.ok [.str (bytes "a")], .ok [.nil, .str (bytes "closed"), .str (bytes "y")]] := by
  obtain ⟨it, q, hit, hq, hcalls⟩ := receiveuntil_splits ⟨2, false, fun _ => 0⟩ (by decide) []
    ⟨bytes "aaabyaa", .closed, [3, 0, 1]⟩ (bytes "aab") false [bytes "a"] (bytes "yaa") (by decide) (by decide)
    (by decide) (by decide)
  have hle : 2 ≤ q := hq.max 2 ⟨by decide, by decide⟩
  have hthree : q ≠ 3 := by
    rintro rfl
    exact absurd hq.border.2 (by decide)
  have hlen : q ≤ 3 := hq.border.1
  obtain rfl : q = 2 := by omega
  exact ⟨it, hit, hcalls⟩

/-- Calls for any sizes, as long as they return bytes: these are the bytes up to the first occurrence of the pattern.
The call behind them returns nothing, and the iterator is as new. -/
theorem receiveuntil_parts (conf : Conf) (hsize : 0 < conf.bufferSize) (free : List Buf) (w : Wire) (pattern : Bytes)
    (inclusive : Bool) (out rest : Bytes) (sizes : List Nat) (hpattern : pattern ≠ [])
    (hw : w.pending = out ++ pattern ++ rest) (hfirst : ¬pattern <:+: (out ++ pattern).dropLast)
    (hsizes : ∀ n ∈ sizes, n ≠ 0) (henough : 2 * w.pending.length + 2 ≤ sizes.length) :
    ∃ it ds s', receiveuntil pattern inclusive = .ok it ∧
      it.parts conf sizes ⟨⟨none, free, false, false⟩, w⟩ = (ds, some (.ok [.nil, .nil, .nil]), it, s') ∧
      ds.flatten = out ++ (if inclusive then pattern else []) ∧ Carries conf s' ⟨rest, w.fault⟩ := by
  obtain ⟨s', ds, hparts, hgot, hs'⟩ := parts_find ⟨pattern, inclusive⟩ hsize hpattern hsizes
    (by simpa using henough) (carries_new conf free w) (fun n => (going_start hpattern n).paused w.pending) hw hfirst
  exact ⟨_, ds, s', receiveuntil_ok hpattern inclusive, hparts, hgot, hs'⟩

/-- Two bytes at a time. -/
theorem receiveuntil_parts_two :
    ∃ it ds s', receiveuntil (bytes "aab") true = .ok it ∧
      it.parts ⟨2, false, fun _ => 0⟩ (List.replicate 16 2)
        ⟨⟨none, [], false, false⟩, ⟨bytes "xaaab!", .closed, [3, 0, 1]⟩⟩ = (ds, some (.ok [.nil, .nil, .nil]), it, s') ∧
      ds.flatten = bytes "xaaab" ∧ Carries ⟨2, false, fun _ => 0⟩ s' ⟨bytes "!", .closed⟩ :=
  receiveuntil_parts ⟨2, false, fun _ => 0⟩ (by decide) [] ⟨bytes "xaaab!", .closed, [3, 0, 1]⟩ (bytes "aab") true
    (bytes "xa") (bytes "!") (List.replicate 16 2) (by decide) (by decide) (by decide) (by decide) (by decide)

end NgProxy.Tcp
