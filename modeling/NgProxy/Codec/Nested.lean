/-
`decode` and the calls it makes of itself. An array is read element by element, each by a nested call
at what the elements before it have left, so that every call below the outermost one is found by going
down some number of arrays. What becomes of a nested call that fails, and which streams make `decode`
raise, is said over these calls.
-/
import NgProxy.Codec.Fault
import NgProxy.Codec.Resp

namespace NgProxy.Codec

open Lua Text

/-! ## The recursion without its bound -/

theorem decodeVals_congr {dec dec' : Sock → Except LuaError (Ret × Sock)} {k : Nat}
    (heq : ∀ s, s.input.length ≤ k → dec s = dec' s)
    (hdec : ∀ s, s.input.length ≤ k → Bounded s.input.length (dec s)) (pre n : Nat) (vals : List Value) (s : Sock)
    (hs : s.input.length ≤ k) : decodeVals dec pre n vals s = decodeVals dec' pre n vals s := by
  induction n generalizing vals s with
  | zero => rfl
  | succ n ih =>
    have hb := hdec s hs
    rw [decodeVals, decodeVals, ← heq s hs]
    cases hd : dec s with
    | error e => rfl
    | ok r =>
      rw [hd] at hb
      have hs₁ : r.2.input.length ≤ k := le_trans hb hs
      dsimp only
      split
      · rfl
      · exact ih _ r.2 hs₁
      · exact ih _ r.2 hs₁

theorem decodeMulti_congr {dec dec' : Sock → Except LuaError (Ret × Sock)} {s : Sock}
    (heq : ∀ t, t.input.length ≤ s.input.length → dec t = dec' t)
    (hdec : ∀ t, t.input.length ≤ s.input.length → Bounded t.input.length (dec t)) (text : Bytes) :
    decodeMulti dec text s = decodeMulti dec' text s := by
  unfold decodeMulti
  split
  · rfl
  · split
    · rfl
    · split
      · rfl
      · exact decodeVals_congr heq hdec _ _ _ s le_rfl

/-- More recursion than there is input makes no difference. -/
theorem decodeAux_congr (m n : Nat) (s : Sock) (hm : s.input.length < m) (hn : s.input.length < n) :
    decodeAux m s = decodeAux n s := by
  induction m generalizing n s with
  | zero => omega
  | succ m ih =>
    obtain ⟨n, rfl⟩ : ∃ k, n = k + 1 := ⟨n - 1, by omega⟩
    rw [decodeAux, decodeAux]
    rcases hl : s.receiveLine with ⟨e | _ | ⟨b, text⟩, s₁⟩
    · rfl
    · rfl
    · have hlt := receiveLine_lt hl
      have hmulti : decodeMulti (decodeAux m) text s₁ = decodeMulti (decodeAux n) text s₁ :=
        decodeMulti_congr (fun t ht => ih n t (by omega) (by omega)) (fun t ht => decodeAux_bounded m t (by omega)) text
      dsimp only
      rw [hmulti]

/-- After the line of an array its elements are read by `decode` itself. -/
theorem decode_multi {s s₁ : Sock} {text : Bytes} (h : s.receiveLine = (.ok (42 :: text), s₁)) :
    decode s = decodeMulti decode text s₁ := by
  have hlt := receiveLine_lt h
  have hstep : decode s = decodeMulti (decodeAux s.input.length) text s₁ := by
    rw [decode, decodeAux, h]
    rfl
  rw [hstep]
  exact decodeMulti_congr (fun t ht => decodeAux_congr _ _ t (by omega) (Nat.lt_succ_self _))
    (fun t ht => decodeAux_bounded _ t (by omega)) text

theorem decode_bulk {s s₁ : Sock} {text : Bytes} (h : s.receiveLine = (.ok (36 :: text), s₁)) :
    decode s = decodeBulk text s₁ := by
  rw [decode, decodeAux, h]
  rfl

theorem decode_fault {s s₁ : Sock} {e : Bytes} (h : s.receiveLine = (.error e, s₁)) :
    decode s = .ok (⟨.nil, some 0, .str e⟩, s₁) := by
  rw [decode, decodeAux, h]

/-! ## The calls of a call -/

/-- The line of an array of `n` elements. -/
def Opens (s : Sock) (n : Nat) (s₁ : Sock) : Prop :=
  ∃ text x, s.receiveLine = (.ok (42 :: text), s₁) ∧ tonumber text = some x ∧ x.isNeg = false ∧
    newTab x = .ok () ∧ n = x.loopCount.getD (s₁.input.length + 1)

theorem decode_opens {s s₁ : Sock} {n : Nat} (h : Opens s n s₁) :
    decode s = decodeVals decode typeMultiBulkReply n [] s₁ := by
  obtain ⟨text, x, hl, hx, hneg, htab, rfl⟩ := h
  rw [decode_multi hl, decodeMulti, hx]
  simp [hneg, htab]

/-- What an element becomes in the table of its array. -/
def cell (r : Ret) : Value :=
  match r.val with
  | .bool false => .tab [.bool false, preVal r.pre]
  | v => v

theorem decodeVals_nil {dec : Sock → Except LuaError (Ret × Sock)} {s s₁ : Sock} {r : Ret}
    (h : dec s = .ok (r, s₁)) (hr : r.val.isNil = true) (pre n : Nat) (vals : List Value) :
    decodeVals dec pre (n + 1) vals s = .ok (⟨.nil, some pre, preVal r.pre⟩, s₁) := by
  rw [decodeVals, h]
  simp only [(Value.isNil_iff _).1 hr]

theorem decodeVals_cons {dec : Sock → Except LuaError (Ret × Sock)} {s s₁ : Sock} {r : Ret}
    (h : dec s = .ok (r, s₁)) (hr : r.val.isNil = false) (pre n : Nat) (vals : List Value) :
    decodeVals dec pre (n + 1) vals s = decodeVals dec pre n (vals ++ [cell r]) s₁ := by
  rw [decodeVals, h]
  obtain ⟨v, p, err⟩ := r
  cases v with
  | nil => cases hr
  | bool b => cases b <;> rfl
  | null => rfl
  | num n => rfl
  | str t => rfl
  | tab l => rfl

/-- What a line alone is: a status, an error, an integer, or the header of a null. -/
inductive Line : Bytes → Ret → Prop
  | status (text : Bytes) : Line (43 :: text) ⟨.str text, some typeStatusReply, .nil⟩
  | error (text : Bytes) : Line (45 :: text) ⟨.bool false, some typeErrorReply, .str text⟩
  | int {text : Bytes} {n : Number} (h : tonumber text = some n) :
    Line (58 :: text) ⟨.num n, some typeIntegerReply, .nil⟩
  | nilBulk {text : Bytes} {n : Number} (h : tonumber text = some n) (neg : n.isNeg = true) :
      Line (36 :: text) ⟨.null, some typeBulkReply, .nil⟩
  | nilArray {text : Bytes} {n : Number} (h : tonumber text = some n) (neg : n.isNeg = true) :
      Line (42 :: text) ⟨.null, some typeMultiBulkReply, .nil⟩

/-- Elements stand one after another: lines, bulk strings with their line ends, and arrays of elements. -/
inductive Reads : List Ret → Sock → Sock → Prop
  | nil (s : Sock) : Reads [] s s
  | line {line : Bytes} {r : Ret} {l : List Ret} {s s₁ s₂ : Sock} (receive : s.receiveLine = (.ok line, s₁))
      (is : Line line r) (tail : Reads l s₁ s₂) : Reads (r :: l) s s₂
  | bulk {text data crlf : Bytes} {size : Number} {l : List Ret} {s s₁ s₂ s₃ s₄ : Sock}
      (receive : s.receiveLine = (.ok (36 :: text), s₁)) (number : tonumber text = some size) (pos : size.isNeg = false)
      (payload : s₁.receive size.toInteger = .ok (.ok data, s₂)) (lineEnd : s₂.receive 2 = .ok (.ok crlf, s₃))
      (tail : Reads l s₃ s₄) : Reads (⟨.str data, some typeBulkReply, .nil⟩ :: l) s s₄
  | array {l m : List Ret} {s s₁ s₂ s₃ : Sock} (opens : Opens s l.length s₁) (elements : Reads l s₁ s₂)
      (tail : Reads m s₂ s₃) : Reads (⟨.tab (l.map cell), some typeMultiBulkReply, .nil⟩ :: m) s s₃

theorem decode_line {s s₁ : Sock} {line : Bytes} {r : Ret} (h : s.receiveLine = (.ok line, s₁)) (hr : Line line r) :
    decode s = .ok (r, s₁) := by
  rw [decode, decodeAux, h]
  cases hr with
  | status text => rfl
  | error text => rfl
  | int hn =>
    dsimp only
    rw [hn]
    rfl
  | nilBulk hn hneg =>
    show decodeBulk _ s₁ = _
    rw [decodeBulk, hn]
    simp [hneg]
  | nilArray hn hneg =>
    show decodeMulti _ _ s₁ = _
    rw [decodeMulti, hn]
    simp [hneg]

/-- Elements that have been read are in the table. -/
theorem decodeVals_reads {l : List Ret} {s s₂ : Sock} (h : Reads l s s₂) (pre n : Nat) (vals : List Value) :
    decodeVals decode pre (l.length + n) vals s = decodeVals decode pre n (vals ++ l.map cell) s₂ := by
  have hcons {r : Ret} {l : List Ret} {s s₁ s₂ : Sock} (hd : decode s = .ok (r, s₁)) (hr : r.val.isNil = false)
      (ih : ∀ (pre n : Nat) vals,
        decodeVals decode pre (l.length + n) vals s₁ = decodeVals decode pre n (vals ++ l.map cell) s₂)
      (pre n : Nat) (vals : List Value) : decodeVals decode pre ((r :: l).length + n) vals s =
        decodeVals decode pre n (vals ++ (r :: l).map cell) s₂ := by
    rw [List.length_cons, Nat.add_right_comm, decodeVals_cons hd hr, ih, List.map_cons, List.append_assoc,
      List.singleton_append]
  induction h generalizing pre n vals with
  | nil s => simp
  | line hl hr _ ih => exact hcons (decode_line hl hr) (by cases hr <;> rfl) ih pre n vals
  | bulk hl hx hneg hr hend _ ih =>
    refine hcons ?_ rfl ih pre n vals
    rw [decode_bulk hl, decodeBulk, hx]
    simp [hneg, hr, hend]
  | array ho _ _ ih ih' =>
    refine hcons ?_ rfl ih' pre n vals
    rw [decode_opens ho]
    exact ih typeMultiBulkReply 0 []

/-- One element is read by one call. -/
theorem Reads.decode {r : Ret} {s s₁ : Sock} (h : Reads [r] s s₁) : r.val.isNil = false ∧ decode s = .ok (r, s₁) := by
  cases h with
  | line hl hr ht =>
    cases ht
    exact ⟨by cases hr <;> rfl, decode_line hl hr⟩
  | bulk hl hx hneg hr hend ht =>
    cases ht
    refine ⟨rfl, ?_⟩
    rw [decode_bulk hl, decodeBulk, hx]
    simp [hneg, hr, hend]
  | array ho hr ht =>
    cases ht
    exact ⟨rfl, (decode_opens ho).trans (decodeVals_reads hr typeMultiBulkReply 0 [])⟩

theorem Reads.pre {r : Ret} {s s₁ : Sock} (h : Reads [r] s s₁) : ∃ p, r.pre = some p := by
  cases h with
  | line hl hr ht => cases hr <;> exact ⟨_, rfl⟩
  | bulk => exact ⟨_, rfl⟩
  | array => exact ⟨_, rfl⟩

theorem Reads.cons {r : Ret} {l : List Ret} {s s₁ s₂ : Sock} (h : Reads [r] s s₁) (tail : Reads l s₁ s₂) :
    Reads (r :: l) s s₂ := by
  cases h with
  | line hl hr ht =>
    cases ht
    exact .line hl hr tail
  | bulk hl hx hneg hr hend ht =>
    cases ht
    exact .bulk hl hx hneg hr hend tail
  | array ho hr ht =>
    cases ht
    exact .array ho hr tail

theorem Opens.lt {s s₁ : Sock} {n : Nat} (h : Opens s n s₁) : s₁.input.length < s.input.length := by
  obtain ⟨text, x, hl, -⟩ := h
  exact receiveLine_lt hl

/-- Every element takes at least one byte. -/
theorem Reads.le {l : List Ret} {s s₂ : Sock} (h : Reads l s s₂) : l.length + s₂.input.length ≤ s.input.length := by
  induction h with
  | nil s => simp
  | line hl _ _ ih =>
    have := receiveLine_lt hl
    rw [List.length_cons]
    omega
  | bulk hl _ _ hr hend _ ih =>
    have := receiveLine_lt hl
    have := (receive_bounded _ _).2 _ _ hr
    have := (receive_bounded _ _).2 _ _ hend
    rw [List.length_cons]
    omega
  | array ho _ _ ih ih' =>
    have := ho.lt
    rw [List.length_cons]
    omega

/-- While it reads `s`, `decode` calls itself at `s'`, so many arrays deep. -/
inductive Comes : Nat → Sock → Sock → Prop
  | here (s : Sock) : Comes 0 s s
  | element {n d : Nat} {l : List Ret} {s s₁ s₂ s' : Sock} (opens : Opens s n s₁) (reads : Reads l s₁ s₂)
      (more : l.length < n) (deeper : Comes d s₂ s') : Comes (d + 1) s s'

theorem Opens.fault {s s₁ : Sock} {n : Nat} (h : Opens s n s₁) : s₁.fault = s.fault := by
  obtain ⟨text, x, hl, -⟩ := h
  have := receiveLine_fault s
  rwa [hl] at this

theorem Reads.fault {l : List Ret} {s s₂ : Sock} (h : Reads l s s₂) : s₂.fault = s.fault := by
  have hline {s s₁ : Sock} {line : Bytes} (h : s.receiveLine = (.ok line, s₁)) : s₁.fault = s.fault := by
    have := receiveLine_fault s
    rwa [h] at this
  induction h with
  | nil s => rfl
  | line hl _ _ ih => exact ih.trans (hline hl)
  | bulk hl _ _ hr hend _ ih => rw [ih, (receive_fault hend).1, (receive_fault hr).1, hline hl]
  | array ho _ _ ih ih' => rw [ih', ih, ho.fault]

theorem Comes.fault {d : Nat} {s s' : Sock} (h : Comes d s s') : s'.fault = s.fault := by
  induction h with
  | here s => rfl
  | element ho hr _ _ ih => rw [ih, hr.fault, ho.fault]

/-- The element a nested call is made for: the loop goes on as that call ends. -/
theorem decode_element {l : List Ret} {s s₁ s₂ : Sock} {n : Nat} (ho : Opens s n s₁) (hr : Reads l s₁ s₂)
    (hl : l.length < n) : ∃ k, decode s = decodeVals decode typeMultiBulkReply (k + 1) (l.map cell) s₂ := by
  obtain ⟨k, rfl⟩ : ∃ k, n = l.length + (k + 1) := ⟨n - l.length - 1, by omega⟩
  refine ⟨k, ?_⟩
  rw [decode_opens ho, decodeVals_reads hr, List.nil_append]

/-! ## A call that reads nothing -/

/-- A nested call that returns nil makes every call above it return nil. What it says is lost: its
prefix takes the place of its error. -/
theorem Comes.nil {d : Nat} {s s' s'' : Sock} (h : Comes d s s') {p : Nat} {err : Value}
    (hd : decode s' = .ok (⟨.nil, some p, err⟩, s'')) :
    ∃ p' err', decode s = .ok (⟨.nil, some p', err'⟩, s'') ∧ (d = 0 → err' = err) ∧
      (0 < d → ∃ q : Nat, err' = .num (.int q)) := by
  induction h with
  | here s => exact ⟨p, err, hd, fun _ => rfl, fun h => absurd h (by omega)⟩
  | element ho hr hl _ ih =>
    obtain ⟨p', err', hd', -⟩ := ih hd
    obtain ⟨k, hk⟩ := decode_element ho hr hl
    refine ⟨typeMultiBulkReply, preVal (some p'), ?_, fun h => by omega, fun _ => ⟨p', rfl⟩⟩
    rw [hk, decodeVals_nil hd' rfl]

/-- A `receive` of the call at `s` itself fails: that of the line, of the payload or of the line end
behind it. -/
inductive Breaks (s : Sock) : Prop
  | line {s₁ : Sock} {e : Bytes} (h : s.receiveLine = (.error e, s₁))
  | payload {s₁ s₂ : Sock} {text e : Bytes} {size : Number} (h : s.receiveLine = (.ok (36 :: text), s₁))
      (hx : tonumber text = some size) (hneg : size.isNeg = false) (hr : s₁.receive size.toInteger = .ok (.error e, s₂))
  | lineEnd {s₁ s₂ s₃ : Sock} {text data e : Bytes} {size : Number} (h : s.receiveLine = (.ok (36 :: text), s₁))
      (hx : tonumber text = some size) (hneg : size.isNeg = false) (hr : s₁.receive size.toInteger = .ok (.ok data, s₂))
      (hend : s₂.receive 2 = .ok (.error e, s₃))

/-- The call itself returns the socket's error. -/
theorem Breaks.returns {s : Sock} (h : Breaks s) : ∃ p s', decode s = .ok (⟨.nil, some p, .str s.fault⟩, s') := by
  cases h with
  | @line s₁ e h =>
    have he : e = s.fault := by
      unfold Sock.receiveLine at h
      split at h <;> cases h
      rfl
    exact ⟨0, s₁, he ▸ decode_fault h⟩
  | @payload s₁ s₂ text e size h hx hneg hr =>
    have hf := receiveLine_fault s
    rw [h] at hf
    have he : e = s.fault := ((receive_fault hr).2 e rfl).trans hf
    refine ⟨typeBulkReply, s₂, ?_⟩
    rw [decode_bulk h, decodeBulk, hx]
    simp [hneg, hr, he]
  | @lineEnd s₁ s₂ s₃ text data e size h hx hneg hr hend =>
    have hf := receiveLine_fault s
    rw [h] at hf
    have he : e = s.fault := ((receive_fault hend).2 e rfl).trans ((receive_fault hr).1.trans hf)
    refine ⟨typeBulkReply, s₃, ?_⟩
    rw [decode_bulk h, decodeBulk, hx]
    simp [hneg, hr, hend, he]

/-- A `receive` that fails, however deep, makes the outermost call return nil. The socket's error
arrives only if it was the outermost call's own. -/
theorem Comes.breaks {d : Nat} {s s' : Sock} (h : Comes d s s') (hb : Breaks s') :
    ∃ p err s'', decode s = .ok (⟨.nil, some p, err⟩, s'') ∧ (err = .str s.fault ↔ d = 0) := by
  obtain ⟨p, s'', hd⟩ := hb.returns
  obtain ⟨p', err, hs, hzero, hpos⟩ := h.nil hd
  refine ⟨p', err, s'', hs, ?_, ?_⟩
  · intro herr
    by_contra hne
    obtain ⟨q, hq⟩ := hpos (Nat.pos_of_ne_zero hne)
    rw [herr] at hq
    cases hq
  · intro h0
    rw [hzero h0, h.fault]

/-! ## A call that raises -/

/-- The size or the count of the line at `s` is no number, or one that `receive` or the table's
allocation refuses. -/
inductive BadHeader (s : Sock) : Prop
  | size {s₁ : Sock} {text : Bytes} (h : s.receiveLine = (.ok (36 :: text), s₁)) (hx : tonumber text = none)
  | hugeSize {s₁ : Sock} {text : Bytes} {size : Number} (h : s.receiveLine = (.ok (36 :: text), s₁))
      (hx : tonumber text = some size) (hneg : size.isNeg = false) (hhuge : size.toInteger < 0)
  | count {s₁ : Sock} {text : Bytes} (h : s.receiveLine = (.ok (42 :: text), s₁)) (hx : tonumber text = none)
  | hugeCount {s₁ : Sock} {text : Bytes} {n : Number} {e : LuaError} (h : s.receiveLine = (.ok (42 :: text), s₁))
      (hx : tonumber text = some n) (hneg : n.isNeg = false) (hhuge : newTab n = .error e)

theorem BadHeader.raises {s : Sock} (h : BadHeader s) : ∃ e, decode s = .error e := by
  cases h with
  | size h hx =>
    refine ⟨.compare, ?_⟩
    rw [decode_bulk h, decodeBulk, hx]
  | hugeSize h hx hneg hhuge =>
    refine ⟨.argument, ?_⟩
    rw [decode_bulk h, decodeBulk, hx]
    simp [hneg, Sock.receive, hhuge]
  | count h hx =>
    refine ⟨.compare, ?_⟩
    rw [decode_multi h, decodeMulti, hx]
  | @hugeCount s₁ text n e h hx hneg hhuge =>
    refine ⟨e, ?_⟩
    rw [decode_multi h, decodeMulti, hx]
    simp only [hneg, hhuge]
    rfl

/-- The line at `s` is empty, or an integer line without a number: `decode` returns nil and no error. -/
inductive Silent (s : Sock) : Prop
  | empty {s₁ : Sock} (h : s.receiveLine = (.ok [], s₁))
  | integer {s₁ : Sock} {text : Bytes} (h : s.receiveLine = (.ok (58 :: text), s₁)) (hx : tonumber text = none)

theorem Silent.returns {s : Sock} (h : Silent s) : ∃ p s', decode s = .ok (⟨.nil, some p, .nil⟩, s') := by
  cases h with
  | @empty s₁ h =>
    refine ⟨0, s₁, ?_⟩
    rw [decode, decodeAux, h]
  | @integer s₁ text h hx =>
    refine ⟨typeIntegerReply, s₁, ?_⟩
    rw [decode, decodeAux, h]
    simp [hx, typeBulkReply, typeStatusReply, typeMultiBulkReply, typeIntegerReply]

/-- The call is over with its line, and a bulk string with its payload: an element, or nil and an error. -/
inductive Ends (s : Sock) : Prop
  | element {r : Ret} {s' : Sock} (reads : Reads [r] s s')
  | fails {p : Nat} {err : Value} {s' : Sock} (run : decode s = .ok (⟨.nil, some p, err⟩, s'))
      (some : err.truthy = true)

section Cases

variable {s s₁ : Sock} {text : Bytes}

theorem ends_bulk (hl : s.receiveLine = (.ok (36 :: text), s₁)) {size : Number} (hx : tonumber text = some size)
    (hneg : size.isNeg = false) (hsize : 0 ≤ size.toInteger) : Ends s := by
  have hrecv (n : Int) (hn : 0 ≤ n) (s : Sock) : ∃ r s', s.receive n = .ok (r, s') := by
    unfold Sock.receive
    rw [if_neg (by omega)]
    split
    · exact ⟨_, _, rfl⟩
    · exact ⟨_, _, rfl⟩
  obtain ⟨e | data, s₂, hr⟩ := hrecv size.toInteger hsize s₁
  · have hd : decode s = .ok (⟨.nil, some typeBulkReply, .str e⟩, s₂) := by
      rw [decode_bulk hl, decodeBulk, hx]
      simp [hneg, hr]
    exact .fails hd rfl
  · obtain ⟨e | crlf, s₃, hend⟩ := hrecv 2 (by decide) s₂
    · have hd : decode s = .ok (⟨.nil, some typeBulkReply, .str e⟩, s₃) := by
        rw [decode_bulk hl, decodeBulk, hx]
        simp [hneg, hr, hend]
      exact .fails hd rfl
    · exact .element (.bulk hl hx hneg hr hend (.nil s₃))

/-- The header of a bulk string is refused, or the call is over with the string. -/
theorem decode_bulk_cases (hl : s.receiveLine = (.ok (36 :: text), s₁)) : BadHeader s ∨ Ends s := by
  cases hx : tonumber text with
  | none => exact .inl (.size hl hx)
  | some size =>
    cases hneg : size.isNeg with
    | true => exact .inr (.element (.line hl (.nilBulk hx hneg) (.nil s₁)))
    | false =>
      rcases lt_or_ge size.toInteger 0 with hhuge | hsize
      · exact .inl (.hugeSize hl hx hneg hhuge)
      · exact .inr (ends_bulk hl hx hneg hsize)

/-- The header of an array is refused, opens it, or is that of the null array. -/
theorem decode_multi_cases (hl : s.receiveLine = (.ok (42 :: text), s₁)) :
    BadHeader s ∨ (∃ n s₁, Opens s n s₁) ∨ Ends s := by
  cases hx : tonumber text with
  | none => exact .inl (.count hl hx)
  | some n =>
    cases hneg : n.isNeg with
    | true => exact .inr (.inr (.element (.line hl (.nilArray hx hneg) (.nil s₁))))
    | false =>
      cases htab : newTab n with
      | error e => exact .inl (.hugeCount hl hx hneg htab)
      | ok u => exact .inr (.inl ⟨_, s₁, text, n, hl, hx, hneg, htab, rfl⟩)

/-- Any other line is the reply, but an integer that is no number gives nothing, and an unknown prefix
an error. -/
theorem decode_line_cases {b : UInt8} (hl : s.receiveLine = (.ok (b :: text), s₁)) (hbulk : b ≠ 36)
    (hmulti : b ≠ 42) : Silent s ∨ Ends s := by
  by_cases hstatus : b = 43
  · subst hstatus
    exact .inr (.element (.line hl (.status text) (.nil s₁)))
  by_cases herror : b = 45
  · subst herror
    exact .inr (.element (.line hl (.error text) (.nil s₁)))
  by_cases hint : b = 58
  · subst hint
    cases hx : tonumber text with
    | none => exact .inl (.integer hl hx)
    | some n => exact .inr (.element (.line hl (.int hx) (.nil s₁)))
  · have hne {n : Nat} {c : UInt8} (hc : c.toNat = n) (h : b ≠ c) : b.toNat ≠ n := fun h' =>
      h (UInt8.toNat_inj.1 (h'.trans hc.symm))
    have hd : decode s = .ok
        (⟨.nil, some b.toNat, .str (bytes "unkown prefix: \"" ++ decimal b.toNat ++ bytes "\"")⟩, s₁) := by
      rw [decode, decodeAux, hl]
      dsimp only
      rw [if_neg (hne (n := typeBulkReply) rfl hbulk), if_neg (hne (n := typeStatusReply) rfl hstatus),
        if_neg (hne (n := typeMultiBulkReply) rfl hmulti), if_neg (hne (n := typeIntegerReply) rfl hint),
        if_neg (hne (n := typeErrorReply) rfl herror)]
    exact .inr (.fails hd rfl)

end Cases

/-- What a call does with its line, the elements of an array apart. -/
theorem decode_cases (s : Sock) : BadHeader s ∨ Silent s ∨ (∃ n s₁, Opens s n s₁) ∨ Ends s := by
  rcases hl : s.receiveLine with ⟨e | _ | ⟨b, text⟩, s₁⟩
  · exact .inr (.inr (.inr (.fails (decode_fault hl) rfl)))
  · exact .inr (.inl (.empty hl))
  · by_cases hbulk : b = 36
    · subst hbulk
      exact (decode_bulk_cases hl).imp_right fun h => .inr (.inr h)
    by_cases hmulti : b = 42
    · subst hmulti
      exact (decode_multi_cases hl).imp_right .inr
    · exact .inr ((decode_line_cases hl hbulk hmulti).imp_right .inr)

/-! ### The element loop -/

/-- How the element loop ends: after all elements, or at one that is nil or raises. -/
def LoopEnds (pre n : Nat) (vals : List Value) (s : Sock) : Prop :=
  ∃ l s₂, Reads l s s₂ ∧
    (l.length = n ∧ decodeVals decode pre n vals s = .ok (⟨.tab (vals ++ l.map cell), some pre, .nil⟩, s₂) ∨
      l.length < n ∧ ((∃ r s₃, decode s₂ = .ok (r, s₃) ∧ r.val.isNil = true ∧
        decodeVals decode pre n vals s = .ok (⟨.nil, some pre, preVal r.pre⟩, s₃)) ∨
        ∃ e, decode s₂ = .error e ∧ decodeVals decode pre n vals s = .error e))

/-- The loop over an input whose elements are known. -/
theorem decodeVals_ends {k : Nat} (hdec : ∀ {s s' : Sock} {r : Ret}, s.input.length ≤ k →
      decode s = .ok (r, s') → r.val.isNil = false → Reads [r] s s') (pre n : Nat) (vals : List Value) {s : Sock}
    (hs : s.input.length ≤ k) : LoopEnds pre n vals s := by
  induction n generalizing vals s with
  | zero => exact ⟨[], s, .nil s, .inl ⟨rfl, by simp [decodeVals]⟩⟩
  | succ n ih =>
    cases hd : decode s with
    | error e =>
      refine ⟨[], s, .nil s, .inr ⟨Nat.succ_pos n, .inr ⟨e, hd, ?_⟩⟩⟩
      rw [decodeVals, hd]
    | ok p =>
      obtain ⟨r, s₁⟩ := p
      cases hr : r.val.isNil with
      | true => exact ⟨[], s, .nil s, .inr ⟨Nat.succ_pos n, .inl ⟨r, s₁, hd, hr, decodeVals_nil hd hr pre n vals⟩⟩⟩
      | false =>
        have hone := hdec hs hd hr
        have hs₁ : s₁.input.length ≤ k := by
          have := hone.le
          omega
        obtain ⟨l, s₂, hl, h⟩ := ih (vals ++ [cell r]) hs₁
        refine ⟨r :: l, s₂, hone.cons hl, ?_⟩
        rw [decodeVals_cons hd hr, List.length_cons, List.map_cons]
        simpa using h

/-- What is read as a value is an element. -/
theorem reads_of_decode {s s' : Sock} {r : Ret} (h : decode s = .ok (r, s')) (hr : r.val.isNil = false) :
    Reads [r] s s' := by
  -- the elements of an array have less input than the array
  induction hn : s.input.length using Nat.strong_induction_on generalizing s s' r with
  | _ n ih =>
    subst hn
    rcases decode_cases s with hbad | hquiet | ⟨n, s₁, ho⟩ | hends
    · obtain ⟨e, he⟩ := hbad.raises
      rw [he] at h
      cases h
    · obtain ⟨p, s₂, hd⟩ := hquiet.returns
      rw [hd] at h
      cases h
      cases hr
    · have hlt := ho.lt
      obtain ⟨l, s₂, hl, ⟨rfl, hv⟩ | ⟨-, ⟨r', s₃, -, -, hv⟩ | ⟨e, -, hv⟩⟩⟩ :=
        decodeVals_ends (fun hs hd hr => ih _ (lt_of_le_of_lt hs hlt) hd hr rfl) typeMultiBulkReply n [] le_rfl
      · rw [decode_opens ho, hv] at h
        cases h
        exact .array ho hl (.nil _)
      · rw [decode_opens ho, hv] at h
        cases h
        cases hr
      · rw [decode_opens ho, hv] at h
        cases h
    · cases hends with
      | element hreads =>
        rw [hreads.decode.2] at h
        cases h
        exact hreads
      | fails hd _ =>
        rw [hd] at h
        cases h
        cases hr

theorem decodeVals_cases (pre n : Nat) (vals : List Value) (s : Sock) : LoopEnds pre n vals s :=
  decodeVals_ends (fun _ => reads_of_decode) pre n vals le_rfl

/-- Every result has a prefix. -/
theorem decode_pre {s s' : Sock} {r : Ret} (h : decode s = .ok (r, s')) : ∃ p, r.pre = some p := by
  rcases decode_cases s with hbad | hquiet | ⟨n, s₁, ho⟩ | hends
  · obtain ⟨e, he⟩ := hbad.raises
    rw [he] at h
    cases h
  · obtain ⟨p, s₂, hd⟩ := hquiet.returns
    rw [hd] at h
    cases h
    exact ⟨p, rfl⟩
  · rw [decode_opens ho] at h
    obtain ⟨l, s₂, -, ⟨-, hv⟩ | ⟨-, ⟨r, s₃, -, -, hv⟩ | ⟨e, -, hv⟩⟩⟩ := decodeVals_cases typeMultiBulkReply n [] s₁
    · rw [hv] at h
      cases h
      exact ⟨_, rfl⟩
    · rw [hv] at h
      cases h
      exact ⟨_, rfl⟩
    · rw [hv] at h
      cases h
  · cases hends with
    | element hreads =>
      rw [hreads.decode.2] at h
      cases h
      exact hreads.pre
    | fails hd _ =>
      rw [hd] at h
      cases h
      exact ⟨_, rfl⟩

/-! ### More input -/

/-- The socket with more bytes to come. -/
def Sock.more (s : Sock) (x fault : Bytes) : Sock := ⟨s.input ++ x, fault⟩

theorem receiveLine_more {s s₁ : Sock} {line : Bytes} (h : s.receiveLine = (.ok line, s₁)) (x fault : Bytes) :
    (s.more x fault).receiveLine = (.ok line, s₁.more x fault) := by
  unfold Sock.receiveLine at h ⊢
  rcases hd : s.input.dropWhile (· ≠ 10) with _ | ⟨b, rest⟩ <;> rw [hd] at h
  · cases h
  · cases h
    have hlen : (s.input.takeWhile (· ≠ 10)).length ≠ s.input.length := fun h => by
      have hsplit := congrArg List.length (List.takeWhile_append_dropWhile (p := (· ≠ 10)) (l := s.input))
      rw [hd, List.length_append, h, List.length_cons] at hsplit
      omega
    simp only [Sock.more, List.dropWhile_append, List.takeWhile_append, hd, List.isEmpty_cons, hlen]
    rfl

theorem receive_more {n : Int} {s s₁ : Sock} {data : Bytes} (h : s.receive n = .ok (.ok data, s₁)) (x fault : Bytes) :
    (s.more x fault).receive n = .ok (.ok data, s₁.more x fault) := by
  unfold Sock.receive at h ⊢
  split at h
  · cases h
  · rename_i hn
    split at h
    · rename_i hle
      cases h
      rw [if_neg hn, if_pos (by simp only [Sock.more, List.length_append]; omega)]
      simp only [Sock.more, List.take_append_of_le_length hle, List.drop_append_of_le_length hle]
    · cases h

/-- What is read does not depend on the bytes behind it. -/
theorem Reads.more {l : List Ret} {s s₂ : Sock} (h : Reads l s s₂) (x fault : Bytes) :
    Reads l (s.more x fault) (s₂.more x fault) := by
  induction h with
  | nil s => exact .nil _
  | line hl hr _ ih => exact .line (receiveLine_more hl x fault) hr ih
  | bulk hl hx hneg hr hend _ ih =>
    exact .bulk (receiveLine_more hl x fault) hx hneg (receive_more hr x fault) (receive_more hend x fault) ih
  | @array l m s s₁ s₂ s₃ ho hreads _ ih ih' =>
    obtain ⟨text, y, hl, hy, hneg, htab, hlen⟩ := ho
    refine .array ⟨text, y, receiveLine_more hl x fault, hy, hneg, htab, ?_⟩ ih ih'
    rcases hcount : y.loopCount with _ | k
    · -- an endless loop has no last element
      have := hreads.le
      rw [hcount] at hlen
      simp only [Option.getD_none] at hlen
      omega
    · rw [hcount] at hlen
      exact hlen

/-- A value that is read from the beginning of a reply is that of the reply. -/
theorem decode_front {r : Reply} (hw : r.wf = true) {input fault : Bytes} (hin : input <+: r.bytes) {ret : Ret}
    {s : Sock} (hd : decode ⟨input, fault⟩ = .ok (ret, s)) (hv : ret.val.isNil = false) : ret = r.ret := by
  obtain ⟨x, hx⟩ := hin
  have hmore := ((reads_of_decode hd hv).more x fault).decode.2
  have hall := decode_bytes r hw [] fault
  rw [List.append_nil, ← hx] at hall
  exact (Prod.mk.inj (Except.ok.inj (hmore.symm.trans hall))).1

/-! ## Which streams raise -/

/-- A nested call that raises makes every call above it raise. -/
theorem Comes.raises {d : Nat} {s s' : Sock} (h : Comes d s s') {e : LuaError} (he : decode s' = .error e) :
    decode s = .error e := by
  induction h with
  | here s => exact he
  | element ho hr hl _ ih =>
    obtain ⟨k, hk⟩ := decode_element ho hr hl
    rw [hk, decodeVals, ih he]

/-- Behind every raise there is a call that meets a refused size or count. -/
theorem comes_of_raises {s : Sock} {e : LuaError} (h : decode s = .error e) : ∃ d s', Comes d s s' ∧ BadHeader s' := by
  -- the nested call that raised has less input than its array
  induction hn : s.input.length using Nat.strong_induction_on generalizing s with
  | _ n ih =>
    subst hn
    rcases decode_cases s with hbad | hquiet | ⟨n, s₁, ho⟩ | hends
    · exact ⟨0, s, .here s, hbad⟩
    · obtain ⟨p, s', hd⟩ := hquiet.returns
      rw [hd] at h
      cases h
    · obtain ⟨l, s₂, hr, ⟨-, hv⟩ | ⟨hl, ⟨r, s₃, -, -, hv⟩ | ⟨e', he, hv⟩⟩⟩ :=
        decodeVals_cases typeMultiBulkReply n [] s₁
      · rw [decode_opens ho, hv] at h
        cases h
      · rw [decode_opens ho, hv] at h
        cases h
      · rw [decode_opens ho, hv] at h
        cases h
        obtain ⟨d, s', hc, hbad⟩ := ih _ (lt_of_le_of_lt (le_of_add_le_right hr.le) ho.lt) he rfl
        exact ⟨d + 1, s', .element ho hr hl hc, hbad⟩
    · cases hends with
      | element hreads =>
        rw [hreads.decode.2] at h
        cases h
      | fails hd _ =>
        rw [hd] at h
        cases h

/-- One of the outcomes `decode` promises: a value, null, an error reply, or nil with an error. -/
def Ret.Proper (r : Ret) : Prop := r.val.isNil = true → r.err.truthy = true

theorem Ret.Proper.ofErr {v err : Value} {p : Option Nat} (h : err.truthy = true) : Ret.Proper ⟨v, p, err⟩ := fun _ => h

theorem Ret.Proper.ofVal {r : Ret} (h : r.val.isNil = false) : r.Proper :=
  fun hv => absurd (h.symm.trans hv) Bool.false_ne_true

/-- Nil is returned without an error only at a silent line: a failed array names at least a prefix. -/
theorem silent_of_improper {s s' : Sock} {r : Ret} (h : decode s = .ok (r, s')) (hr : ¬ r.Proper) : Silent s := by
  rcases decode_cases s with hbad | hquiet | ⟨n, s₁, ho⟩ | hends
  · obtain ⟨e, he⟩ := hbad.raises
    rw [he] at h
    cases h
  · exact hquiet
  · rw [decode_opens ho] at h
    obtain ⟨l, s₂, -, ⟨-, hv⟩ | ⟨-, ⟨r', s₃, hd, -, hv⟩ | ⟨e, -, hv⟩⟩⟩ := decodeVals_cases typeMultiBulkReply n [] s₁
    · rw [hv] at h
      cases h
      exact absurd (.ofVal rfl) hr
    · obtain ⟨p, hp⟩ := decode_pre hd
      rw [hv, hp] at h
      cases h
      exact absurd (.ofErr rfl) hr
    · rw [hv] at h
      cases h
  · cases hends with
    | element hreads =>
      rw [hreads.decode.2] at h
      cases h
      exact absurd (.ofVal hreads.decode.1) hr
    | fails hd herr =>
      rw [hd] at h
      cases h
      exact absurd (.ofErr herr) hr

/-- `decode` returns one of the outcomes it promises exactly when no call it makes meets a size or a
count that is refused, and its own line is not one that it passes over in silence. -/
theorem decode_proper_iff (s : Sock) :
    (∃ r s', decode s = .ok (r, s') ∧ r.Proper) ↔ (∀ d s', Comes d s s' → ¬ BadHeader s') ∧ ¬ Silent s := by
  constructor
  · rintro ⟨r, s', hd, hr⟩
    constructor
    · intro d s'' hc hbad
      obtain ⟨e, he⟩ := hbad.raises
      rw [hc.raises he] at hd
      cases hd
    · intro hquiet
      obtain ⟨p, s'', hq⟩ := hquiet.returns
      rw [hq] at hd
      cases hd
      exact absurd (hr rfl) Bool.false_ne_true
  · rintro ⟨hgood, hloud⟩
    cases hd : decode s with
    | error e =>
      obtain ⟨d, s', hc, hbad⟩ := comes_of_raises hd
      exact absurd hbad (hgood d s' hc)
    | ok p => exact ⟨p.1, p.2, rfl, by_contra fun hr => hloud (silent_of_improper hd hr)⟩

/-- A size that is no number raises, alone and as an element; an integer line without a number gives
nil without an error. -/
theorem decode_bad_header :
    decode ⟨bytes "$abc\r\n", bytes "closed"⟩ = .error .compare ∧
      decode ⟨bytes "*2\r\n$1\r\nx\r\n$\r\n", bytes "closed"⟩ = .error .compare ∧
      decode ⟨bytes "*134217729\r\n", bytes "closed"⟩ = .error .overflow ∧
      ∃ s', decode ⟨bytes ":abc\r\n", bytes "closed"⟩ = .ok (⟨.nil, some 58, .nil⟩, s') :=
  ⟨by rfl, by rfl, by rfl, _, by rfl⟩

end NgProxy.Codec
