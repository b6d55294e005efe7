/-
What `receive` returns does not depend on how the stream is cut, nor on the size of the buffers: successive calls
return what they would return on the plain bytes. Each filter makes of the bytes in the buffer what a machine makes
that takes them one by one, and the loop feeds it the whole stream.
-/
import NgProxy.Lib.Machine
import NgProxy.Tcp.Buffer

namespace NgProxy.Tcp

open Lua Memory Machine
open NgProxy.Stream (Rc)

/-! ## What a chain holds -/

/-- The chain holds what has been collected, `got`, and what has not been looked at. -/
structure Holds (c : Chain) (got unread : Bytes) : Prop where
  low : c.bufIn.pos ≤ c.bufIn.last
  mid : c.bufIn.last ≤ c.pos
  top : c.pos + unread.length = c.last
  fits : c.last ≤ c.bufIn.size
  got : c.before.flatMap Buf.text ++ c.bufIn.text = got
  unread : At c.bufIn.mem c.pos unread

section Holds

variable {u : Input} {got unread s t : Bytes} {conf : Conf}

theorem Holds.size (h : Holds u.toChain got unread) : u.last - u.pos = unread.length := by
  have := h.top
  omega

/-- A buffer with nothing in it. -/
theorem text_empty {b : Buf} (h : b.last ≤ b.pos) : b.text = [] := by
  rw [Buf.text, Nat.sub_eq_zero_of_le h, slice_zero]

theorem Holds.addInputBuffer (h : Holds u.toChain got []) (conf : Conf) :
    Holds (u.addInputBuffer conf).toChain got [] := by
  obtain ⟨hpos, hlast, -⟩ := getFreeBuf_spec conf conf.bufferSize u.free
  refine ⟨?_, ?_, ?_, ?_, ?_, at_nil⟩
  · simp [Input.addInputBuffer, hpos, hlast]
  · simp [Input.addInputBuffer, hpos, hlast]
  · simp [Input.addInputBuffer, hpos, hlast]
  · simp [Input.addInputBuffer, hlast]
  · have hempty := text_empty (b := (getFreeBuf conf conf.bufferSize u.free).1) (by rw [hpos, hlast])
    simp only [Input.addInputBuffer, List.flatMap_append, List.flatMap_singleton, hempty, List.append_nil]
    exact h.got

theorem Holds.received (h : Holds u.toChain got []) (hs : u.last + s.length ≤ u.bufIn.size) :
    Holds (u.received s).toChain got s := by
  have htop : u.pos = u.last := h.top
  refine ⟨h.low, h.mid, ?_, hs, ?_, ?_⟩
  · simp [Input.received, htop]
  · rw [← h.got]
    simp only [Input.received, Buf.text]
    rw [slice_congr fun i _ hi => write_out (.inl ?_)]
    have := h.low
    have := h.mid
    omega
  · simp only [Input.received, htop]
    exact at_write

/-- The next byte is left out of the result. -/
theorem Holds.skip {c : Chain} {b : UInt8} (h : Holds c got (b :: unread)) :
    Holds { c with pos := c.pos + 1 } got unread := by
  have htop := h.top
  have hmid := h.mid
  rw [List.length_cons] at htop
  refine ⟨h.low, ?_, ?_, h.fits, h.got, ?_⟩
  · dsimp only
    omega
  · dsimp only
    omega
  · dsimp only
    push_cast
    exact h.unread.tail

/-- The next byte is moved down to the end of the result. -/
theorem Holds.move {c : Chain} {b : UInt8} (h : Holds c got (b :: unread)) :
    Holds { c with pos := c.pos + 1,
                   bufIn := { c.bufIn with mem := store c.bufIn.mem c.bufIn.last b, last := c.bufIn.last + 1 } }
      (got ++ [b]) unread := by
  have htop := h.top
  have hlow := h.low
  have hmid := h.mid
  rw [List.length_cons] at htop
  refine ⟨?_, ?_, ?_, h.fits, ?_, ?_⟩
  · dsimp only
    omega
  · dsimp only
    omega
  · dsimp only
    omega
  · rw [← h.got, List.append_assoc]
    congr 1
    simp only [Buf.text]
    rw [show c.bufIn.last + 1 - c.bufIn.pos = c.bufIn.last - c.bufIn.pos + 1 by omega, slice_succ]
    congr 1
    · exact slice_congr fun i _ hi => store_ne (by omega)
    · rw [show (c.bufIn.pos : Int) + (c.bufIn.last - c.bufIn.pos : Nat) = c.bufIn.last by omega, store_self]
  · dsimp only
    push_cast
    exact h.unread.tail.congr fun i hi _ => store_ne (by omega)

/-- The next bytes are the next bytes of the result, where they are. -/
theorem Holds.collect (h : Holds u.toChain got (s ++ t)) (hsync : u.bufIn.last = u.pos) :
    Holds (u.collect s.length).toChain (got ++ s) t := by
  have htop := h.top
  have hlow := h.low
  have hat := at_append.1 h.unread
  rw [List.length_append] at htop
  refine ⟨?_, ?_, ?_, h.fits, ?_, ?_⟩
  · simp only [Input.collect]
    omega
  · simp only [Input.collect]
    omega
  · simp only [Input.collect]
    omega
  · rw [← h.got, List.append_assoc]
    simp only [Input.collect, Buf.text]
    rw [show u.bufIn.last + s.length - u.bufIn.pos = u.bufIn.last - u.bufIn.pos + s.length by omega, slice_add,
      show (u.bufIn.pos : Int) + (u.bufIn.last - u.bufIn.pos : Nat) = u.pos by omega, hat.1.slice_eq]
  · simp only [Input.collect]
    push_cast
    exact hat.2

/-- Nothing has been collected yet. -/
def Started (c : Chain) : Prop := c.bufIn.pos = c.pos ∧ c.bufIn.last = c.pos

theorem Holds.pushInputData (h : Holds u.toChain got unread) :
    u.pushInputData.1 = got ∧ Holds u.pushInputData.2.toChain [] unread ∧ Started u.pushInputData.2.toChain := by
  refine ⟨?_, ?_, rfl, rfl⟩
  · rw [← h.got]
    simp [Input.pushInputData]
  · have htop := h.top
    have hfits := h.fits
    refine ⟨le_rfl, le_rfl, ?_, ?_, ?_, ?_⟩
    · simp only [Input.pushInputData]
      split
      · omega
      · exact htop
    · simp only [Input.pushInputData]
      split
      · omega
      · exact hfits
    · simp [Input.pushInputData, Buf.text]
    · simp only [Input.pushInputData]
      split
      · obtain rfl : unread = [] := List.eq_nil_of_length_eq_zero (by omega)
        exact at_nil
      · exact h.unread

end Holds

/-! ## Filters as machines -/

/-- The errors and the end of the stream are as before. -/
structure Calm (u u' : Input) : Prop where
  ftType : u'.ftType = u.ftType
  eof : u'.eof = u.eof
  errno : u'.errno = u.errno

theorem Calm.rfl' {u : Input} : Calm u u := ⟨rfl, rfl, rfl⟩

theorem Calm.trans' {u v w : Input} (h : Calm u v) (h' : Calm v w) : Calm u w :=
  ⟨h'.ftType.trans h.ftType, h'.eof.trans h.eof, h'.errno.trans h.errno⟩

/-- The filter makes of the bytes in the buffer what the machine makes of them, as long as `Inv` holds, which what is
received in between does not touch. -/
structure Implements {κ : Type} (f : Filter κ) (m : κ → UInt8 → Step κ UInt8) (Inv : κ → Chain → Prop) : Prop where
  feeds : ∀ {k : κ} {u : Input} {got unread : Bytes}, Holds u.toChain got unread → Inv k u.toChain → unread ≠ [] →
    ∃ u' : Input, f k unread.length u =
        (if (feed m k unread).stopped then .ok else .again, (feed m k unread).state, u') ∧
      Holds u'.toChain (got ++ (feed m k unread).out) (feed m k unread).rest ∧ Calm u u' ∧
      ((feed m k unread).stopped = false → Inv (feed m k unread).state u'.toChain)
  received : ∀ {k : κ} {u : Input} {got : Bytes} (s : Bytes), Holds u.toChain got [] → Inv k u.toChain →
    Inv k (u.received s).toChain
  added : ∀ {k : κ} {u : Input} {got : Bytes} (conf : Conf), Holds u.toChain got [] → Inv k u.toChain →
    Inv k (u.addInputBuffer conf).toChain

section Line

/-- The bytes up to a line feed, without carriage returns. -/
def lineStep (_ : Unit) (b : UInt8) : Step Unit UInt8 :=
  if b = 10 then .stop () [] else if b = 13 then .more () [] else .more () [b]

theorem readLineLoop_feeds (u : Input) (dst : Nat) {got unread : Bytes}
    (h : Holds { u.toChain with bufIn := { u.bufIn with last := dst } } got unread) :
    ∃ u' : Input, readLineLoop unread.length dst u = (if (feed lineStep () unread).stopped then .ok else .again, u') ∧
      Holds u'.toChain (got ++ (feed lineStep () unread).out) (feed lineStep () unread).rest ∧ Calm u u' := by
  induction unread generalizing u dst got with
  | nil => exact ⟨_, rfl, by simpa using h, ⟨rfl, rfl, rfl⟩⟩
  | cons b unread ih =>
    have hb : u.bufIn.mem u.pos = b := h.unread.head
    rw [List.length_cons, readLineLoop, hb]
    by_cases h10 : b = 10
    · rw [if_pos h10, feed_stop (if_pos h10)]
      exact ⟨_, rfl, by simpa using h.skip, ⟨rfl, rfl, rfl⟩⟩
    · rw [if_neg h10]
      by_cases h13 : b = 13
      · have hstep : lineStep () b = .more () [] := by rw [lineStep, if_neg h10, if_pos h13]
        rw [if_pos h13, feed_more hstep]
        obtain ⟨u', hu', hholds, hcalm⟩ := ih { u with pos := u.pos + 1 } dst h.skip
        exact ⟨u', hu', hholds, ⟨hcalm.ftType, hcalm.eof, hcalm.errno⟩⟩
      · have hstep : lineStep () b = .more () [b] := by rw [lineStep, if_neg h10, if_neg h13]
        rw [if_neg h13, feed_more hstep]
        obtain ⟨u', hu', hholds, hcalm⟩ :=
          ih { u with pos := u.pos + 1, bufIn := { u.bufIn with mem := store u.bufIn.mem dst b } } (dst + 1) h.move
        refine ⟨u', hu', ?_, ⟨hcalm.ftType, hcalm.eof, hcalm.errno⟩⟩
        rwa [List.append_assoc] at hholds

theorem readLine_implements : Implements readLine lineStep fun _ _ => True where
  feeds := by
    intro k u got unread h _ hne
    obtain ⟨u', hu', hholds, hcalm⟩ := readLineLoop_feeds u u.bufIn.last h
    refine ⟨u', ?_, hholds, hcalm, fun _ => trivial⟩
    rw [readLine, if_neg (by simpa using hne), hu']
  received := fun _ _ _ => trivial
  added := fun _ _ _ => trivial

theorem feed_line_open {l : Bytes} (h : (10 : UInt8) ∉ l) :
    feed lineStep () l = ⟨false, (), l.filter (· ≠ 13), []⟩ := by
  induction l with
  | nil => rfl
  | cons b l ih =>
    rw [List.mem_cons, not_or] at h
    have h10 : b ≠ 10 := Ne.symm h.1
    by_cases h13 : b = 13
    · rw [feed_more (by rw [lineStep, if_neg h10, if_pos h13] : lineStep () b = .more () []), ih h.2]
      simp [Fed.after, h13]
    · rw [feed_more (by rw [lineStep, if_neg h10, if_neg h13] : lineStep () b = .more () [b]), ih h.2]
      simp [Fed.after, h13]

theorem feed_line {l : Bytes} (h : (10 : UInt8) ∉ l) (rest : Bytes) :
    feed lineStep () (l ++ 10 :: rest) = ⟨true, (), l.filter (· ≠ 13), rest⟩ := by
  rw [feed_append_more (by rw [feed_line_open h]), feed_line_open h, feed_stop (if_pos rfl)]
  simp [Fed.after]

end Line

section Chunk

/-- So many bytes. -/
def chunkStep (rest : Nat) (b : UInt8) : Step Nat UInt8 :=
  if rest ≤ 1 then .stop 0 [b] else .more (rest - 1) [b]

theorem feed_chunk {rest : Nat} (hrest : 0 < rest) {l : Bytes} (h : rest ≤ l.length) :
    feed chunkStep rest l = ⟨true, 0, l.take rest, l.drop rest⟩ := by
  induction l generalizing rest with
  | nil => simp at h; omega
  | cons b l ih =>
    by_cases hone : rest ≤ 1
    · obtain rfl : rest = 1 := by omega
      rw [feed_stop (if_pos hone)]
      rfl
    · obtain ⟨n, rfl⟩ : ∃ n, rest = n + 1 := ⟨rest - 1, by omega⟩
      rw [List.length_cons] at h
      rw [feed_more (if_neg hone), Nat.add_sub_cancel, ih (by omega) (by omega)]
      rfl

theorem feed_chunk_open {rest : Nat} {l : Bytes} (h : l.length < rest) :
    feed chunkStep rest l = ⟨false, rest - l.length, l, []⟩ := by
  induction l generalizing rest with
  | nil => rfl
  | cons b l ih =>
    rw [List.length_cons] at h ⊢
    rw [feed_more (if_neg (by omega)), ih (by omega), Nat.sub_sub, Nat.add_comm 1]
    rfl

theorem readChunk_implements : Implements readChunk chunkStep fun rest c => 0 < rest ∧ c.bufIn.last = c.pos where
  feeds := by
    rintro rest u got unread h ⟨hrest, hsync⟩ hne
    rw [readChunk, if_neg (by simpa using hne)]
    by_cases hle : rest ≤ unread.length
    · rw [if_pos hle, feed_chunk hrest hle]
      rw [← List.take_append_drop rest unread] at h
      have hcollect := h.collect hsync
      rw [List.length_take_of_le hle] at hcollect
      exact ⟨_, rfl, hcollect, ⟨rfl, rfl, rfl⟩, fun h => nomatch h⟩
    · rw [if_neg hle, feed_chunk_open (by omega)]
      rw [← List.append_nil unread] at h
      refine ⟨_, rfl, h.collect hsync, ⟨rfl, rfl, rfl⟩, fun _ => ⟨by dsimp only; omega, ?_⟩⟩
      simp [Input.collect, hsync]
  received := fun _ _ h => h
  added := by
    rintro rest u got conf - ⟨hrest, -⟩
    obtain ⟨hpos, hlast, -⟩ := getFreeBuf_spec conf conf.bufferSize u.free
    exact ⟨hrest, hlast.trans hpos.symm⟩

/-- All bytes. -/
def allStep (_ : Unit) (b : UInt8) : Step Unit UInt8 := .more () [b]

theorem feed_all (l : Bytes) : feed allStep () l = ⟨false, (), l, []⟩ := by
  induction l with
  | nil => rfl
  | cons b l ih =>
    rw [feed_more (rfl : allStep () b = .more () [b]), ih]
    rfl

theorem readAll_implements : Implements readAll allStep fun _ c => c.bufIn.last = c.pos where
  feeds := by
    intro k u got unread h hsync hne
    rw [readAll, if_neg (by simpa using hne), feed_all]
    rw [← List.append_nil unread] at h
    refine ⟨_, rfl, h.collect hsync, ⟨rfl, rfl, rfl⟩, fun _ => ?_⟩
    simp [Input.collect, hsync]
  received := fun _ _ h => h
  added := by
    intro k u got conf _ _
    obtain ⟨hpos, hlast, -⟩ := getFreeBuf_spec conf conf.bufferSize u.free
    exact hlast.trans hpos.symm

end Chunk

/-! ## The loop -/

/-- The kernel has no more bytes, and says so when it is asked. -/
def Drained (w : Wire) : Prop := w.pending = [] ∧ w.cuts.head? ≠ some 0

theorem recv_drained {w : Wire} (h : Drained w) (size : Nat) : w.recv size = (w.fault.recv, w) := by
  obtain ⟨pending, fault, cuts⟩ := w
  obtain ⟨rfl, hcuts⟩ := h
  rcases cuts with _ | ⟨_ | n, cuts⟩
  · rfl
  · exact absurd rfl hcuts
  · rfl

/-- What one `recv` can do: nothing yet, some of the bytes, or what is behind them. -/
theorem recv_cases (w : Wire) {size : Nat} (hsize : 0 < size) :
    (∃ cuts, w.cuts = 0 :: cuts ∧ w.recv size = (.again, { w with cuts := cuts })) ∨ Drained w ∨
      ∃ s rest cuts, s ≠ [] ∧ s.length ≤ size ∧ w.pending = s ++ rest ∧ cuts.length ≤ w.cuts.length ∧
        w.recv size = (.bytes s, ⟨rest, w.fault, cuts⟩) := by
  obtain ⟨pending, fault, cuts⟩ := w
  by_cases hzero : cuts.head? = some 0
  · obtain ⟨cuts, rfl⟩ : ∃ l, cuts = 0 :: l := by
      cases cuts with
      | nil => cases hzero
      | cons n cuts => exact ⟨cuts, by rw [Option.some.inj hzero]⟩
    exact .inl ⟨cuts, rfl, rfl⟩
  · by_cases hp : pending = []
    · exact .inr (.inl ⟨hp, hzero⟩)
    · have hn : 0 < min size (cuts.headD size) := by
        rcases cuts with _ | ⟨n, cuts⟩
        · simpa using hsize
        · have : n ≠ 0 := fun h => hzero (by rw [h]; rfl)
          simp only [List.headD_cons]
          omega
      refine .inr (.inr ⟨pending.take (min size (cuts.headD size)), pending.drop (min size (cuts.headD size)),
        cuts.tail,
        ?_, ?_, (List.take_append_drop ..).symm, by simp, ?_⟩)
      · rw [Ne, List.take_eq_nil_iff]
        rintro (h | h)
        · omega
        · exact hp h
      · rw [List.length_take]
        omega
      · rcases cuts with _ | ⟨_ | n, cuts⟩
        · simp [Wire.recv, hp]
        · exact absurd rfl hzero
        · simp [Wire.recv, hp]

section Loop

variable {κ : Type} {conf : Conf} {f : Filter κ} {m : κ → UInt8 → Step κ UInt8} {Inv : κ → Chain → Prop}

/-- The buffer `recv` is given. -/
def Input.room (conf : Conf) (u : Input) : Input := if u.bufIn.size - u.last = 0 then u.addInputBuffer conf else u

theorem room_calm (conf : Conf) (u : Input) : Calm u (u.room conf) := by
  rw [Input.room]
  split <;> exact ⟨rfl, rfl, rfl⟩

theorem Holds.room {u : Input} {got : Bytes} (h : Holds u.toChain got []) (conf : Conf) :
    Holds (u.room conf).toChain got [] := by
  rw [Input.room]
  split
  · exact h.addInputBuffer conf
  · exact h

theorem room_pos (hsize : 0 < conf.bufferSize) (u : Input) : 0 < (u.room conf).bufIn.size - (u.room conf).last := by
  rw [Input.room]
  split
  · obtain ⟨-, hlast, hle⟩ := getFreeBuf_spec conf conf.bufferSize u.free
    simp only [Input.addInputBuffer, hlast]
    omega
  · omega

theorem Implements.room (h : Implements f m Inv) {k : κ} {u : Input} {got : Bytes} (hu : Holds u.toChain got [])
    (hinv : Inv k u.toChain) (conf : Conf) : Inv k (u.room conf).toChain := by
  rw [Input.room]
  split
  · exact h.added conf hu hinv
  · exact hinv

variable {fuel : Nat} {k k' : κ} {u u' : Input} {w w' : Wire} {got unread s : Bytes}

/-! ### Turns -/

theorem tcpRead_ok (h : u.last - u.pos ≠ 0 ∨ u.eof = true) (hf : f k (u.last - u.pos) u = (.ok, k', u')) :
    tcpRead conf f (fuel + 1) k u w = some (.ok, k', u', w) := by
  rw [tcpRead, if_pos h, hf]

theorem tcpRead_error (h : u.last - u.pos ≠ 0 ∨ u.eof = true) (hf : f k (u.last - u.pos) u = (.error, k', u')) :
    tcpRead conf f (fuel + 1) k u w = some (.error, k', u'.fail ftError, w) := by
  rw [tcpRead, if_pos h, hf]

theorem tcpRead_again (h : u.last - u.pos ≠ 0 ∨ u.eof = true) (hf : f k (u.last - u.pos) u = (.again, k', u')) :
    tcpRead conf f (fuel + 1) k u w = tcpRead conf f fuel k' u' w := by
  rw [tcpRead, if_pos h, hf]

theorem not_filter (h : Holds u.toChain got []) (heof : u.eof = false) : ¬(u.last - u.pos ≠ 0 ∨ u.eof = true) := by
  have hsize := h.size
  simp [hsize, heof]

theorem tcpRead_wait (h : Holds u.toChain got []) (heof : u.eof = false)
    (hrecv : w.recv ((u.room conf).bufIn.size - (u.room conf).last) = (.again, w')) :
    tcpRead conf f (fuel + 1) k u w = tcpRead conf f fuel k (u.room conf) w' := by
  rw [Input.room] at hrecv ⊢
  rw [tcpRead, if_neg (not_filter h heof)]
  simp only [hrecv]

theorem tcpRead_bytes (h : Holds u.toChain got []) (heof : u.eof = false) (hs : s ≠ [])
    (hrecv : w.recv ((u.room conf).bufIn.size - (u.room conf).last) = (.bytes s, w')) :
    tcpRead conf f (fuel + 1) k u w = tcpRead conf f fuel k ((u.room conf).received s) w' := by
  rw [Input.room] at hrecv ⊢
  rw [tcpRead, if_neg (not_filter h heof)]
  cases s with
  | nil => exact absurd rfl hs
  | cons b s => simp only [hrecv]

theorem tcpRead_timeout (h : Holds u.toChain got []) (heof : u.eof = false)
    (hrecv : w.recv ((u.room conf).bufIn.size - (u.room conf).last) = (.timeout, w')) :
    tcpRead conf f (fuel + 1) k u w = some (.error, k, (u.room conf).fail ftTimeout, w') := by
  rw [Input.room] at hrecv ⊢
  rw [tcpRead, if_neg (not_filter h heof)]
  simp only [hrecv]

theorem tcpRead_errno {text : Bytes} (h : Holds u.toChain got []) (heof : u.eof = false)
    (hrecv : w.recv ((u.room conf).bufIn.size - (u.room conf).last) = (.error text, w')) :
    tcpRead conf f (fuel + 1) k u w = some (.error, k, { u.room conf with errno := text }.fail ftError, w') := by
  rw [Input.room] at hrecv ⊢
  rw [tcpRead, if_neg (not_filter h heof)]
  simp only [hrecv]

theorem tcpRead_closed (h : Holds u.toChain got []) (heof : u.eof = false)
    (hrecv : w.recv ((u.room conf).bufIn.size - (u.room conf).last) = (.bytes [], w')) :
    tcpRead conf f (fuel + 1) k u w =
      if conf.clientAbort = true then some (.error, k, (u.room conf).fail ftClientAbort, w')
      else tcpRead conf f fuel k { u.room conf with eof := true } w' := by
  rw [Input.room] at hrecv ⊢
  rw [tcpRead, if_neg (not_filter h heof)]
  simp only [hrecv]

/-! ### Runs -/

/-- The turns that are needed for the bytes to come. -/
def need (unread : Bytes) (w : Wire) : Nat := min 1 unread.length + w.cuts.length + 2 * w.pending.length + 2

/-- The loop `x` that was begun in `u` makes of its stream what the machine makes of it, `o`. Either both stop, and the
bytes behind are still to come, or the loop gets to the end of the stream. -/
def Feeds (conf : Conf) (f : Filter κ) (u : Input) (w : Wire) (got : Bytes) (o : Fed κ UInt8 UInt8)
    (x : Option (Rc × κ × Input × Wire)) : Prop :=
  (o.stopped = true ∧ ∃ u' w' unread', x = some (.ok, o.state, u', w') ∧ Holds u'.toChain (got ++ o.out) unread' ∧
    unread' ++ w'.pending = o.rest ∧ w'.fault = w.fault ∧ Calm u u') ∨
  (o.stopped = false ∧ ∃ n u' w', x = tcpRead conf f (n + 2) o.state u' w' ∧ Holds u'.toChain (got ++ o.out) [] ∧
    Drained w' ∧ w'.fault = w.fault ∧ Calm u u')

theorem Feeds.after {o : Fed κ UInt8 UInt8} {x : Option (Rc × κ × Input × Wire)} {out : Bytes}
    (h : Feeds conf f u' w' (got ++ out) o x) (hw : w'.fault = w.fault) (hcalm : Calm u u') :
    Feeds conf f u w got (o.after out) x := by
  rcases h with ⟨hstop, v, w'', unread', hx, hv, hrest, hfault, hcalm'⟩ | ⟨hstop, n, v, w'', hx, hv, hd, hfault, hcalm'⟩
  · refine .inl ⟨hstop, v, w'', unread', hx, ?_, hrest, hfault.trans hw, hcalm.trans' hcalm'⟩
    rwa [List.append_assoc] at hv
  · refine .inr ⟨hstop, n, v, w'', hx, ?_, hd, hfault.trans hw, hcalm.trans' hcalm'⟩
    rwa [List.append_assoc] at hv

theorem after_nil (o : Fed κ UInt8 UInt8) : o.after [] = o := rfl

theorem tcpRead_feeds (h : Implements f m Inv) (hsize : 0 < conf.bufferSize) (hu : Holds u.toChain got unread)
    (hinv : Inv k u.toChain) (heof : u.eof = false) (hfuel : need unread w ≤ fuel) :
    Feeds conf f u w got (feed m k (unread ++ w.pending)) (tcpRead conf f fuel k u w) := by
  induction fuel generalizing k u w got unread with
  | zero =>
    rw [need] at hfuel
    omega
  | succ fuel ih =>
    rw [need] at hfuel
    by_cases hne : unread = []
    · -- the kernel is asked
      subst hne
      rw [List.nil_append]
      have hroom := hu.room conf
      have hinvRoom := h.room hu hinv conf
      have heofRoom := (room_calm conf u).eof.trans heof
      have hpos := room_pos hsize u
      rcases recv_cases w hpos with ⟨cuts, hcuts, hrecv⟩ | hd | ⟨s, rest, cuts, hs, hle, hp, hcuts, hrecv⟩
      · rw [tcpRead_wait hu heof hrecv, ← after_nil (feed m k w.pending)]
        have hneed : need [] { w with cuts := cuts } ≤ fuel := by
          rw [hcuts, List.length_cons] at hfuel
          simp only [need] at hfuel ⊢
          omega
        rw [← List.append_nil got] at hroom
        exact (ih hroom hinvRoom heofRoom hneed).after rfl (room_calm conf u)
      · obtain ⟨n, rfl⟩ : ∃ n, fuel = n + 1 := ⟨fuel - 1, by omega⟩
        rw [hd.1]
        exact .inr ⟨rfl, n, u, w, rfl, by rwa [feed_nil, List.append_nil], hd, rfl, Calm.rfl'⟩
      · rw [tcpRead_bytes hu heof hs hrecv, hp, ← after_nil (feed m k _)]
        have hneed : need s ⟨rest, w.fault, cuts⟩ ≤ fuel := by
          have := List.length_pos_iff.2 hs
          rw [hp, List.length_append] at hfuel
          simp only [need] at hfuel ⊢
          omega
        rw [← List.append_nil got] at hroom
        have hrec : Holds ((u.room conf).received s).toChain (got ++ []) s := hroom.received (by omega)
        exact (ih hrec (h.received s hroom hinvRoom) heofRoom hneed).after rfl
          ((room_calm conf u).trans' ⟨rfl, rfl, rfl⟩)
    · -- the filter looks at the bytes
      obtain ⟨u₁, hf, hu₁, hcalm, hinv₁⟩ := h.feeds hu hinv hne
      have hpos := List.length_pos_iff.2 hne
      have hsome : u.last - u.pos ≠ 0 ∨ u.eof = true := .inl (by rw [hu.size]; omega)
      rw [← hu.size] at hf
      cases hstop : (feed m k unread).stopped with
      | true =>
        rw [hstop] at hf
        rw [feed_append_stop hstop, tcpRead_ok hsome hf]
        exact .inl ⟨hstop, u₁, w, _, rfl, hu₁, rfl, rfl, hcalm⟩
      | false =>
        rw [hstop] at hf
        rw [feed_rest hstop] at hu₁
        rw [feed_append_more hstop, tcpRead_again hsome hf]
        have hneed : need [] w ≤ fuel := by
          simp only [need, List.length_nil] at hfuel ⊢
          omega
        exact (ih hu₁ (hinv₁ hstop) (hcalm.eof.trans heof) hneed).after rfl hcalm

end Loop

/-! ## Calls -/

/-- The stream as a plain run of bytes. -/
structure Source where
  input : Bytes
  fault : Fault

/-- The text of the error at the end of the stream. -/
def Fault.text (conf : Conf) : Fault → Bytes
  | closed => if conf.clientAbort = true then bytes "client aborted" else bytes "closed"
  | timeout => bytes "timeout"
  | errno text => if text ≠ [] then text else bytes "error"

namespace Source

/-- A call that gets to the end of the stream: what it has got so far is its third result. Only after a timeout there is
a next call. -/
def ended (conf : Conf) (s : Source) (got : Bytes) : List Value × Option Source :=
  ([.nil, .str (s.fault.text conf), .str got], if s.fault = .timeout then some { s with input := [] } else none)

/-- What a machine makes of the stream. -/
def read {κ : Type} (conf : Conf) (m : κ → UInt8 → Step κ UInt8) (k : κ) (s : Source) :
    List Value × κ × Option Source :=
  let o := feed m k s.input
  if o.stopped then ([.str o.out], o.state, some { s with input := o.rest })
  else ((s.ended conf o.out).1, o.state, (s.ended conf o.out).2)

end Source

/-- The socket is open and nothing is collected; it has `unread` in its buffer. -/
structure Ready (conf : Conf) (u : Upstream) (unread : Bytes) : Prop where
  readClosed : u.readClosed = false
  eof : u.eof = false
  holds : Holds (u.input conf).toChain [] unread
  started : Started (u.input conf).toChain

/-- The socket will read the stream. -/
def Carries (conf : Conf) (s : Socket) (src : Source) : Prop :=
  ∃ unread, Ready conf s.upstream unread ∧ unread ++ s.wire.pending = src.input ∧ s.wire.fault = src.fault

theorem ready_new (conf : Conf) (free : List Buf) : Ready conf ⟨none, free, false, false⟩ [] := by
  obtain ⟨hpos, hlast, -⟩ := getFreeBuf_spec conf conf.bufferSize free
  refine ⟨rfl, rfl, ⟨?_, ?_, ?_, ?_, ?_, at_nil⟩, rfl, ?_⟩
  · simp [Upstream.input, hpos, hlast]
  · simp [Upstream.input, hpos, hlast]
  · simp [Upstream.input, hpos, hlast]
  · simp [Upstream.input, hlast]
  · simp [Upstream.input, text_empty, hpos, hlast]
  · simp [Upstream.input, hpos, hlast]

/-- A new connection. -/
theorem carries_new (conf : Conf) (free : List Buf) (w : Wire) :
    Carries conf ⟨⟨none, free, false, false⟩, w⟩ ⟨w.pending, w.fault⟩ := ⟨[], ready_new conf free, rfl, rfl⟩

section Calls

variable {κ : Type} {conf : Conf} {f : Filter κ} {m : κ → UInt8 → Step κ UInt8} {Inv : κ → Chain → Prop} {k : κ}
  {u : Input} {got unread : Bytes}

theorem input_calm (conf : Conf) (u : Upstream) :
    (u.input conf).ftType = 0 ∧ (u.input conf).eof = u.eof := by
  rw [Upstream.input]
  split <;> exact ⟨rfl, rfl⟩

theorem retval_ok (conf : Conf) (h : Holds u.toChain got unread) (hft : u.ftType = 0) (heof : u.eof = false) :
    u.receiveRetvalHandler.1 = [.str got] ∧ Ready conf u.receiveRetvalHandler.2 unread := by
  obtain ⟨htext, hholds, hstarted⟩ := h.pushInputData
  have hft' : u.pushInputData.2.ftType = 0 := hft
  simp only [Input.receiveRetvalHandler, hft', ne_eq, not_true_eq_false, if_false, htext, true_and]
  exact ⟨rfl, heof, hholds, hstarted⟩

theorem retval_error (conf : Conf) (h : Holds u.toChain got []) (hft : u.ftType ≠ 0) :
    u.receiveRetvalHandler.1 = [.nil, .str u.errorText, .str got] ∧
      (u.ftType &&& ftTimeout ≠ 0 → u.eof = false → Ready conf u.receiveRetvalHandler.2 []) := by
  obtain ⟨htext, hholds, hstarted⟩ := h.pushInputData
  have hft' : u.pushInputData.2.ftType ≠ 0 := hft
  simp only [Input.receiveRetvalHandler, if_pos hft', htext]
  refine ⟨rfl, fun htime heof => ?_⟩
  rw [if_pos (show u.pushInputData.2.ftType &&& ftTimeout ≠ 0 from htime)]
  exact ⟨rfl, heof, hholds, hstarted⟩

/-- At the end of the stream the call fails, if the filter does not take the end for a result: whether it then returns
`NGX_ERROR` or `NGX_OK` makes no difference. -/
theorem tcpRead_end {n : Nat} {w : Wire} (hu : Holds u.toChain got []) (heof : u.eof = false) (hft : u.ftType = 0)
    (hd : Drained w) (hf : w.fault = .closed → conf.clientAbort = false →
      (∀ u, f k 0 u = (.error, k, u.fail ftClosed)) ∨ ∀ u, f k 0 u = (.ok, k, u.fail ftClosed)) :
    ∃ rc u', tcpRead conf f (n + 2) k u w = some (rc, k, u', w) ∧ Holds u'.toChain got [] ∧ u'.ftType ≠ 0 ∧
      u'.errorText = w.fault.text conf ∧ (w.fault = .timeout → u'.ftType &&& ftTimeout ≠ 0 ∧ u'.eof = false) := by
  have hroom := hu.room conf
  have hcalm := room_calm conf u
  have hft' := hcalm.ftType.trans hft
  have hrecv := recv_drained hd ((u.room conf).bufIn.size - (u.room conf).last)
  cases hfault : w.fault with
  | timeout =>
    rw [hfault] at hrecv
    refine ⟨_, _, tcpRead_timeout hu heof hrecv, hroom, ?_, ?_, fun _ => ⟨?_, hcalm.eof.trans heof⟩⟩
    · simp [Input.fail, hft', ftTimeout]
    · simp [Input.fail, Input.errorText, hft', Fault.text, ftTimeout]
    · simp [Input.fail, hft', ftTimeout]
  | errno text =>
    rw [hfault] at hrecv
    refine ⟨_, _, tcpRead_errno hu heof hrecv, hroom, ?_, ?_, fun h => nomatch h⟩
    · simp [Input.fail, hft', ftError]
    · simp [Input.fail, Input.errorText, hft', Fault.text, ftError, ftTimeout, ftClosed, ftClientAbort]
  | closed =>
    rw [hfault] at hrecv
    rw [tcpRead_closed hu heof hrecv]
    cases habort : conf.clientAbort with
    | true =>
      rw [if_pos rfl]
      refine ⟨_, _, rfl, hroom, ?_, ?_, fun h => nomatch h⟩
      · simp [Input.fail, hft', ftClientAbort]
      · simp [Input.fail, Input.errorText, hft', Fault.text, habort, ftTimeout, ftClosed, ftClientAbort]
    | false =>
      rw [if_neg Bool.false_ne_true]
      let v : Input := { u.room conf with eof := true }
      have hv : f k (v.last - v.pos) v = f k 0 v := by rw [show v.last - v.pos = 0 from hroom.size]
      rcases hf hfault habort with hf | hf
      · refine ⟨_, _, tcpRead_error (.inr rfl) (hv.trans (hf v)), hroom, ?_, ?_, fun h => nomatch h⟩
        · simp [v, Input.fail, hft', ftClosed, ftError]
        · simp [v, Input.fail, Input.errorText, hft', Fault.text, habort, ftTimeout, ftClosed, ftError]
      · refine ⟨_, _, tcpRead_ok (.inr rfl) (hv.trans (hf v)), hroom, ?_, ?_, fun h => nomatch h⟩
        · simp [v, Input.fail, hft', ftClosed]
        · simp [v, Input.fail, Input.errorText, hft', Fault.text, habort, ftTimeout, ftClosed]

theorem read_of {s : Socket} {rc : Rc} {k' : κ} {w : Wire}
    (h : tcpRead conf f s.wire.turns k (s.upstream.input conf) s.wire = some (rc, k', u, w)) :
    s.read conf f k = (.ok u.receiveRetvalHandler.1, k', ⟨u.receiveRetvalHandler.2, w⟩) := by
  rw [Socket.read, h]

/-- A call with a filter returns what the machine makes of the stream, and leaves the rest of it. -/
theorem read_agrees (h : Implements f m Inv) (hsize : 0 < conf.bufferSize) {s : Socket} {src : Source}
    (hs : Carries conf s src) (hinv : ∀ c, Started c → Inv k c)
    (hf : src.fault = .closed → conf.clientAbort = false → ∀ k u, f k 0 u = (.error, k, u.fail ftClosed)) :
    ∃ s', s.read conf f k = (.ok (src.read conf m k).1, (src.read conf m k).2.1, s') ∧
      ∀ src', (src.read conf m k).2.2 = some src' → Carries conf s' src' := by
  obtain ⟨unread, hready, hinput, hfault⟩ := hs
  obtain ⟨hft, heof⟩ := input_calm conf s.upstream
  rw [hready.eof] at heof
  have hfuel : need unread s.wire ≤ s.wire.turns := by
    rw [need, Wire.turns]
    omega
  have hfeeds := tcpRead_feeds h hsize hready.holds (hinv _ hready.started) heof hfuel
  rw [hinput, Feeds] at hfeeds
  rw [Source.read]
  rcases hfeeds with ⟨hstop, u', w', unread', hx, hu', hrest, hfault', hcalm⟩ |
    ⟨hstop, n, u', w', hx, hu', hd, hfault', hcalm⟩
  · obtain ⟨hret, hready'⟩ := retval_ok conf hu' (hcalm.ftType.trans hft) (hcalm.eof.trans heof)
    rw [if_pos hstop, read_of hx, hret]
    refine ⟨_, rfl, fun src' hsrc' => ?_⟩
    cases hsrc'
    exact ⟨unread', hready', hrest, hfault'.trans hfault⟩
  · obtain ⟨rc, v, hv, hholds, hne, htext, htime⟩ := tcpRead_end (n := n) hu' (hcalm.eof.trans heof)
      (hcalm.ftType.trans hft)
      hd fun hc ha => .inl (hf (hfault.symm.trans (hfault'.symm.trans hc)) ha _)
    obtain ⟨hret, hready'⟩ := retval_error conf hholds hne
    rw [if_neg (by simp [hstop]), read_of (hx.trans hv), hret, htext, hfault', hfault]
    refine ⟨_, rfl, fun src' hsrc' => ?_⟩
    by_cases ht : src.fault = .timeout
    · simp only [Source.ended, if_pos ht, Option.some.injEq] at hsrc'
      obtain ⟨hbit, heof'⟩ := htime (by rw [hfault', hfault, ht])
      cases hsrc'
      exact ⟨[], hready' hbit heof', hd.1, hfault'.trans hfault⟩
    · simp [Source.ended, if_neg ht] at hsrc'

end Calls

/-! ## `receive` -/

namespace Source

/-- What `receive` returns on a plain stream, and what it leaves of it. What `receive('*r')` returns depends on how the
stream is cut. -/
def want (conf : Conf) (s : Source) : Want → Option (List Value × Option Source)
  | .line => some <|
    if 10 ∈ s.input then
      ([.str ((s.input.takeWhile (· ≠ 10)).filter (· ≠ 13))],
        some { s with input := (s.input.dropWhile (· ≠ 10)).tail })
    else s.ended conf (s.input.filter (· ≠ 13))
  | .size n => some <|
    if n ≤ s.input.length then ([.str (s.input.take n)], some { s with input := s.input.drop n })
    else s.ended conf s.input
  | .all => some <|
    -- a connection that is closed in good order is no error here
    if s.fault = .closed ∧ conf.clientAbort = false then ([.str s.input], none) else s.ended conf s.input
  | .redis => none

def receive (conf : Conf) (arg : Option Value) (s : Source) : Option (Except LuaError (List Value) × Option Source) :=
  match Want.ofArg arg with
  | .error e => some (.error e, some s)
  | .ok want => (s.want conf want).map fun r => (.ok r.1, r.2)

/-- Successive calls, as long as the stream lasts. -/
def session (conf : Conf) : List (Option Value) → Source → List (Except LuaError (List Value))
  | [], _ => []
  | arg :: args, s =>
    match s.receive conf arg with
    | none => []
    | some (ret, none) => [ret]
    | some (ret, some s) => ret :: session conf args s

end Source

/-- Successive calls of `receive`. -/
def Socket.session (conf : Conf) : List (Option Value) → Socket → List (Except LuaError (List Value))
  | [], _ => []
  | arg :: args, s =>
    let r := s.receive conf arg
    r.1 :: Socket.session conf args r.2

section Receive

variable {conf : Conf} {s : Socket} {src : Source}

theorem split_line {l : Bytes} (h : (10 : UInt8) ∈ l) :
    l = l.takeWhile (· ≠ 10) ++ 10 :: (l.dropWhile (· ≠ 10)).tail := by
  induction l with
  | nil => cases h
  | cons b l ih =>
    by_cases hb : b = 10
    · simp [hb]
    · have hl : (10 : UInt8) ∈ l := (List.mem_cons.1 h).resolve_left (Ne.symm hb)
      rw [List.takeWhile_cons_of_pos (by simpa using hb), List.dropWhile_cons_of_pos (by simpa using hb),
        List.cons_append, ← ih hl]

theorem read_line (src : Source) :
    some ((src.read conf lineStep ()).1, (src.read conf lineStep ()).2.2) = src.want conf .line := by
  rw [Source.read, Source.want]
  by_cases h : (10 : UInt8) ∈ src.input
  · have hno : (10 : UInt8) ∉ src.input.takeWhile (· ≠ 10) := fun hm => by
      simpa using List.mem_takeWhile_imp hm
    have hfeed := feed_line hno (src.input.dropWhile (· ≠ 10)).tail
    rw [← split_line h] at hfeed
    simp only [hfeed, if_pos h, if_true]
  · simp [feed_line_open h, if_neg h]

theorem read_chunk {n : Nat} (hn : 0 < n) (src : Source) :
    some ((src.read conf chunkStep n).1, (src.read conf chunkStep n).2.2) = src.want conf (.size n) := by
  rw [Source.read, Source.want]
  by_cases h : n ≤ src.input.length
  · simp [feed_chunk hn h, if_pos h]
  · simp [feed_chunk_open (not_le.1 h), if_neg h]

theorem read_all (src : Source) :
    src.read conf allStep () = ((src.ended conf src.input).1, (), (src.ended conf src.input).2) := by
  rw [Source.read, feed_all]
  rfl

/-- `receive('*a')` on a connection that is closed in good order. -/
theorem read_all_closed (hsize : 0 < conf.bufferSize) (hs : Carries conf s src) (hclosed : src.fault = .closed)
    (habort : conf.clientAbort = false) : ∃ s', s.read conf readAll () = (.ok [.str src.input], (), s') := by
  obtain ⟨unread, hready, hinput, hfault⟩ := hs
  obtain ⟨hft, heof⟩ := input_calm conf s.upstream
  rw [hready.eof] at heof
  have hfuel : need unread s.wire ≤ s.wire.turns := by
    rw [need, Wire.turns]
    omega
  have hfeeds := tcpRead_feeds (k := ()) readAll_implements hsize hready.holds hready.started.2 heof hfuel
  rw [hinput, feed_all] at hfeeds
  rcases hfeeds with ⟨hstop, -⟩ | ⟨-, n, u, w, hx, hu, hd, hfault', hcalm⟩
  · cases hstop
  · have hroom := hu.room conf
    have hrecv := recv_drained hd ((u.room conf).bufIn.size - (u.room conf).last)
    rw [hfault', hfault, hclosed] at hrecv
    rw [tcpRead_closed hu (hcalm.eof.trans heof) hrecv, habort, if_neg Bool.false_ne_true] at hx
    let v : Input := { u.room conf with eof := true }
    have hv : readAll () (v.last - v.pos) v = (.ok, (), v) := by
      rw [show v.last - v.pos = 0 from hroom.size]
      rfl
    rw [tcpRead_ok (.inr rfl) hv] at hx
    have hret : v.receiveRetvalHandler.1 = [.str src.input] := by
      have hft' : v.pushInputData.2.ftType = 0 := (room_calm conf u).ftType.trans (hcalm.ftType.trans hft)
      have htext : v.pushInputData.1 = src.input := hroom.pushInputData.1
      simp only [Input.receiveRetvalHandler, hft', ne_eq, not_true_eq_false, if_false, htext]
    exact ⟨_, by rw [read_of hx, hret]⟩

theorem want_agrees (hsize : 0 < conf.bufferSize) (hs : Carries conf s src) {want : Want} {ret : List Value}
    {next : Option Source} (h : src.want conf want = some (ret, next)) :
    ∃ s', s.want conf want = (.ok ret, s') ∧ ∀ src', next = some src' → Carries conf s' src' := by
  cases want with
  | line =>
    obtain ⟨s', hs', hnext⟩ := read_agrees (k := ()) readLine_implements hsize hs (fun _ _ => trivial)
      fun _ _ _ _ => rfl
    rw [← read_line] at h
    cases h
    exact ⟨s', by rw [Socket.want, hs'], hnext⟩
  | size n =>
    cases n with
    | zero =>
      cases h
      refine ⟨s, rfl, fun src' hsrc' => ?_⟩
      cases hsrc'
      exact hs
    | succ n =>
      obtain ⟨s', hs', hnext⟩ := read_agrees (k := n + 1) readChunk_implements hsize hs
        (fun c hc => ⟨Nat.succ_pos n, hc.2⟩) fun _ _ _ _ => rfl
      rw [← read_chunk (Nat.succ_pos n)] at h
      cases h
      exact ⟨s', by rw [Socket.want, hs'], hnext⟩
  | all =>
    by_cases hc : src.fault = .closed ∧ conf.clientAbort = false
    · obtain ⟨s', hs'⟩ := read_all_closed hsize hs hc.1 hc.2
      rw [Source.want, if_pos hc] at h
      cases h
      exact ⟨s', by rw [Socket.want, hs'], fun _ h => nomatch h⟩
    · obtain ⟨s', hs', hnext⟩ := read_agrees (k := ()) readAll_implements hsize hs (fun c hc => hc.2)
        fun h₁ h₂ => absurd ⟨h₁, h₂⟩ hc
      rw [read_all] at hs' hnext
      rw [Source.want, if_neg hc] at h
      cases h
      exact ⟨s', by rw [Socket.want, hs']; rfl, hnext⟩
  | redis => cases h

theorem receive_agrees (hsize : 0 < conf.bufferSize) (hs : Carries conf s src) {arg : Option Value}
    {ret : Except LuaError (List Value)} {next : Option Source} (h : src.receive conf arg = some (ret, next)) :
    ∃ s', s.receive conf arg = (ret, s') ∧ ∀ src', next = some src' → Carries conf s' src' := by
  have hopen : ¬s.upstream.readClosed = true := by
    obtain ⟨unread, hready, -⟩ := hs
    simp [hready.readClosed]
  rw [Source.receive] at h
  rw [Socket.receive, if_neg hopen]
  cases hw : Want.ofArg arg with
  | error e =>
    rw [hw] at h
    cases h
    refine ⟨s, rfl, fun src' hsrc' => ?_⟩
    cases hsrc'
    exact hs
  | ok want =>
    rw [hw] at h
    obtain ⟨⟨ret', next'⟩, hwant, hr⟩ := Option.map_eq_some_iff.1 h
    cases hr
    exact want_agrees hsize hs hwant

end Receive

theorem session_agrees {conf : Conf} (hsize : 0 < conf.bufferSize) {args : List (Option Value)} {s : Socket}
    {src : Source}
    (hs : Carries conf s src) : src.session conf args <+: s.session conf args := by
  induction args generalizing s src with
  | nil => exact List.nil_prefix
  | cons arg args ih =>
    rw [Source.session, Socket.session]
    cases hr : src.receive conf arg with
    | none => exact List.nil_prefix
    | some r =>
      obtain ⟨ret, next⟩ := r
      obtain ⟨s', hs', hnext⟩ := receive_agrees hsize hs hr
      cases next with
      | none => simp [hs']
      | some src' => simpa [hs'] using ih (hnext src' rfl)

/-- However the stream is cut, whatever the size of the buffers and wherever they come from: successive calls of
`receive` on a new connection return what they would return on the plain bytes, up to the end of the stream. -/
theorem receives_plain_stream (conf : Conf) (hsize : 0 < conf.bufferSize) (free : List Buf) (w : Wire)
    (args : List (Option Value)) :
    Source.session conf args ⟨w.pending, w.fault⟩ <+: Socket.session conf args ⟨⟨none, free, false, false⟩, w⟩ :=
  session_agrees hsize (carries_new conf free w)

/-- A line and two bytes more, in buffers of four bytes, with a pause after the first two bytes. -/
theorem receives_plain_stream_cut :
    [.ok [.str (bytes "+OK")], .ok [.str (bytes "ab")]] <+:
      Socket.session ⟨4, false, fun _ => 0⟩ [none, some (.num (.int 2))]
        ⟨⟨none, [], false, false⟩, ⟨bytes "+OK\r\nabc", .closed, [2, 0, 1]⟩⟩ :=
  receives_plain_stream ⟨4, false, fun _ => 0⟩ (by decide) [] ⟨bytes "+OK\r\nabc", .closed, [2, 0, 1]⟩
    [none, some (.num (.int 2))]

end NgProxy.Tcp
