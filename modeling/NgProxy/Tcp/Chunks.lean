/-
`receive('*r')` on the buffers. A call returns what the filter's loop makes of the chunks in which the bytes have come,
with the memory that was around each of them; so the framing of messages by chunks is one of the socket too.
-/
import NgProxy.Tcp.Receive

namespace NgProxy.Tcp

open Lua Memory
open NgProxy.Stream (Rc Chunk)

/-- The bytes not looked at as a chunk. -/
def Input.chunk (u : Input) (data : Bytes) (ne : data ≠ []) : Chunk :=
  ⟨data, ne, fun i => u.bufIn.mem (u.pos + i), u.bufIn.size - u.last⟩

theorem load_window {mem : Mem} {p : Nat} {data : Bytes} (h : At mem p data) :
    load data (fun i => mem (p + i)) = fun i : Int => mem (p + i) := by
  funext i
  rw [load]
  split
  · rename_i hi
    by_cases hlt : i.toNat < data.length
    · rw [List.getD_eq_getElem?_getD, List.getElem?_eq_getElem hlt, Option.getD_some, ← h i.toNat hlt,
        Int.toNat_of_nonneg hi]
    · rw [List.getD_eq_getElem?_getD, List.getElem?_eq_none (not_lt.1 hlt), Option.getD_none]
  · rfl

/-- The filter asks about the chunk what the plain loop asks. -/
theorem decode_chunk {u : Input} {got unread : Bytes} (h : Holds u.toChain got unread) (hne : unread ≠ []) :
    u.decode unread.length = (u.chunk unread hne).decode := by
  have htop := h.top
  have hfits := h.fits
  rw [Input.decode, Chunk.decode, Input.chunk]
  dsimp only
  rw [load_window h.unread]
  congr 1
  omega

theorem readRedis_chunk {u : Input} {got unread : Bytes} (h : Holds u.toChain got unread) (hsync : u.bufIn.last = u.pos)
    (hne : unread ≠ []) :
    ∃ u', readRedis () (u.last - u.pos) u = ((Stream.readRedis got (u.chunk unread hne)).1, (), u') ∧
      Holds u'.toChain (got ++ unread) [] ∧ u'.bufIn.last = u'.pos ∧ Calm u u' ∧
      (Stream.readRedis got (u.chunk unread hne)).2 = got ++ unread := by
  have hcollect : Holds (u.collect unread.length).toChain (got ++ unread) [] := by
    rw [← List.append_nil unread] at h
    exact h.collect hsync
  have hsync' : (u.collect unread.length).bufIn.last = (u.collect unread.length).pos := by
    simp [Input.collect, hsync]
  rw [h.size, readRedis, if_neg (by simpa using hne), decode_chunk h hne, Stream.readRedis]
  split
  · exact ⟨_, rfl, hcollect, hsync', ⟨rfl, rfl, rfl⟩, rfl⟩
  · exact ⟨_, rfl, hcollect, hsync', ⟨rfl, rfl, rfl⟩, rfl⟩

section Loop

variable {conf : Conf} {u : Input} {w : Wire} {got unread : Bytes}

/-- The loop `x` has been given the chunks `cs`. Either the last one of them passes the test, and the rest of the stream
is still to come; or none does, and the loop gets to the end of the stream. -/
def Chunked (conf : Conf) (u : Input) (w : Wire) (got stream : Bytes) (x : Option (Rc × Unit × Input × Wire)) : Prop :=
  ∃ cs : List Chunk,
    (∃ u' w', x = some (.ok, (), u', w') ∧ Stream.tcpRead got cs = some (got ++ cs.flatMap Chunk.data, []) ∧
      Holds u'.toChain (got ++ cs.flatMap Chunk.data) [] ∧ cs.flatMap Chunk.data ++ w'.pending = stream ∧
      w'.fault = w.fault ∧ Calm u u') ∨
    (∃ n u' w', x = tcpRead conf readRedis (n + 2) () u' w' ∧ Stream.tcpRead got cs = none ∧
      Holds u'.toChain (got ++ cs.flatMap Chunk.data) [] ∧ cs.flatMap Chunk.data = stream ∧ Drained w' ∧
      w'.fault = w.fault ∧ Calm u u')

theorem Chunked.calm {u' : Input} {w' : Wire} {stream : Bytes} {x : Option (Rc × Unit × Input × Wire)}
    (h : Chunked conf u' w' got stream x) (hw : w'.fault = w.fault) (hcalm : Calm u u') :
    Chunked conf u w got stream x := by
  obtain ⟨cs, ⟨v, w'', hx, hcs, hv, hs, hfault, hc⟩ | ⟨n, v, w'', hx, hcs, hv, hs, hd, hfault, hc⟩⟩ := h
  · exact ⟨cs, .inl ⟨v, w'', hx, hcs, hv, hs, hfault.trans hw, hcalm.trans' hc⟩⟩
  · exact ⟨cs, .inr ⟨n, v, w'', hx, hcs, hv, hs, hd, hfault.trans hw, hcalm.trans' hc⟩⟩

/-- A chunk that does not pass the test, in front of the others. -/
theorem Chunked.cons {u' : Input} {stream : Bytes} {x : Option (Rc × Unit × Input × Wire)} {c : Chunk}
    (h : Chunked conf u' w (got ++ c.data) stream x) (hc : Stream.readRedis got c = (.again, got ++ c.data))
    (hcalm : Calm u u') : Chunked conf u w got (c.data ++ stream) x := by
  have hstep : ∀ cs, Stream.tcpRead got (c :: cs) = Stream.tcpRead (got ++ c.data) cs := by
    intro cs
    rw [Stream.tcpRead, hc]
  obtain ⟨cs, ⟨v, w', hx, hcs, hv, hs, hfault, hc'⟩ | ⟨n, v, w', hx, hcs, hv, hs, hd, hfault, hc'⟩⟩ := h
  · rw [List.append_assoc] at hcs hv
    refine ⟨c :: cs, .inl ⟨v, w', hx, ?_, hv, ?_, hfault, hcalm.trans' hc'⟩⟩
    · rw [hstep, hcs]
      rfl
    · rw [List.flatMap_cons, List.append_assoc, hs]
  · rw [List.append_assoc] at hv
    refine ⟨c :: cs, .inr ⟨n, v, w', hx, ?_, hv, ?_, hd, hfault, hcalm.trans' hc'⟩⟩
    · rw [hstep, hcs]
    · rw [List.flatMap_cons, hs]

theorem tcpRead_chunked (hsize : 0 < conf.bufferSize) {fuel : Nat} (hu : Holds u.toChain got unread)
    (hsync : u.bufIn.last = u.pos) (heof : u.eof = false) (hfuel : need unread w ≤ fuel) :
    Chunked conf u w got (unread ++ w.pending) (tcpRead conf readRedis fuel () u w) := by
  induction fuel generalizing u w got unread with
  | zero =>
    rw [need] at hfuel
    omega
  | succ fuel ih =>
    rw [need] at hfuel
    by_cases hne : unread = []
    · -- the kernel is asked
      subst hne
      rw [List.nil_append]
      have hroom := hu.room conf
      have hsyncRoom : (u.room conf).bufIn.last = (u.room conf).pos := readAll_implements.room (k := ()) hu hsync conf
      have heofRoom := (room_calm conf u).eof.trans heof
      have hpos := room_pos hsize u
      rcases recv_cases w hpos with ⟨cuts, hcuts, hrecv⟩ | hd | ⟨s, rest, cuts, hs, hle, hp, hcuts, hrecv⟩
      · rw [tcpRead_wait hu heof hrecv]
        have hneed : need [] { w with cuts := cuts } ≤ fuel := by
          rw [hcuts, List.length_cons] at hfuel
          simp only [need] at hfuel ⊢
          omega
        exact (ih hroom hsyncRoom heofRoom hneed).calm rfl (room_calm conf u)
      · obtain ⟨n, rfl⟩ : ∃ n, fuel = n + 1 := ⟨fuel - 1, by omega⟩
        rw [hd.1]
        exact ⟨[], .inr ⟨n, u, w, rfl, rfl, by simpa using hu, rfl, hd, rfl, Calm.rfl'⟩⟩
      · rw [tcpRead_bytes hu heof hs hrecv, hp]
        have hneed : need s ⟨rest, w.fault, cuts⟩ ≤ fuel := by
          have := List.length_pos_iff.2 hs
          rw [hp, List.length_append] at hfuel
          simp only [need] at hfuel ⊢
          omega
        have hrec : Holds ((u.room conf).received s).toChain got s := hroom.received (by omega)
        exact (ih hrec hsyncRoom heofRoom hneed).calm rfl ((room_calm conf u).trans' ⟨rfl, rfl, rfl⟩)
    · -- the filter looks at the chunk
      obtain ⟨u₁, hf, hu₁, hsync₁, hcalm, hgot⟩ := readRedis_chunk hu hsync hne
      have hpos := List.length_pos_iff.2 hne
      have hsome : u.last - u.pos ≠ 0 ∨ u.eof = true := .inl (by rw [hu.size]; omega)
      have hneed : need [] w ≤ fuel := by
        simp only [need, List.length_nil] at hfuel ⊢
        omega
      by_cases hok : (u.chunk unread hne).decode = .ok
      · have hread : Stream.readRedis got (u.chunk unread hne) = (.ok, got ++ unread) := if_pos hok
        rw [hread] at hf
        rw [tcpRead_ok hsome hf]
        refine ⟨[u.chunk unread hne], .inl ⟨u₁, w, rfl, ?_, ?_, ?_, rfl, hcalm⟩⟩
        · rw [Stream.tcpRead, hread, List.flatMap_singleton]
          rfl
        · rwa [List.flatMap_singleton]
        · rw [List.flatMap_singleton]
          rfl
      · have hread : Stream.readRedis got (u.chunk unread hne) = (.again, got ++ unread) := if_neg hok
        rw [hread] at hf
        rw [tcpRead_again hsome hf]
        exact (ih hu₁ hsync₁ (hcalm.eof.trans heof) hneed).cons hread hcalm

end Loop

/-- However the stream is cut: a call of `receive('*r')` has been given the stream in chunks. Either it returns what the
filter's loop returns on just these chunks, and leaves the bytes behind them; or no chunk was the end of a message, and
it returns the error at the end of the stream and all its bytes. -/
theorem receive_redis_chunks (conf : Conf) (hsize : 0 < conf.bufferSize) (s : Socket) (src : Source)
    (hs : Carries conf s src) :
    ∃ cs : List Chunk,
      (∃ got s', s.receive conf (some (.str (bytes "*r"))) = (.ok [.str got], s') ∧ Stream.receive cs = some (got, []) ∧
        Carries conf s' ⟨s'.wire.pending, src.fault⟩ ∧ got ++ s'.wire.pending = src.input) ∨
      (∃ s', s.receive conf (some (.str (bytes "*r"))) =
          (.ok [.nil, .str (src.fault.text conf), .str src.input], s') ∧
        Stream.receive cs = none ∧ cs.flatMap Chunk.data = src.input) := by
  obtain ⟨unread, hready, hinput, hfault⟩ := hs
  obtain ⟨hft, heof⟩ := input_calm conf s.upstream
  rw [hready.eof] at heof
  have hfuel : need unread s.wire ≤ s.wire.turns := by
    rw [need, Wire.turns]
    omega
  have hcall : s.receive conf (some (.str (bytes "*r"))) =
      ((s.read conf readRedis ()).1, (s.read conf readRedis ()).2.2) := by
    rw [Socket.receive, if_neg (by simp [hready.readClosed])]
    rfl
  obtain ⟨cs, ⟨u, w, hx, hcs, hu, hstream, hfault', hcalm⟩ | ⟨n, u, w, hx, hcs, hu, hstream, hd, hfault', hcalm⟩⟩ :=
    tcpRead_chunked hsize hready.holds hready.started.2 heof hfuel
  · obtain ⟨hret, hready'⟩ := retval_ok conf hu (hcalm.ftType.trans hft) (hcalm.eof.trans heof)
    rw [hinput] at hstream
    refine ⟨cs, .inl ⟨cs.flatMap Chunk.data, ⟨u.receiveRetvalHandler.2, w⟩, ?_, hcs, ?_, hstream⟩⟩
    · rw [hcall, read_of hx, hret]
      rfl
    · exact ⟨[], hready', rfl, hfault'.trans hfault⟩
  · obtain ⟨rc, v, hv, hholds, hne, htext, -⟩ := tcpRead_end (f := readRedis) (n := n) hu (hcalm.eof.trans heof)
      (hcalm.ftType.trans hft) hd fun _ _ => .inr fun _ => rfl
    obtain ⟨hret, -⟩ := retval_error conf hholds hne
    rw [hinput] at hstream
    refine ⟨cs, .inr ⟨⟨v.receiveRetvalHandler.2, w⟩, ?_, hcs, hstream⟩⟩
    rw [hcall, read_of (hx.trans hv), hret, htext, hfault', hfault, List.nil_append, hstream]

/-- A status line in two chunks. -/
theorem receive_redis_chunks_cut :
    ∃ (cs : List Chunk) (ret : List Value) (s' : Socket),
      Socket.receive ⟨16, false, fun _ => 0⟩ (some (.str (bytes "*r")))
        ⟨⟨none, [], false, false⟩, ⟨bytes "+OK\r\n", .closed, [2]⟩⟩ = (.ok ret, s') ∧
      (Stream.receive cs = none ∨ ∃ got, ret = [.str got] ∧ Stream.receive cs = some (got, [])) := by
  obtain ⟨cs, ⟨got, s', hret, hcs, -⟩ | ⟨s', hret, hcs, -⟩⟩ := receive_redis_chunks ⟨16, false, fun _ => 0⟩ (by decide)
    ⟨⟨none, [], false, false⟩, ⟨bytes "+OK\r\n", .closed, [2]⟩⟩ ⟨bytes "+OK\r\n", .closed⟩
    ⟨[], ready_new _ [], rfl, rfl⟩
  · exact ⟨cs, _, s', hret, .inr ⟨got, rfl, hcs⟩⟩
  · exact ⟨cs, _, s', hret, .inl hcs⟩

end NgProxy.Tcp
