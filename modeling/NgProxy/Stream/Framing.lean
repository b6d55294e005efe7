/-
`receive('*r')`: the input filter `ngx_stream_lua_socket_read_redis` and the loop that feeds it one received
chunk after another. The filter asks whether the newest chunk alone is a whole message, and takes all of it
either way; so what a call returns depends on how the stream was cut.
-/
import NgProxy.Stream.Complete

namespace NgProxy.Stream

open Lua Codec Memory Text

/-! ## The filter -/

/-- What one read has put into the buffer. The test may look at the memory around it, of which `reach` bytes
behind the chunk can be read. -/
structure Chunk where
  data : Bytes
  ne : data ≠ []
  around : Mem
  reach : Nat

/-- `redis_proto_decode(b->pos, bytes)`. -/
def Chunk.decode (c : Chunk) : Rc :=
  redisProtoDecode (load c.data c.around) (c.data.length + c.reach) 0 c.data.length

/-- `ngx_stream_lua_socket_read_redis`, for a chunk that is not empty: the return code and what the call has
collected. All bytes are consumed, so none are left for the next call; an error of the test is `NGX_AGAIN`. -/
def readRedis (bufIn : Bytes) (c : Chunk) : Rc × Bytes :=
  if c.decode = .ok then (.ok, bufIn ++ c.data) else (.again, bufIn ++ c.data)

/-- The loop of `ngx_stream_lua_socket_tcp_read`: what the call returns and the chunks that have not been
read. Nothing, when the call still waits behind the last chunk. -/
def tcpRead (bufIn : Bytes) : List Chunk → Option (Bytes × List Chunk)
  | [] => none
  | c :: cs =>
    match readRedis bufIn c with
    | (.ok, got) => some (got, cs)
    | (_, got) => tcpRead got cs

/-- `receive('*r')`. -/
def receive (cs : List Chunk) : Option (Bytes × List Chunk) := tcpRead [] cs

/-- So many calls of `receive('*r')`, one after another. -/
def receives : Nat → List Chunk → Option (List Bytes × List Chunk)
  | 0, cs => some ([], cs)
  | n + 1, cs =>
    match receive cs with
    | none => none
    | some (got, cs) => (receives n cs).map fun r => (got :: r.1, r.2)

/-! ## What a call returns -/

/-- The chunks up to the first one that passes the test. -/
theorem tcpRead_eq_some {bufIn got : Bytes} {cs rest : List Chunk} :
    tcpRead bufIn cs = some (got, rest) ↔ ∃ early last, cs = early ++ last :: rest ∧
      (∀ c ∈ early, c.decode ≠ .ok) ∧ last.decode = .ok ∧ got = bufIn ++ early.flatMap Chunk.data ++ last.data := by
  induction cs generalizing bufIn with
  | nil => simp [tcpRead]
  | cons c cs ih =>
    by_cases hc : c.decode = .ok
    · have hstep : tcpRead bufIn (c :: cs) = some (bufIn ++ c.data, cs) := by
        rw [tcpRead, readRedis, if_pos hc]
      rw [hstep]
      constructor
      · intro h
        cases h
        exact ⟨[], c, rfl, by simp, hc, by simp⟩
      · rintro ⟨early, last, hcs, hearly, -, rfl⟩
        cases early with
        | nil =>
          cases hcs
          simp
        | cons d early =>
          cases hcs
          exact absurd hc (hearly _ (List.mem_cons_self ..))
    · have hstep : tcpRead bufIn (c :: cs) = tcpRead (bufIn ++ c.data) cs := by
        rw [tcpRead, readRedis, if_neg hc]
      rw [hstep, ih]
      constructor
      · rintro ⟨early, last, rfl, hearly, hlast, rfl⟩
        exact ⟨c :: early, last, rfl, List.forall_mem_cons.2 ⟨hc, hearly⟩, hlast, by simp⟩
      · rintro ⟨early, last, hcs, hearly, hlast, rfl⟩
        cases early with
        | nil =>
          cases hcs
          exact absurd hlast hc
        | cons d early =>
          cases hcs
          exact ⟨early, last, rfl, (List.forall_mem_cons.1 hearly).2, hlast, by simp⟩

/-- The chunks frame the messages: each message is cut into chunks of its own, and of these the last one
passes the test and no other. -/
def Framed : List Bytes → List Chunk → Prop
  | [], cs => cs = []
  | m :: ms, cs => ∃ early last rest, cs = early ++ last :: rest ∧ (∀ c ∈ early, c.decode ≠ .ok) ∧
      last.decode = .ok ∧ m = early.flatMap Chunk.data ++ last.data ∧ Framed ms rest

/-- One call for each message, and nothing is left: exactly for chunks that frame the messages. -/
theorem receives_eq_some {ms : List Bytes} {cs : List Chunk} :
    receives ms.length cs = some (ms, []) ↔ Framed ms cs := by
  induction ms generalizing cs with
  | nil => simp [receives, Framed]
  | cons m ms ih =>
    rw [List.length_cons, receives]
    constructor
    · intro h
      cases hr : receive cs with
      | none => simp [hr] at h
      | some r =>
        obtain ⟨got, rest⟩ := r
        obtain ⟨early, last, hcs, hearly, hlast, hgot⟩ := tcpRead_eq_some.1 hr
        rw [hr] at h
        obtain ⟨⟨ms', cs'⟩, htail, hms⟩ := Option.map_eq_some_iff.1 h
        simp only [Prod.mk.injEq, List.cons.injEq] at hms
        obtain ⟨⟨rfl, rfl⟩, rfl⟩ := hms
        exact ⟨early, last, rest, hcs, hearly, hlast, by simpa using hgot, ih.1 htail⟩
    · rintro ⟨early, last, rest, hcs, hearly, hlast, hm, hrest⟩
      have hr : receive cs = some (m, rest) :=
        tcpRead_eq_some.2 ⟨early, last, hcs, hearly, hlast, by simpa using hm⟩
      rw [hr]
      dsimp only
      rw [ih.2 hrest]
      rfl

/-- A message that is one chunk passes the test. -/
theorem decode_whole {c : Chunk} {m : Reply} (hc : c.data = m.bytes) (hm : recognised m = true)
    (hlen : m.bytes.length < 2 ^ 31) : c.decode = .ok := by
  have hat := at_load c.data c.around
  rw [Chunk.decode, hc]
  rw [hc] at hat
  exact redisProtoDecode_whole hm hlen hat (by omega)

theorem framed_whole {ms : List Reply} {cs : List Chunk} (hcs : cs.map Chunk.data = ms.map Reply.bytes)
    (hms : ∀ m ∈ ms, recognised m = true ∧ m.bytes.length < 2 ^ 31) : Framed (ms.map Reply.bytes) cs := by
  induction ms generalizing cs with
  | nil => simpa [Framed] using hcs
  | cons m ms ih =>
    rw [List.forall_mem_cons] at hms
    obtain ⟨c, cs, rfl, hc, htail⟩ := List.map_eq_cons_iff.1 hcs
    exact ⟨[], c, cs, rfl, by simp, decode_whole hc hms.1.1 hms.1.2, by simpa using hc.symm, ih htail hms.2⟩

/-! ## Which cuts are right -/

/-- Messages of these lengths that the test recognises, cut into chunks of those lengths. -/
structure Delivery (lengths cuts : List Nat) (ms : List Reply) (cs : List Chunk) : Prop where
  lengths : (ms.map Reply.bytes).map List.length = lengths
  recognised : ∀ m ∈ ms, recognised m = true
  cuts : (cs.map Chunk.data).map List.length = cuts
  stream : (cs.map Chunk.data).flatten = (ms.map Reply.bytes).flatten

/-- A status of so many bytes: letters only. -/
def plainStatus (n : Nat) : Reply := .status (List.replicate (n - 3) 97)

theorem plainStatus_bytes (n : Nat) : (plainStatus n).bytes = 43 :: (List.replicate (n - 3) 97 ++ crlf) := rfl

theorem plainStatus_length {n : Nat} (h : 3 ≤ n) : (plainStatus n).bytes.length = n := by
  simp [plainStatus_bytes, crlf]
  omega

theorem plainStatus_recognised (n : Nat) : recognised (plainStatus n) = true := by
  simp [plainStatus, recognised, isLine]

/-- Every string can be cut into chunks of given lengths. -/
theorem exists_chunks {cuts : List Nat} (hcuts : ∀ k ∈ cuts, 0 < k) {s : Bytes} (hsum : cuts.sum = s.length) :
    ∃ cs : List Chunk, (cs.map Chunk.data).map List.length = cuts ∧ (cs.map Chunk.data).flatten = s := by
  induction cuts generalizing s with
  | nil => exact ⟨[], rfl, (List.length_eq_zero_iff.1 hsum.symm).symm⟩
  | cons k cuts ih =>
    rw [List.forall_mem_cons] at hcuts
    rw [List.sum_cons] at hsum
    obtain ⟨cs, hlen, hflat⟩ := ih hcuts.2 (s := s.drop k) (by rw [List.length_drop]; omega)
    have htake : (s.take k).length = k := by
      rw [List.length_take]
      omega
    have hne : s.take k ≠ [] := fun h => by simp [h] at htake; omega
    refine ⟨⟨s.take k, hne, fun _ => 0, 0⟩ :: cs, ?_, ?_⟩
    · rw [List.map_cons, List.map_cons, htake, hlen]
    · rw [List.map_cons, List.flatten_cons, hflat, List.take_append_drop]

/-- A chunk that begins with a letter or a line end does not pass. -/
theorem decode_plain {c : Chunk} {n : Nat} (h : c.data <:+ List.replicate n 97 ++ crlf) : c.decode ≠ .ok := by
  have hat := at_load c.data c.around
  obtain ⟨b, t, hb⟩ := List.exists_cons_of_ne_nil c.ne
  have hmem : b = 97 ∨ b = 13 ∨ b = 10 := by
    have hin : b ∈ List.replicate n 97 ++ crlf := h.subset (by rw [hb]; exact List.mem_cons_self ..)
    simp only [List.mem_append, List.mem_replicate, crlf, List.mem_cons, List.not_mem_nil, or_false] at hin
    exact hin.imp And.right id
  have hother : ¬ (b = 45 ∨ b = 43 ∨ b = 58) ∧ b ≠ 36 ∧ b ≠ 42 := by rcases hmem with rfl | rfl | rfl <;> decide
  rw [hb] at hat
  rw [Chunk.decode, hb, redisProtoDecode, hat.head, if_neg hother.1, if_neg hother.2.1, if_neg hother.2.2]
  exact Rc.noConfusion

/-- A status of letters is returned only if it comes as one chunk. -/
theorem framed_plain {lengths : List Nat} (h₃ : ∀ n ∈ lengths, 3 ≤ n) {cs : List Chunk}
    (h : Framed ((lengths.map plainStatus).map Reply.bytes) cs) : (cs.map Chunk.data).map List.length = lengths := by
  induction lengths generalizing cs with
  | nil => simpa [Framed] using h
  | cons n lengths ih =>
    rw [List.forall_mem_cons] at h₃
    obtain ⟨early, last, rest, rfl, -, hlast, hm, hrest⟩ := h
    cases early with
    | nil =>
      have hlen := congrArg List.length hm
      rw [plainStatus_length h₃.1, List.flatMap_nil, List.nil_append] at hlen
      simp only [List.nil_append, List.map_cons, ih h₃.2 hrest, hlen]
    | cons c early =>
      -- the last chunk begins behind the `+`
      obtain ⟨b, t, hb⟩ := List.exists_cons_of_ne_nil c.ne
      rw [plainStatus_bytes, List.flatMap_cons, hb, List.append_assoc, List.cons_append, List.cons.injEq] at hm
      refine absurd hlast (decode_plain (n := n - 3) ?_)
      rw [hm.2, ← List.append_assoc]
      exact List.suffix_append _ _

/-- Cut into chunks of given lengths, all messages of given lengths are returned by successive calls, one per
call, exactly if the chunks are the messages: as soon as one of them holds a part of a message, or more than
one, some messages of these lengths are not returned so. This is about the messages the test recognises:
a null must be the last element of its array. -/
theorem receives_framing (lengths cuts : List Nat) (hlengths : ∀ n ∈ lengths, 3 ≤ n ∧ n < 2 ^ 31)
    (hcuts : ∀ k ∈ cuts, 0 < k) (hsum : cuts.sum = lengths.sum) :
    (∀ ms cs, Delivery lengths cuts ms cs → receives ms.length cs = some (ms.map Reply.bytes, [])) ↔
      cuts = lengths := by
  have hframed (ms : List Reply) (cs : List Chunk) :
      receives ms.length cs = some (ms.map Reply.bytes, []) ↔ Framed (ms.map Reply.bytes) cs := by
    have h : receives (ms.map Reply.bytes).length cs = _ ↔ _ := receives_eq_some
    rwa [List.length_map] at h
  constructor
  · intro h
    have hlens : ((lengths.map plainStatus).map Reply.bytes).map List.length = lengths := by
      rw [List.map_map, List.map_map]
      exact (List.map_congr_left fun n hn => plainStatus_length (hlengths n hn).1).trans (List.map_id _)
    obtain ⟨cs, hlen, hflat⟩ := exists_chunks hcuts (s := ((lengths.map plainStatus).map Reply.bytes).flatten)
      (by rw [List.length_flatten, hlens, hsum])
    have hall : ∀ m ∈ lengths.map plainStatus, recognised m = true := by
      intro m hm
      obtain ⟨n, -, rfl⟩ := List.mem_map.1 hm
      exact plainStatus_recognised n
    have hrun := h (lengths.map plainStatus) cs ⟨hlens, hall, hlen, hflat⟩
    rw [← hlen]
    exact framed_plain (fun n hn => (hlengths n hn).1) ((hframed _ _).1 hrun)
  · rintro rfl ms cs hd
    refine (hframed ms cs).2 (framed_whole ?_ fun m hm => ⟨hd.recognised m hm, ?_⟩)
    · exact List.eq_iff_flatten_eq.2 ⟨hd.stream, hd.cuts.trans hd.lengths.symm⟩
    · refine (hlengths _ ?_).2
      rw [← hd.lengths]
      exact List.mem_map_of_mem (List.mem_map_of_mem hm)

/-- A chunk with nothing readable behind it. -/
def Chunk.plain (data : Bytes) (ne : data ≠ []) : Chunk := ⟨data, ne, fun _ => 0, 0⟩

/-- The messages `+OK` and `$-1`. -/
def okAndNull : List Reply := [.status (bytes "OK"), .nilBulk]

theorem receives_framing_ok_null :
    receives 2 [.plain (bytes "+OK\r\n") (by decide), .plain (bytes "$-1\r\n") (by decide)] =
      some ([bytes "+OK\r\n", bytes "$-1\r\n"], []) := by
  have h := (receives_framing [5, 5] [5, 5] (by decide) (by decide) rfl).2 rfl okAndNull
    [.plain (bytes "+OK\r\n") (by decide), .plain (bytes "$-1\r\n") (by decide)]
  exact h ⟨rfl, by decide, rfl, rfl⟩

/-- An array with a null in front of other elements. -/
def nullInside : Bytes := (Reply.array [.nilBulk, .bulk (bytes "999"), .bulk (bytes "a"), .bulk (bytes "b")]).bytes

/-- Two messages in one chunk are one result, a message cut in two is none at all, and neither is an array with
a null inside that comes as one chunk. -/
theorem coalesced_and_cut :
    receives 2 [.plain (bytes "+OK\r\n$-1\r\n") (by decide)] = none ∧
      receives 1 [.plain (bytes "+OK\r\n$-1\r\n") (by decide)] = some ([bytes "+OK\r\n$-1\r\n"], []) ∧
      receives 1 [.plain (bytes "+O") (by decide), .plain (bytes "K\r\n") (by decide)] = none ∧
      receives 1 [.plain nullInside (by decide)] = none :=
  ⟨rfl, rfl, rfl, by decide +kernel⟩

end NgProxy.Stream
