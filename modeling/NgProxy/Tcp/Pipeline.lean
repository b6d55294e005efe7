/-
Pipelines of `lhlh_redis`: between `init_pipeline` and `commit_pipeline` a command only stores its request; then all
requests go out at once and as many replies are read. The replies are paired with the commands in order, and nothing
else differs from sending the commands one by one.
-/
import NgProxy.Tcp.Decode
import NgProxy.Tcp.Send

namespace NgProxy.Tcp

open Lua Codec Text

/-! ## The client -/

/-- The object of `lhlh_redis`: the two sides of `_sock`, and `_reqs`. -/
structure Redis where
  socket : Socket
  writer : Writer
  reqs : Option (List Value)

namespace Redis

/-- `close`. Nothing can be read or sent any more. -/
def close (r : Redis) : Redis :=
  { r with socket := { r.socket with upstream := { r.socket.upstream with readClosed := true } },
           writer := { r.writer with writeClosed := true } }

/-- A timeout closes the connection. -/
def closeOn (err : Value) (r : Redis) : Redis := if err.eqStr (bytes "timeout") then r.close else r

/-- `init_pipeline`. -/
def initPipeline (r : Redis) : Redis := { r with reqs := some [] }

/-- `_do_cmd`, with its three results. In a pipeline it returns none. -/
def doCmd (conf : Conf) (args : List Value) (r : Redis) : Except LuaError (List Value × Redis) :=
  match encode (.tab args) (some typeMultiBulkReply) with
  | .error e => .error e
  | .ok req =>
    match r.reqs with
    | some reqs => .ok ([], { r with reqs := some (reqs ++ [req.elim .nil .tab]) })
    | none =>
      match r.writer.send conf (req.elim .nil .tab) with
      | (.error e, _) => .error e
      | (.ok ret, writer) =>
        let r := { r with writer := writer }
        if (first ret).truthy then
          match r.socket.decode conf with
          | .error e => .error e
          | .ok (d, s) => .ok ([d.val, preVal d.pre, d.err], closeOn d.err { r with socket := s })
        else .ok ([.nil, .num (.int 0), second ret], r)

/-- The loop of `commit_pipeline`. -/
def commitLoop (conf : Conf) : Nat → List Value → Redis → Except LuaError (List Value × Redis)
  | 0, vals, r => .ok ([.tab vals], r)
  | n + 1, vals, r =>
    match r.socket.decode conf with
    | .error e => .error e
    | .ok (d, s) =>
      let r := { r with socket := s }
      match d.val with
      | .nil => .ok ([.nil, d.err], closeOn d.err r)
      | .bool false => commitLoop conf n (vals ++ [.tab [.bool false, d.err]]) r
      | v => commitLoop conf n (vals ++ [v]) r

/-- `commit_pipeline`. -/
def commitPipeline (conf : Conf) (r : Redis) : Except LuaError (List Value × Redis) :=
  match r.reqs with
  | none => .ok ([.nil, .str (bytes "no pipeline")], r)
  | some reqs =>
    let r := { r with reqs := none }
    match r.writer.send conf (.tab reqs) with
    | (.error e, _) => .error e
    | (.ok ret, writer) =>
      let r := { r with writer := writer }
      if (first ret).truthy then
        match newTab (.int reqs.length) with
        | .error e => .error e
        | .ok () => commitLoop conf reqs.length [] r
      else .ok ([.nil, second ret], r)

/-- Commands one after another, with the results of each. -/
def doCmds (conf : Conf) : List (List Bytes) → Redis → Except LuaError (List (List Value) × Redis)
  | [], r => .ok ([], r)
  | args :: cmds, r =>
    match r.doCmd conf (args.map .str) with
    | .error e => .error e
    | .ok (ret, r) =>
      match doCmds conf cmds r with
      | .error e => .error e
      | .ok (rets, r) => .ok (ret :: rets, r)

/-- Commands in a pipeline. -/
def pipeline (conf : Conf) (cmds : List (List Bytes)) (r : Redis) : Except LuaError (List Value × Redis) :=
  match doCmds conf cmds r.initPipeline with
  | .error e => .error e
  | .ok (_, r) => r.commitPipeline conf

end Redis

/-! ## Requests and replies -/

/-- The bytes of a command. -/
def request (args : List Bytes) : Bytes :=
  match wire (.tab (args.map .str)) (some typeMultiBulkReply) with
  | .ok t => t
  | .error _ => []

/-- The table of a command. -/
theorem encode_request {args : List Bytes} (hroom : args.length ≤ maxArgs) :
    ∃ x, encode (.tab (args.map .str)) (some typeMultiBulkReply) = .ok (some x) ∧ flatTab x = .ok (request args) := by
  obtain ⟨x, t, hx, ht⟩ := encodeArgs_strs args
  have henc := encode_tab (by rwa [List.length_map]) hx
  have hflat := flatTab_cons_ok (flat_str (bytes "*" ++ (Number.int (args.map Value.str).length).text ++ crlf)) ht
  refine ⟨_, henc, ?_⟩
  rw [request, wire, henc]
  dsimp only
  rw [hflat]

/-- A reply as the table of `commit_pipeline` has it. -/
def pipelined (r : Reply) : Value := if r.isError then .tab [.bool false, r.ret.err] else r.ret.val

/-- A reply as `_do_cmd` returns it. -/
def results (r : Reply) : List Value := [r.ret.val, preVal r.ret.pre, r.ret.err]

/-- A client that reads the stream of `k`, has sent `sent` and can send more. -/
structure Talks (conf : Conf) (k : Sock) (sent : Bytes) (r : Redis) : Prop where
  backs : Backs conf r.socket k
  sent : r.writer.sink.sent = sent
  writable : r.writer.writeClosed = false
  refusal : r.writer.sink.refusal = none

section Talks

variable {conf : Conf} {r : Redis} {sent fault : Bytes} {k : Sock}

/-- Sending a table. -/
theorem Talks.send (h : Talks conf k sent r) {v : Value} {t : Bytes} (ht : flat v = .ok t) :
    ∃ n writer, r.writer.send conf v = (.ok [.num n], writer) ∧
      Talks conf k (sent ++ t) { r with writer := writer } := by
  obtain ⟨ret, writer, hsend, ⟨rfl, hsent, hopen, href⟩ | ⟨x, done, hx, -⟩⟩ :=
    send_outcome conf v r.writer t ht h.writable
  · refine ⟨_, writer, hsend, ⟨h.backs, ?_, hopen, href.trans h.refusal⟩⟩
    rw [hsent, h.sent]
  · rw [h.refusal] at hx
    cases hx

/-- Reading the next reply. -/
theorem Talks.decode (hsize : 0 < conf.bufferSize) {p : Reply} {rest : Bytes} (hp : p.wf = true)
    (h : Talks conf ⟨p.bytes ++ rest, fault⟩ sent r) :
    ∃ s, r.socket.decode conf = .ok (p.ret, s) ∧ Talks conf ⟨rest, fault⟩ sent { r with socket := s } := by
  have hplain := decode_bytes p hp rest fault
  rcases decode_agree hsize h.backs with ⟨e, -, hy⟩ | ⟨d, s, k, hx, hy, hback⟩
  · rw [hplain] at hy
    cases hy
  · rw [hplain] at hy
    cases hy
    refine ⟨s, hx, ?_, h.sent, h.writable, h.refusal⟩
    refine hback.resolve_right fun hnil => ?_
    have hval := hnil.1
    cases p <;> simp [Reply.ret] at hval

end Talks

/-! ## One by one -/

section Commands

variable {conf : Conf} {r : Redis} {sent fault rest : Bytes} {k : Sock} {p : Reply} {rs : List Reply}
  {cmds : List (List Bytes)}

/-- A reply that is an error with the text `timeout` would close the connection. -/
theorem closeOn_reply (hp : p ≠ .error (bytes "timeout")) (r : Redis) : r.closeOn p.ret.err = r := by
  refine if_neg ?_
  cases p with
  | error s =>
    have hs : s ≠ bytes "timeout" := fun h => hp (by rw [h])
    simpa [Reply.ret, Value.eqStr] using hs
  | status s => simp [Reply.ret, Value.eqStr]
  | int n => simp [Reply.ret, Value.eqStr]
  | bulk s => simp [Reply.ret, Value.eqStr]
  | nilBulk => simp [Reply.ret, Value.eqStr]
  | nilArray => simp [Reply.ret, Value.eqStr]
  | array l => simp [Reply.ret, Value.eqStr]

theorem doCmd_now (hsize : 0 < conf.bufferSize) (hp : p.wf = true) (htime : p ≠ .error (bytes "timeout"))
    (h : Talks conf ⟨p.bytes ++ rest, fault⟩ sent r) (hreqs : r.reqs = none) {args : List Bytes}
    (hroom : args.length ≤ maxArgs) :
    ∃ r', r.doCmd conf (args.map .str) = .ok (results p, r') ∧ Talks conf ⟨rest, fault⟩ (sent ++ request args) r' ∧
      r'.reqs = none := by
  obtain ⟨x, henc, hflat⟩ := encode_request hroom
  obtain ⟨n, writer, hsend, htalks⟩ := h.send (v := .tab x) (by rwa [flat_tab])
  obtain ⟨s, hdec, htalks'⟩ := htalks.decode hsize hp
  refine ⟨{ r with writer := writer, socket := s }, ?_, htalks', hreqs⟩
  rw [Redis.doCmd, henc]
  dsimp only [Option.elim]
  rw [hreqs]
  dsimp only
  rw [hsend]
  dsimp only
  rw [if_pos (show (first [.num n]).truthy = true from rfl), hdec]
  dsimp only
  rw [closeOn_reply htime]
  rfl

theorem doCmds_now (hsize : 0 < conf.bufferSize) (hroom : ∀ args ∈ cmds, args.length ≤ maxArgs)
    (hwf : ∀ p ∈ rs, p.wf = true) (htime : ∀ p ∈ rs, p ≠ .error (bytes "timeout")) (hlen : rs.length = cmds.length)
    (h : Talks conf ⟨Reply.bytesList rs ++ rest, fault⟩ sent r) (hreqs : r.reqs = none) :
    ∃ r', r.doCmds conf cmds = .ok (rs.map results, r') ∧
      Talks conf ⟨rest, fault⟩ (sent ++ cmds.flatMap request) r' := by
  induction cmds generalizing rs sent r with
  | nil =>
    obtain rfl : rs = [] := List.eq_nil_of_length_eq_zero hlen
    exact ⟨r, rfl, by simpa [Reply.bytesList] using h⟩
  | cons args cmds ih =>
    obtain ⟨p, rs, rfl⟩ : ∃ p l, rs = p :: l := List.exists_cons_of_length_eq_add_one hlen
    rw [List.forall_mem_cons] at hwf htime hroom
    rw [Reply.bytesList, List.append_assoc] at h
    obtain ⟨r₁, hcmd, htalks, hreqs₁⟩ := doCmd_now hsize hwf.1 htime.1 h hreqs hroom.1
    obtain ⟨r', hcmds, htalks'⟩ := ih hroom.2 hwf.2 htime.2 (by simpa using hlen) htalks hreqs₁
    refine ⟨r', ?_, ?_⟩
    · rw [Redis.doCmds, hcmd]
      dsimp only
      rw [hcmds]
      rfl
    · rwa [List.flatMap_cons, ← List.append_assoc]

/-! ## In a pipeline -/

/-- The commands are stored, and nothing else happens. -/
theorem doCmds_stored (conf : Conf) {cmds : List (List Bytes)} (hroom : ∀ args ∈ cmds, args.length ≤ maxArgs)
    {reqs : List Value} (hreqs : r.reqs = some reqs) {t : Bytes} (ht : flatTab reqs = .ok t) :
    ∃ reqs', r.doCmds conf cmds = .ok (cmds.map fun _ => [], { r with reqs := some reqs' }) ∧
      reqs'.length = reqs.length + cmds.length ∧ flatTab reqs' = .ok (t ++ cmds.flatMap request) := by
  induction cmds generalizing reqs t r with
  | nil => exact ⟨reqs, by rw [← hreqs]; rfl, rfl, by simpa using ht⟩
  | cons args cmds ih =>
    rw [List.forall_mem_cons] at hroom
    obtain ⟨x, henc, hflat⟩ := encode_request hroom.1
    have hone : flatTab [.tab x] = .ok (request args) := by
      rw [flatTab_cons_ok (by rwa [flat_tab]) flatTab_nil, List.append_nil]
    have hcmd : r.doCmd conf (args.map .str) = .ok ([], { r with reqs := some (reqs ++ [.tab x]) }) := by
      rw [Redis.doCmd, henc]
      dsimp only [Option.elim]
      rw [hreqs]
    obtain ⟨reqs', hcmds, hlen, hflat'⟩ :=
      ih hroom.2 (r := { r with reqs := some (reqs ++ [.tab x]) }) rfl (flatTab_append_ok ht hone)
    refine ⟨reqs', ?_, ?_, ?_⟩
    · rw [Redis.doCmds, hcmd]
      dsimp only
      rw [hcmds]
      rfl
    · rw [hlen, List.length_append, List.length_cons, List.length_cons, List.length_nil]
      omega
    · rw [hflat', List.flatMap_cons, List.append_assoc]

theorem commitLoop_pairs (hsize : 0 < conf.bufferSize) (hwf : ∀ p ∈ rs, p.wf = true)
    (h : Talks conf ⟨Reply.bytesList rs ++ rest, fault⟩ sent r) (vals : List Value) :
    ∃ r', r.commitLoop conf rs.length vals = .ok ([.tab (vals ++ rs.map pipelined)], r') ∧
      Talks conf ⟨rest, fault⟩ sent r' := by
  induction rs generalizing vals r with
  | nil => exact ⟨r, by simp [Redis.commitLoop], by simpa [Reply.bytesList] using h⟩
  | cons p rs ih =>
    rw [List.forall_mem_cons] at hwf
    rw [Reply.bytesList, List.append_assoc] at h
    obtain ⟨s, hdec, htalks⟩ := h.decode hsize hwf.1
    obtain ⟨r', hloop, htalks'⟩ := ih hwf.2 htalks (vals ++ [pipelined p])
    refine ⟨r', ?_, htalks'⟩
    rw [List.append_assoc] at hloop
    rw [List.length_cons, Redis.commitLoop, hdec, List.map_cons]
    cases p <;> exact hloop

/-- However the two streams are cut, and with a kernel that takes what is sent: as many well-formed replies as there are
commands are paired with them in order, whether the commands are sent one by one or in a pipeline. Both ways send the
same bytes and leave the same rest of the stream. One by one, none of the replies may be the error `timeout`, which
closes the connection. The tables of the commands and of the replies must not be longer than LuaJIT allows. -/
theorem pipeline_pairs (conf : Conf) (hsize : 0 < conf.bufferSize) (cmds : List (List Bytes)) (rs : List Reply)
    (hroom : ∀ args ∈ cmds, args.length ≤ maxArgs) (hmax : cmds.length ≤ maxArr) (hlen : rs.length = cmds.length)
    (hwf : ∀ p ∈ rs, p.wf = true) (rest fault sent : Bytes) (r : Redis)
    (h : Talks conf ⟨Reply.bytesList rs ++ rest, fault⟩ sent r) (hreqs : r.reqs = none) :
    (∃ r', r.pipeline conf cmds = .ok ([.tab (rs.map pipelined)], r') ∧
        Talks conf ⟨rest, fault⟩ (sent ++ cmds.flatMap request) r') ∧
      ((∀ p ∈ rs, p ≠ .error (bytes "timeout")) → ∃ r', r.doCmds conf cmds = .ok (rs.map results, r') ∧
        Talks conf ⟨rest, fault⟩ (sent ++ cmds.flatMap request) r') := by
  refine ⟨?_, fun htime => doCmds_now hsize hroom hwf htime hlen h hreqs⟩
  obtain ⟨reqs, hcmds, hcount, hflat⟩ := doCmds_stored conf hroom (r := r.initPipeline) rfl flatTab_nil
  rw [List.nil_append] at hflat
  rw [List.length_nil, Nat.zero_add, ← hlen] at hcount
  obtain ⟨n, writer, hsend, htalks⟩ := h.send (v := .tab reqs) (by rwa [flat_tab])
  have htalks₁ : Talks conf ⟨Reply.bytesList rs ++ rest, fault⟩ (sent ++ cmds.flatMap request)
      { r with writer := writer, reqs := none } := ⟨htalks.backs, htalks.sent, htalks.writable, htalks.refusal⟩
  obtain ⟨r', hloop, htalks'⟩ := commitLoop_pairs hsize hwf htalks₁ []
  refine ⟨r', ?_, htalks'⟩
  rw [Redis.pipeline, hcmds]
  dsimp only
  rw [Redis.commitPipeline]
  dsimp only [Redis.initPipeline]
  rw [hsend]
  dsimp only
  rw [if_pos (show (first [.num n]).truthy = true from rfl), hcount, newTab_small _ (hlen.trans_le hmax)]
  exact hloop

/-- The client of the example below: the two replies are there, in pieces. -/
def twoReplies : Redis :=
  ⟨⟨⟨none, [], false, false⟩, ⟨bytes "+OK\r\n$1\r\n7\r\n", .timeout, [4, 0, 7]⟩⟩, ⟨⟨[], [10], none⟩, [], false⟩, none⟩

theorem twoReplies_talks :
    Talks ⟨4, false, fun _ => 0⟩ ⟨Reply.bytesList [.status (bytes "OK"), .bulk (bytes "7")] ++ [], bytes "timeout"⟩
      [] twoReplies :=
  ⟨⟨.timeout, ⟨[], ready_new _ [], rfl, rfl⟩, rfl⟩, rfl, rfl, rfl⟩

theorem pipeline_pairs_two :
    ∃ r', twoReplies.pipeline ⟨4, false, fun _ => 0⟩ [[bytes "SET", bytes "a", bytes "7"], [bytes "GET", bytes "a"]] =
      .ok ([.tab [.str (bytes "OK"), .str (bytes "7")]], r') := by
  obtain ⟨⟨r', hr', -⟩, -⟩ := pipeline_pairs ⟨4, false, fun _ => 0⟩ (by decide)
    [[bytes "SET", bytes "a", bytes "7"], [bytes "GET", bytes "a"]] [.status (bytes "OK"), .bulk (bytes "7")]
    (by decide)
    (by decide) rfl (by decide) [] (bytes "timeout") [] twoReplies twoReplies_talks rfl
  exact ⟨r', hr'⟩

end Commands

end NgProxy.Tcp
