/-
A command on one key goes to the backend as the client has spelled it. The method of the client object
is looked up by that spelling, so two spellings of one command need not run the same function: the
object has a `hmset` of its own, which takes a single value for a table and raises.
-/
import NgProxy.Cluster.Open
import NgProxy.Handler.OneReply

namespace NgProxy.Handler

open Lua Codec Cluster Process Prog Text

variable {W : Type}

/-! ## Commands in a log -/

/-- The request, if the event sends a command on the connection. -/
def commandTo (c : Conn) : Event → Option Bytes
  | .send c' .command req _ => if c' = c then some req else none
  | _ => none

/-- The commands sent on a connection. -/
def sentOn (c : Conn) (es : List Event) : List Bytes := es.filterMap (commandTo c)

theorem sentOn_append (c : Conn) (es fs : List Event) : sentOn c (es ++ fs) = sentOn c es ++ sentOn c fs :=
  List.filterMap_append

theorem sentOn_mute {es : List Event} (h : ∀ e ∈ es, e.isCommand = false) (c : Conn) : sentOn c es = [] := by
  refine List.filterMap_eq_nil_iff.2 fun e he => ?_
  have hmute := h e he
  cases e with
  | send c' p req a => cases p <;> first | rfl | cases hmute
  | _ => rfl

theorem sentOn_sent (net : Net W) (r : Conn) (req : Bytes) (s : St W) (c : Conn) :
    sentOn c (.send r .command req (net.exchange .command r req s.world).1 ::
      (net.exchange .command r req s.world).1.reads r) = if r = c then [req] else [] := by
  have hreads := sentOn_mute ((net.exchange .command r req s.world).1.reads_mute r) c
  rw [← List.singleton_append, sentOn_append, hreads, List.append_nil]
  by_cases hc : r = c <;> simp [sentOn, commandTo, hc]

/-- Only commands that satisfy `P` are sent. -/
def Commands (P : Bytes → Prop) (s s' : St W) : Prop :=
  ∃ es, s'.log = s.log ++ es ∧ ∀ c, ∀ req ∈ sentOn c es, P req

instance (P : Bytes → Prop) : Frame (Commands P : St W → St W → Prop) where
  refl s := ⟨[], (List.append_nil _).symm, fun c req h => absurd h List.not_mem_nil⟩
  trans a b c := by
    rintro ⟨es, he, hes⟩ ⟨fs, hf, hfs⟩
    refine ⟨es ++ fs, by rw [hf, he, List.append_assoc], fun c req h => ?_⟩
    rw [sentOn_append] at h
    rcases List.mem_append.1 h with h | h
    · exact hes c req h
    · exact hfs c req h
  move s w n es h := ⟨es, rfl, fun c req hreq => by rw [sentOn_mute h c] at hreq; cases hreq⟩

/-! ## One request -/

/-- The call ends before the request is sent: `unpack` has no room for the arguments, or `hmset` gets
one value. -/
def Refused (cmd : Bytes) (args : List Bytes) : Prop :=
  maxStack < args.length + 2 ∨ cmd = bytes "hmset" ∧ args.length = 2

theorem method_hmset_iff (cmd : Bytes) : method cmd = .hmset ↔ cmd = bytes "hmset" := by
  unfold method
  split
  · simp [*]
  · split <;> simp [*]

theorem Request.wire_eq {q : Request} (hlen : q.args.length + 1 ≤ maxArgs) :
    wire (.tab ((q.cmd :: q.args).map .str)) (some typeMultiBulkReply) = .ok q.reply.bytes := by
  have hval : ((q.cmd :: q.args).map Reply.bulk).map Reply.val = (q.cmd :: q.args).map .str := by
    rw [List.map_map]
    rfl
  rw [← hval]
  refine wire_array ?_ ?_ ?_
  · rw [List.length_map]
    exact hlen
  · intro r hr
    obtain ⟨a, -, rfl⟩ := List.mem_map.1 hr
    rfl
  · intro r hr
    obtain ⟨a, ha, rfl⟩ := List.mem_map.1 hr
    exact decide_eq_true (q.strings a ha)

/-- What is unpacked can be encoded. -/
theorem encodes_of_room {q : Request} (hroom : ¬ maxStack < q.args.length + 2) : q.args.length + 1 ≤ maxArgs := by
  have hmax : maxStack ≤ maxArgs := by decide
  omega

/-- An attempt sends the request's own strings, or nothing. -/
theorem call_commands (net : Net W) {q : Request} (hm : method q.cmd ≠ .own) (hroom : ¬ maxStack < q.args.length + 2)
    (r : Conn) :
    Relates (Commands fun req => req = q.reply.bytes ∧ ¬ (q.cmd = bytes "hmset" ∧ q.args.length = 2))
      (Command.call net ⟨q.cmd, q.args⟩ r) := by
  intro s
  have hreq := Request.wire_eq (encodes_of_room hroom)
  by_cases hf : method q.cmd = .hmset ∧ q.args.length = 2
  · rw [call_hmset net hf]
    exact Relates.raise _ s
  · rw [call_known net hm hf]
    rw [method_hmset_iff] at hf
    cases hopen : s.isClosed r with
    | true =>
      rw [doCmd_closed net .command hreq hopen]
      exact Std.Refl.refl s
    | false =>
      rw [doCmd_run net .command hreq hopen]
      refine ⟨_, rfl, fun c req hsent => ?_⟩
      rw [sentOn_sent] at hsent
      split at hsent
      · exact ⟨List.mem_singleton.1 hsent, hf⟩
      · cases hsent

theorem slots_commands (P : Bytes → Prop) : Assigns (Commands P : St W → St W → Prop) :=
  fun _ _ _ _ => ⟨[], (List.append_nil _).symm, fun _ _ h => by cases h⟩

theorem redisKey_commands (host : Host W) (ttl : Int) {q : Request} (hm : method q.cmd ≠ .own) :
    Relates (Commands fun req => req = q.reply.bytes ∧ ¬ Refused q.cmd q.args)
      (redisKey (clusterSend host ttl) q.cmd q.args) := by
  unfold redisKey
  split
  · exact Relates.raise _
  · rename_i hroom
    -- with room for the arguments only `hmset` can refuse
    have hP : (fun req => req = q.reply.bytes ∧ ¬ Refused q.cmd q.args) = fun req =>
        req = q.reply.bytes ∧ ¬ (q.cmd = bytes "hmset" ∧ q.args.length = 2) := by
      funext req
      simp only [Refused, hroom, false_or]
    rw [hP]
    refine Relates.bind ?_ fun ret => Relates.lift _
    exact sendCall_frame host.toNet (slots_commands _) (call_commands host.toNet hm hroom) ttl none _

/-- The first command on the chosen connection is the request. -/
theorem redisKey_chosen (host : Host W) {ttl : Int} (httl : 0 ≤ ttl) {q : Request} (hm : method q.cmd ≠ .own)
    (hq : ¬ Refused q.cmd q.args) {s s₁ : St W} {c : Conn}
    (hc : firstConnection host.toNet none q.args.head? s = (.ok (some c), s₁)) :
    ∃ es, (redisKey (clusterSend host ttl) q.cmd q.args s).2.log = s₁.log ++ es ∧ q.reply.bytes ∈ sentOn c es := by
  obtain ⟨hroom, hf⟩ := not_or.1 hq
  rw [← method_hmset_iff] at hf
  have hslots := slots_commands (W := W) fun _ => True
  have hcall : ∀ r, Relates (Commands fun _ => True) (Command.call host.toNet ⟨q.cmd, q.args⟩ r) := by
    intro r s
    obtain ⟨es, hlog, -⟩ := call_commands host.toNet hm hroom r s
    exact ⟨es, hlog, fun _ _ _ => trivial⟩
  obtain ⟨n, hn⟩ : ∃ n, (ttl + 1).toNat = n + 1 := ⟨ttl.toNat, by omega⟩
  have hsend : clusterSend host ttl none q.cmd q.args s =
      sendLoop host.toNet (Command.call host.toNet ⟨q.cmd, q.args⟩) (n + 1) (none, .nil) c s₁ := by
    unfold clusterSend sendClusterCommand sendCall
    rw [bind_ok hc, hn]
  have hopen : s₁.isClosed c = false :=
    firstConnection_opened (P := fun _ => True) host.toNet none q.args.head? s trivial _ _ hc c rfl
  -- the call's state, then what the loop adds to it, then nothing
  have hfirst := sendLoop_after host.toNet hslots (sendLoop_frame host.toNet hslots hcall n) (none, .nil) c s₁
  rw [call_known host.toNet hm hf, doCmd_run host.toNet .command (Request.wire_eq (encodes_of_room hroom)) hopen,
    ← hsend] at hfirst
  obtain ⟨fs, hfs, -⟩ := hfirst
  have hlast : Commands (fun _ => True) (clusterSend host ttl none q.cmd q.args s).2
      (redisKey (clusterSend host ttl) q.cmd q.args s).2 := by
    unfold redisKey
    rw [if_neg hroom]
    exact Relates.after (fun ret => Relates.lift _) s
  obtain ⟨gs, hgs, -⟩ := hlast
  refine ⟨_, by rw [hgs, hfs, St.sent, St.push_log, List.append_assoc, List.append_assoc], ?_⟩
  rw [sentOn_append, sentOn_sent, if_pos rfl]
  exact List.mem_append_left _ (List.mem_singleton.2 rfl)

/-- Two spellings of a command have one length. -/
theorem length_of_upper {a b : Bytes} (h : upper a = upper b) : a.length = b.length := by
  have hlen := congrArg List.length h
  simpa only [upper, List.length_map] using hlen

/-- Requests that differ in the spelling of the command differ in its bytes only. -/
theorem Request.spelled {q q' : Request} (hcmd : upper q'.cmd = upper q.cmd) (hargs : q'.args = q.args) :
    ∃ l r, q.reply.bytes = l ++ q.cmd ++ r ∧ q'.reply.bytes = l ++ q'.cmd ++ r := by
  have hlen := length_of_upper hcmd
  refine ⟨42 :: (decimal (q.args.length + 1) ++ crlf) ++ 36 :: (decimal q.cmd.length ++ crlf),
    crlf ++ Reply.bytesList (q.args.map .bulk), ?_, ?_⟩
  · simp [reply, Reply.bytes, Reply.bytesList]
  · simp [reply, Reply.bytes, Reply.bytesList, hlen, hargs]

/-! ## The list of commands -/

/-- The file `cmd-whitelist.list` as it is shipped. -/
def shippedCmds : List Bytes :=
  ["PING", "EXISTS", "PERSIST", "PTTL", "TTL", "TYPE", "DUMP", "DECR", "GET", "INCR", "STRLEN", "HGETALL", "HKEYS",
    "HLEN", "HVALS", "LLEN", "LPOP", "RPOP", "SCARD", "SMEMBERS", "SPOP", "ZCARD", "PFCOUNT", "EXPIRE", "EXPIREAT",
    "PEXPIRE", "PEXPIREAT", "APPEND", "DECRBY", "GETBIT", "GETSET", "INCRBY", "INCRBYFLOAT", "SETNX", "HEXISTS",
    "HGET", "LINDEX", "LPUSHX", "RPUSHX", "SISMEMBER", "ZRANK", "ZREVRANK", "ZSCORE", "GETRANGE", "PSETEX", "SETBIT",
    "SETEX", "SETRANGE", "HINCRBY", "HINCRBYFLOAT", "HSET", "HSETNX", "LRANGE", "LREM", "LSET", "LTRIM", "ZCOUNT",
    "ZLEXCOUNT", "ZINCRBY", "ZREMRANGEBYLEX", "ZREMRANGEBYRANK", "ZREMRANGEBYSCORE", "LINSERT", "SORT", "BITCOUNT",
    "BITPOS", "SET", "HDEL", "HMGET", "HMSET", "HSCAN", "LPUSH", "RPUSH", "SADD", "SREM", "SRANDMEMBER", "SSCAN",
    "PFADD", "ZADD", "ZRANGE", "ZRANGEBYSCORE", "ZREM", "ZREVRANGE", "ZRANGEBYLEX", "ZREVRANGEBYLEX",
    "ZREVRANGEBYSCORE", "ZSCAN", "MGET", "MSET", "DEL", "PROXY"].map bytes

/-- None of its commands, however spelled, is a name of the client object but `hmset`. -/
theorem shippedCmds_known {cmd : Bytes} (h : upper cmd ∈ shippedCmds) : method cmd ≠ .own := by
  intro hm
  have hnone : ∀ name ∈ ownNames, upper name ∉ shippedCmds := by decide +kernel
  exact hnone cmd (mem_ownNames hm) h

/-- Whatever the spelling, every command that `redis_key` sends is the array of the request's own
strings, and one is sent to the connection that was chosen exactly when the request is not refused.
The command may be any but one of the client object's own names, none of which is on the shipped list. -/
theorem forwarded_verbatim (host : Host W) (ttl : Int) (q : Request) (hm : method q.cmd ≠ .own) (s : St W) :
    ∃ es, (redisKey (clusterSend host ttl) q.cmd q.args s).2.log = s.log ++ es ∧
      (∀ c, ∀ req ∈ sentOn c es, req = q.reply.bytes) ∧
      (∀ c s₁, firstConnection host.toNet none q.args.head? s = (.ok (some c), s₁) → 0 ≤ ttl →
        (sentOn c es ≠ [] ↔ ¬ Refused q.cmd q.args)) ∧
      ∀ q' : Request, upper q'.cmd = upper q.cmd → q'.args = q.args →
        ∃ l r, q.reply.bytes = l ++ q.cmd ++ r ∧ q'.reply.bytes = l ++ q'.cmd ++ r := by
  obtain ⟨es, hlog, hes⟩ := redisKey_commands host ttl hm s
  refine ⟨es, hlog, fun c req hreq => (hes c req hreq).1, fun c s₁ hc httl => ?_, fun q' => Request.spelled⟩
  constructor
  · intro hne
    obtain ⟨req, hreq⟩ := List.exists_mem_of_ne_nil _ hne
    exact (hes c req hreq).2
  · intro hr
    obtain ⟨fs, hfs, hmem⟩ := redisKey_chosen host httl hm hr hc
    obtain ⟨gs, hgs, -⟩ := firstConnection_frame (R := Commands fun _ => True) host.toNet none q.args.head? s
    rw [hc] at hgs
    -- the events before and after the connection was chosen
    have hsplit : es = gs ++ fs := by
      rw [hgs, hlog, List.append_assoc] at hfs
      exact List.append_cancel_left hfs
    rw [hsplit, sentOn_append]
    exact List.append_ne_nil_of_right_ne_nil _ (List.ne_nil_of_mem hmem)

theorem forwarded_verbatim_mixed :
    ∃ es, (redisKey (clusterSend oneHost 3) (bytes "Hmset") [bytes "k", bytes "f"] oneCluster).2.log = es ∧
      ∀ c, ∀ req ∈ sentOn c es, req = bytes "*3\r\n$5\r\nHmset\r\n$1\r\nk\r\n$1\r\nf\r\n" := by
  obtain ⟨es, hlog, hes, -⟩ := forwarded_verbatim oneHost 3 (request "Hmset" ["k", "f"] (by decide) (by decide))
    (shippedCmds_known (by decide +kernel)) oneCluster
  refine ⟨es, hlog, fun c req hreq => (hes c req hreq).trans ?_⟩
  decide +kernel

/-- The same request in lower case is not sent: the client's own `hmset` raises. -/
theorem hmset_not_forwarded :
    bytes "HMSET" ∈ shippedCmds ∧ upper (bytes "hmset") = bytes "HMSET" ∧
      sentOn ⟨0, bytes "10.0.0.2", 7000⟩ (redisKey (clusterSend oneHost 3) (bytes "HMSET") [bytes "k", bytes "f"]
        oneCluster).2.log = [bytes "*3\r\n$5\r\nHMSET\r\n$1\r\nk\r\n$1\r\nf\r\n"] ∧
      (redisKey (clusterSend oneHost 3) (bytes "hmset") [bytes "k", bytes "f"] oneCluster).2.log.countP
        Event.isCommand = 0 := by
  decide +kernel

end NgProxy.Handler
