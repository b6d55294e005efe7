/-
The redirect protocol: on a network where connects succeed and every command is answered, one call
of `send_cluster_command` is a list of attempts in which each attempt is the one its predecessor's
answer asks for, and the slot map changes by the MOVED answers alone.
-/
import NgProxy.Cluster.Open

namespace NgProxy.Cluster

open Lua Codec Prog Text

variable {W : Type}

/-! ## A network that answers -/

/-- The answer is the wire form of `r`. -/
def Answer.Is (a : Answer) (r : Reply) : Prop := ∃ fault, a.outcome = .reply r.bytes fault

theorem Answer.Is.result {a : Answer} {r : Reply} (h : a.Is r) (hw : r.wf = true) : a.result = .ok r.ret := by
  obtain ⟨fault, ho⟩ := h
  unfold Answer.result
  rw [ho]
  have hd := decode_bytes r hw [] fault.text
  rw [List.append_nil] at hd
  simp only [hd]
  rfl

theorem Answer.Is.reads {a : Answer} {r : Reply} (h : a.Is r) (hw : r.wf = true) (c : Conn)
    (ht : r.ret.err.eqStr (bytes "timeout") = false) : a.reads c = [.read c r.ret] := by
  obtain ⟨fault, ho⟩ := h
  unfold Answer.reads
  rw [ho]
  have hd := decode_bytes r hw [] fault.text
  rw [List.append_nil] at hd
  simp [hd, ht]

/-- The address of a node that can be asked next, if the answer names one. -/
def Kind.addr : Kind → Option Addr
  | .moved _ a => some a
  | .ask _ a => some a
  | _ => none

/-- At the addresses of `member` every connect succeeds and every request is answered, a command by
one of the kinds; a redirect names such an address. An error `timeout` would be taken for a timeout,
so ASKING is not answered by that. -/
structure Responsive (net : Net W) where
  member : Bytes → Nat → Prop
  kind : Conn → Bytes → W → Kind
  connects : ∀ host port w, member host port → (net.connect host port w).1 = true
  answers : ∀ c req w, member c.host c.port → (net.exchange .command c req w).1.Is (kind c req w).reply
  named : ∀ c req w addr, member c.host c.port → (kind c req w).addr = some addr → member addr.host addr.port
  probed : ∀ c req w, member c.host c.port → ∃ r : Reply, r.wf = true ∧ (net.exchange .probe c req w).1.Is r
  asked : ∀ c req w, member c.host c.port → ∃ r : Reply, r.wf = true ∧
    r.ret.err.eqStr (bytes "timeout") = false ∧ (net.exchange .asking c req w).1.Is r

/-! ## Connections -/

/-- The connection was opened to the node. -/
def Conn.At (c : Conn) (node : Node) : Prop := c.host = node.host ∧ node.port = some (.int c.port)

namespace Responsive

variable {net : Net W} (R : Responsive net)

/-- The connection leads to a node that answers. -/
def Live (c : Conn) : Prop := R.member c.host c.port

/-- One can connect to the node. -/
def Reaches (node : Node) : Prop := ∃ p : Nat, p ≤ 65535 ∧ node.port = some (.int p) ∧ R.member node.host p

/-- A worker's tables hold nodes one can connect to, and a node to start with. -/
structure Tables (s : St W) : Prop where
  start : s.nodes ≠ []
  nodes : ∀ node ∈ s.nodes, R.Reaches node
  slots : ∀ k node, s.slots k = some node → R.Reaches node

theorem live_of_at {c : Conn} {node : Node} (hat : c.At node) (hn : R.Reaches node) : R.Live c := by
  obtain ⟨p, -, hport, hm⟩ := hn
  obtain ⟨hhost, hport'⟩ := hat
  rw [hport'] at hport
  cases hport
  unfold Live
  rw [hhost]
  exact hm

theorem reaches_addr {a : Addr} (h : R.member a.host a.port) : R.Reaches a.node := ⟨a.port, a.port_le, rfl, h⟩

end Responsive

/-- A slot map of reachable nodes stays one if the answer names a reachable node. -/
theorem Kind.assign_reaches {net : Net W} {R : Responsive net} {k : Kind}
    (hk : ∀ addr, k.addr = some addr → R.member addr.host addr.port) {m : SlotKey → Option Node}
    (hm : ∀ j node, m j = some node → R.Reaches node) : ∀ j node, k.assign m j = some node → R.Reaches node := by
  intro j node hj
  cases k with
  | moved slot a =>
    simp only [Kind.assign] at hj
    split at hj
    · cases hj
      exact R.reaches_addr (hk a rfl)
    · exact hm j node hj
  | normal r wf value => exact hm j node hj
  | other t line word => exact hm j node hj
  | ask slot a => exact hm j node hj
  | tryagain t line word => exact hm j node hj

/-- The tables stay as they are and the log grows by `es`. -/
structure Adds (es : List Event) (s s' : St W) : Prop where
  slots : s'.slots = s.slots
  nodes : s'.nodes = s.nodes
  log : s'.log = s.log ++ es

theorem Adds.trans {es fs : List Event} {s s' s'' : St W} (h : Adds es s s') (h' : Adds fs s' s'') :
    Adds (es ++ fs) s s'' :=
  ⟨h'.slots.trans h.slots, h'.nodes.trans h.nodes, by rw [h'.log, h.log, List.append_assoc]⟩

theorem Adds.tables {net : Net W} {R : Responsive net} {es : List Event} {s s' : St W} (h : Adds es s s')
    (ht : R.Tables s) : R.Tables s' where
  start := by rw [h.nodes]; exact ht.start
  nodes := by rw [h.nodes]; exact ht.nodes
  slots := by rw [h.slots]; exact ht.slots

theorem adds_push (s : St W) (es : List Event) : Adds es s (s.push es) := ⟨rfl, rfl, rfl⟩

theorem adds_sent (net : Net W) (p : Purpose) (c : Conn) (req : Bytes) (s : St W) :
    Adds (.send c p req (net.exchange p c req s.world).1 :: (net.exchange p c req s.world).1.reads c) s
      (s.sent net p c req) :=
  ⟨rfl, rfl, rfl⟩

/-- Events were added, and no command was sent. -/
def Quiet (s s' : St W) : Prop := ∃ es, Adds es s s' ∧ ∀ e ∈ es, e.isCommand = false

instance : Frame (Quiet (W := W)) where
  refl s := ⟨[], ⟨rfl, rfl, by simp⟩, by simp⟩
  trans a b c := by
    rintro ⟨es, he, hes⟩ ⟨fs, hf, hfs⟩
    refine ⟨es ++ fs, he.trans hf, fun e h => ?_⟩
    rcases List.mem_append.1 h with h | h
    · exact hes e h
    · exact hfs e h
  move s w n es h := ⟨es, ⟨rfl, rfl, rfl⟩, h⟩

theorem toInt32_port {p : Nat} (h : p ≤ 65535) : toInt32 (.int p) = p := by
  unfold toInt32
  rw [toInteger_nat p (by omega)]
  omega

section Connections

variable {net : Net W} (R : Responsive net)
include R

/-- Every `ping` is answered as it should be. -/
def Responsive.Pongs : Prop := ∀ c req w, R.Live c → (net.exchange .probe c req w).1.Is (.status (bytes "PONG"))

/-- The redirects of a command name hosts without colons. -/
def Responsive.Plain (cmd : Command) : Prop :=
  ∀ req c w addr, wire (.tab ((cmd.name :: cmd.args).map .str)) (some typeMultiBulkReply) = .ok req → R.Live c →
    (R.kind c req w).addr = some addr → addr.Plain

/-- Connecting to a node of the tables succeeds. -/
theorem getRedisLink_ok {node : Node} (hn : R.Reaches node) (s : St W) :
    ∃ c s', getRedisLink net node.host node.port s = (.ok (some c), s') ∧ c.At node ∧ Adds [.connect c] s s' := by
  obtain ⟨p, hp, hport, hm⟩ := hn
  have hc : connect net node.host node.port s = dial net node.host p s := by
    rw [hport, connect, toInt32_port hp, if_neg (by omega)]
    rfl
  unfold getRedisLink
  rcases hd : net.connect node.host p s.world with ⟨_ | _, w⟩
  · exact absurd (R.connects node.host p s.world hm) (by rw [hd]; exact Bool.false_ne_true)
  · have hdial : dial net node.host p s = (.ok (some ⟨s.nextConn, node.host, p⟩),
        { s with world := w, nextConn := s.nextConn + 1, log := s.log ++ [.connect ⟨s.nextConn, node.host, p⟩] }) := by
      rw [dial, hd]
    rw [bind_ok (hc.trans hdial)]
    exact ⟨_, _, rfl, ⟨rfl, hport⟩, rfl, rfl, rfl⟩

/-- The node that is drawn first. -/
def drawn (net : Net W) (s : St W) : Option Node :=
  s.nodes[(net.random s.nodes.length s.world).1 % s.nodes.length]?

/-- A random connection, if there is one, leads to one of the nodes; if `ping` works, to the one that is
drawn first. -/
theorem randomLoop_ok (n : Nat) {s : St W} (ht : R.Tables s) :
    ∃ o s', randomLoop net n s = (.ok o, s') ∧ (∀ c, o = some c → ∃ node ∈ s.nodes, c.At node) ∧
      (R.Pongs → n ≠ 0 → ∃ c node, o = some c ∧ drawn net s = some node ∧ c.At node) := by
  induction n generalizing s with
  | zero => exact ⟨none, s, rfl, by simp, fun _ h => absurd rfl h⟩
  | succ n ih =>
    have hlt := Nat.mod_lt (net.random s.nodes.length s.world).1 (List.length_pos_iff.2 ht.start)
    obtain ⟨node, hget⟩ : ∃ node, s.nodes[(net.random s.nodes.length s.world).1 % s.nodes.length]? = some node :=
      ⟨_, List.getElem?_eq_getElem hlt⟩
    have hnode := List.mem_of_getElem? hget
    obtain ⟨s₁, hr, hadd₁⟩ : ∃ s₁, mathRandom net s.nodes.length s =
        (.ok ((net.random s.nodes.length s.world).1 % s.nodes.length), s₁) ∧ Adds [] s s₁ :=
      ⟨_, rfl, rfl, rfl, by simp⟩
    obtain ⟨c, s₂, hlink, hat, hadd₂⟩ := getRedisLink_ok R (ht.nodes node hnode) s₁
    obtain ⟨req, hreq⟩ : ∃ req, wire (.tab ([bytes "ping"].map .str)) (some typeMultiBulkReply) = .ok req :=
      wire_strs (by decide)
    have hlive := R.live_of_at hat (ht.nodes node hnode)
    obtain ⟨r, hw, hans⟩ := R.probed c req s₂.world hlive
    have hping := doCmd_run net .probe hreq (St.isClosed_connect hadd₂.log)
    rw [hans.result hw] at hping
    have hadd := (hadd₁.trans hadd₂).trans (adds_sent net .probe c req s₂)
    rw [randomLoop, bind_ok (get_run s), bind_ok hr, hget]
    dsimp only
    rw [bind_ok hlink]
    dsimp only
    rw [bind_ok hping]
    by_cases hpong : r.ret.val.eqStr (bytes "PONG") = true
    · rw [if_pos hpong]
      exact ⟨some c, _, rfl, fun c' h => by cases h; exact ⟨node, hnode, hat⟩, fun _ _ => ⟨c, node, rfl, hget, hat⟩⟩
    · rw [if_neg hpong, bind_ok (x := close c) (record_run _ _)]
      have hadd' := hadd.trans (adds_push _ [.close c])
      obtain ⟨o, s', hrun, hnodes, -⟩ := ih (hadd'.tables ht)
      rw [hadd'.nodes] at hnodes
      refine ⟨o, s', hrun, hnodes, fun hp _ => absurd ?_ hpong⟩
      -- two readings of one answer agree
      have hone := (hans.result hw).symm.trans ((hp c req s₂.world hlive).result rfl)
      rw [Except.ok.inj hone]
      decide

/-- Following a redirect opens a connection to the node it names, with ASKING if it was an ASK. -/
theorem followNode_moved {node : Node} (hn : R.Reaches node) (s : St W) :
    ∃ c s', followNode net node false s = (.ok (some c), s') ∧ c.At node ∧ Adds [.connect c] s s' := by
  obtain ⟨c, s', hlink, hat, hadd⟩ := getRedisLink_ok R hn s
  refine ⟨c, s', ?_, hat, hadd⟩
  unfold followNode
  rw [bind_ok hlink]
  dsimp only
  rw [when_false, bind_ok (pure_run () s'), pure_run]

theorem followNode_ask {node : Node} (hn : R.Reaches node) (s : St W) :
    ∃ c s' req ans ret, followNode net node true s = (.ok (some c), s') ∧ c.At node ∧
      wire (.tab [.str (bytes "asking")]) (some typeMultiBulkReply) = .ok req ∧
      Adds [.connect c, .send c .asking req ans, .read c ret, .metric .ask] s s' := by
  obtain ⟨c, s₁, hlink, hat, hadd⟩ := getRedisLink_ok R hn s
  obtain ⟨req, hreq⟩ : ∃ req, wire (.tab ([bytes "asking"].map .str)) (some typeMultiBulkReply) = .ok req :=
    wire_strs (by decide)
  obtain ⟨r, hw, htime, hans⟩ := R.asked c req s₁.world (R.live_of_at hat hn)
  have hdo := doCmd_run net .asking hreq (St.isClosed_connect hadd.log)
  have hsent := adds_sent net .asking c req s₁
  rw [hans.result hw] at hdo
  rw [hans.reads hw c htime] at hsent
  refine ⟨c, _, req, _, r.ret, ?_, hat, hreq, (hadd.trans hsent).trans (adds_push _ [.metric .ask])⟩
  unfold followNode
  rw [bind_ok hlink]
  dsimp only
  have hask : asking net c s₁ = (.ok (), (s₁.sent net .asking c req).push [.metric .ask]) := by
    unfold asking
    rw [bind_ok hdo, record_run]
  rw [when_true, bind_ok hask, pure_run]

/-- A connection chosen for a slot leads to its node, or to some node if the slot has none. -/
def Chosen (s : St W) (slot : SlotKey) (c : Conn) : Prop :=
  match s.slots slot with
  | some node => c.At node
  | none => ∃ node ∈ s.nodes, c.At node

/-- The node a command on a slot is sent to first, when all nodes answer: that of the slot, or the one that
is drawn. -/
def firstNode (net : Net W) (s : St W) (slot : SlotKey) : Option Node :=
  match s.slots slot with
  | some node => some node
  | none => drawn net s

theorem firstConnection_ok (slotid : Option SlotKey) (key : Option Bytes) {s : St W} (ht : R.Tables s) :
    ∃ o s', firstConnection net slotid key s = (.ok o, s') ∧
      (∀ c, o = some c → Chosen s (slotid.getD (redisSlot key)) c) ∧
      (R.Pongs → ∃ c node, o = some c ∧ firstNode net s (slotid.getD (redisSlot key)) = some node ∧ c.At node) := by
  have hslot : slotConnection net slotid key = getConnectionBySlot net (slotid.getD (redisSlot key)) := by
    cases slotid <;> rfl
  unfold firstConnection
  rw [hslot]
  generalize slotid.getD (redisSlot key) = slot
  unfold Chosen firstNode
  rcases hn : s.slots slot with _ | node
  · have hby : getConnectionBySlot net slot s = getRandomConnection net s := by
      rw [getConnectionBySlot, bind_ok (get_run s), hn]
    obtain ⟨o, s₁, hrand, hnodes, hpong⟩ := randomLoop_ok R 5 ht
    rw [bind_ok (hby.trans hrand)]
    rcases o with _ | c
    · obtain ⟨es, hadd, -⟩ : Quiet s _ := getRandomConnection_frame net s
      rw [getRandomConnection, hrand] at hadd
      obtain ⟨o, s₂, hrand₂, hnodes₂, -⟩ := randomLoop_ok R 5 (hadd.tables ht)
      rw [hadd.nodes] at hnodes₂
      refine ⟨o, s₂, hrand₂, hnodes₂, fun hp => ?_⟩
      obtain ⟨c, -, hc, -⟩ := hpong hp (by decide)
      cases hc
    · exact ⟨some c, s₁, rfl, hnodes, fun hp => hpong hp (by decide)⟩
  · have hby : getConnectionBySlot net slot s = getRedisLink net node.host node.port s := by
      rw [getConnectionBySlot, bind_ok (get_run s), hn]
    obtain ⟨c, s₁, hlink, hat, -⟩ := getRedisLink_ok R (ht.slots slot node hn) s
    rw [bind_ok (hby.trans hlink)]
    exact ⟨some c, s₁, rfl, fun c' h => by cases h; exact hat, fun _ => ⟨c, node, rfl, rfl, hat⟩⟩

theorem Chosen.live {s : St W} {slot : SlotKey} {c : Conn} (h : Chosen s slot c) (ht : R.Tables s) : R.Live c := by
  unfold Chosen at h
  split at h
  · exact R.live_of_at h (ht.slots _ _ (by assumption))
  · obtain ⟨node, hn, hat⟩ := h
    exact R.live_of_at hat (ht.nodes node hn)

end Connections

/-! ## Attempts -/

/-- One attempt of a call: what happened since the one before, the connection it was made on, and
its answer. -/
structure Attempt where
  before : List Event
  conn : Conn
  req : Bytes
  answer : Answer
  kind : Kind

namespace Attempt

def events (a : Attempt) : List Event :=
  a.before ++ .send a.conn .command a.req a.answer :: (a.answer.reads a.conn ++ [.keepalive a.conn])

/-- The protocol: which attempt `b` may follow the answer of `a`. -/
def Next (a b : Attempt) : Prop :=
  match a.kind with
  | .normal _ _ _ => False
  | .other _ _ _ => False
  | .moved _ addr => b.conn.At addr.node ∧ b.before = [.metric .moved, .connect b.conn]
  | .ask _ addr => b.conn.At addr.node ∧ ∃ req ans ret,
      wire (.tab [.str (bytes "asking")]) (some typeMultiBulkReply) = .ok req ∧
      b.before = [.connect b.conn, .send b.conn .asking req ans, .read b.conn ret, .metric .ask]
  | .tryagain _ _ _ => True

end Attempt

/-- What the call returns when this is the last answer: the reply, or no result and the error. -/
def Kind.returned : Kind → Ret
  | .normal r _ _ => r.ret
  | k => ⟨.nil, k.reply.ret.pre, k.reply.ret.err⟩

/-- A run of at most `n` attempts from the tables of `s` and the log `base`, with the returned
value and the state it ends in; `dflt` is returned if there is no attempt. -/
structure Protocol {net : Net W} (R : Responsive net) (cmd : Command) (n : Nat) (s : St W) (base : List Event)
    (dflt : Ret) (out : Except LuaError Ret × St W) (as : List Attempt) (after : List Event) : Prop where
  log : out.2.log = base ++ (as.flatMap Attempt.events ++ after)
  between : (∀ a ∈ as, ∀ e ∈ a.before, e.isCommand = false) ∧ ∀ e ∈ after, e.isCommand = false
  sends : ∀ a ∈ as, wire (.tab ((cmd.name :: cmd.args).map .str)) (some typeMultiBulkReply) = .ok a.req ∧
    R.Live a.conn ∧ ∃ w, a.answer = (net.exchange .command a.conn a.req w).1 ∧ a.kind = R.kind a.conn a.req w
  bound : as.length ≤ n
  chain : as.IsChain Attempt.Next
  slots : out.2.slots = (as.map Attempt.kind).foldl Kind.assign s.slots
  nodes : out.2.nodes = s.nodes
  returned : out.1 = .ok ((as.map fun a => a.kind.returned).getLastD dflt)
  followed : ∀ a, as.getLast? = some a → a.kind.addr ≠ none → as.length = n

section Protocol

variable {net : Net W} {R : Responsive net} {cmd : Command} {n : Nat} {s : St W} {base : List Event} {dflt : Ret}

/-- No attempt, or none that is left. -/
theorem Protocol.nil {s' : St W} {after : List Event} (hlog : s'.log = base ++ after) (hslots : s'.slots = s.slots)
    (hnodes : s'.nodes = s.nodes) (hafter : ∀ e ∈ after, e.isCommand = false) :
    Protocol R cmd n s base dflt (.ok dflt, s') [] after where
  log := hlog
  between := ⟨by simp, hafter⟩
  sends := by simp
  bound := Nat.zero_le n
  chain := List.isChain_nil
  slots := hslots
  nodes := hnodes
  returned := rfl
  followed := by simp

/-- The default and the events before the first attempt do not matter once there is one. -/
theorem Protocol.start {s₁ : St W} {dflt₁ : Ret} {out : Except LuaError Ret × St W} {as : List Attempt}
    {after : List Event} (h : Protocol R cmd n s₁ base dflt₁ out as after) (hne : as ≠ [])
    (hslots : s₁.slots = s.slots) (hnodes : s₁.nodes = s.nodes) : Protocol R cmd n s base dflt out as after where
  log := h.log
  between := h.between
  sends := h.sends
  bound := h.bound
  chain := h.chain
  slots := by rw [h.slots, hslots]
  nodes := h.nodes.trans hnodes
  returned := by
    obtain ⟨a, l, rfl⟩ := List.exists_cons_of_ne_nil hne
    rw [h.returned, List.map_cons, List.getLastD_cons, List.getLastD_cons]
  followed := h.followed

/-- One more attempt in front: the rest starts with what its answer returns and with the slot map
its answer leaves. -/
theorem Protocol.cons {s₂ : St W} {out : Except LuaError Ret × St W} {a : Attempt} {as : List Attempt}
    {after : List Event} (h : Protocol R cmd n s₂ (base ++ a.events) a.kind.returned out as after)
    (hbefore : ∀ e ∈ a.before, e.isCommand = false)
    (hreq : wire (.tab ((cmd.name :: cmd.args).map .str)) (some typeMultiBulkReply) = .ok a.req)
    (hlive : R.Live a.conn)
    (hans : ∃ w, a.answer = (net.exchange .command a.conn a.req w).1 ∧ a.kind = R.kind a.conn a.req w)
    (hslots : s₂.slots = a.kind.assign s.slots) (hnodes : s₂.nodes = s.nodes)
    (hnext : ∀ b ∈ as.head?, a.Next b) (hlast : as = [] → a.kind.addr ≠ none → n = 0) :
    Protocol R cmd (n + 1) s base dflt out (a :: as) after where
  log := by rw [h.log]; simp
  between := by
    refine ⟨fun b hb => ?_, h.between.2⟩
    rcases List.mem_cons.1 hb with rfl | hb
    · exact hbefore
    · exact h.between.1 b hb
  sends := by
    intro b hb
    rcases List.mem_cons.1 hb with rfl | hb
    · exact ⟨hreq, hlive, hans⟩
    · exact h.sends b hb
  bound := Nat.succ_le_succ h.bound
  chain := List.isChain_cons.2 ⟨hnext, h.chain⟩
  slots := by rw [h.slots, hslots]; rfl
  nodes := h.nodes.trans hnodes
  returned := by rw [h.returned, List.map_cons, List.getLastD_cons]
  followed := by
    intro b hb hnames
    cases as with
    | nil =>
      cases hb
      rw [hlast rfl hnames]
      rfl
    | cons c as => rw [List.length_cons, h.followed b (by simpa using hb) hnames]

/-- The tables after a run still hold reachable nodes. -/
theorem Protocol.tables {out : Except LuaError Ret × St W} {as : List Attempt} {after : List Event}
    (h : Protocol R cmd n s base dflt out as after) (ht : R.Tables s) : R.Tables out.2 := by
  have hfold : ∀ (l : List Attempt) (m : SlotKey → Option Node), l ⊆ as → (∀ j node, m j = some node → R.Reaches node) →
      ∀ j node, (l.map Attempt.kind).foldl Kind.assign m j = some node → R.Reaches node := by
    intro l
    induction l with
    | nil => exact fun m _ hm => hm
    | cons a l ih =>
      intro m hl hm
      obtain ⟨-, hlive, w, -, hkind⟩ := h.sends a (hl (List.mem_cons_self ..))
      refine ih _ (fun b hb => hl (List.mem_cons_of_mem _ hb)) (Kind.assign_reaches (fun addr haddr => ?_) hm)
      exact R.named a.conn a.req w addr hlive (by rw [← hkind, haddr])
  refine ⟨by rw [h.nodes]; exact ht.start, by rw [h.nodes]; exact ht.nodes, ?_⟩
  rw [h.slots]
  exact hfold as s.slots (fun a ha => ha) ht.slots

theorem Kind.returned_of_error {k : Kind} (h : k.reply.isError = true) :
    k.returned = ⟨.nil, k.reply.ret.pre, k.reply.ret.err⟩ := by
  cases k with
  | normal r wf value => exact absurd (value.symm.trans h) Bool.false_ne_true
  | other t line word => rfl
  | moved slot a => rfl
  | ask slot a => rfl
  | tryagain t line word => rfl

theorem Kind.eq_normal {k : Kind} (h : k.reply.isError = false) : ∃ r wf value, k = .normal r wf value := by
  cases k with
  | normal r wf value => exact ⟨r, wf, value, rfl⟩
  | _ => cases h

/-- What `cluster_error` does with the error of an answer: no connection, or one for an attempt the
protocol allows. -/
theorem clusterError_kind (R : Responsive net) {a : Attempt} (he : a.kind.reply.isError = true)
    (hnamed : ∀ addr, a.kind.addr = some addr → R.member addr.host addr.port)
    (hplain : ∀ addr, a.kind.addr = some addr → addr.Plain) {s : St W} (ht : R.Tables s) :
    ∃ o s' es, clusterError net a.kind.reply.ret.err s = (.ok o, s') ∧ s'.log = s.log ++ es ∧
      (∀ e ∈ es, e.isCommand = false) ∧ s'.slots = a.kind.assign s.slots ∧ s'.nodes = s.nodes ∧ R.Tables s' ∧
      Opened o s' ∧ (o = none → a.kind.addr = none) ∧
      ∀ c, o = some c → R.Live c ∧ ∀ b : Attempt, b.conn = c → b.before = es → a.Next b := by
  obtain ⟨before, conn, req, answer, kind⟩ := a
  cases kind with
  | normal r wf value => exact absurd (value.symm.trans he) Bool.false_ne_true
  | other t line word =>
    exact ⟨none, _, _, clusterError_other net s word, rfl, by simp [Event.isCommand], rfl, rfl,
      (adds_push s _).tables ht, opened_none _, fun _ => rfl, by simp⟩
  | tryagain t line word =>
    obtain ⟨o, s', hrun, hnodes, -⟩ := randomLoop_ok R 5 ht
    obtain ⟨es, hadd, hes⟩ : Quiet s _ := getRandomConnection_frame net s
    rw [getRandomConnection, hrun] at hadd
    refine ⟨o, s', es, (clusterError_tryagain net s word).trans hrun, hadd.log, hes, hadd.slots, hadd.nodes,
      hadd.tables ht, getRandomConnection_opened (P := fun _ => True) net s trivial o s' hrun, fun _ => rfl,
      fun c hc => ⟨?_, fun _ _ _ => trivial⟩⟩
    obtain ⟨node, hn, hat⟩ := hnodes c hc
    exact R.live_of_at hat (ht.nodes node hn)
  | moved slot a =>
    have hreach := R.reaches_addr (hnamed a rfl)
    obtain ⟨c, s', hrun, hat, hadd⟩ := followNode_moved R hreach
      ({ s with slots := (Kind.moved slot a).assign s.slots }.push [.metric .moved])
    refine ⟨some c, s', [.metric .moved, .connect c], (clusterError_moved net s slot (hplain a rfl)).trans hrun, ?_,
      by simp [Event.isCommand], hadd.slots, hadd.nodes, hadd.tables ?_, ?_, by simp, ?_⟩
    · rw [hadd.log]
      simp
    · exact ⟨ht.start, ht.nodes, Kind.assign_reaches hnamed ht.slots⟩
    · rintro _ ⟨⟩
      exact St.isClosed_connect hadd.log
    · rintro c' h
      cases h
      refine ⟨R.live_of_at hat hreach, ?_⟩
      rintro b rfl hb
      exact ⟨hat, hb⟩
  | ask slot a =>
    have hreach := R.reaches_addr (hnamed a rfl)
    obtain ⟨c, s', q, ans, ret, hrun, hat, hq, hadd⟩ := followNode_ask R hreach s
    refine ⟨some c, s', _, (clusterError_ask net s slot (hplain a rfl)).trans hrun, hadd.log, by simp [Event.isCommand],
      hadd.slots, hadd.nodes, hadd.tables ht, ?_, by simp, ?_⟩
    · rintro _ ⟨⟩
      have hopen : closedBy c (s.log ++ [.connect c] ++ [.send c .asking q ans, .read c ret, .metric .ask]) = false :=
        closedBy_append (closedBy_connect c s.log) (by simp)
      rw [List.append_assoc] at hopen
      rwa [St.isClosed, hadd.log]
    · rintro c' h
      cases h
      refine ⟨R.live_of_at hat hreach, ?_⟩
      rintro b rfl hb
      exact ⟨hat, q, ans, ret, hq, hb⟩

/-- The loop, by induction on the attempts left. The log so far is `base`, and `before` is what
happened since the last attempt. -/
theorem sendLoop_protocol (R : Responsive net) (hf : cmd.Forwarded) (hp : R.Plain cmd) (last : Option Nat × Value)
    {r : Conn} (hlive : R.Live r) {before : List Event} (ht : R.Tables s) (hopen : s.isClosed r = false)
    (hlog : s.log = base ++ before) (hbefore : ∀ e ∈ before, e.isCommand = false) :
    ∃ as after, Protocol R cmd n s base ⟨.nil, last.1, last.2⟩ (sendLoop net (cmd.call net) n last r s) as after ∧
      (as = [] → n = 0) ∧ ∀ a ∈ as.head?, a.conn = r ∧ a.before = before := by
  induction n generalizing last r s base before with
  | zero => exact ⟨[], before, Protocol.nil hlog rfl rfl hbefore, fun _ => rfl, by simp⟩
  | succ n ih =>
    obtain ⟨req, hreq⟩ := hf.wire
    have hcall := call_run net hf hreq hopen
    rw [(R.answers r req s.world hlive).result (R.kind r req s.world).reply_wf] at hcall
    let a : Attempt := ⟨before, r, req, (net.exchange .command r req s.world).1, R.kind r req s.world⟩
    have hadd := (adds_sent net .command r req s).trans (adds_push _ [.keepalive r])
    have hlog₁ : ((s.sent net .command r req).push [.keepalive r]).log = base ++ a.events := by
      rw [hadd.log, hlog]
      simp [a, Attempt.events]
    by_cases he : a.kind.reply.isError = true
    · obtain ⟨o, s₂, es, hce, hlog₂, hes, hslots, hnodes, ht₂, hopened, hnone, hnext⟩ :=
        clusterError_kind R he (fun addr => R.named r req s.world addr hlive)
          (fun addr => hp req r s.world addr hreq hlive) (hadd.tables ht)
      have hret := Kind.returned_of_error he
      rw [hadd.slots] at hslots
      rw [hadd.nodes] at hnodes
      rw [hlog₁] at hlog₂
      have herr : ¬ (a.kind.reply.ret.err = .nil ∧ a.kind.reply.ret.val.isNil = false) := by
        obtain ⟨t, ht⟩ := Reply.eq_error he
        rw [ht]
        exact fun h => by cases h.1
      rw [sendLoop_error net hcall herr, hce]
      rcases o with _ | c
      · have hrest : Protocol R cmd n s₂ (base ++ a.events) a.kind.returned
            (.ok ⟨.nil, a.kind.reply.ret.pre, a.kind.reply.ret.err⟩, s₂) [] es := by
          rw [← hret]
          exact Protocol.nil hlog₂ rfl rfl hes
        exact ⟨[a], es, hrest.cons hbefore hreq hlive ⟨_, rfl, rfl⟩ hslots hnodes (by simp)
          fun _ haddr => absurd (hnone rfl) haddr, by simp, by simp [a]⟩
      · obtain ⟨hlive', hnext⟩ := hnext c rfl
        obtain ⟨as, after, hp, hnil, hhead⟩ :=
          ih (a.kind.reply.ret.pre, a.kind.reply.ret.err) hlive' ht₂ (hopened c rfl) hlog₂ hes
        rw [← hret] at hp
        exact ⟨a :: as, after, hp.cons hbefore hreq hlive ⟨_, rfl, rfl⟩ hslots hnodes
          (fun b hb => hnext b (hhead b hb).1 (hhead b hb).2) fun h _ => hnil h, by simp, by simp [a]⟩
    · obtain ⟨rep, wf, value, hk⟩ := Kind.eq_normal (Bool.eq_false_iff.2 he)
      obtain ⟨v, pre, hv, hnil⟩ := Reply.ret_value value
      have hkind : R.kind r req s.world = .normal rep wf value := hk
      rw [hkind, Kind.reply, hv] at hcall
      rw [sendLoop_value net hcall hnil]
      have hrest : Protocol R cmd n ((s.sent net .command r req).push [.keepalive r]) (base ++ a.events)
          a.kind.returned (.ok ⟨v, pre, .nil⟩, (s.sent net .command r req).push [.keepalive r]) [] [] := by
        rw [hk, Kind.returned, hv]
        exact Protocol.nil (by rw [hlog₁, List.append_nil]) rfl rfl (by simp)
      refine ⟨[a], [], hrest.cons hbefore hreq hlive ⟨_, rfl, rfl⟩ ?_ hadd.nodes (by simp) ?_, by simp, by simp [a]⟩
      · rw [hadd.slots, hk]
        rfl
      · rw [hk]
        exact fun _ h => absurd rfl h

end Protocol

/-! ## A whole call -/

/-- The value returned when no node could be asked. -/
def noConnection : Ret := ⟨.nil, some typeErrorReply, .str timeoutErr⟩

/-- The attempts of a call; the first one goes where the slot map says. -/
theorem sendClusterCommand_attempts {net : Net W} (R : Responsive net) (T : Nat) (slotid : Option SlotKey)
    {cmd : Command} (hf : cmd.Forwarded) (hplain : R.Plain cmd) {s : St W} (ht : R.Tables s) :
    ∃ as after, Protocol R cmd (T + 1) s s.log noConnection (sendClusterCommand net T slotid cmd s) as after ∧
      (∀ a ∈ as.head?, Chosen s (slotid.getD (redisSlot cmd.args.head?)) a.conn) ∧
      (R.Pongs → ∃ a node, as.head? = some a ∧ firstNode net s (slotid.getD (redisSlot cmd.args.head?)) = some node ∧
        a.conn.At node) := by
  obtain ⟨o, s₁, hfirst, hchosen, hpong⟩ := firstConnection_ok R slotid cmd.args.head? ht
  obtain ⟨es, hadd, hes⟩ : Quiet s _ := firstConnection_frame net slotid cmd.args.head? s
  rw [hfirst] at hadd
  have hopened := firstConnection_opened (P := fun _ => True) net slotid cmd.args.head? s trivial o s₁ hfirst
  unfold sendClusterCommand sendCall
  rw [bind_ok hfirst]
  rcases o with _ | r
  · refine ⟨[], es, Protocol.nil hadd.log hadd.slots hadd.nodes hes, by simp, fun hp => ?_⟩
    obtain ⟨c, -, hc, -⟩ := hpong hp
    cases hc
  · have hr := hchosen r rfl
    obtain ⟨as, after, hp, hnil, hhead⟩ :=
      sendLoop_protocol (n := T + 1) R hf hplain (none, .nil) (hr.live R ht) (hadd.tables ht) (hopened r rfl)
        hadd.log hes
    have hne : as ≠ [] := fun h => absurd (hnil h) (Nat.succ_ne_zero T)
    refine ⟨as, after, hp.start hne hadd.slots hadd.nodes, fun a ha => ?_, fun hpongs => ?_⟩
    · rw [(hhead a ha).1]
      exact hr
    · obtain ⟨c, node, hc, hnode, hat⟩ := hpong hpongs
      obtain ⟨a, rest, rfl⟩ := List.exists_cons_of_ne_nil hne
      rw [Option.some.inj hc] at hhead
      exact ⟨a, node, rfl, hnode, by rw [(hhead a rfl).1]; exact hat⟩

theorem hostA_word : ∀ b ∈ bytes "a", b ≠ 32 ∧ b ≠ 13 ∧ b ≠ 10 := by simp [bytes]

theorem hostA_port_pos (n : Nat) : 0 < n % 9 + 1 := Nat.succ_pos _

theorem hostA_port_le (n : Nat) : n % 9 + 1 ≤ 65535 := by omega

theorem ok_wf : (Reply.status (bytes "OK")).wf = true := by decide

theorem ok_value : (Reply.status (bytes "OK")).isError = false := rfl

theorem err_line : isLine (bytes "ERR") = true := by decide

theorem err_word : firstWord (bytes "ERR") ∉ redirectWords := by decide

/-- The host `a` at port `n + 1`, of the ports 1 to 9. -/
def hostA (n : Nat) : Addr := ⟨bytes "a", n % 9 + 1, hostA_word, hostA_port_pos n, hostA_port_le n⟩

/-- The reply of an execution. -/
def Kind.executed : Kind → Option Reply
  | .normal r _ _ => some r
  | _ => none

/-- The slot of the key `k`. -/
def smallSlot : Fin 16384 := ⟨keyHashSlot (bytes "k"), keyHashSlot_lt _⟩

/-- The answers by port: 1 answers MOVED to 2, 2 answers ASK to 3, 3 answers OK, any other an error. -/
def smallKind (c : Conn) : Kind :=
  if c.port = 1 then .moved smallSlot (hostA 1)
  else if c.port = 2 then .ask smallSlot (hostA 2)
  else if c.port = 3 then .normal (.status (bytes "OK")) ok_wf ok_value
  else .other (bytes "ERR") err_line err_word

def smallNet : Net Unit where
  connect _ _ w := (true, w)
  random _ w := (0, w)
  exchange p c _ w :=
    match p with
    | .command => (⟨.reply (smallKind c).reply.bytes closedErr, (smallKind c).executed⟩, w)
    | _ => (⟨.reply (Reply.status (bytes "PONG")).bytes closedErr, none⟩, w)

def smallResponsive : Responsive smallNet where
  member _ _ := True
  kind c _ _ := smallKind c
  connects _ _ _ _ := rfl
  answers _ _ _ _ := ⟨closedErr, rfl⟩
  named _ _ _ _ _ _ := trivial
  probed _ _ _ _ := ⟨.status (bytes "PONG"), by decide, closedErr, rfl⟩
  asked _ _ _ _ := ⟨.status (bytes "PONG"), by decide, by decide, closedErr, rfl⟩

/-- A worker whose only node is the one at port `n + 1`. -/
def smallStart (n : Nat) : St Unit := ⟨(), fun _ => some (hostA n).node, [(hostA n).node], 0, []⟩

theorem smallStart_tables (n : Nat) : smallResponsive.Tables (smallStart n) where
  start := by simp [smallStart]
  nodes node h := by
    rw [List.mem_singleton.1 h]
    exact smallResponsive.reaches_addr trivial
  slots k node h := by
    cases h
    exact smallResponsive.reaches_addr trivial

def getCmd : Command := ⟨bytes "GET", [bytes "k"]⟩

theorem getCmd_forwarded : getCmd.Forwarded := ⟨by decide, by decide, by decide⟩

theorem smallResponsive_plain : smallResponsive.Plain getCmd := by
  intro req c w addr _ _ h
  change (smallKind c).addr = some addr at h
  unfold smallKind at h
  split_ifs at h
  all_goals
    cases h
    try decide

end NgProxy.Cluster
