/-
Stale maps converge: in a cluster whose slots have fixed owners, a command on one key reaches the
owner of its slot after at most one redirect, whatever the slot map says, and from then on every
command on that slot is sent once. This needs owners without colons in their hosts: `cluster_error`
cuts the address of a redirect at every colon and never finds an IPv6 owner.
-/
import NgProxy.Cluster.Redirect

namespace NgProxy.Cluster

open Lua Codec Prog Text

variable {W : Type}

/-! ## Commands on one key -/

/-- A command whose first argument is a key, of the size Lua can hold and `encode` takes. `hmset` with one
value is not sent, and left out. -/
structure KeyCommand where
  name : Bytes
  key : Bytes
  rest : List Bytes
  known : method name ≠ .own
  sent : ¬ (method name = .hmset ∧ rest.length = 1)
  strings : ∀ a ∈ name :: key :: rest, a.length ≤ maxStr
  short : rest.length + 2 ≤ maxArgs

namespace KeyCommand

def command (k : KeyCommand) : Command := ⟨k.name, k.key :: k.rest⟩

def slot (k : KeyCommand) : Fin 16384 := ⟨keyHashSlot k.key, keyHashSlot_lt k.key⟩

theorem forwarded (k : KeyCommand) : k.command.Forwarded where
  known := k.known
  fields := by
    rintro ⟨hm, hl⟩
    exact k.sent ⟨hm, by simpa [command] using hl⟩
  short := k.short

end KeyCommand

/-- The key of a slot in the slot map. -/
def slotKey (slot : Fin 16384) : SlotKey := .num (.int slot)

theorem slotKey_inj {a b : Fin 16384} (h : slotKey a = slotKey b) : a = b := by
  simp only [slotKey, SlotKey.num.injEq, Number.int.injEq] at h
  exact Fin.ext (by omega)

/-! ## The cluster -/

/-- A reply of the node that has executed the command. -/
def Kind.Final : Kind → Prop
  | .normal _ _ _ => True
  | .other _ _ _ => True
  | _ => False

/-- Every slot has an owner, which answers the commands on its slots; every other node answers them
with MOVED and the owner. -/
structure Sharded (net : Net W) extends Responsive net where
  owner : Fin 16384 → Addr
  pongs : toResponsive.Pongs
  owns : ∀ (k : KeyCommand) req c w, wire (.tab ((k.name :: k.key :: k.rest).map .str)) (some typeMultiBulkReply) =
    .ok req → toResponsive.Live c → c.At (owner k.slot).node → (kind c req w).Final
  moves : ∀ (k : KeyCommand) req c w, wire (.tab ((k.name :: k.key :: k.rest).map .str)) (some typeMultiBulkReply) =
    .ok req → toResponsive.Live c → ¬ c.At (owner k.slot).node → kind c req w = .moved k.slot (owner k.slot)

/-- `send_cluster_command(nil, ..)`, as for every command on one key. -/
def sendKey (net : Net W) (T : Nat) (k : KeyCommand) (s : St W) : Except LuaError Ret × St W :=
  sendClusterCommand net T none k.command s

/-- One command after another. -/
def sendKeys (net : Net W) (T : Nat) (ks : List KeyCommand) (s : St W) : St W :=
  ks.foldl (fun s k => (sendKey net T k s).2) s

/-- How many commands have been sent. -/
def sentCount (s : St W) : Nat := s.log.countP Event.isCommand

/-! ## Attempts in a cluster -/

theorem Protocol.sentCount_eq {net : Net W} {R : Responsive net} {cmd : Command} {n : Nat} {s : St W} {dflt : Ret}
    {out : Except LuaError Ret × St W} {as : List Attempt} {after : List Event}
    (h : Protocol R cmd n s s.log dflt out as after) : sentCount out.2 = sentCount s + as.length := by
  have hmute : ∀ es : List Event, (∀ e ∈ es, e.isCommand = false) → es.countP Event.isCommand = 0 := fun es hes =>
    List.countP_eq_zero.2 fun e he => by simp [hes e he]
  have hone : ∀ a ∈ as, a.events.countP Event.isCommand = 1 := by
    intro a ha
    have hb := hmute a.before (h.between.1 a ha)
    have hr := hmute (a.answer.reads a.conn) (a.answer.reads_mute a.conn)
    simp [Attempt.events, List.countP_append, List.countP_cons, hb, hr, Event.isCommand]
  have hall : (as.flatMap Attempt.events).countP Event.isCommand = as.length := by
    have hmap : as.map (List.countP Event.isCommand ∘ Attempt.events) = as.map fun _ => 1 := List.map_congr_left hone
    rw [List.countP_flatMap, hmap]
    simp
  unfold sentCount
  rw [h.log, List.countP_append, List.countP_append, hall, hmute after h.between.2]
  rfl

theorem Conn.At.unique {c : Conn} {m n : Node} (hm : c.At m) (hn : c.At n) : m = n := by
  obtain ⟨mh, mp⟩ := m
  obtain ⟨nh, np⟩ := n
  rw [Node.mk.injEq]
  exact ⟨hm.1.symm.trans hn.1, hm.2.trans hn.2.symm⟩

theorem Kind.Final.addr {k : Kind} (h : k.Final) : k.addr = none := by
  cases k with
  | normal r wf value => rfl
  | other t line word => rfl
  | moved slot a => cases h
  | ask slot a => cases h
  | tryagain t line word => cases h

theorem Kind.Final.assign {k : Kind} (h : k.Final) (m : SlotKey → Option Node) : k.assign m = m := by
  cases k with
  | normal r wf value => rfl
  | other t line word => rfl
  | moved slot a => cases h
  | ask slot a => cases h
  | tryagain t line word => cases h

theorem Kind.Final.last {a b : Attempt} (h : a.kind.Final) : ¬ a.Next b := by
  obtain ⟨before, conn, req, answer, kind⟩ := a
  cases kind with
  | normal r wf value => exact id
  | other t line word => exact id
  | moved slot addr => cases h
  | ask slot addr => cases h
  | tryagain t line word => cases h

/-- What a call on one key leaves behind: its reply is the owner's, and the entry of its slot is the
owner, or was absent and stays so because the node drawn in its place was the owner. -/
structure Settled {net : Net W} (C : Sharded net) (k : KeyCommand) (s : St W) (out : Except LuaError Ret × St W) :
    Prop where
  sends : sentCount out.2 ≤ sentCount s + 2
  reply : ∃ es c req w, out.2.log = s.log ++ es ∧ .send c .command req (net.exchange .command c req w).1 ∈ es ∧
    c.At (C.owner k.slot).node ∧ out.1 = .ok (C.kind c req w).returned
  entry : out.2.slots (slotKey k.slot) = some (C.owner k.slot).node ∨
    s.slots (slotKey k.slot) = none ∧ out.2.slots (slotKey k.slot) = none ∧ sentCount out.2 = sentCount s + 1
  others : ∀ j ≠ slotKey k.slot, out.2.slots j = s.slots j

/-! ## The first attempt -/

/-- The log grows, and an entry of the slot map that changes is set to a node whose host has no colon. -/
structure Later (s s' : St W) : Prop where
  log : s.log <+: s'.log
  slots : ∀ j, s'.slots j = s.slots j ∨ ∃ node, s'.slots j = some node ∧ (58 : UInt8) ∉ node.host

instance : Frame (Later (W := W)) where
  refl s := ⟨List.prefix_rfl, fun _ => .inl rfl⟩
  trans a b c h h' := by
    refine ⟨h.log.trans h'.log, fun j => ?_⟩
    rcases h'.slots j with heq | hset
    · rw [heq]
      exact h.slots j
    · exact .inr hset
  move s w n es _ := ⟨List.prefix_append _ _, fun _ => .inl rfl⟩

theorem later_assigns : Assigns (Later (W := W)) := by
  refine fun s n node hnode => ⟨List.prefix_rfl, fun j => ?_⟩
  by_cases hj : j = .num n
  · exact .inr ⟨node, if_pos hj, hnode⟩
  · exact .inl (if_neg hj)

theorem exchange_later (net : Net W) (r : Conn) (req : Bytes) : Relates Later (exchange net .command r req) := by
  intro s
  unfold exchange
  split
  · exact Std.Refl.refl s
  · exact ⟨List.prefix_append _ _, fun _ => .inl rfl⟩

/-- An answer of the node that has executed the command ends the call. -/
theorem sendLoop_final {net : Net W} (R : Responsive net) {cmd : Command} (hf : cmd.Forwarded) {r : Conn} {req : Bytes}
    (hreq : wire (.tab ((cmd.name :: cmd.args).map .str)) (some typeMultiBulkReply) = .ok req) (hlive : R.Live r)
    {s : St W} (hopen : s.isClosed r = false) (hfin : (R.kind r req s.world).Final) (n : Nat)
    (last : Option Nat × Value) :
    ∃ after, (∀ e ∈ after, e.isCommand = false) ∧ sendLoop net (cmd.call net) (n + 1) last r s =
      (.ok (R.kind r req s.world).returned, (s.sent net .command r req).push after) := by
  have hcall := call_run net hf hreq hopen
  rw [(R.answers r req s.world hlive).result (Kind.reply_wf _)] at hcall
  generalize R.kind r req s.world = k at hcall hfin
  cases k with
  | normal rep wf value =>
    obtain ⟨v, pre, hv, hnil⟩ := rep.ret_value value
    refine ⟨[.keepalive r], by simp [Event.isCommand], ?_⟩
    rw [Kind.reply, hv] at hcall
    rw [sendLoop_value net hcall hnil, Kind.returned, hv]
  | other t line word =>
    refine ⟨[.keepalive r, .metric .error], by simp [Event.isCommand], ?_⟩
    rw [sendLoop_error net hcall (fun h => by cases h.1), Kind.reply, Reply.ret, clusterError_other net _ word]
    dsimp only
    rw [St.push_push]
    rfl
  | moved slot a => cases hfin
  | ask slot a => cases hfin
  | tryagain t line word => cases hfin

section Sharded

variable {net : Net W} (C : Sharded net) {T : Nat} (k : KeyCommand) {s : St W} (ht : C.Tables s)

include ht in
/-- A call first sends its command to the node of the slot, or the one that is drawn. -/
theorem sendKey_first (T : Nat) :
    ∃ c node req es s₁, firstNode net s (slotKey k.slot) = some node ∧ c.At node ∧ C.Live c ∧
      wire (.tab ((k.command.name :: k.command.args).map .str)) (some typeMultiBulkReply) = .ok req ∧
      Adds es s s₁ ∧ (∀ e ∈ es, e.isCommand = false) ∧ s₁.isClosed c = false ∧
      sendKey net T k s = sendLoop net (k.command.call net) (T + 1) (none, .nil) c s₁ := by
  obtain ⟨o, s₁, hfirst, hchosen, hpong⟩ := firstConnection_ok C.toResponsive none (some k.key) ht
  obtain ⟨c, node, rfl, hnode, hat⟩ := hpong C.pongs
  obtain ⟨es, hadd, hes⟩ : Quiet s _ := firstConnection_frame net none (some k.key) s
  rw [hfirst] at hadd
  obtain ⟨req, hreq⟩ := k.forwarded.wire
  refine ⟨c, node, req, es, s₁, hnode, hat, (hchosen c rfl).live C.toResponsive ht, hreq, hadd, hes,
    firstConnection_opened (P := fun _ => True) net none (some k.key) s trivial _ s₁ hfirst c rfl, ?_⟩
  show sendCall net T none (some k.key) (k.command.call net) s = _
  rw [sendCall, bind_ok hfirst]
  rfl

include ht in
/-- A call whose first node is the owner. -/
theorem sendKey_direct (T : Nat) (hfirst : firstNode net s (slotKey k.slot) = some (C.owner k.slot).node) :
    Settled C k s (sendKey net T k s) := by
  obtain ⟨c, node, req, es, s₁, hnode, hat, hlive, hreq, hadd, hes, hopen, hrun⟩ := sendKey_first C k ht T
  rw [hfirst] at hnode
  cases hnode
  obtain ⟨after, hafter, hout⟩ :=
    sendLoop_final C.toResponsive k.forwarded hreq hlive hopen (C.owns k req c s₁.world hreq hlive hat) T (none, .nil)
  rw [hout] at hrun
  have hslots : (sendKey net T k s).2.slots = s.slots := by
    rw [hrun]
    exact hadd.slots
  have hlog : (sendKey net T k s).2.log =
      s.log ++ (es ++ .send c .command req (net.exchange .command c req s₁.world).1 ::
        ((net.exchange .command c req s₁.world).1.reads c ++ after)) := by
    rw [hrun]
    simp [St.sent, hadd.log]
  have hcount : sentCount (sendKey net T k s).2 = sentCount s + 1 := by
    have hmute {fs : List Event} (h : ∀ e ∈ fs, e.isCommand = false) : fs.countP Event.isCommand = 0 :=
      List.countP_eq_zero.2 fun e he => by simp [h e he]
    rw [sentCount, hlog, sentCount]
    simp only [List.countP_append, List.countP_cons, hmute hes, hmute hafter,
      hmute (Answer.reads_mute _ c), Event.isCommand]
    simp
  refine ⟨by omega, ⟨_, c, req, s₁.world, hlog, by simp, hat, by rw [hrun]⟩, ?_, fun j _ => by rw [hslots]⟩
  rw [hslots]
  unfold firstNode at hfirst
  cases hs : s.slots (slotKey k.slot) with
  | none => exact .inr ⟨rfl, rfl, hcount⟩
  | some node =>
    rw [hs] at hfirst
    exact .inl hfirst

include ht in
/-- A wrong node first, and an owner whose address is not understood: the entry of the slot never becomes
the owner, and one send was not enough. -/
theorem sendKey_unsettled (T : Nat) (hcolon : ¬ (C.owner k.slot).Plain)
    (hfirst : firstNode net s (slotKey k.slot) ≠ some (C.owner k.slot).node) :
    ¬ Settled C k s (sendKey net T k s) := by
  intro h
  obtain ⟨c, node, req, es, s₁, hnode, hat, -, hreq, hadd, hes, hopen, hrun⟩ := sendKey_first C k ht T
  have hloop := sendLoop_frame net later_assigns (call_allowed net (exchange_later net) k.command) T
  have hafter := sendLoop_after net later_assigns hloop (none, .nil) c s₁
  rw [← hrun, call_run net k.forwarded hreq hopen] at hafter
  rcases h.entry with hown | ⟨-, -, hcount⟩
  · rcases hafter.slots (slotKey k.slot) with heq | ⟨other, hset, hplain⟩
    · have hs : s.slots (slotKey k.slot) = some (C.owner k.slot).node := by
        rw [← hown, heq]
        exact (congrFun hadd.slots _).symm
      exact hfirst (by rw [firstNode, hs])
    · rw [hown] at hset
      cases hset
      exact hcolon hplain
  · obtain ⟨fs, c', req', w, hlog, hmem, hat', -⟩ := h.reply
    obtain ⟨rest, hrest⟩ := hafter.log
    have hfs : fs = es ++ .send c .command req (net.exchange .command c req s₁.world).1 ::
        ((net.exchange .command c req s₁.world).1.reads c ++ rest) := by
      refine List.append_cancel_left (?_ : s.log ++ _ = s.log ++ _)
      rw [← hlog, ← hrest]
      simp [St.sent, hadd.log]
    -- the only command is the first one, at another node than the owner
    have hone : fs.countP Event.isCommand = 1 := by
      rw [sentCount, hlog, List.countP_append, sentCount] at hcount
      omega
    have hquiet : ∀ e ∈ (net.exchange .command c req s₁.world).1.reads c ++ rest, e.isCommand = false := by
      rw [hfs, List.countP_append, List.countP_cons, List.countP_eq_zero.2 fun e he => by simp [hes e he]] at hone
      simp only [Event.isCommand, if_true, zero_add, Nat.add_eq_right] at hone
      exact fun e he => Bool.eq_false_iff.2 (List.countP_eq_zero.1 hone e he)
    rw [hfs] at hmem
    rcases List.mem_append.1 hmem with hmem | hmem
    · cases hes _ hmem
    · rcases List.mem_cons.1 hmem with heq | hmem
      · rw [(Event.send.inj heq).1] at hat'
        exact hfirst (by rw [hnode, hat.unique hat'])
      · cases hquiet _ hmem

variable (hT : 1 ≤ T) (hplain : (C.owner k.slot).Plain)

include hplain in
/-- The only redirects of a command on a key name the owner of its slot. -/
theorem Sharded.plain : C.Plain k.command := by
  intro req c w addr hreq hlive haddr
  by_cases hat : c.At (C.owner k.slot).node
  · rw [(C.owns k req c w hreq hlive hat).addr] at haddr
    cases haddr
  · rw [C.moves k req c w hreq hlive hat] at haddr
    cases haddr
    exact hplain

include hT ht hplain

/-- A call makes one attempt, at the owner, or two: a wrong node first, which names the owner. -/
theorem sendKey_attempts :
    ∃ a after, a.conn.At (C.owner k.slot).node ∧ a.kind.Final ∧
      ((Chosen s (slotKey k.slot) a.conn ∧
          Protocol C.toResponsive k.command (T + 1) s s.log noConnection (sendKey net T k s) [a] after) ∨
        ∃ b, Chosen s (slotKey k.slot) b.conn ∧ ¬ b.conn.At (C.owner k.slot).node ∧
          b.kind = .moved k.slot (C.owner k.slot) ∧
          Protocol C.toResponsive k.command (T + 1) s s.log noConnection (sendKey net T k s) [b, a] after) := by
  obtain ⟨as, after, hp, hchosen, hne⟩ := sendClusterCommand_attempts C.toResponsive T none k.forwarded
    (C.plain k hplain) ht
  have hfinal : ∀ a ∈ as, a.conn.At (C.owner k.slot).node → a.kind.Final := by
    intro a ha hat
    obtain ⟨hreq, hlive, w, -, hkind⟩ := hp.sends a ha
    rw [hkind]
    exact C.owns k a.req a.conn w hreq hlive hat
  have hmoved : ∀ a ∈ as, ¬ a.conn.At (C.owner k.slot).node → a.kind = .moved k.slot (C.owner k.slot) := by
    intro a ha hat
    obtain ⟨hreq, hlive, w, -, hkind⟩ := hp.sends a ha
    rw [hkind]
    exact C.moves k a.req a.conn w hreq hlive hat
  -- nothing follows an attempt at the owner
  have hlast : ∀ a l l', as = l ++ a :: l' → a.conn.At (C.owner k.slot).node → l' = [] := by
    rintro a l (_ | ⟨b, l'⟩) rfl hat
    · rfl
    · have hnext := (List.isChain_append_cons_cons.1 hp.chain).2.1
      exact absurd hnext (Kind.Final.last (hfinal a (by simp) hat))
  obtain ⟨b, -, hhead, -⟩ := hne C.pongs
  obtain ⟨rest, rfl⟩ : ∃ rest, as = b :: rest := List.head?_eq_some_iff.1 hhead
  have hb := hchosen b rfl
  by_cases hat : b.conn.At (C.owner k.slot).node
  · obtain rfl := hlast b [] rest rfl hat
    exact ⟨b, after, hat, hfinal b (by simp) hat, .inl ⟨hb, hp⟩⟩
  · have hkind := hmoved b (by simp) hat
    obtain ⟨a, rest, rfl⟩ : ∃ a l, rest = a :: l := by
      rcases rest with _ | ⟨a, l⟩
      · have := hp.followed b rfl (by rw [hkind]; simp [Kind.addr])
        simp at this
        omega
      · exact ⟨a, l, rfl⟩
    have hnext := (List.isChain_cons_cons.1 hp.chain).1
    unfold Attempt.Next at hnext
    rw [hkind] at hnext
    obtain rfl := hlast a [b] rest rfl hnext.1
    exact ⟨a, after, hnext.1, hfinal a (by simp) hnext.1, .inr ⟨b, hb, hat, hkind, hp⟩⟩

/-- The slot map after a call. -/
theorem sendKey_slots :
    (sendKey net T k s).2.slots = s.slots ∨
      (sendKey net T k s).2.slots = (Kind.moved k.slot (C.owner k.slot)).assign s.slots := by
  obtain ⟨a, after, hat, hfinal, ⟨-, hp⟩ | ⟨b, -, -, hb, hp⟩⟩ := sendKey_attempts C k ht hT hplain
  · exact .inl (hp.slots.trans (hfinal.assign s.slots))
  · rw [hp.slots, ← hb]
    exact .inr (hfinal.assign _)

/-- The tables after a call still hold nodes of the cluster. -/
theorem sendKey_tables : C.Tables (sendKey net T k s).2 := by
  obtain ⟨a, after, -, -, ⟨-, hp⟩ | ⟨b, -, -, -, hp⟩⟩ := sendKey_attempts C k ht hT hplain
  · exact hp.tables ht
  · exact hp.tables ht

/-- An entry that is the owner of its slot stays. -/
theorem sendKey_owner (slot : Fin 16384) (h : s.slots (slotKey slot) = some (C.owner slot).node) :
    (sendKey net T k s).2.slots (slotKey slot) = some (C.owner slot).node := by
  obtain hslots | hslots := sendKey_slots C k ht hT hplain
  · rw [hslots, h]
  · rw [hslots]
    unfold Kind.assign
    dsimp only
    split
    · rename_i hslot
      rw [slotKey_inj hslot]
    · exact h

/-- Once the entry is the owner the command is sent once. -/
theorem sendKey_once (h : s.slots (slotKey k.slot) = some (C.owner k.slot).node) :
    sentCount (sendKey net T k s).2 = sentCount s + 1 := by
  obtain ⟨a, after, -, -, ⟨-, hp⟩ | ⟨b, hb, hnot, -, hp⟩⟩ := sendKey_attempts C k ht hT hplain
  · exact hp.sentCount_eq
  · unfold Chosen at hb
    rw [h] at hb
    exact absurd hb hnot

theorem sendKey_settled : Settled C k s (sendKey net T k s) := by
  obtain ⟨a, after, hat, hfinal, hcase⟩ := sendKey_attempts C k ht hT hplain
  obtain ⟨as, hlast, hp⟩ : ∃ as, as.getLast? = some a ∧
      Protocol C.toResponsive k.command (T + 1) s s.log noConnection (sendKey net T k s) as after := by
    rcases hcase with ⟨-, hp⟩ | ⟨b, -, -, -, hp⟩
    · exact ⟨[a], rfl, hp⟩
    · exact ⟨[b, a], rfl, hp⟩
  have hmem := List.mem_of_getLast? hlast
  obtain ⟨-, -, w, hans, hkind⟩ := hp.sends a hmem
  refine ⟨?_, ⟨_, a.conn, a.req, w, hp.log, ?_, hat, ?_⟩, ?_, ?_⟩
  · rcases hcase with ⟨-, hp⟩ | ⟨b, -, -, -, hp⟩ <;> rw [hp.sentCount_eq] <;> simp
  · rw [← hans]
    refine List.mem_append_left _ (List.mem_flatMap.2 ⟨a, hmem, ?_⟩)
    exact List.mem_append_right _ (List.mem_cons_self ..)
  · rw [hp.returned, ← hkind, List.getLastD_eq_getLast?, List.getLast?_map, hlast]
    rfl
  · rcases hcase with ⟨hchosen, hp⟩ | ⟨b, -, -, hb, hp⟩
    · rw [hp.sentCount_eq, hp.slots.trans (hfinal.assign s.slots)]
      unfold Chosen at hchosen
      rcases hs : s.slots (slotKey k.slot) with _ | node <;> rw [hs] at hchosen
      · exact .inr ⟨rfl, rfl, rfl⟩
      · exact .inl (congrArg some (hchosen.unique hat))
    · left
      rw [hp.slots.trans (hfinal.assign _), hb]
      exact if_pos rfl
  · intro j hj
    obtain hslots | hslots := sendKey_slots C k ht hT hplain
    · rw [hslots]
    · rw [hslots]
      exact if_neg hj

end Sharded

/-- The invariant of a run: the tables hold nodes of the cluster and the entry of a slot is its
owner. -/
theorem sendKeys_owner {net : Net W} (C : Sharded net) {T : Nat} (hT : 1 ≤ T) (hplain : ∀ slot, (C.owner slot).Plain)
    {s : St W} (ht : C.Tables s) (ks : List KeyCommand) (slot : Fin 16384)
    (h : s.slots (slotKey slot) = some (C.owner slot).node) :
    C.Tables (sendKeys net T ks s) ∧ (sendKeys net T ks s).slots (slotKey slot) = some (C.owner slot).node := by
  induction ks generalizing s with
  | nil => exact ⟨ht, h⟩
  | cons k ks ih => exact ih (sendKey_tables C k ht hT (hplain _)) (sendKey_owner C k ht hT (hplain _) slot h)

/-- A stale slot map converges: whatever nodes of the cluster it holds, a command on a key gets the
owner's reply with at most two sends and settles its slot, exactly if the owner's host has no colon or
the command was sent to the owner first. Once the entry is the owner, every later command on the slot is
sent once, after any commands on any slots, if no owner's host has a colon. -/
theorem stale_map_converges {net : Net W} (C : Sharded net) (T : Nat) (hT : 1 ≤ T) (k : KeyCommand) (s : St W)
    (ht : C.Tables s) :
    (Settled C k s (sendKey net T k s) ↔
        (C.owner k.slot).Plain ∨ firstNode net s (slotKey k.slot) = some (C.owner k.slot).node) ∧
      ((∀ slot, (C.owner slot).Plain) → (sendKey net T k s).2.slots (slotKey k.slot) = some (C.owner k.slot).node →
        ∀ (ks : List KeyCommand) (k' : KeyCommand), k'.slot = k.slot →
          sentCount (sendKey net T k' (sendKeys net T ks (sendKey net T k s).2)).2 =
            sentCount (sendKeys net T ks (sendKey net T k s).2) + 1) := by
  refine ⟨⟨fun h => ?_, ?_⟩, fun hplain hentry ks k' hslot => ?_⟩
  · by_contra hno
    rw [not_or] at hno
    exact sendKey_unsettled C k ht T hno.1 hno.2 h
  · rintro (hplain | hfirst)
    · exact sendKey_settled C k ht hT hplain
    · exact sendKey_direct C k ht T hfirst
  · obtain ⟨ht', h'⟩ := sendKeys_owner C hT hplain (sendKey_tables C k ht hT (hplain _)) ks k.slot hentry
    exact sendKey_once C k' ht' hT (hplain _) (by rw [hslot]; exact h')

/-! ## A cluster of two nodes -/

/-- The key in a request, if it has one. -/
def requestKey (req : Bytes) : Bytes :=
  match decode ⟨req, []⟩ with
  | .ok (⟨.tab (_ :: .str key :: _), _, _⟩, _) => key
  | _ => []

def requestSlot (req : Bytes) : Fin 16384 := ⟨keyHashSlot (requestKey req), keyHashSlot_lt _⟩

/-- A node reads the key of the command from the request. -/
theorem requestSlot_wire (k : KeyCommand) {req : Bytes}
    (h : wire (.tab ((k.name :: k.key :: k.rest).map .str)) (some typeMultiBulkReply) = .ok req) :
    requestSlot req = k.slot := by
  have hw : ∀ r ∈ (k.name :: k.key :: k.rest).map Reply.bulk, r.wf = true := by
    intro r hr
    obtain ⟨a, ha, rfl⟩ := List.mem_map.1 hr
    exact decide_eq_true (k.strings a ha)
  have hlen : ((k.name :: k.key :: k.rest).map Reply.bulk).length ≤ maxArgs := by
    rw [List.length_map]
    exact k.short
  have hwire := wire_array hlen (by simp [Reply.isBulk]) hw
  have hwf : (Reply.array ((k.name :: k.key :: k.rest).map .bulk)).wf = true := by
    rw [Reply.wf, decide_eq_true (hlen.trans (by decide)), wfList_of_mem hw]
    rfl
  have hval : ((k.name :: k.key :: k.rest).map Reply.bulk).map Reply.val =
      (k.name :: k.key :: k.rest).map .str := by simp [Reply.val]
  rw [hval, h] at hwire
  cases hwire
  have hd := decode_bytes _ hwf [] []
  rw [List.append_nil] at hd
  have hkey : requestKey (Reply.array ((k.name :: k.key :: k.rest).map .bulk)).bytes = k.key := by
    unfold requestKey
    rw [hd, Reply.ret, vals_eq_map, hval]
    rfl
  exact Fin.ext (congrArg keyHashSlot hkey)

section Pair

variable (o : Addr)

def pairKind (c : Conn) (req : Bytes) : Kind :=
  if c.host = o.host ∧ c.port = o.port then .normal (.status (bytes "OK")) ok_wf ok_value
  else .moved (requestSlot req) o

/-- The node `o` owns every slot; any other one answers MOVED. -/
def pairNet : Net Unit where
  connect _ _ w := (true, w)
  random _ w := (0, w)
  exchange p c req w :=
    match p with
    | .command => (⟨.reply (pairKind o c req).reply.bytes closedErr, (pairKind o c req).executed⟩, w)
    | _ => (⟨.reply (Reply.status (bytes "PONG")).bytes closedErr, none⟩, w)

theorem at_addr_iff (c : Conn) : c.At o.node ↔ c.host = o.host ∧ c.port = o.port := by
  simp only [Conn.At, Addr.node, Option.some.injEq, Number.int.injEq, Int.natCast_inj]
  exact and_congr_right fun _ => eq_comm

/-- The cluster of `o` and the node at port 2 of host `a`. -/
def pairSharded : Sharded (pairNet o) where
  member host port := host = o.host ∧ port = o.port ∨ host = bytes "a" ∧ port = 2
  kind c req _ := pairKind o c req
  connects _ _ _ _ := rfl
  answers _ _ _ _ := ⟨closedErr, rfl⟩
  named c req w addr _ h := by
    unfold pairKind at h
    split at h
    · cases h
    · cases h
      exact .inl ⟨rfl, rfl⟩
  probed _ _ _ _ := ⟨.status (bytes "PONG"), by decide, closedErr, rfl⟩
  asked _ _ _ _ := ⟨.status (bytes "PONG"), by decide, by decide, closedErr, rfl⟩
  owner _ := o
  pongs _ _ _ _ := ⟨closedErr, rfl⟩
  owns k req c w hreq hlive hat := by
    unfold pairKind
    rw [if_pos ((at_addr_iff o c).1 hat)]
    trivial
  moves k req c w hreq hlive hat := by
    unfold pairKind
    rw [if_neg fun h => hat ((at_addr_iff o c).2 h), requestSlot_wire k hreq]

/-- Every entry is the wrong node. -/
def pairStart : St Unit := ⟨(), fun _ => some (hostA 1).node, [(hostA 1).node], 0, []⟩

theorem pairStart_tables : (pairSharded o).Tables pairStart where
  start := by simp [pairStart]
  nodes node h := by
    rw [List.mem_singleton.1 h]
    exact (pairSharded o).reaches_addr (a := hostA 1) (.inr ⟨rfl, rfl⟩)
  slots k node h := by
    cases h
    exact (pairSharded o).reaches_addr (a := hostA 1) (.inr ⟨rfl, rfl⟩)

end Pair

def getKey : KeyCommand := ⟨bytes "GET", bytes "k", [], by decide, by decide, by decide, by decide⟩

theorem stale_map_converges_pair :
    Settled (pairSharded (hostA 0)) getKey pairStart (sendKey (pairNet (hostA 0)) 1 getKey pairStart) ∧
      ∀ (ks : List KeyCommand) (k' : KeyCommand), k'.slot = getKey.slot →
        sentCount (sendKey (pairNet (hostA 0)) 1 k'
            (sendKeys (pairNet (hostA 0)) 1 ks (sendKey (pairNet (hostA 0)) 1 getKey pairStart).2)).2 =
          sentCount (sendKeys (pairNet (hostA 0)) 1 ks (sendKey (pairNet (hostA 0)) 1 getKey pairStart).2) + 1 := by
  obtain ⟨hiff, hlater⟩ :=
    stale_map_converges (pairSharded (hostA 0)) 1 (by decide) getKey pairStart (pairStart_tables (hostA 0))
  have hset := hiff.2 (.inl (by decide))
  refine ⟨hset, hlater (fun _ => (by decide : (hostA 0).Plain)) ?_⟩
  rcases hset.entry with h | ⟨h, -⟩
  · exact h
  · cases h

/-- An IPv6 address. -/
theorem sixAddr_word : ∀ b ∈ bytes "::1", b ≠ 32 ∧ b ≠ 13 ∧ b ≠ 10 := by simp [bytes]

theorem sixAddr_port_pos : 0 < 7000 := by decide

theorem sixAddr_port_le : 7000 ≤ 65535 := by decide

def sixAddr : Addr := ⟨bytes "::1", 7000, sixAddr_word, sixAddr_port_pos, sixAddr_port_le⟩

/-- The owner's address `::1:7000` is cut at its first two colons, and what stands between them is no port:
the call raises, and the slot is not settled. -/
theorem ipv6_owner_raises :
    (pairSharded sixAddr).Tables pairStart ∧
      (∃ req, (pairKind sixAddr ⟨0, bytes "a", 2⟩ req).reply = .error (bytes "MOVED 7629 ::1:7000") ∧
        wire (.tab ([bytes "GET", bytes "k"].map .str)) (some typeMultiBulkReply) = .ok req) ∧
      raised (sendKey (pairNet sixAddr) 1 getKey pairStart) = some .compare ∧
      ¬ Settled (pairSharded sixAddr) getKey pairStart (sendKey (pairNet sixAddr) 1 getKey pairStart) := by
  have htables := pairStart_tables sixAddr
  refine ⟨htables, ?_, by decide +kernel, ?_⟩
  · obtain ⟨req, hreq⟩ := getKey.forwarded.wire
    refine ⟨req, ?_, hreq⟩
    have hslot : requestSlot req = getKey.slot := requestSlot_wire getKey hreq
    have hmoved : pairKind sixAddr ⟨0, bytes "a", 2⟩ req = .moved (requestSlot req) sixAddr := if_neg (by decide)
    rw [hmoved, hslot]
    have htext : redirectText (bytes "MOVED") getKey.slot sixAddr = bytes "MOVED 7629 ::1:7000" := by decide +kernel
    exact congrArg Reply.error htext
  · refine sendKey_unsettled _ getKey htables 1 (by decide) fun h => ?_
    cases h

end NgProxy.Cluster
