/-
What the slot map holds: keys are slots and entries have a host and a port. Two functions write it,
`update_cluster_nodes` and `cluster_error`; along any sequence of their calls the map stays so,
provided that every line that lists slots says where its node is.
-/
import NgProxy.Cluster.Frame
import NgProxy.Cluster.NodesMap

namespace NgProxy.Cluster

open Lua Codec Prog Text

variable {W : Type}

/-! ## The invariant -/

/-- An entry one can connect to. -/
def Node.Valid (n : Node) : Prop := n.host ≠ [] ∧ ∃ port : Nat, 0 < port ∧ n.port = some (.int port)

/-- Every key is a slot and every entry has a host and a positive port. -/
def ValidMap (m : SlotKey → Option Node) : Prop :=
  ∀ key node, m key = some node → (∃ slot : Nat, slot < 16384 ∧ key = .num (.int slot)) ∧ node.Valid

/-- Steps that do not break the map. -/
def Keeps (s s' : St W) : Prop := ValidMap s.slots → ValidMap s'.slots

instance : Frame (Keeps : St W → St W → Prop) where
  refl _ h := h
  trans _ _ _ h₁ h₂ h := h₂ (h₁ h)
  move _ _ _ _ _ h := h

/-- The one way the map changes: slots below 16384 get a valid entry. -/
theorem keeps_assign (s : St W) (slots : List Nat) {addr : Node} (h : ∀ slot ∈ slots, slot < 16384 ∧ addr.Valid) :
    Keeps s (s.assign (numbers slots) addr) := by
  intro hs key node hnode
  by_cases hkey : key ∈ (numbers slots).map SlotKey.num
  · rw [s.assign_mem hkey] at hnode
    cases hnode
    simp only [numbers, List.map_map, List.mem_map, Function.comp_apply] at hkey
    obtain ⟨slot, hslot, rfl⟩ := hkey
    exact ⟨⟨slot, (h slot hslot).1, rfl⟩, (h slot hslot).2⟩
  · rw [s.assign_not_mem hkey] at hnode
    exact hs key node hnode

/-! ## `update_cluster_nodes` -/

theorem SlotField.owned_lt (f : SlotField) : ∀ slot ∈ f.owned, slot < 16384 := by
  cases f with
  | one a => simp [SlotField.owned]
  | range a b le =>
    intro slot hslot
    have := (List.mem_range'_1.1 hslot).2
    have := b.isLt
    omega
  | migrating slot id => simp [SlotField.owned]
  | importing slot id => simp [SlotField.owned]

theorem Line.owned_lt (l : Line) : ∀ slot ∈ l.owned, slot < 16384 := by
  intro slot hslot
  obtain ⟨f, -, hf⟩ := List.mem_flatMap.1 hslot
  exact f.owned_lt slot hf

/-- A known address has a port. -/
def Address.HasPort : Address → Prop
  | .unknown => True
  | .known _ port _ _ _ => 0 < port

/-- A known address has a host, which is no IPv6 address. -/
def Address.HasHost (a : Address) : Prop := ∀ host ∈ a.host?, host ≠ [] ∧ (58 : UInt8) ∉ host

theorem lineAddr_valid {node : Node} (hnode : node.Valid) {a : Address} (hport : a.HasPort) (hhost : a.HasHost) :
    (lineAddr node a.text).Valid := by
  rw [lineAddr_node node fun host h => (hhost host h).2]
  cases a with
  | unknown => exact hnode
  | known host port plain le named => exact ⟨(hhost host rfl).1, port, hport, rfl⟩

theorem Line.keeps_apply {node : Node} (hnode : node.Valid) {l : Line} (hport : l.address.HasPort)
    (hhost : l.owned ≠ [] → l.address.HasHost) (s : St W) : Keeps s (l.apply node s) := by
  intro hs
  refine keeps_assign { s with nodes := _ } l.owned (fun slot hslot => ⟨l.owned_lt slot hslot, ?_⟩) hs
  exact lineAddr_valid hnode hport (hhost (List.ne_nil_of_mem hslot))

/-! ## `cluster_error` -/

/-- Where a redirect points: an address as a node writes it. -/
structure Target where
  host : Bytes
  port : Nat
  plain : ∀ b ∈ host, isPrint b = true
  le : port ≤ 65535
  ne : host ≠ []

def Target.text (t : Target) : Bytes := t.host ++ 58 :: decimal t.port

/-- The errors `cluster_error` follows. -/
inductive Notice where
  | moved (slot : Fin 16384) (t : Target)
  | ask (slot : Fin 16384) (t : Target)
  | tryagain (text : Bytes) (word : firstWord text = bytes "TRYAGAIN")

def Notice.text : Notice → Bytes
  | .moved slot t => bytes "MOVED" ++ 32 :: (decimal slot ++ 32 :: t.text)
  | .ask slot t => bytes "ASK" ++ 32 :: (decimal slot ++ 32 :: t.text)
  | .tryagain text _ => text

def Notice.target? : Notice → Option Target
  | .moved _ t => some t
  | .ask _ t => some t
  | .tryagain _ _ => none

theorem Target.blank_not_mem (t : Target) : (32 : UInt8) ∉ t.text := by
  intro h
  rcases List.mem_append.1 h with h | h
  · exact isPrint_ne (t.plain _ h) (by decide) rfl
  · rcases List.mem_cons.1 h with h | h
    · exact absurd h (by decide)
    · exact isPrint_ne (decimal_print _ _ h) (by decide) rfl

theorem Target.split_text (t : Target) (h : (58 : UInt8) ∉ t.host) :
    stringSplit (some t.text) (bytes ":") 0 = some [t.host, decimal t.port] := by
  have hport : splitLoop [58] 999 (decimal t.port) = [decimal t.port] :=
    splitLoop_whole (decimal_not_mem (by decide) _) 999
  refine congrArg some ?_
  rw [← hport]
  exact splitLoop_cut h 999 _

theorem keeps_moved (net : Net W) {slot : Fin 16384} {node : Node} (h : node.Valid) :
    Relates Keeps (moved (some (.int slot)) node : Run W Unit) := by
  refine Relates.bind (fun s hs => ?_) fun _ => record_allowed net rfl
  rw [assignSlot_run (by simp)]
  exact keeps_assign s [slot.val] (fun i hi => by
    rw [List.mem_singleton] at hi
    exact ⟨by omega, h⟩) hs

theorem keeps_redirect (net : Net W) (ask : Bool) (slot : Fin 16384) {t : Target} (h : (58 : UInt8) ∉ t.host) :
    Relates Keeps (redirect net ask (some (.int slot)) (some t.text)) := by
  have hport : ([t.host, decimal t.port][1]?).bind tonumber = some (.int t.port) :=
    tonumber_decimal t.port (by have := t.le; omega)
  unfold redirect
  rw [t.split_text h]
  dsimp only
  rw [hport]
  dsimp only
  split
  · exact getRandomConnection_frame net
  · rename_i hpos
    have hvalid : (⟨t.host, some (.int t.port)⟩ : Node).Valid := by
      refine ⟨t.ne, t.port, ?_, rfl⟩
      simp [Number.nonPos] at hpos
      omega
    exact (keeps_moved net hvalid).when.bind fun _ => followNode_frame net _ _

theorem keeps_clusterError (net : Net W) {n : Notice} (h : ∀ t ∈ n.target?, (58 : UInt8) ∉ t.host) :
    Relates Keeps (clusterError net (.str n.text)) := by
  intro s
  cases n with
  | moved slot t =>
    rw [Notice.text, clusterError_words net s (.inr rfl) slot t.blank_not_mem]
    exact keeps_redirect net _ slot (h t rfl) s
  | ask slot t =>
    rw [Notice.text, clusterError_words net s (.inl rfl) slot t.blank_not_mem]
    exact keeps_redirect net _ slot (h t rfl) s
  | tryagain text word =>
    rw [Notice.text, clusterError_tryagain net s word]
    exact getRandomConnection_frame net s

/-! ## Sequences of calls -/

/-- A call that may write the map. -/
inductive Call where
  | update (node : Node) (lines : List Line)
  | error (n : Notice)

namespace Call

/-- A reply within the limits of the splitter, of a node one could connect to. -/
def Admitted : Call → Prop
  | .update node lines =>
    node.Valid ∧ lines.length ≤ 1000 ∧ ∀ l ∈ lines, l.fields.length ≤ 1001 ∧ l.address.HasPort
  | .error _ => True

/-- The lines that list slots say where their node is, and no address is one of IPv6. -/
def Located : Call → Prop
  | .update _ lines => ∀ l ∈ lines, l.owned ≠ [] → l.address.HasHost
  | .error n => ∀ t ∈ n.target?, (58 : UInt8) ∉ t.host

/-- The tables after the call, whether it has raised or not. -/
def after (net : Net W) (s : St W) : Call → St W
  | .update node lines => (updateClusterNodes (.str (nodesText lines)) node s).2
  | .error n => (clusterError net (.str n.text) s).2

theorem keeps_after (net : Net W) {c : Call} (hc : c.Admitted) (hl : c.Located) (s : St W) :
    Keeps s (c.after net s) := by
  cases c with
  | error n => exact keeps_clusterError net hl s
  | update node lines =>
    obtain ⟨hnode, hlines, hfields⟩ := hc
    rw [after, updateClusterNodes_run node hlines fun l hmem => (hfields l hmem).1]
    -- line by line
    clear hlines
    revert s
    induction lines with
    | nil => exact fun _ h => h
    | cons l lines ih =>
      intro s
      have hstep := Line.keeps_apply hnode (hfields l (List.mem_cons_self ..)).2 (hl l (List.mem_cons_self ..)) s
      have hrest := ih (fun m hm => hl m (List.mem_cons_of_mem _ hm))
        (fun m hm => hfields m (List.mem_cons_of_mem _ hm))
      exact fun h => hrest (l.apply node s) (hstep h)

end Call

/-- From the empty map, after any calls that locate their nodes, the map is valid. -/
theorem slot_map_valid (net : Net W) (calls : List Call) (hcalls : ∀ c ∈ calls, c.Admitted)
    (hlocated : ∀ c ∈ calls, c.Located) (s : St W) (hempty : s.slots = fun _ => none) :
    ValidMap (calls.foldl (fun s c => c.after net s) s).slots := by
  have hs : ValidMap s.slots := by
    intro key node h
    rw [hempty] at h
    cases h
  clear hempty
  induction calls generalizing s with
  | nil => exact hs
  | cons c calls ih =>
    have hstep := c.keeps_after net (hcalls c (List.mem_cons_self ..)) (hlocated c (List.mem_cons_self ..)) s hs
    exact ih (fun d hd => hcalls d (List.mem_cons_of_mem _ hd)) (fun d hd => hlocated d (List.mem_cons_of_mem _ hd))
      (c.after net s) hstep

/-- A node that is asked and a redirect to it. -/
def firstCalls : List Call :=
  [.update ⟨bytes "10.0.0.1", some (.int 7000)⟩ (loopback (bytes "127.0.0.1") (List.all_eq_true.1 rfl) (by decide)),
    .error (.moved ⟨keyHashSlot (bytes "a"), keyHashSlot_lt _⟩ ⟨bytes "10.0.0.2", 7001, List.all_eq_true.1 rfl, by decide, by decide⟩)]

/-- A network nobody answers on. -/
def deadNet : Net Unit where
  connect _ _ w := (false, w)
  random _ w := (0, w)
  exchange _ _ _ w := (⟨.sendError closedErr, none⟩, w)

theorem slot_map_valid_first : ValidMap (firstCalls.foldl (fun s c => c.after deadNet s) blank).slots := by
  refine slot_map_valid deadNet firstCalls ?_ ?_ blank rfl
  · simp [firstCalls, Call.Admitted, loopback, masterLine, Address.HasPort, Node.Valid, bytes]
    exact ⟨7000, by decide, rfl⟩
  · simp [firstCalls, Call.Located, loopback, masterLine, Address.HasHost, Address.host?, Notice.target?, bytes]

/-- The node that answers may leave out its own host. Its slots then get an entry without one. -/
theorem own_line_without_host :
    let line := masterLine ⟨bytes "myself,master", List.all_eq_true.1 rfl⟩
      (.known [] 7000 (by simp) (by decide) fun _ => by decide) [.range 0 5 (by decide)]
    let call := Call.update ⟨bytes "10.0.0.1", some (.int 7000)⟩ [line]
    nodesText [line] =
      bytes "07c37dfeb235213a872192d90877d0cd55635b91 :7000 myself,master - 0 0 1 connected 0-5\n" ∧
    call.Admitted ∧ (call.after deadNet blank).slots (.num (.int 0)) = some ⟨[], some (.int 7000)⟩ ∧
    ¬ ValidMap (call.after deadNet blank).slots := by
  intro line call
  have hslot : (call.after deadNet blank).slots (.num (.int 0)) = some ⟨[], some (.int 7000)⟩ := by decide +kernel
  refine ⟨by decide +kernel, ⟨⟨by decide, 7000, by decide, rfl⟩, by decide, ?_⟩, hslot, fun h => ?_⟩
  · simp [line, masterLine, Address.HasPort]
  · exact (h _ _ hslot).2.1 rfl

end NgProxy.Cluster
