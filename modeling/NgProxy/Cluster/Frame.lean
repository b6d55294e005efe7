/-
What the code around the command itself can touch: choosing a connection, probing, asking and
following a redirect use the network and extend the log, but never send the client's command, and
only a MOVED changes the slot map. Stated once for every preorder on states that allows it.
-/
import NgProxy.Cluster.Kind

namespace NgProxy.Cluster

open Lua Codec Prog

variable {W : Type}

/-- `R` allows the network, the connection counter and the log to move on, as long as no command is
sent. -/
class Frame (R : St W → St W → Prop) extends IsPreorder (St W) R where
  move : ∀ (s : St W) (w : W) (n : Nat) (es : List Event), (∀ e ∈ es, e.isCommand = false) →
    R s ⟨w, s.slots, s.nodes, n, s.log ++ es⟩

/-- What one use of the network, or none, makes of the world. -/
inductive Step (net : Net W) (w : W) : W → Prop
  | stay : Step net w w
  | connect (host : Bytes) (port : Nat) : Step net w (net.connect host port w).2
  | random (n : Nat) : Step net w (net.random n w).2
  | exchange (p : Purpose) (r : Conn) (req : Bytes) : Step net w (net.exchange p r req w).2
  | own (name : Bytes) (args : List Value) (r : Conn) : Step net w (net.own name args r w).2

/-- The same for relations that do not allow every world: the world moves by steps of the network. -/
class Allows (net : Net W) (R : St W → St W → Prop) [IsPreorder (St W) R] : Prop where
  move : ∀ (s : St W) (w : W) (n : Nat) (es : List Event), Step net s.world w → (∀ e ∈ es, e.isCommand = false) →
    R s ⟨w, s.slots, s.nodes, n, s.log ++ es⟩

instance (net : Net W) (R : St W → St W → Prop) [Frame R] : Allows net R where
  move s w n es _ hes := Frame.move s w n es hes

section Frame

variable (net : Net W) {R : St W → St W → Prop} [IsPreorder (St W) R] [Allows net R]

include net in
theorem record_allowed {e : Event} (he : e.isCommand = false) : Relates R (record e : Run W Unit) := by
  intro s
  refine Allows.move s s.world s.nextConn [e] (Step.stay : Step net _ _) fun x hx => ?_
  rw [List.mem_singleton] at hx
  rw [hx, he]

theorem dial_frame (host : Bytes) (port : Nat) : Relates R (dial net host port) := by
  intro s
  have hstep : Step net s.world (net.connect host port s.world).2 := .connect host port
  rcases hc : net.connect host port s.world with ⟨_ | _, w⟩
  all_goals rw [hc] at hstep
  · have := Allows.move (R := R) s w s.nextConn [] hstep (by simp)
    simpa [dial, hc] using this
  · have := Allows.move (R := R) s w (s.nextConn + 1) [.connect ⟨s.nextConn, host, port⟩] hstep
      (by simp [Event.isCommand])
    simpa [dial, hc] using this

theorem connect_frame (host : Bytes) (port : Option Number) : Relates R (connect net host port) := by
  unfold connect
  split
  · exact Relates.raise _
  · split
    · exact Relates.pure _
    · exact dial_frame net host _

theorem exchange_frame {p : Purpose} (hp : p ≠ .command) (r : Conn) (req : Bytes) :
    Relates R (exchange net p r req) := by
  intro s
  unfold exchange
  split
  · exact Std.Refl.refl s
  · refine Allows.move s (net.exchange p r req s.world).2 s.nextConn [.send r p req _]
      (.exchange p r req : Step net _ _) fun e he => ?_
    rw [List.mem_singleton] at he
    subst he
    cases p with
    | command => exact absurd rfl hp
    | probe => rfl
    | asking => rfl
    | discover => rfl

/-- The client object's own methods leave everything but the network alone. -/
theorem ownMethod_frame (name : Bytes) (args : List Value) (r : Conn) : Relates R (ownMethod net name args r) := by
  intro s
  have := Allows.move (R := R) s (net.own name args r s.world).2 s.nextConn []
    (.own name args r : Step net _ _) (by simp)
  simpa [ownMethod] using this

/-- Whatever the purpose, when `R` allows the request itself. -/
theorem doCmd_allowed {p : Purpose} {r : Conn} (hx : ∀ req, Relates R (exchange net p r req)) (args : List Value) :
    Relates R (doCmdValues net p r args) := by
  refine (Relates.lift _).bind fun req => (hx req).bind fun a => ?_
  unfold readReply
  split
  · exact Relates.pure _
  · exact (Relates.lift _).bind fun d => (record_allowed net rfl).bind fun _ =>
      (Relates.when (record_allowed net rfl)).bind fun _ => Relates.pure _

theorem doCmd_frame {p : Purpose} (hp : p ≠ .command) (r : Conn) (args : List Bytes) :
    Relates R (doCmd net p r args) :=
  doCmd_allowed net (exchange_frame net hp r) (args.map .str)

theorem getRedisLink_frame (host : Bytes) (port : Option Number) : Relates R (getRedisLink net host port) := by
  refine (connect_frame net host port).bind fun c => ?_
  cases c with
  | none => exact (record_allowed net rfl).bind fun _ => Relates.pure _
  | some r => exact Relates.pure _

theorem mathRandom_frame (n : Nat) : Relates R (mathRandom net n) := by
  intro s
  have := Allows.move (R := R) s (net.random n s.world).2 s.nextConn [] (Step.random n : Step net _ _) (by simp)
  simpa [mathRandom] using this

theorem randomLoop_frame (n : Nat) : Relates R (randomLoop net n) := by
  induction n with
  | zero => exact Relates.pure _
  | succ n ih =>
    refine Relates.get.bind fun s => (mathRandom_frame net _).bind fun num => ?_
    split
    · exact Relates.raise _
    · refine (getRedisLink_frame net _ _).bind fun c => ?_
      cases c with
      | none => exact ih
      | some r =>
        refine (doCmd_frame net (by decide) r _).bind fun ret => ?_
        split
        · exact Relates.pure _
        · exact (record_allowed net rfl).bind fun _ => ih

theorem getRandomConnection_frame : Relates R (getRandomConnection net) := randomLoop_frame net 5

theorem getConnectionBySlot_frame (slot : SlotKey) : Relates R (getConnectionBySlot net slot) := by
  refine Relates.get.bind fun s => ?_
  split
  · exact getRandomConnection_frame net
  · exact getRedisLink_frame net _ _

theorem firstConnection_frame (slotid : Option SlotKey) (key : Option Bytes) :
    Relates R (firstConnection net slotid key) := by
  have hslot : Relates R (slotConnection net slotid key) := by
    cases slotid with
    | none => exact getConnectionBySlot_frame net _
    | some slot => exact getConnectionBySlot_frame net slot
  refine hslot.bind fun r => ?_
  cases r with
  | none => exact getRandomConnection_frame net
  | some r => exact Relates.pure _

theorem followNode_frame (node : Node) (ask : Bool) : Relates R (followNode net node ask) := by
  refine (getRedisLink_frame net _ _).bind fun c => ?_
  cases c with
  | none => exact getRandomConnection_frame net
  | some r =>
    have hask : Relates R (asking net r) := (doCmd_frame net (by decide) r _).bind fun _ => record_allowed net rfl
    exact hask.when.bind fun _ => Relates.pure _

/-- `R` allows an entry of the slot map to be set, to a node whose host has no colon. -/
def Assigns (R : St W → St W → Prop) : Prop :=
  ∀ (s : St W) (n : Number) (node : Node), (58 : UInt8) ∉ node.host →
    R s { s with slots := fun j => if j = .num n then some node else s.slots j }

/-- What stands before the first colon has none. -/
theorem split_colon {t : Option Bytes} {words : List Bytes} (h : stringSplit t (bytes ":") 0 = some words) :
    (58 : UInt8) ∉ words.headD [] := by
  cases t with
  | none => cases h
  | some t =>
    cases h
    have hhead : (splitLoop [58] 1000 t).head? = some (t.takeWhile (· ≠ 58)) := splitLoop_head 58 999 t
    rw [List.headD_eq_head?_getD]
    show (58 : UInt8) ∉ ((splitLoop [58] 1000 t).head?).getD []
    rw [hhead]
    intro hmem
    exact absurd (List.mem_takeWhile_imp hmem) (by decide)

/-- Following a redirect, when `R` also allows the assignment of a MOVED. -/
theorem clusterError_frame (hslots : Assigns R) (err : Value) : Relates R (clusterError net err) := by
  have hmoved (slot : Option Number) {node : Node} (hnode : (58 : UInt8) ∉ node.host) :
      Relates R (moved slot node : Run W Unit) := by
    refine Relates.bind ?_ fun _ => record_allowed net rfl
    unfold assignSlot
    split
    · exact Relates.raise _
    · exact Relates.raise _
    · exact fun s => hslots s _ node hnode
  unfold clusterError
  split
  · exact Relates.raise _
  · split
    · exact getRandomConnection_frame net
    · split
      · exact (record_allowed net rfl).bind fun _ => Relates.pure _
      · unfold redirect
        split
        · exact Relates.raise _
        · split
          · exact Relates.raise _
          · split
            · exact getRandomConnection_frame net
            · exact (hmoved _ (split_colon (by assumption))).when.bind fun _ => followNode_frame net _ _

/-- What follows an attempt's call, when the remaining attempts keep to `R`. -/
theorem sendLoop_after (hslots : Assigns R) {call : Conn → Run W Ret} {n : Nat}
    (hloop : ∀ last r, Relates R (sendLoop net call n last r)) (last : Option Nat × Value) (r : Conn) (s : St W) :
    R (call r s).2 (sendLoop net call (n + 1) last r s).2 := by
  refine Relates.after (fun ret => (record_allowed net rfl).bind fun _ => ?_) s
  split
  · exact Relates.pure _
  · refine (clusterError_frame net hslots _).bind fun c => ?_
    cases c with
    | none => exact Relates.pure _
    | some r => exact hloop _ r

/-- The loop, by induction on the attempts left, when `R` also allows the attempts' calls. -/
theorem sendLoop_frame (hslots : Assigns R) {call : Conn → Run W Ret} (hcall : ∀ r, Relates R (call r)) (n : Nat) :
    ∀ last r, Relates R (sendLoop net call n last r) := by
  induction n with
  | zero => exact fun last r => Relates.pure _
  | succ n ih => exact fun last r s => IsTrans.trans _ _ _ (hcall r s) (sendLoop_after net hslots ih last r s)

/-- The whole of `send_cluster_command`. -/
theorem sendCall_frame (hslots : Assigns R) {call : Conn → Run W Ret} (hcall : ∀ r, Relates R (call r)) (ttl : Int)
    (slotid : Option SlotKey) (key : Option Bytes) : Relates R (sendCall net ttl slotid key call) := by
  refine (firstConnection_frame net slotid key).bind fun c => ?_
  cases c with
  | none => exact Relates.pure _
  | some r => exact sendLoop_frame net hslots hcall _ _ r

/-- A call of the method, when `R` allows every command. -/
theorem callValues_allowed (hcommand : ∀ r req, Relates R (exchange net .command r req)) (cmd : Value)
    (args : List Value) (r : Conn) : Relates R (callValues net cmd args r) := by
  unfold callValues
  split
  · split
    · exact ownMethod_frame net _ args r
    · split
      · split
        · exact doCmd_allowed net (hcommand r) _
        · exact Relates.raise _
      · exact doCmd_allowed net (hcommand r) _
  · exact doCmd_allowed net (hcommand r) _

theorem call_allowed (hcommand : ∀ r req, Relates R (exchange net .command r req)) (cmd : Command) (r : Conn) :
    Relates R (cmd.call net r) := callValues_allowed net hcommand _ _ r

theorem sendClusterCommand_allowed (hslots : Assigns R) (hcommand : ∀ r req, Relates R (exchange net .command r req))
    (ttl : Int) (slotid : Option SlotKey) (cmd : Command) : Relates R (sendClusterCommand net ttl slotid cmd) :=
  sendCall_frame net hslots (call_allowed net hcommand cmd) ttl slotid _

theorem sendValues_allowed (hslots : Assigns R) (hcommand : ∀ r req, Relates R (exchange net .command r req))
    (ttl : Int) (slotid : Option SlotKey) (cmd : Value) (args : List Value) :
    Relates R (sendValues net ttl slotid cmd args) := by
  have hsend (slot : SlotKey) : Relates R (sendCall net ttl (some slot) none (callValues net cmd args)) :=
    sendCall_frame net hslots (callValues_allowed net hcommand cmd args) ttl _ _
  unfold sendValues
  split
  · exact hsend _
  · exact (Relates.lift _).bind hsend

end Frame

end NgProxy.Cluster
