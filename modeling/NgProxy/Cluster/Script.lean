/-
What a call of `send_cluster_command` meets, as a script. A call looks for a connection, sends its command
and reads the reply, looks for the next connection if the reply is a redirect, and so on: the script lists,
for every such phase, whether the connect succeeds, what the random nodes do and what is answered. Whether
a phase has a connection is said over the script alone.
-/
import NgProxy.Cluster.Open
import NgProxy.Cluster.ReadFault

namespace NgProxy.Cluster

open Lua Codec Prog

/-! ## Scripts -/

/-- The outcomes of each phase: of the connect to the node of the slot, or the node a redirect names; of
the draws of `math.random`; of connecting to the nodes drawn and pinging them; of `asking`; and the reply
to the command. -/
structure Script where
  link : Nat → Bool
  draw : Nat → Nat → Nat
  tries : Nat → Nat → Option Answer
  asked : Nat → Answer
  reply : Nat → Answer

namespace Script

variable (sc : Script)

/-- Whether a connect succeeds, in this phase and after so many draws. -/
def connects (w : Nat × Nat) : Bool :=
  match w.2 with
  | 0 => sc.link w.1
  | k + 1 => (sc.tries w.1 k).isSome

/-- The answer to a ping. -/
def ping (w : Nat × Nat) : Answer := (sc.tries w.1 (w.2 - 1)).getD ⟨.sendError closedErr, none⟩

/-- The network counts the replies, and the draws since the last one. -/
def net : Net (Nat × Nat) where
  connect _ _ w := (sc.connects w, w)
  random _ w := (sc.draw w.1 w.2, (w.1, w.2 + 1))
  exchange p _ _ w :=
    match p with
    | .command => (sc.reply w.1, (w.1 + 1, 0))
    | .asking => (sc.asked w.1, w)
    | _ => (sc.ping w, w)

end Script

/-- A port that `connect` takes. -/
def Dialable (port : Option Number) : Prop := ∃ p, port = some p ∧ 0 ≤ toInt32 p ∧ toInt32 p ≤ 65536

/-- Reading the answer times out. -/
def Answer.TimesOut (a : Answer) : Prop :=
  ∃ input fault ret s, a.outcome = .reply input fault ∧ decode ⟨input, fault.text⟩ = .ok (ret, s) ∧
    ret.err = .str (bytes "timeout")

/-- Where `cluster_error` looks for a connection: nowhere, since the error is no redirect; at some random
node; or at the node that is named, with `asking` or not. -/
inductive Next where
  | nowhere
  | anywhere
  | at (node : Node) (ask : Bool)

/-- The next place after an error, by its words; none where `cluster_error` raises. -/
def nextOf (err : Value) : Option Next :=
  match stringSplit err.toStr (bytes " ") 0 with
  | none => none
  | some words =>
    if words.head? = some (bytes "TRYAGAIN") then some .anywhere
    else if words.head? ≠ some (bytes "ASK") ∧ words.head? ≠ some (bytes "MOVED") then some .nowhere
    else
      match stringSplit words[2]? (bytes ":") 0 with
      | none => none
      | some ipPort =>
        match ipPort[1]?.bind tonumber with
        | none => none
        | some port =>
          if port.nonPos then some .anywhere
          else some (.at ⟨ipPort.headD [], some port⟩ (decide (words.head? = some (bytes "ASK"))))

namespace Script

variable (sc : Script) (nodes : List Node)

/-- A phase has a connection to the node that is named. -/
def Links (i : Nat) (node : Node) : Prop := Dialable node.port ∧ sc.link i = true

/-- A try at a random node succeeds: there is a connection, and `ping` is answered. -/
def Pongs (i k : Nat) : Prop :=
  ∃ node a ret, nodes[sc.draw i k % nodes.length]? = some node ∧ Dialable node.port ∧ sc.tries i k = some a ∧
    a.result = .ok ret ∧ ret.val = .str (bytes "PONG")

/-- The first phase has a connection: to the node of the slot, or to one of the nodes drawn, which are
five, and five more for a slot without a node. -/
def Starts (node : Option Node) : Prop :=
  match node with
  | none => ∃ k < 10, sc.Pongs nodes 0 k
  | some node => sc.Links 0 node ∨ ∃ k < 5, sc.Pongs nodes 0 k

/-- A later phase has a connection that is still open when its command is due. -/
def Leads (i : Nat) (err : Value) : Prop :=
  match nextOf err with
  | some .anywhere => ∃ k < 5, sc.Pongs nodes i k
  | some (.at node ask) =>
    sc.Links i node ∧ (ask = true → ¬ (sc.asked i).TimesOut) ∨ ¬ sc.Links i node ∧ ∃ k < 5, sc.Pongs nodes i k
  | _ => False

/-- The reply of a phase is a redirect, and the next phase has a connection. -/
def Redirected (i : Nat) : Prop := ∃ ret, (sc.reply i).result = .ok ret ∧ sc.Leads nodes (i + 1) ret.err

end Script

/-! ## Looking for a connection -/

/-- In a phase, after so many draws. -/
def At (nodes : List Node) (i k : Nat) (s : St (Nat × Nat)) : Prop := s.world = (i, k) ∧ s.nodes = nodes

section Connections

variable {sc : Script} {nodes : List Node} {i k : Nat}

theorem getRedisLink_script (host : Bytes) (port : Option Number) :
    Ensures (At nodes i k) (getRedisLink sc.net host port) fun o s =>
      At nodes i k s ∧ (o ≠ none ↔ Dialable port ∧ sc.connects (i, k) = true) := by
  intro s hs o s' h
  have hconnect : ∀ o s', connect sc.net host port s = (.ok o, s') →
      At nodes i k s' ∧ (o ≠ none ↔ Dialable port ∧ sc.connects (i, k) = true) := by
    intro o s' h
    cases port with
    | none => cases h
    | some p =>
      rw [connect] at h
      split at h
      · rename_i hp
        cases h
        refine ⟨hs, ⟨fun h => absurd rfl h, ?_⟩⟩
        rintro ⟨⟨q, ⟨⟩, hq⟩, -⟩
        omega
      · rename_i hp
        have hdial : Dialable (some p) := ⟨p, rfl, by omega, by omega⟩
        cases hc : sc.connects (i, k) with
        | false =>
          have hrun : dial sc.net host (toInt32 p).toNat s = (.ok none, s) := by
            simp only [dial, Script.net, hs.1, hc]
            rw [← hs.1]
          rw [hrun] at h
          cases h
          exact ⟨hs, by simp⟩
        | true =>
          simp only [dial, Script.net, hs.1, hc] at h
          cases h
          exact ⟨⟨rfl, hs.2⟩, by simp [hdial]⟩
  rcases hc : connect sc.net host port s with ⟨e | _ | c, s₁⟩
  · rw [getRedisLink, bind_error hc] at h
    cases h
  · rw [getRedisLink, bind_ok hc] at h
    cases h
    exact hconnect none s₁ hc
  · rw [getRedisLink, bind_ok hc] at h
    cases h
    exact hconnect _ _ hc

theorem doCmd_script {p : Purpose} (hp : p ≠ .command) (c : Conn) (args : List Bytes) {s s' : St (Nat × Nat)}
    (hs : At nodes i k s) (hopen : s.isClosed c = false) {ret : Ret} (h : doCmd sc.net p c args s = (.ok ret, s')) :
    At nodes i k s' ∧ ((sc.net.exchange p c [] (i, k)).1).result = .ok ret ∧
      ∃ req, s' = s.push (.send c p req (sc.net.exchange p c [] (i, k)).1 ::
        (sc.net.exchange p c [] (i, k)).1.reads c) := by
  rcases doCmd_cases sc.net p c args s with ⟨e, hc⟩ | ⟨hclosed, -⟩ | ⟨-, req, hc⟩
  · rw [hc] at h
    cases h
  · rw [hopen] at hclosed
    cases hclosed
  · have hworld : (sc.net.exchange p c req s.world).2 = s.world := by
      cases p with
      | command => exact absurd rfl hp
      | _ => rfl
    have hans : (sc.net.exchange p c req s.world).1 = (sc.net.exchange p c [] (i, k)).1 := by
      rw [hs.1]
      rfl
    rw [hc, hans, St.sent, hworld, hans] at h
    obtain ⟨hret, rfl⟩ := Prod.mk.inj h
    exact ⟨hs, hret, req, rfl⟩

/-- One try at a random node: it succeeds and its connection is returned, or the other tries follow. -/
theorem randomLoop_try (n : Nat) {s s' : St (Nat × Nat)} (hs : At nodes i k s) {o : Option Conn}
    (h : randomLoop sc.net (n + 1) s = (.ok o, s')) :
    sc.Pongs nodes i k ∧ o ≠ none ∧ s'.world.1 = i ∧ s'.nodes = nodes ∨
      ¬ sc.Pongs nodes i k ∧ ∃ s₁, At nodes i (k + 1) s₁ ∧ randomLoop sc.net n s₁ = (.ok o, s') := by
  have hnext : At nodes i (k + 1) { s with world := (i, k + 1) } := ⟨rfl, hs.2⟩
  have hrandom : mathRandom sc.net s.nodes.length s =
      (.ok (sc.draw i k % nodes.length), { s with world := (i, k + 1) }) := by
    simp only [mathRandom, Script.net, hs.1, hs.2]
  rw [randomLoop, bind_ok (get_run s), bind_ok hrandom] at h
  rcases hget : s.nodes[sc.draw i k % nodes.length]? with _ | node <;> rw [hget] at h <;> dsimp only at h
  · cases h
  rw [hs.2] at hget
  rcases hlink : getRedisLink sc.net node.host node.port { s with world := (i, k + 1) } with ⟨e | _ | c, s₁⟩
  · rw [bind_error hlink] at h
    cases h
  · obtain ⟨hs₁, hiff⟩ := getRedisLink_script node.host node.port _ hnext none s₁ hlink
    rw [bind_ok hlink] at h
    refine .inr ⟨?_, s₁, hs₁, h⟩
    rintro ⟨node', a, ret, hget', hdial, htry, -⟩
    rw [hget] at hget'
    cases hget'
    exact hiff.2 ⟨hdial, by simp [Script.connects, htry]⟩ rfl
  · obtain ⟨hs₁, hiff⟩ := getRedisLink_script node.host node.port _ hnext (some c) s₁ hlink
    have hopen := getRedisLink_opened (P := fun _ => True) sc.net node.host node.port _ trivial
      (some c) s₁ hlink c rfl
    obtain ⟨hdial, hconn⟩ := hiff.1 (by simp)
    obtain ⟨a, ha⟩ := Option.isSome_iff_exists.1 hconn
    rw [bind_ok hlink] at h
    dsimp only at h
    rcases hping : doCmd sc.net .probe c [bytes "ping"] s₁ with ⟨e | ret, s₂⟩
    · rw [bind_error hping] at h
      cases h
    · obtain ⟨hs₂, hret, -⟩ := doCmd_script (by decide) c _ hs₁ hopen hping
      have hans : (sc.net.exchange .probe c [] (i, k + 1)).1 = a := by
        show (sc.tries i k).getD _ = a
        rw [ha]
        rfl
      rw [hans] at hret
      rw [bind_ok hping] at h
      by_cases hpong : ret.val.eqStr (bytes "PONG") = true
      · rw [if_pos hpong] at h
        cases h
        refine .inl ⟨⟨node, a, ret, hget, hdial, ha, hret, ?_⟩, by simp, by rw [hs₂.1], hs₂.2⟩
        exact (Value.eqStr_iff _ _).1 hpong
      · rw [if_neg hpong, bind_ok (x := close c) (record_run _ _)] at h
        refine .inr ⟨?_, s₂.push [.close c], hs₂, h⟩
        rintro ⟨node', a', ret', -, -, htry, hret', hval⟩
        have ha' : a' = a := Option.some.inj (htry.symm.trans ha)
        rw [ha', hret] at hret'
        cases hret'
        exact hpong ((Value.eqStr_iff _ _).2 hval)

/-- The tries at random nodes, by induction on how many are left. -/
theorem randomLoop_script (n : Nat) :
    Ensures (At nodes i k) (randomLoop sc.net n) fun o s =>
      s.world.1 = i ∧ s.nodes = nodes ∧ (o = none → At nodes i (k + n) s) ∧
        (o ≠ none ↔ ∃ j < n, sc.Pongs nodes i (k + j)) := by
  induction n generalizing k with
  | zero =>
    rintro s hs _ _ ⟨⟩
    exact ⟨by rw [hs.1], hs.2, fun _ => hs, by simp⟩
  | succ n ih =>
    intro s hs o s' h
    rcases randomLoop_try n hs h with ⟨hpong, ho, hw, hn⟩ | ⟨hno, s₁, hs₁, hrest⟩
    · exact ⟨hw, hn, fun hnone => absurd hnone ho, iff_of_true ho ⟨0, by omega, hpong⟩⟩
    · obtain ⟨hw, hn, hnone, hiff⟩ := ih s₁ hs₁ o s' hrest
      rw [Nat.add_assoc, Nat.add_comm 1 n] at hnone
      refine ⟨hw, hn, hnone, hiff.trans ⟨?_, ?_⟩⟩
      · rintro ⟨j, hj, hp⟩
        exact ⟨j + 1, by omega, by rwa [Nat.add_assoc, Nat.add_comm 1 j] at hp⟩
      · rintro ⟨_ | j, hj, hp⟩
        · exact absurd hp hno
        · exact ⟨j, by omega, by rwa [Nat.add_assoc, Nat.add_comm 1 j]⟩

theorem firstConnection_script (slotid : Option SlotKey) (key : Option Bytes) {s s' : St (Nat × Nat)}
    (hs : At nodes 0 0 s) {o : Option Conn} (h : firstConnection sc.net slotid key s = (.ok o, s')) :
    s'.world.1 = 0 ∧ s'.nodes = nodes ∧ (o ≠ none ↔ sc.Starts nodes (s.slots (slotid.getD (redisSlot key)))) := by
  have hslot : slotConnection sc.net slotid key = getConnectionBySlot sc.net (slotid.getD (redisSlot key)) := by
    cases slotid <;> rfl
  unfold firstConnection at h
  rw [hslot] at h
  generalize slotid.getD (redisSlot key) = slot at h ⊢
  unfold Script.Starts
  rcases hn : s.slots slot with _ | node
  · have hby : getConnectionBySlot sc.net slot s = getRandomConnection sc.net s := by
      rw [getConnectionBySlot, bind_ok (get_run s), hn]
    rcases hrand : getRandomConnection sc.net s with ⟨e | _ | c, s₁⟩
    · rw [bind_error (hby.trans hrand)] at h
      cases h
    · obtain ⟨-, -, hnone, hiff⟩ := randomLoop_script 5 s hs none s₁ hrand
      rw [bind_ok (hby.trans hrand)] at h
      obtain ⟨hw, hnodes, -, hiff'⟩ := randomLoop_script 5 s₁ (hnone rfl) o s' h
      refine ⟨hw, hnodes, hiff'.trans ⟨?_, ?_⟩⟩
      · rintro ⟨j, hj, hp⟩
        exact ⟨0 + 5 + j, by omega, hp⟩
      · rintro ⟨j, hj, hp⟩
        by_cases hlt : j < 5
        · exact absurd rfl (hiff.2 ⟨j, hlt, by rwa [Nat.zero_add]⟩)
        · exact ⟨j - 5, by omega, by rwa [show 0 + 5 + (j - 5) = j by omega]⟩
    · obtain ⟨hw, hnodes, -, hiff⟩ := randomLoop_script 5 s hs (some c) s₁ hrand
      rw [bind_ok (hby.trans hrand)] at h
      cases h
      obtain ⟨j, hj, hp⟩ := hiff.1 (by simp)
      exact ⟨hw, hnodes, ⟨fun _ => ⟨j, by omega, by rwa [Nat.zero_add] at hp⟩, by simp⟩⟩
  · have hby : getConnectionBySlot sc.net slot s = getRedisLink sc.net node.host node.port s := by
      rw [getConnectionBySlot, bind_ok (get_run s), hn]
    rcases hlink : getRedisLink sc.net node.host node.port s with ⟨e | _ | c, s₁⟩
    · rw [bind_error (hby.trans hlink)] at h
      cases h
    · obtain ⟨hs₁, hiff⟩ := getRedisLink_script node.host node.port s hs none s₁ hlink
      rw [bind_ok (hby.trans hlink)] at h
      obtain ⟨hw, hnodes, -, hiff'⟩ := randomLoop_script 5 s₁ hs₁ o s' h
      simp only [Nat.zero_add] at hiff'
      refine ⟨hw, hnodes, hiff'.trans ⟨.inr, fun hor => hor.resolve_left fun hl => ?_⟩⟩
      exact hiff.2 hl rfl
    · obtain ⟨hs₁, hiff⟩ := getRedisLink_script node.host node.port s hs (some c) s₁ hlink
      rw [bind_ok (hby.trans hlink)] at h
      cases h
      exact ⟨by rw [hs₁.1], hs₁.2, ⟨fun _ => .inl (hiff.1 (by simp)), by simp⟩⟩

end Connections

/-! ## Following an error -/

/-- `cluster_error` by where it looks for a connection. -/
theorem clusterError_next {W : Type} {net : Net W} {err : Value} {P : St W → Prop} {Q : Option Conn → St W → Prop}
    (nowhere : nextOf err = some .nowhere → Ensures P (do record (.metric .error); pure none) Q)
    (anywhere : nextOf err = some .anywhere → Ensures P (getRandomConnection net) Q)
    (named : ∀ slot node ask, nextOf err = some (.at node ask) →
      Ensures P (do when (!ask) (moved slot node); followNode net node ask) Q) :
    Ensures P (clusterError net err) Q := by
  generalize hnext : nextOf err = next at nowhere anywhere named
  unfold nextOf at hnext
  unfold clusterError
  rcases hwords : stringSplit err.toStr (bytes " ") 0 with _ | words <;> rw [hwords] at hnext <;> dsimp only at hnext ⊢
  · exact Ensures.raise _
  · split_ifs at hnext ⊢
    · exact anywhere hnext.symm
    · exact nowhere hnext.symm
    · unfold redirect
      rcases hip : stringSplit words[2]? (bytes ":") 0 with _ | ipPort <;> rw [hip] at hnext <;> dsimp only at hnext ⊢
      · exact Ensures.raise _
      · rcases hport : ipPort[1]?.bind tonumber with _ | port <;> rw [hport] at hnext <;> dsimp only at hnext ⊢
        · exact Ensures.raise _
        · split_ifs at hnext ⊢
          · exact anywhere hnext.symm
          · exact named _ _ _ hnext.symm

end NgProxy.Cluster
