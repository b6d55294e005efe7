/-
Which connections are open: a new one is, and so is one whose `ping` was answered. Only reading an answer
can close a connection that is still to be used, when it times out.
-/
import NgProxy.Cluster.Frame
import NgProxy.Codec.Fault

namespace NgProxy.Cluster

open Lua Codec Prog

variable {W : Type}

/-! ## Closing events -/

theorem closedBy_connect (r : Conn) (es : List Event) : closedBy r (es ++ [.connect r]) = false := by
  simp [closedBy, Event.closing]

theorem closing_open {r : Conn} {e : Event} (h : .close r ≠ e) : e.closing r false = false := by
  cases e with
  | close c =>
    refine beq_eq_false_iff_ne.2 ?_
    rintro rfl
    exact h rfl
  | _ => rfl

theorem closedBy_append {r : Conn} {es fs : List Event} (h : closedBy r es = false) (hfs : .close r ∉ fs) :
    closedBy r (es ++ fs) = false := by
  rw [closedBy, List.foldl_append, ← closedBy, h]
  clear h
  induction fs with
  | nil => rfl
  | cons e fs ih =>
    rw [List.mem_cons, not_or] at hfs
    rw [List.foldl_cons, closing_open hfs.1]
    exact ih hfs.2

theorem St.isClosed_push {s : St W} {r : Conn} (h : s.isClosed r = false) {es : List Event} (hes : .close r ∉ es) :
    (s.push es).isClosed r = false := closedBy_append h hes

/-- A connection that was just opened. -/
theorem St.isClosed_connect {s : St W} {r : Conn} {es : List Event} (h : s.log = es ++ [.connect r]) :
    s.isClosed r = false := by
  rw [St.isClosed, h]
  exact closedBy_connect r es

/-- A value is no timeout. -/
theorem reads_value {a : Answer} {ret : Ret} (h : a.result = .ok ret) {t : Bytes} (ht : ret.val.eqStr t = true)
    (c : Conn) : .close c ∉ a.reads c := by
  intro hc
  unfold Answer.reads at hc
  unfold Answer.result at h
  split at hc
  · cases hc
  · rename_i input fault ho
    rw [ho] at h
    dsimp only at h
    split at hc
    · cases hc
    · rename_i d hd
      rw [hd] at h
      obtain rfl : d.1 = ret := Except.ok.inj h
      obtain ⟨-, herr, -⟩ := decode_err _ _ _ hd
      generalize d.1 = ret at herr ht hc
      cases herr with
      | value v p => simp [Value.eqStr] at hc
      | line u => cases ht
      | socket p => cases ht
      | element p n hn => cases ht
      | unknown p u => cases ht

/-! ## Choosing a connection -/

/-- The connection that was chosen, if any, is open. -/
def Opened (o : Option Conn) (s : St W) : Prop := ∀ r, o = some r → s.isClosed r = false

section Choosing

variable (net : Net W) {P : St W → Prop}

theorem opened_none (s : St W) : Opened none s := fun _ h => by cases h

theorem getRedisLink_opened (host : Bytes) (port : Option Number) :
    Ensures P (getRedisLink net host port) Opened := by
  have hdial (port : Nat) : Ensures P (dial net host port) Opened := by
    intro s _ o s' h
    unfold dial at h
    split at h <;> cases h
    · exact opened_none _
    · rintro r ⟨⟩
      exact St.isClosed_connect rfl
  have hconnect : Ensures P (connect net host port) Opened := by
    unfold connect
    split
    · exact Ensures.raise _
    · split
      · exact Ensures.pure fun s _ => opened_none s
      · exact hdial _
  refine hconnect.bind fun o => ?_
  cases o with
  | none => exact fun s _ o s' h => by cases h; exact opened_none _
  | some r => exact Ensures.pure fun _ h => h

/-- A request whose answer is a value leaves the connection open. -/
theorem doCmd_opened (p : Purpose) (r : Conn) (args : List Bytes) :
    Ensures (Opened (some r)) (doCmd net p r args) fun ret (s : St W) =>
      ∀ t, ret.val.eqStr t = true → Opened (some r) s := by
  intro s hs ret s' h t ht
  rcases doCmd_cases net p r args s with ⟨e, hc⟩ | ⟨-, hc⟩ | ⟨-, req, hc⟩ <;> rw [hc] at h
  · cases h
  · cases h
    cases ht
  · obtain ⟨hret, rfl⟩ := Prod.mk.inj h
    rintro _ ⟨⟩
    refine St.isClosed_push (s := { s with world := _ }) (hs r rfl) ?_
    rw [List.mem_cons, not_or]
    exact ⟨Event.noConfusion, reads_value hret ht r⟩

theorem randomLoop_opened (n : Nat) : Ensures P (randomLoop net n) Opened := by
  induction n generalizing P with
  | zero => exact Ensures.pure fun s _ => opened_none s
  | succ n ih =>
    have hrandom (k : Nat) : Ensures P (mathRandom net k) fun _ _ => True := fun _ _ _ _ _ => trivial
    refine Ensures.get.bind fun s => (hrandom _).bind fun num => ?_
    split
    · exact Ensures.raise _
    · refine (getRedisLink_opened net _ _).bind fun o => ?_
      cases o with
      | none => exact ih
      | some r =>
        refine (doCmd_opened net .probe r _).bind fun ret => ?_
        split
        · rename_i hpong
          exact Ensures.pure fun s h => h _ hpong
        · exact Ensures.bind (Q := fun _ _ => True) (fun _ _ _ _ _ => trivial) fun _ => ih

theorem getRandomConnection_opened : Ensures P (getRandomConnection net) Opened := randomLoop_opened net 5

theorem getConnectionBySlot_opened (slot : SlotKey) : Ensures P (getConnectionBySlot net slot) Opened := by
  refine Ensures.get.bind fun s => ?_
  split
  · exact getRandomConnection_opened net
  · exact getRedisLink_opened net _ _

theorem firstConnection_opened (slotid : Option SlotKey) (key : Option Bytes) :
    Ensures P (firstConnection net slotid key) Opened := by
  have hslot : Ensures P (slotConnection net slotid key) Opened := by
    cases slotid with
    | none => exact getConnectionBySlot_opened net _
    | some slot => exact getConnectionBySlot_opened net slot
  refine hslot.bind fun o => ?_
  cases o with
  | none => exact getRandomConnection_opened net
  | some r => exact Ensures.pure fun _ h => h

end Choosing

end NgProxy.Cluster
