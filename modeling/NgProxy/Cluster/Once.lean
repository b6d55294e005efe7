/-
At most once: one call of `send_cluster_command` has its command executed by at most one backend,
at most once, whatever the network does. The loop sends again only after an answer that says the
command was not executed, and no error of the socket API can be taken for such an answer. What the
answer says is only as good as the connection: one that was put back with a reply half read delivers
the rest of that reply first, and the next command takes it for its own.
-/
import NgProxy.Cluster.Frame
import NgProxy.Cluster.ReadFault

namespace NgProxy.Cluster

open Lua Codec Prog Text

variable {W : Type}

/-! ## No socket error is a redirect -/

theorem firstWord_mem {t : Bytes} {b : UInt8} (h : b ∈ firstWord t) : b ∈ t :=
  (List.takeWhile_subset _) h

/-- Every redirect word has an upper-case letter. -/
theorem upper_of_redirect {t : Bytes} (h : firstWord t ∈ redirectWords) : 65 ∈ t ∨ 77 ∈ t := by
  simp only [redirectWords, List.mem_cons, List.not_mem_nil, or_false] at h
  rcases h with h | h | h
  · exact .inl (firstWord_mem (by rw [h]; decide))
  · exact .inl (firstWord_mem (by rw [h]; decide))
  · exact .inr (firstWord_mem (by rw [h]; decide))

theorem ErrText.no_redirect (e : ErrText) : firstWord e.text ∉ redirectWords := by
  intro h
  have hlow := List.all_eq_true.1 e.low
  rcases upper_of_redirect h with h | h
  · exact absurd (hlow _ h) (by decide)
  · exact absurd (hlow _ h) (by decide)

/-- If a decoded result sends the command again, it is an error line that starts with a redirect
word. -/
theorem redirect_of_decode {input : Bytes} {fault : ErrText} {ret : Ret} {s : Sock}
    (hd : decode ⟨input, fault.text⟩ = .ok (ret, s)) {t : Bytes} (ht : ret.err.toStr = some t)
    (hw : firstWord t ∈ redirectWords) : ret = ⟨.bool false, some typeErrorReply, .str t⟩ := by
  obtain ⟨-, herr, -⟩ := decode_err _ _ _ hd
  cases herr with
  | value v p => cases ht
  | line u => cases ht; rfl
  | socket p => cases ht; exact absurd hw fault.no_redirect
  | element p n hn =>
    cases ht
    rw [text_nat n (by omega)] at hw
    rcases upper_of_redirect hw with h | h
    · exact absurd (decimal_isDigit n _ h) (by decide)
    · exact absurd (decimal_isDigit n _ h) (by decide)
  | unknown p u =>
    cases ht
    have : firstWord (bytes "unkown prefix: \"" ++ u) = bytes "unkown" := by
      simp [firstWord, bytes]
    rw [this] at hw
    exact absurd hw (by decide)

/-! ## Executions -/

/-- The answers to the command, in order. -/
def answers (es : List Event) : List Answer :=
  es.filterMap fun e => match e with
    | .send _ .command _ a => some a
    | _ => none

/-- How often the command was executed. -/
def executions (as : List Answer) : Nat := as.countP (·.executed.isSome)

/-- A node that answers so has not executed the command. -/
def redirects : Reply → Bool
  | .error t => decide (firstWord t ∈ redirectWords)
  | _ => false

/-- What arrives is the backend's reply to this command, from its first byte on, or as much of it as
comes before the connection fails. An executed command is not answered with a redirect, and one that
was not executed with an error. -/
def Answer.Fresh (a : Answer) : Prop :=
  ∃ r : Reply, r.wf = true ∧ (∀ input fault, a.outcome = .reply input fault → input <+: r.bytes) ∧
    (a.executed = some r ∧ redirects r = false ∨ a.executed = none ∧ r.isError = true)

/-- What arrives begins with this reply. -/
def Answer.BeginsWith (a : Answer) (r : Reply) : Prop := ∃ rest fault, a.outcome = .reply (r.bytes ++ rest) fault

/-- The command was executed at most once, and exactly once if there is a result without error,
which is then the reply of the execution. -/
structure AtMostOnce (as : List Answer) (res : Except LuaError Ret) : Prop where
  once : executions as ≤ 1
  replied : ∀ ret, res = .ok ret → ret.err = .nil → ret.val.isNil = false →
    executions as = 1 ∧ ∃ a ∈ as, ∃ r, a.executed = some r ∧ ret = r.ret

/-- What is known of a call from the answers to its command: fresh ones make it right, and a value is
returned as soon as one begins with it. -/
structure Served (as : List Answer) (res : Except LuaError Ret) : Prop where
  fresh : (∀ a ∈ as, a.Fresh) → AtMostOnce as res
  first : ∀ a ∈ as, ∀ r : Reply, r.wf = true → r.isError = false → a.BeginsWith r → res = .ok r.ret

theorem answers_append (l m : List Event) : answers (l ++ m) = answers l ++ answers m := List.filterMap_append

theorem answers_mute {es : List Event} (h : ∀ e ∈ es, e.isCommand = false) : answers es = [] := by
  refine List.filterMap_eq_nil_iff.2 fun e he => ?_
  have hcmd := h e he
  split
  · cases hcmd
  · rfl

/-- The log grows, and by no command. -/
def Mute (s s' : St W) : Prop := ∃ es, s'.log = s.log ++ es ∧ ∀ e ∈ es, e.isCommand = false

instance : Frame (Mute (W := W)) where
  refl s := ⟨[], by simp, by simp⟩
  trans a b c := by
    rintro ⟨es, he, hes⟩ ⟨fs, hf, hfs⟩
    refine ⟨es ++ fs, by rw [hf, he, List.append_assoc], fun e h => ?_⟩
    rcases List.mem_append.1 h with h | h
    · exact hes e h
    · exact hfs e h
  move s w n es h := ⟨es, rfl, h⟩

/-! ## What an answer says -/

/-- The error of a result makes the loop try again. -/
def Retried (ret : Ret) : Prop := ∃ t, ret.err.toStr = some t ∧ firstWord t ∈ redirectWords

/-- A result that is retried, or has a value, was decoded from what arrived. -/
theorem decode_of_result {a : Answer} {ret : Ret} (hr : a.result = .ok ret)
    (h : Retried ret ∨ ret.val.isNil = false) :
    ∃ input fault s, a.outcome = .reply input fault ∧ decode ⟨input, fault.text⟩ = .ok (ret, s) := by
  unfold Answer.result at hr
  split at hr
  · rename_i e _
    cases hr
    rcases h with ⟨t, ht, hw⟩ | hv
    · cases ht
      exact absurd hw e.no_redirect
    · cases hv
  · rename_i input fault ho
    rcases hd : decode ⟨input, fault.text⟩ with e | ⟨d, s⟩ <;> rw [hd] at hr
    · cases hr
    · cases hr
      exact ⟨input, fault, s, ho, hd⟩

theorem Answer.Fresh.not_executed {a : Answer} (ha : a.Fresh) {ret : Ret} (hr : a.result = .ok ret)
    (hret : Retried ret) : a.executed = none := by
  obtain ⟨r, hw, hin, hex⟩ := ha
  obtain ⟨input, fault, s, ho, hd⟩ := decode_of_result hr (.inl hret)
  obtain ⟨t, ht, hword⟩ := hret
  have heq := redirect_of_decode hd ht hword
  have hreply := decode_front hw (hin input fault ho) hd (by rw [heq]; rfl)
  rcases hex with ⟨-, hno⟩ | ⟨hnone, -⟩
  · rw [hreply] at heq
    cases r with
    | error u =>
      cases heq
      exact absurd hword (of_decide_eq_false hno)
    | _ => cases heq
  · exact hnone

theorem Answer.Fresh.replied {a : Answer} (ha : a.Fresh) {ret : Ret} (hr : a.result = .ok ret) (he : ret.err = .nil)
    (hv : ret.val.isNil = false) : ∃ r, a.executed = some r ∧ ret = r.ret := by
  obtain ⟨r, hw, hin, hex⟩ := ha
  obtain ⟨input, fault, s, ho, hd⟩ := decode_of_result hr (.inr hv)
  have hreply := decode_front hw (hin input fault ho) hd hv
  rcases hex with ⟨hsome, -⟩ | ⟨-, herr⟩
  · exact ⟨r, hsome, hreply⟩
  · obtain ⟨t, rfl⟩ := r.eq_error herr
    rw [hreply] at he
    cases he

theorem Answer.BeginsWith.result {a : Answer} {r : Reply} (h : a.BeginsWith r) (hw : r.wf = true) :
    a.result = .ok r.ret := by
  obtain ⟨rest, fault, ho⟩ := h
  rw [Answer.result, ho]
  dsimp only
  rw [decode_bytes r hw]
  rfl

/-! ## The loop -/

theorem executions_one (a : Answer) : executions [a] ≤ 1 := List.countP_le_length

/-- No command has been answered, and there is no value. -/
theorem Served.nothing {res : Except LuaError Ret}
    (h : ∀ ret, res = .ok ret → ret.err = .nil → ret.val.isNil = true) : Served [] res where
  fresh _ := ⟨Nat.zero_le 1, fun ret hr he hv => absurd (hv.symm.trans (h ret hr he)) Bool.false_ne_true⟩
  first _ ha := absurd ha List.not_mem_nil

/-- The answer to the only command is returned. -/
theorem Served.answer (a : Answer) : Served [a] a.result where
  fresh ha := by
    refine ⟨executions_one a, fun ret hr he hv => ?_⟩
    obtain ⟨r, hex, hret⟩ := (ha a List.mem_cons_self).replied hr he hv
    exact ⟨by simp [executions, hex], a, List.mem_cons_self, r, hex, hret⟩
  first b hb r hw _ h := by
    rw [List.mem_singleton.1 hb] at h
    exact h.result hw

/-- The answer to the last command was an error, and there is no value. -/
theorem Served.failed {a : Answer} {ret : Ret} (ha : a.result = .ok ret)
    (hret : ¬ (ret.err = .nil ∧ ret.val.isNil = false)) {res : Except LuaError Ret}
    (h : ∀ ret, res = .ok ret → ret.val.isNil = true) : Served [a] res where
  fresh _ := ⟨executions_one a, fun ret hr _ hv => absurd (hv.symm.trans (h ret hr)) Bool.false_ne_true⟩
  first b hb r hw hr hbeg := by
    rw [List.mem_singleton.1 hb] at hbeg
    rw [hbeg.result hw] at ha
    cases ha
    obtain ⟨v, pre, heq, hv⟩ := r.ret_value hr
    exact absurd (by rw [heq]; exact ⟨rfl, hv⟩) hret

/-- An answer that makes the loop try again comes before what else there is. -/
theorem Served.cons {a : Answer} {ret : Ret} (ha : a.result = .ok ret) (hret : Retried ret) {as : List Answer}
    {res : Except LuaError Ret} (h : Served as res) : Served (a :: as) res where
  fresh hf := by
    have hnone := (hf a List.mem_cons_self).not_executed ha hret
    have hexec : executions (a :: as) = executions as := by simp [executions, hnone]
    obtain ⟨honce, hreplied⟩ := h.fresh fun b hb => hf b (List.mem_cons_of_mem _ hb)
    refine ⟨hexec ▸ honce, fun ret hr he hv => ?_⟩
    obtain ⟨hone, b, hb, hex⟩ := hreplied ret hr he hv
    exact ⟨hexec.trans hone, b, List.mem_cons_of_mem _ hb, hex⟩
  first b hb r hw hr hbeg := by
    rcases List.mem_cons.1 hb with rfl | hb
    · rw [hbeg.result hw] at ha
      cases ha
      obtain ⟨v, pre, heq, -⟩ := r.ret_value hr
      obtain ⟨t, ht, -⟩ := hret
      rw [heq] at ht
      cases ht
    · exact h.first b hb r hw hr hbeg

/-- What an attempt has done: the command was sent and answered, or nothing was sent at all. -/
theorem call_answers (net : Net W) {cmd : Command} (hk : method cmd.name ≠ .own) (r : Conn) (s : St W) :
    ∃ es, (cmd.call net r s).2.log = s.log ++ es ∧
      ((∃ a, answers es = [a] ∧ (cmd.call net r s).1 = a.result) ∨
        answers es = [] ∧ ((∃ e, (cmd.call net r s).1 = .error e) ∨ (cmd.call net r s).1 = .ok closedRet)) := by
  rcases call_cases net hk r s with ⟨e, hc⟩ | ⟨-, hc⟩ | ⟨-, req, hc⟩ <;> rw [hc]
  · exact ⟨[], by simp, .inr ⟨rfl, .inl ⟨e, rfl⟩⟩⟩
  · exact ⟨[], by simp, .inr ⟨rfl, .inr rfl⟩⟩
  · refine ⟨_, rfl, .inl ⟨(net.exchange .command r req s.world).1, ?_, rfl⟩⟩
    have hmute := answers_mute (Answer.reads_mute (net.exchange .command r req s.world).1 r)
    rw [← List.singleton_append, answers_append, hmute]
    rfl

/-- The loop, by induction on the attempts left: an attempt that is followed by another one was not
executed. -/
theorem sendLoop_served {net : Net W} {cmd : Command} (hk : method cmd.name ≠ .own) (n : Nat)
    (last : Option Nat × Value) (r : Conn) (s : St W) :
    ∃ es, (sendLoop net (cmd.call net) n last r s).2.log = s.log ++ es ∧
      Served (answers es) (sendLoop net (cmd.call net) n last r s).1 := by
  induction n generalizing last r s with
  | zero => exact ⟨[], by simp [sendLoop], .nothing fun ret h _ => by cases h; rfl⟩
  | succ n ih =>
    obtain ⟨es₁, hlog₁, hans⟩ := call_answers net hk r s
    rcases hc : cmd.call net r s with ⟨e | ret, s₁⟩ <;> rw [hc] at hlog₁ hans <;> dsimp only at hlog₁ hans
    · rw [sendLoop_raise net hc]
      refine ⟨es₁, hlog₁, ?_⟩
      rcases hans with ⟨a, ha, hr⟩ | ⟨ha, -⟩ <;> rw [ha]
      · rw [hr]
        exact .answer a
      · exact .nothing fun ret h => by cases h
    by_cases hval : ret.err = .nil ∧ ret.val.isNil = false
    · obtain ⟨v, pre, err⟩ := ret
      obtain ⟨rfl, hv⟩ := hval
      rw [sendLoop_value net hc hv]
      refine ⟨es₁ ++ [.keepalive r], by simp [hlog₁], ?_⟩
      have hmute : answers [.keepalive r] = [] := answers_mute (by simp [Event.isCommand])
      rw [answers_append, hmute, List.append_nil]
      rcases hans with ⟨a, ha, hr⟩ | ⟨-, ⟨e, h⟩ | h⟩
      · rw [ha, hr]
        exact .answer a
      · cases h
      · cases h
    · rw [sendLoop_error net hc hval]
      obtain ⟨es₂, hlog₂, hes₂⟩ : Mute _ _ :=
        clusterError_frame net (fun s _ _ _ => ⟨[], by simp, by simp⟩) ret.err (s₁.push [.keepalive r])
      have hstop := fun h => clusterError_stop net ret.err h (s₁.push [.keepalive r])
      generalize clusterError net ret.err (s₁.push [.keepalive r]) = out at hlog₂ hstop ⊢
      obtain ⟨res, s₂⟩ := out
      have hlog : s₂.log = s.log ++ (es₁ ++ .keepalive r :: es₂) := by
        rw [hlog₂, St.push_log, hlog₁]
        simp
      have hall : answers (es₁ ++ .keepalive r :: es₂) = answers es₁ := by
        have hmute : answers (.keepalive r :: es₂) = [] := answers_mute (List.forall_mem_cons.2 ⟨rfl, hes₂⟩)
        rw [answers_append, hmute, List.append_nil]
      -- without another attempt there is no value
      have hend {res : Except LuaError Ret} (h : ∀ ret, res = .ok ret → ret.val.isNil = true) :
          Served (answers es₁) res := by
        rcases hans with ⟨a, ha, hr⟩ | ⟨ha, -⟩ <;> rw [ha]
        · exact .failed hr.symm hval h
        · exact .nothing fun ret hr _ => h ret hr
      rcases res with e | _ | r'
      · exact ⟨_, hlog, hall ▸ hend fun ret h => by cases h⟩
      · exact ⟨_, hlog, hall ▸ hend fun ret h => by cases h; rfl⟩
      · have hret : Retried ret := by
          by_contra hno
          exact hstop (fun t ht hw => hno ⟨t, ht, hw⟩) r' rfl
        obtain ⟨es₃, hlog₃, hserved⟩ := ih (ret.pre, ret.err) r' s₂
        refine ⟨(es₁ ++ .keepalive r :: es₂) ++ es₃, by rw [hlog₃, hlog, List.append_assoc], ?_⟩
        rw [answers_append, hall]
        rcases hans with ⟨a, ha, hr⟩ | ⟨-, ⟨e, h⟩ | h⟩
        · rw [ha]
          exact hserved.cons hr.symm hret
        · cases h
        · -- a closed connection is no redirect
          cases h
          obtain ⟨t, ht, hw⟩ := hret
          cases ht
          exact absurd hw closedErr.no_redirect

/-- The log grows, and the network has answered every command in it. -/
def Answered (net : Net W) (s s' : St W) : Prop :=
  ∃ es, s'.log = s.log ++ es ∧ ∀ a ∈ answers es, ∃ c req w, a = (net.exchange .command c req w).1

instance (net : Net W) : Frame (Answered net) where
  refl s := ⟨[], by simp, by simp [answers]⟩
  trans a b c := by
    rintro ⟨es, he, hes⟩ ⟨fs, hf, hfs⟩
    refine ⟨es ++ fs, by rw [hf, he, List.append_assoc], fun a ha => ?_⟩
    rw [answers_append, List.mem_append] at ha
    exact ha.elim (hes a) (hfs a)
  move s w n es h := ⟨es, rfl, by simp [answers_mute h]⟩

theorem sendClusterCommand_answered (net : Net W) (ttl : Int) (slotid : Option SlotKey) (cmd : Command) (s : St W) :
    Answered net s (sendClusterCommand net ttl slotid cmd s).2 := by
  have hslots : Assigns (Answered net) := fun s _ _ _ => ⟨[], by simp, by simp [answers]⟩
  have hcommand : ∀ r req, Relates (Answered net) (exchange net .command r req) := by
    intro r req s
    unfold exchange
    split
    · exact Std.Refl.refl s
    · exact ⟨_, rfl, fun a ha => ⟨r, req, s.world, List.mem_singleton.1 ha⟩⟩
  exact sendClusterCommand_allowed net hslots hcommand ttl slotid cmd s

/-! ### A cluster that has moved the slot -/

/-- The node at port 2 has executed the command. -/
def done : Answer := ⟨.reply (Reply.int 7).bytes closedErr, some (.int 7)⟩

/-- Another node says where the slot is. -/
def refused : Answer := ⟨.reply (Reply.error (bytes "MOVED 5 a:2")).bytes closedErr, none⟩

def movingNet : Net Unit where
  connect _ _ w := (true, w)
  random _ w := (0, w)
  exchange p c _ w :=
    match p with
    | .command => if c.port = 2 then (done, w) else (refused, w)
    | _ => (⟨.reply (bytes "+PONG\r\n") closedErr, none⟩, w)

theorem movingNet_fresh (c : Conn) (req : Bytes) (w : Unit) : (movingNet.exchange .command c req w).1.Fresh := by
  simp only [movingNet]
  split
  · exact ⟨.int 7, by decide, fun _ _ h => by cases h; exact List.prefix_rfl, .inl ⟨rfl, rfl⟩⟩
  · exact ⟨.error (bytes "MOVED 5 a:2"), by decide, fun _ _ h => by cases h; exact List.prefix_rfl, .inr ⟨rfl, rfl⟩⟩

def incr : Command := ⟨bytes "INCR", [bytes "k"]⟩

def movingStart : St Unit := ⟨(), fun _ => some ⟨bytes "a", some (.int 1)⟩, [⟨bytes "a", some (.int 1)⟩], 0, []⟩

/-- A request on a connection that still has bytes unread: its reply comes behind them, so many bytes of
it only after the read has timed out. What `decode` leaves is unread then. -/
def answerBehind (unread : Bytes) (r : Reply) (late : Nat) : Answer × Bytes :=
  let fault := if late = 0 then closedErr else timedOut
  let arrived := unread ++ r.bytes.take (r.bytes.length - late)
  (⟨.reply arrived fault, some r⟩,
    (decode ⟨arrived, fault.text⟩).toOption.elim [] (·.2.input) ++ r.bytes.drop (r.bytes.length - late))

/-- One backend and one connection to it, which every call takes from the pool. The first command is
answered with a list of two strings, the second of which is late, all others with a string. -/
def pooledNet : Net (Nat × Bytes) where
  connect _ _ w := (true, w)
  random _ w := (0, w)
  exchange p _ _ w :=
    match p with
    | .command =>
      let r := if w.1 = 0 then Reply.array [.bulk (bytes "a"), .bulk (bytes "b")] else .bulk (bytes "v")
      let x := answerBehind w.2 r (if w.1 = 0 then (Reply.bulk (bytes "b")).bytes.length else 0)
      (x.1, w.1 + 1, x.2)
    | _ => (⟨.reply (bytes "+PONG\r\n") closedErr, none⟩, w)

def pooledStart : St (Nat × Bytes) :=
  ⟨(0, []), fun _ => some ⟨bytes "a", some (.int 1)⟩, [⟨bytes "a", some (.int 1)⟩], 0, []⟩

/-- The worker when `LRANGE` has timed out behind the first element. -/
def halfRead : Except LuaError Ret × St (Nat × Bytes) :=
  sendClusterCommand pooledNet 3 (some (.num (.int 5))) ⟨bytes "LRANGE", [bytes "l", bytes "0", bytes "1"]⟩ pooledStart

/-- The next call on the connection. -/
def nextCall : Except LuaError Ret × St (Nat × Bytes) :=
  sendClusterCommand pooledNet 3 (some (.num (.int 5))) ⟨bytes "GET", [bytes "k"]⟩ halfRead.2

end NgProxy.Cluster
