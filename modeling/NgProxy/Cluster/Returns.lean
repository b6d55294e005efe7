/-
`send_cluster_command` returns: what it logs says whether the backends' replies could be taken apart,
and if they could, the caller has an error line or a reply. Nothing is asked of replies to other commands
or on other connections.
-/
import NgProxy.Cluster.Kind

namespace NgProxy.Cluster

open Lua Codec Prog

variable {W : Type}

/-! ## The tables and the replies -/

/-- The tables of a worker name nodes that `connect` takes. -/
structure Usable (s : St W) : Prop where
  nodes : s.nodes ≠ []
  ports : ∀ node ∈ s.nodes, node.port ≠ none
  entries : ∀ j node, s.slots j = some node → node.port ≠ none

/-- The words of an error line, as `cluster_error` splits it. -/
def errorWords (t : Bytes) : List Bytes := splitLoop (bytes " ") 1000 t

/-- An error line `cluster_error` can take apart: a MOVED or ASK names an address with a number for its
port, and a MOVED to a port above 0 also a number for its slot. -/
def Parsable (t : Bytes) : Prop :=
  (errorWords t).head? = some (bytes "ASK") ∨ (errorWords t).head? = some (bytes "MOVED") →
    ∃ addr port, (errorWords t)[2]? = some addr ∧ (splitLoop (bytes ":") 1000 addr)[1]?.bind tonumber = some port ∧
      (port.nonPos = false → (errorWords t).head? = some (bytes "MOVED") →
        ∃ slot, (errorWords t)[1]?.bind tonumber = some slot ∧ slot ≠ .nan)

/-- The client's command is answered by a well-formed reply: one of `Q`, or an error line that can be
taken apart. What comes back for another request has only to be read to its end. -/
def Acceptable (Q : Reply → Prop) : Event → Prop
  | .send _ .command _ a =>
    ∃ r fault, a.outcome = .reply r.bytes fault ∧ r.wf = true ∧ (r.isError = false → Q r) ∧
      ∀ t, r = .error t → Parsable t
  | .send _ _ _ a => ∃ ret, a.result = .ok ret
  | _ => True

/-- What an attempt returns: a reply of `Q`, or an error line. -/
inductive Attempted (Q : Reply → Prop) : Ret → Prop
  | reply (r : Reply) (wf : r.wf = true) (value : r.isError = false) (suits : Q r) : Attempted Q r.ret
  | error (v : Value) (pre : Option Nat) (t : Bytes) (line : isLine t = true) (parsable : Parsable t) :
    Attempted Q ⟨v, pre, .str t⟩

/-- What `send_cluster_command` returns: a reply of `Q`, an error line, or nothing at all when the try
count allows no attempt. -/
inductive Returned (Q : Reply → Prop) : Ret → Prop
  | reply (r : Reply) (wf : r.wf = true) (value : r.isError = false) (suits : Q r) : Returned Q r.ret
  | error (pre : Option Nat) (t : Bytes) (line : isLine t = true) : Returned Q ⟨.nil, pre, .str t⟩
  | nothing : Returned Q ⟨.nil, none, .nil⟩

/-! ## Steps -/

section Steps

variable {Q : Reply → Prop} {φ : Prop} {α β : Type}

/-- Given `φ`, the program returns what is of `R` and leaves the tables usable, unless it logs a reply
that does not fit. -/
def Yields (Q : Reply → Prop) (φ : Prop) (x : Run W α) (R : α → Prop) : Prop :=
  Guarded St.log (Acceptable Q) (fun s => φ ∧ Usable s) x fun a s => R a ∧ Usable s

theorem Usable.of_tables {s s' : St W} (h : Usable s) (hnodes : s'.nodes = s.nodes) (hslots : s'.slots = s.slots) :
    Usable s' :=
  ⟨by rw [hnodes]; exact h.nodes, by rw [hnodes]; exact h.ports, by rw [hslots]; exact h.entries⟩

theorem Yields.pure {a : α} {R : α → Prop} (h : φ → R a) : Yields Q φ (pure a : Run W α) R :=
  Guarded.pure fun _ hs => ⟨h hs.1, hs.2⟩

theorem Yields.raise {e : LuaError} {R : α → Prop} (h : ¬ φ) : Yields Q φ (raise e : Run W α) R :=
  Guarded.raise fun _ hs => h hs.1

theorem Yields.get : Yields Q φ (get : Run W (St W)) fun s => φ ∧ Usable s :=
  Guarded.get.mono (fun _ hs => hs) fun _ _ h => ⟨h.1 ▸ h.2, h.2.2⟩

theorem Yields.bind {x : Run W α} {f : α → Run W β} {R : α → Prop} {R' : β → Prop} (hx : Yields Q φ x R)
    (hf : ∀ a, Yields Q (R a) (f a) R') : Yields Q φ (x >>= f) R' := Guarded.bind hx hf

theorem Yields.mono {x : Run W α} {ψ : Prop} {R R' : α → Prop} (hx : Yields Q φ x R) (hψ : ψ → φ)
    (hR : ∀ a, R a → R' a) :
    Yields Q ψ x R' :=
  Guarded.mono hx (fun _ hs => ⟨hψ hs.1, hs.2⟩) fun a _ h => ⟨hR a h.1, h.2⟩

/-- A step that leaves the tables alone. -/
theorem Yields.step {x : Run W α} {R : α → Prop}
    (h : ∀ s, ∃ es, (x s).2.log = s.log ++ es ∧ (x s).2.nodes = s.nodes ∧ (x s).2.slots = s.slots ∧
      (φ → Usable s → (∀ e ∈ es, Acceptable Q e) → ∃ a, (x s).1 = .ok a ∧ R a)) : Yields Q φ x R := by
  intro s
  obtain ⟨es, hlog, hnodes, hslots, hret⟩ := h s
  refine ⟨es, hlog, fun hs hfit => ?_⟩
  obtain ⟨a, ha, hR⟩ := hret hs.1 hs.2 hfit
  exact ⟨a, (x s).2, Prod.ext ha rfl, hR, hs.2.of_tables hnodes hslots⟩

theorem record_yields (e : Event) : Yields Q φ (record e : Run W Unit) fun _ => φ :=
  Yields.step fun _ => ⟨[e], rfl, rfl, rfl, fun hφ _ _ => ⟨(), rfl, hφ⟩⟩

end Steps

/-! ## Connections -/

section Connections

variable (net : Net W) {Q : Reply → Prop} {φ : Prop}

theorem dial_yields (host : Bytes) (port : Nat) : Yields Q φ (dial net host port) fun _ => φ := by
  refine Yields.step fun s => ?_
  unfold dial
  split
  · exact ⟨[], by simp, rfl, rfl, fun hφ _ _ => ⟨_, rfl, hφ⟩⟩
  · exact ⟨_, rfl, rfl, rfl, fun hφ _ _ => ⟨_, rfl, hφ⟩⟩

theorem getRedisLink_yields (host : Bytes) {port : Option Number} (hport : φ → port ≠ none) :
    Yields Q φ (getRedisLink net host port) fun _ => φ := by
  have hconnect : Yields Q φ (connect net host port) fun _ => φ := by
    unfold connect
    split
    · exact Yields.raise fun hφ => hport hφ rfl
    · split
      · exact Yields.pure fun hφ => hφ
      · exact dial_yields net host _
  refine hconnect.bind fun o => ?_
  cases o with
  | none => exact (record_yields _).bind fun _ => Yields.pure fun hφ => hφ
  | some r => exact Yields.pure fun hφ => hφ

/-- The answer to a command that fits is one of `Q`, or an error line. -/
theorem Acceptable.attempted {c : Conn} {p : Purpose} {req : Bytes} {a : Answer} (h : Acceptable Q (.send c p req a)) :
    ∃ ret, a.result = .ok ret ∧ (p = .command → Attempted Q ret) := by
  cases p with
  | command =>
    obtain ⟨r, fault, hr, hwf, hQ, hfollow⟩ := h
    have hdec := decode_bytes r hwf [] fault.text
    rw [List.append_nil] at hdec
    refine ⟨r.ret, by rw [Answer.result, hr]; dsimp only; rw [hdec]; rfl, fun _ => ?_⟩
    cases he : r.isError with
    | false => exact .reply r hwf he (hQ he)
    | true =>
      obtain ⟨t, rfl⟩ := Reply.eq_error he
      exact .error _ _ t hwf (hfollow t rfl)
  | probe => exact h.imp fun ret hret => ⟨hret, fun hp => by cases hp⟩
  | asking => exact h.imp fun ret hret => ⟨hret, fun hp => by cases hp⟩
  | discover => exact h.imp fun ret hret => ⟨hret, fun hp => by cases hp⟩

theorem parsable_of_word {t : Bytes} (h : (errorWords t).head? ∉ [some (bytes "ASK"), some (bytes "MOVED")]) :
    Parsable t :=
  fun hw => absurd (by simpa using hw) h

/-- A request is sent and its answer read, also on a connection that was closed. -/
theorem doCmd_yields (p : Purpose) (r : Conn) {args : List Bytes} (hargs : φ → args.length ≤ maxArgs) :
    Yields Q φ (doCmd net p r args) fun ret => φ ∧ (p = .command → Attempted Q ret) := by
  refine Yields.step fun s => ?_
  rcases hreq : wire (.tab (args.map .str)) (some typeMultiBulkReply) with e | req
  · rw [doCmd_raise net p r hreq]
    refine ⟨[], (List.append_nil _).symm, rfl, rfl, fun hφ _ _ => ?_⟩
    obtain ⟨req, hok⟩ := wire_strs (hargs hφ)
    rw [hok] at hreq
    cases hreq
  · cases hopen : s.isClosed r with
    | true =>
      rw [doCmd_closed net p hreq hopen]
      refine ⟨[], (List.append_nil _).symm, rfl, rfl, fun hφ _ _ => ⟨_, rfl, hφ, fun _ => ?_⟩⟩
      exact .error .nil (some 0) closedErr.text (by decide) (parsable_of_word (by decide))
    | false =>
      rw [doCmd_run net p hreq hopen]
      refine ⟨_, rfl, rfl, rfl, fun hφ _ hfit => ?_⟩
      obtain ⟨ret, hret, hcommand⟩ := (hfit _ (List.mem_cons_self ..)).attempted
      exact ⟨ret, hret, hφ, hcommand⟩

theorem mathRandom_yields {n : Nat} (hn : φ → 0 < n) : Yields Q φ (mathRandom net n) fun i => φ ∧ i < n :=
  Yields.step fun _ =>
    ⟨[], (List.append_nil _).symm, rfl, rfl, fun hφ _ _ => ⟨_, rfl, hφ, Nat.mod_lt _ (hn hφ)⟩⟩

theorem randomLoop_yields (n : Nat) : Yields Q φ (randomLoop net n) fun _ => φ := by
  induction n with
  | zero => exact Yields.pure fun hφ => hφ
  | succ n ih =>
    refine Yields.get.bind fun s => (mathRandom_yields net fun h => ?_).bind fun num => ?_
    · exact List.length_pos_of_ne_nil h.2.nodes
    split
    · rename_i hnum
      exact Yields.raise fun h => absurd (List.getElem?_eq_none_iff.1 hnum) (not_le.2 h.2)
    · rename_i node hnum
      refine (getRedisLink_yields net node.host fun h => h.1.2.ports node (List.mem_of_getElem? hnum)).bind fun o => ?_
      cases o with
      | none => exact ih.mono (fun h => h.1.1) fun _ h => h
      | some r =>
        refine (doCmd_yields net .probe r fun _ => by decide).bind fun ret => ?_
        split
        · exact Yields.pure fun h => h.1.1.1
        · exact (record_yields _).bind fun _ => ih.mono (fun h => h.1.1.1) fun _ h => h

theorem getConnectionBySlot_yields (slot : SlotKey) : Yields Q φ (getConnectionBySlot net slot) fun _ => φ := by
  refine Yields.get.bind fun s => ?_
  split
  · exact (randomLoop_yields net 5).mono (fun h => h.1) fun _ h => h
  · rename_i node hnode
    exact (getRedisLink_yields net node.host fun h => h.2.entries slot node hnode).mono (fun h => h) fun _ h => h.1

theorem firstConnection_yields (slotid : Option SlotKey) (key : Option Bytes) :
    Yields Q φ (firstConnection net slotid key) fun _ => φ := by
  have hslot : Yields Q φ (slotConnection net slotid key) fun _ => φ := by
    cases slotid with
    | none => exact getConnectionBySlot_yields net _
    | some slot => exact getConnectionBySlot_yields net slot
  refine hslot.bind fun o => ?_
  cases o with
  | none => exact randomLoop_yields net 5
  | some r => exact Yields.pure fun hφ => hφ

end Connections

/-! ## Redirects -/

section Redirects

variable (net : Net W) {Q : Reply → Prop} {φ : Prop}

/-- The entry a MOVED makes has a port. -/
theorem moved_yields {slot : Option Number} {node : Node} (hslot : φ → ∃ n, slot = some n ∧ n ≠ .nan)
    (hport : node.port ≠ none) : Yields Q φ (moved slot node : Run W Unit) fun _ => φ := by
  refine Yields.bind (R := fun _ => φ) ?_ fun _ => record_yields _
  unfold assignSlot
  split
  · refine Yields.raise fun hφ => ?_
    obtain ⟨n, hn, -⟩ := hslot hφ
    cases hn
  · refine Yields.raise fun hφ => ?_
    obtain ⟨n, hn, hnan⟩ := hslot hφ
    exact hnan (Option.some.inj hn).symm
  · refine fun s => ⟨[], (List.append_nil _).symm, fun hs _ => ⟨(), _, rfl, hs.1, hs.2.nodes, hs.2.ports, ?_⟩⟩
    intro j entry hentry
    dsimp only at hentry
    split at hentry
    · cases hentry
      exact hport
    · exact hs.2.entries j entry hentry

theorem followNode_yields {node : Node} (hport : node.port ≠ none) (ask : Bool) :
    Yields Q φ (followNode net node ask) fun _ => φ := by
  refine (getRedisLink_yields net node.host fun _ => hport).bind fun o => ?_
  cases o with
  | none => exact randomLoop_yields net 5
  | some r =>
    have hasking : Yields Q φ (asking net r) fun _ => φ :=
      (doCmd_yields net .asking r fun _ => by decide).bind fun _ => (record_yields _).mono (fun h => h.1) fun _ h => h
    refine Yields.bind (R := fun _ => φ) ?_ fun _ => Yields.pure fun hφ => hφ
    cases ask with
    | true => exact hasking
    | false => exact Yields.pure fun hφ => hφ

/-- A redirect to an address with a port, and with a slot if there is one to assign. -/
theorem redirect_yields {ask : Bool} {slot : Option Number} {address : Option Bytes}
    (h : φ → ∃ addr port, address = some addr ∧ (splitLoop (bytes ":") 1000 addr)[1]?.bind tonumber = some port ∧
      (port.nonPos = false → ask = false → ∃ n, slot = some n ∧ n ≠ .nan)) :
    Yields Q φ (redirect net ask slot address) fun _ => φ := by
  unfold redirect
  split
  · rename_i hnone
    refine Yields.raise fun hφ => ?_
    obtain ⟨addr, port, rfl, -⟩ := h hφ
    cases hnone
  rename_i parts hparts
  have hsplit : φ → ∃ port, parts[1]?.bind tonumber = some port ∧
      (port.nonPos = false → ask = false → ∃ n, slot = some n ∧ n ≠ .nan) := by
    intro hφ
    obtain ⟨addr, port, rfl, hport, hslot⟩ := h hφ
    obtain rfl : splitLoop (bytes ":") 1000 addr = parts := Option.some.inj hparts
    exact ⟨port, hport, hslot⟩
  split
  · rename_i hnone
    refine Yields.raise fun hφ => ?_
    obtain ⟨port, hport, -⟩ := hsplit hφ
    rw [hnone] at hport
    cases hport
  rename_i port hport
  split
  · exact randomLoop_yields net 5
  rename_i hpos
  refine Yields.bind (R := fun _ => φ) ?_ fun _ => followNode_yields net (Option.some_ne_none port) _
  cases ask with
  | true => exact Yields.pure fun hφ => hφ
  | false =>
    refine moved_yields (fun hφ => ?_) (Option.some_ne_none port)
    obtain ⟨port', hport', hslot⟩ := hsplit hφ
    rw [hport] at hport'
    cases hport'
    exact hslot (by simpa using hpos) rfl

/-- `cluster_error` returns for an error line that can be taken apart. -/
theorem clusterError_yields {err : Value} (herr : φ → ∃ t, err = .str t ∧ Parsable t) :
    Yields Q φ (clusterError net err) fun _ => φ := by
  unfold clusterError
  split
  · rename_i hnone
    refine Yields.raise fun hφ => ?_
    obtain ⟨t, rfl, -⟩ := herr hφ
    cases hnone
  rename_i words hwords
  split
  · exact randomLoop_yields net 5
  split
  · exact (record_yields _).bind fun _ => Yields.pure fun hφ => hφ
  rename_i hword
  have hredirect : words.head? = some (bytes "ASK") ∨ words.head? = some (bytes "MOVED") := by tauto
  refine redirect_yields net fun hφ => ?_
  obtain ⟨t, rfl, hparse⟩ := herr hφ
  obtain rfl : errorWords t = words := Option.some.inj hwords
  obtain ⟨addr, port, haddr, hport, hslot⟩ := hparse hredirect
  refine ⟨addr, port, haddr, hport, fun hpos hask => hslot hpos (hredirect.resolve_left ?_)⟩
  exact of_decide_eq_false hask

end Redirects

/-! ## The retry loop -/

section Loop

variable (net : Net W) {Q : Reply → Prop} {φ : Prop}

/-- What the loop returns when it has used up its attempts. -/
def LastError (last : Option Nat × Value) : Prop := last = (none, .nil) ∨ ∃ t, isLine t = true ∧ last.2 = .str t

theorem sendLoop_yields {call : Conn → Run W Ret} (hcall : ∀ r, Yields Q φ (call r) fun ret => φ ∧ Attempted Q ret)
    (n : Nat) : ∀ last r, Yields Q (φ ∧ LastError last) (sendLoop net call n last r) (Returned Q) := by
  induction n with
  | zero =>
    rintro ⟨pre, err⟩ r
    refine Yields.pure ?_
    rintro ⟨-, hlast | ⟨t, line, rfl⟩⟩
    · cases hlast
      exact .nothing
    · exact .error pre t line
  | succ n ih =>
    intro last r
    refine ((hcall r).mono (fun h => h.1) fun _ h => h).bind fun ret => (record_yields _).bind fun _ => ?_
    split
    · rename_i hval
      refine Yields.pure ?_
      rintro ⟨-, hatt⟩
      cases hatt with
      | reply q wf value suits =>
        obtain ⟨v, pre, hret, -⟩ := Reply.ret_value value
        rw [show (⟨q.ret.val, q.ret.pre, .nil⟩ : Ret) = q.ret by rw [hret]]
        exact .reply q wf value suits
      | error v pre t line parsable => cases hval.1
    · rename_i hval
      -- only an error line comes here
      have herr : φ ∧ Attempted Q ret → ∃ t, isLine t = true ∧ ret.err = .str t ∧ Parsable t := by
        rintro ⟨-, hatt⟩
        cases hatt with
        | reply q wf value suits =>
          obtain ⟨v, pre, hret, hv⟩ := Reply.ret_value value
          exact absurd ⟨by rw [hret]; rfl, by rw [hret]; simp [hv]⟩ hval
        | error v pre t line parsable => exact ⟨t, line, rfl, parsable⟩
      refine (clusterError_yields net fun h => ?_).bind fun o => ?_
      · obtain ⟨t, -, ht, hfollow⟩ := herr h
        exact ⟨t, ht, hfollow⟩
      cases o with
      | none =>
        refine Yields.pure fun h => ?_
        obtain ⟨t, line, ht, -⟩ := herr h
        rw [ht]
        exact .error ret.pre t line
      | some r' =>
        refine (ih (ret.pre, ret.err) r').mono (fun h => ⟨h.1, .inr ?_⟩) fun _ h => h
        obtain ⟨t, line, ht, -⟩ := herr h
        exact ⟨t, line, ht⟩

/-- `send_cluster_command` has a result for a command that is forwarded, if the tables are usable and the
replies it gets on the way fit. -/
theorem sendClusterCommand_yields (ttl : Int) (slotid : Option SlotKey) {cmd : Command} (hf : cmd.Forwarded) :
    Yields Q True (sendClusterCommand net ttl slotid cmd) (Returned Q) := by
  have hlen : (cmd.name :: cmd.args).length ≤ maxArgs := hf.short
  have hcall (r : Conn) : Yields Q True (cmd.call net r) fun ret => True ∧ Attempted Q ret := by
    rw [call_known net hf.known hf.fields]
    exact (doCmd_yields net .command r fun _ => hlen).mono (fun h => h) fun _ h => ⟨trivial, h.2 rfl⟩
  refine (firstConnection_yields net slotid _).bind fun o => ?_
  cases o with
  | none => exact Yields.pure fun _ => .error _ timeoutErr (by decide)
  | some r => exact (sendLoop_yields net hcall _ _ r).mono (fun h => ⟨h, .inl rfl⟩) fun _ h => h

end Loop

end NgProxy.Cluster
