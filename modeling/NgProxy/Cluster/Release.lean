/-
Connections are opened in several places of `send_cluster_command` and given back in others. Along a
call at most one connection is held, the one the next attempt will use; every other one has been passed
to `set_keepalive` or `close`. One path breaks the discipline: `cluster_error` opens a connection for the
last redirect too, when no attempt is left, and nobody gives it back.
-/
import NgProxy.Cluster.Script

namespace NgProxy.Cluster

open Lua Codec Prog

variable {W : Type}

/-! ## Connections in a log -/

/-- The connection an event is about. -/
def Event.conn : Event → Option Conn
  | .connect c => some c
  | .send c _ _ _ => some c
  | .read c _ => some c
  | .keepalive c => some c
  | .close c => some c
  | .metric _ => none

/-- The connection was passed to `set_keepalive` or `close`. -/
def Released (c : Conn) (es : List Event) : Prop := .keepalive c ∈ es ∨ .close c ∈ es

/-- Opened and not given back. -/
def Leaks (es : List Event) (c : Conn) : Prop := .connect c ∈ es ∧ ¬ Released c es

/-- No command is sent on a connection that was given back. -/
def InOrder (es : List Event) : Prop := ∀ l c req a, l ++ [.send c .command req a] <+: es → ¬ Released c l

def Event.opens (c : Conn) : Event → Bool
  | .connect c' => c' == c
  | _ => false

def Event.givesBack (c : Conn) : Event → Bool
  | .keepalive c' => c' == c
  | .close c' => c' == c
  | _ => false

theorem opens_iff {c : Conn} {e : Event} : e.opens c = true ↔ e = .connect c := by
  cases e <;> simp [Event.opens]

theorem givesBack_iff {c : Conn} {e : Event} : e.givesBack c = true ↔ e = .keepalive c ∨ e = .close c := by
  cases e <;> simp [Event.givesBack]

theorem any_givesBack_iff {c : Conn} {es : List Event} : es.any (Event.givesBack c) = true ↔ Released c es := by
  simp only [List.any_eq_true, givesBack_iff, Released]
  grind

theorem any_opens_iff {c : Conn} {es : List Event} : es.any (Event.opens c) = true ↔ .connect c ∈ es := by
  simp only [List.any_eq_true, opens_iff, exists_eq_right]

instance (c : Conn) (es : List Event) : Decidable (Released c es) := decidable_of_iff _ any_givesBack_iff

instance (es : List Event) (c : Conn) : Decidable (Leaks es c) :=
  decidable_of_iff (es.any (Event.opens c) = true ∧ ¬ Released c es) (and_congr_left' any_opens_iff)

theorem released_append {c : Conn} {es fs : List Event} : Released c (es ++ fs) ↔ Released c es ∨ Released c fs := by
  simp only [Released, List.mem_append]
  exact or_or_or_comm

theorem InOrder.snoc {es : List Event} (h : InOrder es) {e : Event}
    (he : ∀ c req a, e = .send c .command req a → ¬ Released c es) : InOrder (es ++ [e]) := by
  intro l c req a hp hr
  rcases List.prefix_concat_iff.1 hp with heq | hp
  · obtain ⟨rfl, hlast⟩ := List.append_inj' heq rfl
    exact he c req a (List.singleton_inj.1 hlast).symm hr
  · exact h l c req a hp hr

theorem InOrder.mute {es : List Event} (h : InOrder es) {fs : List Event} (hfs : ∀ e ∈ fs, e.isCommand = false) :
    InOrder (es ++ fs) := by
  induction fs using List.reverseRecOn with
  | nil => rwa [List.append_nil]
  | append_singleton fs e ih =>
    rw [← List.append_assoc]
    refine (ih fun x hx => hfs x (List.mem_append_left _ hx)).snoc ?_
    rintro c req a rfl
    cases hfs _ (List.mem_append_right _ (List.mem_singleton.2 rfl))

/-! ## Holding one connection -/

/-- All connections so far have been given back, but `r`. -/
structure Holding (es : List Event) (k : Nat) (r : Option Conn) : Prop where
  known : ∀ e ∈ es, ∀ c, e.conn = some c → c.id < k
  tidy : ∀ c, .connect c ∈ es → r = some c ∨ Released c es
  held : ∀ c, r = some c → .connect c ∈ es ∧ ¬ Released c es
  order : InOrder es

theorem Holding.leaks_iff {es : List Event} {k : Nat} {r : Option Conn} (h : Holding es k r) (c : Conn) :
    Leaks es c ↔ r = some c :=
  ⟨fun hl => (h.tidy c hl.1).resolve_right hl.2, h.held c⟩

theorem Holding.nil (k : Nat) : Holding [] k none where
  known := by simp
  tidy := by simp
  held := by simp
  order l c req a h := absurd (List.prefix_nil.1 h) (by simp)

/-- A new connection is unknown so far. -/
theorem Holding.connect {es : List Event} {k : Nat} (h : Holding es k none) (host : Bytes) (port : Nat) :
    Holding (es ++ [.connect ⟨k, host, port⟩]) (k + 1) (some ⟨k, host, port⟩) where
  known e he c hc := by
    rcases List.mem_append.1 he with he | he
    · exact Nat.lt_succ_of_lt (h.known e he c hc)
    · rw [List.mem_singleton.1 he] at hc
      cases hc
      exact Nat.lt_succ_self k
  tidy c hc := by
    rcases List.mem_append.1 hc with hc | hc
    · rcases h.tidy c hc with hr | hr
      · cases hr
      · exact .inr (released_append.2 (.inl hr))
    · rw [List.mem_singleton] at hc
      cases hc
      exact .inl rfl
  held c hr := by
    cases hr
    refine ⟨List.mem_append_right _ (List.mem_singleton.2 rfl), fun hrel => ?_⟩
    -- what was given back so far has an identifier below `k`
    rcases released_append.1 hrel with (hrel | hrel) | hrel
    · exact absurd (h.known _ hrel _ rfl) (Nat.lt_irrefl k)
    · exact absurd (h.known _ hrel _ rfl) (Nat.lt_irrefl k)
    · simp [Released] at hrel
  order := h.order.snoc fun c req a he => by cases he

/-- The event is about a known connection, or none, and opens none. -/
def Minor (k : Nat) (e : Event) : Prop := (∀ c, e ≠ .connect c) ∧ ∀ c, e.conn = some c → c.id < k

/-- What happens on known connections leaves the connection held that was, unless it is given back. -/
theorem Holding.append {es fs : List Event} {k : Nat} {r r' : Option Conn} (h : Holding es k r)
    (hfs : ∀ e ∈ fs, Minor k e) (horder : InOrder (es ++ fs))
    (hr : ∀ c, r' = some c ↔ r = some c ∧ ¬ Released c fs) : Holding (es ++ fs) k r' where
  known e he c hc := (List.mem_append.1 he).elim (fun he => h.known e he c hc) fun he => (hfs e he).2 c hc
  tidy c hc := by
    rcases List.mem_append.1 hc with hc | hc
    · rw [released_append]
      rcases h.tidy c hc with heq | hrel
      · by_cases hrel : Released c fs
        · exact .inr (.inr hrel)
        · exact .inl ((hr c).2 ⟨heq, hrel⟩)
      · exact .inr (.inl hrel)
    · exact absurd rfl ((hfs _ hc).1 c)
  held c heq := by
    obtain ⟨heq, hno⟩ := (hr c).1 heq
    obtain ⟨hopen, hheld⟩ := h.held c heq
    exact ⟨List.mem_append_left _ hopen, fun hrel => (released_append.1 hrel).elim hheld hno⟩
  order := horder

section Rules

variable {es fs : List Event} {k : Nat} {r : Option Conn} {c : Conn}

theorem Holding.known_conn (h : Holding es k (some c)) : c.id < k := h.known _ (h.held c rfl).1 c rfl

theorem Holding.metric (h : Holding es k r) (m : Metric) : Holding (es ++ [.metric m]) k r := by
  refine h.append ?_ (h.order.snoc fun c req a he => by cases he) fun c => by simp [Released]
  intro e he
  rw [List.mem_singleton.1 he]
  exact ⟨fun c => Event.noConfusion, fun c hc => by cases hc⟩

/-- Nothing is held once the connection has been given back. -/
theorem Holding.release (h : Holding es k r) (hr : ∀ c, r = some c → Released c fs) (hfs : ∀ e ∈ fs, Minor k e)
    (horder : InOrder (es ++ fs)) : Holding (es ++ fs) k none :=
  h.append hfs horder fun c => ⟨fun hc => absurd hc (Option.some_ne_none c).symm, fun hc => absurd (hr c hc.1) hc.2⟩

theorem reads_minor {a : Answer} (hc : c.id < k) : ∀ e ∈ a.reads c, Minor k e := by
  intro e he
  rcases a.reads_cases c he with ⟨ret, rfl⟩ | rfl
  all_goals exact ⟨fun c' => Event.noConfusion, fun c' h => by cases h; exact hc⟩

theorem sent_minor {p : Purpose} {req : Bytes} {a : Answer} (hc : c.id < k) :
    ∀ e ∈ .send c p req a :: a.reads c, Minor k e := by
  intro e he
  rcases List.mem_cons.1 he with rfl | he
  · exact ⟨fun c' => Event.noConfusion, fun c' h => by cases h; exact hc⟩
  · exact reads_minor hc e he

/-- A request gives its connection back if its answer times out. -/
theorem released_sent {p : Purpose} {req : Bytes} {a : Answer} {c' : Conn} :
    Released c' (.send c p req a :: a.reads c) ↔ c' = c ∧ .close c ∈ a.reads c := by
  have hread {e : Event} (he : e ∈ a.reads c) (hc : e = .keepalive c' ∨ e = .close c') :
      c' = c ∧ .close c ∈ a.reads c := by
    rcases a.reads_cases c he with ⟨ret, rfl⟩ | rfl
    · rcases hc with hc | hc <;> cases hc
    · rcases hc with hc | hc <;> cases hc
      exact ⟨rfl, he⟩
  constructor
  · rintro (h | h)
    · exact hread ((List.mem_cons.1 h).resolve_left Event.noConfusion) (.inl rfl)
    · exact hread ((List.mem_cons.1 h).resolve_left Event.noConfusion) (.inr rfl)
  · rintro ⟨rfl, h⟩
    exact .inr (List.mem_cons_of_mem _ h)

theorem sent_mute {p : Purpose} (hp : p ≠ .command) {req : Bytes} {a : Answer} :
    ∀ e ∈ .send c p req a :: a.reads c, e.isCommand = false := by
  intro e he
  rcases List.mem_cons.1 he with rfl | he
  · cases p with
    | command => exact absurd rfl hp
    | probe => rfl
    | asking => rfl
    | discover => rfl
  · exact a.reads_mute c e he

/-- A request other than the command: its connection is held afterwards unless the answer times out. -/
theorem Holding.request (h : Holding es k (some c)) {p : Purpose} (hp : p ≠ .command) (req : Bytes) {a : Answer}
    {r' : Option Conn} (hr : ∀ c', r' = some c' ↔ c = c' ∧ .close c ∉ a.reads c) :
    Holding (es ++ .send c p req a :: a.reads c) k r' := by
  refine h.append (sent_minor h.known_conn) (h.order.mute (sent_mute hp)) fun c' => ?_
  rw [hr, released_sent, Option.some.injEq]
  constructor
  · rintro ⟨rfl, hno⟩
    exact ⟨rfl, fun hc => hno hc.2⟩
  · rintro ⟨rfl, hno⟩
    exact ⟨rfl, fun hc => hno ⟨rfl, hc⟩⟩

/-- The command, and `set_keepalive` after it. -/
theorem Holding.command (h : Holding es k (some c)) (req : Bytes) (a : Answer) :
    Holding (es ++ (.send c .command req a :: a.reads c ++ [.keepalive c])) k none := by
  have hsend : InOrder (es ++ [.send c .command req a]) := by
    refine h.order.snoc fun c' req' a' he hrel => ?_
    cases he
    exact (h.held c rfl).2 hrel
  have hmute : ∀ e ∈ a.reads c ++ [.keepalive c], e.isCommand = false := by
    intro e he
    rcases List.mem_append.1 he with he | he
    · exact a.reads_mute c e he
    · rw [List.mem_singleton.1 he]
      rfl
  refine h.release (fun c' hc => ?_) (fun e he => ?_) ?_
  · cases hc
    exact .inl (by simp)
  · rcases List.mem_append.1 he with he | he
    · exact sent_minor h.known_conn e he
    · rw [List.mem_singleton.1 he]
      exact ⟨fun c' => Event.noConfusion, fun c' hc => by cases hc; exact h.known_conn⟩
  · simpa using hsend.mute hmute

/-- Giving a connection back. -/
theorem Holding.giveBack (h : Holding es k r) (hr : ∀ c', r = some c' → c' = c) (hc : c.id < k) {e : Event}
    (he : e = .keepalive c ∨ e = .close c) : Holding (es ++ [e]) k none := by
  have hminor : Minor k e ∧ Released c [e] := by
    rcases he with rfl | rfl
    · exact ⟨⟨fun c' => Event.noConfusion, fun c' h => by cases h; exact hc⟩, .inl (List.mem_singleton.2 rfl)⟩
    · exact ⟨⟨fun c' => Event.noConfusion, fun c' h => by cases h; exact hc⟩, .inr (List.mem_singleton.2 rfl)⟩
  refine h.release (fun c' hc' => by rw [hr c' hc']; exact hminor.2) (fun x hx => ?_)
    (h.order.snoc fun c' req a heq => ?_)
  · rw [List.mem_singleton.1 hx]
    exact hminor.1
  · rw [heq] at he
    rcases he with he | he <;> cases he

end Rules

/-! ## Programs that hold one connection -/

/-- Since the log was `base`, all connections but `r` have been given back. -/
def Held (base : List Event) (r : Option Conn) (s : St W) : Prop :=
  ∃ es, s.log = base ++ es ∧ Holding es s.nextConn r

section Programs

variable {base : List Event} {net : Net W}

theorem Held.push {r r' : Option Conn} {s : St W} {fs : List Event} (h : Held base r s)
    (hold : ∀ es, Holding es s.nextConn r → Holding (es ++ fs) s.nextConn r') : Held base r' (s.push fs) := by
  obtain ⟨es, hlog, hes⟩ := h
  exact ⟨es ++ fs, by rw [St.push_log, hlog, List.append_assoc], hold es hes⟩

theorem Held.known_conn {c : Conn} {s : St W} (h : Held base (some c) s) : c.id < s.nextConn := by
  obtain ⟨es, -, hold⟩ := h
  exact hold.known_conn

theorem metric_held (r : Option Conn) (m : Metric) :
    Ensures (Held base r) (record (.metric m) : Run W Unit) fun _ => Held base r :=
  Ensures.modify fun _ h => h.push fun _ hold => hold.metric m

theorem getRedisLink_held (host : Bytes) (port : Option Number) :
    Ensures (Held base none) (getRedisLink net host port) fun r => Held base r := by
  have hdial (port : Nat) : Ensures (Held base none) (dial net host port) fun r => Held base r := by
    rintro s ⟨es, hlog, hold⟩ r s' h
    unfold dial at h
    rcases hc : net.connect host port s.world with ⟨_ | _, w⟩ <;> rw [hc] at h <;> cases h
    · exact ⟨es, hlog, hold⟩
    · refine ⟨es ++ [.connect ⟨s.nextConn, host, port⟩], ?_, hold.connect host port⟩
      show s.log ++ _ = _
      rw [hlog, List.append_assoc]
  have hconnect : Ensures (Held base none) (connect net host port) fun r => Held base r := by
    unfold connect
    split
    · exact Ensures.raise _
    · split
      · exact Ensures.pure fun _ h => h
      · exact hdial _
  refine hconnect.bind fun r => ?_
  cases r with
  | none => exact (metric_held none .error).bind fun _ => Ensures.pure fun _ h => h
  | some c => exact Ensures.pure fun _ h => h

/-- `ping` on a new connection: it is held if the answer is PONG, and given back by `close`. -/
theorem probe_held (c : Conn) (args : List Bytes) :
    Ensures (Held base (some c)) (doCmd net .probe c args) fun ret (s : St W) =>
      (∀ t, ret.val.eqStr t = true → Held base (some c) s) ∧ Held base none (s.push [.close c]) := by
  intro s hs ret s' h
  rcases doCmd_cases net .probe c args s with ⟨e, hc⟩ | ⟨-, hc⟩ | ⟨-, req, hc⟩ <;> rw [hc] at h
  · cases h
  · cases h
    exact ⟨fun _ _ => hs,
      hs.push fun _ hold => hold.giveBack (fun _ h => (Option.some.inj h).symm) hs.known_conn (.inr rfl)⟩
  · obtain ⟨hret, rfl⟩ := Prod.mk.inj h
    have hsent (r' : Option Conn) (hr : ∀ c', r' = some c' ↔
        c = c' ∧ .close c ∉ (net.exchange .probe c req s.world).1.reads c) :
        Held base r' (s.sent net .probe c req) :=
      Held.push (s := { s with world := _ }) hs fun es hold => hold.request (by decide) req hr
    constructor
    · intro t ht
      -- a value was read, so there was no timeout
      exact hsent _ fun c' => by simp [reads_value hret ht c]
    · by_cases hclose : .close c ∈ (net.exchange .probe c req s.world).1.reads c
      · refine (hsent none fun c' => by simp [hclose]).push fun es hold => ?_
        exact hold.giveBack (fun _ h => by cases h) hs.known_conn (.inr rfl)
      · refine (hsent (some c) fun c' => by simp [hclose]).push fun es hold => ?_
        exact hold.giveBack (fun _ h => (Option.some.inj h).symm) hs.known_conn (.inr rfl)

theorem randomLoop_held (m : Nat) : Ensures (Held base none) (randomLoop net m) fun r => Held base r := by
  induction m with
  | zero => exact Ensures.pure fun _ h => h
  | succ m ih =>
    have hrandom (k : Nat) : Ensures (Held base none) (mathRandom net k) fun _ => Held base none := by
      rintro s hs _ _ ⟨⟩
      exact hs
    refine Ensures.get.bind fun t => (hrandom _).bind fun i => ?_
    split
    · exact Ensures.raise _
    · refine (getRedisLink_held _ _).bind fun r => ?_
      cases r with
      | none => exact ih
      | some c =>
        refine (probe_held c _).bind fun ret => ?_
        split
        · rename_i hpong
          exact Ensures.pure fun s h => h.1 _ hpong
        · -- no PONG: the connection is closed and another node tried
          exact Ensures.bind (Q := fun _ => Held base none) (Ensures.modify fun _ h => h.2) fun _ => ih

theorem firstConnection_held (slotid : Option SlotKey) (key : Option Bytes) :
    Ensures (Held base none) (firstConnection net slotid key) fun r => Held base r := by
  have hbySlot (slot : SlotKey) : Ensures (Held base none) (getConnectionBySlot net slot) fun r => Held base r := by
    refine Ensures.get.bind fun t => ?_
    split
    · exact randomLoop_held 5
    · exact getRedisLink_held _ _
  have hslot : Ensures (Held base none) (slotConnection net slotid key) fun r => Held base r := by
    cases slotid with
    | none => exact hbySlot _
    | some slot => exact hbySlot slot
  refine hslot.bind fun r => ?_
  cases r with
  | none => exact randomLoop_held 5
  | some c => exact Ensures.pure fun _ h => h

end Programs

/-! ## Following a redirect -/

theorem foldl_closing {r : Conn} {fs : List Event} (hno : .connect r ∉ fs) (b : Bool) (h : b = true ∨ .close r ∈ fs) :
    fs.foldl (Event.closing r) b = true := by
  induction fs generalizing b with
  | nil => simpa using h
  | cons e fs ih =>
    rw [List.mem_cons, not_or] at hno
    refine ih hno.2 _ ?_
    rcases h with rfl | h
    · left
      cases e with
      | connect c =>
        have hne : c ≠ r := fun h => hno.1 (by rw [h])
        simpa [Event.closing] using hne
      | _ => simp [Event.closing]
    · rcases List.mem_cons.1 h with rfl | h
      · exact .inl (by simp [Event.closing])
      · exact .inr h

/-- A timeout closes the connection. -/
theorem St.isClosed_reads (s : St W) {c : Conn} {p : Purpose} {req : Bytes} {a : Answer} (h : .close c ∈ a.reads c)
    (m : Metric) : (s.push (.send c p req a :: a.reads c ++ [.metric m])).isClosed c = true := by
  unfold St.isClosed closedBy
  rw [St.push_log, List.foldl_append]
  refine foldl_closing ?_ _ (.inr (by simp [h]))
  simp only [List.cons_append, List.mem_cons, reduceCtorEq, List.mem_append, false_or, List.not_mem_nil, or_false]
  intro hc
  rcases a.reads_cases c hc with ⟨ret, hr⟩ | hr <;> cases hr

theorem timesOut_iff (a : Answer) (c : Conn) : .close c ∈ a.reads c ↔ a.TimesOut := by
  unfold Answer.reads Answer.TimesOut
  rcases ho : a.outcome with e | ⟨input, fault⟩
  · simp
  · dsimp only
    rcases hd : decode ⟨input, fault.text⟩ with e | ⟨ret, s⟩
    · constructor
      · intro h
        cases h
      · rintro ⟨_, _, ret, s, ⟨⟩, hd', -⟩
        rw [hd] at hd'
        cases hd'
    · constructor
      · intro h
        refine ⟨input, fault, ret, s, rfl, hd, (Value.eqStr_iff _ _).1 ?_⟩
        by_contra hno
        simp [hno] at h
      · rintro ⟨_, _, ret', s', ⟨⟩, hd', htime⟩
        rw [hd] at hd'
        cases hd'
        simp [htime, Value.eqStr]

section Follow

variable {base : List Event} {sc : Script} {nodes : List Node} {i : Nat}

/-- What `cluster_error` leaves: a connection that is open and held, or one that is closed and was given
back, or none. Which of these it is depends on whether the phase has one. -/
inductive Followed (base : List Event) (leads : Prop) : Option Conn → St (Nat × Nat) → Prop
  | none {s : St (Nat × Nat)} (held : Held base none s) (no : ¬ leads) : Followed base leads none s
  | opened {c : Conn} {s : St (Nat × Nat)} (held : Held base (some c) s) (isOpen : s.isClosed c = false) (yes : leads) :
      Followed base leads (some c) s
  | closed {c : Conn} {s : St (Nat × Nat)} (held : Held base none s) (isClosed : s.isClosed c = true)
      (known : c.id < s.nextConn) (no : ¬ leads) : Followed base leads (some c) s

/-- The tries at random nodes. -/
theorem random_followed {leads : Prop} (hleads : leads ↔ ∃ k < 5, sc.Pongs nodes i k) :
    Ensures (fun s => Held base none s ∧ At nodes i 0 s) (getRandomConnection sc.net) fun o s =>
      (s.world.1 = i ∧ s.nodes = nodes) ∧ Followed base leads o s := by
  rintro s ⟨hheld, hat⟩ o s' h
  obtain ⟨hw, hn, -, hiff⟩ := randomLoop_script 5 s hat o s' h
  have hheld' := randomLoop_held 5 s hheld o s' h
  have hopen := getRandomConnection_opened (P := fun _ => True) sc.net s trivial o s' h
  simp only [Nat.zero_add] at hiff
  rw [← hleads] at hiff
  refine ⟨⟨hw, hn⟩, ?_⟩
  cases o with
  | none => exact .none hheld' fun hl => hiff.2 hl rfl
  | some c => exact .opened hheld' (hopen c rfl) (hiff.1 (by simp))

/-- After `asking` the connection is open, or it timed out and was closed, but is returned all the same. -/
theorem asking_followed {c : Conn} {s s' : St (Nat × Nat)} (hheld : Held base (some c) s) (hat : At nodes i 0 s)
    (hopen : s.isClosed c = false) {leads : Prop} (hleads : leads ↔ ¬ (sc.asked i).TimesOut)
    (h : asking sc.net c s = (.ok (), s')) : (s'.world.1 = i ∧ s'.nodes = nodes) ∧ Followed base leads (some c) s' := by
  unfold asking at h
  rcases hask : doCmd sc.net .asking c [bytes "asking"] s with ⟨e | ret, s₁⟩
  · rw [bind_error hask] at h
    cases h
  · obtain ⟨hat₁, -, req, rfl⟩ := doCmd_script (by decide) c _ hat hopen hask
    rw [bind_ok hask, record_run, St.push_push] at h
    cases h
    have hanswer : (sc.net.exchange .asking c [] (i, 0)).1 = sc.asked i := rfl
    rw [hanswer]
    have hsent (r' : Option Conn) (hr : ∀ c', r' = some c' ↔ c = c' ∧ .close c ∉ (sc.asked i).reads c) :
        Held base r' (s.push (.send c .asking req (sc.asked i) :: (sc.asked i).reads c ++ [.metric .ask])) :=
      hheld.push fun es hold => by simpa using (hold.request (by decide) req hr).metric .ask
    refine ⟨⟨congrArg Prod.fst hat₁.1, hat₁.2⟩, ?_⟩
    by_cases htime : (sc.asked i).TimesOut
    · have hclose := (timesOut_iff (sc.asked i) c).2 htime
      exact .closed (hsent _ fun c' => by simp [hclose]) (s.isClosed_reads hclose .ask) hheld.known_conn
        fun hl => hleads.1 hl htime
    · have hclose := (timesOut_iff (sc.asked i) c).not.2 htime
      exact .opened (hsent _ fun c' => by simp [hclose]) (St.isClosed_push hopen (by simpa using hclose))
        (hleads.2 htime)

theorem followNode_followed (node : Node) (ask : Bool) {leads : Prop}
    (hleads : leads ↔ sc.Links i node ∧ (ask = true → ¬ (sc.asked i).TimesOut) ∨
      ¬ sc.Links i node ∧ ∃ k < 5, sc.Pongs nodes i k) :
    Ensures (fun s => Held base none s ∧ At nodes i 0 s) (followNode sc.net node ask) fun o s =>
      (s.world.1 = i ∧ s.nodes = nodes) ∧ Followed base leads o s := by
  rintro s ⟨hheld, hat⟩ o s' h
  unfold followNode at h
  rcases hlink : getRedisLink sc.net node.host node.port s with ⟨e | _ | c, s₁⟩
  · rw [bind_error hlink] at h
    cases h
  · obtain ⟨hat₁, hiff⟩ := getRedisLink_script node.host node.port s hat none s₁ hlink
    have hno : ¬ sc.Links i node := fun hl => hiff.2 hl rfl
    rw [bind_ok hlink] at h
    exact random_followed (by simp [hleads, hno]) s₁ ⟨getRedisLink_held _ _ s hheld _ _ hlink, hat₁⟩ o s' h
  · obtain ⟨hat₁, hiff⟩ := getRedisLink_script node.host node.port s hat (some c) s₁ hlink
    have hlinks : sc.Links i node := hiff.1 (by simp)
    have hopen := getRedisLink_opened (P := fun _ => True) sc.net node.host node.port s trivial _ s₁ hlink c rfl
    have hheld₁ := getRedisLink_held _ _ s hheld _ _ hlink
    rw [bind_ok hlink] at h
    dsimp only at h
    cases ask with
    | false =>
      rw [when_false, bind_ok (pure_run () s₁), pure_run] at h
      cases h
      exact ⟨⟨congrArg Prod.fst hat₁.1, hat₁.2⟩, .opened hheld₁ hopen (hleads.2 (.inl ⟨hlinks, fun h => by cases h⟩))⟩
    | true =>
      rw [when_true] at h
      rcases hask : asking sc.net c s₁ with ⟨e | _, s₂⟩
      · rw [bind_error hask] at h
        cases h
      · rw [bind_ok hask, pure_run] at h
        cases h
        exact asking_followed hheld₁ hat₁ hopen (by simp [hleads, hlinks]) hask

theorem clusterError_followed (err : Value) :
    Ensures (fun s => Held base none s ∧ At nodes i 0 s) (clusterError sc.net err) fun o s =>
      (s.world.1 = i ∧ s.nodes = nodes) ∧ Followed base (sc.Leads nodes i err) o s := by
  refine clusterError_next (fun hnext => ?_) (fun hnext => ?_) fun slot node ask hnext => ?_
  · rintro s ⟨hheld, hat⟩ o s' h
    rw [bind_ok (record_run _ _), pure_run] at h
    cases h
    refine ⟨⟨congrArg Prod.fst hat.1, hat.2⟩, .none (hheld.push fun _ hold => hold.metric _) ?_⟩
    simp [Script.Leads, hnext]
  · exact random_followed (by simp [Script.Leads, hnext])
  · have hassign : Ensures (fun s => Held base none s ∧ At nodes i 0 s) (moved slot node : Run (Nat × Nat) Unit)
        fun _ s => Held base none s ∧ At nodes i 0 s := by
      refine Ensures.bind (Q := fun _ s => Held base none s ∧ At nodes i 0 s) ?_ fun _ => ?_
      · unfold assignSlot
        split
        · exact Ensures.raise _
        · exact Ensures.raise _
        · exact Ensures.modify fun _ h => h
      · exact Ensures.modify fun _ h => ⟨h.1.push fun _ hold => hold.metric _, h.2⟩
    refine (Ensures.when hassign fun _ h => h).bind fun _ => ?_
    exact followNode_followed node ask (by simp [Script.Leads, hnext])

/-! ## The loop -/

/-- The command of an attempt on an open connection, and `set_keepalive` after it. -/
theorem call_script {cmd : Command} (hk : method cmd.name ≠ .own) {c : Conn} {s s' : St (Nat × Nat)} {ret : Ret}
    (hheld : Held base (some c) s) (hopen : s.isClosed c = false) (hw : s.world.1 = i) (hn : s.nodes = nodes)
    (h : cmd.call sc.net c s = (.ok ret, s')) :
    (sc.reply i).result = .ok ret ∧ Held base none (s'.push [.keepalive c]) ∧
      At nodes (i + 1) 0 (s'.push [.keepalive c]) := by
  rcases call_cases sc.net hk c s with ⟨e, hc⟩ | ⟨hclosed, -⟩ | ⟨-, req, hc⟩
  · rw [hc] at h
    cases h
  · rw [hopen] at hclosed
    cases hclosed
  · rw [hc] at h
    obtain ⟨hret, rfl⟩ := Prod.mk.inj h
    have hreply : (sc.net.exchange .command c req s.world).1 = sc.reply i := by
      rw [← hw]
      rfl
    rw [hreply] at hret
    refine ⟨hret, ?_, ?_, hn⟩
    · rw [St.sent, St.push_push]
      exact Held.push (s := { s with world := _ }) hheld fun es hold => hold.command req _
    · show (s.world.1 + 1, 0) = _
      rw [hw]

/-- On a closed connection the loop ends at once, with nothing held. -/
theorem sendLoop_closed {cmd : Command} (hk : method cmd.name ≠ .own) (m : Nat) (last : Option Nat × Value) {c : Conn}
    {s s' : St (Nat × Nat)} {ret : Ret} (hheld : Held base none s) (hclosed : s.isClosed c = true)
    (hc : c.id < s.nextConn) (h : sendLoop sc.net (cmd.call sc.net) m last c s = (.ok ret, s')) :
    Held base none s' := by
  cases m with
  | zero =>
    cases h
    exact hheld
  | succ m =>
    rcases call_cases sc.net hk c s with ⟨e, hcall⟩ | ⟨-, hcall⟩ | ⟨hopen, -⟩
    · rw [sendLoop_raise sc.net hcall] at h
      cases h
    · have hword : firstWord closedErr.text ∉ redirectWords := by decide
      rw [sendLoop_error sc.net hcall (fun h => by cases h.1), closedRet, clusterError_other sc.net _ hword] at h
      cases h
      refine Held.push (hheld.push fun es hold => ?_) fun es hold => hold.metric _
      exact hold.giveBack (fun _ h => by cases h) hc (.inl rfl)
    · rw [hclosed] at hopen
      cases hopen

/-- The loop, by induction on the attempts left: a connection is held at its end exactly if all of them
were answered by a redirect that led to another connection. -/
theorem sendLoop_held {cmd : Command} (hk : method cmd.name ≠ .own) (m : Nat) (last : Option Nat × Value) {c : Conn}
    {s s' : St (Nat × Nat)} {ret : Ret} (hheld : Held base (some c) s) (hopen : s.isClosed c = false)
    (hw : s.world.1 = i) (hn : s.nodes = nodes) (h : sendLoop sc.net (cmd.call sc.net) m last c s = (.ok ret, s')) :
    (∃ c', Held base (some c') s') ∧ (∀ j < m, sc.Redirected nodes (i + j)) ∨
      Held base none s' ∧ ¬ ∀ j < m, sc.Redirected nodes (i + j) := by
  induction m generalizing i last c s with
  | zero =>
    cases h
    exact .inl ⟨⟨c, hheld⟩, fun j hj => absurd hj (Nat.not_lt_zero j)⟩
  | succ m ih =>
    rcases hcall : cmd.call sc.net c s with ⟨e | r, s₁⟩
    · rw [sendLoop_raise sc.net hcall] at h
      cases h
    obtain ⟨hret, hheld₁, hat₁⟩ := call_script hk hheld hopen hw hn hcall
    have hthis : sc.Redirected nodes i ↔ sc.Leads nodes (i + 1) r.err := by
      refine ⟨?_, fun hl => ⟨r, hret, hl⟩⟩
      rintro ⟨r', hret', hl⟩
      rw [hret] at hret'
      cases hret'
      exact hl
    have hfirst (hno : ¬ sc.Leads nodes (i + 1) r.err) : ¬ ∀ j < m + 1, sc.Redirected nodes (i + j) :=
      fun hall => hno (hthis.1 (hall 0 (Nat.succ_pos m)))
    by_cases hval : r.err = .nil ∧ r.val.isNil = false
    · obtain ⟨v, pre, err⟩ := r
      obtain ⟨rfl, hv⟩ := hval
      rw [sendLoop_value sc.net hcall hv] at h
      cases h
      exact .inr ⟨hheld₁, hfirst id⟩
    · rw [sendLoop_error sc.net hcall hval] at h
      rcases hce : clusterError sc.net r.err (s₁.push [.keepalive c]) with ⟨e | o, s₂⟩ <;> rw [hce] at h
      · cases h
      obtain ⟨⟨hw₂, hn₂⟩, hfollowed⟩ := clusterError_followed r.err _ ⟨hheld₁, hat₁⟩ o s₂ hce
      cases hfollowed with
      | none hheld₂ hno =>
        cases h
        exact .inr ⟨hheld₂, hfirst hno⟩
      | closed hheld₂ hclosed hknown hno =>
        exact .inr ⟨sendLoop_closed hk m _ hheld₂ hclosed hknown h, hfirst hno⟩
      | opened hheld₂ hopen₂ hyes =>
        have hrest : (∀ j < m, sc.Redirected nodes (i + 1 + j)) ↔ ∀ j < m + 1, sc.Redirected nodes (i + j) := by
          constructor
          · rintro hall (_ | j) hj
            · exact hthis.2 hyes
            · have := hall j (by omega)
              rwa [Nat.add_assoc, Nat.add_comm 1 j] at this
          · intro hall j hj
            have := hall (j + 1) (by omega)
            rwa [Nat.add_assoc, Nat.add_comm 1 j]
        rw [← hrest]
        exact ih (r.pre, r.err) hheld₂ hopen₂ hw₂ hn₂ h

end Follow

/-- Whenever a call of `send_cluster_command` returns, the connections it has opened have been given
back, unless there was a connection to start with and each of its `T + 1` attempts was answered by a
redirect for which another connection was found: then the last of these is not given back. No command is
sent on a connection that was. -/
theorem connections_released (sc : Script) (T : Nat) (slotid : Option SlotKey) (cmd : Command)
    (hk : method cmd.name ≠ .own) (s s' : St (Nat × Nat)) (hw : s.world = (0, 0)) (ret : Ret)
    (h : sendClusterCommand sc.net T slotid cmd s = (.ok ret, s')) :
    ∃ es, s'.log = s.log ++ es ∧
      ((∃ c, Leaks es c) ↔ sc.Starts s.nodes (s.slots (slotid.getD (redisSlot cmd.args.head?))) ∧
        ∀ i ≤ T, sc.Redirected s.nodes i) ∧
      (∀ c c', Leaks es c → Leaks es c' → c = c') ∧ InOrder es := by
  have hstart : Held s.log none s := ⟨[], by simp, Holding.nil _⟩
  have hresult : (∃ c, Held s.log (some c) s') ∧ (sc.Starts s.nodes (s.slots (slotid.getD (redisSlot cmd.args.head?))) ∧
      ∀ i ≤ T, sc.Redirected s.nodes i) ∨ Held s.log none s' ∧
      ¬ (sc.Starts s.nodes (s.slots (slotid.getD (redisSlot cmd.args.head?))) ∧ ∀ i ≤ T, sc.Redirected s.nodes i) := by
    unfold sendClusterCommand sendCall at h
    rcases hfirst : firstConnection sc.net slotid cmd.args.head? s with ⟨e | o, s₁⟩
    · rw [bind_error hfirst] at h
      cases h
    obtain ⟨hw₁, hn₁, hiff⟩ := firstConnection_script slotid cmd.args.head? ⟨hw, rfl⟩ hfirst
    have hheld := firstConnection_held slotid cmd.args.head? s hstart o s₁ hfirst
    have hopen := firstConnection_opened (P := fun _ => True) sc.net slotid cmd.args.head? s trivial o s₁ hfirst
    rw [bind_ok hfirst] at h
    cases o with
    | none =>
      cases h
      exact .inr ⟨hheld, fun hall => hiff.2 hall.1 rfl⟩
    | some c =>
      have hstarts := hiff.1 (by simp)
      have hloop := sendLoop_held hk (T + 1) (none, .nil) hheld (hopen c rfl) hw₁ hn₁ h
      simp only [Nat.zero_add, Nat.lt_succ_iff] at hloop
      rcases hloop with ⟨hc, hall⟩ | ⟨hnone, hno⟩
      · exact .inl ⟨hc, hstarts, hall⟩
      · exact .inr ⟨hnone, fun hall => hno hall.2⟩
  rcases hresult with ⟨⟨c, es, hlog, hold⟩, hyes⟩ | ⟨⟨es, hlog, hold⟩, hno⟩
  · refine ⟨es, hlog, iff_of_true ⟨c, (hold.leaks_iff c).2 rfl⟩ hyes, fun c₁ c₂ h₁ h₂ => ?_, hold.order⟩
    exact Option.some.inj (((hold.leaks_iff c₁).1 h₁).symm.trans ((hold.leaks_iff c₂).1 h₂))
  · have hnone : ∀ c, ¬ Leaks es c := fun c hl => by cases (hold.leaks_iff c).1 hl
    exact ⟨es, hlog, iff_of_false (fun ⟨c, hc⟩ => hnone c hc) hno, fun c _ hc => absurd hc (hnone c), hold.order⟩

/-- Every connect succeeds, and the first command is answered by a redirect, later ones by OK. -/
def bounce : Script where
  link _ := true
  draw _ _ := 0
  tries _ _ := none
  asked _ := ⟨.reply (bytes "+OK\r\n") closedErr, none⟩
  reply i := if i = 0 then ⟨.reply (bytes "-MOVED 1 b:2\r\n") closedErr, none⟩
    else ⟨.reply (bytes "+OK\r\n") closedErr, some (.status (bytes "OK"))⟩

def bounceStart : St (Nat × Nat) := ⟨(0, 0), fun _ => some ⟨bytes "a", some (.int 1)⟩, [], 0, []⟩

def bounceCmd : Command := ⟨bytes "GET", [bytes "k"]⟩

theorem bounce_ok : ∃ ret, (bounce.reply 1).result = .ok ret ∧ ret.err = .nil := ⟨_, rfl, rfl⟩

theorem connections_released_moved : ∃ ret s',
    sendClusterCommand bounce.net (1 : Nat) (some (.num (.int 1))) bounceCmd bounceStart = (.ok ret, s') ∧
      ∀ c, ¬ Leaks s'.log c := by
  have hrun : passes (fun ret => ret.err.isNil)
      (sendClusterCommand bounce.net (1 : Nat) (some (.num (.int 1))) bounceCmd bounceStart) = true := by decide +kernel
  obtain ⟨ret, hr, -⟩ := exists_of_passes hrun
  refine ⟨ret, _, hr, fun c hc => ?_⟩
  obtain ⟨es, hlog, hleaks, -⟩ := connections_released _ _ _ _ (by decide) _ _ rfl _ hr
  rw [hlog] at hc
  -- the second reply is no redirect
  obtain ⟨r, hres, hlead⟩ := (hleaks.1 ⟨c, hc⟩).2 1 le_rfl
  obtain ⟨r', hres', hnil⟩ := bounce_ok
  rw [hres'] at hres
  cases hres
  rw [hnil] at hlead
  exact hlead

/-- Without a second attempt the connection opened for `MOVED` stays open. -/
theorem connection_leaks :
    ∃ ret s', sendClusterCommand bounce.net (0 : Nat) (some (.num (.int 1))) bounceCmd bounceStart = (.ok ret, s') ∧
      Leaks s'.log ⟨1, bytes "b", 2⟩ := by
  have hmoved : passes (fun _ => true)
      (sendClusterCommand bounce.net (0 : Nat) (some (.num (.int 1))) bounceCmd bounceStart) = true := by decide +kernel
  obtain ⟨ret, hr, -⟩ := exists_of_passes hmoved
  exact ⟨ret, _, hr, by decide +kernel⟩

end NgProxy.Cluster
