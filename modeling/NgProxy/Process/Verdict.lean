/-
What a multi-key command reports when some of its sub-requests fail. The parent waits in pool order
and stops at the first thread that failed, so the client is told of success exactly when all have
succeeded, and of the first failure in that order otherwise. What the other sub-requests have done is
not undone: an MSET whose last key has no value is refused by one slot and executed by the others.
-/
import NgProxy.Process.MSet
import NgProxy.Process.Replies

namespace NgProxy.Process

open Lua Codec Cluster GroupBy Pool

/-! ## Outcomes -/

/-- What `send_cluster_command` returns for an outcome: the results of a reply, or an error. -/
inductive Shows : Except Bytes Reply → Ret → Prop
  | reply (r : Reply) : Shows (.ok r) r.ret
  | error (e : Bytes) (val : Value) (pre : Option Nat) : Shows (.error e) ⟨val, pre, .str e⟩

/-- The error of an outcome. -/
def failure : Except Bytes Reply → Option Bytes
  | .ok _ => none
  | .error e => some e

/-- How a thread ends by the outcome of its sub-request. -/
structure Reports {τ σ : Type} (body : Worker σ τ) (Q : Reply → Prop) : Prop where
  error : ∀ g val pre e m, (body.finish g (.ok ⟨val, pre, .str e⟩) m).1 = .ok ⟨lhlhError, pre, .str e⟩
  reply : ∀ g r m, Q r → (body.finish g (.ok r.ret) m).1 = .ok ⟨lhlhOk, r.ret.pre, .nil⟩

section Outcomes

variable {σ τ : Type} {send : Send σ} {P : σ → Prop} {cmd : Bytes} {Q : Reply → Prop} {out : Part → Except Bytes Reply}

variable (send P cmd Q out) in
/-- The sub-requests of `parts` have the outcomes `out`, the successful ones replies of `Q`. -/
def Settled (parts : List Part) : Prop :=
  ∀ g ∈ parts, (∀ r, out g = .ok r → r.wf = true ∧ Q r) ∧
    ∀ w, P w → ∃ ret w', subRequest send g.1 cmd g.2 w = (.ok ret, w') ∧ P w' ∧ Shows (out g) ret

/-- A settled thread: how it ends is known. -/
theorem Settled.ends {parts : List Part} (h : Settled send P cmd Q out parts) {body : Worker σ τ}
    (hcall : ∀ g w, body.call g w = subRequest send g.1 cmd g.2 w) (hrep : Reports body Q) {g : Part} (hg : g ∈ parts)
    {w : σ} (hw : P w) :
    P (body.call g w).2 ∧
      ((∃ r, out g = .ok r ∧ (body.call g w).1 = .ok r.ret ∧ r.wf = true ∧ Q r ∧
          ∀ m, (body.finish g (body.call g w).1 m).1 = .ok ⟨lhlhOk, r.ret.pre, .nil⟩) ∨
        ∃ e pre, out g = .error e ∧
          ∀ m, (body.finish g (body.call g w).1 m).1 = .ok ⟨lhlhError, pre, .str e⟩) := by
  obtain ⟨hok, hrun⟩ := h g hg
  obtain ⟨ret, w', hsub, hw', hshows⟩ := hrun w hw
  rw [hcall, hsub]
  refine ⟨hw', ?_⟩
  generalize hout : out g = o at hshows
  cases hshows with
  | reply r =>
    obtain ⟨hwf, hQ⟩ := hok r hout
    exact .inl ⟨r, rfl, rfl, hwf, hQ, fun m => hrep.reply g r m hQ⟩
  | error e val pre => exact .inr ⟨e, pre, rfl, fun m => hrep.error g val pre e m⟩

theorem findSome?_of_find? {α β : Type} {f : α → Option β} {l : List α} {a : α}
    (h : l.find? (fun a => !(f a).isNone) = some a) : l.findSome? f = f a := by
  induction l with
  | nil => cases h
  | cons b l ih =>
    cases hb : f b with
    | none => exact (List.findSome?_cons_of_isNone (by simp [hb])).trans (ih (by simpa [hb] using h))
    | some c =>
      have hba : b = a := by simpa [hb] using h
      rw [← hba, List.findSome?_cons_of_isSome (by simp [hb])]

/-- A failure is reported, and it is the first one in pool order. -/
theorem threadWait_failure {pool : List Part} (h : Settled send P cmd Q out pool) {body : Worker σ τ}
    (hcall : ∀ g w, body.call g w = subRequest send g.1 cmd g.2 w) (hrep : Reports body Q) (steps : Nat → List Nat)
    (m : τ) {w : σ} (hw : P w) {e : Bytes} (he : pool.findSome? (fun g => failure (out g)) = some e) :
    ∃ st s, threadWait body pool steps w m = (st, s) ∧ st.rc ≠ lhlhOk ∧ st.err = .str e := by
  have hne : lhlhError ≠ lhlhOk := by decide
  -- a thread ends well exactly if its sub-request has not failed
  have hverdict : ∀ g ∈ pool, ∀ w m, P w →
      endedWell (body.finish g (body.call g w).1 m).1 = (failure (out g)).isNone := by
    intro g hg w m hw
    obtain ⟨-, ⟨r, hout, -, -, -, hfin⟩ | ⟨e, pre, hout, hfin⟩⟩ := h.ends hcall hrep hg hw
    · rw [hfin, hout]
      rfl
    · rw [hfin, hout]
      rfl
  obtain ⟨g₀, hg₀, hfail₀⟩ := List.exists_of_findSome?_eq_some he
  obtain ⟨g, w', m', s, hfind, hw', hjoin⟩ := join_first endedWell steps m hw
    (fun g hg w hw => (h.ends hcall hrep hg hw).1) hverdict ⟨g₀, hg₀, by rw [hfail₀]; rfl⟩
  -- the thread the waiting stops at is the first one in the pool that has failed
  have hfirst : failure (out g) = some e := (findSome?_of_find? hfind).symm.trans he
  obtain ⟨-, ⟨r, hout, -⟩ | ⟨e', pre, hout, hfin⟩⟩ := h.ends hcall hrep (List.mem_of_find?_eq_some hfind) hw'
  · rw [hout] at hfirst
    cases hfirst
  · rw [hout] at hfirst
    cases hfirst
    unfold threadWait
    rw [hjoin, hfin]
    exact ⟨⟨lhlhError, pre, .str e⟩, s, by simp only [hne, if_false], hne, rfl⟩

/-- If nothing fails, all threads have run and `thread_wait` has the prefix of one of the replies. -/
theorem threadWait_success {pool : List Part} (h : Settled send P cmd Q out pool) {body : Worker σ τ}
    (hcall : ∀ g w, body.call g w = subRequest send g.1 cmd g.2 w) (hrep : Reports body Q) (steps : Nat → List Nat)
    (m : τ) {w : σ} (hw : P w) (hne : pool ≠ []) (hall : ∀ g ∈ pool, failure (out g) = none) :
    ∃ st s fs r, threadWait body pool steps w m = (st, s) ∧ st.rc = lhlhOk ∧ Q r ∧ st.pre = r.ret.pre ∧
      (fs.map (·.1)).Perm pool ∧ s.mem = finishAll body fs m ∧
      ∀ p ∈ fs, ∃ r : Reply, p.2 = .ok r.ret ∧ r.wf = true ∧ Q r := by
  have hends : ∀ g ∈ pool, ∀ w, P w → P (body.call g w).2 ∧ ∃ r : Reply, (body.call g w).1 = .ok r.ret ∧ r.wf = true ∧
      Q r ∧ ∀ m, (body.finish g (body.call g w).1 m).1 = .ok ⟨lhlhOk, r.ret.pre, .nil⟩ := by
    intro g hg w hw
    obtain ⟨hP, ⟨r, -, hr⟩ | ⟨e, pre, hout, -⟩⟩ := h.ends hcall hrep hg hw
    · exact ⟨hP, r, hr⟩
    · have := hall g hg
      rw [hout] at this
      cases this
  obtain ⟨st, s, cs, fs, hwait, hrc, ⟨g, hg, w₁, m₁, st₁, hw₁, hfin, hpre⟩, hcs, hfs, hcalls, hmem⟩ :=
    threadWait_serial body steps m hne hw fun g hg w hw => by
      obtain ⟨hP, r, -, -, -, hfin⟩ := hends g hg w hw
      exact ⟨hP, fun m => ⟨_, hfin m, rfl⟩⟩
  -- the status is that of some thread, and it has succeeded
  obtain ⟨-, r, -, -, hQ, hfin'⟩ := hends g hg w₁ hw₁
  rw [hfin'] at hfin
  cases hfin
  refine ⟨st, s, fs, r, hwait, hrc, hQ, hpre, (hfs.map _).trans hcs, hmem, fun p hp => ?_⟩
  have hin : ∀ q ∈ cs, q.1 ∈ pool := fun q hq => hcs.subset (List.mem_map_of_mem hq)
  obtain ⟨w', hw', ha⟩ := (hcalls.answer hw fun q hq w hw => (hends q.1 (hin q hq) w hw).1).2 p (hfs.subset hp)
  obtain ⟨-, r', hans, hwf, hQ', -⟩ := hends p.1 (hin p (hfs.subset hp)) w' hw'
  exact ⟨r', by rw [ha, hans], hwf, hQ'⟩

/-! ## The reply -/

/-- The reply that belongs to the outcomes of a pool: a success with its prefix if there is no
failure, and the error line of the first failure otherwise. -/
def Verdict (pool : List Part) (out : Part → Except Bytes Reply) (pre : UInt8)
    (rsp : Except LuaError (Option (List Value))) : Prop :=
  ∃ t, rsp = .ok (some t) ∧
    ((∀ g ∈ pool, failure (out g) = none) ∧ (∃ rest, flatTab t = .ok (pre :: rest)) ∨
      ∃ e, pool.findSome? (fun g => failure (out g)) = some e ∧ flatTab t = .ok (45 :: (e ++ crlf)))

/-- The three splitters end alike: the error of `thread_wait` goes to `encode`, and otherwise the
reply is built. -/
theorem verdict_of_wait {pool : List Part} (h : Settled send P cmd Q out pool) {body : Worker σ τ}
    (hcall : ∀ g w, body.call g w = subRequest send g.1 cmd g.2 w) (hrep : Reports body Q)
    (build : Status → τ → Except LuaError (Option (List Value))) (pre : UInt8) {steps : Nat → List Nat} {m : τ}
    (hbuild : ∀ st fs r, Q r → st.pre = r.ret.pre → (fs.map (·.1)).Perm pool →
      (∀ p ∈ fs, ∃ r : Reply, p.2 = .ok r.ret ∧ r.wf = true ∧ Q r) →
      ∃ t rest, build st (finishAll body fs m) = .ok (some t) ∧ flatTab t = .ok (pre :: rest))
    {w : σ} (hw : P w) (hne : pool ≠ []) {st : Status} {s : State σ τ (Except LuaError Ret) (Except Value Status)}
    (hwait : threadWait body pool steps w m = (st, s)) :
    Verdict pool out pre (if st.rc ≠ lhlhOk then encode st.err (some typeErrorReply) else build st s.mem) := by
  cases hfail : pool.findSome? (fun g => failure (out g)) with
  | some e =>
    obtain ⟨st', s', hwait', hrc, herr⟩ := threadWait_failure h hcall hrep steps m hw hfail
    rw [hwait] at hwait'
    cases hwait'
    rw [if_pos hrc, herr]
    refine ⟨[.str (bytes "-"), .str e, .str crlf], rfl, .inr ⟨e, hfail, ?_⟩⟩
    rw [flatTab_cons_ok (flat_str _) (flatTab_cons_ok (flat_str _) (flatTab_cons_ok (flat_str _) flatTab_nil)),
      List.append_nil]
    rfl
  | none =>
    have hall := List.findSome?_eq_none_iff.1 hfail
    obtain ⟨st', s', fs, r, hwait', hrc, hQ, hpre, hfs, hmem, hans⟩ :=
      threadWait_success h hcall hrep steps m hw hne hall
    rw [hwait] at hwait'
    cases hwait'
    obtain ⟨t, rest, ht, hflat⟩ := hbuild st fs r hQ hpre hfs hans
    rw [if_neg (not_not.2 hrc), hmem, ht]
    exact ⟨t, rfl, .inl ⟨hall, rest, hflat⟩⟩

end Outcomes

section Commands

variable {σ : Type} {send : Send σ} {P : σ → Prop} {out : Part → Except Bytes Reply}

/-- An array of bulk strings. -/
def Bulks (r : Reply) : Prop := ∃ l, r = .array l ∧ ∀ x ∈ l, x.isBulk = true

theorem Bulks.texts {r : Reply} (h : Bulks r) : Texts r := by
  obtain ⟨l, rfl, hb⟩ := h
  rintro _ ⟨⟩ x hx
  have := hb x hx
  cases x with
  | bulk s => rfl
  | nilBulk => rfl
  | _ => cases this

theorem multiMgetKeys_reports (left : LuaError → Value) (send : Send σ) (cmd : Bytes) :
    Reports (multiMgetKeys .str left send cmd) Bulks where
  error _ _ _ _ _ := rfl
  reply g r m h := by
    obtain ⟨l, rfl, -⟩ := h
    have hfill := fillKeys_ok (Reply.vals l) 1 (g.2.map .str) m
    rcases hf : fillKeys (.tab (Reply.vals l)) 1 (g.2.map .str) m with ⟨u, m'⟩
    rw [hf] at hfill
    dsimp only at hfill
    subst hfill
    simp only [multiMgetKeys, Reply.ret, Value.truthy, Bool.false_eq_true, ite_false, hf]

/-- When all threads have ended with arrays of bulk strings, the reply is one of these. -/
theorem mgetArgs_bulks (left : LuaError → Value) (send : Send σ) (cmd : Bytes) {keys : List Bytes}
    {fs : List (Part × Except LuaError Ret)} (hparts : (fs.map (·.1)).Perm (slotTable keys))
    (hans : ∀ p ∈ fs, ∃ r : Reply, p.2 = .ok r.ret ∧ r.wf = true ∧ Bulks r) :
    ∃ l x, mgetArgs (finishAll (multiMgetKeys .str left send cmd) fs (keys.map Value.str)) = .ok x ∧
      flatTab x = .ok (Reply.bytesList l) := by
  have hstart : Cells keys.length (keys.map Value.str) := by
    refine ⟨List.length_map _, fun c hc => ?_⟩
    obtain ⟨k, -, rfl⟩ := List.mem_map.1 hc
    exact .inl ⟨k, rfl⟩
  have hreturned : ∀ p ∈ fs, p.1 ∈ slotTable keys ∧ ∃ ret, p.2 = .ok ret ∧ Returned Texts ret := by
    intro p hp
    obtain ⟨r, hret, hwf, hbulks⟩ := hans p hp
    have hvalue : r.isError = false := by
      obtain ⟨l, rfl, -⟩ := hbulks
      rfl
    exact ⟨hparts.subset (List.mem_map_of_mem hp), r.ret, hret, .reply r hwf hvalue hbulks.texts⟩
  obtain ⟨-, hcells⟩ := finishAll_keeps left send cmd (fun g hg => slotTable_slot hg) hreturned hstart
  obtain ⟨vs, -, hlike, hargs⟩ := mgetArgs_bulkLike hcells
  obtain ⟨l, x, -, -, hx, hf⟩ := encodeArgs_bulkLike hlike
  exact ⟨l, x, by rw [hargs, hx], hf⟩

/-- An integer. -/
def Counted (r : Reply) : Prop := ∃ n, r = .int n

theorem multiKeys_reports (left : LuaError → Value) (send : Send σ) (cmd : Bytes) :
    Reports (multiKeys left send cmd) Counted where
  error _ _ _ _ _ := rfl
  reply g r m h := by
    obtain ⟨n, rfl⟩ := h
    rfl

/-- The status of an MSET. -/
def Done (r : Reply) : Prop := r = .status (bytes "OK")

theorem multiKvs_reports (left : LuaError → Value) (send : Send σ) (cmd : Bytes) :
    Reports (multiKvs left send cmd) Done where
  error _ _ _ _ _ := rfl
  reply g r m h := by
    subst h
    rfl

theorem Settled.perm {cmd : Bytes} {Q : Reply → Prop} {parts pool : List Part} (h : Settled send P cmd Q out parts)
    (hp : pool.Perm parts) : Settled send P cmd Q out pool := fun g hg => h g (hp.subset hg)

theorem redisMgetKeys_verdict (sc : Sched) {cmd : Bytes} {keys : List Bytes} (hne : keys ≠ []) {w : σ} (hw : P w)
    (h : Settled send P (lower cmd) Bulks out (slotTable keys)) :
    Verdict (sc.arrange (slotTable keys)) out 42 (redisMgetKeys send sc cmd keys w).1 := by
  have hperm := sc.arrange_perm (slotTable_nodup keys)
  rcases hwait : threadWait (multiMgetKeys .str sc.left send (lower cmd)) (sc.arrange (slotTable keys)) sc.steps w
    (keys.map Value.str) with ⟨st, s⟩
  have hv := verdict_of_wait (h.perm hperm) (fun _ _ => rfl) (multiMgetKeys_reports sc.left send (lower cmd))
    (fun _ mem => (mgetArgs mem).map fun l => some (.str (bytes "*" ++ (Number.int keys.length).text ++ crlf) :: l)) 42
    (fun st fs r _ _ hfs hans => by
      obtain ⟨l, x, hx, hf⟩ := mgetArgs_bulks sc.left send (lower cmd) (hfs.trans hperm) hans
      rw [hx]
      exact ⟨_, _, rfl, flatTab_cons_ok (flat_str _) hf⟩)
    hw (sc.arrange_ne_nil (slotTable_nodup keys) (slotTable_ne_nil hne)) hwait
  simp only [redisMgetKeys, mgetOver, hwait]
  rwa [apply_ite Prod.fst]

theorem redisMultiKeys_verdict (sc : Sched) {cmd : Bytes} {keys : List Bytes} (hne : keys ≠ []) {w : σ} (hw : P w)
    (h : Settled send P cmd Counted out (slotTable keys)) :
    Verdict (sc.arrange (slotTable keys)) out 58 (redisMultiKeys send sc cmd keys w).1 := by
  rcases hwait : threadWait (multiKeys sc.left send cmd) (sc.arrange (slotTable keys)) sc.steps w (.int 0) with ⟨st, s⟩
  have hv := verdict_of_wait (h.perm (sc.arrange_perm (slotTable_nodup keys))) (fun _ _ => rfl)
    (multiKeys_reports sc.left send cmd)
    (fun st mem => encode (.num mem) st.pre) 58
    (fun st fs r hr hpre _ _ => by
      obtain ⟨n, rfl⟩ := hr
      rw [hpre]
      exact ⟨_, _, rfl, flatTab_integer _⟩)
    hw (sc.arrange_ne_nil (slotTable_nodup keys) (slotTable_ne_nil hne)) hwait
  simp only [redisMultiKeys, countOver, hwait]
  rwa [apply_ite Prod.fst]

theorem redisKvs_verdict (sc : Sched) {cmd : Bytes} {args : List Bytes} (hne : args ≠ []) {w : σ} (hw : P w)
    (h : Settled send P cmd Done out (kvTable args)) :
    Verdict (sc.arrange (kvTable args)) out 43 (redisKvs send sc cmd args w).1 := by
  rcases hwait : threadWait (multiKvs sc.left send cmd) (sc.arrange (kvTable args)) sc.steps w () with ⟨st, s⟩
  have hv := verdict_of_wait (h.perm (sc.arrange_perm (kvTable_nodup args))) (fun _ _ => rfl)
    (multiKvs_reports sc.left send cmd)
    (fun st _ => encode (.str (bytes "OK")) st.pre) 43
    (fun st fs r hr hpre _ _ => by
      obtain rfl := hr
      rw [hpre]
      exact ⟨_, bytes "OK\r\n", rfl, by rfl⟩)
    hw (sc.arrange_ne_nil (kvTable_nodup args) (kvTable_ne_nil hne)) hwait
  simp only [redisKvs, kvsOver, hwait]
  rwa [apply_ite Prod.fst]

/-- MGET, DEL, EXISTS and MSET report success exactly when all their sub-requests have succeeded, and
the first failure in pool order otherwise, however the threads are interleaved. -/
theorem no_partial_success (send : Send σ) (P : σ → Prop) (sc : Sched) (cmd : Bytes) (args : List Bytes)
    (hne : args ≠ []) (out : Part → Except Bytes Reply) (w : σ) (hw : P w) :
    (Settled send P (lower cmd) Bulks out (slotTable args) →
        Verdict (sc.arrange (slotTable args)) out 42 (redisMgetKeys send sc cmd args w).1) ∧
      (Settled send P cmd Counted out (slotTable args) →
        Verdict (sc.arrange (slotTable args)) out 58 (redisMultiKeys send sc cmd args w).1) ∧
      (Settled send P cmd Done out (kvTable args) →
        Verdict (sc.arrange (kvTable args)) out 43 (redisKvs send sc cmd args w).1) :=
  ⟨redisMgetKeys_verdict sc hne hw, redisMultiKeys_verdict sc hne hw, redisKvs_verdict sc hne hw⟩

/-- The slot of `b` is down. -/
def halfOutcome (g : Part) : Except Bytes Reply :=
  if g.2 = [bytes "b"] then .error (bytes "CLUSTERDOWN") else .ok (.int 1)

def halfServer : Send Unit := fun _ _ keys _ =>
  (.ok (if keys = [bytes "b"] then ⟨.nil, some typeErrorReply, .str (bytes "CLUSTERDOWN")⟩ else (Reply.int 1).ret), ())

/-- The second thread runs before the first one is waited for. -/
def lateFirst : Sched := ⟨id, id_perm, fun _ => [1, 1], fun _ => .nil⟩

/-- DEL of two keys: the thread of `b` ends first, that of `a` succeeds. -/
theorem no_partial_success_half :
    Settled halfServer (fun _ => True) (bytes "del") Counted halfOutcome (slotTable [bytes "a", bytes "b"]) ∧
      Verdict (lateFirst.arrange (slotTable [bytes "a", bytes "b"])) halfOutcome 58
        (redisMultiKeys halfServer lateFirst (bytes "del") [bytes "a", bytes "b"] ()).1 := by
  have hlen : ∀ g ∈ slotTable [bytes "a", bytes "b"], g.2.length + 1 ≤ maxStack := by decide +kernel
  have hset : Settled halfServer (fun _ => True) (bytes "del") Counted halfOutcome
      (slotTable [bytes "a", bytes "b"]) := by
    intro g hg
    refine ⟨fun r hr => ?_, fun w _ => ⟨_, (), subRequest_run _ _ _ (hlen g hg) w, trivial, ?_⟩⟩
    · unfold halfOutcome at hr
      split at hr
      · cases hr
      · cases hr
        exact ⟨by decide, 1, rfl⟩
    · unfold halfOutcome
      split
      · exact .error _ _ _
      · exact .reply _
  have hne : [bytes "a", bytes "b"] ≠ [] := List.cons_ne_nil _ _
  exact ⟨hset, (no_partial_success halfServer (fun _ => True) lateFirst (bytes "del") [bytes "a", bytes "b"] hne
    halfOutcome () trivial).2.1 hset⟩

end Commands

/-! ## An MSET without its last value -/

section Odd

variable {σ : Type} (send : Send σ) (store : σ → Store) (P : σ → Prop)

/-- A backend refuses an odd number of arguments. -/
def msetOutcome (refusal : Bytes) (g : Part) : Except Bytes Reply :=
  if g.2.length % 2 = 0 then .ok (.status (bytes "OK")) else .error refusal

/-- What it does to the store. -/
def msetEffect (g : Part) (st : Store) : Store := if g.2.length % 2 = 0 then assign g.2 st else st

/-- The backends execute the sub-requests of an MSET, or refuse them. -/
def Executes (refusal cmd : Bytes) (args : List Bytes) : Prop :=
  ∀ g ∈ kvTable args, ∀ w, P w → ∃ ret w', subRequest send g.1 cmd g.2 w = (.ok ret, w') ∧ P w' ∧
    Shows (msetOutcome refusal g) ret ∧ store w' = msetEffect g (store w)

theorem exists_pairs_odd {args : List Bytes} (h : args.length % 2 = 1) : ∃ ps k, args = flatPairs ps ++ [k] := by
  induction args using List.twoStepInduction with
  | nil => simp at h
  | singleton a => exact ⟨[], a, rfl⟩
  | cons_cons k v l ih _ =>
    obtain ⟨ps, k', rfl⟩ := ih (by simp only [List.length_cons] at h; omega)
    exact ⟨(k, v) :: ps, k', rfl⟩

theorem flatPairs_length (ps : List (Bytes × Bytes)) : (flatPairs ps).length = 2 * ps.length := by
  induction ps with
  | nil => rfl
  | cons p ps ih =>
    have : (flatPairs (p :: ps)).length = (flatPairs ps).length + 2 := rfl
    rw [this, ih, List.length_cons]
    omega

theorem kvItems_odd (ps : List (Bytes × Bytes)) (k : Bytes) :
    kvItems (flatPairs ps ++ [k]) =
      (pairItems ps).map (fun i => (i.1, flatPairs i.2)) ++ [(redisSlot (some k), [k])] := by
  induction ps with
  | nil => rfl
  | cons p ps ih => exact congrArg _ ih

/-- A part has the pairs of its slot, and the last key if it is its slot's. -/
theorem kvTable_odd {ps : List (Bytes × Bytes)} {k : Bytes} {g : Part} (hg : g ∈ kvTable (flatPairs ps ++ [k])) :
    g.2 = flatPairs (ps.filter fun p => redisSlot (some p.1) = g.1) ++
      if redisSlot (some k) = g.1 then [k] else [] := by
  have h := (grouped_group _).mem g hg
  rw [kvItems_odd, under_append_one] at h
  have hpairs : under g.1 ((pairItems ps).map fun i => (i.1, flatPairs i.2)) =
      flatPairs (ps.filter fun p => redisSlot (some p.1) = g.1) := by
    unfold under pairItems
    rw [List.map_map, List.filter_map, List.flatMap_map]
    rfl
  rw [hpairs] at h
  rw [h]
  split
  · rfl
  · rw [List.append_nil]

theorem kvTable_last (ps : List (Bytes × Bytes)) (k : Bytes) :
    ∃ g ∈ kvTable (flatPairs ps ++ [k]), g.1 = redisSlot (some k) := by
  have hmem : redisSlot (some k) ∈ (kvItems (flatPairs ps ++ [k])).map (·.1) := by
    rw [kvItems_odd]
    simp
  obtain ⟨g, hg, hslot⟩ := List.mem_map.1 (((grouped_group _).keys _).2 hmem)
  exact ⟨g, hg, hslot⟩

/-- The part of the last key is refused, and no other. -/
theorem kvTable_odd_iff {ps : List (Bytes × Bytes)} {k : Bytes} {g : Part} (hg : g ∈ kvTable (flatPairs ps ++ [k])) :
    g.2.length % 2 = 0 ↔ redisSlot (some k) ≠ g.1 := by
  rw [kvTable_odd hg, List.length_append, flatPairs_length]
  split
  · rename_i h
    simp [h]
  · rename_i h
    simp [h]

variable {send store P} {refusal cmd : Bytes}

theorem Executes.settled {args : List Bytes} (h : Executes send store P refusal cmd args) :
    Settled send P cmd Done (msetOutcome refusal) (kvTable args) := by
  intro g hg
  constructor
  · intro r hr
    unfold msetOutcome at hr
    split at hr
    · cases hr
      exact ⟨by decide, rfl⟩
    · cases hr
  · intro w hw
    obtain ⟨ret, w', hsub, hw', hshows, -⟩ := h g hg w hw
    exact ⟨ret, w', hsub, hw', hshows⟩

/-- What every part leaves alone, the request leaves alone. -/
theorem Executes.world {args : List Bytes} (h : Executes send store P refusal cmd args) (sc : Sched) {R : Store → Prop}
    (hR : ∀ g ∈ kvTable args, ∀ st, R st → R (msetEffect g st)) {w : σ} (hw : P w) (hst : R (store w)) :
    R (store (redisKvs send sc cmd args w).2) := by
  have hperm := sc.arrange_perm (kvTable_nodup args)
  have hcall : ∀ g ∈ sc.arrange (kvTable args), ∀ w, P w ∧ R (store w) →
      P ((multiKvs sc.left send cmd).call g w).2 ∧ R (store ((multiKvs sc.left send cmd).call g w).2) := by
    intro g hg w hw
    have hmem := hperm.subset hg
    obtain ⟨ret, w', hsub, hw', -, hstore⟩ := h g hmem w hw.1
    rw [show (multiKvs sc.left send cmd).call g w = (.ok ret, w') from hsub, hstore]
    exact ⟨hw', hR g hmem _ hw.2⟩
  obtain ⟨st, s, cs, fs, hwait, hcalls, -, -, hpool, -⟩ :=
    threadWait_run (multiKvs sc.left send cmd) (sc.arrange (kvTable args)) sc.steps w ()
  have hend := (hcalls.answer (P := fun w => P w ∧ R (store w)) ⟨hw, hst⟩ fun p hp w hw =>
    hcall p.1 (hpool.subset (List.mem_map_of_mem hp)) w hw).1
  simp only [redisKvs, kvsOver, hwait]
  split
  all_goals exact hend.2

/-- Pairs of other slots leave a key alone. -/
theorem assign_other {ps : List (Bytes × Bytes)} {k : Bytes} (h : ∀ p ∈ ps, redisSlot (some p.1) ≠ redisSlot (some k))
    (st : Store) : assign (flatPairs ps) st k = st k := by
  rw [assign_flatPairs, putAll_apply]
  have hnone : (ps.filter fun p => p.1 = k) = [] := by
    refine List.filter_eq_nil_iff.2 fun p hp hk => h p hp ?_
    rw [of_decide_eq_true hk]
  rw [hnone]
  rfl

/-- The client receives the refusal of the last key's slot. -/
theorem Executes.reply {ps : List (Bytes × Bytes)} {last : Bytes} (sc : Sched) {w : σ} (hw : P w)
    (h : Executes send store P refusal cmd (flatPairs ps ++ [last])) :
    ∃ t, (redisKvs send sc cmd (flatPairs ps ++ [last]) w).1 = .ok (some t) ∧
      flatTab t = .ok (45 :: (refusal ++ crlf)) := by
  obtain ⟨t, ht, ⟨hall, -⟩ | ⟨e, he, hflat⟩⟩ := redisKvs_verdict sc (by simp) hw h.settled
  · -- the part of the last key is refused
    obtain ⟨g, hg, hslot⟩ := kvTable_last ps last
    have hok := hall g ((sc.arrange_perm (kvTable_nodup _)).symm.subset hg)
    rw [msetOutcome, if_neg fun heven => (kvTable_odd_iff hg).1 heven hslot.symm] at hok
    cases hok
  · obtain ⟨g, -, hg⟩ := List.exists_of_findSome?_eq_some he
    unfold msetOutcome at hg
    split at hg
    · cases hg
    · cases hg
      exact ⟨t, ht, hflat⟩

/-- The keys of the last key's slot keep their values: a part is refused, or it is one of another slot. -/
theorem Executes.keeps {ps : List (Bytes × Bytes)} {last : Bytes} (sc : Sched) {w : σ} (hw : P w)
    (h : Executes send store P refusal cmd (flatPairs ps ++ [last])) {k : Bytes}
    (hk : redisSlot (some k) = redisSlot (some last)) :
    store (redisKvs send sc cmd (flatPairs ps ++ [last]) w).2 k = store w k := by
  refine h.world sc (R := fun st => st k = store w k) (fun g hg st hst => ?_) hw rfl
  unfold msetEffect
  split
  · rename_i heven
    have hother := (kvTable_odd_iff hg).1 heven
    rw [kvTable_odd hg, if_neg hother, List.append_nil, assign_other, hst]
    intro p hp
    rw [of_decide_eq_true (List.mem_filter.1 hp).2, hk]
    exact Ne.symm hother
  · exact hst

/-- A server of all slots. -/
def msetServer : Send Store := fun _ _ args st =>
  if args.length % 2 = 0 then (.ok (Reply.status (bytes "OK")).ret, assign args st)
  else (.ok ⟨.nil, some typeErrorReply, .str (bytes "ERR wrong number of arguments for MSET")⟩, st)

theorem msetServer_executes {args : List Bytes} (hlen : ∀ g ∈ kvTable args, g.2.length + 1 ≤ maxStack) :
    Executes msetServer id (fun _ => True) (bytes "ERR wrong number of arguments for MSET") cmd args := by
  intro g hg st _
  rw [subRequest_run _ _ _ (hlen g hg)]
  unfold msetServer msetOutcome msetEffect
  split
  · exact ⟨_, _, rfl, trivial, .reply _, rfl⟩
  · exact ⟨_, _, rfl, trivial, .error _ _ _, rfl⟩

/-! ### A slot that is run first -/

/-- The order of `pairs` that visits the slot `j` first, if it is there. -/
def slotFirst (j : SlotKey) : Sched where
  order l := if j ∈ l then j :: l.erase j else l
  order_perm l := by
    split
    · rename_i h
      exact (List.perm_cons_erase h).symm
    · exact List.Perm.refl l
  steps _ := []
  left _ := .nil

theorem slotFirst_head {t : List Part} (hn : (t.map (·.1)).Nodup) {g : Part} (hg : g ∈ t) :
    ((slotFirst g.1).arrange t).head? = some g := by
  have horder : (slotFirst g.1).order (t.map (·.1)) = g.1 :: (t.map (·.1)).erase g.1 :=
    if_pos (List.mem_map_of_mem hg)
  unfold Sched.arrange
  rw [horder, List.filterMap_cons, find?_of_nodup hn hg]
  rfl

/-- A key that is assigned, or has a value already, has one afterwards. -/
theorem putAll_isSome {ps : List (Bytes × Bytes)} {st : Store} {k : Bytes}
    (h : (st k).isSome = true ∨ k ∈ ps.map (·.1)) : (putAll ps st k).isSome = true := by
  induction ps generalizing st with
  | nil => exact h.resolve_right (List.not_mem_nil)
  | cons p ps ih =>
    show (putAll ps (put p.1 p.2 st) k).isSome = true
    apply ih
    by_cases hk : k = p.1
    · subst hk
      exact .inl (by simp [put])
    · rw [put, Function.update_of_ne hk]
      exact h.imp_right fun hmem => (List.mem_cons.1 hmem).resolve_left hk

theorem assign_isSome {args : List Bytes} (heven : args.length % 2 = 0) {st : Store} {k : Bytes}
    (h : (st k).isSome = true) : (assign args st k).isSome = true := by
  obtain ⟨ps, rfl⟩ := exists_pairs heven
  rw [assign_flatPairs]
  exact putAll_isSome (.inl h)

/-- The first key of a part that was executed has a value when all calls have been made. -/
theorem calls_set {left : LuaError → Value} {w w' : Store} {cs : List (Part × Except LuaError Ret)}
    (h : Calls (multiKvs left msetServer cmd) w cs w') (hlen : ∀ p ∈ cs, p.1.2.length + 1 ≤ maxStack) {g : Part}
    (hg : g ∈ cs.map (·.1)) {ps : List (Bytes × Bytes)} (hpart : g.2 = flatPairs ps) {k : Bytes}
    (hk : k ∈ ps.map (·.1)) : (w' k).isSome = true := by
  induction h with
  | nil => cases hg
  | @snoc cs w' t hcs ih =>
    have hfits : t.2.length + 1 ≤ maxStack := hlen _ (List.mem_append_right _ (List.mem_singleton_self _))
    have hcall : ((multiKvs left msetServer cmd).call t w').2 = msetEffect t w' := by
      show (subRequest msetServer t.1 cmd t.2 w').2 = _
      rw [subRequest_run _ _ _ hfits, msetServer, msetEffect]
      split <;> rfl
    rw [hcall]
    rw [List.map_append, List.mem_append] at hg
    rcases hg with hg | hg
    · have hset := ih (fun p hp => hlen p (List.mem_append_left _ hp)) hg
      unfold msetEffect
      split
      · rename_i heven
        exact assign_isSome heven hset
      · exact hset
    · obtain rfl : g = t := by simpa using hg
      rw [msetEffect, hpart, if_pos (by rw [flatPairs_length]; omega), assign_flatPairs]
      exact putAll_isSome (.inr hk)

/-- A slot other than that of the last key gets pairs. -/
theorem kvTable_pairs {ps : List (Bytes × Bytes)} {last : Bytes} {g : Part} (hg : g ∈ kvTable (flatPairs ps ++ [last]))
    (hother : redisSlot (some last) ≠ g.1) : ∃ qs k, g.2 = flatPairs qs ∧ k ∈ qs.map (·.1) := by
  have hkey := ((grouped_group _).keys g.1).1 (List.mem_map_of_mem (f := (·.1)) hg)
  rw [kvItems_odd, List.map_append, List.mem_append] at hkey
  have hpair : ∃ p ∈ ps, redisSlot (some p.1) = g.1 := by
    rcases hkey with hkey | hkey
    · simpa [pairItems] using hkey
    · exact absurd (List.mem_singleton.1 hkey).symm hother
  obtain ⟨p, hp, hslot⟩ := hpair
  refine ⟨ps.filter fun p => redisSlot (some p.1) = g.1, p.1, ?_, ?_⟩
  · rw [kvTable_odd hg, if_neg hother, List.append_nil]
  · exact List.mem_map_of_mem (List.mem_filter.2 ⟨hp, decide_eq_true hslot⟩)

/-- If a key lies in another slot, some store is changed: that slot is run first. -/
theorem msetServer_changes {ps : List (Bytes × Bytes)} {last : Bytes}
    (hlen : ∀ g ∈ kvTable (flatPairs ps ++ [last]), g.2.length + 1 ≤ maxStack) {g : Part}
    (hg : g ∈ kvTable (flatPairs ps ++ [last])) (hother : redisSlot (some last) ≠ g.1) (cmd : Bytes) :
    (redisKvs msetServer (slotFirst g.1) cmd (flatPairs ps ++ [last]) fun _ => none).2 ≠ fun _ => none := by
  have hnodup := kvTable_nodup (flatPairs ps ++ [last])
  have hperm := (slotFirst g.1).arrange_perm hnodup
  obtain ⟨st, s, cs, fs, hwait, hcalls, -, -, hpool, hhead, -⟩ :=
    threadWait_run (multiKvs (slotFirst g.1).left msetServer cmd)
      ((slotFirst g.1).arrange (kvTable (flatPairs ps ++ [last]))) (slotFirst g.1).steps (fun _ => none) ()
  obtain ⟨qs, k, hpart, hk⟩ := kvTable_pairs hg hother
  have hset : (s.world k).isSome = true := by
    refine calls_set hcalls (fun p hp => ?_) (hhead g (slotFirst_head hnodup hg)) hpart hk
    exact hlen p.1 (hperm.subset (hpool.subset (List.mem_map_of_mem hp)))
  have hworld : (redisKvs msetServer (slotFirst g.1) cmd (flatPairs ps ++ [last]) fun _ => none).2 = s.world := by
    simp only [redisKvs, kvsOver, hwait]
    split <;> rfl
  rw [hworld]
  intro hnone
  rw [hnone] at hset
  cases hset

/-- An MSET with an odd number of arguments is answered with the refusal of the last key's slot, and the
keys of that slot keep their values. Whatever the backends, the order of the slots and the interleaving,
the store is as before, exactly if all keys lie in that slot. -/
theorem odd_mset {args : List Bytes} (hodd : args.length % 2 = 1) (cmd : Bytes) :
    (∀ (σ : Type) (send : Send σ) (store : σ → Store) (P : σ → Prop) (refusal : Bytes) (sc : Sched) (w : σ), P w →
      Executes send store P refusal cmd args →
      (∃ t, (redisKvs send sc cmd args w).1 = .ok (some t) ∧ flatTab t = .ok (45 :: (refusal ++ crlf))) ∧
        ∀ k, redisSlot (some k) = redisSlot args.getLast? → store (redisKvs send sc cmd args w).2 k = store w k) ∧
      ((∀ g ∈ kvTable args, g.2.length + 1 ≤ maxStack) →
        ((∀ (σ : Type) (send : Send σ) (store : σ → Store) (P : σ → Prop) (refusal : Bytes) (sc : Sched) (w : σ), P w →
          Executes send store P refusal cmd args → store (redisKvs send sc cmd args w).2 = store w) ↔
        ∀ g ∈ kvTable args, g.1 = redisSlot args.getLast?)) := by
  obtain ⟨ps, last, rfl⟩ := exists_pairs_odd hodd
  have hlast : (flatPairs ps ++ [last]).getLast? = some last := by simp
  rw [hlast]
  refine ⟨fun σ send store P refusal sc w hw h => ⟨h.reply sc hw, fun k hk => h.keeps sc hw hk⟩, fun hlen => ⟨?_, ?_⟩⟩
  · intro hkeeps g hg
    by_contra hother
    exact msetServer_changes hlen hg (Ne.symm hother) cmd (hkeeps Store msetServer id (fun _ => True) _
      (slotFirst g.1) (fun _ => none) trivial (msetServer_executes hlen))
  · -- the only part is refused
    intro hone σ send store P refusal sc w hw h
    refine h.world sc (R := fun st => st = store w) (fun g hg st hst => ?_) hw rfl
    rw [msetEffect, if_neg fun heven => (kvTable_odd_iff hg).1 heven (hone g hg).symm]
    exact hst

/-- Two keys with one hash tag. -/
theorem odd_mset_tag :
    (redisKvs msetServer lateFirst (bytes "mset") [bytes "\x7bt\x7da", bytes "1", bytes "\x7bt\x7db"] fun _ => none).2 =
      fun _ => none := by
  have hlen : ∀ g ∈ kvTable [bytes "\x7bt\x7da", bytes "1", bytes "\x7bt\x7db"], g.2.length + 1 ≤ maxStack := by
    decide +kernel
  have hone : ∀ g ∈ kvTable [bytes "\x7bt\x7da", bytes "1", bytes "\x7bt\x7db"],
      g.1 = redisSlot [bytes "\x7bt\x7da", bytes "1", bytes "\x7bt\x7db"].getLast? := by decide +kernel
  exact ((odd_mset (by decide) (bytes "mset")).2 hlen).2 hone Store msetServer id (fun _ => True) _ lateFirst
    (fun _ => none) trivial (msetServer_executes hlen)

/-- Keys of two slots: the client receives an error, and `a` has been set. -/
theorem odd_mset_applied :
    (redisKvs msetServer lateFirst (bytes "mset") [bytes "a", bytes "1", bytes "b"] fun _ => none).1.bind sendReply =
        .ok (bytes "-ERR wrong number of arguments for MSET\r\n") ∧
      (redisKvs msetServer lateFirst (bytes "mset") [bytes "a", bytes "1", bytes "b"] fun _ => none).2 (bytes "a") =
        some (bytes "1") :=
  ⟨by decide +kernel, by decide +kernel⟩

end Odd

end NgProxy.Process
