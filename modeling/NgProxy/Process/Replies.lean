/-
Every command gets a reply: when `send_cluster_command` returns error lines and replies the caller
can use, none of the command functions raises, and what each of them hands to the socket's `send`
is the wire form of one well-formed reply. Whether it does is read off what the request itself logs.
-/
import NgProxy.Cluster.Returns
import NgProxy.Process.MGet
import NgProxy.Process.Count

namespace NgProxy.Process

open Lua Codec Cluster GroupBy Pool Text

/-! ## What is sent -/

/-- The client is sent a well-formed reply. -/
def Replied (rsp : Option (List Value)) : Prop := ∃ r : Reply, r.wf = true ∧ sendReply rsp = .ok r.bytes

theorem serverErr_replied : Replied none := ⟨.error (bytes "ERR SERVER INTERNAL"), by decide, rfl⟩

/-- What the command functions encode as an error: an error line, or the slot that is found in its place
when a thread has raised. -/
def ErrorValue (v : Value) : Prop := (∃ t, isLine t = true ∧ v = .str t) ∨ ∃ n : Nat, n < 16384 ∧ v = .num (.int n)

theorem encode_error (v : Value) :
    encode v (some typeErrorReply) = .ok (some [.str (bytes "-"), v, .str crlf]) := by
  simp [encode, typeErrorReply, typeBulkReply, typeStatusReply, typeMultiBulkReply, typeIntegerReply]

theorem error_replied {v : Value} (h : ErrorValue v) : Replied (some [.str (bytes "-"), v, .str crlf]) := by
  rcases h with ⟨t, line, rfl⟩ | ⟨n, hn, rfl⟩
  · refine ⟨.error t, line, ?_⟩
    have := flatTab_three (flat_str t) (a := bytes "-") (c := crlf)
    simpa [sendReply, Reply.bytes, bytes] using this
  · refine ⟨.error (decimal n), ?_, ?_⟩
    · simp only [Reply.wf, isLine, List.all_eq_true, Bool.and_eq_true, bne_iff_ne]
      exact fun b hb => decimal_line n b hb
    · have := flatTab_three (flat_num (.int n)) (a := bytes "-") (c := crlf)
      rw [text_nat n (by omega)] at this
      simpa [sendReply, Reply.bytes, bytes] using this

theorem int_replied {n : Int} (h : n.natAbs < 10 ^ 14) :
    ∃ l, encode (.num (.int n)) (some typeIntegerReply) = .ok (some l) ∧ Replied (some l) := by
  refine ⟨[.str (bytes ":"), .str (Number.int n).text, .str crlf], by simp [encode, typeBulkReply, typeStatusReply,
    typeMultiBulkReply, typeIntegerReply, Value.tostring], .int n, ?_, ?_⟩
  · simp only [Reply.wf, Bool.and_eq_true, decide_eq_true_eq]
    omega
  · have := flatTab_three (flat_str (Number.int n).text) (a := bytes ":") (c := crlf)
    rw [text_int n h] at this
    simpa [sendReply, Reply.bytes, bytes, text_int n h] using this

/-! ## Values that become bulk strings -/

/-- A value that is written as a bulk string, nil as a null. -/
def BulkLike (v : Value) : Prop := ∃ r : Reply, r.isBulk = true ∧ r.wf = true ∧ encodeArg v = encodeArg r.val

theorem bulkLike_nil : BulkLike .nil := ⟨.nilBulk, rfl, by decide, rfl⟩

/-- The element of an array goes out as a bulk string: it is a string or a null. -/
def Textual : Reply → Bool
  | .status s => s.length ≤ maxStr
  | .bulk _ => true
  | .nilBulk => true
  | .nilArray => true
  | _ => false

theorem Textual.bulkLike {r : Reply} (h : Textual r = true) (hw : r.wf = true) : BulkLike r.val := by
  cases r with
  | status s => exact ⟨.bulk s, rfl, h, rfl⟩
  | bulk s => exact ⟨.bulk s, rfl, hw, rfl⟩
  | nilBulk => exact ⟨.nilBulk, rfl, hw, rfl⟩
  | nilArray => exact ⟨.nilBulk, rfl, by decide, rfl⟩
  | _ => cases h

/-- Values that become bulk strings are encoded as these. -/
theorem encodeArgs_bulkLike {vs : List Value} (h : ∀ v ∈ vs, BulkLike v) :
    ∃ l x, l.length = vs.length ∧ (∀ r ∈ l, r.wf = true) ∧ encodeArgs vs = .ok x ∧
      flatTab x = .ok (Reply.bytesList l) := by
  induction vs with
  | nil => exact ⟨[], [], rfl, by simp, rfl, by simp [Reply.bytesList]⟩
  | cons v vs ih =>
    obtain ⟨l, x, hlen, hwf, hx, hf⟩ := ih fun v hv => h v (List.mem_cons_of_mem _ hv)
    obtain ⟨r, hb, hw, hv⟩ := h v (List.mem_cons_self ..)
    obtain ⟨y, hy, hfy⟩ := encodeArg_bulk hb hw
    refine ⟨r :: l, y ++ x, by simp [hlen], List.forall_mem_cons.2 ⟨hw, hwf⟩, ?_, ?_⟩
    · rw [encodeArgs, hv, hy, hx]
    · rw [flatTab_append_ok hfy hf, Reply.bytesList]

/-- Bulk strings behind the header of an array are an array. -/
theorem array_replied {l : List Reply} {x : List Value} (hlen : l.length ≤ maxArgs) (hwf : ∀ r ∈ l, r.wf = true)
    (hf : flatTab x = .ok (Reply.bytesList l)) :
    Replied (some (.str (bytes "*" ++ (Number.int l.length).text ++ crlf) :: x)) := by
  have harr : l.length ≤ maxArr := hlen.trans (by decide)
  refine ⟨.array l, ?_, ?_⟩
  · rw [Reply.wf, decide_eq_true harr, wfList_of_mem hwf]
    rfl
  · rw [sendReply, flatTab_cons_ok (flat_str _) hf, args_text hlen]
    simp [Reply.bytes, bytes]

/-! ## Single-key commands -/

/-- The replies `encode` can pass on: integers that `tostring` writes in full, and arrays of strings and
nulls whose table can be made. -/
def Relayable : Reply → Bool
  | .int n => n.natAbs < 10 ^ 14
  | .array l => l.length ≤ maxArgs && l.all Textual
  | .nilArray => false
  | _ => true

theorem relayable_replied {r : Reply} (hw : r.wf = true) (hv : r.isError = false) (hr : Relayable r = true) :
    ∃ l, redisKeyReply r.ret = .ok (some l) ∧ Replied (some l) := by
  cases r with
  | status s =>
    refine ⟨_, rfl, .status s, hw, ?_⟩
    have := flatTab_three (flat_str s) (a := bytes "+") (c := crlf)
    simpa [sendReply, Reply.bytes, Reply.ret, bytes] using this
  | error s => cases hv
  | int n =>
    have hn : n.natAbs < 10 ^ 14 := by simpa [Relayable] using hr
    rw [Reply.ret, redisKeyReply_value, toDouble_small n (by omega)]
    exact int_replied hn
  | bulk s =>
    obtain ⟨x, hx, hf⟩ := encodeArg_bulk (r := .bulk s) rfl hw
    exact ⟨x, congrArg (Except.map some) hx, .bulk s, hw, hf⟩
  | nilBulk => exact ⟨_, rfl, .nilBulk, hw, rfl⟩
  | nilArray => cases hr
  | array l =>
    obtain ⟨hlen, htext⟩ : l.length ≤ maxArgs ∧ ∀ r ∈ l, Textual r = true := by simpa [Relayable] using hr
    simp only [Reply.wf, Bool.and_eq_true, decide_eq_true_eq] at hw
    have hlike : ∀ v ∈ l.map Reply.val, BulkLike v := by
      intro v hv
      obtain ⟨r, hr, rfl⟩ := List.mem_map.1 hv
      exact Textual.bulkLike (htext r hr) (wfList_mem hw.2 r hr)
    obtain ⟨l', x, hcount, hwf, hx, hf⟩ := encodeArgs_bulkLike hlike
    rw [List.length_map] at hcount
    refine ⟨_, (redisKeyReply_array l).trans (encode_tab (by rwa [List.length_map]) hx), ?_⟩
    rw [List.length_map, ← hcount]
    exact array_replied (hcount.trans_le hlen) hwf hf

section Guarded

variable {σ γ : Type} {log : σ → List γ} {G : γ → Prop} {P : σ → Prop} {send : Send σ} {cmd : Bytes} {Q : Reply → Prop}

/-- Sending a command keeps the invariant `P` and returns an error line or a reply of `Q`, unless
something is logged that is not of `G`. -/
def Serves (log : σ → List γ) (G : γ → Prop) (P : σ → Prop) (Q : Reply → Prop) (send : Send σ) (slot : Option SlotKey)
    (cmd : Bytes) (args : List Bytes) : Prop :=
  Prog.Guarded log G P (send slot cmd args) fun ret w => Returned Q ret ∧ P w

/-- The command function keeps `P` and has a reply, with the same proviso. -/
def Handles (log : σ → List γ) (G : γ → Prop) (P : σ → Prop) (x : Prog LuaError σ (Option (List Value))) : Prop :=
  Prog.Guarded log G P x fun rsp w => Replied rsp ∧ P w

theorem redisKey_handles {args : List Bytes} (hlen : args.length + 2 ≤ maxStack)
    (h : Serves log G P (fun r => Relayable r = true) send none cmd args) :
    Handles log G P (redisKey send cmd args) := by
  unfold redisKey
  rw [if_neg (by omega)]
  refine Prog.Guarded.bind h fun ret w => ⟨[], by simp, ?_⟩
  rintro ⟨hret, hw⟩ -
  cases hret with
  | reply r wf value suits =>
    obtain ⟨l, hl, hrep⟩ := relayable_replied wf value suits
    exact ⟨some l, w, by rw [Prog.lift_run, hl], hrep, hw⟩
  | error pre t line =>
    exact ⟨_, w, by rw [Prog.lift_run, redisKeyReply_error, encode_error], error_replied (.inl ⟨t, line, rfl⟩), hw⟩
  | nothing => exact ⟨none, w, rfl, serverErr_replied, hw⟩

/-! ## Multi-key commands -/

variable {τ : Type}

/-- What holds of the answer to every call, and of the world after the calls. -/
theorem calls_guarded {ι : Type} {body : Thread ι σ τ} {R : Ret → Prop} {pool : List ι}
    (hcall : ∀ t ∈ pool, Prog.Guarded log G P (body.call t) fun ret w => R ret ∧ P w) {w w' : σ}
    {cs : List (ι × Except LuaError Ret)} (h : Calls body w cs w') (hin : ∀ p ∈ cs, p.1 ∈ pool) :
    ∃ es, log w' = log w ++ es ∧ (P w → (∀ e ∈ es, G e) → P w' ∧ ∀ p ∈ cs, ∃ ret, p.2 = .ok ret ∧ R ret) := by
  induction h with
  | nil => exact ⟨[], by simp, fun hw _ => ⟨hw, by simp⟩⟩
  | @snoc cs w' t _ ih =>
    obtain ⟨es, hes, ih⟩ := ih fun p hp => hin p (List.mem_append_left _ hp)
    obtain ⟨fs, hfs, hc⟩ := hcall t (hin _ (List.mem_append_right _ (List.mem_singleton_self _))) w'
    refine ⟨es ++ fs, by rw [hfs, hes, List.append_assoc], fun hw hG => ?_⟩
    obtain ⟨hw', hcs⟩ := ih hw fun e he => hG e (List.mem_append_left _ he)
    obtain ⟨ret, w'', hrun, hR, hP⟩ := hc hw' fun e he => hG e (List.mem_append_right _ he)
    rw [hrun]
    refine ⟨hP, fun p hp => ?_⟩
    rcases List.mem_append.1 hp with hp | hp
    · exact hcs p hp
    · rw [List.mem_singleton.1 hp]
      exact ⟨ret, rfl, hR⟩

/-- What the parent finds when it has waited: the threads `fs` have ended, each with an answer; one of them
did not end with `LHLH_OK` and gives the error, or all have, and one of them gives the prefix. -/
structure Waited (body : Worker σ τ) (Q : Reply → Prop) (pool : List Part) (m : τ) (st : Status) (mem : τ)
    (fs : List (Part × Except LuaError Ret)) : Prop where
  mem : mem = finishAll body fs m
  answers : ∀ p ∈ fs, p.1 ∈ pool ∧ ∃ ret, p.2 = .ok ret ∧ Returned Q ret
  ended : (st.rc ≠ lhlhOk ∧ ∃ p ∈ fs, ∃ m', endedWell (body.finish p.1 p.2 m').1 = false ∧
      st.err = errorOf (body.finish p.1 p.2 m').1) ∨
    st.rc = lhlhOk ∧ fs.length = pool.length ∧ (∀ p ∈ fs, ∃ m', endedWell (body.finish p.1 p.2 m').1 = true) ∧
      (pool = [] ∧ st.pre = none ∨
        ∃ p ∈ fs, ∃ m' st', (body.finish p.1 p.2 m').1 = .ok st' ∧ st'.rc = lhlhOk ∧ st.pre = st'.pre)

theorem threadWait_guarded (body : Worker σ τ) {pool : List Part}
    (hcall : ∀ g w, body.call g w = subRequest send g.1 cmd g.2 w)
    (hserve : ∀ g ∈ pool, Serves log G P Q send (some g.1) cmd g.2) (hlen : ∀ g ∈ pool, g.2.length + 1 ≤ maxStack)
    (steps : Nat → List Nat) (m : τ) (w : σ) :
    ∃ st s es, threadWait body pool steps w m = (st, s) ∧ log s.world = log w ++ es ∧
      (P w → (∀ e ∈ es, G e) → P s.world ∧ ∃ fs, Waited body Q pool m st s.mem fs) := by
  obtain ⟨st, s, cs, fs, hwait, hcalls, hmem, hsub, hpool, -, hended⟩ := threadWait_run body pool steps w m
  have hin : ∀ p ∈ cs, p.1 ∈ pool := fun p hp => hpool.subset (List.mem_map_of_mem hp)
  have hguard : ∀ g ∈ pool, Prog.Guarded log G P (body.call g) fun ret w => Returned Q ret ∧ P w := by
    intro g hg w
    rw [hcall, subRequest_run _ _ _ (hlen g hg)]
    exact hserve g hg w
  obtain ⟨es, hes, hall⟩ := calls_guarded hguard hcalls hin
  refine ⟨st, s, es, hwait, hes, fun hw hG => ?_⟩
  obtain ⟨hw', hans⟩ := hall hw hG
  refine ⟨hw', fs, hmem, fun p hp => ⟨hin p (hsub hp), hans p (hsub hp)⟩, hended.imp_right ?_⟩
  rintro ⟨hrc, hcs, hfs, hwell, hpre⟩
  refine ⟨hrc, ?_, hwell, hpre⟩
  rw [hfs.length_eq, ← List.length_map (f := (·.1)), hcs.length_eq]

/-- The threads that do not end with `LHLH_OK` leave something that can be encoded as an error. -/
def Explains (body : Worker σ τ) (Q : Reply → Prop) (pool : List Part) : Prop :=
  ∀ g ∈ pool, ∀ ret m, Returned Q ret → endedWell (body.finish g (.ok ret) m).1 = false →
    ErrorValue (errorOf (body.finish g (.ok ret) m).1)

theorem Waited.error {body : Worker σ τ} {pool : List Part} {m mem : τ} {st : Status}
    {fs : List (Part × Except LuaError Ret)} (h : Waited body Q pool m st mem fs) (hbody : Explains body Q pool)
    (hrc : st.rc ≠ lhlhOk) : ErrorValue st.err := by
  rcases h.ended with ⟨-, p, hp, m', hbad, herr⟩ | ⟨hok, -⟩
  · obtain ⟨hpool, ret, hret, hans⟩ := h.answers p hp
    rw [hret] at hbad herr
    rw [herr]
    exact hbody p.1 hpool ret m' hans hbad
  · exact absurd hok hrc

theorem Waited.ok {body : Worker σ τ} {pool : List Part} {m mem : τ} {st : Status}
    {fs : List (Part × Except LuaError Ret)} (h : Waited body Q pool m st mem fs) (hrc : ¬ st.rc ≠ lhlhOk) :
    fs.length = pool.length ∧ (∀ p ∈ fs, ∃ m', endedWell (body.finish p.1 p.2 m').1 = true) ∧
      (pool = [] ∧ st.pre = none ∨
        ∃ p ∈ fs, ∃ m' st', (body.finish p.1 p.2 m').1 = .ok st' ∧ st'.rc = lhlhOk ∧ st.pre = st'.pre) := by
  rcases h.ended with ⟨hbad, -⟩ | ⟨-, hend⟩
  · exact absurd hbad hrc
  · exact hend

/-- A thread that was given an error line ends with it. -/
theorem errorValue_line {pre : Option Nat} {t : Bytes} (line : isLine t = true) :
    ErrorValue (errorOf (.ok ⟨lhlhError, pre, .str t⟩)) := .inl ⟨t, line, rfl⟩

theorem slotTable_slot {keys : List Bytes} {g : Part} (hg : g ∈ slotTable keys) : ErrorValue (slotValue g.1) := by
  have hkey := ((grouped_group _).keys g.1).1 (List.mem_map_of_mem (f := (·.1)) hg)
  obtain ⟨i, hi, hg'⟩ := List.mem_map.1 hkey
  obtain ⟨k, -, rfl⟩ := List.mem_map.1 hi
  rw [← hg']
  exact .inr ⟨keyHashSlot k, keyHashSlot_lt k, rfl⟩

/-! ## DEL and EXISTS -/

/-- A count of at most `N`, or no number at all. -/
def CountTo (N : Nat) (r : Reply) : Prop := ∀ n, r.ret.val.toNum = some n → ∃ z : Int, r = .int z ∧ z.natAbs ≤ N

/-- The thread of a part: its count is added, or it ends with an error. -/
theorem multiKeys_ends (left : LuaError → Value) (send : Send σ) (cmd : Bytes) {N : Nat} (hN : N ≤ 2 ^ 53) {g : Part}
    (hg : ErrorValue (slotValue g.1)) {ret : Ret} (h : Returned (CountTo N) ret) :
    (∀ m, endedWell ((multiKeys left send cmd).finish g (.ok ret) m).1 = false ∧
        ErrorValue (errorOf ((multiKeys left send cmd).finish g (.ok ret) m).1)) ∨
      ∃ z : Int, z.natAbs ≤ N ∧ ∀ m, (multiKeys left send cmd).finish g (.ok ret) m =
        (.ok ⟨lhlhOk, some typeIntegerReply, .nil⟩, m.add (.int z)) := by
  cases h with
  | reply r wf value suits =>
    obtain ⟨v, pre, hret, -⟩ := Reply.ret_value value
    rcases hnum : r.ret.val.toNum with _ | n
    · left
      intro m
      rw [hret] at hnum ⊢
      simp only [multiKeys, Value.truthy, Bool.false_eq_true, if_false, hnum]
      exact ⟨rfl, hg⟩
    · right
      obtain ⟨z, rfl, hz⟩ := suits n hnum
      refine ⟨z, hz, fun m => ?_⟩
      rw [Reply.ret, toDouble_small z (hz.trans hN)]
      rfl
  | error pre t line => exact .inl fun m => ⟨rfl, errorValue_line line⟩
  | nothing => exact .inl fun m => ⟨rfl, hg⟩

/-- The counter is the sum of the counts, whatever the order of the threads. -/
theorem finishAll_num {body : Worker σ Number} {N : Nat} {fs : List (Part × Except LuaError Ret)}
    (hfs : ∀ p ∈ fs, ∃ z : Int, z.natAbs ≤ N ∧ ∀ m, (body.finish p.1 p.2 m).2 = m.add (.int z)) {z : Int}
    (hz : z.natAbs + fs.length * N ≤ 2 ^ 53) :
    ∃ z' : Int, finishAll body fs (.int z) = .int z' ∧ z'.natAbs ≤ z.natAbs + fs.length * N := by
  induction fs generalizing z with
  | nil => exact ⟨z, rfl, Nat.le_add_right _ _⟩
  | cons p fs ih =>
    obtain ⟨n, hn, hp⟩ := hfs p (List.mem_cons_self ..)
    rw [List.length_cons, Nat.add_mul, Nat.one_mul] at hz ⊢
    generalize hM : fs.length * N = M at hz ih ⊢
    have hadd := add_int z n (by omega)
    obtain ⟨z', hz', hle⟩ := ih (fun q hq => hfs q (List.mem_cons_of_mem _ hq)) (z := z + n) (by omega)
    refine ⟨z', ?_, by omega⟩
    rw [finishAll, List.foldl_cons, hp, hadd]
    exact hz'

theorem redisMultiKeys_handles {keys : List Bytes} (sc : Sched)
    (hlen : ∀ g ∈ slotTable keys, g.2.length + 1 ≤ maxStack)
    (h : ∀ g ∈ slotTable keys, Serves log G P (CountTo (2 ^ 32)) send (some g.1) cmd g.2) :
    Handles log G P (redisMultiKeys send sc cmd keys) := by
  intro w
  have hperm := sc.arrange_perm (slotTable_nodup keys)
  have hfinish {g : Part} (hg : g ∈ sc.arrange (slotTable keys)) {ret : Ret} (hret : Returned (CountTo (2 ^ 32)) ret) :=
    multiKeys_ends sc.left send cmd (by norm_num) (slotTable_slot (hperm.subset hg)) hret
  obtain ⟨st, s, es, hwait, hlog, hall⟩ := threadWait_guarded (multiKeys sc.left send cmd) (fun g w => rfl)
    (fun g hg => h g (hperm.subset hg)) (fun g hg => hlen g (hperm.subset hg)) sc.steps (.int 0) w
  simp only [redisMultiKeys, countOver, hwait]
  refine ⟨es, by split <;> exact hlog, fun hw hG => ?_⟩
  obtain ⟨hP, fs, hfs⟩ := hall hw hG
  split
  · rename_i hrc
    have herr : ErrorValue st.err := hfs.error (fun g hg ret m hret hbad => by
      rcases hfinish hg hret with hbad' | ⟨z, -, hgood⟩
      · exact (hbad' m).2
      · rw [hgood] at hbad
        cases hbad) hrc
    exact ⟨_, s.world, by rw [encode_error], error_replied herr, hP⟩
  · rename_i hrc
    obtain ⟨hcount, hwell, hpre⟩ := hfs.ok hrc
    have hadds : ∀ p ∈ fs, ∃ z : Int, z.natAbs ≤ 2 ^ 32 ∧ ∀ m, (multiKeys sc.left send cmd).finish p.1 p.2 m =
        (.ok ⟨lhlhOk, some typeIntegerReply, .nil⟩, m.add (.int z)) := by
      intro p hp
      obtain ⟨hpool, ret, hret, hans⟩ := hfs.answers p hp
      obtain ⟨m', hgood⟩ := hwell p hp
      rw [hret] at hgood ⊢
      rcases hfinish hpool hans with hbad | hadd
      · rw [(hbad m').1] at hgood
        cases hgood
      · exact hadd
    have hparts : fs.length ≤ 16384 := by
      have hle := slotTable_length_le keys keyHashSlot_lt
      rwa [← hperm.length_eq, ← hcount] at hle
    obtain ⟨z, hz, hle⟩ := finishAll_num (fun p hp => (hadds p hp).imp fun z hz => ⟨hz.1, fun m => by rw [hz.2]⟩)
      (z := 0) (by rw [Int.natAbs_zero]; omega)
    rw [hfs.mem, hz]
    rcases hpre with ⟨-, hpre⟩ | ⟨p, hp, m', st', hst, -, hpre⟩ <;> rw [hpre]
    · exact ⟨none, s.world, rfl, serverErr_replied, hP⟩
    · obtain ⟨n, -, hadd⟩ := hadds p hp
      rw [hadd] at hst
      cases hst
      obtain ⟨l, hl, hrep⟩ := int_replied (n := z) (by rw [Int.natAbs_zero] at hle; omega)
      exact ⟨some l, s.world, by rw [← hl], hrep, hP⟩

/-! ## MSET -/

/-- Any reply but an integer: `OK` is sent under its prefix. -/
def NotInt (r : Reply) : Prop := ∀ n, r ≠ .int n

/-- `OK` under the prefix of any other reply. -/
theorem ok_replied {r : Reply} (h : NotInt r) :
    ∃ rsp, encode (.str (bytes "OK")) r.ret.pre = .ok rsp ∧ Replied rsp := by
  cases r with
  | status t => exact ⟨_, rfl, .status (bytes "OK"), by decide, rfl⟩
  | error t => exact ⟨_, rfl, .error (bytes "OK"), by decide, rfl⟩
  | int n => exact absurd rfl (h n)
  | bulk t => exact ⟨_, rfl, .bulk (bytes "OK"), by decide, rfl⟩
  | nilBulk => exact ⟨_, rfl, .bulk (bytes "OK"), by decide, rfl⟩
  | nilArray => exact ⟨_, rfl, .array [.nilBulk, .nilBulk], by decide, rfl⟩
  | array l => exact ⟨_, rfl, .array [.nilBulk, .nilBulk], by decide, rfl⟩

theorem multiKvs_value (left : LuaError → Value) (send : Send σ) (cmd : Bytes) (g : Part) (v : Value)
    (pre : Option Nat) :
    (multiKvs left send cmd).finish g (.ok ⟨v, pre, .nil⟩) () = (.ok ⟨lhlhOk, pre, .nil⟩, ()) := rfl

theorem redisKvs_handles {args : List Bytes} (sc : Sched) (hlen : ∀ g ∈ kvTable args, g.2.length + 1 ≤ maxStack)
    (h : ∀ g ∈ kvTable args, Serves log G P NotInt send (some g.1) cmd g.2) :
    Handles log G P (redisKvs send sc cmd args) := by
  intro w
  have hperm := sc.arrange_perm (kvTable_nodup args)
  obtain ⟨st, s, es, hwait, hlog, hall⟩ := threadWait_guarded (multiKvs sc.left send cmd) (fun g w => rfl)
    (fun g hg => h g (hperm.subset hg)) (fun g hg => hlen g (hperm.subset hg)) sc.steps () w
  simp only [redisKvs, kvsOver, hwait]
  refine ⟨es, by split <;> exact hlog, fun hw hG => ?_⟩
  obtain ⟨hP, fs, hfs⟩ := hall hw hG
  split
  · rename_i hrc
    have herr : ErrorValue st.err := hfs.error (fun g _ ret m hret hbad => by
      cases hret with
      | reply r wf value suits =>
        obtain ⟨v, pre, hr, -⟩ := Reply.ret_value value
        rw [hr, multiKvs_value] at hbad
        cases hbad
      | error pre t line => exact errorValue_line line
      | nothing => cases hbad) hrc
    exact ⟨_, s.world, by rw [encode_error], error_replied herr, hP⟩
  · rename_i hrc
    obtain ⟨-, -, hpre⟩ := hfs.ok hrc
    rcases hpre with ⟨-, hpre⟩ | ⟨p, hp, m', st', hst, hrc', hpre⟩ <;> rw [hpre]
    · exact ⟨none, s.world, rfl, serverErr_replied, hP⟩
    · obtain ⟨-, ret, hret, hans⟩ := hfs.answers p hp
      rw [hret] at hst
      cases hans with
      | reply r wf value suits =>
        obtain ⟨v, pre, hr, -⟩ := Reply.ret_value value
        obtain ⟨rsp, hrsp, hrep⟩ := ok_replied suits
        rw [hr] at hst hrsp
        cases hst
        exact ⟨rsp, s.world, by rw [← hrsp], hrep, hP⟩
      | error pre t line =>
        cases hst
        exact absurd (show lhlhError = lhlhOk from hrc') (by decide)
      | nothing =>
        cases hst
        exact ⟨none, s.world, rfl, serverErr_replied, hP⟩

/-! ## MGET -/

/-- An array has strings and nulls only. Of any other reply no element is read, or a raise ends the thread. -/
def Texts (r : Reply) : Prop := ∀ l, r = .array l → ∀ x ∈ l, Textual x = true

theorem Texts.index {r : Reply} (h : Texts r) (hw : r.wf = true) {i : Nat} {v : Value}
    (hv : r.ret.val.index i = .ok v) : BulkLike v := by
  cases r with
  | array l =>
    simp only [Reply.wf, Bool.and_eq_true] at hw
    have hv' : (l.map Reply.val)[i - 1]?.getD .nil = v := by
      simpa [Reply.ret, Value.index, vals_eq_map] using hv
    rcases hx : l[i - 1]? with _ | x
    · rw [List.getElem?_map, hx] at hv'
      exact hv' ▸ bulkLike_nil
    · rw [List.getElem?_map, hx] at hv'
      have hmem := List.mem_of_getElem? hx
      exact hv' ▸ Textual.bulkLike (h l rfl x hmem) (wfList_mem hw.2 x hmem)
  | status s =>
    cases hv
    exact bulkLike_nil
  | bulk s =>
    cases hv
    exact bulkLike_nil
  | _ => cases hv

/-- A cell that still is its key, or was filled with what becomes a bulk string. -/
def Cell (c : Value) : Prop := (∃ k, c = .str k) ∨ ∃ k v, BulkLike v ∧ c = .tab [k, v]

/-- As many cells as before. -/
def Cells (n : Nat) (cells : List Value) : Prop := cells.length = n ∧ ∀ c ∈ cells, Cell c

theorem fillKey_keeps {k : Value} {x : Except LuaError Value} (hx : ∀ v, x = .ok v → BulkLike v) {n : Nat}
    {cells cells' : List Value} (hc : Cells n cells) (h : fillKey k x cells = .ok cells') : Cells n cells' := by
  induction cells generalizing n cells' with
  | nil =>
    cases h
    exact hc
  | cons c cells ih =>
    obtain ⟨rfl, hcells⟩ := hc
    rw [List.forall_mem_cons] at hcells
    rw [fillKey] at h
    split at h
    · cases x with
      | error e => cases h
      | ok v =>
        cases h
        exact ⟨rfl, List.forall_mem_cons.2 ⟨.inr ⟨k, v, hx v rfl, rfl⟩, hcells.2⟩⟩
    · rcases hrest : fillKey k x cells with e | rest <;> rw [hrest] at h <;> cases h
      obtain ⟨hlen, hall⟩ := ih ⟨rfl, hcells.2⟩ hrest
      exact ⟨by rw [List.length_cons, List.length_cons, hlen], List.forall_mem_cons.2 ⟨hcells.1, hall⟩⟩

theorem fillKeys_keeps {values : Value} (hv : ∀ i v, values.index i = .ok v → BulkLike v) {n : Nat} (i : Nat)
    (ks : List Value) {cells : List Value} (hc : Cells n cells) : Cells n (fillKeys values i ks cells).2 := by
  induction ks generalizing i cells with
  | nil => exact hc
  | cons k ks ih =>
    rw [fillKeys]
    rcases hf : fillKey k (values.index i) cells with e | cells'
    · exact hc
    · exact ih (i + 1) (fillKey_keeps (hv i) hc hf)

/-- A thread fills cells, and whatever else happens in it is an error line or the slot. -/
theorem multiMgetKeys_ends (left : LuaError → Value) (send : Send σ) (cmd : Bytes) {g : Part}
    (hg : ErrorValue (slotValue g.1)) {ret : Ret} (h : Returned Texts ret) (cells : List Value) :
    (∀ n, Cells n cells → Cells n ((multiMgetKeys .str left send cmd).finish g (.ok ret) cells).2) ∧
      (endedWell ((multiMgetKeys .str left send cmd).finish g (.ok ret) cells).1 = false →
        ErrorValue (errorOf ((multiMgetKeys .str left send cmd).finish g (.ok ret) cells).1)) := by
  -- a reply without an error is taken apart element by element
  have hvalue : ∀ v pre, (∀ i x, v.index i = .ok x → BulkLike x) →
      (∀ n, Cells n cells → Cells n ((multiMgetKeys .str left send cmd).finish g (.ok ⟨v, pre, .nil⟩) cells).2) ∧
        (endedWell ((multiMgetKeys .str left send cmd).finish g (.ok ⟨v, pre, .nil⟩) cells).1 = false →
          ErrorValue (errorOf ((multiMgetKeys .str left send cmd).finish g (.ok ⟨v, pre, .nil⟩) cells).1)) := by
    intro v pre hv
    have hkeeps : ∀ n, Cells n cells → Cells n (fillKeys v 1 (g.2.map .str) cells).2 := fun n hc =>
      fillKeys_keeps hv 1 _ hc
    simp only [multiMgetKeys, Value.truthy, Bool.false_eq_true, if_false]
    rcases hf : fillKeys v 1 (g.2.map .str) cells with ⟨e | u, cells'⟩ <;> rw [hf] at hkeeps
    · exact ⟨hkeeps, fun _ => hg⟩
    · exact ⟨hkeeps, fun hbad => by cases hbad⟩
  cases h with
  | reply r wf value suits =>
    obtain ⟨v, pre, hret, -⟩ := Reply.ret_value value
    have hindex : ∀ i x, v.index i = .ok x → BulkLike x := fun i x hx =>
      suits.index wf (i := i) (by rw [hret]; exact hx)
    rw [hret]
    exact hvalue v pre hindex
  | error pre t line => exact ⟨fun n hc => hc, fun _ => errorValue_line line⟩
  | nothing => exact hvalue .nil none fun i x hx => by cases hx

/-- The cells after any number of threads. -/
theorem finishAll_keeps (left : LuaError → Value) (send : Send σ) (cmd : Bytes) {pool : List Part}
    (hpool : ∀ g ∈ pool, ErrorValue (slotValue g.1)) {fs : List (Part × Except LuaError Ret)}
    (hfs : ∀ p ∈ fs, p.1 ∈ pool ∧ ∃ ret, p.2 = .ok ret ∧ Returned Texts ret) {n : Nat} {cells : List Value}
    (hc : Cells n cells) : Cells n (finishAll (multiMgetKeys .str left send cmd) fs cells) := by
  induction fs generalizing cells with
  | nil => exact hc
  | cons p fs ih =>
    rw [List.forall_mem_cons] at hfs
    obtain ⟨⟨hg, ret, hret, hans⟩, hfs⟩ := hfs
    have hone := (multiMgetKeys_ends left send cmd (hpool p.1 hg) hans cells).1 n hc
    rw [← hret] at hone
    exact ih hfs hone

/-- Cells become bulk strings. -/
theorem mgetArgs_bulkLike {cells : List Value} (h : ∀ c ∈ cells, Cell c) :
    ∃ vs : List Value, vs.length = cells.length ∧ (∀ v ∈ vs, BulkLike v) ∧ mgetArgs cells = encodeArgs vs := by
  induction cells with
  | nil => exact ⟨[], rfl, by simp, rfl⟩
  | cons c cells ih =>
    rw [List.forall_mem_cons] at h
    obtain ⟨vs, hlen, hall, hargs⟩ := ih h.2
    obtain ⟨v, hv, harg⟩ : ∃ v, BulkLike v ∧ mgetArg c = encodeArg v := by
      rcases h.1 with ⟨k, rfl⟩ | ⟨k, v, hv, rfl⟩
      · exact ⟨.nil, bulkLike_nil, rfl⟩
      · exact ⟨v, hv, rfl⟩
    refine ⟨v :: vs, by rw [List.length_cons, List.length_cons, hlen], List.forall_mem_cons.2 ⟨hv, hall⟩, ?_⟩
    cases hx : encodeArg v with
    | error e => simp only [mgetArgs, encodeArgs, harg, hx]
    | ok x =>
      cases hy : encodeArgs vs with
      | error e => simp only [mgetArgs, encodeArgs, harg, hargs, hx, hy]
      | ok y => simp only [mgetArgs, encodeArgs, harg, hargs, hx, hy]

theorem redisMgetKeys_handles {keys : List Bytes} (sc : Sched) (hkeys : keys.length ≤ maxArgs)
    (hlen : ∀ g ∈ slotTable keys, g.2.length + 1 ≤ maxStack)
    (h : ∀ g ∈ slotTable keys, Serves log G P Texts send (some g.1) (lower cmd) g.2) :
    Handles log G P (redisMgetKeys send sc cmd keys) := by
  intro w
  have hperm := sc.arrange_perm (slotTable_nodup keys)
  obtain ⟨st, s, es, hwait, hlog, hall⟩ := threadWait_guarded (multiMgetKeys .str sc.left send (lower cmd))
    (fun g w => rfl) (fun g hg => h g (hperm.subset hg)) (fun g hg => hlen g (hperm.subset hg)) sc.steps
    (keys.map Value.str) w
  simp only [redisMgetKeys, mgetOver, hwait]
  refine ⟨es, by split <;> exact hlog, fun hw hG => ?_⟩
  obtain ⟨hP, fs, hfs⟩ := hall hw hG
  split
  · rename_i hrc
    have herr : ErrorValue st.err := hfs.error (fun g hg ret m hret =>
      (multiMgetKeys_ends sc.left send (lower cmd) (slotTable_slot (hperm.subset hg)) hret m).2) hrc
    exact ⟨_, s.world, by rw [encode_error], error_replied herr, hP⟩
  · have hstart : Cells keys.length (keys.map Value.str) := by
      refine ⟨List.length_map _, fun c hc => ?_⟩
      obtain ⟨k, -, rfl⟩ := List.mem_map.1 hc
      exact .inl ⟨k, rfl⟩
    obtain ⟨hcount, hall⟩ := finishAll_keeps sc.left send (lower cmd) (fun g hg => slotTable_slot (hperm.subset hg))
      hfs.answers hstart
    rw [← hfs.mem] at hcount hall
    obtain ⟨vs, hvs, hlike, hargs⟩ := mgetArgs_bulkLike hall
    obtain ⟨l, x, hl, hwf, hx, hf⟩ := encodeArgs_bulkLike hlike
    have hsize : l.length = keys.length := by rw [hl, hvs, hcount]
    rw [hargs, hx, ← hsize]
    exact ⟨_, s.world, rfl, array_replied (hsize.trans_le hkeys) hwf hf, hP⟩

end Guarded

end NgProxy.Process
