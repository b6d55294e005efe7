/-
MGET keeps the order of its keys. The threads of all slots write into the one `req_data` while
others still search it, and a repeated key has to find its next position; whatever the order of
the slots and the interleaving of the threads, the reply table is the one `encode` builds from the
keys' values in request order.
-/
import NgProxy.Process.Split

namespace NgProxy.Process

open Lua Codec Cluster GroupBy Pool

/-- A key's value as a reply holds it: a bulk string, or `ngx.null` for a missing key. -/
def bulkVal : Option Bytes → Value
  | some s => .str s
  | none => .null

/-! ## Cells -/

section Cells

/-- The keys of the cells still to be filled. -/
def unfilled (l : List (Bytes × Bool)) : List Bytes := (l.filter fun c => !c.2).map (·.1)

/-- Fill the first cell that still is the key `k`. -/
def mark (k : Bytes) : List (Bytes × Bool) → List (Bytes × Bool)
  | [] => []
  | (c, false) :: l => if c = k then (c, true) :: l else (c, false) :: mark k l
  | (c, true) :: l => (c, true) :: mark k l

theorem mark_keys (k : Bytes) (l : List (Bytes × Bool)) : (mark k l).map (·.1) = l.map (·.1) := by
  induction l with
  | nil => rfl
  | cons c l ih =>
    obtain ⟨c, _ | _⟩ := c
    · simp only [mark]
      split <;> simp [ih]
    · simp [mark, ih]

theorem unfilled_mark (k : Bytes) (l : List (Bytes × Bool)) : unfilled (mark k l) = (unfilled l).erase k := by
  induction l with
  | nil => rfl
  | cons c l ih =>
    obtain ⟨c, _ | _⟩ := c
    · simp only [mark]
      split
      · rename_i h
        subst h
        simp [unfilled]
      · rename_i h
        have hne : (c == k) = false := by simpa using h
        simpa [unfilled, List.erase_cons, hne] using ih
    · simpa [mark, unfilled] using ih

/-- Once every key has been processed as often as it occurs, every cell is filled. -/
theorem foldl_mark_filled (ks : List Bytes) (l : List (Bytes × Bool)) (h : (unfilled l).Perm ks) :
    ks.foldl (fun l k => mark k l) l = l.map fun c => (c.1, true) := by
  induction ks generalizing l with
  | nil =>
    have hnil := h.eq_nil
    simp only [unfilled, List.map_eq_nil_iff, List.filter_eq_nil_iff] at hnil
    refine (List.map_id l).symm.trans (List.map_congr_left fun c hc => ?_)
    have := hnil c hc
    obtain ⟨c, _ | _⟩ := c
    · exact absurd rfl this
    · rfl
  | cons k ks ih =>
    have hperm : (unfilled (mark k l)).Perm ks := by
      rw [unfilled_mark]
      simpa using h.erase k
    have hk := mark_keys k l
    rw [List.foldl_cons, ih _ hperm]
    have := congrArg (List.map fun c : Bytes => (c, true)) hk
    simpa [List.map_map, Function.comp_def] using this

variable {Q : Bytes → Value → Prop}

/-- A cell of `req_data`: still its key, or already the pair of the key and a value `Q` allows. -/
def CellOf (Q : Bytes → Value → Prop) (c : Bytes × Bool) (x : Value) : Prop :=
  if c.2 then ∃ v, Q c.1 v ∧ x = .tab [.str c.1, v] else x = .str c.1

/-- The inner loop fills a cell. -/
theorem fillKey_cells {k : Bytes} {v : Value} (hv : Q k v) {l : List (Bytes × Bool)} {cells : List Value}
    (h : List.Forall₂ (CellOf Q) l cells) :
    ∃ cells', fillKey (.str k) (.ok v) cells = .ok cells' ∧ List.Forall₂ (CellOf Q) (mark k l) cells' := by
  induction h with
  | nil => exact ⟨[], rfl, .nil⟩
  | @cons c x l cells hc hl ih =>
    obtain ⟨cells', hfill, hcells⟩ := ih
    obtain ⟨c, _ | _⟩ := c
    · have hx : x = .str c := hc
      subst hx
      by_cases hk : c = k
      · subst hk
        refine ⟨.tab [.str c, v] :: cells, by simp [fillKey, Value.eqStr, Except.map], ?_⟩
        rw [mark, if_pos rfl]
        exact .cons ⟨v, hv, rfl⟩ hl
      · refine ⟨.str c :: cells', by simp [fillKey, Value.eqStr, hk, hfill, Except.map], ?_⟩
        rw [mark, if_neg hk]
        exact .cons rfl hcells
    · obtain ⟨u, hu, rfl⟩ : ∃ u, Q c u ∧ x = .tab [.str c, u] := hc
      exact ⟨.tab [.str c, u] :: cells', by simp [fillKey, Value.eqStr, hfill, Except.map], .cons ⟨u, hu, rfl⟩ hcells⟩

/-- The entries of `values` from the `i`-th on are values for the keys. -/
def Gives (Q : Bytes → Value → Prop) (values : Value) (i : Nat) (ks : List Bytes) : Prop :=
  ∀ j k, ks[j]? = some k → ∃ v, values.index (i + j) = .ok v ∧ Q k v

/-- The outer loop fills one cell a key. -/
theorem fillKeys_cells {values : Value} {i : Nat} {ks : List Bytes} (hg : Gives Q values i ks)
    {l : List (Bytes × Bool)} {cells : List Value} (h : List.Forall₂ (CellOf Q) l cells) :
    ∃ cells', fillKeys values i (ks.map .str) cells = (.ok (), cells') ∧
      List.Forall₂ (CellOf Q) (ks.foldl (fun l k => mark k l) l) cells' := by
  induction ks generalizing i l cells with
  | nil => exact ⟨cells, rfl, h⟩
  | cons k ks ih =>
    obtain ⟨v, hindex, hv⟩ := hg 0 k rfl
    obtain ⟨cells₁, hfill, h₁⟩ := fillKey_cells hv h
    have hrest : Gives Q values (i + 1) ks := by
      intro j k' hj
      have := hg (j + 1) k' (by simpa using hj)
      rwa [Nat.add_assoc, Nat.add_comm 1 j]
    obtain ⟨cells', hfills, h'⟩ := ih hrest h₁
    refine ⟨cells', ?_, h'⟩
    rw [Nat.add_zero] at hindex
    rw [List.map_cons, fillKeys, hindex, hfill]
    exact hfills

end Cells

/-! ## The second encoder -/

theorem mgetArg_pair (k v : Value) : mgetArg (.tab [k, v]) = encodeArg v := rfl

/-- From filled cells the reply is built as `encode` builds it from the values. -/
theorem mgetArgs_cells {Q : Bytes → Value → Prop} {keys : List Bytes} {cells : List Value}
    (h : List.Forall₂ (CellOf Q) (keys.map fun k => (k, true)) cells) :
    ∃ vs, List.Forall₂ Q keys vs ∧ mgetArgs cells = encodeArgs vs := by
  induction keys generalizing cells with
  | nil =>
    cases h
    exact ⟨[], .nil, rfl⟩
  | cons k keys ih =>
    obtain ⟨x, cells, hx, hcells, rfl⟩ := List.forall₂_cons_left_iff.1 h
    obtain ⟨v, hv, rfl⟩ : ∃ v, Q k v ∧ x = .tab [.str k, v] := hx
    obtain ⟨vs, hvs, hargs⟩ := ih hcells
    refine ⟨v :: vs, .cons hv hvs, ?_⟩
    rw [mgetArgs, mgetArg_pair, hargs]
    rfl

theorem encodeArgs_bulkVal (l : List (Option Bytes)) :
    ∃ x b, encodeArgs (l.map bulkVal) = .ok x ∧ flatTab x = .ok b := by
  induction l with
  | nil => exact ⟨[], [], rfl, rfl⟩
  | cons a l ih =>
    obtain ⟨x, b, hx, hb⟩ := ih
    have hcons : ∀ {y : List Value}, encodeArg (bulkVal a) = .ok y →
        encodeArgs ((a :: l).map bulkVal) = .ok (y ++ x) := by
      intro y hy
      rw [List.map_cons, encodeArgs, hy, hx]
    cases a with
    | none => exact ⟨_, _, hcons rfl, flatTab_append_ok (flatTab_three (flat_num (.int (-1)))) hb⟩
    | some s => exact ⟨_, _, hcons rfl, flatTab_append_ok (flatTab_five (flat_str s) _ _ _) hb⟩

/-! ## MGET -/

section MGet

variable {σ : Type} (send : Send σ)

/-- Every sub-request for the keys succeeds and answers the list of their values under `v`; the
invariant `P` of the world says when it can be relied on. -/
def Answers (P : σ → Prop) (cmd : Bytes) (keys : List Bytes) (v : Bytes → Option Bytes) : Prop :=
  ∀ g ∈ slotTable keys, ∀ w, P w → ∃ pre w', P w' ∧
    subRequest send g.1 cmd g.2 w = (.ok ⟨.tab (g.2.map fun k => bulkVal (v k)), pre, .nil⟩, w')

variable {send} {P : σ → Prop} {cmd : Bytes} {keys : List Bytes} {v : Bytes → Option Bytes}

/-- A thread whose answer gives values for its keys fills their cells. -/
theorem multiMgetKeys_finish (left : LuaError → Value) (send : Send σ) (cmd : Bytes) {Q : Bytes → Value → Prop}
    {p : Part} {val : Value} (pre : Option Nat) (hg : Gives Q val 1 p.2) {l : List (Bytes × Bool)}
    {cells : List Value} (h : List.Forall₂ (CellOf Q) l cells) :
    ∃ cells', (multiMgetKeys .str left send cmd).finish p (.ok ⟨val, pre, .nil⟩) cells =
      (.ok ⟨lhlhOk, pre, .nil⟩, cells') ∧
      List.Forall₂ (CellOf Q) (p.2.foldl (fun l k => mark k l) l) cells' := by
  obtain ⟨cells', hfill, h'⟩ := fillKeys_cells hg h
  exact ⟨cells', by simp only [multiMgetKeys, Value.truthy, Bool.false_eq_true, ite_false, hfill], h'⟩

theorem multiMgetKeys_call (left : LuaError → Value) (p : Part) (w : σ) :
    (multiMgetKeys .str left send cmd).call p w = subRequest send p.1 cmd p.2 w := rfl

theorem fillKey_ok (k x : Value) (cells : List Value) : ∃ c, fillKey k (.ok x) cells = .ok c := by
  induction cells with
  | nil => exact ⟨[], rfl⟩
  | cons c cells ih =>
    obtain ⟨d, hd⟩ := ih
    rw [fillKey]
    split
    · exact ⟨_, rfl⟩
    · exact ⟨_, by rw [hd]; rfl⟩

/-- Values that form a table never make the write-back raise. -/
theorem fillKeys_ok (vs : List Value) (i : Nat) (ks cells : List Value) :
    (fillKeys (.tab vs) i ks cells).1 = .ok () := by
  induction ks generalizing i cells with
  | nil => rfl
  | cons k ks ih =>
    obtain ⟨c, hc⟩ := fillKey_ok k (vs.getD (i - 1) .nil) cells
    rw [fillKeys, Value.index, hc]
    exact ih (i + 1) c

theorem Answers.endsWell (h : Answers send P cmd keys v) (left : LuaError → Value) {g : Part}
    (hg : g ∈ slotTable keys) :
    EndsWell (multiMgetKeys .str left send cmd) P g := by
  intro w hw
  obtain ⟨pre, w', hw', hcall⟩ := h g hg w hw
  rw [multiMgetKeys_call, hcall]
  refine ⟨hw', fun m => ?_⟩
  have hfill := fillKeys_ok (g.2.map fun k => bulkVal (v k)) 1 (g.2.map .str) m
  rcases hf : fillKeys (.tab (g.2.map fun k => bulkVal (v k))) 1 (g.2.map .str) m with ⟨r, m'⟩
  rw [hf] at hfill
  dsimp only at hfill
  subst hfill
  simp only [multiMgetKeys, Value.truthy, Bool.false_eq_true, ite_false, hf]
  exact ⟨_, rfl, rfl⟩

/-- The write-backs of the threads, in any order of the parts, mark the keys of these parts. -/
theorem finishAll_cells (left : LuaError → Value) (send : Send σ) (cmd : Bytes) {Q : Bytes → Value → Prop}
    (fs : List (Part × Except LuaError Ret))
    (hfs : ∀ p ∈ fs, ∃ val pre, p.2 = .ok ⟨val, pre, .nil⟩ ∧ Gives Q val 1 p.1.2) {l : List (Bytes × Bool)}
    {cells : List Value} (h : List.Forall₂ (CellOf Q) l cells) :
    List.Forall₂ (CellOf Q) (((fs.map (·.1)).flatMap (·.2)).foldl (fun l k => mark k l) l)
      (finishAll (multiMgetKeys .str left send cmd) fs cells) := by
  induction fs generalizing l cells with
  | nil => exact h
  | cons p fs ih =>
    obtain ⟨val, pre, hp, hg⟩ := hfs p (List.mem_cons_self ..)
    obtain ⟨cells', hfin, h'⟩ := multiMgetKeys_finish left send cmd pre hg h
    rw [List.map_cons, List.flatMap_cons, List.foldl_append, finishAll, List.foldl_cons, hp, hfin]
    exact ih (fun q hq => hfs q (List.mem_cons_of_mem _ hq)) h'

/-- When the threads of all parts have written values `Q` allows, the reply is built as `encode`
builds it from one such value for each key. -/
theorem mget_values (left : LuaError → Value) (send : Send σ) (cmd : Bytes) {Q : Bytes → Value → Prop}
    {fs : List (Part × Except LuaError Ret)}
    (hfs : ∀ p ∈ fs, ∃ val pre, p.2 = .ok ⟨val, pre, .nil⟩ ∧ Gives Q val 1 p.1.2)
    (hparts : (fs.map (·.1)).Perm (slotTable keys)) :
    ∃ vs, List.Forall₂ Q keys vs ∧
      mgetArgs (finishAll (multiMgetKeys .str left send cmd) fs (keys.map Value.str)) = encodeArgs vs := by
  -- all cells start unfilled, so marking the keys of all parts fills them
  have hstart : List.Forall₂ (CellOf Q) (keys.map fun k => (k, false)) (keys.map Value.str) := by
    rw [List.forall₂_map_left_iff, List.forall₂_map_right_iff]
    exact List.forall₂_same.2 fun k _ => rfl
  have hunfilled : (unfilled (keys.map fun k => (k, false))).Perm ((fs.map (·.1)).flatMap (·.2)) := by
    have : unfilled (keys.map fun k => (k, false)) = keys := by simp [unfilled, List.filter_map, Function.comp_def]
    rw [this]
    exact ((hparts.flatMap_right _).trans (slotTable_perm keys)).symm
  have hcells := finishAll_cells left send cmd fs hfs hstart
  rw [foldl_mark_filled _ _ hunfilled, List.map_map] at hcells
  exact mgetArgs_cells hcells

/-- However the slots are ordered and the threads interleaved, when every sub-request answers its
keys' values under `v`, the reply of MGET is that of the values in request order. -/
theorem mget_order {w : σ} (sc : Sched) (hne : keys ≠ []) (hw : P w) (h : Answers send P (lower cmd) keys v) :
    ∃ t b w', redisMgetKeys send sc cmd keys w = (.ok (some t), w') ∧ flatTab t = .ok b ∧
      multiTab (keys.map fun k => bulkVal (v k)) = .ok t ∧
      (keys.length ≤ maxArgs → wire (.tab (keys.map fun k => bulkVal (v k))) (some typeMultiBulkReply) = .ok b) := by
  have hparts := sc.arrange_perm (slotTable_nodup keys)
  obtain ⟨st, s, cs, fs, hwait, hrc, -, hcs, hfs, hcalls, hmem⟩ :=
    threadWait_serial _ sc.steps (keys.map Value.str) (sc.arrange_ne_nil (slotTable_nodup keys) (slotTable_ne_nil hne))
      hw fun g hg => h.endsWell sc.left (hparts.subset hg)
  -- every answer that was written back gives the values of its part's keys
  have hans : ∀ p ∈ fs, ∃ val pre, p.2 = .ok ⟨val, pre, .nil⟩ ∧ Gives (fun k x => x = bulkVal (v k)) val 1 p.1.2 := by
    have hin : ∀ p ∈ cs, p.1 ∈ slotTable keys := fun p hp => hparts.subset (hcs.subset (List.mem_map_of_mem hp))
    have hcall := (hcalls.answer hw fun p hp w hw => (h.endsWell sc.left (hin p hp) w hw).1).2
    intro p hp
    obtain ⟨w', hw', ha⟩ := hcall p (hfs.subset hp)
    obtain ⟨pre, w'', -, hs⟩ := h p.1 (hin p (hfs.subset hp)) w' hw'
    refine ⟨_, pre, by rw [ha, multiMgetKeys_call, hs], fun j k hj => ⟨bulkVal (v k), ?_, rfl⟩⟩
    simp [Value.index, hj]
  obtain ⟨vs, hvs, hargs⟩ := mget_values sc.left send (lower cmd) hans (((hfs.map _).trans hcs).trans hparts)
  obtain rfl : vs = keys.map fun k => bulkVal (v k) := by
    have heq : List.Forall₂ (· = ·) (keys.map fun k => bulkVal (v k)) vs :=
      List.forall₂_map_left_iff.2 (hvs.imp fun _ _ h => h.symm)
    rw [List.forall₂_eq_eq_eq] at heq
    exact heq.symm
  obtain ⟨x, b, hx, hb⟩ := encodeArgs_bulkVal (keys.map v)
  replace hx : encodeArgs (keys.map fun k => bulkVal (v k)) = .ok x := by rwa [List.map_map] at hx
  rw [← hmem, hx] at hargs
  have htab : multiTab (keys.map fun k => bulkVal (v k)) =
      .ok (.str (bytes "*" ++ (Number.int keys.length).text ++ crlf) :: x) := by
    rw [multiTab, hx, List.length_map]
    rfl
  refine ⟨_, _, s.world, ?_, flatTab_cons_ok (flat_str _) hb, htab, fun hlen => ?_⟩
  · simp only [redisMgetKeys, mgetOver, hwait, hrc, ne_eq, not_true_eq_false, ite_false, hargs]
    rfl
  · unfold wire
    rw [encode_tab (by rwa [List.length_map]) hx, List.length_map]
    exact flatTab_cons_ok (flat_str _) hb

/-- A server whose keys are their own values. -/
def echoServer : Send Unit := fun _ _ ks w => (.ok ⟨.tab (ks.map .str), some typeMultiBulkReply, .nil⟩, w)

/-- The second thread of a pool ends before the first one is waited for. -/
def secondFirst : Sched := ⟨List.reverse, List.reverse_perm, fun _ => [1, 1, 0], fun _ => .nil⟩

/-- Three keys, one of them twice, the threads of the slots finishing last to first. -/
theorem mget_order_repeated :
    ∃ t b w', redisMgetKeys echoServer secondFirst (bytes "MGet") [bytes "a", bytes "b", bytes "a"] () =
        (.ok (some t), w') ∧ flatTab t = .ok b ∧
      wire (.tab [.str (bytes "a"), .str (bytes "b"), .str (bytes "a")]) (some typeMultiBulkReply) = .ok b := by
  have hlen : ∀ g ∈ slotTable [bytes "a", bytes "b", bytes "a"], g.2.length + 1 ≤ maxStack := by decide +kernel
  have h : Answers echoServer (fun _ => True) (lower (bytes "MGet")) [bytes "a", bytes "b", bytes "a"] some :=
    fun g hg w _ => ⟨some typeMultiBulkReply, w, trivial, subRequest_run _ _ _ (hlen g hg) w⟩
  obtain ⟨t, b, w', hrun, hflat, -, hwire⟩ := mget_order secondFirst (by decide) trivial h
  exact ⟨t, b, w', hrun, hflat, hwire (by decide)⟩

end MGet

end NgProxy.Process
