/-
DEL and EXISTS split by slots answer what one server with the whole keyspace would: every part
counts on the keyspace the parts executed before it have left, the counts are added up in the one
`request.num`, and the number printed is their sum.
-/
import NgProxy.Process.Split
import Mathlib.Data.Finset.Card
import Mathlib.Algebra.BigOperators.Group.List.Basic

namespace NgProxy.Process

open Lua Codec Cluster GroupBy Pool Text

/-! ## One server -/

/-- The commands that answer a count of keys. -/
inductive Counting where
  | del
  | exist
  deriving DecidableEq

namespace Counting

/-- The distinct keys of a list that exist. -/
def existing (ks : List Bytes) (st : Store) : Finset Bytes := ks.toFinset.filter fun k => (st k).isSome

/-- DEL counts the distinct keys that exist, EXISTS counts the keys that exist with multiplicity. -/
def reply : Counting → List Bytes → Store → Nat
  | .del, ks, st => (existing ks st).card
  | .exist, ks, st => ks.countP fun k => (st k).isSome

/-- DEL removes the keys, EXISTS changes nothing. -/
def effect : Counting → List Bytes → Store → Store
  | .del, ks, st => fun k => if k ∈ ks then none else st k
  | .exist, _, st => st

theorem mem_existing {ks : List Bytes} {st : Store} {k : Bytes} :
    k ∈ existing ks st ↔ k ∈ ks ∧ (st k).isSome = true := by
  simp [existing]

theorem effect_del_isSome (ks : List Bytes) (st : Store) (k : Bytes) :
    (effect .del ks st k).isSome = true ↔ k ∉ ks ∧ (st k).isSome = true := by
  by_cases h : k ∈ ks <;> simp [effect, h]

theorem effect_append (c : Counting) (a b : List Bytes) (st : Store) :
    c.effect (a ++ b) st = c.effect b (c.effect a st) := by
  cases c with
  | exist => rfl
  | del =>
    funext k
    by_cases hb : k ∈ b <;> simp [effect, hb]

/-- Executing two parts one after another counts what the whole counts. -/
theorem reply_append (c : Counting) (a b : List Bytes) (st : Store) :
    c.reply (a ++ b) st = c.reply a st + c.reply b (c.effect a st) := by
  cases c with
  | exist => exact List.countP_append
  | del =>
    have hunion : existing (a ++ b) st = existing a st ∪ existing b (effect .del a st) := by
      ext k
      rw [Finset.mem_union, mem_existing, mem_existing, mem_existing, effect_del_isSome, List.mem_append]
      by_cases ha : k ∈ a <;> simp [ha]
    have hdisj : Disjoint (existing a st) (existing b (effect .del a st)) := by
      rw [Finset.disjoint_left]
      intro k ha hb
      exact ((effect_del_isSome a st k).1 (mem_existing.1 hb).2).1 (mem_existing.1 ha).1
    simp only [reply]
    rw [hunion, Finset.card_union_of_disjoint hdisj]

theorem reply_perm (c : Counting) {a b : List Bytes} (h : a.Perm b) (st : Store) : c.reply a st = c.reply b st := by
  cases c with
  | del => simp only [reply, existing, List.toFinset_eq_of_perm _ _ h]
  | exist => exact h.countP_eq _

theorem effect_perm (c : Counting) {a b : List Bytes} (h : a.Perm b) (st : Store) :
    c.effect a st = c.effect b st := by
  cases c with
  | exist => rfl
  | del =>
    funext k
    simp only [effect, h.mem_iff]

theorem reply_le_length (c : Counting) (ks : List Bytes) (st : Store) : c.reply ks st ≤ ks.length := by
  cases c with
  | del => exact (Finset.card_filter_le _ _).trans (List.toFinset_card_le _)
  | exist => exact List.countP_le_length

end Counting

/-! ## Adding up -/

/-- The count in a sub-request's answer. -/
def countOf : Except LuaError Ret → Nat
  | .ok ⟨.num (.int n), _, _⟩ => n.toNat
  | _ => 0

/-- The answer of a backend that counted `n` keys. -/
def countRet (n : Nat) : Ret := ⟨.num (.int n), some typeIntegerReply, .nil⟩

section Count

variable {σ : Type} (send : Send σ) (store : σ → Store)

/-- Every sub-request succeeds and a backend executes it: it answers its count and changes the
world's keyspace `store`. The invariant `P` of the world says when it can be relied on. -/
def Counts (c : Counting) (P : σ → Prop) (cmd : Bytes) (keys : List Bytes) : Prop :=
  ∀ g ∈ slotTable keys, ∀ w, P w → ∃ w', P w' ∧
    subRequest send g.1 cmd g.2 w = (.ok (countRet (c.reply g.2 (store w))), w') ∧
    store w' = c.effect g.2 (store w)

variable {send store} {c : Counting} {P : σ → Prop} {cmd : Bytes} {keys : List Bytes}

theorem Counts.call (h : Counts send store c P cmd keys) (left : LuaError → Value) {g : Part}
    (hg : g ∈ slotTable keys) {w : σ} (hw : P w) :
    P ((multiKeys left send cmd).call g w).2 ∧
      ((multiKeys left send cmd).call g w).1 = .ok (countRet (c.reply g.2 (store w))) ∧
      store ((multiKeys left send cmd).call g w).2 = c.effect g.2 (store w) := by
  obtain ⟨w', hw', hcall, hstore⟩ := h g hg w hw
  have hc : (multiKeys left send cmd).call g w = _ := hcall
  rw [hc]
  exact ⟨hw', rfl, hstore⟩

theorem multiKeys_finish (left : LuaError → Value) (p : Part) (n : Nat) (m : Number) :
    (multiKeys left send cmd).finish p (.ok (countRet n)) m =
      (.ok ⟨lhlhOk, some typeIntegerReply, .nil⟩, m.add (.int n)) :=
  rfl

theorem Counts.endsWell (h : Counts send store c P cmd keys) (left : LuaError → Value) {g : Part}
    (hg : g ∈ slotTable keys) :
    EndsWell (multiKeys left send cmd) P g := by
  intro w hw
  obtain ⟨hP, hans, -⟩ := h.call left hg hw
  refine ⟨hP, fun m => ?_⟩
  rw [hans, multiKeys_finish]
  exact ⟨_, rfl, rfl⟩

/-- The parts executed so far have counted, together, what one server counts for their keys. -/
theorem Counts.calls (h : Counts send store c P cmd keys) {left : LuaError → Value} {w w' : σ}
    {cs : List (Part × Except LuaError Ret)} (hcalls : Calls (multiKeys left send cmd) w cs w') (hw : P w)
    (hin : ∀ p ∈ cs, p.1 ∈ slotTable keys) :
    P w' ∧ store w' = c.effect ((cs.map (·.1)).flatMap (·.2)) (store w) ∧
      (cs.map fun p => countOf p.2).sum = c.reply ((cs.map (·.1)).flatMap (·.2)) (store w) ∧
      ∀ p ∈ cs, ∃ n, p.2 = .ok (countRet n) := by
  induction hcalls with
  | nil =>
    refine ⟨hw, ?_, ?_, by simp⟩
    · cases c with
      | exist => rfl
      | del => funext k; simp [Counting.effect]
    · cases c <;> simp [Counting.reply, Counting.existing]
  | snoc t _ ih =>
    obtain ⟨hw', hstore, hsum, hans⟩ := ih fun p hp => hin p (List.mem_append_left _ hp)
    obtain ⟨hP, ha, hs⟩ := h.call left (hin _ (List.mem_append_right _ (List.mem_singleton.2 rfl))) hw'
    refine ⟨hP, ?_, ?_, ?_⟩
    · rw [hs, hstore, ← Counting.effect_append]
      simp
    · rw [List.map_append, List.sum_append, hsum, ha, hstore, List.map_append, List.flatMap_append,
        Counting.reply_append]
      simp [countOf, countRet]
    · intro p hp
      rcases List.mem_append.1 hp with hp | hp
      · exact hans p hp
      · rw [List.mem_singleton] at hp
        subst hp
        exact ⟨_, ha⟩

/-- The shared counter after the threads' additions, in any order. -/
theorem finishAll_count (left : LuaError → Value) (fs : List (Part × Except LuaError Ret))
    (hfs : ∀ p ∈ fs, ∃ n, p.2 = .ok (countRet n)) (m : Nat)
    (hm : m + (fs.map fun p => countOf p.2).sum ≤ 2 ^ 53) :
    finishAll (multiKeys left send cmd) fs (.int m) = .int ((m + (fs.map fun p => countOf p.2).sum : Nat) : Int) := by
  induction fs generalizing m with
  | nil => rfl
  | cons p fs ih =>
    obtain ⟨p, a⟩ := p
    obtain ⟨n, hn⟩ := hfs _ (List.mem_cons_self ..)
    dsimp only at hn
    subst hn
    have hcount : countOf (.ok (countRet n)) = n := by simp [countOf, countRet]
    rw [List.map_cons, List.sum_cons, hcount] at hm ⊢
    have hadd : (Number.int m).add (.int n) = .int ((m + n : Nat) : Int) := by
      rw [add_int _ _ (by omega)]
      rfl
    have ih' := ih (fun q hq => hfs q (List.mem_cons_of_mem _ hq)) (m + n) (by omega)
    rw [finishAll, List.foldl_cons, multiKeys_finish, hadd]
    exact ih'.trans (by rw [Nat.add_assoc])

/-- DEL and EXISTS answer what one server with the whole keyspace answers, and leave the keyspace it
leaves, however the parts are ordered and interleaved. -/
theorem count_aggregates {w : σ} (sc : Sched) (hne : keys ≠ []) (hw : P w) (h : Counts send store c P cmd keys) :
    ∃ t w', redisMultiKeys send sc cmd keys w = (.ok (some t), w') ∧
      flatTab t = .ok (Reply.int (c.reply keys (store w))).bytes ∧ store w' = c.effect keys (store w) := by
  have hparts := sc.arrange_perm (slotTable_nodup keys)
  obtain ⟨st, s, cs, fs, hwait, hrc, ⟨t, ht, w₁, m₁, st₁, hw₁, hfin, hpre⟩, hcs, hfs, hcalls, hmem⟩ :=
    threadWait_serial _ sc.steps (.int 0) (sc.arrange_ne_nil (slotTable_nodup keys) (slotTable_ne_nil hne)) hw
      fun g hg => h.endsWell sc.left (hparts.subset hg)
  have hfront : st.pre = some typeIntegerReply := by
    rw [(h.call sc.left (hparts.subset ht) hw₁).2.1, multiKeys_finish] at hfin
    cases hfin
    exact hpre
  have hin : ∀ p ∈ cs, p.1 ∈ slotTable keys := fun p hp => hparts.subset (hcs.subset (List.mem_map_of_mem hp))
  have hkeys : ((cs.map (·.1)).flatMap (·.2)).Perm keys :=
    ((hcs.trans hparts).flatMap_right _).trans (slotTable_perm keys)
  obtain ⟨-, hstore, hsum, hans⟩ := h.calls hcalls hw hin
  rw [c.effect_perm hkeys] at hstore
  rw [c.reply_perm hkeys] at hsum
  -- a part that was sent had room on the stack, so the count stays far below 2^53
  have hlen : keys.length ≤ 16384 * maxStack := by
    refine length_le_of_parts fun g hg => ?_
    obtain ⟨w', -, hcall, -⟩ := h g hg w hw
    by_contra hlong
    rw [subRequest_long _ _ _ hlong] at hcall
    cases hcall
  have hle := (c.reply_le_length keys (store w)).trans hlen
  unfold maxStack at hle
  have hsum' : (fs.map fun p => countOf p.2).sum = c.reply keys (store w) := by
    rw [← hsum]
    exact (hfs.map _).sum_eq
  have hnum : s.mem = .int (c.reply keys (store w)) := by
    rw [hmem]
    have hadd : finishAll (multiKeys sc.left send cmd) fs (.int (0 : Nat)) = _ :=
      finishAll_count sc.left fs (fun p hp => hans p (hfs.subset hp)) 0 (by rw [hsum']; omega)
    rw [hsum', Nat.zero_add] at hadd
    exact hadd
  refine ⟨[.str (bytes ":"), .str (Number.int (c.reply keys (store w))).text, .str crlf], s.world, ?_, ?_, hstore⟩
  · simp only [redisMultiKeys, countOver, hwait, hrc, hfront, hnum, ne_eq, not_true_eq_false, ite_false]
    rfl
  · rw [flatTab_three (flat_str _), text_int _ (by omega)]
    rfl

/-- A backend that executes every sub-request on one keyspace. -/
def countServer (c : Counting) : Send Store := fun _ _ ks st => (.ok (countRet (c.reply ks st)), c.effect ks st)

/-- DEL of three keys, one of them twice: of the two that are different one exists. -/
theorem count_aggregates_del :
    ∃ t w', redisMultiKeys (countServer .del) ⟨List.reverse, List.reverse_perm, fun _ => [1, 0, 1], fun _ => .nil⟩
        (bytes "DEL") [bytes "a", bytes "b", bytes "a"] (fun k => if k = bytes "a" then some [] else none) =
          (.ok (some t), w') ∧
      flatTab t = .ok (bytes ":1\r\n") ∧
      w' = Counting.effect .del [bytes "a", bytes "b", bytes "a"] fun k => if k = bytes "a" then some [] else none := by
  have hlen : ∀ g ∈ slotTable [bytes "a", bytes "b", bytes "a"], g.2.length + 1 ≤ maxStack := by decide +kernel
  have h : Counts (countServer .del) id .del (fun _ => True) (bytes "DEL") [bytes "a", bytes "b", bytes "a"] :=
    fun g hg w _ => ⟨_, trivial, subRequest_run _ _ _ (hlen g hg) w, rfl⟩
  exact count_aggregates _ (by decide) trivial h

end Count

end NgProxy.Process
