/-
The sub-requests of a multi-key command are a partition of its arguments by slot: one a slot, with the
arguments of that slot in their order. All of them are made, each once, unless one of them fails, and
nothing else is sent. A connection chosen by the slot is the one that any of its keys would have chosen.
-/
import NgProxy.Process.MSet
import NgProxy.Cluster.Send

namespace NgProxy.Process

open Lua Codec Cluster GroupBy Pool

/-! ## Partitions of the arguments -/

section Partition

variable {α : Type} (key : α → Bytes) (flat : List α → List Bytes)

/-- The arguments, of which `key` is the key, in items of one slot each. -/
def slotItems (args : List α) : List (SlotKey × List α) := args.map fun a => (redisSlot (some (key a)), [a])

/-- `parts` are the sub-requests of `args`, where `flat` lists the arguments of a command. -/
structure Splits (args : List α) (parts : List Part) : Prop where
  /-- One sub-request for every slot among the keys. -/
  nodup : (parts.map (·.1)).Nodup
  slots : ∀ j, j ∈ parts.map (·.1) ↔ ∃ a ∈ args, redisSlot (some (key a)) = j
  /-- It has the arguments of its slot, as often and in the order they were given. -/
  share : ∀ g ∈ parts, g.2 = flat (args.filter fun a => redisSlot (some (key a)) = g.1)
  /-- Together they have all arguments. -/
  whole : (parts.flatMap (·.2)).Perm (flat args)

theorem Splits.perm {args : List α} {parts parts' : List Part} (h : Splits key flat args parts)
    (hp : parts'.Perm parts) : Splits key flat args parts' where
  nodup := (hp.map _).nodup_iff.2 h.nodup
  slots j := (hp.map _).mem_iff.trans (h.slots j)
  share g hg := h.share g (hp.subset hg)
  whole := (hp.flatMap_right _).trans h.whole

theorem under_slotItems (j : SlotKey) (args : List α) :
    under j (slotItems key args) = args.filter fun a => redisSlot (some (key a)) = j := by
  unfold under slotItems
  rw [List.filter_map, List.flatMap_map]
  exact List.flatMap_singleton' _

/-- Grouping by slot splits. -/
theorem splits_group {f : α → List Bytes} (hflat : ∀ l, flat l = l.flatMap f) (args : List α) :
    Splits key flat args ((group (slotItems key args)).map fun g => (g.1, flat g.2)) := by
  have hg := grouped_group (slotItems key args)
  have hslots : ((group (slotItems key args)).map fun g => (g.1, flat g.2)).map (·.1) =
      (group (slotItems key args)).map (·.1) := by
    rw [List.map_map]
    rfl
  refine ⟨?_, ?_, ?_, ?_⟩
  · rw [hslots]
    exact hg.nodup
  · intro j
    rw [hslots, hg.keys]
    simp [slotItems]
  · intro g h
    obtain ⟨g, hmem, rfl⟩ := List.mem_map.1 h
    rw [hg.mem g hmem, under_slotItems]
  · -- grouping permutes the arguments, and `flat` lists them one by one
    have hitems : (slotItems key args).flatMap (·.2) = args := by
      unfold slotItems
      rw [List.flatMap_map, List.flatMap_singleton']
    have h := (flatMap_group_perm (slotItems key args)).flatMap_right f
    rw [hitems] at h
    rw [List.flatMap_map, hflat]
    simp only [hflat]
    rwa [List.flatMap_assoc] at h

end Partition

/-- Keys, one argument each. -/
theorem splits_slotTable (keys : List Bytes) : Splits id id keys (slotTable keys) := by
  have h := splits_group id id (f := fun k => [k]) (fun l => (List.flatMap_singleton' l).symm) keys
  rwa [show (fun g : Part => (g.1, id g.2)) = id from rfl, List.map_id] at h

/-- Keys with their values behind them. -/
theorem splits_kvTable (ps : List (Bytes × Bytes)) : Splits Prod.fst flatPairs ps (kvTable (flatPairs ps)) := by
  rw [kvTable_flatPairs]
  exact splits_group _ _ (f := fun p => [p.1, p.2]) (fun l => rfl) ps

/-! ## What is sent -/

section Made

variable {σ τ β : Type} (send : Send σ) (cmd : Bytes)

/-- The sub-requests are made in this order, and have these results. -/
inductive Requests : σ → List (Part × Except LuaError Ret) → σ → Prop
  | nil (w : σ) : Requests w [] w
  | snoc {w w' : σ} {cs : List (Part × Except LuaError Ret)} (g : Part) (h : Requests w cs w') :
      Requests w (cs ++ [(g, (subRequest send g.1 cmd g.2 w').1)]) (subRequest send g.1 cmd g.2 w').2

/-- The program makes the sub-requests of `pool`, none twice and nothing else; and it makes all of them
unless one has a result with which its thread `body` does not return `LHLH_OK`. -/
def Makes (body : Worker σ τ) (pool : List Part) (x : Prog LuaError σ β) : Prop :=
  ∀ w, ∃ cs, Requests send cmd w cs (x w).2 ∧ (cs.map (·.1)).Subperm pool ∧
    ((cs.map (·.1)).Perm pool ∨ ∃ p ∈ cs, ∃ m, endedWell (body.finish p.1 p.2 m).1 = false)

variable {send cmd}

theorem Requests.result {w w' : σ} {cs : List (Part × Except LuaError Ret)} (h : Requests send cmd w cs w') :
    ∀ p ∈ cs, ∃ v, p.2 = (subRequest send p.1.1 cmd p.1.2 v).1 := by
  induction h with
  | nil => simp
  | snoc g h ih =>
    intro p hp
    rcases List.mem_append.1 hp with hp | hp
    · exact ih p hp
    · rw [List.mem_singleton.1 hp]
      exact ⟨_, rfl⟩

theorem requests_of_calls {body : Worker σ τ} (hbody : ∀ g w, body.call g w = subRequest send g.1 cmd g.2 w) {w w' : σ}
    {cs : List (Part × Except LuaError Ret)} (h : Calls body w cs w') : Requests send cmd w cs w' := by
  induction h with
  | nil => exact .nil _
  | snoc g h ih =>
    rw [hbody]
    exact .snoc g ih

theorem threadWait_makes {body : Worker σ τ} (hbody : ∀ g w, body.call g w = subRequest send g.1 cmd g.2 w)
    (pool : List Part) (steps : Nat → List Nat) (m : τ) {x : Prog LuaError σ β}
    (hx : ∀ w, (x w).2 = (threadWait body pool steps w m).2.world) : Makes send cmd body pool x := by
  intro w
  obtain ⟨st, s, cs, fs, hwait, hcalls, -, hsub, hpool, -, hcases⟩ := threadWait_run body pool steps w m
  rw [hx, hwait]
  refine ⟨cs, requests_of_calls hbody hcalls, hpool, ?_⟩
  rcases hcases with ⟨-, p, hp, m', hbad, -⟩ | ⟨-, hperm, -⟩
  · exact .inr ⟨p, hsub hp, m', hbad⟩
  · exact .inl hperm

theorem redisMgetKeys_makes (sc : Sched) (cmd : Bytes) (keys : List Bytes) :
    Makes send (lower cmd) (multiMgetKeys .str sc.left send (lower cmd)) (sc.arrange (slotTable keys))
      (redisMgetKeys send sc cmd keys) := by
  refine threadWait_makes (fun _ _ => rfl) _ sc.steps (keys.map .str) fun w => ?_
  unfold redisMgetKeys mgetOver
  dsimp only
  split <;> rfl

theorem redisMultiKeys_makes (sc : Sched) (cmd : Bytes) (keys : List Bytes) :
    Makes send cmd (multiKeys sc.left send cmd) (sc.arrange (slotTable keys)) (redisMultiKeys send sc cmd keys) := by
  refine threadWait_makes (fun _ _ => rfl) _ sc.steps (.int 0) fun w => ?_
  unfold redisMultiKeys countOver
  dsimp only
  split <;> rfl

theorem redisKvs_makes (sc : Sched) (cmd : Bytes) (args : List Bytes) :
    Makes send cmd (multiKvs sc.left send cmd) (sc.arrange (kvTable args)) (redisKvs send sc cmd args) := by
  refine threadWait_makes (fun _ _ => rfl) _ sc.steps () fun w => ?_
  unfold redisKvs kvsOver
  dsimp only
  split <;> rfl

end Made

/-! ## The split -/

variable {σ : Type}

/-- The connection on which `send_cluster_command` first sends a part is the one it would choose for each
key of the part on its own. -/
def Routes (parts : List Part) (keys : List Bytes) : Prop :=
  ∀ {W : Type} (net : Net W) (s : St W), ∀ g ∈ parts, ∀ k ∈ keys, redisSlot (some k) = g.1 →
    firstConnection net (some g.1) g.2.head? s = firstConnection net none (some k) s

theorem routes (parts : List Part) (keys : List Bytes) : Routes parts keys := by
  intro W net s g _ k _ hk
  have hslot : slotConnection net (some g.1) g.2.head? = slotConnection net none (some k) := by
    rw [← hk]
    rfl
  rw [firstConnection, firstConnection, hslot]

/-- MGET, DEL and EXISTS, and MSET with an even number of arguments, make one sub-request for every slot,
with the arguments of that slot, whatever the order of `pairs` and of the threads: all of them if none
fails, each at most once, and nothing else. -/
theorem split_by_slot (send : Send σ) (sc : Sched) (cmd : Bytes) (keys args : List Bytes) :
    (Splits id id keys (sc.arrange (slotTable keys)) ∧ Routes (sc.arrange (slotTable keys)) keys ∧
        Makes send (lower cmd) (multiMgetKeys .str sc.left send (lower cmd)) (sc.arrange (slotTable keys))
          (redisMgetKeys send sc cmd keys) ∧
        Makes send cmd (multiKeys sc.left send cmd) (sc.arrange (slotTable keys)) (redisMultiKeys send sc cmd keys)) ∧
      (args.length % 2 = 0 → ∃ ps, args = flatPairs ps ∧
        Splits Prod.fst flatPairs ps (sc.arrange (kvTable args)) ∧ Routes (sc.arrange (kvTable args)) (ps.map (·.1)) ∧
        Makes send cmd (multiKvs sc.left send cmd) (sc.arrange (kvTable args)) (redisKvs send sc cmd args)) := by
  refine ⟨⟨?_, routes _ _, redisMgetKeys_makes sc cmd keys, redisMultiKeys_makes sc cmd keys⟩, fun heven => ?_⟩
  · exact (splits_slotTable keys).perm _ _ (sc.arrange_perm (slotTable_nodup keys))
  · obtain ⟨ps, rfl⟩ := exists_pairs heven
    exact ⟨ps, rfl, (splits_kvTable ps).perm _ _ (sc.arrange_perm (kvTable_nodup _)), routes _ _,
      redisKvs_makes sc cmd _⟩

/-- A server that keeps a list of what it was sent. -/
def noteServer : Send (List Part) := fun slot _ args w =>
  (.ok (Reply.status (bytes "OK")).ret, w ++ [(slot.getD (redisSlot args.head?), args)])

/-- The pairs of `a` stay together, in their order. -/
def sixWords : List Bytes := [bytes "a", bytes "1", bytes "b", bytes "2", bytes "a", bytes "3"]

theorem split_by_slot_repeated :
    (∃ cs, Requests noteServer (bytes "mset") [] cs (redisKvs noteServer idleSched (bytes "mset") sixWords []).2 ∧
      (cs.map (·.1)).Perm (kvTable sixWords)) ∧
      (redisKvs noteServer idleSched (bytes "mset") sixWords []).2 =
        [(redisSlot (some (bytes "a")), [bytes "a", bytes "1", bytes "a", bytes "3"]),
          (redisSlot (some (bytes "b")), [bytes "b", bytes "2"])] := by
  refine ⟨?_, by decide +kernel⟩
  obtain ⟨ps, -, -, -, hmakes⟩ := (split_by_slot noteServer idleSched (bytes "mset") [] sixWords).2 (by decide)
  have hlen : ∀ g ∈ idleSched.arrange (kvTable sixWords), g.2.length + 1 ≤ maxStack := by decide +kernel
  obtain ⟨cs, hcs, hsub, hperm | ⟨p, hp, m, hbad⟩⟩ := hmakes []
  · exact ⟨cs, hcs, hperm.trans (idleSched.arrange_perm (kvTable_nodup _))⟩
  · obtain ⟨v, hv⟩ := hcs.result p hp
    rw [subRequest_run _ _ _ (hlen p.1 (hsub.subset (List.mem_map_of_mem hp)))] at hv
    rw [hv] at hbad
    cases hbad

end NgProxy.Process
