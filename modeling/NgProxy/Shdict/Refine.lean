/-
The zone refines the list of its nodes. The invariant says that the tree is sorted and holds what the queue
holds; each operation keeps it, and does to the nodes in the queue's order what the same operation on a list
does. The tree is then only a way to find what the list has.
-/
import NgProxy.Shdict.Recency

namespace NgProxy.Shdict

open Lua Search

/-! ## The order of the nodes -/

theorem walk_eq_iff {h : UInt32} {k : Bytes} {sd : Node} : Node.walk h k sd = .eq ↔ h = sd.hash ∧ k = sd.key := by
  rw [Node.walk, Ordering.then_eq_eq, Std.LawfulEqOrd.compare_eq_iff_eq, Std.LawfulEqOrd.compare_eq_iff_eq]

/-- Hashes and keys in the order of the tree. -/
abbrev pairCmp : UInt32 × Bytes → UInt32 × Bytes → Ordering := compareLex (compareOn Prod.fst) (compareOn Prod.snd)

theorem walk_lt {h : UInt32} {k : Bytes} {sd sd' : Node} (hk : Node.walk h k sd ≠ .gt)
    (hlt : Node.walk sd.hash sd.key sd' = .lt) : Node.walk h k sd' = .lt :=
  @Std.TransCmp.lt_of_isLE_of_lt _ pairCmp _ (h, k) (sd.hash, sd.key) (sd'.hash, sd'.key)
    (Ordering.isLE_iff_ne_gt.2 hk) hlt

theorem walk_gt {sd sd' : Node} (h : Node.walk sd.hash sd.key sd' = .gt) : Node.walk sd'.hash sd'.key sd = .lt :=
  (@Std.OrientedCmp.gt_iff_lt _ pairCmp _ (sd.hash, sd.key) (sd'.hash, sd'.key)).1 h

/-! ## The invariant -/

structure Ok (hash : Bytes → UInt32) (z : Zone) : Prop where
  nodup : z.queue.Nodup
  same : (toList z.tree).Perm z.queue
  sorted : (toList z.tree).Pairwise fun a b => Node.walk (z.nodes a).hash (z.nodes a).key (z.nodes b) = .lt
  hashed : ∀ a ∈ z.queue, (z.nodes a).hash = hash (z.nodes a).key
  fresh : ∀ a ∈ z.queue, a < z.next

/-- The nodes in the order of the queue. -/
def Zone.entries (z : Zone) : List Node := z.queue.map z.nodes

variable {hash : Bytes → UInt32} {rb : Rbtree} {z : Zone}

theorem init_ok : Ok hash Zone.init := by
  constructor <;> simp [Zone.init, toList]

theorem Ok.aligned (hz : Ok hash z) (h : UInt32) (k : Bytes) :
    Aligned (fun a => Node.walk h k (z.nodes a)) (toList z.tree) :=
  hz.sorted.imp fun hab hgt => walk_lt hgt hab

/-- No two nodes have the same key. -/
theorem Ok.key_inj (hz : Ok hash z) {a b : Nat} (ha : a ∈ z.queue) (hb : b ∈ z.queue)
    (hk : (z.nodes a).key = (z.nodes b).key) : a = b := by
  have hpair : (toList z.tree).Pairwise fun a b => (z.nodes a).key ≠ (z.nodes b).key := by
    refine hz.sorted.imp_of_mem fun {x y} hx hy hlt heq => ?_
    have hhash : (z.nodes x).hash = (z.nodes y).hash := by
      rw [hz.hashed x (hz.same.mem_iff.1 hx), hz.hashed y (hz.same.mem_iff.1 hy), heq]
    rw [walk_eq_iff.2 ⟨hhash, heq⟩] at hlt
    cases hlt
  by_contra hne
  have hsymm : Std.Symm fun a b => (z.nodes a).key ≠ (z.nodes b).key := ⟨fun _ _ h => h.symm⟩
  exact hpair.forall (hz.same.mem_iff.2 ha) (hz.same.mem_iff.2 hb) hne hk

/-- The tree is searched for the one node of the key. -/
theorem Ok.find_some (hz : Ok hash z) {k : Bytes} {a : Nat} :
    Search.find (fun a => Node.walk (hash k) k (z.nodes a)) z.tree = some a ↔ a ∈ z.queue ∧ (z.nodes a).key = k := by
  rw [find_eq (hz.aligned _ _)]
  constructor
  · intro h
    have heq := List.find?_some h
    rw [decide_eq_true_eq, walk_eq_iff] at heq
    exact ⟨hz.same.mem_iff.1 (List.mem_of_find?_eq_some h), heq.2.symm⟩
  · rintro ⟨ha, rfl⟩
    rcases hf : (toList z.tree).find?
      (fun b => decide (Node.walk (hash (z.nodes a).key) (z.nodes a).key (z.nodes b) = .eq))
      with _ | b
    · have := List.find?_eq_none.1 hf a (hz.same.mem_iff.2 ha)
      rw [decide_eq_true_eq, walk_eq_iff, hz.hashed a ha] at this
      exact absurd ⟨rfl, rfl⟩ this
    · have heq := List.find?_some hf
      rw [decide_eq_true_eq, walk_eq_iff] at heq
      rw [hz.key_inj ha (hz.same.mem_iff.1 (List.mem_of_find?_eq_some hf)) heq.2]

theorem Ok.find_entries (hz : Ok hash z) (k : Bytes) :
    Recency.find k z.entries = (Search.find (fun a => Node.walk (hash k) k (z.nodes a)) z.tree).map z.nodes := by
  rcases hf : Search.find (fun a => Node.walk (hash k) k (z.nodes a)) z.tree with _ | a
  · refine List.find?_eq_none.2 fun sd hsd => ?_
    obtain ⟨a, ha, rfl⟩ := List.mem_map.1 hsd
    intro hk
    rw [hz.find_some.2 ⟨ha, of_decide_eq_true hk⟩] at hf
    cases hf
  · obtain ⟨ha, hk⟩ := hz.find_some.1 hf
    rw [Recency.find, Zone.entries, List.find?_map]
    rcases hq : z.queue.find? ((fun sd => decide (sd.key = k)) ∘ z.nodes) with _ | b
    · exact absurd (decide_eq_true hk) (List.find?_eq_none.1 hq a ha)
    · have hb : (z.nodes b).key = k := by simpa using List.find?_some hq
      rw [hz.key_inj ha (List.mem_of_find?_eq_some hq) (hk.trans hb.symm)]
      exact congrArg (Option.map z.nodes) hq

/-! ## The steps of the operations -/

section Step

variable {a : Nat}

theorem entries_without (hz : Ok hash z) (ha : a ∈ z.queue) :
    (z.queue.erase a).map z.nodes = Recency.without (z.nodes a).key z.entries := by
  rw [hz.nodup.erase_eq_filter, Recency.without, Zone.entries, List.filter_map]
  congr 1
  refine List.filter_congr fun b hb => ?_
  rw [Function.comp_apply, Bool.eq_iff_iff, bne_iff_ne, decide_eq_true_eq]
  exact not_congr ⟨fun h => by rw [h], fun h => hz.key_inj hb ha h⟩

theorem entries_touch (hz : Ok hash z) (ha : a ∈ z.queue) :
    (z.touch a).entries = z.nodes a :: Recency.without (z.nodes a).key z.entries := by
  rw [← entries_without hz ha]
  rfl

theorem entries_unlink (rb : Rbtree) (hz : Ok hash z) (ha : a ∈ z.queue) :
    (z.unlink rb a).entries = Recency.without (z.nodes a).key z.entries :=
  entries_without hz ha

theorem touch_ok (hz : Ok hash z) (ha : a ∈ z.queue) : Ok hash (z.touch a) := by
  have hperm : (a :: z.queue.erase a).Perm z.queue := (List.perm_cons_erase ha).symm
  refine ⟨hperm.nodup_iff.2 hz.nodup, hz.same.trans hperm.symm, hz.sorted, ?_, ?_⟩
  · exact fun b hb => hz.hashed b (hperm.mem_iff.1 hb)
  · exact fun b hb => hz.fresh b (hperm.mem_iff.1 hb)

theorem unlink_ok (hz : Ok hash z) : Ok hash (z.unlink rb a) := by
  refine ⟨hz.nodup.erase a, ?_, ?_, ?_, ?_⟩
  · exact rb.delete_toList a z.tree ▸ hz.same.erase a
  · exact rb.delete_toList a z.tree ▸ hz.sorted.sublist List.erase_sublist
  · exact fun b hb => hz.hashed b (List.mem_of_mem_erase hb)
  · exact fun b hb => hz.fresh b (List.mem_of_mem_erase hb)

/-- A node is rewritten under its key. -/
theorem write_ok (hz : Ok hash z) {f : Node → Node} (hhash : (f (z.nodes a)).hash = (z.nodes a).hash)
    (hkey : (f (z.nodes a)).key = (z.nodes a).key) : Ok hash (z.write a f) := by
  have hhash' : ∀ b, ((z.write a f).nodes b).hash = (z.nodes b).hash := by
    intro b
    by_cases hb : b = a
    · subst hb
      simpa [Zone.write] using hhash
    · simp [Zone.write, hb]
  have hkey' : ∀ b, ((z.write a f).nodes b).key = (z.nodes b).key := by
    intro b
    by_cases hb : b = a
    · subst hb
      simpa [Zone.write] using hkey
    · simp [Zone.write, hb]
  refine ⟨hz.nodup, hz.same, ?_, ?_, hz.fresh⟩
  · refine hz.sorted.imp fun {x y} h => ?_
    rw [Node.walk, hhash', hkey', hhash', hkey']
    exact h
  · intro b hb
    rw [hhash', hkey']
    exact hz.hashed b hb

/-- The first node of the queue is rewritten. -/
theorem entries_write (hz : Ok hash z) (ha : a ∈ z.queue) (f : Node → Node) :
    ((z.touch a).write a f).entries = f (z.nodes a) :: Recency.without (z.nodes a).key z.entries := by
  rw [← entries_without hz ha]
  have hrest : (z.queue.erase a).map (Function.update z.nodes a (f (z.nodes a))) = (z.queue.erase a).map z.nodes := by
    refine List.map_congr_left fun b hb => ?_
    have hne : b ≠ a := fun h => hz.nodup.not_mem_erase (h ▸ hb)
    simp [hne]
  simp [Zone.entries, Zone.write, Zone.touch, hrest]

theorem insert_entries (hz : Ok hash z) (sd : Node) : (z.insert rb sd).entries = sd :: z.entries := by
  have hrest : z.queue.map (Function.update z.nodes z.next sd) = z.queue.map z.nodes := by
    refine List.map_congr_left fun b hb => ?_
    have hne : b ≠ z.next := (hz.fresh b hb).ne
    simp [hne]
  simp [Zone.entries, Zone.insert, hrest]

theorem insert_ok (hz : Ok hash z) {sd : Node} (hhash : sd.hash = hash sd.key)
    (hnew : ∀ a ∈ z.queue, (z.nodes a).key ≠ sd.key) : Ok hash (z.insert rb sd) := by
  obtain ⟨pre, post, htree, hinsert, hpre, hpost⟩ := insert_toList z.next (hz.aligned sd.hash sd.key)
  have hlist : toList (z.insert rb sd).tree = pre ++ z.next :: post := (rb.fixup_toList _).trans hinsert
  have hmem : ∀ b ∈ pre ++ post, b ∈ z.queue := fun b hb => hz.same.mem_iff.1 (htree ▸ hb)
  have hold : ∀ b ∈ z.queue, (z.insert rb sd).nodes b = z.nodes b := fun b hb =>
    Function.update_of_ne (hz.fresh b hb).ne ..
  have hat : (z.insert rb sd).nodes z.next = sd := Function.update_self ..
  have hnext : z.next ∉ z.queue := fun h => (hz.fresh _ h).false
  refine ⟨List.nodup_cons.2 ⟨hnext, hz.nodup⟩, ?_, ?_, ?_, ?_⟩
  · rw [hlist]
    exact List.perm_middle.trans ((htree ▸ hz.same).cons z.next)
  · have hsorted := hz.sorted
    rw [htree, List.pairwise_append] at hsorted
    obtain ⟨hl, hr, hlr⟩ := hsorted
    -- the new node lies behind those it did not go left of, and before the others
    have hbefore : ∀ b ∈ pre, Node.walk (z.nodes b).hash (z.nodes b).key sd = .lt := by
      intro b hb
      have hq := hmem b (List.mem_append_left _ hb)
      have heq : Node.walk sd.hash sd.key (z.nodes b) ≠ .eq := fun h => hnew b hq (walk_eq_iff.1 h).2.symm
      have hlt := hpre b hb
      rcases hw : Node.walk sd.hash sd.key (z.nodes b) with _ | _ | _
      · exact absurd hw hlt
      · exact absurd hw heq
      · exact walk_gt hw
    rw [hlist, List.pairwise_append, List.pairwise_cons]
    refine ⟨?_, ⟨?_, ?_⟩, ?_⟩
    · refine hl.imp_of_mem fun {x y} hx hy h => ?_
      rwa [hold x (hmem x (List.mem_append_left _ hx)), hold y (hmem y (List.mem_append_left _ hy))]
    · intro b hb
      rw [hat, hold b (hmem b (List.mem_append_right _ hb))]
      exact hpost b hb
    · refine hr.imp_of_mem fun {x y} hx hy h => ?_
      rwa [hold x (hmem x (List.mem_append_right _ hx)), hold y (hmem y (List.mem_append_right _ hy))]
    · intro x hx y hy
      have hxq := hmem x (List.mem_append_left _ hx)
      rcases List.mem_cons.1 hy with rfl | hy
      · rw [hat, hold x hxq]
        exact hbefore x hx
      · rw [hold x hxq, hold y (hmem y (List.mem_append_right _ hy))]
        exact hlr x hx y hy
  · intro b hb
    rcases List.mem_cons.1 hb with rfl | hb
    · rw [hat, hhash]
    · rw [hold b hb]
      exact hz.hashed b hb
  · intro b hb
    rcases List.mem_cons.1 hb with rfl | hb
    · exact Nat.lt_succ_self _
    · exact Nat.lt_succ_of_lt (hz.fresh b hb)

end Step

/-! ## The operations -/

/-- A result on the zone is the one on the list, and the invariant still holds. -/
structure Agrees {α : Type} (hash : Bytes → UInt32) (x : α × Zone) (y : α × List Node) : Prop where
  ok : Ok hash x.2
  ret : x.1 = y.1
  entries : x.2.entries = y.2

theorem Agrees.intro {α : Type} (ret : α) (hz : Ok hash z) : Agrees hash (ret, z) (ret, z.entries) := ⟨hz, rfl, rfl⟩

variable (rb)

/-- A search finds no node, or the one node of the key, which comes to the front. -/
theorem lookup_cases (hz : Ok hash z) (now : BitVec 64) (k : Bytes) :
    (Recency.lookup now k z.entries = (.declined, z.entries) ∧ z.lookup hash now k = (.declined, z) ∧
      ∀ sd ∈ z.entries, sd.key ≠ k) ∨
    ∃ a ∈ z.queue, (z.nodes a).key = k ∧
      (Recency.lookup now k z.entries = (.ok (z.nodes a), (z.touch a).entries) ∧
          z.lookup hash now k = (.ok a, z.touch a) ∨
        Recency.lookup now k z.entries = (.done (z.nodes a), (z.touch a).entries) ∧
          z.lookup hash now k = (.done a, z.touch a)) := by
  have hfind := hz.find_entries k
  rcases hf : Search.find (fun a => Node.walk (hash k) k (z.nodes a)) z.tree with _ | a
  · rw [hf, Option.map_none] at hfind
    refine .inl ⟨by rw [Recency.lookup, hfind], by rw [Zone.lookup, hf], ?_⟩
    intro sd hsd hk
    exact List.find?_eq_none.1 hfind sd hsd (decide_eq_true hk)
  · rw [hf, Option.map_some] at hfind
    obtain ⟨ha, rfl⟩ := hz.find_some.1 hf
    refine .inr ⟨a, ha, rfl, ?_⟩
    rw [Recency.lookup, hfind, Zone.lookup, hf, entries_touch hz ha]
    cases hs : (z.nodes a).stale now with
    | true => exact .inr (by simp [hs])
    | false => exact .inl (by simp [hs])

theorem erase_last {l : List Nat} {a : Nat} (hn : l.Nodup) (h : l.getLast? = some a) : l.erase a = l.dropLast := by
  obtain ⟨l', rfl⟩ := List.getLast?_eq_some_iff.1 h
  rw [List.dropLast_concat, List.erase_append_right _ fun ha => ?_]
  · simp
  · exact (List.nodup_append.1 hn).2.2 a ha a (List.mem_singleton_self a) rfl

theorem expireLoop_agrees (now : BitVec 64) (k n : Nat) (hz : Ok hash z) :
    Agrees hash (z.expireLoop rb now k n) (Recency.expireLoop now k n z.entries) := by
  induction k generalizing n z with
  | zero => exact .intro 0 hz
  | succ k ih =>
    have hlast : z.entries.getLast? = z.queue.getLast?.map z.nodes := List.getLast?_map ..
    rw [Zone.expireLoop, Recency.expireLoop, hlast]
    rcases hq : z.queue.getLast? with _ | a
    · exact .intro 0 hz
    · dsimp only [Option.map_some]
      split
      · exact .intro 0 hz
      · have hdrop : (z.unlink rb a).entries = z.entries.dropLast := by
          rw [Zone.entries, Zone.entries, ← List.map_dropLast, ← erase_last hz.nodup hq]
          rfl
        have h := ih (n + 1) (unlink_ok hz : Ok hash (z.unlink rb a))
        rw [hdrop] at h
        exact ⟨h.ok, congrArg (· + 1) h.ret, h.entries⟩

theorem expire_agrees (now : BitVec 64) (n : Nat) (hz : Ok hash z) :
    Agrees hash (z.expire rb now n) (Recency.expire now n z.entries) :=
  expireLoop_agrees rb now _ n hz

theorem getHelper_agrees (stale : Bool) (now : BitVec 64) (k : Bytes) (hz : Ok hash z) :
    Agrees hash (getHelper rb hash stale now k z) (Recency.getHelper stale now k z.entries) := by
  obtain ⟨z', hstart, hz', hentries⟩ : ∃ z', (if stale then z else (z.expire rb now 1).2) = z' ∧ Ok hash z' ∧
      (if stale then z.entries else (Recency.expire now 1 z.entries).2) = z'.entries := by
    cases stale with
    | true => exact ⟨z, rfl, hz, rfl⟩
    | false => exact ⟨_, rfl, (expire_agrees rb now 1 hz).ok, (expire_agrees rb now 1 hz).entries.symm⟩
  rw [getHelper, Recency.getHelper, hstart, hentries]
  rcases lookup_cases hz' now k with ⟨hl, hl', -⟩ | ⟨a, ha, -, ⟨hl, hl'⟩ | ⟨hl, hl'⟩⟩
  · rw [hl, hl']
    exact .intro _ hz'
  · rw [hl, hl']
    exact .intro _ (touch_ok hz' ha)
  · rw [hl, hl']
    exact .intro _ (touch_ok hz' ha)

/-- The key of a new node is not in the dictionary. -/
def Absent (sd : Node) (l : List Node) : Prop := ∀ old ∈ l, old.key ≠ sd.key

theorem insert_agrees (ret : List Value) (hz : Ok hash z) {sd : Node} (hhash : sd.hash = hash sd.key)
    (hnew : Absent sd z.entries) : Agrees hash (ret, z.insert rb sd) (ret, sd :: z.entries) :=
  ⟨insert_ok hz hhash fun _ ha => hnew _ (List.mem_map_of_mem ha), rfl, insert_entries hz sd⟩

theorem evictLoop_agrees (now : BitVec 64) (alloc : Nat → Bool) {sd : Node} (hhash : sd.hash = hash sd.key)
    (rounds i : Nat) (forcible : Bool) (hz : Ok hash z) (hnew : Absent sd z.entries) :
    Agrees hash (evictLoop rb now alloc sd rounds i forcible z)
      (Recency.evictLoop now alloc sd rounds i forcible z.entries) := by
  induction rounds generalizing i forcible z with
  | zero => exact .intro _ hz
  | succ rounds ih =>
    have h := expire_agrees rb now 0 hz
    have hfront := Recency.expire_front now 0 z.entries
    rw [evictLoop, Recency.evictLoop]
    rcases hx : z.expire rb now 0 with ⟨freed, z'⟩
    rcases hy : Recency.expire now 0 z.entries with ⟨freed', l⟩
    rw [hx, hy] at h
    rw [hy] at hfront
    obtain ⟨hok, hret, hentries⟩ := h
    dsimp only at hok hret hentries hfront
    subst hret hentries
    have hnew' : Absent sd z'.entries := fun old hold => hnew old (hfront.subset hold)
    cases freed with
    | zero => exact .intro _ hok
    | succ freed =>
      cases halloc : alloc i with
      | true => simpa only [halloc, if_true] using insert_agrees rb _ hok hhash hnew'
      | false => simpa only [halloc, Bool.false_eq_true, if_false] using ih (i + 1) true hok hnew'

theorem insertNode_agrees (now : BitVec 64) (alloc : Nat → Bool) (safe : Bool) (new : Option Node) (hz : Ok hash z)
    (hhash : ∀ sd ∈ new, sd.hash = hash sd.key) (hnew : ∀ sd ∈ new, Absent sd z.entries) :
    Agrees hash (insertNode rb now alloc safe new z) (Recency.insertNode now alloc safe new z.entries) := by
  rcases new with _ | sd
  · exact .intro _ hz
  · rw [insertNode, Recency.insertNode]
    split
    · exact insert_agrees rb _ hz (hhash sd rfl) (hnew sd rfl)
    · split
      · exact .intro _ hz
      · exact evictLoop_agrees rb now alloc (hhash sd rfl) 30 1 false hz (hnew sd rfl)

theorem replaceNode_agrees (now : BitVec 64) (alloc : Nat → Bool) (safe : Bool) (new : Option Node) {a : Nat}
    (hz : Ok hash z) (ha : a ∈ z.queue) (hnew : ∀ sd ∈ new, sd.hash = hash sd.key ∧ sd.key = (z.nodes a).key) :
    Agrees hash (replaceNode rb now alloc safe new a z)
      (Recency.replaceNode now alloc safe new (z.nodes a) z.entries) := by
  have hgo : ∀ new : Option Node, (∀ sd ∈ new, sd.hash = hash sd.key ∧ sd.key = (z.nodes a).key) →
      Agrees hash (insertNode rb now alloc safe new (z.unlink rb a))
        (Recency.insertNode now alloc safe new (Recency.without (z.nodes a).key z.entries)) := by
    intro new h
    rw [← entries_unlink rb hz ha]
    refine insertNode_agrees rb now alloc safe new (unlink_ok hz) (fun sd hsd => (h sd hsd).1) ?_
    intro sd hsd old hold
    rw [entries_unlink rb hz ha, Recency.mem_without] at hold
    exact (h sd hsd).2 ▸ hold.2
  rcases new with _ | sd
  · exact hgo none hnew
  · obtain ⟨hhash, hkey⟩ := hnew sd rfl
    rw [replaceNode, Recency.replaceNode]
    split
    · have hsd : { sd with hash := (z.nodes a).hash } = sd := by
        rw [hz.hashed a ha, ← hkey, ← hhash]
      refine ⟨?_, rfl, ?_⟩
      · exact write_ok (a := a) (f := fun old => { sd with hash := old.hash }) (touch_ok hz ha) rfl hkey
      · refine (entries_write hz ha _).trans ?_
        rw [hsd]
    · exact hgo (some sd) hnew

theorem setHelper_agrees (kind : Kind) (now : BitVec 64) (alloc : Nat → Bool) (key : Bytes) (value : Option Val)
    (ttl : Option Nat) (flags : BitVec 32) (hz : Ok hash z) :
    Agrees hash (setHelper rb hash kind now alloc key value ttl flags z)
      (Recency.setHelper hash kind now alloc key value ttl flags z.entries) := by
  have hstart := expire_agrees rb now 1 hz
  rw [setHelper, Recency.setHelper]
  split
  · exact .intro _ hz
  · rw [← hstart.entries]
    have hnew : ∀ sd ∈ value.map (newNode hash now key ttl flags), sd.hash = hash sd.key ∧ sd.key = key := by
      rintro sd hsd
      obtain ⟨v, -, rfl⟩ := Option.map_eq_some_iff.1 hsd
      exact ⟨rfl, rfl⟩
    rcases lookup_cases hstart.ok now key with ⟨hl, hl', habs⟩ | ⟨a, ha, rfl, ⟨hl, hl'⟩ | ⟨hl, hl'⟩⟩
    · have hgo := insertNode_agrees rb now alloc kind.isSafe (value.map (newNode hash now key ttl flags))
        hstart.ok (fun sd hsd => (hnew sd hsd).1) fun sd hsd old hold => (hnew sd hsd).2 ▸ habs old hold
      simp only [hl, hl']
      cases kind
      all_goals first | exact hgo | exact .intro _ hstart.ok
    · have hgo := replaceNode_agrees rb now alloc kind.isSafe (value.map (newNode hash now _ ttl flags))
        (touch_ok hstart.ok ha) (List.mem_cons_self ..) hnew
      simp only [hl, hl']
      cases kind
      all_goals first | exact hgo | exact .intro _ (touch_ok hstart.ok ha)
    · have hgo := replaceNode_agrees rb now alloc kind.isSafe (value.map (newNode hash now _ ttl flags))
        (touch_ok hstart.ok ha) (List.mem_cons_self ..) hnew
      simp only [hl, hl']
      cases kind
      all_goals first | exact hgo | exact .intro _ (touch_ok hstart.ok ha)

theorem incr_agrees (now : BitVec 64) (key : Bytes) (value : Number) (hz : Ok hash z) :
    Agrees hash (incr rb hash now key value z) (Recency.incr now key value z.entries) := by
  have hstart := expire_agrees rb now 1 hz
  rw [incr, Recency.incr, ← hstart.entries]
  rcases lookup_cases hstart.ok now key with ⟨hl, hl', -⟩ | ⟨a, ha, rfl, ⟨hl, hl'⟩ | ⟨hl, hl'⟩⟩
  · simp only [hl, hl']
    exact .intro _ hstart.ok
  · have hok := touch_ok hstart.ok ha
    simp only [hl, hl']
    -- the node has just been found, so that it is the first one
    rcases hv : (((z.expire rb now 1).2).nodes a).value with s | n | b
    · simp only [Zone.touch, hv]
      exact .intro _ hok
    · simp only [Zone.touch, hv]
      refine ⟨?_, rfl, ?_⟩
      · exact write_ok (a := a) (f := fun sd => { sd with value := .num (n.add value) })
          (touch_ok hok (List.mem_cons_self ..)) rfl rfl
      · exact entries_write hok (List.mem_cons_self ..) _
    · simp only [Zone.touch, hv]
      exact .intro _ hok
  · simp only [hl, hl']
    exact .intro _ (touch_ok hstart.ok ha)

theorem flushAll_agrees (now : BitVec 64) (hz : Ok hash z) :
    Agrees hash (flushAll rb now z) (Recency.flushAll now z.entries) := by
  let z' : Zone := { z with nodes := fun a => if a ∈ z.queue then { z.nodes a with expires := 1 } else z.nodes a }
  have hhash : ∀ a, (z'.nodes a).hash = (z.nodes a).hash := by
    intro a
    by_cases ha : a ∈ z.queue <;> simp [z', ha]
  have hkey : ∀ a, (z'.nodes a).key = (z.nodes a).key := by
    intro a
    by_cases ha : a ∈ z.queue <;> simp [z', ha]
  have hok : Ok hash z' := by
    refine ⟨hz.nodup, hz.same, ?_, ?_, hz.fresh⟩
    · refine hz.sorted.imp fun {x y} h => ?_
      rw [Node.walk, hhash, hkey, hhash, hkey]
      exact h
    · intro a ha
      rw [hhash, hkey]
      exact hz.hashed a ha
  have hentries : z'.entries = z.entries.map fun sd => { sd with expires := 1 } := by
    rw [Zone.entries, Zone.entries, List.map_map]
    exact List.map_congr_left fun a ha => if_pos ha
  have h := expire_agrees rb now 0 hok
  rw [hentries] at h
  exact ⟨h.ok, rfl, h.entries⟩

/-- The loop of `flush_expired`: `pre` is the part of the queue it has not come to, `post` what it has left of
the rest. -/
theorem flushLoop_agrees (now : BitVec 64) (attempts : Int) (pre post : List Nat) (freed : Nat) (hz : Ok hash z)
    (hq : z.queue = pre.reverse ++ post) :
    Ok hash (flushLoop rb now attempts pre freed z).2 ∧
      (flushLoop rb now attempts pre freed z).1 = (Recency.flushLoop now attempts (pre.map z.nodes) freed).1 ∧
      (flushLoop rb now attempts pre freed z).2.entries =
        (Recency.flushLoop now attempts (pre.map z.nodes) freed).2.reverse ++ post.map z.nodes := by
  induction pre generalizing post freed z with
  | nil =>
    refine ⟨hz, rfl, ?_⟩
    simp [flushLoop, Recency.flushLoop, Zone.entries, hq]
  | cons a pre ih =>
    have hq' : z.queue = pre.reverse ++ a :: post := by simpa using hq
    have hun : (z.unlink rb a).queue = pre.reverse ++ post := by
      have hnot : a ∉ pre.reverse := fun h => by
        have := hq' ▸ hz.nodup
        exact (List.nodup_append.1 this).2.2 a h a (List.mem_cons_self ..) rfl
      rw [Zone.unlink, hq', List.erase_append_right _ hnot, List.erase_cons_head]
    rw [flushLoop, List.map_cons, Recency.flushLoop]
    split
    · split
      · refine ⟨unlink_ok hz, rfl, ?_⟩
        rw [Zone.entries, hun, List.map_append, List.map_reverse]
        rfl
      · exact ih post (freed + 1) (unlink_ok hz) hun
    · have h := ih (a :: post) freed hz hq'
      refine ⟨h.1, h.2.1, ?_⟩
      rw [h.2.2]
      simp

theorem flushExpired_agrees (now : BitVec 64) (attempts : Int) (hz : Ok hash z) :
    Agrees hash (flushExpired rb now attempts z) (Recency.flushExpired now attempts z.entries) := by
  have h := flushLoop_agrees rb now attempts z.queue.reverse [] 0 hz (by simp)
  have hmap : z.queue.reverse.map z.nodes = z.entries.reverse := List.map_reverse ..
  rw [hmap] at h
  refine ⟨h.1, ?_, ?_⟩
  · show [Value.num (.int (flushLoop rb now attempts z.queue.reverse 0 z).1)] = _
    rw [h.2.1]
    rfl
  · exact h.2.2.trans (List.append_nil _)

theorem getKeys_agrees (now : BitVec 64) (attempts : Int) (hz : Ok hash z) :
    Agrees hash (getKeys now attempts z) (Recency.getKeys now attempts z.entries) := by
  refine ⟨hz, ?_, rfl⟩
  rw [getKeys, Recency.getKeys, List.map_reverse]
  rfl

/-! ## Whole runs -/

theorem quiet_agrees {f : Zone → List Value × Zone} {g : List Node → List Value × List Node}
    (h : Agrees hash (f z) (g z.entries)) : Agrees hash (quiet f z) (quiet g z.entries) :=
  ⟨h.ok, congrArg Except.ok h.ret, h.entries⟩

theorem onKey_agrees {f : Bytes → Prog LuaError Zone (List Value)} {g : Bytes → Prog LuaError (List Node) (List Value)}
    (key : Value) (hz : Ok hash z) (h : ∀ k, Agrees hash (f k z) (g k z.entries)) :
    Agrees hash (onKey key f z) (onKey key g z.entries) := by
  rw [onKey, onKey]
  rcases checkKey key with e | rets | k
  · exact .intro _ hz
  · exact .intro _ hz
  · exact h k

theorem call_agrees (e : Event) (hz : Ok hash z) :
    Agrees hash ((zoneCalls rb hash).call e z) ((Recency.calls hash).call e z.entries) := by
  obtain ⟨now, alloc, op⟩ := e
  cases op with
  | get key => exact onKey_agrees key hz fun k => quiet_agrees (getHelper_agrees rb false now k hz)
  | getStale key => exact onKey_agrees key hz fun k => quiet_agrees (getHelper_agrees rb true now k hz)
  | store kind key value ttl flags =>
    refine onKey_agrees key hz fun k => ?_
    rcases checkValue value with _ | v
    · exact .intro _ hz
    · exact quiet_agrees (setHelper_agrees rb kind now alloc k v ttl flags hz)
  | delete key => exact onKey_agrees key hz fun k => quiet_agrees (setHelper_agrees rb .set now alloc k none none 0 hz)
  | incr key value =>
    refine onKey_agrees key hz fun k => ?_
    rcases value.toNum with _ | n
    · exact .intro _ hz
    · exact quiet_agrees (incr_agrees rb now k n hz)
  | flushAll => exact quiet_agrees (flushAll_agrees rb now hz)
  | flushExpired attempts => exact quiet_agrees (flushExpired_agrees rb now attempts hz)
  | getKeys attempts => exact quiet_agrees (getKeys_agrees now attempts hz)

theorem run_agrees (es : List Event) (hz : Ok hash z) :
    Agrees hash ((zoneCalls rb hash).run es z) ((Recency.calls hash).run es z.entries) := by
  induction es generalizing z with
  | nil => exact .intro _ hz
  | cons e es ih =>
    have hcall := call_agrees rb e hz
    have hrest := ih hcall.ok
    rw [hcall.entries] at hrest
    refine ⟨hrest.ok, ?_, hrest.entries⟩
    rw [Calls.run, Calls.run, hcall.ret, hrest.ret]

/-- Whatever is called, and however the slab and the tree behave, the tree stays sorted and holds the nodes of
the queue; the calls return what they would return on a plain list. -/
theorem zone_refines_recency (rb : Rbtree) (hash : Bytes → UInt32) (es : List Event) :
    Ok hash ((zoneCalls rb hash).run es Zone.init).2 ∧
      ((zoneCalls rb hash).run es Zone.init).1 = ((Recency.calls hash).run es []).1 ∧
      ((zoneCalls rb hash).run es Zone.init).2.entries = ((Recency.calls hash).run es []).2 := by
  have h := run_agrees rb es (init_ok : Ok hash Zone.init)
  exact ⟨h.ok, h.ret, h.entries⟩

end NgProxy.Shdict
