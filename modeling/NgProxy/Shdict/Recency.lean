/-
The shared dictionary without its data structures: the list of its nodes, the most recently used first, no
two of one key. What is read or written comes to the front, and what is deleted to make room is taken from
the end.
-/
import NgProxy.Shdict.Zone

namespace NgProxy.Shdict.Recency

open Lua

/-! ## The operations -/

def find (key : Bytes) (l : List Node) : Option Node := l.find? fun sd => sd.key = key

def without (key : Bytes) (l : List Node) : List Node := l.filter fun sd => sd.key ≠ key

def lookup (now : BitVec 64) (key : Bytes) (l : List Node) : Found Node × List Node :=
  match find key l with
  | none => (.declined, l)
  | some sd => (if sd.stale now then .done sd else .ok sd, sd :: without key l)

def expireLoop (now : BitVec 64) : Nat → Nat → List Node → Nat × List Node
  | 0, _, l => (0, l)
  | k + 1, n, l =>
    match l.getLast? with
    | none => (0, l)
    | some sd =>
      if n ≠ 0 ∧ !sd.due now then (0, l)
      else
        let r := expireLoop now k (n + 1) l.dropLast
        (r.1 + 1, r.2)

def expire (now : BitVec 64) (n : Nat) (l : List Node) : Nat × List Node := expireLoop now (3 - n) n l

def getHelper (getStale : Bool) (now : BitVec 64) (key : Bytes) (l : List Node) : List Value × List Node :=
  match lookup now key (if getStale then l else (expire now 1 l).2) with
  | (.declined, l) => ([.nil], l)
  | (.done sd, l) => (if getStale then staleReturn sd true else [.nil], l)
  | (.ok sd, l) => (if getStale then staleReturn sd false else getReturn sd, l)

def evictLoop (now : BitVec 64) (alloc : Nat → Bool) (sd : Node) :
    Nat → Nat → Bool → List Node → List Value × List Node
  | 0, _, forcible, l => (refused "no memory" forcible, l)
  | rounds + 1, i, forcible, l =>
    match expire now 0 l with
    | (0, l) => (refused "no memory" forcible, l)
    | (_, l) => if alloc i then (stored true, sd :: l) else evictLoop now alloc sd rounds (i + 1) true l

def insertNode (now : BitVec 64) (alloc : Nat → Bool) (safe : Bool) (new : Option Node) (l : List Node) :
    List Value × List Node :=
  match new with
  | none => (stored false, l)
  | some sd =>
    if alloc 0 then (stored false, sd :: l)
    else if safe then (safeRefused, l)
    else evictLoop now alloc sd 30 1 false l

def replaceNode (now : BitVec 64) (alloc : Nat → Bool) (safe : Bool) (new : Option Node) (old : Node) (l : List Node) :
    List Value × List Node :=
  match new with
  | none => insertNode now alloc safe none (without old.key l)
  | some sd =>
    if sd.value.len = old.value.len then (stored false, sd :: without old.key l)
    else insertNode now alloc safe (some sd) (without old.key l)

def setHelper (hash : Bytes → UInt32) (kind : Kind) (now : BitVec 64) (alloc : Nat → Bool) (key : Bytes)
    (value : Option Val) (ttl : Option Nat) (flags : BitVec 32) (l : List Node) : List Value × List Node :=
  if value.isNone ∧ (kind.isAdd ∨ kind.isReplace) then
    ([.nil, .str (bytes "attempt to add or replace nil values")], l)
  else
    let new := value.map (newNode hash now key ttl flags)
    match lookup now key (expire now 1 l).2 with
    | (.ok sd, l) =>
      if kind.isAdd then (refused "exists" false, l) else replaceNode now alloc kind.isSafe new sd l
    | (.done sd, l) =>
      if kind.isReplace then (refused "not found" false, l) else replaceNode now alloc kind.isSafe new sd l
    | (.declined, l) =>
      if kind.isReplace then (refused "not found" false, l) else insertNode now alloc kind.isSafe new l

def incr (now : BitVec 64) (key : Bytes) (value : Number) (l : List Node) : List Value × List Node :=
  match lookup now key (expire now 1 l).2 with
  | (.ok sd, l) =>
    match sd.value with
    | .num n => ([.num (n.add value), .nil], { sd with value := .num (n.add value) } :: without key l)
    | _ => ([.nil, .str (bytes "not a number")], l)
  | (_, l) => ([.nil, .str (bytes "not found")], l)

def flushAll (now : BitVec 64) (l : List Node) : List Value × List Node :=
  ([], (expire now 0 (l.map fun sd => { sd with expires := 1 })).2)

/-- How many nodes are freed, and what is left of a list that starts with the least recently used node. -/
def flushLoop (now : BitVec 64) (attempts : Int) : List Node → Nat → Nat × List Node
  | [], freed => (freed, [])
  | sd :: l, freed =>
    if sd.gone now then
      if attempts ≠ 0 ∧ (freed + 1 : Nat) = attempts then (freed + 1, l) else flushLoop now attempts l (freed + 1)
    else
      let r := flushLoop now attempts l freed
      (r.1, sd :: r.2)

def flushExpired (now : BitVec 64) (attempts : Int) (l : List Node) : List Value × List Node :=
  let r := flushLoop now attempts l.reverse 0
  ([.num (.int r.1)], r.2.reverse)

def getKeys (now : BitVec 64) (attempts : Int) (l : List Node) : List Value × List Node :=
  ([.tab ((keysLoop now attempts l.reverse 0).map .str)], l)

/-- The calls on a list. -/
def calls (hash : Bytes → UInt32) : Calls (List Node) where
  getHelper := getHelper
  setHelper := setHelper hash
  incr := incr
  flushAll := flushAll
  flushExpired := flushExpired
  getKeys := getKeys

/-! ## What they do to the list -/

section Find

variable {key k : Bytes} {l pre post : List Node} {sd : Node}

theorem mem_without : sd ∈ without key l ↔ sd ∈ l ∧ sd.key ≠ key := by
  simp [without]

theorem key_of_find (h : find key l = some sd) : sd.key = key := by
  simpa using List.find?_some h

theorem find_cons_self (h : sd.key = key) : find key (sd :: l) = some sd := by
  simp [find, h]

theorem find_cons_ne (h : sd.key ≠ key) : find key (sd :: l) = find key l := by
  simp [find, h]

theorem find_without_self : find key (without key l) = none :=
  List.find?_eq_none.2 fun sd hsd => by simpa using (mem_without.1 hsd).2

theorem find_without_ne (h : k ≠ key) : find k (without key l) = find k l := by
  rw [find, find, without, List.find?_filter]
  congr 1
  funext sd
  by_cases hk : sd.key = k
  · simp [hk, h]
  · simp [hk]

theorem find_append : find key (pre ++ post) = (find key pre).or (find key post) := List.find?_append ..

/-- The node of a key is still there, or it is in the part that was deleted. -/
theorem find_of_append (key : Bytes) (pre post : List Node) :
    find key pre = find key (pre ++ post) ∨
      find key pre = none ∧ ∃ sd ∈ post, find key (pre ++ post) = some sd := by
  rw [find_append]
  rcases hpre : find key pre with _ | sd
  · rcases hpost : find key post with _ | sd
    · exact .inl rfl
    · exact .inr ⟨rfl, sd, List.mem_of_find?_eq_some hpost, rfl⟩
  · exact .inl rfl

end Find

/-- Only the end of the list is deleted; without force, only what is due. -/
theorem expireLoop_append (now : BitVec 64) (k n : Nat) (l : List Node) :
    ∃ post, l = (expireLoop now k n l).2 ++ post ∧ (n ≠ 0 → ∀ sd ∈ post, sd.due now = true) ∧
      post.length = (expireLoop now k n l).1 ∧ post.length ≤ k := by
  induction k generalizing n l with
  | zero => exact ⟨[], by simp [expireLoop]⟩
  | succ k ih =>
    rw [expireLoop]
    rcases hlast : l.getLast? with _ | sd
    · exact ⟨[], by simp⟩
    · dsimp only
      split
      · exact ⟨[], by simp⟩
      · rename_i hdue
        obtain ⟨post, hl, hpost, hlen, hk⟩ := ih (n + 1) l.dropLast
        refine ⟨post ++ [sd], ?_, ?_, ?_, ?_⟩
        · rw [← List.append_assoc, ← hl]
          exact (List.dropLast_append_getLast? sd hlast).symm
        · intro hn sd' hsd'
          rcases List.mem_append.1 hsd' with h | h
          · exact hpost (Nat.succ_ne_zero n) sd' h
          · obtain rfl := List.mem_singleton.1 h
            simpa [hn] using hdue
        · simp [hlen]
        · simp [hk]

theorem expire_append (now : BitVec 64) (n : Nat) (l : List Node) :
    ∃ post, l = (expire now n l).2 ++ post ∧ (n ≠ 0 → ∀ sd ∈ post, sd.due now = true) ∧
      post.length = (expire now n l).1 ∧ post.length ≤ 3 - n :=
  expireLoop_append now _ n l

theorem expire_front (now : BitVec 64) (n : Nat) (l : List Node) : (expire now n l).2 <+: l := by
  obtain ⟨post, hl, -⟩ := expire_append now n l
  exact ⟨post, hl.symm⟩

theorem find_lookup (now : BitVec 64) (key k : Bytes) (l : List Node) : find k (lookup now key l).2 = find k l := by
  rw [lookup]
  rcases hf : find key l with _ | sd
  · rfl
  · have hkey := key_of_find hf
    by_cases hk : k = key
    · rw [hk, hf]
      exact find_cons_self hkey
    · dsimp only
      rw [find_cons_ne (by rwa [hkey, ne_comm]), find_without_ne hk]

theorem without_lookup (now : BitVec 64) (key : Bytes) (l : List Node) :
    without key (lookup now key l).2 = without key l := by
  rw [lookup]
  rcases hf : find key l with _ | sd
  · rfl
  · simp [without, key_of_find hf]

theorem without_of_declined {now : BitVec 64} {key : Bytes} {l l' : List Node}
    (h : lookup now key l = (.declined, l')) :
    l' = l ∧ without key l = l := by
  rw [lookup] at h
  rcases hf : find key l with _ | sd
  · rw [hf] at h
    obtain rfl := (Prod.mk.inj h).2
    refine ⟨rfl, List.filter_eq_self.2 fun sd hsd => ?_⟩
    simpa using List.find?_eq_none.1 hf sd hsd
  · rw [hf] at h
    dsimp only at h
    split at h <;> cases h

theorem key_of_lookup {now : BitVec 64} {key : Bytes} {l l' : List Node} {sd : Node}
    (h : lookup now key l = (.ok sd, l') ∨ lookup now key l = (.done sd, l')) : sd.key = key := by
  rw [lookup] at h
  rcases hf : find key l with _ | old
  · rw [hf] at h
    rcases h with h | h <;> cases h
  · rw [hf] at h
    have hkey := key_of_find hf
    dsimp only at h
    split at h <;> rcases h with h | h <;> cases h <;> exact hkey

/-- A read only looks the node up. -/
theorem getHelper_snd (stale : Bool) (now : BitVec 64) (key : Bytes) (l : List Node) :
    (getHelper stale now key l).2 = (lookup now key (if stale then l else (expire now 1 l).2)).2 := by
  rw [getHelper]
  rcases lookup now key (if stale then l else (expire now 1 l).2) with ⟨_ | _ | _, l'⟩ <;> rfl

/-- `incr` adds to the number of a live node, or only looks it up. -/
theorem incr_cases (now : BitVec 64) (key : Bytes) (value : Number) (l : List Node) :
    (∃ sd n, find key (expire now 1 l).2 = some sd ∧ sd.stale now = false ∧ sd.value = .num n ∧
      incr now key value l = ([.num (n.add value), .nil],
        { sd with value := .num (n.add value) } :: without key (expire now 1 l).2)) ∨
    ∃ err, incr now key value l = ([.nil, .str err], (lookup now key (expire now 1 l).2).2) := by
  have hwithout := without_lookup now key (expire now 1 l).2
  rw [incr]
  rcases hf : find key (expire now 1 l).2 with _ | sd
  · have hl : lookup now key (expire now 1 l).2 = (.declined, (expire now 1 l).2) := by rw [lookup, hf]
    rw [hl]
    exact .inr ⟨_, rfl⟩
  · cases hs : sd.stale now with
    | true =>
      have hl : lookup now key (expire now 1 l).2 = (.done sd, sd :: without key (expire now 1 l).2) := by
        simp [lookup, hf, hs]
      rw [hl]
      exact .inr ⟨_, rfl⟩
    | false =>
      have hl : lookup now key (expire now 1 l).2 = (.ok sd, sd :: without key (expire now 1 l).2) := by
        simp [lookup, hf, hs]
      rw [hl] at hwithout
      rw [hl]
      rcases hv : sd.value with s | n | b
      · exact .inr ⟨bytes "not a number", by simp only [hv]⟩
      · refine .inl ⟨sd, n, rfl, hs, hv, ?_⟩
        simp only [hv]
        rw [hwithout]
      · exact .inr ⟨bytes "not a number", by simp only [hv]⟩

/-! ## What a store can do -/

/-- A store that has found no memory and may use force deletes from the end, and reports it. -/
theorem evictLoop_cases (now : BitVec 64) (alloc : Nat → Bool) (sd : Node) (rounds i : Nat) (forcible : Bool)
    (l : List Node) :
    ∃ pre post, l = pre ++ post ∧ post.length ≤ 3 * rounds ∧
      (evictLoop now alloc sd rounds i forcible l = (stored true, sd :: pre) ∨
        ∃ f, evictLoop now alloc sd rounds i forcible l = (refused "no memory" f, pre) ∧
          (f = forcible ∧ post = [] ∨ f = true)) := by
  induction rounds generalizing i forcible l with
  | zero => exact ⟨l, [], by simp, by simp, .inr ⟨forcible, rfl, .inl ⟨rfl, rfl⟩⟩⟩
  | succ rounds ih =>
    obtain ⟨post, hl, -, hlen, hthree⟩ := expire_append now 0 l
    rw [evictLoop]
    rcases hx : expire now 0 l with ⟨freed, l'⟩
    rw [hx] at hl hlen
    cases freed with
    | zero =>
      obtain rfl := List.length_eq_zero_iff.1 hlen
      refine ⟨l', [], hl, by simp, .inr ⟨forcible, rfl, .inl ⟨rfl, rfl⟩⟩⟩
    | succ freed =>
      by_cases halloc : alloc i = true
      · refine ⟨l', post, hl, by omega, .inl ?_⟩
        simp [halloc]
      · obtain ⟨pre, post', hl', hlen', hcase⟩ := ih (i + 1) true l'
        refine ⟨pre, post' ++ post, by rw [hl, hl', List.append_assoc], ?_, ?_⟩
        · rw [List.length_append]
          omega
        · simp only [halloc]
          rcases hcase with h | ⟨f, h, hf⟩
          · exact .inl h
          · refine .inr ⟨f, h, .inr ?_⟩
            rcases hf with ⟨hf, -⟩ | hf
            · exact hf
            · exact hf

/-- Everything a store can do: `l` is the dictionary, `new` the node to be stored. -/
inductive Stores (kind : Kind) (now : BitVec 64) (alloc : Nat → Bool) (key : Bytes) (l : List Node) :
    Option Node → List Value × List Node → Prop
  /-- nil was to be added. -/
  | nilValue : Stores kind now alloc key l none ([.nil, .str (bytes "attempt to add or replace nil values")], l)
  /-- The key exists, or it does not. -/
  | refused (new : Option Node) (err : String) (h : bytes err ≠ bytes "no memory") :
    Stores kind now alloc key l new (refused err false, (lookup now key (expire now 1 l).2).2)
  | deleted : Stores kind now alloc key l none (stored false, without key (expire now 1 l).2)
  /-- The node is stored, by force or without. -/
  | stored (sd : Node) (pre post : List Node) (forcible : Bool) (h : without key (expire now 1 l).2 = pre ++ post)
    (hlen : post.length ≤ 90)
    (hforce : forcible = false ∧ post = [] ∨ forcible = true ∧ alloc 0 = false ∧ kind.isSafe = false) :
    Stores kind now alloc key l (some sd) (stored forcible, sd :: pre)
  /-- There is no memory, and the old node is gone. -/
  | failed (sd : Node) (pre post : List Node) (ret : List Value) (h : without key (expire now 1 l).2 = pre ++ post)
    (hlen : post.length ≤ 90) (halloc : alloc 0 = false)
    (hret : kind.isSafe = true ∧ ret = safeRefused ∧ post = [] ∨
      kind.isSafe = false ∧ ∃ f, ret = Shdict.refused "no memory" f ∧ (f = false → post = [])) :
    Stores kind now alloc key l (some sd) (ret, pre)

section Stores

variable (kind : Kind) (now : BitVec 64) (alloc : Nat → Bool) (key : Bytes) (l : List Node) (new : Option Node)

theorem insertNode_stores :
    Stores kind now alloc key l new (insertNode now alloc kind.isSafe new (without key (expire now 1 l).2)) := by
  rcases new with _ | sd
  · exact .deleted
  · rw [insertNode]
    by_cases halloc : alloc 0 = true
    · rw [if_pos halloc]
      exact .stored sd _ [] false (by simp) (by simp) (.inl ⟨rfl, rfl⟩)
    · rw [if_neg halloc]
      rw [Bool.not_eq_true] at halloc
      by_cases hsafe : kind.isSafe = true
      · rw [if_pos hsafe]
        exact .failed sd _ [] _ (by simp) (by simp) halloc (.inl ⟨hsafe, rfl, rfl⟩)
      · rw [if_neg hsafe]
        rw [Bool.not_eq_true] at hsafe
        obtain ⟨pre, post, hl, hlen, h | ⟨f, h, hf⟩⟩ :=
          evictLoop_cases now alloc sd 30 1 false (without key (expire now 1 l).2)
        · rw [h]
          exact .stored sd pre post true hl hlen (.inr ⟨rfl, halloc, hsafe⟩)
        · rw [h]
          refine .failed sd pre post _ hl hlen halloc (.inr ⟨hsafe, f, rfl, fun hfalse => ?_⟩)
          rcases hf with ⟨-, hpost⟩ | hf
          · exact hpost
          · rw [hf] at hfalse
            cases hfalse

theorem replaceNode_stores {old : Node} (hold : old.key = key) :
    Stores kind now alloc key l new
      (replaceNode now alloc kind.isSafe new old (lookup now key (expire now 1 l).2).2) := by
  rcases new with _ | sd
  · rw [replaceNode, hold, without_lookup]
    exact insertNode_stores kind now alloc key l none
  · rw [replaceNode, hold, without_lookup]
    split
    · exact .stored sd _ [] false (by simp) (by simp) (.inl ⟨rfl, rfl⟩)
    · exact insertNode_stores kind now alloc key l (some sd)

theorem setHelper_stores (hash : Bytes → UInt32) (value : Option Val) (ttl : Option Nat) (flags : BitVec 32) :
    Stores kind now alloc key l (value.map (newNode hash now key ttl flags))
      (setHelper hash kind now alloc key value ttl flags l) := by
  have hrefused : ∀ err, bytes err ≠ bytes "no memory" →
      Stores kind now alloc key l (value.map (newNode hash now key ttl flags))
        (Shdict.refused err false, (lookup now key (expire now 1 l).2).2) := fun err h => .refused _ err h
  rw [setHelper]
  split
  · rename_i hnil
    obtain rfl := Option.isNone_iff_eq_none.1 hnil.1
    exact .nilValue
  · rcases hl : lookup now key (expire now 1 l).2 with ⟨sd | sd | _, l'⟩
    · have hreplace := replaceNode_stores kind now alloc key l (value.map (newNode hash now key ttl flags))
        (key_of_lookup (.inl hl))
      rw [hl] at hreplace hrefused
      dsimp only
      split
      · exact hrefused "exists" (by decide)
      · exact hreplace
    · have hreplace := replaceNode_stores kind now alloc key l (value.map (newNode hash now key ttl flags))
        (key_of_lookup (.inr hl))
      rw [hl] at hreplace hrefused
      dsimp only
      split
      · exact hrefused "not found" (by decide)
      · exact hreplace
    · obtain ⟨rfl, hwithout⟩ := without_of_declined hl
      have hinsert := insertNode_stores kind now alloc key l (value.map (newNode hash now key ttl flags))
      rw [hwithout] at hinsert
      rw [hl] at hrefused
      dsimp only
      split
      · exact hrefused "not found" (by decide)
      · exact hinsert

end Stores

end NgProxy.Shdict.Recency
