/-
What a dictionary holds, told from its calls and what they have returned. A call keeps the node of a key, puts
one, drops it or adds to its number; besides, nodes vanish when they have expired, or when there is no memory.
So `get` returns what the last write has left, or nil; and as long as there is memory, nil only when that has
expired.
-/
import NgProxy.Shdict.Refine

namespace NgProxy.Shdict

open Lua Recency

/-! ## The effect of a call on a key -/

inductive Effect where
  | keep
  | put (sd : Node)
  | drop
  | bump (n : Number)

def Effect.apply : Effect → Option Node → Option Node
  | keep, x => x
  | put sd, _ => some sd
  | drop, _ => none
  | bump n, x => x.map fun sd => { sd with value := .num n }

/-- The key of a call whose checks it has passed. -/
def validKey (key : Value) : Option Bytes :=
  match checkKey key with
  | .ok (.ok k) => some k
  | _ => none

/-- What a store of `new` has done to its key. -/
def storeEffect (new : Option Node) : List Value → Effect
  | .bool true :: _ => new.elim .drop .put
  | .bool false :: .str err :: _ => if err = bytes "no memory" then .drop else .keep
  | _ => .keep

/-- What `incr` has done to its key. -/
def incrEffect : List Value → Effect
  | .num n :: _ => .bump n
  | _ => .keep

/-- What a call has done to the key `k`, judged by what it has returned. -/
def effect (hash : Bytes → UInt32) (e : Event) (ret : List Value) (k : Bytes) : Effect :=
  match e.op with
  | .store _ key value ttl flags =>
    if validKey key = some k then
      (checkValue value).elim .keep fun v => storeEffect (v.map (newNode hash e.now k ttl flags)) ret
    else .keep
  | .delete key => if validKey key = some k then storeEffect none ret else .keep
  | .incr key _ => if validKey key = some k then incrEffect ret else .keep
  | .flushAll => .drop
  | _ => .keep

/-- The effects of a call that returns. -/
def effects (hash : Bytes → UInt32) (e : Event) (ret : Except LuaError (List Value)) (k : Bytes) : Effect :=
  match ret with
  | .error _ => .keep
  | .ok ret => effect hash e ret k

/-- A node that `expire` or `flush_expired` may delete. -/
def Node.over (sd : Node) (now : BitVec 64) : Bool := sd.due now || sd.gone now

/-- How the node of a key has changed from `x` to `y`. A kept node may be deleted when it is over, or when there is
no memory; a dropped one may stay, flushed. -/
def Effect.Happens (now : BitVec 64) (short : Prop) (x y : Option Node) : Effect → Prop
  | keep => y = x ∨ y = none ∧ ∃ sd, x = some sd ∧ (short ∨ sd.over now = true)
  | put sd => y = some sd
  | drop => ∀ sd, y = some sd → sd.expires = 1
  | bump n => ∃ sd, x = some sd ∧ sd.stale now = false ∧ y = some { sd with value := .num n }

section Kept

variable {now : BitVec 64} {short : Prop} {x y w : Option Node}

theorem kept_rfl : Effect.keep.Happens now short x x := .inl rfl

theorem kept_trans (h : Effect.keep.Happens now short x y) (h' : Effect.keep.Happens now short y w) :
    Effect.keep.Happens now short x w := by
  rcases h with rfl | ⟨rfl, sd, hsd, hover⟩
  · exact h'
  · rcases h' with rfl | ⟨rfl, -⟩
    · exact .inr ⟨rfl, sd, hsd, hover⟩
    · exact .inr ⟨rfl, sd, hsd, hover⟩

theorem expire_kept (now : BitVec 64) (short : Prop) (k : Bytes) (l : List Node) :
    Effect.keep.Happens now short (find k l) (find k (expire now 1 l).2) := by
  obtain ⟨post, hl, hdue, -⟩ := expire_append now 1 l
  rcases find_of_append k (expire now 1 l).2 post with h | ⟨h, sd, hsd, hfind⟩
  · rw [← hl] at h
    exact .inl h
  · rw [← hl] at hfind
    refine .inr ⟨h, sd, hfind, .inr ?_⟩
    rw [Node.over, hdue one_ne_zero sd hsd, Bool.true_or]

/-- What a store leaves of the other keys. -/
theorem prefix_kept {key k : Bytes} {l pre post : List Node} (hk : k ≠ key) (h : without key l = pre ++ post)
    (hshort : post = [] ∨ short) : Effect.keep.Happens now short (find k l) (find k pre) := by
  rw [← find_without_ne hk, h]
  rcases find_of_append k pre post with h' | ⟨h', sd, hsd, hfind⟩
  · exact .inl h'
  · refine .inr ⟨h', sd, hfind, .inl (hshort.resolve_left ?_)⟩
    exact List.ne_nil_of_mem hsd

end Kept

theorem find_pre_none {key : Bytes} {l pre post : List Node} (h : without key l = pre ++ post) :
    find key pre = none := by
  have hnone : find key (without key l) = none := find_without_self
  rw [h, find_append, Option.or_eq_none_iff] at hnone
  exact hnone.1

section Calls

variable (hash : Bytes → UInt32) (now : BitVec 64)

/-- A read moves a node to the front, and changes nothing for any key. -/
theorem getHelper_kept (short : Prop) (stale : Bool) (key k : Bytes) (l : List Node) :
    Effect.keep.Happens now short (find k l) (find k (Recency.getHelper stale now key l).2) := by
  rw [getHelper_snd, find_lookup]
  cases stale with
  | true => exact kept_rfl
  | false => exact expire_kept now short k l

/-- A store, on its own key and on any other. -/
theorem stores_effect {kind : Kind} {alloc : Nat → Bool} {key : Bytes} {l : List Node} {new : Option Node}
    {r : List Value × List Node} (h : Stores kind now alloc key l new r) (hkey : ∀ sd ∈ new, sd.key = key) (k : Bytes) :
    (if key = k then storeEffect new r.1 else .keep).Happens now (alloc 0 = false) (find k l) (find k r.2) := by
  have hexpire := expire_kept now (alloc 0 = false) k l
  by_cases hk : key = k
  · rw [if_pos hk]
    subst hk
    cases h with
    | nilValue => exact kept_rfl
    | refused _ err herr =>
      have hkeep : storeEffect new (refused err false) = .keep := by simp [storeEffect, refused, herr]
      rw [hkeep, find_lookup]
      exact hexpire
    | deleted =>
      intro sd hsd
      rw [find_without_self] at hsd
      cases hsd
    | stored sd pre post forcible => exact find_cons_self (hkey sd rfl)
    | failed sd pre post ret hpre _ _ hret =>
      have hdrop : storeEffect (some sd) ret = .drop := by
        rcases hret with ⟨-, rfl, -⟩ | ⟨-, f, rfl, -⟩
        · simp [storeEffect, safeRefused]
        · simp [storeEffect, refused]
      rw [hdrop]
      intro sd hsd
      rw [find_pre_none hpre] at hsd
      cases hsd
  · rw [if_neg hk]
    have hk' : k ≠ key := fun h => hk h.symm
    cases h with
    | nilValue => exact kept_rfl
    | refused _ err herr =>
      rw [find_lookup]
      exact hexpire
    | deleted =>
      rw [find_without_ne hk']
      exact hexpire
    | stored sd pre post forcible hpre _ hforce =>
      rw [find_cons_ne (by rwa [hkey sd rfl])]
      refine kept_trans hexpire (prefix_kept hk' hpre ?_)
      rcases hforce with ⟨-, hpost⟩ | ⟨-, halloc, -⟩
      · exact .inl hpost
      · exact .inr halloc
    | failed sd pre post ret hpre _ halloc => exact kept_trans hexpire (prefix_kept hk' hpre (.inr halloc))

/-- `incr`, on its own key and on any other. -/
theorem incr_effect (short : Prop) (key k : Bytes) (value : Number) (l : List Node) :
    (if key = k then incrEffect (Recency.incr now key value l).1 else .keep).Happens now short (find k l)
      (find k (Recency.incr now key value l).2) := by
  have hexpire := expire_kept now short k l
  rcases incr_cases now key value l with ⟨sd, n, hf, hs, -, h⟩ | ⟨err, h⟩
  · rw [h]
    have hkey := key_of_find hf
    by_cases hk : key = k
    · subst hk
      rw [if_pos rfl]
      -- the node was there before, since only the end of the list is deleted
      obtain ⟨post, hl, -⟩ := expire_append now 1 l
      have hf' : find key l = some sd := by
        rw [hl, find_append, hf]
        rfl
      exact ⟨sd, hf', hs, find_cons_self hkey⟩
    · rw [if_neg hk, find_cons_ne (by rwa [hkey]), find_without_ne fun h => hk h.symm]
      exact hexpire
  · rw [h, find_lookup]
    split <;> exact hexpire

theorem flushAll_dropped (k : Bytes) (l : List Node) (sd : Node)
    (h : find k (Recency.flushAll now l).2 = some sd) : sd.expires = 1 := by
  have hmem := (expire_front now 0 _).subset (List.mem_of_find?_eq_some h)
  obtain ⟨old, -, rfl⟩ := List.mem_map.1 hmem
  rfl

/-- `flush_expired` deletes some of the nodes that have expired. -/
theorem flushLoop_sublist (attempts : Int) (l : List Node) (freed : Nat) :
    (Recency.flushLoop now attempts l freed).2.Sublist l ∧
      ∀ sd ∈ l, sd ∉ (Recency.flushLoop now attempts l freed).2 → sd.gone now = true := by
  induction l generalizing freed with
  | nil => exact ⟨List.Sublist.refl _, fun sd hsd => by cases hsd⟩
  | cons sd l ih =>
    rw [Recency.flushLoop]
    split
    · rename_i hgone
      split
      · refine ⟨List.sublist_cons_self sd l, fun old hold hnot => ?_⟩
        rcases List.mem_cons.1 hold with rfl | hold
        · exact hgone
        · exact absurd hold hnot
      · obtain ⟨hsub, hall⟩ := ih (freed + 1)
        refine ⟨hsub.cons sd, fun old hold hnot => ?_⟩
        rcases List.mem_cons.1 hold with rfl | hold
        · exact hgone
        · exact hall old hold hnot
    · obtain ⟨hsub, hall⟩ := ih freed
      refine ⟨hsub.cons_cons sd, fun old hold hnot => ?_⟩
      rw [List.mem_cons, not_or] at hnot
      exact hall old ((List.mem_cons.1 hold).resolve_left hnot.1) hnot.2

variable {now}

/-- No key twice. -/
def Distinct (l : List Node) : Prop := (l.map Node.key).Nodup

theorem Distinct.find_iff {l : List Node} (h : Distinct l) {k : Bytes} {sd : Node} :
    find k l = some sd ↔ sd ∈ l ∧ sd.key = k := by
  constructor
  · exact fun hf => ⟨List.mem_of_find?_eq_some hf, key_of_find hf⟩
  · rintro ⟨hmem, rfl⟩
    rcases hf : find sd.key l with _ | old
    · exact absurd (decide_eq_true rfl) (List.find?_eq_none.1 hf sd hmem)
    · rw [List.inj_on_of_nodup_map h (List.mem_of_find?_eq_some hf) hmem (key_of_find hf)]

theorem Ok.distinct {hash : Bytes → UInt32} {z : Zone} (hz : Ok hash z) : Distinct z.entries := by
  rw [Distinct, Zone.entries, List.map_map]
  exact hz.nodup.map_on fun a ha b hb h => hz.key_inj ha hb h

theorem flushExpired_kept (short : Prop) (attempts : Int) (k : Bytes) {l : List Node} (hl : Distinct l) :
    Effect.keep.Happens now short (find k l) (find k (Recency.flushExpired now attempts l).2) := by
  obtain ⟨hsub, hall⟩ := flushLoop_sublist now attempts l.reverse 0
  have hsub' : (Recency.flushExpired now attempts l).2.Sublist l := by
    have h := hsub.reverse
    rwa [List.reverse_reverse] at h
  have hl' : Distinct (Recency.flushExpired now attempts l).2 := hl.sublist (hsub'.map Node.key)
  rcases hf : find k (Recency.flushExpired now attempts l).2 with _ | sd
  · rcases hf' : find k l with _ | sd
    · exact kept_rfl
    · obtain ⟨hmem, hkey⟩ := hl.find_iff.1 hf'
      refine .inr ⟨rfl, sd, rfl, .inr ?_⟩
      rw [Node.over, hall sd (List.mem_reverse.2 hmem) ?_, Bool.or_true]
      intro hin
      rw [hl'.find_iff.2 ⟨List.mem_reverse.2 hin, hkey⟩] at hf
      cases hf
  · obtain ⟨hmem, hkey⟩ := hl'.find_iff.1 hf
    rw [hl.find_iff.2 ⟨hsub'.subset hmem, hkey⟩]
    exact kept_rfl

/-- A call whose key is refused leaves everything as it is. -/
theorem onKey_cases {σ : Type} (key : Value) (f : Bytes → Prog LuaError σ (List Value)) (l : σ) :
    (∃ k, validKey key = some k ∧ onKey key f l = f k l) ∨ validKey key = none ∧ (onKey key f l).2 = l := by
  rw [onKey, validKey]
  rcases checkKey key with e | rets | k
  · exact .inr ⟨rfl, rfl⟩
  · exact .inr ⟨rfl, rfl⟩
  · exact .inl ⟨k, rfl, rfl⟩

theorem newNode_key {hash : Bytes → UInt32} {now : BitVec 64} {key : Bytes} {ttl : Option Nat} {flags : BitVec 32}
    {v : Option Val} {sd : Node} (h : sd ∈ v.map (newNode hash now key ttl flags)) : sd.key = key := by
  obtain ⟨v, -, rfl⟩ := Option.map_eq_some_iff.1 h
  rfl

/-- Everything a call does to a key. -/
theorem call_effect (e : Event) {l : List Node} (hl : Distinct l) (k : Bytes) :
    (effects hash e ((Recency.calls hash).call e l).1 k).Happens e.now (e.alloc 0 = false) (find k l)
      (find k ((Recency.calls hash).call e l).2) := by
  obtain ⟨now, alloc, op⟩ := e
  -- a call whose key is refused has no effect, whatever it returns
  have hrefused : ∀ ret (y : Option Node), y = find k l → (∀ ret, effects hash ⟨now, alloc, op⟩ ret k = .keep) →
      (effects hash ⟨now, alloc, op⟩ ret k).Happens now (alloc 0 = false) (find k l) y := by
    rintro ret y rfl h
    rw [h]
    exact kept_rfl
  cases op with
  | get key =>
    rw [Calls.call, Calls.exec]
    rcases onKey_cases key (fun k => quiet ((Recency.calls hash).getHelper false now k)) l with ⟨k', hk, h⟩ | ⟨hk, h⟩
    · rw [h]
      exact getHelper_kept now _ false k' k l
    · rw [h]
      exact hrefused _ _ rfl fun ret => by cases ret <;> rfl
  | getStale key =>
    rw [Calls.call, Calls.exec]
    rcases onKey_cases key (fun k => quiet ((Recency.calls hash).getHelper true now k)) l with ⟨k', hk, h⟩ | ⟨hk, h⟩
    · rw [h]
      exact getHelper_kept now _ true k' k l
    · rw [h]
      exact hrefused _ _ rfl fun ret => by cases ret <;> rfl
  | store kind key value ttl flags =>
    rw [Calls.call, Calls.exec]
    rcases onKey_cases key _ l with ⟨k', hk, h⟩ | ⟨hk, h⟩
    · rw [h]
      rcases hv : checkValue value with _ | v
      · exact hrefused _ _ rfl fun ret => by cases ret <;> simp [effects, effect, hv]
      · have hstores := setHelper_stores kind now alloc k' l hash v ttl flags
        have heffect := stores_effect now hstores (fun sd hsd => newNode_key hsd) k
        have hret : effects hash ⟨now, alloc, .store kind key value ttl flags⟩
            (.ok (Recency.setHelper hash kind now alloc k' v ttl flags l).1) k = if k' = k then storeEffect
              (v.map (newNode hash now k' ttl flags)) (Recency.setHelper hash kind now alloc k' v ttl flags l).1
            else .keep := by
          by_cases hkk : k' = k
          · simp [effects, effect, hk, hkk, hv]
          · simp [effects, effect, hk, hkk]
        rw [← hret] at heffect
        exact heffect
    · rw [h]
      exact hrefused _ _ rfl fun ret => by cases ret <;> simp [effects, effect, hk]
  | delete key =>
    rw [Calls.call, Calls.exec]
    rcases onKey_cases key (fun k => quiet ((Recency.calls hash).setHelper .set now alloc k none none 0)) l with
      ⟨k', hk, h⟩ | ⟨hk, h⟩
    · rw [h]
      have hstores := setHelper_stores .set now alloc k' l hash none none 0
      have heffect := stores_effect now hstores (fun sd hsd => newNode_key hsd) k
      have hret : effects hash ⟨now, alloc, .delete key⟩
          (.ok (Recency.setHelper hash .set now alloc k' none none 0 l).1) k = if k' = k then storeEffect none
            (Recency.setHelper hash .set now alloc k' none none 0 l).1 else .keep := by
        by_cases hkk : k' = k
        · simp [effects, effect, hk, hkk]
        · simp [effects, effect, hk, hkk]
      rw [Option.map_none, ← hret] at heffect
      exact heffect
    · rw [h]
      exact hrefused _ _ rfl fun ret => by cases ret <;> simp [effects, effect, hk]
  | incr key value =>
    rw [Calls.call, Calls.exec]
    rcases onKey_cases key _ l with ⟨k', hk, h⟩ | ⟨hk, h⟩
    · rw [h]
      rcases hn : value.toNum with _ | n
      · exact kept_rfl
      · have heffect := incr_effect now (alloc 0 = false) k' k n l
        have hret : effects hash ⟨now, alloc, .incr key value⟩ (.ok (Recency.incr now k' n l).1) k =
            if k' = k then incrEffect (Recency.incr now k' n l).1 else .keep := by
          by_cases hkk : k' = k
          · simp [effects, effect, hk, hkk]
          · simp [effects, effect, hk, hkk]
        rw [← hret] at heffect
        exact heffect
    · rw [h]
      exact hrefused _ _ rfl fun ret => by cases ret <;> simp [effects, effect, hk]
  | flushAll => exact fun sd => flushAll_dropped now k l sd
  | flushExpired attempts => exact flushExpired_kept _ attempts k hl
  | getKeys attempts => exact kept_rfl

end Calls

/-! ## Time -/

/-- The clock is not at its very beginning, and neither it nor a lifetime is near its end. -/
structure Sane (e : Event) : Prop where
  started : 2 ≤ e.now.toNat
  now : e.now.toNat < 2 ^ 62
  ttl : ∀ kind key value ms flags, e.op = .store kind key value (some ms) flags → ms < 2 ^ 62

section Time

variable {sd : Node} {now : BitVec 64}

theorem ms_eq (hexp : sd.expires.toNat < 2 ^ 63) (hnow : now.toNat < 2 ^ 62) :
    sd.ms now = (sd.expires.toNat : Int) - now.toNat := by
  rw [Node.ms, BitVec.toInt_eq_toNat_cond, BitVec.toNat_sub]
  split <;> omega

theorem due_iff (hexp : sd.expires.toNat < 2 ^ 63) (hnow : now.toNat < 2 ^ 62) :
    sd.due now = true ↔ sd.expires ≠ 0 ∧ sd.expires.toNat ≤ now.toNat := by
  rw [Node.due, ms_eq hexp hnow, Bool.and_eq_true, decide_eq_true_eq, decide_eq_true_eq]
  exact and_congr_right fun _ => by omega

theorem stale_iff (hexp : sd.expires.toNat < 2 ^ 63) (hnow : now.toNat < 2 ^ 62) :
    sd.stale now = true ↔ sd.expires ≠ 0 ∧ sd.expires.toNat < now.toNat := by
  rw [Node.stale, ms_eq hexp hnow, Bool.and_eq_true, decide_eq_true_eq, decide_eq_true_eq]
  exact and_congr_right fun _ => by omega

theorem over_iff (hexp : sd.expires.toNat < 2 ^ 63) (hnow : now.toNat < 2 ^ 62) :
    sd.over now = true ↔ sd.expires ≠ 0 ∧ sd.expires.toNat ≤ now.toNat := by
  rw [Node.over, Bool.or_eq_true, due_iff hexp hnow, Node.gone, Bool.and_eq_true, decide_eq_true_eq, decide_eq_true_eq,
    BitVec.le_def, or_self]

/-- A flushed node has expired. -/
theorem stale_flushed (h : sd.expires = 1) (hstart : 2 ≤ now.toNat) (hnow : now.toNat < 2 ^ 62) :
    sd.stale now = true := by
  have hone : sd.expires.toNat = 1 := by rw [h]; rfl
  refine (stale_iff (by omega) hnow).2 ⟨by rw [h]; decide, by omega⟩

end Time

/-! ## The history of a run -/

/-- What the calls of a run have left under each key, had nothing been deleted but by them. -/
def history (hash : Bytes → UInt32) :
    List Event → List (Except LuaError (List Value)) → (Bytes → Option Node) → Bytes → Option Node
  | e :: es, r :: rs, h => history hash es rs fun k => (effects hash e r k).apply (h k)
  | _, _, h => h

/-- The history `h` tells what the list `l` holds at time `t`: nothing else is in it that has not been flushed, and
if there was always memory, nothing else is missing that has not expired. -/
structure Tells (t : Nat) (calm : Prop) (h : Bytes → Option Node) (l : List Node) : Prop where
  bounded : ∀ k sd, h k = some sd → sd.expires.toNat < 2 ^ 63
  safe : ∀ k sd, find k l = some sd → h k = some sd ∨ sd.expires = 1
  full : calm → ∀ k sd, h k = some sd → find k l = some sd ∨ sd.expires ≠ 0 ∧ sd.expires.toNat ≤ t

theorem expiry_bounded {now : BitVec 64} {ttl : Option Nat} (hnow : now.toNat < 2 ^ 62)
    (httl : ∀ ms ∈ ttl, ms < 2 ^ 62) :
    (expiry now ttl).toNat < 2 ^ 63 := by
  rcases ttl with _ | ms
  · simp [expiry]
  · have := httl ms rfl
    rw [expiry, Option.elim_some, BitVec.toNat_add, BitVec.toNat_ofNat]
    omega

theorem storeEffect_put {new : Option Node} {ret : List Value} {sd : Node} (h : storeEffect new ret = .put sd) :
    new = some sd := by
  unfold storeEffect at h
  split at h
  · rcases new with _ | new
    · cases h
    · rw [Option.elim_some] at h
      rw [Effect.put.inj h]
  · split at h <;> cases h
  · cases h

/-- Only a store puts a node, with the expiry it was given. -/
theorem effects_put {hash : Bytes → UInt32} {e : Event} {ret : Except LuaError (List Value)} {k : Bytes} {sd : Node}
    (h : effects hash e ret k = .put sd) (he : Sane e) : sd.expires.toNat < 2 ^ 63 := by
  obtain ⟨now, alloc, op⟩ := e
  rcases ret with _ | ret
  · cases h
  · cases op with
    | store kind key value ttl flags =>
      simp only [effects, effect] at h
      split at h
      · rcases hv : checkValue value with _ | v <;> rw [hv] at h
        · cases h
        · obtain ⟨val, -, rfl⟩ := Option.map_eq_some_iff.1 (storeEffect_put h)
          refine expiry_bounded he.now fun ms hms => ?_
          obtain rfl := hms
          exact he.ttl kind key value ms flags rfl
      · cases h
    | delete key =>
      simp only [effects, effect] at h
      split at h
      · cases storeEffect_put h
      · cases h
    | incr key value =>
      simp only [effects, effect] at h
      split at h
      · unfold incrEffect at h
        split at h <;> cases h
      · cases h
    | get key => cases h
    | getStale key => cases h
    | flushAll => cases h
    | flushExpired attempts => cases h
    | getKeys attempts => cases h

theorem Tells.call (hash : Bytes → UInt32) {t : Nat} {calm : Prop} {h : Bytes → Option Node} {l : List Node} {e : Event}
    (ht : Tells t calm h l) (hl : Distinct l) (he : Sane e) (hmono : t ≤ e.now.toNat)
    (hcalm : calm → e.alloc 0 = true) :
    Tells e.now.toNat calm (fun k => (effects hash e ((Recency.calls hash).call e l).1 k).apply (h k))
      ((Recency.calls hash).call e l).2 := by
  have hstep := call_effect hash e hl
  -- a node that is incremented is alive, so that it was not flushed
  have halive : ∀ k sd, find k l = some sd → sd.stale e.now = false → h k = some sd := by
    intro k sd hf hs
    refine (ht.safe k sd hf).resolve_right fun hone => ?_
    rw [stale_flushed hone he.started he.now] at hs
    cases hs
  constructor
  · intro k sd hk
    rcases heff : effects hash e ((Recency.calls hash).call e l).1 k with _ | new | _ | n
    · rw [heff] at hk
      exact ht.bounded k sd hk
    · rw [heff] at hk
      cases hk
      exact effects_put heff he
    · rw [heff] at hk
      cases hk
    · rw [heff] at hk
      obtain ⟨old, hold, rfl⟩ := Option.map_eq_some_iff.1 hk
      exact ht.bounded k old hold
  · intro k sd hf
    have hk := hstep k
    rcases heff : effects hash e ((Recency.calls hash).call e l).1 k with _ | new | _ | n
    · rw [heff] at hk
      rcases hk with hk | ⟨hnone, -⟩
      · exact ht.safe k sd (hk ▸ hf)
      · rw [hnone] at hf
        cases hf
    · rw [heff] at hk
      exact .inl (hk.symm.trans hf)
    · rw [heff] at hk
      exact .inr (hk sd hf)
    · rw [heff] at hk
      obtain ⟨old, hold, hs, hnew⟩ := hk
      refine .inl ?_
      rw [Effect.apply, halive k old hold hs, ← hf, hnew]
      rfl
  · intro hc k sd hk
    have hstep := hstep k
    rcases heff : effects hash e ((Recency.calls hash).call e l).1 k with _ | new | _ | n
    · rw [heff] at hk hstep
      rcases ht.full hc k sd hk with hf | ⟨hne, hle⟩
      · rcases hstep with h' | ⟨-, old, hold, hshort | hover⟩
        · exact .inl (h'.trans hf)
        · rw [hcalm hc] at hshort
          cases hshort
        · obtain rfl : old = sd := Option.some.inj (hold.symm.trans hf)
          exact .inr ((over_iff (ht.bounded k old hk) he.now).1 hover)
      · exact .inr ⟨hne, hle.trans hmono⟩
    · rw [heff] at hk hstep
      exact .inl (hstep.trans hk)
    · rw [heff] at hk
      cases hk
    · rw [heff] at hk hstep
      obtain ⟨old, hold, hs, hnew⟩ := hstep
      rw [Effect.apply, halive k old hold hs] at hk
      exact .inl (hnew.trans hk)

/-- The calls of a run, in the order of time. -/
structure Timely (es : List Event) : Prop where
  sane : ∀ e ∈ es, Sane e
  mono : es.Pairwise fun a b => a.now.toNat ≤ b.now.toNat

/-- The last time of a run that begins at `t`. -/
def lastTime : Nat → List Event → Nat
  | t, [] => t
  | _, e :: es => lastTime e.now.toNat es

theorem Tells.run (hash : Bytes → UInt32) (rb : Rbtree) {t : Nat} {calm : Prop} {h : Bytes → Option Node} {z : Zone}
    {es : List Event} (ht : Tells t calm h z.entries) (hz : Ok hash z) (hes : Timely es)
    (hmono : ∀ e ∈ es, t ≤ e.now.toNat) (hcalm : calm → ∀ e ∈ es, e.alloc 0 = true) :
    Tells (lastTime t es) calm (history hash es ((zoneCalls rb hash).run es z).1 h)
      ((zoneCalls rb hash).run es z).2.entries := by
  induction es generalizing t h z with
  | nil => exact ht
  | cons e es ih =>
    have hcall := call_agrees rb e hz
    have hfirst := ht.call hash hz.distinct (hes.sane e (List.mem_cons_self ..))
      (hmono e (List.mem_cons_self ..)) fun hc => hcalm hc e (List.mem_cons_self ..)
    rw [← hcall.ret, ← hcall.entries] at hfirst
    have hpair := List.pairwise_cons.1 hes.mono
    exact ih hfirst hcall.ok ⟨fun x hx => hes.sane x (List.mem_cons_of_mem _ hx), hpair.2⟩ hpair.1
      fun hc x hx => hcalm hc x (List.mem_cons_of_mem _ hx)

theorem lastTime_le {t u : Nat} {es : List Event} (ht : t ≤ u) (h : ∀ e ∈ es, e.now.toNat ≤ u) : lastTime t es ≤ u := by
  induction es generalizing t with
  | nil => exact ht
  | cons e es ih => exact ih (h e (List.mem_cons_self ..)) fun x hx => h x (List.mem_cons_of_mem _ hx)

/-- What `get` returns is nil, or what the history has; and that it is, if there was always memory and it has not
expired. -/
theorem get_tells {t : Nat} {calm : Prop} {h : Bytes → Option Node} {l : List Node} {now : BitVec 64}
    (ht : Tells t calm h l) (hstart : 2 ≤ now.toNat) (hnow : now.toNat < 2 ^ 62) (hmono : t ≤ now.toNat) (k : Bytes) :
    ((Recency.getHelper false now k l).1 = [.nil] ∨
        ∃ sd, h k = some sd ∧ sd.stale now = false ∧ (Recency.getHelper false now k l).1 = getReturn sd) ∧
      (calm → ∀ sd, h k = some sd → sd.due now = false → (Recency.getHelper false now k l).1 = getReturn sd) := by
  have hkept := expire_kept now False k l
  -- a node of the history that is not due is found, and it is not stale either
  have hfull : calm → ∀ sd, h k = some sd → sd.due now = false →
      find k (Recency.expire now 1 l).2 = some sd ∧ sd.stale now = false := by
    intro hc sd hk hdue
    have hnot : ¬(sd.expires ≠ 0 ∧ sd.expires.toNat ≤ now.toNat) := by
      rw [← due_iff (ht.bounded k sd hk) hnow, hdue]
      exact Bool.false_ne_true
    have hf : find k l = some sd := (ht.full hc k sd hk).resolve_right fun hexp => hnot ⟨hexp.1, hexp.2.trans hmono⟩
    constructor
    · rcases hkept with h' | ⟨-, old, hold, hfalse | hover⟩
      · exact h'.trans hf
      · exact hfalse.elim
      · obtain rfl : old = sd := Option.some.inj (hold.symm.trans hf)
        exact absurd ((over_iff (ht.bounded k old hk) hnow).1 hover) hnot
    · rw [← Bool.not_eq_true, stale_iff (ht.bounded k sd hk) hnow]
      exact fun hstale => hnot ⟨hstale.1, hstale.2.le⟩
  rcases hf : find k (Recency.expire now 1 l).2 with _ | sd
  · have hret : (Recency.getHelper false now k l).1 = [.nil] := by
      simp [Recency.getHelper, Recency.lookup, hf]
    refine ⟨.inl hret, fun hc sd hk hdue => ?_⟩
    have := (hfull hc sd hk hdue).1
    rw [hf] at this
    cases this
  · have hl : find k l = some sd := by
      rcases hkept with h' | ⟨hnone, -⟩
      · exact h'.symm.trans hf
      · rw [hnone] at hf
        cases hf
    cases hs : sd.stale now with
    | true =>
      have hret : (Recency.getHelper false now k l).1 = [.nil] := by
        simp [Recency.getHelper, Recency.lookup, hf, hs]
      refine ⟨.inl hret, fun hc old hk hdue => ?_⟩
      obtain ⟨hold, hs'⟩ := hfull hc old hk hdue
      rw [Option.some.inj (hf.symm.trans hold), hs'] at hs
      cases hs
    | false =>
      have hret : (Recency.getHelper false now k l).1 = getReturn sd := by
        simp [Recency.getHelper, Recency.lookup, hf, hs]
      have hk : h k = some sd := by
        refine (ht.safe k sd hl).resolve_right fun hone => ?_
        rw [stale_flushed hone hstart hnow] at hs
        cases hs
      refine ⟨.inr ⟨sd, hk, hs, hret⟩, fun _ old hold _ => ?_⟩
      rw [← Option.some.inj (hk.symm.trans hold)]
      exact hret

theorem init_tells (calm : Prop) : Tells 0 calm (fun _ => none) Zone.init.entries :=
  ⟨fun _ _ h => (nomatch h), fun _ _ h => (nomatch h), fun _ _ _ h => (nomatch h)⟩

/-- In every run of calls with a sane clock and sane lifetimes, whatever the slab and the tree do, `get` returns nil or
what the last write of its key has left, which has not expired. If the slab has always had memory, it does return
that. -/
theorem get_returns_last_write (rb : Rbtree) (hash : Bytes → UInt32) (es : List Event) (e : Event) (key : Value)
    (k : Bytes) (hes : Timely (es ++ [e])) (hop : e.op = .get key) (hkey : validKey key = some k) :
    ∃ ret, ((zoneCalls rb hash).call e ((zoneCalls rb hash).run es Zone.init).2).1 = .ok ret ∧
      (ret = [.nil] ∨ ∃ sd, history hash es ((zoneCalls rb hash).run es Zone.init).1 (fun _ => none) k = some sd ∧
        sd.stale e.now = false ∧ ret = getReturn sd) ∧
      ((∀ x ∈ es, x.alloc 0 = true) → ∀ sd,
        history hash es ((zoneCalls rb hash).run es Zone.init).1 (fun _ => none) k = some sd → sd.due e.now = false →
          ret = getReturn sd) := by
  have hmono := List.pairwise_append.1 hes.mono
  have hsane := hes.sane e (List.mem_append_right _ (List.mem_singleton_self e))
  have hrun := run_agrees rb es (init_ok : Ok hash Zone.init)
  have htells := (init_tells (∀ x ∈ es, x.alloc 0 = true)).run hash rb init_ok
    ⟨fun x hx => hes.sane x (List.mem_append_left _ hx), hmono.1⟩ (fun _ _ => Nat.zero_le _) id
  have hget := get_tells htells hsane.started hsane.now
    (lastTime_le (Nat.zero_le _) fun x hx => hmono.2.2 x hx e (List.mem_singleton_self e)) k
  obtain ⟨now, alloc, op⟩ := e
  obtain rfl : op = .get key := hop
  refine ⟨_, ?_, hget⟩
  rw [(call_agrees rb _ hrun.ok).ret, Calls.call, Calls.exec]
  rcases onKey_cases key (fun k => quiet ((Recency.calls hash).getHelper false now k)) _ with ⟨k', hk, h⟩ | ⟨hk, -⟩
  · obtain rfl : k' = k := Option.some.inj (hk.symm.trans hkey)
    rw [h]
    rfl
  · rw [hkey] at hk
    cases hk

/-- A value is stored for a minute and read a second later. -/
theorem get_returns_last_write_once :
    ∃ ret, ((zoneCalls .plain fun _ => 0).call ⟨1002, fun _ => true, .get (.str (bytes "version"))⟩
        ((zoneCalls .plain fun _ => 0).run
          [⟨2, fun _ => true, .store .set (.str (bytes "version")) (.str (bytes "1")) (some 60000) 0⟩] Zone.init).2).1 =
      .ok ret ∧ ret = [.str (bytes "1")] := by
  obtain ⟨ret, hret, -, hfull⟩ := get_returns_last_write .plain (fun _ => 0)
    [⟨2, fun _ => true, .store .set (.str (bytes "version")) (.str (bytes "1")) (some 60000) 0⟩]
    ⟨1002, fun _ => true, .get (.str (bytes "version"))⟩ (.str (bytes "version")) (bytes "version")
    ⟨by
      intro e he
      simp only [List.cons_append, List.nil_append, List.mem_cons, List.not_mem_nil, or_false] at he
      rcases he with rfl | rfl
      · refine ⟨by decide, by decide, ?_⟩
        rintro kind key value ms flags h
        obtain ⟨-, -, -, hms, -⟩ := Op.store.inj h
        obtain rfl := Option.some.inj hms
        decide
      · exact ⟨by decide, by decide, fun kind key value ms flags h => nomatch h⟩,
    by simp⟩ rfl (by decide)
  refine ⟨ret, hret, hfull (by simp) ⟨0, bytes "version", 60002, 0, .str (bytes "1")⟩ ?_ (by decide)⟩
  rfl

end NgProxy.Shdict
