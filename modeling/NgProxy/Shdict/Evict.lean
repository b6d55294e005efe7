/-
What the dictionary forgets. A call on a key deletes other nodes only from the end of the queue, the least
recently used ones: at most two that have expired, and more by force, which only a store does that finds no
memory, and which it reports. A store that fails for want of memory has already deleted the node of its key.
-/
import NgProxy.Shdict.History

namespace NgProxy.Shdict

open Lua Recency

/-- The key of a call. -/
def Op.key : Op → Option Bytes
  | get key => validKey key
  | getStale key => validKey key
  | store _ key _ _ _ => validKey key
  | delete key => validKey key
  | incr key _ => validKey key
  | _ => none

/-- A store by force, as it reports itself. -/
def Forced (e : Event) (ret : Except LuaError (List Value)) : Prop :=
  e.alloc 0 = false ∧ (∃ kind key value ttl flags, e.op = .store kind key value ttl flags ∧ kind.isSafe = false) ∧
    ∃ rets, ret = .ok rets ∧ rets[2]? = some (.bool true)

/-- The nodes of other keys from `l` to `l'`: some at the end are gone, each of them due unless `forced`. -/
def Trims (now : BitVec 64) (forced : Prop) (key : Bytes) (l l' : List Node) : Prop :=
  ∃ post, without key l = without key l' ++ post ∧ post.length ≤ 92 ∧ ∀ sd ∈ post, sd.due now = true ∨ forced

section Trims

variable {now : BitVec 64} {forced : Prop} {key : Bytes} {l l' : List Node}

theorem without_without : without key (without key l) = without key l := by
  simp [without]

theorem trims_expire (h : without key l' = without key (expire now 1 l).2) : Trims now forced key l l' := by
  obtain ⟨post, hl, hdue, -, hlen⟩ := expire_append now 1 l
  refine ⟨without key post, ?_, ?_, ?_⟩
  · rw [h]
    conv_lhs => rw [hl]
    exact List.filter_append ..
  · exact (List.length_filter_le ..).trans (by omega)
  · exact fun sd hsd => .inl (hdue one_ne_zero sd (mem_without.1 hsd).1)

/-- What a store leaves: a part of what there was behind the expired nodes. -/
theorem trims_pre {pre post : List Node} (h : without key (expire now 1 l).2 = pre ++ post) (hlen : post.length ≤ 90)
    (hpost : post = [] ∨ forced) (hl' : without key l' = without key pre) : Trims now forced key l l' := by
  obtain ⟨post', hl, hdue, -, hlen'⟩ := expire_append now 1 l
  have hpre : without key pre = pre := by
    refine List.filter_eq_self.2 fun sd hsd => ?_
    have hmem : sd ∈ without key (expire now 1 l).2 := h ▸ List.mem_append_left _ hsd
    simpa using (mem_without.1 hmem).2
  refine ⟨post ++ without key post', ?_, ?_, ?_⟩
  · rw [hl', hpre, ← List.append_assoc, ← h]
    conv_lhs => rw [hl]
    exact List.filter_append ..
  · have := List.length_filter_le (fun sd : Node => decide (sd.key ≠ key)) post'
    rw [List.length_append, without]
    omega
  · intro sd hsd
    rcases List.mem_append.1 hsd with hsd | hsd
    · exact .inr (hpost.resolve_left (List.ne_nil_of_mem hsd))
    · exact .inl (hdue one_ne_zero sd (mem_without.1 hsd).1)

theorem trims_of_eq (h : without key l' = without key l) : Trims now forced key l l' :=
  ⟨[], by rw [h, List.append_nil], by simp, fun sd hsd => by cases hsd⟩

theorem Trims.mono {forced' : Prop} (h : Trims now forced key l l') (hf : forced → forced') :
    Trims now forced' key l l' := by
  obtain ⟨post, hl, hlen, hall⟩ := h
  exact ⟨post, hl, hlen, fun sd hsd => (hall sd hsd).imp_right hf⟩

theorem trims_rfl : Trims now forced key l l := trims_of_eq rfl

end Trims

theorem stores_trims {kind : Kind} {now : BitVec 64} {alloc : Nat → Bool} {key : Bytes} {l : List Node}
    {new : Option Node} {r : List Value × List Node} (h : Stores kind now alloc key l new r)
    (hkey : ∀ sd ∈ new, sd.key = key) :
    Trims now (new ≠ none ∧ alloc 0 = false ∧ kind.isSafe = false ∧ r.1[2]? = some (.bool true)) key l r.2 := by
  cases h with
  | nilValue => exact trims_rfl
  | refused _ err _ => exact trims_expire (without_lookup ..)
  | deleted => exact trims_expire without_without
  | stored sd pre post forcible hpre hlen hforce =>
    refine trims_pre hpre hlen ?_ ?_
    · rcases hforce with ⟨-, hpost⟩ | ⟨rfl, halloc, hsafe⟩
      · exact .inl hpost
      · exact .inr ⟨Option.some_ne_none sd, halloc, hsafe, rfl⟩
    · simp [without, hkey sd rfl]
  | failed sd pre post ret hpre hlen halloc hret =>
    refine trims_pre hpre hlen ?_ rfl
    rcases hret with ⟨-, -, hpost⟩ | ⟨hsafe, f, rfl, hf⟩
    · exact .inl hpost
    · cases f with
      | false => exact .inl (hf rfl)
      | true => exact .inr ⟨Option.some_ne_none sd, halloc, hsafe, rfl⟩

/-- Without memory, the key is left without a node. -/
theorem stores_failed {kind : Kind} {now : BitVec 64} {alloc : Nat → Bool} {key : Bytes} {l : List Node}
    {new : Option Node} {r : List Value × List Node} (h : Stores kind now alloc key l new r)
    (hmem : r.1[1]? = some (.str (bytes "no memory"))) : find key r.2 = none := by
  cases h with
  | nilValue => exact absurd (Value.str.inj (Option.some.inj hmem)) (by decide)
  | refused _ err herr => exact absurd (Value.str.inj (Option.some.inj hmem)) herr
  | deleted => cases hmem
  | stored => cases hmem
  | failed sd pre post ret hpre => exact find_pre_none hpre

/-! ## The front -/

/-- The node of the key comes first. -/
def Fronts (key : Bytes) (l : List Node) : Prop := ∀ sd, find key l = some sd → l.head? = some sd

theorem fronts_cons {key : Bytes} {l : List Node} {sd : Node} (h : sd.key = key) : Fronts key (sd :: l) := by
  intro sd' hf
  rw [find_cons_self h] at hf
  exact hf

theorem fronts_none {key : Bytes} {l : List Node} (h : find key l = none) : Fronts key l := by
  intro sd hf
  rw [h] at hf
  cases hf

theorem fronts_lookup (now : BitVec 64) (key : Bytes) (l : List Node) : Fronts key (lookup now key l).2 := by
  rw [lookup]
  rcases hf : find key l with _ | sd
  · exact fronts_none hf
  · exact fronts_cons (key_of_find hf)

theorem stores_fronts {kind : Kind} {now : BitVec 64} {alloc : Nat → Bool} {key : Bytes} {l : List Node}
    {new : Option Node} {r : List Value × List Node} (h : Stores kind now alloc key l new r)
    (hkey : ∀ sd ∈ new, sd.key = key) (hret : r.1.head? ≠ some .nil) : Fronts key r.2 := by
  cases h with
  | nilValue => exact absurd rfl hret
  | refused => exact fronts_lookup _ _ _
  | deleted => exact fronts_none find_without_self
  | stored sd => exact fronts_cons (hkey sd rfl)
  | failed sd pre post ret hpre => exact fronts_none (find_pre_none hpre)

/-! ## Calls -/

theorem onKey_valid {σ : Type} {key : Value} {k : Bytes} (hkey : validKey key = some k)
    (f : Bytes → Prog LuaError σ (List Value)) (l : σ) : onKey key f l = f k l := by
  rcases onKey_cases key f l with ⟨k', hk', h⟩ | ⟨hk', -⟩
  · rw [h, Option.some.inj (hk'.symm.trans hkey)]
  · rw [hkey] at hk'
    cases hk'

variable (hash : Bytes → UInt32)

/-- A call on a key, whatever it is: the other nodes are trimmed at the end, and the key's own node is in front. -/
theorem call_trims (e : Event) {k : Bytes} (hkey : e.op.key = some k) (l : List Node) :
    Trims e.now (Forced e ((Recency.calls hash).call e l).1) k l ((Recency.calls hash).call e l).2 ∧
      ∀ ret, ((Recency.calls hash).call e l).1 = .ok ret → ret.head? ≠ some .nil →
        Fronts k ((Recency.calls hash).call e l).2 := by
  obtain ⟨now, alloc, op⟩ := e
  cases op with
  | get key =>
    rw [Calls.call, Calls.exec, onKey_valid hkey]
    dsimp only [quiet, Recency.calls]
    rw [getHelper_snd]
    exact ⟨trims_expire (without_lookup ..), fun _ _ _ => fronts_lookup _ _ _⟩
  | getStale key =>
    rw [Calls.call, Calls.exec, onKey_valid hkey]
    dsimp only [quiet, Recency.calls]
    rw [getHelper_snd]
    exact ⟨trims_of_eq (without_lookup ..), fun _ _ _ => fronts_lookup _ _ _⟩
  | store kind key value ttl flags =>
    rw [Calls.call, Calls.exec, onKey_valid hkey]
    rcases hv : checkValue value with _ | v
    · refine ⟨trims_rfl, fun ret hret hne => ?_⟩
      obtain rfl := Except.ok.inj hret
      exact absurd rfl hne
    · have hstores := setHelper_stores kind now alloc k l hash v ttl flags
      constructor
      · refine (stores_trims hstores fun sd hsd => newNode_key hsd).mono fun h => ?_
        exact ⟨h.2.1, ⟨kind, key, value, ttl, flags, rfl, h.2.2.1⟩, _, rfl, h.2.2.2⟩
      · intro ret hret hne
        obtain rfl := Except.ok.inj hret
        exact stores_fronts hstores (fun sd hsd => newNode_key hsd) hne
  | delete key =>
    rw [Calls.call, Calls.exec, onKey_valid hkey]
    have hstores := setHelper_stores .set now alloc k l hash none none 0
    constructor
    · exact (stores_trims hstores fun sd hsd => newNode_key hsd).mono fun h => absurd rfl h.1
    · intro ret hret hne
      obtain rfl := Except.ok.inj hret
      exact stores_fronts hstores (fun sd hsd => newNode_key hsd) hne
  | incr key value =>
    rw [Calls.call, Calls.exec, onKey_valid hkey]
    rcases hv : value.toNum with _ | n
    · refine ⟨trims_rfl, ?_⟩
      rintro ret ⟨⟩
    · dsimp only [quiet, Recency.calls]
      rcases incr_cases now k n l with ⟨sd, m, hf, -, -, h⟩ | ⟨err, h⟩
      · rw [h]
        have hsd := key_of_find hf
        refine ⟨trims_expire ?_, fun _ _ _ => fronts_cons hsd⟩
        simp [without, hsd]
      · rw [h]
        refine ⟨trims_expire (without_lookup ..), fun ret hret hne => ?_⟩
        obtain rfl := Except.ok.inj hret
        exact absurd rfl hne
  | flushAll => cases hkey
  | flushExpired attempts => cases hkey
  | getKeys attempts => cases hkey

/-- From any state a run can reach, and whatever the slab does, a call on a key deletes of the other nodes only the
least recently used ones, at most 92; each of these has expired, unless the call is a store that has found no memory,
may use force and reports it. The node the call has used becomes the most recently used one. -/
theorem evicts_least_recently_used (rb : Rbtree) (es : List Event) (e : Event) (k : Bytes) (hkey : e.op.key = some k) :
    Trims e.now (Forced e ((zoneCalls rb hash).call e ((zoneCalls rb hash).run es Zone.init).2).1) k
        ((zoneCalls rb hash).run es Zone.init).2.entries
        ((zoneCalls rb hash).call e ((zoneCalls rb hash).run es Zone.init).2).2.entries ∧
      ∀ ret, ((zoneCalls rb hash).call e ((zoneCalls rb hash).run es Zone.init).2).1 = .ok ret → ret.head? ≠ some .nil →
        Fronts k ((zoneCalls rb hash).call e ((zoneCalls rb hash).run es Zone.init).2).2.entries := by
  have hcall := call_agrees rb e (run_agrees rb es (init_ok : Ok hash Zone.init)).ok
  rw [hcall.ret, hcall.entries]
  exact call_trims hash e hkey _

/-- A dictionary with `a` and then `b`, and a store of `c` whose first request for memory is refused. -/
def crowded : List Event :=
  [⟨5, fun _ => true, .store .set (.str (bytes "a")) (.str (bytes "1")) none 0⟩,
    ⟨6, fun _ => true, .store .set (.str (bytes "b")) (.str (bytes "2")) none 0⟩]

def crowding : Event := ⟨7, fun i => i != 0, .store .set (.str (bytes "c")) (.str (bytes "3")) none 0⟩

/-- `a` gives way by force, and `c` stands in front. -/
theorem evicts_least_recently_used_forced :
    ((zoneCalls .plain fun _ => 0).run crowded Zone.init).2.entries.map Node.key = [bytes "b", bytes "a"] ∧
      ((zoneCalls .plain fun _ => 0).call crowding
        ((zoneCalls .plain fun _ => 0).run crowded Zone.init).2).2.entries.map Node.key = [bytes "c", bytes "b"] ∧
      Trims 7 (Forced crowding (.ok (stored true))) (bytes "c")
        ((zoneCalls .plain fun _ => 0).run crowded Zone.init).2.entries
        ((zoneCalls .plain fun _ => 0).call crowding
          ((zoneCalls .plain fun _ => 0).run crowded Zone.init).2).2.entries ∧
      Fronts (bytes "c") ((zoneCalls .plain fun _ => 0).call crowding
        ((zoneCalls .plain fun _ => 0).run crowded Zone.init).2).2.entries := by
  have h := evicts_least_recently_used (fun _ => 0) .plain crowded crowding (bytes "c") (by decide)
  exact ⟨by decide, by decide, h.1, h.2 (stored true) rfl (by simp [stored])⟩

theorem call_failed {e : Event} {kind : Kind} {key value : Value} {ttl : Option Nat} {flags : BitVec 32} {k : Bytes}
    {ret : List Value} {l : List Node} (hop : e.op = .store kind key value ttl flags) (hkey : validKey key = some k)
    (hret : ((Recency.calls hash).call e l).1 = .ok ret) (hmem : ret[1]? = some (.str (bytes "no memory"))) :
    find k ((Recency.calls hash).call e l).2 = none := by
  rw [Calls.call, hop, Calls.exec, onKey_valid hkey] at hret ⊢
  rcases hv : checkValue value with _ | v
  · rw [hv] at hret
    obtain rfl := Except.ok.inj hret
    exact absurd (Value.str.inj (Option.some.inj hmem)) (by decide)
  · rw [hv] at hret
    obtain rfl := Except.ok.inj hret
    exact stores_failed (setHelper_stores kind e.now e.alloc k l hash v ttl flags) hmem

/-- A store that returns "no memory" has deleted the node its key had before; a safe one has kept every other node
that had not expired. -/
theorem failed_store_forgets (rb : Rbtree) (es : List Event) (e : Event) (kind : Kind) (key value : Value)
    (ttl : Option Nat) (flags : BitVec 32) (k : Bytes) (ret : List Value) (hop : e.op = .store kind key value ttl flags)
    (hkey : validKey key = some k)
    (hret : ((zoneCalls rb hash).call e ((zoneCalls rb hash).run es Zone.init).2).1 = .ok ret)
    (hmem : ret[1]? = some (.str (bytes "no memory"))) :
    (∀ sd ∈ ((zoneCalls rb hash).call e ((zoneCalls rb hash).run es Zone.init).2).2.entries, sd.key ≠ k) ∧
      (kind.isSafe = true → ∀ sd ∈ ((zoneCalls rb hash).run es Zone.init).2.entries, sd.key ≠ k → sd.due e.now = false →
        sd ∈ ((zoneCalls rb hash).call e ((zoneCalls rb hash).run es Zone.init).2).2.entries) := by
  have hcall := call_agrees rb e (run_agrees rb es (init_ok : Ok hash Zone.init)).ok
  obtain ⟨post, hpost, -, hdue⟩ := (call_trims hash e (by rw [hop]; exact hkey)
    ((zoneCalls rb hash).run es Zone.init).2.entries).1
  rw [hcall.ret] at hret
  rw [hcall.entries]
  constructor
  · intro sd hsd hk
    exact List.find?_eq_none.1 (call_failed hash hop hkey hret hmem) sd hsd (decide_eq_true hk)
  · intro hsafe sd hsd hk hnot
    have hmem' := mem_without.2 ⟨hsd, hk⟩
    rw [hpost] at hmem'
    rcases List.mem_append.1 hmem' with h | h
    · exact (mem_without.1 h).1
    · rcases hdue sd h with hd | ⟨-, ⟨kind', _, _, _, _, hop', hunsafe⟩, -⟩
      · rw [hnot] at hd
        cases hd
      · rw [hop] at hop'
        obtain rfl := (Op.store.inj hop').1
        rw [hsafe] at hunsafe
        cases hunsafe

/-- A dictionary with one short value, and a longer one that finds no memory. -/
theorem failed_store_forgets_value :
    bytes "a" ∉ ((zoneCalls .plain fun _ => 0).call
        ⟨6, fun _ => false, .store .safeSet (.str (bytes "a")) (.str (bytes "22")) none 0⟩
        ((zoneCalls .plain fun _ => 0).run
          [⟨5, fun _ => true, .store .set (.str (bytes "a")) (.str (bytes "1")) none 0⟩] Zone.init).2).2.entries.map
      Node.key := by
  intro h
  obtain ⟨sd, hsd, hk⟩ := List.mem_map.1 h
  exact (failed_store_forgets (fun _ => 0) .plain
    [⟨5, fun _ => true, .store .set (.str (bytes "a")) (.str (bytes "1")) none 0⟩]
    ⟨6, fun _ => false, .store .safeSet (.str (bytes "a")) (.str (bytes "22")) none 0⟩ .safeSet (.str (bytes "a"))
    (.str (bytes "22")) none 0 (bytes "a") safeRefused rfl (by decide) rfl rfl).1 sd hsd hk

/-! ## Flushing and listing -/

/-- A scan from the end that stops at the hit number `attempts`, or goes through. -/
theorem flushLoop_scans (now : BitVec 64) (attempts : Int) (l : List Node) (freed : Nat) :
    ∃ scanned rest, l = scanned ++ rest ∧ Recency.flushLoop now attempts l freed =
        (freed + scanned.countP (·.gone now), scanned.filter (!·.gone now) ++ rest) ∧
      (rest = [] ∨ attempts ≠ 0 ∧ attempts = (freed + scanned.countP (·.gone now) : Nat)) := by
  induction l generalizing freed with
  | nil => exact ⟨[], [], rfl, rfl, .inl rfl⟩
  | cons sd l ih =>
    rw [Recency.flushLoop]
    cases hg : sd.gone now with
    | true =>
      rw [if_pos rfl]
      by_cases hstop : attempts ≠ 0 ∧ (freed + 1 : Nat) = attempts
      · rw [if_pos hstop]
        refine ⟨[sd], l, rfl, by simp [hg], .inr ⟨hstop.1, ?_⟩⟩
        simp [hg, ← hstop.2]
      · rw [if_neg hstop]
        obtain ⟨scanned, rest, hl, h, hend⟩ := ih (freed + 1)
        have hcount : freed + 1 + scanned.countP (·.gone now) = freed + (sd :: scanned).countP (·.gone now) := by
          simp [hg]
          omega
        refine ⟨sd :: scanned, rest, by rw [hl]; rfl, ?_, ?_⟩
        · rw [h, hcount]
          simp [hg]
        · rwa [← hcount]
    | false =>
      rw [if_neg Bool.false_ne_true]
      obtain ⟨scanned, rest, hl, h, hend⟩ := ih freed
      refine ⟨sd :: scanned, rest, by rw [hl]; rfl, ?_, ?_⟩
      · rw [h]
        simp [hg]
      · simpa [hg] using hend

theorem keysLoop_scans (now : BitVec 64) (attempts : Int) (l : List Node) (total : Nat) :
    ∃ scanned rest, l = scanned ++ rest ∧
      keysLoop now attempts l total = (scanned.filter (!·.gone now)).map Node.key ∧
      (rest = [] ∨ attempts ≠ 0 ∧ attempts = (total + (scanned.filter (!·.gone now)).length : Nat)) := by
  induction l generalizing total with
  | nil => exact ⟨[], [], rfl, rfl, .inl rfl⟩
  | cons sd l ih =>
    rw [keysLoop]
    cases hg : sd.gone now with
    | true =>
      rw [if_pos rfl]
      obtain ⟨scanned, rest, hl, h, hend⟩ := ih total
      refine ⟨sd :: scanned, rest, by rw [hl]; rfl, ?_, ?_⟩
      · rw [h]
        simp [hg]
      · simpa [hg] using hend
    | false =>
      rw [if_neg Bool.false_ne_true]
      by_cases hstop : attempts ≠ 0 ∧ (total + 1 : Nat) = attempts
      · rw [if_pos hstop]
        refine ⟨[sd], l, rfl, by simp [hg], .inr ⟨hstop.1, ?_⟩⟩
        simp [hg, ← hstop.2]
      · rw [if_neg hstop]
        obtain ⟨scanned, rest, hl, h, hend⟩ := ih (total + 1)
        have hcount : total + 1 + (scanned.filter (!·.gone now)).length =
            total + ((sd :: scanned).filter (!·.gone now)).length := by
          simp [hg]
          omega
        refine ⟨sd :: scanned, rest, by rw [hl]; rfl, ?_, ?_⟩
        · rw [h]
          simp [hg]
        · rwa [← hcount]

/-- From any state a run can reach, `flush_expired` deletes the least recently used of the expired nodes, as many as it
is asked for or all of them, keeps the rest in order and returns their number. `get_keys` then lists the keys that are
left from the least recently used one on, as many as it is asked for or all of them. To ask for 0 is to ask for all. -/
theorem flush_then_keys (rb : Rbtree) (es : List Event) (now : BitVec 64) (attempts limit : Int) :
    ∃ pre post, ((zoneCalls rb hash).run es Zone.init).2.entries = pre ++ post ∧
      (flushExpired rb now attempts ((zoneCalls rb hash).run es Zone.init).2).1 =
        [.num (.int (post.countP (·.gone now)))] ∧
      (flushExpired rb now attempts ((zoneCalls rb hash).run es Zone.init).2).2.entries =
        pre ++ post.filter (!·.gone now) ∧
      (pre = [] ∨ attempts ≠ 0 ∧ attempts = post.countP (·.gone now)) ∧
      ∃ pre' post', pre ++ post.filter (!·.gone now) = pre' ++ post' ∧
        (getKeys now limit (flushExpired rb now attempts ((zoneCalls rb hash).run es Zone.init).2).2).1 =
          [.tab ((post'.filter (!·.gone now)).reverse.map fun sd => .str sd.key)] ∧
        (pre' = [] ∨ limit ≠ 0 ∧ limit = (post'.filter (!·.gone now)).length) := by
  have hz := (run_agrees rb es (init_ok : Ok hash Zone.init)).ok
  have hflush := flushExpired_agrees rb now attempts hz
  have hkeys := getKeys_agrees now limit hflush.ok
  -- both loops run over the list from its end
  obtain ⟨scanned, rest, hl, h, hend⟩ :=
    flushLoop_scans now attempts ((zoneCalls rb hash).run es Zone.init).2.entries.reverse 0
  rw [Nat.zero_add] at h hend
  have hentries : (flushExpired rb now attempts ((zoneCalls rb hash).run es Zone.init).2).2.entries =
      rest.reverse ++ scanned.reverse.filter (!·.gone now) := by
    rw [hflush.entries, Recency.flushExpired, h]
    simp
  obtain ⟨scanned', rest', hl', h', hend'⟩ := keysLoop_scans now limit
    (flushExpired rb now attempts ((zoneCalls rb hash).run es Zone.init).2).2.entries.reverse 0
  rw [Nat.zero_add] at hend'
  refine ⟨rest.reverse, scanned.reverse, ?_, ?_, hentries, ?_, rest'.reverse, scanned'.reverse, ?_, ?_, ?_⟩
  · rw [← List.reverse_append, ← hl, List.reverse_reverse]
  · rw [hflush.ret, Recency.flushExpired, h]
    simp
  · simpa using hend
  · rw [← hentries, ← List.reverse_append, ← hl', List.reverse_reverse]
  · rw [hkeys.ret, Recency.getKeys, h']
    simp
  · simpa using hend'

end NgProxy.Shdict
