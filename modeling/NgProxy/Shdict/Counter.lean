/-
The counters of `lhlh_metric_counter` in a real dictionary. A counter never expires and every number takes the
same room, so that a counter that is there is rewritten in its place: once it exists, its calls need no memory
and nothing is evicted. The calls of several workers then do to the zone what they do to the plain dictionary
of `NgProxy.Metric`.
-/
import NgProxy.Metric.Counter
import NgProxy.Shdict.Evict

namespace NgProxy.Shdict

open Lua Recency

/-! ## The calls of several workers -/

/-- The next call of `metric_incr` on the dictionary: `incr`, and `set` if that has returned nothing. -/
def countAct (rb : Rbtree) (hash : Bytes → UInt32) (name : Bytes) (now : BitVec 64) (alloc : Nat → Bool) (z : Zone)
    (value : Number) : Metric.Phase → Option (Zone × Metric.Phase)
  | .start =>
    match (zoneCalls rb hash).call ⟨now, alloc, .incr (.str name) (.num value)⟩ z with
    | (.ok (.num _ :: _), z) => some (z, .counted)
    | (_, z) => some (z, .missed)
  | .missed => some (((zoneCalls rb hash).call ⟨now, alloc, .store .set (.str name) (.num value) none 0⟩ z).2, .stored)
  | .counted => none
  | .stored => none

/-- A zone and the calls of `metric_incr` on it, each with its value. -/
structure Workers where
  zone : Zone
  calls : List (Number × Metric.Phase)

/-- Which call takes its next step, when, and what the slab answers. -/
structure Turn where
  call : Nat
  now : BitVec 64
  alloc : Nat → Bool

def countStep (rb : Rbtree) (hash : Bytes → UInt32) (name : Bytes) (s : Workers) (t : Turn) : Option Workers :=
  match s.calls[t.call]? with
  | none => none
  | some (v, p) =>
    (countAct rb hash name t.now t.alloc s.zone v p).map fun r => ⟨r.1, s.calls.set t.call (v, r.2)⟩

/-! ## A dictionary of counters -/

/-- The number a value is. -/
def Val.number : Val → Option Number
  | num n => some n
  | _ => none

/-- The counters of a list of nodes. -/
def counters (l : List Node) : Metric.Dict := fun name => (find name l).bind fun sd => sd.value.number

/-- Every node is a counter that never expires. -/
def Plain (l : List Node) : Prop := ∀ sd ∈ l, sd.expires = 0 ∧ sd.flags = 0 ∧ ∃ n, sd.value = .num n

section Plain

variable {l : List Node} {now : BitVec 64} {name : Bytes} {value : Number}

theorem Plain.live (h : Plain l) {sd : Node} (hsd : sd ∈ l) : sd.stale now = false ∧ sd.due now = false := by
  simp [Node.stale, Node.due, (h sd hsd).1]

theorem Plain.expire (h : Plain l) : Recency.expire now 1 l = (0, l) := by
  rw [Recency.expire, show 3 - 1 = 1 + 1 from rfl, Recency.expireLoop]
  rcases hl : l.getLast? with _ | sd
  · rfl
  · have hdue := (h.live (List.mem_of_getLast? hl) : sd.stale now = false ∧ _).2
    simp [hdue]

/-- The first node is a new counter. -/
theorem counters_cons (sd : Node) (hkey : sd.key = name) (hvalue : sd.value = .num value) (l : List Node) :
    counters (sd :: without name l) = (counters l).set name value := by
  funext k
  by_cases hk : k = name
  · subst hk
    simp [counters, find_cons_self hkey, hvalue, Val.number, Metric.Dict.set]
  · have hne : sd.key ≠ k := fun h => hk (h.symm.trans hkey)
    simp [counters, find_cons_ne hne, find_without_ne hk, Metric.Dict.set, hk]

theorem Plain.cons (h : Plain l) {sd : Node} (hexp : sd.expires = 0) (hflags : sd.flags = 0)
    (hvalue : sd.value = .num value) : Plain (sd :: without name l) := by
  intro x hx
  rcases List.mem_cons.1 hx with rfl | hx
  · exact ⟨hexp, hflags, value, hvalue⟩
  · exact h x (mem_without.1 hx).1

theorem Plain.find_counter (h : Plain l) {sd : Node} (hf : find name l = some sd) :
    ∃ n, sd.value = .num n ∧ counters l name = some n := by
  obtain ⟨-, -, n, hn⟩ := h sd (List.mem_of_find?_eq_some hf)
  exact ⟨n, hn, by rw [counters, hf, Option.bind_some, hn, Val.number]⟩

variable (now name value)

/-- `incr` on a dictionary of counters. -/
theorem Plain.incr (h : Plain l) :
    Plain (Recency.incr now name value l).2 ∧
      counters (Recency.incr now name value l).2 = ((counters l).incr name value).2 ∧
      (Recency.incr now name value l).1 =
        ((counters l).incr name value).1.elim [.nil, .str (bytes "not found")] fun n => [.num n, .nil] := by
  rw [Recency.incr, h.expire]
  rcases hf : find name l with _ | sd
  · have hnone : counters l name = none := by rw [counters, hf, Option.bind_none]
    have hl : Recency.lookup now name l = (.declined, l) := by rw [Recency.lookup, hf]
    simp only [hl, Metric.Dict.incr, hnone]
    exact ⟨h, trivial, rfl⟩
  · obtain ⟨n, hn, hsome⟩ := h.find_counter hf
    have hsd := List.mem_of_find?_eq_some hf
    have hkey := key_of_find hf
    have hl : Recency.lookup now name l = (.ok sd, sd :: without name l) := by
      simp [Recency.lookup, hf, (h.live hsd).1]
    have hwithout : without name (sd :: without name l) = without name l := by
      simp [without, hkey]
    simp only [hl, Metric.Dict.incr, hsome, hn, hwithout]
    refine ⟨h.cons (h sd hsd).1 (h sd hsd).2.1 rfl, ?_, rfl⟩
    exact counters_cons { sd with value := .num (n.add value) } hkey rfl l

/-- `set` on a dictionary of counters: a new counter needs memory, an old one does not. -/
theorem Plain.set (h : Plain l) (hash : Bytes → UInt32) {alloc : Nat → Bool}
    (hmem : counters l name ≠ none ∨ alloc 0 = true) :
    Plain (Recency.setHelper hash .set now alloc name (some (.num value)) none 0 l).2 ∧
      counters (Recency.setHelper hash .set now alloc name (some (.num value)) none 0 l).2 =
        (counters l).set name value := by
  rw [Recency.setHelper, h.expire]
  rcases hf : find name l with _ | sd
  · have hnone : counters l name = none := by rw [counters, hf, Option.bind_none]
    have hl : Recency.lookup now name l = (.declined, l) := by rw [Recency.lookup, hf]
    have halloc := hmem.resolve_left fun hne => hne hnone
    have hwithout := (without_of_declined hl).2
    simp only [hl, Option.isNone_some, Bool.false_eq_true, false_and, if_false, Kind.isReplace, Option.map_some,
      Recency.insertNode, halloc, if_true]
    have hplain : Plain (newNode hash now name none 0 (.num value) :: without name l) := h.cons rfl rfl rfl
    have hcounters : counters (newNode hash now name none 0 (.num value) :: without name l) =
        (counters l).set name value := counters_cons _ rfl rfl l
    rw [hwithout] at hplain hcounters
    exact ⟨hplain, hcounters⟩
  · obtain ⟨n, hn, -⟩ := h.find_counter hf
    have hsd := List.mem_of_find?_eq_some hf
    have hkey := key_of_find hf
    have hl : Recency.lookup now name l = (.ok sd, sd :: without name l) := by
      simp [Recency.lookup, hf, (h.live hsd).1]
    have hwithout : without name (sd :: without name l) = without name l := by
      simp [without, hkey]
    simp only [hl, Option.isNone_some, Bool.false_eq_true, false_and, if_false, Kind.isAdd, Option.map_some,
      Recency.replaceNode, newNode, hn, Val.len, if_true, hkey, hwithout]
    exact ⟨h.cons rfl rfl rfl, counters_cons _ rfl rfl l⟩

/-- `get` on a dictionary of counters. -/
theorem Plain.get (h : Plain l) :
    (Recency.getHelper false now name l).1 = [(counters l name).elim .nil .num] := by
  rw [Recency.getHelper, if_neg Bool.false_ne_true, h.expire]
  rcases hf : find name l with _ | sd
  · have hnone : counters l name = none := by rw [counters, hf, Option.bind_none]
    simp [Recency.lookup, hf, hnone]
  · obtain ⟨n, hn, hsome⟩ := h.find_counter hf
    have hsd := List.mem_of_find?_eq_some hf
    simp [Recency.lookup, hf, (h.live hsd).1, hsome, getReturn, (h sd hsd).2.1, hn, Val.push]

end Plain

/-! ## The simulation -/

/-- A zone that holds the counters of `d` and nothing else. -/
structure Counts (hash : Bytes → UInt32) (d : Metric.Dict) (z : Zone) : Prop where
  ok : Ok hash z
  plain : Plain z.entries
  counters : counters z.entries = d

section Counts

variable {hash : Bytes → UInt32} {rb : Rbtree} {name : Bytes} {now : BitVec 64} {alloc : Nat → Bool} {d : Metric.Dict}
  {z z' : Zone} {value : Number} {p p' : Metric.Phase}

theorem call_incr (hname : validKey (.str name) = some name) (l : List Node) :
    (Recency.calls hash).call ⟨now, alloc, .incr (.str name) (.num value)⟩ l =
      (.ok (Recency.incr now name value l).1, (Recency.incr now name value l).2) := by
  rw [Calls.call, Calls.exec, onKey_valid hname]
  rfl

theorem call_set (hname : validKey (.str name) = some name) (l : List Node) :
    ((Recency.calls hash).call ⟨now, alloc, .store .set (.str name) (.num value) none 0⟩ l).2 =
      (Recency.setHelper hash .set now alloc name (some (.num value)) none 0 l).2 := by
  rw [Calls.call, Calls.exec, onKey_valid hname]
  rfl

theorem set_ne_none {k : Bytes} (h : d k ≠ none) : d.set name value k ≠ none := by
  unfold Metric.Dict.set
  split
  · exact Option.some_ne_none _
  · exact h

/-- A call takes the step on the zone that it takes on the plain dictionary. -/
theorem Counts.act (hz : Counts hash d z) (hname : validKey (.str name) = some name)
    (hmem : d name ≠ none ∨ alloc 0 = true) (h : countAct rb hash name now alloc z value p = some (z', p')) :
    ∃ d', Metric.act name d value p = some (d', p') ∧ Counts hash d' z' ∧ (d name ≠ none → d' name ≠ none) := by
  obtain ⟨hok, hplain, rfl⟩ := hz
  cases p with
  | start =>
    have hcall := call_agrees rb ⟨now, alloc, .incr (.str name) (.num value)⟩ hok
    rw [call_incr hname] at hcall
    obtain ⟨hp, hc, hret⟩ := hplain.incr now name value
    rw [countAct] at h
    rcases hx : (zoneCalls rb hash).call ⟨now, alloc, .incr (.str name) (.num value)⟩ z with ⟨ret, zone⟩
    rw [hx] at h hcall
    obtain ⟨hok', hret', hentries⟩ := hcall
    dsimp only at hok' hret' hentries
    rw [hret', hret] at h
    have hcounts : Counts hash ((Shdict.counters z.entries).incr name value).2 zone :=
      ⟨hok', hentries ▸ hp, by rw [hentries, hc]⟩
    rcases hd : Shdict.counters z.entries name with _ | n
    · simp only [Metric.Dict.incr, hd, Option.elim_none, Option.some.injEq, Prod.mk.injEq] at h hcounts
      obtain ⟨rfl, rfl⟩ := h
      exact ⟨_, by simp only [Metric.act, Metric.Dict.incr, hd], hcounts, fun hne => absurd rfl hne⟩
    · simp only [Metric.Dict.incr, hd, Option.elim_some, Option.some.injEq, Prod.mk.injEq] at h hcounts
      obtain ⟨rfl, rfl⟩ := h
      exact ⟨_, by simp only [Metric.act, Metric.Dict.incr, hd], hcounts, fun _ => by simp⟩
  | missed =>
    have hcall := call_agrees rb ⟨now, alloc, .store .set (.str name) (.num value) none 0⟩ hok
    obtain ⟨hp, hc⟩ := hplain.set now name value hash hmem
    cases h
    refine ⟨_, rfl, ⟨hcall.ok, ?_, ?_⟩, set_ne_none⟩
    · rw [hcall.entries, call_set hname]
      exact hp
    · rw [hcall.entries, call_set hname]
      exact hc
  | counted => cases h
  | stored => cases h

theorem Counts.get (hz : Counts hash d z) (rb : Rbtree) (hname : validKey (.str name) = some name) (now : BitVec 64)
    (alloc : Nat → Bool) :
    ((zoneCalls rb hash).call ⟨now, alloc, .get (.str name)⟩ z).1 = .ok [(d name).elim .nil .num] := by
  rw [(call_agrees rb _ hz.ok).ret, Calls.call, Calls.exec, onKey_valid hname, ← hz.counters, ← hz.plain.get now name]
  rfl

theorem Counts.step {s s' : Workers} {t : Turn} (hs : Counts hash d s.zone) (hname : validKey (.str name) = some name)
    (hmem : d name ≠ none ∨ t.alloc 0 = true) (h : countStep rb hash name s t = some s') :
    ∃ d', Metric.step name ⟨d, s.calls⟩ t.call = some ⟨d', s'.calls⟩ ∧ Counts hash d' s'.zone ∧
      (d name ≠ none → d' name ≠ none) := by
  unfold countStep at h
  rcases hc : s.calls[t.call]? with _ | ⟨v, p⟩
  · rw [hc] at h
    cases h
  · rw [hc] at h
    obtain ⟨⟨z', p'⟩, hact, rfl⟩ := Option.map_eq_some_iff.1 h
    obtain ⟨d', hstep, hcounts, hkeep⟩ := hs.act hname hmem hact
    refine ⟨d', ?_, hcounts, hkeep⟩
    rw [Metric.step]
    simp only [hc, hstep, Option.map_some]

/-- In every run of calls by several workers, a zone of counters goes through what the plain dictionary goes through,
if the slab has memory for a counter that is not there yet. -/
theorem metric_refines (rb : Rbtree) (hash : Bytes → UInt32) (name : Bytes) (d : Metric.Dict) (s s' : Workers)
    (tr : List Turn) (hs : Counts hash d s.zone) (hname : validKey (.str name) = some name)
    (hmem : d name ≠ none ∨ ∀ t ∈ tr, t.alloc 0 = true) (hrun : Trace.run (countStep rb hash name) s tr = some s') :
    ∃ d', Trace.run (Metric.step name) ⟨d, s.calls⟩ (tr.map Turn.call) = some ⟨d', s'.calls⟩ ∧ Counts hash d' s'.zone ∧
      ∀ now alloc, ((zoneCalls rb hash).call ⟨now, alloc, .get (.str name)⟩ s'.zone).1 =
        .ok [(d' name).elim .nil .num] := by
  induction tr generalizing s d with
  | nil =>
    cases hrun
    exact ⟨d, rfl, hs, hs.get rb hname⟩
  | cons t tr ih =>
    obtain ⟨m, hm, htr⟩ := Trace.run_cons.1 hrun
    obtain ⟨d₁, hstep, hcounts, hkeep⟩ :=
      hs.step hname (hmem.imp_right fun h => h t (List.mem_cons_self ..)) hm
    have hmem' : d₁ name ≠ none ∨ ∀ x ∈ tr, x.alloc 0 = true :=
      hmem.imp hkeep fun h x hx => h x (List.mem_cons_of_mem _ hx)
    obtain ⟨d', hrest, h⟩ := ih d₁ m hcounts hmem' htr
    exact ⟨d', Trace.run_cons.2 ⟨_, hstep, hrest⟩, h⟩

/-- Two workers count in an empty dictionary: both calls of `incr` find nothing, and the second `set` overwrites the
first. -/
theorem metric_refines_race :
    ∃ s', Trace.run (countStep .plain (fun _ => 0) (bytes "query_count"))
        ⟨Zone.init, [(.int 1, .start), (.int 4, .start)]⟩
        [⟨0, 5, fun _ => true⟩, ⟨1, 5, fun _ => true⟩, ⟨0, 6, fun _ => true⟩, ⟨1, 6, fun _ => true⟩] = some s' ∧
      ∀ now alloc, ((zoneCalls .plain fun _ => 0).call ⟨now, alloc, .get (.str (bytes "query_count"))⟩ s'.zone).1 =
        .ok [.num (.int 4)] := by
  refine ⟨_, rfl, fun now alloc => ?_⟩
  obtain ⟨d', h, -, hget⟩ := metric_refines .plain (fun _ => 0) (bytes "query_count") (fun _ => none)
    ⟨Zone.init, [(.int 1, .start), (.int 4, .start)]⟩ _
    [⟨0, 5, fun _ => true⟩, ⟨1, 5, fun _ => true⟩, ⟨0, 6, fun _ => true⟩, ⟨1, 6, fun _ => true⟩]
    ⟨init_ok, fun sd hsd => (nomatch hsd), rfl⟩ (by decide) (.inr (by simp)) rfl
  have hd : d' (bytes "query_count") = some (.int 4) := by
    injection h with h
    injection h with hdict
    rw [← hdict]
    rfl
  rw [hget now alloc, hd]
  rfl

end Counts

end NgProxy.Shdict
