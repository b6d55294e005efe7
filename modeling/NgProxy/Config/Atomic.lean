/-
`load_config` writes four tables one after the other and returns early, or raises, wherever a section, a
key or a file is missing. What it has written until then stays: a load that does not reach its end leaves
the tables as they were only if it had nothing to write.
-/
import NgProxy.Config.Load

namespace NgProxy.Config

open Lua Codec Cluster Prog

variable {W : Type}

/-! ## The end of `load_config` -/

/-- `loadLists`, with whether both whitelists were read. -/
def listsToEnd (files : Bytes → Option File) (conf : Ini) (nodes : Value) : Conf W Bool :=
  if nodes.truthy then do
    insertNodes nodes
    let found ← readIpWhitelist files conf
    if found then readCmdWhitelist files conf else pure false
  else pure false

/-- `load_config`, with whether its end is reached. -/
def loadToEnd (files : Bytes → Option File) (conf : Option Ini) : Conf W Bool :=
  match conf with
  | none => pure false
  | some conf => do
    let proxy ← iniSection conf (bytes "proxy")
    assignSettings proxy
    listsToEnd files conf ((proxy (bytes "node_list")).getD .nil)

/-- The whitelist of a section can be read to its end: the section names a file that can be opened and
whose lines can all be read. -/
def Readable (files : Bytes → Option File) (conf : Ini) (name : Bytes) : Prop :=
  ∃ keys path file, conf name = some keys ∧ ((keys (bytes "path")).getD .nil).toStr = some path ∧
    files path = some file ∧ file.broken = false

/-- The load neither returns early nor raises: there is a section `proxy` with a list of nodes, and both
whitelists can be read. -/
def Completes (files : Bytes → Option File) (conf : Option Ini) : Prop :=
  ∃ c proxy text, conf = some c ∧ c (bytes "proxy") = some proxy ∧ proxy (bytes "node_list") = some (.str text) ∧
    Readable files c (bytes "ip_whitelist") ∧ Readable files c (bytes "cmd_whitelist")

theorem loadLists_eq (files : Bytes → Option File) (conf : Ini) (nodes : Value) :
    (loadLists files conf nodes : Conf W Unit) = listsToEnd files conf nodes >>= fun _ => pure () := by
  unfold loadLists listsToEnd
  split
  · -- both run the same up to the last step, whose result is dropped
    simp only [bind_assoc]
    congr 1; funext _
    congr 1; funext found
    cases found <;> rfl
  · rfl

theorem loadConfig_eq (files : Bytes → Option File) (conf : Option Ini) :
    (loadConfig files conf : Conf W Unit) = loadToEnd files conf >>= fun _ => pure () := by
  cases conf with
  | none => rfl
  | some conf => simp only [loadConfig, loadToEnd, loadLists_eq, bind_assoc]

/-! ## What is written -/

theorem iniSection_some {conf : Ini} {name : Bytes} {keys : Bytes → Option Value} (h : conf name = some keys)
    (s : Tables W) : iniSection conf name s = (.ok keys, s) := by
  unfold iniSection
  rw [h]
  rfl

theorem iniSection_none {conf : Ini} {name : Bytes} (h : conf name = none) (s : Tables W) :
    iniSection conf name s = (.error .index, s) := by
  unfold iniSection
  rw [h]
  rfl

theorem assignSettings_run (proxy : Bytes → Option Value) (s : Tables W) :
    assignSettings proxy s = (.ok (), { s with config := fun k => some (k.read proxy) }) := by
  refine Prod.ext rfl ?_
  refine congrArg (fun f => { s with config := f }) ?_
  funext k
  cases k <;> rfl

theorem insertNodes_run (text : Bytes) (s : Tables W) :
    insertNodes (.str text) s = (.ok (), { s with cluster := { s.cluster with
      nodes := s.cluster.nodes ++ (splitLoop (bytes ",") 1000 text).map listedNode } }) := by
  have hall (l : List Bytes) : ∀ s : Tables W,
      Prog.forEach (fun t => onCluster (appendNode (listedNode t))) l s =
        (.ok (), { s with cluster := { s.cluster with nodes := s.cluster.nodes ++ l.map listedNode } }) := by
    induction l with
    | nil => intro s; simp [Prog.forEach]
    | cons t l ih =>
      intro s
      have hone : onCluster (appendNode (listedNode t)) s =
          (.ok (), { s with cluster := { s.cluster with nodes := s.cluster.nodes ++ [listedNode t] } }) := rfl
      refine (forEach_cons_ok (f := fun t => onCluster (appendNode (listedNode t))) hone l).trans ((ih _).trans ?_)
      simp
  exact hall _ s

/-- The settings and the node list stay. -/
def Kept (s s' : Tables W) : Prop := s'.config = s.config ∧ s'.nodes = s.nodes

instance : IsPreorder (Tables W) Kept where
  refl _ := ⟨rfl, rfl⟩
  trans _ _ _ h₁ h₂ := ⟨h₂.1.trans h₁.1, h₂.2.trans h₁.2⟩

theorem readWhitelist_kept {put : (Bytes → Bool) → Tables W → Tables W} (hput : ∀ l s, Kept s (put l s))
    (get : Tables W → Bytes → Bool) (name : Bytes) (files : Bytes → Option File) (conf : Ini) :
    Relates Kept (readWhitelist put get name files conf) := by
  have hmodify (f : Tables W → Bytes → Bool) : Relates Kept (modify fun s => put (f s) s : Conf W Unit) :=
    fun s => hput (f s) s
  have hsection : Relates Kept (iniSection conf name : Conf W _) := by
    unfold iniSection
    split
    · exact Relates.raise _
    · exact Relates.pure _
  refine hsection.bind fun keys => ?_
  split
  · exact Relates.raise _
  · split
    · exact Relates.pure _
    · refine (hmodify _).bind fun _ => (Relates.forEach fun line _ => hmodify _).bind fun _ => ?_
      split
      · exact Relates.raise _
      · exact Relates.pure _

theorem readIpWhitelist_kept (files : Bytes → Option File) (conf : Ini) :
    Relates Kept (readIpWhitelist files conf : Conf W Bool) := by
  unfold readIpWhitelist
  apply readWhitelist_kept
  exact fun _ _ => ⟨rfl, rfl⟩

theorem readCmdWhitelist_kept (files : Bytes → Option File) (conf : Ini) :
    Relates Kept (readCmdWhitelist files conf : Conf W Bool) := by
  unfold readCmdWhitelist
  apply readWhitelist_kept
  exact fun _ _ => ⟨rfl, rfl⟩

/-- A list of nodes is appended, whatever happens to the whitelists. -/
theorem loadLists_listed (files : Bytes → Option File) (conf : Ini) (text : Bytes) (s : Tables W) :
    (loadLists files conf (.str text) s).2.config = s.config ∧
      (loadLists files conf (.str text) s).2.nodes =
        s.nodes ++ (splitLoop (bytes ",") 1000 text).map listedNode := by
  have htruthy : (Value.str text).truthy = true := rfl
  rw [loadLists, if_pos htruthy, bind_ok (insertNodes_run text s)]
  refine (readIpWhitelist_kept files conf).bind (fun found => ?_) _
  split
  · exact (readCmdWhitelist_kept files conf).bind fun _ => Relates.pure _
  · exact Relates.pure _

/-- Anything else under `node_list` ends the load there. -/
theorem loadLists_unlisted (files : Bytes → Option File) (conf : Ini) {nodes : Value} (h : ∀ text, nodes ≠ .str text)
    (s : Tables W) : (loadLists files conf nodes s).2 = s := by
  cases nodes with
  | bool b => cases b <;> rfl
  | str text => exact absurd rfl (h text)
  | _ => rfl

/-! ## Loads that change nothing -/

/-- There is nothing to write: the file or its section `proxy` is missing, or the settings are those in
place and `node_list` is no string. -/
def NothingNew (conf : Option Ini) (s : Tables W) : Prop :=
  ∀ c, conf = some c → ∀ proxy, c (bytes "proxy") = some proxy →
    (∀ k : Setting, s.config k = some (k.read proxy)) ∧ ∀ text, proxy (bytes "node_list") ≠ some (.str text)

theorem getD_ne_str {v : Option Value} (h : ∀ text, v ≠ some (.str text)) (text : Bytes) : v.getD .nil ≠ .str text := by
  cases v with
  | none => exact fun hv => by cases hv
  | some v => exact fun hv => h text (by rw [← hv, Option.getD_some])

theorem loadConfig_section {conf : Ini} {proxy : Bytes → Option Value} (h : conf (bytes "proxy") = some proxy)
    (files : Bytes → Option File) (s : Tables W) :
    loadConfig files (some conf) s = loadLists files conf ((proxy (bytes "node_list")).getD .nil)
      { s with config := fun k => some (k.read proxy) } := by
  exact (bind_ok (iniSection_some h s)).trans (bind_ok (assignSettings_run proxy s))

theorem loadConfig_unchanged_iff (files : Bytes → Option File) (conf : Option Ini) (s : Tables W) :
    (loadConfig files conf s).2 = s ↔ NothingNew conf s := by
  constructor
  · rintro h c rfl proxy hproxy
    rw [loadConfig_section hproxy] at h
    by_cases hlist : ∃ text, proxy (bytes "node_list") = some (.str text)
    · -- at least one node has been appended
      obtain ⟨text, htext⟩ := hlist
      rw [htext] at h
      have hnodes := (loadLists_listed files c text { s with config := fun k => some (k.read proxy) }).2
      rw [Option.getD_some] at h
      rw [h] at hnodes
      have hnil := List.append_right_eq_self.1 hnodes.symm
      exact absurd (List.map_eq_nil_iff.1 hnil) (splitLoop_ne_nil _ _ _)
    · rw [not_exists] at hlist
      rw [loadLists_unlisted files c (getD_ne_str hlist)] at h
      exact ⟨fun k => by rw [← h], hlist⟩
  · intro h
    cases conf with
    | none => rfl
    | some c =>
      cases hproxy : c (bytes "proxy") with
      | none =>
        -- the first access to the section raises, before anything is assigned
        exact congrArg Prod.snd (bind_error (iniSection_none hproxy s))
      | some proxy =>
        obtain ⟨hsame, hlist⟩ := h c rfl proxy hproxy
        have hconfig : { s with config := fun k => some (k.read proxy) } = s := by
          rw [← funext hsame]
        rw [loadConfig_section hproxy, hconfig, loadLists_unlisted]
        exact getD_ne_str hlist

/-! ## Loads that reach their end -/

theorem readWhitelist_true (put : (Bytes → Bool) → Tables W → Tables W) (get : Tables W → Bytes → Bool) (name : Bytes)
    (files : Bytes → Option File) (conf : Ini) (s : Tables W) :
    (readWhitelist put get name files conf s).1 = .ok true ↔ Readable files conf name := by
  have hlines (l : List Bytes) (s : Tables W) : ∃ s', (Prog.forEach
      (fun line => Prog.modify fun s => put (fun l => l = line || get s l) s) l : Conf W Unit) s = (.ok (), s') := by
    induction l generalizing s with
    | nil => exact ⟨s, rfl⟩
    | cons line l ih => exact ih _
  unfold readWhitelist
  cases hkeys : conf name with
  | none =>
    rw [bind_error (iniSection_none hkeys s)]
    simp [Readable, hkeys]
  | some keys =>
    rw [bind_ok (iniSection_some hkeys s)]
    cases hpath : ((keys (bytes "path")).getD .nil).toStr with
    | none => simp [Readable, hkeys, hpath, Prog.raise]
    | some path =>
      cases hfile : files path with
      | none => simp [Readable, hkeys, hpath, hfile]
      | some file =>
        obtain ⟨s', hs'⟩ := hlines file.lines (put (fun _ => false) s)
        dsimp only
        rw [hfile]
        dsimp only
        rw [bind_ok (modify_run _ s), bind_ok hs']
        cases hbroken : file.broken <;> simp [Readable, hkeys, hpath, hfile, hbroken, Prog.raise]

theorem listsToEnd_iff (files : Bytes → Option File) (conf : Ini) (nodes : Value) (s : Tables W) :
    (listsToEnd files conf nodes s).1 = .ok true ↔ (∃ text, nodes = .str text) ∧
      Readable files conf (bytes "ip_whitelist") ∧ Readable files conf (bytes "cmd_whitelist") := by
  cases nodes with
  | str text =>
    have htruthy : (Value.str text).truthy = true := rfl
    rw [listsToEnd, if_pos htruthy, bind_ok (insertNodes_run text s)]
    generalize { s with cluster := _ } = t
    have hip : (readIpWhitelist files conf t).1 = .ok true ↔ _ := readWhitelist_true ..
    rcases hread : readIpWhitelist files conf t with ⟨e | found, t'⟩ <;> rw [hread] at hip
    · rw [bind_error hread]
      simp [← hip]
    · rw [bind_ok hread, ← hip]
      cases found with
      | false => simp
      | true =>
        have hcmd : (readCmdWhitelist files conf t').1 = .ok true ↔ _ := readWhitelist_true ..
        simp [hcmd]
  | nil => simp [listsToEnd, Value.truthy]
  | bool b => cases b <;> exact iff_of_false (fun h => by cases h) (by simp)
  | _ => exact iff_of_false (fun h => by cases h) (by simp)

theorem loadToEnd_iff (files : Bytes → Option File) (conf : Option Ini) (s : Tables W) :
    (loadToEnd files conf s).1 = .ok true ↔ Completes files conf := by
  cases conf with
  | none => simp [loadToEnd, Completes]
  | some c =>
    rw [loadToEnd]
    cases hproxy : c (bytes "proxy") with
    | none =>
      rw [bind_error (iniSection_none hproxy s)]
      simp [Completes, hproxy]
    | some proxy =>
      rw [bind_ok (iniSection_some hproxy s), bind_ok (assignSettings_run proxy s), listsToEnd_iff]
      cases hlist : proxy (bytes "node_list") <;> simp [Completes, hproxy, hlist]

/-- A load leaves the tables as they were unless it reaches its end, exactly if it completes or has nothing
to write. -/
theorem load_atomic_iff (files : Bytes → Option File) (conf : Option Ini) (s : Tables W) :
    ((loadToEnd files conf s).1 ≠ .ok true → (loadConfig files conf s).2 = s) ↔
      Completes files conf ∨ NothingNew conf s := by
  rw [loadConfig_unchanged_iff, Ne, loadToEnd_iff, or_iff_not_imp_left]

/-- The file of the first whitelist cannot be opened: the load returns early, with a node more. And
without a section for it the load raises, with the same node more. -/
theorem load_not_atomic :
    (loadToEnd (fun _ => none) (some oneNodeIni) emptyTables).1 ≠ .ok true ∧ emptyTables.nodes = [] ∧
      (loadConfig (fun _ => none) (some oneNodeIni) emptyTables).1 = .ok () ∧
      (loadConfig (fun _ => none) (some oneNodeIni) emptyTables).2.nodes = [⟨bytes "10.0.0.1", some (.int 7000)⟩] ∧
      (loadConfig (fun _ => none) (some fun name => if name = bytes "proxy" then oneNodeIni name else none)
        emptyTables).1 = .error .index ∧
      (loadConfig (fun _ => none) (some fun name => if name = bytes "proxy" then oneNodeIni name else none)
        emptyTables).2.nodes = [⟨bytes "10.0.0.1", some (.int 7000)⟩] := by
  decide +kernel

end NgProxy.Config
