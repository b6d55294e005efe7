/-
The map `update_cluster_nodes` builds from a reply: each slot goes to the address of the last line that
lists it, the others stay as they were, and the addresses are appended to the node list. An address is
cut at its first colon, so that this is the right map only while no host has one.
-/
import NgProxy.Cluster.NodesText

namespace NgProxy.Cluster

open Lua Codec Prog Text

variable {W : Type}

/-! ## One line -/

theorem Address.text_unknown_iff (a : Address) : a.text = bytes ":0" ↔ a.host? = none := by
  cases a with
  | unknown => simp [Address.text, Address.host?]
  | known host port plain le named =>
    refine iff_of_false (fun h => ?_) (by simp [Address.host?])
    rcases host with _ | ⟨b, host⟩
    · have hport : decimal port = decimal 0 := (List.cons.inj h).2
      have := named rfl
      rw [← readNat_decimal port, hport, readNat_decimal] at this
      exact absurd this (Nat.lt_irrefl 0)
    · have htail : host ++ 58 :: decimal port = [48] := (List.cons.inj h).2
      have hmem : (58 : UInt8) ∈ ([48] : Bytes) := htail ▸ by simp
      exact absurd hmem (by decide)

theorem lineAddr_unknown (node : Node) {a : Address} (h : a.host? = none) : lineAddr node a.text = node := by
  rw [lineAddr, if_pos (a.text_unknown_iff.2 h)]

/-- The host that is read ends at the first colon. -/
theorem lineAddr_host (node : Node) {a : Address} {host : Bytes} (h : a.host? = some host) :
    (lineAddr node a.text).host = host.takeWhile (· ≠ 58) := by
  have htext : a.text ≠ bytes ":0" := fun ht => by simp [a.text_unknown_iff.1 ht] at h
  have hhead := splitLoop_head 58 1 a.text
  have htake : a.text.takeWhile (· ≠ 58) = host.takeWhile (· ≠ 58) := by
    cases a with
    | unknown => simp [Address.host?] at h
    | known host' port plain le named =>
      cases h
      rw [Address.text, List.takeWhile_append]
      split
      · rename_i hlen
        have hall := (List.takeWhile_sublist (l := host) (· ≠ 58)).eq_of_length hlen
        simpa using hall.symm
      · rfl
  rw [lineAddr, if_neg htext]
  show (splitLoop [58] 2 a.text).headD [] = _
  rw [List.headD_eq_head?_getD, hhead, htake]
  rfl

/-- A host without colons is read as it is written, and so is the port. -/
theorem lineAddr_node (node : Node) {a : Address} (h : ∀ host ∈ a.host?, (58 : UInt8) ∉ host) :
    lineAddr node a.text = a.node node := by
  cases a with
  | unknown => exact lineAddr_unknown node rfl
  | known host port plain le named =>
    have hne : (Address.known host port plain le named).text ≠ bytes ":0" := fun ht => by
      have := (Address.text_unknown_iff _).1 ht
      simp [Address.host?] at this
    have hs : splitLoop (bytes ":") 2 (host ++ 58 :: decimal port) = [host, decimal port] := by
      have h1 : splitLoop [58] 1 (decimal port) = [decimal port] :=
        splitLoop_whole (decimal_not_mem (by decide) port) 1
      rw [← h1]
      exact splitLoop_cut (h host rfl) 1 _
    rw [lineAddr, if_neg hne]
    simp [Address.text, Address.node, hs, tonumber_decimal port (by omega)]

namespace Line

/-- What a line does to the tables of the worker that has asked `node`. -/
def apply (node : Node) (l : Line) (s : St W) : St W :=
  St.assign { s with nodes := s.nodes ++ if l.address.host?.isSome then [lineAddr node l.address.text] else [] }
    (numbers l.owned) (lineAddr node l.address.text)

theorem split_text (l : Line) (h : l.fields.length ≤ 1001) : splitLoop (bytes " ") 1000 l.text = l.fields :=
  splitLoop_parts (by simp [fields]) (fun f hf hb => isPrint_ne (l.fields_print f hf 32 hb) (by decide) rfl) h

theorem drop_fields (l : Line) : l.fields.drop 8 = l.slots.map SlotField.text := by
  have h6 : (l.info.map Info.text).length = 6 := by simp [l.info_length]
  rw [fields, List.drop_succ_cons, List.drop_succ_cons, List.drop_left' h6]

theorem updateLine_run (node : Node) (l : Line) (h : l.fields.length ≤ 1001) (s : St W) :
    updateLine node l.text s = (.ok (), l.apply node s) := by
  have hadd : (when (l.address.text ≠ bytes ":0") (appendNode (lineAddr node l.address.text)) : Run W Unit) s =
      (.ok (),
        { s with nodes := s.nodes ++ if l.address.host?.isSome then [lineAddr node l.address.text] else [] }) := by
    rcases ha : l.address.host? with _ | host
    · simp [l.address.text_unknown_iff.2 ha]
    · simp [mt l.address.text_unknown_iff.1 (by simp [ha]), appendNode]
  have hkeys : ∀ f ∈ l.slots.map SlotField.text, fieldKeys f = some ((fieldKeys f).getD []) := by
    simp only [List.forall_mem_map]
    intro f _
    simp [f.fieldKeys_text]
  have howned : (l.slots.map SlotField.text).flatMap (fun f => (fieldKeys f).getD []) =
      numbers l.owned := by
    rw [List.flatMap_map, owned, numbers, List.map_flatMap]
    refine List.flatMap_congr fun f _ => ?_
    rw [f.fieldKeys_text]
    rfl
  unfold updateLine updateFields
  rw [l.split_text h, l.drop_fields]
  show (do _; _ : Run W Unit) s = _
  rw [bind_ok hadd, assignFields_run hkeys, howned]
  rfl

end Line

/-! ## The whole reply -/

theorem nodesText_join (lines : List Line) : nodesText lines = [10].intercalate (lines.map Line.text ++ [[]]) := by
  induction lines with
  | nil => rfl
  | cons l lines ih =>
    rw [nodesText, List.flatMap_cons, ← nodesText, ih]
    rcases lines with _ | ⟨m, lines⟩ <;> simp [List.intercalate]

theorem Line.text_not_mem (l : Line) : (10 : UInt8) ∉ l.text := by
  intro h
  rcases mem_join h with h | ⟨f, hf, hb⟩
  · exact absurd h (by decide)
  · exact isPrint_ne (l.fields_print f hf 10 hb) (by decide) rfl

/-- Within the limit of the splitter a reply is split into its lines, and an empty one behind the last. -/
theorem nodesText_split {lines : List Line} (h : lines.length ≤ 1000) :
    splitLoop (bytes "\n") 1000 (nodesText lines) = lines.map Line.text ++ [[]] := by
  rw [nodesText_join]
  refine splitLoop_parts (by simp) ?_ (by simp; omega)
  simp only [List.forall_mem_append, List.forall_mem_map, List.forall_mem_singleton]
  exact ⟨fun l _ => l.text_not_mem, by simp⟩

theorem updateLine_nil (node : Node) (s : St W) : updateLine node [] s = (.ok (), s) := rfl

/-- A reply within the limits of the splitter is taken line by line. -/
theorem updateClusterNodes_run (node : Node) {lines : List Line} (hlines : lines.length ≤ 1000)
    (hfields : ∀ l ∈ lines, l.fields.length ≤ 1001) (s : St W) :
    updateClusterNodes (.str (nodesText lines)) node s = (.ok (), lines.foldl (fun s l => l.apply node s) s) := by
  show forEach (updateLine node) (splitLoop (bytes "\n") 1000 (nodesText lines)) s = _
  rw [nodesText_split hlines]
  clear hlines
  induction lines generalizing s with
  | nil => exact forEach_cons_ok (updateLine_nil node s) []
  | cons l lines ih =>
    rw [List.map_cons, List.cons_append, forEach_cons_ok (l.updateLine_run node (hfields l (List.mem_cons_self ..)) s)]
    exact ih (fun m hm => hfields m (List.mem_cons_of_mem _ hm)) _

/-! ## The map -/

/-- The last line that lists a slot. -/
def lastOwner (lines : List Line) (slot : Nat) : Option Line := (lines.filter fun l => slot ∈ l.owned).getLast?

theorem lastOwner_cons (l : Line) (lines : List Line) (slot : Nat) :
    lastOwner (l :: lines) slot = (lastOwner lines slot).or (if slot ∈ l.owned then some l else none) := by
  unfold lastOwner
  by_cases h : slot ∈ l.owned
  · rw [List.filter_cons_of_pos (by simpa using h), List.getLast?_cons, if_pos h]
    cases (lines.filter fun l => slot ∈ l.owned).getLast? <;> rfl
  · rw [List.filter_cons_of_neg (by simpa using h), if_neg h, Option.or_none]

theorem Line.apply_slots (node : Node) (l : Line) (s : St W) (slot : Nat) :
    (l.apply node s).slots (.num (.int slot)) =
      if slot ∈ l.owned then some (lineAddr node l.address.text) else s.slots (.num (.int slot)) := by
  simp [Line.apply, St.assign, numbers]

theorem Line.apply_other (node : Node) (l : Line) (s : St W) {key : SlotKey}
    (h : ∀ slot : Nat, key ≠ .num (.int slot)) :
    (l.apply node s).slots key = s.slots key := by
  have : key ∉ (numbers l.owned).map SlotKey.num := by
    simp only [numbers, List.map_map, List.mem_map, not_exists, not_and]
    exact fun slot _ he => h slot he.symm
  exact St.assign_not_mem _ this _

section Fold

variable (node : Node) (lines : List Line) (s : St W)

theorem foldl_slots (slot : Nat) :
    (lines.foldl (fun s l => l.apply node s) s).slots (.num (.int slot)) =
      ((lastOwner lines slot).map fun l => lineAddr node l.address.text).or (s.slots (.num (.int slot))) := by
  induction lines generalizing s with
  | nil => rfl
  | cons l lines ih =>
    rw [List.foldl_cons, ih, lastOwner_cons, l.apply_slots]
    cases lastOwner lines slot with
    | some m => rfl
    | none => by_cases h : slot ∈ l.owned <;> simp [h]

theorem foldl_other {key : SlotKey} (h : ∀ slot : Nat, key ≠ .num (.int slot)) :
    (lines.foldl (fun s l => l.apply node s) s).slots key = s.slots key := by
  induction lines generalizing s with
  | nil => rfl
  | cons l lines ih => rw [List.foldl_cons, ih, l.apply_other node s h]

theorem foldl_nodes :
    (lines.foldl (fun s l => l.apply node s) s).nodes =
      s.nodes ++ (lines.filter fun l => l.address.host?.isSome).map fun l => lineAddr node l.address.text := by
  induction lines generalizing s with
  | nil => simp
  | cons l lines ih =>
    rw [List.foldl_cons, ih]
    cases h : l.address.host?.isSome <;> simp [Line.apply, St.assign, h]

end Fold

/-- The right map: `out` is what became of `s` when the reply of `node` was applied. -/
structure Built (lines : List Line) (node : Node) (s : St W) (out : Except LuaError Unit × St W) : Prop where
  returns : out.1 = .ok ()
  /-- A slot some line lists goes to the last such line's address. -/
  owned : ∀ slot l, lastOwner lines slot = some l → out.2.slots (.num (.int slot)) = some (l.address.node node)
  /-- Every other key keeps its entry. -/
  kept : ∀ key, (∀ slot : Nat, key = .num (.int slot) → lastOwner lines slot = none) → out.2.slots key = s.slots key
  /-- The addresses are appended in order, those that are not known left out. -/
  nodes : out.2.nodes = s.nodes ++ (lines.filter fun l => l.address.host?.isSome).map fun l => l.address.node node

theorem Built.of_hosts (node : Node) {lines : List Line} (hlines : lines.length ≤ 1000)
    (hfields : ∀ l ∈ lines, l.fields.length ≤ 1001)
    (hcolon : ∀ l ∈ lines, ∀ host ∈ l.address.host?, (58 : UInt8) ∉ host)
    (s : St W) : Built lines node s (updateClusterNodes (.str (nodesText lines)) node s) := by
  rw [updateClusterNodes_run node hlines hfields]
  refine ⟨rfl, ?_, ?_, ?_⟩
  · intro slot l hl
    have hmem : l ∈ lines := List.mem_of_mem_filter (List.mem_of_getLast? hl)
    dsimp only
    rw [foldl_slots, hl, Option.map_some, lineAddr_node node (hcolon l hmem), Option.some_or]
  · intro key hkey
    dsimp only
    by_cases h : ∃ slot : Nat, key = .num (.int slot)
    · obtain ⟨slot, rfl⟩ := h
      rw [foldl_slots, hkey slot rfl, Option.map_none, Option.none_or]
    · exact foldl_other node lines s fun slot he => h ⟨slot, he⟩
  · dsimp only
    rw [foldl_nodes]
    congr 1
    exact List.map_congr_left fun l hl => lineAddr_node node (hcolon l (List.mem_of_mem_filter hl))

/-- A colon in a host is enough to get the node list wrong. -/
theorem Built.hosts {node : Node} {lines : List Line} (hlines : lines.length ≤ 1000)
    (hfields : ∀ l ∈ lines, l.fields.length ≤ 1001) {s : St W}
    (h : Built lines node s (updateClusterNodes (.str (nodesText lines)) node s)) :
    ∀ l ∈ lines, ∀ host ∈ l.address.host?, (58 : UInt8) ∉ host := by
  intro l hl host hhost hmem
  have hnodes := h.nodes
  rw [updateClusterNodes_run node hlines hfields] at hnodes
  dsimp only at hnodes
  rw [foldl_nodes, List.append_cancel_left_eq, List.map_inj_left] at hnodes
  have heq := congrArg Node.host (hnodes l (List.mem_filter.2 ⟨hl, by simp [Option.mem_def.1 hhost]⟩))
  rw [lineAddr_host node hhost] at heq
  have hnode : (l.address.node node).host = host := by
    cases ha : l.address with
    | unknown => simp [ha, Address.host?] at hhost
    | known host' port plain le named => simpa [ha, Address.host?, Address.node] using hhost
  rw [hnode] at heq
  rw [← heq] at hmem
  simpa using List.mem_takeWhile_imp hmem

/-- Whatever the reply of a node within the limits of the splitter, the right map is built exactly
when no host has a colon. -/
theorem updateClusterNodes_built_iff (node : Node) (lines : List Line) (hlines : lines.length ≤ 1000)
    (hfields : ∀ l ∈ lines, l.fields.length ≤ 1001) (s : St W) :
    Built lines node s (updateClusterNodes (.str (nodesText lines)) node s) ↔
      ∀ l ∈ lines, ∀ host ∈ l.address.host?, (58 : UInt8) ∉ host :=
  ⟨Built.hosts hlines hfields, fun h => Built.of_hosts node hlines hfields h s⟩

/-- A worker that knows nothing yet. -/
def blank : St Unit := ⟨(), fun _ => none, [], 0, []⟩

theorem myself_plain : ∀ b ∈ bytes "myself,master", isPrint b = true := List.all_eq_true.1 rfl

/-- The reply of a single node, by its own loopback address. -/
def loopback (host : Bytes) (plain : ∀ b ∈ host, isPrint b = true) (ne : host ≠ []) : List Line :=
  [masterLine ⟨bytes "myself,master", myself_plain⟩
    (.known host 7000 plain (by decide) fun h => absurd h ne) [.range 0 5 (by decide), .one 7]]

theorem updateClusterNodes_built_loopback :
    Built (loopback (bytes "127.0.0.1") (List.all_eq_true.1 rfl) (by decide)) ⟨bytes "10.0.0.1", some (.int 7000)⟩ blank
      (updateClusterNodes (.str (nodesText (loopback (bytes "127.0.0.1") (List.all_eq_true.1 rfl) (by decide))))
        ⟨bytes "10.0.0.1", some (.int 7000)⟩ blank) :=
  (updateClusterNodes_built_iff _ _ (by decide) (by simp [loopback, masterLine]) _).2
    (by simp [loopback, masterLine, Address.host?, bytes])

/-- The loopback address of IPv6 is cut at its first colon: the slots and the node list get an entry
without host and port. -/
theorem loopback_v6_misread :
    let lines := loopback (bytes "::1") (List.all_eq_true.1 rfl) (by decide)
    let out := updateClusterNodes (.str (nodesText lines)) ⟨bytes "10.0.0.1", some (.int 7000)⟩ blank
    nodesText lines =
      bytes "07c37dfeb235213a872192d90877d0cd55635b91 ::1:7000 myself,master - 0 0 1 connected 0-5 7\n" ∧
    out.2.slots (.num (.int 0)) = some ⟨[], none⟩ ∧ out.2.nodes = [⟨[], none⟩] ∧
    ¬ Built lines ⟨bytes "10.0.0.1", some (.int 7000)⟩ blank out := by
  intro lines out
  refine ⟨by decide +kernel, by decide +kernel, by decide +kernel, fun h => ?_⟩
  have hcolon := Built.hosts (by decide) (by simp [lines, loopback, masterLine]) h
  exact hcolon _ (List.mem_cons_self ..) (bytes "::1") rfl (by decide)

end NgProxy.Cluster
