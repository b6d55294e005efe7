/-
`lhlh_redis_slot`: `cluster_nodes` asks the known nodes for the slot map until one answers, and
`update_cluster_nodes` takes the text of the answer apart.
-/
import NgProxy.Cluster.Frame

namespace NgProxy.Cluster

open Lua Codec Prog

variable {W : Type}

/-! ## `update_cluster_nodes` -/

/-- The first and the last slot of a field: what is before its `-` and what is behind it, or the same
number twice. -/
def slotRange (slot : Bytes) : Option Number × Option Number :=
  let range := splitLoop (bytes "-") 2 slot
  let first := range.head?.bind tonumber
  (first, if 2 ≤ range.length then range[1]?.bind tonumber else first)

/-- `g_redis_cluster_slots[ind] = addr` from `first` to `last`; a bound that is no number is refused. -/
def assignRange (addr : Node) (slot : Bytes) : Run W Unit :=
  match slotRange slot with
  | (some first, some last) =>
    match first.forValues last with
    | none => Prog.raise .endless
    | some inds => Prog.forEach (fun ind => assignSlot (some ind) addr) inds
  | _ => Prog.raise .argument

/-- One slot field. A slot being migrated is in brackets, and is passed over. -/
def assignField (addr : Node) (slot : Bytes) : Run W Unit :=
  if slot.head? = some 91 then pure () else assignRange addr slot

/-- The address of a line: `:0` stands for the node that was asked. -/
def lineAddr (node : Node) (addrStr : Bytes) : Node :=
  if addrStr = bytes ":0" then node
  else
    let hostPort := splitLoop (bytes ":") 2 addrStr
    ⟨hostPort.headD [], hostPort[1]?.bind tonumber⟩

/-- `g_redis_cluster_nodes[#g_redis_cluster_nodes + 1] = addr`. -/
def appendNode (addr : Node) : Run W Unit := Prog.modify fun s => { s with nodes := s.nodes ++ [addr] }

/-- A line with its fields: the address is the second, the slots start with the ninth. -/
def updateFields (node : Node) (fields : List Bytes) : Run W Unit :=
  match fields[1]? with
  | none => pure ()
  | some addrStr => do
    Prog.when (addrStr ≠ bytes ":0") (appendNode (lineAddr node addrStr))
    Prog.forEach (assignField (lineAddr node addrStr)) (fields.drop 8)

def updateLine (node : Node) (line : Bytes) : Run W Unit := updateFields node (splitLoop (bytes " ") 1000 line)

/-- `update_cluster_nodes`. -/
def updateClusterNodes (results : Value) (node : Node) : Run W Unit :=
  match results.toStr with
  | none => Prog.raise .argument
  | some text => Prog.forEach (updateLine node) (splitLoop (bytes "\n") 1000 text)

/-! ## `cluster_nodes` -/

/-- One node is asked: its answer, and the connection it came on. -/
def askNode (net : Net W) (node : Node) : Run W (Option (Conn × Value)) := do
  match ← connect net node.host node.port with
  | none => pure none
  | some r =>
    let ret ← doCmd net .discover r [bytes "cluster", bytes "nodes"]
    if ret.val.truthy then pure (some (r, ret.val))
    else do
      close r
      pure none

/-- The nodes are asked in turn, up to the first answer. -/
def firstAnswer (net : Net W) : List Node → Run W (Option (Node × Conn × Value))
  | [] => pure none
  | node :: rest => do
    match ← askNode net node with
    | some (r, results) => pure (some (node, r, results))
    | none => firstAnswer net rest

/-- `cluster_nodes`: the loop ends with the first answer. The length of the list is read before it, so
that nodes which are appended are not asked. -/
def clusterNodes (net : Net W) : Run W Unit := do
  let s ← Prog.get
  match ← firstAnswer net s.nodes with
  | none => pure ()
  | some (node, r, results) => do
    updateClusterNodes results node
    setKeepalive r

/-! ## What is touched -/

section Frame

variable (net : Net W) {R : St W → St W → Prop} [IsPreorder (St W) R] [Allows net R]

theorem askNode_frame (node : Node) : Relates R (askNode net node) := by
  refine (connect_frame net _ _).bind fun c => ?_
  cases c with
  | none => exact Relates.pure _
  | some r =>
    refine (doCmd_frame net (by decide) r _).bind fun ret => ?_
    split
    · exact Relates.pure _
    · exact (record_allowed net rfl).bind fun _ => Relates.pure _

theorem firstAnswer_frame (nodes : List Node) : Relates R (firstAnswer net nodes) := by
  induction nodes with
  | nil => exact Relates.pure _
  | cons node rest ih =>
    refine (askNode_frame net node).bind fun a => ?_
    cases a with
    | none => exact ih
    | some p => exact Relates.pure _

end Frame

/-- A reply extends the node list by what its text says, whoever has sent it. -/
theorem updateClusterNodes_appends (results : Value) :
    ∃ r l, ∀ node, Appends St.nodes (updateClusterNodes results node : Run W Unit) r l := by
  have hslot : ∀ n : Number, ∃ r l, ∀ addr, Appends St.nodes (assignSlot (some n) addr : Run W Unit) r l := by
    intro n
    cases n with
    | nan => exact ⟨_, _, fun _ => Appends.raise _⟩
    | _ => exact ⟨_, [], fun _ => Appends.modify fun s => by simp⟩
  have hfield : ∀ slot : Bytes, ∃ r l, ∀ addr, Appends St.nodes (assignField addr slot : Run W Unit) r l := by
    intro slot
    unfold assignField assignRange
    split
    · exact ⟨_, _, fun _ => Appends.pure ()⟩
    · split
      · split
        · exact ⟨_, _, fun _ => Appends.raise _⟩
        · exact Appends.forEach fun n _ => hslot n
      · exact ⟨_, _, fun _ => Appends.raise _⟩
  have hline : ∀ line : Bytes, ∃ r l, ∀ node, Appends St.nodes (updateLine node line : Run W Unit) r l := by
    intro line
    unfold updateLine updateFields
    split
    · exact ⟨_, _, fun _ => Appends.pure ()⟩
    · rename_i addrStr _
      refine Appends.bind ?_ fun _ => ?_
      · by_cases hz : addrStr = bytes ":0"
        · exact ⟨_, _, fun node => by simpa [hz] using Appends.pure ()⟩
        · -- the address of the line does not depend on who has answered
          refine ⟨.ok (), [lineAddr ⟨[], none⟩ addrStr], fun node => ?_⟩
          have haddr : lineAddr node addrStr = lineAddr ⟨[], none⟩ addrStr := by simp [lineAddr, hz]
          simpa [hz, haddr, appendNode] using Appends.modify fun s => rfl
      · have hall : ∀ f ∈ (splitLoop (bytes " ") 1000 line).drop 8,
            ∃ r l, ∀ addr, Appends St.nodes (assignField addr f : Run W Unit) r l := fun f _ => hfield f
        obtain ⟨r, l, h⟩ := Appends.forEach hall
        exact ⟨r, l, fun node => h _⟩
  unfold updateClusterNodes
  split
  · exact ⟨_, _, fun _ => Appends.raise _⟩
  · exact Appends.forEach fun line _ => hline line

end NgProxy.Cluster
