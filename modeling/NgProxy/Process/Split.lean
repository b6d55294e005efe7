/-
`lhlh_process`: a multi-key command is split by the hash slot of its keys into one sub-request a
slot, each run by a light thread, and their answers are merged into one reply. `pairs` fixes no
order on the slots and the threads run interleaved, so both are parameters; so is
`send_cluster_command`, which the `Cluster` modules model. The arguments are strings, or whatever else
a client may send (`Process.Values`).
-/
import NgProxy.Lib.GroupBy
import NgProxy.Lib.Pool
import NgProxy.Lib.Prog
import NgProxy.Cluster.Slot
import NgProxy.Codec.Relay

namespace NgProxy.Process

open Lua Codec Cluster GroupBy Pool

/-! ## What the splitters are given -/

/-- `send_cluster_command`: the slot (none: that of the first argument), the command's name and its
arguments, over the world `σ` it acts on. -/
abbrev SendOf (α σ : Type) := Option SlotKey → α → List α → Prog LuaError σ Ret

abbrev Send (σ : Type) := SendOf Bytes σ

/-- A slot and what is sent to it: what a thread of the splitters is spawned with. -/
abbrev PartOf (α : Type) := SlotKey × List α

abbrev Part := PartOf Bytes

/-- The keyspace of the backends. -/
abbrev Store := Bytes → Option Bytes

/-- What is left open by the source: the order in which `pairs` visits a table, by its keys; the steps
the threads take while their parent waits for the `i`-th of them; and what a raise inside
`send_cluster_command` leaves on the stack of its thread, where an error is read. -/
structure Sched where
  order : List SlotKey → List SlotKey
  order_perm : ∀ l, (order l).Perm l
  steps : Nat → List Nat
  left : LuaError → Value

/-- The order of the table itself is one. -/
theorem id_perm (l : List SlotKey) : (id l).Perm l := List.Perm.refl l

/-- The order of the table, and no thread ahead of the one that is waited for. -/
def idleSched : Sched := ⟨id, id_perm, fun _ => [], fun _ => .nil⟩

/-- A table in the order of `pairs`. -/
def Sched.arrange {β : Type} (sc : Sched) (t : List (SlotKey × β)) : List (SlotKey × β) :=
  (sc.order (t.map (·.1))).filterMap fun j => t.find? fun g => g.1 = j

theorem find?_of_nodup {β : Type} {t : List (SlotKey × β)} (h : (t.map (·.1)).Nodup) {g : SlotKey × β} (hg : g ∈ t) :
    t.find? (fun x => x.1 = g.1) = some g := by
  cases hf : t.find? (fun x => x.1 = g.1) with
  | none => exact absurd (decide_eq_true rfl) (List.find?_eq_none.1 hf g hg)
  | some x =>
    have hx : x.1 = g.1 := by simpa using List.find?_some hf
    exact congrArg some (List.inj_on_of_nodup_map h (List.mem_of_find?_eq_some hf) hg hx)

theorem Sched.arrange_perm {β : Type} (sc : Sched) {t : List (SlotKey × β)} (h : (t.map (·.1)).Nodup) :
    (sc.arrange t).Perm t := by
  have hself : (t.map (·.1)).filterMap (fun j => t.find? fun g => g.1 = j) = t := by
    rw [List.filterMap_map]
    exact (List.filterMap_congr fun g hg => find?_of_nodup h hg).trans List.filterMap_some
  have hperm := (sc.order_perm (t.map (·.1))).filterMap fun j => t.find? fun g => g.1 = j
  rwa [hself] at hperm

theorem Sched.arrange_map {β γ : Type} (sc : Sched) (f : β → γ) (t : List (SlotKey × β)) :
    sc.arrange (t.map fun g => (g.1, f g.2)) = (sc.arrange t).map fun g => (g.1, f g.2) := by
  unfold Sched.arrange
  rw [List.map_filterMap, List.map_map]
  refine List.filterMap_congr fun j _ => ?_
  rw [List.find?_map]
  rfl

/-- Results that start with a status code. -/
structure Status where
  rc : Int
  pre : Option Nat
  err : Value

variable {α ι σ τ : Type}

/-- The body of such a thread: it returns a status or raises. `ngx.thread.wait` hands over the whole
stack of a thread that has raised; the value is what stands there in the place of the error. -/
abbrev Thread (ι σ τ : Type) := Body ι σ τ (Except LuaError Ret) (Except Value Status)

abbrev Worker (σ τ : Type) := Thread Part σ τ

/-- What fits on a Lua stack (`LUAI_MAXCSTACK`). -/
def maxStack : Nat := 8000

/-- `send_cluster_command(slotid, cmd, unpack(keys))`. -/
def subRequest (send : SendOf α σ) (slotid : SlotKey) (cmd : α) (keys : List α) : Prog LuaError σ Ret :=
  if keys.length + 1 ≤ maxStack then send (some slotid) cmd keys else Prog.raise .unpack

theorem subRequest_run (send : SendOf α σ) (slotid : SlotKey) (cmd : α) {keys : List α}
    (h : keys.length + 1 ≤ maxStack) (w : σ) : subRequest send slotid cmd keys w = send (some slotid) cmd keys w := by
  unfold subRequest
  rw [if_pos h]

theorem subRequest_long (send : SendOf α σ) (slotid : SlotKey) (cmd : α) {keys : List α}
    (h : ¬ keys.length + 1 ≤ maxStack) (w : σ) : subRequest send slotid cmd keys w = (.error .unpack, w) := by
  unfold subRequest
  rw [if_neg h]
  rfl

/-! ## `thread_wait` -/

/-- The thread returned `LHLH_OK`. -/
def endedWell : Except Value Status → Bool
  | .ok st => st.rc == lhlhOk
  | .error _ => false

/-- `thread_wait`: waits in pool order and kills the rest at the first thread that raised or did
not return `LHLH_OK`. The prefix a raise leaves is not looked at. -/
def threadWait (body : Thread ι σ τ) (pool : List ι) (steps : Nat → List Nat) (w : σ) (m : τ) :
    Status × State σ τ (Except LuaError Ret) (Except Value Status) :=
  match join body pool endedWell steps pool.length 0 none (State.init w m) with
  | (none, s) => (⟨lhlhOk, none, .nil⟩, s)
  | (some (.ok st), s) => if st.rc = lhlhOk then (⟨lhlhOk, st.pre, .nil⟩, s) else (⟨lhlhError, st.pre, st.err⟩, s)
  | (some (.error v), s) => (⟨lhlhError, none, v⟩, s)

/-- The slot, as the threads are given it. -/
def slotValue : SlotKey → Value
  | .num n => .num n
  | .str s => .str s

/-- The table `slots` of `redis_mget_keys` and `redis_multi_keys`. -/
def slotTable (keys : List Bytes) : List Part :=
  group (keys.map fun k => (redisSlot (some k), [k]))

/-! ## MGET -/

/-- The inner loop of `multi_mget_keys`: the first cell that still is the key becomes the pair of
the key and its value, `values[i]`. -/
def fillKey (k : Value) (v : Except LuaError Value) : List Value → Except LuaError (List Value)
  | [] => .ok []
  | c :: l => if c.rawEq k then v.map fun v => .tab [k, v] :: l else (fillKey k v l).map (c :: ·)

/-- The outer loop, from the `i`-th key on. -/
def fillKeys (values : Value) : Nat → List Value → List Value → Except LuaError Unit × List Value
  | _, [], cells => (.ok (), cells)
  | i, k :: ks, cells =>
    match fillKey k (values.index i) cells with
    | .error e => (.error e, cells)
    | .ok cells => fillKeys values (i + 1) ks cells

/-- `multi_mget_keys`. The shared memory is `req_data` from its second entry on. A raise in the function
itself leaves its arguments on the stack, the slot in the place of the error. -/
def multiMgetKeys (value : α → Value) (left : LuaError → Value) (send : SendOf α σ) (cmd : α) :
    Thread (PartOf α) σ (List Value) where
  call p w := subRequest send p.1 cmd p.2 w
  finish p a reqData :=
    match a with
    | .error e => (.error (left e), reqData)
    | .ok r =>
      if r.err.truthy then (.ok ⟨lhlhError, r.pre, r.err⟩, reqData)
      else
        match fillKeys r.val 1 (p.2.map value) reqData with
        | (.error _, reqData) => (.error (slotValue p.1), reqData)
        | (.ok (), reqData) => (.ok ⟨lhlhOk, r.pre, .nil⟩, reqData)

/-- The reply's entry for one cell: `req_data[i][2]` as a bulk string. -/
def mgetArg (cell : Value) : Except LuaError (List Value) :=
  match cell.index 2 with
  | .error e => .error e
  | .ok arg =>
    if arg.isNull then .ok [.str (bytes "$"), .num (.int (-1)), .str crlf]
    else
      match arg.len with
      | .error e => .error e
      | .ok n => .ok [.str (bytes "$"), .num (.int n), .str crlf, arg, .str crlf]

def mgetArgs : List Value → Except LuaError (List Value)
  | [] => .ok []
  | c :: l =>
    match mgetArg c with
    | .error e => .error e
    | .ok x =>
      match mgetArgs l with
      | .error e => .error e
      | .ok y => .ok (x ++ y)

/-- `redis_mget_keys` once the table `slots` is filled. -/
def mgetOver (value : α → Value) (send : SendOf α σ) (sc : Sched) (cmd : α) (slots : List (PartOf α)) (keys : List α) :
    Prog LuaError σ (Option (List Value)) := fun w =>
  match threadWait (multiMgetKeys value sc.left send cmd) (sc.arrange slots) sc.steps w (keys.map value) with
  | (st, s) =>
    if st.rc ≠ lhlhOk then (encode st.err (some typeErrorReply), s.world)
    else
      ((mgetArgs s.mem).map fun l => some (.str (bytes "*" ++ (Number.int keys.length).text ++ crlf) :: l), s.world)

/-- `redis_mget_keys`. -/
def redisMgetKeys (send : Send σ) (sc : Sched) (cmd : Bytes) (keys : List Bytes) :
    Prog LuaError σ (Option (List Value)) :=
  mgetOver .str send sc (lower cmd) (slotTable keys) keys

/-! ## DEL and EXISTS -/

/-- `multi_keys`. The shared memory is `request.num`; a raise of the addition leaves the slot in the place
of the error. -/
def multiKeys (left : LuaError → Value) (send : SendOf α σ) (cmd : α) : Thread (PartOf α) σ Number where
  call p w := subRequest send p.1 cmd p.2 w
  finish p a num :=
    match a with
    | .error e => (.error (left e), num)
    | .ok r =>
      if r.err.truthy then (.ok ⟨lhlhError, r.pre, r.err⟩, num)
      else
        match r.val.toNum with
        | none => (.error (slotValue p.1), num)
        | some n => (.ok ⟨lhlhOk, r.pre, .nil⟩, num.add n)

/-- `redis_multi_keys` once the table `slots` is filled. -/
def countOver (send : SendOf α σ) (sc : Sched) (cmd : α) (slots : List (PartOf α)) :
    Prog LuaError σ (Option (List Value)) := fun w =>
  match threadWait (multiKeys sc.left send cmd) (sc.arrange slots) sc.steps w (.int 0) with
  | (st, s) =>
    if st.rc ≠ lhlhOk then (encode st.err (some typeErrorReply), s.world)
    else (encode (.num s.mem) st.pre, s.world)

/-- `redis_multi_keys`. -/
def redisMultiKeys (send : Send σ) (sc : Sched) (cmd : Bytes) (keys : List Bytes) :
    Prog LuaError σ (Option (List Value)) :=
  countOver send sc cmd (slotTable keys)

/-! ## MSET -/

/-- `multi_kvs`. -/
def multiKvs (left : LuaError → Value) (send : SendOf α σ) (cmd : α) : Thread (PartOf α) σ Unit where
  call p w := subRequest send p.1 cmd p.2 w
  finish _ a _ :=
    match a with
    | .error e => (.error (left e), ())
    | .ok r => if r.err.truthy then (.ok ⟨lhlhError, r.pre, r.err⟩, ()) else (.ok ⟨lhlhOk, r.pre, .nil⟩, ())

/-- What the loop of `redis_kvs` inserts: every other argument with the one behind it. Inserting
nil for the missing value of a last key inserts nothing. -/
def kvItems : List Bytes → List Part
  | [] => []
  | [k] => [(redisSlot (some k), [k])]
  | k :: v :: l => (redisSlot (some k), [k, v]) :: kvItems l

/-- The table `slots` of `redis_kvs`. -/
def kvTable (args : List Bytes) : List Part := group (kvItems args)

/-- `redis_kvs` once the table `slots` is filled. -/
def kvsOver (send : SendOf α σ) (sc : Sched) (cmd : α) (slots : List (PartOf α)) :
    Prog LuaError σ (Option (List Value)) := fun w =>
  match threadWait (multiKvs sc.left send cmd) (sc.arrange slots) sc.steps w () with
  | (st, s) =>
    if st.rc ≠ lhlhOk then (encode st.err (some typeErrorReply), s.world)
    else (encode (.str (bytes "OK")) st.pre, s.world)

/-- `redis_kvs`. -/
def redisKvs (send : Send σ) (sc : Sched) (cmd : Bytes) (args : List Bytes) :
    Prog LuaError σ (Option (List Value)) :=
  kvsOver send sc cmd (kvTable args)

/-! ## Single-key commands -/

/-- `redis_key`: `unpack(req_data, 2)` needs room for the arguments and its own two. -/
def redisKey (send : SendOf α σ) (cmd : α) (args : List α) : Prog LuaError σ (Option (List Value)) := do
  if maxStack < args.length + 2 then Prog.raise .unpack
  else
    let r ← send none cmd args
    Prog.lift (redisKeyReply r)

/-! ## The parts of a request -/

/-- The parts of a request hold its keys. -/
theorem slotTable_perm (keys : List Bytes) : ((slotTable keys).flatMap (·.2)).Perm keys := by
  have hitems : (keys.map fun k => (redisSlot (some k), [k])).flatMap (·.2) = keys := by
    rw [List.flatMap_map, List.flatMap_singleton']
  have h := flatMap_group_perm (keys.map fun k => (redisSlot (some k), [k]))
  rwa [hitems] at h

theorem slotTable_nodup (keys : List Bytes) : ((slotTable keys).map (·.1)).Nodup := (grouped_group _).nodup

theorem kvTable_nodup (args : List Bytes) : ((kvTable args).map (·.1)).Nodup := (grouped_group _).nodup

theorem slotTable_ne_nil {keys : List Bytes} (h : keys ≠ []) : slotTable keys ≠ [] := by
  intro hnil
  have := slotTable_perm keys
  rw [hnil] at this
  exact h this.symm.eq_nil

theorem slotTable_length_le (keys : List Bytes) {N : Nat} (hN : ∀ k, keyHashSlot k < N) :
    (slotTable keys).length ≤ N := by
  have hg := grouped_group (keys.map fun k => (redisSlot (some k), [k]))
  have hslots : ∀ j ∈ (slotTable keys).map (·.1), j ∈ (List.range N).map fun n : Nat => SlotKey.num (.int n) := by
    intro j hj
    obtain ⟨i, hi, rfl⟩ := List.mem_map.1 ((hg.keys j).1 hj)
    obtain ⟨k, -, rfl⟩ := List.mem_map.1 hi
    exact List.mem_map.2 ⟨keyHashSlot k, List.mem_range.2 (hN k), rfl⟩
  have := (List.subperm_of_subset hg.nodup hslots).length_le
  rwa [List.length_map, List.length_map, List.length_range] at this

/-- A request whose parts can all be unpacked is not longer than the slots' parts together. -/
theorem length_le_of_parts {keys : List Bytes} (h : ∀ g ∈ slotTable keys, g.2.length + 1 ≤ maxStack) :
    keys.length ≤ 16384 * maxStack := by
  have hflat : ∀ l : List Part, (∀ g ∈ l, g.2.length + 1 ≤ maxStack) →
      (l.flatMap (·.2)).length ≤ l.length * maxStack := by
    intro l
    induction l with
    | nil => intro _; simp
    | cons g l ih =>
      intro hl
      have hg := hl g (List.mem_cons_self ..)
      have := ih fun g hg => hl g (List.mem_cons_of_mem _ hg)
      rw [List.flatMap_cons, List.length_append, List.length_cons, Nat.succ_mul]
      omega
  calc keys.length = ((slotTable keys).flatMap (·.2)).length := (slotTable_perm keys).length_eq.symm
    _ ≤ (slotTable keys).length * maxStack := hflat _ h
    _ ≤ 16384 * maxStack := Nat.mul_le_mul_right _ (slotTable_length_le keys keyHashSlot_lt)

theorem Sched.arrange_ne_nil (sc : Sched) {l : List Part} (hn : (l.map (·.1)).Nodup) (h : l ≠ []) :
    sc.arrange l ≠ [] := by
  intro hnil
  have := sc.arrange_perm hn
  rw [hnil] at this
  exact h this.symm.eq_nil

/-! ## Waiting for the sub-requests -/

section Wait

/-- What is read as the error of a thread that did not end with `LHLH_OK`. -/
def errorOf : Except Value Status → Value
  | .ok st => st.err
  | .error v => v

/-- `thread_wait`: the calls `cs` were made, no thread's twice and the first thread's among them. One that
did not end with `LHLH_OK` gives the error; or all have been made, all have ended with `LHLH_OK`, and the
prefix is that of one of them. -/
theorem threadWait_run (body : Thread ι σ τ) (pool : List ι) (steps : Nat → List Nat) (w : σ) (m : τ) :
    ∃ st s, ∃ cs fs : List (ι × Except LuaError Ret), threadWait body pool steps w m = (st, s) ∧
      Calls body w cs s.world ∧ s.mem = finishAll body fs m ∧ fs ⊆ cs ∧ (cs.map (·.1)).Subperm pool ∧
      (∀ t, pool.head? = some t → t ∈ cs.map (·.1)) ∧
      ((st.rc ≠ lhlhOk ∧ ∃ p ∈ fs, ∃ m', endedWell (body.finish p.1 p.2 m').1 = false ∧
          st.err = errorOf (body.finish p.1 p.2 m').1) ∨
        st.rc = lhlhOk ∧ (cs.map (·.1)).Perm pool ∧ fs.Perm cs ∧
          (∀ p ∈ fs, ∃ m, endedWell (body.finish p.1 p.2 m).1 = true) ∧
          (pool = [] ∧ st.pre = none ∨
            ∃ p ∈ fs, ∃ m' st', (body.finish p.1 p.2 m').1 = .ok st' ∧ st'.rc = lhlhOk ∧ st.pre = st'.pre)) := by
  obtain ⟨last, s, cs, fs, hj, hcalls, hmem, hsub, hpool, hhead, hlast, hcases⟩ :=
    join_run endedWell body pool steps w m
  have hne : lhlhError ≠ lhlhOk := by decide
  unfold threadWait
  rw [hj]
  rcases last with _ | v | st
  · obtain ⟨o, ho, -⟩ | ⟨-, hnil, hperm, hfs, hall⟩ := hcases
    · cases ho
    · exact ⟨_, s, cs, fs, rfl, hcalls, hmem, hsub, hpool, hhead, .inr ⟨rfl, hperm, hfs, hall, .inl ⟨hnil rfl, rfl⟩⟩⟩
  · obtain ⟨p, hp, m', ho⟩ := hlast _ rfl
    exact ⟨_, s, cs, fs, rfl, hcalls, hmem, hsub, hpool, hhead,
      .inl ⟨hne, p, hp, m', by rw [← ho]; rfl, by rw [← ho]; rfl⟩⟩
  · obtain ⟨p, hp, m', ho⟩ := hlast _ rfl
    by_cases hrc : st.rc = lhlhOk
    · obtain ⟨o, ho', hbad⟩ | ⟨-, -, hperm, hfs, hall⟩ := hcases
      · cases ho'
        simp [endedWell, hrc] at hbad
      · exact ⟨⟨lhlhOk, st.pre, .nil⟩, s, cs, fs, by simp only [hrc, if_true], hcalls, hmem, hsub, hpool, hhead,
          .inr ⟨rfl, hperm, hfs, hall, .inr ⟨p, hp, m', st, ho.symm, hrc, rfl⟩⟩⟩
    · exact ⟨⟨lhlhError, st.pre, st.err⟩, s, cs, fs, by simp only [hrc, if_false], hcalls, hmem, hsub, hpool, hhead,
        .inl ⟨hne, p, hp, m', by simp [← ho, endedWell, hrc], by rw [← ho]; rfl⟩⟩

/-- The same for threads spawned with the images under `f`. -/
theorem threadWait_map {κ : Type} (body : Thread ι σ τ) (f : κ → ι) (pool : List κ) (steps : Nat → List Nat) (w : σ)
    (m : τ) : threadWait body (pool.map f) steps w m = threadWait (body.comap f) pool steps w m := by
  unfold threadWait
  rw [List.length_map, join_map]

/-- Under the invariant `P` the call keeps it and the thread ends with `LHLH_OK`. -/
def EndsWell (body : Thread ι σ τ) (P : σ → Prop) (t : ι) : Prop :=
  ∀ w, P w → P (body.call t w).2 ∧ ∀ m, ∃ st, (body.finish t (body.call t w).1 m).1 = .ok st ∧ st.rc = lhlhOk

/-- If every thread of a non-empty pool ends with `LHLH_OK`, so does `thread_wait`. -/
theorem threadWait_serial {P : σ → Prop} (body : Thread ι σ τ) {pool : List ι} {w : σ} (steps : Nat → List Nat) (m : τ)
    (hne : pool ≠ []) (hw : P w) (hpool : ∀ t ∈ pool, EndsWell body P t) :
    ∃ st s cs fs, threadWait body pool steps w m = (st, s) ∧ st.rc = lhlhOk ∧
      (∃ t ∈ pool, ∃ w' m' st', P w' ∧ (body.finish t (body.call t w').1 m').1 = .ok st' ∧ st.pre = st'.pre) ∧
      (cs.map (·.1)).Perm pool ∧ fs.Perm cs ∧ Calls body w cs s.world ∧ s.mem = finishAll body fs m := by
  obtain ⟨st, s, cs, fs, hwait, hcalls, hmem, hsub, hsubperm, -, hcases⟩ := threadWait_run body pool steps w m
  have hin : ∀ p ∈ cs, p.1 ∈ pool := fun p hp => hsubperm.subset (List.mem_map_of_mem hp)
  obtain ⟨-, hanswer⟩ := hcalls.answer hw fun p hp w hw => (hpool p.1 (hin p hp) w hw).1
  -- how a thread ends is known from the world in which its call was made
  have hend : ∀ p ∈ fs, ∃ w', P w' ∧ p.2 = (body.call p.1 w').1 ∧
      ∀ m, ∃ st, (body.finish p.1 p.2 m).1 = .ok st ∧ st.rc = lhlhOk := by
    intro p hp
    obtain ⟨w', hw', ha⟩ := hanswer p (hsub hp)
    refine ⟨w', hw', ha, fun m => ?_⟩
    rw [ha]
    exact (hpool p.1 (hin p (hsub hp)) w' hw').2 m
  obtain ⟨-, p, hp, m', hbad, -⟩ | ⟨hrc, hperm, hfs, -, hpre⟩ := hcases
  · obtain ⟨-, -, -, hgood⟩ := hend p hp
    obtain ⟨st', hst', hrc'⟩ := hgood m'
    simp [hst', endedWell, hrc'] at hbad
  · obtain ⟨hnil, -⟩ | ⟨p, hp, m', st', hst, -, hpre⟩ := hpre
    · exact absurd hnil hne
    · obtain ⟨w', hw', ha, -⟩ := hend p hp
      rw [ha] at hst
      exact ⟨st, s, cs, fs, hwait, hrc, ⟨p.1, hin p (hsub hp), w', m', st', hw', hst, hpre⟩, hperm, hfs, hcalls, hmem⟩

end Wait

/-! ## What a request does to the world -/

section World

variable {R : σ → σ → Prop} [IsPreorder σ R] {send : SendOf α σ}

theorem subRequest_relates (hsend : ∀ slot cmd args, Prog.Relates R (send slot cmd args)) (slot : SlotKey) (cmd : α)
    (keys : List α) : Prog.Relates R (subRequest send slot cmd keys) := by
  unfold subRequest
  split
  · exact hsend _ _ _
  · exact Prog.Relates.raise _

/-- However the threads end, the world is one their calls lead to. -/
theorem threadWait_relates (body : Thread ι σ τ) (hcall : ∀ t, Prog.Relates R (body.call t)) (pool : List ι)
    (steps : Nat → List Nat) (w : σ) (m : τ) : R w (threadWait body pool steps w m).2.world := by
  obtain ⟨st, s, cs, fs, hwait, hcalls, -⟩ := threadWait_run body pool steps w m
  rw [hwait]
  exact (hcalls.between fun p _ w => hcall p.1 w).1

theorem mgetOver_relates (hsend : ∀ slot cmd args, Prog.Relates R (send slot cmd args)) (value : α → Value) (sc : Sched)
    (cmd : α) (slots : List (PartOf α)) (keys : List α) :
    Prog.Relates R (mgetOver value send sc cmd slots keys) := by
  intro w
  have h := threadWait_relates (multiMgetKeys value sc.left send cmd)
    (fun p => subRequest_relates hsend p.1 cmd p.2) (sc.arrange slots) sc.steps w (keys.map value)
  unfold mgetOver
  dsimp only
  split
  all_goals exact h

theorem countOver_relates (hsend : ∀ slot cmd args, Prog.Relates R (send slot cmd args)) (sc : Sched) (cmd : α)
    (slots : List (PartOf α)) : Prog.Relates R (countOver send sc cmd slots) := by
  intro w
  have h := threadWait_relates (multiKeys sc.left send cmd)
    (fun p => subRequest_relates hsend p.1 cmd p.2) (sc.arrange slots) sc.steps w (.int 0)
  unfold countOver
  dsimp only
  split
  all_goals exact h

theorem kvsOver_relates (hsend : ∀ slot cmd args, Prog.Relates R (send slot cmd args)) (sc : Sched) (cmd : α)
    (slots : List (PartOf α)) : Prog.Relates R (kvsOver send sc cmd slots) := by
  intro w
  have h := threadWait_relates (multiKvs sc.left send cmd)
    (fun p => subRequest_relates hsend p.1 cmd p.2) (sc.arrange slots) sc.steps w ()
  unfold kvsOver
  dsimp only
  split
  all_goals exact h

theorem redisKey_relates (hsend : ∀ slot cmd args, Prog.Relates R (send slot cmd args)) (cmd : α)
    (args : List α) : Prog.Relates R (redisKey send cmd args) := by
  unfold redisKey
  split
  · exact Prog.Relates.raise _
  · exact (hsend _ _ _).bind fun r => Prog.Relates.lift _

end World

end NgProxy.Process
