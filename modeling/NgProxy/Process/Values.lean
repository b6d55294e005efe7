/-
The command functions of `lhlh_process` on whatever a client may send: an element of a request is a string,
a number, a null or an array again. `redis_slot` refuses a key that is neither a string nor a number
before any thread is spawned. On strings they are the functions of `Process.Split`.
-/
import NgProxy.Process.Split

namespace NgProxy.Process

open Lua Codec Cluster GroupBy Pool

variable {α β σ τ : Type}

/-! ## The tables -/

/-- Every key under its slot, as `redis_mget_keys` and `redis_multi_keys` insert them. -/
def keyValues : List Value → Except LuaError (List (PartOf Value))
  | [] => .ok []
  | k :: l => do
    let slot ← slotOf k
    let items ← keyValues l
    pure ((slot, [k]) :: items)

/-- Every other argument with the one behind it, as `redis_kvs` inserts them. -/
def kvValues : List Value → Except LuaError (List (PartOf Value))
  | [] => .ok []
  | [k] => do
    let slot ← slotOf k
    pure [(slot, [k])]
  | k :: v :: l => do
    let slot ← slotOf k
    let items ← kvValues l
    pure ((slot, [k, v]) :: items)

/-- `redis_mget_keys`. -/
def redisMgetValues (send : SendOf Value σ) (sc : Sched) (cmd : Bytes) (keys : List Value) :
    Prog LuaError σ (Option (List Value)) := do
  let items ← Prog.lift (keyValues keys)
  mgetOver id send sc (.str (lower cmd)) (group items) keys

/-- `redis_multi_keys`. -/
def redisMultiValues (send : SendOf Value σ) (sc : Sched) (cmd : Value) (keys : List Value) :
    Prog LuaError σ (Option (List Value)) := do
  let items ← Prog.lift (keyValues keys)
  countOver send sc cmd (group items)

/-- `redis_kvs`. -/
def redisKvValues (send : SendOf Value σ) (sc : Sched) (cmd : Value) (args : List Value) :
    Prog LuaError σ (Option (List Value)) := do
  let items ← Prog.lift (kvValues args)
  kvsOver send sc cmd (group items)

/-! ## Requests of strings -/

/-- What is sent is taken through `f` first. -/
def SendOf.comap (f : α → β) (send : SendOf β σ) : SendOf α σ := fun slot cmd args => send slot (f cmd) (args.map f)

/-- A part, element by element. -/
def mapPart (f : α → β) (g : PartOf α) : PartOf β := (g.1, g.2.map f)

theorem keyValues_strings (keys : List Bytes) :
    keyValues (keys.map .str) = .ok ((keys.map fun k => (redisSlot (some k), [k])).map (mapPart Value.str)) := by
  induction keys with
  | nil => rfl
  | cons k keys ih =>
    rw [List.map_cons, keyValues, ih]
    rfl

theorem kvValues_strings (args : List Bytes) :
    kvValues (args.map .str) = .ok ((kvItems args).map (mapPart Value.str)) := by
  induction args using kvItems.induct with
  | case1 => rfl
  | case2 k => rfl
  | case3 k v l ih =>
    rw [List.map_cons, List.map_cons, kvValues, ih]
    rfl

theorem group_mapPart (f : α → β) (items : List (PartOf α)) :
    group (items.map (mapPart f)) = (group items).map (mapPart f) := by
  have hpart : mapPart f = fun g => (g.1, g.2.flatMap fun a => [f a]) :=
    funext fun g => by rw [mapPart, List.map_eq_flatMap]
  rw [hpart, group_flatMap]

section Map

variable (f : α → β) (send : SendOf β σ)

theorem subRequest_map (slot : SlotKey) (cmd : α) (keys : List α) :
    subRequest send slot (f cmd) (keys.map f) = subRequest (SendOf.comap f send) slot cmd keys := by
  unfold subRequest
  rw [List.length_map]
  rfl

/-- Waiting for threads that differ in what they were spawned with only. -/
theorem threadWait_mapPart {body : Thread (PartOf β) σ τ} {body' : Thread (PartOf α) σ τ}
    (hbody : body.comap (mapPart f) = body') (sc : Sched) (slots : List (PartOf α)) (w : σ) (m : τ) :
    threadWait body (sc.arrange (slots.map (mapPart f))) sc.steps w m =
      threadWait body' (sc.arrange slots) sc.steps w m := by
  rw [← hbody, ← threadWait_map]
  exact congrArg (threadWait body · sc.steps w m) (sc.arrange_map (List.map f) slots)

theorem mgetOver_map (value : β → Value) (sc : Sched) (cmd : α) (slots : List (PartOf α)) (keys : List α) :
    mgetOver value send sc (f cmd) (slots.map (mapPart f)) (keys.map f) =
      mgetOver (value ∘ f) (SendOf.comap f send) sc cmd slots keys := by
  have hbody : (multiMgetKeys value sc.left send (f cmd)).comap (mapPart f) =
      multiMgetKeys (value ∘ f) sc.left (SendOf.comap f send) cmd := by
    unfold Body.comap multiMgetKeys
    simp only [mapPart, subRequest_map, List.map_map]
  funext w
  unfold mgetOver
  rw [threadWait_mapPart f hbody, List.map_map, List.length_map]

theorem countOver_map (sc : Sched) (cmd : α) (slots : List (PartOf α)) :
    countOver send sc (f cmd) (slots.map (mapPart f)) = countOver (SendOf.comap f send) sc cmd slots := by
  have hbody : (multiKeys sc.left send (f cmd)).comap (mapPart f) = multiKeys sc.left (SendOf.comap f send) cmd := by
    unfold Body.comap multiKeys
    simp only [mapPart, subRequest_map]
  funext w
  unfold countOver
  rw [threadWait_mapPart f hbody]

theorem kvsOver_map (sc : Sched) (cmd : α) (slots : List (PartOf α)) :
    kvsOver send sc (f cmd) (slots.map (mapPart f)) = kvsOver (SendOf.comap f send) sc cmd slots := by
  have hbody : (multiKvs sc.left send (f cmd)).comap (mapPart f) = multiKvs sc.left (SendOf.comap f send) cmd := by
    unfold Body.comap multiKvs
    simp only [mapPart, subRequest_map]
  funext w
  unfold kvsOver
  rw [threadWait_mapPart f hbody]

theorem redisKey_map (cmd : α) (args : List α) :
    redisKey send (f cmd) (args.map f) = redisKey (SendOf.comap f send) cmd args := by
  unfold redisKey
  rw [List.length_map]
  rfl

end Map

section Strings

variable (send : SendOf Value σ) (sc : Sched) (cmd : Bytes) (args : List Bytes)

theorem redisMgetValues_strings :
    redisMgetValues send sc cmd (args.map .str) = redisMgetKeys (SendOf.comap .str send) sc cmd args := by
  unfold redisMgetValues
  rw [keyValues_strings]
  exact (congrArg (mgetOver id send sc _ · _) (group_mapPart _ _)).trans (mgetOver_map Value.str send id sc _ _ args)

theorem redisMultiValues_strings :
    redisMultiValues send sc (.str cmd) (args.map .str) = redisMultiKeys (SendOf.comap .str send) sc cmd args := by
  unfold redisMultiValues
  rw [keyValues_strings]
  exact (congrArg (countOver send sc _) (group_mapPart _ _)).trans (countOver_map Value.str send sc cmd _)

theorem redisKvValues_strings :
    redisKvValues send sc (.str cmd) (args.map .str) = redisKvs (SendOf.comap .str send) sc cmd args := by
  unfold redisKvValues
  rw [kvValues_strings]
  exact (congrArg (kvsOver send sc _) (group_mapPart _ _)).trans (kvsOver_map Value.str send sc cmd _)

end Strings

/-! ## What a request does to the world -/

section World

variable {R : σ → σ → Prop} [IsPreorder σ R] {send : SendOf Value σ}

theorem redisMgetValues_relates (hsend : ∀ slot cmd args, Prog.Relates R (send slot cmd args)) (sc : Sched)
    (cmd : Bytes) (keys : List Value) : Prog.Relates R (redisMgetValues send sc cmd keys) :=
  (Prog.Relates.lift _).bind fun _ => mgetOver_relates hsend id sc _ _ _

theorem redisMultiValues_relates (hsend : ∀ slot cmd args, Prog.Relates R (send slot cmd args)) (sc : Sched)
    (cmd : Value) (keys : List Value) : Prog.Relates R (redisMultiValues send sc cmd keys) :=
  (Prog.Relates.lift _).bind fun _ => countOver_relates hsend sc _ _

theorem redisKvValues_relates (hsend : ∀ slot cmd args, Prog.Relates R (send slot cmd args)) (sc : Sched) (cmd : Value)
    (args : List Value) : Prog.Relates R (redisKvValues send sc cmd args) :=
  (Prog.Relates.lift _).bind fun _ => kvsOver_relates hsend sc _ _

end World

end NgProxy.Process
