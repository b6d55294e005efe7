/-
Programs that read memory and leave a trace of it: the addresses they have read, the runs of bytes they
have copied, and notes of their own. That all of a trace satisfies a predicate is taken apart along the
program, and what the program returns is computed without the trace.
-/
import NgProxy.Lib.Memory

namespace NgProxy.Memory

/-- A read of one byte, a copy of so many bytes from an address on, or a note. -/
inductive Access (ν : Type) where
  | read (p : Int)
  | copy (p len : Int)
  | note (x : ν)

/-- A program that reads memory, with the accesses it makes. -/
def Scan (ν α : Type) := Mem → List (Access ν) × α

namespace Scan

variable {ν α β : Type}

instance : Monad (Scan ν) where
  pure a := fun _ => ([], a)
  bind x f := fun mem => ((x mem).1 ++ (f (x mem).2 mem).1, (f (x mem).2 mem).2)

def read (p : Int) : Scan ν UInt8 := fun mem => ([.read p], mem p)

/-- The copy of a length below zero is empty. -/
def copy (p len : Int) : Scan ν Bytes := fun mem => ([.copy p len], slice mem p len.toNat)

def note (x : ν) : Scan ν Unit := fun _ => ([.note x], ())

/-- What the program returns. -/
def value (x : Scan ν α) (mem : Mem) : α := (x mem).2

/-- The accesses it makes. -/
def trace (x : Scan ν α) (mem : Mem) : List (Access ν) := (x mem).1

/-- All accesses satisfy `P`. -/
def All (P : Access ν → Prop) (x : Scan ν α) (mem : Mem) : Prop := ∀ a ∈ (x mem).1, P a

instance (P : Access ν → Prop) [DecidablePred P] (x : Scan ν α) (mem : Mem) : Decidable (All P x mem) :=
  inferInstanceAs (Decidable (∀ a ∈ (x mem).1, P a))

variable (mem : Mem)

@[simp] theorem value_pure (a : α) : (pure a : Scan ν α).value mem = a := rfl

@[simp] theorem value_bind (x : Scan ν α) (f : α → Scan ν β) : (x >>= f).value mem = (f (x.value mem)).value mem := rfl

@[simp] theorem value_map (f : α → β) (x : Scan ν α) : (f <$> x).value mem = f (x.value mem) := rfl

theorem value_read_bind (p : Int) (f : UInt8 → Scan ν β) : (read p >>= f).value mem = (f (mem p)).value mem := rfl

@[simp] theorem value_copy (p len : Int) : (copy p len : Scan ν Bytes).value mem = slice mem p len.toNat := rfl

@[simp] theorem value_ite (c : Prop) [Decidable c] (x y : Scan ν α) :
    (if c then x else y).value mem = if c then x.value mem else y.value mem := by split <;> rfl

@[simp] theorem trace_pure (a : α) : (pure a : Scan ν α).trace mem = [] := rfl

@[simp] theorem trace_bind (x : Scan ν α) (f : α → Scan ν β) :
    (x >>= f).trace mem = x.trace mem ++ (f (x.value mem)).trace mem := rfl

@[simp] theorem trace_note (x : ν) : (note x).trace mem = [.note x] := rfl

@[simp] theorem trace_ite (c : Prop) [Decidable c] (x y : Scan ν α) :
    (if c then x else y).trace mem = if c then x.trace mem else y.trace mem := by split <;> rfl

variable {mem} {P : Access ν → Prop}

@[simp] theorem all_pure (a : α) : All P (pure a) mem := fun _ h => absurd h List.not_mem_nil

@[simp] theorem all_bind {x : Scan ν α} {f : α → Scan ν β} :
    All P (x >>= f) mem ↔ All P x mem ∧ All P (f (x.value mem)) mem := List.forall_mem_append

@[simp] theorem all_map {x : Scan ν α} {f : α → β} : All P (f <$> x) mem ↔ All P x mem :=
  (all_bind (f := pure ∘ f)).trans (and_iff_left (all_pure _))

/-- The byte read is the one in memory. -/
theorem all_read_bind {p : Int} {f : UInt8 → Scan ν β} :
    All P (read p >>= f) mem ↔ P (.read p) ∧ All P (f (mem p)) mem :=
  all_bind.trans (and_congr_left' List.forall_mem_singleton)

@[simp] theorem all_copy {p len : Int} : All P (copy p len) mem ↔ P (.copy p len) := List.forall_mem_singleton

@[simp] theorem all_note {x : ν} : All P (note x) mem ↔ P (.note x) := List.forall_mem_singleton

end Scan

/-- The access, if it is no note. -/
def Access.unnoted {ν μ : Type} : Access ν → Option (Access μ)
  | .read p => some (.read p)
  | .copy p len => some (.copy p len)
  | .note _ => none

namespace Scan

variable {ν μ α : Type}

/-- The program without its notes. -/
def unnoted (x : Scan ν α) : Scan μ α := fun mem => ((x mem).1.filterMap Access.unnoted, (x mem).2)

@[simp] theorem value_unnoted (x : Scan ν α) (mem : Mem) : (unnoted x : Scan μ α).value mem = x.value mem := rfl

theorem all_unnoted {x : Scan ν α} {mem : Mem} {P : Access ν → Prop} {Q : Access μ → Prop} (h : All P x mem)
    (hread : ∀ p, P (.read p) → Q (.read p)) (hcopy : ∀ p len, P (.copy p len) → Q (.copy p len)) :
    All Q (unnoted x : Scan μ α) mem := by
  intro b hb
  obtain ⟨a, ha, hab⟩ := List.mem_filterMap.1 hb
  have hPa := h a ha
  cases a with
  | read p =>
    cases hab
    exact hread p hPa
  | copy p len =>
    cases hab
    exact hcopy p len hPa
  | note x => cases hab

end Scan

/-- The access keeps to the `n` bytes from address 0 on. -/
def Access.Within {ν : Type} (n : Int) : Access ν → Prop
  | .read p => 0 ≤ p ∧ p < n
  | .copy p len => 0 ≤ len ∧ 0 ≤ p ∧ p + len ≤ n
  | .note _ => True

instance {ν : Type} (n : Int) : DecidablePred (Access.Within (ν := ν) n)
  | .read _ => inferInstanceAs (Decidable (_ ∧ _))
  | .copy _ _ => inferInstanceAs (Decidable (_ ∧ _ ∧ _))
  | .note _ => inferInstanceAs (Decidable True)

end NgProxy.Memory
