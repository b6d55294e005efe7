/-
Bytes in memory as C sees them: a pointer is an integer, a buffer is a run of bytes at some address and
whatever lies around it can be read too. Signed machine integers wrap around.
-/
import NgProxy.Lib.Text
import Mathlib.Tactic.Common

namespace NgProxy.Memory

/-! ## Machine integers -/

/-- A value stored in a 32-bit `int`. -/
def int32 (x : Int) : Int := (x + 2 ^ 31) % 2 ^ 32 - 2 ^ 31

/-- A value stored in a 64-bit `ssize_t`. -/
def int64 (x : Int) : Int := (x + 2 ^ 63) % 2 ^ 64 - 2 ^ 63

theorem int32_eq {x : Int} (h₁ : -2 ^ 31 ≤ x) (h₂ : x < 2 ^ 31) : int32 x = x := by
  unfold int32
  omega

theorem int64_eq {x : Int} (h₁ : -2 ^ 63 ≤ x) (h₂ : x < 2 ^ 63) : int64 x = x := by
  unfold int64
  omega

/-- One more digit: what was lost before makes no difference. -/
theorem int32_step (c : Int) (d : Nat) : int32 (int32 (int32 c * 10) + d) = int32 (10 * c + d) := by
  unfold int32
  omega

theorem int64_step (c : Int) (d : Nat) : int64 (int64 (int64 c * 10) + d) = int64 (10 * c + d) := by
  unfold int64
  omega

/-! ## Buffers -/

/-- The memory: a byte at every address. -/
abbrev Mem := Int → UInt8

/-- A buffer at address 0, and something else around it. -/
def load (b : Bytes) (outside : Mem) : Mem := fun i => if 0 ≤ i then b.getD i.toNat (outside i) else outside i

/-- The bytes from an address on. -/
def slice (mem : Mem) (p : Int) (n : Nat) : Bytes := (List.range n).map fun i : Nat => mem (p + i)

/-- One byte written. -/
def store (mem : Mem) (p : Int) (b : UInt8) : Mem := fun i => if i = p then b else mem i

/-- A run of bytes written. -/
def write (mem : Mem) (p : Int) : Bytes → Mem
  | [] => mem
  | b :: s => write (store mem p b) (p + 1) s

/-- The bytes `s` are at address `p`. -/
def At (mem : Mem) (p : Int) (s : Bytes) : Prop := ∀ i (h : i < s.length), mem (p + i) = s[i]

variable {mem : Mem} {p : Int} {s t : Bytes} {b : UInt8}

theorem at_load (b : Bytes) (outside : Mem) : At (load b outside) 0 b := by
  intro i h
  rw [load, if_pos (by omega)]
  simp [List.getD_eq_getElem?_getD, h]

theorem at_nil : At mem p [] := fun i h => absurd h (Nat.not_lt_zero i)

theorem at_cons : At mem p (b :: s) ↔ mem p = b ∧ At mem (p + 1) s := by
  constructor
  · intro h
    have h0 := h 0 (Nat.zero_lt_succ _)
    rw [List.getElem_cons_zero] at h0
    refine ⟨by simpa using h0, fun i hi => ?_⟩
    have := h (i + 1) (by simpa using hi)
    rw [List.getElem_cons_succ] at this
    rw [← this]
    congr 1
    push_cast
    omega
  · rintro ⟨hb, hs⟩ i hi
    cases i with
    | zero => simpa using hb
    | succ i =>
      rw [List.getElem_cons_succ, ← hs i (by simpa using hi)]
      congr 1
      push_cast
      omega

theorem at_append : At mem p (s ++ t) ↔ At mem p s ∧ At mem (p + s.length) t := by
  induction s generalizing p with
  | nil => simp [at_nil]
  | cons b s ih =>
    rw [List.cons_append, at_cons, at_cons, ih, and_assoc]
    have : p + 1 + (s.length : Int) = p + ((b :: s).length : Nat) := by
      simp
      omega
    rw [this]

theorem At.drop (h : At mem p s) {n : Nat} (hn : n ≤ s.length) : At mem (p + n) (s.drop n) := by
  rw [← List.take_append_drop n s, at_append, List.length_take, Nat.min_eq_left hn] at h
  exact h.2

theorem At.head (h : At mem p (b :: s)) : mem p = b := (at_cons.1 h).1

theorem At.tail (h : At mem p (b :: s)) : At mem (p + 1) s := (at_cons.1 h).2

/-- The buffer read back. -/
theorem At.slice_eq (h : At mem p s) : slice mem p s.length = s := by
  refine List.ext_getElem (by simp [slice]) fun i h₁ h₂ => ?_
  simp only [slice, List.getElem_map, List.getElem_range]
  exact h i h₂

/-! ## Slices and writes -/

variable {mem' : Mem} {q : Int} {m n : Nat}

@[simp] theorem slice_length : (slice mem p n).length = n := by simp [slice]

@[simp] theorem slice_zero : slice mem p 0 = [] := rfl

theorem at_slice (mem : Mem) (p : Int) (n : Nat) : At mem p (slice mem p n) := by
  intro i h
  simp [slice]

theorem slice_add : slice mem p (m + n) = slice mem p m ++ slice mem (p + m) n := by
  have hat : At mem p (slice mem p m ++ slice mem (p + m) n) :=
    at_append.2 ⟨at_slice _ _ _, by rw [slice_length]; exact at_slice _ _ _⟩
  have hlen : (slice mem p m ++ slice mem (p + m) n).length = m + n := by simp
  rw [← hat.slice_eq, hlen]

theorem slice_succ : slice mem p (n + 1) = slice mem p n ++ [mem (p + n)] := by
  rw [slice_add]
  simp [slice]

theorem slice_congr (h : ∀ i, p ≤ i → i < p + n → mem' i = mem i) : slice mem' p n = slice mem p n := by
  refine List.map_congr_left fun i hi => h _ ?_ ?_ <;> simp at hi <;> omega

theorem At.congr (h : At mem p s) (hm : ∀ i, p ≤ i → i < p + s.length → mem' i = mem i) : At mem' p s := by
  intro i hi
  rw [hm _ (by omega) (by omega), h i hi]

theorem store_ne {i : Int} (h : i ≠ p) : store mem p b i = mem i := if_neg h

@[simp] theorem store_self : store mem p b p = b := if_pos rfl

/-- A write leaves the rest of the memory alone. -/
theorem write_out {i : Int} (h : i < p ∨ p + s.length ≤ i) : write mem p s i = mem i := by
  induction s generalizing mem p with
  | nil => rfl
  | cons b s ih =>
    rw [List.length_cons] at h
    rw [write, ih (by omega), store_ne (by omega)]

theorem at_write : At (write mem p s) p s := by
  induction s generalizing mem p with
  | nil => exact at_nil
  | cons b s ih =>
    rw [write]
    refine at_cons.2 ⟨?_, ih⟩
    rw [write_out (.inl (by omega)), store_self]

end NgProxy.Memory
