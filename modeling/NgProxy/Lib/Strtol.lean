/-
`strtol` with base 0, as the C library computes it: blanks and a sign are skipped, `0x` and `0` choose the
base, and the digits are read as far as they go. Nothing but the bytes themselves ends the scan, so it may
run behind the buffer; `top` is where the readable memory ends.
-/
import NgProxy.Lib.Scan

namespace NgProxy.Memory

open Text

/-! ## Definition -/

/-- `isspace`. -/
def isBlank (b : UInt8) : Bool := b == 32 || (decide (9 ≤ b) && decide (b ≤ 13))

/-- The value of a digit, letters after the decimal digits. -/
def digitValue (b : UInt8) : Option Nat :=
  if isDigit b then some (digitVal b)
  else if 97 ≤ b ∧ b ≤ 122 then some (b.toNat - 87)
  else if 65 ≤ b ∧ b ≤ 90 then some (b.toNat - 55)
  else none

section Scan

variable (mem : Mem)

def skipBlanks : Nat → Int → Int
  | 0, p => p
  | n + 1, p => if isBlank (mem p) then skipBlanks n (p + 1) else p

/-- The digits below the base, among so many bytes at most: their value and the address behind them. -/
def scanDigits (base : Nat) : Nat → Int → Nat → Nat × Int
  | 0, p, acc => (acc, p)
  | n + 1, p, acc =>
    match (digitValue (mem p)).filter (· < base) with
    | some d => scanDigits base n (p + 1) (base * acc + d)
    | none => (acc, p)

/-- The base, and where its digits begin. -/
def scanBase (p : Int) : Nat × Int :=
  if mem p = 48 then if mem (p + 1) = 120 ∨ mem (p + 1) = 88 then (16, p + 2) else (8, p) else (10, p)

/-- A value outside the range of `long` becomes its nearest bound. -/
def clampLong (x : Int) : Int := max (-2 ^ 63) (min (2 ^ 63 - 1) x)

/-- `strtol(p, &rest, 0)`: the value and `rest`. Without digits it is 0, and `rest` is `p`, or the `x` of a
`0x` that no digit follows. -/
def strtol (top p : Int) : Int × Int :=
  let q := skipBlanks mem (top - p).toNat p
  let s := if mem q = 45 ∨ mem q = 43 then q + 1 else q
  let b := scanBase mem s
  let r := scanDigits mem b.1 (top - b.2).toNat b.2 0
  if r.2 = b.2 then (0, if b.1 = 16 then s + 1 else p)
  else (clampLong (if mem q = 45 then -r.1 else r.1), r.2)

end Scan

/-! ## Decimal text -/

variable {mem : Mem} {top p : Int}

theorem clampLong_eq {x : Int} (h₁ : -2 ^ 63 ≤ x) (h₂ : x < 2 ^ 63) : clampLong x = x := by
  unfold clampLong
  omega

theorem skipBlanks_stop (h : isBlank (mem p) = false) (n : Nat) : skipBlanks mem n p = p := by
  cases n with
  | zero => rfl
  | succ n => simp [skipBlanks, h]

theorem digitVal_lt {b : UInt8} (h : isDigit b = true) : digitVal b < 10 := by
  have := (isDigit_iff b).1 h
  unfold digitVal
  omega

theorem isBlank_digit {b : UInt8} (h : isDigit b = true) : isBlank b = false ∧ b ≠ 45 ∧ b ≠ 43 := by
  rw [isDigit_iff] at h
  refine ⟨?_, ?_, ?_⟩
  · simp only [isBlank, Bool.or_eq_false_iff, beq_eq_false_iff_ne, Bool.and_eq_false_imp, decide_eq_true_eq,
      decide_eq_false_iff_not, UInt8.le_iff_toNat_le, UInt8.reduceToNat]
    refine ⟨?_, by omega⟩
    rintro rfl
    simp at h
  all_goals
    rintro rfl
    simp at h

/-- Letters are no digits of a decimal number. -/
theorem digitValue_other {b : UInt8} (h : isDigit b = false) : (digitValue b).filter (· < 10) = none := by
  rw [digitValue, if_neg (by simp [h])]
  split
  · rename_i hlow
    simp only [UInt8.le_iff_toNat_le, UInt8.reduceToNat] at hlow
    simp only [Option.filter_eq_none_iff, Option.some.injEq, decide_eq_true_eq]
    omega
  · split
    · rename_i hup
      simp only [UInt8.le_iff_toNat_le, UInt8.reduceToNat] at hup
      simp only [Option.filter_eq_none_iff, Option.some.injEq, decide_eq_true_eq]
      omega
    · rfl

/-- A run of digits is read to its end, which the readable memory may have in common. -/
theorem scanDigits_run {ds : Bytes} (hds : ∀ b ∈ ds, isDigit b = true) :
    ∀ {n : Nat} {q : Int} {acc : Nat}, At mem q ds → isDigit (mem (q + ds.length)) = false → ds.length ≤ n →
      scanDigits mem 10 n q acc = (readFrom acc ds, q + ds.length) := by
  induction ds with
  | nil =>
    intro n q acc _ hstop _
    cases n with
    | zero => simp [scanDigits, readFrom]
    | succ n =>
      rw [List.length_nil, Nat.cast_zero, Int.add_zero] at hstop
      rw [scanDigits, digitValue_other hstop]
      simp [readFrom]
  | cons b ds ih =>
    intro n q acc h hstop hn
    obtain ⟨n, rfl⟩ : ∃ m, n = m + 1 := ⟨n - 1, by simp at hn; omega⟩
    rw [List.forall_mem_cons] at hds
    have hd : (digitValue (mem q)).filter (· < 10) = some (digitVal b) := by
      rw [h.head, digitValue, if_pos hds.1]
      simp [digitVal_lt hds.1]
    have hnext : q + 1 + (ds.length : Int) = q + (b :: ds).length := by
      rw [List.length_cons]
      push_cast
      omega
    rw [scanDigits, hd]
    dsimp only
    rw [ih hds.2 h.tail (by rwa [hnext]) (by simp at hn; omega), hnext]
    rfl

theorem scanDigits_at {ds rest : Bytes} (hds : ∀ b ∈ ds, isDigit b = true) {n : Nat} {q : Int} {acc : Nat}
    (h : At mem q (ds ++ 13 :: rest)) (hn : ds.length < n) :
    scanDigits mem 10 n q acc = (readFrom acc ds, q + ds.length) := by
  obtain ⟨hrun, hcr⟩ := at_append.1 h
  exact scanDigits_run hds hrun (by rw [hcr.head]; rfl) (Nat.le_of_lt hn)

/-- Neither blanks nor a sign in front of a digit. -/
theorem strtol_digits (base : Nat) {n k : Nat} (hd : isDigit (mem p) = true) (hbase : scanBase mem p = (base, p))
    (hscan : scanDigits mem base (top - p).toNat p 0 = (n, p + k)) (hk : 0 < k) (hn : n < 2 ^ 63) :
    strtol mem top p = ((n : Int), p + k) := by
  obtain ⟨hblank, hminus, hplus⟩ := isBlank_digit hd
  have hskip : skipBlanks mem (top - p).toNat p = p := skipBlanks_stop hblank _
  have hsign : ¬ (mem p = 45 ∨ mem p = 43) := by simp [hminus, hplus]
  simp only [strtol, hskip, if_neg hsign, hbase, hscan, if_neg hminus]
  rw [if_neg (by omega), clampLong_eq (by omega) (by omega)]

/-- A number without a leading zero, whatever follows it that is no digit. -/
theorem strtol_run {b : UInt8} {ds : Bytes} (hb : b ≠ 48) (hds : ∀ c ∈ b :: ds, isDigit c = true)
    (h : At mem p (b :: ds)) (hstop : isDigit (mem (p + (b :: ds).length)) = false)
    (htop : p + (b :: ds).length ≤ top) (hn : readNat (b :: ds) < 2 ^ 63) :
    strtol mem top p = ((readNat (b :: ds) : Int), p + (b :: ds).length) := by
  have hd : isDigit (mem p) = true := by
    rw [h.head]
    exact hds b (List.mem_cons_self ..)
  refine strtol_digits 10 hd ?_ ?_ (List.length_pos_of_ne_nil (List.cons_ne_nil _ _)) hn
  · rw [scanBase, h.head, if_neg hb]
  · exact scanDigits_run hds h hstop (by omega)

theorem strtol_positive {n : Nat} (h0 : n ≠ 0) (hn : n < 2 ^ 63) (h : At mem p (decimal n))
    (hstop : isDigit (mem (p + (decimal n).length)) = false) (htop : p + (decimal n).length ≤ top) :
    strtol mem top p = ((n : Int), p + (decimal n).length) := by
  obtain ⟨b, ds, hb⟩ := List.exists_cons_of_ne_nil (decimal_ne_nil n)
  have hdig := decimal_isDigit n
  have hval := readNat_decimal n
  have hhead : b ≠ 48 := by
    rintro rfl
    exact decimal_head h0 ds hb
  rw [hb] at hdig hval h hstop htop ⊢
  rw [strtol_run hhead hdig h hstop htop (by rwa [hval]), hval]

/-- A decimal number in front of a CR is read as it is. Zero is the one number read in base 8. -/
theorem strtol_decimal {n : Nat} {rest : Bytes} (hn : n < 2 ^ 63) (h : At mem p (decimal n ++ 13 :: rest))
    (htop : p + (decimal n).length < top) : strtol mem top p = ((n : Int), p + (decimal n).length) := by
  by_cases h0 : n = 0
  · subst h0
    have hz : mem p = 48 := h.head
    have hcr : mem (p + 1) = 13 := h.tail.head
    have hlen : (decimal 0).length = 1 := rfl
    obtain ⟨m, hm⟩ : ∃ m, (top - p).toNat = m + 2 := ⟨(top - p).toNat - 2, by omega⟩
    refine strtol_digits 8 (by rw [hz]; rfl) ?_ ?_ (by decide) hn
    · rw [scanBase, if_pos hz, hcr, if_neg (by decide)]
    · rw [hm, scanDigits, hz]
      show scanDigits mem 8 (m + 1) (p + 1) 0 = _
      rw [scanDigits, hcr]
      rfl
  · obtain ⟨hrun, hcr⟩ := at_append.1 h
    exact strtol_positive h0 hn hrun (by rw [hcr.head]; rfl) (Int.le_of_lt htop)

theorem le_skipBlanks (mem : Mem) (n : Nat) (p : Int) : p ≤ skipBlanks mem n p := by
  induction n generalizing p with
  | zero => exact le_rfl
  | succ n ih =>
    rw [skipBlanks]
    split
    · exact (Int.le_add_of_nonneg_right (by decide)).trans (ih (p + 1))
    · exact le_rfl

/-- Where there are no digits the value is 0. -/
theorem strtol_other (h : ∀ i, p ≤ i → isDigit (mem i) = false) : (strtol mem top p).1 = 0 := by
  have hq := le_skipBlanks mem (top - p).toNat p
  have hnone : ∀ s, p ≤ s → scanBase mem s = (10, s) ∧ ∀ n, scanDigits mem 10 n s 0 = (0, s) := by
    intro s hs
    have hs0 : mem s ≠ 48 := by
      intro h0
      have := h s hs
      rw [h0] at this
      exact absurd this (by decide)
    refine ⟨by rw [scanBase, if_neg hs0], fun n => ?_⟩
    cases n with
    | zero => rfl
    | succ n => rw [scanDigits, digitValue_other (h s hs)]
  unfold strtol
  dsimp only
  generalize skipBlanks mem (top - p).toNat p = q at hq ⊢
  -- where the number would start, behind blanks and a sign
  generalize hs : (if mem q = 45 ∨ mem q = 43 then q + 1 else q) = s
  have hle : p ≤ s := by
    rw [← hs]
    split <;> omega
  obtain ⟨hbase, hscan⟩ := hnone s hle
  rw [hbase]
  dsimp only
  rw [hscan, if_pos rfl]

theorem strtol_minus_one {rest : Bytes} (h : At mem p (45 :: 49 :: 13 :: rest)) (htop : p + 2 < top) :
    strtol mem top p = (-1, p + 2) := by
  have h0 : mem p = 45 := h.head
  have h1 : mem (p + 1) = 49 := h.tail.head
  have hskip : skipBlanks mem (top - p).toNat p = p := skipBlanks_stop (by rw [h0]; rfl) _
  have hbase : scanBase mem (p + 1) = (10, p + 1) := by rw [scanBase, h1, if_neg (by decide)]
  have hscan : scanDigits mem 10 (top - (p + 1)).toNat (p + 1) 0 = (1, p + 1 + ((1 : Nat) : Int)) :=
    scanDigits_at (by simp [isDigit]) (show At mem (p + 1) ([49] ++ 13 :: rest) from h.tail) (by simp; omega)
  simp only [strtol, hskip, h0, true_or, if_true, hbase, hscan]
  rw [if_neg (by omega), clampLong_eq (by norm_num) (by norm_num)]
  congr 1
  omega

/-! ## What it reads -/

theorem le_scanDigits (mem : Mem) (base n : Nat) (p : Int) (acc : Nat) : p ≤ (scanDigits mem base n p acc).2 := by
  induction n generalizing p acc with
  | zero => exact le_rfl
  | succ n ih =>
    rw [scanDigits]
    split
    · exact (Int.le_add_of_nonneg_right (by decide)).trans (ih (p + 1) _)
    · exact le_rfl

theorem le_scanBase (p : Int) : p ≤ (scanBase mem p).2 := by
  unfold scanBase
  split_ifs <;> dsimp only <;> omega

/-- Where the number starts, behind blanks and a sign. -/
def strtolStart (mem : Mem) (top p : Int) : Int :=
  let q := skipBlanks mem (top - p).toNat p
  if mem q = 45 ∨ mem q = 43 then q + 1 else q

/-- Where the scan ends: at the first byte that is no digit of the number. -/
def strtolStop (mem : Mem) (top p : Int) : Int :=
  let b := scanBase mem (strtolStart mem top p)
  (scanDigits mem b.1 (top - b.2).toNat b.2 0).2

theorem skipBlanks_le_start (mem : Mem) (top p : Int) :
    skipBlanks mem (top - p).toNat p ≤ strtolStart mem top p := by
  unfold strtolStart
  dsimp only
  split <;> omega

theorem le_strtolStart (mem : Mem) (top p : Int) : p ≤ strtolStart mem top p :=
  (le_skipBlanks mem _ p).trans (skipBlanks_le_start mem top p)

theorem start_le_stop (mem : Mem) (top p : Int) : strtolStart mem top p ≤ strtolStop mem top p :=
  (le_scanBase _).trans (le_scanDigits _ _ _ _ _)

/-- `rest` is never set back. -/
theorem le_strtol_rest (mem : Mem) (top p : Int) : p ≤ (strtol mem top p).2 := by
  have hstart := le_strtolStart mem top p
  have hstop := start_le_stop mem top p
  unfold strtolStart at hstart
  unfold strtolStop strtolStart at hstop
  unfold strtol
  dsimp only at hstart hstop ⊢
  split_ifs at hstart hstop ⊢ <;> dsimp only <;> omega

namespace Scan

variable {ν : Type}

def skipBlanks : Nat → Int → Scan ν Int
  | 0, p => pure p
  | n + 1, p => do
    let c ← read p
    if isBlank c then skipBlanks n (p + 1) else pure p

def scanBase (p : Int) : Scan ν (Nat × Int) := do
  let c ← read p
  if c = 48 then do
    let x ← read (p + 1)
    pure (if x = 120 ∨ x = 88 then (16, p + 2) else (8, p))
  else pure (10, p)

/-- The byte where the readable memory ends is asked for as well. -/
def scanDigits (base : Nat) : Nat → Int → Nat → Scan ν (Nat × Int)
  | 0, p, acc => do
    let _ ← read p
    pure (acc, p)
  | n + 1, p, acc => do
    let c ← read p
    match (digitValue c).filter (· < base) with
    | some d => scanDigits base n (p + 1) (base * acc + d)
    | none => pure (acc, p)

/-- `strtol(p, &rest, 0)` and the bytes it reads. -/
def strtol (top p : Int) : Scan ν (Int × Int) := do
  let q ← skipBlanks (top - p).toNat p
  let c ← read q
  let s := if c = 45 ∨ c = 43 then q + 1 else q
  let b ← scanBase s
  let r ← scanDigits b.1 (top - b.2).toNat b.2 0
  pure (if r.2 = b.2 then (0, if b.1 = 16 then s + 1 else p)
    else (clampLong (if c = 45 then -r.1 else r.1), r.2))

theorem skipBlanks_value (n : Nat) (p : Int) :
    (skipBlanks n p : Scan ν Int).value mem = Memory.skipBlanks mem n p := by
  induction n generalizing p with
  | zero => rfl
  | succ n ih =>
    simp only [skipBlanks, Memory.skipBlanks, value_bind, value_ite, value_pure, ih]
    rfl

theorem scanBase_value (p : Int) : (scanBase p : Scan ν (Nat × Int)).value mem = Memory.scanBase mem p := by
  simp only [scanBase, Memory.scanBase, value_bind, value_ite, value_pure]
  rfl

theorem scanDigits_value (base n : Nat) (p : Int) (acc : Nat) :
    (scanDigits base n p acc : Scan ν (Nat × Int)).value mem = Memory.scanDigits mem base n p acc := by
  induction n generalizing p acc with
  | zero => rfl
  | succ n ih =>
    rw [scanDigits, value_bind, Memory.scanDigits, show (read p : Scan ν UInt8).value mem = mem p from rfl]
    cases (digitValue (mem p)).filter (· < base) with
    | none => rfl
    | some d => exact ih (p + 1) _

/-- The accesses aside, it is `strtol`. -/
theorem strtol_value : (strtol top p : Scan ν (Int × Int)).value mem = Memory.strtol mem top p := by
  simp only [strtol, Memory.strtol, value_bind, value_pure, skipBlanks_value, scanBase_value, scanDigits_value]
  rfl

variable {P : Access ν → Prop}

theorem skipBlanks_all {n : Nat} (h : ∀ i, p ≤ i → i ≤ Memory.skipBlanks mem n p → P (.read i)) :
    All P (skipBlanks n p) mem := by
  induction n generalizing p with
  | zero => exact all_pure _
  | succ n ih =>
    refine all_read_bind.2 ⟨h p le_rfl (le_skipBlanks _ _ _), ?_⟩
    rw [Memory.skipBlanks] at h
    split
    · rename_i hblank
      rw [if_pos hblank] at h
      exact ih fun i hi => h i (by omega)
    · exact all_pure _

theorem scanBase_all : All P (scanBase p) mem ↔ P (.read p) ∧ (mem p = 48 → P (.read (p + 1))) := by
  refine all_read_bind.trans (and_congr_right' ?_)
  by_cases hz : mem p = 48
  · rw [if_pos hz, all_read_bind]
    constructor
    · exact fun h _ => h.1
    · exact fun h => ⟨h hz, all_pure _⟩
  · rw [if_neg hz]
    exact iff_of_true (all_pure _) fun h => absurd h hz

theorem scanDigits_all {base n acc : Nat}
    (h : ∀ i, p ≤ i → i ≤ (Memory.scanDigits mem base n p acc).2 → P (.read i)) :
    All P (scanDigits base n p acc) mem := by
  induction n generalizing p acc with
  | zero => exact all_read_bind.2 ⟨h p le_rfl le_rfl, all_pure _⟩
  | succ n ih =>
    refine all_read_bind.2 ⟨h p le_rfl (le_scanDigits _ _ _ _ _), ?_⟩
    rw [Memory.scanDigits] at h
    cases hd : (digitValue (mem p)).filter (· < base) with
    | none => exact all_pure _
    | some d =>
      rw [hd] at h
      exact ih fun i hi => h i (by omega)

theorem scanDigits_stop {base n acc : Nat} (h : All P (scanDigits base n p acc) mem) :
    P (.read (Memory.scanDigits mem base n p acc).2) := by
  induction n generalizing p acc with
  | zero => exact (all_read_bind.1 h).1
  | succ n ih =>
    obtain ⟨hp, hrest⟩ := all_read_bind.1 h
    rw [Memory.scanDigits]
    cases hd : (digitValue (mem p)).filter (· < base) with
    | none => exact hp
    | some d =>
      rw [hd] at hrest
      exact ih hrest

theorem strtol_all : All P (strtol top p) mem ↔
    All P (skipBlanks (top - p).toNat p) mem ∧ P (.read (Memory.skipBlanks mem (top - p).toNat p)) ∧
      All P (scanBase (strtolStart mem top p)) mem ∧
        let b := Memory.scanBase mem (strtolStart mem top p)
        All P (scanDigits b.1 (top - b.2).toNat b.2 0) mem := by
  rw [strtol, all_bind, skipBlanks_value, all_read_bind, all_bind, scanBase_value, all_bind]
  simp only [all_pure, and_true]
  rfl

/-- Nothing but reads. -/
theorem strtol_reads (h : ∀ i, P (.read i)) : All P (strtol top p) mem :=
  strtol_all.2 ⟨skipBlanks_all fun i _ _ => h i, h _, scanBase_all.2 ⟨h _, fun _ => h _⟩,
    scanDigits_all fun i _ _ => h i⟩

/-- Behind the `0` that chooses the base there is at least one more byte to be read. -/
theorem zero_lt_stop (hstop : strtolStop mem top p < top) (hz : mem (strtolStart mem top p) = 48) :
    strtolStart mem top p < strtolStop mem top p := by
  have hle := start_le_stop mem top p
  unfold strtolStop at hstop hle ⊢
  dsimp only at hstop hle ⊢
  generalize strtolStart mem top p = s at hstop hle hz ⊢
  rw [Memory.scanBase, if_pos hz] at hstop hle ⊢
  -- in base 16 the scan begins behind the `x`, in base 8 the zero is its first digit
  split at hstop
  · rename_i hx
    rw [if_pos hx]
    have := le_scanDigits mem 16 (top - (s + 2)).toNat (s + 2) 0
    dsimp only
    omega
  · rename_i hx
    rw [if_neg hx] at hle ⊢
    dsimp only at hstop hle ⊢
    obtain ⟨n, hn⟩ : ∃ n, (top - s).toNat = n + 1 := ⟨(top - s).toNat - 1, by omega⟩
    rw [hn, Memory.scanDigits, hz]
    have := le_scanDigits mem 8 n (s + 1) (8 * 0 + 0)
    exact Int.lt_of_lt_of_le (Int.lt_succ s) this

/-- The number is read from the first `n` bytes alone exactly if it ends there. -/
theorem strtol_within {n : Int} (hp : 0 ≤ p) (htop : n ≤ top) :
    All (Access.Within n) (strtol top p : Scan ν (Int × Int)) mem ↔ strtolStop mem top p < n := by
  rw [strtol_all]
  have hstart := le_strtolStart mem top p
  have hblanks := skipBlanks_le_start mem top p
  have hend := start_le_stop mem top p
  constructor
  · rintro ⟨-, -, -, hdigits⟩
    exact (scanDigits_stop hdigits).2
  · intro hstop
    have hread (i : Int) (h₁ : p ≤ i) (h₂ : i ≤ strtolStop mem top p) : Access.Within n (.read i : Access ν) :=
      ⟨by omega, by omega⟩
    refine ⟨?_, ?_, ?_, ?_⟩
    · exact skipBlanks_all fun i h₁ h₂ => hread i h₁ (by omega)
    · exact hread _ (le_skipBlanks _ _ _) (by omega)
    · refine scanBase_all.2 ⟨hread _ hstart hend, fun hz => hread _ (by omega) ?_⟩
      exact zero_lt_stop (by omega) hz
    · refine scanDigits_all fun i h₁ h₂ => hread i ?_ h₂
      exact hstart.trans ((le_scanBase _).trans h₁)

end Scan

end NgProxy.Memory
