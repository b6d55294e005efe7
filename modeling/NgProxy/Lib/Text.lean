/-
Byte strings and decimal text: the decimal form of a natural number and of an integer, and reading
a run of digits back. The digits are Mathlib's `Nat.digits`, most significant first.
-/
import Mathlib.Data.Nat.Digits.Lemmas

namespace NgProxy

/-- A byte string. -/
abbrev Bytes := List UInt8

instance Bytes.lawful : LawfulBEq Bytes := inferInstance

/-- The bytes of an ASCII literal. -/
def bytes (s : String) : Bytes := s.toList.map fun c => UInt8.ofNat c.toNat

/-- `string.upper`, on ASCII letters. -/
def upper (s : Bytes) : Bytes := s.map fun b => if 97 ≤ b ∧ b ≤ 122 then b - 32 else b

/-- `string.lower`, on ASCII letters. -/
def lower (s : Bytes) : Bytes := s.map fun b => if 65 ≤ b ∧ b ≤ 90 then b + 32 else b

theorem upper_lower (s : Bytes) : upper (lower s) = upper s := by
  unfold upper lower
  rw [List.map_map]
  refine List.map_congr_left fun b _ => ?_
  rw [Function.comp_apply]
  by_cases h : 65 ≤ b ∧ b ≤ 90
  · have hlt := h
    simp only [UInt8.le_iff_toNat_le, UInt8.reduceToNat] at hlt
    have hadd : (b + 32).toNat = b.toNat + 32 := by
      rw [UInt8.toNat_add]
      exact Nat.mod_eq_of_lt (by simp; omega)
    have hup : 97 ≤ b + 32 ∧ b + 32 ≤ 122 := by
      simp only [UInt8.le_iff_toNat_le, hadd, UInt8.reduceToNat]
      omega
    have hno : ¬ (97 ≤ b ∧ b ≤ 122) := by
      simp only [UInt8.le_iff_toNat_le, UInt8.reduceToNat]
      omega
    rw [if_pos h, if_pos hup, if_neg hno]
    simp
  · rw [if_neg h]

namespace Text

/-- A decimal digit `0` to `9`. -/
def isDigit (b : UInt8) : Bool := decide (48 ≤ b) && decide (b ≤ 57)

/-- The value of a decimal digit. -/
def digitVal (b : UInt8) : Nat := b.toNat - 48

/-- The number a run of decimal digits denotes, most significant digit first. -/
def readNat (l : Bytes) : Nat := l.foldl (fun a b => 10 * a + digitVal b) 0

/-- The decimal text of a natural number, without leading zeros. -/
def decimal (n : Nat) : Bytes :=
  if n = 0 then [48] else (Nat.digits 10 n).reverse.map fun d => UInt8.ofNat (48 + d)

/-- The decimal text of an integer. -/
def decimalInt (n : Int) : Bytes := if n < 0 then 45 :: decimal n.natAbs else decimal n.natAbs

theorem toNat_digit {d : Nat} (h : d < 10) : (UInt8.ofNat (48 + d)).toNat = 48 + d :=
  UInt8.toNat_ofNat_of_lt' (by rw [UInt8.size]; omega)

theorem isDigit_iff (b : UInt8) : isDigit b = true ↔ 48 ≤ b.toNat ∧ b.toNat ≤ 57 := by
  simp [isDigit, UInt8.le_iff_toNat_le]

theorem isDigit_digit {d : Nat} (h : d < 10) : isDigit (UInt8.ofNat (48 + d)) = true := by
  rw [isDigit_iff, toNat_digit h]; omega

theorem decimal_ne_nil (n : Nat) : decimal n ≠ [] := by
  unfold decimal
  split
  · simp
  · rename_i h
    simp [Nat.digits_ne_nil_iff_ne_zero.2 h]

/-- Decimal text consists of digits. -/
theorem decimal_isDigit (n : Nat) : ∀ b ∈ decimal n, isDigit b = true := by
  intro b hb
  unfold decimal at hb
  split at hb
  · simp only [List.mem_singleton] at hb; subst hb; decide
  · obtain ⟨d, hd, rfl⟩ := List.mem_map.1 hb
    exact isDigit_digit (Nat.digits_lt_base (by norm_num) (List.mem_reverse.1 hd))

/-- Digits read back through `readNat` are Mathlib's `Nat.ofDigits`. -/
theorem readNat_digits (ds : List Nat) (h : ∀ d ∈ ds, d < 10) :
    readNat (ds.reverse.map fun d => UInt8.ofNat (48 + d)) = Nat.ofDigits 10 ds := by
  unfold readNat
  induction ds with
  | nil => rfl
  | cons d ds ih =>
    have hd := h d (List.mem_cons_self ..)
    rw [List.reverse_cons, List.map_append, List.foldl_append, ih fun x hx => h x (List.mem_cons_of_mem _ hx)]
    simp only [List.map_cons, List.map_nil, List.foldl_cons, List.foldl_nil, Nat.ofDigits_cons, digitVal,
      toNat_digit hd]
    omega

/-- A number is read back from its decimal text. -/
theorem readNat_decimal (n : Nat) : readNat (decimal n) = n := by
  unfold decimal
  split
  · rename_i h; subst h; rfl
  · rw [readNat_digits _ fun d hd => Nat.digits_lt_base (by norm_num) hd, Nat.ofDigits_digits]

/-- The number the digits denote behind the ones already read. -/
def readFrom (acc : Nat) (ds : Bytes) : Nat := ds.foldl (fun a b => 10 * a + digitVal b) acc

theorem le_readFrom (acc : Nat) (ds : Bytes) : acc ≤ readFrom acc ds := by
  induction ds generalizing acc with
  | nil => exact Nat.le_refl _
  | cons b ds ih =>
    have := ih (10 * acc + digitVal b)
    simp only [readFrom, List.foldl_cons] at this ⊢
    omega

theorem readFrom_decimal (n : Nat) : readFrom 0 (decimal n) = n := readNat_decimal n

/-! ## The first digit and the number of digits -/

/-- Only zero is written with a leading zero. -/
theorem decimal_head {n : Nat} (h : n ≠ 0) (ds : Bytes) : decimal n ≠ 48 :: ds := by
  intro hd
  rw [decimal, if_neg h] at hd
  obtain ⟨d, t, ht, hd, -⟩ := List.map_eq_cons_iff.1 hd
  have hdigits : Nat.digits 10 n = t.reverse ++ [d] := by
    rw [← List.reverse_reverse (Nat.digits 10 n), ht, List.reverse_cons]
  have hlt : d < 10 := Nat.digits_lt_base (by norm_num) (show d ∈ Nat.digits 10 n by simp [hdigits])
  have hne := Nat.getLast_digit_ne_zero 10 h
  simp only [hdigits, List.getLast_append_singleton] at hne
  have hval := congrArg UInt8.toNat hd
  simp only [toNat_digit hlt, UInt8.reduceToNat] at hval
  omega

theorem decimal_length_small {n : Nat} (h : n < 10) : (decimal n).length = 1 := by
  rw [decimal]
  split
  · rfl
  · rename_i hn
    rw [Nat.digits_of_lt 10 n hn h]
    rfl

theorem decimal_length_div {n : Nat} (h : 10 ≤ n) : (decimal n).length = (decimal (n / 10)).length + 1 := by
  have hn : n ≠ 0 := by omega
  have hq : n / 10 ≠ 0 := by omega
  rw [decimal, decimal, if_neg hn, if_neg hq, Nat.digits_def' (by norm_num) (by omega)]
  simp

theorem decimal_length {n : Nat} (h : n ≠ 0) : (decimal n).length = (Nat.digits 10 n).length := by
  rw [decimal, if_neg h, List.length_map, List.length_reverse]

/-- A number of more than `k` digits is one from `10^k` on. -/
theorem lt_decimal_length {n : Nat} (h : n ≠ 0) (k : Nat) : k < (decimal n).length ↔ 10 ^ k ≤ n := by
  rw [decimal_length h]
  exact Nat.lt_digits_length_iff (by norm_num) n

theorem decimal_injective : Function.Injective decimal := by
  intro m n h
  rw [← readNat_decimal m, h, readNat_decimal]

theorem decimalInt_injective : Function.Injective decimalInt := by
  have hminus : ∀ m n : Nat, 45 :: decimal m ≠ decimal n := by
    intro m n h
    have hdigit := decimal_isDigit n 45 (h ▸ List.mem_cons_self ..)
    exact absurd hdigit (by decide)
  intro m n h
  unfold decimalInt at h
  split at h <;> split at h
  · have := decimal_injective (List.cons.inj h).2
    omega
  · exact absurd h (hminus _ _)
  · exact absurd h.symm (hminus _ _)
  · have := decimal_injective h
    omega

end Text

end NgProxy
