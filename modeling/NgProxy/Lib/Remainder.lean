/-
The shift register divides: bits are coefficients in the field of two elements, a shift is a
multiplication by `X`, and what the register holds is the remainder by `X ^ w` and the polynomial of the
feedback bits.
-/
import NgProxy.Lib.Crc
import Mathlib.Algebra.CharP.Two
import Mathlib.Algebra.Field.ZMod
import Mathlib.Algebra.Polynomial.Div
import Mathlib.Algebra.Polynomial.Monic

namespace NgProxy.Crc

open Polynomial

/-! ## Bits as coefficients -/

/-- A bit in the field of two elements. -/
def bit (b : Bool) : ZMod 2 := if b then 1 else 0

theorem bit_xor (a b : Bool) : bit (a ^^ b) = bit a + bit b := by
  cases a <;> cases b <;> decide

/-- The polynomial of a bit vector: its bits are the coefficients, the lowest one that of `1`. -/
noncomputable def toPoly {w : Nat} (v : BitVec w) : (ZMod 2)[X] :=
  ∑ i ∈ Finset.range w, C (bit (v.getLsbD i)) * X ^ i

section Coefficients

variable {w : Nat}

theorem toPoly_coeff (v : BitVec w) (k : Nat) : (toPoly v).coeff k = bit (v.getLsbD k) := by
  simp only [toPoly, finsetSum_coeff, coeff_C_mul_X_pow, Finset.sum_ite_eq, Finset.mem_range]
  by_cases hk : k < w
  · rw [if_pos hk]
  · rw [if_neg hk, BitVec.getLsbD_of_ge v k (by omega)]
    rfl

theorem toPoly_degree_lt (v : BitVec w) : (toPoly v).degree < w := by
  rw [degree_lt_iff_coeff_zero]
  intro k hk
  rw [toPoly_coeff, BitVec.getLsbD_of_ge v k hk]
  rfl

theorem toPoly_xor (a b : BitVec w) : toPoly (a ^^^ b) = toPoly a + toPoly b := by
  ext k
  rw [coeff_add, toPoly_coeff, toPoly_coeff, toPoly_coeff, BitVec.getLsbD_xor, bit_xor]

/-- A shift is a multiplication, as long as no bit is lost. -/
theorem toPoly_shiftLeft {n : Nat} (v : BitVec w) (hv : ∀ i, w ≤ i + n → v.getLsbD i = false) :
    toPoly (v <<< n) = toPoly v * X ^ n := by
  ext k
  rw [coeff_mul_X_pow', toPoly_coeff, toPoly_coeff, BitVec.getLsbD_shiftLeft]
  by_cases hk : n ≤ k
  · rw [if_pos hk, decide_eq_false (show ¬ k < n by omega), Bool.not_false, Bool.and_true]
    by_cases hw : k < w
    · rw [decide_eq_true hw, Bool.true_and]
    · rw [decide_eq_false hw, Bool.false_and, hv (k - n) (by omega)]
  · rw [if_neg hk, decide_eq_true (show k < n by omega), Bool.not_true, Bool.and_false, Bool.false_and]
    rfl

/-- The bit that is shifted out is the coefficient of `X ^ w`. -/
theorem toPoly_mul_X (v : BitVec w) : toPoly v * X = toPoly (v <<< 1) + C (bit v.msb) * X ^ w := by
  ext k
  rw [coeff_add, coeff_C_mul_X_pow, toPoly_coeff, BitVec.getLsbD_shiftLeft, BitVec.msb_eq_getLsbD_last]
  cases k with
  | zero =>
    rw [coeff_mul_X_zero]
    by_cases hw : w = 0
    · subst hw
      simp [bit]
    · simp [bit, Ne.symm hw]
  | succ k =>
    rw [coeff_mul_X, toPoly_coeff]
    by_cases hk : k + 1 = w
    · subst hk
      simp [bit]
    · by_cases hlt : k + 1 < w
      · simp [hk, hlt]
      · rw [BitVec.getLsbD_of_ge v k (by omega)]
        simp [hk, hlt, bit]

end Coefficients

/-! ## The remainder -/

section Remainder

variable {w : Nat} (poly : BitVec w)

/-- `X ^ w` and the feedback bits. -/
noncomputable def generator : (ZMod 2)[X] := X ^ w + toPoly poly

theorem generator_monic : (generator poly).Monic := monic_X_pow_add (toPoly_degree_lt poly)

theorem generator_degree : (generator poly).degree = w := by
  rw [generator, degree_add_eq_left_of_degree_lt, degree_X_pow]
  rw [degree_X_pow]
  exact toPoly_degree_lt poly

/-- One shift multiplies by `X`, up to the generator. -/
theorem bitStep_dvd (c : BitVec w) : generator poly ∣ toPoly (bitStep poly c) - toPoly c * X := by
  rw [toPoly_mul_X, bitStep]
  cases c.msb with
  | false => simp [bit]
  | true =>
    refine ⟨1, ?_⟩
    rw [if_pos rfl, toPoly_xor, generator, bit, if_pos rfl, C_1, one_mul, mul_one, CharTwo.sub_eq_add]
    calc toPoly (c <<< 1) + toPoly poly + (toPoly (c <<< 1) + X ^ w)
        = toPoly (c <<< 1) + toPoly (c <<< 1) + (X ^ w + toPoly poly) := by ring
      _ = X ^ w + toPoly poly := by rw [CharTwo.add_self_eq_zero, zero_add]

theorem bits_dvd (n : Nat) (c : BitVec w) : generator poly ∣ toPoly (bits poly n c) - toPoly c * X ^ n := by
  induction n with
  | zero => simp [bits]
  | succ n ih =>
    have hstep := bitStep_dvd poly (bits poly n c)
    have hsum := dvd_add hstep (ih.mul_right X)
    rwa [sub_mul, sub_add_sub_cancel, mul_assoc, ← pow_succ] at hsum

/-- The polynomial of a message, the first bit that of the highest power. -/
noncomputable def message (m : List (BitVec 8)) : (ZMod 2)[X] := m.foldl (fun f b => f * X ^ 8 + toPoly b) 0

/-- A byte at the upper end of the register. -/
theorem toPoly_byte (hw : 8 ≤ w) (b : BitVec 8) : toPoly (b.setWidth w <<< (w - 8)) = toPoly b * X ^ (w - 8) := by
  have hsame : toPoly (b.setWidth w) = toPoly b := by
    ext k
    rw [toPoly_coeff, toPoly_coeff, BitVec.getLsbD_setWidth]
    by_cases hk : k < w
    · rw [decide_eq_true hk, Bool.true_and]
    · rw [BitVec.getLsbD_of_ge b k (by omega), Bool.and_false]
  rw [toPoly_shiftLeft, hsame]
  intro i hi
  rw [BitVec.getLsbD_setWidth, BitVec.getLsbD_of_ge b i (by omega), Bool.and_false]

/-- By induction on the message, its last byte taken off. -/
theorem crc_dvd (hw : 8 ≤ w) (m : List (BitVec 8)) :
    generator poly ∣ toPoly (crc poly 0#w m) - message m * X ^ w := by
  induction m using List.reverseRecOn with
  | nil =>
    have hzero : toPoly (0#w) = 0 := by
      ext k
      rw [toPoly_coeff, coeff_zero, BitVec.getLsbD_zero]
      rfl
    simp [crc, message, hzero]
  | append_singleton m b ih =>
    have hmessage : message (m ++ [b]) = message m * X ^ 8 + toPoly b := by
      rw [message, List.foldl_append]
      rfl
    have hcrc : crc poly 0#w (m ++ [b]) = bits poly 8 (crc poly 0#w m ^^^ b.setWidth w <<< (w - 8)) := by
      rw [crc, List.foldl_append]
      rfl
    have hpow : (X : (ZMod 2)[X]) ^ w = X ^ (w - 8) * X ^ 8 := by rw [← pow_add, Nat.sub_add_cancel hw]
    have hshift := bits_dvd poly 8 (crc poly 0#w m ^^^ b.setWidth w <<< (w - 8))
    have hsum := dvd_add hshift (ih.mul_right (X ^ 8))
    rw [hcrc, hmessage]
    convert hsum using 1
    rw [toPoly_xor, toPoly_byte hw, add_mul, add_mul, hpow]
    ring

/-- The check value of a message from a cleared register is the remainder of the message, moved up by the
width of the register. -/
theorem toPoly_crc (hw : 8 ≤ w) (m : List (BitVec 8)) :
    toPoly (crc poly 0#w m) = message m * X ^ w %ₘ generator poly := by
  obtain ⟨q, hq⟩ := crc_dvd poly hw m
  refine (div_modByMonic_unique (-q) _ (generator_monic poly) ⟨?_, ?_⟩).2.symm
  · rw [mul_neg, ← hq]
    ring
  · rw [generator_degree]
    exact toPoly_degree_lt _

end Remainder

end NgProxy.Crc
