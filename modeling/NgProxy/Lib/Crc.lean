/-
Cyclic redundancy checks as a shift register, most significant bit first: a bit shifted out brings
the polynomial in. The register is linear in exclusive or, so the eight steps of a byte are a move
by eight places and the table entry of the byte shifted out.
-/
import Mathlib.Tactic.Common

namespace NgProxy.Crc

variable {w : Nat} (poly : BitVec w)

/-- One shift of the register. -/
def bitStep (c : BitVec w) : BitVec w := if c.msb then (c <<< 1) ^^^ poly else c <<< 1

/-- `n` shifts. -/
def bits : Nat → BitVec w → BitVec w
  | 0, c => c
  | n + 1, c => bitStep poly (bits n c)

/-- A byte enters at the upper end of the register. -/
def byteStep (c : BitVec w) (b : BitVec 8) : BitVec w := bits poly 8 (c ^^^ (b.setWidth w <<< (w - 8)))

/-- The check value of a message, from the register's initial value. -/
def crc (init : BitVec w) (m : List (BitVec 8)) : BitVec w := m.foldl (byteStep poly) init

/-- What eight shifts make of a byte at the upper end. -/
def tableEntry (i : BitVec 8) : BitVec w := bits poly 8 (i.setWidth w <<< (w - 8))

theorem bitStep_xor (a b : BitVec w) : bitStep poly (a ^^^ b) = bitStep poly a ^^^ bitStep poly b := by
  have hself : poly ^^^ poly = 0#w := BitVec.xor_self
  unfold bitStep
  simp only [BitVec.msb_xor, BitVec.shiftLeft_xor_distrib]
  cases a.msb <;> cases b.msb <;> simp only [Bool.false_xor, Bool.true_xor, Bool.not_false, Bool.not_true,
    Bool.false_eq_true, ite_true, ite_false]
  · ac_rfl
  · ac_rfl
  · calc a <<< 1 ^^^ b <<< 1 = a <<< 1 ^^^ b <<< 1 ^^^ (poly ^^^ poly) := by rw [hself, BitVec.xor_zero]
      _ = a <<< 1 ^^^ poly ^^^ (b <<< 1 ^^^ poly) := by ac_rfl

theorem bits_xor (n : Nat) (a b : BitVec w) : bits poly n (a ^^^ b) = bits poly n a ^^^ bits poly n b := by
  induction n with
  | zero => rfl
  | succ n ih => rw [bits, ih, bitStep_xor, bits, bits]

/-- A register whose upper byte is clear is only moved by the next eight shifts. -/
theorem bits_clear {y : BitVec w} (hw : 8 ≤ w) (hy : ∀ i, w - 8 ≤ i → y.getLsbD i = false) {k : Nat} (hk : k ≤ 8) :
    bits poly k y = y <<< k := by
  induction k with
  | zero => simp [bits]
  | succ k ih =>
    have hmsb : (y <<< k).msb = false := by
      rw [BitVec.msb_eq_getLsbD_last, BitVec.getLsbD_shiftLeft, hy (w - 1 - k) (by omega)]
      simp
    rw [bits, ih (by omega), bitStep, hmsb, if_neg Bool.false_ne_true, ← BitVec.shiftLeft_add]

/-- The byte that is shifted out, and the rest of the register. -/
theorem split_byte (hw : 8 ≤ w) (c : BitVec w) (b : BitVec 8) :
    c ^^^ (b.setWidth w <<< (w - 8)) =
      (c <<< 8) >>> 8 ^^^ (((c >>> (w - 8)).setWidth 8 ^^^ b).setWidth w <<< (w - 8)) := by
  apply BitVec.eq_of_getLsbD_eq
  intro i hi
  simp only [BitVec.getLsbD_xor, BitVec.getLsbD_shiftLeft, BitVec.getLsbD_ushiftRight, BitVec.getLsbD_setWidth]
  by_cases hlow : i < w - 8
  · simp [hlow, hi, show 8 + i < w by omega]
  · simp [hlow, hi, show ¬ 8 + i < w by omega, show i - (w - 8) < 8 by omega,
      show i - (w - 8) < w by omega, show w - 8 + (i - (w - 8)) = i by omega]

/-- A byte of the message by table: the register moves by eight places, and the table has the rest. -/
theorem byteStep_table (hw : 8 ≤ w) (c : BitVec w) (b : BitVec 8) :
    byteStep poly c b = (c <<< 8) ^^^ tableEntry poly ((c >>> (w - 8)).setWidth 8 ^^^ b) := by
  have hclear : ∀ i, w - 8 ≤ i → ((c <<< 8) >>> 8).getLsbD i = false := by
    intro i hi
    rw [BitVec.getLsbD_ushiftRight, BitVec.getLsbD_of_ge _ _ (by omega)]
  have hback : (c <<< 8) >>> 8 <<< 8 = c <<< 8 := by
    apply BitVec.eq_of_getLsbD_eq
    intro i hi
    simp only [BitVec.getLsbD_shiftLeft, BitVec.getLsbD_ushiftRight]
    by_cases h : i < 8
    · simp [h]
    · simp [h, hi, show 8 + (i - 8) = i by omega]
  rw [byteStep, split_byte hw, bits_xor, bits_clear poly hw hclear (Nat.le_refl 8), hback, tableEntry]

end NgProxy.Crc
