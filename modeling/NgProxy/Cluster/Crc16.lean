/-
`crc16` as C evaluates it. The register and the byte become 32-bit integers, the byte with its sign, since
`char` is signed; the mask takes the sign away again and the assignment cuts the sum to sixteen bits. What
comes out is the remainder of the key, sixteen places up, by `X ^ 16 + X ^ 12 + X ^ 5 + 1`.
-/
import NgProxy.Cluster.HashTag
import NgProxy.Lib.Remainder

namespace NgProxy.Cluster

open Crc Polynomial

/-- `crc = (crc<<8) ^ crc16tab[((crc>>8) ^ *buf++)&0x00FF]`. -/
def crc16Assign (crc : BitVec 16) (c : BitVec 8) : BitVec 16 :=
  let r : BitVec 32 := crc.setWidth 32
  let i : BitVec 32 := (r.sshiftRight 8 ^^^ c.signExtend 32) &&& 0x00ff#32
  ((r <<< 8) ^^^ (crc16tab.getD i.toNat 0).toBitVec.setWidth 32).setWidth 16

/-- The loop over the key. -/
def crc16Loop (buf : Bytes) : BitVec 16 := (buf.map UInt8.toBitVec).foldl crc16Assign 0#16

/-- Neither sign reaches the index: the register is not negative, and of the byte eight bits are left. -/
theorem index_eq (crc : BitVec 16) (c : BitVec 8) :
    ((crc.setWidth 32).sshiftRight 8 ^^^ c.signExtend 32) &&& 0x00ff#32 =
      ((crc >>> 8).setWidth 8 ^^^ c).setWidth 32 := by
  have hmask : (0x00ff#32) = BitVec.setWidth 32 (BitVec.allOnes 8) := by decide
  apply BitVec.eq_of_getLsbD_eq
  intro i hi
  rw [hmask, BitVec.getLsbD_and, BitVec.getLsbD_xor, BitVec.getLsbD_sshiftRight, BitVec.getLsbD_signExtend,
    BitVec.getLsbD_setWidth, BitVec.getLsbD_setWidth, BitVec.getLsbD_setWidth, BitVec.getLsbD_xor,
    BitVec.getLsbD_setWidth, BitVec.getLsbD_ushiftRight, BitVec.getLsbD_allOnes]
  by_cases hlow : i < 8
  · simp [hi, hlow, show 8 + i < 32 by omega]
  · simp [hlow, BitVec.getLsbD_of_ge c i (by omega)]

theorem crc16Assign_eq (crc : BitVec 16) (c : BitVec 8) : crc16Assign crc c = byteStep 0x1021#16 crc c := by
  have hindex : (((crc >>> 8).setWidth 8 ^^^ c).setWidth 32).toNat = ((crc >>> 8).setWidth 8 ^^^ c).toNat := by
    rw [BitVec.toNat_setWidth]
    exact Nat.mod_eq_of_lt (Nat.lt_trans (BitVec.isLt _) (by decide))
  have hshift : (crc.setWidth 32 <<< 8).setWidth 16 = crc <<< 8 := by
    apply BitVec.eq_of_getLsbD_eq
    intro i hi
    rw [BitVec.getLsbD_setWidth, BitVec.getLsbD_shiftLeft, BitVec.getLsbD_shiftLeft, BitVec.getLsbD_setWidth]
    simp [hi, show i < 32 by omega, show i - 8 < 32 by omega]
  rw [byteStep_table _ (by decide), crc16Assign, index_eq, hindex, BitVec.setWidth_xor, hshift, crc16tab_entry,
    BitVec.setWidth_setWidth_of_le _ (by decide), BitVec.setWidth_eq]

theorem crc16Loop_eq (buf : Bytes) : crc16Loop buf = crc16Xmodem buf := by
  have hstep : crc16Assign = byteStep 0x1021#16 := by
    funext crc c
    exact crc16Assign_eq crc c
  rw [crc16Loop, hstep]
  rfl

theorem generator_xmodem : generator 0x1021#16 = X ^ 16 + X ^ 12 + X ^ 5 + 1 := by
  have hbits : ∀ i < 16, (0x1021#16).getLsbD i = decide (i = 0 ∨ i = 5 ∨ i = 12) := by decide
  have hpoly : toPoly 0x1021#16 = X ^ 12 + X ^ 5 + 1 := by
    ext k
    rw [toPoly_coeff, coeff_add, coeff_add, coeff_X_pow, coeff_X_pow, coeff_one]
    by_cases hk : k < 16
    · rw [hbits k hk]
      by_cases h0 : k = 0
      · subst h0
        simp [bit]
      · by_cases h5 : k = 5
        · subst h5
          simp [bit]
        · by_cases h12 : k = 12
          · subst h12
            simp [bit]
          · simp [bit, h0, h5, h12]
    · rw [BitVec.getLsbD_of_ge _ k (by omega), if_neg (by omega), if_neg (by omega), if_neg (by omega)]
      simp [bit]
  rw [generator, hpoly, ← add_assoc, ← add_assoc]

/-- The table-driven `crc16`, evaluated in C's integers or in sixteen bits, is the shift register of
`x^16 + x^12 + x^5 + 1` from a cleared register, most significant bit first, for every key; and this is
the remainder of the key, moved up by sixteen places, over the field of two elements. -/
theorem crc16_remainder (buf : Bytes) :
    crc16Loop buf = (crc16 buf).toBitVec ∧
      crc16Loop buf = crc 0x1021#16 0#16 (buf.map UInt8.toBitVec) ∧
      toPoly (crc16Loop buf) = message (buf.map UInt8.toBitVec) * X ^ 16 %ₘ (X ^ 16 + X ^ 12 + X ^ 5 + 1) := by
  refine ⟨?_, ?_, ?_⟩
  · rw [crc16Loop_eq, crc16_eq]
  · rw [crc16Loop_eq, crc16Xmodem]
  · rw [crc16Loop_eq, crc16Xmodem, toPoly_crc _ (by decide), generator_xmodem]

/-- The check value of the standard, and one where the sign of the bytes would show. -/
example : crc16Loop (bytes "123456789") = 0x31c3#16 ∧ crc16Loop [0xff, 0x80] = (crc16 [0xff, 0x80]).toBitVec := by
  decide +kernel

end NgProxy.Cluster
