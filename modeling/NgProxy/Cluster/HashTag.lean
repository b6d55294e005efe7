/-
The slot of a key as Redis Cluster specifies it: CRC-16/XMODEM of the hash tag, modulo 16384. The
table-driven `crc16` is the shift register, and the two searches of `key_hash_slot` find the tag. A
Lua string is shorter than `2^31`, so its length is an `int`.
-/
import NgProxy.Cluster.Slot
import NgProxy.Lib.Crc

namespace NgProxy.Cluster

open Crc

/-! ## The specification -/

/-- CRC-16/XMODEM: polynomial `0x1021`, initial value 0, nothing reflected. -/
def crc16Xmodem (m : Bytes) : BitVec 16 := crc 0x1021#16 0#16 (m.map UInt8.toBitVec)

/-- What is behind the first `{`. -/
def afterBrace (key : Bytes) : Bytes := key.drop (key.idxOf 123 + 1)

/-- The hash tag: what is between the first `{` and the first `}` behind it, if there are both and
something is between them, and the whole key otherwise. -/
def hashTag (key : Bytes) : Bytes :=
  if 123 ∈ key ∧ 125 ∈ afterBrace key ∧ (afterBrace key).idxOf 125 ≠ 0 then
    (afterBrace key).take ((afterBrace key).idxOf 125)
  else key

/-! ## `crc16` -/

/-- The table holds what eight shifts make of each byte. -/
theorem crc16tab_entry (i : BitVec 8) : (crc16tab.getD i.toNat 0).toBitVec = tableEntry 0x1021#16 i := by
  have hall : ∀ i : Fin 256, (crc16tab.getD i 0).toBitVec = tableEntry 0x1021#16 (BitVec.ofFin i) := by decide +kernel
  exact hall i.toFin

theorem crc16_step (c : UInt16) (b : UInt8) :
    ((c <<< 8) ^^^ crc16tab.getD (((c >>> 8) ^^^ b.toUInt16) &&& 0x00ff).toNat 0).toBitVec =
      byteStep 0x1021#16 c.toBitVec b.toBitVec := by
  have hindex : (((c >>> 8) ^^^ b.toUInt16) &&& 0x00ff).toNat =
      ((c.toBitVec >>> 8).setWidth 8 ^^^ b.toBitVec).toNat := by
    have hlow : ∀ n : Nat, n &&& 255 = n % 256 :=
      fun n => Nat.and_two_pow_sub_one_eq_mod n 8
    have hb : b.toNat % 256 = b.toNat := Nat.mod_eq_of_lt b.toNat_lt
    simp only [UInt16.toNat_and, UInt16.toNat_xor, UInt16.toNat_shiftRight, UInt16.reduceToNat, UInt8.toNat_toUInt16,
      BitVec.toNat_xor, BitVec.toNat_setWidth, BitVec.toNat_ushiftRight, UInt16.toNat_toBitVec, UInt8.toNat_toBitVec,
      hlow, Nat.reduceMod]
    rw [Nat.xor_mod_two_pow (n := 8), show 2 ^ 8 = 256 from rfl, hb]
  rw [byteStep_table _ (by decide), hindex, UInt16.toBitVec_xor, crc16tab_entry]
  rfl

theorem crc16_eq (buf : Bytes) : (crc16 buf).toBitVec = crc16Xmodem buf := by
  have hfold : ∀ c : UInt16, (buf.foldl (fun (crc : UInt16) (b : UInt8) =>
      (crc <<< 8) ^^^ crc16tab.getD (((crc >>> 8) ^^^ b.toUInt16) &&& 0x00ff).toNat 0) c).toBitVec =
        (buf.map UInt8.toBitVec).foldl (byteStep 0x1021#16) c.toBitVec := by
    induction buf with
    | nil => exact fun c => rfl
    | cons b buf ih =>
      intro c
      rw [List.foldl_cons, List.map_cons, List.foldl_cons, ih, crc16_step]
  exact hfold 0

/-- Fourteen bits of the check value. -/
theorem crc16_slot (buf : Bytes) : (crc16 buf &&& 0x3fff).toNat = (crc16Xmodem buf).toNat % 16384 := by
  rw [UInt16.toNat_and, ← UInt16.toNat_toBitVec, crc16_eq]
  exact Nat.and_two_pow_sub_one_eq_mod _ 14

/-! ## The tag -/

/-- A search up to the first `d`, by its position. -/
theorem search_idxOf (d : UInt8) (l : Bytes) :
    l.takeWhile (· ≠ d) = l.take (l.idxOf d) ∧ l.dropWhile (· ≠ d) = l.drop (l.idxOf d) := by
  induction l with
  | nil => exact ⟨rfl, rfl⟩
  | cons c l ih =>
    by_cases h : c = d
    · subst h
      simp
    · rw [List.idxOf_cons_ne l h]
      simpa [h] using ih

theorem drop_idxOf {d : UInt8} {l : Bytes} (h : d ∈ l) : l.drop (l.idxOf d) = d :: l.drop (l.idxOf d + 1) := by
  rw [← List.getElem_cons_drop (List.idxOf_lt_length_iff.2 h), List.getElem_idxOf]

theorem keyHashSlot_tag (key : Bytes) : keyHashSlot key = (crc16 (hashTag key) &&& 0x3fff).toNat := by
  unfold keyHashSlot hashTag
  rw [(search_idxOf 123 key).2]
  by_cases hopen : 123 ∈ key
  · rw [drop_idxOf hopen]
    dsimp only
    rw [← afterBrace, (search_idxOf 125 _).1, (search_idxOf 125 _).2]
    by_cases hclose : 125 ∈ afterBrace key
    · rw [drop_idxOf hclose]
      by_cases hnext : (afterBrace key).idxOf 125 = 0
      · rw [if_neg (by simp [hnext]), hnext]
        rfl
      · rw [if_pos ⟨hopen, hclose, hnext⟩]
        rcases htag : (afterBrace key).take ((afterBrace key).idxOf 125) with _ | ⟨b, t⟩
        · have hlen := congrArg List.length htag
          rw [List.length_take, Nat.min_eq_left List.idxOf_le_length] at hlen
          exact absurd hlen hnext
        · rfl
    · rw [if_neg (by simp [hclose]), List.drop_of_length_le (by rw [List.idxOf_eq_length hclose])]
  · rw [if_neg (by simp [hopen]), List.drop_of_length_le (by rw [List.idxOf_eq_length hopen])]

/-- A tag in braces is found whatever is around it. -/
theorem hashTag_braces {p t s : Bytes} (hp : 123 ∉ p) (ht : 125 ∉ t) (hne : t ≠ []) :
    hashTag (p ++ 123 :: (t ++ 125 :: s)) = t := by
  have hafter : afterBrace (p ++ 123 :: (t ++ 125 :: s)) = t ++ 125 :: s := by
    rw [afterBrace, List.idxOf_append_of_notMem hp, List.idxOf_cons_self, Nat.add_zero, List.drop_append]
    simp
  have hindex : (t ++ 125 :: s).idxOf 125 = t.length := by
    rw [List.idxOf_append_of_notMem ht, List.idxOf_cons_self, Nat.add_zero]
  unfold hashTag
  rw [hafter, hindex, if_pos (by simp [hne])]
  simp

/-- `key_hash_slot` is the slot function of Redis Cluster, and keys with the same tag in their first
braces are in the same slot. -/
theorem keyHashSlot_spec :
    (∀ key : Bytes, keyHashSlot key = (crc16Xmodem (hashTag key)).toNat % 16384) ∧
      ∀ p p' t s s' : Bytes, 123 ∉ p → 123 ∉ p' → 125 ∉ t → t ≠ [] →
        keyHashSlot (p ++ 123 :: (t ++ 125 :: s)) = keyHashSlot (p' ++ 123 :: (t ++ 125 :: s')) := by
  constructor
  · intro key
    rw [keyHashSlot_tag, crc16_slot]
  · intro p p' t s s' hp hp' ht hne
    rw [keyHashSlot_tag, keyHashSlot_tag, hashTag_braces hp ht hne, hashTag_braces hp' ht hne]

theorem keyHashSlot_spec_user :
    keyHashSlot ([] ++ 123 :: (bytes "user" ++ 125 :: bytes ".a")) =
      keyHashSlot (bytes "b" ++ 123 :: (bytes "user" ++ 125 :: bytes "\x7d\x7b")) :=
  keyHashSlot_spec.2 [] (bytes "b") (bytes "user") (bytes ".a") (bytes "\x7d\x7b") (by decide) (by decide) (by decide)
    (by decide)

end NgProxy.Cluster
