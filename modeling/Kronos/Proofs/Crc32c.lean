import Kronos.Spec.Crc32c

/-!
# The table-driven CRC is the bitwise one

A table entry is eight moves of its index, and a lookup with the register's low
byte makes up for the eight bits that a byte step takes at once. The XOR on
exit cancels against the one on the next entry, so checksums chain.
-/

namespace Kronos

open Spec

/-! ## Bytes against bits -/

theorem crc32c_low_bit (c : UInt32) : c &&& 1 ≠ 0 ↔ c.toBitVec.getLsbD 0 = true := by
  have hbit : (c &&& 1).toBitVec = BitVec.setWidth 32 (BitVec.ofBool (c.toBitVec.getLsbD 0)) := by
    rw [UInt32.toBitVec_and]
    exact BitVec.and_one_eq_setWidth_ofBool_getLsbD
  rw [ne_eq, ← UInt32.toBitVec_inj, hbit]
  cases c.toBitVec.getLsbD 0 <;> decide

theorem crc32c_shift_eq (c : UInt32) :
    (crc32c_shift c).toBitVec = Crc.shift castagnoli c.toBitVec := by
  rw [crc32c_shift, Crc.shift]
  simp only [crc32c_low_bit]
  split <;> rfl

theorem crc32c_entry_eq (i : UInt32) :
    (crc32c_entry i).toBitVec = (Crc.shift castagnoli)^[8] i.toBitVec := by
  simp only [crc32c_entry, List.range_succ, List.range_zero, List.nil_append, List.cons_append,
    List.foldl_cons, List.foldl_nil, crc32c_shift_eq]
  rfl

theorem crc32c_table_getD {i : Nat} (hi : i < 256) :
    crc32c_table.getD i 0 = crc32c_entry (.ofNat i) := by
  simp [crc32c_table, List.getD_eq_getElem?_getD, hi]

theorem crc32c_byte_eq (crc : UInt32) (p : UInt8) :
    (crc32c_byte crc p).toBitVec = Crc.run castagnoli crc.toBitVec (Crc.bits [p]) := by
  have hindex : ((crc ^^^ p.toUInt32) &&& 0xFF).toNat < 256 := by
    rw [UInt32.toNat_and]
    exact Nat.and_lt_two_pow _ (by decide : (0xFF : UInt32).toNat < 2 ^ 8)
  rw [crc32c_byte, crc32c_table_getD hindex, UInt32.ofNat_toNat, UInt32.toBitVec_xor,
    crc32c_entry_eq, Crc.run_byte castagnoli (by decide)]
  rfl

theorem foldl_crc32c_byte (crc : UInt32) (data : Bytes) :
    (data.foldl crc32c_byte crc).toBitVec =
      Crc.run castagnoli crc.toBitVec (Crc.bits data) := by
  induction data generalizing crc with
  | nil => rfl
  | cons p data ih =>
      rw [List.foldl_cons, ih, crc32c_byte_eq, Crc.bits_cons p data, Crc.run_append]

theorem crc32c_bitwise (data : Bytes) (seed : UInt32) :
    (crc32c data seed).toBitVec = bitwiseCrc data seed.toBitVec := by
  rw [crc32c, UInt32.toBitVec_xor, foldl_crc32c_byte, bitwiseCrc, UInt32.toBitVec_xor]
  rfl

/-! ## Chaining -/

theorem crc32c_append (a b : Bytes) (seed : UInt32) :
    crc32c b (crc32c a seed) = crc32c (a ++ b) seed := by
  have hcancel : ∀ crc : UInt32, crc ^^^ 0xFFFFFFFF ^^^ 0xFFFFFFFF = crc := by
    intro crc
    rw [UInt32.xor_assoc, UInt32.xor_self, UInt32.xor_zero]
  simp only [crc32c, hcancel, List.foldl_append]

theorem wal_crc_eq (version_and_len payload : Bytes) :
    wal_crc version_and_len payload = crc32c (version_and_len ++ payload) :=
  crc32c_append version_and_len payload 0

/-- `crc32c` is CRC-32C by its definition, and continues where it ended. -/
theorem crc32c_castagnoli :
    (∀ (data : Bytes) (seed : UInt32),
      (crc32c data seed).toBitVec = bitwiseCrc data seed.toBitVec) ∧
    (∀ (a b : Bytes) (seed : UInt32), crc32c b (crc32c a seed) = crc32c (a ++ b) seed) ∧
    ∀ version_and_len payload : Bytes,
      wal_crc version_and_len payload = crc32c (version_and_len ++ payload) :=
  ⟨crc32c_bitwise, crc32c_append, wal_crc_eq⟩

example : crc32c [0x31, 0x32, 0x33, 0x34, 0x35, 0x36, 0x37, 0x38, 0x39] = 0xE3069283 := by
  decide +kernel

end Kronos
