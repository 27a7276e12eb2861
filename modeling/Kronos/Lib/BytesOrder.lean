import Kronos.Lib.LittleEndian

/-!
# Big-endian bytes compare as numbers

A byte string read from the left is a numeral in base 256. Between strings of
one length the lexicographic order is the order of those numerals, and the
numeral of a vector's big-endian bytes is the vector, so comparing the bytes is
comparing the vectors.
-/

namespace BigEndian

/-- The numeral of base 256 that a byte string spells. -/
def number (p : List UInt8) : Nat := p.foldl (fun v b => v * 256 + b.toNat) 0

theorem foldl_number (p : List UInt8) (v : Nat) :
    p.foldl (fun v b => v * 256 + b.toNat) v = v * 256 ^ p.length + number p := by
  induction p generalizing v with
  | nil => simp [number]
  | cons b p ih =>
      have hcons : number (b :: p) = p.foldl (fun v b => v * 256 + b.toNat) b.toNat := by
        simp [number]
      rw [List.foldl_cons, ih, hcons, ih b.toNat, List.length_cons, Nat.pow_succ]
      ring

@[simp] theorem number_nil : number [] = 0 := rfl

theorem number_cons (b : UInt8) (p : List UInt8) :
    number (b :: p) = b.toNat * 256 ^ p.length + number p := by
  rw [number, List.foldl_cons, Nat.zero_mul, Nat.zero_add, foldl_number]

theorem number_concat (p : List UInt8) (b : UInt8) :
    number (p ++ [b]) = number p * 256 + b.toNat := by
  rw [number, List.foldl_append]
  rfl

theorem number_lt_pow (p : List UInt8) : number p < 256 ^ p.length := by
  induction p with
  | nil => simp
  | cons b p ih =>
      have hb : b.toNat + 1 ≤ 256 := b.toNat_lt
      calc number (b :: p) = b.toNat * 256 ^ p.length + number p := number_cons b p
        _ < (b.toNat + 1) * 256 ^ p.length := by rw [Nat.succ_mul]; omega
        _ ≤ 256 * 256 ^ p.length := Nat.mul_le_mul_right _ hb
        _ = 256 ^ (p.length + 1) := by rw [Nat.pow_succ, Nat.mul_comm]

/-- The first byte that differs decides, on either side. -/
theorem number_lt_iff {p q : List UInt8} (h : p.length = q.length) :
    number p < number q ↔ p < q := by
  induction p generalizing q with
  | nil =>
      cases q with
      | nil => simp
      | cons c q => simp at h
  | cons b p ih =>
      cases q with
      | nil => simp at h
      | cons c q =>
          have hlen : p.length = q.length := by simpa using h
          have hp := number_lt_pow p
          have hq := number_lt_pow q
          rw [List.cons_lt_cons_iff, number_cons, number_cons, ← ih hlen, ← hlen]
          rw [← hlen] at hq
          rcases Nat.lt_trichotomy b.toNat c.toNat with hlt | heq | hgt
          · have hmul : (b.toNat + 1) * 256 ^ p.length ≤ c.toNat * 256 ^ p.length :=
              Nat.mul_le_mul_right _ hlt
            rw [Nat.succ_mul] at hmul
            have hbc : b < c := UInt8.lt_iff_toNat_lt.mpr hlt
            simp only [hbc, true_or, iff_true]
            omega
          · have hbc : b = c := UInt8.toNat_inj.mp heq
            simp [hbc]
          · have hmul : (c.toNat + 1) * 256 ^ p.length ≤ b.toNat * 256 ^ p.length :=
              Nat.mul_le_mul_right _ hgt
            rw [Nat.succ_mul] at hmul
            have hnot : ¬ b < c := fun hlt => by
              have := UInt8.lt_iff_toNat_lt.mp hlt
              omega
            have hne : b ≠ c := fun heq => by
              rw [heq] at hgt
              omega
            simp only [hnot, hne, false_or, false_and, iff_false]
            omega

/-! ## Fields one after the other -/

/-- Strings that start with fields of one length: the first field decides, and
where the two agree the rest does. -/
theorem append_lt_append_iff {p q r s : List UInt8} (h : p.length = q.length) :
    p ++ r < q ++ s ↔ p < q ∨ p = q ∧ r < s := by
  induction p generalizing q with
  | nil =>
      cases q with
      | nil => simp
      | cons c q => simp at h
  | cons b p ih =>
      cases q with
      | nil => simp at h
      | cons c q =>
          have hlen : p.length = q.length := by simpa using h
          rw [List.cons_append, List.cons_append, List.cons_lt_cons_iff, ih hlen,
            List.cons_lt_cons_iff, List.cons_eq_cons]
          tauto

/-- The last byte of a vector is its low eight bits, the ones in front of it
are those of what is left. -/
theorem bytes_succ {w n : Nat} (v : BitVec w) :
    bytes (n + 1) v = bytes n (v >>> 8) ++ [UInt8.ofBitVec (v.setWidth 8)] := by
  have htail : LittleEndian.bytes (n + 1) v =
      UInt8.ofBitVec (v.setWidth 8) :: LittleEndian.bytes n (v >>> 8) := by
    simp only [LittleEndian.bytes, List.range_succ_eq_map, List.map_cons, List.map_map,
      Nat.mul_zero, BitVec.ushiftRight_zero, List.cons.injEq, true_and]
    apply List.map_congr_left
    intro i _
    rw [Function.comp_apply, ← BitVec.shiftRight_add, Nat.mul_succ, Nat.add_comm]
  rw [bytes, htail, List.reverse_cons, bytes]

theorem number_bytes {w : Nat} (n : Nat) (v : BitVec w) :
    number (bytes n v) = v.toNat % 256 ^ n := by
  induction n generalizing v with
  | zero => simp [bytes, LittleEndian.bytes, Nat.mod_one]
  | succ n ih =>
      have hlow : (UInt8.ofBitVec (v.setWidth 8)).toNat = v.toNat % 256 := by
        simp [UInt8.toNat]
      have hrest : (v >>> 8).toNat = v.toNat / 256 := by
        simp [Nat.shiftRight_eq_div_pow]
      rw [bytes_succ, number_concat, ih, hlow, hrest, Nat.pow_succ, Nat.mul_comm (256 ^ n) 256,
        Nat.mod_mul]
      omega

theorem bytes_lt_iff {w n : Nat} (hw : w = 8 * n) (v u : BitVec w) :
    bytes n v < bytes n u ↔ v.toNat < u.toNat := by
  have hpow : 256 ^ n = 2 ^ w := by rw [hw, Nat.pow_mul]
  rw [← number_lt_iff (by simp), number_bytes, number_bytes, hpow,
    Nat.mod_eq_of_lt v.isLt, Nat.mod_eq_of_lt u.isLt]

theorem bytes_inj {w n : Nat} (hw : w = 8 * n) {v u : BitVec w} :
    bytes n v = bytes n u ↔ v = u := by
  constructor
  · intro h
    have hv := value_bytes hw v []
    rw [h, value_bytes hw] at hv
    exact hv.symm
  · intro h
    rw [h]

/-- Reading a byte string and writing it back. -/
theorem bytes_value {w n : Nat} (hw : w = 8 * n) {p : List UInt8} (hp : n ≤ p.length) :
    bytes n (value w n p) = p.take n := by
  have hlen : (p.take n).reverse.length = n := by simp [hp]
  have h := LittleEndian.bytes_value (p.take n).reverse
  rw [hlen] at h
  subst hw
  rw [bytes, value, h, List.reverse_reverse]

end BigEndian
