import Mathlib.Data.List.GetD
import Mathlib.Data.BitVec
import Mathlib.Tactic.Ring

/-!
# Little-endian bytes of a bit-vector

Every on-disk integer is a bit-vector written least significant byte first.
Both directions are spelled the way a shift-and-mask loop computes them: byte
`i` is the vector shifted right by `8 * i` and cut to eight bits, and reading
back is the OR of the bytes shifted into place.

The two round trips are proved bit by bit. Bit `j` of the value is bit `j % 8`
of byte `j / 8`, on either side, and once that is said neither the width nor
the sign of the integer matters: an arithmetic shift and a logical one agree
on every bit a byte of the vector can hold.
-/

namespace LittleEndian

/-- The `n` bytes of a vector, least significant first. -/
def bytes {w : Nat} (n : Nat) (v : BitVec w) : List UInt8 :=
  (List.range n).map fun i => UInt8.ofBitVec ((v >>> (8 * i)).setWidth 8)

/-- The same loop where `>>` is arithmetic, as it is on a signed integer. -/
def sbytes {w : Nat} (n : Nat) (v : BitVec w) : List UInt8 :=
  (List.range n).map fun i => UInt8.ofBitVec ((v.sshiftRight (8 * i)).setWidth 8)

/-- The vector whose low `n` bytes are the first `n` of the list. -/
def value (w n : Nat) (p : List UInt8) : BitVec w :=
  (List.range n).foldl
    (fun v i => v ||| ((p.getD i 0).toBitVec.setWidth w <<< (8 * i))) 0

@[simp] theorem bytes_length {w n : Nat} (v : BitVec w) : (bytes n v).length = n := by
  simp [bytes]

@[simp] theorem sbytes_length {w n : Nat} (v : BitVec w) : (sbytes n v).length = n := by
  simp [sbytes]

theorem bytes_getD {w n i : Nat} (v : BitVec w) (h : i < n) :
    (bytes n v).getD i 0 = UInt8.ofBitVec ((v >>> (8 * i)).setWidth 8) := by
  simp [bytes, List.getD_eq_getElem?_getD, h]

/-- Bit `j` of a value is bit `j % 8` of byte `j / 8`. -/
theorem value_getLsbD {w : Nat} (p : List UInt8) :
    ∀ n j : Nat, j < w →
      (value w n p).getLsbD j =
        (decide (j < 8 * n) && (p.getD (j / 8) 0).toBitVec.getLsbD (j % 8)) := by
  intro n
  induction n with
  | zero => intro j _; simp [value]
  | succ n ih =>
      intro j hj
      have hstep : value w (n + 1) p =
          value w n p ||| ((p.getD n 0).toBitVec.setWidth w <<< (8 * n)) := by
        simp [value, List.range_succ]
      rw [hstep, BitVec.getLsbD_or, ih j hj, BitVec.getLsbD_shiftLeft,
        BitVec.getLsbD_setWidth]
      rcases Nat.lt_or_ge j (8 * n) with hlt | hge
      · simp [hlt, hj, show j < 8 * (n + 1) by omega]
      · rcases Nat.lt_or_ge j (8 * (n + 1)) with hin | hout
        · have hdiv : j / 8 = n := by omega
          have hmod : j % 8 = j - 8 * n := by omega
          simp [hj, hin, hdiv, hmod, show ¬ j < 8 * n by omega,
            show j - 8 * n < w by omega]
        · have hbig : (p.getD n 0).toBitVec.getLsbD (j - 8 * n) = false :=
            BitVec.getLsbD_of_ge _ _ (by omega)
          simp only [hbig]
          simp [show ¬ j < 8 * n by omega, show ¬ j < 8 * (n + 1) by omega]

/-- Only the first `n` bytes are read. -/
theorem value_congr {w n : Nat} {p q : List UInt8}
    (h : ∀ i < n, p.getD i 0 = q.getD i 0) : value w n p = value w n q := by
  apply BitVec.eq_of_getLsbD_eq
  intro j hj
  rw [value_getLsbD p n j hj, value_getLsbD q n j hj]
  by_cases hlt : j < 8 * n
  · rw [h (j / 8) (by omega)]
  · simp [hlt]

theorem value_append {w : Nat} (p q : List UInt8) :
    value w p.length (p ++ q) = value w p.length p :=
  value_congr fun i hi => by rw [List.getD_append _ _ _ _ hi]

/-- Writing a vector and reading it back. -/
theorem value_bytes {w n : Nat} (hw : w = 8 * n) (v : BitVec w) :
    value w n (bytes n v) = v := by
  subst hw
  apply BitVec.eq_of_getLsbD_eq
  intro j hj
  rw [value_getLsbD _ n j hj, bytes_getD v (by omega)]
  simp [hj, BitVec.getLsbD_ushiftRight, show j % 8 < 8 by omega,
    show 8 * (j / 8) + j % 8 = j by omega]

/-- The sign does not reach a byte of the vector. -/
theorem sbytes_eq_bytes {w n : Nat} (hw : w = 8 * n) (v : BitVec w) :
    sbytes n v = bytes n v := by
  subst hw
  apply List.map_congr_left
  intro i hi
  rw [List.mem_range] at hi
  congr 1
  apply BitVec.eq_of_getLsbD_eq
  intro k hk
  have hin : 8 * i + k < 8 * n := by omega
  rw [BitVec.getLsbD_setWidth, BitVec.getLsbD_setWidth, BitVec.getLsbD_sshiftRight,
    BitVec.getLsbD_ushiftRight]
  simp [hin, show ¬ 8 * n ≤ k by omega]

/-- Reading a byte string and writing it back. -/
theorem bytes_value (p : List UInt8) :
    bytes p.length (value (8 * p.length) p.length p) = p := by
  apply List.ext_getElem
  · simp
  · intro i h₁ h₂
    have hi : i < p.length := h₂
    simp only [bytes, List.getElem_map, List.getElem_range]
    rw [← UInt8.toBitVec_inj]
    apply BitVec.eq_of_getLsbD_eq
    intro k hk
    rw [BitVec.getLsbD_setWidth, BitVec.getLsbD_ushiftRight,
      value_getLsbD _ _ _ (by omega)]
    simp [hk, show 8 * i + k < 8 * p.length by omega,
      show (8 * i + k) / 8 = i by omega, show (8 * i + k) % 8 = k by omega,
      List.getD_eq_getElem?_getD, hi]

end LittleEndian

namespace BigEndian

/-- The `n` bytes of a vector, most significant first. -/
def bytes {w : Nat} (n : Nat) (v : BitVec w) : List UInt8 := (LittleEndian.bytes n v).reverse

/-- The vector whose low `n` bytes are the first `n` of the list, last to first. -/
def value (w n : Nat) (p : List UInt8) : BitVec w := LittleEndian.value w n (p.take n).reverse

@[simp] theorem bytes_length {w n : Nat} (v : BitVec w) : (bytes n v).length = n := by
  simp [bytes]

theorem value_bytes {w n : Nat} (hw : w = 8 * n) (v : BitVec w) (r : List UInt8) :
    value w n (bytes n v ++ r) = v := by
  have htake : (bytes n v ++ r).take n = bytes n v := by
    conv_lhs => arg 1; rw [← bytes_length (n := n) v]
    exact List.take_left
  rw [value, htake, bytes, List.reverse_reverse, LittleEndian.value_bytes hw]

end BigEndian
