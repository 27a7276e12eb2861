import Kronos.Lib.Crc
import Kronos.Ref.Wal

/-!
# What the checksum is

CRC-32C by its definition, one bit of the message after the other, and what a
short burst of changed bytes is.
-/

namespace Kronos.Spec

/-- The Castagnoli polynomial, reflected. -/
def castagnoli : BitVec 32 := 0x82F63B78

/-- The bitwise CRC, all ones XORed in before and after. -/
def bitwiseCrc (data : Bytes) (seed : BitVec 32) : BitVec 32 :=
  Crc.run castagnoli (seed ^^^ 0xFFFFFFFF) (Crc.bits data) ^^^ 0xFFFFFFFF

/-- `q` is `p` with at most four bytes in a row replaced by others, between the
offsets `lo` and `hi`. -/
def Burst (lo hi : Nat) (p q : Bytes) : Prop :=
  ∃ u w1 w2 v : Bytes, p = u ++ w1 ++ v ∧ q = u ++ w2 ++ v ∧
    w1.length = w2.length ∧ w1.length ≤ 4 ∧ w1 ≠ w2 ∧ lo ≤ u.length ∧ u.length + w1.length ≤ hi

end Kronos.Spec
