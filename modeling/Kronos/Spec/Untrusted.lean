import Kronos.Ref.CheckedReader

/-!
# Opening a file of unknown content
-/

namespace Kronos.Spec

open Kronos Checked

/-- No access is outside of a buffer, neither when the file is opened nor when
the reader is used, with whatever block cache. -/
def SafeToOpen (path : SSTablePath) (file : Bytes) : Prop :=
  open_ path file ≠ .error .outside ∧
    ∀ r, open_ path file = .ok r →
      (∀ start end_, may_contain start end_ r ≠ .error .outside) ∧
      (∀ key cache, (get key cache r).fault ≠ some .outside) ∧
      ∀ (σ : Type) (cb : Callback σ) (s : σ) (start end_ : Key) (cache : Option BlockCache),
        (scan start end_ cb s cache r).fault ≠ some .outside

/-! ## What a file says about itself -/

/-- The last bytes of a file, where it has so many. -/
def footerOf (file : Bytes) : Option Bytes :=
  pread file kSSTableFooterSize (.ofNat file.length - .ofNat kSSTableFooterSize)

/-- The bytes that the offset and the length at `i` of the footer point at. -/
def part (file footer : Bytes) (i : Nat) : Option Bytes :=
  pread file (r64 (footer.drop (i + 8))).toNat (r64 (footer.drop i))

/-- What has to stand in a file for it to be opened. -/
structure WellFormed (file footer : Bytes) : Prop where
  long : kSSTableFooterSize ≤ file.length
  last : footerOf file = some footer
  magic : r32 (footer.drop 48) = kSSTableMagic
  /-- the sums are of 64 bits -/
  offsets : ∀ i ∈ [0, 16, 32],
    r64 (footer.drop i) + r64 (footer.drop (i + 8)) ≤ .ofNat file.length
  filter : r64 (footer.drop 8) ≠ 0 → ∃ buf, part file footer 0 = some buf ∧
    8 ≤ buf.length ∧ 8 + BloomFilter.byte_count (r32 (buf.drop 4)) ≤ buf.length
  index : ∃ buf, part file footer 16 = some buf ∧
    4 ≤ buf.length ∧ 4 + (r32 buf).toNat * IndexEntry.kEncodedSize ≤ buf.length
  info : ∃ buf, part file footer 32 = some buf ∧ 68 ≤ buf.length

/-- The filter is asked for at least one bit, and its number of bytes wraps. -/
def WidthWraps (file footer : Bytes) : Prop :=
  r64 (footer.drop 8) ≠ 0 ∧ ∃ buf, part file footer 0 = some buf ∧
    r32 buf ≠ 0 ∧ 2 ^ 32 ≤ (r32 (buf.drop 4)).toNat + 7

end Kronos.Spec
