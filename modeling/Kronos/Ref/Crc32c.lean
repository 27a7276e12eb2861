import Kronos.Ref.Key

/-!
# CRC32C, table driven

One table lookup per byte, over a table of 256 words that eight single-bit
steps generate. The seed is XORed on entry and the result on exit, which is
what lets one call continue from the finished result of another.
-/

namespace Kronos

/-- One step of the inner `for (int j = 0; j < 8; ++j)`. -/
def crc32c_shift (crc : UInt32) : UInt32 :=
  if crc &&& 1 ≠ 0 then (crc >>> 1) ^^^ 0x82F63B78 else crc >>> 1

def crc32c_entry (i : UInt32) : UInt32 :=
  (List.range 8).foldl (fun crc _ => crc32c_shift crc) i

def crc32c_table : List UInt32 :=
  (List.range 256).map fun i => crc32c_entry (.ofNat i)

def crc32c_byte (crc : UInt32) (p : UInt8) : UInt32 :=
  (crc >>> 8) ^^^ crc32c_table.getD ((crc ^^^ p.toUInt32) &&& 0xFF).toNat 0

def crc32c (data : Bytes) (seed : UInt32 := 0) : UInt32 :=
  data.foldl crc32c_byte (seed ^^^ 0xFFFFFFFF) ^^^ 0xFFFFFFFF

end Kronos
