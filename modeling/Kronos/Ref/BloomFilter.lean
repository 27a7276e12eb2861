import Kronos.Ref.Block

/-!
# The Bloom filter of a table

Bits at the positions `h1 + i * h2` modulo the number of bits, in 32-bit
arithmetic, for FNV-1a and a Murmur-style mix of the key's bytes.

How many bits and hashes a filter gets the constructor computes in floating
point: `FilterSize` is what `std::ceil` and `std::round` answer there.
-/

namespace Kronos

/-- `m_d` and `k_d` of the constructor. The number of bytes is computed in 32
bits, and wraps when `m_d` is within 7 of 2^32. -/
structure FilterSize where
  m_d : Nat
  k_d : Nat
  addressable : m_d + 7 < 2 ^ 32

/-- Of the 65536 items and the rate 0.01 that no caller of the writer changes. -/
def FilterSize.default : FilterSize := ⟨628167, 7, by decide⟩

structure BloomFilter where
  k : UInt32 := 0
  m : UInt32 := 0
  bits : Bytes := []
  deriving DecidableEq, Repr

namespace BloomFilter

/-- `(m_ + 7) / 8` -/
def byte_count (m : UInt32) : Nat := ((m + 7) / 8).toNat

/-- Without a key. -/
def blank (m k : UInt32) : BloomFilter := { k, m, bits := List.replicate (byte_count m) 0 }

/-- A filter for a number of items and a false-positive rate. -/
def new (size : FilterSize) : BloomFilter :=
  blank (.ofNat (max size.m_d 8)) (.ofNat (max size.k_d 1))

def empty (f : BloomFilter) : Bool := f.m = 0

def fnv1a (key : Bytes) : UInt32 :=
  key.foldl (fun hash b => (hash ^^^ b.toUInt32) * 16777619) 2166136261

def murmur_mix (key : Bytes) : UInt32 :=
  key.foldl (fun h b =>
    let h := h ^^^ b.toUInt32
    let h := (h ^^^ (h >>> 16)) * 0x45d9f3b
    let h := (h ^^^ (h >>> 16)) * 0x45d9f3b
    h ^^^ (h >>> 16)) 0xDEADBEEF

def set_bit (pos : UInt32) (f : BloomFilter) : BloomFilter :=
  { f with bits := f.bits.modify (pos / 8).toNat (· ||| ((1 : UInt32) <<< (pos % 8)).toUInt8) }

def get_bit (pos : UInt32) (f : BloomFilter) : Bool :=
  ((f.bits.getD (pos / 8).toNat 0).toUInt32 >>> (pos % 8)) &&& 1 ≠ 0

/-- The position of the `i`-th hash. -/
def position (m : UInt32) (key : Bytes) (i : Nat) : UInt32 :=
  (fnv1a key + .ofNat i * murmur_mix key) % m

def add (key : Bytes) (f : BloomFilter) : BloomFilter :=
  if f.m = 0 then f
  else (List.range f.k.toNat).foldl (fun f i => f.set_bit (position f.m key i)) f

def may_contain (key : Bytes) (f : BloomFilter) : Bool :=
  if f.m = 0 then true
  else (List.range f.k.toNat).all fun i => f.get_bit (position f.m key i)

/-- `[k : 4] [m : 4] [bits]` -/
def encode (f : BloomFilter) : Bytes := w32 f.k ++ w32 f.m ++ f.bits.take (byte_count f.m)

def decode (data : Bytes) : Except TableError BloomFilter :=
  if data.length < 8 then .error .filter_too_small
  else
    let k := r32 data
    let m := r32 (data.drop 4)
    if data.length < 8 + byte_count m then .error .filter_truncated
    else .ok { k, m, bits := (data.drop 8).take (byte_count m) }

end BloomFilter

end Kronos
