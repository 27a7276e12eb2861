import Kronos.Lib.Bisect
import Kronos.Ref.Crc32c
import Kronos.Ref.Event

/-!
# Data blocks and the index over them

A block is a count, the events of that many records, the least and the
greatest key, and a checksum. The index of a file has an entry for every block:
its first key, where it is, how long it is.

Counts and block sizes are cut to 32 bits where they are written.
-/

namespace Kronos

/-! ## Integers and keys -/

/-- `write_u32` of the block, index and filter, `w32` of the table. -/
def w32 (v : UInt32) : Bytes := write_le 4 v.toBitVec
def r32 (p : Bytes) : UInt32 := .ofBitVec (read_le 4 p)
def w64 (v : UInt64) : Bytes := write_le 8 v.toBitVec
def r64 (p : Bytes) : UInt64 := .ofBitVec (read_le 8 p)

/-- Records of `size` bytes one after the other: the reading loops. -/
def read_records {α : Type} (size : Nat) (decode : Bytes → α) : Nat → Bytes → List α
  | 0, _ => []
  | n + 1, p => decode (p.take size) :: read_records size decode n (p.drop size)

namespace Key

def kEncodedSize : Nat := 20

/-- Big-endian, so that the bytes compare as the keys do. -/
def encode (k : Key) : Bytes :=
  BigEndian.bytes 4 k.symbol_id.toBitVec ++
  BigEndian.bytes 8 k.timestamp_ns.toBitVec ++
  BigEndian.bytes 8 k.sequence_id.toBitVec

def decode (b : Bytes) : Key :=
  { symbol_id := .ofBitVec (BigEndian.value 32 4 b)
    timestamp_ns := .ofBitVec (BigEndian.value 64 8 (b.drop 4))
    sequence_id := .ofBitVec (BigEndian.value 64 8 (b.drop 12)) }

end Key

/-- What decoding and reading a table file throw. -/
inductive TableError where
  | block_too_small
  | block_size_mismatch
  | block_checksum_mismatch
  | index_too_small
  | index_truncated
  | filter_too_small
  | filter_truncated
  | meta_truncated
  /-- "SSTable too small: " -/
  | file_too_small
  | footer_read_failed
  | bad_magic
  | offsets_out_of_bounds
  | filter_read_failed
  | index_read_failed
  | meta_read_failed
  | block_read_failed
  deriving DecidableEq, Repr

/-! ## Building a block -/

structure BlockBuilder where
  target_bytes : Nat
  events : List Event := []

namespace BlockBuilder

/-- The bytes of a block of `n` events. -/
def encodedSize (n : Nat) : Nat := 4 + n * Event.kEncodedSize + Key.kEncodedSize * 2 + 4

/-- Refused when the block would grow over the target; the first event never is. -/
def add (e : Event) (b : BlockBuilder) : Bool × BlockBuilder :=
  let current_size := encodedSize b.events.length
  if b.events ≠ [] ∧ b.target_bytes < current_size + Event.kEncodedSize then (false, b)
  else (true, { b with events := b.events ++ [e] })

/-- Everything in front of the checksum. -/
def data (events : List Event) (min_k max_k : Key) : Bytes :=
  w32 (.ofNat events.length) ++ events.flatMap Event.encode ++ min_k.encode ++ max_k.encode

def finish (b : BlockBuilder) : Bytes :=
  match b.events.head?, b.events.getLast? with
  | some front, some back =>
      let min_k := b.events.foldl (fun k e => if e.key < k then e.key else k) front.key
      let max_k := b.events.foldl (fun k e => if k < e.key then e.key else k) back.key
      let buf := data b.events min_k max_k
      buf ++ w32 (crc32c buf)
  | _, _ => []

def reset (b : BlockBuilder) : BlockBuilder := { b with events := [] }

end BlockBuilder

/-! ## Reading a block -/

structure BlockMeta where
  min_key : Key
  max_key : Key
  record_count : UInt32
  encoded_size : UInt32
  deriving DecidableEq, Repr

structure Block where
  meta_ : BlockMeta
  events : List Event
  deriving DecidableEq, Repr

def Block.decode (data : Bytes) : Except TableError Block :=
  if data.length < 4 + Key.kEncodedSize * 2 + 4 then .error .block_too_small
  else
    let count := r32 data
    let expected := BlockBuilder.encodedSize count.toNat
    if data.length < expected then .error .block_size_mismatch
    else
      let stored_crc := r32 (data.drop (expected - 4))
      let computed_crc := crc32c (data.take (expected - 4))
      if stored_crc ≠ computed_crc then .error .block_checksum_mismatch
      else
        let p := data.drop 4
        let events := read_records Event.kEncodedSize Event.decode count.toNat p
        let p := p.drop (count.toNat * Event.kEncodedSize)
        let min_key := Key.decode (p.take Key.kEncodedSize)
        let p := p.drop Key.kEncodedSize
        let max_key := Key.decode (p.take Key.kEncodedSize)
        .ok ⟨⟨min_key, max_key, count, .ofNat expected⟩, events⟩

/-! ## The index -/

structure IndexEntry where
  first_key : Key
  block_offset : UInt64
  block_size : UInt32
  deriving DecidableEq, Repr

namespace IndexEntry

def kEncodedSize : Nat := 32

def encode (e : IndexEntry) : Bytes :=
  e.first_key.encode ++ w64 e.block_offset ++ w32 e.block_size

def decode (p : Bytes) : IndexEntry :=
  let first_key := Key.decode (p.take Key.kEncodedSize)
  let p := p.drop Key.kEncodedSize
  let block_offset := r64 p
  let p := p.drop 8
  { first_key, block_offset, block_size := r32 p }

end IndexEntry

structure IndexBlock where
  entries : List IndexEntry := []
  deriving DecidableEq, Repr

namespace IndexBlock

def add (first_key : Key) (offset : UInt64) (size : UInt32) (ib : IndexBlock) : IndexBlock :=
  { entries := ib.entries ++ [⟨first_key, offset, size⟩] }

/-- The loop over the entries from `i` on, up to one that starts above `end_`. -/
def push_from (end_ : Key) : Nat → List IndexEntry → List Nat
  | _, [] => []
  | i, e :: es => if end_ < e.first_key then [] else i :: push_from end_ (i + 1) es

def blocks_in_range (start end_ : Key) (ib : IndexBlock) : List Nat :=
  if ib.entries = [] then []
  else
    -- the last block whose first key is at or below `start`
    let first := Bisect.bisect (fun mid => ib.entries[mid]?.any (·.first_key ≤ start)) 0
      ib.entries.length
    push_from end_ first (ib.entries.drop first)

/-- `[count : 4] [entry : 32] ...` -/
def encode (ib : IndexBlock) : Bytes :=
  w32 (.ofNat ib.entries.length) ++ ib.entries.flatMap IndexEntry.encode

def decode (data : Bytes) : Except TableError IndexBlock :=
  if data.length < 4 then .error .index_too_small
  else
    let count := (r32 data).toNat
    if data.length < 4 + count * IndexEntry.kEncodedSize then .error .index_truncated
    else .ok ⟨read_records IndexEntry.kEncodedSize IndexEntry.decode count (data.drop 4)⟩

end IndexBlock

end Kronos
