import Kronos.Ref.TableFile

/-!
# The reader with its accesses checked

The functions that read a table file once more, as they go about their buffers:
every access is at a position, and one outside the buffer is a fault of its own
instead of whatever stands in memory there. An exception is the other way a
function can fail.
-/

namespace Kronos.Checked

open Kronos

inductive Fault where
  | threw (err : TableError)
  /-- an access outside of a buffer -/
  | outside
  deriving DecidableEq, Repr

abbrev Result := Except Fault

/-- What only throws. -/
def lift {α : Type} : Except TableError α → Result α
  | .ok a => .ok a
  | .error err => .error (.threw err)

/-! ## Buffers -/

/-- `n` bytes from `i` on. -/
def span (buf : Bytes) (i n : Nat) : Result Bytes :=
  if i + n ≤ buf.length then .ok ((buf.drop i).take n) else .error .outside

def u32_at (buf : Bytes) (i : Nat) : Result UInt32 := (span buf i 4).map r32
def u64_at (buf : Bytes) (i : Nat) : Result UInt64 := (span buf i 8).map r64
def key_at (buf : Bytes) (i : Nat) : Result Key := (span buf i Key.kEncodedSize).map Key.decode

/-- A decoding loop: a pointer advanced by `size` after each of `n` records. -/
def records_at {α : Type} (size : Nat) (record : Nat → Result α) : Nat → Nat → Result (List α)
  | 0, _ => .ok []
  | n + 1, p => do
      let a ← record p
      let rest ← records_at size record n (p + size)
      .ok (a :: rest)

/-! ## The filter -/

def decode_filter (data : Bytes) : Result BloomFilter :=
  if data.length < 8 then .error (.threw .filter_too_small)
  else do
    let k ← u32_at data 0
    let m ← u32_at data 4
    if data.length < 8 + BloomFilter.byte_count m then .error (.threw .filter_truncated)
    else do
      let bits ← span data 8 (BloomFilter.byte_count m)
      .ok { k, m, bits }

def get_bit (pos : UInt32) (f : BloomFilter) : Result Bool :=
  match f.bits[(pos / 8).toNat]? with
  | none => .error .outside
  | some byte => .ok ((byte.toUInt32 >>> (pos % 8)) &&& 1 ≠ 0)

/-- The loop of `may_contain`. -/
def probe (key : Bytes) (f : BloomFilter) : List Nat → Result Bool
  | [] => .ok true
  | i :: is => do
      let set ← get_bit (BloomFilter.position f.m key i) f
      if set then probe key f is else .ok false

def filter_may_contain (key : Bytes) (f : BloomFilter) : Result Bool :=
  if f.m = 0 then .ok true else probe key f (List.range f.k.toNat)

/-! ## The index and the meta block -/

def entry_at (data : Bytes) (p : Nat) : Result IndexEntry := do
  let first_key ← key_at data p
  let block_offset ← u64_at data (p + Key.kEncodedSize)
  let block_size ← u32_at data (p + Key.kEncodedSize + 8)
  .ok { first_key, block_offset, block_size }

def decode_index (data : Bytes) : Result IndexBlock :=
  if data.length < 4 then .error (.threw .index_too_small)
  else do
    let count ← u32_at data 0
    if data.length < 4 + count.toNat * IndexEntry.kEncodedSize then
      .error (.threw .index_truncated)
    else do
      let entries ← records_at IndexEntry.kEncodedSize (entry_at data) count.toNat 4
      .ok ⟨entries⟩

/-- The search of `blocks_in_range`. -/
def find_start (start : Key) (entries : List IndexEntry) (lo hi : Nat) : Result Nat :=
  if lo + 1 < hi then
    let mid := (lo + hi) / 2
    match entries[mid]? with
    | none => .error .outside
    | some e =>
        if e.first_key ≤ start then find_start start entries mid hi
        else find_start start entries lo mid
  else .ok lo
termination_by hi - lo
decreasing_by all_goals omega

def blocks_in_range (start end_ : Key) (ib : IndexBlock) : Result (List Nat) :=
  if ib.entries = [] then .ok []
  else do
    let first ← find_start start ib.entries 0 ib.entries.length
    .ok (IndexBlock.push_from end_ first (ib.entries.drop first))

def decode_meta (d : Bytes) : Result StoredMeta :=
  if d.length < 68 then .error (.threw .meta_truncated)
  else do
    let event_count ← u64_at d 0
    let data_bytes ← u64_at d 8
    let min_key ← key_at d 16
    let max_key ← key_at d 36
    let level ← u32_at d 56
    let sequence ← u64_at d 60
    .ok
      { event_count := event_count.toNat
        data_bytes := data_bytes.toNat
        min_key
        max_key
        level := level.toNat
        sequence := sequence.toNat }

/-! ## Blocks -/

def event_at (data : Bytes) (p : Nat) : Result Event :=
  (span data p Event.kEncodedSize).map Event.decode

def decode_block (data : Bytes) : Result Block :=
  if data.length < 4 + Key.kEncodedSize * 2 + 4 then .error (.threw .block_too_small)
  else do
    let count ← u32_at data 0
    let expected := BlockBuilder.encodedSize count.toNat
    if data.length < expected then .error (.threw .block_size_mismatch)
    else do
      let stored_crc ← u32_at data (expected - 4)
      let summed ← span data 0 (expected - 4)
      if stored_crc ≠ crc32c summed then .error (.threw .block_checksum_mismatch)
      else do
        let events ← records_at Event.kEncodedSize (event_at data) count.toNat 4
        let p := 4 + count.toNat * Event.kEncodedSize
        let min_key ← key_at data p
        let max_key ← key_at data (p + Key.kEncodedSize)
        .ok ⟨⟨min_key, max_key, count, .ofNat expected⟩, events⟩

/-! ## The reader -/

def load_filter (file : Bytes) (filter_off filter_size : UInt64) : Result BloomFilter :=
  if filter_size = 0 then .ok {}
  else do
    let buf ← lift (SSTableReader.read_part file filter_size filter_off .filter_read_failed)
    decode_filter buf

def open_ (path : SSTablePath) (file : Bytes) : Result SSTableReader :=
  let file_size := UInt64.ofNat file.length
  if file.length < kSSTableFooterSize then .error (.threw .file_too_small)
  else
    match pread file kSSTableFooterSize (file_size - .ofNat kSSTableFooterSize) with
    | none => .error (.threw .footer_read_failed)
    | some footer => do
        let magic ← u32_at footer 48
        if magic ≠ kSSTableMagic then .error (.threw .bad_magic)
        else do
          let filter_off ← u64_at footer 0
          let filter_size ← u64_at footer 8
          let idx_off ← u64_at footer 16
          let idx_size ← u64_at footer 24
          let meta_off ← u64_at footer 32
          let meta_size ← u64_at footer 40
          if file_size < filter_off + filter_size ∨ file_size < idx_off + idx_size ∨
              file_size < meta_off + meta_size then .error (.threw .offsets_out_of_bounds)
          else do
            let filter ← load_filter file filter_off filter_size
            let idx_buf ← lift (SSTableReader.read_part file idx_size idx_off .index_read_failed)
            let index ← decode_index idx_buf
            let meta_buf ← lift (SSTableReader.read_part file meta_size meta_off .meta_read_failed)
            let info ← decode_meta meta_buf
            .ok { path, file, info, index, filter }

def read_block_at (offset : UInt64) (size : UInt32) (cache : Option BlockCache)
    (r : SSTableReader) : Result Block × Option BlockCache :=
  match cache with
  | none =>
      match pread r.file size.toNat offset with
      | none => (.error (.threw .block_read_failed), none)
      | some buf => (decode_block buf, none)
  | some cache =>
      let key : BlockKey := ⟨r.path, offset.toNat⟩
      match cache.get key with
      | (some node, cache) =>
          let cached := ((BlockCache.node? node cache.lru).map (·.data)).getD []
          (decode_block cached, some cache)
      | (none, cache) =>
          match pread r.file size.toNat offset with
          | none => (.error (.threw .block_read_failed), some cache)
          | some buf => (decode_block buf, some (cache.put key buf))

def may_contain (start end_ : Key) (r : SSTableReader) : Result Bool :=
  if end_ < r.info.min_key ∨ r.info.max_key < start then .ok false
  else if start = end_ ∧ ¬ r.filter.empty then filter_may_contain start.encode r.filter
  else .ok true

/-- What a scan leaves behind, and what stopped it. -/
structure Stopped (σ : Type) where
  state : σ
  cache : Option BlockCache
  fault : Option Fault := none

variable {σ : Type}

def scan_blocks (start end_ : Key) (cb : Callback σ) (r : SSTableReader) :
    List Nat → σ → Option BlockCache → Stopped σ
  | [], s, cache => ⟨s, cache, none⟩
  | bi :: rest, s, cache =>
      match r.index.entries[bi]? with
      | none => ⟨s, cache, none⟩
      | some entry =>
          match read_block_at entry.block_offset entry.block_size cache r with
          | (.error fault, cache) => ⟨s, cache, some fault⟩
          | (.ok blk, cache) =>
              match block_scan start end_ cb s blk.events with
              | (s, true) => scan_blocks start end_ cb r rest s cache
              | (s, false) => ⟨s, cache, none⟩

def scan (start end_ : Key) (cb : Callback σ) (s : σ) (cache : Option BlockCache)
    (r : SSTableReader) : Stopped σ :=
  match may_contain start end_ r with
  | .error fault => ⟨s, cache, some fault⟩
  | .ok false => ⟨s, cache, none⟩
  | .ok true =>
      match blocks_in_range start end_ r.index with
      | .error fault => ⟨s, cache, some fault⟩
      | .ok block_idxs => scan_blocks start end_ cb r block_idxs s cache

def get (key : Key) (cache : Option BlockCache) (r : SSTableReader) : Stopped (Option Event) :=
  match (if r.filter.empty then .ok true else filter_may_contain key.encode r.filter :
      Result Bool) with
  | .error fault => ⟨none, cache, some fault⟩
  | .ok false => ⟨none, cache, none⟩
  | .ok true => scan key key (fun _ e => (some e, false)) none cache r

end Kronos.Checked
