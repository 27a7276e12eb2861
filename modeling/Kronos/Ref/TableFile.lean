import Kronos.Ref.BlockCache
import Kronos.Ref.BloomFilter

/-!
# The bytes of a table file

`SSTableWriter` appends data blocks as they fill up, then the filter, the
index, the meta block and a footer that says where they are. `SSTableReader`
goes the other way, and reads the blocks that the index names for a range, one
after the other, through the block cache if it has one.

Writes go through; a file is the bytes written to it. Offsets on the writing
side are natural numbers and are cut to 64 bits where they are stored.
-/

namespace Kronos

def kSSTableMagic : UInt32 := 0x4B535354
def kSSTableVersion : UInt32 := 2
def kSSTableFooterSize : Nat := 56

/-! ## The meta block -/

/-- The meta block with the length of the data blocks. -/
structure StoredMeta extends SSTableMeta where
  data_bytes : Nat
  deriving DecidableEq, Repr

def encode_meta (m : StoredMeta) : Bytes :=
  w64 (.ofNat m.event_count) ++ w64 (.ofNat m.data_bytes) ++ m.min_key.encode ++
    m.max_key.encode ++ w32 (.ofNat m.level) ++ w64 (.ofNat m.sequence)

def decode_meta (d : Bytes) : Except TableError StoredMeta :=
  if d.length < 68 then .error .meta_truncated
  else
    let p := d
    let event_count := (r64 p).toNat
    let p := p.drop 8
    let data_bytes := (r64 p).toNat
    let p := p.drop 8
    let min_key := Key.decode (p.take 20)
    let p := p.drop 20
    let max_key := Key.decode (p.take 20)
    let p := p.drop 20
    let level := (r32 p).toNat
    let p := p.drop 4
    let sequence := (r64 p).toNat
    .ok { event_count, data_bytes, min_key, max_key, level, sequence }

/-! ## Writing -/

structure SSTableWriter where
  level : Nat
  sequence : Nat
  /-- what `write_bytes` wrote; its length is `write_offset_` -/
  file : Bytes := []
  builder : BlockBuilder
  index : IndexBlock := {}
  filter : BloomFilter
  event_count : Nat := 0
  min_key : Key := ⟨0, 0, 0⟩
  max_key : Key := ⟨0, 0, 0⟩
  has_any : Bool := false

namespace SSTableWriter

def new (level sequence block_target_bytes : Nat) (filter : BloomFilter) : SSTableWriter :=
  { level, sequence, builder := { target_bytes := block_target_bytes }, filter }

def write_bytes (data : Bytes) (w : SSTableWriter) : SSTableWriter :=
  { w with file := w.file ++ data }

def flush_block (w : SSTableWriter) : SSTableWriter :=
  match w.builder.events.head? with
  | none => w
  | some front =>
      let block_data := w.builder.finish
      let offset := w.file.length
      let w := w.write_bytes block_data
      { w with
        index := w.index.add front.key (.ofNat offset) (.ofNat block_data.length)
        builder := w.builder.reset }

def add (e : Event) (w : SSTableWriter) : SSTableWriter :=
  let w := { w with
    min_key := if w.has_any then w.min_key else e.key
    has_any := true
    max_key := e.key
    event_count := w.event_count + 1
    filter := w.filter.add e.key.encode }
  match w.builder.add e with
  | (true, builder) => { w with builder }
  | (false, _) =>
      let w := w.flush_block
      { w with builder := (w.builder.add e).2 }

def footer (filter_off filter_size idx_off idx_size meta_off meta_size : Nat) : Bytes :=
  w64 (.ofNat filter_off) ++ w64 (.ofNat filter_size) ++ w64 (.ofNat idx_off) ++
    w64 (.ofNat idx_size) ++ w64 (.ofNat meta_off) ++ w64 (.ofNat meta_size) ++
    w32 kSSTableMagic ++ w32 kSSTableVersion

/-- The file, and the meta block that is answered. -/
def finish (w : SSTableWriter) : Bytes × StoredMeta :=
  let w := w.flush_block
  let filter_data := w.filter.encode
  let filter_off := w.file.length
  let w := w.write_bytes filter_data
  let idx_data := w.index.encode
  let idx_off := w.file.length
  let w := w.write_bytes idx_data
  let meta_ : StoredMeta :=
    { event_count := w.event_count
      data_bytes := filter_off
      min_key := w.min_key
      max_key := w.max_key
      level := w.level
      sequence := w.sequence }
  let meta_data := encode_meta meta_
  let meta_off := w.file.length
  let w := w.write_bytes meta_data
  let w := w.write_bytes
    (footer filter_off filter_data.length idx_off idx_data.length meta_off meta_data.length)
  (w.file, meta_)

/-- A writer constructed, every event added, finished. -/
def write (level sequence block_target_bytes : Nat) (filter : BloomFilter)
    (events : List Event) : Bytes × StoredMeta :=
  (events.foldl (fun w e => w.add e) (new level sequence block_target_bytes filter)).finish

end SSTableWriter

/-! ## Reading -/

/-- `pread(2)` of a whole buffer; a negative `off_t` is refused. -/
def pread (file : Bytes) (size : Nat) (offset : UInt64) : Option Bytes :=
  let buf := (file.drop offset.toNat).take size
  if offset.toNat < 2 ^ 63 ∧ buf.length = size then some buf else none

structure SSTableReader where
  path : SSTablePath
  file : Bytes
  info : StoredMeta
  index : IndexBlock
  filter : BloomFilter

/-- What a scan leaves behind, and what it threw. -/
structure Scanned (σ : Type) where
  state : σ
  cache : Option BlockCache
  threw : Option TableError := none

namespace SSTableReader

/-- `pread` into a buffer of its own, or throw. -/
def read_part (file : Bytes) (size offset : UInt64) (err : TableError) :
    Except TableError Bytes :=
  match pread file size.toNat offset with
  | none => .error err
  | some buf => .ok buf

/-- An absent filter block leaves the empty filter. -/
def load_filter (file : Bytes) (filter_off filter_size : UInt64) :
    Except TableError BloomFilter :=
  if filter_size = 0 then .ok {}
  else (read_part file filter_size filter_off .filter_read_failed).bind BloomFilter.decode

/-- The constructor, with `load_footer_and_index`. -/
def open_ (path : SSTablePath) (file : Bytes) : Except TableError SSTableReader :=
  let file_size := UInt64.ofNat file.length
  if file.length < kSSTableFooterSize then .error .file_too_small
  else
    match pread file kSSTableFooterSize (file_size - .ofNat kSSTableFooterSize) with
    | none => .error .footer_read_failed
    | some footer =>
        let magic := r32 (footer.drop 48)
        if magic ≠ kSSTableMagic then .error .bad_magic
        else
          let filter_off := r64 footer
          let filter_size := r64 (footer.drop 8)
          let idx_off := r64 (footer.drop 16)
          let idx_size := r64 (footer.drop 24)
          let meta_off := r64 (footer.drop 32)
          let meta_size := r64 (footer.drop 40)
          if file_size < filter_off + filter_size ∨ file_size < idx_off + idx_size ∨
              file_size < meta_off + meta_size then .error .offsets_out_of_bounds
          else do
            let filter ← load_filter file filter_off filter_size
            let index ← (read_part file idx_size idx_off .index_read_failed).bind IndexBlock.decode
            let info ← (read_part file meta_size meta_off .meta_read_failed).bind decode_meta
            .ok { path, file, info, index, filter }

/-- The block, and the cache if there is one. -/
def read_block_at (offset : UInt64) (size : UInt32) (cache : Option BlockCache)
    (r : SSTableReader) : Except TableError Block × Option BlockCache :=
  match cache with
  | none =>
      match pread r.file size.toNat offset with
      | none => (.error .block_read_failed, none)
      | some buf => (Block.decode buf, none)
  | some cache =>
      let key : BlockKey := ⟨r.path, offset.toNat⟩
      match cache.get key with
      | (some node, cache) =>
          let cached := ((BlockCache.node? node cache.lru).map (·.data)).getD []
          (Block.decode cached, some cache)
      | (none, cache) =>
          match pread r.file size.toNat offset with
          | none => (.error .block_read_failed, some cache)
          | some buf => (Block.decode buf, some (cache.put key buf))

/-- Coarse by the keys of the meta block, and by the filter for a single key. -/
def may_contain (start end_ : Key) (r : SSTableReader) : Bool :=
  if end_ < r.info.min_key ∨ r.info.max_key < start then false
  else if start = end_ ∧ ¬ r.filter.empty then r.filter.may_contain start.encode
  else true

variable {σ : Type}

/-- The loop of `scan` over the entries that the index names. -/
def scan_blocks (start end_ : Key) (cb : Callback σ) (r : SSTableReader) :
    List Nat → σ → Option BlockCache → Scanned σ
  | [], s, cache => ⟨s, cache, none⟩
  | bi :: rest, s, cache =>
      match r.index.entries[bi]? with
      | none => ⟨s, cache, none⟩
      | some entry =>
          match r.read_block_at entry.block_offset entry.block_size cache with
          | (.error err, cache) => ⟨s, cache, some err⟩
          | (.ok blk, cache) =>
              match block_scan start end_ cb s blk.events with
              | (s, true) => scan_blocks start end_ cb r rest s cache
              | (s, false) => ⟨s, cache, none⟩

def scan (start end_ : Key) (cb : Callback σ) (s : σ) (cache : Option BlockCache)
    (r : SSTableReader) : Scanned σ :=
  if r.may_contain start end_ then
    r.scan_blocks start end_ cb (r.index.blocks_in_range start end_) s cache
  else ⟨s, cache, none⟩

/-- `out` is `found` when there is one. -/
def get (key : Key) (cache : Option BlockCache) (r : SSTableReader) : Scanned (Option Event) :=
  if ¬ r.filter.empty ∧ ¬ r.filter.may_contain key.encode then ⟨none, cache, none⟩
  else r.scan key key (fun _ e => (some e, false)) none cache

end SSTableReader

end Kronos
