import Mathlib.Logic.Function.Basic
import Mathlib.Logic.Function.Iterate
import Kronos.Ref.Compaction
import Kronos.Ref.SymbolTable
import Kronos.Ref.Wal

/-!
# The database

One `DB` with background compaction off: the calls of its clients one after
the other. What the calls do to files they do to `disk`, so a database that is
opened again starts from what the one before it left there.

The counter `next_seq_` wraps at 2^64, as a run of appends could show; the
file counter `sst_seq_` is a natural number, as it counts files.
-/

namespace Kronos

structure DBConfig where
  wal_enabled : Bool := true
  memtable_flush_bytes : Nat := 64 * 1024 * 1024
  wal_segment_bytes : Nat := 128 * 1024 * 1024
  sstable_target_bytes : Nat := 64 * 1024 * 1024
  deriving DecidableEq, Repr

abbrev kMaxLevels : Nat := 4

instance : NeZero kMaxLevels := ⟨by decide⟩

/-- The directory of a database. -/
structure Disk where
  symbol_table : Option Bytes := none
  wal : Option WalDir := none
  ssts : SSTableDir := ∅

abbrev Levels := Fin kMaxLevels → List SSTableInfo

structure DB where
  cfg : DBConfig
  closed : Bool := false
  symbols : SymbolTable := {}
  wal : Option WALWriter := none
  active_mem : MemTable
  imm_mems : List MemTable := []
  levels : Levels := fun _ => []
  next_seq : UInt64 := 1
  sst_seq : Nat := 1
  disk : Disk := {}

inductive DBError where
  /-- "DB is closed" -/
  | closed
  | wal (err : WalError)
  | sstable (err : SSTableError)
  deriving DecidableEq, Repr

abbrev DBResult := EStateM.Result DBError DB

structure AppendResult where
  sequence_id : UInt64
  wal_offset : Nat
  deriving DecidableEq, Repr

namespace DB

/-! ## Opening -/

/-- The files of `l<l>` that a reader can be constructed on, in directory order. -/
def load_level (ssts : SSTableDir) (listing : List SSTablePath) (l : Nat) : List SSTableInfo :=
  (listing.filter (·.dir = l)).filterMap fun path =>
    ((ssts.lookup path).bind SSTableFile.read_meta).map fun m => ⟨path, m⟩

/-- The order of the levels: by the number in the meta block. -/
def sort_level (infos : List SSTableInfo) : List SSTableInfo :=
  infos.insertionSort fun a b => a.meta_.sequence ≤ b.meta_.sequence

/-- Insert the recovered events, the `i`-th new node `heights i` high. -/
def replay (heights : Nat → Fin kMaxHeight) (records : List WALRecord) (m : MemTable) :
    MemTable :=
  records.zipIdx.foldl (fun m p => m.insert p.1.event (heights p.2)) m

/-- `next_seq_` after recovery: one more than the last record's. -/
def recovered_seq (records : List WALRecord) : UInt64 :=
  match records.getLast? with
  | some record => record.event.sequence_id + 1
  | none => 1

/-- `DB::open` on what is in memory only: the symbols, the levels, an empty
memtable. -/
def load (cfg : DBConfig) (disk : Disk) (listing : List SSTablePath) : DB :=
  { cfg
    symbols := (disk.symbol_table.map SymbolTable.load).getD {}
    active_mem := MemTable.new cfg.memtable_flush_bytes
    levels := fun l => sort_level (load_level disk.ssts listing l)
    disk }

/-- `listing` is the order directory iteration returns the table files in. -/
def open_ (cfg : DBConfig) (disk : Disk) (listing : List SSTablePath)
    (heights : Nat → Fin kMaxHeight) : DBResult Unit :=
  let db := load cfg disk listing
  if cfg.wal_enabled then
    match disk.wal with
    | some dir =>
        let (recovered, writer) := wal_recover dir cfg.wal_segment_bytes
        let db := { db with
          active_mem := replay heights recovered.records db.active_mem
          next_seq := recovered_seq recovered.records }
        match writer with
        | .error err s => .error (.wal err) { db with disk.wal := some s.dir }
        | .ok _ s => .ok () { db with wal := some s.writer, disk.wal := some s.dir }
    | none =>
        match WALWriter.create ∅ cfg.wal_segment_bytes with
        | .error err s => .error (.wal err) { db with disk.wal := some s.dir }
        | .ok _ s => .ok () { db with wal := some s.writer, disk.wal := some s.dir }
  else .ok () db

/-! ## Writing -/

/-- `symbols_->intern`, with the entry it appends to the file. -/
def intern (symbol : Bytes) (db : DB) : UInt32 × DB :=
  let (id, symbols, entry) := db.symbols.intern symbol
  (id, { db with
    symbols
    disk.symbol_table :=
      if entry = [] then db.disk.symbol_table
      else some (db.disk.symbol_table.getD [] ++ entry) })

/-- `if (wal_) wal_->append(e)`: the offset, 0 without a log. -/
def wal_append (e : Event) (io : AppendIO) (db : DB) : DBResult Nat :=
  match db.wal with
  | none => .ok 0 db
  | some writer =>
      match WALWriter.append e io ⟨db.disk.wal.getD ∅, writer⟩ with
      | .error err s => .error (.wal err) { db with wal := some s.writer, disk.wal := some s.dir }
      | .ok r s => .ok r.file_offset { db with wal := some s.writer, disk.wal := some s.dir }

/-- The critical section of `append` and `remove`. -/
def mem_insert (e : Event) (height : Fin kMaxHeight) (db : DB) : DB :=
  let active_mem := db.active_mem.insert e height
  if active_mem.should_flush then
    { db with
      imm_mems := db.imm_mems ++ [active_mem]
      active_mem := MemTable.new db.cfg.memtable_flush_bytes }
  else { db with active_mem }

/-- The last two steps of `append` and `remove`. -/
def log_and_insert (e : Event) (height : Fin kMaxHeight) (io : AppendIO) (db : DB) :
    DBResult AppendResult :=
  match db.wal_append e io with
  | .error err db => .error err db
  | .ok wal_offset db => .ok ⟨e.sequence_id, wal_offset⟩ (db.mem_insert e height)

/-- `args` carries the parameters of `append` beside the symbol; its symbol and
sequence ids are overwritten. -/
def append (symbol : Bytes) (args : Event) (height : Fin kMaxHeight) (io : AppendIO)
    (db : DB) : DBResult AppendResult :=
  if db.closed then .error .closed db
  else
    let (sym_id, db) := db.intern symbol
    let e := { args with symbol_id := sym_id, sequence_id := db.next_seq }
    log_and_insert e height io { db with next_seq := db.next_seq + 1 }

/-- The tombstone carries the key of the event it deletes. -/
def remove (symbol : Bytes) (timestamp_ns sequence_id : UInt64) (height : Fin kMaxHeight)
    (io : AppendIO) (db : DB) : DBResult AppendResult :=
  if db.closed then .error .closed db
  else
    let (sym_id, db) := db.intern symbol
    let e : Event :=
      { timestamp_ns, symbol_id := sym_id, sequence_id, event_type := .Tombstone }
    log_and_insert e height io db

/-! ## Flushing -/

/-- Write a table file; `O_TRUNC` drops what the path held. -/
def write_table (path : SSTablePath) (t : SSTable) (db : DB) : DB :=
  { db with disk.ssts := db.disk.ssts.insert path (.finished t) }

def flush_path (seq : Nat) : SSTablePath := ⟨0, .flushed seq⟩

def do_flush (mem : MemTable) (seq : Nat) (db : DB) : DB :=
  if mem.empty then db
  else
    let t := SSTable.write 0 seq mem.to_sorted_events
    let db := db.write_table (flush_path seq) t
    { db with levels := Function.update db.levels 0 (db.levels 0 ++ [⟨flush_path seq, t.meta_⟩]) }

/-- Rotate the active memtable out if there is something in it. -/
def rotate (db : DB) : DB :=
  if db.active_mem.empty then db
  else
    { db with
      imm_mems := db.imm_mems ++ [db.active_mem]
      active_mem := MemTable.new db.cfg.memtable_flush_bytes }

/-- One round of the draining loop: the oldest immutable memtable, under the
next file number. -/
def flush_front (db : DB) : DB :=
  match db.imm_mems with
  | [] => db
  | to_flush :: imm_mems =>
      do_flush to_flush db.sst_seq { db with imm_mems, sst_seq := db.sst_seq + 1 }

def drain (db : DB) : DB := flush_front^[db.imm_mems.length] db

def flush_now (db : DB) : DB := drain (rotate db)

/-- `symbols_->flush()` rewrites the symbol file from the map. -/
def close (db : DB) : DB :=
  if db.closed then db
  else
    let db := drain (rotate { db with closed := true })
    { db with disk.symbol_table := some db.symbols.flush }

/-! ## Compaction -/

/-- The files of the outputs, written one after the other. -/
def write_outputs (outputs : List SSTable) (db : DB) : DB :=
  outputs.foldl (fun db t => db.write_table (Compaction.output_path 1 t) t) db

/-- Remove the input files from disk. -/
def remove_inputs (l0_files : List SSTableInfo) (db : DB) : DB :=
  l0_files.foldl (fun db f => { db with disk.ssts := db.disk.ssts.erase f.path }) db

/-- The last critical section: exactly the compacted files leave level 0. -/
def switch_levels (l0_files : List SSTableInfo) (outputs : List SSTable) (db : DB) : DB :=
  let l0 := (db.levels 0).filter fun info => l0_files.all fun f => f.path ≠ info.path
  let l1 := sort_level
    (db.levels 1 ++ outputs.map fun t => ⟨Compaction.output_path 1 t, t.meta_⟩)
  { db with levels := Function.update (Function.update db.levels 0 l0) 1 l1 }

def do_compact_l0 (db : DB) : DBResult Unit :=
  let l0_files := db.levels 0
  if l0_files = [] then .ok () db
  else
    let seq := db.sst_seq
    let db := { db with sst_seq := db.sst_seq + 1 }
    match Compaction.run db.disk.ssts l0_files 1 seq db.cfg.sstable_target_bytes with
    | .error err => .error (.sstable err) db
    | .ok (outputs, _) =>
        let db := db.write_outputs outputs
        if outputs = [] then .ok () db
        else .ok () (switch_levels l0_files outputs (db.remove_inputs l0_files))

def compact_now (db : DB) : DBResult Unit := do_compact_l0 db

end DB

end Kronos
