import Kronos.Spec.FileNumbers

/-!
# What sessions leave on disk

A session opens a directory, takes steps and ends, either after a step (`close`
is steps as well) or in the middle of one by a crash. The writes of a step are
made one after the other. Those that were finished are there after the crash,
the one that was interrupted leaves any prefix of its bytes, and those after it
leave nothing. Of a prefix of a table file nothing is known but that it is no
finished table.
-/

namespace Kronos.Spec

open Kronos

/-- The symbol and the event a write would log. -/
def written (db : DB) (s : Step) : Option (Bytes × Event) :=
  if db.closed then none
  else
    match s with
    | .append symbol args _ _ =>
        some (symbol, { args with
          symbol_id := (db.intern symbol).1
          sequence_id := db.next_seq })
    | .remove symbol timestamp_ns sequence_id _ _ =>
        some (symbol, { timestamp_ns
                        symbol_id := (db.intern symbol).1
                        sequence_id
                        event_type := .Tombstone })
    | _ => none

/-- The disk a crash before, in or after a step can leave. -/
inductive CrashLeaves (db : DB) : Step → Disk → Prop where
  | before (s : Step) : CrashLeaves db s db.disk
  | after (s : Step) : CrashLeaves db s (step db s).disk
  /-- in the entry of a symbol -/
  | symbol {s : Step} {symbol : Bytes} {e : Event} (hs : written db s = some (symbol, e))
      (k : Nat) :
      CrashLeaves db s { db.disk with
        symbol_table := some (db.disk.symbol_table.getD [] ++
          (db.symbols.intern symbol).2.2.take k) }
  /-- in the record, or between it and the next segment -/
  | record {s : Step} {symbol : Bytes} {e : Event} (hs : written db s = some (symbol, e))
      (stored : Nat) :
      CrashLeaves db s (Spec.after ((db.intern symbol).2.wal_append e ⟨stored, false⟩)).disk
  /-- in the file of a memtable -/
  | flush {mem : MemTable} {rest : List MemTable} (himm : db.imm_mems = mem :: rest)
      (hmem : mem.empty = false) (t : TornTable) :
      CrashLeaves db .flush_front { db.disk with
        ssts := db.disk.ssts.insert (DB.flush_path db.sst_seq) (.torn t) }
  /-- between two outputs of a compaction -/
  | between {outputs : List SSTable} {stats : CompactionStats}
      (hrun : Compaction.run db.disk.ssts (db.levels 0) 1 db.sst_seq
        db.cfg.sstable_target_bytes = .ok (outputs, stats)) (j : Nat) :
      CrashLeaves db .compact (db.write_outputs (outputs.take j)).disk
  /-- in an output of a compaction -/
  | output {outputs : List SSTable} {stats : CompactionStats}
      (hrun : Compaction.run db.disk.ssts (db.levels 0) 1 db.sst_seq
        db.cfg.sstable_target_bytes = .ok (outputs, stats)) {j : Nat} {u : SSTable}
      (hj : outputs[j]? = some u) (t : TornTable) :
      CrashLeaves db .compact { (db.write_outputs (outputs.take j)).disk with
        ssts := (db.write_outputs (outputs.take j)).disk.ssts.insert
          (Compaction.output_path 1 u) (.torn t) }
  /-- between removing two inputs of a compaction -/
  | removing {outputs : List SSTable} {stats : CompactionStats}
      (hrun : Compaction.run db.disk.ssts (db.levels 0) 1 db.sst_seq
        db.cfg.sstable_target_bytes = .ok (outputs, stats)) (hne : outputs ≠ []) (i : Nat) :
      CrashLeaves db .compact
        ((db.write_outputs outputs).remove_inputs ((db.levels 0).take i)).disk
  /-- in the symbol file that `close` rewrites -/
  | symbols (k : Nat) :
      CrashLeaves db .save_symbols { db.disk with
        symbol_table := some (db.symbols.flush.take k) }

/-- The database that `open` leaves, whether it returns or throws. -/
def opened (cfg : DBConfig) (disk : Disk) (listing : List SSTablePath)
    (heights : Nat → Fin kMaxHeight) : DB :=
  after (DB.open_ cfg disk listing heights)

/-- The directories that any number of sessions leave. -/
inductive Left : Disk → Prop where
  | new : Left {}
  /-- a crash while the log is opened -/
  | opening {disk : Disk} (h : Left disk) (wal : Option WalDir) : Left { disk with wal }
  | session {disk disk' : Disk} (h : Left disk) (cfg : DBConfig) (listing : List SSTablePath)
      (heights : Nat → Fin kMaxHeight) (steps : List Step) (s : Step)
      (hend : CrashLeaves (steps.foldl step (opened cfg disk listing heights)) s disk') :
      Left disk'

/-- Every file the run creates has a number above those of `loaded` and a path
that none of them has. -/
def Continues (loaded : List SSTableInfo) (db : DB) (steps : List Step) : Prop :=
  Run.Along step (fun db s => ∀ c ∈ created db s, ∀ info ∈ loaded,
    info.meta_.sequence < c.2 ∧ info.path ≠ c.1) db steps

end Kronos.Spec
