import Kronos.Spec.Crash

/-!
# A compaction that is cut short

`do_compact_l0` writes its outputs one after the other, removes its inputs one
after the other and switches the levels. An exception or a crash can end it
anywhere in between; the database that is opened afterwards has nothing to go
by but the files in the level directories.
-/

namespace Kronos.Spec

open Kronos

/-- What is left of an output that was not finished. -/
inductive Unfinished where
  /-- its file was not opened yet, or cannot be -/
  | untouched
  /-- by an exception: `~SSTableWriter` removes the file -/
  | removed
  /-- by a crash -/
  | torn (t : TornTable)

inductive CutPoint where
  /-- with `j` outputs finished; the inputs are read before the first of them -/
  | output (j : Nat) (rest : Unfinished)
  /-- with all outputs finished and `i` inputs removed -/
  | removing (i : Nat)

/-- The table files at a cut point of the compaction that writes `outputs`. -/
def cutTables (db : DB) (outputs : List SSTable) : CutPoint → SSTableDir
  | .output j rest =>
      let ssts := (db.write_outputs (outputs.take j)).disk.ssts
      match outputs[j]? with
      | none => ssts
      | some u =>
          match rest with
          | .untouched => ssts
          | .removed => ssts.erase (Compaction.output_path 1 u)
          | .torn t => ssts.insert (Compaction.output_path 1 u) (.torn t)
  | .removing i =>
      if outputs = [] then db.disk.ssts
      else ((db.write_outputs outputs).remove_inputs ((db.levels 0).take i)).disk.ssts

/-- The database opened on `disk` returns the rows that `db` returns, to every
query with room for them. -/
def SameRows (db : DB) (disk : Disk) : Prop :=
  ∀ listing heights req, listing.Perm disk.ssts.keys →
    ∃ r r', db.query req = .ok r ∧ (opened db.cfg disk listing heights).query req = .ok r' ∧
      (r.rows.length < req.limit.toNat → r'.rows.Perm r.rows)

/-- Some query returns the event and has room for more. -/
def Shown (db : DB) (e : Event) : Prop :=
  ∃ req r, db.query req = .ok r ∧ e ∈ r.rows ∧ r.rows.length < req.limit.toNat

/-- The events the file at a path holds, if it is finished. -/
def pathEvents (ssts : SSTableDir) (path : SSTablePath) : List Event :=
  match ssts.lookup path with
  | some (.finished t) => t.events
  | _ => []

/-- A database without a log that has everything in its files: those that are
there are listed, finished and in order, and level 0 holds neither two versions
of a key nor a tombstone. -/
structure Stored (db : DB) : Prop where
  opened : db.closed = false
  unlogged : db.cfg.wal_enabled = false
  flushed : ∀ m ∈ db.active_mem :: db.imm_mems, m.nodes = []
  symbols : ∀ name, ((db.disk.symbol_table.map SymbolTable.load).getD {}).lookup name =
    db.symbols.lookup name
  listed : ∀ l : Fin kMaxLevels,
    (db.levels l).Perm (DB.load_level db.disk.ssts db.disk.ssts.keys l)
  finished : ∀ info ∈ files_to_scan db.levels, ∃ t,
    db.disk.ssts.lookup info.path = some (.finished t) ∧
      t.meta_ = (SSTable.write t.meta_.level t.meta_.sequence t.events).meta_ ∧
      Keyed.Sorted Event.key t.events
  distinct : (((db.levels 0).flatMap fun info => pathEvents db.disk.ssts info.path).map
    Event.key).Nodup
  live : ∀ info ∈ db.levels 0, ∀ e ∈ pathEvents db.disk.ssts info.path,
    e.event_type ≠ .Tombstone

/-- A file that was not finished cannot be opened. -/
def CutPoint.Unreadable : CutPoint → Prop
  | .output _ (.torn t) => t.meta_ = none
  | _ => True

/-- No output is finished, or no input with an event in it is left. -/
def CutPoint.Harmless (db : DB) : CutPoint → Prop
  | .output j _ => j = 0 ∨ ∀ info ∈ db.levels 0, pathEvents db.disk.ssts info.path = []
  | .removing i => ∀ info ∈ (db.levels 0).drop i, pathEvents db.disk.ssts info.path = []

end Kronos.Spec
