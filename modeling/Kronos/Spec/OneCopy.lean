import Kronos.Lib.Run
import Kronos.Ref.Compactors

/-!
# One copy of every version

A monitor beside two compacting threads. It notes the events of every memtable
that is written to a table, and counts them as flushed when the table is listed.
-/

namespace Kronos.Spec

open Kronos

structure OneCopy where
  state : Compactors
  /-- the events of the memtable that a file of level 0 was written from -/
  wrote : SSTablePath → List Event := fun _ => []
  /-- the events of the memtables whose files are listed -/
  flushed : List Event := []

/-- The inputs of a compaction that is between its snapshot and its switch. -/
def inputs : Compactor → List SSTableInfo
  | .snapshotted l0_files => l0_files
  | .numbered l0_files _ => l0_files
  | .writing l0_files _ _ => l0_files
  | .removing l0_files _ _ => l0_files
  | _ => []

/-- The file a compacting thread writes next. -/
def outputNext : Compactor → Option SSTablePath
  | .writing _ _ (t :: _) => some (Compaction.output_path 1 t)
  | _ => none

/-- The file a flushing thread writes next. -/
def flushNext : Flusher → Option SSTablePath
  | .numbered mem seq => if mem.empty then none else some (DB.flush_path seq)
  | _ => none

/-- One of the two compacting threads. -/
inductive Side where
  | first
  | second
  deriving DecidableEq

namespace Side

def other : Side → Side
  | first => second
  | second => first

def act : Side → CompactorsAct
  | first => .threads .compact
  | second => .second

def isStep : Side → CompactorsAct → Bool
  | first, .threads .compact => true
  | second, .second => true
  | _, _ => false

end Side

namespace OneCopy

abbrev db (n : OneCopy) : DB := n.state.threads.db

def compactor (n : OneCopy) : Side → Compactor
  | .first => n.state.threads.compactor
  | .second => n.state.second

def note (n : OneCopy) : CompactorsAct → OneCopy
  | .threads (.flush i) =>
      match n.state.threads.flushers[i]? with
      | some (.numbered mem seq) =>
          if mem.empty then n
          else { n with
            wrote := Function.update n.wrote (DB.flush_path seq) mem.to_sorted_events }
      | some (.written info) => { n with flushed := n.flushed ++ n.wrote info.path }
      | _ => n
  | _ => n

def act (req : QueryRequest) (n : OneCopy) (a : CompactorsAct) : OneCopy :=
  { n.note a with state := n.state.act req a }

/-- No listed file is at the path. -/
def Free (db : DB) (path : Option SSTablePath) : Prop :=
  ∀ p ∈ path, ∀ info ∈ files_to_scan db.levels, info.path ≠ p

instance (db : DB) : (path : Option SSTablePath) → Decidable (Free db path)
  | none => .isTrue nofun
  | some p =>
      decidable_of_iff (∀ info ∈ files_to_scan db.levels, info.path ≠ p)
        ⟨fun h _ hq => Option.some.inj hq ▸ h, fun h => h p rfl⟩

/-- A compaction takes inputs only while the other has none, and writes no table
over a listed one. -/
def InTurn (n : OneCopy) (side : Side) : Prop :=
  (n.compactor side = .idle → n.db.levels 0 ≠ [] → inputs (n.compactor side.other) = []) ∧
    Free n.db (outputNext (n.compactor side))

def Undisturbed (n : OneCopy) : CompactorsAct → Prop
  | .threads .compact => n.InTurn .first
  | .second => n.InTurn .second
  | .threads (.flush i) => ∀ f, n.state.threads.flushers[i]? = some f → Free n.db (flushNext f)
  | .threads _ => True

end OneCopy

/-- A database in which no flush and no compaction is under way: its listed files
are finished, each in the directory of its level. -/
structure Resting (db : DB) : Prop where
  sorted : ∀ m ∈ db.active_mem :: db.imm_mems, Keyed.Sorted Event.key m.nodes
  finished : ∀ l : Fin kMaxLevels, ∀ info ∈ db.levels l,
    info.path.dir = l ∧ ∃ t, db.disk.ssts.lookup info.path = some (.finished t)

/-- The threads on a database, none of them begun. -/
def startCompactors (db : DB) : OneCopy := { state := { threads := { db } } }

end Kronos.Spec
