import Kronos.Lib.Run
import Kronos.Spec.ReadMap

/-!
# The files a session creates

A call is one step or several: `flush_now` rotates and then takes memtables off
the queue one by one, and every one of these creates a file while the levels
are in a state of their own. A round of the flush loop is the same steps, and
one of the compaction loop is a `compact`, so a list of steps is also what a
session with its loops running does, as long as the rounds do not overlap.
-/

namespace Kronos.Spec

open Kronos

inductive Step where
  | append (symbol : Bytes) (args : Event) (height : Fin kMaxHeight) (io : AppendIO)
  | remove (symbol : Bytes) (timestamp_ns sequence_id : UInt64) (height : Fin kMaxHeight)
      (io : AppendIO)
  | rotate
  | flush_front
  | compact
  /-- the first and the last thing `close` does -/
  | stop
  | save_symbols

/-- The database a call leaves, whether it returns or throws. -/
def after {α : Type} : DBResult α → DB
  | .ok _ db => db
  | .error _ db => db

def step (db : DB) : Step → DB
  | .append symbol args height io => after (db.append symbol args height io)
  | .remove symbol timestamp_ns sequence_id height io =>
      after (db.remove symbol timestamp_ns sequence_id height io)
  | .rotate => db.rotate
  | .flush_front => db.flush_front
  | .compact => after db.compact_now
  | .stop => { db with closed := true }
  | .save_symbols => { db with disk.symbol_table := some db.symbols.flush }

/-- The steps of draining the queue. -/
def drainSteps (db : DB) : List Step := List.replicate db.imm_mems.length .flush_front

def stepsOf (db : DB) : Call → List Step
  | .append symbol args height => [.append symbol args height {}]
  | .remove symbol timestamp_ns sequence_id height =>
      [.remove symbol timestamp_ns sequence_id height {}]
  | .flush_now => .rotate :: drainSteps db.rotate
  | .compact_now => [.compact]

def closeSteps (db : DB) : List Step :=
  if db.closed then []
  else .stop :: .rotate :: drainSteps (db.rotate) ++ [.save_symbols]

/-- The steps of the calls of a client, one call after the other. -/
def script (t : Tracked) : List Call → List Step
  | [] => []
  | c :: calls => stepsOf t.db c ++ script (exec t c) calls

/-- The path and the number of every `SSTableWriter` a step constructs. -/
def created (db : DB) : Step → List (SSTablePath × Nat)
  | .flush_front =>
      match db.imm_mems with
      | [] => []
      | mem :: _ => if mem.empty then [] else [(DB.flush_path db.sst_seq, db.sst_seq)]
  | .compact =>
      if db.levels 0 = [] then []
      else
        match Compaction.run db.disk.ssts (db.levels 0) 1 db.sst_seq
            db.cfg.sstable_target_bytes with
        | .error _ => []
        | .ok (outputs, _) => outputs.map fun t => (Compaction.output_path 1 t, t.meta_.sequence)
  | _ => []

/-- No writer of the step opens the path of a listed file. -/
def OpensFresh (db : DB) (s : Step) : Prop :=
  ∀ c ∈ created db s, ∀ info ∈ files_to_scan db.levels, info.path ≠ c.1

/-- The listed files have pairwise distinct numbers. -/
def DistinctNumbers (db : DB) : Prop :=
  ((files_to_scan db.levels).map (·.meta_.sequence)).Nodup

/-- No step of the run overwrites a listed file or makes two numbers the same. -/
def NumbersKept (db : DB) (steps : List Step) : Prop :=
  DistinctNumbers db ∧
    Run.Along step (fun db s => OpensFresh db s ∧ DistinctNumbers (step db s)) db steps

end Kronos.Spec
