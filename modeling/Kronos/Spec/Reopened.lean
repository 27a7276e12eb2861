import Kronos.Lib.Run
import Kronos.Spec.Crash

/-!
# What a client finds in a directory opened again

Beside the database it is noted what its clients wrote. A write whose call has
returned is to be found after the directory is opened again, after a crash all
the same. After a `close` it is found in the files, and with a log in the log as
well.
-/

namespace Kronos.Spec

open Kronos

/-- A database and what was written to it, with the symbols. -/
structure Noted where
  db : DB
  appended : List (Bytes × Event) := []
  /-- the tombstones of `remove` -/
  removed : List (Bytes × Event) := []

namespace Noted

def step (t : Noted) (s : Step) : Noted :=
  let t' := { t with db := Spec.step t.db s }
  match s with
  | .append _ _ _ _ => { t' with appended := t.appended ++ (written t.db s).toList }
  | .remove _ _ _ _ _ => { t' with removed := t.removed ++ (written t.db s).toList }
  | _ => t'

/-- Opened on an empty directory. -/
def start (cfg : DBConfig) (heights : Nat → Fin kMaxHeight) : Noted :=
  { db := opened cfg {} [] heights }

def run (t : Noted) (steps : List Step) : Noted := steps.foldl step t

end Noted

/-- The operating system lets every write of the log through. -/
def Unhindered : Step → Prop
  | .append _ _ _ io => io = {}
  | .remove _ _ _ _ io => io = {}
  | _ => True

/-- A step of `close` that others do not make. -/
def Closes : Step → Prop
  | .stop => True
  | .save_symbols => True
  | _ => False

/-- The symbol of a write fits an entry of the symbol file. -/
def ShortSymbol : Step → Prop
  | .append symbol _ _ _ => symbol.length ≤ 65535
  | .remove symbol _ _ _ _ => symbol.length ≤ 65535
  | _ => True

/-- The query asks for what was written under the symbol. -/
def Asks (req : QueryRequest) (p : Bytes × Event) : Prop :=
  req.symbol = p.1 ∧ req.start_ns ≤ p.2.timestamp_ns ∧ p.2.timestamp_ns ≤ req.end_ns ∧
    (req.event_type = none ∨ req.event_type = some p.2.event_type)

instance (req : QueryRequest) (p : Bytes × Event) : Decidable (Asks req p) := by
  unfold Asks
  infer_instance

/-! ## After a crash -/

/-- The different rows there are for a query, as its largest limit shows them. -/
def differentRows (db : DB) (req : QueryRequest) : Nat :=
  match db.query { req with limit := 0xFFFFFFFF } with
  | .ok r => r.rows.dedup.length
  | .error _ => 0

/-- Where `t` noted the writes that have returned and `t'` the interrupted one
as well, the database opened next returns every event that was appended and not
removed, to every query that asks for it and whose limit is above its matches. -/
def Recovered (t t' : Noted) (db : DB) : Prop :=
  ∀ p ∈ t.appended, p.2.event_type ≠ .Tombstone → (∀ q ∈ t'.removed, q.2.key ≠ p.2.key) →
    ∀ req, Asks req p → differentRows db req < req.row_limit →
      ∃ r, db.query req = .ok r ∧ p.2 ∈ r.rows

/-! ## After a close -/

/-- A step of a first session of appends: what a call of `append` or `flush_now`
or the flush loop does. -/
def Fills : Step → Prop
  | .append symbol _ _ io => symbol.length ≤ 65535 ∧ io = {}
  | .rotate => True
  | .flush_front => True
  | _ => False

/-- The next session, after a `close`. -/
def reopen (listing : List SSTablePath) (heights : Nat → Fin kMaxHeight) (db : DB) : DB :=
  opened db.cfg db.close.disk listing heights

/-- A query with room for them returns its rows twice after a restart if there is
a log, from the files and from the replayed log, and once if there is none. -/
def RowsReturn (db : DB) (listing : List SSTablePath) (heights : Nat → Fin kMaxHeight) : Prop :=
  ∀ req r, db.query req = .ok r → 2 * r.rows.length ≤ req.row_limit →
    ∃ r', (reopen listing heights db).query req = .ok r' ∧
      r'.rows.Perm (if db.cfg.wal_enabled then r.rows ++ r.rows else r.rows)

end Kronos.Spec
