import Kronos.Spec.Reopened

/-!
# What a client finds while the database runs

Beside the database it is noted which calls returned: an append or a removal
that failed was not promised to anybody, though the append has used up a sequence
id. What was appended and not removed should be in the rows of every query that
asks for it, wherever flushes and compactions have moved it.
-/

namespace Kronos.Spec

open Kronos

/-- A database and the calls on it that returned. -/
structure Answered where
  db : DB
  /-- how many appends took a sequence id -/
  attempts : Nat := 0
  appended : List (Bytes × Event) := []
  /-- the tombstones -/
  removed : List Event := []

namespace Answered

def step (t : Answered) (s : Step) : Answered :=
  let t' := { t with db := Spec.step t.db s }
  match s with
  | .append symbol args height io =>
      if t.db.closed then t'
      else
        let e := { args with symbol_id := (t.db.intern symbol).1, sequence_id := t.db.next_seq }
        match t.db.append symbol args height io with
        | .ok _ _ => { t' with attempts := t.attempts + 1, appended := t.appended ++ [(symbol, e)] }
        | .error _ _ => { t' with attempts := t.attempts + 1 }
  | .remove symbol timestamp_ns sequence_id height io =>
      match t.db.remove symbol timestamp_ns sequence_id height io with
      | .ok _ _ =>
          { t' with removed := t.removed ++
              [{ timestamp_ns
                 symbol_id := (t.db.intern symbol).1
                 sequence_id
                 event_type := .Tombstone }] }
      | .error _ _ => t'
  | _ => t'

/-- Opened on an empty directory. -/
def start (cfg : DBConfig) (heights : Nat → Fin kMaxHeight) : Answered :=
  { db := opened cfg {} [] heights }

end Answered

/-- The database stays open, and a compaction writes over no listed file. -/
def KeepsFiles (t : Answered) (s : Step) : Prop :=
  ¬ Closes s ∧ (s = .compact → OpensFresh t.db s)

/-- The rows there are for a query, as its largest limit shows them. -/
def rowCount (db : DB) (req : QueryRequest) : Nat :=
  match db.query { req with limit := 0xFFFFFFFF } with
  | .ok r => r.rows.length
  | .error _ => 0

/-- A query that asks for what was appended and not removed, and whose limit is above
its rows, returns it. -/
def Served (t : Answered) : Prop :=
  ∀ p ∈ t.appended, p.2.event_type ≠ .Tombstone → (∀ e ∈ t.removed, e.key ≠ p.2.key) →
    ∀ req, Asks req p → rowCount t.db req < req.row_limit →
      ∃ r, t.db.query req = .ok r ∧ p.2 ∈ r.rows

end Kronos.Spec
