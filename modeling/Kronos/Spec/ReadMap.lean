import Kronos.Ref.Query

/-!
# What the database answers, as a map

To a client the database is a map from (symbol, timestamp, sequence id) to the
last thing written under it. A query returns the entries in its range that are
no tombstones and have the type it asks for.

The map follows the calls: `append` writes its event under the sequence id it
answers, `remove` writes a tombstone, and flushing and compacting write
nothing.
-/

namespace Kronos.Spec

open Kronos

structure RefKey where
  symbol : Bytes
  timestamp_ns : UInt64
  sequence_id : UInt64
  deriving DecidableEq, Repr

/-- Each key with its most recent write. -/
abbrev RefMap := AList (fun _ : RefKey => Event)

/-- The entry is what the query asks for. -/
def Matches (req : QueryRequest) (k : RefKey) (e : Event) : Bool :=
  k.symbol = req.symbol ∧ req.start_ns ≤ k.timestamp_ns ∧ k.timestamp_ns ≤ req.end_ns ∧
    e.event_type ≠ .Tombstone ∧ (req.event_type = none ∨ req.event_type = some e.event_type)

/-- One row for every matching key. -/
def RefMap.rows (m : RefMap) (req : QueryRequest) : List Event :=
  (m.entries.filter fun p => Matches req p.1 p.2).map Sigma.snd

/-- A call of a client, with the height of the skip list node it makes. -/
inductive Call where
  | append (symbol : Bytes) (args : Event) (height : Fin kMaxHeight)
  | remove (symbol : Bytes) (timestamp_ns sequence_id : UInt64) (height : Fin kMaxHeight)
  | flush_now
  | compact_now
  deriving DecidableEq, Repr

/-- The database and what its clients were told. -/
structure Tracked where
  db : DB
  ref : RefMap

/-- The id a database has for a symbol. -/
def symbolId (db : DB) (symbol : Bytes) : UInt32 := (db.symbols.lookup symbol).getD 0

def exec (t : Tracked) : Call → Tracked
  | .append symbol args height =>
      match t.db.append symbol args height {} with
      | .error _ db => { t with db }
      | .ok r db =>
          { db
            ref := t.ref.insert ⟨symbol, args.timestamp_ns, r.sequence_id⟩
              { args with symbol_id := symbolId db symbol, sequence_id := r.sequence_id } }
  | .remove symbol timestamp_ns sequence_id height =>
      match t.db.remove symbol timestamp_ns sequence_id height {} with
      | .error _ db => { t with db }
      | .ok r db =>
          { db
            ref := t.ref.insert ⟨symbol, timestamp_ns, r.sequence_id⟩
              { timestamp_ns
                symbol_id := symbolId db symbol
                sequence_id := r.sequence_id
                event_type := .Tombstone } }
  | .flush_now => { t with db := t.db.flush_now }
  | .compact_now =>
      match t.db.compact_now with
      | .error _ db => { t with db }
      | .ok _ db => { t with db }

/-- A database opened on an empty directory. -/
def openEmpty (cfg : DBConfig) : Tracked :=
  match DB.open_ cfg {} [] fun _ => 0 with
  | .ok _ db => ⟨db, ∅⟩
  | .error _ db => ⟨db, ∅⟩

/-- The query returns one row for every matching key, when its limit leaves
room for them. -/
def Answers (t : Tracked) (req : QueryRequest) : Prop :=
  (t.ref.rows req).length < req.limit.toNat →
    ∃ r, t.db.query req = .ok r ∧ r.ok = true ∧ r.rows.Perm (t.ref.rows req)

end Kronos.Spec
