import Kronos.Lib.Run
import Kronos.Ref.Writers
import Kronos.Spec.Crash

/-!
# The ids that `append` answers

The whole history of a directory: in each session any calls beside each other
and a `close`, between sessions an end at any point and the next open. `close`
ends a session when it is through; a crash ends it anywhere, in the middle of a
record too. What a crash leaves of the other files has no part in the ids and
can be anything.
-/

namespace Kronos.Spec

open Kronos

structure Sessions where
  shutdown : Shutdown
  /-- the ids that appends have answered, in all sessions -/
  returned : List UInt64 := []

/-- How a session ends and the next one begins. -/
structure Reopening where
  /-- the call whose record is cut off, and after how many bytes -/
  torn : Option (Nat × Nat) := none
  symbol_table : Option Bytes := none
  ssts : SSTableDir := ∅
  cfg : DBConfig := {}
  listing : List SSTablePath := []
  heights : Nat → Fin kMaxHeight := fun _ => 0

inductive SessionAct where
  | run (a : ShutdownAct)
  | reopen (r : Reopening)

namespace Sessions

/-- The log that the end of a session leaves. -/
def wal_left (w : Writers) (torn : Option (Nat × Nat)) : Option WalDir :=
  match torn with
  | none => w.db.disk.wal
  | some (i, stored) =>
      match w.calls[i]? with
      | some ⟨_, .drawn e⟩ => (after (w.db.wal_append e ⟨stored, false⟩)).disk.wal
      | _ => w.db.disk.wal

/-- The directory the next session opens. -/
def left (w : Writers) (r : Reopening) : Disk :=
  { symbol_table := r.symbol_table, wal := wal_left w r.torn, ssts := r.ssts }

def opening (cfg : DBConfig) (disk : Disk) (listing : List SSTablePath)
    (heights : Nat → Fin kMaxHeight) : Shutdown :=
  { writers := { db := opened cfg disk listing heights } }

def act (s : Sessions) : SessionAct → Sessions
  | .run a =>
      let s' := { s with shutdown := s.shutdown.act a }
      match a with
      | .write (.next i _) =>
          match s.shutdown.writers.active_null, s.shutdown.writers.calls[i]? with
          | false, some ⟨.append _ _, .inserted e _⟩ =>
              { s' with returned := s.returned ++ [e.sequence_id] }
          | _, _ => s'
      | _ => s'
  | .reopen r =>
      { s with shutdown := opening r.cfg (left s.shutdown.writers r) r.listing r.heights }

/-- The id an append has drawn and not answered yet. -/
def drawn_id (c : WriteCall) : Option UInt64 :=
  match c.args, c.at_ with
  | .append _ _, .drawn e => some e.sequence_id
  | .append _ _, .logged e _ => some e.sequence_id
  | .append _ _, .inserted e _ => some e.sequence_id
  | _, _ => none

/-- The last record of the log that is opened is at least of every id that was
answered, unless none was; and the counter does not come around to 0. -/
def Fresh (s : Sessions) : SessionAct → Prop
  | .run (.write (.next i _)) => ∀ symbol args sym_id,
      s.shutdown.writers.calls[i]? = some ⟨.append symbol args, .interned sym_id⟩ →
        s.shutdown.writers.db.next_seq = 0 →
          s.returned = [] ∧ ∀ c ∈ s.shutdown.writers.calls, drawn_id c = none
  | .run _ => True
  | .reopen r => s.returned = [] ∨ r.cfg.wal_enabled = true ∧
      ∃ record, (read_all ((wal_left s.shutdown.writers r.torn).getD ∅)).records.getLast? =
          some record ∧ record.event.sequence_id ≠ 0xFFFFFFFFFFFFFFFF ∧
        ∀ id ∈ s.returned, id ≤ record.event.sequence_id

end Sessions

/-- The first session, on an empty directory. -/
def firstSession (cfg : DBConfig) (heights : Nat → Fin kMaxHeight) : Sessions :=
  { shutdown := Sessions.opening cfg {} [] heights }

end Kronos.Spec
