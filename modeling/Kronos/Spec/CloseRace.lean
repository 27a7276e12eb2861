import Kronos.Lib.Run
import Kronos.Ref.Writers
import Kronos.Spec.Crash

/-!
# Writing while the database is closed

`closed_` is checked once, at the start of a call. What a call does after that
can fall between any two steps of `close`. A monitor notes what the memtables
were given, which appends have returned and which tables `close` has written.
-/

namespace Kronos.Spec

open Kronos

structure CloseRace where
  shutdown : Shutdown
  /-- what the memtables were given, in that order -/
  inserted : List Event := []
  /-- the events of the appends that have returned -/
  acked : List Event := []
  /-- the tables `close` has written, and where -/
  tables : List (SSTablePath × SSTable) := []

namespace CloseRace

def note_next (s : CloseRace) (i : Nat) (shutdown : Shutdown) : CloseRace :=
  match s.shutdown.writers.active_null, s.shutdown.writers.calls[i]? with
  | false, some ⟨_, .logged e _⟩ => { s with shutdown, inserted := s.inserted ++ [e] }
  | false, some ⟨.append _ _, .inserted e _⟩ => { s with shutdown, acked := s.acked ++ [e] }
  | _, _ => { s with shutdown }

def note_close (s : CloseRace) (shutdown : Shutdown) : CloseRace :=
  match s.shutdown.closing with
  | .popped mem =>
      let seq := s.shutdown.writers.db.sst_seq
      if mem.empty then { s with shutdown }
      else
        { s with
          shutdown
          tables := s.tables ++ [(DB.flush_path seq, SSTable.write 0 seq mem.to_sorted_events)] }
  | _ => { s with shutdown }

def act (s : CloseRace) (a : ShutdownAct) : CloseRace :=
  match a with
  | .write (.call _) => { s with shutdown := s.shutdown.act a }
  | .write (.next i _) => s.note_next i (s.shutdown.act a)
  | .close => s.note_close (s.shutdown.act a)

/-- The event, or the write of its key that came over it. -/
def Replaces (s : CloseRace) (f e : Event) : Prop :=
  f.key = e.key ∧ ∃ before behind, s.inserted = before ++ e :: behind ∧ f ∈ e :: behind

/-- A table that `close` wrote has the event. -/
def InTable (s : CloseRace) (f : Event) : Prop :=
  ∃ p ∈ s.tables, s.shutdown.writers.db.disk.ssts.lookup p.1 = some (.finished p.2) ∧
    f ∈ p.2.events

/-- No call has gone through a null pointer, and once `close` is through the log
or its tables have what the appends answered. -/
structure Safe (s : CloseRace) : Prop where
  no_fault : ∀ c ∈ s.shutdown.writers.calls, c.at_ ≠ .faulted
  kept : s.shutdown.closing = .done → ∀ e ∈ s.acked,
    e ∈ (read_all (s.shutdown.writers.db.disk.wal.getD ∅)).records.map WALRecord.event ∨
      ∃ f, s.Replaces f e ∧ s.InTable f

/-- A call that is here comes to a critical section of `mem_mu_` next. -/
def Entering : Writing → Prop
  | .logged _ _ => True
  | .inserted _ _ => True
  | _ => False

/-- `close` is behind its last look at `imm_mems_`. -/
def Drained (closing : Closing) : Prop :=
  closing = .drained ∨ closing = .wal_closed ∨ closing = .done

/-- What keeps a step clear of the races: `close` takes a memtable only while
no call is about to enter `mem_mu_`, and until the log is closed no call writes
to it after that. Without a log, nothing is written that `close` does not see. -/
def Clear (s : CloseRace) : ShutdownAct → Prop
  | .write (.call _) => True
  | .write (.next i _) =>
      (∀ args e, s.shutdown.writers.calls[i]? = some ⟨args, .drawn e⟩ →
        s.shutdown.writers.active_null = true →
          ∃ writer, s.shutdown.writers.db.wal = some writer ∧ writer.fd = none) ∧
      (∀ args e off, s.shutdown.writers.calls[i]? = some ⟨args, .logged e off⟩ →
        s.shutdown.writers.db.wal = none → ¬ Drained s.shutdown.closing)
  | .close =>
      (s.shutdown.closing = .flagged → s.shutdown.writers.active_null = false →
        s.shutdown.writers.db.active_mem.empty = false →
          ∀ c ∈ s.shutdown.writers.calls, ¬ Entering c.at_) ∧
      (s.shutdown.closing = .draining → s.shutdown.writers.db.imm_mems = [] →
        s.shutdown.writers.db.wal = none → s.shutdown.writers.active_null = false →
          s.shutdown.writers.db.active_mem.empty = true)

end CloseRace

/-- A database that was just opened, with no call yet. -/
def startCloseRace (cfg : DBConfig) (disk : Disk) (listing : List SSTablePath)
    (heights : Nat → Fin kMaxHeight) : CloseRace :=
  { shutdown := { writers := { db := opened cfg disk listing heights } } }

end Kronos.Spec
