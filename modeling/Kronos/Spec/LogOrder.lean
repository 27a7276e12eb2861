import Kronos.Lib.Run
import Kronos.Ref.Writers
import Kronos.Spec.Crash

/-!
# The order of the log and the order of the memtables

A write goes to the log in one critical section and to the memtable in another.
A monitor beside the writing calls notes both orders and which calls are
between the two. When no call is, a recovery has to rebuild what the memtables
were given: for every key the last of its writes.
-/

namespace Kronos.Spec

open Kronos

structure LogOrder where
  writers : Writers
  /-- the events with a record, as their records were written -/
  recorded : List Event
  /-- what the memtables were given, in that order -/
  inserted : List Event
  /-- the calls with a record and without an insert, as their records were written -/
  waiting : List (Nat × Event) := []

namespace LogOrder

def act (s : LogOrder) (a : WriterAct) : LogOrder :=
  let s' := { s with writers := s.writers.act a }
  match a with
  | .call _ => s'
  | .next i _ =>
      match s.writers.calls[i]? with
      | some ⟨_, .drawn e⟩ =>
          { s' with recorded := s.recorded ++ [e], waiting := s.waiting ++ [(i, e)] }
      | some ⟨_, .logged e _⟩ =>
          { s' with
            inserted := s.inserted ++ [e]
            waiting := s.waiting.filter (·.1 ≠ i) }
      | _ => s'

/-- The last write of a key. -/
def latest (key : Key) (events : List Event) : Option Event :=
  (events.filter (·.key = key)).getLast?

/-- A recovery of the log into an empty memtable gives every key its most
recent insert, once every call has returned. -/
def Agrees (s : LogOrder) : Prop :=
  (∀ c ∈ s.writers.calls, ∃ r, c.at_ = .returned r) →
    ∀ (heights : Nat → Fin kMaxHeight) (flush_threshold : Nat) (key : Key),
      (DB.replay heights (read_all (s.writers.db.disk.wal.getD ∅)).records
        (MemTable.new flush_threshold)).nodes.find? (·.key = key) = latest key s.inserted

/-- A call inserts its event before every other call that wrote a record of the
same key later, and behind none but equal ones that it wrote earlier. -/
def Turn (s : LogOrder) : WriterAct → Prop
  | .call _ => True
  | .next i _ => ∀ args e off, s.writers.calls[i]? = some ⟨args, .logged e off⟩ →
      ∀ p ∈ s.waiting.takeWhile (·.1 ≠ i), p.2.key = e.key → p.2 = e

instance (s : LogOrder) (a : WriterAct) : Decidable (Turn s a) :=
  match a with
  | .call _ => isTrue trivial
  | .next i _ =>
      match hi : s.writers.calls[i]? with
      | some ⟨_, .logged e _⟩ =>
          decidable_of_iff
            (∀ p ∈ s.waiting.takeWhile fun p : Nat × Event => p.1 ≠ i, p.2.key = e.key → p.2 = e)
            ⟨fun h _ _ _ heq => by cases hi.symm.trans heq; exact h, fun h => h _ _ _ hi⟩
      | some ⟨_, .checked⟩ | some ⟨_, .interned _⟩ | some ⟨_, .drawn _⟩
      | some ⟨_, .inserted _ _⟩ | some ⟨_, .returned _⟩ | some ⟨_, .threw _⟩
      | some ⟨_, .faulted⟩ | none =>
          isTrue fun _ _ _ heq => by cases hi.symm.trans heq

end LogOrder

/-- A database that was just opened: the memtable was given what was recovered. -/
def startLogOrder (cfg : DBConfig) (disk : Disk) (listing : List SSTablePath)
    (heights : Nat → Fin kMaxHeight) : LogOrder :=
  let recovered := (read_all (disk.wal.getD ∅)).records.map WALRecord.event
  { writers := { db := opened cfg disk listing heights }
    recorded := recovered
    inserted := recovered }

end Kronos.Spec
