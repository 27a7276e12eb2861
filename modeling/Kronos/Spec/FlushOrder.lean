import Kronos.Lib.Run
import Kronos.Ref.Writers
import Kronos.Spec.Crash

/-!
# Which memtable gets which number

A monitor beside the flushing threads. It counts the memtables as they are
pushed to `imm_mems_`, follows each of them to the thread that pops it, and
notes the sequence of the table that is written from it.
-/

namespace Kronos.Spec

open Kronos

structure FlushOrder where
  flushing : Flushing
  /-- how many memtables have been pushed -/
  pushed : Nat := 0
  /-- of each memtable in `imm_mems_`, how many were pushed before it -/
  queue : List Nat := []
  /-- the same of each flushing thread's memtable -/
  held : List Nat := []
  /-- the tables: from which memtable, with which sequence -/
  written : List (Nat × Nat) := []

namespace FlushOrder

/-- A step that does not pop may push. -/
def note_push (n : FlushOrder) (flushing : Flushing) : FlushOrder :=
  if n.flushing.writers.db.imm_mems.length < flushing.writers.db.imm_mems.length then
    { n with flushing, pushed := n.pushed + 1, queue := n.queue ++ [n.pushed] }
  else { n with flushing }

def note_pop (n : FlushOrder) (flushing : Flushing) : FlushOrder :=
  match n.queue with
  | [] => { n with flushing }
  | k :: queue => { n with flushing, queue, held := n.held ++ [k] }

def note_flush (n : FlushOrder) (i : Nat) (flushing : Flushing) : FlushOrder :=
  match n.flushing.flushers[i]?, n.held[i]? with
  | some (.numbered mem seq), some k =>
      if mem.empty then { n with flushing, held := n.held.eraseIdx i }
      else
        { n with
          flushing
          written := n.written ++ [(k, (SSTable.write 0 seq mem.to_sorted_events).meta_.sequence)] }
  | some (.written _), _ => { n with flushing, held := n.held.eraseIdx i }
  | _, _ => { n with flushing }

def act (n : FlushOrder) (a : FlushingAct) : FlushOrder :=
  match a with
  | .write _ => n.note_push (n.flushing.act a)
  | .rotate => n.note_push (n.flushing.act a)
  | .pop => n.note_pop (n.flushing.act a)
  | .flush i => n.note_flush i (n.flushing.act a)

/-- The earlier a memtable was pushed, the smaller the sequence of its table. -/
def InOrder (n : FlushOrder) : Prop :=
  ∀ p ∈ n.written, ∀ q ∈ n.written, p.1 < q.1 → p.2 < q.2

instance : DecidablePred InOrder := fun n => by unfold InOrder; infer_instance

/-- A thread that takes a number has popped before every other thread that has
none yet. -/
def Turn (n : FlushOrder) : FlushingAct → Prop
  | .flush i => ∀ mem k, n.flushing.flushers[i]? = some (Flusher.popped mem) → n.held[i]? = some k →
      ∀ j mem' k', j ≠ i → n.flushing.flushers[j]? = some (Flusher.popped mem') →
        n.held[j]? = some k' → k < k'
  | _ => True

end FlushOrder

/-- A database that was just opened, with no call and no thread yet. -/
def startFlushes (cfg : DBConfig) (disk : Disk) (listing : List SSTablePath)
    (heights : Nat → Fin kMaxHeight) : FlushOrder :=
  { flushing := { writers := { db := opened cfg disk listing heights } } }

end Kronos.Spec
