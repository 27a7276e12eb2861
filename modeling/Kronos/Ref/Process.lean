import Kronos.Ref.Writers

/-!
# All threads of a database

The calls of `append` and `remove`, a `close`, and any number of threads that
flush or compact, over one database. A second `close` finds `closed_` set and
returns. The one that goes on joins the background threads before it takes a
memtable; here they run on beside it, as callers of `flush_now` and
`compact_now` may. Queries change nothing and are left out.
-/

namespace Kronos

structure Process where
  writers : Writers
  closing : Closing := .idle
  flushers : List Flusher := []
  compactors : List Compactor := []

inductive ProcessAct where
  | write (a : WriterAct)
  | close
  /-- the first critical section of `flush_now` -/
  | rotate
  | pop
  /-- the next step of the `i`-th flushing thread -/
  | flush (i : Nat)
  /-- a call of `do_compact_l0` -/
  | begin_compact
  | compact (i : Nat)
  deriving DecidableEq

namespace Process

/-- A step of the flushing threads, on the database and on them. -/
def flush_step (f : Threads → Threads) (s : Process) : Process :=
  let t := f { db := s.writers.db, flushers := s.flushers }
  { s with writers := { s.writers with db := t.db }, flushers := t.flushers }

def compact (i : Nat) (s : Process) : Process :=
  match s.compactors[i]? with
  | none => s
  | some c =>
      let (db, c) := c.next s.writers.db
      { s with writers := { s.writers with db }, compactors := s.compactors.set i c }

def act (s : Process) : ProcessAct → Process
  | .write a => { s with writers := s.writers.act a }
  | .close =>
      let (writers, closing) := s.closing.next s.writers
      { s with writers, closing }
  | .rotate =>
      if s.writers.active_null then s else { s with writers.db := s.writers.db.rotate }
  | .pop => s.flush_step Threads.pop
  | .flush i => s.flush_step (Threads.flush i)
  | .begin_compact => { s with compactors := s.compactors ++ [.idle] }
  | .compact i => s.compact i

end Process

end Kronos
