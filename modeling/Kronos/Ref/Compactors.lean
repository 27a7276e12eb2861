import Kronos.Ref.Threads

/-!
# Two compactions beside each other

`compact_now` can be called while `compact_loop` is in `do_compact_l0`: the
threads and a second compacting thread, over one database.
-/

namespace Kronos

structure Compactors where
  threads : Threads
  second : Compactor := .idle

inductive CompactorsAct where
  /-- a step of one of the threads, the first compacting thread among them -/
  | threads (a : Act)
  | second

def Compactors.act (req : QueryRequest) (s : Compactors) : CompactorsAct → Compactors
  | .threads a => { s with threads := s.threads.act req a }
  | .second =>
      let (db, second) := s.second.next s.threads.db
      { threads := { s.threads with db }, second }

end Kronos
