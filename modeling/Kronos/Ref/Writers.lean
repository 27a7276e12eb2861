import Kronos.Ref.Threads

/-!
# Writing calls beside each other

Any number of calls of `append` and `remove`, cut where the source takes a lock
or touches an atomic: the check of `closed_`, `intern`, the `fetch_add`, the
append to the log and each critical section of `mem_mu_` are one step each. The
operating system lets every write to the log through.

Beside them run `close` and the threads that flush. `close` moves `active_mem_`
out and puts nothing in its place; a call that comes to a critical section of
`mem_mu_` then goes through a null pointer.
-/

namespace Kronos

inductive WriteArgs where
  /-- `args` carries the parameters of `append` beside the symbol -/
  | append (symbol : Bytes) (args : Event)
  | remove (symbol : Bytes) (timestamp_ns sequence_id : UInt64)
  deriving DecidableEq

/-- Where a call of `append` or `remove` is. -/
inductive Writing where
  /-- behind the check of `closed_` -/
  | checked
  /-- after `intern` -/
  | interned (sym_id : UInt32)
  /-- with its event, `append` after the `fetch_add` -/
  | drawn (e : Event)
  /-- after the log -/
  | logged (e : Event) (wal_offset : Nat)
  /-- `append` before the critical section that stores the metrics -/
  | inserted (e : Event) (wal_offset : Nat)
  | returned (result : AppendResult)
  | threw (err : DBError)
  /-- it went through a null `active_mem_` -/
  | faulted
  deriving DecidableEq

structure WriteCall where
  args : WriteArgs
  at_ : Writing
  deriving DecidableEq

structure Writers where
  db : DB
  /-- `active_mem_` is null, and `db.active_mem` stands for nothing -/
  active_null : Bool := false
  calls : List WriteCall := []

inductive WriterAct where
  | call (args : WriteArgs)
  /-- the next step of the `i`-th call -/
  | next (i : Nat) (height : Fin kMaxHeight)
  deriving DecidableEq

def WriteArgs.symbol : WriteArgs → Bytes
  | append symbol _ => symbol
  | remove symbol _ _ => symbol

namespace Writers

def call (args : WriteArgs) (w : Writers) : Writers :=
  { w with calls := w.calls ++ [⟨args, if w.db.closed then .threw .closed else .checked⟩] }

/-- The event of a call, and what is left of `next_seq_`. -/
def draw (sym_id : UInt32) (db : DB) : WriteArgs → Event × DB
  | .append _ args =>
      ({ args with symbol_id := sym_id, sequence_id := db.next_seq },
        { db with next_seq := db.next_seq + 1 })
  | .remove _ timestamp_ns sequence_id =>
      ({ timestamp_ns, symbol_id := sym_id, sequence_id, event_type := .Tombstone }, db)

/-- What a call does next, and what is left of the database. -/
def advance (height : Fin kMaxHeight) (w : Writers) (c : WriteCall) : Writing × DB :=
  match c.at_ with
  | .checked =>
      let (sym_id, db) := w.db.intern c.args.symbol
      (.interned sym_id, db)
  | .interned sym_id =>
      let (e, db) := draw sym_id w.db c.args
      (.drawn e, db)
  | .drawn e =>
      match w.db.wal_append e {} with
      | .error err db => (.threw err, db)
      | .ok wal_offset db => (.logged e wal_offset, db)
  | .logged e wal_offset =>
      if w.active_null then (.faulted, w.db)
      else
        match c.args with
        | .append _ _ => (.inserted e wal_offset, w.db.mem_insert e height)
        | .remove _ _ _ => (.returned ⟨e.sequence_id, wal_offset⟩, w.db.mem_insert e height)
  | .inserted e wal_offset =>
      if w.active_null then (.faulted, w.db)
      else (.returned ⟨e.sequence_id, wal_offset⟩, w.db)
  | .returned result => (.returned result, w.db)
  | .threw err => (.threw err, w.db)
  | .faulted => (.faulted, w.db)

def next (i : Nat) (height : Fin kMaxHeight) (w : Writers) : Writers :=
  match w.calls[i]? with
  | none => w
  | some c =>
      let (at_, db) := w.advance height c
      { w with db, calls := w.calls.set i { c with at_ } }

def act (w : Writers) : WriterAct → Writers
  | .call args => w.call args
  | .next i height => w.next i height

end Writers

/-! ## `close` beside them -/

/-- Where `close` is. -/
inductive Closing where
  | idle
  /-- after the exchange on `closed_` -/
  | flagged
  /-- after the critical section that takes `active_mem_` -/
  | draining
  | popped (mem : MemTable)
  /-- `imm_mems_` was empty -/
  | drained
  | wal_closed
  | done

namespace Closing

def next (w : Writers) : Closing → Writers × Closing
  | idle => if w.db.closed then (w, done) else ({ w with db.closed := true }, flagged)
  | flagged =>
      if w.active_null ∨ w.db.active_mem.empty then (w, draining)
      else
        ({ w with
            db := { w.db with
              imm_mems := w.db.imm_mems ++ [w.db.active_mem]
              active_mem := MemTable.new w.db.cfg.memtable_flush_bytes }
            active_null := true }, draining)
  | draining =>
      match w.db.imm_mems with
      | [] => (w, drained)
      | to_flush :: imm_mems => ({ w with db.imm_mems := imm_mems }, popped to_flush)
  | popped mem =>
      ({ w with db := DB.do_flush mem w.db.sst_seq { w.db with sst_seq := w.db.sst_seq + 1 } },
        draining)
  | drained =>
      ({ w with db.wal := w.db.wal.map fun writer => { writer with fd := none } }, wal_closed)
  | wal_closed => ({ w with db.disk.symbol_table := some w.db.symbols.flush }, done)
  | done => (w, done)

end Closing

structure Shutdown where
  writers : Writers
  closing : Closing := .idle

inductive ShutdownAct where
  | write (a : WriterAct)
  | close
  deriving DecidableEq

def Shutdown.act (s : Shutdown) : ShutdownAct → Shutdown
  | .write a => { s with writers := s.writers.act a }
  | .close =>
      let (writers, closing) := s.closing.next s.writers
      { writers, closing }

/-! ## Flushing threads beside them -/

structure Flushing where
  writers : Writers
  flushers : List Flusher := []

inductive FlushingAct where
  | write (a : WriterAct)
  /-- the first critical section of `flush_now` -/
  | rotate
  | pop
  /-- the next step of the `i`-th flushing thread -/
  | flush (i : Nat)
  deriving DecidableEq

namespace Flushing

/-- A step of the flushing threads, on the database and on them. -/
def flush_step (f : Threads → Threads) (s : Flushing) : Flushing :=
  let t := f { db := s.writers.db, flushers := s.flushers }
  { writers := { s.writers with db := t.db }, flushers := t.flushers }

def act (s : Flushing) : FlushingAct → Flushing
  | .write a => { s with writers := s.writers.act a }
  | .rotate => { s with writers.db := s.writers.db.rotate }
  | .pop => s.flush_step Threads.pop
  | .flush i => s.flush_step (Threads.flush i)

end Flushing

end Kronos
