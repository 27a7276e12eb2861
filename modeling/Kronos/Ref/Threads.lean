import Kronos.Ref.Query

/-!
# Threads

The calls and loops that run beside each other, cut where the source holds a
lock: a critical section of `mem_mu_` or `levels_mu_`, a `fetch_add`, the
writing of one table file and the removal of one are each one step. Any number
of appends and of flushing threads can be under way, one query and one
`do_compact_l0`.

What `append` does to the log has no part in what a query sees and is left out.
-/

namespace Kronos

/-! ## A flushing thread -/

/-- A thread between taking a memtable off `imm_mems_` and listing its file. -/
inductive Flusher where
  | popped (mem : MemTable)
  /-- after `next_sstable_seq` -/
  | numbered (mem : MemTable) (seq : Nat)
  /-- after `SSTableWriter::finish` -/
  | written (info : SSTableInfo)

/-! ## A compacting thread -/

/-- Where `do_compact_l0` is. -/
inductive Compactor where
  | idle
  /-- after the snapshot of level 0 -/
  | snapshotted (l0_files : List SSTableInfo)
  | numbered (l0_files : List SSTableInfo) (seq : Nat)
  /-- in `Compaction::run`, with the outputs still to be written -/
  | writing (l0_files : List SSTableInfo) (outputs left : List SSTable)
  /-- with the inputs still to be removed -/
  | removing (l0_files : List SSTableInfo) (outputs : List SSTable) (left : List SSTableInfo)
  | done
  | failed (err : SSTableError)

namespace Compactor

def next (db : DB) : Compactor → DB × Compactor
  | idle => if db.levels 0 = [] then (db, done) else (db, snapshotted (db.levels 0))
  | snapshotted l0_files => ({ db with sst_seq := db.sst_seq + 1 }, numbered l0_files db.sst_seq)
  | numbered l0_files seq =>
      match Compaction.run db.disk.ssts l0_files 1 seq db.cfg.sstable_target_bytes with
      | .error err => (db, failed err)
      | .ok (outputs, _) => (db, writing l0_files outputs outputs)
  | writing l0_files outputs (t :: left) =>
      (db.write_table (Compaction.output_path 1 t) t, writing l0_files outputs left)
  | writing l0_files outputs [] =>
      if outputs = [] then (db, done) else (db, removing l0_files outputs l0_files)
  | removing l0_files outputs (f :: left) =>
      ({ db with disk.ssts := db.disk.ssts.erase f.path }, removing l0_files outputs left)
  | removing l0_files outputs [] => (db.switch_levels l0_files outputs, done)
  | done => (db, done)
  | failed err => (db, failed err)

end Compactor

/-! ## A querying thread -/

/-- Where `DB::query` is. -/
inductive Querying where
  | idle
  | looked_up (sym_id : UInt32)
  /-- after the memtables -/
  | scanned (sym_id : UInt32) (c : Collecting)
  /-- after the snapshot of the levels, with the files still to be scanned -/
  | listed (sym_id : UInt32) (c : Collecting) (files : List SSTableInfo)
  | returned (result : QueryResult)
  | threw (err : DBError)

namespace Querying

def next (req : QueryRequest) (db : DB) : Querying → Querying
  | idle =>
      if db.closed then threw .closed
      else
        match db.symbols.lookup req.symbol with
        | none => returned {}
        | some sym_id => looked_up sym_id
  | looked_up sym_id => scanned sym_id (scan_memtables req sym_id db.active_mem db.imm_mems {})
  | scanned sym_id c => listed sym_id c (files_to_scan db.levels)
  | listed sym_id c (info :: files) => listed sym_id (scan_file req sym_id db.disk.ssts c info) files
  | listed _ c [] => returned { c.result with ok := true }
  | returned result => returned result
  | threw err => threw err

end Querying

/-! ## All of them -/

structure Threads where
  db : DB
  /-- appends between their `fetch_add` and their critical section -/
  appends : List (Bytes × Event) := []
  /-- appends behind it, and what was written before the threads started -/
  acked : List (Bytes × Event) := []
  flushers : List Flusher := []
  compactor : Compactor := .idle
  query : Querying := .idle

/-- One step of one thread. -/
inductive Act where
  | begin_append (symbol : Bytes) (args : Event)
  /-- the critical section of the `i`-th append under way -/
  | insert (i : Nat) (height : Fin kMaxHeight)
  /-- the first critical section of `flush_now` -/
  | rotate
  | pop
  /-- the next step of the `i`-th flushing thread -/
  | flush (i : Nat)
  | compact
  | query

namespace Threads

def begin_append (symbol : Bytes) (args : Event) (s : Threads) : Threads :=
  let (sym_id, db) := s.db.intern symbol
  let e := { args with symbol_id := sym_id, sequence_id := db.next_seq }
  { s with
    db := { db with next_seq := db.next_seq + 1 }
    appends := s.appends ++ [(symbol, e)] }

def insert (i : Nat) (height : Fin kMaxHeight) (s : Threads) : Threads :=
  match s.appends[i]? with
  | none => s
  | some (symbol, e) =>
      { s with
        db := s.db.mem_insert e height
        appends := s.appends.eraseIdx i
        acked := s.acked ++ [(symbol, e)] }

def pop (s : Threads) : Threads :=
  match s.db.imm_mems with
  | [] => s
  | to_flush :: imm_mems =>
      { s with db.imm_mems := imm_mems, flushers := s.flushers ++ [.popped to_flush] }

def flush (i : Nat) (s : Threads) : Threads :=
  match s.flushers[i]? with
  | none => s
  | some (.popped mem) =>
      { s with
        db.sst_seq := s.db.sst_seq + 1
        flushers := s.flushers.set i (.numbered mem s.db.sst_seq) }
  | some (.numbered mem seq) =>
      if mem.empty then { s with flushers := s.flushers.eraseIdx i }
      else
        let t := SSTable.write 0 seq mem.to_sorted_events
        { s with
          db := s.db.write_table (DB.flush_path seq) t
          flushers := s.flushers.set i (.written ⟨DB.flush_path seq, t.meta_⟩) }
  | some (.written info) =>
      { s with
        db.levels := Function.update s.db.levels 0 (s.db.levels 0 ++ [info])
        flushers := s.flushers.eraseIdx i }

def act (req : QueryRequest) (s : Threads) : Act → Threads
  | .begin_append symbol args => s.begin_append symbol args
  | .insert i height => s.insert i height
  | .rotate => { s with db := s.db.rotate }
  | .pop => s.pop
  | .flush i => s.flush i
  | .compact =>
      let (db, compactor) := s.compactor.next s.db
      { s with db, compactor }
  | .query => { s with query := s.query.next req s.db }

end Threads

end Kronos
