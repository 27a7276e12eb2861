import Kronos.Ref.DB

/-!
# A flush whose writer throws

The memtable is out of the queue before its file is opened, and `do_flush` owns
it. An exception of `SSTableWriter` passes through `do_flush` and `flush_now`:
the memtable goes with the frame, and the destructor of the writer removes the
file, if there is one.
-/

namespace Kronos.DB

/-- `created` is whether `open` succeeded, which drops what the path held. -/
def do_flush_fails (mem : MemTable) (seq : Nat) (created : Bool) (db : DB) : DB :=
  if mem.empty then db
  else if created then { db with disk.ssts := db.disk.ssts.erase (flush_path seq) }
  else db

/-- The round of the loop in which the writer throws. -/
def flush_front_fails (created : Bool) (db : DB) : DB :=
  match db.imm_mems with
  | [] => db
  | to_flush :: imm_mems =>
      do_flush_fails to_flush db.sst_seq created { db with imm_mems, sst_seq := db.sst_seq + 1 }

/-- `flush_now` up to the exception, which comes in round `j`. -/
def flush_now_fails (j : Nat) (created : Bool) (db : DB) : DB :=
  (flush_front^[j] db.rotate).flush_front_fails created

end Kronos.DB
