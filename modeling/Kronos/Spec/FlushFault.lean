import Kronos.Proofs.Scan
import Kronos.Ref.FlushFault

/-!
# What a failed flush should leave

All that queries could see, and in the levels what they held and the files of
the memtables that were flushed before.
-/

namespace Kronos.Spec

open Kronos

/-- Among the rows of some query, if its limit leaves room for all of them. -/
def Visible (db : DB) (e : Event) : Prop :=
  db.closed = false ∧ ∃ req sym_id, db.symbols.lookup req.symbol = some sym_id ∧
    e ∈ queryRows req sym_id db

/-- The list entries of memtables that are flushed under the numbers from `seq` on. -/
def flushedInfos : Nat → List MemTable → List SSTableInfo
  | _, [] => []
  | seq, mem :: mems =>
      if mem.empty then flushedInfos (seq + 1) mems
      else ⟨DB.flush_path seq, (SSTable.write 0 seq mem.to_sorted_events).meta_⟩ ::
        flushedInfos (seq + 1) mems

/-- The writer throws in round `j`: all that was visible still is, and level 0 has
the files of the rounds before, no other level a new one. -/
def LosesNothing (j : Nat) (created : Bool) (db : DB) : Prop :=
  (∀ e, Visible db e → Visible (db.flush_now_fails j created) e) ∧
    (db.flush_now_fails j created).levels = Function.update db.levels 0
      (db.levels 0 ++ flushedInfos db.sst_seq (db.rotate.imm_mems.take j))

/-- The paths opened in the rounds up to the one that throws. -/
def openedPaths (j : Nat) (created : Bool) (db : DB) : List SSTablePath :=
  (flushedInfos db.sst_seq (db.imm_mems.take j)).map SSTableInfo.path ++
    if created then [DB.flush_path (db.sst_seq + j)] else []

/-- The rows from all memtables but the one of round `j`, and from the listed files
whose paths are not opened. -/
def otherRows (req : QueryRequest) (sym_id : UInt32) (j : Nat) (created : Bool) (db : DB) :
    List Event :=
  ((db.active_mem :: db.imm_mems.eraseIdx j).flatMap (fun m => m.nodes.filter
      (inRange (req.start_key sym_id) (req.end_key sym_id))) ++
    ((files_to_scan db.levels).filter (·.path ∉ openedPaths j created db)).flatMap
      (fileDelivers db.disk.ssts (req.start_key sym_id) (req.end_key sym_id))).filter req.wants

/-- All that is visible is also somewhere else than in the memtable of round `j` and
the files that are written over. -/
def Elsewhere (j : Nat) (created : Bool) (db : DB) : Prop :=
  ∀ e, Visible db e → ∃ req sym_id, db.symbols.lookup req.symbol = some sym_id ∧
    e ∈ otherRows req sym_id j created db.rotate

end Kronos.Spec
