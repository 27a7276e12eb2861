import Kronos.Ref.DB

/-!
# Recovery on its own

What the command-line tool and the server's recovery endpoint call: the log is
replayed into a memtable and reported on, without a database being opened. The
time it took is left out of the report.
-/

namespace Kronos

structure RecoveryResult where
  records_recovered : Nat
  /-- reported as `corrupted_tail_bytes` by the server -/
  torn_bytes : Nat
  torn_detected : Bool
  clean_end_offset : Nat
  deriving DecidableEq, Repr

namespace Recovery

/-- The `i`-th node made in `target` is `heights i` high. -/
def recover (wal_dir : Option WalDir) (target : MemTable) (heights : Nat → Fin kMaxHeight) :
    RecoveryResult × MemTable :=
  match wal_dir with
  | none => (⟨0, 0, false, 0⟩, target)
  | some dir =>
      let r := read_all dir
      (⟨r.records.length, r.torn_bytes, r.torn, r.clean_end_offset⟩,
        DB.replay heights r.records target)

end Recovery

end Kronos
