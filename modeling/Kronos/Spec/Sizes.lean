import Kronos.Spec.Crash
import Kronos.Spec.FreshBlocks

/-!
# How large memtables and tables get

The insert that fills a memtable swaps it out, and a flushed table is one
memtable. A compaction looks at the size of the file it writes at every
thousandth record, and closes it when the estimate reaches the target. What
`open` replays is in one memtable, however large that gets.
-/

namespace Kronos.Spec

open Kronos

/-- What the active memtable stays below: its threshold, or what the log has filled. -/
def memtableLimit (cfg : DBConfig) (replayed : Nat) : Nat :=
  max cfg.memtable_flush_bytes (replayed + 1)

/-- A file that is closed at this number of records. -/
def ReachesTarget (target_file_bytes n : Nat) : Prop :=
  n % 1000 = 0 ∧ target_file_bytes ≤ n * Event.kEncodedSize * 105 / 100

/-- What a step leaves in memory and writes. -/
structure WithinSizes (cfg : DBConfig) (replayed : Nat) (db : DB) (s : Step) : Prop where
  active : (step db s).active_mem.arena.used < memtableLimit cfg replayed
  /-- the insert that fills it may need two blocks more -/
  queued : ∀ m ∈ (step db s).imm_mems, m.nodes ≠ [] ∧
    m.arena.used < memtableLimit cfg replayed + 2 * Arena.kBlockSize
  written : ∀ w ∈ tablesWritten db s, w.2.events ≠ []
  /-- an event takes 80 bytes, and its node 48 at least -/
  flushed : s = .flush_front → ∀ w ∈ tablesWritten db s,
    128 * w.2.events.length < memtableLimit cfg replayed + 2 * Arena.kBlockSize
  /-- no output goes on where it could be closed -/
  compacted : s = .compact → ∀ w ∈ tablesWritten db s, ∀ n, 0 < n → n < w.2.events.length →
    ¬ ReachesTarget cfg.sstable_target_bytes n
  /-- and only the last one ends before -/
  closed : s = .compact → ∀ w ∈ (tablesWritten db s).dropLast,
    ReachesTarget cfg.sstable_target_bytes w.2.events.length

end Kronos.Spec
