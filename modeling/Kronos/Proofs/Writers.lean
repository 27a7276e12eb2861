import Kronos.Proofs.WalRecovery
import Kronos.Ref.Writers
import Kronos.Spec.Crash

/-!
# The log under writing calls

What the log of a database reads back as, from the open on and under the steps
of writing calls: only the step that appends to it changes it, and every call
that comes to that step is let through as long as the log is open.
-/

namespace Kronos

open Spec

/-- The events a recovery would find. -/
def recoverable (disk : Disk) : List Event :=
  (read_all (disk.wal.getD ∅)).records.map WALRecord.event

/-- The log is open and reads back as these events. -/
def Logs (db : DB) (events : List Event) : Prop :=
  ∃ writer dir log, db.wal = some writer ∧ db.disk.wal = some dir ∧
    Serves ⟨⟨dir, writer⟩, log⟩ ∧ log.map LogEntry.event = events

theorem Logs.recoverable {db : DB} {events : List Event} (h : Logs db events) :
    recoverable db.disk = events := by
  obtain ⟨writer, dir, log, -, hdir, ⟨init, last, hrun, hlog⟩, rfl⟩ := h
  rw [Kronos.recoverable, hdir, Option.getD_some,
    hrun.holds.read_all_records walFormat_parse_nil, List.map_map]
  exact congrArg (List.map LogEntry.event) hlog.symm

/-- The log of another database in the same state. -/
theorem Logs.congr {db db' : DB} {events : List Event} (h : Logs db events)
    (hwal : db'.wal = db.wal) (hdisk : db'.disk.wal = db.disk.wal) : Logs db' events := by
  obtain ⟨writer, dir, log, h1, h2, h3⟩ := h
  exact ⟨writer, dir, log, hwal.trans h1, hdisk.trans h2, h3⟩

theorem Logs.append {db : DB} {events : List Event} (h : Logs db events) (e : Event) :
    ∃ off writer dir, db.wal_append e {} =
        .ok off { db with wal := some writer, disk := { db.disk with wal := some dir } } ∧
      Logs { db with wal := some writer, disk := { db.disk with wal := some dir } }
        (events ++ [e]) := by
  obtain ⟨writer, dir, log, hwal, hdir, hserves, rfl⟩ := h
  obtain ⟨r, s, happ, hserves'⟩ := hserves.append e
  refine ⟨r.file_offset, s.writer, s.dir, ?_, s.writer, s.dir, _, rfl, rfl, hserves', ?_⟩
  · rw [DB.wal_append, hwal]
    simp only [hdir, Option.getD_some, happ]
  · rw [List.map_append, List.map_singleton]

/-- The log is closed and lets no append through. -/
def Closed (db : DB) : Prop := ∃ writer, db.wal = some writer ∧ writer.fd = none

theorem Closed.append {db : DB} (h : Closed db) (e : Event) (io : AppendIO) :
    ∃ db', db.wal_append e io = .error (.wal .write_failed) db' ∧ Closed db' ∧
      recoverable db'.disk = recoverable db.disk := by
  obtain ⟨writer, hwal, hfd⟩ := h
  refine ⟨{ db with wal := some writer, disk := { db.disk with wal := some (db.disk.wal.getD ∅) } },
    ?_, ⟨writer, rfl, hfd⟩, rfl⟩
  rw [DB.wal_append, hwal]
  simp only [WALWriter.append, hfd]

/-! ## Steps of a call -/

namespace Writers

variable {w : Writers} {i : Nat}

theorem next_eq {c : WriteCall} (hi : w.calls[i]? = some c) (height : Fin kMaxHeight) :
    w.next i height =
      { w with
        db := (w.advance height c).2
        calls := w.calls.set i { c with at_ := (w.advance height c).1 } } := by
  rw [next, hi]

theorem next_none (hi : w.calls[i]? = none) (height : Fin kMaxHeight) : w.next i height = w := by
  rw [next, hi]

/-- Away from the log's step a call leaves the log alone. -/
theorem advance_log (height : Fin kMaxHeight) {c : WriteCall} (hc : ∀ e, c.at_ ≠ .drawn e) :
    (w.advance height c).2.wal = w.db.wal ∧
      (w.advance height c).2.disk.wal = w.db.disk.wal := by
  have hinsert : ∀ e, (w.db.mem_insert e height).wal = w.db.wal ∧
      (w.db.mem_insert e height).disk.wal = w.db.disk.wal := fun e => by
    rw [DB.mem_insert]
    split <;> exact ⟨rfl, rfl⟩
  rw [advance]
  split
  · exact ⟨rfl, rfl⟩
  · cases c.args <;> exact ⟨rfl, rfl⟩
  · next e hat => exact absurd hat (hc e)
  · split
    · exact ⟨rfl, rfl⟩
    · split <;> exact hinsert _
  · split <;> exact ⟨rfl, rfl⟩
  all_goals exact ⟨rfl, rfl⟩

theorem advance_drawn {c : WriteCall} {e : Event} (hc : c.at_ = .drawn e) {events : List Event}
    (h : Logs w.db events) (height : Fin kMaxHeight) :
    ∃ off, (w.advance height c).1 = .logged e off ∧
      Logs (w.advance height c).2 (events ++ [e]) := by
  obtain ⟨off, writer, dir, happ, hlogs⟩ := h.append e
  refine ⟨off, ?_⟩
  rw [advance, hc]
  simp only [happ]
  exact ⟨trivial, hlogs⟩

end Writers

/-! ## Opening -/

/-- A directory as earlier sessions left it: with the log of a history of
sessions, and anything else beside it. A directory without a log is like one
with an empty log. -/
def withLog (max_segment_bytes : Nat) (history : List (List Event × Nat)) (disk : Disk) : Disk :=
  { disk with wal := some (runHistory max_segment_bytes history).dir }

theorem recoverable_withLog (max_segment_bytes : Nat) (history : List (List Event × Nat))
    (disk : Disk) : recoverable (withLog max_segment_bytes history disk) =
      (runHistory max_segment_bytes history).log.map LogEntry.event := by
  rw [recoverable, withLog, Option.getD_some]
  rcases runHistory_survives max_segment_bytes history with
    ⟨hdir, hlog⟩ | ⟨init, last, tail, hdir, htail, hlog⟩
  · rw [hdir, hlog, read_all_empty]
    rfl
  · rw [hdir.read_all_records htail, hlog, List.map_map]
    rfl

/-- `open` recovers the log and goes on writing behind it. -/
theorem opened_logs {cfg : DBConfig} (hwal : cfg.wal_enabled = true) {dir : WalDir}
    {log : List LogEntry} (hlog : Survives ⟨dir, log⟩) {disk : Disk} (hdir : disk.wal = some dir)
    (listing : List SSTablePath) (heights : Nat → Fin kMaxHeight) :
    Logs (opened cfg disk listing heights) (log.map LogEntry.event) ∧
      (opened cfg disk listing heights).closed = false := by
  obtain ⟨s, hs, hserves⟩ := recover_serves hlog cfg.wal_segment_bytes
  let records := (wal_recover dir cfg.wal_segment_bytes).1.records
  have hopen : opened cfg disk listing heights =
      { DB.load cfg disk listing with
        active_mem := DB.replay heights records (DB.load cfg disk listing).active_mem
        next_seq := DB.recovered_seq records
        wal := some s.writer
        disk := { disk with wal := some s.dir } } := by
    simp only [opened, DB.open_, hwal, if_true, hdir, hs, after]
    rfl
  rw [hopen]
  exact ⟨⟨s.writer, s.dir, _, rfl, rfl, hserves, rfl⟩, rfl⟩

theorem opened_withLog {cfg : DBConfig} (hwal : cfg.wal_enabled = true)
    (max_segment_bytes : Nat) (history : List (List Event × Nat)) (disk : Disk)
    (listing : List SSTablePath) (heights : Nat → Fin kMaxHeight) :
    Logs (opened cfg (withLog max_segment_bytes history disk) listing heights)
      (recoverable (withLog max_segment_bytes history disk)) := by
  rw [recoverable_withLog]
  exact (opened_logs hwal (runHistory_survives max_segment_bytes history) rfl listing heights).1

/-- A log that is open can be opened again. -/
theorem Logs.survives {db : DB} {events : List Event} (h : Logs db events) :
    ∃ dir log, db.disk.wal = some dir ∧ Survives ⟨dir, log⟩ ∧ log.map LogEntry.event = events := by
  obtain ⟨writer, dir, log, -, hdir, ⟨init, last, hrun, hlog⟩, hevents⟩ := h
  exact ⟨dir, log, hdir, .inr ⟨init, last, [], hrun.holds, walFormat_parse_nil, hlog⟩, hevents⟩

end Kronos
