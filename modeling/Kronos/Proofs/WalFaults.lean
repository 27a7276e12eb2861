import Kronos.Lib.Run
import Kronos.Proofs.WalRecovery

/-!
# Appends that fail

`append` may throw in two places. A short `write(2)` leaves the front of a
record in the file while the offset stays; a failed rotation throws after the
record is whole on disk. The first is harmless until something is written
behind the leftover bytes: from then on the file and the offset disagree, and
the reader stops at the leftover. The second is an event on disk that nobody
was told of.

`Harmless` is the condition, on the state before a call and what the operating
system does to it, that neither happens. A run of harmless calls keeps the
shape of `WalHolds` with the acknowledged entries as its log, so the reader
returns exactly those.
-/

namespace Kronos

open Framing Spec

/-- The bytes an earlier short write left behind the writer's offset. -/
def leftover (s : WalState) : Bytes :=
  (s.dir.contents s.writer.segment_id).drop s.writer.current_offset

/-- A call that stores its whole record stores it right behind the last one,
and the rotation it triggers can open its file. A call that stores part of it
does not complete, with what an earlier one left, something the reader takes
for a record. -/
def Harmless (live : Live) (call : Event × AppendIO) : Prop :=
  let w := live.state.writer
  if recordSize ≤ call.2.stored then
    leftover live.state = [] ∧
      (w.max_segment_bytes ≤ w.current_offset + recordSize → call.2.open_ok = true)
  else
    leftover live.state = [] ∨
      ¬ WalRecordAt (leftover live.state ++ (wal_record call.1).take call.2.stored)

/-- A writer whose acknowledged entries are the log, behind which an earlier
short write may have left bytes that are no record. -/
def Intact (live : Live) : Prop :=
  ∃ init last tail, Running live.state init last tail ∧ walFormat.parse tail = none ∧
    live.log = logOf init last

theorem Running.leftover {s : WalState} {init : List (List Event)} {last : List Event}
    {tail : Bytes} (hs : Running s init last tail) : leftover s = tail := by
  rw [Kronos.leftover, hs.segment_id, hs.current_offset, hs.holds.contents_last,
    ← recs_length, List.drop_left]

/-- A harmless call keeps the log intact, whether it throws or not. -/
theorem tryAppend_intact (live : Live) (call : Event × AppendIO) (h : Intact live)
    (hok : Harmless live call) : Intact (tryAppend live call) := by
  obtain ⟨init, last, tail, hrun, htail, hlog⟩ := h
  obtain ⟨e, io⟩ := call
  simp only [Harmless, hrun.leftover] at hok
  split at hok
  · next hwhole =>
      obtain ⟨rfl, hrot⟩ := hok
      obtain ⟨s', init', last', happ, hrun', hlog'⟩ := append_whole hrun e hwhole hrot
      rw [tryAppend, happ]
      refine ⟨init', last', [], hrun', walFormat_parse_nil, ?_⟩
      rw [hlog', logOf_append, hlog]
  · next hshort =>
      obtain ⟨s', happ, hrun'⟩ := append_short hrun e (Nat.lt_of_not_le hshort)
      rw [tryAppend, happ]
      refine ⟨init, last, _, hrun', ?_, hlog⟩
      rcases hok with rfl | hno
      · exact walFormat_torn e (Nat.lt_of_not_le hshort)
      · exact walFormat_parse_none hno

/-- As long as every call is harmless, the reader returns exactly the events
whose append returned normally, in call order, each at the place it returned. -/
theorem harmless_appends_intact (max_segment_bytes : Nat) (history : List (List Event × Nat))
    (calls : List (Event × AppendIO))
    (h : Run.Along tryAppend Harmless
      (runSession max_segment_bytes (runHistory max_segment_bytes history) []) calls) :
    let live := calls.foldl tryAppend
      (runSession max_segment_bytes (runHistory max_segment_bytes history) [])
    (read_all live.state.dir).records = live.log.map LogEntry.record ∧
      ∀ x ∈ live.log, RecordAt live.state.dir x := by
  intro live
  have hstart := runHistory_survives max_segment_bytes history
  obtain ⟨init, last, hrun, hlog⟩ := (runSession_serves hstart max_segment_bytes []).1
  obtain ⟨init, last, tail, hrun, htail, hlog⟩ : Intact live :=
    h.invariant tryAppend_intact ⟨init, last, [], hrun, walFormat_parse_nil, hlog⟩
  rw [hlog]
  exact ⟨hrun.holds.read_all_records htail, fun x hx => hrun.holds.recordAt hx⟩

theorem harmless_appends_intact_torn_last :
    let calls : List (Event × AppendIO) := [({ quantity := 1 }, {}), ({}, { stored := 5 })]
    let live := calls.foldl tryAppend (runSession 1000 (runHistory 1000 []) [])
    (read_all live.state.dir).records = live.log.map LogEntry.record ∧
      ∀ x ∈ live.log, RecordAt live.state.dir x :=
  harmless_appends_intact 1000 [] _
    ⟨⟨by decide, fun _ => rfl⟩, .inl (by decide), trivial⟩

/-! ## What a leftover byte does -/

/-- One byte of a record, then the same record whole. -/
def retriedAppend : List (Event × AppendIO) := [({}, { stored := 1 }), ({}, {})]

/-- The magic number is read one byte early. -/
theorem retried_unread : walFormat.parse (0x4E :: wal_record {}) = none := by
  refine walFormat_parse_none fun h => ?_
  have hmagic := h.2.1
  revert hmagic
  decide

/-- The second call is acknowledged at offset 0 and never read back. -/
theorem retried_append_lost :
    let live := retriedAppend.foldl tryAppend (runSession 1000 (runHistory 1000 []) [])
    live.log = [⟨{}, 1, 0⟩] ∧
      (read_all live.state.dir).records ≠ live.log.map LogEntry.record := by
  intro live
  have hdir : live.state.dir.lookup 1 = some (0x4E :: wal_record {}) := rfl
  have hmax : live.state.dir.max_segment_id = 1 := rfl
  have hlog : live.log = [⟨{}, 1, 0⟩] := rfl
  have hread : (read_all live.state.dir).records = [] := by
    rw [read_all, hmax, (foldl_read_next ..).1]
    change [] ++ (segmentRecords live.state.dir 1 ++ []) = _
    rw [segmentRecords, hdir]
    simp only [read_segment_records, Format.scan_none retried_unread]
    rfl
  refine ⟨hlog, ?_⟩
  rw [hread, hlog]
  exact (List.cons_ne_nil _ _).symm

end Kronos
