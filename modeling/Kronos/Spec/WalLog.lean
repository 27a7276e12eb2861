import Kronos.Ref.Wal

/-!
# The log a WAL directory stands for

What the log is for, without segments of bytes: a list of events in the order
they were appended, each with the place `append` answered. A crash keeps the
entries whose record it left whole and drops the others.

A session follows `DB::open`: recover, open the writer, truncate and seal when
the tail was torn; then append; then a crash cuts the highest-numbered segment
at any length.
-/

namespace Kronos.Spec

open Kronos

/-- 13 bytes of header and 65 of event. -/
def recordSize : Nat := kWalHeaderSize + Event.kEncodedSize

/-- One acknowledged append and where it was told its record is. -/
structure LogEntry where
  event : Event
  segment_id : Nat
  file_offset : Nat
  deriving DecidableEq, Repr

/-- The entry as `read_all` reports it. -/
def LogEntry.record (x : LogEntry) : WALRecord := ⟨x.event, x.file_offset⟩

/-- The record of an entry is in the file at the place the entry names. -/
def RecordAt (dir : WalDir) (x : LogEntry) : Prop :=
  ∃ file, dir.lookup x.segment_id = some file ∧
    (file.drop x.file_offset).take recordSize = wal_record x.event

/-- A directory and the acknowledged appends that survive in it. -/
structure Logged where
  dir : WalDir
  log : List LogEntry

/-- A running writer and the acknowledged appends so far. -/
structure Live where
  state : WalState
  log : List LogEntry

/-- One `append`: an entry is acknowledged when the call returns normally. -/
def tryAppend (live : Live) (call : Event × AppendIO) : Live :=
  match WALWriter.append call.1 call.2 live.state with
  | .ok r s => ⟨s, live.log ++ [⟨call.1, r.segment_id, r.file_offset⟩]⟩
  | .error _ s => ⟨s, live.log⟩

/-- One `append` that the operating system lets through. -/
def appendEvent (live : Live) (e : Event) : Live := tryAppend live (e, {})

/-- Open the directory and append a list of events. -/
def runSession (max_segment_bytes : Nat) (h : Logged) (events : List Event) : Live :=
  match (wal_recover h.dir max_segment_bytes).2 with
  | .ok _ s => events.foldl appendEvent ⟨s, h.log⟩
  | .error _ s => ⟨s, h.log⟩

/-- The bytes a cut leaves of the highest-numbered segment. -/
def cutSize (dir : WalDir) (cut : Nat) : Nat :=
  min cut (dir.contents dir.max_segment_id).length

/-- The first `cut` bytes of a segment are left. -/
def cutSegment (dir : WalDir) (id cut : Nat) : WalDir :=
  match dir.lookup id with
  | none => dir
  | some file => dir.insert id (file.take cut)

/-- A crash leaves any prefix of the highest-numbered segment, and the entries
whose record is whole in what is left. -/
def crash (live : Live) (cut : Nat) : Logged :=
  let dir := live.state.dir
  let id := dir.max_segment_id
  { dir := cutSegment dir id cut
    log := live.log.filter fun x => x.segment_id ≠ id ∨ x.file_offset + recordSize ≤ cut }

/-- A history of sessions, each a list of events and the cut of the crash that
ended it, on a directory that starts empty. -/
def runHistory (max_segment_bytes : Nat) (history : List (List Event × Nat)) : Logged :=
  history.foldl (fun h s => crash (runSession max_segment_bytes h s.1) s.2) ⟨∅, []⟩

/-- The first `size` bytes of a segment are whole records. -/
def AtRecordBoundary (log : List LogEntry) (id size : Nat) : Prop :=
  size = 0 ∨ ∃ x ∈ log, x.segment_id = id ∧ x.file_offset + recordSize = size

end Kronos.Spec
