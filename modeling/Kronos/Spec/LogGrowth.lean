import Kronos.Spec.WalLog

/-!
# A log that starts from any bytes

The segments of a directory hold anything. Sessions open it the way `DB::open`
does and append; each ends anywhere: while the log is opened, between two
appends, in a record. The operating system lets the writes through.
-/

namespace Kronos.Spec

open Kronos

/-- The events that a recovery finds, in order. -/
def recordedEvents (dir : WalDir) : List Event := (read_all dir).records.map WALRecord.event

/-- What a session that has appended these events leaves. -/
inductive SessionLeaves (max_segment_bytes : Nat) (dir : WalDir) : List Event → WalDir → Prop where
  /-- the torn tail, if there is one, is not cut off yet -/
  | created {s : WalState} (hs : WALWriter.create dir max_segment_bytes = .ok () s) :
      SessionLeaves max_segment_bytes dir [] s.dir
  /-- the segment behind it is not there yet -/
  | truncated {s : WalState} (hs : WALWriter.create dir max_segment_bytes = .ok () s)
      (htorn : (read_all dir).torn = true) :
      SessionLeaves max_segment_bytes dir []
        (WALWriter.truncate (read_all dir).clean_end_offset s).dir
  | appended {s : WalState} (hs : (wal_recover dir max_segment_bytes).2 = .ok () s)
      (events : List Event) :
      SessionLeaves max_segment_bytes dir events (events.foldl appendEvent ⟨s, []⟩).state.dir
  /-- in the record of one more event, which is whole from `recordSize` bytes on -/
  | torn {s : WalState} (hs : (wal_recover dir max_segment_bytes).2 = .ok () s)
      (events : List Event) (e : Event) (stored : Nat) :
      SessionLeaves max_segment_bytes dir
        (events ++ if stored < recordSize then [] else [e])
        (tryAppend (events.foldl appendEvent ⟨s, []⟩) (e, ⟨stored, false⟩)).state.dir

/-- What any number of sessions make of a directory, and the events they put in it. -/
inductive LogGrows (dir : WalDir) : List Event → WalDir → Prop where
  | found : LogGrows dir [] dir
  | session {events new : List Event} {dir' dir'' : WalDir} (h : LogGrows dir events dir')
      (max_segment_bytes : Nat) (hend : SessionLeaves max_segment_bytes dir' new dir'') :
      LogGrows dir (events ++ new) dir''

end Kronos.Spec
