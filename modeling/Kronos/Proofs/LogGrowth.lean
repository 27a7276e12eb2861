import Kronos.Proofs.WalReader
import Kronos.Proofs.WalAppend
import Kronos.Spec.LogGrowth

/-!
# Nothing readable is ever lost

Whatever the segments hold, opening leaves the writer on a last segment that is
read to its end: a clean one, or a new one behind the torn tail that was cut
off. A record written there is one more record for the reader, and the start of
one is none.
-/

namespace Kronos

open Framing Spec

/-! ## The last segment -/

theorem le_max_segment_id {dir : WalDir} {id : Nat} (h : id ∈ dir) : id ≤ dir.max_segment_id :=
  (le_foldl_max dir.keys 0).2 id (AList.mem_keys.mp h)

theorem max_segment_id_le {dir : WalDir} {n : Nat} (h : ∀ id ∈ dir, id ≤ n) :
    dir.max_segment_id ≤ n :=
  foldl_max_le (Nat.zero_le n) fun id hid => h id (AList.mem_keys.mpr hid)

theorem foldl_max_mem (l : List Nat) (a : Nat) : l.foldl max a = a ∨ l.foldl max a ∈ l := by
  induction l generalizing a with
  | nil => exact .inl rfl
  | cons x xs ih =>
      rcases ih (max a x) with heq | hin
      · rcases Nat.le_total a x with hle | hle
        · exact .inr (by rw [List.foldl_cons, heq, Nat.max_eq_right hle]; exact List.mem_cons_self)
        · exact .inl (by rw [List.foldl_cons, heq, Nat.max_eq_left hle])
      · exact .inr (List.mem_cons_of_mem _ hin)

theorem max_segment_lookup {dir : WalDir} (h : 0 < dir.max_segment_id) :
    ∃ file, dir.lookup dir.max_segment_id = some file := by
  have hmem : dir.max_segment_id ∈ dir.keys :=
    (foldl_max_mem dir.keys 0).resolve_left (Nat.pos_iff_ne_zero.mp h)
  exact Option.isSome_iff_exists.mp (AList.lookup_isSome.mpr (AList.mem_keys.mpr hmem))

theorem max_segment_insert {dir : WalDir} {id : Nat} (h : dir.max_segment_id ≤ id) (file : Bytes) :
    WalDir.max_segment_id (dir.insert id file) = id := by
  refine Nat.le_antisymm (max_segment_id_le fun other hother => ?_) (le_max_segment_id ?_)
  · rcases (AList.mem_insert dir).mp hother with rfl | hother
    · exact Nat.le_refl _
    · exact Nat.le_trans (le_max_segment_id hother) h
  · exact (AList.mem_insert dir).mpr (.inl rfl)

/-- The events of one segment. -/
def segmentEvents (file : Bytes) : List Event := (read_segment file).records.map WALRecord.event

/-- The events in front of a segment. -/
def eventsBefore (dir : WalDir) (id : Nat) : List Event :=
  ((List.range' 1 (id - 1)).flatMap (segmentRecords dir)).map WALRecord.event

theorem recorded_eq (dir : WalDir) : recordedEvents dir =
    ((List.range' 1 dir.max_segment_id).flatMap (segmentRecords dir)).map WALRecord.event := by
  rw [recordedEvents, read_all, (foldl_read_next ..).1, List.nil_append]

theorem segmentRecords_insert_ne {dir : WalDir} {id other : Nat} (h : other ≠ id) (file : Bytes) :
    segmentRecords (dir.insert id file) other = segmentRecords dir other := by
  rw [segmentRecords, AList.lookup_insert_ne h, segmentRecords]

theorem recorded_insert {dir : WalDir} {id : Nat} (hpos : 0 < id) (h : dir.max_segment_id ≤ id)
    (file : Bytes) :
    recordedEvents (dir.insert id file) = eventsBefore dir id ++ segmentEvents file := by
  obtain ⟨m, rfl⟩ := Nat.exists_eq_succ_of_ne_zero (Nat.pos_iff_ne_zero.mp hpos)
  have hlast : segmentRecords (dir.insert (m + 1) file) (m + 1) = (read_segment file).records := by
    rw [segmentRecords, AList.lookup_insert]
  have hfront : (List.range' 1 m).flatMap (segmentRecords (dir.insert (m + 1) file)) =
      (List.range' 1 m).flatMap (segmentRecords dir) := by
    refine List.flatMap_congr fun other hother => segmentRecords_insert_ne ?_ file
    have := List.mem_range'_1.mp hother
    omega
  rw [recorded_eq, max_segment_insert h, Nat.succ_eq_add_one, List.range'_concat, Nat.one_mul,
    Nat.add_comm 1 m, List.flatMap_append, List.flatMap_cons, List.flatMap_nil, List.append_nil,
    hlast, hfront, List.map_append]
  rfl

theorem recorded_last {dir : WalDir} {id : Nat} (hpos : 0 < id) (h : dir.max_segment_id = id)
    {file : Bytes} (hfile : dir.lookup id = some file) :
    recordedEvents dir = eventsBefore dir id ++ segmentEvents file := by
  rw [← recorded_insert hpos (Nat.le_of_eq h) file]
  have hsame : ∀ other, (dir.insert id file).lookup other = dir.lookup other := by
    intro other
    by_cases heq : other = id
    · rw [heq, AList.lookup_insert, hfile]
    · exact AList.lookup_insert_ne heq
  have hrecords : segmentRecords (dir.insert id file) = segmentRecords dir := by
    funext other
    rw [segmentRecords, hsame, segmentRecords]
  rw [recorded_eq, recorded_eq, max_segment_insert (Nat.le_of_eq h), h, hrecords]

/-- A new segment adds nothing. -/
theorem recorded_next (dir : WalDir) :
    recordedEvents (dir.insert (dir.max_segment_id + 1) []) = recordedEvents dir := by
  have hempty : segmentEvents [] = [] := by
    rw [segmentEvents, read_segment_records, Format.scan_none walFormat_parse_nil]
    rfl
  rw [recorded_insert (Nat.succ_pos _) (Nat.le_succ _), hempty, List.append_nil, recorded_eq]
  rfl

theorem contents_of_lookup {dir : WalDir} {id : Nat} {file : Bytes}
    (h : dir.lookup id = some file) : dir.contents id = file := by
  rw [WalDir.contents, h]
  rfl

theorem contents_beyond {dir : WalDir} {id : Nat} (h : dir.max_segment_id < id) :
    dir.contents id = [] := by
  have hnone : dir.lookup id = none := by
    by_contra hsome
    obtain ⟨file, hfile⟩ := Option.ne_none_iff_exists'.mp hsome
    have hmem : id ∈ dir := AList.lookup_isSome.mp (by rw [hfile]; rfl)
    exact Nat.lt_irrefl _ (Nat.lt_of_lt_of_le h (le_max_segment_id hmem))
  rw [WalDir.contents, hnone]
  rfl

theorem recorded_contents {dir : WalDir} (hpos : 0 < dir.max_segment_id) :
    recordedEvents dir = eventsBefore dir dir.max_segment_id ++
      segmentEvents (dir.contents dir.max_segment_id) := by
  obtain ⟨file, hfile⟩ := max_segment_lookup hpos
  rw [contents_of_lookup hfile]
  exact recorded_last hpos rfl hfile

/-! ## A segment that is read to its end -/

def Clean (file : Bytes) : Prop := (read_segment file).clean_end = file.length

theorem Clean.append {a b : Bytes} (ha : Clean a) :
    segmentEvents (a ++ b) = segmentEvents a ++ segmentEvents b ∧ (Clean b → Clean (a ++ b)) := by
  constructor
  · rw [segmentEvents, read_segment_append ha, List.map_append, List.map_map]
    rfl
  · intro hb
    rw [Clean, read_segment_clean_end] at ha hb ⊢
    rw [Format.clean_append b ha, hb, List.length_append]

theorem segment_nil : segmentEvents [] = [] ∧ Clean [] := by
  rw [segmentEvents, Clean, read_segment_records, read_segment_clean_end,
    Format.scan_none walFormat_parse_nil, Format.clean_none walFormat_parse_nil]
  exact ⟨rfl, rfl⟩

theorem segment_record (e : Event) :
    segmentEvents (wal_record e) = [e] ∧ Clean (wal_record e) := by
  have hparse := walFormat_wal_record e
  have hrest : (wal_record e).drop (wal_record e).length = [] := List.drop_length
  rw [segmentEvents, Clean, read_segment_records, read_segment_clean_end, Format.scan_some hparse,
    Format.clean_some hparse, hrest, Format.scan_none walFormat_parse_nil,
    Format.clean_none walFormat_parse_nil]
  exact ⟨rfl, rfl⟩

/-- The start of a record is none. -/
theorem segment_torn (e : Event) {stored : Nat} (h : stored < recordSize) :
    segmentEvents ((wal_record e).take stored) = [] := by
  rw [segmentEvents, read_segment_records, Format.scan_none (walFormat_torn e h)]
  rfl

/-- A segment that is cut where reading stopped. -/
theorem segment_cut (file : Bytes) :
    segmentEvents (file.take (read_segment file).clean_end) = segmentEvents file ∧
      Clean (file.take (read_segment file).clean_end) := by
  have hle := read_segment_clean_end_le file
  rw [segmentEvents, Clean, read_segment_take, List.length_take, Nat.min_eq_left hle]
  exact ⟨rfl, rfl⟩

/-! ## The writer on it -/

/-- The writer is on the last segment. -/
structure OnLast (s : WalState) : Prop where
  pos : 0 < s.dir.max_segment_id
  fd : s.writer.fd = some s.dir.max_segment_id
  segment_id : s.writer.segment_id = s.dir.max_segment_id

/-- The writer is on the last segment, and that is read to its end. -/
structure Extends (s : WalState) : Prop extends OnLast s where
  clean : Clean (s.dir.contents s.dir.max_segment_id)

theorem rotate_extends {s : WalState} (hid : s.writer.segment_id = s.dir.max_segment_id) :
    ∃ s', WALWriter.rotate true s = .ok () s' ∧ Extends s' ∧
      recordedEvents s'.dir = recordedEvents s.dir := by
  have hnew := contents_beyond (Nat.lt_succ_self s.dir.max_segment_id)
  have hmax := max_segment_insert (Nat.le_succ s.dir.max_segment_id) []
  rw [WALWriter.rotate, hid]
  refine ⟨_, rfl, ⟨⟨?_, ?_, ?_⟩, ?_⟩, ?_⟩ <;> dsimp only <;> rw [hnew]
  · rw [hmax]
    exact Nat.succ_pos _
  · rw [hmax]
  · rw [hmax]
  · rw [hmax, contents_of_lookup (AList.lookup_insert _)]
    exact segment_nil.2
  · exact recorded_next s.dir

/-- Bytes behind the last segment are read like a segment of their own. -/
theorem Extends.recorded_grow {s : WalState} (h : Extends s) (data : Bytes) :
    recordedEvents (s.dir.insert s.dir.max_segment_id
        (s.dir.contents s.dir.max_segment_id ++ data)) =
      recordedEvents s.dir ++ segmentEvents data := by
  rw [recorded_insert h.pos (Nat.le_refl _), recorded_contents h.pos, (Clean.append h.clean).1,
    List.append_assoc]

theorem Extends.write {s : WalState} (h : Extends s) {data : Bytes} (hdata : Clean data)
    (offset : Nat) :
    Extends
      { dir := s.dir.insert s.dir.max_segment_id (s.dir.contents s.dir.max_segment_id ++ data)
        writer := { s.writer with current_offset := offset } } := by
  have hmax := max_segment_insert (Nat.le_refl s.dir.max_segment_id)
    (s.dir.contents s.dir.max_segment_id ++ data)
  refine ⟨⟨?_, ?_, ?_⟩, ?_⟩ <;> dsimp only <;> rw [hmax]
  · exact h.pos
  · exact h.fd
  · exact h.segment_id
  · rw [contents_of_lookup (AList.lookup_insert _)]
    exact (Clean.append h.clean).2 hdata

/-- A whole record is one more event, on the same segment or in front of a new one. -/
theorem Extends.append {s : WalState} (h : Extends s) (e : Event) :
    ∃ r s', WALWriter.append e {} s = .ok r s' ∧ Extends s' ∧
      recordedEvents s'.dir = recordedEvents s.dir ++ [e] := by
  have hlen := wal_record_length e
  have hfull : (wal_record e).take ({} : AppendIO).stored = wal_record e :=
    List.take_of_length_le (Nat.le_of_eq hlen)
  have hwritten := h.write (segment_record e).2 (s.writer.current_offset + 78)
  have hgrow := h.recorded_grow (wal_record e)
  rw [(segment_record e).1] at hgrow
  simp only [h.fd] at hwritten
  simp only [WALWriter.append, h.fd, WALWriter.write, hfull, hlen]
  rw [if_neg (show ¬ ({} : AppendIO).stored < 78 by decide)]
  split
  · obtain ⟨s', hs', hext, hsame⟩ := rotate_extends hwritten.segment_id
    rw [hs']
    exact ⟨_, s', rfl, hext, hsame.trans hgrow⟩
  · exact ⟨_, _, rfl, hwritten, hgrow⟩

theorem appendEvents_extend (live : Live) (h : Extends live.state) (events : List Event) :
    Extends (events.foldl appendEvent live).state ∧
      recordedEvents (events.foldl appendEvent live).state.dir =
        recordedEvents live.state.dir ++ events := by
  induction events generalizing live with
  | nil => exact ⟨h, (List.append_nil _).symm⟩
  | cons e es ih =>
      obtain ⟨r, s', happ, hext, hrec⟩ := h.append e
      have hlive : appendEvent live e = ⟨s', live.log ++ [⟨e, r.segment_id, r.file_offset⟩]⟩ := by
        rw [appendEvent, tryAppend, happ]
      rw [List.foldl_cons, hlive]
      obtain ⟨hext', hrec'⟩ := ih ⟨s', _⟩ hext
      exact ⟨hext', by rw [hrec', hrec, List.append_assoc, List.singleton_append]⟩

/-- A session that ends in a record has written its start, and no segment behind it. -/
theorem Extends.torn_dir {live : Live} (h : Extends live.state) (e : Event) (stored : Nat) :
    (tryAppend live (e, ⟨stored, false⟩)).state.dir =
      live.state.dir.insert live.state.dir.max_segment_id
        (live.state.dir.contents live.state.dir.max_segment_id ++ (wal_record e).take stored) := by
  rw [tryAppend, WALWriter.append]
  simp only [h.fd, WALWriter.write, WALWriter.rotate, WALWriter.open_segment]
  split
  · next r s' hs' =>
      split at hs'
      · cases hs'
      · split at hs'
        · cases hs'
        · cases hs'
          rfl
  · next err s' hs' =>
      split at hs'
      · cases hs'
        rfl
      · split at hs' <;> cases hs'
        rfl

theorem Extends.torn {live : Live} (h : Extends live.state) (e : Event) (stored : Nat) :
    recordedEvents (tryAppend live (e, ⟨stored, false⟩)).state.dir =
      recordedEvents live.state.dir ++ if stored < recordSize then [] else [e] := by
  rw [h.torn_dir, h.recorded_grow]
  split
  · next hshort => rw [segment_torn e hshort]
  · next hlong =>
      rw [List.take_of_length_le (by rw [wal_record_length]; exact Nat.le_of_not_lt hlong),
        (segment_record e).1]

/-! ## Opening -/

theorem read_all_last {dir : WalDir} (hpos : 0 < dir.max_segment_id) :
    (read_all dir).clean_end_offset =
      (read_segment (dir.contents dir.max_segment_id)).clean_end := by
  obtain ⟨file, hfile⟩ := max_segment_lookup hpos
  obtain ⟨m, hm⟩ := Nat.exists_eq_succ_of_ne_zero (Nat.pos_iff_ne_zero.mp hpos)
  rw [contents_of_lookup hfile]
  rw [hm, Nat.succ_eq_add_one] at hfile
  rw [read_all, hm, Nat.succ_eq_add_one, List.range'_concat, Nat.one_mul, Nat.add_comm 1 m,
    List.foldl_append, List.foldl_cons, List.foldl_nil, read_next, hfile]

/-- A recovery that sees nothing torn has read the last segment to its end. -/
theorem last_read_whole {dir : WalDir} (hpos : 0 < dir.max_segment_id)
    (h : (read_all dir).torn = false) : Clean (dir.contents dir.max_segment_id) := by
  obtain ⟨file, hfile⟩ := max_segment_lookup hpos
  have hlast : dir.max_segment_id ∈ List.range' 1 dir.max_segment_id :=
    List.mem_range'_1.mpr (by omega)
  rw [read_all, (foldl_read_next ..).2, Bool.false_or] at h
  have hseg := List.any_eq_false.mp h _ hlast
  rw [segmentTorn, hfile] at hseg
  have hend := mt (read_segment_torn file).mpr hseg
  rw [contents_of_lookup hfile, Clean, read_segment_clean_end]
  exact Nat.le_antisymm (Format.clean_le_length file) (Nat.le_of_not_lt hend)

/-- The constructor opens the last segment, or the first of a directory without one. -/
theorem create_on_last (dir : WalDir) (max_segment_bytes : Nat) :
    ∃ s, WALWriter.create dir max_segment_bytes = .ok () s ∧ OnLast s ∧
      s.dir.contents s.dir.max_segment_id = dir.contents (max 1 dir.max_segment_id) ∧
      recordedEvents s.dir = recordedEvents dir := by
  have hid : (if dir.max_segment_id > 0 then dir.max_segment_id else 1) =
      max 1 dir.max_segment_id := by
    split <;> omega
  have hle : dir.max_segment_id ≤ max 1 dir.max_segment_id := Nat.le_max_right ..
  have hmax := max_segment_insert hle (dir.contents (max 1 dir.max_segment_id))
  rw [WALWriter.create]
  simp only [hid, WALWriter.open_segment, if_true]
  refine ⟨_, rfl, ⟨?_, ?_, ?_⟩, ?_, ?_⟩ <;> dsimp only
  · rw [hmax]
    exact Nat.lt_of_lt_of_le Nat.zero_lt_one (Nat.le_max_left ..)
  · rw [hmax]
  · rw [hmax]
  · rw [hmax, contents_of_lookup (AList.lookup_insert _)]
  · rcases Nat.eq_zero_or_pos dir.max_segment_id with hzero | hpos
    · have hone : max 1 dir.max_segment_id = dir.max_segment_id + 1 := by omega
      rw [hone, contents_beyond (Nat.lt_succ_self _)]
      exact recorded_next dir
    · rw [Nat.max_eq_right hpos, recorded_insert hpos (Nat.le_refl _), recorded_contents hpos]

/-- Cutting the last segment where reading stopped takes no event with it. -/
theorem truncate_last {s : WalState} (h : OnLast s) {size : Nat}
    (hsize : size = (read_segment (s.dir.contents s.dir.max_segment_id)).clean_end) :
    Extends (WALWriter.truncate size s) ∧
      recordedEvents (WALWriter.truncate size s).dir = recordedEvents s.dir := by
  obtain ⟨hevents, hclean⟩ := segment_cut (s.dir.contents s.dir.max_segment_id)
  have hmax := max_segment_insert (Nat.le_refl s.dir.max_segment_id)
    ((s.dir.contents s.dir.max_segment_id).take size)
  rw [WALWriter.truncate, h.fd]
  refine ⟨⟨⟨?_, ?_, ?_⟩, ?_⟩, ?_⟩ <;> dsimp only
  · rw [hmax]
    exact h.pos
  · rw [hmax]
    exact h.fd
  · rw [hmax]
    exact h.segment_id
  · rw [hmax, contents_of_lookup (AList.lookup_insert _), hsize]
    exact hclean
  · rw [recorded_insert h.pos (Nat.le_refl _), recorded_contents h.pos, hsize, hevents]

theorem pos_of_torn {dir : WalDir} (h : (read_all dir).torn = true) : 0 < dir.max_segment_id := by
  rw [Nat.pos_iff_ne_zero]
  intro hzero
  rw [read_all, hzero] at h
  cases h

/-- The writer that `create` opened on a directory that holds these events. -/
theorem create_sees {dir : WalDir} {max_segment_bytes : Nat} {s : WalState}
    (hs : WALWriter.create dir max_segment_bytes = .ok () s) :
    OnLast s ∧ recordedEvents s.dir = recordedEvents dir ∧
      ((read_all dir).torn = false → Clean (s.dir.contents s.dir.max_segment_id)) ∧
      ((read_all dir).torn = true → (read_all dir).clean_end_offset =
        (read_segment (s.dir.contents s.dir.max_segment_id)).clean_end) := by
  obtain ⟨s', hs', hlast, hcontents, hsame⟩ := create_on_last dir max_segment_bytes
  cases hs.symm.trans hs'
  rw [hcontents]
  refine ⟨hlast, hsame, fun hclean => ?_, fun htorn => ?_⟩
  · rcases Nat.eq_zero_or_pos dir.max_segment_id with hzero | hpos
    · rw [contents_beyond (by omega)]
      exact segment_nil.2
    · rw [Nat.max_eq_right hpos]
      exact last_read_whole hpos hclean
  · have hpos := pos_of_torn htorn
    rw [Nat.max_eq_right hpos]
    exact read_all_last hpos

/-- Opening leaves a writer that extends the log, and every event that was there. -/
theorem recover_extends (dir : WalDir) (max_segment_bytes : Nat) :
    ∃ s, (wal_recover dir max_segment_bytes).2 = .ok () s ∧ Extends s ∧
      recordedEvents s.dir = recordedEvents dir := by
  obtain ⟨s, hs, -⟩ := create_on_last dir max_segment_bytes
  obtain ⟨hlast, hsame, hclean, hend⟩ := create_sees hs
  simp only [wal_recover, hs]
  split
  · next htorn =>
      rw [WALWriter.truncate_and_seal]
      split
      · obtain ⟨hext, hcut⟩ := truncate_last hlast (hend htorn)
        obtain ⟨s', hs', hext', hrot⟩ := rotate_extends hext.segment_id
        exact ⟨s', hs', hext', hrot.trans (hcut.trans hsame)⟩
      · -- the torn segment is an earlier one, and this one is sealed as it is
        obtain ⟨s', hs', hext', hrot⟩ := rotate_extends hlast.segment_id
        exact ⟨s', hs', hext', hrot.trans hsame⟩
  · next htorn =>
      exact ⟨s, rfl, ⟨hlast, hclean (Bool.eq_false_of_not_eq_true htorn)⟩, hsame⟩

theorem recovered_extends {dir : WalDir} {max_segment_bytes : Nat} {s : WalState}
    (hs : (wal_recover dir max_segment_bytes).2 = .ok () s) :
    Extends s ∧ recordedEvents s.dir = recordedEvents dir := by
  obtain ⟨s', hs', h⟩ := recover_extends dir max_segment_bytes
  cases hs.symm.trans hs'
  exact h

/-! ## Any number of sessions -/

theorem session_leaves {max_segment_bytes : Nat} {dir dir' : WalDir} {new : List Event}
    (h : SessionLeaves max_segment_bytes dir new dir') :
    recordedEvents dir' = recordedEvents dir ++ new := by
  cases h with
  | created hs =>
      rw [(create_sees hs).2.1, List.append_nil]
  | truncated hs htorn =>
      obtain ⟨hlast, hsame, -, hend⟩ := create_sees hs
      rw [(truncate_last hlast (hend htorn)).2, hsame, List.append_nil]
  | appended hs =>
      obtain ⟨hext, hsame⟩ := recovered_extends hs
      rw [(appendEvents_extend ⟨_, []⟩ hext new).2, hsame]
  | torn hs events e stored =>
      obtain ⟨hext, hsame⟩ := recovered_extends hs
      obtain ⟨hext', hrec⟩ := appendEvents_extend ⟨_, []⟩ hext events
      rw [hext'.torn, hrec, hsame, List.append_assoc]

/-- Whatever bytes the segments held, every event a recovery could read there
is still read after any number of sessions, and behind them, in order and each
once, the events that were written whole. -/
theorem log_grows_recorded {dir dir' : WalDir} {events : List Event}
    (h : LogGrows dir events dir') : recordedEvents dir' = recordedEvents dir ++ events := by
  induction h with
  | found => rw [List.append_nil]
  | session h max_segment_bytes hend ih => rw [session_leaves hend, ih, List.append_assoc]

/-- A segment with a record and three bytes behind it: the next session writes
one event and the start of another, and the one after it an event more. -/
theorem log_grows_recorded_torn :
    ∃ dir dir' : WalDir,
      dir.lookup 1 = some (wal_record { timestamp_ns := 1 } ++ [1, 2, 3]) ∧
      LogGrows dir [{ timestamp_ns := 2 }, { timestamp_ns := 4 }] dir' ∧
      recordedEvents dir' =
        recordedEvents dir ++ [{ timestamp_ns := 2 }, { timestamp_ns := 4 }] := by
  let dir : WalDir := AList.insert 1 (wal_record { timestamp_ns := 1 } ++ [1, 2, 3]) ∅
  obtain ⟨s, hs, -⟩ := recover_extends dir 1000
  have hfirst := LogGrows.found.session 1000
    (.torn hs [{ timestamp_ns := 2 }] { timestamp_ns := 3 } 10)
  obtain ⟨s', hs', -⟩ := recover_extends _ 1000
  have hsecond := hfirst.session 1000 (.appended hs' [{ timestamp_ns := 4 }])
  exact ⟨dir, _, AList.lookup_insert _, hsecond, log_grows_recorded hsecond⟩

end Kronos
