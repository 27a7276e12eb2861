import Kronos.Proofs.WalLayout

/-!
# The writer keeps the directory well kept

A directory that a crash left holds a log, and so does one with a writer on
it: the log of the shape `WalHolds` gives it. Opening keeps the log: a torn
tail is cut off at the clean end and left behind a fresh segment, so what is
appended next never follows it. A whole write adds one entry at the end and
answers its place; a short one only grows the tail.
-/

namespace Kronos

open Framing Spec

/-! ## The two states a directory is in -/

/-- What a crash leaves: nothing yet, or a well-kept directory whose last
segment may end in a tail that is no record. -/
def Survives (h : Logged) : Prop :=
  (h.dir = ∅ ∧ h.log = []) ∨
  ∃ init last tail, WalHolds h.dir init last tail ∧ walFormat.parse tail = none ∧
    h.log = logOf init last

/-- A writer open on the last segment of a directory, its offset where the
whole records end. -/
structure Running (s : WalState) (init : List (List Event)) (last : List Event)
    (tail : Bytes) : Prop where
  holds : WalHolds s.dir init last tail
  fd : s.writer.fd = some (init.length + 1)
  segment_id : s.writer.segment_id = init.length + 1
  current_offset : s.writer.current_offset = recordSize * last.length

/-- The acknowledged log of a running session. -/
def Serves (live : Live) : Prop :=
  ∃ init last, Running live.state init last [] ∧ live.log = logOf init last

theorem logOf_concat (init : List (List Event)) (last : List Event) :
    logOf (init ++ [last]) [] = logOf init last := by
  simp [logOf, List.zipIdx_append, entriesOf, Nat.add_comm]

theorem entriesOf_concat (id : Nat) (es : List Event) (e : Event) :
    entriesOf id (es ++ [e]) = entriesOf id es ++ [⟨e, id, recordSize * es.length⟩] := by
  simp [entriesOf, List.zipIdx_append]

theorem logOf_append (init : List (List Event)) (last : List Event) (e : Event) :
    logOf init (last ++ [e]) =
      logOf init last ++ [⟨e, init.length + 1, recordSize * last.length⟩] := by
  rw [logOf, logOf, entriesOf_concat, List.append_assoc]

/-! ## Opening -/

theorem read_all_empty : read_all ∅ = {} := rfl

theorem rotate_running {s : WalState} {init : List (List Event)} {last : List Event}
    (hs : WalHolds s.dir init last []) (hid : s.writer.segment_id = init.length + 1) :
    ∃ s', WALWriter.rotate true s = .ok () s' ∧ Running s' (init ++ [last]) [] [] := by
  rw [WALWriter.rotate, hid]
  refine ⟨_, rfl, ⟨?_, ?_, ?_, ?_⟩⟩
  · simp only [hs.contents_next]
    exact hs.next
  · rw [List.length_append]; rfl
  · rw [List.length_append]; rfl
  · simp only [hs.contents_next]
    rfl

theorem create_holds {dir : WalDir} {init : List (List Event)} {last : List Event} {tail : Bytes}
    (h : WalHolds dir init last tail) (max_segment_bytes : Nat) :
    ∃ s, WALWriter.create dir max_segment_bytes = .ok () s ∧ WalHolds s.dir init last tail ∧
      s.writer.fd = some (init.length + 1) ∧ s.writer.segment_id = init.length + 1 ∧
      s.writer.current_offset = (recs last ++ tail).length := by
  have hid : (if dir.max_segment_id > 0 then dir.max_segment_id else 1) = init.length + 1 := by
    rw [h.max_segment_id, if_pos (Nat.succ_pos _)]
  rw [WALWriter.create]
  simp only [hid]
  refine ⟨_, rfl, ?_, rfl, rfl, ?_⟩
  · simp only [h.contents_last]
    exact h.set_last last tail
  · simp only [h.contents_last]

/-- Cutting the tail off at the clean end leaves whole records. -/
theorem truncate_holds {s : WalState} {init : List (List Event)} {last : List Event}
    {tail : Bytes} (hs : WalHolds s.dir init last tail)
    (hfd : s.writer.fd = some (init.length + 1)) :
    WalHolds (WALWriter.truncate (recordSize * last.length) s).dir init last [] ∧
      (WALWriter.truncate (recordSize * last.length) s).writer = s.writer := by
  have hcut : (recs last ++ tail).take (recordSize * last.length) = recs last ++ [] := by
    rw [← recs_length, List.take_left, List.append_nil]
  rw [WALWriter.truncate]
  simp only [hfd, hs.contents_last, hcut]
  exact ⟨hs.set_last last [], trivial⟩

/-- A writer on an empty directory starts the first segment. -/
theorem create_empty (max_segment_bytes : Nat) :
    ∃ s, WALWriter.create ∅ max_segment_bytes = .ok () s ∧ Serves ⟨s, []⟩ := by
  refine ⟨_, rfl, [], [], ⟨?_, rfl, rfl, rfl⟩, rfl⟩
  intro id
  change (AList.insert 1 _ ∅).lookup id = if id = 1 then _ else _
  by_cases hid : id = 1
  · subst hid
    rw [AList.lookup_insert]
    rfl
  · rw [AList.lookup_insert_ne hid, if_neg hid, AList.lookup_empty]
    simp

/-- Opening a directory recovers the log it holds and leaves the writer behind
its last whole record. -/
theorem recover_serves {h : Logged} (hh : Survives h) (max_segment_bytes : Nat) :
    ∃ s, (wal_recover h.dir max_segment_bytes).2 = .ok () s ∧ Serves ⟨s, h.log⟩ := by
  rcases hh with ⟨hdir, hlog⟩ | ⟨init, last, tail, hdir, htail, hlog⟩
  · obtain ⟨s, hs, hserves⟩ := create_empty max_segment_bytes
    rw [hdir, hlog]
    refine ⟨s, ?_, hserves⟩
    simp only [wal_recover, hs, read_all_empty]
    rfl
  · obtain ⟨s, hs, hholds, hfd, hid, hoff⟩ := create_holds hdir max_segment_bytes
    have htorn := hdir.read_all_torn htail
    rw [hlog]
    simp only [wal_recover, hs, hdir.read_all_clean_end htail]
    split
    · next ht =>
        -- the tail is cut off and the records in front of it are sealed
        have hne := htorn.mp ht
        have hlt : recordSize * last.length < s.writer.current_offset := by
          rw [hoff, List.length_append, recs_length]
          have := List.length_pos_iff.mpr hne
          omega
        obtain ⟨hholds', hw⟩ := truncate_holds hholds hfd
        rw [WALWriter.truncate_and_seal, if_pos hlt]
        obtain ⟨s', hs', hrun⟩ := rotate_running hholds' (by rw [hw]; exact hid)
        exact ⟨s', hs', init ++ [last], [], hrun, (logOf_concat init last).symm⟩
    · next ht =>
        have hnil : tail = [] := by
          by_contra hne
          exact ht (htorn.mpr hne)
        subst hnil
        rw [List.append_nil, recs_length] at hoff
        exact ⟨s, rfl, init, last, ⟨hholds, hfd, hid, hoff⟩, rfl⟩

/-! ## Appending -/

/-- A write behind whole records, where an earlier write may have left a tail. -/
theorem write_holds {dir : WalDir} {init : List (List Event)} {last : List Event}
    {tail : Bytes} (h : WalHolds dir init last tail) (data : Bytes) :
    WalHolds (dir.insert (init.length + 1) (dir.contents (init.length + 1) ++ data)) init last
      (tail ++ data) := by
  rw [h.contents_last, List.append_assoc]
  exact h.set_last last (tail ++ data)

theorem WalHolds.absorb {dir : WalDir} {init : List (List Event)} {last : List Event}
    {e : Event} (h : WalHolds dir init last ([] ++ wal_record e)) :
    WalHolds dir init (last ++ [e]) [] := by
  intro id
  rw [h id, recs_append, recs_singleton, List.nil_append, List.append_nil]

/-- A short write grows the tail and moves nothing else. -/
theorem append_short {s : WalState} {init : List (List Event)} {last : List Event}
    {tail : Bytes} (hs : Running s init last tail) (e : Event) {io : AppendIO}
    (hio : io.stored < recordSize) :
    ∃ s', WALWriter.append e io s = .error .write_failed s' ∧
      Running s' init last (tail ++ (wal_record e).take io.stored) := by
  refine ⟨WALWriter.write ((wal_record e).take io.stored) (init.length + 1) s, ?_, ?_⟩
  · rw [WALWriter.append]
    simp only [hs.fd]
    rw [if_pos (by rw [wal_record_length]; exact hio)]
  · exact ⟨write_holds hs.holds _, hs.fd, hs.segment_id, hs.current_offset⟩

/-- A whole write puts the record at the end of the last segment, answers the
place, and leaves the writer ready behind it, on the same segment or the next. -/
theorem append_whole {s : WalState} {init : List (List Event)} {last : List Event}
    (hs : Running s init last []) (e : Event) {io : AppendIO} (hio : recordSize ≤ io.stored)
    (hrot : s.writer.max_segment_bytes ≤ s.writer.current_offset + recordSize →
      io.open_ok = true) :
    ∃ s' init' last',
      WALWriter.append e io s = .ok ⟨recordSize * last.length, init.length + 1⟩ s' ∧
      Running s' init' last' [] ∧ logOf init' last' = logOf init (last ++ [e]) := by
  have hlen : (wal_record e).length = recordSize := wal_record_length e
  have hfull : (wal_record e).take io.stored = wal_record e :=
    List.take_of_length_le (by rw [hlen]; exact hio)
  obtain ⟨dir, max_segment_bytes, fd, id, offset⟩ := s
  obtain ⟨hholds, hfd, hid, hoffset⟩ := hs
  simp only at hholds hfd hid hoffset hrot
  subst hfd hid hoffset
  -- the state between the write and the rotation
  obtain ⟨s2, hs2⟩ : ∃ s2 : WalState, s2 =
      { dir := dir.insert (init.length + 1) (dir.contents (init.length + 1) ++ wal_record e)
        writer := ⟨max_segment_bytes, some (init.length + 1), init.length + 1,
          recordSize * last.length + recordSize⟩ } := ⟨_, rfl⟩
  have hrun : Running s2 init (last ++ [e]) [] := by
    rw [hs2]
    refine ⟨(write_holds hholds (wal_record e)).absorb, rfl, rfl, ?_⟩
    rw [List.length_append, List.length_singleton, Nat.mul_succ]
  by_cases hmax : max_segment_bytes ≤ recordSize * last.length + recordSize
  · obtain ⟨s', hs', hrun'⟩ := rotate_running hrun.holds hrun.segment_id
    refine ⟨s', init ++ [last ++ [e]], [], ?_, hrun', logOf_concat ..⟩
    rw [hs2] at hs'
    simp only [WALWriter.append, WALWriter.write, hfull, hlen]
    rw [if_neg (by omega), if_pos hmax, hrot hmax]
    simp only [hs']
  · refine ⟨s2, init, last ++ [e], ?_, hrun, rfl⟩
    simp only [WALWriter.append, WALWriter.write, hfull, hlen]
    rw [if_neg (by omega), if_neg hmax, hs2]

/-- An append that the operating system lets through is acknowledged. -/
theorem Serves.append {live : Live} (h : Serves live) (e : Event) :
    ∃ r s', WALWriter.append e {} live.state = .ok r s' ∧
      Serves ⟨s', live.log ++ [⟨e, r.segment_id, r.file_offset⟩]⟩ := by
  obtain ⟨init, last, hrun, hlog⟩ := h
  obtain ⟨s', init', last', happ, hrun', hlog'⟩ :=
    append_whole hrun e (show recordSize ≤ ({} : AppendIO).stored from Nat.le_refl _)
      fun _ => rfl
  exact ⟨_, s', happ, init', last', hrun', by rw [hlog', logOf_append, hlog]⟩

theorem appendEvent_serves {live : Live} (h : Serves live) (e : Event) :
    Serves (appendEvent live e) ∧
      ∃ x, (appendEvent live e).log = live.log ++ [x] ∧ x.event = e := by
  obtain ⟨r, s', happ, hserves⟩ := h.append e
  rw [appendEvent, tryAppend, happ]
  exact ⟨hserves, _, rfl, rfl⟩

theorem appendEvents_serve {live : Live} (h : Serves live) (events : List Event) :
    Serves (events.foldl appendEvent live) ∧
      ∃ new, (events.foldl appendEvent live).log = live.log ++ new ∧
        new.map LogEntry.event = events := by
  induction events generalizing live with
  | nil => exact ⟨h, [], by simp, rfl⟩
  | cons e es ih =>
      obtain ⟨h1, x, hx, hxe⟩ := appendEvent_serves h e
      obtain ⟨h2, new, hnew, hmap⟩ := ih h1
      refine ⟨h2, x :: new, ?_, ?_⟩
      · rw [List.foldl_cons, hnew, hx, List.append_assoc, List.singleton_append]
      · rw [List.map_cons, hxe, hmap]

theorem runSession_serves {h : Logged} (hh : Survives h) (max_segment_bytes : Nat)
    (events : List Event) :
    Serves (runSession max_segment_bytes h events) ∧
      ∃ new, (runSession max_segment_bytes h events).log = h.log ++ new ∧
        new.map LogEntry.event = events := by
  obtain ⟨s, hs, hserves⟩ := recover_serves hh max_segment_bytes
  rw [runSession, hs]
  exact appendEvents_serve hserves events

/-! ## Where the records are -/

theorem mem_entriesOf {x : LogEntry} {id : Nat} {es : List Event} :
    x ∈ entriesOf id es ↔
      ∃ i, es[i]? = some x.event ∧ x.segment_id = id ∧ x.file_offset = recordSize * i := by
  simp only [entriesOf, List.mem_map, Prod.exists, List.mem_zipIdx_iff_getElem?]
  constructor
  · rintro ⟨e, i, hi, rfl⟩
    exact ⟨i, hi, rfl, rfl⟩
  · rintro ⟨i, hi, hid, hoff⟩
    obtain ⟨e, seg, off⟩ := x
    simp only at hi hid hoff
    exact ⟨e, i, hi, by rw [hid, hoff]⟩

/-- The `i`-th record of a segment starts `i` record sizes in. -/
theorem recs_at {es : List Event} {i : Nat} {e : Event} (hi : es[i]? = some e) (tail : Bytes) :
    ((recs es ++ tail).drop (recordSize * i)).take recordSize = wal_record e := by
  obtain ⟨hlt, rfl⟩ := List.getElem?_eq_some_iff.mp hi
  have hsplit : recs es = recs (es.take i) ++ (wal_record es[i] ++ recs (es.drop (i + 1))) := by
    rw [← recs_singleton, ← recs_append, ← recs_append, List.singleton_append,
      List.getElem_cons_drop, List.take_append_drop]
  have hlen : (recs (es.take i)).length = recordSize * i := by
    rw [recs_length, List.length_take, Nat.min_eq_left (Nat.le_of_lt hlt)]
  rw [hsplit, List.append_assoc, ← hlen, List.drop_left, List.append_assoc,
    show recordSize = (wal_record es[i]).length from (wal_record_length _).symm]
  exact List.take_left

theorem mem_logOf {x : LogEntry} {init : List (List Event)} {last : List Event} :
    x ∈ logOf init last ↔
      (∃ es, x.segment_id ≠ 0 ∧ init[x.segment_id - 1]? = some es ∧
        x ∈ entriesOf x.segment_id es) ∨
      x ∈ entriesOf (init.length + 1) last := by
  rw [logOf, List.mem_append, List.mem_flatMap]
  constructor
  · rintro (⟨⟨es, id⟩, hmem, hx⟩ | hx)
    · obtain ⟨hid, hget⟩ := List.mem_zipIdx_iff_le_and_getElem?_sub.mp hmem
      obtain ⟨i, hi, rfl, hoff⟩ := mem_entriesOf.mp hx
      exact .inl ⟨es, by simp only at hid; omega, hget, hx⟩
    · exact .inr hx
  · rintro (⟨es, hid, hget, hx⟩ | hx)
    · refine .inl ⟨(es, x.segment_id), ?_, hx⟩
      exact List.mem_zipIdx_iff_le_and_getElem?_sub.mpr ⟨by simp only; omega, hget⟩
    · exact .inr hx

/-- Every entry's record is at the entry's place. -/
theorem WalHolds.recordAt {dir : WalDir} {init : List (List Event)} {last : List Event}
    {tail : Bytes} (h : WalHolds dir init last tail) {x : LogEntry} (hx : x ∈ logOf init last) :
    RecordAt dir x := by
  rcases mem_logOf.mp hx with ⟨es, hid, hget, hx⟩ | hx
  · obtain ⟨i, hi, -, hoff⟩ := mem_entriesOf.mp hx
    have hlook := h.lookup_init hget
    rw [Nat.sub_add_cancel (by omega)] at hlook
    refine ⟨recs es, hlook, ?_⟩
    have hat := recs_at hi []
    rwa [List.append_nil, ← hoff] at hat
  · obtain ⟨i, hi, hid, hoff⟩ := mem_entriesOf.mp hx
    rw [RecordAt, hid, hoff]
    exact ⟨_, h.lookup_last, recs_at hi tail⟩

end Kronos
