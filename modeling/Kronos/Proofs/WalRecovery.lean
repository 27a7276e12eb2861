import Kronos.Proofs.WalAppend

/-!
# The log over any number of crashes

A crash takes the entries behind the cut and leaves at most one torn record,
which no parse accepts. So a crashed directory is again one that opening can
recover, and by induction on the sessions so is every directory a history
reaches: reading it gives back the acknowledged log less what the cuts took.
-/

namespace Kronos

open Framing Spec

/-! ## Crashing -/

/-- What a cut leaves behind the whole records it leaves. -/
def tornTail (es : List Event) (cut : Nat) : Bytes :=
  match es[cut / recordSize]? with
  | none => []
  | some e => (wal_record e).take (cut % recordSize)

theorem recs_take (es : List Event) (cut : Nat) :
    (recs es).take cut = recs (es.take (cut / recordSize)) ++ tornTail es cut := by
  have hdiv := Nat.div_add_mod cut recordSize
  rw [tornTail]
  cases hn : es[cut / recordSize]? with
  | none =>
      have hle := List.getElem?_eq_none_iff.mp hn
      have hmul := Nat.mul_le_mul_left recordSize hle
      rw [List.take_of_length_le (by rw [recs_length]; omega), List.take_of_length_le hle,
        List.append_nil]
  | some e =>
      obtain ⟨hlt, rfl⟩ := List.getElem?_eq_some_iff.mp hn
      have hmod := Nat.mod_lt cut (show 0 < recordSize by decide)
      have hsplit : recs es = recs (es.take (cut / recordSize)) ++
          (wal_record es[cut / recordSize] ++ recs (es.drop (cut / recordSize + 1))) := by
        rw [← recs_singleton, ← recs_append, ← recs_append, List.singleton_append,
          List.getElem_cons_drop, List.take_append_drop]
      have hlen : (recs (es.take (cut / recordSize))).length =
          recordSize * (cut / recordSize) := by
        rw [recs_length, List.length_take, Nat.min_eq_left (Nat.le_of_lt hlt)]
      rw [hsplit, List.take_append, List.take_of_length_le (by omega), hlen,
        show cut - recordSize * (cut / recordSize) = cut % recordSize by omega,
        List.take_append_of_le_length]
      rw [wal_record_length]
      exact Nat.le_of_lt hmod

theorem tornTail_parse (es : List Event) (cut : Nat) :
    walFormat.parse (tornTail es cut) = none := by
  rw [tornTail]
  split
  · exact walFormat_parse_nil
  · exact walFormat_torn _ (Nat.mod_lt cut (by decide))

theorem tornTail_ne_nil (es : List Event) (cut : Nat) :
    tornTail es cut ≠ [] ↔ cut / recordSize < es.length ∧ cut % recordSize ≠ 0 := by
  rw [tornTail]
  split
  · next hn =>
      have hle := List.getElem?_eq_none_iff.mp hn
      exact ⟨fun h => absurd rfl h, fun h => absurd h.1 (by omega)⟩
  · next e hn =>
      have hlt := (List.getElem?_eq_some_iff.mp hn).1
      have hne : wal_record e ≠ [] := fun h => by
        have := wal_record_length e
        rw [h] at this
        cases this
      rw [Ne, List.take_eq_nil_iff, not_or]
      exact ⟨fun h => ⟨hlt, h.1⟩, fun h => ⟨h.2, hne⟩⟩

theorem zipIdx_filter (es : List Event) (n k : Nat) :
    (es.zipIdx k).filter (fun p => decide (p.2 + 1 ≤ n)) = (es.take (n - k)).zipIdx k := by
  induction es generalizing k with
  | nil => simp
  | cons e es ih =>
      rw [List.zipIdx_cons, List.filter_cons, ih (k + 1)]
      by_cases hk : k + 1 ≤ n
      · rw [if_pos (by simpa using hk), show n - k = n - (k + 1) + 1 by omega,
          List.take_succ_cons, List.zipIdx_cons]
      · rw [if_neg (by simpa using hk), show n - k = 0 by omega, show n - (k + 1) = 0 by omega]
        rfl

/-- Among the entries of the last segment the cut keeps the first ones. -/
theorem entriesOf_filter (id : Nat) (es : List Event) (cut : Nat) :
    (entriesOf id es).filter (fun x => x.segment_id ≠ id ∨ x.file_offset + recordSize ≤ cut) =
      entriesOf id (es.take (cut / recordSize)) := by
  have hpos : 0 < recordSize := by decide
  have hfilter := zipIdx_filter es (cut / recordSize) 0
  rw [Nat.sub_zero] at hfilter
  rw [entriesOf, List.filter_map, entriesOf, ← hfilter]
  congr 1
  refine List.filter_congr fun p _ => ?_
  simp only [Function.comp, ne_eq, not_true, false_or, ← Nat.mul_succ, decide_eq_decide]
  rw [Nat.le_div_iff_mul_le hpos, Nat.mul_comm]

theorem logOf_filter (init : List (List Event)) (last : List Event) (cut : Nat) :
    (logOf init last).filter
        (fun x => x.segment_id ≠ init.length + 1 ∨ x.file_offset + recordSize ≤ cut) =
      logOf init (last.take (cut / recordSize)) := by
  rw [logOf, List.filter_append, entriesOf_filter, logOf]
  congr 1
  refine List.filter_eq_self.mpr fun x hx => ?_
  obtain ⟨⟨es, id⟩, hmem, hx⟩ := List.mem_flatMap.mp hx
  obtain ⟨i, -, hid, -⟩ := mem_entriesOf.mp hx
  have hget := (List.mem_zipIdx_iff_le_and_getElem?_sub.mp hmem).2
  have hlt := (List.getElem?_eq_some_iff.mp hget).1
  simp only at hid hlt hmem
  have hle := (List.mem_zipIdx_iff_le_and_getElem?_sub.mp hmem).1
  simp only at hle
  rw [decide_eq_true_eq]
  omega

theorem crash_holds {live : Live} {init : List (List Event)} {last : List Event}
    (hdir : WalHolds live.state.dir init last []) (hlog : live.log = logOf init last)
    (cut : Nat) :
    WalHolds (crash live cut).dir init (last.take (cut / recordSize)) (tornTail last cut) ∧
      (crash live cut).log = logOf init (last.take (cut / recordSize)) := by
  rw [crash]
  simp only [hdir.max_segment_id, hlog]
  refine ⟨?_, logOf_filter init last cut⟩
  rw [cutSegment, hdir.lookup_last, List.append_nil]
  simp only [recs_take]
  exact hdir.set_last _ _

theorem crash_survives {live : Live} (h : Serves live) (cut : Nat) :
    Survives (crash live cut) := by
  obtain ⟨init, last, hrun, hlog⟩ := h
  obtain ⟨h1, h2⟩ := crash_holds hrun.holds hlog cut
  exact .inr ⟨_, _, _, h1, tornTail_parse last cut, h2⟩

theorem runHistory_survives (max_segment_bytes : Nat) (history : List (List Event × Nat)) :
    Survives (runHistory max_segment_bytes history) := by
  have hstep : ∀ (history : List (List Event × Nat)) (h : Logged), Survives h →
      Survives (history.foldl
        (fun h s => crash (runSession max_segment_bytes h s.1) s.2) h) := by
    intro history
    induction history with
    | nil => exact fun h hh => hh
    | cons s ss ih =>
        exact fun h hh => ih _ (crash_survives (runSession_serves hh max_segment_bytes s.1).1 s.2)
  exact hstep history _ (.inl ⟨rfl, rfl⟩)

/-- The cut misses every record boundary exactly when it leaves a torn tail. -/
theorem tornTail_iff_boundary (init : List (List Event)) (last : List Event) (cut : Nat) :
    tornTail last cut ≠ [] ↔
      ¬ AtRecordBoundary (logOf init last) (init.length + 1)
        (min cut (recordSize * last.length)) := by
  have hk : recordSize = 78 := rfl
  have hmem : (∃ x ∈ logOf init last, x.segment_id = init.length + 1 ∧
      x.file_offset + recordSize = min cut (recordSize * last.length)) ↔
      ∃ i < last.length, recordSize * i + recordSize = min cut (recordSize * last.length) := by
    constructor
    · rintro ⟨x, hx, hid, hend⟩
      rcases mem_logOf.mp hx with ⟨es, -, hget, -⟩ | hx
      · have hlt := (List.getElem?_eq_some_iff.mp hget).1
        omega
      · obtain ⟨i, hi, -, hoff⟩ := mem_entriesOf.mp hx
        exact ⟨i, (List.getElem?_eq_some_iff.mp hi).1, by rw [← hoff]; exact hend⟩
    · rintro ⟨i, hi, hend⟩
      refine ⟨⟨last[i], init.length + 1, recordSize * i⟩, mem_logOf.mpr (.inr ?_), rfl, hend⟩
      exact mem_entriesOf.mpr ⟨i, List.getElem?_eq_getElem hi, rfl, rfl⟩
  rw [tornTail_ne_nil, AtRecordBoundary, hmem, hk]
  constructor
  · rintro ⟨h1, h2⟩ (h0 | ⟨i, hi, hend⟩) <;> omega
  · intro hno
    rw [not_or] at hno
    by_contra hcon
    refine hno.2 ⟨min cut (78 * last.length) / 78 - 1, ?_, ?_⟩ <;> omega

/-- The surviving entries are those whose record is still whole in its place. -/
theorem crash_mem_iff {live : Live} (h : Serves live) (cut : Nat) :
    ∀ x ∈ live.log, x ∈ (crash live cut).log ↔ RecordAt (crash live cut).dir x := by
  intro x hx
  obtain ⟨init, last, hrun, hlog⟩ := h
  obtain ⟨h1, h2⟩ := crash_holds hrun.holds hlog cut
  refine ⟨fun hmem => h1.recordAt (h2 ▸ hmem), fun ⟨file, hlook, hrec⟩ => ?_⟩
  rw [crash, hrun.holds.max_segment_id, List.mem_filter, decide_eq_true_eq]
  refine ⟨hx, ?_⟩
  by_cases hid : x.segment_id = init.length + 1
  · right
    rw [hid, h1.lookup_last, ← recs_take] at hlook
    cases hlook
    have hlen := congrArg List.length hrec
    rw [wal_record_length, List.length_take, List.length_drop, List.length_take] at hlen
    have hk : recordSize = 78 := rfl
    omega
  · exact .inl hid

/-! ## The round trip -/

/-- Any number of sessions, each recovered from the crash before it: every
append is acknowledged; its record is where it was told; the next crash keeps
the acknowledged events whose record it leaves whole, and the next recovery
reads back exactly those, in order. -/
theorem wal_round_trip (max_segment_bytes : Nat) (history : List (List Event × Nat))
    (events : List Event) (cut : Nat) :
    let before := runHistory max_segment_bytes history
    let live := runSession max_segment_bytes before events
    let after := crash live cut
    (∃ new, live.log = before.log ++ new ∧ new.map LogEntry.event = events) ∧
    (∀ x ∈ live.log, RecordAt live.state.dir x) ∧
    (∀ x ∈ live.log, x ∈ after.log ↔ RecordAt after.dir x) ∧
    (read_all after.dir).records = after.log.map LogEntry.record ∧
    ((read_all after.dir).torn = true ↔
      ¬ AtRecordBoundary live.log live.state.dir.max_segment_id (cutSize live.state.dir cut)) := by
  intro before live after
  have hbefore : Survives before := runHistory_survives max_segment_bytes history
  obtain ⟨hserves, hnew⟩ := runSession_serves hbefore max_segment_bytes events
  obtain ⟨init, last, hrun, hlog⟩ := id hserves
  obtain ⟨hdir, hafter⟩ := crash_holds hrun.holds hlog cut
  have htail := tornTail_parse last cut
  refine ⟨hnew, fun x hx => hrun.holds.recordAt (hlog ▸ hx), crash_mem_iff hserves cut, ?_, ?_⟩
  · rw [hdir.read_all_records htail, hafter]
  · rw [hdir.read_all_torn htail, tornTail_iff_boundary init, hlog, hrun.holds.max_segment_id,
      cutSize, hrun.holds.max_segment_id, hrun.holds.contents_last, List.append_nil, recs_length]

end Kronos
