import Kronos.Proofs.Scan

/-!
# Finished tables

A listed file is in order when its path holds a finished table, the meta block
in the list is the one the writer computed, and the events are sorted. Such a
file is never in a query's way: whatever the meta block rules out would not
have been in the range, so it delivers exactly its events in the range.
-/

namespace Kronos

/-- The listed file is on disk, finished, sorted and described by its list
entry. -/
structure Tabled (ssts : SSTableDir) (info : SSTableInfo) (events : List Event) : Prop where
  file : ssts.lookup info.path = some (.finished ⟨info.meta_, events⟩)
  meta_eq : info.meta_ = (SSTable.write info.meta_.level info.meta_.sequence events).meta_
  sorted : Keyed.Sorted Event.key events

/-- The events of a listed file, if it is there and finished. -/
def fileEvents (ssts : SSTableDir) (info : SSTableInfo) : List Event :=
  match ssts.lookup info.path with
  | some (.finished t) => t.events
  | _ => []

theorem fileEvents_finished {ssts : SSTableDir} {info : SSTableInfo} {t : SSTable}
    (h : ssts.lookup info.path = some (.finished t)) : fileEvents ssts info = t.events := by
  rw [fileEvents, h]

theorem Tabled.events_eq {ssts : SSTableDir} {info : SSTableInfo} {events : List Event}
    (h : Tabled ssts info events) : fileEvents ssts info = events := fileEvents_finished h.file

theorem Tabled.own {ssts : SSTableDir} {info : SSTableInfo} {events : List Event}
    (h : Tabled ssts info events) : Tabled ssts info (fileEvents ssts info) := by
  rw [h.events_eq]
  exact h

/-- Every key lies between the first and the last added. -/
theorem write_covers (level sequence : Nat) {events : List Event}
    (h : Keyed.Sorted Event.key events) {e : Event} (he : e ∈ events) :
    (SSTable.write level sequence events).meta_.min_key ≤ e.key ∧
      e.key ≤ (SSTable.write level sequence events).meta_.max_key := by
  constructor
  · cases events with
    | nil => cases he
    | cons x xs =>
        rcases List.mem_cons.mp he with rfl | he
        · exact le_refl _
        · exact ((List.pairwise_cons.mp h).1 e he).le
  · induction events using List.reverseRecOn with
    | nil => cases he
    | append_singleton xs x _ =>
        have hmax : (SSTable.write level sequence (xs ++ [x])).meta_.max_key = x.key := by
          simp [SSTable.write]
        rw [hmax]
        rcases List.mem_append.mp he with he | he
        · exact ((List.pairwise_append.mp h).2.2 e he x (List.mem_singleton.mpr rfl)).le
        · rw [List.mem_singleton.mp he]

theorem write_rules_out {level sequence : Nat} {events : List Event}
    (h : Keyed.Sorted Event.key events) {start end_ : Key}
    (hout : end_ < (SSTable.write level sequence events).meta_.min_key ∨
      (SSTable.write level sequence events).meta_.max_key < start) :
    events.filter (inRange start end_) = [] := by
  refine List.filter_eq_nil_iff.mpr fun e he hin => ?_
  rw [inRange, decide_eq_true_eq] at hin
  obtain ⟨hmin, hmax⟩ := write_covers level sequence h he
  rcases hout with hout | hout
  · exact absurd (hin.2.trans_lt hout) (not_lt.mpr hmin)
  · exact absurd (hout.trans_le hin.1) (not_lt.mpr hmax)

namespace Tabled

variable {ssts : SSTableDir} {info : SSTableInfo} {events : List Event}

theorem delivers (h : Tabled ssts info events) (start end_ : Key) :
    fileDelivers ssts start end_ info = events.filter (inRange start end_) := by
  rw [fileDelivers, h.file]
  by_cases hout : end_ < info.meta_.min_key ∨ info.meta_.max_key < start
  · have hnone : events.filter (inRange start end_) = [] := by
      rw [h.meta_eq] at hout
      exact write_rules_out h.sorted hout
    rw [hnone, if_neg (by rw [SSTableInfo.may_contain, decide_eq_true_eq, not_not]; exact hout)]
  · rw [if_pos (by rw [SSTableInfo.may_contain, decide_eq_true_eq]; exact hout)]
    simp only [SSTableFile.read_meta, Option.isSome_some, if_true, SSTableFile.delivered]
    rw [if_neg hout]

theorem ordered (h : Tabled ssts info events) (file : SSTableFile)
    (hfile : ssts.lookup info.path = some file) : file.Ordered := by
  rw [h.file] at hfile
  cases hfile
  exact h.sorted

/-- Other paths do not matter. -/
theorem insert_ne (h : Tabled ssts info events) {path : SSTablePath} (hne : info.path ≠ path)
    (file : SSTableFile) : Tabled (ssts.insert path file) info events :=
  ⟨by rw [AList.lookup_insert_ne hne, h.file], h.meta_eq, h.sorted⟩

/-- What the writer finished under a path is in order there. -/
theorem written (ssts : SSTableDir) (path : SSTablePath) (level sequence : Nat)
    {events : List Event} (h : Keyed.Sorted Event.key events) :
    Tabled (ssts.insert path (.finished (SSTable.write level sequence events)))
      ⟨path, (SSTable.write level sequence events).meta_⟩ events :=
  ⟨AList.lookup_insert _, rfl, h⟩

end Tabled

end Kronos
