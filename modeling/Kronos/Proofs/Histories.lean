import Kronos.Proofs.Recovered
import Kronos.Spec.Histories

/-!
# Every row was written

A query's rows come from memtables and from files that can be opened. Memtables
are filled by writes and by the records of the log, tables from memtables and
from other tables, and a crash leaves of a table or a record what cannot be
read, if not all of it. So by induction over the sessions there is nothing in
the directory, and in no answer, that was not written once.
-/

namespace Kronos

open Spec Compaction

variable {P : Event → Prop}

/-! ## A session -/

/-- Of the log there is nothing but `P` to be read, whether it is written to or not. -/
def LogWith (P : Event → Prop) (db : DB) : Prop :=
  ∃ events, (∀ e ∈ events, P e) ∧
    (Logs db events ∨ db.wal = none ∧ LogLeft db.disk events)

structure Sound (P : Event → Prop) (db : DB) : Prop where
  holding : Holding P db
  log : LogWith P db

theorem LogWith.imp {Q : Event → Prop} (himp : ∀ e, P e → Q e) {db : DB} (h : LogWith P db) :
    LogWith Q db := by
  obtain ⟨events, hall, hlog⟩ := h
  exact ⟨events, fun e he => himp e (hall e he), hlog⟩

theorem Sound.imp {Q : Event → Prop} (himp : ∀ e, P e → Q e) {db : DB} (h : Sound P db) :
    Sound Q db := ⟨h.holding.imp himp, h.log.imp himp⟩

/-- Without a log no step touches what is there of one. -/
theorem unlogged_step {db : DB} (hwal : db.wal = none) (s : Step) :
    (step db s).wal = none ∧ (step db s).disk.wal = db.disk.wal := by
  cases hw : written db s with
  | none =>
      obtain ⟨h1, h2⟩ := unwritten_log hw
      exact ⟨h1.trans hwal, h2⟩
  | some p =>
      obtain ⟨-, height, io, next_seq, hstep, -⟩ := written_step hw
      have hnone : ({ (db.intern p.1).2 with next_seq } : DB).wal = none := hwal
      have ha := mem_insert_aside p.2 height { (db.intern p.1).2 with next_seq }
      have heq : step db s = DB.mem_insert p.2 height { (db.intern p.1).2 with next_seq } := by
        rw [hstep, DB.log_and_insert, DB.wal_append, hnone]
        rfl
      rw [heq]
      exact ⟨ha.wal.trans hwal, ha.log⟩

theorem LogWith.step {db : DB} (h : LogWith P db) {s : Step} (hs : Unhindered s)
    (hP : ∀ p, written db s = some p → P p.2) : LogWith P (step db s) := by
  obtain ⟨events, hall, hlogs | ⟨hwal, hleft⟩⟩ := h
  · cases hw : written db s with
    | none =>
        obtain ⟨h1, h2⟩ := unwritten_log hw
        exact ⟨events, hall, .inl (hlogs.congr h1 h2)⟩
    | some p =>
        refine ⟨events ++ [p.2], fun e he => ?_, .inl (hlogs.write hs hw).1⟩
        rcases List.mem_append.mp he with he | he
        · exact hall e he
        · rw [List.mem_singleton.mp he]
          exact hP p hw
  · obtain ⟨h1, h2⟩ := unlogged_step hwal s
    exact ⟨events, hall, .inr ⟨h1, hleft.congr h2⟩⟩

theorem Sound.step {db : DB} (h : Sound P db) {s : Step} (hs : Unhindered s)
    (hP : ∀ p, written db s = some p → P p.2) : Sound P (step db s) :=
  ⟨h.holding.step hP, h.log.step hs hP⟩

theorem Sound.run {db : DB} (h : Sound P db) {steps : List Step}
    (hs : ∀ s ∈ steps, Unhindered s) (hP : ∀ e ∈ writesAlong db steps, P e) :
    Sound P (steps.foldl Spec.step db) := by
  induction steps generalizing db with
  | nil => exact h
  | cons s steps ih =>
      refine ih (h.step (hs s List.mem_cons_self) fun p hw => hP _ ?_)
        (fun s' hs' => hs s' (List.mem_cons_of_mem _ hs'))
        fun e he => hP e (List.mem_append_right _ he)
      rw [writesAlong, hw]
      exact List.mem_append_left _ List.mem_cons_self

theorem writesAlong_append (db : DB) (steps steps' : List Step) :
    writesAlong db (steps ++ steps') =
      writesAlong db steps ++ writesAlong (steps.foldl step db) steps' := by
  induction steps generalizing db with
  | nil => rfl
  | cons s steps ih =>
      rw [List.cons_append, writesAlong, ih, writesAlong, List.append_assoc, List.foldl_cons]

/-! ## Between sessions -/

/-- A directory in which nothing but `P` can be read. -/
structure SoundDisk (P : Event → Prop) (disk : Disk) : Prop where
  files : FilesWith P disk.ssts
  log : ∃ events, (∀ e ∈ events, P e) ∧ LogLeft disk events

theorem FinishedWith.shut {ssts : SSTableDir} (h : FinishedWith P ssts) (hshut : Shut ssts) :
    FilesWith P ssts := by
  intro path file hlook
  cases file with
  | finished t => exact h path t hlook
  | torn t => exact hshut path t hlook

/-- Without a log a crash leaves what there is of one. -/
theorem unlogged_crash {db : DB} (hwal : db.wal = none) {s : Step} {disk : Disk}
    (hcrash : CrashLeaves db s disk) : disk.wal = db.disk.wal := by
  cases hcrash with
  | before => rfl
  | after => exact (unlogged_step hwal s).2
  | symbol => rfl
  | @record _ symbol e hw stored =>
      have hnone : (db.intern symbol).2.wal = none := hwal
      rw [DB.wal_append, hnone]
      rfl
  | flush => rfl
  | between hrun j => rw [write_outputs_eq]
  | output hrun hj t => rw [write_outputs_eq]
  | removing hrun hne i => rw [write_outputs_eq, remove_inputs_eq]
  | symbols => rfl

theorem Sound.crash {db : DB} (h : Sound P db) {s : Step} (hs : Unhindered s)
    (hP : ∀ p, written db s = some p → P p.2) {disk : Disk} (hcrash : CrashLeaves db s disk)
    (hshut : Shut disk.ssts) : SoundDisk P disk := by
  refine ⟨(crash_finished h.holding hP hcrash).shut hshut, ?_⟩
  obtain ⟨events, hall, hlogs | ⟨hwal, hleft⟩⟩ := h.log
  · obtain ⟨events', hleft, hevents⟩ := crash_log hlogs hs hcrash
    refine ⟨events', fun e he => ?_, hleft⟩
    rcases hevents with rfl | ⟨p, hw, rfl⟩
    · exact hall e he
    · rcases List.mem_append.mp he with he | he
      · exact hall e he
      · rw [List.mem_singleton.mp he]
        exact hP p hw
  · exact ⟨events, hall, hleft.congr (unlogged_crash hwal hcrash)⟩

theorem mem_foldl_upsert {events nodes : List Event} {e : Event}
    (he : e ∈ events.foldl (fun nodes e => Keyed.upsert Event.key e nodes) nodes) :
    e ∈ events ∨ e ∈ nodes := by
  induction events generalizing nodes with
  | nil => exact .inr he
  | cons x events ih =>
      rcases ih he with he | he
      · exact .inl (List.mem_cons_of_mem _ he)
      · rcases Keyed.mem_upsert_sub he with rfl | he
        · exact .inl List.mem_cons_self
        · exact .inr he

theorem SoundDisk.opened {disk : Disk} (h : SoundDisk P disk) (cfg : DBConfig)
    (listing : List SSTablePath) (heights : Nat → Fin kMaxHeight) :
    Sound P (opened cfg disk listing heights) := by
  obtain ⟨events, hall, hleft⟩ := h.log
  obtain ⟨-, -, himm, hssts⟩ := open_quiet cfg disk listing heights
  by_cases hwal : cfg.wal_enabled = true
  · obtain ⟨hlogs, -, hnodes, -⟩ := opened_left hwal hleft listing heights
    refine ⟨⟨fun m hm => ?_, fun m hm e he => ?_, hssts ▸ h.files⟩, events, hall, .inl hlogs⟩
    · rw [himm] at hm
      rw [List.mem_singleton.mp hm, hnodes]
      exact Keyed.foldl_upsert_sorted _ List.Pairwise.nil
    · rw [himm] at hm
      rw [List.mem_singleton.mp hm, hnodes] at he
      exact hall e ((mem_foldl_upsert he).resolve_right List.not_mem_nil)
  · have hload : Spec.opened cfg disk listing heights = DB.load cfg disk listing :=
      opened_unlogged (Bool.eq_false_iff.mpr hwal) _ _ _
    rw [hload]
    refine ⟨⟨fun m hm => ?_, fun m hm e he => ?_, h.files⟩, events, hall, .inr ⟨rfl, hleft⟩⟩
    · rw [List.mem_singleton.mp hm]
      exact List.Pairwise.nil
    · rw [List.mem_singleton.mp hm] at he
      cases he

theorem history_sound {disk : Disk} {events : List Event} (h : History disk events) :
    SoundDisk (· ∈ events) disk := by
  induction h with
  | new =>
      refine ⟨fun path file hlook => ?_, [], fun e he => he, .inl ⟨rfl, rfl⟩⟩
      cases hlook
  | @session disk disk' events _ cfg listing heights steps s hio hend hshut ih =>
      have hsplit := writesAlong_append (opened cfg disk listing heights) steps [s]
      have hopened := (ih.opened cfg listing heights).imp fun e he =>
        List.mem_append_left (writesAlong (opened cfg disk listing heights) (steps ++ [s])) he
      have hrun := hopened.run (fun s' hs' => hio s' (List.mem_append_left _ hs')) fun e he => by
        rw [hsplit]
        exact List.mem_append_right _ (List.mem_append_left _ he)
      refine hrun.crash (hio s (List.mem_append_right _ (List.mem_singleton.mpr rfl)))
        (fun p hw => ?_) hend hshut
      rw [hsplit, writesAlong, hw]
      exact List.mem_append_right _ (List.mem_append_right _ (List.mem_append_left _
        List.mem_cons_self))

/-! ## The rows -/

theorem fileDelivers_with {ssts : SSTableDir} (h : FilesWith P ssts) {start end_ : Key}
    {info : SSTableInfo} {e : Event} (he : e ∈ fileDelivers ssts start end_ info) :
    P e ∧ inRange start end_ e = true := by
  rw [fileDelivers] at he
  split at he
  · split at he
    · cases he
    · next file hlook =>
        have hfile := h info.path file hlook
        cases file with
        | finished t =>
            simp only [SSTableFile.read_meta, Option.isSome_some, if_true,
              SSTableFile.delivered] at he
            split at he
            · cases he
            · exact ⟨hfile.all e (List.mem_filter.mp he).1, (List.mem_filter.mp he).2⟩
        | torn t =>
            rw [SSTableFile.read_meta, show t.meta_ = none from hfile] at he
            cases he
  · cases he

theorem Holding.rows {db : DB} (h : Holding P db) {req : QueryRequest} {sym_id : UInt32}
    {e : Event} (he : e ∈ queryRows req sym_id db) :
    P e ∧ inRange (req.start_key sym_id) (req.end_key sym_id) e = true ∧ req.wants e = true := by
  rw [queryRows, List.mem_filter, List.mem_append] at he
  obtain ⟨he | he, hwants⟩ := he
  · obtain ⟨m, hm, he⟩ := List.mem_flatMap.mp he
    exact ⟨h.nodes m hm e (List.mem_filter.mp he).1, (List.mem_filter.mp he).2, hwants⟩
  · obtain ⟨info, -, he⟩ := List.mem_flatMap.mp he
    obtain ⟨hP, hrange⟩ := fileDelivers_with h.files he
    exact ⟨hP, hrange, hwants⟩

theorem Holding.ordered {db : DB} (h : Holding P db) : db.Ordered := by
  refine ⟨h.mems, fun info _ file hlook => ?_⟩
  cases file with
  | finished t => exact (h.files info.path _ hlook).sorted
  | torn t => exact trivial

/-- Whatever sessions there have been, a row is an event that one of them wrote,
and the query asked for it. -/
theorem rows_were_written {disk : Disk} {events : List Event} (h : History disk events)
    (cfg : DBConfig) (listing : List SSTablePath) (heights : Nat → Fin kMaxHeight)
    {steps : List Step} (hio : ∀ s ∈ steps, Unhindered s) {req : QueryRequest} {r : QueryResult}
    (hquery : (steps.foldl step (opened cfg disk listing heights)).query req = .ok r) :
    ∀ e ∈ r.rows, e ∈ events ++ writesAlong (opened cfg disk listing heights) steps ∧
      (steps.foldl step (opened cfg disk listing heights)).symbols.lookup req.symbol =
        some e.symbol_id ∧ req.start_ns ≤ e.timestamp_ns ∧ e.timestamp_ns ≤ req.end_ns ∧
      e.event_type ≠ .Tombstone ∧ (req.event_type = none ∨ req.event_type = some e.event_type) := by
  have hopened := ((history_sound h).opened cfg listing heights).imp fun e he =>
    List.mem_append_left (writesAlong (opened cfg disk listing heights) steps) he
  have hrun := (hopened.run hio fun e he => List.mem_append_right _ he).holding
  generalize steps.foldl step (opened cfg disk listing heights) = db at *
  intro e he
  cases hclosed : db.closed with
  | true =>
      rw [DB.query, hclosed] at hquery
      cases hquery
  | false =>
      cases hsym : db.symbols.lookup req.symbol with
      | none =>
          rw [DB.query_unknown hclosed hsym] at hquery
          cases hquery
          cases he
      | some sym_id =>
          obtain ⟨r', hquery', -, hrows⟩ := DB.query_rows hrun.ordered hclosed hsym
          rw [hquery] at hquery'
          cases hquery'
          rw [hrows] at he
          obtain ⟨hwritten, hrange, hwants⟩ := hrun.rows (List.mem_of_mem_take he)
          obtain ⟨hid, hlo, hhi⟩ := (inRange_iff req sym_id e).mp hrange
          rw [QueryRequest.wants, decide_eq_true_eq] at hwants
          exact ⟨hwritten, by rw [hid], hlo, hhi, hwants⟩

/-- A session that flushed its event and closed. -/
theorem flushed_history : History flushedDisk
    ([] ++ writesAlong (opened unlogged {} [] fun _ => 0) (flushedSession ++ [.rotate])) := by
  have hio : ∀ s ∈ flushedSession ++ [.rotate], Unhindered s := by
    intro s hs
    simp only [flushedSession, List.cons_append, List.nil_append, List.mem_cons,
      List.not_mem_nil, or_false] at hs
    rcases hs with rfl | rfl | rfl | rfl | rfl | rfl <;> first | exact rfl | exact trivial
  refine .session .new unlogged [] (fun _ => 0) flushedSession .rotate hio (.before _) ?_
  have hopened := ((history_sound .new).opened unlogged [] fun _ => 0).imp fun _ _ => trivial
  have hrun := hopened.run (fun s hs => hio s (List.mem_append_left _ hs)) fun _ _ => trivial
  exact fun path t hlook => hrun.holding.files path _ hlook

theorem rows_were_written_flushed : ∃ r, reopened.query { symbol := [65] } = .ok r ∧
    ∀ e ∈ r.rows, e ∈ writesAlong (opened unlogged {} [] fun _ => 0)
      (flushedSession ++ [.rotate]) := by
  have hnone : ∀ s ∈ ([] : List Step), Unhindered s := fun s hs => absurd hs List.not_mem_nil
  obtain ⟨r, hquery⟩ : ∃ r, reopened.query { symbol := [65] } = .ok r :=
    ⟨_, known_query flushedDisk rfl [DB.flush_path 1]⟩
  refine ⟨r, hquery, fun e he => ?_⟩
  have hrow := (rows_were_written flushed_history unlogged [DB.flush_path 1] (fun _ => 0) hnone
    hquery e he).1
  rw [List.nil_append, writesAlong, List.append_nil] at hrow
  exact hrow

end Kronos
