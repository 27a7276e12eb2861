import Kronos.Proofs.FileNumbers
import Kronos.Spec.Crash

/-!
# File numbers after a restart

Opening a directory lists the tables that are in it and starts the counter of
files at 1. Every finished table that earlier sessions left has a number of at
least 1 (`Numberable`), and nothing draws from the counter without creating a
file, so the first file of the new session gets number 1, which is not above
any number that was loaded.
-/

namespace Kronos

open Spec Compaction

/-! ## The tables that sessions leave -/

/-- Every finished table has a number and something in it. -/
def Numberable (ssts : SSTableDir) : Prop :=
  ∀ path t, ssts.lookup path = some (.finished t) → 1 ≤ t.meta_.sequence ∧ t.events ≠ []

theorem Numberable.insert {ssts : SSTableDir} (h : Numberable ssts) {path : SSTablePath}
    {file : SSTableFile}
    (hfile : ∀ t, file = .finished t → 1 ≤ t.meta_.sequence ∧ t.events ≠ []) :
    Numberable (ssts.insert path file) := by
  intro p t hp
  by_cases hpath : p = path
  · rw [hpath, AList.lookup_insert] at hp
    exact hfile t (Option.some.inj hp)
  · rw [AList.lookup_insert_ne hpath] at hp
    exact h p t hp

theorem Numberable.insertTables {ssts : SSTableDir} (h : Numberable ssts) {outputs : List SSTable}
    (houts : ∀ t ∈ outputs, 1 ≤ t.meta_.sequence ∧ t.events ≠ []) :
    Numberable (insertTables outputs ssts) := by
  induction outputs generalizing ssts with
  | nil => exact h
  | cons u us ih =>
      refine ih (h.insert fun t ht => ?_) fun t ht => houts t (List.mem_cons_of_mem _ ht)
      cases ht
      exact houts u List.mem_cons_self

theorem Numberable.eraseFiles {ssts : SSTableDir} (h : Numberable ssts)
    (files : List SSTableInfo) : Numberable (eraseFiles files ssts) := by
  induction files generalizing ssts with
  | nil => exact h
  | cons f fs ih =>
      refine ih fun p t hp => ?_
      by_cases hpath : p = f.path
      · rw [hpath, AList.lookup_erase] at hp
        cases hp
      · rw [AList.lookup_erase_ne hpath] at hp
        exact h p t hp

/-- Whatever a compaction reads, its outputs are numbered on from the number it
was given, and none is empty. -/
theorem run_outputs {ssts : SSTableDir} {inputs : List SSTableInfo} {sequence target : Nat}
    {outputs : List SSTable} {stats : CompactionStats}
    (hrun : run ssts inputs 1 sequence target = .ok (outputs, stats)) :
    ∀ t ∈ outputs, sequence ≤ t.meta_.sequence ∧ t.events ≠ [] := by
  rw [run] at hrun
  split at hrun
  · cases hrun
  · next all _ =>
      cases hrun
      obtain ⟨chunks, houts, -, hne, -⟩ := write_outputs_chunks 1 sequence target (merge 1 all)
      rw [houts]
      intro t ht
      obtain ⟨i, c, hget, rfl⟩ := mem_tablesOf ht
      exact ⟨Nat.le_add_right _ _, hne c (List.mem_of_getElem? hget)⟩

/-- What a session keeps, whatever it loaded. -/
structure Numbering (db : DB) : Prop where
  tables : Numberable db.disk.ssts
  counter : 1 ≤ db.sst_seq

theorem Numbering.quiet {db db' : DB} (h : Numbering db) (hq : Quiet db db') : Numbering db' :=
  ⟨hq.ssts ▸ h.tables, hq.sst_seq ▸ h.counter⟩

theorem Numbering.outputs {db : DB} (h : Numbering db) {outputs : List SSTable}
    {stats : CompactionStats}
    (hrun : run db.disk.ssts (db.levels 0) 1 db.sst_seq db.cfg.sstable_target_bytes =
      .ok (outputs, stats)) :
    ∀ t ∈ outputs, 1 ≤ t.meta_.sequence ∧ t.events ≠ [] :=
  fun t ht => (run_outputs hrun t ht).imp_left h.counter.trans

theorem do_flush_numbering {db : DB} (h : Numbering db) (mem : MemTable) (seq : Nat)
    (hseq : 1 ≤ seq) : Numbering (db.do_flush mem seq) := by
  rw [DB.do_flush]
  split
  · exact h
  · next hmem =>
      refine ⟨h.tables.insert fun t ht => ?_, h.counter⟩
      cases ht
      rw [MemTable.empty, List.isEmpty_iff] at hmem
      exact ⟨hseq, hmem⟩

theorem flush_front_numbering {db : DB} (h : Numbering db) : Numbering db.flush_front := by
  rw [DB.flush_front]
  split
  · exact h
  · next to_flush imm_mems _ =>
      have hnext : Numbering { db with imm_mems, sst_seq := db.sst_seq + 1 } :=
        ⟨h.tables, Nat.le_add_left _ _⟩
      exact do_flush_numbering hnext to_flush db.sst_seq h.counter

theorem compact_numbering {db : DB} (h : Numbering db) : Numbering (after db.compact_now) := by
  rw [DB.compact_now, DB.do_compact_l0]
  split
  · exact h
  · have hnext : 1 ≤ db.sst_seq + 1 := Nat.le_add_left _ _
    simp only []
    split
    · exact ⟨h.tables, hnext⟩
    · next outputs stats hrun =>
        have houts := h.outputs hrun
        rw [write_outputs_eq]
        split
        · exact ⟨h.tables.insertTables houts, hnext⟩
        · rw [remove_inputs_eq]
          exact ⟨(h.tables.insertTables houts).eraseFiles _, hnext⟩

theorem mem_insert_numbering {db : DB} (h : Numbering db) (e : Event) (height : Fin kMaxHeight) :
    Numbering (db.mem_insert e height) := by
  rw [mem_insert_eq]
  split <;> exact ⟨h.tables, h.counter⟩

theorem step_numbering (db : DB) (s : Step) (h : Numbering db) : Numbering (step db s) := by
  have hwrite : (∃ db', Quiet db db' ∧ (step db s = db' ∨
      ∃ e height, step db s = db'.mem_insert e height)) → Numbering (step db s) := by
    rintro ⟨db', hq, heq | ⟨e, height, heq⟩⟩ <;> rw [heq]
    · exact h.quiet hq
    · exact mem_insert_numbering (h.quiet hq) e height
  cases s with
  | append symbol args height io => exact hwrite (write_effect db (.inl ⟨_, _, _, _, rfl⟩))
  | remove symbol timestamp_ns sequence_id height io =>
      exact hwrite (write_effect db (.inr ⟨_, _, _, _, _, rfl⟩))
  | rotate => rcases rotate_cases db with heq | ⟨-, heq⟩ <;> rw [step, heq] <;>
      exact ⟨h.tables, h.counter⟩
  | flush_front => exact flush_front_numbering h
  | compact => exact compact_numbering h
  | stop => exact ⟨h.tables, h.counter⟩
  | save_symbols => exact ⟨h.tables, h.counter⟩

/-- A crash leaves finished tables that are numbered. -/
theorem crash_numberable {db : DB} (h : Numbering db) {s : Step} {disk : Disk}
    (hcrash : CrashLeaves db s disk) : Numberable disk.ssts := by
  cases hcrash with
  | before => exact h.tables
  | after => exact (step_numbering db s h).tables
  | symbol => exact h.tables
  | @record _ symbol e hs stored =>
      rw [(wal_append_quiet e _ _).ssts]
      exact h.tables
  | flush himm hmem t => exact h.tables.insert nofun
  | between hrun j =>
      rw [write_outputs_eq]
      exact h.tables.insertTables fun t ht => h.outputs hrun t (List.mem_of_mem_take ht)
  | output hrun hj t =>
      rw [write_outputs_eq]
      exact (h.tables.insertTables fun t ht =>
        h.outputs hrun t (List.mem_of_mem_take ht)).insert nofun
  | removing hrun hne i =>
      rw [write_outputs_eq, remove_inputs_eq]
      exact (h.tables.insertTables (h.outputs hrun)).eraseFiles _
  | symbols => exact h.tables

/-- What `open` leaves of the disk but for the log, and of the counters. -/
theorem open_quiet (cfg : DBConfig) (disk : Disk) (listing : List SSTablePath)
    (heights : Nat → Fin kMaxHeight) :
    (opened cfg disk listing heights).levels = (DB.load cfg disk listing).levels ∧
      (opened cfg disk listing heights).sst_seq = 1 ∧
      (opened cfg disk listing heights).imm_mems = [] ∧
      (opened cfg disk listing heights).disk.ssts = disk.ssts := by
  rw [opened, DB.open_]
  cases cfg.wal_enabled with
  | false => exact ⟨rfl, rfl, rfl, rfl⟩
  | true =>
      simp only [if_true]
      split
      · split <;> exact ⟨rfl, rfl, rfl, rfl⟩
      · split <;> exact ⟨rfl, rfl, rfl, rfl⟩

theorem left_numberable {disk : Disk} (h : Left disk) : Numberable disk.ssts := by
  induction h with
  | new => exact fun path t ht => by cases ht
  | opening _ _ ih => exact ih
  | session _ cfg listing heights steps s hend ih =>
      obtain ⟨-, hseq, -, hssts⟩ := open_quiet cfg _ listing heights
      have hopen : Numbering (opened cfg _ listing heights) :=
        ⟨hssts ▸ ih, Nat.le_of_eq hseq.symm⟩
      exact crash_numberable (Run.invariant step_numbering steps hopen) hend

/-! ## The first file of a session -/

/-- There is no memtable to flush and no file to compact. -/
def CreatesNothing (db : DB) : Step → Prop
  | .flush_front => db.imm_mems = []
  | .compact => db.levels 0 = []
  | _ => True

theorem created_nothing {db : DB} {s : Step} (h : CreatesNothing db s) : created db s = [] := by
  cases s with
  | flush_front => rw [created, show db.imm_mems = [] from h]
  | compact => exact if_pos h
  | _ => rfl

/-- The session has created nothing so far. -/
structure Untouched (loaded : Levels) (ssts : SSTableDir) (db : DB) : Prop where
  counter : db.sst_seq = 1
  levels : db.levels = loaded
  tables : db.disk.ssts = ssts
  full : ∀ m ∈ db.imm_mems, m.nodes ≠ []

theorem Untouched.mem_insert {loaded : Levels} {ssts : SSTableDir} {db : DB}
    (h : Untouched loaded ssts db) (e : Event) (height : Fin kMaxHeight) :
    Untouched loaded ssts (db.mem_insert e height) := by
  rw [mem_insert_eq]
  split
  · refine ⟨h.counter, h.levels, h.tables, fun m hm => ?_⟩
    rcases List.mem_append.mp hm with hm | hm
    · exact h.full m hm
    · rw [List.mem_singleton.mp hm]
      exact Keyed.upsert_ne_nil _ _
  · exact ⟨h.counter, h.levels, h.tables, h.full⟩

theorem Untouched.step {loaded : Levels} {ssts : SSTableDir} {db : DB}
    (h : Untouched loaded ssts db) {s : Step} (hs : CreatesNothing db s) :
    Untouched loaded ssts (step db s) := by
  have hwrite : (∃ db', Quiet db db' ∧ (Spec.step db s = db' ∨
      ∃ e height, Spec.step db s = db'.mem_insert e height)) →
      Untouched loaded ssts (Spec.step db s) := by
    rintro ⟨db', hq, heq⟩
    have hdb' : Untouched loaded ssts db' := ⟨hq.sst_seq.trans h.counter,
      hq.levels.trans h.levels, hq.ssts.trans h.tables, hq.imm ▸ h.full⟩
    rcases heq with heq | ⟨e, height, heq⟩ <;> rw [heq]
    · exact hdb'
    · exact hdb'.mem_insert e height
  cases s with
  | append symbol args height io => exact hwrite (write_effect db (.inl ⟨_, _, _, _, rfl⟩))
  | remove symbol timestamp_ns sequence_id height io =>
      exact hwrite (write_effect db (.inr ⟨_, _, _, _, _, rfl⟩))
  | rotate =>
      rcases rotate_cases db with heq | ⟨hne, heq⟩ <;> rw [Spec.step, heq]
      · exact h
      · refine ⟨h.counter, h.levels, h.tables, fun m hm => ?_⟩
        rcases List.mem_append.mp hm with hm | hm
        · exact h.full m hm
        · rw [List.mem_singleton.mp hm]
          exact hne
  | flush_front =>
      have heq : db.flush_front = db := by rw [DB.flush_front, show db.imm_mems = [] from hs]
      rw [Spec.step, heq]
      exact h
  | compact =>
      have heq : db.compact_now = .ok () db := by
        rw [DB.compact_now, DB.do_compact_l0, if_pos (show db.levels 0 = [] from hs)]
      rw [Spec.step, heq]
      exact h
  | stop => exact ⟨h.counter, h.levels, h.tables, h.full⟩
  | save_symbols => exact ⟨h.counter, h.levels, h.tables, h.full⟩

/-- Where something was loaded, and all of it finished, creating a file breaks
the order of numbers. -/
theorem Untouched.creates_low {loaded : Levels} {ssts : SSTableDir} {db : DB}
    (h : Untouched loaded ssts db) (htables : Numberable ssts)
    (hfinished : ∀ info ∈ files_to_scan loaded, ∃ t, ssts.lookup info.path = some (.finished t))
    {s : Step} (hs : ¬ CreatesNothing db s) : ∃ c ∈ created db s, c.2 = 1 := by
  cases s with
  | flush_front =>
      cases himm : db.imm_mems with
      | nil => exact absurd himm hs
      | cons mem rest =>
          have hne : mem.empty ≠ true := by
            rw [MemTable.empty, ne_eq, List.isEmpty_iff]
            exact h.full mem (himm ▸ List.mem_cons_self)
          refine ⟨(DB.flush_path db.sst_seq, db.sst_seq), ?_, h.counter⟩
          simp only [created, himm, if_neg hne, List.mem_singleton]
  | compact =>
      have hl0 : ∀ info ∈ db.levels 0,
          ∃ t, db.disk.ssts.lookup info.path = some (.finished t) := fun info hinfo => by
        rw [h.tables]
        refine hfinished info ?_
        rw [files_to_scan_eq, ← h.levels]
        exact List.mem_append_left _ hinfo
      have hfull : ∀ info ∈ db.levels 0, fileEvents db.disk.ssts info ≠ [] := fun info hinfo => by
        obtain ⟨t, ht⟩ := hl0 info hinfo
        rw [fileEvents, ht]
        rw [h.tables] at ht
        exact (htables _ _ ht).2
      obtain ⟨chunks, stats, -, hne, -, hrun⟩ := run_ok hl0 hfull hs
      obtain ⟨c, cs, rfl⟩ := List.exists_cons_of_ne_nil hne
      refine ⟨(output_path 1 (SSTable.write 1 db.sst_seq c), db.sst_seq), ?_, h.counter⟩
      rw [created, if_neg (show db.levels 0 ≠ [] from hs), hrun]
      exact List.mem_map.mpr ⟨_, List.mem_map_of_mem List.mem_cons_self, rfl⟩
  | _ => exact absurd trivial hs

theorem loaded_numbered {cfg : DBConfig} {disk : Disk} {listing : List SSTablePath}
    (htables : Numberable disk.ssts) {info : SSTableInfo}
    (hinfo : info ∈ files_to_scan (DB.load cfg disk listing).levels) {t : SSTable}
    (ht : disk.ssts.lookup info.path = some (.finished t)) : 1 ≤ info.meta_.sequence := by
  obtain ⟨l, -, hinfo⟩ := List.mem_flatMap.mp hinfo
  simp only [DB.load] at hinfo
  rw [(sort_level_perm _).mem_iff, DB.load_level, List.mem_filterMap] at hinfo
  obtain ⟨path, -, hpath⟩ := hinfo
  obtain ⟨m, hm, rfl⟩ := Option.map_eq_some_iff.mp hpath
  simp only at ht ⊢
  rw [ht] at hm
  cases hm
  exact (htables _ _ ht).1

/-- In a session on a directory that sessions left, created files have numbers
and paths after the loaded ones if nothing was loaded or nothing is created.
Where every loaded file is a finished table there is no other such run. -/
theorem numbering_restarts {disk : Disk} (h : Left disk) (cfg : DBConfig)
    (listing : List SSTablePath) (heights : Nat → Fin kMaxHeight) (steps : List Step) :
    let db := opened cfg disk listing heights
    let loaded := files_to_scan db.levels
    (loaded = [] ∨ Run.Along step CreatesNothing db steps → Continues loaded db steps) ∧
      ((∀ info ∈ loaded, ∃ t, disk.ssts.lookup info.path = some (.finished t)) →
        Continues loaded db steps → loaded = [] ∨ Run.Along step CreatesNothing db steps) := by
  intro db loaded
  obtain ⟨hlevels, hseq, himm, hssts⟩ := open_quiet cfg disk listing heights
  constructor
  · rintro (hnone | hcreates)
    · refine Run.along_of_forall (fun db s c _ info hinfo => ?_) db steps
      rw [hnone] at hinfo
      cases hinfo
    · refine hcreates.imp fun db s hs c hc => ?_
      rw [created_nothing hs] at hc
      cases hc
  · intro hfinished hcontinues
    by_cases hnone : loaded = []
    · exact .inl hnone
    obtain ⟨info, hinfo⟩ := List.exists_mem_of_ne_nil _ hnone
    obtain ⟨t, ht⟩ := hfinished info hinfo
    have hone : 1 ≤ info.meta_.sequence := by
      have hinfo' : info ∈ files_to_scan db.levels := hinfo
      rw [hlevels] at hinfo'
      exact loaded_numbered (left_numberable h) hinfo' ht
    have hstart : Untouched db.levels disk.ssts db :=
      ⟨hseq, rfl, hssts, fun m hm => by rw [himm] at hm; cases hm⟩
    have hiff : ∀ db' s, Untouched db.levels disk.ssts db' →
        ((∀ c ∈ created db' s, ∀ info ∈ loaded, info.meta_.sequence < c.2 ∧ info.path ≠ c.1) ↔
          CreatesNothing db' s) := by
      intro db' s huntouched
      constructor
      · intro hcreated
        by_contra hs
        obtain ⟨c, hc, hc1⟩ := huntouched.creates_low (left_numberable h) hfinished hs
        have hlt := (hcreated c hc info hinfo).1
        omega
      · intro hs c hc
        rw [created_nothing hs] at hc
        cases hc
    refine .inr ((Run.along_iff (R := fun db' db'' => db' = db'' ∧
      Untouched db.levels disk.ssts db') ?_ ?_ ⟨rfl, hstart⟩).mp hcontinues)
    · rintro db' _ s ⟨rfl, huntouched⟩
      exact hiff db' s huntouched
    · rintro db' _ s ⟨rfl, huntouched⟩ hcreated
      exact ⟨rfl, huntouched.step ((hiff db' s huntouched).mp hcreated)⟩

def unlogged : DBConfig := { wal_enabled := false }

/-- A session that flushes one event and closes. -/
def flushedSession : List Step :=
  [.append [65] {} 0 {}, .rotate, .flush_front, .stop, .save_symbols]

def flushedDisk : Disk := (flushedSession.foldl step (opened unlogged {} [] fun _ => 0)).disk

theorem flushedDisk_left : Left flushedDisk :=
  .session .new unlogged [] (fun _ => 0) flushedSession .rotate (.before _)

/-- The next session on it. -/
def reopened : DB := opened unlogged flushedDisk [DB.flush_path 1] fun _ => 0

theorem numbering_restarts_idle :
    (files_to_scan reopened.levels).length = 1 ∧
      Continues (files_to_scan reopened.levels) reopened [.append [65] {} 0 {}] :=
  ⟨by decide, (numbering_restarts flushedDisk_left unlogged [DB.flush_path 1] (fun _ => 0)
    [.append [65] {} 0 {}]).1 (.inr ⟨trivial, trivial⟩)⟩

/-- Its first file has the number and the path of the one it loaded. -/
theorem first_file_overwritten :
    Left flushedDisk ∧ ¬ Continues (files_to_scan reopened.levels) reopened
      [.append [65] {} 0 {}, .rotate, .flush_front] := by
  refine ⟨flushedDisk_left, fun h => ?_⟩
  have hcreated := h.2.2.1 (DB.flush_path 1, 1) (by decide)
  exact absurd hcreated (by decide)

end Kronos
