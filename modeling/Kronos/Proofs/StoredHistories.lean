import Kronos.Proofs.CachedSession
import Kronos.Proofs.FlushFault
import Kronos.Proofs.Restart
import Kronos.Spec.StoredHistories

/-!
# Bytes and tables over all sessions

A listed file is the table whose meta block was listed as long as nothing is
written over it. A session that finds only finished tables lists them so, every
file it writes is a table of its own, and what it leaves is finished tables
again.
-/

namespace Kronos

open Spec Compaction

/-! ## Writing and removing files -/

section
variable {ssts : SSTableDir} {path : SSTablePath}

theorem lookup_removed {paths : List SSTablePath} (h : path ∉ paths) :
    (paths.foldl (fun ssts path => ssts.erase path) ssts).lookup path = ssts.lookup path := by
  induction paths generalizing ssts with
  | nil => rfl
  | cons p paths ih =>
      rw [List.mem_cons, not_or] at h
      rw [List.foldl_cons, ih h.2, AList.lookup_erase_ne h.1]

theorem lookup_written_ne {tables : List (SSTablePath × SSTable)}
    (h : ∀ w ∈ tables, w.1 ≠ path) :
    (tables.foldl (fun ssts w => ssts.insert w.1 (.finished w.2)) ssts).lookup path =
      ssts.lookup path := by
  induction tables generalizing ssts with
  | nil => rfl
  | cons w tables ih =>
      rw [List.foldl_cons, ih fun v hv => h v (List.mem_cons_of_mem _ hv),
        AList.lookup_insert_ne (h w List.mem_cons_self).symm]

theorem lookup_written {tables : List (SSTablePath × SSTable)}
    (h : tables.Pairwise fun w w' => w.1 ≠ w'.1) {w : SSTablePath × SSTable} (hw : w ∈ tables) :
    (tables.foldl (fun ssts w => ssts.insert w.1 (.finished w.2)) ssts).lookup w.1 =
      some (.finished w.2) := by
  induction tables generalizing ssts with
  | nil => cases hw
  | cons v tables ih =>
      obtain ⟨hv, htables⟩ := List.pairwise_cons.mp h
      rw [List.foldl_cons]
      rcases List.mem_cons.mp hw with rfl | hw
      · rw [lookup_written_ne fun u hu => (hv u hu).symm, AList.lookup_insert]
      · exact ih htables hw

end

/-- A table as a writer leaves it, and not too large. -/
structure WellWritten (t : SSTable) : Prop where
  small : t.events.length ≤ 2 ^ 25
  sorted : Keyed.Sorted Event.key t.events
  meta_eq : t.meta_ = (SSTable.write t.meta_.level t.meta_.sequence t.events).meta_

/-- Every file is one. -/
def Stocked (ssts : SSTableDir) : Prop :=
  ∀ path file, ssts.lookup path = some file → ∃ t, file = .finished t ∧ WellWritten t

theorem Stocked.bounded {ssts : SSTableDir} (h : Stocked ssts) : Bounded ssts := by
  intro path file hlook
  obtain ⟨t, heq, ht⟩ := h path file hlook
  exact ⟨t, heq, ht.small⟩

/-! ## What a step writes and lists -/

/-- The outputs of a compaction, and the levels it leaves. -/
theorem compact_lists (db : DB) :
    ∃ chunks : List (List Event), (∀ c ∈ chunks, Keyed.Sorted Event.key c) ∧
      tablesWritten db .compact =
        (tablesOf chunks db.sst_seq).map (fun t => (output_path 1 t, t)) ∧
      (tablesWritten db .compact = [] ∧ (after db.compact_now).levels = db.levels ∨
        (after db.compact_now).levels = Function.update (Function.update db.levels 0 []) 1
          (DB.sort_level (db.levels 1 ++ (tablesOf chunks db.sst_seq).map infoOf))) := by
  by_cases hnil : db.levels 0 = []
  · refine ⟨[], fun c hc => absurd hc List.not_mem_nil, ?_, .inl ⟨?_, ?_⟩⟩
    · rw [tablesWritten, if_pos hnil]
      rfl
    · rw [tablesWritten, if_pos hnil]
    · rw [DB.compact_now, DB.do_compact_l0, if_pos hnil]
      rfl
  · cases hrun : Compaction.run db.disk.ssts (db.levels 0) 1 db.sst_seq
        db.cfg.sstable_target_bytes with
    | error err =>
        refine ⟨[], fun c hc => absurd hc List.not_mem_nil, ?_, .inl ⟨?_, ?_⟩⟩
        · rw [tablesWritten, if_neg hnil, hrun]
          rfl
        · rw [tablesWritten, if_neg hnil, hrun]
        · rw [DB.compact_now, DB.do_compact_l0, if_neg hnil]
          simp only [hrun]
          rfl
    | ok r =>
        obtain ⟨outputs, stats⟩ := r
        obtain ⟨chunks, houts, hsorted⟩ : ∃ chunks, outputs = tablesOf chunks db.sst_seq ∧
            ∀ c ∈ chunks, Keyed.Sorted Event.key c := by
          have houtputs := hrun
          rw [Compaction.run] at houtputs
          split at houtputs
          · cases houtputs
          · next all _ =>
              cases houtputs
              obtain ⟨chunks, houts, hflat, -⟩ := write_outputs_chunks 1 db.sst_seq
                db.cfg.sstable_target_bytes (merge 1 all)
              refine ⟨chunks, houts, fun c hc => ?_⟩
              refine List.Pairwise.sublist (List.sublist_flatten_of_mem hc) ?_
              rw [hflat]
              exact Compaction.merge_sorted 1 all
        have hwritten : tablesWritten db .compact =
            (tablesOf chunks db.sst_seq).map (fun t => (output_path 1 t, t)) := by
          rw [tablesWritten, if_neg hnil, hrun, houts]
        refine ⟨chunks, hsorted, hwritten, ?_⟩
        by_cases hempty : outputs = []
        · refine .inl ⟨by rw [hwritten, ← houts, hempty]; rfl, ?_⟩
          rw [DB.compact_now, DB.do_compact_l0, if_neg hnil]
          simp only [hrun, if_pos hempty]
          rw [write_outputs_eq]
          rfl
        · refine .inr ?_
          rw [DB.compact_now, DB.do_compact_l0, if_neg hnil]
          simp only [hrun, if_neg hempty]
          rw [write_outputs_eq, remove_inputs_eq, ← houts]
          exact congrArg DB.levels (switch_levels_eq outputs { db with
            sst_seq := db.sst_seq + 1
            disk.ssts := eraseFiles (db.levels 0) (insertTables outputs db.disk.ssts) })

/-- What a step writes are tables with sorted events, each in a file of its own. -/
theorem writes_tables {db : DB} (hmems : SortedMems db) (s : Step) :
    (∀ w ∈ tablesWritten db s, Keyed.Sorted Event.key w.2.events ∧
      w.2.meta_ = (SSTable.write w.2.meta_.level w.2.meta_.sequence w.2.events).meta_) ∧
    (tablesWritten db s).Pairwise fun w w' => w.1 ≠ w'.1 := by
  cases s with
  | flush_front =>
      rw [tablesWritten]
      cases himm : db.imm_mems with
      | nil => exact ⟨fun w hw => absurd hw List.not_mem_nil, .nil⟩
      | cons mem rest =>
          have hsorted := hmems mem (List.mem_cons_of_mem _ (himm ▸ List.mem_cons_self))
          dsimp only
          split
          · exact ⟨fun w hw => absurd hw List.not_mem_nil, .nil⟩
          · refine ⟨fun w hw => ?_, List.pairwise_singleton ..⟩
            rw [List.mem_singleton.mp hw]
            exact ⟨hsorted, rfl⟩
  | compact =>
      obtain ⟨chunks, hsorted, hwritten, -⟩ := compact_lists db
      rw [hwritten]
      constructor
      · intro w hw
        obtain ⟨t, ht, rfl⟩ := List.mem_map.mp hw
        obtain ⟨i, c, hget, rfl⟩ := mem_tablesOf ht
        exact ⟨hsorted c (List.mem_of_getElem? hget), rfl⟩
      · exact List.pairwise_map.mpr (tablesOf_paths chunks db.sst_seq)
  | _ => exact ⟨fun w hw => absurd hw List.not_mem_nil, .nil⟩

/-- What is listed after a step was listed and is not removed, or was written. -/
theorem step_lists {db : DB} (hdirs : ∀ l, ∀ info ∈ db.levels l, info.path.dir = l) (s : Step) :
    ∀ l, ∀ info ∈ (step db s).levels l, info.path.dir = l ∧
      (info ∈ db.levels l ∧ info.path ∉ pathsRemoved db s ∨
        ∃ w ∈ tablesWritten db s, w.1 ∉ pathsRemoved db s ∧ info = ⟨w.1, w.2.meta_⟩) := by
  have hsame : (step db s).levels = db.levels → pathsRemoved db s = [] →
      ∀ l, ∀ info ∈ (step db s).levels l, info.path.dir = l ∧
        (info ∈ db.levels l ∧ info.path ∉ pathsRemoved db s ∨
          ∃ w ∈ tablesWritten db s, w.1 ∉ pathsRemoved db s ∧ info = ⟨w.1, w.2.meta_⟩) := by
    intro hlevels hremoved l info hinfo
    rw [hlevels] at hinfo
    rw [hremoved]
    exact ⟨hdirs l info hinfo, .inl ⟨hinfo, List.not_mem_nil⟩⟩
  have hput : ∀ {s : Step}, (∃ db', Quiet db db' ∧ (step db s = db' ∨
      ∃ e height, step db s = db'.mem_insert e height)) → (step db s).levels = db.levels := by
    intro s heffect
    obtain ⟨db', hq, heq | ⟨e, height, heq⟩⟩ := heffect
    · rw [heq, hq.levels]
    · rw [heq, (mem_insert_levels db' e height).1, hq.levels]
  cases s with
  | append symbol args height io =>
      exact hsame (hput (write_effect db (.inl ⟨_, _, _, _, rfl⟩))) rfl
  | remove symbol timestamp_ns sequence_id height io =>
      exact hsame (hput (write_effect db (.inr ⟨_, _, _, _, _, rfl⟩))) rfl
  | rotate => exact hsame (rotate_levels db).1 rfl
  | stop => exact hsame rfl rfl
  | save_symbols => exact hsame rfl rfl
  | flush_front =>
      cases himm : db.imm_mems with
      | nil => exact hsame (by rw [step, DB.flush_front, himm]) rfl
      | cons mem rest =>
          by_cases hmem : mem.nodes = []
          · exact hsame (by rw [step, flush_front_empty himm hmem]) rfl
          · intro l info hinfo
            rw [step, flush_front_full himm hmem] at hinfo
            by_cases hl : l = 0
            · rw [hl, publish_l0] at hinfo
              rcases List.mem_append.mp hinfo with hold | hnew
              · exact ⟨hl ▸ hdirs 0 info hold, .inl ⟨hl ▸ hold, List.not_mem_nil⟩⟩
              · rw [List.mem_singleton.mp hnew, hl]
                refine ⟨rfl, .inr ⟨(DB.flush_path db.sst_seq,
                  SSTable.write 0 db.sst_seq mem.nodes), ?_, List.not_mem_nil, rfl⟩⟩
                rw [tablesWritten, himm]
                dsimp only
                rw [if_neg (by rw [MemTable.empty, List.isEmpty_iff]; exact hmem)]
                exact List.mem_singleton.mpr rfl
            · rw [publish_above mem rest db hl] at hinfo
              exact ⟨hdirs l info hinfo, .inl ⟨hinfo, List.not_mem_nil⟩⟩
  | compact =>
      obtain ⟨chunks, -, hwritten, ⟨hnone, hlevels⟩ | hlevels⟩ := compact_lists db
      · exact hsame hlevels (if_pos hnone)
      · -- only files of level 0 are removed
        have hremoved : ∀ path, path.dir ≠ 0 → path ∉ pathsRemoved db .compact := by
          intro path hdir hpath
          rw [pathsRemoved] at hpath
          split at hpath
          · cases hpath
          · obtain ⟨info, hinfo, rfl⟩ := List.mem_map.mp hpath
            exact hdir (hdirs 0 info hinfo)
        intro l info hinfo
        rw [step, hlevels] at hinfo
        by_cases hone : l = 1
        · rw [hone, Function.update_self] at hinfo
          rcases List.mem_append.mp ((sort_level_perm _).mem_iff.mp hinfo) with hold | hnew
          · have hdir : info.path.dir = 1 := hdirs 1 info hold
            refine ⟨by rw [hone]; exact hdir, .inl ⟨hone ▸ hold, hremoved _ ?_⟩⟩
            rw [hdir]
            exact Nat.one_ne_zero
          · obtain ⟨t, ht, rfl⟩ := List.mem_map.mp hnew
            refine ⟨by rw [hone]; rfl, .inr ⟨(output_path 1 t, t), ?_, ?_, rfl⟩⟩
            · rw [hwritten]
              exact List.mem_map_of_mem ht
            · exact hremoved _ Nat.one_ne_zero
        · rw [Function.update_of_ne hone] at hinfo
          by_cases hzero : l = 0
          · rw [hzero, Function.update_self] at hinfo
            cases hinfo
          · rw [Function.update_of_ne hzero] at hinfo
            have hdir := hdirs l info hinfo
            refine ⟨hdir, .inl ⟨hinfo, hremoved _ ?_⟩⟩
            rw [hdir]
            exact fun h => hzero (Fin.ext h)

/-! ## A session -/

structure Shelved (s : CachedSession) : Prop where
  mems : SortedMems s.db
  stocked : Stocked s.db.disk.ssts
  dirs : ∀ l, ∀ info ∈ s.db.levels l, info.path.dir = l
  listed : ∀ l, ∀ info ∈ s.db.levels l, ∃ t,
    s.db.disk.ssts.lookup info.path = some (.finished t) ∧ t.meta_ = info.meta_
  mirrors : Mirrors s.db.disk.ssts s.files
  fresh : FreshCache s.files s.block_cache

namespace Shelved

variable {s : CachedSession} (h : Shelved s)

include h in
theorem one_sizes : OneSizes s.files := fun _ hr => opens_table h.mirrors h.stocked.bounded hr

include h in
theorem tabled {info : SSTableInfo} (hinfo : info ∈ files_to_scan s.db.levels) :
    ∃ events, Tabled s.db.disk.ssts info events ∧ Whole ⟨info.meta_, events⟩ := by
  obtain ⟨l, -, hinfo⟩ := List.mem_flatMap.mp hinfo
  obtain ⟨t, hlook, hmeta⟩ := h.listed l info hinfo
  obtain ⟨t', heq, hproper⟩ := h.stocked info.path _ hlook
  obtain rfl := SSTableFile.finished.inj heq
  refine ⟨t.events, ⟨?_, ?_, hproper.sorted⟩, ?_⟩
  · rw [hlook, ← hmeta]
  · rw [← hmeta]
    exact hproper.meta_eq
  · rw [← hmeta]
    exact whole_of_length hproper.small

include h in
/-- What is there is not written over. -/
theorem lookup_step {st : Step} (hnew : WritesAfresh s (.db st)) {path : SSTablePath}
    {t : SSTable} (hlook : s.db.disk.ssts.lookup path = some (.finished t))
    (hkept : path ∉ pathsRemoved s.db st) :
    (step s.db st).disk.ssts.lookup path = some (.finished t) := by
  rw [step_ssts, lookup_removed hkept, lookup_written_ne, hlook]
  intro w hw heq
  have hthere := h.mirrors path
  rw [hlook] at hthere
  obtain ⟨target, hthere⟩ := hthere
  rw [← heq, (hnew w hw).2.1] at hthere
  cases hthere

include h in
theorem db_step {st : Step} (hnew : WritesAfresh s (.db st)) : Shelved (s.act (.db st)) := by
  obtain ⟨htables, hpaths⟩ := writes_tables h.mems st
  have hlists := step_lists h.dirs st
  refine
    { mems := sorted_step h.mems st
      stocked := ?_
      dirs := fun l info hinfo => (hlists l info hinfo).1
      listed := fun l info hinfo => ?_
      mirrors := mirrors_act h.mirrors (.db st)
      fresh := h.fresh.step fun w hw e he => (hnew w hw).2.2 e he }
  · exact AllTables.step h.stocked fun w hw =>
      ⟨(hnew w hw).1, (htables w hw).1, (htables w hw).2⟩
  · rcases (hlists l info hinfo).2 with ⟨hold, hkept⟩ | ⟨w, hw, hkept, rfl⟩
    · obtain ⟨t, hlook, hmeta⟩ := h.listed l info hold
      exact ⟨t, h.lookup_step hnew hlook hkept, hmeta⟩
    · refine ⟨w.2, ?_, rfl⟩
      show (step s.db st).disk.ssts.lookup w.1 = _
      rw [step_ssts, lookup_removed hkept, lookup_written hpaths hw]

include h in
theorem query_step (req : QueryRequest) :
    AnswersTables s (.query req) ∧ Shelved (s.act (.query req)) := by
  obtain ⟨hanswers, c, hact, hreads⟩ :=
    answers_tables h.mirrors h.one_sizes h.fresh (fun info hinfo => h.tabled hinfo) req
  refine ⟨hanswers, ?_⟩
  rw [hact]
  exact ⟨h.mems, h.stocked, h.dirs, h.listed, h.mirrors, h.fresh.reads h.one_sizes hreads⟩

include h in
theorem act {a : CachedStep} (hnew : WritesAfresh s a) : Shelved (s.act a) := by
  cases a with
  | db st => exact h.db_step hnew
  | query req => exact (h.query_step req).2

end Shelved

/-! ## All sessions -/

/-- What `open` lists of finished tables. -/
theorem shelved_start {disk : Disk} {files : StoredFiles} (hstocked : Stocked disk.ssts)
    (hmirrors : Mirrors disk.ssts files) (s : StoredSession) : Shelved (s.start disk files) := by
  obtain ⟨hlevels, -, -, hssts⟩ := open_quiet s.cfg disk s.listing s.heights
  have hlisted : ∀ l, ∀ info ∈ (s.start disk files).db.levels l, info.path.dir = l ∧ ∃ t,
      disk.ssts.lookup info.path = some (.finished t) ∧ t.meta_ = info.meta_ := by
    intro l info hinfo
    have hinfo : info ∈ (opened s.cfg disk s.listing s.heights).levels l := hinfo
    rw [hlevels] at hinfo
    obtain ⟨path, hpath, hmeta⟩ :=
      List.mem_filterMap.mp ((sort_level_perm _).mem_iff.mp hinfo)
    have hdir : path.dir = l := of_decide_eq_true (List.mem_filter.mp hpath).2
    obtain ⟨m, hread, rfl⟩ := Option.map_eq_some_iff.mp hmeta
    obtain ⟨file, hlook, hread⟩ := Option.bind_eq_some_iff.mp hread
    obtain ⟨t, rfl, -⟩ := hstocked path file hlook
    exact ⟨hdir, t, hlook, Option.some.inj hread⟩
  have hssts : (s.start disk files).db.disk.ssts = disk.ssts := hssts
  refine
    { mems := sorted_opened s.cfg disk s.listing s.heights
      stocked := hssts ▸ hstocked
      dirs := fun l info hinfo => (hlisted l info hinfo).1
      listed := fun l info hinfo => ?_
      mirrors := ?_
      fresh := fresh_new files s.block_cache_bytes }
  · rw [hssts]
    exact (hlisted l info hinfo).2
  · rw [hssts]
    exact hmirrors

theorem history_stocked {disk : Disk} {files : StoredFiles} (h : StoredHistory disk files) :
    Stocked disk.ssts ∧ Mirrors disk.ssts files := by
  induction h with
  | new =>
      refine ⟨fun path file hlook => ?_, fun path => rfl⟩
      cases hlook
  | session _ s hrun hdisk ih =>
      have hend := Run.Along.invariant (fun _ _ hs ha => hs.act ha) (shelved_start ih.1 ih.2 s) hrun
      rw [hdisk]
      exact ⟨hend.stocked, hend.mirrors⟩

/-- Over any number of sessions that write no file over and none that the cache has blocks
of: each query over the bytes of the files answers, by way of the cache, what it answers
over the tables. -/
theorem stored_history_answers {disk : Disk} {files : StoredFiles} (h : StoredHistory disk files)
    (s : StoredSession)
    (hrun : Run.Along CachedSession.act WritesAfresh (s.start disk files) s.steps) :
    Run.Along CachedSession.act AnswersTables (s.start disk files) s.steps := by
  obtain ⟨hstocked, hmirrors⟩ := history_stocked h
  refine hrun.grants (I := Shelved) (fun _ _ hs ha => hs.act ha) (fun s a hs ha => ?_)
    (shelved_start hstocked hmirrors s)
  cases a with
  | db st => trivial
  | query req => exact (hs.query_step req).1

/-- A session that writes, flushes and compacts, up to a crash. -/
def firstStored : StoredSession :=
  { cfg := unlogged
    listing := []
    heights := fun _ => 0
    block_cache_bytes := 1000
    block_target_bytes := 65536
    steps := [.db (.append [65] {} 0 {}), .db .rotate, .db .flush_front, .db .compact] }

/-- The next one lists what was compacted and reads it twice. -/
def secondStored : StoredSession :=
  { firstStored with
    listing := [⟨1, .compacted 1 2⟩]
    steps := [.query { symbol := [65] }, .query { symbol := [65] }] }

/-- The first session, from its start to its end. -/
def firstEnd : CachedSession :=
  firstStored.steps.foldl CachedSession.act (firstStored.start {} fun _ => none)

theorem stored_history_answers_restarted :
    firstEnd.db.disk.ssts.lookup ⟨1, .compacted 1 2⟩ =
        some (.finished (SSTable.write 1 2 [onlyTrade])) ∧
      Run.Along CachedSession.act AnswersTables
        (secondStored.start firstEnd.db.disk firstEnd.files) secondStored.steps := by
  refine ⟨rfl, stored_history_answers (.session .new firstStored ⟨fun w hw => ?_, fun w hw => ?_,
    fun w hw => ?_, fun w hw => ?_, trivial⟩ rfl) secondStored ⟨trivial, trivial, trivial⟩⟩
  · cases hw
  · cases hw
  · obtain rfl : w = (DB.flush_path 1, SSTable.write 0 1 [onlyTrade]) := List.mem_singleton.mp hw
    exact ⟨by decide, rfl, fun e he => absurd he List.not_mem_nil⟩
  · obtain rfl : w = (⟨1, .compacted 1 2⟩, SSTable.write 1 2 [onlyTrade]) :=
      List.mem_singleton.mp hw
    exact ⟨by decide, rfl, fun e he => absurd he List.not_mem_nil⟩

end Kronos
