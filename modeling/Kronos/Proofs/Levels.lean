import Kronos.Proofs.Compacted

/-!
# What the steps do to the levels

Each step that moves a memtable or a file is said once here: putting a version
in the active memtable, retiring it, publishing the oldest immutable one as a
file of level 0, replacing level 0 by the outputs of its compaction. `Filed`
is what they all keep, whatever numbers the files get: memtables and level 0
are sorted, and the files of level 0 are on disk under paths of their own.
-/

namespace Kronos

open Compaction

theorem files_to_scan_eq (levels : Levels) :
    files_to_scan levels = levels 0 ++ (levels 1 ++ (levels 2 ++ levels 3)) := by
  rw [files_to_scan, show List.finRange kMaxLevels = [0, 1, 2, 3] by decide]
  simp only [List.flatMap_cons, List.flatMap_nil, List.append_nil]

/-! ## Steps that leave the files alone -/

/-- Equal but for the log, the symbols and the counters of events. -/
structure Quiet (db db' : DB) : Prop where
  active : db'.active_mem = db.active_mem
  imm : db'.imm_mems = db.imm_mems
  levels : db'.levels = db.levels
  sst_seq : db'.sst_seq = db.sst_seq
  ssts : db'.disk.ssts = db.disk.ssts
  cfg : db'.cfg = db.cfg

theorem Quiet.refl (db : DB) : Quiet db db := ⟨rfl, rfl, rfl, rfl, rfl, rfl⟩

theorem Quiet.trans {a b c : DB} (h : Quiet a b) (h' : Quiet b c) : Quiet a c :=
  ⟨h'.active.trans h.active, h'.imm.trans h.imm, h'.levels.trans h.levels,
    h'.sst_seq.trans h.sst_seq, h'.ssts.trans h.ssts, h'.cfg.trans h.cfg⟩

theorem intern_quiet (symbol : Bytes) (db : DB) : Quiet db (db.intern symbol).2 :=
  ⟨rfl, rfl, rfl, rfl, rfl, rfl⟩

/-! ## Memtables -/

/-- The state after a version is put in the active memtable. -/
def putActive (e : Event) (height : Fin kMaxHeight) (db : DB) : DB :=
  { db with active_mem := db.active_mem.insert e height }

/-- The state after the active memtable is moved behind the immutable ones. -/
def retire (db : DB) : DB :=
  { db with
    imm_mems := db.imm_mems ++ [db.active_mem]
    active_mem := MemTable.new db.cfg.memtable_flush_bytes }

theorem mem_insert_eq (e : Event) (height : Fin kMaxHeight) (db : DB) :
    db.mem_insert e height =
      if (db.active_mem.insert e height).should_flush then retire (putActive e height db)
      else putActive e height db := rfl

theorem rotate_eq (db : DB) : db.rotate = if db.active_mem.empty then db else retire db := rfl

theorem rotate_cases (db : DB) :
    db.rotate = db ∨ db.active_mem.nodes ≠ [] ∧ db.rotate = retire db := by
  rw [rotate_eq]
  split
  · exact .inl rfl
  · next hne =>
      rw [MemTable.empty, List.isEmpty_iff] at hne
      exact .inr ⟨hne, rfl⟩

/-- The memtables after a step of an append or a rotation. -/
theorem mems_sorted_retire {db : DB}
    (h : ∀ m ∈ db.active_mem :: db.imm_mems, Keyed.Sorted Event.key m.nodes) :
    ∀ m ∈ (retire db).active_mem :: (retire db).imm_mems, Keyed.Sorted Event.key m.nodes := by
  intro m hm
  rcases List.mem_cons.mp hm with rfl | hm
  · exact List.Pairwise.nil
  · rcases List.mem_append.mp hm with hm | hm
    · exact h m (List.mem_cons_of_mem _ hm)
    · rw [List.mem_singleton.mp hm]
      exact h _ List.mem_cons_self

theorem mems_sorted_insert {db : DB}
    (h : ∀ m ∈ db.active_mem :: db.imm_mems, Keyed.Sorted Event.key m.nodes) (e : Event)
    (height : Fin kMaxHeight) :
    ∀ m ∈ (db.mem_insert e height).active_mem :: (db.mem_insert e height).imm_mems,
      Keyed.Sorted Event.key m.nodes := by
  have hput : ∀ m ∈ (putActive e height db).active_mem :: (putActive e height db).imm_mems,
      Keyed.Sorted Event.key m.nodes := by
    intro m hm
    rcases List.mem_cons.mp hm with rfl | hm
    · exact Keyed.upsert_sorted e (h _ List.mem_cons_self)
    · exact h m (List.mem_cons_of_mem _ hm)
  rw [mem_insert_eq]
  split
  · exact mems_sorted_retire hput
  · exact hput

theorem mem_insert_rest (e : Event) (height : Fin kMaxHeight) (db : DB) :
    ∃ active_mem imm_mems, db.mem_insert e height = { db with active_mem, imm_mems } := by
  rw [mem_insert_eq]
  split <;> exact ⟨_, _, rfl⟩

theorem rotate_rest (db : DB) :
    ∃ active_mem imm_mems, db.rotate = { db with active_mem, imm_mems } := by
  rcases rotate_cases db with heq | ⟨-, heq⟩ <;> rw [heq] <;> exact ⟨_, _, rfl⟩

/-! ## Publishing a memtable -/

theorem flush_path_inj {a b : Nat} (h : DB.flush_path a = DB.flush_path b) : a = b := by
  cases h
  rfl

/-- A file of another number is not touched by writing one. -/
theorem fileEvents_insert_ne {ssts : SSTableDir} {info : SSTableInfo} {path : SSTablePath}
    (hne : info.path ≠ path) (file : SSTableFile) :
    fileEvents (ssts.insert path file) info = fileEvents ssts info := by
  rw [fileEvents, AList.lookup_insert_ne hne, fileEvents]

/-- The state after a memtable with something in it is written and listed. -/
def publish (mem : MemTable) (rest : List MemTable) (db : DB) : DB :=
  { db with
    imm_mems := rest
    sst_seq := db.sst_seq + 1
    levels := Function.update db.levels 0 (db.levels 0 ++
      [⟨DB.flush_path db.sst_seq, (SSTable.write 0 db.sst_seq mem.nodes).meta_⟩])
    disk.ssts := db.disk.ssts.insert (DB.flush_path db.sst_seq)
      (.finished (SSTable.write 0 db.sst_seq mem.nodes)) }

theorem publish_l0 (mem : MemTable) (rest : List MemTable) (db : DB) :
    (publish mem rest db).levels 0 = db.levels 0 ++
      [⟨DB.flush_path db.sst_seq, (SSTable.write 0 db.sst_seq mem.nodes).meta_⟩] := by
  simp only [publish, Function.update_self]

theorem publish_above (mem : MemTable) (rest : List MemTable) (db : DB) {l : Fin kMaxLevels}
    (hl : l ≠ 0) : (publish mem rest db).levels l = db.levels l :=
  Function.update_of_ne hl _ _

/-- Where no immutable memtable is empty, every round of the loop publishes. -/
theorem flush_front_cases {db : DB} (hfull : ∀ m ∈ db.imm_mems, m.nodes ≠ []) :
    (db.imm_mems = [] ∧ db.flush_front = db) ∨
    ∃ mem rest, db.imm_mems = mem :: rest ∧ mem.nodes ≠ [] ∧
      db.flush_front = publish mem rest db := by
  cases himm : db.imm_mems with
  | nil => exact .inl ⟨rfl, by rw [DB.flush_front, himm]⟩
  | cons mem rest =>
      have hne := hfull mem (himm ▸ List.mem_cons_self)
      refine .inr ⟨mem, rest, rfl, hne, ?_⟩
      rw [DB.flush_front, himm]
      simp only [DB.do_flush]
      exact if_neg (by rw [MemTable.empty, List.isEmpty_iff]; exact hne)

/-! ## The files -/

def insertTables (outputs : List SSTable) (ssts : SSTableDir) : SSTableDir :=
  outputs.foldl (fun ssts t => ssts.insert (output_path 1 t) (.finished t)) ssts

def eraseFiles (files : List SSTableInfo) (ssts : SSTableDir) : SSTableDir :=
  files.foldl (fun ssts f => ssts.erase f.path) ssts

theorem write_outputs_eq (outputs : List SSTable) (db : DB) :
    db.write_outputs outputs = { db with disk.ssts := insertTables outputs db.disk.ssts } := by
  induction outputs generalizing db with
  | nil => rfl
  | cons t ts ih =>
      rw [DB.write_outputs, List.foldl_cons, ← DB.write_outputs, ih]
      rfl

theorem remove_inputs_eq (files : List SSTableInfo) (db : DB) :
    db.remove_inputs files = { db with disk.ssts := eraseFiles files db.disk.ssts } := by
  induction files generalizing db with
  | nil => rfl
  | cons f fs ih =>
      rw [DB.remove_inputs, List.foldl_cons, ← DB.remove_inputs, ih]
      rfl

theorem lookup_insertTables_ne {outputs : List SSTable} {path : SSTablePath}
    (h : ∀ t ∈ outputs, path ≠ output_path 1 t) (ssts : SSTableDir) :
    (insertTables outputs ssts).lookup path = ssts.lookup path := lookup_saved_ne h ssts

theorem lookup_insertTables {outputs : List SSTable}
    (h : outputs.Pairwise fun t t' => output_path 1 t ≠ output_path 1 t') {t : SSTable}
    (ht : t ∈ outputs) (ssts : SSTableDir) :
    (insertTables outputs ssts).lookup (output_path 1 t) = some (.finished t) :=
  lookup_saved h ht ssts

theorem lookup_eraseFiles_ne {files : List SSTableInfo} {path : SSTablePath}
    (h : ∀ f ∈ files, path ≠ f.path) (ssts : SSTableDir) :
    (eraseFiles files ssts).lookup path = ssts.lookup path := by
  induction files generalizing ssts with
  | nil => rfl
  | cons f fs ih =>
      rw [eraseFiles, List.foldl_cons, ← eraseFiles,
        ih (fun f' hf' => h f' (List.mem_cons_of_mem _ hf')),
        AList.lookup_erase_ne (h f List.mem_cons_self)]

/-- Nothing is left of a file that is erased. -/
theorem lookup_eraseFiles {files : List SSTableInfo} {path : SSTablePath}
    (h : ∃ f ∈ files, path = f.path) (ssts : SSTableDir) :
    (eraseFiles files ssts).lookup path = none := by
  induction files generalizing ssts with
  | nil =>
      obtain ⟨f, hf, -⟩ := h
      cases hf
  | cons f fs ih =>
      rw [eraseFiles, List.foldl_cons, ← eraseFiles]
      by_cases hlater : ∃ f ∈ fs, path = f.path
      · exact ih hlater _
      · rw [lookup_eraseFiles_ne fun f' hf' heq => hlater ⟨f', hf', heq⟩]
        obtain ⟨f', hf', rfl⟩ := h
        rcases List.mem_cons.mp hf' with rfl | hf'
        · exact AList.lookup_erase _ _
        · exact absurd ⟨f', hf', rfl⟩ hlater

/-! ## The outputs in their place -/

section
variable {chunks : List (List Event)} {sequence : Nat}

/-- The tables of the outputs. -/
def tablesOf (chunks : List (List Event)) (sequence : Nat) : List SSTable :=
  (chunks.zipIdx sequence).map fun p => SSTable.write 1 p.2 p.1

/-- The list entry of an output. -/
def infoOf (t : SSTable) : SSTableInfo := ⟨output_path 1 t, t.meta_⟩

theorem mem_tablesOf {t : SSTable} (ht : t ∈ tablesOf chunks sequence) :
    ∃ i c, chunks[i]? = some c ∧ t = SSTable.write 1 (sequence + i) c := by
  obtain ⟨⟨c, n⟩, hp, rfl⟩ := List.mem_map.mp ht
  obtain ⟨hle, hget⟩ := List.mem_zipIdx_iff_le_and_getElem?_sub.mp hp
  exact ⟨n - sequence, c, hget, by simp only at hle ⊢; rw [Nat.add_sub_cancel' hle]⟩

/-- Consecutive numbers give distinct paths. -/
theorem tablesOf_paths (chunks : List (List Event)) (sequence : Nat) :
    (tablesOf chunks sequence).Pairwise fun t t' => output_path 1 t ≠ output_path 1 t' :=
  numbered_paths 1

variable {files : List SSTableInfo} {ssts : SSTableDir}
  (hflushed : ∀ f ∈ files, f.path.dir = 0)

include hflushed in
/-- An output is on disk, finished, after the inputs are gone. -/
theorem output_tabled {t : SSTable} (ht : t ∈ tablesOf chunks sequence)
    (hsorted : ∀ c ∈ chunks, Keyed.Sorted Event.key c) :
    Tabled (eraseFiles files (insertTables (tablesOf chunks sequence) ssts)) (infoOf t)
      t.events := by
  obtain ⟨i, c, hget, heq⟩ := mem_tablesOf ht
  refine ⟨?_, ?_, ?_⟩
  · rw [lookup_eraseFiles_ne, infoOf]
    · exact lookup_insertTables (tablesOf_paths chunks sequence) ht ssts
    · intro f hf hpath
      have hdir := hflushed f hf
      rw [← hpath] at hdir
      cases hdir
  · rw [infoOf, heq]
    rfl
  · rw [heq]
    exact hsorted c (List.mem_of_getElem? hget)

include hflushed in
/-- A file that was listed in level 1 before is not touched. -/
theorem listed_untouched {info : SSTableInfo} (hdir : info.path.dir = 1)
    (hfresh : ∀ i < chunks.length, info.path ≠ ⟨1, .compacted 1 (sequence + i)⟩) :
    (eraseFiles files (insertTables (tablesOf chunks sequence) ssts)).lookup info.path =
      ssts.lookup info.path := by
  rw [lookup_eraseFiles_ne, lookup_insertTables_ne]
  · intro t ht hpath
    obtain ⟨i, c, hget, rfl⟩ := mem_tablesOf ht
    exact hfresh i (List.getElem?_eq_some_iff.mp hget).1 hpath
  · intro f hf hpath
    rw [hpath, hflushed f hf] at hdir
    cases hdir

theorem tablesOf_events (chunks : List (List Event)) (sequence : Nat) :
    (tablesOf chunks sequence).flatMap SSTable.events = chunks.flatten := by
  rw [tablesOf, List.flatMap_map]
  induction chunks generalizing sequence with
  | nil => rfl
  | cons c cs ih => rw [List.zipIdx_cons, List.flatMap_cons, ih, List.flatten_cons]; rfl

end

/-! ## The compaction -/

/-- The distinct keys of level 0. -/
def mergedKeys (db : DB) : Nat :=
  (((db.levels 0).flatMap (fileEvents db.disk.ssts)).map Event.key).dedup.length

/-- How many files a compaction of level 0 writes. -/
def outputCount (db : DB) : Nat :=
  (mergedKeys db + fileRecords db.cfg.sstable_target_bytes - 1) /
    fileRecords db.cfg.sstable_target_bytes

/-- The state after the outputs are listed in place of level 0. -/
def replaceL0 (outputs : List SSTable) (db : DB) : DB :=
  { db with
    sst_seq := db.sst_seq + 1
    levels := Function.update (Function.update db.levels 0 []) 1
      (DB.sort_level (db.levels 1 ++ outputs.map fun t => ⟨output_path 1 t, t.meta_⟩))
    disk.ssts := eraseFiles (db.levels 0) (insertTables outputs db.disk.ssts) }

/-- A compaction of finished files writes the merge of their versions in pieces. -/
theorem run_tables {ssts : SSTableDir} {files : List SSTableInfo}
    (hthere : ∀ info ∈ files, ∃ t, ssts.lookup info.path = some (.finished t))
    (seq target : Nat) :
    ∃ (chunks : List (List Event)) (stats : CompactionStats),
      chunks.flatten = merge 1 (files.flatMap fun info => versions info (fileEvents ssts info)) ∧
      (∀ c ∈ chunks, c ≠ []) ∧
      chunks.length = (((files.flatMap (fileEvents ssts)).map Event.key).dedup.length +
        fileRecords target - 1) / fileRecords target ∧
      run ssts files 1 seq target = .ok (tablesOf chunks seq, stats) := by
  have hread := read_inputs_ok hthere []
  rw [List.nil_append] at hread
  obtain ⟨chunks, houts, hflat, hfull, hlen⟩ := write_outputs_chunks 1 seq target
    (merge 1 (files.flatMap fun info => versions info (fileEvents ssts info)))
  rw [merge_length _ (fileEvents ssts)] at hlen
  refine ⟨chunks, ?_, hflat, hfull, hlen, ?_⟩
  · exact ⟨files.length, (tablesOf chunks seq).length,
      (files.flatMap fun info => versions info (fileEvents ssts info)).length,
      (merge 1 (files.flatMap fun info => versions info (fileEvents ssts info))).length⟩
  · simp only [run, hread, houts]
    rfl

/-- A compaction of level 0 where each file has something in it. -/
theorem run_ok {db : DB}
    (hl0 : ∀ info ∈ db.levels 0, ∃ t, db.disk.ssts.lookup info.path = some (.finished t))
    (hfull : ∀ info ∈ db.levels 0, fileEvents db.disk.ssts info ≠ []) (hne : db.levels 0 ≠ []) :
    ∃ (chunks : List (List Event)) (stats : CompactionStats),
      chunks.flatten = merge 1 ((db.levels 0).flatMap fun info =>
        versions info (fileEvents db.disk.ssts info)) ∧
      chunks ≠ [] ∧ chunks.length = outputCount db ∧
      run db.disk.ssts (db.levels 0) 1 db.sst_seq db.cfg.sstable_target_bytes =
        .ok (tablesOf chunks db.sst_seq, stats) := by
  obtain ⟨chunks, stats, hflat, -, hlen, hrun⟩ :=
    run_tables hl0 db.sst_seq db.cfg.sstable_target_bytes
  refine ⟨chunks, stats, hflat, fun hc => ?_, hlen, hrun⟩
  obtain ⟨info, hinfo⟩ := List.exists_mem_of_ne_nil _ hne
  obtain ⟨e, he⟩ := List.exists_mem_of_ne_nil _ (hfull info hinfo)
  have hmerged := merge_length (db.levels 0) (fileEvents db.disk.ssts)
  rw [← hflat, hc, List.flatten_nil, List.length_nil, eq_comm, List.length_eq_zero_iff,
    List.dedup_eq_nil, List.map_eq_nil_iff] at hmerged
  exact List.not_mem_nil (hmerged ▸ List.mem_flatMap.mpr ⟨info, hinfo, he⟩)

/-- Where every key has one version, the outputs hold what the inputs held. -/
theorem run_distinct {ssts : SSTableDir} {files : List SSTableInfo}
    (hthere : ∀ info ∈ files, ∃ t, ssts.lookup info.path = some (.finished t))
    (hkeys : ((files.flatMap (fileEvents ssts)).map Event.key).Nodup) (seq target : Nat) :
    ∃ (chunks : List (List Event)) (stats : CompactionStats),
      chunks.flatten.Perm (files.flatMap (fileEvents ssts)) ∧ (∀ c ∈ chunks, c ≠ []) ∧
      (∀ c ∈ chunks, Keyed.Sorted Event.key c) ∧
      run ssts files 1 seq target = .ok (tablesOf chunks seq, stats) := by
  obtain ⟨chunks, stats, hflat, hfull, -, hrun⟩ := run_tables hthere seq target
  have hevents : (files.flatMap fun info => versions info (fileEvents ssts info)).map
      EventWithSeq.e = files.flatMap (fileEvents ssts) := by
    rw [List.map_flatMap]
    refine List.flatMap_congr fun info _ => ?_
    rw [versions, List.map_map]
    exact List.map_id _
  refine ⟨chunks, stats, ?_, hfull, fun c hc => ?_, hrun⟩
  · rw [hflat, merge_low (by decide), ← hevents]
    refine (NewestWins.merge_perm ?_).map _
    rw [← hevents, List.map_map] at hkeys
    exact hkeys
  · refine List.Pairwise.sublist (List.sublist_flatten_of_mem hc) ?_
    rw [hflat]
    exact merge_sorted 1 _

/-- All of level 0 leaves it when all of it was compacted. -/
theorem switch_levels_eq (outputs : List SSTable) (db : DB) :
    db.switch_levels (db.levels 0) outputs = { db with
      levels := Function.update (Function.update db.levels 0 []) 1
        (DB.sort_level (db.levels 1 ++ outputs.map infoOf)) } := by
  have hempty : (db.levels 0).filter
      (fun info => (db.levels 0).all fun f => f.path ≠ info.path) = [] := by
    refine List.filter_eq_nil_iff.mpr fun info hinfo hall => ?_
    have := List.all_eq_true.mp hall info hinfo
    simp at this
  rw [DB.switch_levels, hempty]
  rfl

/-- With outputs, level 0 as it was is replaced. -/
theorem do_compact_l0_eq {db : DB} {chunks : List (List Event)} {stats : CompactionStats}
    (hne : db.levels 0 ≠ []) (hchunks : chunks ≠ [])
    (hrun : run db.disk.ssts (db.levels 0) 1 db.sst_seq db.cfg.sstable_target_bytes =
      .ok (tablesOf chunks db.sst_seq, stats)) :
    db.do_compact_l0 = .ok () (replaceL0 (tablesOf chunks db.sst_seq) db) := by
  have houtne : tablesOf chunks db.sst_seq ≠ [] := by
    rw [tablesOf, Ne, List.map_eq_nil_iff, List.zipIdx_eq_nil_iff]
    exact hchunks
  simp only [DB.do_compact_l0, if_neg hne, hrun]
  rw [if_neg houtne, write_outputs_eq, remove_inputs_eq]
  exact congrArg _ (switch_levels_eq _ _)

/-! ## Level 0 replaced -/

theorem replaceL0_l0 (outputs : List SSTable) (db : DB) : (replaceL0 outputs db).levels 0 = [] := by
  simp only [replaceL0]
  rw [Function.update_of_ne (by decide), Function.update_self]

theorem replaceL0_l1 (outputs : List SSTable) (db : DB) :
    (replaceL0 outputs db).levels 1 = DB.sort_level (db.levels 1 ++ outputs.map infoOf) := by
  simp only [replaceL0, Function.update_self]
  rfl

theorem replaceL0_above (outputs : List SSTable) (db : DB) {l : Fin kMaxLevels} (hl : 1 < l) :
    (replaceL0 outputs db).levels l = db.levels l := by
  simp only [replaceL0]
  rw [Function.update_of_ne (ne_of_gt hl), Function.update_of_ne (ne_of_gt (lt_trans (by decide) hl))]

theorem sort_level_perm (infos : List SSTableInfo) : (DB.sort_level infos).Perm infos :=
  List.perm_insertionSort _ _

/-! ## What every step keeps -/

structure Filed (db : DB) : Prop where
  mems : ∀ m ∈ db.active_mem :: db.imm_mems, Keyed.Sorted Event.key m.nodes
  full : ∀ m ∈ db.imm_mems, m.nodes ≠ []
  l0 : ∀ info ∈ db.levels 0,
    Tabled db.disk.ssts info (fileEvents db.disk.ssts info) ∧
      info.path = DB.flush_path info.meta_.sequence ∧ info.meta_.sequence < db.sst_seq
  l0_full : ∀ info ∈ db.levels 0, fileEvents db.disk.ssts info ≠ []
  l0_order : (db.levels 0).Pairwise (·.meta_.sequence < ·.meta_.sequence)
  l1_paths : ∀ info ∈ db.levels 1, info.path = ⟨1, .compacted 1 info.meta_.sequence⟩
  deep : db.levels 2 = [] ∧ db.levels 3 = []

namespace Filed

variable {db : DB} (h : Filed db)

include h in
/-- The log, the symbols and the next sequence id have no part in it. -/
theorem quiet {db' : DB} (hq : Quiet db db') : Filed db' := by
  constructor
  · rw [hq.active, hq.imm]; exact h.mems
  · rw [hq.imm]; exact h.full
  · rw [hq.levels, hq.sst_seq, hq.ssts]; exact h.l0
  · rw [hq.levels, hq.ssts]; exact h.l0_full
  · rw [hq.levels]; exact h.l0_order
  · rw [hq.levels]; exact h.l1_paths
  · rw [hq.levels]; exact h.deep

include h in
theorem mem_files {info : SSTableInfo} :
    info ∈ files_to_scan db.levels ↔ info ∈ db.levels 0 ∨ info ∈ db.levels 1 := by
  rw [files_to_scan_eq, h.deep.1, h.deep.2, List.append_nil, List.append_nil, List.mem_append]

include h in
theorem putActive (e : Event) (height : Fin kMaxHeight) : Filed (putActive e height db) := by
  refine ⟨fun m hm => ?_, h.full, h.l0, h.l0_full, h.l0_order, h.l1_paths, h.deep⟩
  rcases List.mem_cons.mp hm with rfl | hm
  · exact Keyed.upsert_sorted e (h.mems _ List.mem_cons_self)
  · exact h.mems m (List.mem_cons_of_mem _ hm)

include h in
theorem retire (hne : db.active_mem.nodes ≠ []) : Filed (retire db) := by
  refine ⟨fun m hm => ?_, fun m hm => ?_, h.l0, h.l0_full, h.l0_order, h.l1_paths, h.deep⟩
  · rcases List.mem_cons.mp hm with rfl | hm
    · exact List.Pairwise.nil
    · rcases List.mem_append.mp hm with hm | hm
      · exact h.mems m (List.mem_cons_of_mem _ hm)
      · rw [List.mem_singleton.mp hm]
        exact h.mems _ List.mem_cons_self
  · rcases List.mem_append.mp hm with hm | hm
    · exact h.full m hm
    · rw [List.mem_singleton.mp hm]
      exact hne

include h in
/-- No listed file has the path of the next flush. -/
theorem flush_path_fresh {info : SSTableInfo} (hinfo : info ∈ files_to_scan db.levels) :
    info.path ≠ DB.flush_path db.sst_seq := by
  intro heq
  rcases h.mem_files.mp hinfo with hinfo | hinfo
  · obtain ⟨-, hpath, hlt⟩ := h.l0 info hinfo
    exact Nat.ne_of_lt hlt (flush_path_inj (hpath ▸ heq))
  · rw [h.l1_paths info hinfo] at heq
    cases heq

section
variable {mem : MemTable} {rest : List MemTable} (himm : db.imm_mems = mem :: rest)

include h himm in
theorem front_sorted : Keyed.Sorted Event.key mem.nodes := by
  have hmems := h.mems
  rw [himm] at hmems
  exact hmems mem (List.mem_cons_of_mem _ List.mem_cons_self)

include h in
/-- The files that were listed are not touched by publishing another. -/
theorem publish_keeps {info : SSTableInfo} (hinfo : info ∈ files_to_scan db.levels) :
    fileEvents (publish mem rest db).disk.ssts info = fileEvents db.disk.ssts info :=
  fileEvents_insert_ne (h.flush_path_fresh hinfo) _

include h himm in
theorem publish_tabled : Tabled (publish mem rest db).disk.ssts
    ⟨DB.flush_path db.sst_seq, (SSTable.write 0 db.sst_seq mem.nodes).meta_⟩ mem.nodes :=
  Tabled.written _ _ _ _ (h.front_sorted himm)

include h himm in
theorem publish : Filed (publish mem rest db) := by
  have hl0 := publish_l0 mem rest db
  refine ⟨fun m hm => ?_, fun m hm => ?_, fun info hinfo => ?_, fun info hinfo => ?_, ?_, ?_, ?_⟩
  · have hmems := h.mems
    rw [himm] at hmems
    rcases List.mem_cons.mp hm with rfl | hm
    · exact hmems _ List.mem_cons_self
    · exact hmems m (List.mem_cons_of_mem _ (List.mem_cons_of_mem _ hm))
  · exact h.full m (himm ▸ List.mem_cons_of_mem _ hm)
  · rw [hl0] at hinfo
    rcases List.mem_append.mp hinfo with hinfo | hinfo
    · obtain ⟨htab, hpath, hlt⟩ := h.l0 info hinfo
      have hlisted := h.mem_files.mpr (.inl hinfo)
      rw [h.publish_keeps hlisted]
      exact ⟨htab.insert_ne (h.flush_path_fresh hlisted) _, hpath, Nat.lt_succ_of_lt hlt⟩
    · rw [List.mem_singleton.mp hinfo]
      refine ⟨?_, rfl, Nat.lt_succ_self _⟩
      rw [(h.publish_tabled himm).events_eq]
      exact h.publish_tabled himm
  · rw [hl0] at hinfo
    rcases List.mem_append.mp hinfo with hinfo | hinfo
    · rw [h.publish_keeps (h.mem_files.mpr (.inl hinfo))]
      exact h.l0_full info hinfo
    · rw [List.mem_singleton.mp hinfo, (h.publish_tabled himm).events_eq]
      exact h.full mem (himm ▸ List.mem_cons_self)
  · rw [hl0]
    refine List.pairwise_append.mpr ⟨h.l0_order, List.pairwise_singleton _ _, ?_⟩
    intro info hinfo new hnew
    rw [List.mem_singleton.mp hnew]
    exact (h.l0 info hinfo).2.2
  · rw [publish_above mem rest db (by decide)]
    exact h.l1_paths
  · rw [publish_above mem rest db (by decide), publish_above mem rest db (by decide)]
    exact h.deep

end

include h in
theorem replaceL0 (chunks : List (List Event)) :
    Filed (replaceL0 (tablesOf chunks db.sst_seq) db) := by
  refine ⟨h.mems, h.full, ?_, ?_, ?_, fun info hinfo => ?_, ?_⟩
  · rw [replaceL0_l0]
    intro info hinfo
    cases hinfo
  · rw [replaceL0_l0]
    intro info hinfo
    cases hinfo
  · rw [replaceL0_l0]
    exact List.Pairwise.nil
  · rw [replaceL0_l1, (sort_level_perm _).mem_iff] at hinfo
    rcases List.mem_append.mp hinfo with hinfo | hinfo
    · exact h.l1_paths info hinfo
    · obtain ⟨u, hu, rfl⟩ := List.mem_map.mp hinfo
      obtain ⟨i, c, -, rfl⟩ := mem_tablesOf hu
      rfl
  · rw [replaceL0_above _ _ (by decide), replaceL0_above _ _ (by decide)]
    exact h.deep

include h in
theorem compact_cases :
    (db.levels 0 = [] ∧ db.compact_now = .ok () db) ∨
    ∃ (chunks : List (List Event)) (stats : CompactionStats), db.levels 0 ≠ [] ∧
      chunks.flatten = merge 1 ((db.levels 0).flatMap fun info =>
        versions info (fileEvents db.disk.ssts info)) ∧
      chunks ≠ [] ∧ chunks.length = outputCount db ∧
      run db.disk.ssts (db.levels 0) 1 db.sst_seq db.cfg.sstable_target_bytes =
        .ok (tablesOf chunks db.sst_seq, stats) ∧
      db.compact_now = .ok () (Kronos.replaceL0 (tablesOf chunks db.sst_seq) db) := by
  by_cases hne : db.levels 0 = []
  · exact .inl ⟨hne, by rw [DB.compact_now, DB.do_compact_l0, if_pos hne]⟩
  · obtain ⟨chunks, stats, hflat, hchunks, hlen, hrun⟩ :=
      run_ok (fun info hinfo => ⟨_, (h.l0 info hinfo).1.file⟩) h.l0_full hne
    exact .inr ⟨chunks, stats, hne, hflat, hchunks, hlen, hrun,
      do_compact_l0_eq hne hchunks hrun⟩

end Filed

theorem load_filed (cfg : DBConfig) : Filed (DB.load cfg {} []) := by
  refine ⟨fun m hm => ?_, fun m hm => ?_, fun info hinfo => ?_, fun info hinfo => ?_,
    List.Pairwise.nil, fun info hinfo => ?_, rfl, rfl⟩
  · rw [List.mem_singleton.mp hm]
    exact List.Pairwise.nil
  all_goals contradiction

end Kronos
