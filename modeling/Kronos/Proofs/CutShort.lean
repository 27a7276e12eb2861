import Kronos.Proofs.Directory
import Kronos.Proofs.ReadRefinement
import Kronos.Proofs.Restart
import Kronos.Proofs.SymbolFile

/-!
# What an interrupted compaction leaves

Each finished output adds events that its inputs hold as well, until the inputs
are gone. So an interruption is harmless before the first output is finished and
after the last input is removed, and the database opened after any other has the
events of the finished outputs, or of the inputs that are left, twice.
-/

namespace Kronos.Spec

open Kronos Compaction

/-! ## Directories that can be read -/

/-- A file is a table as it was written, or it cannot be opened. -/
def SoundFile (file : SSTableFile) : Prop :=
  match file with
  | .finished t => t.meta_ = (SSTable.write t.meta_.level t.meta_.sequence t.events).meta_ ∧
      Keyed.Sorted Event.key t.events
  | .torn t => t.meta_ = none

def Readable (ssts : SSTableDir) : Prop :=
  ∀ path file, path.dir < kMaxLevels → ssts.lookup path = some file → SoundFile file

theorem Readable.insert {ssts : SSTableDir} (h : Readable ssts) (path : SSTablePath)
    {file : SSTableFile} (hfile : SoundFile file) : Readable (ssts.insert path file) := by
  intro other file' hdir hlook
  by_cases heq : other = path
  · subst heq
    rw [AList.lookup_insert] at hlook
    exact Option.some.inj hlook ▸ hfile
  · rw [AList.lookup_insert_ne heq] at hlook
    exact h other file' hdir hlook

theorem Readable.erase {ssts : SSTableDir} (h : Readable ssts) (path : SSTablePath) :
    Readable (ssts.erase path) := by
  intro other file' hdir hlook
  by_cases heq : other = path
  · subst heq
    rw [AList.lookup_erase] at hlook
    cases hlook
  · rw [AList.lookup_erase_ne heq] at hlook
    exact h other file' hdir hlook

theorem Readable.insertTables {ssts : SSTableDir} (h : Readable ssts) {outputs : List SSTable}
    (hout : ∀ u ∈ outputs, SoundFile (.finished u)) : Readable (insertTables outputs ssts) := by
  induction outputs generalizing ssts with
  | nil => exact h
  | cons u us ih =>
      exact ih (h.insert _ (hout u List.mem_cons_self)) fun v hv =>
        hout v (List.mem_cons_of_mem _ hv)

theorem Readable.eraseFiles {ssts : SSTableDir} (h : Readable ssts) (files : List SSTableInfo) :
    Readable (eraseFiles files ssts) := by
  induction files generalizing ssts with
  | nil => exact h
  | cons f fs ih => exact ih (h.erase f.path)

/-- What a listed file is, where the levels are what was loaded. -/
theorem loaded_tabled {ssts : SSTableDir} (h : Readable ssts) {listing : List SSTablePath}
    {l : Fin kMaxLevels} {info : SSTableInfo} (hinfo : info ∈ DB.load_level ssts listing l) :
    Tabled ssts info (fileEvents ssts info) ∧ info.path.dir = l := by
  rw [DB.load_level, List.mem_filterMap] at hinfo
  obtain ⟨path, hpath, hinfo⟩ := hinfo
  have hdir : path.dir = l := of_decide_eq_true (List.mem_filter.mp hpath).2
  obtain ⟨m, hm, rfl⟩ := Option.map_eq_some_iff.mp hinfo
  obtain ⟨file, hfile, hmeta⟩ := Option.bind_eq_some_iff.mp hm
  have hsound := h path file (hdir ▸ l.isLt) hfile
  refine ⟨?_, hdir⟩
  cases file with
  | torn t =>
      rw [SSTableFile.read_meta, show t.meta_ = none from hsound] at hmeta
      cases hmeta
  | finished t =>
      cases hmeta
      have htab : Tabled ssts ⟨path, t.meta_⟩ t.events := ⟨hfile, hsound.1, hsound.2⟩
      exact htab.own

/-- The rows of a database that has what was loaded, and nothing in memory. -/
theorem loaded_query {db : DB} (hopen : db.closed = false)
    (hflushed : ∀ m ∈ db.active_mem :: db.imm_mems, m.nodes = [])
    (hread : Readable db.disk.ssts) {listing : List SSTablePath}
    (hlisting : listing.Perm db.disk.ssts.keys)
    (hlevels : ∀ l : Fin kMaxLevels, (db.levels l).Perm (DB.load_level db.disk.ssts listing l))
    {req : QueryRequest} {sym_id : UInt32} (hsym : db.symbols.lookup req.symbol = some sym_id) :
    ∃ (r : QueryResult) (rows : List Event), db.query req = .ok r ∧
      r.rows = rows.take req.row_limit ∧
      rows.Perm (((tableEvents db.disk.ssts).filter
        (inRange (req.start_key sym_id) (req.end_key sym_id))).filter req.wants) := by
  have htabled : ∀ info ∈ files_to_scan db.levels,
      Tabled db.disk.ssts info (fileEvents db.disk.ssts info) := fun info hinfo => by
    obtain ⟨l, -, hinfo⟩ := List.mem_flatMap.mp hinfo
    exact (loaded_tabled hread ((hlevels l).subset hinfo)).1
  have hordered : db.Ordered := by
    refine ⟨fun m hm => ?_, fun info hinfo => (htabled info hinfo).ordered⟩
    rw [hflushed m hm]
    exact List.Pairwise.nil
  obtain ⟨r, hquery, -, hrows⟩ := DB.query_rows hordered hopen hsym
  refine ⟨r, _, hquery, hrows, ?_⟩
  have hmems : (db.active_mem :: db.imm_mems).flatMap (fun m => m.nodes.filter
      (inRange (req.start_key sym_id) (req.end_key sym_id))) = [] := by
    refine List.flatMap_eq_nil_iff.mpr fun m hm => ?_
    rw [hflushed m hm, List.filter_nil]
  rw [queryRows, hmems, List.nil_append,
    List.flatMap_congr fun info hinfo => (htabled info hinfo).delivers _ _, ← List.filter_flatMap]
  exact ((loaded_events hlisting hlevels).filter _).filter _

/-! ## The files before -/

section
variable {db : DB} (h : Stored db)

include h in
/-- Every file that can be opened is listed. -/
theorem Stored.mem_files {path : SSTablePath} (hdir : path.dir < kMaxLevels)
    {file : SSTableFile} (hfile : db.disk.ssts.lookup path = some file) {m : SSTableMeta}
    (hm : file.read_meta = some m) :
    ⟨path, m⟩ ∈ files_to_scan db.levels := by
  refine List.mem_flatMap.mpr ⟨⟨path.dir, hdir⟩, List.mem_finRange _, ?_⟩
  refine (h.listed ⟨path.dir, hdir⟩).symm.subset (List.mem_filterMap.mpr ⟨path, ?_, ?_⟩)
  · refine List.mem_filter.mpr ⟨AList.mem_keys.mp (AList.lookup_isSome.mp ?_), decide_eq_true rfl⟩
    rw [hfile]
    rfl
  · rw [hfile, Option.bind_some, hm]
    rfl

include h in
theorem Stored.readable : Readable db.disk.ssts := by
  intro path file hdir hfile
  cases file with
  | finished t =>
      obtain ⟨u, hu, hsound⟩ := h.finished _ (h.mem_files hdir hfile rfl)
      rw [hfile] at hu
      cases hu
      exact hsound
  | torn t =>
      by_contra hne
      obtain ⟨m, hm⟩ := Option.ne_none_iff_exists'.mp hne
      obtain ⟨u, hu, -⟩ := h.finished _ (h.mem_files hdir hfile hm)
      rw [hfile] at hu
      cases hu

include h in
/-- Nothing is at a path that is not listed. -/
theorem Stored.path_empty {path : SSTablePath} (hdir : path.dir < kMaxLevels)
    (hfree : ∀ info ∈ files_to_scan db.levels, info.path ≠ path) :
    pathEvents db.disk.ssts path = [] := by
  cases hlook : db.disk.ssts.lookup path with
  | none => rw [pathEvents, hlook]
  | some file =>
      cases file with
      | finished t => exact absurd rfl (hfree _ (h.mem_files hdir hlook rfl))
      | torn t => rw [pathEvents, hlook]

include h in
theorem Stored.l0 : (db.levels 0).Pairwise (fun f g => f.path ≠ g.path) ∧
    ∀ f ∈ db.levels 0, f.path.dir = 0 := by
  constructor
  · refine (h.listed 0).symm.pairwise ?_ fun hne => Ne.symm hne
    rw [DB.load_level, List.pairwise_filterMap]
    refine (List.Pairwise.filter _ db.disk.ssts.keys_nodup).imp fun {a b} hne f hf g hg => ?_
    obtain ⟨m, -, rfl⟩ := Option.map_eq_some_iff.mp hf
    obtain ⟨m', -, rfl⟩ := Option.map_eq_some_iff.mp hg
    exact hne
  · exact fun f hf => (loaded_tabled h.readable ((h.listed 0).subset hf)).2

end

/-! ## The files at the cut -/

theorem tableEvents_insertTables (ssts : SSTableDir) {outputs : List SSTable}
    (hpaths : outputs.Pairwise fun u v => output_path 1 u ≠ output_path 1 v)
    (hempty : ∀ u ∈ outputs, pathEvents ssts (output_path 1 u) = []) :
    (tableEvents (insertTables outputs ssts)).Perm
      (outputs.flatMap SSTable.events ++ tableEvents ssts) := by
  induction outputs generalizing ssts with
  | nil => exact .refl _
  | cons u us ih =>
      obtain ⟨hne, hus⟩ := List.pairwise_cons.mp hpaths
      have hafter := ih (ssts.insert (output_path 1 u) (.finished u)) hus fun v hv => by
        rw [pathEvents_insert_ne (Ne.symm (hne v hv))]
        exact hempty v (List.mem_cons_of_mem _ hv)
      have hnew : (tableEvents (ssts.insert (output_path 1 u) (.finished u))).Perm
          (u.events ++ tableEvents ssts) := by
        have hdir : (output_path 1 u).dir < kMaxLevels := show 1 < kMaxLevels by decide
        have hinsert := tableEvents_insert ssts hdir (.finished u)
        have hsplit := tableEvents_split ssts hdir
        rw [pathEvents_finished (AList.lookup_insert _)] at hinsert
        rw [hempty u List.mem_cons_self, List.nil_append] at hsplit
        exact hinsert.trans (hsplit.symm.append_left _)
      rw [List.flatMap_cons]
      refine hafter.trans ((hnew.append_left _).trans ?_)
      rw [← List.append_assoc]
      exact List.perm_append_comm.append_right _

theorem tableEvents_eraseFiles (ssts : SSTableDir) {files : List SSTableInfo}
    (hpaths : files.Pairwise fun f g => f.path ≠ g.path)
    (hdirs : ∀ f ∈ files, f.path.dir < kMaxLevels) :
    (tableEvents ssts).Perm
      (files.flatMap (fileEvents ssts) ++ tableEvents (eraseFiles files ssts)) := by
  induction files generalizing ssts with
  | nil => exact .refl _
  | cons f fs ih =>
      obtain ⟨hne, hfs⟩ := List.pairwise_cons.mp hpaths
      have hafter := ih (ssts.erase f.path) hfs fun g hg =>
        hdirs g (List.mem_cons_of_mem _ hg)
      have hsame : fs.flatMap (fileEvents (ssts.erase f.path)) = fs.flatMap (fileEvents ssts) :=
        List.flatMap_congr fun g hg => pathEvents_erase_ne (Ne.symm (hne g hg))
      rw [hsame] at hafter
      rw [List.flatMap_cons, List.append_assoc]
      refine (tableEvents_split _ (hdirs f List.mem_cons_self)).trans (List.Perm.append_left _ ?_)
      rw [← tableEvents_erase]
      exact hafter

/-- Where nothing finished is at a path, it makes no difference what is put there
instead, unless it is finished. -/
theorem tableEvents_unfinished {ssts : SSTableDir} {path : SSTablePath}
    (hdir : path.dir < kMaxLevels) (hempty : pathEvents ssts path = []) :
    (tableEvents (ssts.erase path)).Perm (tableEvents ssts) ∧
      ∀ t, (tableEvents (ssts.insert path (.torn t))).Perm (tableEvents ssts) := by
  have hsplit := tableEvents_split ssts hdir
  rw [hempty, List.nil_append] at hsplit
  refine ⟨?_, fun t => ?_⟩
  · rw [tableEvents_erase]
    exact hsplit.symm
  · have hinsert := tableEvents_insert ssts hdir (.torn t)
    have hnone : pathEvents (ssts.insert path (.torn t)) path = [] := by
      rw [pathEvents, AList.lookup_insert]
    rw [hnone, List.nil_append] at hinsert
    exact hinsert.trans hsplit.symm

/-- The events that the interruption leaves twice. -/
def doubled (db : DB) (outputs : List SSTable) : CutPoint → List Event
  | .output j _ => (outputs.take j).flatMap SSTable.events
  | .removing i =>
      if outputs = [] then [] else ((db.levels 0).drop i).flatMap (fileEvents db.disk.ssts)

section
variable {db : DB} (h : Stored db) {outputs : List SSTable}
  (hpaths : outputs.Pairwise fun u v => output_path 1 u ≠ output_path 1 v)
  (hfree : ∀ u ∈ outputs, ∀ info ∈ files_to_scan db.levels, info.path ≠ output_path 1 u)

include h hfree in
theorem outputs_empty {u : SSTable} (hu : u ∈ outputs) :
    pathEvents db.disk.ssts (output_path 1 u) = [] :=
  h.path_empty (show 1 < kMaxLevels by decide) (hfree u hu)

include h hpaths hfree in
theorem cut_events (hevents : (outputs.flatMap SSTable.events).Perm
    ((db.levels 0).flatMap (fileEvents db.disk.ssts))) (cut : CutPoint) :
    (tableEvents (cutTables db outputs cut)).Perm
      (doubled db outputs cut ++ tableEvents db.disk.ssts) := by
  cases cut with
  | output j rest =>
      have htake : ∀ u ∈ outputs.take j, u ∈ outputs := fun u hu => List.mem_of_mem_take hu
      have hwritten := tableEvents_insertTables db.disk.ssts
        (hpaths.sublist (List.take_sublist j outputs)) fun u hu =>
          outputs_empty h hfree (htake u hu)
      simp only [cutTables, write_outputs_eq, doubled]
      cases hj : outputs[j]? with
      | none => exact hwritten
      | some u =>
          obtain ⟨hlt, hget⟩ := List.getElem?_eq_some_iff.mp hj
          have hnext : pathEvents (insertTables (outputs.take j) db.disk.ssts)
              (output_path 1 u) = [] := by
            rw [pathEvents, lookup_insertTables_ne, ← pathEvents]
            · exact outputs_empty h hfree (List.mem_of_getElem? hj)
            · intro v hv
              obtain ⟨i, hi, hgeti⟩ := List.mem_take_iff_getElem.mp hv
              have hne := List.pairwise_iff_getElem.mp hpaths i j (by omega) hlt (by omega)
              rw [hget, hgeti] at hne
              exact hne.symm
          obtain ⟨herase, htorn⟩ := tableEvents_unfinished (show 1 < kMaxLevels by decide) hnext
          cases rest with
          | untouched => exact hwritten
          | removed => exact herase.trans hwritten
          | torn t => exact (htorn t).trans hwritten
  | removing i =>
      rw [cutTables, doubled]
      split
      · exact .refl _
      have hwritten := tableEvents_insertTables db.disk.ssts hpaths fun u hu =>
        outputs_empty h hfree hu
      obtain ⟨hnodup, hdirs⟩ := h.l0
      have herased := tableEvents_eraseFiles (insertTables outputs db.disk.ssts)
        (hnodup.sublist (List.take_sublist i _)) fun f hf => by
          rw [hdirs f (List.mem_of_mem_take hf)]
          decide
      have hsame : ((db.levels 0).take i).flatMap
          (fileEvents (insertTables outputs db.disk.ssts)) =
            ((db.levels 0).take i).flatMap (fileEvents db.disk.ssts) :=
        List.flatMap_congr fun f hf => by
          rw [fileEvents, lookup_insertTables_ne, fileEvents]
          intro u hu heq
          have hdir := hdirs f (List.mem_of_mem_take hf)
          rw [heq] at hdir
          cases hdir
      rw [hsame] at herased
      have hsplit : (db.levels 0).flatMap (fileEvents db.disk.ssts) =
          ((db.levels 0).take i).flatMap (fileEvents db.disk.ssts) ++
            ((db.levels 0).drop i).flatMap (fileEvents db.disk.ssts) := by
        rw [← List.flatMap_append, List.take_append_drop]
      rw [write_outputs_eq, remove_inputs_eq]
      refine (List.perm_append_left_iff
        (((db.levels 0).take i).flatMap (fileEvents db.disk.ssts))).mp ?_
      refine herased.symm.trans (hwritten.trans ?_)
      rw [← List.append_assoc, ← hsplit]
      exact hevents.append_right _

include h in
theorem cut_readable (hout : ∀ u ∈ outputs, SoundFile (.finished u)) {cut : CutPoint}
    (hcut : cut.Unreadable) : Readable (cutTables db outputs cut) := by
  have htake : ∀ j, ∀ u ∈ outputs.take j, SoundFile (.finished u) := fun j u hu =>
    hout u (List.mem_of_mem_take hu)
  cases cut with
  | output j rest =>
      have hwritten := h.readable.insertTables (htake j)
      simp only [cutTables, write_outputs_eq]
      cases outputs[j]? with
      | none => exact hwritten
      | some u =>
          cases rest with
          | untouched => exact hwritten
          | removed => exact hwritten.erase _
          | torn t =>
              have htorn : SoundFile (.torn t) := hcut
              exact hwritten.insert _ htorn
  | removing i =>
      rw [cutTables]
      split
      · exact h.readable
      · rw [write_outputs_eq, remove_inputs_eq]
        exact (h.readable.insertTables hout).eraseFiles _

end

/-! ## The database that is opened afterwards -/

theorem opened_unlogged {cfg : DBConfig} (h : cfg.wal_enabled = false) (disk : Disk)
    (listing : List SSTablePath) (heights : Nat → Fin kMaxHeight) :
    opened cfg disk listing heights = DB.load cfg disk listing := by
  rw [opened, DB.open_, h]
  rfl

/-- Rows that leave room under the limit are all there are. -/
theorem rows_all {req : QueryRequest} {rows : List Event}
    (h : (rows.take req.row_limit).length < req.limit.toNat) :
    rows.take req.row_limit = rows ∧ req.row_limit = req.limit.toNat := by
  have hpos : 0 < req.limit := UInt32.lt_iff_toNat_lt.mpr (Nat.zero_lt_of_lt h)
  have hlimit : req.row_limit = req.limit.toNat := by rw [QueryRequest.row_limit, if_pos hpos]
  rw [hlimit, List.length_take] at h
  exact ⟨List.take_of_length_le (by omega), hlimit⟩

section
variable {db : DB} (h : Stored db) {disk : Disk} (hread : Readable disk.ssts)
  (hsymbols : ∀ name, ((disk.symbol_table.map SymbolTable.load).getD {}).lookup name =
    db.symbols.lookup name)

include h hread hsymbols in
/-- The rows before and after, of a symbol with an id. -/
theorem rows_around {listing : List SSTablePath} (hlisting : listing.Perm disk.ssts.keys)
    (heights : Nat → Fin kMaxHeight) {req : QueryRequest} {sym_id : UInt32}
    (hsym : db.symbols.lookup req.symbol = some sym_id) :
    ∃ (r r' : QueryResult) (rows rows' : List Event), db.query req = .ok r ∧
      (opened db.cfg disk listing heights).query req = .ok r' ∧
      r.rows = rows.take req.row_limit ∧ r'.rows = rows'.take req.row_limit ∧
      rows.Perm (((tableEvents db.disk.ssts).filter
        (inRange (req.start_key sym_id) (req.end_key sym_id))).filter req.wants) ∧
      rows'.Perm (((tableEvents disk.ssts).filter
        (inRange (req.start_key sym_id) (req.end_key sym_id))).filter req.wants) := by
  obtain ⟨r, rows, hquery, hrows, hperm⟩ :=
    loaded_query h.opened h.flushed h.readable (.refl _) h.listed hsym
  have hempty : ∀ m ∈ (DB.load db.cfg disk listing).active_mem ::
      (DB.load db.cfg disk listing).imm_mems, m.nodes = [] := fun m hm => by
    rw [List.mem_singleton.mp hm]
    rfl
  obtain ⟨r', rows', hquery', hrows', hperm'⟩ :=
    loaded_query (rfl : (DB.load db.cfg disk listing).closed = false) hempty hread hlisting
      (fun l => sort_level_perm _) ((hsymbols req.symbol).trans hsym)
  rw [opened_unlogged h.unlogged]
  exact ⟨r, r', rows, rows', hquery, hquery', hrows, hrows', hperm, hperm'⟩

include h hread hsymbols in
theorem same_rows (hevents : (tableEvents disk.ssts).Perm (tableEvents db.disk.ssts)) :
    SameRows db disk := by
  intro listing heights req hlisting
  cases hsym : db.symbols.lookup req.symbol with
  | none =>
      refine ⟨{}, {}, DB.query_unknown h.opened hsym, ?_, fun _ => .refl _⟩
      rw [opened_unlogged h.unlogged]
      exact DB.query_unknown rfl ((hsymbols req.symbol).trans hsym)
  | some sym_id =>
      obtain ⟨r, r', rows, rows', hquery, hquery', hrows, hrows', hperm, hperm'⟩ :=
        rows_around h hread hsymbols hlisting heights hsym
      refine ⟨r, r', hquery, hquery', fun hroom => ?_⟩
      have hsame : rows'.Perm rows := hperm'.trans (((hevents.filter _).filter _).trans hperm.symm)
      rw [hrows] at hroom
      obtain ⟨hall, hlimit⟩ := rows_all hroom
      rw [hall] at hroom hrows
      rw [hrows, hrows', List.take_of_length_le (by rw [hsame.length_eq]; omega)]
      exact hsame

include h hread hsymbols in
/-- An event that is there twice shows in the answer to a query. -/
theorem doubled_shows (hsame : SameRows db disk) {twice : List Event}
    (hevents : (tableEvents disk.ssts).Perm (twice ++ tableEvents db.disk.ssts)) {e : Event}
    (he : e ∈ twice) : ¬ Shown db e := by
  rintro ⟨req, r₀, hquery₀, hmem, hroom⟩
  cases hsym : db.symbols.lookup req.symbol with
  | none =>
      rw [DB.query_unknown h.opened hsym] at hquery₀
      cases hquery₀
      cases hmem
  | some sym_id =>
      obtain ⟨r, r', rows, rows', hquery, hquery', hrows, hrows', hperm, hperm'⟩ :=
        rows_around h hread hsymbols (.refl _) (fun _ => 0) hsym
      rw [hquery] at hquery₀
      cases hquery₀
      obtain ⟨s, s', hs, hs', hsame⟩ := hsame disk.ssts.keys (fun _ => 0) req (.refl _)
      rw [hquery] at hs
      rw [hquery'] at hs'
      cases hs
      cases hs'
      have hlen := (hsame hroom).length_eq
      rw [hrows] at hroom hmem
      obtain ⟨hall, hlimit⟩ := rows_all hroom
      rw [hall] at hroom hmem hrows
      -- the event is wanted, so its second copy is too
      have hmore : rows.length < rows'.length := by
        rw [(hperm'.trans ((hevents.filter _).filter _)).length_eq, hperm.length_eq,
          List.filter_append, List.filter_append, List.length_append]
        refine Nat.lt_add_of_pos_left (List.length_pos_of_mem (a := e) ?_)
        have hwanted := hperm.subset hmem
        simp only [List.mem_filter] at hwanted ⊢
        exact ⟨⟨he, hwanted.1.2⟩, hwanted.2⟩
      rw [hrows, hrows', List.length_take] at hlen
      omega

end

theorem flatMap_events_nil {chunks : List (List Event)} (hfull : ∀ c ∈ chunks, c ≠ []) {seq j : Nat}
    (h : ((tablesOf chunks seq).take j).flatMap SSTable.events = []) : j = 0 ∨ chunks = [] := by
  cases j with
  | zero => exact .inl rfl
  | succ j =>
      cases chunks with
      | nil => exact .inr rfl
      | cons c cs =>
          refine absurd ?_ (hfull c List.mem_cons_self)
          exact List.flatMap_eq_nil_iff.mp h (SSTable.write 1 seq c) List.mem_cons_self

/-- Every crash of a compaction is one of the cuts. -/
theorem crash_is_cut {db : DB} {outputs : List SSTable} {stats : CompactionStats}
    (hrun : run db.disk.ssts (db.levels 0) 1 db.sst_seq db.cfg.sstable_target_bytes =
      .ok (outputs, stats)) {disk : Disk} (h : CrashLeaves db .compact disk) :
    ∃ cut, disk = { db.disk with ssts := cutTables db outputs cut } := by
  have hbefore : cutTables db outputs (.output 0 .untouched) = db.disk.ssts := by
    rw [cutTables]
    cases outputs[0]? <;> rfl
  have hsame : ∀ {outputs' : List SSTable} {stats' : CompactionStats},
      run db.disk.ssts (db.levels 0) 1 db.sst_seq db.cfg.sstable_target_bytes =
        .ok (outputs', stats') → outputs' = outputs := fun hrun' => by
    rw [hrun] at hrun'
    cases hrun'
    rfl
  cases h with
  | before => exact ⟨.output 0 .untouched, by rw [hbefore]⟩
  | after =>
      by_cases hne : db.levels 0 = []
      · refine ⟨.output 0 .untouched, ?_⟩
        rw [hbefore, step, DB.compact_now, DB.do_compact_l0, if_pos hne]
        rfl
      · refine ⟨.removing (db.levels 0).length, ?_⟩
        rw [cutTables, List.take_length, step, DB.compact_now, DB.do_compact_l0, if_neg hne]
        simp only [hrun]
        split
        · next hnil =>
            rw [hnil]
            rfl
        · rw [write_outputs_eq, remove_inputs_eq, write_outputs_eq, remove_inputs_eq]
          rfl
  | symbol hs => exact absurd hs (by simp [written])
  | record hs => exact absurd hs (by simp [written])
  | between hrun' j =>
      obtain rfl := hsame hrun'
      refine ⟨.output j .untouched, ?_⟩
      rw [cutTables, write_outputs_eq]
      split <;> rfl
  | @output outputs' stats' hrun' j u hj t =>
      obtain rfl := hsame hrun'
      refine ⟨.output j (.torn t), ?_⟩
      rw [cutTables, hj, write_outputs_eq]
  | removing hrun' hne i =>
      obtain rfl := hsame hrun'
      refine ⟨.removing i, ?_⟩
      rw [cutTables, if_neg hne, write_outputs_eq, remove_inputs_eq]

/-! ## One file -/

theorem flushedDisk_symbol : ((flushedDisk.symbol_table.map SymbolTable.load).getD {}).lookup [65] =
    some 1 := by
  have hfile : (flushedDisk.symbol_table.map SymbolTable.load).getD {} =
      SymbolTable.load (SymbolTable.flush_walk [⟨[65], 1⟩] ++ []) := rfl
  have hshort : ∀ p ∈ [(⟨[65], 1⟩ : Sigma fun _ : Bytes => UInt32)], p.1.length ≤ 65535 := by
    simp
  rw [hfile, SymbolTable.load_eq, (entriesIn_walk hshort symbolFormat_nil).1]
  decide

/-- A query on a database with the symbols of that directory. -/
theorem known_query (disk : Disk) (hdisk : disk.symbol_table = flushedDisk.symbol_table)
    (listing : List SSTablePath) :
    (DB.load unlogged disk listing).query { symbol := [65] } =
      .ok { ((files_to_scan (DB.load unlogged disk listing).levels).foldl
        (scan_file { symbol := [65] } 1 disk.ssts) {}).result with ok := true } := by
  have hsym : (DB.load unlogged disk listing).symbols.lookup [65] = some 1 := by
    rw [DB.load, hdisk]
    exact flushedDisk_symbol
  rw [DB.query, if_neg (by exact Bool.false_ne_true), hsym]
  rfl

theorem reopened_stored : Stored reopened := by
  have hone : ∀ info ∈ files_to_scan reopened.levels,
      info = ⟨DB.flush_path 1, (SSTable.write 0 1 [{ symbol_id := 1, sequence_id := 1 }]).meta_⟩ :=
    fun info hinfo => List.mem_singleton.mp hinfo
  refine ⟨rfl, rfl, fun m hm => ?_, fun name => rfl, fun l => sort_level_perm _,
    fun info hinfo => ?_, by decide, by decide⟩
  · rw [List.mem_singleton.mp hm]
    rfl
  · rw [hone info hinfo]
    exact ⟨SSTable.write 0 1 [{ symbol_id := 1, sequence_id := 1 }], rfl, rfl,
      List.pairwise_singleton _ _⟩

def oneOutput : List SSTable := [SSTable.write 1 1 [{ symbol_id := 1, sequence_id := 1 }]]

/-- A crash between the output and the removal of its input. -/
def besideDisk : Disk :=
  { reopened.disk with ssts := cutTables reopened oneOutput (.output 1 .untouched) }

end Kronos.Spec
