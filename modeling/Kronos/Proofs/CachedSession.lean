import Kronos.Proofs.FileNumbers
import Kronos.Proofs.FreshBlocks
import Kronos.Proofs.Replaced
import Kronos.Proofs.StoredQuery
import Kronos.Spec.CachedSession

/-!
# From bytes and cache to tables

A session on an empty directory numbers the files of its flushes upwards, so the
path of one never comes back, and a compaction that writes over no file gives its
outputs new paths as well. So no block in the cache is ever of an overwritten
file, every listed file is the table that was written, and a query over the bytes
is one over the tables.
-/

namespace Kronos

open Spec Compaction

/-! ## Tables of a bounded size -/

theorem bytes_le {blocks : List (List Event)} (h : ∀ b ∈ blocks, b ≠ []) :
    (blocks.flatMap blockBytes).length ≤ 113 * blocks.flatten.length ∧
      blocks.length ≤ blocks.flatten.length := by
  induction blocks with
  | nil => exact ⟨Nat.le_refl _, Nat.le_refl _⟩
  | cons b bs ih =>
      have hne := h b List.mem_cons_self
      have hb := blockBytes_length hne
      have hpos := List.length_pos_iff.mpr hne
      obtain ⟨hbytes, hcount⟩ := ih fun c hc => h c (List.mem_cons_of_mem _ hc)
      rw [BlockBuilder.encodedSize, Event.kEncodedSize, Key.kEncodedSize] at hb
      rw [List.flatMap_cons, List.flatten_cons, List.length_append, List.length_append,
        List.length_cons]
      omega

/-- Up to 2^25 events fit the format, however they are cut into blocks. -/
theorem whole_of_length {t : SSTable} (h : t.events.length ≤ 2 ^ 25) : Whole t := by
  intro target
  have hcut := blocksOf_cut target t.events
  obtain ⟨hbytes, hcount⟩ := bytes_le hcut.nonempty
  rw [hcut.flatten] at hbytes hcount
  refine ⟨fun b hb => ?_, by omega, ?_⟩
  · have hlen := (List.sublist_flatten_of_mem hb).length_le
    rw [hcut.flatten] at hlen
    rw [blockBytes_length (hcut.nonempty b hb), BlockBuilder.encodedSize, Event.kEncodedSize,
      Key.kEncodedSize]
    omega
  · obtain ⟨filled, -, hlength⟩ := write_length t.meta_.level t.meta_.sequence target
      (BloomFilter.new_addressed .default) t.events
    have hbits : BloomFilter.byte_count filled.m < 2 ^ 32 := UInt32.toNat_lt _
    have hfooter : kSSTableFooterSize = 56 := rfl
    have hentry : IndexEntry.kEncodedSize = 32 := rfl
    rw [tableBytes, hlength, hentry, hfooter]
    omega

/-- Every file is a finished table, and one of these. -/
def AllTables (P : SSTable → Prop) (ssts : SSTableDir) : Prop :=
  ∀ path file, ssts.lookup path = some file → ∃ t, file = .finished t ∧ P t

section
variable {P : SSTable → Prop} {ssts : SSTableDir}

theorem AllTables.insert (h : AllTables P ssts) (path : SSTablePath) {t : SSTable} (ht : P t) :
    AllTables P (ssts.insert path (.finished t)) := by
  intro other file hlook
  by_cases heq : other = path
  · rw [heq, AList.lookup_insert] at hlook
    exact ⟨t, (Option.some.inj hlook).symm, ht⟩
  · rw [AList.lookup_insert_ne heq] at hlook
    exact h other file hlook

theorem AllTables.written (h : AllTables P ssts) {tables : List (SSTablePath × SSTable)}
    (ht : ∀ w ∈ tables, P w.2) :
    AllTables P (tables.foldl (fun ssts w => ssts.insert w.1 (.finished w.2)) ssts) := by
  induction tables generalizing ssts with
  | nil => exact h
  | cons w tables ih =>
      exact ih (h.insert w.1 (ht w List.mem_cons_self)) fun v hv => ht v (List.mem_cons_of_mem _ hv)

theorem AllTables.removed (h : AllTables P ssts) (paths : List SSTablePath) :
    AllTables P (paths.foldl (fun ssts path => ssts.erase path) ssts) := by
  induction paths generalizing ssts with
  | nil => exact h
  | cons path paths ih =>
      refine ih fun other file hlook => ?_
      by_cases heq : other = path
      · rw [heq, AList.lookup_erase] at hlook
        cases hlook
      · rw [AList.lookup_erase_ne heq] at hlook
        exact h other file hlook

theorem AllTables.step {db : DB} (h : AllTables P db.disk.ssts) {s : Step}
    (ht : ∀ w ∈ tablesWritten db s, P w.2) : AllTables P (step db s).disk.ssts := by
  rw [step_ssts]
  exact (h.written ht).removed _

end

/-- Every file is a finished table, and not too large. -/
def Bounded (ssts : SSTableDir) : Prop :=
  ∀ path file, ssts.lookup path = some file →
    ∃ t, file = .finished t ∧ t.events.length ≤ 2 ^ 25

/-- What can be opened is what a writer left. -/
theorem opens_table {ssts : SSTableDir} {files : StoredFiles} (hmirrors : Mirrors ssts files)
    (hbounded : Bounded ssts) {r : SSTableReader} (h : Opens files r) : OneSize r.index := by
  obtain ⟨file, hfile, hopen⟩ := h
  have hpath := hmirrors r.path
  cases hlook : ssts.lookup r.path with
  | none =>
      rw [hlook, hfile] at hpath
      cases hpath
  | some found =>
      obtain ⟨t, rfl, ht⟩ := hbounded r.path found hlook
      rw [hlook] at hpath
      obtain ⟨target, hbytes⟩ := hpath
      rw [hfile] at hbytes
      have hfits := whole_of_length ht target
      obtain ⟨r', hopen', -, -, hr⟩ := open_written (BloomFilter.new_addressed .default)
        hfits.sizes hfits.file r.path
      rw [Option.some.inj hbytes, tableBytes, hopen'] at hopen
      rw [← Except.ok.inj hopen]
      exact hr.one_size

/-- Where the listed files are finished tables and the cache has what the files hold, a
query answers by the tables, and only the cache changes. -/
theorem answers_tables {s : CachedSession} (hmirrors : Mirrors s.db.disk.ssts s.files)
    (hones : OneSizes s.files) (hfresh : FreshCache s.files s.block_cache)
    (hlisted : ∀ info ∈ files_to_scan s.db.levels, ∃ events,
      Tabled s.db.disk.ssts info events ∧ Whole ⟨info.meta_, events⟩) (req : QueryRequest) :
    AnswersTables s (.query req) ∧ ∃ c, s.act (.query req) = { s with block_cache := c } ∧
      Reads s.files s.block_cache c := by
  obtain ⟨answer, c, hcached, hplain, hreads⟩ := hfresh.query hones req s.db
  constructor
  · have htables := query_stored_refines hmirrors hlisted req
    rw [hplain] at htables
    rw [AnswersTables, hcached]
    exact htables
  · refine ⟨c, ?_, hreads⟩
    rw [CachedSession.act, hcached]
    rfl

/-! ## What a step writes -/

/-- A step that lists, writes and removes no file. -/
structure Idle (db : DB) (s : Step) : Prop where
  filed : Filed (step db s)
  levels : (step db s).levels = db.levels
  sst_seq : (step db s).sst_seq = db.sst_seq
  written : tablesWritten db s = []
  removed : pathsRemoved db s = []

theorem Filed.idle_write {db : DB} (h : Filed db) {s : Step}
    (heffect : ∃ db', Quiet db db' ∧ (step db s = db' ∨
      ∃ e height, step db s = db'.mem_insert e height))
    (hnone : tablesWritten db s = [] ∧ pathsRemoved db s = []) : Idle db s := by
  obtain ⟨db', hq, heq | ⟨e, height, heq⟩⟩ := heffect
  · exact ⟨heq ▸ h.quiet hq, heq ▸ hq.levels, heq ▸ hq.sst_seq, hnone.1, hnone.2⟩
  · obtain ⟨hlevels, hseq⟩ := mem_insert_levels db' e height
    exact ⟨heq ▸ (h.quiet hq).mem_insert e height, heq ▸ hlevels.trans hq.levels,
      heq ▸ hseq.trans hq.sst_seq, hnone.1, hnone.2⟩

/-- A step leaves the files alone, publishes a memtable, or replaces level 0. -/
theorem Filed.step_cases {db : DB} (h : Filed db) (s : Step) :
    Idle db s ∨
    (∃ mem rest, db.imm_mems = mem :: rest ∧ s = .flush_front ∧
      step db s = Kronos.publish mem rest db ∧
      tablesWritten db s = [(DB.flush_path db.sst_seq, SSTable.write 0 db.sst_seq mem.nodes)] ∧
      pathsRemoved db s = []) ∨
    ∃ chunks, chunks.flatten = merge 1 ((db.levels 0).flatMap fun info =>
        versions info (fileEvents db.disk.ssts info)) ∧
      s = .compact ∧ step db s = Kronos.replaceL0 (tablesOf chunks db.sst_seq) db ∧
      tablesWritten db s = (tablesOf chunks db.sst_seq).map (fun t => (output_path 1 t, t)) ∧
      pathsRemoved db s = (db.levels 0).map (·.path) := by
  cases s with
  | append symbol args height io =>
      exact .inl (h.idle_write (write_effect db (.inl ⟨_, _, _, _, rfl⟩)) ⟨rfl, rfl⟩)
  | remove symbol timestamp_ns sequence_id height io =>
      exact .inl (h.idle_write (write_effect db (.inr ⟨_, _, _, _, _, rfl⟩)) ⟨rfl, rfl⟩)
  | rotate =>
      obtain ⟨hlevels, hseq⟩ := rotate_levels db
      exact .inl ⟨h.rotate, hlevels, hseq, rfl, rfl⟩
  | stop => exact .inl ⟨h.quiet ⟨rfl, rfl, rfl, rfl, rfl, rfl⟩, rfl, rfl, rfl, rfl⟩
  | save_symbols => exact .inl ⟨h.quiet ⟨rfl, rfl, rfl, rfl, rfl, rfl⟩, rfl, rfl, rfl, rfl⟩
  | flush_front =>
      rcases flush_front_cases h.full with ⟨hnil, heq⟩ | ⟨mem, rest, himm, hne, heq⟩
      · have heq : step db .flush_front = db := heq
        exact .inl ⟨heq.symm ▸ h, congrArg DB.levels heq, congrArg DB.sst_seq heq,
          by rw [tablesWritten, hnil], rfl⟩
      · refine .inr (.inl ⟨mem, rest, himm, rfl, heq, ?_, rfl⟩)
        rw [tablesWritten, himm]
        exact if_neg (by rw [MemTable.empty, List.isEmpty_iff]; exact hne)
  | compact =>
      rcases h.compact_cases with ⟨hnil, heq⟩ | ⟨chunks, stats, hne, hflat, hchunks, -, hrun, heq⟩
      · have heq : step db .compact = db := congrArg after heq
        have hnone : tablesWritten db .compact = [] := by rw [tablesWritten, if_pos hnil]
        exact .inl ⟨heq.symm ▸ h, congrArg DB.levels heq, congrArg DB.sst_seq heq, hnone,
          by rw [pathsRemoved, if_pos hnone]⟩
      · have hsome : tablesWritten db .compact =
            (tablesOf chunks db.sst_seq).map (fun t => (output_path 1 t, t)) := by
          rw [tablesWritten, if_neg hne, hrun]
        refine .inr (.inr ⟨chunks, hflat, rfl, congrArg after heq, hsome, ?_⟩)
        rw [pathsRemoved, if_neg]
        rw [hsome, List.map_eq_nil_iff, tablesOf, List.map_eq_nil_iff, List.zipIdx_eq_nil_iff]
        exact hchunks

/-! ## What is in the cache -/

/-- A file that is there, or one that a flush wrote. -/
def Met (s : CachedSession) (path : SSTablePath) : Prop :=
  s.files path ≠ none ∨ ∃ n < s.db.sst_seq, path = DB.flush_path n

/-- Reading a block adds at most one of the file that is read. -/
theorem reads_paths {files : StoredFiles} {c c' : BlockCache} (hfresh : FreshCache files c)
    (hones : OneSizes files) (h : Reads files c c') :
    ∀ e ∈ c'.lru, e ∈ c.lru ∨ files e.key.path ≠ none := by
  induction h with
  | start => exact fun e he => .inl he
  | @read c₁ c₂ r entry hreads hr hentry hread ih =>
      have hco := (hfresh.reads hones hreads).coherent
      obtain ⟨hgot, hmem, -, -⟩ := BlockCache.get_spec hco ⟨r.path, entry.block_offset.toNat⟩
      have hthere : files r.path ≠ none := by
        rw [hr.file_eq]
        exact nofun
      rw [read_block_at_cached] at hread
      intro e he
      split at hread
      · rw [← Option.some.inj hread] at he
        exact ih e ((hmem e).mp he)
      · split at hread
        · rw [← Option.some.inj hread] at he
          exact ih e ((hmem e).mp he)
        · next buf _ =>
            obtain ⟨-, hlru, -⟩ :=
              BlockCache.put_spec hgot ⟨r.path, entry.block_offset.toNat⟩ buf
            rw [← Option.some.inj hread, hlru] at he
            rcases List.mem_cons.mp ((Fitting.fit_sublist _ _).subset he) with rfl | he
            · exact .inr hthere
            · exact ih e ((hmem e).mp (List.mem_filter.mp he).1)

/-! ## What a session keeps -/

structure Backed (s : CachedSession) : Prop where
  filed : Filed s.db
  l1 : ∀ info ∈ s.db.levels 1, ∃ events, Tabled s.db.disk.ssts info events
  mirrors : Mirrors s.db.disk.ssts s.files
  bounded : Bounded s.db.disk.ssts
  fresh : FreshCache s.files s.block_cache
  /-- the flushes to come write new files -/
  ahead : ∀ n, s.db.sst_seq ≤ n → s.files (DB.flush_path n) = none
  met : ∀ e ∈ s.block_cache.lru, Met s e.key.path

theorem removed_files_of_not_mem {paths : List SSTablePath} {files : StoredFiles}
    {path : SSTablePath} (h : path ∉ paths) : removed_files paths files path = files path := by
  induction paths generalizing files with
  | nil => rfl
  | cons p paths ih =>
      rw [List.mem_cons, not_or] at h
      rw [removed_files, List.foldl_cons]
      exact (ih h.2).trans (Function.update_of_ne h.1 _ _)

/-- Writing files takes none away. -/
theorem written_files_ne_none {target : Nat} {tables : List (SSTablePath × SSTable)}
    {files : StoredFiles} {path : SSTablePath} (h : files path ≠ none) :
    written_files target tables files path ≠ none := by
  induction tables generalizing files with
  | nil => exact h
  | cons w tables ih =>
      rw [written_files, List.foldl_cons]
      refine ih ?_
      by_cases hp : path = w.1
      · rw [hp, Function.update_self]
        exact Option.some_ne_none _
      · rw [Function.update_of_ne hp]
        exact h

namespace Backed

variable {s : CachedSession} (h : Backed s)

include h in
theorem one_sizes : OneSizes s.files := fun _ hr => opens_table h.mirrors h.bounded hr

include h in
/-- What is listed is there. -/
theorem listed {info : SSTableInfo} (hinfo : info ∈ files_to_scan s.db.levels) :
    ∃ events, Tabled s.db.disk.ssts info events ∧ Whole ⟨info.meta_, events⟩ := by
  have htable : ∃ events, Tabled s.db.disk.ssts info events :=
    (h.filed.mem_files.mp hinfo).elim (fun hinfo => ⟨_, (h.filed.l0 info hinfo).1⟩) (h.l1 info)
  obtain ⟨events, htable⟩ := htable
  obtain ⟨t, heq, ht⟩ := h.bounded info.path _ htable.file
  rw [← SSTableFile.finished.inj heq] at ht
  exact ⟨events, htable, whole_of_length ht⟩

include h in
/-- No block of a file about to be written is in the cache. -/
theorem unread {st : Step} (hnew : WritesNew s (.db st)) : Unread s (.db st) := by
  intro w hw e he heq
  have hmet := h.met e he
  rcases h.filed.step_cases st with hidle | ⟨mem, rest, -, rfl, -, htables, -⟩ |
    ⟨chunks, -, rfl, -, htables, -⟩
  · rw [hidle.written] at hw
    cases hw
  · rw [htables, List.mem_singleton] at hw
    rw [heq, hw] at hmet
    rcases hmet with hthere | ⟨n, hn, hpath⟩
    · exact hthere (h.ahead _ (Nat.le_refl _))
    · exact absurd (flush_path_inj hpath) (Nat.ne_of_gt hn)
  · rw [heq] at hmet
    rcases hmet with hthere | ⟨n, -, hpath⟩
    · exact hthere ((hnew w hw).2 rfl)
    · rw [htables] at hw
      obtain ⟨t, -, rfl⟩ := List.mem_map.mp hw
      cases hpath

/-- What the three kinds of steps have to show. -/
structure Carries (s : CachedSession) (st : Step) : Prop where
  filed : Filed (step s.db st)
  l1 : ∀ info ∈ (step s.db st).levels 1, ∃ events, Tabled (step s.db st).disk.ssts info events
  ahead : ∀ n, (step s.db st).sst_seq ≤ n → (s.act (.db st)).files (DB.flush_path n) = none
  met : ∀ path, Met s path → Met (s.act (.db st)) path

include h in
theorem idle {st : Step} (hidle : Idle s.db st) : Carries s st := by
  have hfiles : (s.act (.db st)).files = s.files := by
    simp only [CachedSession.act, hidle.written, hidle.removed]
    rfl
  have hssts := step_ssts s.db st
  rw [hidle.written, hidle.removed] at hssts
  refine ⟨hidle.filed, ?_, fun n hn => ?_, fun path hmet => ?_⟩
  · rw [hidle.levels, hssts]
    exact h.l1
  · rw [hidle.sst_seq] at hn
    rw [hfiles]
    exact h.ahead n hn
  · rw [Met, hfiles]
    refine hmet.imp_right fun hflushed => ?_
    show ∃ n < (step s.db st).sst_seq, path = DB.flush_path n
    rw [hidle.sst_seq]
    exact hflushed

include h in
theorem published {mem : MemTable} {rest : List MemTable} (himm : s.db.imm_mems = mem :: rest)
    (hstep : step s.db .flush_front = publish mem rest s.db)
    (hwritten : tablesWritten s.db .flush_front =
      [(DB.flush_path s.db.sst_seq, SSTable.write 0 s.db.sst_seq mem.nodes)])
    (hremoved : pathsRemoved s.db .flush_front = []) : Carries s .flush_front := by
  have hfiles : ∀ path, path ≠ DB.flush_path s.db.sst_seq →
      (s.act (.db .flush_front)).files path = s.files path := by
    intro path hne
    simp only [CachedSession.act, hwritten, hremoved]
    exact Function.update_of_ne hne _ _
  have hseq : (step s.db .flush_front).sst_seq = s.db.sst_seq + 1 := congrArg DB.sst_seq hstep
  refine ⟨hstep ▸ h.filed.publish himm, ?_, fun n hn => ?_, fun path hmet => ?_⟩
  · rw [hstep, publish_above mem rest s.db (by decide)]
    intro info hinfo
    obtain ⟨events, htable⟩ := h.l1 info hinfo
    have hother := h.filed.flush_path_fresh (h.filed.mem_files.mpr (.inr hinfo))
    exact ⟨events, htable.insert_ne hother _⟩
  · rw [hseq] at hn
    rw [hfiles _ fun heq => Nat.ne_of_gt hn (flush_path_inj heq)]
    exact h.ahead n (Nat.le_of_succ_le hn)
  · show _ ∨ ∃ n < (step s.db .flush_front).sst_seq, path = DB.flush_path n
    rw [hseq]
    by_cases hpath : path = DB.flush_path s.db.sst_seq
    · exact .inr ⟨_, Nat.lt_succ_self _, hpath⟩
    · rw [hfiles path hpath]
      refine hmet.imp_right fun hflushed => ?_
      obtain ⟨n, hn, heq⟩ := hflushed
      exact ⟨n, Nat.lt_succ_of_lt hn, heq⟩

include h in
theorem compacted {chunks : List (List Event)}
    (hflat : chunks.flatten = merge 1 ((s.db.levels 0).flatMap fun info =>
      versions info (fileEvents s.db.disk.ssts info)))
    (hstep : step s.db .compact = replaceL0 (tablesOf chunks s.db.sst_seq) s.db)
    (hwritten : tablesWritten s.db .compact =
      (tablesOf chunks s.db.sst_seq).map (fun t => (output_path 1 t, t)))
    (hremoved : pathsRemoved s.db .compact = (s.db.levels 0).map (·.path))
    (hnew : WritesNew s (.db .compact)) : Carries s .compact := by
  have hseq : (step s.db .compact).sst_seq = s.db.sst_seq + 1 := congrArg DB.sst_seq hstep
  have hfiles : (s.act (.db .compact)).files = removed_files ((s.db.levels 0).map (·.path))
      (written_files (blockTarget s .compact)
        ((tablesOf chunks s.db.sst_seq).map (fun t => (output_path 1 t, t))) s.files) := by
    simp only [CachedSession.act, hwritten, hremoved]
  refine ⟨hstep ▸ h.filed.replaceL0 chunks, ?_, fun n hn => ?_, fun path hmet => ?_⟩
  · rw [hstep]
    refine h.filed.level1_replaced hflat (fun t ht info hinfo heq => ?_) h.l1
    -- a listed file is there, and no output goes where a file is
    have hnone := (hnew _ (hwritten ▸ List.mem_map_of_mem ht)).2 rfl
    obtain ⟨events, htable⟩ := h.l1 info hinfo
    have hthere := h.mirrors info.path
    rw [htable.file] at hthere
    obtain ⟨target, hthere⟩ := hthere
    rw [heq, hnone] at hthere
    cases hthere
  · rw [hseq] at hn
    rw [hfiles, ← Option.not_isSome_iff_eq_none, Option.isSome_iff_exists]
    rintro ⟨file, hfile⟩
    have hkept := removed_files_le hfile
    rw [written_files_of_mem, h.ahead n (Nat.le_of_succ_le hn)] at hkept
    · cases hkept
    · intro w hw heq
      obtain ⟨t, -, rfl⟩ := List.mem_map.mp hw
      cases heq
  · show _ ∨ ∃ n < (step s.db .compact).sst_seq, path = DB.flush_path n
    rw [hseq, hfiles]
    rcases hmet with hthere | ⟨n, hn, heq⟩
    · by_cases hpath : path ∈ (s.db.levels 0).map (·.path)
      · obtain ⟨info, hinfo, rfl⟩ := List.mem_map.mp hpath
        obtain ⟨-, heq, hlt⟩ := h.filed.l0 info hinfo
        exact .inr ⟨_, Nat.lt_succ_of_lt hlt, heq⟩
      · rw [removed_files_of_not_mem hpath]
        exact .inl (written_files_ne_none hthere)
    · exact .inr ⟨n, Nat.lt_succ_of_lt hn, heq⟩

include h in
theorem db_step {st : Step} (hnew : WritesNew s (.db st)) : Backed (s.act (.db st)) := by
  have hcarries : Carries s st := by
    rcases h.filed.step_cases st with hidle | ⟨mem, rest, himm, rfl, hstep, hwritten, hremoved⟩ |
      ⟨chunks, hflat, rfl, hstep, hwritten, hremoved⟩
    · exact h.idle hidle
    · exact h.published himm hstep hwritten hremoved
    · exact h.compacted hflat hstep hwritten hremoved hnew
  exact
    { filed := hcarries.filed
      l1 := hcarries.l1
      mirrors := mirrors_act h.mirrors (.db st)
      bounded := AllTables.step h.bounded fun w hw => (hnew w hw).1
      fresh := h.fresh.step (h.unread hnew)
      ahead := hcarries.ahead
      met := fun e he => hcarries.met _ (h.met e he) }

include h in
/-- A query goes by what the tables are, and brings blocks of files that are there. -/
theorem query_step (req : QueryRequest) :
    AnswersTables s (.query req) ∧ Backed (s.act (.query req)) := by
  obtain ⟨hanswers, c, hact, hreads⟩ :=
    answers_tables h.mirrors h.one_sizes h.fresh (fun info hinfo => h.listed hinfo) req
  refine ⟨hanswers, ?_⟩
  rw [hact]
  exact
    { filed := h.filed
      l1 := h.l1
      mirrors := h.mirrors
      bounded := h.bounded
      fresh := h.fresh.reads h.one_sizes hreads
      ahead := h.ahead
      met := fun e he => (reads_paths h.fresh h.one_sizes hreads e he).elim (h.met e) .inl }

include h in
theorem act {a : CachedStep} (hnew : WritesNew s a) : Backed (s.act a) := by
  cases a with
  | db st => exact h.db_step hnew
  | query req => exact (h.query_step req).2

end Backed

theorem start_quiet (cfg : DBConfig) (heights : Nat → Fin kMaxHeight) :
    Quiet (DB.load cfg {} []) (after (DB.open_ cfg {} [] heights)) := by
  rw [DB.open_]
  cases cfg.wal_enabled with
  | false => exact .refl _
  | true =>
      simp only [if_true]
      cases WALWriter.create ∅ cfg.wal_segment_bytes <;> exact ⟨rfl, rfl, rfl, rfl, rfl, rfl⟩

theorem backed_start (cfg : DBConfig) (heights : Nat → Fin kMaxHeight)
    (block_cache_bytes block_target_bytes : Nat) :
    Backed (cachedSession cfg {} [] heights (fun _ => none) block_cache_bytes
      block_target_bytes) := by
  have hq := start_quiet cfg heights
  refine ⟨(load_filed cfg).quiet hq, fun info hinfo => ?_, fun path => ?_,
    fun path file hlook => ?_, fresh_new _ _, fun _ _ => rfl, fun e he => by cases he⟩
  · rw [show (cachedSession cfg {} [] heights (fun _ => none) block_cache_bytes
      block_target_bytes).db.levels = (DB.load cfg {} []).levels from hq.levels] at hinfo
    cases hinfo
  · rw [show (cachedSession cfg {} [] heights (fun _ => none) block_cache_bytes
      block_target_bytes).db.disk.ssts = (DB.load cfg {} []).disk.ssts from hq.ssts]
    rfl
  · rw [show (cachedSession cfg {} [] heights (fun _ => none) block_cache_bytes
      block_target_bytes).db.disk.ssts = (DB.load cfg {} []).disk.ssts from hq.ssts] at hlook
    cases hlook

/-- In a session on an empty directory whose compactions write over no file, every
query over the bytes answers, by way of the cache, what it answers over the tables. -/
theorem cached_answers_tables (cfg : DBConfig) (heights : Nat → Fin kMaxHeight)
    (block_cache_bytes block_target_bytes : Nat) (steps : List CachedStep)
    (h : Run.Along CachedSession.act WritesNew (cachedSession cfg {} [] heights (fun _ => none)
      block_cache_bytes block_target_bytes) steps) :
    Run.Along CachedSession.act AnswersTables (cachedSession cfg {} [] heights (fun _ => none)
      block_cache_bytes block_target_bytes) steps := by
  refine h.grants (I := Backed) (fun s a hs ha => hs.act ha) (fun s a hs ha => ?_)
    (backed_start cfg heights block_cache_bytes block_target_bytes)
  cases a with
  | db st => trivial
  | query req => exact (hs.query_step req).1

/-- A write, a flush, a query, a compaction and two queries, the second of which finds
the block in the cache. -/
def compactedRun : List CachedStep :=
  [.db (.append [65] {} 0 {}), .db .rotate, .db .flush_front, .query { symbol := [65] },
    .db .compact, .query { symbol := [65] }, .query { symbol := [65] }]

theorem cached_answers_tables_compacted :
    Run.Along CachedSession.act AnswersTables freshSession compactedRun := by
  refine cached_answers_tables unlogged (fun _ => 0) 1000 65536 compactedRun
    ⟨fun w hw => ?_, fun w hw => ?_, fun w hw => ?_, trivial, fun w hw => ?_, trivial, trivial,
      trivial⟩
  · cases hw
  · cases hw
  · obtain rfl : w = (DB.flush_path 1, SSTable.write 0 1 [onlyTrade]) := List.mem_singleton.mp hw
    exact ⟨by decide, nofun⟩
  · obtain rfl : w = (⟨1, .compacted 1 2⟩, SSTable.write 1 2 [onlyTrade]) :=
      List.mem_singleton.mp hw
    exact ⟨by decide, fun _ => rfl⟩

end Kronos
