import Kronos.Proofs.FileNumbers
import Kronos.Proofs.RoundTrip
import Kronos.Spec.FreshBlocks

/-!
# The bytes of the files and the tables of the directory

The steps of a session write the same files twice over: as tables into the
directory of the database and as bytes. The two go together, and a query over the
bytes answers what a query over the tables does.
-/

namespace Kronos

open Spec

/-- What is a finished table in the directory is in the files what a writer leaves of
it, and what is not there is not there. A torn file may hold anything. -/
def Mirrors (ssts : SSTableDir) (files : StoredFiles) : Prop :=
  ∀ path, match ssts.lookup path with
    | none => files path = none
    | some (.finished t) => ∃ target, files path = some (tableBytes target t)
    | some (.torn _) => True

/-! ## Steps -/

section
variable {ssts : SSTableDir} {files : StoredFiles}

theorem Mirrors.insert (h : Mirrors ssts files) (path : SSTablePath) (target : Nat)
    (t : SSTable) :
    Mirrors (ssts.insert path (.finished t))
      (Function.update files path (some (tableBytes target t))) := by
  intro p
  by_cases hp : p = path
  · rw [hp, AList.lookup_insert, Function.update_self]
    exact ⟨target, rfl⟩
  · rw [AList.lookup_insert_ne hp, Function.update_of_ne hp]
    exact h p

theorem Mirrors.erase (h : Mirrors ssts files) (path : SSTablePath) :
    Mirrors (ssts.erase path) (Function.update files path none) := by
  intro p
  by_cases hp : p = path
  · rw [hp, AList.lookup_erase, Function.update_self]
  · rw [AList.lookup_erase_ne hp, Function.update_of_ne hp]
    exact h p

theorem Mirrors.written (h : Mirrors ssts files) (target : Nat)
    (tables : List (SSTablePath × SSTable)) :
    Mirrors (tables.foldl (fun ssts w => ssts.insert w.1 (.finished w.2)) ssts)
      (written_files target tables files) := by
  induction tables generalizing ssts files with
  | nil => exact h
  | cons w tables ih => exact ih (h.insert w.1 target w.2)

theorem Mirrors.removed (h : Mirrors ssts files) (paths : List SSTablePath) :
    Mirrors (paths.foldl (fun ssts path => ssts.erase path) ssts) (removed_files paths files) := by
  induction paths generalizing ssts files with
  | nil => exact h
  | cons path paths ih => exact ih (h.erase path)

end

theorem write_ssts (db : DB) {s : Step}
    (hs : (∃ symbol args height io, s = .append symbol args height io) ∨
      ∃ symbol timestamp_ns sequence_id height io,
        s = .remove symbol timestamp_ns sequence_id height io) :
    (step db s).disk.ssts = db.disk.ssts := by
  obtain ⟨db', hquiet, heq | ⟨e, height, heq⟩⟩ := write_effect db hs
  · rw [heq, hquiet.ssts]
  · rw [heq, mem_insert_eq]
    split
    · exact hquiet.ssts
    · exact hquiet.ssts

/-- What a step does to the directory. -/
theorem step_ssts (db : DB) (s : Step) :
    (step db s).disk.ssts = (pathsRemoved db s).foldl (fun ssts path => ssts.erase path)
      ((tablesWritten db s).foldl (fun ssts w => ssts.insert w.1 (.finished w.2))
        db.disk.ssts) := by
  cases s with
  | append symbol args height io => exact write_ssts db (.inl ⟨_, _, _, _, rfl⟩)
  | remove symbol timestamp_ns sequence_id height io =>
      exact write_ssts db (.inr ⟨_, _, _, _, _, rfl⟩)
  | rotate =>
      rw [step, DB.rotate]
      split
      · rfl
      · rfl
  | flush_front =>
      rw [step, DB.flush_front, tablesWritten]
      cases db.imm_mems with
      | nil => rfl
      | cons mem rest =>
          simp only [DB.do_flush]
          split
          · rfl
          · rfl
  | compact =>
      rw [step, DB.compact_now, DB.do_compact_l0, pathsRemoved, tablesWritten]
      dsimp only
      split
      · rfl
      · cases Compaction.run db.disk.ssts (db.levels 0) 1 db.sst_seq
            db.cfg.sstable_target_bytes with
        | error err => rfl
        | ok run =>
            obtain ⟨outputs, stats⟩ := run
            dsimp only
            rw [write_outputs_eq, List.foldl_map]
            cases outputs with
            | nil => rfl
            | cons t ts =>
                have hne : (t :: ts).map (fun t => (Compaction.output_path 1 t, t)) ≠ [] := by simp
                rw [if_neg (List.cons_ne_nil _ _), if_neg hne, remove_inputs_eq, List.foldl_map]
                rfl
  | stop => rfl
  | save_symbols => rfl

/-- The two go together all the way. -/
theorem mirrors_act {s : CachedSession} (h : Mirrors s.db.disk.ssts s.files) (a : CachedStep) :
    Mirrors (s.act a).db.disk.ssts (s.act a).files := by
  cases a with
  | query req => exact h
  | db st =>
      have hkept := (h.written (blockTarget s st) (tablesWritten s.db st)).removed
        (pathsRemoved s.db st)
      rw [← step_ssts] at hkept
      exact hkept

theorem mirrors_run {s : CachedSession} (h : Mirrors s.db.disk.ssts s.files)
    (steps : List CachedStep) :
    Mirrors (steps.foldl CachedSession.act s).db.disk.ssts
      (steps.foldl CachedSession.act s).files :=
  Run.invariant (I := fun s : CachedSession => Mirrors s.db.disk.ssts s.files)
    (fun _ a hs => mirrors_act hs a) steps h

/-! ## Queries -/

/-- The table is one that the limits of the format leave whole. -/
def Whole (t : SSTable) : Prop :=
  ∀ target, Storable target t.events (tableBytes target t)

/-- A listed file gives a query over the bytes what it gives one over the tables. -/
theorem scan_file_stored {ssts : SSTableDir} {files : StoredFiles} (h : Mirrors ssts files)
    {info : SSTableInfo} {events : List Event} (htable : Tabled ssts info events)
    (hfits : Whole ⟨info.meta_, events⟩) (req : QueryRequest) (sym_id : UInt32)
    (c : Collecting) :
    scan_stored_file req sym_id files (c, none) info = (scan_file req sym_id ssts c info, none) := by
  have hfile := h info.path
  rw [htable.file] at hfile
  obtain ⟨target, hfile⟩ := hfile
  have hstorable := hfits target
  obtain ⟨r, hopen, -, -, hr⟩ := open_written (BloomFilter.new_addressed .default)
    hstorable.sizes hstorable.file info.path
  have hopen' : SSTableReader.open_ info.path (tableBytes target ⟨info.meta_, events⟩) = .ok r :=
    hopen
  rw [scan_stored_file, scan_file]
  split
  · rfl
  · dsimp only
    split
    · next hmay =>
        rw [hfile, htable.file]
        dsimp only
        rw [hopen']
        dsimp only
        rw [hr.scan_all htable.sorted hstorable.count]
        simp only [SSTableFile.read_meta, SSTableFile.scan]
        rw [SSTableInfo.may_contain, decide_eq_true_eq] at hmay
        rw [if_neg hmay, block_scan_eq_feed _ htable.sorted]
    · rfl

/-- Where all listed files are finished tables, a query over the bytes answers what one
over the tables does. -/
theorem query_stored_refines {db : DB} {files : StoredFiles} (h : Mirrors db.disk.ssts files)
    (htables : ∀ info ∈ files_to_scan db.levels, ∃ events, Tabled db.disk.ssts info events ∧
      Whole ⟨info.meta_, events⟩) (req : QueryRequest) :
    (db.query_stored files none req).1 = db.query req := by
  have hfold : ∀ (sym_id : UInt32) (infos : List SSTableInfo) (c : Collecting),
      (∀ info ∈ infos, ∃ events, Tabled db.disk.ssts info events ∧
        Whole ⟨info.meta_, events⟩) →
      infos.foldl (scan_stored_file req sym_id files) (c, none) =
        (infos.foldl (scan_file req sym_id db.disk.ssts) c, none) := by
    intro sym_id infos
    induction infos with
    | nil => exact fun c _ => rfl
    | cons info infos ih =>
        intro c hinfos
        obtain ⟨events, htable, hfits⟩ := hinfos info List.mem_cons_self
        rw [List.foldl_cons, List.foldl_cons, scan_file_stored h htable hfits]
        exact ih _ fun i hi => hinfos i (List.mem_cons_of_mem _ hi)
  rw [DB.query_stored, DB.query]
  split
  · rfl
  · cases db.symbols.lookup req.symbol with
    | none => rfl
    | some sym_id =>
        dsimp only
        rw [hfold sym_id _ _ htables]

end Kronos
