import Kronos.Proofs.Levels
import Kronos.Spec.FileNumbers

/-!
# File numbers within a session

Flushes and compactions draw from one counter, but a compaction that writes
several files draws once and counts on by itself. The numbers after the first
are not taken off the counter, and the next flush gets the first of them.

So what decides is whether a compaction with more than one output is followed
by a flush. Up to there all listed numbers lie below the counter. From there to
the flush level 0 is empty, so no compaction draws, and the flush then gives
its file the number of the second output.
-/

namespace Kronos

open Spec Compaction

/-! ## Steps that leave the files alone -/

theorem wal_append_quiet (e : Event) (io : AppendIO) (db : DB) :
    Quiet db (after (db.wal_append e io)) := by
  rw [DB.wal_append]
  split
  · exact .refl db
  · split <;> exact ⟨rfl, rfl, rfl, rfl, rfl, rfl⟩

theorem log_and_insert_effect (e : Event) (height : Fin kMaxHeight) (io : AppendIO) (db : DB) :
    ∃ db', Quiet db db' ∧ (after (DB.log_and_insert e height io db) = db' ∨
      after (DB.log_and_insert e height io db) = db'.mem_insert e height) := by
  have hquiet := wal_append_quiet e io db
  rw [DB.log_and_insert]
  split
  · next db' hwal =>
      rw [hwal] at hquiet
      exact ⟨db', hquiet, .inl rfl⟩
  · next db' hwal =>
      rw [hwal] at hquiet
      exact ⟨db', hquiet, .inr rfl⟩

/-- A write puts one event in the active memtable, or fails without. -/
theorem write_effect (db : DB) {s : Step}
    (hs : (∃ symbol args height io, s = .append symbol args height io) ∨
      ∃ symbol timestamp_ns sequence_id height io,
        s = .remove symbol timestamp_ns sequence_id height io) :
    ∃ db', Quiet db db' ∧ (step db s = db' ∨
      ∃ e height, step db s = db'.mem_insert e height) := by
  rcases hs with ⟨symbol, args, height, io, rfl⟩ |
    ⟨symbol, timestamp_ns, sequence_id, height, io, rfl⟩
  · rw [step, DB.append]
    split
    · exact ⟨db, .refl db, .inl rfl⟩
    · obtain ⟨db', hquiet, heq⟩ := log_and_insert_effect
        { args with symbol_id := (db.intern symbol).1, sequence_id := db.next_seq } height io
        { (db.intern symbol).2 with next_seq := db.next_seq + 1 }
      have hintern : Quiet db { (db.intern symbol).2 with next_seq := db.next_seq + 1 } :=
        ⟨rfl, rfl, rfl, rfl, rfl, rfl⟩
      exact ⟨db', hintern.trans hquiet, heq.imp_right fun heq => ⟨_, height, heq⟩⟩
  · rw [step, DB.remove]
    split
    · exact ⟨db, .refl db, .inl rfl⟩
    · obtain ⟨db', hquiet, heq⟩ := log_and_insert_effect
        { timestamp_ns, symbol_id := (db.intern symbol).1, sequence_id, event_type := .Tombstone }
        height io (db.intern symbol).2
      exact ⟨db', (intern_quiet symbol db).trans hquiet,
        heq.imp_right fun heq => ⟨_, height, heq⟩⟩

theorem Filed.mem_insert {db : DB} (h : Filed db) (e : Event) (height : Fin kMaxHeight) :
    Filed (db.mem_insert e height) := by
  rw [mem_insert_eq]
  split
  · exact (h.putActive e height).retire (Keyed.upsert_ne_nil _ _)
  · exact h.putActive e height

theorem Filed.rotate {db : DB} (h : Filed db) : Filed db.rotate := by
  rcases rotate_cases db with heq | ⟨hne, heq⟩ <;> rw [heq]
  · exact h
  · exact h.retire hne

/-! ## The invariant -/

theorem distinct_iff {db : DB} (h : Filed db) : DistinctNumbers db ↔
    ((db.levels 0).map (·.meta_.sequence) ++ (db.levels 1).map (·.meta_.sequence)).Nodup := by
  rw [DistinctNumbers, files_to_scan_eq, h.deep.1, h.deep.2, List.append_nil, List.append_nil,
    List.map_append]

/-- `wide` is whether a compaction with more than one output has run. -/
structure Numbered (db : DB) (wide : Bool) : Prop where
  filed : Filed db
  distinct : DistinctNumbers db
  below : wide = false → ∀ info ∈ db.levels 1, info.meta_.sequence < db.sst_seq
  taken : wide = true → db.levels 0 = [] ∧ ∃ info ∈ db.levels 1, info.meta_.sequence = db.sst_seq

/-- Steps that do not touch levels and counter keep it. -/
theorem Numbered.frame {db db' : DB} {wide : Bool} (h : Numbered db wide) (hfiled : Filed db')
    (hlevels : db'.levels = db.levels) (hseq : db'.sst_seq = db.sst_seq) :
    Numbered db' wide := by
  refine ⟨hfiled, ?_, ?_, ?_⟩
  · rw [DistinctNumbers, hlevels]; exact h.distinct
  · rw [hlevels, hseq]; exact h.below
  · rw [hlevels, hseq]; exact h.taken

theorem mem_insert_levels (db : DB) (e : Event) (height : Fin kMaxHeight) :
    (db.mem_insert e height).levels = db.levels ∧
      (db.mem_insert e height).sst_seq = db.sst_seq := by
  rw [mem_insert_eq]
  split <;> exact ⟨rfl, rfl⟩

theorem rotate_levels (db : DB) :
    db.rotate.levels = db.levels ∧ db.rotate.sst_seq = db.sst_seq := by
  rcases rotate_cases db with heq | ⟨-, heq⟩ <;> rw [heq] <;> exact ⟨rfl, rfl⟩

/-- More distinct keys in level 0 than one output takes. -/
def Wide (db : DB) : Prop := fileRecords db.cfg.sstable_target_bytes < mergedKeys db

instance (db : DB) : Decidable (Wide db) := by unfold Wide; infer_instance

theorem outputCount_le_one {db : DB} : outputCount db ≤ 1 ↔ ¬ Wide db := by
  have hpos := fileRecords_pos db.cfg.sstable_target_bytes
  rw [outputCount, Wide, Nat.not_lt, ← Nat.lt_succ_iff, Nat.div_lt_iff_lt_mul hpos]
  omega

/-! ## Flushing -/

theorem publish_numbered {db : DB} (h : Numbered db false) {mem : MemTable}
    {rest : List MemTable} (himm : db.imm_mems = mem :: rest) :
    Numbered (publish mem rest db) false := by
  have hfiled := h.filed.publish himm
  have hl1 : (publish mem rest db).levels 1 = db.levels 1 :=
    publish_above mem rest db (by decide)
  refine ⟨hfiled, ?_, fun _ info hinfo => ?_, nofun⟩
  · have hold := (distinct_iff h.filed).mp h.distinct
    rw [distinct_iff hfiled, publish_l0, hl1, List.map_append, List.append_assoc,
      List.map_singleton, List.singleton_append, List.perm_middle.nodup_iff, List.nodup_cons]
    refine ⟨?_, hold⟩
    -- the number of the new file is above all others
    intro hmem
    rcases List.mem_append.mp hmem with hlow | hlow
    · obtain ⟨info, hinfo, heq⟩ := List.mem_map.mp hlow
      exact absurd heq (Nat.ne_of_lt (h.filed.l0 info hinfo).2.2)
    · obtain ⟨info, hinfo, heq⟩ := List.mem_map.mp hlow
      exact absurd heq (Nat.ne_of_lt (h.below rfl info hinfo))
  · rw [hl1] at hinfo
    exact Nat.lt_succ_of_lt (h.below rfl info hinfo)

/-- A file published after a wide compaction has a number that is listed. -/
theorem publish_clashes {db : DB} (h : Numbered db true) {mem : MemTable}
    {rest : List MemTable} (himm : db.imm_mems = mem :: rest) :
    ¬ DistinctNumbers (publish mem rest db) := by
  obtain ⟨hl0, info, hinfo, hseq⟩ := h.taken rfl
  rw [distinct_iff (h.filed.publish himm), publish_l0, hl0,
    publish_above mem rest db (by decide), List.nil_append, List.map_singleton,
    List.singleton_append, List.nodup_cons]
  exact fun hnodup => hnodup.1 (List.mem_map.mpr ⟨info, hinfo, hseq⟩)

/-! ## Compacting -/

theorem tablesOf_numbers (chunks : List (List Event)) (sequence : Nat) :
    (tablesOf chunks sequence).map (·.meta_.sequence) =
      List.range' sequence chunks.length := by
  rw [tablesOf, List.map_map, ← List.zipIdx_map_snd sequence chunks]
  rfl

theorem replaceL0_numbered {db : DB} (h : Numbered db false) {chunks : List (List Event)}
    (hne : chunks ≠ []) (hlen : chunks.length = outputCount db) :
    Numbered (replaceL0 (tablesOf chunks db.sst_seq) db) (decide (Wide db)) := by
  have hfiled := h.filed.replaceL0 chunks
  have hperm : ((replaceL0 (tablesOf chunks db.sst_seq) db).levels 1).map (·.meta_.sequence) |>.Perm
      ((db.levels 1).map (·.meta_.sequence) ++ List.range' db.sst_seq chunks.length) := by
    rw [replaceL0_l1, ← tablesOf_numbers]
    refine ((sort_level_perm _).map _).trans (.of_eq ?_)
    rw [List.map_append, List.map_map]
    rfl
  have hpos := List.length_pos_iff.mpr hne
  refine ⟨hfiled, ?_, fun hnarrow info hinfo => ?_, fun hwide => ⟨replaceL0_l0 _ _, ?_⟩⟩
  · rw [distinct_iff hfiled, replaceL0_l0, List.map_nil, List.nil_append, hperm.nodup_iff,
      List.nodup_append]
    refine ⟨(List.nodup_append.mp ((distinct_iff h.filed).mp h.distinct)).2.1,
      List.nodup_range', ?_⟩
    intro a ha b hb hab
    obtain ⟨info, hinfo, rfl⟩ := List.mem_map.mp ha
    have := h.below rfl info hinfo
    have := (List.mem_range'_1.mp hb).1
    omega
  · have hone := outputCount_le_one.mpr (of_decide_eq_false hnarrow)
    have hmem := hperm.subset (List.mem_map_of_mem hinfo)
    change info.meta_.sequence < db.sst_seq + 1
    rcases List.mem_append.mp hmem with hmem | hmem
    · obtain ⟨info', hinfo', heq⟩ := List.mem_map.mp hmem
      have := h.below rfl info' hinfo'
      omega
    · have := (List.mem_range'_1.mp hmem).2
      omega
  · have htwo : 1 < outputCount db :=
      Nat.lt_of_not_le fun hle => outputCount_le_one.mp hle (of_decide_eq_true hwide)
    have hmem : db.sst_seq + 1 ∈ ((replaceL0 (tablesOf chunks db.sst_seq) db).levels 1).map
        (·.meta_.sequence) :=
      hperm.symm.subset (List.mem_append_right _ (List.mem_range'_1.mpr ⟨by omega, by omega⟩))
    obtain ⟨info, hinfo, heq⟩ := List.mem_map.mp hmem
    exact ⟨info, hinfo, heq⟩

/-- The outputs get paths that no listed file has. -/
theorem outputs_fresh {db : DB} (h : Numbered db false) {chunks : List (List Event)} {t : SSTable}
    (ht : t ∈ tablesOf chunks db.sst_seq) {info : SSTableInfo}
    (hinfo : info ∈ files_to_scan db.levels) : info.path ≠ output_path 1 t := by
  obtain ⟨i, c, -, rfl⟩ := mem_tablesOf ht
  intro heq
  rcases h.filed.mem_files.mp hinfo with hinfo | hinfo
  · rw [(h.filed.l0 info hinfo).2.1] at heq
    cases heq
  · have hlt := h.below rfl info hinfo
    rw [h.filed.l1_paths info hinfo] at heq
    simp only [output_path, SSTable.write, SSTablePath.mk.injEq, SSTableName.compacted.injEq,
      true_and] at heq
    omega

/-! ## Runs -/

/-- A database and whether a compaction with more than one output has run. -/
def widen (p : DB × Bool) (s : Step) : DB × Bool :=
  (step p.1 s, match s with
    | .compact => p.2 || decide (Wide p.1)
    | _ => p.2)

/-- Nothing is flushed after a compaction with more than one output. -/
def NoFlushAfterWide (p : DB × Bool) : Step → Prop
  | .flush_front => p.2 = true → p.1.imm_mems = []
  | _ => True

theorem created_flush {db : DB} (h : Filed db) {mem : MemTable} {rest : List MemTable}
    (himm : db.imm_mems = mem :: rest) :
    created db .flush_front = [(DB.flush_path db.sst_seq, db.sst_seq)] := by
  have hne := h.full mem (himm ▸ List.mem_cons_self)
  simp only [created, himm]
  exact if_neg (by rw [MemTable.empty, List.isEmpty_iff]; exact hne)

/-- What one step does: it keeps the numbers apart exactly if it is no flush
after a wide compaction, and then it keeps the invariant. -/
def StepNumbered (db : DB) (wide : Bool) (s : Step) : Prop :=
  ((OpensFresh db s ∧ DistinctNumbers (step db s)) ↔ NoFlushAfterWide (db, wide) s) ∧
    (NoFlushAfterWide (db, wide) s → Numbered (step db s) (widen (db, wide) s).2)

/-- A step that creates nothing and keeps the invariant. -/
theorem stepNumbered_of_quiet {db : DB} {wide : Bool} {s : Step} (hnone : created db s = [])
    (hkept : Numbered (step db s) wide) (hok : NoFlushAfterWide (db, wide) s)
    (hwide : (widen (db, wide) s).2 = wide) : StepNumbered db wide s := by
  rw [StepNumbered, hwide]
  refine ⟨⟨fun _ => hok, fun _ => ⟨fun c hc => ?_, hkept.distinct⟩⟩, fun _ => hkept⟩
  rw [hnone] at hc
  cases hc

/-- A step that keeps the invariant and opens fresh paths. -/
theorem stepNumbered_of_kept {db : DB} {wide : Bool} {s : Step} (hfresh : OpensFresh db s)
    (hkept : Numbered (step db s) (widen (db, wide) s).2) (hok : NoFlushAfterWide (db, wide) s) :
    StepNumbered db wide s :=
  ⟨⟨fun _ => hok, fun _ => ⟨hfresh, hkept.distinct⟩⟩, fun _ => hkept⟩

theorem write_numbered {db : DB} {wide : Bool} (h : Numbered db wide) {s : Step}
    (heffect : ∃ db', Quiet db db' ∧ (step db s = db' ∨
      ∃ e height, step db s = db'.mem_insert e height)) : Numbered (step db s) wide := by
  obtain ⟨db', hq, heq | ⟨e, height, heq⟩⟩ := heffect <;> rw [heq]
  · exact h.frame (h.filed.quiet hq) hq.levels hq.sst_seq
  · obtain ⟨hlevels, hseq⟩ := mem_insert_levels db' e height
    exact h.frame ((h.filed.quiet hq).mem_insert e height) (hlevels.trans hq.levels)
      (hseq.trans hq.sst_seq)

theorem flush_numbered {db : DB} {wide : Bool} (h : Numbered db wide) :
    StepNumbered db wide .flush_front := by
  rcases flush_front_cases h.filed.full with ⟨hnil, heq⟩ | ⟨mem, rest, himm, -, heq⟩
  · refine stepNumbered_of_quiet (by rw [created, hnil]) ?_ (fun _ => hnil) rfl
    rw [step, heq]
    exact h
  · cases wide with
    | false =>
        refine stepNumbered_of_kept (fun c hc info hinfo => ?_) ?_ nofun
        · rw [created_flush h.filed himm, List.mem_singleton] at hc
          rw [hc]
          exact h.filed.flush_path_fresh hinfo
        · rw [step, heq]
          exact publish_numbered h himm
    | true =>
        have hno : ¬ NoFlushAfterWide (db, true) .flush_front := fun hok => by
          have := hok rfl
          rw [himm] at this
          cases this
        refine ⟨⟨fun hgood => ?_, fun hok => absurd hok hno⟩, fun hok => absurd hok hno⟩
        rw [step, heq] at hgood
        exact absurd hgood.2 (publish_clashes h himm)

theorem compact_numbered {db : DB} {wide : Bool} (h : Numbered db wide) :
    StepNumbered db wide .compact := by
  rcases h.filed.compact_cases with ⟨hnil, heq⟩ | ⟨chunks, stats, hne, -, hchunks, hlen, hrun, heq⟩
  · have hnarrow : ¬ Wide db := by
      rw [Wide, mergedKeys, hnil]
      exact Nat.not_lt_zero _
    refine stepNumbered_of_quiet (by rw [created, if_pos hnil]) ?_ trivial ?_
    · rw [step, heq]
      exact h
    · simp only [widen, decide_eq_false hnarrow, Bool.or_false]
  · cases wide with
    | true => exact absurd (h.taken rfl).1 hne
    | false =>
        refine stepNumbered_of_kept (fun c hc info hinfo => ?_) ?_ trivial
        · rw [created, if_neg hne, hrun] at hc
          obtain ⟨t, ht, rfl⟩ := List.mem_map.mp hc
          exact outputs_fresh h ht hinfo
        · rw [step, heq, widen, Bool.false_or]
          exact replaceL0_numbered h hchunks hlen

theorem step_numbered {db : DB} {wide : Bool} (h : Numbered db wide) (s : Step) :
    StepNumbered db wide s := by
  cases s with
  | append symbol args height io =>
      exact stepNumbered_of_quiet rfl (write_numbered h (write_effect db (.inl ⟨_, _, _, _, rfl⟩)))
        trivial rfl
  | remove symbol timestamp_ns sequence_id height io =>
      exact stepNumbered_of_quiet rfl
        (write_numbered h (write_effect db (.inr ⟨_, _, _, _, _, rfl⟩))) trivial rfl
  | rotate =>
      obtain ⟨hlevels, hseq⟩ := rotate_levels db
      exact stepNumbered_of_quiet rfl (h.frame h.filed.rotate hlevels hseq) trivial rfl
  | stop =>
      exact stepNumbered_of_quiet rfl
        (h.frame (h.filed.quiet ⟨rfl, rfl, rfl, rfl, rfl, rfl⟩) rfl rfl) trivial rfl
  | save_symbols =>
      exact stepNumbered_of_quiet rfl
        (h.frame (h.filed.quiet ⟨rfl, rfl, rfl, rfl, rfl, rfl⟩) rfl rfl) trivial rfl
  | flush_front => exact flush_numbered h
  | compact => exact compact_numbered h

/-- Where the invariant holds, a run keeps the numbers apart exactly if it
flushes nothing after a wide compaction. -/
theorem Numbered.kept_iff {db : DB} {wide : Bool} (h : Numbered db wide) (steps : List Step) :
    NumbersKept db steps ↔ Run.Along widen NoFlushAfterWide (db, wide) steps := by
  rw [NumbersKept, and_iff_right h.distinct]
  refine Run.along_iff (R := fun db p => db = p.1 ∧ Numbered p.1 p.2) ?_ ?_ ⟨rfl, h⟩
  · rintro db p s ⟨rfl, hp⟩
    exact (step_numbered hp s).1
  · rintro db p s ⟨rfl, hp⟩ hok
    exact ⟨rfl, (step_numbered hp s).2 ((step_numbered hp s).1.mp hok)⟩

theorem openEmpty_quiet (cfg : DBConfig) : Quiet (DB.load cfg {} []) (openEmpty cfg).db := by
  rw [openEmpty, DB.open_]
  cases cfg.wal_enabled with
  | false => exact .refl _
  | true =>
      simp only [if_true]
      cases WALWriter.create ∅ cfg.wal_segment_bytes <;> exact ⟨rfl, rfl, rfl, rfl, rfl, rfl⟩

theorem openEmpty_numbered (cfg : DBConfig) : Numbered (openEmpty cfg).db false := by
  have hq := openEmpty_quiet cfg
  refine ⟨(load_filed cfg).quiet hq, ?_, fun _ info hinfo => ?_, nofun⟩
  · rw [DistinctNumbers, hq.levels]
    exact List.nodup_nil
  · rw [hq.levels] at hinfo
    cases hinfo

/-- In a session on an empty directory no writer opens a listed path and all
listed numbers are distinct exactly if nothing is flushed after a compaction
that finds more distinct keys in level 0 than go into one output. -/
theorem numbers_kept_iff (cfg : DBConfig) (steps : List Step) :
    NumbersKept (openEmpty cfg).db steps ↔
      Run.Along widen NoFlushAfterWide ((openEmpty cfg).db, false) steps :=
  (openEmpty_numbered cfg).kept_iff steps

/-! ## The steps of calls -/

theorem drain_steps (db : DB) : (drainSteps db).foldl step db = db.drain := by
  rw [drainSteps, DB.drain]
  generalize db.imm_mems.length = n
  induction n generalizing db with
  | zero => rfl
  | succ n ih => rw [List.replicate_succ, List.foldl_cons, ih, Function.iterate_succ_apply, step]

theorem exec_steps (t : Tracked) (c : Call) : (stepsOf t.db c).foldl step t.db = (exec t c).db := by
  cases c with
  | append symbol args height =>
      rw [stepsOf, List.foldl_cons, List.foldl_nil, step, exec]
      split <;> next heq => rw [heq, after]
  | remove symbol timestamp_ns sequence_id height =>
      rw [stepsOf, List.foldl_cons, List.foldl_nil, step, exec]
      split <;> next heq => rw [heq, after]
  | flush_now => rw [stepsOf, List.foldl_cons, step, drain_steps]; rfl
  | compact_now =>
      rw [stepsOf, List.foldl_cons, List.foldl_nil, step, exec]
      split <;> next heq => rw [heq, after]

theorem close_steps (db : DB) : (closeSteps db).foldl step db = db.close := by
  rw [closeSteps, DB.close]
  split
  · rfl
  · rw [List.cons_append, List.foldl_cons, List.cons_append, List.foldl_cons, List.foldl_append]
    have hsteps : drainSteps db.rotate = drainSteps (step (step db .stop) .rotate) := by
      have himm : (step (step db .stop) .rotate).imm_mems = db.rotate.imm_mems := by
        rw [step, step, rotate_eq, rotate_eq]
        by_cases hempty : db.active_mem.empty
        · rw [if_pos hempty, if_pos hempty]
        · rw [if_neg hempty, if_neg hempty]
          rfl
      rw [drainSteps, drainSteps, himm]
    rw [hsteps, drain_steps]
    rfl

theorem script_run (t : Tracked) (calls : List Call) :
    (script t calls).foldl step t.db = (calls.foldl exec t).db := by
  induction calls generalizing t with
  | nil => rfl
  | cons c calls ih =>
      rw [script, List.foldl_append, exec_steps, ih, List.foldl_cons]

theorem script_append (t : Tracked) (calls calls' : List Call) :
    script t (calls ++ calls') = script t calls ++ script (calls.foldl exec t) calls' := by
  induction calls generalizing t with
  | nil => rfl
  | cons c calls ih =>
      rw [List.cons_append, script, ih, script, List.append_assoc, List.foldl_cons]

/-! ## A flush after a wide compaction -/

theorem widen_fst (p : DB × Bool) (steps : List Step) :
    (steps.foldl widen p).1 = steps.foldl step p.1 := by
  induction steps generalizing p with
  | nil => rfl
  | cons s steps ih => rw [List.foldl_cons, ih, List.foldl_cons]; rfl

theorem widen_stays {p : DB × Bool} (hp : p.2 = true) (steps : List Step) :
    (steps.foldl widen p).2 = true := by
  refine Run.invariant (I := fun p : DB × Bool => p.2 = true) (fun p s hp => ?_) steps hp
  cases s <;> simp only [widen, hp, Bool.true_or]

/-- Something waits to be flushed. -/
def Pending (db : DB) : Prop := db.active_mem.nodes ≠ [] ∨ db.imm_mems ≠ []

theorem Pending.rotated {db : DB} (h : Pending db) : db.rotate.imm_mems ≠ [] := by
  rw [rotate_eq]
  split
  · next hempty =>
      rw [MemTable.empty, List.isEmpty_iff] at hempty
      exact h.resolve_left (not_not.mpr hempty)
  · exact List.append_ne_nil_of_right_ne_nil _ (List.cons_ne_nil _ _)

theorem wide_then_flush {t : Tracked} (h : Numbered t.db false) (calls calls' : List Call)
    (hwide : Wide (calls.foldl exec t).db)
    (hpending : Pending ((calls ++ .compact_now :: calls').foldl exec t).db) :
    ¬ NumbersKept t.db (script t (calls ++ .compact_now :: calls' ++ [.flush_now])) := by
  rw [h.kept_iff, script_append, Run.along_append]
  rintro ⟨-, hflush⟩
  generalize hp : (script t (calls ++ .compact_now :: calls')).foldl widen (t.db, false) = p
    at hflush
  have hdb : p.1 = ((calls ++ .compact_now :: calls').foldl exec t).db := by
    rw [← hp, widen_fst, script_run]
  have hflag : p.2 = true := by
    rw [← hp, script_append, List.foldl_append, script, stepsOf, List.singleton_append,
      List.foldl_cons]
    refine widen_stays ?_ _
    rw [widen, widen_fst, script_run, decide_eq_true hwide, Bool.or_true]
  rw [← hdb] at hpending
  rw [script, script, List.append_nil, stepsOf, ← hdb, drainSteps] at hflush
  obtain ⟨n, hn⟩ := Nat.exists_eq_succ_of_ne_zero
    (fun hzero => hpending.rotated (List.length_eq_zero_iff.mp hzero))
  rw [hn, List.replicate_succ] at hflush
  exact hpending.rotated (hflush.2.1 hflag)

/-! ## A run that gives a number twice -/

def narrowConfig : DBConfig := { wal_enabled := false, sstable_target_bytes := 65536 }

/-- After `n` appends without a log: `n` sequence ids, all in a memtable that has
room for more. -/
structure Filling (n : Nat) (db : DB) : Prop where
  cfg : db.cfg = narrowConfig
  opened : db.closed = false
  wal : db.wal = none
  imm : db.imm_mems = []
  l0 : db.levels 0 = []
  seq : db.next_seq.toNat = n + 1
  threshold : db.active_mem.flush_threshold = 64 * 1024 * 1024
  used : db.active_mem.arena.used ≤ 4096 * (2 * n + 1)
  ids : (db.active_mem.nodes.map (·.sequence_id.toNat)).Perm (List.range' 1 n)

theorem allocate_used {n : Nat} (hn : n ≤ Arena.kBlockSize) (a : Arena) :
    (a.allocate n).used ≤ a.used + 4096 := by
  rw [Arena.allocate]
  split
  · exact Nat.le_add_right _ _
  · rw [if_neg (Nat.not_lt.mpr hn)]
    exact Nat.le_refl _

theorem insert_used (e : Event) (height : Fin kMaxHeight) (m : MemTable) :
    (m.insert e height).arena.used ≤ m.arena.used + 4096 * 2 := by
  have hevent : (m.arena.allocate_aligned kEventSize).used ≤ m.arena.used + 4096 :=
    allocate_used (by decide) m.arena
  have hnode : nodeSize (height + 1) ≤ 136 := by
    have : height.val < 12 := height.isLt
    rw [nodeSize]
    omega
  have hboth : ((m.arena.allocate_aligned kEventSize).allocate_aligned
      (nodeSize (height + 1))).used ≤ m.arena.used + 4096 * 2 := by
    refine (allocate_used (n := (nodeSize (height + 1) + 7) / 8 * 8) ?_ _).trans (by omega)
    rw [Arena.kBlockSize]
    omega
  simp only [MemTable.insert]
  split
  · omega
  · exact hboth

theorem append_eq {db : DB} (hopened : db.closed = false) (hwal : db.wal = none) (symbol : Bytes)
    (args : Event) (height : Fin kMaxHeight) (io : AppendIO) :
    ∃ r, db.append symbol args height io = .ok r
      (DB.mem_insert { args with symbol_id := (db.intern symbol).1, sequence_id := db.next_seq }
        height { (db.intern symbol).2 with next_seq := db.next_seq + 1 }) := by
  have hlog : (db.intern symbol).2.wal = none := hwal
  rw [DB.append, hopened]
  simp only [DB.log_and_insert, DB.wal_append, hlog]
  exact ⟨_, rfl⟩

theorem Filling.append {n : Nat} {t : Tracked} (h : Filling n t.db) (hfiled : Filed t.db)
    (hn : n < 8000) (symbol : Bytes) (args : Event) (height : Fin kMaxHeight) :
    Filling (n + 1) (exec t (.append symbol args height)).db := by
  obtain ⟨r, heq⟩ := append_eq h.opened h.wal symbol args height {}
  rw [exec, heq]
  simp only [mem_insert_eq]
  have hused := insert_used { args with
    symbol_id := (t.db.intern symbol).1
    sequence_id := t.db.next_seq } height t.db.active_mem
  have hroom : ((t.db.active_mem.insert { args with
      symbol_id := (t.db.intern symbol).1
      sequence_id := t.db.next_seq } height).should_flush) = false := by
    have hlimit : (t.db.active_mem.insert { args with
        symbol_id := (t.db.intern symbol).1
        sequence_id := t.db.next_seq } height).flush_threshold = 64 * 1024 * 1024 := h.threshold
    have := h.used
    rw [MemTable.should_flush, decide_eq_false_iff_not, hlimit]
    omega
  rw [if_neg (by rw [Bool.not_eq_true]; exact hroom)]
  refine ⟨h.cfg, h.opened, h.wal, h.imm, h.l0, ?_, h.threshold, ?_, ?_⟩
  · change (t.db.next_seq + 1).toNat = _
    rw [UInt64.toNat_add, h.seq, Nat.mod_eq_of_lt]
    · rfl
    · change n + 1 + 1 < _
      omega
  · have := h.used
    exact hused.trans (by omega)
  · -- the new sequence id is not in the table, so no node is replaced
    refine (((Keyed.upsert_perm _ (hfiled.mems _ List.mem_cons_self)).map _).trans ?_)
    have hfresh : t.db.active_mem.nodes.filter (fun e => e.key ≠ Event.key { args with
        symbol_id := (t.db.intern symbol).1
        sequence_id := t.db.next_seq }) = t.db.active_mem.nodes := by
      refine List.filter_eq_self.mpr fun e he => ?_
      rw [decide_eq_true_eq]
      intro hkey
      have hmem := h.ids.subset (List.mem_map_of_mem he)
      have hid : e.sequence_id = t.db.next_seq := congrArg Key.sequence_id hkey
      rw [hid, h.seq, List.mem_range'_1] at hmem
      omega
    rw [hfresh, List.map_cons, h.seq, List.range'_1_concat, Nat.add_comm 1 n]
    exact (h.ids.cons _).trans (List.perm_append_singleton _ _).symm

theorem appends_fill {n : Nat} (hn : n ≤ 8000) (call : Call)
    (hcall : ∃ symbol args height, call = .append symbol args height) :
    Filling n ((List.replicate n call).foldl exec (openEmpty narrowConfig)).db ∧
      Numbered ((List.replicate n call).foldl exec (openEmpty narrowConfig)).db false := by
  obtain ⟨symbol, args, height, rfl⟩ := hcall
  induction n with
  | zero =>
      have hused : (openEmpty narrowConfig).db.active_mem.arena.used ≤ 4096 := by decide
      exact ⟨⟨rfl, rfl, rfl, rfl, rfl, rfl, rfl, hused, .refl _⟩, openEmpty_numbered _⟩
  | succ n ih =>
      obtain ⟨hfill, hnum⟩ := ih (by omega)
      rw [List.replicate_succ', List.foldl_append, List.foldl_cons, List.foldl_nil]
      refine ⟨hfill.append hnum.filed (by omega) symbol args height, ?_⟩
      have hstep := (step_numbered hnum (.append symbol args height {})).2 trivial
      rw [← exec_steps]
      exact hstep

/-- Flushing a filled memtable lists one file with an event for each append. -/
theorem Filling.flush {n : Nat} {db : DB} (h : Filling (n + 1) db) (hfiled : Filed db) :
    Filed db.flush_now ∧ db.flush_now.closed = false ∧ db.flush_now.wal = none ∧
      db.flush_now.cfg = narrowConfig ∧ mergedKeys db.flush_now = n + 1 := by
  have hne : db.active_mem.nodes ≠ [] := by
    intro hnil
    have := h.ids.length_eq
    rw [hnil, List.map_nil, List.length_nil, List.length_range'] at this
    omega
  have hrotate : db.rotate = retire db := by
    rw [rotate_eq, if_neg (by rw [MemTable.empty, List.isEmpty_iff]; exact hne)]
  have himm : (retire db).imm_mems = [db.active_mem] := by
    rw [retire, h.imm]
    rfl
  have hretired := hfiled.retire hne
  obtain ⟨hnil, -⟩ | ⟨mem, rest, himm', -, heq⟩ := flush_front_cases hretired.full
  · rw [hnil] at himm
    cases himm
  rw [himm, List.cons.injEq] at himm'
  obtain ⟨rfl, rfl⟩ := himm'
  have hflush : db.flush_now = publish db.active_mem [] (retire db) := by
    rw [DB.flush_now, hrotate, DB.drain, himm]
    exact heq
  rw [hflush]
  refine ⟨hretired.publish himm, h.opened, h.wal, h.cfg, ?_⟩
  have hsorted := hretired.front_sorted himm
  rw [mergedKeys, publish_l0, show (retire db).levels 0 = [] from h.l0, List.nil_append,
    List.flatMap_singleton, (hretired.publish_tabled himm).events_eq, List.Nodup.dedup]
  · rw [List.length_map]
    have := h.ids.length_eq
    rwa [List.length_map, List.length_range'] at this
  · exact List.pairwise_map.mpr (hsorted.imp fun hlt => ne_of_lt hlt)

theorem compact_append_pending {t : Tracked} (h : Filed t.db) (hopened : t.db.closed = false)
    (hwal : t.db.wal = none) (symbol : Bytes) (args : Event) (height : Fin kMaxHeight) :
    Pending (exec (exec t .compact_now) (.append symbol args height)).db := by
  obtain ⟨hopened', hwal'⟩ : (exec t .compact_now).db.closed = t.db.closed ∧
      (exec t .compact_now).db.wal = t.db.wal := by
    rw [exec]
    rcases h.compact_cases with ⟨-, heq⟩ | ⟨chunks, -, -, -, -, -, -, heq⟩ <;> rw [heq] <;>
      exact ⟨rfl, rfl⟩
  obtain ⟨r, heq⟩ := append_eq (hopened'.trans hopened) (hwal'.trans hwal) symbol args height {}
  rw [exec, heq]
  simp only [mem_insert_eq]
  split
  · exact .inr (List.append_ne_nil_of_right_ne_nil _ (List.cons_ne_nil _ _))
  · exact .inl (Keyed.upsert_ne_nil _ _)

/-- `n` appends, and one after they are compacted. -/
def twoFlushes (n : Nat) : List Call :=
  List.replicate n (.append [65] {} 0) ++ [.flush_now] ++ .compact_now :: [.append [65] {} 0] ++
    [.flush_now]

theorem twoFlushes_clash {n : Nat} (h : 1000 < n) (hn : n ≤ 8000) :
    ¬ NumbersKept (openEmpty narrowConfig).db (script (openEmpty narrowConfig) (twoFlushes n)) := by
  obtain ⟨hfill, hnum⟩ := appends_fill hn (.append [65] {} 0) ⟨_, _, _, rfl⟩
  obtain ⟨m, rfl⟩ := Nat.exists_eq_succ_of_ne_zero (Nat.ne_zero_of_lt h)
  obtain ⟨hfiled, hopened, hwal, hcfg, hkeys⟩ := hfill.flush hnum.filed
  refine wide_then_flush (openEmpty_numbered narrowConfig) _ _ ?_ ?_
  · rw [List.foldl_append, List.foldl_cons, List.foldl_nil, exec, Wide, hkeys, hcfg]
    exact h
  · rw [List.foldl_append, List.foldl_append]
    exact compact_append_pending hfiled hopened hwal _ _ _

/-- 1001 events are compacted into two files, numbers 2 and 3, and the next
flush is number 3 again. -/
theorem number_given_twice : ¬ NumbersKept (openEmpty narrowConfig).db
    (script (openEmpty narrowConfig) (twoFlushes 1001)) :=
  twoFlushes_clash (by decide) (by decide)

end Kronos
