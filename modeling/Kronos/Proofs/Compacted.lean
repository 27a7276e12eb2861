import Kronos.Proofs.Merge
import Kronos.Spec.Compacted

/-!
# A compaction is a newest-wins merge

The outputs of a run are the merge of its inputs cut into files, so laid end
to end their scans are the merge again, for any level, any first number and
any file size. What the merge keeps of a key is the version from the newest
input, and at the bottom level nothing where that version is a tombstone.
-/

namespace Kronos

open Spec

namespace Compaction

/-! ## Scans of everything -/

theorem feed_seen (seen es : List Event) :
    feed (fun seen e => (seen ++ [e], true)) seen es = (seen ++ es, true) := by
  induction es generalizing seen with
  | nil => rw [feed, List.append_nil]
  | cons e es ih =>
      rw [feed]
      dsimp only
      rw [ih, List.append_assoc, List.singleton_append]

theorem scanned_finished {ssts : SSTableDir} {path : SSTablePath} {t : SSTable}
    (h : ssts.lookup path = some (.finished t)) (hsorted : Keyed.Sorted Event.key t.events) :
    scanned ssts path = t.events := by
  have hin : t.events.filter (inRange minKey maxKey) = t.events :=
    List.filter_eq_self.mpr fun e _ => by
      rw [inRange, decide_eq_true_eq]
      exact ⟨minKey_le e.key, le_maxKey e.key⟩
  have hrange : ¬ (maxKey < t.meta_.min_key ∨ t.meta_.max_key < minKey) :=
    not_or.mpr ⟨not_lt.mpr (le_maxKey _), not_lt.mpr (minKey_le _)⟩
  rw [scanned, h]
  dsimp only
  rw [SSTableFile.scan, if_neg hrange, block_scan_feed _ hsorted, hin, feed_seen, List.nil_append]

theorem scanned_eq_fileEvents {ssts : SSTableDir} {info : SSTableInfo}
    (h : SortedFile ssts info.path) : scanned ssts info.path = fileEvents ssts info := by
  obtain ⟨t, ht, hsorted⟩ := h
  rw [scanned_finished ht hsorted, fileEvents_finished ht]

/-! ## The versions of the inputs -/

section
variable {ssts : SSTableDir} {inputs : List SSTableInfo}

/-- Every version that is read, with the number of its file. -/
def allVersions (ssts : SSTableDir) (inputs : List SSTableInfo) : List EventWithSeq :=
  inputs.flatMap fun info => versions info (fileEvents ssts info)

theorem mem_allVersions {ew : EventWithSeq} :
    ew ∈ allVersions ssts inputs ↔
      ∃ info ∈ inputs, ew.e ∈ fileEvents ssts info ∧ ew.sst_seq = info.meta_.sequence := by
  rw [allVersions, List.mem_flatMap]
  constructor
  · rintro ⟨info, hinfo, hew⟩
    obtain ⟨e, he, rfl⟩ := List.mem_map.mp hew
    exact ⟨info, hinfo, he, rfl⟩
  · rintro ⟨info, hinfo, he, hseq⟩
    exact ⟨info, hinfo, List.mem_map.mpr ⟨ew.e, he, by rw [← hseq]⟩⟩

theorem allVersions_length (hfiles : ∀ info ∈ inputs, SortedFile ssts info.path) :
    (allVersions ssts inputs).length = inputCount ssts inputs := by
  rw [allVersions, inputCount, List.length_flatMap]
  refine congrArg List.sum (List.map_congr_left fun info hinfo => ?_)
  rw [versions, List.length_map, scanned_eq_fileEvents (hfiles info hinfo)]

/-- A key and a number have one version: the number has one file, and in it the key
stands once. -/
theorem allVersions_inj (hfiles : ∀ info ∈ inputs, SortedFile ssts info.path)
    (hseq : (inputs.map fun info => info.meta_.sequence).Nodup) :
    ∀ a ∈ allVersions ssts inputs, ∀ b ∈ allVersions ssts inputs,
      a.e.key = b.e.key → a.sst_seq = b.sst_seq → a = b := by
  intro a ha b hb hkey hnum
  obtain ⟨info, hinfo, hae, haseq⟩ := mem_allVersions.mp ha
  obtain ⟨other, hother, hbe, hbseq⟩ := mem_allVersions.mp hb
  have hsame : info = other :=
    List.inj_on_of_nodup_map hseq hinfo hother (haseq.symm.trans (hnum.trans hbseq))
  subst hsame
  obtain ⟨t, ht, hsorted⟩ := hfiles info hinfo
  rw [fileEvents_finished ht] at hae hbe
  have he : a.e = b.e := hsorted.inj hae hbe hkey
  cases a
  cases b
  simp only at he hnum
  rw [he, hnum]

/-- What the newest-wins merge keeps. -/
theorem mem_newest (hfiles : ∀ info ∈ inputs, SortedFile ssts info.path)
    (hseq : (inputs.map fun info => info.meta_.sequence).Nodup) {e : Event} :
    e ∈ (NewestWins.merge (fun ew : EventWithSeq => ew.e.key) EventWithSeq.sst_seq
        (allVersions ssts inputs)).map EventWithSeq.e ↔ Newest ssts inputs e := by
  have hmerge : ∀ ew : EventWithSeq, ew ∈ NewestWins.merge (fun ew : EventWithSeq => ew.e.key)
      EventWithSeq.sst_seq (allVersions ssts inputs) ↔ ew ∈ allVersions ssts inputs ∧
        ∀ y ∈ allVersions ssts inputs, y.e.key = ew.e.key → y.sst_seq ≤ ew.sst_seq := fun ew =>
    NewestWins.mem_merge_iff (allVersions_inj hfiles hseq)
  rw [List.mem_map]
  constructor
  · rintro ⟨ew, hew, rfl⟩
    obtain ⟨hmem, hmax⟩ := (hmerge ew).mp hew
    obtain ⟨info, hinfo, he, hnum⟩ := mem_allVersions.mp hmem
    refine ⟨info, hinfo, by rwa [scanned_eq_fileEvents (hfiles info hinfo)], ?_⟩
    intro other hother e' he' hkey
    rw [scanned_eq_fileEvents (hfiles other hother)] at he'
    rw [← hnum]
    exact hmax ⟨e', other.meta_.sequence⟩ (mem_allVersions.mpr ⟨other, hother, he', rfl⟩) hkey
  · rintro ⟨info, hinfo, he, hmax⟩
    rw [scanned_eq_fileEvents (hfiles info hinfo)] at he
    refine ⟨⟨e, info.meta_.sequence⟩, (hmerge _).mpr ⟨?_, ?_⟩, rfl⟩
    · exact mem_allVersions.mpr ⟨info, hinfo, he, rfl⟩
    · intro y hy hkey
      obtain ⟨other, hother, hye, hynum⟩ := mem_allVersions.mp hy
      rw [hynum]
      refine hmax other hother y.e ?_ hkey
      rwa [scanned_eq_fileEvents (hfiles other hother)]

theorem mem_merge (hfiles : ∀ info ∈ inputs, SortedFile ssts info.path)
    (hseq : (inputs.map fun info => info.meta_.sequence).Nodup) (target_level : Nat) {e : Event} :
    e ∈ merge target_level (allVersions ssts inputs) ↔ Newest ssts inputs e ∧
      ¬ (kMaxLevels - 1 ≤ target_level ∧ e.event_type = .Tombstone) := by
  rw [merge, dedup_eq_merge, ← mem_newest hfiles hseq]
  split
  · next hbottom => simp [hbottom]
  · next hupper => simp [hupper]

end

/-! ## The outputs on disk -/

theorem lookup_saved_ne {out_dir : Nat} {outputs : List SSTable} {path : SSTablePath}
    (h : ∀ t ∈ outputs, path ≠ output_path out_dir t) (ssts : SSTableDir) :
    (saved out_dir outputs ssts).lookup path = ssts.lookup path := by
  induction outputs generalizing ssts with
  | nil => rfl
  | cons t ts ih =>
      rw [saved, List.foldl_cons, ← saved, ih (fun t' ht' => h t' (List.mem_cons_of_mem _ ht')),
        AList.lookup_insert_ne (h t List.mem_cons_self)]

theorem lookup_saved {out_dir : Nat} {outputs : List SSTable}
    (h : outputs.Pairwise fun t t' => output_path out_dir t ≠ output_path out_dir t')
    {t : SSTable} (ht : t ∈ outputs) (ssts : SSTableDir) :
    (saved out_dir outputs ssts).lookup (output_path out_dir t) = some (.finished t) := by
  induction outputs generalizing ssts with
  | nil => cases ht
  | cons t' ts ih =>
      obtain ⟨hne, hts⟩ := List.pairwise_cons.mp h
      rw [saved, List.foldl_cons, ← saved]
      obtain rfl | ht := List.mem_cons.mp ht
      · rw [lookup_saved_ne hne, AList.lookup_insert]
      · exact ih hts ht _

/-! ## The outputs of a run -/

section
variable {level sequence : Nat} {chunks : List (List Event)}

/-- The tables that pieces are written to. -/
def numbered (level sequence : Nat) (chunks : List (List Event)) : List SSTable :=
  (chunks.zipIdx sequence).map fun p => SSTable.write level p.2 p.1

theorem numbered_getElem? (i : Nat) :
    (numbered level sequence chunks)[i]? =
      chunks[i]?.map (SSTable.write level (sequence + i)) := by
  rw [numbered, List.getElem?_map, List.getElem?_zipIdx, Option.map_map]
  rfl

theorem numbered_paths (out_dir : Nat) :
    (numbered level sequence chunks).Pairwise fun t t' =>
      output_path out_dir t ≠ output_path out_dir t' := by
  rw [List.pairwise_iff_getElem]
  intro i j hi hj hlt heq
  have hget : ∀ k (hk : k < (numbered level sequence chunks).length),
      ((numbered level sequence chunks)[k]).meta_.sequence = sequence + k := by
    intro k hk
    have hsome := List.getElem?_eq_getElem hk
    rw [numbered_getElem?] at hsome
    obtain ⟨c, -, hc⟩ := Option.map_eq_some_iff.mp hsome
    rw [← hc]
    rfl
  simp only [output_path, SSTablePath.mk.injEq, SSTableName.compacted.injEq, hget] at heq
  omega

theorem outputEvents_numbered (out_dir : Nat) (ssts : SSTableDir)
    (hsorted : Keyed.Sorted Event.key chunks.flatten) :
    outputEvents out_dir (numbered level sequence chunks) ssts = chunks.flatten := by
  have hscan : ∀ t ∈ numbered level sequence chunks,
      scanned (saved out_dir (numbered level sequence chunks) ssts) (output_path out_dir t) =
        t.events := by
    intro t ht
    refine scanned_finished (lookup_saved (numbered_paths out_dir) ht ssts) ?_
    obtain ⟨p, hp, rfl⟩ := List.mem_map.mp ht
    refine hsorted.sublist (List.sublist_flatten_of_mem ?_)
    exact List.fst_mem_of_mem_zipIdx hp
  rw [outputEvents, List.flatMap_congr hscan, numbered, List.flatMap_map]
  have hevents : ∀ (cs : List (List Event)) (n : Nat),
      ((cs.zipIdx n).flatMap fun p => (SSTable.write level p.2 p.1).events) = cs.flatten := by
    intro cs
    induction cs with
    | nil =>
        intro n
        rfl
    | cons c cs ih =>
        intro n
        rw [List.zipIdx_cons, List.flatMap_cons, ih, List.flatten_cons]
        rfl
  exact hevents chunks sequence

end

/-- A compaction merges its inputs, the newest version of a key winning, drops
tombstones that won at the bottom level, and counts what it read and wrote;
without inputs it does nothing, to `stats` neither. -/
theorem run_newest_wins {ssts : SSTableDir} {inputs : List SSTableInfo}
    (hfiles : ∀ info ∈ inputs, SortedFile ssts info.path)
    (hseq : (inputs.map fun info => info.meta_.sequence).Nodup)
    (out_dir target_level sequence target_file_bytes : Nat) (stats : CompactionStats) :
    ∃ outputs stats',
      run_stats ssts inputs target_level sequence target_file_bytes stats =
        .ok (outputs, stats') ∧
      Keyed.Sorted Event.key (outputEvents out_dir outputs ssts) ∧
      (∀ e, e ∈ outputEvents out_dir outputs ssts ↔ Newest ssts inputs e ∧
        ¬ (kMaxLevels - 1 ≤ target_level ∧ e.event_type = .Tombstone)) ∧
      (∀ i t, outputs[i]? = some t →
        t.meta_.sequence = sequence + i ∧ t.meta_.level = target_level) ∧
      (inputs ≠ [] → stats'.records_in = inputCount ssts inputs ∧
        stats'.records_out = (outputEvents out_dir outputs ssts).length) ∧
      (inputs = [] → outputs = [] ∧ stats' = stats) := by
  by_cases hempty : inputs = []
  · subst hempty
    refine ⟨[], stats, rfl, List.Pairwise.nil, fun e => ?_, fun i t h => ?_,
      fun h => absurd rfl h, fun _ => ⟨rfl, rfl⟩⟩
    · refine iff_of_false List.not_mem_nil ?_
      rintro ⟨⟨info, hinfo, -⟩, -⟩
      cases hinfo
    · simp at h
  · have hread := read_inputs_ok (fun info hinfo => by
      obtain ⟨t, ht, -⟩ := hfiles info hinfo
      exact ⟨t, ht⟩) ([] : List EventWithSeq)
    rw [List.nil_append, ← allVersions] at hread
    obtain ⟨chunks, houts, hflat, -, -⟩ := write_outputs_chunks target_level sequence
      target_file_bytes (merge target_level (allVersions ssts inputs))
    have hsorted := merge_sorted target_level (allVersions ssts inputs)
    have hevents : outputEvents out_dir (numbered target_level sequence chunks) ssts =
        merge target_level (allVersions ssts inputs) := by
      rw [outputEvents_numbered out_dir ssts (by rwa [hflat]), hflat]
    refine ⟨numbered target_level sequence chunks,
      ⟨inputs.length, (numbered target_level sequence chunks).length,
        (allVersions ssts inputs).length, (merge target_level (allVersions ssts inputs)).length⟩,
      ?_, ?_, ?_, ?_, ?_⟩
    · simp only [run_stats, if_neg hempty, run, hread, houts]
      rfl
    · rw [hevents]
      exact hsorted
    · intro e
      rw [hevents]
      exact mem_merge hfiles hseq target_level
    · intro i t hget
      rw [numbered_getElem?] at hget
      obtain ⟨c, -, rfl⟩ := Option.map_eq_some_iff.mp hget
      exact ⟨rfl, rfl⟩
    · refine ⟨fun _ => ⟨allVersions_length hfiles, ?_⟩, fun h => absurd h hempty⟩
      rw [hevents]

/-! ## Two files with one key, and no files -/

def older : Event := { timestamp_ns := 1, price_ticks := 10 }
def newer : Event := { timestamp_ns := 1, price_ticks := 20 }

def olderFile : SSTable := SSTable.write 0 1 [older]
def newerFile : SSTable := SSTable.write 0 2 [newer]

def twoFiles : SSTableDir := saved 0 [olderFile, newerFile] ∅

def twoInputs : List SSTableInfo :=
  [⟨output_path 0 olderFile, olderFile.meta_⟩, ⟨output_path 0 newerFile, newerFile.meta_⟩]

theorem two_sorted : ∀ info ∈ twoInputs, SortedFile twoFiles info.path := by
  rw [twoInputs, List.forall_mem_cons, List.forall_mem_singleton]
  exact ⟨⟨olderFile, rfl, List.pairwise_singleton _ _⟩,
    ⟨newerFile, rfl, List.pairwise_singleton _ _⟩⟩

/-- The later file's version is kept. -/
theorem run_newest_wins_two : ∃ outputs stats',
    run_stats twoFiles twoInputs 1 3 (64 * 1024 * 1024) ⟨0, 0, 0, 0⟩ = .ok (outputs, stats') ∧
      newer ∈ outputEvents 1 outputs twoFiles ∧ stats'.records_in = 2 := by
  obtain ⟨outputs, stats', hrun, -, hmem, -, hstats, -⟩ :=
    run_newest_wins two_sorted (by decide) 1 1 3 (64 * 1024 * 1024) ⟨0, 0, 0, 0⟩
  refine ⟨outputs, stats', hrun, (hmem newer).mpr ⟨?_, by decide⟩, ?_⟩
  · refine ⟨⟨output_path 0 newerFile, newerFile.meta_⟩, by decide, by decide, ?_⟩
    intro other hother e' _ _
    simp only [twoInputs, List.mem_cons, List.not_mem_nil, or_false] at hother
    obtain rfl | rfl := hother
    · decide
    · decide
  · exact (hstats (by decide)).1.trans (by decide)

/-- Without an input the counts are what they were. -/
theorem run_nothing :
    run_stats ∅ [] 1 1 1 ⟨7, 7, 7, 7⟩ = .ok ([], ⟨7, 7, 7, 7⟩) ∧ inputCount ∅ [] = 0 :=
  ⟨rfl, rfl⟩

end Compaction

end Kronos
