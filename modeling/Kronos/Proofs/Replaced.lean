import Kronos.Proofs.Levels

/-!
# Level 0 replaced

What a compaction of level 0 leaves when its outputs go to paths that no file of
level 1 has: level 1 as it was, in order, and beside it the merge of level 0.
-/

namespace Kronos

open Compaction

theorem mem_tablesOf_at {chunks : List (List Event)} {sequence i : Nat} (hi : i < chunks.length) :
    SSTable.write 1 (sequence + i) chunks[i] ∈ tablesOf chunks sequence := by
  refine List.mem_map.mpr ⟨(chunks[i], sequence + i), ?_, rfl⟩
  rw [List.mem_zipIdx_iff_le_and_getElem?_sub]
  refine ⟨Nat.le_add_right _ _, ?_⟩
  rw [Nat.add_sub_cancel_left, List.getElem?_eq_getElem hi]

section
variable {db : DB} (h : Filed db) {chunks : List (List Event)}
  (hflat : chunks.flatten = merge 1 ((db.levels 0).flatMap fun info =>
    versions info (fileEvents db.disk.ssts info)))
  (hfresh : ∀ t ∈ tablesOf chunks db.sst_seq, ∀ info ∈ db.levels 1, info.path ≠ output_path 1 t)

include h in
theorem Filed.flushed : ∀ f ∈ db.levels 0, f.path.dir = 0 := by
  intro f hf
  rw [(h.l0 f hf).2.1]
  rfl

include hflat in
theorem chunks_sorted : ∀ c ∈ chunks, Keyed.Sorted Event.key c := by
  intro c hc
  have hall := merge_sorted 1 ((db.levels 0).flatMap fun info =>
    versions info (fileEvents db.disk.ssts info))
  rw [← hflat] at hall
  exact hall.sublist (List.sublist_flatten_of_mem hc)

include h hfresh in
theorem Filed.level1_lookup {info : SSTableInfo} (hinfo : info ∈ db.levels 1) :
    (Kronos.replaceL0 (tablesOf chunks db.sst_seq) db).disk.ssts.lookup info.path =
      db.disk.ssts.lookup info.path :=
  listed_untouched h.flushed (by rw [h.l1_paths info hinfo]) fun i hi =>
    hfresh _ (mem_tablesOf_at hi) info hinfo

include h hflat hfresh in
/-- All of level 1 stays in order. -/
theorem Filed.level1_replaced
    (hl1 : ∀ info ∈ db.levels 1, ∃ events, Tabled db.disk.ssts info events) :
    ∀ info ∈ (Kronos.replaceL0 (tablesOf chunks db.sst_seq) db).levels 1, ∃ events,
      Tabled (Kronos.replaceL0 (tablesOf chunks db.sst_seq) db).disk.ssts info events := by
  intro info hinfo
  rw [replaceL0_l1, (sort_level_perm _).mem_iff] at hinfo
  rcases List.mem_append.mp hinfo with hinfo | hinfo
  · obtain ⟨events, htable⟩ := hl1 info hinfo
    exact ⟨events, (h.level1_lookup hfresh hinfo).trans htable.file, htable.meta_eq, htable.sorted⟩
  · obtain ⟨t, ht, rfl⟩ := List.mem_map.mp hinfo
    exact ⟨t.events, output_tabled h.flushed ht (chunks_sorted hflat)⟩

include h hflat hfresh in
/-- The files hold what level 1 held, and the merge. -/
theorem Filed.replaced_files :
    ((files_to_scan (Kronos.replaceL0 (tablesOf chunks db.sst_seq) db).levels).flatMap
      (fileEvents (Kronos.replaceL0 (tablesOf chunks db.sst_seq) db).disk.ssts)).Perm
        ((db.levels 1).flatMap (fileEvents db.disk.ssts) ++ chunks.flatten) := by
  have hold : ∀ info ∈ db.levels 1,
      fileEvents (Kronos.replaceL0 (tablesOf chunks db.sst_seq) db).disk.ssts info =
        fileEvents db.disk.ssts info := fun info hinfo => by
    rw [fileEvents, h.level1_lookup hfresh hinfo, fileEvents]
  have hnew : ∀ t ∈ tablesOf chunks db.sst_seq,
      fileEvents (Kronos.replaceL0 (tablesOf chunks db.sst_seq) db).disk.ssts (infoOf t) =
        t.events := fun t ht =>
    (output_tabled h.flushed ht (chunks_sorted hflat)).events_eq
  rw [files_to_scan_eq, replaceL0_l0, replaceL0_l1, (h.replaceL0 chunks).deep.1,
    (h.replaceL0 chunks).deep.2, List.append_nil, List.append_nil, List.nil_append]
  refine ((sort_level_perm _).flatMap_right _).trans (.of_eq ?_)
  rw [List.flatMap_append, List.flatMap_congr hold, List.flatMap_map, List.flatMap_congr hnew,
    tablesOf_events]

end

end Kronos
