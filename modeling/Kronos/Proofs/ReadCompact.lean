import Kronos.Proofs.ReadInvariant

/-!
# Compacting keeps what a query sees

The merge of level 0 holds, of every key, the version from the file with the
largest number. An older version than another is a tombstone, so apart from
tombstones the merge holds what level 0 held (`merge_live`). The outputs go to
level 1 under new paths, provided their numbers are not those of listed files:
a compaction takes one number and counts on from it for every further output.
-/

namespace Kronos

open Spec Compaction

/-! ## The merge of level 0 -/

theorem pairwise_mem_cases {α : Type*} {R : α → α → Prop} {l : List α} (h : l.Pairwise R)
    {a b : α} (ha : a ∈ l) (hb : b ∈ l) : a = b ∨ R a b ∨ R b a := by
  induction l with
  | nil => cases ha
  | cons x xs ih =>
      obtain ⟨hx, hxs⟩ := List.pairwise_cons.mp h
      rcases List.mem_cons.mp ha with hax | ha' <;> rcases List.mem_cons.mp hb with hbx | hb'
      · exact .inl (hax.trans hbx.symm)
      · exact .inr (.inl (hax ▸ hx b hb'))
      · exact .inr (.inr (hbx ▸ hx a ha'))
      · exact ih hxs ha' hb'

section
variable {files : List SSTableInfo} {events : SSTableInfo → List Event}
  (hsorted : ∀ info ∈ files, Keyed.Sorted Event.key (events info))
  (horder : files.Pairwise (·.meta_.sequence < ·.meta_.sequence))

include hsorted horder in
/-- Two versions of a key from one file number are the same. -/
theorem versions_inj : ∀ a ∈ files.flatMap (fun info => versions info (events info)),
    ∀ b ∈ files.flatMap (fun info => versions info (events info)),
      a.e.key = b.e.key → a.sst_seq = b.sst_seq → a = b := by
  intro a ha b hb hkey hseq
  obtain ⟨i, hi, ha⟩ := List.mem_flatMap.mp ha
  obtain ⟨j, hj, hb⟩ := List.mem_flatMap.mp hb
  obtain ⟨e, he, rfl⟩ := List.mem_map.mp ha
  obtain ⟨e', he', rfl⟩ := List.mem_map.mp hb
  simp only at hkey hseq
  have hij : i = j := by
    rcases pairwise_mem_cases horder hi hj with h | h | h
    · exact h
    · exact absurd hseq (Nat.ne_of_lt h)
    · exact absurd hseq (Nat.ne_of_gt h)
  subst hij
  rw [(hsorted i hi).inj he he' hkey]

include hsorted horder in
theorem merge_live (hnewer : (files.map events).Pairwise Superseded) :
    (live (merge 1 (files.flatMap fun info => versions info (events info)))).Perm
      (live (files.flatMap events)) := by
  have hboth := horder.and (List.pairwise_map.mp hnewer)
  have hinj := versions_inj hsorted horder
  have hnodup : (live (files.flatMap events)).Nodup := by
    have hfilter : live (files.flatMap events) = files.flatMap fun i => live (events i) :=
      List.filter_flatMap ..
    rw [hfilter, List.nodup_flatMap]
    refine ⟨fun i hi => ((hsorted i hi).filter _).imp fun hlt heq => ?_, ?_⟩
    · exact absurd (congrArg Event.key heq) (ne_of_lt hlt)
    · refine (List.pairwise_map.mp hnewer).imp fun hsup e he he' => ?_
      exact (mem_live.mp he).2 (hsup e (mem_live.mp he).1 e (mem_live.mp he').1 rfl)
  have hmerged : (live (merge 1 (files.flatMap fun info => versions info (events info)))).Nodup :=
    ((merge_sorted 1 _).filter _).imp fun hlt heq =>
      absurd (congrArg Event.key heq) (ne_of_lt hlt)
  refine (List.perm_ext_iff_of_nodup hmerged hnodup).mpr fun e => ?_
  rw [mem_live, mem_live, merge_low (by decide)]
  refine and_congr_left fun htomb => ?_
  constructor
  · intro he
    obtain ⟨ew, hew, rfl⟩ := List.mem_map.mp he
    obtain ⟨i, hi, hew⟩ := List.mem_flatMap.mp (NewestWins.mem_of_mem_merge hew)
    obtain ⟨e, hmem, rfl⟩ := List.mem_map.mp hew
    exact List.mem_flatMap.mpr ⟨i, hi, hmem⟩
  · intro he
    obtain ⟨i, hi, he⟩ := List.mem_flatMap.mp he
    refine List.mem_map.mpr ⟨⟨e, i.meta_.sequence⟩, (NewestWins.mem_merge_iff hinj).mpr
      ⟨List.mem_flatMap.mpr ⟨i, hi, List.mem_map.mpr ⟨e, he, rfl⟩⟩, ?_⟩, rfl⟩
    -- a newer version of the key would make this one a tombstone
    intro y hy hkey
    obtain ⟨j, hj, hy⟩ := List.mem_flatMap.mp hy
    obtain ⟨e', he', rfl⟩ := List.mem_map.mp hy
    simp only at hkey ⊢
    rcases pairwise_mem_cases hboth hi hj with h | h | h
    · rw [h]
    · exact absurd (h.2 e he e' he' hkey.symm) htomb
    · exact h.1.le

end

theorem replaceL0_refines {t : Tracked} (h : Refines t) {chunks : List (List Event)}
    (hflat : chunks.flatten = merge 1 ((t.db.levels 0).flatMap fun info =>
      versions info (fileEvents t.db.disk.ssts info)))
    (hfresh : ∀ i < chunks.length, ∀ info ∈ t.db.levels 1,
      info.path ≠ ⟨1, .compacted 1 (t.db.sst_seq + i)⟩) :
    Refines { t with db := replaceL0 (tablesOf chunks t.db.sst_seq) t.db } := by
  have hflushed : ∀ f ∈ t.db.levels 0, f.path.dir = 0 := fun f hf => by
    rw [(h.filed.l0 f hf).2.1]
    rfl
  have hsorted : ∀ c ∈ chunks, Keyed.Sorted Event.key c := fun c hc => by
    have hall := merge_sorted 1 ((t.db.levels 0).flatMap fun info =>
      versions info (fileEvents t.db.disk.ssts info))
    rw [← hflat] at hall
    exact hall.sublist (List.sublist_flatten_of_mem hc)
  have hfiled := h.filed.replaceL0 chunks
  have hl0 := replaceL0_l0 (tablesOf chunks t.db.sst_seq) t.db
  have hl1 := replaceL0_l1 (tablesOf chunks t.db.sst_seq) t.db
  have hold : ∀ info ∈ t.db.levels 1,
      (replaceL0 (tablesOf chunks t.db.sst_seq) t.db).disk.ssts.lookup info.path =
        t.db.disk.ssts.lookup info.path := fun info hinfo =>
    listed_untouched hflushed (by rw [h.filed.l1_paths info hinfo]) fun i hi =>
      hfresh i hi info hinfo
  have holdEvents : ∀ info ∈ t.db.levels 1,
      fileEvents (replaceL0 (tablesOf chunks t.db.sst_seq) t.db).disk.ssts info =
        fileEvents t.db.disk.ssts info := fun info hinfo => by
    rw [fileEvents, hold info hinfo, fileEvents]
  have hnew : ∀ u ∈ tablesOf chunks t.db.sst_seq,
      Tabled (replaceL0 (tablesOf chunks t.db.sst_seq) t.db).disk.ssts (infoOf u) u.events :=
    fun u hu => output_tabled hflushed hu hsorted
  refine ⟨hfiled, h.opened, h.wal, ?_, ?_, h.named, ?_⟩
  · intro info hinfo
    rw [hl1, (sort_level_perm _).mem_iff] at hinfo
    rcases List.mem_append.mp hinfo with hinfo | hinfo
    · have htab := h.l1 info hinfo
      rw [holdEvents info hinfo]
      exact ⟨by rw [hold info hinfo, htab.file], htab.meta_eq, htab.sorted⟩
    · obtain ⟨u, hu, rfl⟩ := List.mem_map.mp hinfo
      rw [(hnew u hu).events_eq]
      exact hnew u hu
  · refine h.newer.sublist ?_
    rw [uppers, hl0, List.map_nil, List.nil_append, uppers, List.append_assoc]
    exact List.sublist_append_right _ _
  · have houts : ((tablesOf chunks t.db.sst_seq).map infoOf).flatMap
        (fileEvents (replaceL0 (tablesOf chunks t.db.sst_seq) t.db).disk.ssts) =
          chunks.flatten := by
      rw [List.flatMap_map, List.flatMap_congr fun u hu => (hnew u hu).events_eq,
        tablesOf_events]
    have hfiles : ((files_to_scan (replaceL0 (tablesOf chunks t.db.sst_seq) t.db).levels).flatMap
        (fileEvents (replaceL0 (tablesOf chunks t.db.sst_seq) t.db).disk.ssts)).Perm
        ((t.db.levels 1).flatMap (fileEvents t.db.disk.ssts) ++ chunks.flatten) := by
      rw [files_to_scan_eq, hl0, hl1, hfiled.deep.1, hfiled.deep.2, List.append_nil,
        List.append_nil, List.nil_append, ← houts, ← List.flatMap_congr holdEvents,
        ← List.flatMap_append]
      exact (sort_level_perm _).flatMap_right _
    have hmerge := merge_live (fun info hinfo => (h.filed.l0 info hinfo).1.sorted)
      h.filed.l0_order (List.pairwise_append.mp (List.pairwise_append.mp h.newer).1).1
    refine List.Perm.trans ?_ h.rows
    rw [visible, visible, buriedEvents, buriedEvents, files_to_scan_eq t.db.levels,
      h.filed.deep.1, h.filed.deep.2, List.append_nil, List.append_nil, List.flatMap_append]
    simp only [live_append]
    refine List.Perm.append_left _ (List.Perm.append_left _ ?_)
    refine (live_perm hfiles).trans ?_
    rw [live_append, hflat]
    exact List.perm_append_comm.trans (hmerge.append_right _)

/-- A compaction keeps what queries see unless it numbers an output like a
listed file. -/
theorem compact_refines {t : Tracked} (h : Refines t)
    (hfresh : ∀ i < outputCount t.db, ∀ info ∈ t.db.levels 1,
      info.path ≠ ⟨1, .compacted 1 (t.db.sst_seq + i)⟩) :
    ∃ db, t.db.compact_now = .ok () db ∧ Refines { t with db } := by
  rcases h.filed.compact_cases with ⟨-, heq⟩ | ⟨chunks, -, -, hflat, -, hlen, -, heq⟩
  · exact ⟨_, heq, h⟩
  · rw [← hlen] at hfresh
    exact ⟨_, heq, replaceL0_refines h hflat hfresh⟩

end Kronos
