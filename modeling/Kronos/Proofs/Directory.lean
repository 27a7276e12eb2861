import Kronos.Proofs.Levels
import Kronos.Spec.CutShort

/-!
# What lies in the level directories

Opening a directory lists every file of it that a reader can be constructed on,
so what the finished files of the directory hold is what the database then holds
in its files. Every write and every removal of a file changes it by the contents
of that file.
-/

namespace Kronos

open Spec

/-- The events of the finished files in the directories of the levels. -/
def tableEvents (ssts : SSTableDir) : List Event :=
  (ssts.keys.filter (·.dir < kMaxLevels)).flatMap (pathEvents ssts)

theorem fileEvents_eq (ssts : SSTableDir) (info : SSTableInfo) :
    fileEvents ssts info = pathEvents ssts info.path := rfl

theorem pathEvents_insert_ne {ssts : SSTableDir} {path other : SSTablePath} (h : other ≠ path)
    (file : SSTableFile) : pathEvents (ssts.insert path file) other = pathEvents ssts other := by
  rw [pathEvents, AList.lookup_insert_ne h, pathEvents]

theorem pathEvents_erase_ne {ssts : SSTableDir} {path other : SSTablePath} (h : other ≠ path) :
    pathEvents (ssts.erase path) other = pathEvents ssts other := by
  rw [pathEvents, AList.lookup_erase_ne h, pathEvents]

theorem pathEvents_finished {ssts : SSTableDir} {path : SSTablePath} {t : SSTable}
    (h : ssts.lookup path = some (.finished t)) : pathEvents ssts path = t.events := by
  rw [pathEvents, h]

theorem pathEvents_absent {ssts : SSTableDir} {path : SSTablePath} (h : path ∉ ssts.keys) :
    pathEvents ssts path = [] := by
  have hnone : ssts.lookup path = none := AList.lookup_eq_none.mpr h
  rw [pathEvents, hnone]

/-! ## One file more or less -/

section
variable {ssts : SSTableDir} {path : SSTablePath}

/-- The other files. -/
def otherEvents (ssts : SSTableDir) (path : SSTablePath) : List Event :=
  ((ssts.keys.erase path).filter (·.dir < kMaxLevels)).flatMap (pathEvents ssts)

theorem otherEvents_congr {ssts' : SSTableDir}
    (hkeys : ssts'.keys.erase path = ssts.keys.erase path)
    (h : ∀ other, other ≠ path → pathEvents ssts' other = pathEvents ssts other) :
    otherEvents ssts' path = otherEvents ssts path := by
  rw [otherEvents, hkeys, otherEvents]
  refine List.flatMap_congr fun other hother => h other fun heq => ?_
  have hmem := (List.mem_filter.mp hother).1
  rw [heq, ssts.keys_nodup.mem_erase_iff] at hmem
  exact hmem.1 rfl

variable (ssts) in
theorem tableEvents_split (hdir : path.dir < kMaxLevels) :
    (tableEvents ssts).Perm (pathEvents ssts path ++ otherEvents ssts path) := by
  by_cases hmem : path ∈ ssts.keys
  · have hperm := ((List.perm_cons_erase hmem).filter (·.dir < kMaxLevels)).flatMap_right
      (pathEvents ssts)
    rw [List.filter_cons_of_pos (by exact decide_eq_true hdir), List.flatMap_cons] at hperm
    exact hperm
  · rw [pathEvents_absent hmem, otherEvents, List.erase_of_not_mem hmem]
    exact .refl _

variable (ssts) in
theorem tableEvents_insert (hdir : path.dir < kMaxLevels) (file : SSTableFile) :
    (tableEvents (ssts.insert path file)).Perm
      (pathEvents (ssts.insert path file) path ++ otherEvents ssts path) := by
  have hsame : otherEvents (ssts.insert path file) path = otherEvents ssts path := by
    refine otherEvents_congr ?_ fun other hne => pathEvents_insert_ne hne file
    rw [AList.keys_insert, List.erase_cons_head]
  rw [← hsame]
  exact tableEvents_split _ hdir

theorem tableEvents_erase (ssts : SSTableDir) (path : SSTablePath) :
    tableEvents (ssts.erase path) = otherEvents ssts path := by
  rw [tableEvents, AList.keys_erase, otherEvents]
  refine List.flatMap_congr fun other hother => pathEvents_erase_ne fun heq => ?_
  have hmem := (List.mem_filter.mp hother).1
  rw [heq, ssts.keys_nodup.mem_erase_iff] at hmem
  exact hmem.1 rfl

end

/-! ## Loading -/

theorem load_level_events (ssts : SSTableDir) (listing : List SSTablePath) (l : Nat) :
    (DB.load_level ssts listing l).flatMap (fileEvents ssts) =
      (listing.filter (·.dir = l)).flatMap (pathEvents ssts) := by
  rw [DB.load_level]
  induction listing.filter (·.dir = l) with
  | nil => rfl
  | cons path paths ih =>
      rw [List.filterMap_cons, List.flatMap_cons, ← ih]
      cases hlook : ssts.lookup path with
      | none => simp [pathEvents, hlook]
      | some file =>
          cases file with
          | finished t => simp [SSTableFile.read_meta, fileEvents_eq]
          | torn t =>
              cases hmeta : t.meta_ <;>
                simp [SSTableFile.read_meta, hmeta, fileEvents_eq, pathEvents, hlook]

theorem filter_dirs (paths : List SSTablePath) :
    (paths.filter (·.dir = 0) ++ (paths.filter (·.dir = 1) ++
      (paths.filter (·.dir = 2) ++ paths.filter (·.dir = 3)))).Perm
        (paths.filter (·.dir < kMaxLevels)) := by
  refine List.perm_iff_count.mpr fun path => ?_
  have hcount : ∀ p : SSTablePath → Bool,
      (paths.filter p).count path = if p path then paths.count path else 0 := fun p => by
    split
    · next hp => exact List.count_filter hp
    · next hp => exact List.count_eq_zero.mpr fun hmem => hp (List.mem_filter.mp hmem).2
  simp only [List.count_append, hcount, decide_eq_true_eq, kMaxLevels]
  split_ifs <;> omega

/-- What a database that loads a directory has in its files is what lies there. -/
theorem loaded_events {ssts : SSTableDir} {listing : List SSTablePath}
    (hlisting : listing.Perm ssts.keys) {levels : Levels}
    (h : ∀ l : Fin kMaxLevels, (levels l).Perm (DB.load_level ssts listing l)) :
    ((files_to_scan levels).flatMap (fileEvents ssts)).Perm (tableEvents ssts) := by
  have hlevel : ∀ l : Fin kMaxLevels, ((levels l).flatMap (fileEvents ssts)).Perm
      ((listing.filter (·.dir = l.val)).flatMap (pathEvents ssts)) := fun l => by
    rw [← load_level_events]
    exact (h l).flatMap_right _
  rw [files_to_scan_eq]
  simp only [List.flatMap_append]
  refine ((hlevel 0).append ((hlevel 1).append ((hlevel 2).append (hlevel 3)))).trans ?_
  simp only [← List.flatMap_append]
  exact ((filter_dirs listing).trans (hlisting.filter _)).flatMap_right _

end Kronos
