import Kronos.Proofs.Levels
import Kronos.Proofs.WalAppend
import Kronos.Spec.ReadMap

/-!
# Why a query sees every key once

A query concatenates its sources and compares nothing, so it shows a key once
only if the sources hold no two versions of it that are not tombstones. The
invariant is that the versions in all sources together, tombstones aside, are
up to order the reference map's.

What keeps it: a write replaces the version in the active memtable, so it does
what the reference does as long as no other source holds one (`Buried` is the
case in which one does). Rotating and flushing move a source and change no
version. Compacting keeps, of every key in level 0, the version from the file
with the largest number, which is the newest; an older version than another in
a newer source is a tombstone (`newer`), so none that counts is dropped.
-/

namespace Kronos

open Spec

/-- Tombstones left out. -/
def live (l : List Event) : List Event := l.filter (·.event_type ≠ .Tombstone)

theorem live_append (a b : List Event) : live (a ++ b) = live a ++ live b := List.filter_append ..

theorem live_perm {a b : List Event} (h : a.Perm b) : (live a).Perm (live b) := h.filter _

theorem live_sublist {a b : List Event} (h : a.Sublist b) : (live a).Sublist (live b) := h.filter _

theorem mem_live {l : List Event} {e : Event} :
    e ∈ live l ↔ e ∈ l ∧ e.event_type ≠ .Tombstone := by
  rw [live, List.mem_filter, decide_eq_true_eq]

theorem count_live {l : List Event} {e : Event} (h : e.event_type ≠ .Tombstone) :
    (live l).count e = l.count e := List.count_filter (decide_eq_true h)

/-! ## The sources -/

/-- The sources of a query other than the active memtable. -/
def buriedEvents (db : DB) : List Event :=
  db.imm_mems.flatMap MemTable.nodes ++
    (files_to_scan db.levels).flatMap (fileEvents db.disk.ssts)

/-- A version of the key that is no tombstone lies outside the active memtable. -/
def Buried (db : DB) (key : Key) : Prop :=
  ∃ e ∈ live (buriedEvents db), e.key = key

def visible (db : DB) : List Event := db.active_mem.nodes ++ buriedEvents db

def refEvents (m : RefMap) : List Event := m.entries.map Sigma.snd

/-- The sources above level 1, older to newer. -/
def uppers (db : DB) : List (List Event) :=
  (db.levels 0).map (fileEvents db.disk.ssts) ++ db.imm_mems.map MemTable.nodes ++
    [db.active_mem.nodes]

/-- An older version than another is a tombstone. -/
def Superseded (old new : List Event) : Prop :=
  ∀ e ∈ old, ∀ e' ∈ new, e.key = e'.key → e.event_type = .Tombstone

/-- The log, if there is one, takes appends. -/
def WalReady (db : DB) : Prop :=
  ∀ w, db.wal = some w → ∃ log, Serves ⟨⟨db.disk.wal.getD ∅, w⟩, log⟩

/-- The reference map in terms of the ids the symbol table gave out. -/
structure Named (t : SymbolTable) (m : RefMap) : Prop where
  entry : ∀ p ∈ m.entries, t.lookup p.1.symbol = some p.2.symbol_id ∧
    p.1.timestamp_ns = p.2.timestamp_ns ∧ p.1.sequence_id = p.2.sequence_id
  inj : ∀ a b id, t.lookup a = some id → t.lookup b = some id → a = b

structure Refines (t : Tracked) : Prop where
  filed : Filed t.db
  opened : t.db.closed = false
  wal : WalReady t.db
  l1 : ∀ info ∈ t.db.levels 1, Tabled t.db.disk.ssts info (fileEvents t.db.disk.ssts info)
  newer : (uppers t.db).Pairwise Superseded
  named : Named t.db.symbols t.ref
  rows : (live (visible t.db)).Perm (live (refEvents t.ref))

/-! ## Writing a version -/

theorem kerase_eq_filter {l : List (Sigma fun _ : RefKey => Event)} (h : l.NodupKeys)
    (k : RefKey) : l.kerase k = l.filter (·.1 ≠ k) := by
  induction l with
  | nil => rfl
  | cons p l ih =>
      obtain ⟨hp, hl⟩ := List.nodupKeys_cons.mp h
      by_cases hk : k = p.1
      · have hrest : l.filter (·.1 ≠ k) = l := by
          refine List.filter_eq_self.mpr fun q hq => ?_
          rw [decide_eq_true_eq]
          intro hqk
          exact hp (hk ▸ hqk ▸ List.mem_map_of_mem hq)
        rw [List.kerase_cons_eq hk, List.filter_cons_of_neg (by simpa using hk.symm), hrest]
      · rw [List.kerase_cons_ne hk, ih hl,
          List.filter_cons_of_pos (by simpa using fun h => hk h.symm)]

/-- In the reference, a write is its event and the entries under other keys. -/
theorem refEvents_insert {t : SymbolTable} {m : RefMap} (hm : Named t m) {symbol : Bytes}
    {e : Event} (hsym : t.lookup symbol = some e.symbol_id) :
    refEvents (m.insert ⟨symbol, e.timestamp_ns, e.sequence_id⟩ e) =
      e :: (refEvents m).filter (·.key ≠ e.key) := by
  rw [refEvents, AList.entries_insert, List.map_cons, kerase_eq_filter m.nodupKeys, refEvents,
    List.filter_map]
  congr 2
  refine List.filter_congr fun p hp => ?_
  obtain ⟨h1, h2, h3⟩ := hm.entry p hp
  simp only [Function.comp, decide_eq_decide, ne_eq, not_iff_not]
  constructor
  · intro h
    rw [h] at h1 h2 h3
    rw [hsym] at h1
    simp only [Event.key, Key.mk.injEq]
    exact ⟨(Option.some.inj h1).symm, h2.symm, h3.symm⟩
  · intro h
    simp only [Event.key, Key.mk.injEq] at h
    have hsame : p.1.symbol = symbol := hm.inj _ _ _ (h.1 ▸ h1) hsym
    obtain ⟨⟨psym, pts, pseq⟩, pe⟩ := p
    simp only at hsame h2 h3 h ⊢
    rw [hsame, h2, h3, h.2.1, h.2.2]

theorem named_insert {t : SymbolTable} {m : RefMap} (hm : Named t m) {symbol : Bytes}
    {e : Event} (hsym : t.lookup symbol = some e.symbol_id) :
    Named t (m.insert ⟨symbol, e.timestamp_ns, e.sequence_id⟩ e) := by
  refine ⟨fun p hp => ?_, hm.inj⟩
  rw [AList.entries_insert] at hp
  rcases List.mem_cons.mp hp with rfl | hp
  · exact ⟨hsym, rfl, rfl⟩
  · exact hm.entry p ((List.kerase_sublist _ _).subset hp)

theorem retire_visible (db : DB) : (visible (retire db)).Perm (visible db) := by
  have hnew : (MemTable.new db.cfg.memtable_flush_bytes).nodes = [] := rfl
  rw [visible, retire, visible, buriedEvents, buriedEvents]
  simp only [hnew, List.flatMap_append, List.flatMap_cons, List.flatMap_nil, List.append_nil,
    List.nil_append]
  rw [← List.append_assoc db.active_mem.nodes]
  exact List.perm_append_comm.append_right _

theorem retire_refines {t : Tracked} (h : Refines t) (hne : t.db.active_mem.nodes ≠ []) :
    Refines { t with db := retire t.db } := by
  have hnew : (MemTable.new t.db.cfg.memtable_flush_bytes).nodes = [] := rfl
  refine ⟨h.filed.retire hne, h.opened, h.wal, h.l1, ?_, h.named, ?_⟩
  · have huppers : uppers (retire t.db) = uppers t.db ++ [[]] := by
      simp only [uppers, retire, hnew, List.map_append, List.map_cons, List.map_nil,
        List.append_assoc]
    rw [huppers]
    refine List.pairwise_append.mpr ⟨h.newer, List.pairwise_singleton _ _, ?_⟩
    intro old _ new hnew'
    rw [List.mem_singleton.mp hnew']
    exact fun e _ e' he' => absurd he' List.not_mem_nil
  · exact (live_perm (retire_visible t.db)).trans h.rows

/-- Writing over what lies in the active memtable is what the reference does. -/
theorem putActive_refines {t : Tracked} (h : Refines t) {symbol : Bytes} {e : Event}
    (hsym : t.db.symbols.lookup symbol = some e.symbol_id) (hclear : ¬ Buried t.db e.key)
    (height : Fin kMaxHeight) :
    Refines ⟨putActive e height t.db,
      t.ref.insert ⟨symbol, e.timestamp_ns, e.sequence_id⟩ e⟩ := by
  have hput := Keyed.upsert_perm e (h.filed.mems _ List.mem_cons_self)
  refine ⟨h.filed.putActive e height, h.opened, h.wal, h.l1, ?_, named_insert h.named hsym, ?_⟩
  · obtain ⟨hold, -, hlast⟩ := List.pairwise_append.mp h.newer
    refine List.pairwise_append.mpr ⟨hold, List.pairwise_singleton _ _, ?_⟩
    intro old hmem new hnew
    rw [List.mem_singleton.mp hnew]
    intro x hx y hy hxy
    rcases Keyed.mem_upsert_sub hy with rfl | hy
    · -- another version of the key just written would be buried
      by_contra htomb
      refine hclear ⟨x, mem_live.mpr ⟨?_, htomb⟩, hxy⟩
      rw [buriedEvents, files_to_scan_eq, List.flatMap_append]
      rcases List.mem_append.mp hmem with hmem | hmem
      · obtain ⟨info, hinfo, rfl⟩ := List.mem_map.mp hmem
        exact List.mem_append_right _ (List.mem_append_left _
          (List.mem_flatMap.mpr ⟨info, hinfo, hx⟩))
      · obtain ⟨m, hm, rfl⟩ := List.mem_map.mp hmem
        exact List.mem_append_left _ (List.mem_flatMap.mpr ⟨m, hm, hx⟩)
    · exact hlast old hmem _ (List.mem_singleton.mpr rfl) x hx y hy hxy
  · have hburied : (live (buriedEvents t.db)).filter (·.key ≠ e.key) =
        live (buriedEvents t.db) :=
      List.filter_eq_self.mpr fun x hx => by
        rw [decide_eq_true_eq]
        exact fun hxe => hclear ⟨x, hx, hxe⟩
    have hcomm : ∀ l : List Event, live (l.filter (·.key ≠ e.key)) =
        (live l).filter (·.key ≠ e.key) := fun l => List.filter_comm _ _ l
    have hleft : (live (visible (putActive e height t.db))).Perm
        (live [e] ++ (live (visible t.db)).filter (·.key ≠ e.key)) := by
      rw [visible, live_append, visible, live_append, List.filter_append, hburied,
        ← List.append_assoc]
      refine List.Perm.append ?_ (List.Perm.refl _)
      rw [← hcomm, ← live_append]
      exact live_perm hput
    have hright : live (refEvents (t.ref.insert ⟨symbol, e.timestamp_ns, e.sequence_id⟩ e)) =
        live [e] ++ (live (refEvents t.ref)).filter (·.key ≠ e.key) := by
      rw [refEvents_insert h.named hsym, ← hcomm, ← live_append, List.singleton_append]
    rw [hright]
    exact hleft.trans (List.Perm.append (List.Perm.refl _) (h.rows.filter _))

theorem mem_insert_refines {t : Tracked} (h : Refines t) {symbol : Bytes} {e : Event}
    (hsym : t.db.symbols.lookup symbol = some e.symbol_id) (hclear : ¬ Buried t.db e.key)
    (height : Fin kMaxHeight) :
    Refines ⟨t.db.mem_insert e height,
      t.ref.insert ⟨symbol, e.timestamp_ns, e.sequence_id⟩ e⟩ := by
  have hput := putActive_refines h hsym hclear height
  rw [mem_insert_eq]
  split
  · exact retire_refines hput (Keyed.upsert_ne_nil _ _)
  · exact hput

/-! ## Flushing -/

theorem rotate_refines {t : Tracked} (h : Refines t) : Refines { t with db := t.db.rotate } := by
  rcases rotate_cases t.db with hr | ⟨hne, hr⟩ <;> rw [hr]
  · exact h
  · exact retire_refines h hne

theorem publish_refines {t : Tracked} (h : Refines t) {mem : MemTable} {rest : List MemTable}
    (himm : t.db.imm_mems = mem :: rest) : Refines { t with db := publish mem rest t.db } := by
  have hfiled := h.filed.publish himm
  have hl0 := publish_l0 mem rest t.db
  have hl1 : (publish mem rest t.db).levels 1 = t.db.levels 1 :=
    publish_above mem rest t.db (by decide)
  have hnew := (h.filed.publish_tabled himm).events_eq
  have hkeep0 : ∀ info ∈ t.db.levels 0,
      fileEvents (publish mem rest t.db).disk.ssts info = fileEvents t.db.disk.ssts info :=
    fun info hinfo => h.filed.publish_keeps (h.filed.mem_files.mpr (.inl hinfo))
  have hkeep1 : ∀ info ∈ t.db.levels 1,
      fileEvents (publish mem rest t.db).disk.ssts info = fileEvents t.db.disk.ssts info :=
    fun info hinfo => h.filed.publish_keeps (h.filed.mem_files.mpr (.inr hinfo))
  refine ⟨hfiled, h.opened, h.wal, ?_, ?_, h.named, ?_⟩
  · intro info hinfo
    rw [hl1] at hinfo
    rw [hkeep1 info hinfo]
    exact (h.l1 info hinfo).insert_ne
      (h.filed.flush_path_fresh (h.filed.mem_files.mpr (.inr hinfo))) _
  · have huppers : uppers (publish mem rest t.db) = uppers t.db := by
      rw [uppers, hl0, List.map_append, List.map_congr_left hkeep0, List.map_cons, List.map_nil,
        hnew, uppers, himm]
      simp only [publish, List.map_cons, List.append_assoc, List.singleton_append]
    rw [huppers]
    exact h.newer
  · refine (live_perm ?_).trans h.rows
    rw [visible, buriedEvents, files_to_scan_eq, hl0, hl1, hfiled.deep.1, hfiled.deep.2, visible,
      buriedEvents, files_to_scan_eq, h.filed.deep.1, h.filed.deep.2, himm]
    simp only [List.append_nil, List.flatMap_append, List.flatMap_cons, List.flatMap_nil, hnew,
      List.append_assoc]
    rw [List.flatMap_congr hkeep0, List.flatMap_congr hkeep1]
    refine List.Perm.append_left _ ?_
    -- the memtable's events move behind the older ones
    simp only [publish]
    exact ((List.perm_append_comm_assoc _ _ _).append_left _).trans
      (List.perm_append_comm_assoc _ _ _)

theorem flush_front_refines {t : Tracked} (h : Refines t) :
    Refines { t with db := t.db.flush_front } := by
  rcases flush_front_cases h.filed.full with ⟨-, heq⟩ | ⟨mem, rest, himm, -, heq⟩ <;> rw [heq]
  · exact h
  · exact publish_refines h himm

theorem drain_refines {t : Tracked} (h : Refines t) : Refines { t with db := t.db.drain } := by
  rw [DB.drain]
  generalize t.db.imm_mems.length = n
  induction n generalizing t with
  | zero => exact h
  | succ n ih =>
      rw [Function.iterate_succ_apply]
      exact ih (flush_front_refines h)

theorem flush_now_refines {t : Tracked} (h : Refines t) :
    Refines { t with db := t.db.flush_now } :=
  drain_refines (rotate_refines h)

end Kronos
