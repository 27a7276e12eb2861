import Mathlib.Algebra.BigOperators.Group.List.Basic
import Kronos.Proofs.CompactHandOff
import Kronos.Proofs.Handing
import Kronos.Spec.OneCopy

/-!
# Compactions beside each other

As long as one compaction is between its snapshot and its switch, the other has
to wait: both would merge the same files, and list what they made of them, or
find them gone. With one compaction at a time and no table written over a listed
one, every version has one place. It is in a memtable, in the hands of a
flushing thread, in a listed file, or, once the compaction has begun to remove
its inputs, in one of its outputs (`holding`). `Steady` says so of a state; every
step of every thread keeps it.
-/

namespace Kronos.Spec.OneCopy

open Kronos Compaction

/-- What was stored when the threads started and what was appended since has no
two events of one key. -/
def Once (start : DB) (n : OneCopy) : Prop :=
  ((inMemtables start ++ inFiles start ++ ackedEvents n.state.threads).map Event.key).Nodup

instance (start : DB) (n : OneCopy) : Decidable (Once start n) := by unfold Once; infer_instance

/-- Neither compaction threw; and with both over, or not begun, the listed files
hold what they held at the start and what was flushed. -/
def Kept (start : DB) (n : OneCopy) : Prop :=
  (∀ side err, n.compactor side ≠ .failed err) ∧
    ((∀ side, inputs (n.compactor side) = []) → (inFiles n.db).Perm (inFiles start ++ n.flushed))

/-! ## What a compaction has in hand -/

/-- The files that no longer count, as their contents are in the outputs. -/
def dropped : Compactor → List SSTableInfo
  | .removing l0_files _ _ => l0_files
  | _ => []

def added : Compactor → List SSTable
  | .removing _ outputs _ => outputs
  | _ => []

/-- The listed files that count. -/
def remaining (db : DB) (c : Compactor) : List SSTableInfo :=
  (db.levels 0).filter (fun info => (dropped c).all fun f => f.path ≠ info.path) ++
    (db.levels 1 ++ (db.levels 2 ++ db.levels 3))

def holding (db : DB) (c : Compactor) : List Event :=
  (remaining db c).flatMap (fileEvents db.disk.ssts) ++ (added c).flatMap SSTable.events

theorem remaining_eq {c : Compactor} (h : dropped c = []) (db : DB) :
    remaining db c = files_to_scan db.levels := by
  rw [remaining, h, files_to_scan_eq]
  simp

theorem holding_eq {c : Compactor} (h : dropped c = []) (h' : added c = []) (db : DB) :
    holding db c = inFiles db := by
  rw [holding, remaining_eq h, h', inFiles, List.flatMap_nil, List.append_nil]

theorem mem_remaining {db : DB} {c : Compactor} {info : SSTableInfo} (h : info ∈ remaining db c) :
    info ∈ files_to_scan db.levels := by
  rw [files_to_scan_eq]
  rw [remaining, List.mem_append] at h
  exact List.mem_append.mpr (h.imp_left List.mem_of_mem_filter)

theorem mem_files_l0 {db : DB} {info : SSTableInfo} (h : info ∈ db.levels 0) :
    info ∈ files_to_scan db.levels := by
  rw [files_to_scan_eq]
  exact List.mem_append_left _ h

/-- The inputs are the front of level 0, and nothing behind them has a path of
theirs. -/
structure Taken (levels : Levels) (l0_files : List SSTableInfo) : Prop where
  ne_nil : l0_files ≠ []
  front : ∃ later, levels 0 = l0_files ++ later ∧
    ∀ info ∈ later, ∀ f ∈ l0_files, f.path ≠ info.path

/-- The outputs are on disk, and nothing that is listed has a path of theirs. -/
def Standing (db : DB) (outputs : List SSTable) : Prop :=
  ∀ u ∈ outputs, db.disk.ssts.lookup (output_path 1 u) = some (.finished u) ∧
    ∀ info ∈ files_to_scan db.levels, info.path ≠ output_path 1 u

/-- The outputs, written or not, hold what the inputs hold. -/
structure Merged (db : DB) (l0_files : List SSTableInfo) (outputs : List SSTable) : Prop where
  events : (outputs.flatMap SSTable.events).Perm (l0_files.flatMap (fileEvents db.disk.ssts))
  apart : outputs.Pairwise fun u u' => output_path 1 u ≠ output_path 1 u'
  count : outputs.length ≤ (l0_files.flatMap (fileEvents db.disk.ssts)).length

/-- What is true of a compaction, wherever it is. -/
def Working (db : DB) : Compactor → Prop
  | .snapshotted l0_files => Taken db.levels l0_files
  | .numbered l0_files _ => Taken db.levels l0_files
  | .writing l0_files outputs left => Taken db.levels l0_files ∧ Merged db l0_files outputs ∧
      ∃ made, outputs = made ++ left ∧ Standing db made
  | .removing l0_files outputs left => Taken db.levels l0_files ∧ Standing db outputs ∧
      ∀ f ∈ left, f ∈ l0_files
  | .failed _ => False
  | _ => True

/-- A bound on the steps a compaction under way still has to take. -/
def toDo (db : DB) : Compactor → Nat
  | .snapshotted l0_files =>
      (l0_files.flatMap (fileEvents db.disk.ssts)).length + l0_files.length + 4
  | .numbered l0_files _ =>
      (l0_files.flatMap (fileEvents db.disk.ssts)).length + l0_files.length + 3
  | .writing l0_files _ left => left.length + l0_files.length + 2
  | .removing _ _ left => left.length + 1
  | _ => 0

/-- What is true of a flushing thread; a file it has written is its own. -/
def Handed (db : DB) (wrote : SSTablePath → List Event) : Flusher → Prop
  | .popped _ => True
  | .numbered _ seq => seq < db.sst_seq
  | .written info => info.meta_.sequence < db.sst_seq ∧
      info.path = DB.flush_path info.meta_.sequence ∧
      (∃ u, db.disk.ssts.lookup info.path = some (.finished u) ∧ wrote info.path = u.events) ∧
      ∀ i ∈ db.levels 0, i.path ≠ info.path

/-- What holds between any two steps, `c` being the compaction under way. -/
structure Steady (start : DB) (t : Threads) (wrote : SSTablePath → List Event)
    (flushed : List Event) (c : Compactor) : Prop where
  sorted : ∀ m ∈ t.db.active_mem :: t.db.imm_mems, Keyed.Sorted Event.key m.nodes
  dirs : ∀ l : Fin kMaxLevels, ∀ info ∈ t.db.levels l, info.path.dir = l
  handed : ∀ f ∈ t.flushers, Handed t.db wrote f
  numbers : (t.flushers.filterMap Flusher.number).Nodup
  there : ∀ info ∈ remaining t.db c, ∃ u, t.db.disk.ssts.lookup info.path = some (.finished u)
  work : Working t.db c
  total : (inMemtables t.db ++ inFlight t ++ holding t.db c).Perm
    (inMemtables start ++ inFiles start ++ ackedEvents t)
  held : (holding t.db c).Perm (inFiles start ++ flushed)

/-! ## Steps in memory -/

/-- The files are as they were, and those of the flushing threads. -/
theorem Steady.memory {start : DB} {t s : Threads} {wrote : SSTablePath → List Event}
    {flushed : List Event} {c : Compactor} (h : Steady start t wrote flushed c)
    (hlevels : s.db.levels = t.db.levels) (hssts : s.db.disk.ssts = t.db.disk.ssts)
    (hseq : t.db.sst_seq ≤ s.db.sst_seq)
    (hsorted : ∀ m ∈ s.db.active_mem :: s.db.imm_mems, Keyed.Sorted Event.key m.nodes)
    (hflushers : ∀ f ∈ s.flushers, f ∈ t.flushers ∨ Handed s.db wrote f)
    (hnumbers : (s.flushers.filterMap Flusher.number).Nodup)
    (htotal : (inMemtables s.db ++ inFlight s ++ holding t.db c).Perm
      (inMemtables start ++ inFiles start ++ ackedEvents s)) :
    Steady start s wrote flushed c ∧ toDo s.db c = toDo t.db c := by
  have hremaining : remaining s.db c = remaining t.db c := by rw [remaining, hlevels, remaining]
  have hholding : holding s.db c = holding t.db c := by
    rw [holding, hremaining, hssts, holding]
  have htaken : ∀ fs, Taken t.db.levels fs → Taken s.db.levels fs := fun fs ht => hlevels ▸ ht
  have hstanding : ∀ us, Standing t.db us → Standing s.db us := fun us hs => by
    rw [Standing, hlevels, hssts]
    exact hs
  refine ⟨⟨hsorted, ?_, fun f hf => ?_, hnumbers, ?_, ?_, ?_, ?_⟩, ?_⟩
  · rw [hlevels]; exact h.dirs
  · rcases hflushers f hf with hf | hf
    · have hhanded := h.handed f hf
      cases f with
      | popped mem => trivial
      | numbered mem seq => exact hhanded.trans_le hseq
      | written info =>
          rw [Handed, hssts, hlevels]
          exact ⟨hhanded.1.trans_le hseq, hhanded.2⟩
    · exact hf
  · rw [hremaining, hssts]; exact h.there
  · have hwork := h.work
    cases c with
    | snapshotted fs => exact htaken fs hwork
    | numbered fs seq => exact htaken fs hwork
    | writing fs outputs left =>
        obtain ⟨ht, hm, made, hmade, hs⟩ := hwork
        refine ⟨htaken fs ht, ⟨?_, hm.apart, ?_⟩, made, hmade, hstanding made hs⟩
        · rw [hssts]; exact hm.events
        · rw [hssts]; exact hm.count
    | removing fs outputs left => exact ⟨htaken fs hwork.1, hstanding outputs hwork.2.1, hwork.2.2⟩
    | _ => exact hwork
  · rw [hholding]; exact htotal
  · rw [hholding]; exact h.held
  · cases c <;> simp only [toDo, hssts]

section
variable {start : DB} {t : Threads} {wrote : SSTablePath → List Event} {flushed : List Event}
  {c : Compactor} (h : Steady start t wrote flushed c)

include h in
theorem steady_rotate : Steady start { t with db := t.db.rotate } wrote flushed c ∧
    toDo t.db.rotate c = toDo t.db c := by
  obtain ⟨active_mem, imm_mems, hrest⟩ := rotate_rest t.db
  refine h.memory (s := { t with db := t.db.rotate }) ?_ ?_ ?_ ?_ (fun f hf => .inl hf)
    h.numbers ?_
  · simp only [hrest]
  · simp only [hrest]
  · simp only [hrest]
    exact le_refl _
  · rcases rotate_cases t.db with heq | ⟨-, heq⟩ <;> simp only [heq]
    · exact h.sorted
    · exact mems_sorted_retire h.sorted
  · have hflying : inFlight { t with db := t.db.rotate } = inFlight t := by
      rw [inFlight, hrest]
      rfl
    rw [hflying]
    exact (((inMemtables_rotate t.db).append_right _).append_right _).trans h.total

include h in
theorem steady_insert {i : Nat} {height : Fin kMaxHeight} (hkeys : ((inMemtables start ++
      inFiles start ++ ackedEvents (t.insert i height)).map Event.key).Nodup) :
    Steady start (t.insert i height) wrote flushed c ∧
      toDo (t.insert i height).db c = toDo t.db c := by
  rw [Threads.insert] at hkeys ⊢
  split at hkeys
  · exact ⟨h, rfl⟩
  next symbol e hget =>
  obtain ⟨active_mem, imm_mems, hrest⟩ := mem_insert_rest e height t.db
  have hacked : ackedEvents { t with
        db := t.db.mem_insert e height
        appends := t.appends.eraseIdx i
        acked := t.acked ++ [(symbol, e)] } = ackedEvents t ++ [e] := by
    rw [ackedEvents, List.map_append]
    rfl
  rw [hacked, ← List.append_assoc, List.map_append, List.map_singleton] at hkeys
  -- the key is new, so nothing is replaced
  have hnew : ∀ x ∈ t.db.active_mem.nodes, x.key ≠ e.key := fun x hx heq => by
    have hstored : x ∈ inMemtables start ++ inFiles start ++ ackedEvents t :=
      h.total.subset (List.mem_append_left _ (List.mem_append_left _ (List.mem_append_left _ hx)))
    refine (List.disjoint_of_nodup_append hkeys) (List.mem_map_of_mem hstored) ?_
    rw [heq]
    exact List.mem_singleton_self _
  have hperm := inMemtables_insert (h.sorted _ List.mem_cons_self) e height
  rw [List.filter_eq_self.mpr fun x hx => decide_eq_true (hnew x hx)] at hperm
  have hflying : inFlight { t with
        db := t.db.mem_insert e height
        appends := t.appends.eraseIdx i
        acked := t.acked ++ [(symbol, e)] } = inFlight t := by
    rw [inFlight, hrest]
    rfl
  refine h.memory (s := { t with
        db := t.db.mem_insert e height
        appends := t.appends.eraseIdx i
        acked := t.acked ++ [(symbol, e)] }) ?_ ?_ ?_ (mems_sorted_insert h.sorted e height)
    (fun f hf => .inl hf) h.numbers ?_
  · simp only [hrest]
  · simp only [hrest]
  · simp only [hrest]
    exact le_refl _
  · rw [hflying, hacked, ← List.append_assoc]
    refine ((hperm.append_right _).append_right _).trans ?_
    exact (h.total.cons e).trans (List.perm_append_singleton _ _).symm

include h in
theorem steady_pop : Steady start t.pop wrote flushed c ∧ toDo t.pop.db c = toDo t.db c := by
  rw [Threads.pop]
  split
  · exact ⟨h, rfl⟩
  next mem rest himm =>
  refine h.memory (s := { t with
      db.imm_mems := rest
      flushers := t.flushers ++ [.popped mem] }) rfl rfl (le_refl _) (fun m hm => ?_)
    (fun f hf => ?_) ?_ ?_
  · refine h.sorted m ?_
    rw [himm]
    rcases List.mem_cons.mp hm with rfl | hm
    · exact List.mem_cons_self
    · exact List.mem_cons_of_mem _ (List.mem_cons_of_mem _ hm)
  · refine (List.mem_append.mp hf).imp_right fun hf => ?_
    rw [List.mem_singleton.mp hf]
    trivial
  · rw [List.filterMap_append]
    exact (List.append_nil _).symm ▸ h.numbers
  · refine List.Perm.trans (List.Perm.append_right _ ?_) h.total
    rw [inFlight, List.flatMap_append, List.flatMap_singleton, inMemtables, inMemtables, himm,
      List.flatMap_cons]
    simp only [List.append_assoc]
    refine List.Perm.append_left _ ?_
    rw [← List.append_assoc]
    exact List.perm_append_comm

/-! ## Steps of the flushing threads -/

section
variable {i : Nat}

include h in
theorem steady_number {mem : MemTable} (hget : t.flushers[i]? = some (.popped mem)) :
    Steady start (t.flush i) wrote flushed c ∧ toDo (t.flush i).db c = toDo t.db c := by
  obtain ⟨before, behind, hfs, -, hset⟩ := place_of hget
  rw [Threads.flush, hget]
  simp only [hset]
  have hnumbers := h.numbers
  rw [hfs, List.filterMap_append, List.filterMap_cons] at hnumbers
  simp only [Flusher.number] at hnumbers
  have hbelow : ∀ n ∈ before.filterMap Flusher.number ++ behind.filterMap Flusher.number,
      n < t.db.sst_seq := fun n hn => by
    rw [← List.filterMap_append] at hn
    obtain ⟨f, hf, hnum⟩ := List.mem_filterMap.mp hn
    have hhanded := h.handed f (by
      rw [hfs]
      exact List.perm_middle.symm.subset (List.mem_cons_of_mem _ hf))
    cases f <;> cases hnum
    · exact hhanded
    · exact hhanded.1
  refine h.memory (s := { t with
      db.sst_seq := t.db.sst_seq + 1
      flushers := before ++ .numbered mem t.db.sst_seq :: behind }) rfl rfl (Nat.le_succ _) h.sorted
    (fun f hf => ?_) ?_ ?_
  · rcases List.mem_cons.mp (List.perm_middle.subset hf) with rfl | hf
    · exact .inr (Nat.lt_succ_self _)
    · left
      rw [hfs]
      exact List.perm_middle.symm.subset (List.mem_cons_of_mem _ hf)
  · rw [List.filterMap_append, List.filterMap_cons]
    simp only [Flusher.number]
    rw [List.perm_middle.nodup_iff, List.nodup_cons]
    exact ⟨fun hmem => Nat.lt_irrefl _ (hbelow _ hmem), hnumbers⟩
  · refine List.Perm.trans (List.Perm.of_eq ?_) h.total
    rw [inFlight, inFlight, hfs, List.flatMap_append, List.flatMap_append, List.flatMap_cons,
      List.flatMap_cons]
    rfl

include h in
/-- An empty memtable gets no file. -/
theorem steady_skip {mem : MemTable} {seq : Nat} (hget : t.flushers[i]? = some (.numbered mem seq))
    (hempty : mem.empty = true) :
    Steady start (t.flush i) wrote flushed c ∧ toDo (t.flush i).db c = toDo t.db c := by
  obtain ⟨before, behind, hfs, herase, -⟩ := place_of hget
  rw [Threads.flush, hget]
  simp only [herase]
  rw [if_pos hempty]
  rw [MemTable.empty, List.isEmpty_iff] at hempty
  have hsublist : (before ++ behind).Sublist t.flushers := by
    rw [hfs]
    exact (List.Sublist.refl before).append (List.sublist_cons_self _ _)
  refine h.memory (s := { t with flushers := before ++ behind }) rfl rfl (le_refl _) h.sorted
    (fun f hf => .inl (hsublist.subset hf)) (h.numbers.sublist (hsublist.filterMap _)) ?_
  refine List.Perm.trans (List.Perm.of_eq ?_) h.total
  rw [inFlight, inFlight, hfs, List.flatMap_append, List.flatMap_append, List.flatMap_cons,
    Flusher.events, hempty]
  rfl

include h in
/-- A table at a path of level 0 that is not listed takes nothing from a
compaction. -/
theorem Steady.insert_file {path : SSTablePath} (hdir : path.dir = 0)
    (hfree : ∀ info ∈ files_to_scan t.db.levels, info.path ≠ path) (file : SSTableFile) :
    let db := { t.db with disk.ssts := t.db.disk.ssts.insert path file }
    (∀ info ∈ remaining db c, ∃ u, db.disk.ssts.lookup info.path = some (.finished u)) ∧
      Working db c ∧ holding db c = holding t.db c ∧ toDo db c = toDo t.db c := by
  intro db
  have hlookup : ∀ info ∈ files_to_scan t.db.levels,
      db.disk.ssts.lookup info.path = t.db.disk.ssts.lookup info.path := fun info hinfo =>
    AList.lookup_insert_ne (hfree info hinfo)
  have hevents : ∀ info ∈ files_to_scan t.db.levels,
      fileEvents db.disk.ssts info = fileEvents t.db.disk.ssts info := fun info hinfo =>
    fileEvents_insert_ne (hfree info hinfo) file
  have htaken : ∀ fs, Taken t.db.levels fs →
      fs.flatMap (fileEvents db.disk.ssts) = fs.flatMap (fileEvents t.db.disk.ssts) :=
    fun fs ht => List.flatMap_congr fun f hf => by
      obtain ⟨later, hfront, -⟩ := ht.front
      exact hevents f (mem_files_l0 (hfront ▸ List.mem_append_left _ hf))
  have hstanding : ∀ us, Standing t.db us → Standing db us := fun us hs u hu => by
    refine ⟨(AList.lookup_insert_ne fun heq => ?_).trans (hs u hu).1, (hs u hu).2⟩
    rw [← heq] at hdir
    cases hdir
  refine ⟨fun info hinfo => ?_, ?_, ?_, ?_⟩
  · rw [hlookup info (mem_remaining hinfo)]
    exact h.there info hinfo
  · have hwork := h.work
    cases c with
    | writing fs outputs left =>
        obtain ⟨ht, hm, made, hmade, hs⟩ := hwork
        refine ⟨ht, ⟨?_, hm.apart, ?_⟩, made, hmade, hstanding made hs⟩
        · rw [htaken fs ht]; exact hm.events
        · rw [htaken fs ht]; exact hm.count
    | removing fs outputs left => exact ⟨hwork.1, hstanding outputs hwork.2.1, hwork.2.2⟩
    | _ => exact hwork
  · have hsame : remaining db c = remaining t.db c := rfl
    rw [holding, hsame, List.flatMap_congr fun info hinfo => hevents info (mem_remaining hinfo)]
    rfl
  · have hwork := h.work
    cases c with
    | snapshotted fs => simp only [toDo, htaken fs hwork]
    | numbered fs seq => simp only [toDo, htaken fs hwork]
    | _ => rfl

include h in
/-- No two flushing threads have one number. -/
theorem Steady.other {before behind : List Flusher} {f g : Flusher} {n : Nat}
    (hfs : t.flushers = before ++ f :: behind) (hf : f.number = some n)
    (hf' : g ∈ before ++ behind) : Handed t.db wrote g ∧ g.number ≠ some n := by
  have hnumbers := h.numbers
  rw [hfs, List.filterMap_append, List.filterMap_cons, hf] at hnumbers
  constructor
  · refine h.handed g ?_
    rw [hfs]
    exact List.perm_middle.symm.subset (List.mem_cons_of_mem _ hf')
  · intro heq
    refine (List.nodup_cons.mp (List.perm_middle.nodup_iff.mp hnumbers)).1 ?_
    rw [← List.filterMap_append]
    exact List.mem_filterMap.mpr ⟨g, hf', heq⟩

include h in
theorem steady_write {mem : MemTable} {seq : Nat}
    (hget : t.flushers[i]? = some (.numbered mem seq)) (hempty : mem.empty ≠ true)
    (hfree : ∀ info ∈ files_to_scan t.db.levels, info.path ≠ DB.flush_path seq) :
    Steady start (t.flush i) (Function.update wrote (DB.flush_path seq) mem.to_sorted_events)
        flushed c ∧ toDo (t.flush i).db c = toDo t.db c := by
  obtain ⟨before, behind, hfs, -, hset⟩ := place_of hget
  have hseq : seq < t.db.sst_seq := h.handed _ (List.mem_of_getElem? hget)
  have hothers := fun f hf => h.other (g := f) hfs rfl hf
  obtain ⟨hthere, hwork, hholding, htoDo⟩ := h.insert_file
    (show (DB.flush_path seq).dir = 0 from rfl) hfree (.finished (SSTable.write 0 seq mem.nodes))
  have hpath : ∀ info, Handed t.db wrote (.written info) →
      (Flusher.written info).number ≠ some seq → info.path ≠ DB.flush_path seq :=
    fun info hhanded hnum heq => by
      rw [hhanded.2.1] at heq
      exact hnum (congrArg some (flush_path_inj heq))
  have hevents : ∀ f ∈ before ++ behind,
      f.events (t.db.disk.ssts.insert (DB.flush_path seq)
        (.finished (SSTable.write 0 seq mem.nodes))) = f.events t.db.disk.ssts := fun f hf => by
    obtain ⟨hhanded, hnum⟩ := hothers f hf
    cases f with
    | written info => exact fileEvents_insert_ne (hpath info hhanded hnum) _
    | _ => rfl
  have hnumbers := h.numbers
  rw [Threads.flush, hget]
  simp only [if_neg hempty, hset]
  refine ⟨⟨h.sorted, h.dirs, fun f hf => ?_, ?_, hthere, hwork, ?_, ?_⟩, htoDo⟩
  · rcases List.mem_cons.mp (List.perm_middle.subset hf) with rfl | hf
    · refine ⟨hseq, rfl, ⟨_, AList.lookup_insert _, Function.update_self ..⟩, fun i hi => ?_⟩
      exact hfree i (mem_files_l0 hi)
    · obtain ⟨hhanded, hnum⟩ := hothers f hf
      cases f with
      | popped mem => trivial
      | numbered mem seq => exact hhanded
      | written info =>
          have hne := hpath info hhanded hnum
          obtain ⟨u, hlook, hwrote⟩ := hhanded.2.2.1
          exact ⟨hhanded.1, hhanded.2.1, ⟨u, (AList.lookup_insert_ne hne).trans hlook,
            (Function.update_of_ne hne _ _).trans hwrote⟩, hhanded.2.2.2⟩
  · rw [hfs, List.filterMap_append, List.filterMap_cons] at hnumbers
    rw [List.filterMap_append, List.filterMap_cons]
    exact hnumbers
  · refine List.Perm.trans (List.Perm.of_eq ?_) h.total
    refine congr (congrArg HAppend.hAppend (congrArg (inMemtables t.db ++ ·) ?_)) hholding
    rw [inFlight, inFlight, hfs, List.flatMap_append, List.flatMap_append, List.flatMap_cons,
      List.flatMap_cons]
    refine congr (congrArg HAppend.hAppend ?_) (congr (congrArg HAppend.hAppend ?_) ?_)
    · exact List.flatMap_congr fun f hf => hevents f (List.mem_append_left _ hf)
    · exact fileEvents_finished (AList.lookup_insert _)
    · exact List.flatMap_congr fun f hf => hevents f (List.mem_append_right _ hf)
  · exact (List.Perm.of_eq hholding).trans h.held

include h in
theorem steady_list {info : SSTableInfo} (hget : t.flushers[i]? = some (.written info)) :
    Steady start (t.flush i) wrote (flushed ++ wrote info.path) c ∧
      toDo (t.flush i).db c = toDo t.db c := by
  obtain ⟨before, behind, hfs, herase, -⟩ := place_of hget
  obtain ⟨-, hpath, ⟨u, hlook, hwrote⟩, hunlisted⟩ := h.handed _ (List.mem_of_getElem? hget)
  have hothers := fun f hf => h.other (g := f) hfs rfl hf
  have hdir : info.path.dir = 0 := by
    rw [hpath]
    rfl
  have hevents : fileEvents t.db.disk.ssts info = wrote info.path :=
    (fileEvents_finished hlook).trans hwrote.symm
  rw [Threads.flush, hget]
  simp only [herase]
  generalize hdb : ({ t.db with
    levels := Function.update t.db.levels 0 (t.db.levels 0 ++ [info]) } : DB) = db
  have hl0 : db.levels 0 = t.db.levels 0 ++ [info] := by
    rw [← hdb]
    exact Function.update_self (0 : Fin kMaxLevels) (t.db.levels 0 ++ [info]) t.db.levels
  have habove : ∀ l : Fin kMaxLevels, l ≠ 0 → db.levels l = t.db.levels l := fun l hl => by
    rw [← hdb]
    exact Function.update_of_ne hl _ _
  have hssts : db.disk.ssts = t.db.disk.ssts := by rw [← hdb]
  have hfiles : (files_to_scan db.levels).Perm (info :: files_to_scan t.db.levels) := by
    rw [← hdb]
    exact files_to_scan_push t.db.levels info
  have htaken : ∀ fs, Taken t.db.levels fs → Taken db.levels fs := fun fs ht => by
    obtain ⟨later, hfront, hapart⟩ := ht.front
    refine ⟨ht.ne_nil, later ++ [info], ?_, fun j hj f hf => ?_⟩
    · rw [hl0, hfront, List.append_assoc]
    · rcases List.mem_append.mp hj with hj | hj
      · exact hapart j hj f hf
      · rw [List.mem_singleton.mp hj]
        exact hunlisted f (hfront ▸ List.mem_append_left _ hf)
  have hstanding : ∀ us, Standing t.db us → Standing db us := fun us hs v hv => by
    rw [hssts]
    refine ⟨(hs v hv).1, fun j hj heq => ?_⟩
    rcases List.mem_cons.mp (hfiles.subset hj) with rfl | hj
    · rw [heq] at hdir
      cases hdir
    · exact (hs v hv).2 j hj heq
  have hremaining : (remaining db c).Perm (info :: remaining t.db c) := by
    have hcounts : (dropped c).all (fun f => decide (f.path ≠ info.path)) = true := by
      refine List.all_eq_true.mpr fun f hf => decide_eq_true (hunlisted f ?_)
      have hwork := h.work
      cases c with
      | removing fs outputs left =>
          obtain ⟨later, hfront, -⟩ := hwork.1.front
          exact hfront ▸ List.mem_append_left _ hf
      | _ => cases hf
    rw [remaining, remaining, hl0, habove 1 (by decide), habove 2 (by decide),
      habove 3 (by decide), List.filter_append, List.filter_singleton, hcounts, List.append_assoc]
    exact List.perm_middle
  have hholding : (holding db c).Perm (fileEvents t.db.disk.ssts info ++ holding t.db c) := by
    rw [holding, holding, hssts, ← List.append_assoc]
    exact (hremaining.flatMap_right _).append_right _
  refine ⟨⟨?_, fun l j hj => ?_, fun f hf => ?_, ?_, fun j hj => ?_, ?_, ?_, ?_⟩, ?_⟩
  · rw [← hdb]; exact h.sorted
  · by_cases hl : l = 0
    · subst hl
      rw [hl0] at hj
      rcases List.mem_append.mp hj with hj | hj
      · exact h.dirs 0 j hj
      · rw [List.mem_singleton.mp hj]
        exact hdir
    · rw [habove l hl] at hj
      exact h.dirs l j hj
  · obtain ⟨hhanded, hnum⟩ := hothers f hf
    cases f with
    | popped mem => trivial
    | numbered mem seq =>
        rw [← hdb]
        exact hhanded
    | written info' =>
        rw [Handed, hssts, hl0]
        refine ⟨by rw [← hdb]; exact hhanded.1, hhanded.2.1, hhanded.2.2.1, fun j hj => ?_⟩
        rcases List.mem_append.mp hj with hj | hj
        · exact hhanded.2.2.2 j hj
        · rw [List.mem_singleton.mp hj, hpath, hhanded.2.1]
          exact fun heq => hnum (congrArg some (flush_path_inj heq).symm)
  · have hnumbers := h.numbers
    rw [hfs, List.filterMap_append, List.filterMap_cons] at hnumbers
    rw [List.filterMap_append]
    exact (List.nodup_cons.mp (List.perm_middle.nodup_iff.mp hnumbers)).2
  · rw [hssts]
    rcases List.mem_cons.mp (hremaining.subset hj) with rfl | hj
    · exact ⟨u, hlook⟩
    · exact h.there j hj
  · have hwork := h.work
    cases c with
    | snapshotted fs => exact htaken fs hwork
    | numbered fs seq => exact htaken fs hwork
    | writing fs outputs left =>
        obtain ⟨ht, hm, made, hmade, hs⟩ := hwork
        refine ⟨htaken fs ht, ⟨?_, hm.apart, ?_⟩, made, hmade, hstanding made hs⟩
        · rw [hssts]; exact hm.events
        · rw [hssts]; exact hm.count
    | removing fs outputs left => exact ⟨htaken fs hwork.1, hstanding outputs hwork.2.1, hwork.2.2⟩
    | _ => exact hwork
  · refine List.Perm.trans ?_ h.total
    have hmems : inMemtables db = inMemtables t.db := by rw [← hdb]; rfl
    rw [hmems, List.append_assoc, List.append_assoc]
    refine List.Perm.append_left _ ((hholding.append_left _).trans ?_)
    rw [inFlight, inFlight, hfs, hssts, List.flatMap_append, List.flatMap_append,
      List.flatMap_cons, ← List.append_assoc]
    refine List.Perm.append_right _ ?_
    rw [List.append_assoc]
    exact List.Perm.append_left _ List.perm_append_comm
  · refine hholding.trans ?_
    rw [hevents, ← List.append_assoc]
    exact List.perm_append_comm.trans (h.held.append_right _)
  · cases c <;> simp only [toDo, hssts]

end

/-! ## Steps of the compaction -/

/-- The compaction moves on, and with it what it holds; the memtables and the
files of the flushing threads are as they were. -/
theorem Steady.advance {db : DB} {d : Compactor} (h : Steady start t wrote flushed c)
    (hactive : db.active_mem = t.db.active_mem) (himm : db.imm_mems = t.db.imm_mems)
    (hseq : t.db.sst_seq ≤ db.sst_seq) (hl0 : ∀ i ∈ db.levels 0, i ∈ t.db.levels 0)
    (hlook : ∀ info, .written info ∈ t.flushers →
      db.disk.ssts.lookup info.path = t.db.disk.ssts.lookup info.path)
    (hdirs : ∀ l : Fin kMaxLevels, ∀ info ∈ db.levels l, info.path.dir = l)
    (hthere : ∀ info ∈ remaining db d, ∃ u, db.disk.ssts.lookup info.path = some (.finished u))
    (hwork : Working db d) (hholding : (holding db d).Perm (holding t.db c)) :
    Steady start { t with db } wrote flushed d := by
  refine ⟨?_, hdirs, fun f hf => ?_, h.numbers, hthere, hwork, ?_, hholding.trans h.held⟩
  · simp only [hactive, himm]
    exact h.sorted
  · have hhanded := h.handed f hf
    cases f with
    | popped mem => trivial
    | numbered mem seq => exact hhanded.trans_le hseq
    | written info =>
        rw [Handed, hlook info hf]
        exact ⟨hhanded.1.trans_le hseq, hhanded.2.1, hhanded.2.2.1,
          fun i hi => hhanded.2.2.2 i (hl0 i hi)⟩
  · have hmems : inMemtables db = inMemtables t.db := by rw [inMemtables, hactive, himm]; rfl
    have hflying : inFlight { t with db } = inFlight t :=
      List.flatMap_congr fun f hf => by
        cases f with
        | written info => rw [Flusher.events, Flusher.events, fileEvents, hlook info hf]; rfl
        | _ => rfl
    rw [hflying]
    simp only [hmems]
    exact (hholding.append_left _).trans h.total

/-- Without its inputs, level 0 is what was flushed since the snapshot. -/
theorem Taken.filter {levels : Levels} {fs : List SSTableInfo} (h : Taken levels fs) :
    ∃ later, levels 0 = fs ++ later ∧
      (levels 0).filter (fun info => fs.all fun f => f.path ≠ info.path) = later := by
  obtain ⟨later, hfront, hapart⟩ := h.front
  refine ⟨later, hfront, ?_⟩
  rw [hfront, List.filter_append, List.filter_eq_nil_iff.mpr, List.nil_append,
    List.filter_eq_self.mpr]
  · exact fun info hinfo => List.all_eq_true.mpr fun f hf => decide_eq_true (hapart info hinfo f hf)
  · intro info hinfo hall
    exact of_decide_eq_true (List.all_eq_true.mp hall info hinfo) rfl

include h in
/-- The keys of level 0 are distinct, as those of everything are. -/
theorem Steady.keys {fs : List SSTableInfo} (hfs : Taken t.db.levels fs) (hdrop : dropped c = [])
    (hkeys : ((inMemtables start ++ inFiles start ++ ackedEvents t).map Event.key).Nodup) :
    ((fs.flatMap (fileEvents t.db.disk.ssts)).map Event.key).Nodup := by
  obtain ⟨later, hfront, -⟩ := hfs.front
  have hsub : (fs.flatMap (fileEvents t.db.disk.ssts)).Sublist (holding t.db c) := by
    rw [holding, remaining_eq hdrop, files_to_scan_eq, hfront, List.append_assoc,
      List.flatMap_append, List.append_assoc]
    exact List.sublist_append_left _ _
  have hall : ((inMemtables t.db ++ inFlight t ++ holding t.db c).map Event.key).Nodup :=
    (h.total.map Event.key).nodup_iff.mpr hkeys
  exact hall.sublist ((hsub.trans (List.sublist_append_right _ _)).map _)

/-- The paths of the flushing threads are in level 0. -/
theorem Handed.dir {db : DB} {info : SSTableInfo} (hf : Handed db wrote (.written info)) :
    info.path.dir = 0 := by
  rw [hf.2.1]
  rfl

theorem steady_numbered {fs : List SSTableInfo} {seq : Nat}
    (h : Steady start t wrote flushed (.numbered fs seq))
    (hkeys : ((inMemtables start ++ inFiles start ++ ackedEvents t).map Event.key).Nodup) :
    ∃ outputs, Compactor.next t.db (.numbered fs seq) = (t.db, .writing fs outputs outputs) ∧
      Steady start t wrote flushed (.writing fs outputs outputs) ∧
      outputs.length ≤ (fs.flatMap (fileEvents t.db.disk.ssts)).length := by
  have htaken : Taken t.db.levels fs := h.work
  obtain ⟨later, hfront, -⟩ := htaken.front
  have hthere : ∀ f ∈ fs, ∃ u, t.db.disk.ssts.lookup f.path = some (.finished u) := fun f hf => by
    refine h.there f ?_
    rw [remaining_eq rfl]
    exact mem_files_l0 (hfront ▸ List.mem_append_left _ hf)
  obtain ⟨chunks, stats, hflat, hfull, -, hrun⟩ :=
    run_distinct hthere (h.keys htaken rfl hkeys) seq t.db.cfg.sstable_target_bytes
  have hcount : (tablesOf chunks seq).length ≤ (fs.flatMap (fileEvents t.db.disk.ssts)).length := by
    rw [tablesOf, List.length_map, List.length_zipIdx, ← hflat.length_eq, List.length_flatten]
    have hsum := List.length_le_sum_of_one_le (chunks.map List.length) fun i hi => by
      obtain ⟨c, hc, rfl⟩ := List.mem_map.mp hi
      exact List.length_pos_iff.mpr (hfull c hc)
    rwa [List.length_map] at hsum
  refine ⟨tablesOf chunks seq, by simp only [Compactor.next, hrun], ?_, hcount⟩
  have hwork : Working t.db (.writing fs (tablesOf chunks seq) (tablesOf chunks seq)) := by
    refine ⟨htaken, ⟨?_, tablesOf_paths chunks seq, hcount⟩, [], rfl, fun u hu => ?_⟩
    · rw [tablesOf_events]
      exact hflat
    · cases hu
  exact h.advance rfl rfl (le_refl _) (fun _ hi => hi) (fun _ _ => rfl) h.dirs h.there hwork (.refl _)

theorem steady_output {fs : List SSTableInfo} {outputs left : List SSTable} {u : SSTable}
    (h : Steady start t wrote flushed (.writing fs outputs (u :: left)))
    (hfree : ∀ info ∈ files_to_scan t.db.levels, info.path ≠ output_path 1 u) :
    Steady start { t with db := t.db.write_table (output_path 1 u) u } wrote flushed
      (.writing fs outputs left) := by
  obtain ⟨htaken, hmerged, made, hmade, hstanding⟩ := h.work
  have hlookup : ∀ info ∈ files_to_scan t.db.levels,
      (t.db.write_table (output_path 1 u) u).disk.ssts.lookup info.path =
        t.db.disk.ssts.lookup info.path := fun info hinfo =>
    AList.lookup_insert_ne (hfree info hinfo)
  have hevents : ∀ info ∈ files_to_scan t.db.levels,
      fileEvents (t.db.write_table (output_path 1 u) u).disk.ssts info =
        fileEvents t.db.disk.ssts info := fun info hinfo =>
    fileEvents_insert_ne (hfree info hinfo) _
  have hinputs : fs.flatMap (fileEvents (t.db.write_table (output_path 1 u) u).disk.ssts) =
      fs.flatMap (fileEvents t.db.disk.ssts) := List.flatMap_congr fun f hf => by
    obtain ⟨later, hfront, -⟩ := htaken.front
    exact hevents f (mem_files_l0 (hfront ▸ List.mem_append_left _ hf))
  refine h.advance rfl rfl (le_refl _) (fun _ hi => hi) (fun info hinfo => ?_) h.dirs
    (fun info hinfo => ?_) ⟨htaken, ⟨?_, hmerged.apart, ?_⟩, made ++ [u], ?_, fun v hv => ?_⟩ ?_
  · refine AList.lookup_insert_ne fun heq => ?_
    have hdir := (h.handed _ hinfo).dir
    rw [heq] at hdir
    cases hdir
  · obtain ⟨v, hv⟩ := h.there info hinfo
    exact ⟨v, (hlookup info (mem_remaining hinfo)).trans hv⟩
  · rw [hinputs]; exact hmerged.events
  · rw [hinputs]; exact hmerged.count
  · rw [hmade, List.append_assoc]
    rfl
  · rcases List.mem_append.mp hv with hv | hv
    · have hapart := hmerged.apart
      rw [hmade] at hapart
      have hne := (List.pairwise_append.mp hapart).2.2 v hv u List.mem_cons_self
      exact ⟨(AList.lookup_insert_ne hne).trans (hstanding v hv).1, (hstanding v hv).2⟩
    · rw [List.mem_singleton.mp hv]
      exact ⟨AList.lookup_insert _, hfree⟩
  · rw [holding_eq rfl rfl, holding_eq rfl rfl]
    exact List.Perm.of_eq (List.flatMap_congr hevents)

/-- With the outputs written, they count in place of the inputs. -/
theorem steady_written {fs : List SSTableInfo} {outputs : List SSTable}
    (h : Steady start t wrote flushed (.writing fs outputs [])) :
    Steady start t wrote flushed
      (if outputs = [] then .done else .removing fs outputs fs) := by
  obtain ⟨htaken, hmerged, made, hmade, hstanding⟩ := h.work
  rw [List.append_nil] at hmade
  subst hmade
  split
  · exact h.advance rfl rfl (le_refl _) (fun _ hi => hi) (fun _ _ => rfl) h.dirs h.there trivial
      (.refl _)
  · obtain ⟨later, hfront, hlater⟩ := htaken.filter
    refine h.advance (d := .removing fs outputs fs) rfl rfl (le_refl _) (fun _ hi => hi)
      (fun _ _ => rfl) h.dirs (fun info hinfo => ?_) ⟨htaken, hstanding, fun _ hf => hf⟩ ?_
    · refine h.there info ?_
      rw [remaining_eq rfl]
      exact mem_remaining hinfo
    · have hbefore : holding t.db (.writing fs outputs []) =
          fs.flatMap (fileEvents t.db.disk.ssts) ++ (later ++ (t.db.levels 1 ++
            (t.db.levels 2 ++ t.db.levels 3))).flatMap (fileEvents t.db.disk.ssts) := by
        rw [holding_eq rfl rfl, inFiles, files_to_scan_eq, hfront, List.append_assoc,
          List.flatMap_append]
      have hafter : holding t.db (.removing fs outputs fs) =
          (later ++ (t.db.levels 1 ++ (t.db.levels 2 ++ t.db.levels 3))).flatMap
            (fileEvents t.db.disk.ssts) ++ outputs.flatMap SSTable.events := by
        rw [holding, remaining, dropped, added, hlater]
      rw [hbefore, hafter]
      exact List.perm_append_comm.trans (hmerged.events.append_right _)

theorem steady_erase {fs : List SSTableInfo} {outputs : List SSTable} {f : SSTableInfo}
    {left : List SSTableInfo} (h : Steady start t wrote flushed (.removing fs outputs (f :: left))) :
    Steady start { t with db.disk.ssts := t.db.disk.ssts.erase f.path } wrote flushed
      (.removing fs outputs left) := by
  obtain ⟨htaken, hstanding, hleft⟩ := h.work
  obtain ⟨later, hfront, hlater⟩ := htaken.filter
  have hf := hleft f List.mem_cons_self
  have hf0 : f ∈ t.db.levels 0 := hfront ▸ List.mem_append_left _ hf
  have hne : ∀ info ∈ remaining t.db (.removing fs outputs (f :: left)), info.path ≠ f.path := by
    intro info hinfo
    rcases List.mem_append.mp hinfo with hinfo | hinfo
    · have hall := List.all_eq_true.mp (List.mem_filter.mp hinfo).2 f hf
      exact Ne.symm (of_decide_eq_true hall)
    · intro heq
      have hdir := h.dirs 0 f hf0
      simp only [List.mem_append] at hinfo
      rcases hinfo with hinfo | hinfo | hinfo
      all_goals
        have hdir' := h.dirs _ info hinfo
        rw [heq, hdir] at hdir'
        cases hdir'
  have hevents : ∀ info ∈ remaining t.db (.removing fs outputs (f :: left)),
      fileEvents (t.db.disk.ssts.erase f.path) info = fileEvents t.db.disk.ssts info :=
    fun info hinfo => by rw [fileEvents, AList.lookup_erase_ne (hne info hinfo), fileEvents]
  refine h.advance rfl rfl (le_refl _) (fun _ hi => hi) (fun info hinfo => ?_) h.dirs
    (fun info hinfo => ?_) ⟨htaken, fun u hu => ⟨?_, (hstanding u hu).2⟩,
      fun g hg => hleft g (List.mem_cons_of_mem _ hg)⟩ (List.Perm.of_eq ?_)
  · exact AList.lookup_erase_ne ((h.handed _ hinfo).2.2.2 f hf0).symm
  · obtain ⟨u, hu⟩ := h.there info hinfo
    exact ⟨u, (AList.lookup_erase_ne (hne info hinfo)).trans hu⟩
  · refine (AList.lookup_erase_ne fun heq => ?_).trans (hstanding u hu).1
    have hdir := h.dirs 0 f hf0
    rw [← heq] at hdir
    cases hdir
  · rw [holding, holding]
    exact congrArg (· ++ _) (List.flatMap_congr hevents)

theorem steady_switch {fs : List SSTableInfo} {outputs : List SSTable}
    (h : Steady start t wrote flushed (.removing fs outputs [])) :
    Steady start { t with db := t.db.switch_levels fs outputs } wrote flushed .done := by
  obtain ⟨htaken, hstanding, -⟩ := h.work
  obtain ⟨later, hfront, hlater⟩ := htaken.filter
  have hl0 : (t.db.switch_levels fs outputs).levels 0 = later := by
    simp only [DB.switch_levels]
    rw [Function.update_of_ne (by decide), Function.update_self]
    exact hlater
  have hl1 : (t.db.switch_levels fs outputs).levels 1 =
      DB.sort_level (t.db.levels 1 ++ outputs.map infoOf) := by
    simp only [DB.switch_levels, Function.update_self]
    rfl
  have habove : ∀ l : Fin kMaxLevels, 1 < l →
      (t.db.switch_levels fs outputs).levels l = t.db.levels l := fun l hl => by
    simp only [DB.switch_levels]
    rw [Function.update_of_ne (ne_of_gt hl), Function.update_of_ne (ne_of_gt (lt_trans (by decide) hl))]
  have hfiles : (files_to_scan (t.db.switch_levels fs outputs).levels).Perm
      (remaining t.db (.removing fs outputs []) ++ outputs.map infoOf) := by
    rw [files_to_scan_eq, hl0, hl1, habove 2 (by decide), habove 3 (by decide), remaining, dropped,
      hlater, List.append_assoc]
    refine List.Perm.append_left _ (((sort_level_perm _).append_right _).trans ?_)
    rw [List.append_assoc, List.append_assoc]
    exact List.Perm.append_left _ List.perm_append_comm
  have houtputs : (outputs.map infoOf).flatMap (fileEvents t.db.disk.ssts) =
      outputs.flatMap SSTable.events := by
    rw [List.flatMap_map]
    exact List.flatMap_congr fun u hu => fileEvents_finished (hstanding u hu).1
  refine h.advance rfl rfl (le_refl _) (fun i hi => ?_) (fun _ _ => rfl) (fun l info hinfo => ?_)
    (fun info hinfo => ?_) trivial ?_
  · rw [hl0] at hi
    exact hfront ▸ List.mem_append_right _ hi
  · by_cases hl : l = 0
    · subst hl
      rw [hl0] at hinfo
      exact h.dirs 0 info (hfront ▸ List.mem_append_right _ hinfo)
    · by_cases hl' : l = 1
      · subst hl'
        rw [hl1, (sort_level_perm _).mem_iff] at hinfo
        rcases List.mem_append.mp hinfo with hinfo | hinfo
        · exact h.dirs 1 info hinfo
        · obtain ⟨u, -, rfl⟩ := List.mem_map.mp hinfo
          rfl
      · rw [habove l (lt_of_le_of_ne (Fin.one_le_of_ne_zero hl) (Ne.symm hl'))] at hinfo
        exact h.dirs l info hinfo
  · rw [remaining_eq rfl] at hinfo
    rcases List.mem_append.mp (hfiles.subset hinfo) with hinfo | hinfo
    · exact h.there info hinfo
    · obtain ⟨u, hu, rfl⟩ := List.mem_map.mp hinfo
      exact ⟨u, (hstanding u hu).1⟩
  · rw [holding_eq rfl rfl, holding, added, ← houtputs, ← List.flatMap_append]
    exact hfiles.flatMap_right _

theorem steady_next (h : Steady start t wrote flushed c)
    (hkeys : ((inMemtables start ++ inFiles start ++ ackedEvents t).map Event.key).Nodup)
    (hfree : Free t.db (outputNext c)) :
    Steady start { t with db := (c.next t.db).1 } wrote flushed (c.next t.db).2 ∧
      (c ≠ .idle → toDo (c.next t.db).1 (c.next t.db).2 ≤ toDo t.db c - 1) := by
  cases c with
  | idle =>
      refine ⟨?_, fun hne => absurd rfl hne⟩
      rw [Compactor.next]
      split
      · exact h.advance rfl rfl (le_refl _) (fun _ hi => hi) (fun _ _ => rfl) h.dirs h.there trivial
          (.refl _)
      · next hne =>
          refine h.advance (d := .snapshotted (t.db.levels 0)) rfl rfl (le_refl _)
            (fun _ hi => hi) (fun _ _ => rfl) h.dirs h.there ⟨hne, [], ?_, fun i hi => ?_⟩ (.refl _)
          · exact (List.append_nil _).symm
          · cases hi
  | snapshotted fs =>
      refine ⟨h.advance rfl rfl (Nat.le_succ _) (fun _ hi => hi) (fun _ _ => rfl) h.dirs h.there
        (show Working _ (.numbered fs _) from h.work) (.refl _), fun _ => ?_⟩
      simp only [Compactor.next, toDo]
      omega
  | numbered fs seq =>
      obtain ⟨outputs, hnext, hsteady, hcount⟩ := steady_numbered h hkeys
      rw [hnext]
      refine ⟨hsteady, fun _ => ?_⟩
      simp only [toDo]
      omega
  | writing fs outputs left =>
      cases left with
      | nil =>
          have hsteady := steady_written h
          simp only [Compactor.next]
          split at hsteady
          · next hnil =>
              rw [if_pos hnil]
              exact ⟨hsteady, fun _ => Nat.zero_le _⟩
          · next hnil =>
              rw [if_neg hnil]
              refine ⟨hsteady, fun _ => ?_⟩
              simp only [toDo, List.length_nil]
              omega
      | cons u left =>
          refine ⟨steady_output h (hfree _ rfl), fun _ => ?_⟩
          simp only [Compactor.next, toDo, List.length_cons]
          omega
  | removing fs outputs left =>
      cases left with
      | nil => exact ⟨steady_switch h, fun _ => Nat.zero_le _⟩
      | cons f left =>
          refine ⟨steady_erase h, fun _ => ?_⟩
          simp only [Compactor.next, toDo, List.length_cons]
          omega
  | done => exact ⟨h, fun _ => le_refl _⟩
  | failed err => exact h.work.elim

end

/-! ## Both compactions -/

def AtRest (c : Compactor) : Prop := c = .idle ∨ c = .done

theorem Working.rest {db : DB} {c : Compactor} (h : Working db c) (hinputs : inputs c = []) :
    AtRest c := by
  cases c with
  | idle => exact .inl rfl
  | done => exact .inr rfl
  | failed err => exact h.elim
  | snapshotted fs => exact absurd hinputs (Taken.ne_nil h)
  | numbered fs seq => exact absurd hinputs (Taken.ne_nil h)
  | writing fs outputs left => exact absurd hinputs h.1.ne_nil
  | removing fs outputs left => exact absurd hinputs h.1.ne_nil

theorem AtRest.toDo {db : DB} {c : Compactor} (h : AtRest c) : toDo db c = 0 := by
  rcases h with rfl | rfl <;> rfl

/-- One of the compactions is at rest, and the other is all that moves files. -/
def Sound (start : DB) (n : OneCopy) : Prop :=
  ∃ side, Steady start n.state.threads n.wrote n.flushed (n.compactor side) ∧
    AtRest (n.compactor side.other)

section
variable {start : DB} {req : QueryRequest} {n : OneCopy}

/-- What `Steady` says is about the database and the flushing threads. -/
theorem Steady.of_eq {t s : Threads} {wrote : SSTablePath → List Event} {flushed : List Event}
    {c : Compactor} (h : Steady start t wrote flushed c) (hdb : s.db = t.db)
    (hflushers : s.flushers = t.flushers) (hacked : s.acked = t.acked) :
    Steady start s wrote flushed c ∧ toDo s.db c = toDo t.db c := by
  refine h.memory (by rw [hdb]) (by rw [hdb]) (by rw [hdb]) (by rw [hdb]; exact h.sorted)
    (fun f hf => .inl (hflushers ▸ hf)) (by rw [hflushers]; exact h.numbers) ?_
  rw [inFlight, ackedEvents, hdb, hflushers, hacked]
  exact h.total

theorem act_side (req : QueryRequest) (n : OneCopy) (side : Side) :
    (∃ x, (n.act req side.act).state.threads =
      { n.state.threads with db := ((n.compactor side).next n.db).1, compactor := x }) ∧
    (n.act req side.act).compactor side = ((n.compactor side).next n.db).2 ∧
    (n.act req side.act).compactor side.other = n.compactor side.other ∧
    (n.act req side.act).wrote = n.wrote ∧ (n.act req side.act).flushed = n.flushed := by
  cases side <;> exact ⟨⟨_, rfl⟩, rfl, rfl, rfl, rfl⟩

variable (req n) in
/-- A thread that does not compact leaves both compactions where they are. -/
theorem act_thread {a : Act} (ha : a ≠ .compact) (side : Side) :
    (n.act req (.threads a)).compactor side = n.compactor side := by
  have hthreads : (n.state.threads.act req a).compactor = n.state.threads.compactor := by
    cases a with
    | compact => exact absurd rfl ha
    | insert i height =>
        rw [Threads.act, Threads.insert]
        split <;> rfl
    | pop =>
        rw [Threads.act, Threads.pop]
        split <;> rfl
    | flush i =>
        rw [Threads.act, Threads.flush]
        split
        · rfl
        · rfl
        · split <;> rfl
        · rfl
    | _ => rfl
  cases side with
  | first => exact hthreads
  | second => rfl

theorem next_ne_idle {c : Compactor} (h : c ≠ .idle) (db : DB) : (c.next db).2 ≠ .idle := by
  cases c with
  | idle => exact absurd rfl h
  | numbered fs seq =>
      rw [Compactor.next]
      split <;> simp
  | writing fs outputs left =>
      cases left with
      | nil =>
          rw [Compactor.next]
          split <;> simp
      | cons u left => simp [Compactor.next]
  | removing fs outputs left => cases left <;> simp [Compactor.next]
  | _ => simp [Compactor.next]

variable (req) in
/-- A step of a thread that is not compacting. -/
theorem steady_thread {c : Compactor} (h : Steady start n.state.threads n.wrote n.flushed c)
    {a : Act} (ha : a ≠ .compact) (hok : n.Undisturbed (.threads a))
    (honce : Once start (n.act req (.threads a))) :
    Steady start (n.act req (.threads a)).state.threads (n.act req (.threads a)).wrote
        (n.act req (.threads a)).flushed c ∧
      toDo (n.act req (.threads a)).db c = toDo n.db c := by
  cases a with
  | begin_append symbol args =>
      exact h.memory (s := n.state.threads.begin_append symbol args) rfl rfl (le_refl _) h.sorted
        (fun _ hf => .inl hf) h.numbers h.total
  | insert i height => exact steady_insert h honce
  | rotate => exact steady_rotate h
  | pop => exact steady_pop h
  | query => exact h.of_eq rfl rfl rfl
  | compact => exact absurd rfl ha
  | flush i =>
      have hact : (n.act req (.threads (.flush i))).state.threads = n.state.threads.flush i := rfl
      have hdb : (n.act req (.threads (.flush i))).db = (n.state.threads.flush i).db := rfl
      have hnote : (n.act req (.threads (.flush i))).wrote = (n.note (.threads (.flush i))).wrote ∧
          (n.act req (.threads (.flush i))).flushed = (n.note (.threads (.flush i))).flushed :=
        ⟨rfl, rfl⟩
      rw [hact, hdb, hnote.1, hnote.2, note]
      cases hget : n.state.threads.flushers[i]? with
      | none =>
          rw [Threads.flush, hget]
          exact ⟨h, rfl⟩
      | some f =>
          cases f with
          | popped mem => exact steady_number h hget
          | written info => exact steady_list h hget
          | numbered mem seq =>
              by_cases hempty : mem.empty = true
              · simp only [if_pos hempty]
                exact steady_skip h hget hempty
              · have hfree := hok _ hget
                rw [flushNext, if_neg hempty] at hfree
                simp only [if_neg hempty]
                exact steady_write h hget hempty (hfree _ rfl)

theorem side_cases (side s : Side) : s = side ∨ s = side.other := by
  cases side <;> cases s <;> simp [Side.other]

/-- With both compactions at rest it does not matter which of them moves on. -/
theorem Steady.handover {t : Threads} {wrote : SSTablePath → List Event} {flushed : List Event}
    {c c' : Compactor} (h : Steady start t wrote flushed c) (hc : AtRest c) (hc' : AtRest c') :
    Steady start t wrote flushed c' := by
  have hsame : remaining t.db c' = remaining t.db c ∧ holding t.db c' = holding t.db c := by
    rcases hc with rfl | rfl <;> rcases hc' with rfl | rfl <;> exact ⟨rfl, rfl⟩
  refine h.advance rfl rfl (le_refl _) (fun _ hi => hi) (fun _ _ => rfl) h.dirs ?_ ?_
    (List.Perm.of_eq hsame.2)
  · rw [hsame.1]
    exact h.there
  · rcases hc' with rfl | rfl <;> exact trivial

variable (req) in
/-- A step of the compaction that holds the files, or takes them. -/
theorem sound_active {side : Side}
    (h : Steady start n.state.threads n.wrote n.flushed (n.compactor side))
    (hother : AtRest (n.compactor side.other)) (hturn : n.InTurn side) (hkeys : Once start n) :
    Sound start (n.act req side.act) ∧ (n.compactor side ≠ .idle →
      toDo (n.act req side.act).db ((n.act req side.act).compactor side) ≤
        toDo n.db (n.compactor side) - 1) := by
  obtain ⟨⟨x, hthreads⟩, hnext, hsame, hwrote, hflushed⟩ := act_side req n side
  obtain ⟨hsteady, hless⟩ := steady_next h hkeys hturn.2
  refine ⟨⟨side, ?_, hsame ▸ hother⟩, fun hne => ?_⟩
  · rw [hwrote, hflushed, hnext, hthreads]
    exact (hsteady.of_eq (s := { n.state.threads with
      db := ((n.compactor side).next n.db).1, compactor := x }) rfl rfl rfl).1
  · rw [db, hthreads, hnext]
    exact hless hne

variable (req) in
/-- A step of the compaction that is at rest while the other holds files: there
is nothing for it to do. -/
theorem sound_waiting {side : Side}
    (h : Steady start n.state.threads n.wrote n.flushed (n.compactor side.other))
    (hrest : AtRest (n.compactor side)) (hwait : inputs (n.compactor side.other) ≠ [])
    (hturn : n.InTurn side) :
    Sound start (n.act req side.act) ∧ (n.act req side.act).db = n.db ∧
      AtRest ((n.act req side.act).compactor side) := by
  obtain ⟨⟨x, hthreads⟩, hnext, hsame, hwrote, hflushed⟩ := act_side req n side
  have hstill : ((n.compactor side).next n.db).1 = n.db ∧
      AtRest ((n.compactor side).next n.db).2 := by
    rcases hrest with hidle | hdone
    · by_cases hnone : n.db.levels 0 = []
      · rw [hidle, Compactor.next, if_pos hnone]
        exact ⟨rfl, .inr rfl⟩
      · exact absurd (hturn.1 hidle hnone) hwait
    · rw [hdone]
      exact ⟨rfl, .inr rfl⟩
  have hdb : (n.act req side.act).db = n.db := by rw [db, hthreads]; exact hstill.1
  refine ⟨⟨side.other, ?_, ?_⟩, hdb, hnext ▸ hstill.2⟩
  · rw [hsame, hwrote, hflushed]
    exact (h.of_eq hdb (by rw [hthreads]) (by rw [hthreads])).1
  · rw [show side.other.other = side by cases side <;> rfl, hnext]
    exact hstill.2

/-- What a compaction that has begun does not lose sight of: its end. -/
def Nearer (n n' : OneCopy) (a : CompactorsAct) (s : Side) : Prop :=
  n'.compactor s ≠ .idle ∧ toDo n'.db (n'.compactor s) ≤ toDo n.db (n.compactor s) ∧
    (a = s.act → toDo n'.db (n'.compactor s) ≤ toDo n.db (n.compactor s) - 1)

theorem sound_side (h : Sound start n) (side : Side) (hturn : n.InTurn side)
    (hkeys : Once start n) :
    Sound start (n.act req side.act) ∧
      ∀ s, n.compactor s ≠ .idle → Nearer n (n.act req side.act) side.act s := by
  obtain ⟨-, hnext, hsame, -, -⟩ := act_side req n side
  have hact : ∀ s, side.act = s.act → side = s := fun s heq => by
    cases side <;> cases s <;> first | rfl | cases heq
  obtain ⟨active, hsteady, hrest⟩ := h
  -- the compaction that moves is at rest, or it holds the files
  have hwaiting : AtRest (n.compactor side) → inputs (n.compactor side.other) ≠ [] →
      Steady start n.state.threads n.wrote n.flushed (n.compactor side.other) →
      Sound start (n.act req side.act) ∧
        ∀ s, n.compactor s ≠ .idle → Nearer n (n.act req side.act) side.act s := by
    intro hrest hwait hsteady
    obtain ⟨hsound, hdb, hstill⟩ := sound_waiting req hsteady hrest hwait hturn
    refine ⟨hsound, fun s hne => ?_⟩
    rcases side_cases side s with rfl | rfl
    · refine ⟨hnext ▸ next_ne_idle hne _, ?_, fun _ => ?_⟩ <;> rw [hstill.toDo] <;>
        exact Nat.zero_le _
    · refine ⟨hsame ▸ hne, by rw [hdb, hsame], fun heq => ?_⟩
      exact absurd (hact _ heq) (by cases side <;> nofun)
  have hmoving : AtRest (n.compactor side.other) →
      Steady start n.state.threads n.wrote n.flushed (n.compactor side) →
      Sound start (n.act req side.act) ∧
        ∀ s, n.compactor s ≠ .idle → Nearer n (n.act req side.act) side.act s := by
    intro hother hsteady
    obtain ⟨hsound, hless⟩ := sound_active req hsteady hother hturn hkeys
    refine ⟨hsound, fun s hne => ?_⟩
    rcases side_cases side s with rfl | rfl
    · exact ⟨hnext ▸ next_ne_idle hne _, (hless hne).trans (Nat.sub_le _ _), fun _ => hless hne⟩
    · refine ⟨hsame ▸ hne, ?_, fun heq => ?_⟩
      · rw [hsame, hother.toDo]
        exact Nat.zero_le _
      · exact absurd (hact _ heq) (by cases side <;> nofun)
  rcases side_cases side active with rfl | rfl
  · exact hmoving hrest hsteady
  · rw [show side.other.other = side by cases side <;> rfl] at hrest
    by_cases hwait : inputs (n.compactor side.other) = []
    · have hother := hsteady.work.rest hwait
      exact hmoving hother (hsteady.handover hother hrest)
    · exact hwaiting hrest hwait hsteady

variable (req) in
theorem sound_act (h : Sound start n) {a : CompactorsAct} (hok : n.Undisturbed a)
    (honce : Once start (n.act req a)) (hkeys : Once start n) :
    Sound start (n.act req a) ∧ ∀ s, n.compactor s ≠ .idle → Nearer n (n.act req a) a s := by
  cases a with
  | second => exact sound_side h .second hok hkeys
  | threads a =>
      by_cases ha : a = .compact
      · subst ha
        exact sound_side h .first hok hkeys
      obtain ⟨active, hsteady, hrest⟩ := h
      have hsame := fun s => act_thread req n ha s
      obtain ⟨hnow, htoDo⟩ := steady_thread req hsteady ha hok honce
      refine ⟨⟨active, hsame active ▸ hnow, hsame active.other ▸ hrest⟩, fun s hne => ?_⟩
      refine ⟨hsame s ▸ hne, ?_, fun heq => ?_⟩
      · rw [hsame s]
        rcases side_cases active s with rfl | rfl
        · exact htoDo.le
        · rw [hrest.toDo]
          exact Nat.zero_le _
      · cases s with
        | first => exact absurd (CompactorsAct.threads.inj heq) ha
        | second => cases heq

end

/-! ## Runs -/

theorem acked_mono {req : QueryRequest} {start : DB} {n : OneCopy} {a : CompactorsAct}
    (h : Once start (n.act req a)) : Once start n := by
  have hacked : n.state.threads.acked <+: (n.act req a).state.threads.acked := by
    cases a with
    | second => exact List.prefix_refl _
    | threads a =>
        have hact : (n.act req (.threads a)).state.threads = n.state.threads.act req a := rfl
        rw [hact]
        cases a with
        | insert i height =>
            rw [Threads.act, Threads.insert]
            split
            · exact List.prefix_refl _
            · exact List.prefix_append _ _
        | pop =>
            rw [Threads.act, Threads.pop]
            split <;> exact List.prefix_refl _
        | flush i =>
            rw [Threads.act, Threads.flush]
            split
            · exact List.prefix_refl _
            · exact List.prefix_refl _
            · split <;> exact List.prefix_refl _
            · exact List.prefix_refl _
        | _ => exact List.prefix_refl _
  refine List.Nodup.sublist (List.Sublist.map _ ?_) h
  exact ((hacked.map Prod.snd).sublist).append_left _

/-- A database that a run of calls leaves is at rest. -/
theorem refines_resting {t : Tracked} (h : Refines t) : Resting t.db := by
  refine ⟨h.filed.mems, fun l info hinfo => ?_⟩
  have hlisted : info ∈ files_to_scan t.db.levels :=
    List.mem_flatMap.mpr ⟨l, List.mem_finRange l, hinfo⟩
  refine ⟨?_, _, (h.tabled hlisted).file⟩
  match l with
  | 0 =>
      rw [(h.filed.l0 info hinfo).2.1]
      rfl
  | 1 =>
      rw [h.filed.l1_paths info hinfo]
      rfl
  | 2 => exact absurd (h.filed.deep.1 ▸ hinfo) List.not_mem_nil
  | 3 => exact absurd (h.filed.deep.2 ▸ hinfo) List.not_mem_nil

theorem resting_sound {start : DB} (h : Resting start) : Sound start (startCompactors start) := by
  refine ⟨.first, ⟨h.sorted, fun l info hinfo => (h.finished l info hinfo).1, fun f hf => ?_,
    List.nodup_nil, fun info hinfo => ?_, trivial, ?_, ?_⟩, .inl rfl⟩
  · cases hf
  · have hinfo := mem_remaining hinfo
    rw [files_to_scan, List.mem_flatMap] at hinfo
    obtain ⟨l, -, hinfo⟩ := hinfo
    exact (h.finished l info hinfo).2
  · rw [holding_eq rfl rfl]
    have hnone : inFlight { db := start } = [] ∧ ackedEvents { db := start } = [] := ⟨rfl, rfl⟩
    simp only [startCompactors, hnone.1, hnone.2, List.append_nil]
    exact .refl _
  · rw [holding_eq rfl rfl]
    exact List.Perm.of_eq (List.append_nil _).symm

section
variable {start : DB} {req : QueryRequest}

/-- A run from a sound state, in which a compaction that has begun comes nearer
to its end with every step it takes. -/
theorem sound_run {n : OneCopy} (hsound : Sound start n) {acts : List CompactorsAct}
    (hgo : Run.Along (act req) Undisturbed n acts) (honce : Once start (acts.foldl (act req) n)) :
    Sound start (acts.foldl (act req) n) ∧ ∀ side, n.compactor side ≠ .idle →
      (acts.foldl (act req) n).compactor side ≠ .idle ∧
        toDo (acts.foldl (act req) n).db ((acts.foldl (act req) n).compactor side) ≤
          toDo n.db (n.compactor side) - acts.countP side.isStep := by
  obtain ⟨hbefore, hlater⟩ := Run.along_of_last (P := Once start) (fun _ _ => acked_mono) honce
  have hboth := hgo.and hlater
  constructor
  · exact (hboth.invariant (I := fun n => Sound start n ∧ Once start n)
      (fun n a hn ha => ⟨(sound_act req hn.1 ha.1 ha.2 hn.2).1, ha.2⟩) ⟨hsound, hbefore⟩).1
  · intro side hne
    have hstep : ∀ (n : OneCopy) (a : CompactorsAct),
        (Sound start n ∧ Once start n ∧ n.compactor side ≠ .idle) →
        (n.Undisturbed a ∧ Once start (n.act req a)) →
          (Sound start (n.act req a) ∧ Once start (n.act req a) ∧
            (n.act req a).compactor side ≠ .idle) ∧
          toDo (n.act req a).db ((n.act req a).compactor side) ≤ toDo n.db (n.compactor side) ∧
          (side.isStep a = true → toDo n.db (n.compactor side) ≠ 0 →
            toDo (n.act req a).db ((n.act req a).compactor side) < toDo n.db (n.compactor side)) := by
      intro n a hn ha
      obtain ⟨hkept, hnearer⟩ := sound_act req hn.1 ha.1 ha.2 hn.2.1
      obtain ⟨hbegun, hle, hless⟩ := hnearer side hn.2.2
      refine ⟨⟨hkept, ha.2, hbegun⟩, hle, fun hown hpos => ?_⟩
      have hact : a = side.act := by
        cases side <;> cases a with
        | second => first | rfl | cases hown
        | threads a => cases a <;> first | rfl | cases hown
      have := hless hact
      omega
    exact ⟨(hboth.invariant (fun n a hn ha => (hstep n a hn ha).1) ⟨hsound, hbefore, hne⟩).2.2,
      hboth.countdown (m := fun n => toDo n.db (n.compactor side)) hstep ⟨hsound, hbefore, hne⟩⟩

/-- Two compactions beside appends, flushes and a query, over a database at rest.
In a run in which each takes inputs only while the other has none, and no table
is written over a listed one, neither throws, each comes to its end, and the
listed files hold every version once. -/
theorem kept_one_copy (h : Resting start) {acts : List CompactorsAct}
    (hgo : Run.Along (act req) Undisturbed (startCompactors start) acts)
    (honce : Once start (acts.foldl (act req) (startCompactors start))) :
    let n := acts.foldl (act req) (startCompactors start)
    Kept start n ∧ ∀ side, inputs (n.compactor side) ≠ [] →
      ∃ k, ∀ more, Run.Along (act req) Undisturbed n more →
        Once start (more.foldl (act req) n) → k ≤ more.countP side.isStep →
          (more.foldl (act req) n).compactor side = .done := by
  intro n
  have hsound : Sound start n := (sound_run (resting_sound h) hgo honce).1
  refine ⟨⟨fun side err hfail => ?_, fun hnone => ?_⟩, fun side hbusy => ?_⟩
  · obtain ⟨active, hsteady, hrest⟩ := hsound
    rcases side_cases active side with rfl | rfl
    · have hwork := hsteady.work
      rw [hfail] at hwork
      exact hwork
    · rw [hfail] at hrest
      rcases hrest with hrest | hrest <;> cases hrest
  · obtain ⟨active, hsteady, -⟩ := hsound
    have hheld := hsteady.held
    rcases hsteady.work.rest (hnone active) with heq | heq <;> rw [heq] at hheld <;>
      exact (List.Perm.of_eq (holding_eq rfl rfl _)).symm.trans hheld
  · refine ⟨toDo n.db (n.compactor side), fun more hmore hlast hcount => ?_⟩
    have hne : n.compactor side ≠ .idle := fun hidle => hbusy (by rw [hidle]; rfl)
    obtain ⟨⟨active, hsteady, hrest⟩, hend⟩ := sound_run hsound hmore hlast
    obtain ⟨hbegun, hle⟩ := hend side hne
    have hzero : toDo (more.foldl (act req) n).db ((more.foldl (act req) n).compactor side) = 0 := by
      omega
    have hover : AtRest ((more.foldl (act req) n).compactor side) := by
      rcases side_cases active side with rfl | rfl
      · refine hsteady.work.rest ?_
        revert hzero
        cases (more.foldl (act req) n).compactor side <;> simp [toDo, inputs]
      · exact hrest
    exact hover.resolve_left hbegun

end

/-- A database with one event in a file and one in its memtable. -/
def fileAndMemtable : DB :=
  ((flushedCalls ++ [Call.append [65] { timestamp_ns := 5 } 0]).foldl exec (openEmpty {})).db

theorem fileAndMemtable_resting : Resting fileAndMemtable := by
  refine refines_resting ?_
  have hclear : Run.Along exec Clear (openEmpty {})
      (flushedCalls ++ [.append [65] { timestamp_ns := 5 } 0]) :=
    ⟨⟨fun _ _ => nofun, by decide⟩, trivial, ⟨fun h => absurd h (by decide), by decide⟩, trivial⟩
  exact hclear.invariant exec_refines (openEmpty_refines {})

/-- The memtable is flushed while the first compaction goes on; the second takes the
file of that when the first is through. -/
def oneAfterTheOther : List CompactorsAct :=
  [Side.first.act, .threads .rotate, Side.first.act, .threads .pop, .threads (.flush 0),
    Side.first.act, .threads (.flush 0), Side.first.act, .threads (.flush 0)] ++
    List.replicate 3 Side.first.act ++ List.replicate 7 Side.second.act

set_option maxRecDepth 4000 in
theorem kept_one_copy_in_turn :
    let n := oneAfterTheOther.foldl (act { symbol := [] }) (startCompactors fileAndMemtable)
    Kept fileAndMemtable n ∧
      n.flushed = [{ symbol_id := 1, sequence_id := 2, timestamp_ns := 5 }] ∧
      n.compactor .first = .done ∧ n.compactor .second = .done := by
  have hgo : Run.Along (act { symbol := [] }) Undisturbed (startCompactors fileAndMemtable)
      oneAfterTheOther := by
    refine ⟨⟨fun _ _ => rfl, nofun⟩, trivial, ⟨nofun, nofun⟩, trivial, ?_, ⟨nofun, nofun⟩, ?_,
      ⟨nofun, ?_⟩, ?_, ⟨nofun, nofun⟩, ⟨nofun, nofun⟩, ⟨nofun, nofun⟩, ⟨fun _ _ => rfl, nofun⟩,
      ⟨nofun, nofun⟩, ⟨nofun, nofun⟩, ⟨nofun, ?_⟩, ⟨nofun, nofun⟩, ⟨nofun, nofun⟩, ⟨nofun, nofun⟩,
      trivial⟩
    · intro f hf
      cases hf
      nofun
    · intro f hf
      cases hf
      decide
    · decide
    · intro f hf
      cases hf
      nofun
    · decide
  exact ⟨(kept_one_copy fileAndMemtable_resting hgo (by decide)).1, rfl, rfl, rfl⟩

/-- A database with one file. -/
def oneFile : DB := (flushedCalls.foldl exec (openEmpty {})).db

/-- Both compactions take the same file: the version in it is held by two listed
files in the end. With the first through before the second reads its inputs, the
second finds them gone. -/
theorem both_take_one_file :
    let e : Event := { symbol_id := 1, sequence_id := 1 }
    let both := [Side.first.act, Side.second.act]
    let n := (both ++ both ++ both ++ both ++ both ++ both ++ both).foldl (act { symbol := [] })
      (startCompactors oneFile)
    let n' := (both ++ both ++ List.replicate 5 Side.first.act ++ [Side.second.act]).foldl (act { symbol := [] })
      (startCompactors oneFile)
    Once oneFile n ∧ inFiles oneFile = [e] ∧ (n.compactor .first = .done) ∧
      n.compactor .second = .done ∧ n.flushed = [] ∧ inFiles n.db = [e, e] ∧
      n'.compactor .second = .failed (.open_failed (DB.flush_path 1)) :=
  ⟨by decide, rfl, rfl, rfl, rfl, rfl, rfl⟩

end Kronos.Spec.OneCopy
