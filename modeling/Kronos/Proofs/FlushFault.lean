import Kronos.Proofs.FileNumbers
import Kronos.Spec.Crash
import Kronos.Spec.FlushFault

/-!
# What a failed flush loses

The rounds before the one that throws only move events from memtables to files
of the same events; a listed file whose path they open is written over, and
what it held is gone. The round that throws takes its memtable out of the queue
and gives it to nobody. So the rows that are left are those of the other
memtables and of the listed files that were not opened.
-/

namespace Kronos

open Spec

/-! ## What a client sees -/

theorem visible_of_query {db : DB} (hdb : db.Ordered) {req : QueryRequest} {r : QueryResult}
    (hr : db.query req = .ok r) {e : Event} (he : e ∈ r.rows) : Visible db e := by
  cases hclosed : db.closed with
  | true =>
      rw [DB.query, hclosed] at hr
      cases hr
  | false =>
      cases hsym : db.symbols.lookup req.symbol with
      | none =>
          rw [DB.query_unknown hclosed hsym] at hr
          cases hr
          cases he
      | some sym_id =>
          obtain ⟨r', hr', -, hrows⟩ := DB.query_rows hdb hclosed hsym
          rw [hr'] at hr
          cases hr
          rw [hrows] at he
          exact ⟨hclosed, req, sym_id, hsym, List.mem_of_mem_take he⟩

theorem query_of_visible {db : DB} (hdb : db.Ordered) {e : Event} (h : Visible db e) :
    ∃ req sym_id, db.symbols.lookup req.symbol = some sym_id ∧ e ∈ queryRows req sym_id db ∧
      ((queryRows req sym_id db).length ≤ req.row_limit →
        ∃ r, db.query req = .ok r ∧ e ∈ r.rows) := by
  obtain ⟨hopen, req, sym_id, hsym, he⟩ := h
  refine ⟨req, sym_id, hsym, he, fun hroom => ?_⟩
  obtain ⟨r, hr, -, hrows⟩ := DB.query_rows hdb hopen hsym
  refine ⟨r, hr, ?_⟩
  rw [hrows, List.take_of_length_le hroom]
  exact he

/-! ## Rounds -/

theorem flush_front_empty {db : DB} {mem : MemTable} {rest : List MemTable}
    (himm : db.imm_mems = mem :: rest) (hmem : mem.nodes = []) :
    db.flush_front = { db with imm_mems := rest, sst_seq := db.sst_seq + 1 } := by
  rw [DB.flush_front, himm]
  simp only [DB.do_flush, MemTable.empty, hmem, List.isEmpty_nil, if_true]

theorem flush_front_full {db : DB} {mem : MemTable} {rest : List MemTable}
    (himm : db.imm_mems = mem :: rest) (hmem : mem.nodes ≠ []) :
    db.flush_front = publish mem rest db := by
  rw [DB.flush_front, himm]
  simp only [DB.do_flush, MemTable.empty]
  exact if_neg (by rw [List.isEmpty_iff]; exact hmem)

theorem flushedInfos_empty (seq : Nat) {mem : MemTable} (hmem : mem.nodes = [])
    (mems : List MemTable) : flushedInfos seq (mem :: mems) = flushedInfos (seq + 1) mems := by
  rw [flushedInfos, MemTable.empty, hmem]
  rfl

theorem flushedInfos_full (seq : Nat) {mem : MemTable} (hmem : mem.nodes ≠ [])
    (mems : List MemTable) : flushedInfos seq (mem :: mems) =
      ⟨DB.flush_path seq, (SSTable.write 0 seq mem.nodes).meta_⟩ ::
        flushedInfos (seq + 1) mems := by
  rw [flushedInfos, MemTable.empty, if_neg (by rw [List.isEmpty_iff]; exact hmem)]
  rfl

/-- The rounds count up. -/
theorem flushedInfos_path {seq : Nat} {mems : List MemTable} {info : SSTableInfo}
    (h : info ∈ flushedInfos seq mems) : ∃ n, seq ≤ n ∧ info.path = DB.flush_path n := by
  induction mems generalizing seq with
  | nil => cases h
  | cons mem mems ih =>
      by_cases hmem : mem.nodes = []
      · rw [flushedInfos_empty seq hmem] at h
        obtain ⟨n, hn, hpath⟩ := ih h
        exact ⟨n, by omega, hpath⟩
      · rw [flushedInfos_full seq hmem] at h
        obtain rfl | h := List.mem_cons.mp h
        · exact ⟨seq, Nat.le_refl _, rfl⟩
        · obtain ⟨n, hn, hpath⟩ := ih h
          exact ⟨n, by omega, hpath⟩

theorem openedPaths_ge {j : Nat} {created : Bool} {db : DB} {path : SSTablePath}
    (h : path ∈ openedPaths j created db) : ∃ n, db.sst_seq ≤ n ∧ path = DB.flush_path n := by
  obtain h | h := List.mem_append.mp h
  · obtain ⟨info, hinfo, rfl⟩ := List.mem_map.mp h
    exact flushedInfos_path hinfo
  · cases created with
    | false => cases h
    | true => exact ⟨db.sst_seq + j, Nat.le_add_right _ _, List.mem_singleton.mp h⟩

section
variable {db : DB} {mem : MemTable} {rest : List MemTable} (himm : db.imm_mems = mem :: rest)
include himm

theorem openedPaths_empty (hmem : mem.nodes = []) (j : Nat) (created : Bool) :
    openedPaths (j + 1) created db = openedPaths j created db.flush_front := by
  rw [flush_front_empty himm hmem, openedPaths, openedPaths, himm, List.take_succ_cons,
    flushedInfos_empty db.sst_seq hmem, Nat.add_right_comm db.sst_seq 1 j, Nat.add_assoc]

theorem openedPaths_full (hmem : mem.nodes ≠ []) (j : Nat) (created : Bool) :
    openedPaths (j + 1) created db =
      DB.flush_path db.sst_seq :: openedPaths j created db.flush_front := by
  rw [flush_front_full himm hmem, openedPaths, openedPaths, himm, List.take_succ_cons,
    flushedInfos_full db.sst_seq hmem, List.map_cons, List.cons_append]
  simp only [publish]
  rw [Nat.add_right_comm db.sst_seq 1 j, Nat.add_assoc]

end

/-! ## The rows that are left -/

/-- The rows by their sources. -/
theorem mem_otherRows {req : QueryRequest} {sym_id : UInt32} {j : Nat} {created : Bool} {db : DB}
    {e : Event} : e ∈ otherRows req sym_id j created db ↔ req.wants e = true ∧
      ((∃ m ∈ db.active_mem :: db.imm_mems.eraseIdx j,
          e ∈ m.nodes.filter (inRange (req.start_key sym_id) (req.end_key sym_id))) ∨
        ∃ info ∈ files_to_scan db.levels, info.path ∉ openedPaths j created db ∧
          e ∈ fileDelivers db.disk.ssts (req.start_key sym_id) (req.end_key sym_id) info) := by
  rw [otherRows, List.mem_filter, List.mem_append, List.mem_flatMap, List.mem_flatMap, and_comm]
  refine and_congr_right fun _ => or_congr_right ?_
  constructor
  · rintro ⟨info, hinfo, he⟩
    obtain ⟨hin, hpath⟩ := List.mem_filter.mp hinfo
    exact ⟨info, hin, of_decide_eq_true hpath, he⟩
  · rintro ⟨info, hin, hpath, he⟩
    exact ⟨info, List.mem_filter.mpr ⟨hin, decide_eq_true hpath⟩, he⟩

theorem mem_queryRows {req : QueryRequest} {sym_id : UInt32} {db : DB} {e : Event} :
    e ∈ queryRows req sym_id db ↔ req.wants e = true ∧
      ((∃ m ∈ db.active_mem :: db.imm_mems,
          e ∈ m.nodes.filter (inRange (req.start_key sym_id) (req.end_key sym_id))) ∨
        ∃ info ∈ files_to_scan db.levels,
          e ∈ fileDelivers db.disk.ssts (req.start_key sym_id) (req.end_key sym_id) info) := by
  rw [queryRows, List.mem_filter, List.mem_append, List.mem_flatMap, List.mem_flatMap, and_comm]

theorem mem_files_publish {mem : MemTable} {rest : List MemTable} {db : DB}
    {info : SSTableInfo} : info ∈ files_to_scan (publish mem rest db).levels ↔
      info ∈ files_to_scan db.levels ∨
        info = ⟨DB.flush_path db.sst_seq, (SSTable.write 0 db.sst_seq mem.nodes).meta_⟩ := by
  rw [files_to_scan_eq, files_to_scan_eq, publish_l0, publish_above mem rest db (by decide),
    publish_above mem rest db (by decide), publish_above mem rest db (by decide)]
  simp only [List.mem_append, List.mem_singleton]
  tauto

theorem fileDelivers_congr {ssts ssts' : SSTableDir} {info : SSTableInfo}
    (h : ssts'.lookup info.path = ssts.lookup info.path) (start end_ : Key) :
    fileDelivers ssts' start end_ info = fileDelivers ssts start end_ info := by
  rw [fileDelivers, h, fileDelivers]

/-- Under any list entry a finished file delivers its events only. -/
theorem mem_fileDelivers {ssts : SSTableDir} {info : SSTableInfo} {t : SSTable}
    (h : ssts.lookup info.path = some (.finished t)) {start end_ : Key} {e : Event}
    (he : e ∈ fileDelivers ssts start end_ info) : e ∈ t.events.filter (inRange start end_) := by
  rw [fileDelivers, h] at he
  split at he
  · simp only [SSTableFile.read_meta, Option.isSome_some, if_true, SSTableFile.delivered] at he
    split at he
    · cases he
    · exact he
  · cases he

variable {req : QueryRequest} {sym_id : UInt32} {created : Bool}

/-- A round that succeeds takes nothing from what is left. -/
theorem otherRows_round {db : DB} {mem : MemTable} {rest : List MemTable}
    (himm : db.imm_mems = mem :: rest) (hsorted : Keyed.Sorted Event.key mem.nodes) (j : Nat)
    (e : Event) : e ∈ otherRows req sym_id j created db.flush_front ↔
      e ∈ otherRows req sym_id (j + 1) created db := by
  have hmems : ∀ m, m ∈ db.active_mem :: db.imm_mems.eraseIdx (j + 1) ↔
      m = mem ∨ m ∈ db.active_mem :: rest.eraseIdx j := by
    intro m
    rw [himm, List.eraseIdx_cons_succ]
    simp only [List.mem_cons]
    tauto
  rw [mem_otherRows, mem_otherRows]
  refine and_congr_right fun _ => ?_
  by_cases hmem : mem.nodes = []
  · rw [openedPaths_empty himm hmem, flush_front_empty himm hmem]
    refine or_congr_left ?_
    constructor
    · rintro ⟨m, hm, he⟩
      exact ⟨m, (hmems m).mpr (.inr hm), he⟩
    · rintro ⟨m, hm, he⟩
      obtain rfl | hm := (hmems m).mp hm
      · rw [hmem] at he
        cases he
      · exact ⟨m, hm, he⟩
  · have htab := Tabled.written db.disk.ssts (DB.flush_path db.sst_seq) 0 db.sst_seq hsorted
    have hnew := htab.delivers (req.start_key sym_id) (req.end_key sym_id)
    have hfresh : DB.flush_path db.sst_seq ∉ openedPaths j created (publish mem rest db) := by
      intro hopen
      obtain ⟨n, hn, hpath⟩ := openedPaths_ge hopen
      have hlt : db.sst_seq + 1 ≤ n := hn
      have heq := flush_path_inj hpath
      omega
    rw [openedPaths_full himm hmem, flush_front_full himm hmem]
    constructor
    · rintro (⟨m, hm, he⟩ | ⟨info, hinfo, hpath, he⟩)
      · exact .inl ⟨m, (hmems m).mpr (.inr hm), he⟩
      · by_cases hsame : info.path = DB.flush_path db.sst_seq
        · -- the new file, or an older one that was written over
          refine .inl ⟨mem, (hmems mem).mpr (.inl rfl), ?_⟩
          have hfile : (publish mem rest db).disk.ssts.lookup info.path =
              some (.finished (SSTable.write 0 db.sst_seq mem.nodes)) := by
            rw [hsame]
            exact htab.file
          exact mem_fileDelivers hfile he
        · obtain hold | rfl := mem_files_publish.mp hinfo
          · refine .inr ⟨info, hold, ?_, ?_⟩
            · rw [List.mem_cons]
              exact not_or.mpr ⟨hsame, hpath⟩
            · rw [← fileDelivers_congr (AList.lookup_insert_ne hsame)]
              exact he
          · exact absurd rfl hsame
    · rintro (⟨m, hm, he⟩ | ⟨info, hinfo, hpath, he⟩)
      · obtain rfl | hm := (hmems m).mp hm
        · refine .inr ⟨_, mem_files_publish.mpr (.inr rfl), hfresh, ?_⟩
          rw [← hnew] at he
          exact he
        · exact .inl ⟨m, hm, he⟩
      · rw [List.mem_cons, not_or] at hpath
        refine .inr ⟨info, mem_files_publish.mpr (.inl hinfo), hpath.2, ?_⟩
        rw [← fileDelivers_congr (AList.lookup_insert_ne hpath.1)] at he
        exact he

/-- The round that throws leaves what is not its own. -/
theorem otherRows_fails {db : DB} {mem : MemTable} {rest : List MemTable}
    (himm : db.imm_mems = mem :: rest) (hmem : mem.nodes ≠ []) (e : Event) :
    e ∈ queryRows req sym_id (db.flush_front_fails created) ↔
      e ∈ otherRows req sym_id 0 created db := by
  have hne : mem.empty = false := by
    rw [MemTable.empty, List.isEmpty_eq_false_iff]
    exact hmem
  rw [mem_queryRows, mem_otherRows, DB.flush_front_fails, himm]
  refine and_congr_right fun _ => ?_
  simp only [DB.do_flush_fails, hne, openedPaths, List.take_zero, flushedInfos, List.map_nil,
    List.nil_append, List.eraseIdx_zero, List.tail_cons, Nat.add_zero]
  cases created with
  | false =>
      simp only [Bool.false_eq_true, if_false, List.not_mem_nil, not_false_iff, true_and]
  | true =>
      simp only [Bool.false_eq_true, if_false, if_true, List.mem_singleton]
      refine or_congr_right ?_
      constructor
      · rintro ⟨info, hinfo, he⟩
        by_cases hsame : info.path = DB.flush_path db.sst_seq
        · rw [fileDelivers, hsame, AList.lookup_erase] at he
          simp at he
        · rw [fileDelivers_congr (AList.lookup_erase_ne hsame)] at he
          exact ⟨info, hinfo, hsame, he⟩
      · rintro ⟨info, hinfo, hpath, he⟩
        refine ⟨info, hinfo, ?_⟩
        rw [fileDelivers_congr (AList.lookup_erase_ne hpath)]
        exact he

/-! ## The call -/

/-- Every memtable is in key order. -/
def SortedMems (db : DB) : Prop :=
  ∀ m ∈ db.active_mem :: db.imm_mems, Keyed.Sorted Event.key m.nodes

theorem flush_front_same (db : DB) : db.flush_front.closed = db.closed ∧
    db.flush_front.symbols = db.symbols ∧ db.flush_front.active_mem = db.active_mem ∧
    db.flush_front.imm_mems = db.imm_mems.tail ∧ db.flush_front.cfg = db.cfg := by
  cases himm : db.imm_mems with
  | nil => simp [DB.flush_front, himm]
  | cons mem rest =>
      by_cases hmem : mem.nodes = []
      · rw [flush_front_empty himm hmem]
        simp
      · rw [flush_front_full himm hmem]
        simp [publish]

theorem SortedMems.flush_front {db : DB} (h : SortedMems db) : SortedMems db.flush_front := by
  obtain ⟨-, -, hactive, himm, -⟩ := flush_front_same db
  intro m hm
  rw [hactive, himm] at hm
  obtain rfl | hm := List.mem_cons.mp hm
  · exact h _ List.mem_cons_self
  · exact h m (List.mem_cons_of_mem _ (List.mem_of_mem_tail hm))

theorem SortedMems.rotate {db : DB} (h : SortedMems db) : SortedMems db.rotate := by
  obtain heq | ⟨-, heq⟩ := rotate_cases db
  · rw [heq]
    exact h
  · rw [heq]
    exact mems_sorted_retire h

theorem flush_front_fails_same (created : Bool) (db : DB) :
    (db.flush_front_fails created).closed = db.closed ∧
      (db.flush_front_fails created).symbols = db.symbols ∧
      (db.flush_front_fails created).levels = db.levels := by
  rw [DB.flush_front_fails]
  split
  · exact ⟨rfl, rfl, rfl⟩
  · rw [DB.do_flush_fails]
    split
    · exact ⟨rfl, rfl, rfl⟩
    · split <;> exact ⟨rfl, rfl, rfl⟩

/-- Before the round that throws nothing but memtables and files changes. -/
theorem rounds_same (j : Nat) (db : DB) : (DB.flush_front^[j] db).closed = db.closed ∧
    (DB.flush_front^[j] db).symbols = db.symbols := by
  induction j generalizing db with
  | zero => exact ⟨rfl, rfl⟩
  | succ j ih =>
      obtain ⟨hclosed, hsymbols, -⟩ := flush_front_same db
      rw [Function.iterate_succ_apply, (ih _).1, (ih _).2]
      exact ⟨hclosed, hsymbols⟩

theorem failed_rows {db : DB} (h : SortedMems db) {j : Nat} {mem : MemTable}
    (hj : db.imm_mems[j]? = some mem) (hmem : mem.nodes ≠ []) (e : Event) :
    e ∈ queryRows req sym_id ((DB.flush_front^[j] db).flush_front_fails created) ↔
      e ∈ otherRows req sym_id j created db := by
  induction j generalizing db with
  | zero =>
      cases himm : db.imm_mems with
      | nil => rw [himm] at hj; cases hj
      | cons m rest =>
          rw [himm] at hj
          cases hj
          exact otherRows_fails himm hmem e
  | succ j ih =>
      cases himm : db.imm_mems with
      | nil => rw [himm] at hj; cases hj
      | cons m rest =>
          have hsorted := h m (himm ▸ List.mem_cons_of_mem _ List.mem_cons_self)
          have htail : db.flush_front.imm_mems[j]? = some mem := by
            obtain ⟨-, -, -, himms, -⟩ := flush_front_same db
            rw [himms, himm]
            rw [himm] at hj
            exact hj
          rw [Function.iterate_succ_apply, ih h.flush_front htail]
          exact otherRows_round himm hsorted j e

theorem rounds_levels {db : DB} {j : Nat} (hj : j ≤ db.imm_mems.length) :
    (DB.flush_front^[j] db).levels = Function.update db.levels 0
      (db.levels 0 ++ flushedInfos db.sst_seq (db.imm_mems.take j)) := by
  induction j generalizing db with
  | zero =>
      rw [List.take_zero, flushedInfos, List.append_nil, Function.update_eq_self]
      rfl
  | succ j ih =>
      cases himm : db.imm_mems with
      | nil => rw [himm] at hj; cases hj
      | cons mem rest =>
          have htail : j ≤ db.flush_front.imm_mems.length := by
            obtain ⟨-, -, -, himms, -⟩ := flush_front_same db
            rw [himms, himm]
            rw [himm] at hj
            exact Nat.le_of_succ_le_succ hj
          rw [Function.iterate_succ_apply, ih htail, List.take_succ_cons]
          by_cases hmem : mem.nodes = []
          · rw [flush_front_empty himm hmem, flushedInfos_empty db.sst_seq hmem]
          · rw [flush_front_full himm hmem, flushedInfos_full db.sst_seq hmem]
            simp only [publish, Function.update_self, Function.update_idem, List.append_assoc,
              List.singleton_append]

theorem failed_levels {db : DB} {j : Nat} (hj : j ≤ db.imm_mems.length) (created : Bool) :
    ((DB.flush_front^[j] db).flush_front_fails created).levels = Function.update db.levels 0
      (db.levels 0 ++ flushedInfos db.sst_seq (db.imm_mems.take j)) := by
  obtain ⟨-, -, hlevels⟩ := flush_front_fails_same created (DB.flush_front^[j] db)
  rw [hlevels, rounds_levels hj]

/-! ## Every session -/

theorem sorted_replay (heights : Nat → Fin kMaxHeight) (records : List WALRecord) {m : MemTable}
    (hm : Keyed.Sorted Event.key m.nodes) :
    Keyed.Sorted Event.key (DB.replay heights records m).nodes := by
  rw [DB.replay]
  generalize records.zipIdx = l
  induction l generalizing m with
  | nil => exact hm
  | cons p l ih => exact ih (Keyed.upsert_sorted p.1.event hm)

theorem sorted_opened (cfg : DBConfig) (disk : Disk) (listing : List SSTablePath)
    (heights : Nat → Fin kMaxHeight) : SortedMems (opened cfg disk listing heights) := by
  have hone : ∀ {db : DB}, Keyed.Sorted Event.key db.active_mem.nodes → db.imm_mems = [] →
      SortedMems db := by
    intro db hactive himm m hm
    rw [himm, List.mem_singleton] at hm
    rw [hm]
    exact hactive
  have hnew : Keyed.Sorted Event.key (MemTable.new cfg.memtable_flush_bytes).nodes :=
    List.Pairwise.nil
  rw [opened, DB.open_]
  simp only []
  split
  · split
    · split <;> exact hone (sorted_replay heights _ hnew) rfl
    · split <;> exact hone hnew rfl
  · exact hone hnew rfl

theorem compact_same (db : DB) : (after db.compact_now).active_mem = db.active_mem ∧
    (after db.compact_now).imm_mems = db.imm_mems := by
  rw [DB.compact_now, DB.do_compact_l0]
  split
  · exact ⟨rfl, rfl⟩
  · simp only []
    split
    · exact ⟨rfl, rfl⟩
    · rw [write_outputs_eq]
      split
      · exact ⟨rfl, rfl⟩
      · rw [remove_inputs_eq]
        exact ⟨rfl, rfl⟩

theorem sorted_step {db : DB} (h : SortedMems db) (s : Step) : SortedMems (step db s) := by
  have hwrite : ∀ {db' : DB}, Quiet db db' → SortedMems db' := by
    intro db' hquiet m hm
    rw [hquiet.active, hquiet.imm] at hm
    exact h m hm
  have hput : ∀ {s : Step}, (∃ db', Quiet db db' ∧ (step db s = db' ∨
      ∃ e height, step db s = db'.mem_insert e height)) → SortedMems (step db s) := by
    rintro s ⟨db', hquiet, heq | ⟨e, height, heq⟩⟩
    · rw [heq]
      exact hwrite hquiet
    · rw [heq]
      exact mems_sorted_insert (hwrite hquiet) e height
  cases s with
  | append symbol args height io => exact hput (write_effect db (.inl ⟨_, _, _, _, rfl⟩))
  | remove symbol timestamp_ns sequence_id height io =>
      exact hput (write_effect db (.inr ⟨_, _, _, _, _, rfl⟩))
  | rotate => exact h.rotate
  | flush_front => exact h.flush_front
  | compact =>
      obtain ⟨hactive, himm⟩ := compact_same db
      intro m hm
      rw [step, hactive, himm] at hm
      exact h m hm
  | stop => exact h
  | save_symbols => exact h

/-- In every state a session reaches, whatever the directory held. -/
theorem sorted_reached (cfg : DBConfig) (disk : Disk) (listing : List SSTablePath)
    (heights : Nat → Fin kMaxHeight) (steps : List Step) :
    SortedMems (steps.foldl step (opened cfg disk listing heights)) :=
  Run.invariant (I := SortedMems) (fun _ s h => sorted_step h s) steps
    (sorted_opened cfg disk listing heights)

/-! ## When nothing is lost -/

/-- Visible afterwards is what is elsewhere. -/
theorem failed_visible {db : DB} (h : SortedMems db) {j : Nat} {mem : MemTable}
    (hj : db.rotate.imm_mems[j]? = some mem) (hmem : mem.nodes ≠ []) (hopen : db.closed = false)
    (e : Event) : Visible (db.flush_now_fails j created) e ↔
      ∃ req sym_id, db.symbols.lookup req.symbol = some sym_id ∧
        e ∈ otherRows req sym_id j created db.rotate := by
  obtain ⟨hclosed, hsymbols, -⟩ :=
    flush_front_fails_same created (DB.flush_front^[j] db.rotate)
  obtain ⟨active_mem, imm_mems, hrest⟩ := rotate_rest db
  rw [(rounds_same j db.rotate).1, hrest] at hclosed
  rw [(rounds_same j db.rotate).2, hrest] at hsymbols
  constructor
  · rintro ⟨-, req, sym_id, hsym, he⟩
    refine ⟨req, sym_id, ?_, (failed_rows h.rotate hj hmem e).mp he⟩
    rw [DB.flush_now_fails, hrest, hsymbols] at hsym
    exact hsym
  · rintro ⟨req, sym_id, hsym, he⟩
    refine ⟨?_, req, sym_id, ?_, (failed_rows h.rotate hj hmem e).mpr he⟩
    · rw [DB.flush_now_fails, hrest, hclosed]
      exact hopen
    · rw [DB.flush_now_fails, hrest, hsymbols]
      exact hsym

/-- One event in the active memtable, and no log. -/
def unflushed : DB :=
  [Step.append [65] {} 0 {}].foldl step (opened { wal_enabled := false } {} [] fun _ => 0)

end Kronos
