import Kronos.Proofs.FlushFault
import Kronos.Proofs.Reopened
import Kronos.Spec.Sizes

/-!
# Every memtable and every table is bounded

Each event of a memtable has taken at least 128 bytes of its arena, and an
insert takes at most two blocks, so the bytes bound the events and the last
insert cannot go far over the threshold. For the outputs of a compaction the
loop invariant says which of them are full.
-/

namespace Kronos

open Spec Compaction

/-! ## Memtables -/

/-- The arena has given out 128 bytes for each event. -/
structure Fitted (m : MemTable) : Prop where
  sorted : Keyed.Sorted Event.key m.nodes
  started : 4096 ≤ m.arena.used
  remaining : m.arena.remaining ≤ m.arena.used
  nodes : 128 * m.nodes.length ≤ m.arena.used - m.arena.remaining

/-- What a call gives out is no longer remaining. -/
theorem allocate_takes (n : Nat) {a : Arena} (h : a.remaining ≤ a.used) :
    a.used ≤ (a.allocate n).used ∧ (a.allocate n).remaining ≤ (a.allocate n).used ∧
      a.used - a.remaining + n ≤ (a.allocate n).used - (a.allocate n).remaining := by
  rw [Arena.allocate]
  split
  · next hroom =>
      dsimp only
      omega
  · next hfull =>
      dsimp only
      split <;> omega

theorem fitted_new (flush_threshold_bytes : Nat) : Fitted (.new flush_threshold_bytes) := by
  have hused : (MemTable.new flush_threshold_bytes).arena.used = 4096 := rfl
  have hremaining : (MemTable.new flush_threshold_bytes).arena.remaining = 3960 := rfl
  refine ⟨.nil, Nat.le_of_eq hused.symm, ?_, Nat.zero_le _⟩
  rw [hused, hremaining]
  decide

theorem Fitted.insert {m : MemTable} (h : Fitted m) (e : Event) (height : Fin kMaxHeight) :
    Fitted (m.insert e height) ∧ (m.insert e height).arena.used ≤ m.arena.used + 8192 := by
  refine ⟨?_, insert_used e height m⟩
  obtain ⟨hused, hremaining, hvalue⟩ := allocate_takes 80 h.remaining
  obtain ⟨hused', hremaining', hnode⟩ :=
    allocate_takes ((nodeSize (height + 1) + 7) / 8 * 8) hremaining
  have hlength := Keyed.length_upsert e h.sorted
  have hstarted := h.started
  have hnodes := h.nodes
  have hsize : 48 ≤ nodeSize (height + 1) := by
    rw [nodeSize]
    omega
  have hsorted := Keyed.upsert_sorted e h.sorted
  rw [MemTable.insert]
  cases hknown : m.nodes.any (·.key = e.key) with
  | true =>
      rw [hknown, if_pos rfl] at hlength
      refine ⟨hsorted, ?_, ?_, ?_⟩
      · exact hstarted.trans hused
      · exact hremaining
      · dsimp only
        rw [hlength]
        exact hnodes.trans (Nat.le_trans (Nat.le_add_right _ _) hvalue)
  | false =>
      rw [hknown, if_neg Bool.false_ne_true] at hlength
      refine ⟨hsorted, ?_, ?_, ?_⟩
      · exact hstarted.trans (hused.trans hused')
      · exact hremaining'
      · dsimp only
        rw [hlength]
        refine Nat.le_trans ?_ hnode
        omega

/-! ## The outputs of a compaction -/

theorem write_outputs_sizes (level sequence target : Nat) (events : List Event) :
    (∀ t ∈ Compaction.write_outputs level sequence target events,
      t.events ≠ [] ∧ t.events.length ≤ fileRecords target) ∧
    ∀ t ∈ (Compaction.write_outputs level sequence target events).dropLast,
      t.events.length = fileRecords target := by
  have hpos := fileRecords_pos target
  have hstart : Written level sequence target [] ⟨[], none, sequence, 0⟩ :=
    ⟨[], rfl, fun c hc => absurd hc List.not_mem_nil, rfl, rfl, rfl⟩
  obtain ⟨chunks, houts, hfull, hopen⟩ := (foldl_written events [] _ hstart).full
  -- the files that were closed on the way
  have hclosed : ∀ t ∈ (events.foldl (write_event level target) ⟨[], none, sequence, 0⟩).outputs,
      t.events.length = fileRecords target := by
    intro t ht
    rw [houts] at ht
    obtain ⟨p, hp, rfl⟩ := List.mem_map.mp ht
    exact hfull p.1 (List.fst_mem_of_mem_zipIdx hp)
  have hwhole : ∀ t ∈ (events.foldl (write_event level target) ⟨[], none, sequence, 0⟩).outputs,
      t.events ≠ [] ∧ t.events.length ≤ fileRecords target := by
    intro t ht
    have hlen := hclosed t ht
    exact ⟨List.length_pos_iff.mp (hlen ▸ hpos), Nat.le_of_eq hlen⟩
  rw [Compaction.write_outputs, finish]
  cases hw : (events.foldl (write_event level target) ⟨[], none, sequence, 0⟩).writer with
  | none => exact ⟨hwhole, fun t ht => hclosed t (List.dropLast_subset _ ht)⟩
  | some sp =>
      obtain ⟨seq, part⟩ := sp
      rw [hw] at hopen
      obtain ⟨-, -, -, -, hpart, hlt⟩ := hopen
      constructor
      · intro t ht
        rcases List.mem_append.mp ht with ht | ht
        · exact hwhole t ht
        · rw [List.mem_singleton.mp ht]
          exact ⟨hpart, Nat.le_of_lt hlt⟩
      · rw [List.dropLast_concat]
        exact hclosed

theorem reaches_iff {target n : Nat} (hpos : 0 < n) (hle : n ≤ fileRecords target) :
    ReachesTarget target n ↔ n = fileRecords target :=
  rotates_iff hpos hle

/-! ## A session -/

/-- The memtables of a session whose log had filled one up to `replayed` bytes. -/
structure Roomy (cfg : DBConfig) (replayed : Nat) (db : DB) : Prop where
  started : 4096 ≤ replayed
  config : db.cfg = cfg
  active : Fitted db.active_mem
  threshold : db.active_mem.flush_threshold = cfg.memtable_flush_bytes
  below : db.active_mem.arena.used < memtableLimit cfg replayed
  queued : ∀ m ∈ db.imm_mems, Fitted m ∧ m.nodes ≠ [] ∧
    m.arena.used < memtableLimit cfg replayed + 2 * Arena.kBlockSize

section
variable {cfg : DBConfig} {replayed : Nat} {db : DB}

theorem Roomy.congr (h : Roomy cfg replayed db) {db' : DB} (hcfg : db'.cfg = db.cfg)
    (hactive : db'.active_mem = db.active_mem) (himm : ∀ m ∈ db'.imm_mems, m ∈ db.imm_mems) :
    Roomy cfg replayed db' := by
  refine ⟨h.started, hcfg.trans h.config, ?_, ?_, ?_, fun m hm => h.queued m (himm m hm)⟩ <;>
    rw [hactive]
  · exact h.active
  · exact h.threshold
  · exact h.below

/-- A memtable with something in it is queued, and a new one takes its place. -/
theorem Roomy.swapped (hstarted : 4096 ≤ replayed) (hcfg : db.cfg = cfg)
    (hactive : Fitted db.active_mem) (hne : db.active_mem.nodes ≠ [])
    (hused : db.active_mem.arena.used < memtableLimit cfg replayed + 2 * Arena.kBlockSize)
    (hqueued : ∀ m ∈ db.imm_mems, Fitted m ∧ m.nodes ≠ [] ∧
      m.arena.used < memtableLimit cfg replayed + 2 * Arena.kBlockSize) :
    Roomy cfg replayed (retire db) := by
  refine ⟨hstarted, hcfg, fitted_new _, congrArg DBConfig.memtable_flush_bytes hcfg, ?_, ?_⟩
  · have hused : (retire db).active_mem.arena.used = 4096 := rfl
    rw [hused, memtableLimit]
    omega
  · intro m hm
    rcases List.mem_append.mp hm with hm | hm
    · exact hqueued m hm
    · rw [List.mem_singleton.mp hm]
      exact ⟨hactive, hne, hused⟩

theorem Roomy.rotate (h : Roomy cfg replayed db) : Roomy cfg replayed db.rotate := by
  rcases rotate_cases db with heq | ⟨hne, heq⟩
  · rw [heq]
    exact h
  · rw [heq]
    exact .swapped h.started h.config h.active hne (Nat.lt_add_right _ h.below) h.queued

theorem Roomy.mem_insert (h : Roomy cfg replayed db) (e : Event) (height : Fin kMaxHeight) :
    Roomy cfg replayed (db.mem_insert e height) := by
  obtain ⟨hfitted, hused⟩ := h.active.insert e height
  rw [mem_insert_eq]
  split
  · refine .swapped h.started h.config hfitted (Keyed.upsert_ne_nil _ _) ?_ h.queued
    exact Nat.lt_of_le_of_lt hused (Nat.add_lt_add_right h.below _)
  · next hroom =>
      have hlt : (db.active_mem.insert e height).arena.used < cfg.memtable_flush_bytes := by
        rw [← h.threshold]
        rw [MemTable.should_flush, decide_eq_true_eq] at hroom
        exact Nat.lt_of_not_le hroom
      exact ⟨h.started, h.config, hfitted, h.threshold,
        Nat.lt_of_lt_of_le hlt (Nat.le_max_left ..), h.queued⟩

theorem Roomy.step (h : Roomy cfg replayed db) (s : Step) : Roomy cfg replayed (step db s) := by
  have hquiet : ∀ {db' : DB}, Quiet db db' → Roomy cfg replayed db' := fun hq =>
    h.congr hq.cfg hq.active fun m hm => hq.imm ▸ hm
  have hput : ∀ {s : Step}, (∃ db', Quiet db db' ∧ (Spec.step db s = db' ∨
      ∃ e height, Spec.step db s = db'.mem_insert e height)) →
      Roomy cfg replayed (Spec.step db s) := by
    intro s heffect
    obtain ⟨db', hq, heq | ⟨e, height, heq⟩⟩ := heffect
    · rw [heq]
      exact hquiet hq
    · rw [heq]
      exact (hquiet hq).mem_insert e height
  cases s with
  | append symbol args height io => exact hput (write_effect db (.inl ⟨_, _, _, _, rfl⟩))
  | remove symbol timestamp_ns sequence_id height io =>
      exact hput (write_effect db (.inr ⟨_, _, _, _, _, rfl⟩))
  | rotate => exact h.rotate
  | flush_front =>
      rcases flush_front_cases fun m hm => (h.queued m hm).2.1 with
        ⟨-, heq⟩ | ⟨mem, rest, himm, -, heq⟩
      · rw [Spec.step, heq]
        exact h
      · rw [Spec.step, heq]
        exact h.congr rfl rfl fun m hm => himm ▸ List.mem_cons_of_mem _ hm
  | compact =>
      obtain ⟨hactive, himm⟩ := compact_same db
      exact h.congr (compact_aside db).cfg hactive fun m hm => himm ▸ hm
  | stop => exact hquiet ⟨rfl, rfl, rfl, rfl, rfl, rfl⟩
  | save_symbols => exact hquiet ⟨rfl, rfl, rfl, rfl, rfl, rfl⟩

/-- What is flushed was queued. -/
theorem Roomy.flushes (h : Roomy cfg replayed db) :
    ∀ w ∈ tablesWritten db .flush_front, w.2.events ≠ [] ∧
      128 * w.2.events.length < memtableLimit cfg replayed + 2 * Arena.kBlockSize := by
  intro w hw
  rw [tablesWritten] at hw
  cases himm : db.imm_mems with
  | nil =>
      rw [himm] at hw
      cases hw
  | cons mem rest =>
      obtain ⟨hfitted, hne, hused⟩ := h.queued mem (himm ▸ List.mem_cons_self)
      rw [himm] at hw
      dsimp only at hw
      split at hw
      · cases hw
      · rw [List.mem_singleton.mp hw]
        have hnodes := hfitted.nodes
        refine ⟨hne, Nat.lt_of_le_of_lt ?_ hused⟩
        exact Nat.le_trans hnodes (Nat.sub_le _ _)

/-- What is compacted are the outputs of the run. -/
theorem compacts (db : DB) :
    (∀ w ∈ tablesWritten db .compact, w.2.events ≠ [] ∧
      w.2.events.length ≤ fileRecords db.cfg.sstable_target_bytes) ∧
    ∀ w ∈ (tablesWritten db .compact).dropLast,
      w.2.events.length = fileRecords db.cfg.sstable_target_bytes := by
  rw [tablesWritten]
  split
  · exact ⟨fun w hw => absurd hw List.not_mem_nil, fun w hw => absurd hw List.not_mem_nil⟩
  · cases hrun : Compaction.run db.disk.ssts (db.levels 0) 1 db.sst_seq
        db.cfg.sstable_target_bytes with
    | error err => exact ⟨fun w hw => absurd hw List.not_mem_nil,
        fun w hw => absurd hw List.not_mem_nil⟩
    | ok r =>
        obtain ⟨outputs, stats⟩ := r
        rw [Compaction.run] at hrun
        split at hrun
        · cases hrun
        · cases hrun
          obtain ⟨hall, hfull⟩ := write_outputs_sizes 1 db.sst_seq db.cfg.sstable_target_bytes
            (merge 1 _)
          constructor
          · intro w hw
            obtain ⟨t, ht, rfl⟩ := List.mem_map.mp hw
            exact hall t ht
          · intro w hw
            rw [← List.map_dropLast] at hw
            obtain ⟨t, ht, rfl⟩ := List.mem_map.mp hw
            exact hfull t ht

theorem Roomy.within (h : Roomy cfg replayed db) (s : Step) : WithinSizes cfg replayed db s := by
  have hnext := h.step s
  refine ⟨hnext.below, fun m hm => (hnext.queued m hm).2, ?_, ?_, ?_, ?_⟩
  · intro w hw
    cases s with
    | flush_front => exact (h.flushes w hw).1
    | compact => exact ((compacts db).1 w hw).1
    | _ => cases hw
  · intro hs w hw
    rw [hs] at hw
    exact (h.flushes w hw).2
  · intro hs w hw n hpos hlt hreaches
    rw [hs] at hw
    have hle := ((compacts db).1 w hw).2
    rw [h.config] at hle
    have hfull := (reaches_iff hpos (Nat.le_of_lt (Nat.lt_of_lt_of_le hlt hle))).mp hreaches
    exact Nat.lt_irrefl _ (Nat.lt_of_lt_of_le (hfull ▸ hlt) hle)
  · intro hs w hw
    rw [hs] at hw
    have hfull := (compacts db).2 w hw
    rw [h.config] at hfull
    exact (reaches_iff (hfull ▸ fileRecords_pos _) (Nat.le_of_eq hfull)).mpr hfull

end

/-! ## What `open` fills -/

theorem fitted_replay (heights : Nat → Fin kMaxHeight) (records : List WALRecord) {m : MemTable}
    (h : Fitted m) : Fitted (DB.replay heights records m) ∧
      (DB.replay heights records m).flush_threshold = m.flush_threshold := by
  rw [DB.replay]
  generalize records.zipIdx = l
  induction l generalizing m with
  | nil => exact ⟨h, rfl⟩
  | cons p l ih => exact ih (h.insert p.1.event (heights p.2)).1

theorem opened_roomy (cfg : DBConfig) (disk : Disk) (listing : List SSTablePath)
    (heights : Nat → Fin kMaxHeight) :
    Roomy cfg (opened cfg disk listing heights).active_mem.arena.used
      (opened cfg disk listing heights) := by
  have hone : ∀ {db : DB}, db.cfg = cfg → Fitted db.active_mem →
      db.active_mem.flush_threshold = cfg.memtable_flush_bytes → db.imm_mems = [] →
      Roomy cfg db.active_mem.arena.used db := by
    intro db hcfg hactive hthreshold himm
    refine ⟨hactive.started, hcfg, hactive, hthreshold, ?_, fun m hm => ?_⟩
    · exact Nat.lt_of_lt_of_le (Nat.lt_succ_self _) (Nat.le_max_right ..)
    · rw [himm] at hm
      cases hm
  have hnew := fitted_new cfg.memtable_flush_bytes
  rw [opened, DB.open_]
  simp only []
  split
  · split
    · obtain ⟨hreplay, hthreshold⟩ := fitted_replay heights _ hnew
      split <;> exact hone rfl hreplay hthreshold rfl
    · split <;> exact hone rfl hnew rfl rfl
  · exact hone rfl hnew rfl rfl

/-- Whatever the directory held: in every session the memtables stay within two blocks of
the threshold (or of what the log had filled), the flushed tables within what fits in one,
and a compaction fills each of its outputs up to the target and none beyond. -/
theorem session_within_sizes (cfg : DBConfig) (disk : Disk) (listing : List SSTablePath)
    (heights : Nat → Fin kMaxHeight) (steps : List Step) :
    Run.Along step
      (WithinSizes cfg (opened cfg disk listing heights).active_mem.arena.used)
      (opened cfg disk listing heights) steps :=
  Run.along_of_invariant (I := Roomy cfg (opened cfg disk listing heights).active_mem.arena.used)
    (fun _ s _ h => h.within s) (fun _ s _ h => h.step s)
    (opened_roomy cfg disk listing heights)

end Kronos
