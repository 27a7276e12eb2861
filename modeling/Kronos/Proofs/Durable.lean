import Kronos.Proofs.Process

/-!
# What is told is served, in every later session

An event that the log has brought into the active memtable is moved by the
session: into an immutable memtable, into a file that a flush writes, into the
output of a compaction. Files of earlier sessions may be overwritten on the
way, as file numbers start again at 1; the event does not depend on them.
-/

namespace Kronos

open Spec Compaction

/-! ## Where an event is -/

/-- The event is in a memtable or in a listed file of the session's own. -/
def HeldBy (made : List SSTablePath) (db : DB) (e : Event) : Prop :=
  e ∈ inMemtables db ∨ ∃ l, (l = 0 ∨ l = 1) ∧ ∃ info ∈ db.levels l, info.path ∈ made ∧
    ∃ events, Tabled db.disk.ssts info events ∧ e ∈ events

/-- All events of `K` are there, and the next flush has a file of its own to write. -/
structure Located (K : Event → Prop) (made : List SSTablePath) (db : DB) : Prop where
  dirs : ∀ l, (l = 0 ∨ l = 1) → ∀ info ∈ db.levels l, info.path.dir = l.val
  numbers : ∀ n, DB.flush_path n ∈ made → n < db.sst_seq
  held : ∀ e, K e → HeldBy made db e

variable {P K : Event → Prop} {made : List SSTablePath} {db : DB}

theorem Located.quiet (h : Located K made db) {db' : DB} (hq : Quiet db db') :
    Located K made db' := by
  refine ⟨?_, ?_, fun e he => ?_⟩
  · rw [hq.levels]; exact h.dirs
  · rw [hq.sst_seq]; exact h.numbers
  · rw [HeldBy, inMemtables, hq.active, hq.imm, hq.levels, hq.ssts]; exact h.held e he

theorem Located.imp {K' : Event → Prop} (himp : ∀ e, K' e → K e) (h : Located K made db) :
    Located K' made db := ⟨h.dirs, h.numbers, fun e he => h.held e (himp e he)⟩

/-- Only memtables change, and what is in them stays. -/
theorem Located.memtables {K' : Event → Prop} (h : Located K made db) {db' : DB}
    (hrest : ∃ active_mem imm_mems, db' = { db with active_mem, imm_mems })
    (hstay : ∀ e, K' e → e ∈ inMemtables db' ∨
      K e ∧ (e ∈ inMemtables db → e ∈ inMemtables db')) : Located K' made db' := by
  obtain ⟨active_mem, imm_mems, rfl⟩ := hrest
  refine ⟨h.dirs, h.numbers, fun e he => ?_⟩
  rcases hstay e he with hin | ⟨hK, hmove⟩
  · exact .inl hin
  · exact (h.held e hK).imp_left hmove

/-- The event that is inserted is there as well. -/
theorem Located.mem_insert (h : Located K made db)
    (hsorted : Keyed.Sorted Event.key db.active_mem.nodes) {x : Event}
    (honly : ∀ e, K e → x.key = e.key → x = e) (height : Fin kMaxHeight) :
    Located (fun e => K e ∨ e = x) made (db.mem_insert x height) := by
  refine h.memtables (mem_insert_rest x height db) fun e he => ?_
  rw [(inMemtables_insert hsorted x height).mem_iff]
  rcases he with he | rfl
  · refine .inr ⟨he, fun hin => ?_⟩
    rcases List.mem_append.mp hin with hin | hin
    · by_cases hkey : e.key = x.key
      · rw [honly e he hkey.symm]
        exact List.mem_cons_self
      · refine List.mem_cons_of_mem _ (List.mem_append_left _ (List.mem_filter.mpr ⟨hin, ?_⟩))
        exact decide_eq_true hkey
    · exact List.mem_cons_of_mem _ (List.mem_append_right _ hin)
  · exact .inl List.mem_cons_self

theorem Located.rotate (h : Located K made db) : Located K made db.rotate := by
  refine h.memtables (rotate_rest db) fun e he => .inr ⟨he, fun hin => ?_⟩
  rcases rotate_cases db with heq | ⟨-, heq⟩ <;> rw [heq]
  · exact hin
  · exact (inMemtables_retire db).symm.subset hin

/-! ## Flushing -/

theorem made_flush {mem : MemTable} {rest : List MemTable} (himm : db.imm_mems = mem :: rest)
    (hne : mem.nodes ≠ []) :
    (created db .flush_front).map Prod.fst = [DB.flush_path db.sst_seq] := by
  have hempty : mem.empty ≠ true := by
    rw [MemTable.empty, ne_eq, List.isEmpty_iff]
    exact hne
  simp only [created, himm, if_neg hempty, List.map_cons, List.map_nil]

theorem Located.publish (h : Located K made db) {mem : MemTable} {rest : List MemTable}
    (himm : db.imm_mems = mem :: rest) (hsorted : Keyed.Sorted Event.key mem.nodes) :
    Located K (made ++ [DB.flush_path db.sst_seq]) (publish mem rest db) := by
  have hfresh : ∀ path ∈ made, path ≠ DB.flush_path db.sst_seq := fun path hpath heq =>
    Nat.lt_irrefl _ (h.numbers _ (heq ▸ hpath))
  have hnew : (⟨DB.flush_path db.sst_seq, (SSTable.write 0 db.sst_seq mem.nodes).meta_⟩ :
      SSTableInfo) ∈ (Kronos.publish mem rest db).levels 0 := by
    rw [publish_l0]
    exact List.mem_append_right _ (List.mem_singleton.mpr rfl)
  have hold : ∀ l, ∀ info ∈ db.levels l, info ∈ (Kronos.publish mem rest db).levels l := by
    intro l info hinfo
    by_cases hl : l = 0
    · subst hl
      rw [publish_l0]
      exact List.mem_append_left _ hinfo
    · rw [publish_above mem rest db hl]
      exact hinfo
  refine ⟨fun l hl info hinfo => ?_, fun n hn => ?_, ?_⟩
  · rcases hl with rfl | rfl
    · rw [publish_l0] at hinfo
      rcases List.mem_append.mp hinfo with hinfo | hinfo
      · exact h.dirs 0 (.inl rfl) info hinfo
      · rw [List.mem_singleton.mp hinfo]
        rfl
    · rw [publish_above mem rest db (by decide)] at hinfo
      exact h.dirs 1 (.inr rfl) info hinfo
  · show n < db.sst_seq + 1
    rcases List.mem_append.mp hn with hn | hn
    · exact Nat.lt_succ_of_lt (h.numbers n hn)
    · rw [flush_path_inj (List.mem_singleton.mp hn)]
      exact Nat.lt_succ_self _
  · intro e he
    rcases h.held e he with hin | ⟨l, hl, info, hinfo, hmade, events, htable, hin⟩
    · rcases List.mem_append.mp hin with hin | hin
      · exact .inl (List.mem_append_left _ hin)
      · rw [himm, List.flatMap_cons, List.mem_append] at hin
        rcases hin with hin | hin
        · refine .inr ⟨0, .inl rfl, _, hnew, ?_, mem.nodes, ?_, hin⟩
          · exact List.mem_append_right _ (List.mem_singleton.mpr rfl)
          · exact Tabled.written _ _ _ _ hsorted
        · exact .inl (List.mem_append_right _ hin)
    · refine .inr ⟨l, hl, info, hold l info hinfo, List.mem_append_left _ hmade, events, ?_, hin⟩
      exact htable.insert_ne (hfresh _ hmade) _

theorem Located.flush_front (h : Located K made db)
    (hsorted : ∀ m ∈ db.active_mem :: db.imm_mems, Keyed.Sorted Event.key m.nodes) :
    Located K (made ++ (created db .flush_front).map Prod.fst) db.flush_front := by
  cases himm : db.imm_mems with
  | nil =>
      have hmade : created db .flush_front = [] := by rw [created, himm]
      have hsame : db.flush_front = db := by rw [DB.flush_front, himm]
      rw [hmade, hsame, List.map_nil, List.append_nil]
      exact h
  | cons mem rest =>
      by_cases hne : mem.nodes = []
      · -- there is nothing in it, and no file
        have hempty : mem.empty = true := by rw [MemTable.empty, hne]; rfl
        have hmade : created db .flush_front = [] := by
          simp only [created, himm, hempty, if_true]
        have hdrop : db.flush_front = { db with imm_mems := rest, sst_seq := db.sst_seq + 1 } := by
          rw [DB.flush_front, himm]
          simp only [DB.do_flush, hempty, if_true]
        rw [hmade, hdrop, List.map_nil, List.append_nil]
        refine ⟨h.dirs, fun n hn => Nat.lt_succ_of_lt (h.numbers n hn), fun e he =>
          (h.held e he).imp_left fun hin => ?_⟩
        rcases List.mem_append.mp hin with hin | hin
        · exact List.mem_append_left _ hin
        · rw [himm, List.flatMap_cons, hne, List.nil_append] at hin
          exact List.mem_append_right _ hin
      · have hpublish : db.flush_front = Kronos.publish mem rest db := by
          rw [DB.flush_front, himm]
          simp only [DB.do_flush]
          exact if_neg (by rw [MemTable.empty, List.isEmpty_iff]; exact hne)
        rw [made_flush himm hne, hpublish]
        exact h.publish himm (hsorted mem (himm ▸ List.mem_cons_of_mem _ List.mem_cons_self))

/-! ## Compacting -/

/-- An input that was read whole was a finished table. -/
theorem FilesWith.inputs_finished {ssts : SSTableDir} (h : FilesWith P ssts)
    {inputs : List SSTableInfo} {all all' : List EventWithSeq}
    (hread : Compaction.read_inputs ssts all inputs = .ok all') :
    ∀ info ∈ inputs, ∃ t, ssts.lookup info.path = some (.finished t) := by
  induction inputs generalizing all with
  | nil => exact fun info hinfo => absurd hinfo List.not_mem_nil
  | cons info inputs ih =>
      rw [Compaction.read_inputs] at hread
      cases hlook : ssts.lookup info.path with
      | none =>
          simp only [read_input, hlook] at hread
          cases hread
      | some file =>
          cases file with
          | torn t =>
              simp only [read_input, hlook, SSTableFile.read_meta,
                show t.meta_ = none from h info.path _ hlook] at hread
              cases hread
          | finished t =>
              simp only [read_input_ok hlook] at hread
              intro info' hinfo'
              rcases List.mem_cons.mp hinfo' with rfl | hinfo'
              · exact ⟨t, hlook⟩
              · exact ih hread info' hinfo'

/-- A compaction either leaves all files alone or replaces level 0. -/
theorem FilesWith.compact_cases (h : FilesWith P db.disk.ssts) :
    (created db .compact = [] ∧
      ∃ sst_seq, db.sst_seq ≤ sst_seq ∧ after db.compact_now = { db with sst_seq }) ∨
    ∃ chunks : List (List Event),
      chunks.flatten = merge 1 ((db.levels 0).flatMap fun info =>
        versions info (fileEvents db.disk.ssts info)) ∧
      created db .compact = (tablesOf chunks db.sst_seq).map
        (fun t => (output_path 1 t, t.meta_.sequence)) ∧
      after db.compact_now = replaceL0 (tablesOf chunks db.sst_seq) db := by
  by_cases hne : db.levels 0 = []
  · refine .inl ⟨by rw [created, if_pos hne], db.sst_seq, Nat.le_refl _, ?_⟩
    rw [DB.compact_now, DB.do_compact_l0, if_pos hne]
    rfl
  cases hrun : Compaction.run db.disk.ssts (db.levels 0) 1 db.sst_seq
      db.cfg.sstable_target_bytes with
  | error err =>
      refine .inl ⟨by rw [created, if_neg hne, hrun], db.sst_seq + 1, Nat.le_succ _, ?_⟩
      simp only [DB.compact_now, DB.do_compact_l0, if_neg hne, hrun]
      rfl
  | ok result =>
      obtain ⟨outputs, stats⟩ := result
      have hthere : ∀ info ∈ db.levels 0,
          ∃ t, db.disk.ssts.lookup info.path = some (.finished t) := by
        have hok := hrun
        rw [Compaction.run] at hok
        split at hok
        · cases hok
        · next all hread => exact h.inputs_finished hread
      obtain ⟨chunks, stats', hflat, -, -, hrun'⟩ :=
        run_tables hthere db.sst_seq db.cfg.sstable_target_bytes
      obtain ⟨houts, -⟩ := Prod.mk.inj (Except.ok.inj (hrun.symm.trans hrun'))
      have hcreated : created db .compact = outputs.map
          (fun t => (output_path 1 t, t.meta_.sequence)) := by rw [created, if_neg hne, hrun]
      by_cases hchunks : chunks = []
      · -- every input was empty
        have hnone : outputs = [] := by rw [houts, hchunks]; rfl
        refine .inl ⟨by rw [hcreated, hnone, List.map_nil], db.sst_seq + 1, Nat.le_succ _, ?_⟩
        simp only [DB.compact_now, DB.do_compact_l0, if_neg hne, hrun, hnone, if_true]
        rfl
      · refine .inr ⟨chunks, hflat, by rw [hcreated, houts], ?_⟩
        rw [DB.compact_now, do_compact_l0_eq hne hchunks hrun']
        rfl

theorem Located.compact (h : Located K made db) (hfiles : FilesWith P db.disk.ssts)
    (honly : ∀ e, K e → ∀ x, P x → x.key = e.key → x = e)
    (hfresh : ∀ c ∈ created db .compact, c.1 ∉ made) :
    Located K (made ++ (created db .compact).map Prod.fst) (after db.compact_now) := by
  rcases hfiles.compact_cases with ⟨hmade, sst_seq, hle, heq⟩ | ⟨chunks, hflat, hmade, heq⟩
  · rw [hmade, heq, List.map_nil, List.append_nil]
    exact ⟨h.dirs, fun n hn => Nat.lt_of_lt_of_le (h.numbers n hn) hle, h.held⟩
  have hflushed : ∀ f ∈ db.levels 0, f.path.dir = 0 := h.dirs 0 (.inl rfl)
  have hpath : ∀ t ∈ tablesOf chunks db.sst_seq, output_path 1 t ∉ made := fun t ht => by
    refine hfresh (output_path 1 t, t.meta_.sequence) ?_
    rw [hmade]
    exact List.mem_map.mpr ⟨t, ht, rfl⟩
  have hnew : ∀ path, path ∈ (created db .compact).map Prod.fst ↔
      ∃ t ∈ tablesOf chunks db.sst_seq, output_path 1 t = path := fun path => by
    rw [hmade, List.map_map, List.mem_map]
    rfl
  have hl1 : ∀ info, info ∈ (replaceL0 (tablesOf chunks db.sst_seq) db).levels 1 ↔
      info ∈ db.levels 1 ∨ ∃ t ∈ tablesOf chunks db.sst_seq, infoOf t = info := fun info => by
    rw [replaceL0_l1, (sort_level_perm _).mem_iff, List.mem_append, List.mem_map]
  rw [heq]
  refine ⟨fun l hl info hinfo => ?_, fun n hn => ?_, ?_⟩
  · rcases hl with rfl | rfl
    · rw [replaceL0_l0] at hinfo
      cases hinfo
    · rcases (hl1 info).mp hinfo with hinfo | ⟨t, ht, rfl⟩
      · exact h.dirs 1 (.inr rfl) info hinfo
      · rfl
  · show n < db.sst_seq + 1
    rcases List.mem_append.mp hn with hn | hn
    · exact Nat.lt_succ_of_lt (h.numbers n hn)
    · obtain ⟨t, -, hout⟩ := (hnew _).mp hn
      cases hout
  intro e he
  rcases h.held e he with hin | ⟨l, rfl | rfl, info, hinfo, hown, events, htable, hin⟩
  · exact .inl hin
  · -- the only version of its key, so the merge keeps it
    have hmerged : e ∈ chunks.flatten := by
      rw [hflat]
      refine merge_keeps (List.mem_flatMap.mpr ⟨info, hinfo, ?_⟩) fun x hx hkey => ?_
      · rw [htable.events_eq]
        exact hin
      · obtain ⟨info', -, hx⟩ := List.mem_flatMap.mp hx
        rw [fileEvents] at hx
        split at hx
        · next t hlook => exact honly e he x ((hfiles _ _ hlook).all x hx) hkey
        · cases hx
    rw [← tablesOf_events chunks db.sst_seq] at hmerged
    obtain ⟨t, ht, hin⟩ := List.mem_flatMap.mp hmerged
    refine .inr ⟨1, .inr rfl, infoOf t, (hl1 _).mpr (.inr ⟨t, ht, rfl⟩), ?_, t.events, ?_, hin⟩
    · exact List.mem_append_right _ ((hnew _).mpr ⟨t, ht, rfl⟩)
    · exact output_tabled hflushed ht (chunks_sorted hflat)
  · refine .inr ⟨1, .inr rfl, info, (hl1 _).mpr (.inl hinfo), List.mem_append_left _ hown, events,
      ?_, hin⟩
    refine ⟨?_, htable.meta_eq, htable.sorted⟩
    rw [← htable.file]
    refine listed_untouched hflushed (h.dirs 1 (.inr rfl) info hinfo) fun i hi heq => ?_
    rw [heq] at hown
    exact hpath _ (mem_tablesOf_at hi) hown

/-! ## A session -/

theorem created_write {s : Step} {p : Bytes × Event} (hw : written db s = some p) :
    created db s = [] := by
  obtain ⟨-, _, _, _, -, ⟨_, rfl, -⟩ | ⟨_, _, rfl, -⟩⟩ := written_step hw <;> rfl

/-- A step that writes no file. -/
theorem filing_still {t : Filing} {s : Step} (hs : created t.db s = []) :
    t.step s = ⟨Spec.step t.db s, t.made⟩ := by
  rw [Filing.step, hs, List.map_nil, List.append_nil]

theorem filing_db (t : Filing) (steps : List Step) :
    (steps.foldl Filing.step t).db = steps.foldl step t.db := by
  induction steps generalizing t with
  | nil => rfl
  | cons s steps ih => exact ih (t.step s)

theorem Located.step {t : Filing} (h : Located K t.made t.db) (hholding : Holding P t.db)
    {events : List Event} (hlogs : Logs t.db events)
    (honly : ∀ e, K e → ∀ x, P x → x.key = e.key → x = e) {s : Step}
    (hok : Filing.Proceeds t s) (hP : ∀ p, written t.db s = some p → P p.2) :
    Located (fun e => K e ∨ ∃ p, written t.db s = some p ∧ e = p.2) (t.step s).made
      (t.step s).db := by
  obtain ⟨hs, -, hc, hfresh⟩ := hok
  cases hw : written t.db s with
  | some p =>
      obtain ⟨-, db', height, hstep, hquiet, -⟩ := hlogs.write hs hw
      have hsorted : Keyed.Sorted Event.key db'.active_mem.nodes := by
        rw [hquiet.active]
        exact hholding.mems _ List.mem_cons_self
      rw [filing_still (created_write hw), hstep]
      refine ((h.quiet hquiet).mem_insert hsorted (fun e he => honly e he p.2 (hP p hw))
        height).imp fun e he => he.imp_right ?_
      rintro ⟨q, hq, rfl⟩
      rw [Option.some.inj hq]
  | none =>
      suffices hstep : Located K (t.step s).made (t.step s).db from
        hstep.imp fun e he => he.resolve_right (by rintro ⟨p, hp, -⟩; cases hp)
      cases s with
      | rotate =>
          rw [filing_still rfl]
          exact h.rotate
      | flush_front => exact h.flush_front hholding.mems
      | compact => exact h.compact hholding.files honly (hfresh rfl)
      | stop => exact absurd trivial hc
      | save_symbols => exact absurd trivial hc
      | append symbol args height io =>
          rw [filing_still rfl, (unwritten_cases hw).resolve_right (by simp [Closes])]
          exact h
      | remove symbol timestamp_ns sequence_id height io =>
          rw [filing_still rfl, (unwritten_cases hw).resolve_right (by simp [Closes])]
          exact h

theorem proceeds_open {t : Filing} (hopen : t.db.closed = false) {events : List Event}
    (hlogs : Logs t.db events) {s : Step} (hok : Filing.Proceeds t s) :
    (t.step s).db.closed = false := by
  obtain ⟨hs, -, hc, -⟩ := hok
  show (Spec.step t.db s).closed = false
  cases hw : written t.db s with
  | some p =>
      obtain ⟨-, db', height, hstep, -, hclosed, -⟩ := hlogs.write hs hw
      rw [hstep, (mem_insert_aside p.2 height db').closed, hclosed]
  | none => rw [(unwritten_aside hc hw).closed, hopen]

/-- What is told and has its key to itself. -/
def Sole (P : Event → Prop) (told : List (Bytes × Event)) (e : Event) : Prop :=
  (∃ p ∈ told, p.2 = e) ∧ ∀ x, P x → x.key = e.key → x = e

theorem session_located {told : List (Bytes × Event)} {t : Filing} {steps : List Step}
    (hretains : Retains P told t.db) (hopen : t.db.closed = false)
    (hlocated : Located (Sole P told) t.made t.db)
    (hok : Run.Along Filing.step Filing.Proceeds t steps)
    (hP : ∀ e ∈ writesAlong t.db steps, P e) :
    Retains P (told ++ acknowledgedAlong t.db steps) (steps.foldl Filing.step t).db ∧
      (steps.foldl Filing.step t).db.closed = false ∧
      Located (Sole P (told ++ acknowledgedAlong t.db steps)) (steps.foldl Filing.step t).made
        (steps.foldl Filing.step t).db := by
  induction steps generalizing t told with
  | nil =>
      rw [acknowledgedAlong, List.append_nil]
      exact ⟨hretains, hopen, hlocated⟩
  | cons s steps ih =>
      obtain ⟨hs, hrest⟩ := hok
      obtain ⟨events, -, -, hlogs⟩ := hretains.log
      have hwrite : ∀ p, written t.db s = some p → P p.2 := fun p hw => by
        refine hP _ (List.mem_append_left _ ?_)
        rw [hw]
        exact List.mem_cons_self
      have hstep := hlocated.step hretains.holding hlogs (fun e he => he.2) hs hwrite
      rw [acknowledgedAlong, ← List.append_assoc]
      refine ih (hretains.step hs.1 hs.2.1 hwrite) (proceeds_open hopen hlogs hs)
        (hstep.imp fun e he => ?_) hrest fun e he => hP e (List.mem_append_right _ he)
      obtain ⟨⟨p, hp, rfl⟩, honly⟩ := he
      rcases List.mem_append.mp hp with hp | hp
      · exact .inl ⟨⟨p, hp, rfl⟩, honly⟩
      · exact .inr ⟨p, acknowledged_written (Option.mem_toList.mp hp), rfl⟩

/-- A directory just opened. -/
theorem RetainedIn.located {told : List (Bytes × Event)} {disk : Disk} (h : RetainedIn P told disk)
    {cfg : DBConfig} (hwal : cfg.wal_enabled = true) (listing : List SSTablePath)
    (heights : Nat → Fin kMaxHeight) :
    Located (Sole P told) [] (Spec.opened cfg disk listing heights) := by
  obtain ⟨hlevels, -⟩ := open_quiet cfg disk listing heights
  refine ⟨fun l _ info hinfo => ?_, fun n hn => absurd hn List.not_mem_nil, fun e he => ?_⟩
  · rw [hlevels, DB.load, (sort_level_perm _).mem_iff, DB.load_level, List.mem_filterMap] at hinfo
    obtain ⟨path, hpath, hinfo⟩ := hinfo
    obtain ⟨m, -, rfl⟩ := Option.map_eq_some_iff.mp hinfo
    exact of_decide_eq_true (List.mem_filter.mp hpath).2
  · obtain ⟨⟨p, hp, rfl⟩, honly⟩ := he
    exact .inl (List.mem_append_left _ ((h.opened hwal listing heights).2 p hp honly))

/-- What follows the session that a crash cut off. -/
def laterSession : List Step :=
  [.append [65] { timestamp_ns := 7 } 0 {}, .rotate, .flush_front, .compact]

theorem later_proceeds (db : DB) :
    Run.Along Filing.step Filing.Proceeds ⟨db, []⟩ laterSession := by
  have hshort : ShortSymbol (.append [65] { timestamp_ns := 7 } 0 {}) := by simp [ShortSymbol]
  refine ⟨⟨rfl, hshort, id, fun h => by cases h⟩, ⟨trivial, trivial, id, fun h => by cases h⟩,
    ⟨trivial, trivial, id, fun h => by cases h⟩,
    ⟨trivial, trivial, id, fun _ c hc hin => ?_⟩, trivial⟩
  -- what a flush has written lies in another directory
  have hflush : ∀ db path, path ∈ (created db .flush_front).map Prod.fst → path.dir = 0 := by
    intro db path hpath
    rw [created] at hpath
    split at hpath
    · cases hpath
    · split at hpath
      · cases hpath
      · rw [List.mem_singleton.mp hpath]
        rfl
  have hcompact : ∀ db, ∀ c ∈ created db .compact, c.1.dir = 1 := by
    intro db c hc
    rw [created] at hc
    split at hc
    · cases hc
    · split at hc
      · cases hc
      · obtain ⟨t, -, rfl⟩ := List.mem_map.mp hc
        rfl
  have hdir := hcompact _ c hc
  simp only [Filing.step, created, List.map_nil, List.append_nil, List.nil_append] at hin
  rw [hflush _ c.1 hin] at hdir
  cases hdir

/-- A crash in the record leaves tables and symbols as they are behind it. -/
theorem Retains.record {told : List (Bytes × Event)} (h : Retains P told db) {s : Step}
    (hs : Unhindered s) {p : Bytes × Event} (hw : written db s = some p) (stored : Nat) :
    let disk := (after ((db.intern p.1).2.wal_append p.2 ⟨stored, false⟩)).disk
    Shut disk.ssts ∧ disk.symbol_table = (Spec.step db s).disk.symbol_table := by
  obtain ⟨events, -, -, hlogs⟩ := h.log
  constructor
  · intro path t hlook
    rw [(wal_append_quiet _ _ _).ssts] at hlook
    exact h.holding.files path _ hlook
  · obtain ⟨-, db', height, hstep, -, -, -, htable, -⟩ := hlogs.write hs hw
    rw [hstep, (mem_insert_aside p.2 height db').symbol_table, htable]
    exact wal_append_symbols p.2 _ _

/-- Two appends beside each other, one of which has returned, and a flush that has
not written its file. -/
def racedActs : List ProcessAct :=
  [.write (.call (.append [65] {})), .write (.call (.append [66] {})), .write (.next 0 0),
    .write (.next 1 0), .write (.next 1 0), .write (.next 0 0), .write (.next 0 0),
    .write (.next 0 0), .rotate, .pop, .write (.next 0 0)]

def raced : Watched := racedActs.foldl Watched.act (Watched.start {} {} [] fun _ => 0)

end Kronos
