import Kronos.Proofs.Handing
import Kronos.Proofs.Recovered

/-!
# What a restart does to the rows

`close` leaves everything that was appended in the files of level 0, and the
next `open` lists them all. It replays the log as well, which nothing has ever
shortened. So where there is a log, all that was appended is there twice.
-/

namespace Kronos

open Spec Spec.Symbols

/-! ## What is gathered in a first session -/

/-- A first session of appends: the directory holds the files of level 0 and no
other, memtables and files together hold what was appended, and so does the log. -/
structure Gathered (t : Noted) : Prop where
  filed : Filed t.db
  above : t.db.levels 1 = []
  keys : t.db.disk.ssts.keys.Perm ((t.db.levels 0).map SSTableInfo.path)
  all : (visible t.db).Perm (t.appended.map Prod.snd)
  log : if t.db.cfg.wal_enabled then Logs t.db (t.appended.map Prod.snd) else t.db.wal = none
  counted : Counted t
  short : ∀ p ∈ t.db.symbols.name_to_id.entries, p.1.length ≤ 65535

section
variable {t : Noted} (h : Gathered t)

include h in
theorem Gathered.fresh {e : Event} (hid : e.sequence_id = t.db.next_seq)
    (hfew : t.appended.length + 1 < 2 ^ 64) : ∀ x ∈ visible t.db, x.key ≠ e.key := by
  intro x hx hkey
  obtain ⟨p, hp, rfl⟩ := List.mem_map.mp (h.all.subset hx)
  obtain ⟨i, hi⟩ := List.mem_iff_getElem?.mp hp
  have hlt := (List.getElem?_eq_some_iff.mp hi).1
  have hseq : p.2.sequence_id = e.sequence_id := congrArg Key.sequence_id hkey
  rw [h.counted.ids i p hi, hid, h.counted.next, ← UInt64.toNat_inj, UInt64.toNat_ofNat',
    UInt64.toNat_ofNat'] at hseq
  omega

/-- A new key is one event more. -/
theorem visible_insert {db : DB} (hsorted : Keyed.Sorted Event.key db.active_mem.nodes) {e : Event}
    (hfresh : ∀ x ∈ visible db, x.key ≠ e.key) (height : Fin kMaxHeight) :
    (visible (db.mem_insert e height)).Perm (e :: visible db) := by
  have hfiles : inFiles (db.mem_insert e height) = inFiles db := by
    obtain ⟨active_mem, imm_mems, heq⟩ := mem_insert_rest e height db
    rw [heq]
    rfl
  have hrest : db.active_mem.nodes.filter (·.key ≠ e.key) = db.active_mem.nodes :=
    List.filter_eq_self.mpr fun x hx => decide_eq_true (hfresh x (List.mem_append_left _ hx))
  have hmems := inMemtables_insert hsorted e height
  rw [hrest] at hmems
  rw [visible_eq, hfiles, visible_eq]
  exact hmems.append_right _

/-- A write where there is no log. -/
theorem unlogged_write {db : DB} (hwal : db.wal = none) {s : Step} {p : Bytes × Event}
    (hw : written db s = some p) : ∃ db' height, step db s = db'.mem_insert p.2 height ∧
      Quiet db db' ∧ db'.wal = none ∧ db'.closed = false ∧
      db'.symbols = (db.intern p.1).2.symbols ∧
      ((∃ args io, s = .append p.1 args height io ∧ db'.next_seq = db.next_seq + 1) ∨
        (∃ timestamp_ns sequence_id io, s = .remove p.1 timestamp_ns sequence_id height io ∧
          db'.next_seq = db.next_seq)) := by
  obtain ⟨hopen, height, io, next_seq, hstep, hkind⟩ := written_step hw
  refine ⟨{ (db.intern p.1).2 with next_seq }, height, ?_, ⟨rfl, rfl, rfl, rfl, rfl, rfl⟩, hwal,
    hopen, rfl, ?_⟩
  · have hnone : ({ (db.intern p.1).2 with next_seq } : DB).wal = none := hwal
    rw [hstep, DB.log_and_insert, DB.wal_append, hnone]
    rfl
  · rcases hkind with ⟨args, hkind, hseq⟩ | ⟨_, _, hkind, hseq⟩
    · exact .inl ⟨args, io, hkind, hseq⟩
    · exact .inr ⟨_, _, io, hkind, hseq⟩

include h in
/-- With or without a log, an append puts a record in the log and then an event
in the active memtable. -/
theorem Gathered.writes {symbol : Bytes} {args : Event} {height : Fin kMaxHeight}
    {p : Bytes × Event} (hw : written t.db (.append symbol args height {}) = some p) :
    ∃ db', step t.db (.append symbol args height {}) = db'.mem_insert p.2 height ∧
      Quiet t.db db' ∧ db'.closed = false ∧ db'.symbols = (t.db.intern symbol).2.symbols ∧
      db'.next_seq = t.db.next_seq + 1 ∧
      if t.db.cfg.wal_enabled then
        Logs (step t.db (.append symbol args height {})) (t.appended.map Prod.snd ++ [p.2])
      else db'.wal = none := by
  have hlog := h.log
  split at hlog
  · next hwal =>
      obtain ⟨hlogs, db', height', hstep, hquiet, hopen, hsymbols, -, hkind⟩ :=
        hlog.write (s := .append symbol args height {}) rfl hw
      rcases hkind with ⟨args', io', heq, hseq⟩ | ⟨_, _, _, heq, -⟩ <;> cases heq
      exact ⟨db', hstep, hquiet, hopen, hsymbols, hseq, by rw [if_pos hwal]; exact hlogs⟩
  · next hwal =>
      obtain ⟨db', height', hstep, hquiet, hnone, hopen, hsymbols, hkind⟩ := unlogged_write hlog hw
      rcases hkind with ⟨args', io', heq, hseq⟩ | ⟨_, _, _, heq, -⟩ <;> cases heq
      exact ⟨db', hstep, hquiet, hopen, hsymbols, hseq, by rw [if_neg hwal]; exact hnone⟩

theorem intern_short {db : DB} (h : ∀ p ∈ db.symbols.name_to_id.entries, p.1.length ≤ 65535)
    {symbol : Bytes} (hshort : symbol.length ≤ 65535) :
    ∀ p ∈ (db.intern symbol).2.symbols.name_to_id.entries, p.1.length ≤ 65535 := by
  intro p hp
  rcases intern_cases db symbol with ⟨-, heq⟩ | ⟨hnone, -, file, heq⟩ <;> rw [heq] at hp
  · exact h p hp
  · rw [insert_entries hnone] at hp
    rcases List.mem_cons.mp hp with rfl | hp
    · exact hshort
    · exact h p hp

include h in
/-- What only the memtables and the log see. -/
theorem Gathered.append {symbol : Bytes} (hshort : symbol.length ≤ 65535) (args : Event)
    (height : Fin kMaxHeight) (hfew : t.appended.length + 1 < 2 ^ 64) :
    Gathered (t.step (.append symbol args height {})) := by
  cases hw : written t.db (.append symbol args height {}) with
  | none =>
      have ha := unwritten_cases hw
      rw [noted_other hw]
      rcases ha with heq | heq | heq | heq | hcloses
      · rw [heq]
        exact h
      all_goals first | cases heq | cases hcloses
  | some p =>
      obtain ⟨db', hstep, hquiet, -, hsymbols, hseq, hlog⟩ := h.writes hw
      obtain ⟨hid, -⟩ := written_id hw
      obtain ⟨active_mem, imm_mems, hrest⟩ := mem_insert_rest p.2 height db'
      have hfresh := h.fresh hid hfew
      have hvisible : visible db' = visible t.db := by
        rw [visible_eq, inMemtables, inFiles, hquiet.active, hquiet.imm, hquiet.levels,
          hquiet.ssts, visible_eq, inMemtables, inFiles]
      have hins := visible_insert ((h.filed.quiet hquiet).mems _ List.mem_cons_self)
        (hvisible ▸ hfresh) height
      rw [noted_append hw]
      refine ⟨?_, ?_, ?_, ?_, ?_, h.counted.append ?_ hid, ?_⟩
      · simp only [hstep]
        exact (h.filed.quiet hquiet).mem_insert p.2 height
      · simp only [hstep, hrest, hquiet.levels]
        exact h.above
      · simp only [hstep, hrest, hquiet.levels, hquiet.ssts]
        exact h.keys
      · simp only [hstep, List.map_append, List.map_singleton]
        rw [hvisible] at hins
        exact hins.trans ((h.all.cons p.2).trans (List.perm_append_singleton _ _).symm)
      · have hcfg : (step t.db (.append symbol args height {})).cfg = t.db.cfg := by
          rw [hstep, hrest]
          exact hquiet.cfg
        simp only [hcfg, List.map_append, List.map_singleton]
        split
        · next hwal => rwa [if_pos hwal] at hlog
        · next hwal =>
            rw [if_neg hwal] at hlog
            rw [hstep, hrest]
            exact hlog
      · rw [hstep, hrest]
        exact hseq
      · simp only [hstep, hrest, hsymbols]
        exact intern_short h.short hshort

/-! ## Flushing -/

/-- A step that leaves what is gathered. -/
theorem Gathered.congr {db : DB} (hfiled : Filed db) (hrest : db.wal = t.db.wal ∧
      db.disk.wal = t.db.disk.wal ∧ db.symbols = t.db.symbols ∧ db.next_seq = t.db.next_seq ∧
      db.cfg = t.db.cfg) (hlevels : db.levels 1 = t.db.levels 1)
    (hkeys : db.disk.ssts.keys.Perm ((db.levels 0).map SSTableInfo.path))
    (hvisible : (visible db).Perm (visible t.db)) (h : Gathered t) :
    Gathered { t with db } := by
  obtain ⟨hwal, hlog, hsymbols, hseq, hcfg⟩ := hrest
  refine ⟨hfiled, hlevels.trans h.above, hkeys, hvisible.trans h.all, ?_,
    ⟨hseq.trans h.counted.next, h.counted.ids⟩, ?_⟩
  · have hlogs := h.log
    simp only [hcfg]
    split
    · next henabled =>
        rw [if_pos henabled] at hlogs
        exact hlogs.congr hwal hlog
    · next henabled =>
        rw [if_neg henabled] at hlogs
        exact hwal.trans hlogs
  · simp only [hsymbols]
    exact h.short

include h in
theorem Gathered.rotate : Gathered { t with db := t.db.rotate } := by
  rcases rotate_cases t.db with heq | ⟨hne, heq⟩ <;> rw [heq]
  · exact h
  · exact h.congr (h.filed.retire hne) ⟨rfl, rfl, rfl, rfl, rfl⟩ rfl h.keys
      (retire_visible t.db)

end

theorem publish_visible {db : DB} (h : Filed db) {mem : MemTable} {rest : List MemTable}
    (himm : db.imm_mems = mem :: rest) : (visible (publish mem rest db)).Perm (visible db) := by
  have hnew := (h.publish_tabled himm).events_eq
  have hkeep : ∀ info, info ∈ db.levels 0 ∨ info ∈ db.levels 1 →
      fileEvents (publish mem rest db).disk.ssts info = fileEvents db.disk.ssts info :=
    fun info hinfo => h.publish_keeps (h.mem_files.mpr hinfo)
  rw [visible, buriedEvents, files_to_scan_eq, publish_l0, (h.publish himm).deep.1,
    (h.publish himm).deep.2, publish_above mem rest db (by decide), visible, buriedEvents,
    files_to_scan_eq, h.deep.1, h.deep.2, himm]
  simp only [List.append_nil, List.flatMap_append, List.flatMap_cons, List.flatMap_nil, hnew,
    List.append_assoc]
  rw [List.flatMap_congr fun info hinfo => hkeep info (.inl hinfo),
    List.flatMap_congr fun info hinfo => hkeep info (.inr hinfo)]
  -- the memtable's events move behind the older files
  refine List.Perm.append_left _ ?_
  exact ((List.perm_append_comm_assoc _ _ _).append_left _).trans
    (List.perm_append_comm_assoc _ _ _)

theorem Gathered.flush_front {t : Noted} (h : Gathered t) :
    Gathered { t with db := t.db.flush_front } := by
  rcases flush_front_cases h.filed.full with ⟨-, heq⟩ | ⟨mem, rest, himm, -, heq⟩ <;> rw [heq]
  · exact h
  · have hpath : DB.flush_path t.db.sst_seq ∉ t.db.disk.ssts.keys := fun hin => by
      obtain ⟨info, hinfo, hpath⟩ := List.mem_map.mp (h.keys.subset hin)
      exact h.filed.flush_path_fresh (h.filed.mem_files.mpr (.inl hinfo)) hpath
    refine h.congr (h.filed.publish himm) ⟨rfl, rfl, rfl, rfl, rfl⟩
      (publish_above mem rest t.db (by decide)) ?_ (publish_visible h.filed himm)
    rw [publish_l0, List.map_append, List.map_singleton, publish, AList.keys_insert,
      List.erase_of_not_mem hpath]
    exact (h.keys.cons _).trans (List.perm_append_singleton _ _).symm

theorem Gathered.step {t : Noted} (h : Gathered t) {s : Step} (hs : Fills s)
    (hfew : t.appended.length + 1 < 2 ^ 64) : Gathered (t.step s) := by
  cases s with
  | append symbol args height io =>
      obtain ⟨hshort, rfl⟩ := hs
      exact h.append hshort args height hfew
  | rotate => exact h.rotate
  | flush_front => exact h.flush_front
  | _ => exact hs.elim

theorem Gathered.keeps_open {t : Noted} (h : Gathered t) {s : Step} (hs : Fills s)
    (hopen : t.db.closed = false) :
    (Spec.step t.db s).closed = false ∧ (Spec.step t.db s).cfg = t.db.cfg := by
  have hc : ¬ Closes s := fun hc => by cases s <;> first | exact hs | exact hc
  cases hw : written t.db s with
  | none =>
      have ha := unwritten_aside hc hw
      exact ⟨ha.closed.trans hopen, ha.cfg⟩
  | some p =>
      obtain ⟨-, height, _, _, -, hkind⟩ := written_step hw
      rcases hkind with ⟨args, rfl, -⟩ | ⟨_, _, rfl, -⟩
      · obtain ⟨-, rfl⟩ := hs
        obtain ⟨db', hstep, hquiet, hclosed, -⟩ := h.writes hw
        have ha := mem_insert_aside p.2 height db'
        rw [hstep]
        exact ⟨ha.closed.trans hclosed, ha.cfg.trans hquiet.cfg⟩
      · exact hs.elim

theorem start_gathered (cfg : DBConfig) (heights : Nat → Fin kMaxHeight) :
    Gathered (Noted.start cfg heights) ∧ (Noted.start cfg heights).db.cfg = cfg ∧
      (Noted.start cfg heights).db.closed = false := by
  obtain ⟨wal, dir, hdb, hlog⟩ := start_eq cfg heights
  have hcfg : (Noted.start cfg heights).db.cfg = cfg := by
    rw [hdb]
    rfl
  refine ⟨⟨?_, ?_, ?_, ?_, ?_, ⟨?_, fun i p hp => by cases hp⟩, ?_⟩, hcfg, ?_⟩
  · rw [hdb]
    exact (load_filed cfg).quiet ⟨rfl, rfl, rfl, rfl, rfl, rfl⟩
  · rw [hdb]
    rfl
  · rw [hdb]
    exact .refl _
  · rw [hdb]
    exact .refl _
  · rw [hcfg]
    by_cases hwal : cfg.wal_enabled = true
    · rw [if_pos hwal] at hlog ⊢
      exact hlog
    · rw [if_neg hwal] at hlog ⊢
      rw [hdb]
      exact hlog
  · rw [hdb]
    rfl
  · rw [hdb]
    exact fun p hp => by cases hp
  · rw [hdb]
    rfl

theorem run_gathered (cfg : DBConfig) (heights : Nat → Fin kMaxHeight) {steps : List Step}
    (hs : ∀ s ∈ steps, Fills s) (hfew : steps.length < 2 ^ 64) :
    Gathered ((Noted.start cfg heights).run steps) ∧
      ((Noted.start cfg heights).run steps).db.cfg = cfg ∧
      ((Noted.start cfg heights).run steps).db.closed = false := by
  induction steps using List.reverseRecOn with
  | nil => exact start_gathered cfg heights
  | append_singleton steps s ih =>
      rw [List.length_append, List.length_singleton] at hfew
      obtain ⟨h, hcfg, hopen⟩ := ih (fun s' hs' => hs s' (List.mem_append_left _ hs')) (by omega)
      have hfill := hs s (List.mem_append_right _ (List.mem_singleton.mpr rfl))
      have hlen := noted_length (Noted.start cfg heights) steps
      have hstart : (Noted.start cfg heights).appended.length = 0 := rfl
      obtain ⟨hopen', hcfg'⟩ := h.keeps_open hfill hopen
      rw [noted_concat, noted_db]
      exact ⟨h.step hfill (by omega), hcfg'.trans hcfg, hopen'⟩

/-! ## Closing -/

theorem flush_front_mems (db : DB) :
    db.flush_front.imm_mems = db.imm_mems.tail ∧ db.flush_front.active_mem = db.active_mem := by
  rw [DB.flush_front]
  split
  · next himm => exact ⟨by rw [himm]; rfl, rfl⟩
  · next himm =>
      rw [DB.do_flush, himm]
      split <;> exact ⟨rfl, rfl⟩

theorem drain_mems (db : DB) : db.drain.imm_mems = [] ∧ db.drain.active_mem = db.active_mem := by
  have hgen : ∀ n (db : DB), (DB.flush_front^[n] db).imm_mems = db.imm_mems.drop n ∧
      (DB.flush_front^[n] db).active_mem = db.active_mem := by
    intro n
    induction n with
    | zero => exact fun db => ⟨rfl, rfl⟩
    | succ n ih =>
        intro db
        obtain ⟨himm, hactive⟩ := flush_front_mems db
        rw [Function.iterate_succ_apply, (ih _).1, (ih _).2, himm, List.drop_tail]
        exact ⟨rfl, hactive⟩
  obtain ⟨himm, hactive⟩ := hgen db.imm_mems.length db
  exact ⟨by rw [DB.drain, himm, List.drop_length], hactive⟩

theorem drain_aside (db : DB) : Aside db db.drain := by
  rw [DB.drain]
  generalize db.imm_mems.length = n
  induction n generalizing db with
  | zero => exact .refl db
  | succ n ih =>
      rw [Function.iterate_succ_apply]
      exact (flush_front_aside db).trans (ih _)

theorem Gathered.drain {t : Noted} (h : Gathered t) : Gathered { t with db := t.db.drain } := by
  rw [DB.drain]
  generalize t.db.imm_mems.length = n
  induction n generalizing t with
  | zero => exact h
  | succ n ih =>
      rw [Function.iterate_succ_apply]
      exact ih h.flush_front

/-- What `close` leaves: nothing in memory, and everything in the files. -/
theorem Gathered.close {t : Noted} (h : Gathered t) (hopen : t.db.closed = false) :
    Gathered { t with db := t.db.close } ∧ inMemtables t.db.close = [] ∧
      t.db.close.disk.symbol_table = some t.db.symbols.flush ∧ t.db.close.cfg = t.db.cfg := by
  let db := ({ t.db with closed := true } : DB).rotate.drain
  have hclose : t.db.close = { db with disk.symbol_table := some db.symbols.flush } := by
    rw [DB.close, hopen]
    rfl
  have hstopped : Gathered { t with db := { t.db with closed := true } } :=
    h.congr (h.filed.quiet ⟨rfl, rfl, rfl, rfl, rfl, rfl⟩) ⟨rfl, rfl, rfl, rfl, rfl⟩ rfl h.keys
      (.refl _)
  have hdrained : Gathered { t with db } := hstopped.rotate.drain
  have ha : Aside { t.db with closed := true } db := (rotate_aside _).trans (drain_aside _)
  obtain ⟨himm, hactive⟩ := drain_mems ({ t.db with closed := true } : DB).rotate
  have hempty : ({ t.db with closed := true } : DB).rotate.active_mem.nodes = [] := by
    rw [rotate_eq]
    split
    · next hemp => exact List.isEmpty_iff.mp hemp
    · rfl
  rw [hclose]
  refine ⟨Gathered.congr (t := { t with db }) (hdrained.filed.quiet ⟨rfl, rfl, rfl, rfl, rfl, rfl⟩)
    ⟨rfl, rfl, rfl, rfl, rfl⟩ rfl hdrained.keys (.refl _) hdrained, ?_, ?_, ?_⟩
  · rw [inMemtables, show db.active_mem = _ from hactive, show db.imm_mems = [] from himm, hempty]
    rfl
  · rw [ha.symbols]
  · exact ha.cfg

/-! ## The next session -/

/-- The rows of a database whose listed files are in order. -/
theorem query_visible {db : DB} (hopen : db.closed = false)
    (hmems : ∀ m ∈ db.active_mem :: db.imm_mems, Keyed.Sorted Event.key m.nodes)
    (htabled : ∀ info ∈ files_to_scan db.levels,
      Tabled db.disk.ssts info (fileEvents db.disk.ssts info))
    {req : QueryRequest} {sym_id : UInt32} (hsym : db.symbols.lookup req.symbol = some sym_id) :
    ∃ r, db.query req = .ok r ∧ r.rows = (((visible db).filter
      (inRange (req.start_key sym_id) (req.end_key sym_id))).filter req.wants).take
        req.row_limit := by
  obtain ⟨r, hquery, -, hrows⟩ :=
    DB.query_rows ⟨hmems, fun info hinfo => (htabled info hinfo).ordered⟩ hopen hsym
  refine ⟨r, hquery, ?_⟩
  rw [hrows, queryRows, List.flatMap_congr fun info hinfo => (htabled info hinfo).delivers _ _,
    List.flatMap_cons, visible, buriedEvents]
  simp only [List.filter_flatMap, List.filter_append, List.append_assoc]

theorem Gathered.tabled {t : Noted} (h : Gathered t) : ∀ info ∈ files_to_scan t.db.levels,
    Tabled t.db.disk.ssts info (fileEvents t.db.disk.ssts info) := by
  intro info hinfo
  rcases h.filed.mem_files.mp hinfo with hinfo | hinfo
  · exact (h.filed.l0 info hinfo).1
  · rw [h.above] at hinfo
    cases hinfo

theorem Gathered.path {t : Noted} (h : Gathered t) {path : SSTablePath}
    (hpath : path ∈ t.db.disk.ssts.keys) : ∃ info ∈ t.db.levels 0, info.path = path ∧
      path.dir = 0 := by
  obtain ⟨info, hinfo, rfl⟩ := List.mem_map.mp (h.keys.subset hpath)
  exact ⟨info, hinfo, rfl, by rw [(h.filed.l0 info hinfo).2.1]; rfl⟩

theorem Gathered.readable {t : Noted} (h : Gathered t) : Readable t.db.disk.ssts := by
  intro path file _ hlook
  obtain ⟨info, hinfo, rfl, -⟩ := h.path (AList.lookup_isSome.mp (by rw [hlook]; rfl))
  have htab := (h.filed.l0 info hinfo).1
  rw [htab.file] at hlook
  cases hlook
  exact ⟨htab.meta_eq, htab.sorted⟩

/-- What lies in the directory is what the files of level 0 hold. -/
theorem Gathered.tables {t : Noted} (h : Gathered t) :
    (tableEvents t.db.disk.ssts).Perm (inFiles t.db) := by
  have hall : t.db.disk.ssts.keys.filter (·.dir < kMaxLevels) = t.db.disk.ssts.keys :=
    List.filter_eq_self.mpr fun path hpath => by
      obtain ⟨info, hinfo, -, hdir⟩ := h.path hpath
      rw [hdir]
      rfl
  rw [tableEvents, hall, inFiles, files_to_scan_eq, h.above, h.filed.deep.1, h.filed.deep.2,
    List.append_nil, List.append_nil, List.append_nil]
  refine (h.keys.flatMap_right _).trans ?_
  rw [List.flatMap_map]
  exact .refl _

/-- The names in a file that `close` has written. -/
theorem lookup_flushed {table : SymbolTable}
    (hshort : ∀ p ∈ table.name_to_id.entries, p.1.length ≤ 65535) (name : Bytes) :
    (SymbolTable.load table.flush).lookup name = table.lookup name := by
  refine Option.ext fun id => ?_
  rw [SymbolTable.flush, ← SymbolTable.flush_walk, lookup_load table.name_to_id.nodupKeys hshort,
    mem_entries]

theorem Counted.keys_nodup {t : Noted} (h : Counted t) (hfew : t.appended.length < 2 ^ 64) :
    ((t.appended.map Prod.snd).map Event.key).Nodup := by
  refine List.Nodup.of_map Key.sequence_id ?_
  rw [List.map_map, List.map_map, List.Nodup, List.pairwise_map, List.pairwise_iff_getElem]
  intro i j hi hj hij heq
  have hidi := h.ids i _ (List.getElem?_eq_getElem hi)
  have hidj := h.ids j _ (List.getElem?_eq_getElem hj)
  have heq : t.appended[i].2.sequence_id = t.appended[j].2.sequence_id := heq
  rw [hidi, hidj, ← UInt64.toNat_inj, UInt64.toNat_ofNat', UInt64.toNat_ofNat'] at heq
  omega

/-- What the next session opens with: what was written, from the files, and once
more from the log if there is one. -/
theorem Gathered.reopened {t : Noted} (h : Gathered t) (hopen : t.db.closed = false)
    (hfew : t.appended.length < 2 ^ 64) {listing : List SSTablePath}
    (hlisting : listing.Perm t.db.close.disk.ssts.keys) {heights : Nat → Fin kMaxHeight} {db : DB}
    (hdb : opened t.db.cfg t.db.close.disk listing heights = db) :
    db.closed = false ∧ (∀ name, db.symbols.lookup name = t.db.symbols.lookup name) ∧
      (∀ m ∈ db.active_mem :: db.imm_mems, Keyed.Sorted Event.key m.nodes) ∧
      (∀ info ∈ files_to_scan db.levels,
        Tabled db.disk.ssts info (fileEvents db.disk.ssts info)) ∧
      (visible db).Perm ((if t.db.cfg.wal_enabled then t.appended.map Prod.snd else []) ++
        t.appended.map Prod.snd) := by
  obtain ⟨hclose, hmems, htable, hcfg⟩ := h.close hopen
  obtain ⟨hlevels, -, himm, hssts⟩ := open_quiet t.db.cfg t.db.close.disk listing heights
  rw [hdb] at hlevels himm hssts
  have hsymbols : ∀ name, (DB.load t.db.cfg t.db.close.disk listing).symbols.lookup name =
      t.db.symbols.lookup name := fun name => by
    rw [DB.load, htable]
    exact lookup_flushed h.short name
  have hfiles : (inFiles db).Perm (t.appended.map Prod.snd) := by
    have hloaded := loaded_events hlisting fun l =>
      sort_level_perm (DB.load_level t.db.close.disk.ssts listing l)
    have hall := hclose.all
    rw [visible_eq, hmems, List.nil_append] at hall
    rw [inFiles, hlevels, hssts]
    exact hloaded.trans (hclose.tables.trans hall)
  have htabled : ∀ info ∈ files_to_scan db.levels,
      Tabled db.disk.ssts info (fileEvents db.disk.ssts info) := fun info hinfo => by
    rw [hlevels] at hinfo
    rw [hssts]
    obtain ⟨l, -, hinfo⟩ := List.mem_flatMap.mp hinfo
    exact (loaded_tabled hclose.readable ((sort_level_perm _).subset hinfo)).1
  have hlog := hclose.log
  simp only [hcfg] at hlog
  by_cases hwal : t.db.cfg.wal_enabled = true
  · rw [if_pos hwal] at hlog ⊢
    obtain ⟨-, hopened, hnodes, hsyms, -⟩ := opened_left hwal hlog.left listing heights
    rw [hdb] at hopened hnodes hsyms
    refine ⟨hopened, fun name => by rw [hsyms, hsymbols], fun m hm => ?_, htabled, ?_⟩
    · rw [himm] at hm
      rw [List.mem_singleton.mp hm, hnodes]
      exact Keyed.foldl_upsert_sorted _ List.Pairwise.nil
    · rw [visible_eq]
      refine List.Perm.append ?_ hfiles
      rw [inMemtables, himm, hnodes, List.flatMap_nil, List.append_nil]
      have hperm := Keyed.foldl_upsert_perm (m := []) List.Pairwise.nil
        (h.counted.keys_nodup hfew) fun _ _ x hx => by cases hx
      rwa [List.append_nil] at hperm
  · rw [if_neg hwal, List.nil_append]
    have hload : db = DB.load t.db.cfg t.db.close.disk listing :=
      hdb.symm.trans (opened_unlogged (Bool.eq_false_iff.mpr hwal) _ _ _)
    refine ⟨by rw [hload]; rfl, fun name => by rw [← hsymbols, hload], fun m hm => ?_, htabled, ?_⟩
    · rw [hload] at hm
      rw [List.mem_singleton.mp hm]
      exact List.Pairwise.nil
    · have hempty : inMemtables db = [] := by rw [hload]; rfl
      rw [visible_eq, hempty, List.nil_append]
      exact hfiles

theorem Gathered.rows_return {t : Noted} (h : Gathered t) (hopen : t.db.closed = false)
    (hfew : t.appended.length < 2 ^ 64) {listing : List SSTablePath}
    (hlisting : listing.Perm t.db.close.disk.ssts.keys) (heights : Nat → Fin kMaxHeight) :
    RowsReturn t.db listing heights := by
  intro req r hquery hroom
  obtain ⟨hopen', hsymbols, hmems, htabled, hvisible⟩ :=
    h.reopened hopen hfew hlisting
      (show opened t.db.cfg t.db.close.disk listing heights = reopen listing heights t.db from rfl)
  cases hsym : t.db.symbols.lookup req.symbol with
  | none =>
      rw [DB.query_unknown hopen hsym] at hquery
      cases hquery
      exact ⟨{}, DB.query_unknown hopen' ((hsymbols _).trans hsym), by split <;> exact .refl _⟩
  | some sym_id =>
      obtain ⟨r₀, hquery₀, hrows⟩ := query_visible hopen h.filed.mems h.tabled hsym
      rw [hquery] at hquery₀
      cases hquery₀
      obtain ⟨r', hquery', hrows'⟩ :=
        query_visible hopen' hmems htabled ((hsymbols _).trans hsym)
      refine ⟨r', hquery', ?_⟩
      -- the rows before are all there are
      have hpos : 0 < req.row_limit := by
        rw [QueryRequest.row_limit]
        split
        · next hlt => exact UInt32.lt_iff_toNat_lt.mp hlt
        · decide
      rw [hrows, List.length_take] at hroom
      rw [List.take_of_length_le (by omega)] at hrows
      have hbefore := ((h.all.filter (inRange (req.start_key sym_id) (req.end_key sym_id))).filter
        req.wants)
      have hafter := ((hvisible.filter (inRange (req.start_key sym_id) (req.end_key sym_id))).filter
        req.wants)
      rw [← hrows] at hbefore hroom
      rw [hrows']
      split at hafter
      · next hwal =>
          rw [if_pos hwal]
          rw [List.filter_append, List.filter_append] at hafter
          have htwice := hafter.trans (hbefore.append hbefore).symm
          rw [List.take_of_length_le]
          · exact htwice
          · rw [htwice.length_eq, List.length_append]
            omega
      · next hwal =>
          rw [if_neg hwal]
          have honce := hafter.trans hbefore.symm
          rw [List.take_of_length_le]
          · exact honce
          · rw [honce.length_eq]
            omega

/-- A restart returns every row once without a log, and twice with one. -/
theorem restart_returns (cfg : DBConfig) (heights : Nat → Fin kMaxHeight) (steps : List Step)
    (hs : ∀ s ∈ steps, Fills s) (hfew : steps.length < 2 ^ 64) {listing : List SSTablePath}
    (hlisting : listing.Perm (steps.foldl step (opened cfg {} [] heights)).close.disk.ssts.keys)
    (heights' : Nat → Fin kMaxHeight) :
    RowsReturn (steps.foldl step (opened cfg {} [] heights)) listing heights' := by
  obtain ⟨h, -, hopen⟩ := run_gathered cfg heights hs hfew
  have hdb : ((Noted.start cfg heights).run steps).db =
      steps.foldl step (opened cfg {} [] heights) := noted_run_db _ _
  rw [← hdb] at hlisting ⊢
  have hlen := noted_length (Noted.start cfg heights) steps
  have hstart : (Noted.start cfg heights).appended.length = 0 := rfl
  exact h.rows_return hopen (by omega) hlisting heights'

/-- A flushed event and one that is not. -/
def halfFlushed : List Step :=
  [.append [65] { timestamp_ns := 5 } 0 {}, .rotate, .flush_front, .append [65] {} 0 {}]

theorem restart_returns_half :
    RowsReturn (halfFlushed.foldl step (opened {} {} [] fun _ => 0))
      (halfFlushed.foldl step (opened {} {} [] fun _ => 0)).close.disk.ssts.keys (fun _ => 0) := by
  refine restart_returns {} (fun _ => 0) halfFlushed (fun s hs => ?_) (by decide) (.refl _) _
  simp only [halfFlushed, List.mem_cons, List.not_mem_nil, or_false] at hs
  rcases hs with rfl | rfl | rfl | rfl
  · exact ⟨by decide, rfl⟩
  · exact trivial
  · exact trivial
  · exact ⟨by decide, rfl⟩

end Kronos
