import Kronos.Proofs.Querying

/-!
# A query beside a compaction

A compaction removes its input files from disk and switches `levels_` after
that, and a query passes over a file it cannot open. So a query that took its
list before the switch loses what was in an input removed before its turn. Of
the other files nothing is ever lost: those of level 1 are not touched, and
what a query lists after the switch stays.
-/

namespace Kronos

open Spec

/-! ## The compaction -/

/-- The database `db` and the compacting thread, once the compaction of level 0
has come this far. -/
inductive Compacting (db : DB) (outputs : List SSTable) : DB → Compactor → Prop
  | idle : Compacting db outputs db .idle
  | nothing (hnone : db.levels 0 = []) : Compacting db outputs db .done
  | snapshotted (hne : db.levels 0 ≠ []) : Compacting db outputs db (.snapshotted (db.levels 0))
  | numbered (hne : db.levels 0 ≠ []) :
      Compacting db outputs { db with sst_seq := db.sst_seq + 1 }
        (.numbered (db.levels 0) db.sst_seq)
  | writing (hne : db.levels 0 ≠ []) {made left : List SSTable} (h : made ++ left = outputs) :
      Compacting db outputs
        { db with
          sst_seq := db.sst_seq + 1
          disk.ssts := insertTables made db.disk.ssts }
        (.writing (db.levels 0) outputs left)
  | removing (hne : db.levels 0 ≠ []) {gone left : List SSTableInfo}
      (h : gone ++ left = db.levels 0) :
      Compacting db outputs
        { db with
          sst_seq := db.sst_seq + 1
          disk.ssts := eraseFiles gone (insertTables outputs db.disk.ssts) }
        (.removing (db.levels 0) outputs left)
  | switched (hne : db.levels 0 ≠ []) : Compacting db outputs (replaceL0 outputs db) .done

/-- What the compaction of level 0 is going to write. -/
structure Planned (t : Tracked) (outputs : List SSTable) : Prop where
  run : t.db.levels 0 ≠ [] → outputs ≠ [] ∧ ∃ stats, Compaction.run t.db.disk.ssts
    (t.db.levels 0) 1 t.db.sst_seq t.db.cfg.sstable_target_bytes = .ok (outputs, stats)
  apart : ∀ u ∈ outputs, ∀ info ∈ files_to_scan t.db.levels,
    info.path ≠ Compaction.output_path 1 u
  after : t.db.levels 0 ≠ [] → Refines { t with db := replaceL0 outputs t.db }
  count : outputs.length ≤ outputCount t.db

theorem planned {t : Tracked} (h : Refines t) (hclear : Clear t .compact_now) :
    ∃ outputs, Planned t outputs := by
  rcases h.filed.compact_cases with
    ⟨hnone, -⟩ | ⟨chunks, stats, hne, hflat, hchunks, hlen, hrun, -⟩
  · refine ⟨[], fun hne => absurd hnone hne, fun u hu => ?_, fun hne => absurd hnone hne,
      Nat.zero_le _⟩
    cases hu
  · have hclear : ∀ i < chunks.length, ∀ info ∈ t.db.levels 1,
        info.path ≠ ⟨1, .compacted 1 (t.db.sst_seq + i)⟩ := by
      rw [hlen]
      exact hclear
    refine ⟨tablesOf chunks t.db.sst_seq, fun _ => ⟨?_, stats, hrun⟩, fun u hu info hinfo => ?_,
      fun _ => replaceL0_refines h hflat hclear, ?_⟩
    · rw [tablesOf, Ne, List.map_eq_nil_iff, List.zipIdx_eq_nil_iff]
      exact hchunks
    · obtain ⟨i, c, hget, rfl⟩ := mem_tablesOf hu
      rcases h.filed.mem_files.mp hinfo with hinfo | hinfo
      · rw [(h.filed.l0 info hinfo).2.1]
        intro heq
        cases heq
      · exact hclear i (List.getElem?_eq_some_iff.mp hget).1 info hinfo
    · rw [tablesOf, List.length_map, List.length_zipIdx, hlen]

section
variable {t : Tracked} {outputs : List SSTable} (hplan : Planned t outputs)

include hplan in
theorem compacting_step {db : DB} {c : Compactor} (h : Compacting t.db outputs db c) :
    Compacting t.db outputs (c.next db).1 (c.next db).2 := by
  cases h with
  | idle =>
      rw [Compactor.next]
      split
      · next hnone => exact .nothing hnone
      · next hne => exact .snapshotted hne
  | nothing hnone => exact .nothing hnone
  | snapshotted hne => exact .numbered hne
  | numbered hne =>
      obtain ⟨-, stats, hrun⟩ := hplan.run hne
      simp only [Compactor.next, hrun]
      exact .writing hne (List.nil_append _)
  | @writing hne made left h =>
      cases left with
      | nil =>
          rw [List.append_nil] at h
          subst h
          rw [Compactor.next, if_neg (hplan.run hne).1]
          exact .removing hne (List.nil_append _)
      | cons u left =>
          have hmade : insertTables (made ++ [u]) t.db.disk.ssts =
              (insertTables made t.db.disk.ssts).insert (Compaction.output_path 1 u)
                (.finished u) := List.foldl_append ..
          rw [List.append_cons] at h
          rw [Compactor.next, DB.write_table, ← hmade]
          exact .writing hne h
  | @removing hne gone left h =>
      cases left with
      | nil =>
          rw [List.append_nil] at h
          subst h
          have hswitch : DB.switch_levels (t.db.levels 0) outputs { t.db with
              sst_seq := t.db.sst_seq + 1
              disk.ssts := eraseFiles (t.db.levels 0) (insertTables outputs t.db.disk.ssts) } =
                replaceL0 outputs t.db := switch_levels_eq outputs { t.db with
              sst_seq := t.db.sst_seq + 1
              disk.ssts := eraseFiles (t.db.levels 0) (insertTables outputs t.db.disk.ssts) }
          rw [Compactor.next, hswitch]
          exact .switched hne
      | cons f left =>
          have hgone : eraseFiles (gone ++ [f]) (insertTables outputs t.db.disk.ssts) =
              (eraseFiles gone (insertTables outputs t.db.disk.ssts)).erase f.path :=
            List.foldl_append ..
          rw [List.append_cons] at h
          rw [Compactor.next, ← hgone]
          exact .removing hne h
  | switched hne => exact .switched hne

theorem Compacting.disk {db : DB} {c : Compactor} (h : Compacting t.db outputs db c) :
    ∃ gone made, (∀ u ∈ made, u ∈ outputs) ∧
      db.disk.ssts = eraseFiles gone (insertTables made t.db.disk.ssts) := by
  cases h with
  | @writing _ made left h => exact ⟨[], made, fun u hu => h ▸ List.mem_append_left _ hu, rfl⟩
  | @removing _ gone => exact ⟨gone, outputs, fun _ hu => hu, rfl⟩
  | switched => exact ⟨t.db.levels 0, outputs, fun _ hu => hu, rfl⟩
  | _ => exact ⟨[], [], fun u hu => absurd hu List.not_mem_nil, rfl⟩

include hplan in
/-- A file that was listed is what it was, or gone. -/
theorem Compacting.kept_or_gone {db : DB} {c : Compactor} (h : Compacting t.db outputs db c)
    {info : SSTableInfo} (hinfo : info ∈ files_to_scan t.db.levels) :
    db.disk.ssts.lookup info.path = t.db.disk.ssts.lookup info.path ∨
      db.disk.ssts.lookup info.path = none := by
  obtain ⟨gone, made, hmade, hdisk⟩ := h.disk
  rw [hdisk]
  by_cases hgone : ∃ f ∈ gone, info.path = f.path
  · exact .inr (lookup_eraseFiles hgone _)
  · left
    rw [lookup_eraseFiles_ne fun f hf heq => hgone ⟨f, hf, heq⟩,
      lookup_insertTables_ne fun u hu => hplan.apart u (hmade u hu) info hinfo]

/-- The rest of the database is as it was. -/
theorem Compacting.rest {db : DB} {c : Compactor} (h : Compacting t.db outputs db c) :
    db.active_mem = t.db.active_mem ∧ db.imm_mems = t.db.imm_mems ∧
      db.symbols = t.db.symbols ∧ db.closed = t.db.closed := by
  cases h <;> exact ⟨rfl, rfl, rfl, rfl⟩

/-- `levels_` is as it was until the switch, and that is the last step. -/
theorem Compacting.levels {db : DB} {c : Compactor} (h : Compacting t.db outputs db c) :
    db.levels = t.db.levels ∨
      t.db.levels 0 ≠ [] ∧ db = replaceL0 outputs t.db ∧ c = .done := by
  cases h with
  | switched hne => exact .inr ⟨hne, rfl, rfl⟩
  | _ => exact .inl rfl

end

/-! ## The files one after the other -/

/-- If the file the query is about to open held `e` in `at_`, it is still there. -/
def Opens (at_ : DB) (e : Event) (s : Threads) : Act → Prop
  | .query => ∀ sym_id c info left, s.query = .listed sym_id c (info :: left) →
      e ∈ fileEvents at_.disk.ssts info → (s.db.disk.ssts.lookup info.path).isSome
  | _ => True

/-- No file that is still to come held `e`. -/
def Past (at_ : DB) (e : Event) : Querying → Prop
  | .listed _ _ left => ∀ info ∈ left, e ∉ fileEvents at_.disk.ssts info
  | .returned _ => True
  | _ => False

theorem along_past {req : QueryRequest} {at_ : DB} {e : Event} {s : Threads}
    (h : Past at_ e s.query) (acts : List Act) :
    Run.Along (Threads.act req) (Opens at_ e) s acts := by
  refine Run.along_of_invariant (I := fun s => Past at_ e s.query) (fun s a _ hs => ?_)
    (fun s a _ hs => ?_) h
  · cases a with
    | query =>
        intro sym_id c info left hq he
        rw [hq] at hs
        exact absurd he (hs info List.mem_cons_self)
    | _ => trivial
  · by_cases ha : a = .query
    · subst ha
      rw [Threads.act]
      cases hq : s.query with
      | listed sym_id c left =>
          rw [hq] at hs
          cases left with
          | nil => trivial
          | cons info left => exact fun i hi => hs i (List.mem_cons_of_mem _ hi)
      | returned r => trivial
      | _ => rw [hq] at hs; exact hs.elim
    · rw [act_query req s ha]
      exact hs

theorem fileDelivers_gone {ssts : SSTableDir} {info : SSTableInfo}
    (h : ssts.lookup info.path = none) (start end_ : Key) :
    fileDelivers ssts start end_ info = [] := by
  rw [fileDelivers, h]
  split <;> rfl

section
variable {req : QueryRequest} {sym_id : UInt32} {at_ : DB} {files : List SSTableInfo}
  {K : DB → Compactor → Prop} (hnext : ∀ db c, K db c → K (c.next db).1 (c.next db).2)
  (hfiles : ∀ db c, K db c → ∀ info ∈ files,
    Tabled db.disk.ssts info (fileEvents at_.disk.ssts info) ∨
      db.disk.ssts.lookup info.path = none)

include hnext hfiles in
/-- A query with a list of files ends with the contents of some of them, and an
event of one of them is in there just if the file was when its turn came. -/
theorem listed_run {s : Threads} (hk : K s.db s.compactor) {c : Collecting}
    {left : List SSTableInfo} (hq : s.query = .listed sym_id c left)
    (hleft : ∀ info ∈ left, info ∈ files) {got : List Event}
    (hgot : Got req c (covered req sym_id got)) {acts : List Act}
    (hacts : ∀ a ∈ acts, a = .compact ∨ a = .query) (hgo : left.length < acts.countP isQuery) :
    ∃ c found, (run req s acts).query = .returned { c.result with ok := true } ∧
      Got req c (covered req sym_id (got ++ found)) ∧
      found.Sublist (left.flatMap (fileEvents at_.disk.ssts)) ∧
      ∀ e, (left.flatMap (fileEvents at_.disk.ssts)).count e = 1 →
        (e ∈ found ↔ Run.Along (Threads.act req) (Opens at_ e) s acts) := by
  induction acts generalizing s c left got with
  | nil => exact absurd hgo (Nat.not_lt_zero _)
  | cons a acts ih =>
      have hrest := fun b hb => hacts b (List.mem_cons_of_mem a hb)
      rcases hacts a List.mem_cons_self with rfl | rfl
      · obtain ⟨c', found, hend, hgot', hsub, hfound⟩ :=
          ih (s := s.act req .compact) (hnext _ _ hk) hq hleft hgot hrest hgo
        refine ⟨c', found, hend, hgot', hsub, fun e he => (hfound e he).trans ?_⟩
        exact ⟨fun h => ⟨trivial, h⟩, And.right⟩
      · have hstep : (s.act req .query).query = (Querying.listed sym_id c left).next req s.db := by
          rw [Threads.act, hq]
        cases left with
        | nil =>
            refine ⟨c, [], returned_run hstep acts, ?_, List.Sublist.refl _, fun e he => ?_⟩
            · rw [List.append_nil]
              exact hgot
            · cases he
        | cons info left =>
            rw [List.countP_cons_of_pos (by rfl), List.length_cons] at hgo
            have hgo := Nat.lt_of_succ_lt_succ hgo
            have hlater := fun i hi => hleft i (List.mem_cons_of_mem info hi)
            rcases hfiles _ _ hk info (hleft info List.mem_cons_self) with htab | hgone
            · -- the file is there
              have hfile := hgot.file sym_id htab.ordered
              rw [htab.delivers, covered, ← List.filter_append, ← covered] at hfile
              obtain ⟨c', found, hend, hgot', hsub, hfound⟩ :=
                ih (s := s.act req .query) hk hstep hlater hfile hrest hgo
              refine ⟨c', fileEvents at_.disk.ssts info ++ found, hend, ?_, ?_, fun e he => ?_⟩
              · rw [← List.append_assoc]
                exact hgot'
              · rw [List.flatMap_cons]
                exact hsub.append_left _
              · rw [List.flatMap_cons, List.count_append] at he
                have hopens : Opens at_ e s .query := fun id c' i l hq' _ => by
                  rw [hq, Querying.listed.injEq, List.cons.injEq] at hq'
                  rw [← hq'.2.2.1, htab.file]
                  rfl
                rw [List.mem_append, Run.Along, and_iff_right hopens]
                by_cases hin : e ∈ fileEvents at_.disk.ssts info
                · have hpos := List.count_pos_iff.mpr hin
                  have hnone : e ∉ left.flatMap (fileEvents at_.disk.ssts) :=
                    List.count_eq_zero.mp (by omega)
                  refine iff_of_true (.inl hin) (along_past ?_ acts)
                  rw [hstep]
                  exact fun i hi he' => hnone (List.mem_flatMap.mpr ⟨i, hi, he'⟩)
                · rw [List.count_eq_zero.mpr hin, Nat.zero_add] at he
                  rw [or_iff_right hin]
                  exact hfound e he
            · -- the file is not
              have hnofile : ∀ file, s.db.disk.ssts.lookup info.path = some file →
                  file.Ordered := fun file hlook => by
                rw [hgone] at hlook
                cases hlook
              have hfile := hgot.file sym_id hnofile
              rw [fileDelivers_gone hgone, List.append_nil] at hfile
              obtain ⟨c', found, hend, hgot', hsub, hfound⟩ :=
                ih (s := s.act req .query) hk hstep hlater hfile hrest hgo
              refine ⟨c', found, hend, hgot', ?_, fun e he => ?_⟩
              · rw [List.flatMap_cons]
                exact hsub.trans (List.sublist_append_right _ _)
              · rw [List.flatMap_cons, List.count_append] at he
                rw [Run.Along]
                by_cases hin : e ∈ fileEvents at_.disk.ssts info
                · have hpos := List.count_pos_iff.mpr hin
                  have hnone : e ∉ left.flatMap (fileEvents at_.disk.ssts) :=
                    List.count_eq_zero.mp (by omega)
                  refine iff_of_false (fun hf => hnone (hsub.subset hf)) fun hboth => ?_
                  have hopen := hboth.1 _ _ _ _ hq hin
                  rw [hgone] at hopen
                  cases hopen
                · rw [List.count_eq_zero.mpr hin, Nat.zero_add] at he
                  have hopens : Opens at_ e s .query := fun id c' i l hq' hi => by
                    rw [hq, Querying.listed.injEq, List.cons.injEq] at hq'
                    exact absurd (hq'.2.2.1 ▸ hi) hin
                  rw [and_iff_right hopens]
                  exact hfound e he

end

/-! ## What there is to find -/

theorem refEvents_nodup {t : SymbolTable} {m : RefMap} (h : Named t m) : (refEvents m).Nodup := by
  rw [refEvents, List.Nodup, List.pairwise_map]
  have hkeys : m.entries.Pairwise fun p q => p.1 ≠ q.1 := List.pairwise_map.mp m.nodupKeys
  refine hkeys.imp_of_mem fun {p q} hp hq hne heq => hne ?_
  obtain ⟨hp1, hp2, hp3⟩ := h.entry p hp
  obtain ⟨hq1, hq2, hq3⟩ := h.entry q hq
  rw [heq] at hp1 hp2 hp3
  obtain ⟨⟨psym, pts, pseq⟩, pe⟩ := p
  obtain ⟨⟨qsym, qts, qseq⟩, qe⟩ := q
  rw [RefKey.mk.injEq]
  exact ⟨h.inj _ _ _ hp1 hq1, hp2.trans hq2.symm, hp3.trans hq3.symm⟩

theorem Refines.nodup {t : Tracked} (h : Refines t) :
    (live (inMemtables t.db) ++ live (inFiles t.db)).Nodup := by
  rw [← live_append, ← visible_eq]
  exact h.rows.nodup_iff.mpr ((refEvents_nodup h.named).filter _)

/-- An event of a listed file that is no tombstone is in no other place. -/
theorem Refines.in_files {t : Tracked} (h : Refines t) {e : Event} (he : e ∈ live (inFiles t.db)) :
    (inFiles t.db).count e = 1 ∧ e ∉ inMemtables t.db := by
  obtain ⟨-, hfiles, hapart⟩ := List.nodup_append.mp h.nodup
  constructor
  · rw [← count_live (mem_live.mp he).2]
    exact List.count_eq_one_of_mem hfiles he
  · exact fun hmem => hapart e (mem_live.mpr ⟨hmem, (mem_live.mp he).2⟩) e he rfl

/-- What a query can find matches as often as the reference does. -/
theorem Refines.matches {t : Tracked} (h : Refines t) {req : QueryRequest} {sym_id : UInt32}
    (hsym : t.db.symbols.lookup req.symbol = some sym_id) :
    ((inMemtables t.db ++ inFiles t.db).filter (Wanted req (started t))).length =
      (t.ref.rows req).length := by
  have hsym' : (started t).db.symbols.lookup req.symbol = some sym_id := hsym
  rw [← visible_eq, ← wanted_eq hsym', covered, filter_wants, refRows_eq h.named hsym,
    filter_wants (refEvents t.ref)]
  exact ((h.rows.filter _).filter _).length_eq

theorem Refines.tabled {t : Tracked} (h : Refines t) {info : SSTableInfo}
    (hinfo : info ∈ files_to_scan t.db.levels) :
    Tabled t.db.disk.ssts info (fileEvents t.db.disk.ssts info) := by
  rcases h.filed.mem_files.mp hinfo with hinfo | hinfo
  · exact (h.filed.l0 info hinfo).1
  · exact h.l1 info hinfo

section
variable {t : Tracked} {outputs : List SSTable} (h : Refines t) (hplan : Planned t outputs)
  {req : QueryRequest} {sym_id : UInt32} (hsym : t.db.symbols.lookup req.symbol = some sym_id)

include h hplan in
/-- The compaction moves what is in the files and loses nothing of it. -/
theorem moved (hne : t.db.levels 0 ≠ []) {e : Event} (he : e ∈ live (inFiles t.db)) :
    e ∈ live (inFiles (replaceL0 outputs t.db)) := by
  have hafter := hplan.after hne
  have hall : e ∈ live (visible (replaceL0 outputs t.db)) := by
    refine (hafter.rows.trans h.rows.symm).mem_iff.mpr ?_
    rw [visible_eq, live_append]
    exact List.mem_append_right _ he
  rw [visible_eq, live_append, List.mem_append] at hall
  refine hall.resolve_left fun hmem => (h.in_files he).2 ?_
  exact (mem_live.mp hmem).1

/-- Before its list, where the query is and with what. -/
inductive Seeking (t : Tracked) (req : QueryRequest) (sym_id : UInt32) : Querying → Prop
  | idle : Seeking t req sym_id .idle
  | looked_up : Seeking t req sym_id (.looked_up sym_id)
  | scanned {c : Collecting} (hgot : Got req c (covered req sym_id (inMemtables t.db))) :
      Seeking t req sym_id (.scanned sym_id c)

/-- The steps up to the list. -/
def toSnapshot : Querying → Nat
  | .idle => 3
  | .looked_up _ => 2
  | _ => 1

/-- The compaction is over and all that is listed is there. -/
def Settled (db : DB) (files : List SSTableInfo) (s : Threads) : Prop :=
  s.db = db ∧ s.compactor = .done ∧
    match s.query with
    | .listed _ _ left => ∀ info ∈ left, info ∈ files
    | .returned _ => True
    | _ => False

theorem settled_step {db : DB} {files : List SSTableInfo} {s : Threads} (h : Settled db files s)
    {a : Act} (ha : a = .compact ∨ a = .query) : Settled db files (s.act req a) := by
  obtain ⟨hdb, hdone, hq⟩ := h
  rcases ha with rfl | rfl
  · rw [Threads.act, hdone]
    exact ⟨hdb, rfl, hq⟩
  · refine ⟨hdb, hdone, ?_⟩
    rw [Threads.act]
    cases hquery : s.query with
    | listed id c left =>
        rw [hquery] at hq
        cases left with
        | nil => trivial
        | cons info left => exact fun i hi => hq i (List.mem_cons_of_mem _ hi)
    | returned r => trivial
    | _ => rw [hquery] at hq; exact hq.elim

/-- Nothing is gone then. -/
theorem settled_along {db : DB} {files : List SSTableInfo}
    (hthere : ∀ info ∈ files, (db.disk.ssts.lookup info.path).isSome) {s : Threads}
    (hs : Settled db files s) (at_ : DB) (e : Event) {acts : List Act}
    (hacts : ∀ a ∈ acts, a = .compact ∨ a = .query) :
    Run.Along (Threads.act req) (Opens at_ e) s acts := by
  refine Run.along_of_invariant (I := Settled db files) (fun s a ha hs => ?_)
    (fun s a ha hs => settled_step hs (hacts a ha)) hs
  rcases hacts a ha with rfl | rfl
  · trivial
  · intro id c info left hq _
    obtain ⟨rfl, -, hleft⟩ := hs
    rw [hq] at hleft
    exact hthere info (hleft info List.mem_cons_self)

include h hplan hsym in
/-- A query with its list just taken ends with the events of the memtables and,
of those of the files, with all but the ones whose file was gone. -/
theorem fresh_list_run {s : Threads} (hk : Compacting t.db outputs s.db s.compactor)
    {c : Collecting} (hgot : Got req c (covered req sym_id (inMemtables t.db)))
    (hq : s.query = .listed sym_id c (files_to_scan s.db.levels)) {acts : List Act}
    (hacts : ∀ a ∈ acts, a = .compact ∨ a = .query)
    (hgo : (files_to_scan t.db.levels).length + outputs.length < acts.countP isQuery) :
    ∃ c found, (run req s acts).query = .returned { c.result with ok := true } ∧
      Got req c (covered req sym_id (inMemtables t.db ++ found)) ∧
      ((inMemtables t.db ++ found).filter (Wanted req (started t))).length ≤
        (t.ref.rows req).length ∧
      ∀ e ∈ live (inFiles t.db),
        (e ∈ found ↔ Run.Along (Threads.act req) (Opens t.db e) s acts) := by
  rcases hk.levels with hlevels | ⟨hne, hdb, hdone⟩
  · -- the list is the one before the switch
    rw [hlevels] at hq
    have hfiles : ∀ db c, Compacting t.db outputs db c → ∀ info ∈ files_to_scan t.db.levels,
        Tabled db.disk.ssts info (fileEvents t.db.disk.ssts info) ∨
          db.disk.ssts.lookup info.path = none := fun db c hk info hinfo => by
      have htab := h.tabled hinfo
      refine (hk.kept_or_gone hplan hinfo).imp_left fun hkept => ?_
      exact ⟨hkept.trans htab.file, htab.meta_eq, htab.sorted⟩
    obtain ⟨c, found, hend, hgot, hsub, hfound⟩ :=
      listed_run (fun _ _ => compacting_step hplan) hfiles hk hq (fun _ hi => hi) hgot hacts
        (by omega)
    refine ⟨c, found, hend, hgot, ?_, fun e he => hfound e (h.in_files he).1⟩
    rw [← h.matches hsym]
    exact ((hsub.append_left _).filter _).length_le
  · -- the list is the one after it
    have hafter := hplan.after hne
    rw [hdb] at hq
    have hfiles : ∀ db c, db = replaceL0 outputs t.db ∧ c = Compactor.done →
        ∀ info ∈ files_to_scan (replaceL0 outputs t.db).levels,
          Tabled db.disk.ssts info (fileEvents (replaceL0 outputs t.db).disk.ssts info) ∨
            db.disk.ssts.lookup info.path = none := fun db c hk info hinfo => by
      rw [hk.1]
      exact .inl (hafter.tabled hinfo)
    have hnext : ∀ db c, db = replaceL0 outputs t.db ∧ c = Compactor.done →
        (c.next db).1 = replaceL0 outputs t.db ∧ (c.next db).2 = .done := by
      rintro _ _ ⟨rfl, rfl⟩
      exact ⟨rfl, rfl⟩
    have hcount : (files_to_scan (replaceL0 outputs t.db).levels).length ≤
        (files_to_scan t.db.levels).length + outputs.length := by
      rw [files_to_scan_eq, files_to_scan_eq, replaceL0_l0, replaceL0_l1,
        replaceL0_above _ _ (by decide), replaceL0_above _ _ (by decide)]
      simp only [List.length_append, (sort_level_perm _).length_eq, List.length_map,
        List.length_nil]
      omega
    obtain ⟨c, found, hend, hgot, hsub, hfound⟩ :=
      listed_run hnext hfiles ⟨hdb, hdone⟩ hq (fun _ hi => hi) hgot hacts (by omega)
    have hsettled : Settled (replaceL0 outputs t.db)
        (files_to_scan (replaceL0 outputs t.db).levels) s := by
      refine ⟨hdb, hdone, ?_⟩
      rw [hq]
      exact fun _ hi => hi
    have halong : ∀ at_ e, Run.Along (Threads.act req) (Opens at_ e) s acts := fun at_ e =>
      settled_along (fun info hinfo => by rw [(hafter.tabled hinfo).file]; rfl) hsettled at_ e hacts
    refine ⟨c, found, hend, hgot, ?_, fun e he => iff_of_true ?_ (halong _ e)⟩
    · rw [← hafter.matches hsym]
      exact ((hsub.append_left _).filter _).length_le
    · exact (hfound e (hafter.in_files (moved h hplan hne he)).1).mpr (halong _ e)

include h hplan hsym in
/-- A query that has no list yet ends with the events of the memtables and, of
those of the files, with all but the ones whose file was gone. -/
theorem seeking_run {s : Threads} (hk : Compacting t.db outputs s.db s.compactor)
    (hq : Seeking t req sym_id s.query) {acts : List Act}
    (hacts : ∀ a ∈ acts, a = .compact ∨ a = .query)
    (hgo : toSnapshot s.query + ((files_to_scan t.db.levels).length + outputs.length) <
      acts.countP isQuery) :
    ∃ c found, (run req s acts).query = .returned { c.result with ok := true } ∧
      Got req c (covered req sym_id (inMemtables t.db ++ found)) ∧
      ((inMemtables t.db ++ found).filter (Wanted req (started t))).length ≤
        (t.ref.rows req).length ∧
      ∀ e ∈ live (inFiles t.db),
        (e ∈ found ↔ Run.Along (Threads.act req) (Opens t.db e) s acts) := by
  induction acts generalizing s with
  | nil => exact absurd hgo (Nat.not_lt_zero _)
  | cons a acts ih =>
      have hrest := fun b hb => hacts b (List.mem_cons_of_mem a hb)
      rcases hacts a List.mem_cons_self with rfl | rfl
      · obtain ⟨c, found, hend, hgot, hle, hfound⟩ :=
          ih (s := s.act req .compact) (compacting_step hplan hk) hq hrest hgo
        refine ⟨c, found, hend, hgot, hle, fun e he => (hfound e he).trans ?_⟩
        exact ⟨fun h => ⟨trivial, h⟩, And.right⟩
      · rw [List.countP_cons_of_pos (by rfl)] at hgo
        obtain ⟨hactive, himm, hsymbols, hclosed⟩ := hk.rest
        have hstep : (s.act req .query).query = s.query.next req s.db := rfl
        -- unless there is a list, nothing is opened
        have hearly : ∀ e, (∀ id c left, s.query ≠ .listed id c left) →
            (Run.Along (Threads.act req) (Opens t.db e) (s.act req .query) acts ↔
              Run.Along (Threads.act req) (Opens t.db e) s (.query :: acts)) := fun e hno =>
          ⟨fun h => ⟨fun id c info left hl => absurd hl (hno id c _), h⟩, And.right⟩
        generalize hquery : s.query = q at hq
        rw [hquery] at hstep hgo hearly
        cases hq with
        | idle =>
            rw [next_idle (hclosed.trans h.opened) (hsymbols ▸ hsym)] at hstep
            obtain ⟨c, found, hend, hgot, hle, hfound⟩ :=
              ih (s := s.act req .query) hk (hstep ▸ .looked_up) hrest (by
                rw [hstep]; simp only [toSnapshot] at hgo ⊢; omega)
            exact ⟨c, found, hend, hgot, hle, fun e he => (hfound e he).trans (hearly e (by simp))⟩
        | looked_up =>
            rw [Querying.next, hactive, himm] at hstep
            obtain ⟨c, found, hend, hgot, hle, hfound⟩ :=
              ih (s := s.act req .query) hk (hstep ▸ .scanned (got_memtables h.filed.mems)) hrest
                (by rw [hstep]; simp only [toSnapshot] at hgo ⊢; omega)
            exact ⟨c, found, hend, hgot, hle, fun e he => (hfound e he).trans (hearly e (by simp))⟩
        | scanned hgot =>
            obtain ⟨c, found, hend, hgot, hle, hfound⟩ :=
              fresh_list_run (s := s.act req .query) h hplan hsym hk hgot hstep hrest
                (by simp only [toSnapshot] at hgo; omega)
            exact ⟨c, found, hend, hgot, hle, fun e he => (hfound e he).trans (hearly e (by simp))⟩

end

/-- A query for an unknown symbol is over at once. -/
theorem unknown_run {t : Tracked} {outputs : List SSTable} (h : Refines t)
    (hplan : Planned t outputs) {req : QueryRequest}
    (hsym : t.db.symbols.lookup req.symbol = none) {s : Threads}
    (hk : Compacting t.db outputs s.db s.compactor) (hq : s.query = .idle) {acts : List Act}
    (hacts : ∀ a ∈ acts, a = .compact ∨ a = .query) (hgo : 0 < acts.countP isQuery) :
    (run req s acts).query = .returned {} := by
  induction acts generalizing s with
  | nil => exact absurd hgo (Nat.lt_irrefl _)
  | cons a acts ih =>
      have hrest := fun b hb => hacts b (List.mem_cons_of_mem a hb)
      rcases hacts a List.mem_cons_self with rfl | rfl
      · exact ih (s := s.act req .compact) (compacting_step hplan hk) hq hrest hgo
      · refine returned_run ?_ acts
        obtain ⟨-, -, hsymbols, hclosed⟩ := hk.rest
        rw [Threads.act, hq]
        exact next_unknown (hclosed.trans h.opened) (hsymbols ▸ hsym)

/-- A query beside a compaction, over a database in which the compaction is
clear. Whatever the order of their steps the query returns, and a matching event
that was in a file before them is among the rows just if its file was still
there whenever the query was about to open it. -/
theorem compact_handoff (cfg : DBConfig) (calls : List Call)
    (hclear : Run.Along exec Clear (openEmpty cfg) (calls ++ [.compact_now]))
    (req : QueryRequest) {acts : List Act} (hacts : ∀ a ∈ acts, a = .compact ∨ a = .query) :
    let t := calls.foldl exec (openEmpty cfg)
    (t.ref.rows req).length < req.limit.toNat →
    (files_to_scan t.db.levels).length + outputCount t.db + 3 < acts.countP isQuery →
    ∃ r, (run req (started t) acts).query = .returned r ∧ r.ok = true ∧
      ∀ e ∈ inFiles t.db, Wanted req (started t) e = true →
        (e ∈ r.rows ↔ Run.Along (Threads.act req) (Opens t.db e) (started t) acts) := by
  intro t hlimit hgo
  obtain ⟨hbefore, hcompact, -⟩ := Run.along_append.mp hclear
  have h : Refines t := hbefore.invariant exec_refines (openEmpty_refines cfg)
  obtain ⟨outputs, hplan⟩ := planned h hcompact
  have hcount := hplan.count
  cases hsym : t.db.symbols.lookup req.symbol with
  | none =>
      refine ⟨{}, unknown_run h hplan hsym .idle rfl hacts (by omega), rfl, fun e _ hwanted => ?_⟩
      rw [Wanted, decide_eq_true_eq] at hwanted
      exact absurd (hsym.symm.trans hwanted.1) (by simp)
  | some sym_id =>
      obtain ⟨c, found, hend, hgot, hle, hfound⟩ :=
        seeking_run (s := started t) h hplan hsym .idle .idle hacts (by
          rw [show toSnapshot (started t).query = 3 from rfl]; omega)
      refine ⟨_, hend, rfl, fun e he hwanted => ?_⟩
      have hlive : e ∈ live (inFiles t.db) := mem_live.mpr ⟨he, wanted_live hwanted⟩
      have hsym' : (started t).db.symbols.lookup req.symbol = some sym_id := hsym
      rw [← hfound e hlive]
      rw [← wanted_eq hsym'] at hle
      have hrows : e ∈ c.result.rows ↔ e ∈ inMemtables t.db ++ found := by
        rw [hgot.all (hle.trans_lt hlimit), wanted_eq hsym', List.mem_filter, and_iff_left hwanted]
      exact hrows.trans (List.mem_append.trans (or_iff_right (h.in_files hlive).2))

/-- An append that is flushed. -/
def flushedCalls : List Call := [.append [65] {} 0, .flush_now]

/-- A query that opens its file before the compaction removes it. -/
def openedFirst : List Act :=
  [.query, .query, .query, .query, .compact, .compact, .query, .query, .query]

theorem compact_handoff_opened :
    ∃ r, (run { symbol := [65] } (started (flushedCalls.foldl exec (openEmpty {}))) openedFirst).query =
      .returned r ∧ { symbol_id := 1, sequence_id := 1 } ∈ r.rows := by
  have hclear : Run.Along exec Clear (openEmpty {}) (flushedCalls ++ [.compact_now]) :=
    ⟨⟨fun _ _ => nofun, by decide⟩, trivial, fun i _ info hinfo => absurd hinfo List.not_mem_nil,
      trivial⟩
  have hacts : ∀ a ∈ openedFirst, a = .compact ∨ a = .query := by simp [openedFirst]
  obtain ⟨r, hr, -, hrows⟩ :=
    compact_handoff {} flushedCalls hclear { symbol := [65] } hacts (by decide) (by decide)
  refine ⟨r, hr, (hrows _ (List.mem_singleton.mpr rfl) (by decide)).mpr ?_⟩
  -- the fourth step opens the file
  refine ⟨nofun, nofun, nofun, fun _ _ _ _ hq _ => ?_, trivial, trivial, nofun, nofun, nofun, trivial⟩
  cases hq
  rfl

/-! ## A file that is gone -/

/-- The compaction comes as far as removing its input between the list and the
opening: the query answers without the event. -/
theorem removed_input_missed :
    let t := flushedCalls.foldl exec (openEmpty {})
    let e : Event := { symbol_id := 1, sequence_id := 1 }
    let req : QueryRequest := { symbol := [65], limit := 1000 }
    e ∈ inFiles t.db ∧ Wanted req (started t) e = true ∧
      (t.ref.rows req).length < req.limit.toNat ∧
      ∃ r, (run req (started t) [.query, .query, .query, .compact, .compact, .compact, .compact,
          .compact, .compact, .query, .query]).query = .returned r ∧
        r.ok = true ∧ e ∉ r.rows :=
  ⟨List.mem_singleton.mpr rfl, by decide, by decide,
    { stats := { files_considered := 1 } }, rfl, rfl, List.not_mem_nil⟩

end Kronos
