import Kronos.Proofs.Replaced
import Kronos.Proofs.Restarted
import Kronos.Spec.Served

/-!
# What was appended and not removed is served

A write keeps every event with another key. The key of an append is new, as long
as sequence ids do not repeat, so only a removal of its key ever takes an event
out of the memtable. Flushes move events, and a compaction keeps of each key one
of its versions; of a key that was not removed there is one only.
-/

namespace Kronos

open Spec Compaction

/-! ## What is visible after a step -/

theorem mem_visible_insert {db : DB} (hsorted : Keyed.Sorted Event.key db.active_mem.nodes)
    (e : Event) (height : Fin kMaxHeight) {x : Event} :
    x ∈ visible (db.mem_insert e height) ↔
      x = e ∨ (x ∈ db.active_mem.nodes ∧ x.key ≠ e.key) ∨ x ∈ buriedEvents db := by
  have hfiles : inFiles (db.mem_insert e height) = inFiles db := by
    obtain ⟨active_mem, imm_mems, heq⟩ := mem_insert_rest e height db
    rw [heq]
    rfl
  rw [visible_eq, hfiles, List.mem_append, (inMemtables_insert hsorted e height).mem_iff,
    buriedEvents, inFiles]
  simp only [List.mem_cons, List.mem_append, List.mem_filter, decide_eq_true_eq, or_assoc]

/-- A key that one version only has keeps it. -/
theorem merge_keeps {files : List SSTableInfo} {ssts : SSTableDir} {e : Event}
    (he : e ∈ files.flatMap (fileEvents ssts))
    (honly : ∀ x ∈ files.flatMap (fileEvents ssts), x.key = e.key → x = e) :
    e ∈ merge 1 (files.flatMap fun info => versions info (fileEvents ssts info)) := by
  obtain ⟨info, hinfo, hin⟩ := List.mem_flatMap.mp he
  have hmem : (⟨e, info.meta_.sequence⟩ : EventWithSeq) ∈
      files.flatMap fun info => versions info (fileEvents ssts info) :=
    List.mem_flatMap.mpr ⟨info, hinfo, List.mem_map.mpr ⟨e, hin, rfl⟩⟩
  obtain ⟨y, hy, hkey⟩ : ∃ y ∈ NewestWins.merge (fun ew : EventWithSeq => ew.e.key)
      EventWithSeq.sst_seq (files.flatMap fun info => versions info (fileEvents ssts info)),
      y.e.key = e.key := NewestWins.exists_mem_merge hmem
  obtain ⟨info', hinfo', hy'⟩ := List.mem_flatMap.mp (NewestWins.mem_of_mem_merge hy)
  obtain ⟨e', he', rfl⟩ := List.mem_map.mp hy'
  rw [merge_low (by decide)]
  exact List.mem_map.mpr ⟨_, hy, honly e' (List.mem_flatMap.mpr ⟨info', hinfo', he'⟩) hkey⟩

theorem mem_merge_sub {files : List SSTableInfo} {ssts : SSTableDir} {e : Event}
    (he : e ∈ merge 1 (files.flatMap fun info => versions info (fileEvents ssts info))) :
    e ∈ files.flatMap (fileEvents ssts) := by
  rw [merge_low (by decide)] at he
  obtain ⟨y, hy, rfl⟩ := List.mem_map.mp he
  obtain ⟨info, hinfo, hin⟩ := List.mem_flatMap.mp (NewestWins.mem_of_mem_merge hy)
  obtain ⟨x, hx, rfl⟩ := List.mem_map.mp hin
  exact List.mem_flatMap.mpr ⟨info, hinfo, hx⟩

/-! ## The outcome of a write -/

/-- Equal but for the log. -/
structure Logged (db db' : DB) : Prop where
  quiet : Quiet db db'
  symbols : db'.symbols = db.symbols
  next_seq : db'.next_seq = db.next_seq
  closed : db'.closed = db.closed

theorem wal_append_logged (e : Event) (io : AppendIO) (db : DB) :
    Logged db (after (db.wal_append e io)) := by
  have hquiet := wal_append_quiet e io db
  rw [DB.wal_append] at hquiet ⊢
  split
  · exact ⟨.refl db, rfl, rfl, rfl⟩
  · split <;> exact ⟨⟨rfl, rfl, rfl, rfl, rfl, rfl⟩, rfl, rfl, rfl⟩

/-- A write that returns has inserted its event, one that throws has not. -/
theorem log_and_insert_outcome (e : Event) (height : Fin kMaxHeight) (io : AppendIO) (db : DB) :
    ∃ db', Logged db db' ∧
      ((∃ r, DB.log_and_insert e height io db = .ok r (db'.mem_insert e height) ∧
        r.sequence_id = e.sequence_id) ∨
      ∃ err, DB.log_and_insert e height io db = .error err db') := by
  have hlogged := wal_append_logged e io db
  rw [DB.log_and_insert]
  cases hwal : db.wal_append e io with
  | error err db' =>
      rw [hwal] at hlogged
      exact ⟨db', hlogged, .inr ⟨err, rfl⟩⟩
  | ok offset db' =>
      rw [hwal] at hlogged
      exact ⟨db', hlogged, .inl ⟨_, rfl, rfl⟩⟩

/-! ## Symbols -/

/-- Ids count the names, as long as 32 bits hold them. -/
def IdsCount (table : SymbolTable) : Prop :=
  table.size < 2 ^ 32 - 1 → table.next_id.toNat = table.size + 1 ∧
    ∀ name id, table.lookup name = some id → id.toNat ≤ table.size

theorem IdsCount.intern {db : DB} (h : IdsCount db.symbols) (symbol : Bytes) :
    IdsCount (db.intern symbol).2.symbols := by
  rcases intern_cases db symbol with ⟨-, heq⟩ | ⟨hnone, -, file, heq⟩ <;> rw [heq]
  · exact h
  · intro hsmall
    have hsize : (db.symbols.name_to_id.insert symbol db.symbols.next_id).entries.length =
        db.symbols.size + 1 := by
      rw [AList.entries_insert_of_notMem (AList.lookup_eq_none.mp hnone), List.length_cons,
        SymbolTable.size]
    rw [SymbolTable.size, hsize] at hsmall ⊢
    obtain ⟨hnext, hids⟩ := h (by omega)
    refine ⟨?_, fun name id hname => ?_⟩
    · rw [UInt32.toNat_add, hnext, show (1 : UInt32).toNat = 1 from rfl]
      omega
    · by_cases heq : name = symbol
      · rw [heq, SymbolTable.lookup, AList.lookup_insert] at hname
        rw [← Option.some.inj hname, hnext]
      · rw [SymbolTable.lookup, AList.lookup_insert_ne heq] at hname
        exact Nat.le_succ_of_le (hids name id hname)

/-! ## The rows -/

/-- An event in a memtable or in a listed table is a row of every query that asks for
it, when the limit is above the rows. -/
theorem rows_above {db : DB} (hdb : db.Ordered) (hopen : db.closed = false) {p : Bytes × Event}
    (hnamed : db.symbols.lookup p.1 = some p.2.symbol_id) (hlive : p.2.event_type ≠ .Tombstone)
    {req : QueryRequest} (hasks : Asks req p)
    (hheld : p.2 ∈ inMemtables db ∨ ∃ info ∈ files_to_scan db.levels, ∃ events,
      Tabled db.disk.ssts info events ∧ p.2 ∈ events)
    (hroom : rowCount db req < req.row_limit) : ∃ r, db.query req = .ok r ∧ p.2 ∈ r.rows := by
  obtain ⟨hsym, hlo, hhi, htype⟩ := hasks
  obtain ⟨r, hquery, -, hrows⟩ := DB.query_rows hdb hopen (hsym ▸ hnamed)
  obtain ⟨r', hquery', -, hrows'⟩ := DB.query_rows hdb hopen
    (show db.symbols.lookup ({ req with limit := 0xFFFFFFFF } : QueryRequest).symbol = _ from
      hsym ▸ hnamed)
  have hrange : inRange (req.start_key p.2.symbol_id) (req.end_key p.2.symbol_id) p.2 = true :=
    (inRange_iff _ _ _).mpr ⟨rfl, hlo, hhi⟩
  have hin : p.2 ∈ queryRows req p.2.symbol_id db := by
    rw [queryRows, List.mem_filter, List.mem_append, QueryRequest.wants, decide_eq_true_eq]
    refine ⟨hheld.imp (fun hmem => ?_) ?_, hlive, htype⟩
    · rw [inMemtables, ← List.flatMap_cons (f := MemTable.nodes), List.mem_flatMap] at hmem
      obtain ⟨m, hm, hin⟩ := hmem
      exact List.mem_flatMap.mpr ⟨m, hm, List.mem_filter.mpr ⟨hin, hrange⟩⟩
    · rintro ⟨info, hinfo, events, htable, hin⟩
      refine List.mem_flatMap.mpr ⟨info, hinfo, ?_⟩
      rw [htable.delivers]
      exact List.mem_filter.mpr ⟨hin, hrange⟩
  have hmax : req.row_limit ≤ 0xFFFFFFFF := by
    have hlimit := req.limit.toNat_lt
    rw [QueryRequest.row_limit]
    split <;> omega
  have hall : (queryRows req p.2.symbol_id db).length ≤ req.row_limit := by
    have hcount : rowCount db req = ((queryRows req p.2.symbol_id db).take 0xFFFFFFFF).length := by
      rw [rowCount, hquery']
      exact congrArg List.length hrows'
    rw [hcount, List.length_take] at hroom
    omega
  refine ⟨r, hquery, ?_⟩
  rw [hrows, List.take_of_length_le hall]
  exact hin

/-! ## What a session keeps -/

/-- Sequence ids count the appends, what is visible was written, and what was appended
and not removed is visible. -/
structure Upheld (t : Answered) : Prop where
  filed : Filed t.db
  l1 : ∀ info ∈ t.db.levels 1, ∃ events, Tabled t.db.disk.ssts info events
  opened : t.db.closed = false
  next : t.db.next_seq = UInt64.ofNat (t.attempts + 1)
  ids : ∀ p ∈ t.appended, ∃ i < t.attempts, p.2.sequence_id = UInt64.ofNat (i + 1)
  apart : t.appended.Pairwise fun p q => p.2.sequence_id ≠ q.2.sequence_id
  named : ∀ p ∈ t.appended, t.db.symbols.lookup p.1 = some p.2.symbol_id
  known : ∀ x ∈ visible t.db, x ∈ t.appended.map Prod.snd ∨ x ∈ t.removed
  kept : ∀ p ∈ t.appended, (∀ e ∈ t.removed, e.key ≠ p.2.key) → p.2 ∈ visible t.db
  tombstones : ∀ e ∈ t.removed, ∃ name, t.db.symbols.lookup name = some e.symbol_id
  numbered : IdsCount t.db.symbols

theorem Quiet.visible {db db' : DB} (hq : Quiet db db') :
    Kronos.visible db' = Kronos.visible db := by
  rw [Kronos.visible, buriedEvents, hq.active, hq.imm, hq.levels, hq.ssts]
  rfl

theorem ids_differ {i j : Nat} (h : i < j) (hj : j < 2 ^ 64) :
    UInt64.ofNat (i + 1) ≠ UInt64.ofNat (j + 1) := by
  intro heq
  have hnat := congrArg UInt64.toNat heq
  rw [UInt64.toNat_ofNat', UInt64.toNat_ofNat'] at hnat
  omega

namespace Upheld

variable {t : Answered} (h : Upheld t)

include h in
/-- An event with the key of an append that was not removed is that append. -/
theorem only {p : Bytes × Event} (hp : p ∈ t.appended) (hkept : ∀ e ∈ t.removed, e.key ≠ p.2.key)
    {x : Event} (hx : x ∈ visible t.db) (hkey : x.key = p.2.key) : x = p.2 := by
  rcases h.known x hx with hx | hx
  · obtain ⟨q, hq, rfl⟩ := List.mem_map.mp hx
    have hseq : q.2.sequence_id = p.2.sequence_id := congrArg Key.sequence_id hkey
    rcases pairwise_mem_cases h.apart hq hp with rfl | hne | hne
    · rfl
    · exact absurd hseq hne
    · exact absurd hseq.symm hne
  · exact absurd hkey (hkept x hx)

include h in
/-- Steps that leave memtables and files alone. -/
theorem quiet {db : DB} {attempts : Nat} (hq : Quiet t.db db) (hclosed : db.closed = t.db.closed)
    (hsymbols : ∀ name id, t.db.symbols.lookup name = some id → db.symbols.lookup name = some id)
    (hnumbered : IdsCount db.symbols) (hle : t.attempts ≤ attempts)
    (hnext : db.next_seq = UInt64.ofNat (attempts + 1)) : Upheld { t with db, attempts } := by
  refine ⟨h.filed.quiet hq, ?_, hclosed.trans h.opened, hnext, fun p hp => ?_, h.apart,
    fun p hp => hsymbols _ _ (h.named p hp), ?_, ?_, fun e he => ?_, hnumbered⟩
  · show ∀ info ∈ db.levels 1, ∃ events, Tabled db.disk.ssts info events
    rw [hq.levels, hq.ssts]
    exact h.l1
  · obtain ⟨i, hi, hid⟩ := h.ids p hp
    exact ⟨i, Nat.lt_of_lt_of_le hi hle, hid⟩
  · show ∀ x ∈ visible db, _
    rw [hq.visible]
    exact h.known
  · intro p hp hkept
    show p.2 ∈ visible db
    rw [hq.visible]
    exact h.kept p hp hkept
  · obtain ⟨name, hname⟩ := h.tombstones e he
    exact ⟨name, hsymbols _ _ hname⟩

include h in
/-- An event inserted, as an append or as a removal. -/
theorem insert {e : Event} {height : Fin kMaxHeight} {appended : List (Bytes × Event)}
    {removed : List Event}
    (hids : ∀ p ∈ appended, ∃ i < t.attempts, p.2.sequence_id = UInt64.ofNat (i + 1))
    (hapart : appended.Pairwise fun p q => p.2.sequence_id ≠ q.2.sequence_id)
    (hnamed : ∀ p ∈ appended, t.db.symbols.lookup p.1 = some p.2.symbol_id)
    (hmore : ∀ x, x = e ∨ x ∈ t.appended.map Prod.snd ∨ x ∈ t.removed →
      x ∈ appended.map Prod.snd ∨ x ∈ removed)
    (hkept : ∀ p ∈ appended, (∀ x ∈ removed, x.key ≠ p.2.key) →
      p.2 = e ∨ p.2 ∈ visible t.db ∧ p.2.key ≠ e.key)
    (htombstones : ∀ x ∈ removed, ∃ name, t.db.symbols.lookup name = some x.symbol_id) :
    Upheld { t with db := t.db.mem_insert e height, appended, removed } := by
  have hvisible : ∀ x, x ∈ visible (t.db.mem_insert e height) ↔
      x = e ∨ (x ∈ t.db.active_mem.nodes ∧ x.key ≠ e.key) ∨ x ∈ buriedEvents t.db :=
    fun x => mem_visible_insert (h.filed.mems _ List.mem_cons_self) e height
  have hfiled := h.filed.mem_insert e height
  obtain ⟨active_mem, imm_mems, heq⟩ := mem_insert_rest e height t.db
  rw [heq] at hvisible hfiled ⊢
  refine ⟨hfiled, h.l1, h.opened, h.next, hids, hapart, hnamed, fun x hx => ?_,
    fun p hp hno => ?_, htombstones, h.numbered⟩
  · refine hmore x (((hvisible x).mp hx).imp_right fun hx => h.known x ?_)
    exact List.mem_append.mpr (hx.imp_left And.left)
  · refine (hvisible p.2).mpr ((hkept p hp hno).imp_right fun ⟨hin, hne⟩ => ?_)
    exact (List.mem_append.mp hin).imp_left fun hin => ⟨hin, hne⟩

include h in
/-- Events that only move. -/
theorem moved {db : DB} (hfiled : Filed db)
    (hl1 : ∀ info ∈ db.levels 1, ∃ events, Tabled db.disk.ssts info events) (ha : Aside t.db db)
    (hvisible : (visible db).Perm (visible t.db)) : Upheld { t with db } :=
  ⟨hfiled, hl1, ha.closed.trans h.opened, ha.next_seq.trans h.next, h.ids, h.apart,
    fun p hp => (congrArg (·.lookup p.1) ha.symbols).trans (h.named p hp),
    fun x hx => h.known x (hvisible.subset hx),
    fun p hp hno => hvisible.symm.subset (h.kept p hp hno),
    fun e he => (h.tombstones e he).imp fun name hname =>
      (congrArg (·.lookup name) ha.symbols).trans hname,
    ha.symbols.symm ▸ h.numbered⟩

include h in
theorem rotate : Upheld { t with db := t.db.rotate } := by
  rcases rotate_cases t.db with heq | ⟨hne, heq⟩ <;> rw [heq]
  · exact h
  · exact h.moved (h.filed.retire hne) h.l1 ⟨rfl, rfl, rfl, rfl, rfl, rfl, rfl⟩
      (retire_visible t.db)

include h in
theorem flush_front : Upheld { t with db := t.db.flush_front } := by
  rcases flush_front_cases h.filed.full with ⟨-, heq⟩ | ⟨mem, rest, himm, -, heq⟩ <;> rw [heq]
  · exact h
  · refine h.moved (h.filed.publish himm) (fun info hinfo => ?_)
      ⟨rfl, rfl, rfl, rfl, rfl, rfl, rfl⟩ (publish_visible h.filed himm)
    rw [publish_above mem rest t.db (by decide)] at hinfo
    obtain ⟨events, htable⟩ := h.l1 info hinfo
    have hother := h.filed.flush_path_fresh (h.filed.mem_files.mpr (.inr hinfo))
    exact ⟨events, htable.insert_ne hother _⟩

include h in
theorem compact (hfresh : OpensFresh t.db .compact) :
    Upheld { t with db := after t.db.compact_now } := by
  rcases h.filed.compact_cases with ⟨-, heq⟩ | ⟨chunks, stats, hne, hflat, -, -, hrun, heq⟩ <;>
    rw [heq]
  · exact h
  · show Upheld { t with db := replaceL0 (tablesOf chunks t.db.sst_seq) t.db }
    have hpaths : ∀ u ∈ tablesOf chunks t.db.sst_seq, ∀ info ∈ t.db.levels 1,
        info.path ≠ output_path 1 u := by
      intro u hu info hinfo
      refine hfresh (output_path 1 u, u.meta_.sequence) ?_ info (h.filed.mem_files.mpr (.inr hinfo))
      rw [created, if_neg hne, hrun]
      exact List.mem_map.mpr ⟨u, hu, rfl⟩
    have hfiles := h.filed.replaced_files hflat hpaths
    have hnow : ∀ x, x ∈ visible (replaceL0 (tablesOf chunks t.db.sst_seq) t.db) ↔
        x ∈ inMemtables t.db ∨ x ∈ (t.db.levels 1).flatMap (fileEvents t.db.disk.ssts) ∨
          x ∈ chunks.flatten := by
      intro x
      rw [visible_eq, List.mem_append, inFiles, hfiles.mem_iff, List.mem_append]
      rfl
    have hbefore : ∀ x, x ∈ visible t.db ↔
        x ∈ inMemtables t.db ∨ x ∈ (t.db.levels 0).flatMap (fileEvents t.db.disk.ssts) ∨
          x ∈ (t.db.levels 1).flatMap (fileEvents t.db.disk.ssts) := by
      intro x
      rw [visible_eq, List.mem_append, inFiles, files_to_scan_eq, h.filed.deep.1, h.filed.deep.2,
        List.append_nil, List.append_nil, List.flatMap_append, List.mem_append]
    refine ⟨h.filed.replaceL0 chunks, h.filed.level1_replaced hflat hpaths h.l1, h.opened, h.next,
      h.ids, h.apart, h.named, fun x hx => h.known x ?_, fun p hp hno => ?_, h.tombstones,
      h.numbered⟩
    · rw [hbefore]
      rcases (hnow x).mp hx with hx | hx | hx
      · exact .inl hx
      · exact .inr (.inr hx)
      · rw [hflat] at hx
        exact .inr (.inl (mem_merge_sub hx))
    · rw [hnow]
      rcases (hbefore p.2).mp (h.kept p hp hno) with hx | hx | hx
      · exact .inl hx
      · refine .inr (.inr ?_)
        rw [hflat]
        exact merge_keeps hx fun x hxin hkey =>
          h.only hp hno ((hbefore x).mpr (.inr (.inl hxin))) hkey
      · exact .inr (.inl hx)

include h in
theorem append (hfew : t.attempts < 2 ^ 64) (symbol : Bytes) (args : Event)
    (height : Fin kMaxHeight) (io : AppendIO) : Upheld (t.step (.append symbol args height io)) := by
  let e : Event := { args with
    symbol_id := (t.db.intern symbol).1
    sequence_id := t.db.next_seq }
  let db₁ : DB := { (t.db.intern symbol).2 with next_seq := t.db.next_seq + 1 }
  have hcall : t.db.append symbol args height io = DB.log_and_insert e height io db₁ := by
    rw [DB.append, h.opened]
    rfl
  obtain ⟨db', hlogged, hout⟩ := log_and_insert_outcome e height io db₁
  have hsymbols : db'.symbols = (t.db.intern symbol).2.symbols := hlogged.symbols
  have hnext : db'.next_seq = UInt64.ofNat (t.attempts + 1 + 1) := by
    rw [hlogged.next_seq, UInt64.ofNat_add (t.attempts + 1) 1, ← h.next]
    rfl
  have hintern : Quiet t.db db₁ := ⟨rfl, rfl, rfl, rfl, rfl, rfl⟩
  have hquiet : Upheld { t with db := db', attempts := t.attempts + 1 } := by
    refine h.quiet (hintern.trans hlogged.quiet) hlogged.closed (fun name id hname => ?_) ?_
      (Nat.le_succ _) hnext
    · rw [hsymbols]
      exact intern_keeps t.db symbol name id hname
    · rw [hsymbols]
      exact h.numbered.intern symbol
  rw [Answered.step, step, hcall, if_neg (by rw [h.opened]; exact Bool.false_ne_true)]
  rcases hout with ⟨r, heq, -⟩ | ⟨err, heq⟩ <;> rw [heq]
  · -- no earlier append has this id
    have hnew : ∀ p ∈ t.appended, p.2.sequence_id ≠ e.sequence_id := by
      intro p hp
      obtain ⟨i, hi, hid⟩ := h.ids p hp
      rw [hid, show e.sequence_id = UInt64.ofNat (t.attempts + 1) from h.next]
      exact ids_differ hi hfew
    refine hquiet.insert (fun p hp => ?_) ?_ (fun p hp => ?_) (fun x hx => ?_)
      (fun p hp hno => ?_) hquiet.tombstones
    · rcases List.mem_append.mp hp with hp | hp
      · exact hquiet.ids p hp
      · rw [List.mem_singleton.mp hp]
        exact ⟨t.attempts, Nat.lt_succ_self _, h.next⟩
    · refine List.pairwise_append.mpr ⟨h.apart, List.pairwise_singleton _ _, fun p hp q hq => ?_⟩
      rw [List.mem_singleton.mp hq]
      exact hnew p hp
    · rcases List.mem_append.mp hp with hp | hp
      · exact hquiet.named p hp
      · rw [List.mem_singleton.mp hp]
        show db'.symbols.lookup symbol = _
        rw [hsymbols]
        exact intern_known t.db symbol
    · rw [List.map_append, List.mem_append]
      rcases hx with rfl | hx | hx
      · exact .inl (.inr (List.mem_singleton.mpr rfl))
      · exact .inl (.inl hx)
      · exact .inr hx
    · rcases List.mem_append.mp hp with hp | hp
      · exact .inr ⟨hquiet.kept p hp hno, fun hkey => hnew p hp (congrArg Key.sequence_id hkey)⟩
      · exact .inl (congrArg Prod.snd (List.mem_singleton.mp hp))
  · exact hquiet

include h in
theorem remove (symbol : Bytes) (timestamp_ns sequence_id : UInt64) (height : Fin kMaxHeight)
    (io : AppendIO) : Upheld (t.step (.remove symbol timestamp_ns sequence_id height io)) := by
  let e : Event :=
    { timestamp_ns
      symbol_id := (t.db.intern symbol).1
      sequence_id
      event_type := .Tombstone }
  have hcall : t.db.remove symbol timestamp_ns sequence_id height io =
      DB.log_and_insert e height io (t.db.intern symbol).2 := by
    rw [DB.remove, h.opened]
    rfl
  obtain ⟨db', hlogged, hout⟩ := log_and_insert_outcome e height io (t.db.intern symbol).2
  have hquiet : Upheld { t with db := db' } := by
    refine h.quiet ((intern_quiet symbol t.db).trans hlogged.quiet) hlogged.closed
      (fun name id hname => ?_) ?_ (Nat.le_refl _) (hlogged.next_seq.trans h.next)
    · rw [hlogged.symbols]
      exact intern_keeps t.db symbol name id hname
    · rw [hlogged.symbols]
      exact h.numbered.intern symbol
  rw [Answered.step, step, hcall]
  rcases hout with ⟨r, heq, -⟩ | ⟨err, heq⟩ <;> rw [heq]
  · refine hquiet.insert hquiet.ids h.apart hquiet.named (fun x hx => ?_)
      (fun p hp hno => ?_) fun x hx => ?_
    · rw [List.mem_append]
      rcases hx with rfl | hx | hx
      · exact .inr (.inr (List.mem_singleton.mpr rfl))
      · exact .inl hx
      · exact .inr (.inl hx)
    · refine .inr ⟨hquiet.kept p hp fun x hx => hno x (List.mem_append_left _ hx), fun hkey => ?_⟩
      exact hno e (List.mem_append_right _ (List.mem_singleton.mpr rfl)) hkey.symm
    · rcases List.mem_append.mp hx with hx | hx
      · exact hquiet.tombstones x hx
      · refine ⟨symbol, ?_⟩
        rw [List.mem_singleton.mp hx]
        show db'.symbols.lookup symbol = _
        rw [hlogged.symbols]
        exact intern_known t.db symbol
  · exact hquiet

include h in
theorem step {s : Step} (hok : KeepsFiles t s) (hfew : (t.step s).attempts ≤ 2 ^ 64) :
    Upheld (t.step s) := by
  cases s with
  | append symbol args height io =>
      refine h.append ?_ symbol args height io
      rw [Answered.step, if_neg (by rw [h.opened]; exact Bool.false_ne_true)] at hfew
      split at hfew <;> exact hfew
  | remove symbol timestamp_ns sequence_id height io => exact h.remove ..
  | rotate => exact h.rotate
  | flush_front => exact h.flush_front
  | compact => exact h.compact (hok.2 rfl)
  | stop => exact absurd trivial hok.1
  | save_symbols => exact absurd trivial hok.1

include h in
theorem tabled : ∀ info ∈ files_to_scan t.db.levels,
    Tabled t.db.disk.ssts info (fileEvents t.db.disk.ssts info) := by
  intro info hinfo
  rcases h.filed.mem_files.mp hinfo with hinfo | hinfo
  · exact (h.filed.l0 info hinfo).1
  · obtain ⟨events, htable⟩ := h.l1 info hinfo
    exact htable.own

include h in
/-- What is kept is in the rows. -/
theorem served : Served t := by
  intro p hp hlive hno req hasks hroom
  refine rows_above ⟨h.filed.mems, fun info hinfo => (h.tabled info hinfo).ordered⟩ h.opened
    (h.named p hp) hlive hasks ?_ hroom
  have hvisible := h.kept p hp hno
  rw [visible_eq, List.mem_append, inFiles, List.mem_flatMap] at hvisible
  rcases hvisible with hin | hin
  · exact .inl hin
  · obtain ⟨info, hinfo, hin⟩ := hin
    exact .inr ⟨info, hinfo, _, h.tabled info hinfo, hin⟩

end Upheld

theorem attempts_mono (t : Answered) (s : Step) : t.attempts ≤ (t.step s).attempts := by
  cases s with
  | append symbol args height io =>
      rw [Answered.step]
      split
      · exact Nat.le_refl _
      · split <;> exact Nat.le_succ _
  | remove symbol timestamp_ns sequence_id height io =>
      rw [Answered.step]
      split <;> exact Nat.le_refl _
  | _ => exact Nat.le_refl _

theorem start_upheld (cfg : DBConfig) (heights : Nat → Fin kMaxHeight) :
    Upheld (Answered.start cfg heights) := by
  obtain ⟨wal, dir, hdb, -⟩ := start_eq cfg heights
  have hdb : (Answered.start cfg heights).db =
    { DB.load cfg {} [] with wal := wal, disk := { wal := dir } } := hdb
  refine ⟨?_, ?_, ?_, ?_, fun p hp => ?_, List.Pairwise.nil, fun p hp => ?_, ?_, fun p hp => ?_,
    fun e he => ?_, ?_⟩
  · rw [hdb]
    exact (load_filed cfg).quiet ⟨rfl, rfl, rfl, rfl, rfl, rfl⟩
  · rw [hdb]
    exact fun info hinfo => absurd hinfo List.not_mem_nil
  · rw [hdb]
    rfl
  · rw [hdb]
    rfl
  · cases hp
  · cases hp
  · rw [hdb]
    exact fun x hx => absurd hx List.not_mem_nil
  · cases hp
  · cases he
  · rw [hdb]
    exact fun _ => ⟨rfl, fun name id hname => by cases hname⟩

theorem upheld_run {t : Answered} {steps : List Step} (h : Upheld t)
    (hok : Run.Along Answered.step KeepsFiles t steps)
    (hfew : (steps.foldl Answered.step t).attempts ≤ 2 ^ 64) :
    Upheld (steps.foldl Answered.step t) := by
  induction steps using List.reverseRecOn with
  | nil => exact h
  | append_singleton steps s ih =>
      obtain ⟨hfront, hlast, -⟩ := Run.along_append.mp hok
      rw [List.foldl_append] at hfew ⊢
      exact (ih hfront (Nat.le_trans (attempts_mono _ s) hfew)).step hlast hfew

/-- In a session on an empty directory, whatever flushes and compactions and failed
writes lie between, every event that was appended and not removed is in the rows of
every query that asks for it. -/
theorem acknowledged_served (cfg : DBConfig) (heights : Nat → Fin kMaxHeight)
    (steps : List Step)
    (hok : Run.Along Answered.step KeepsFiles (Answered.start cfg heights) steps)
    (hfew : (steps.foldl Answered.step (Answered.start cfg heights)).attempts ≤ 2 ^ 64) :
    Served (steps.foldl Answered.step (Answered.start cfg heights)) :=
  (upheld_run (start_upheld cfg heights) hok hfew).served

/-- Two appends, one of them removed, all of it flushed and compacted. -/
def servedSession : List Step :=
  [.append [65] {} 0 {}, .append [65] {} 0 {}, .remove [65] 0 2 0 {}, .rotate, .flush_front,
    .compact]

theorem acknowledged_served_compacted :
    Served (servedSession.foldl Answered.step (Answered.start unlogged fun _ => 0)) := by
  refine acknowledged_served unlogged (fun _ => 0) servedSession ?_ (by decide)
  refine ⟨⟨nofun, nofun⟩, ⟨nofun, nofun⟩, ⟨nofun, nofun⟩, ⟨nofun, nofun⟩, ⟨nofun, nofun⟩,
    ⟨nofun, fun _ => ?_⟩, trivial⟩
  intro c hc info hinfo
  obtain rfl : c = (⟨1, .compacted 1 2⟩, 2) := List.mem_singleton.mp hc
  obtain rfl : info = ⟨DB.flush_path 1, (SSTable.write 0 1
      [{ symbol_id := 1, sequence_id := 1 },
        { symbol_id := 1, sequence_id := 2, event_type := .Tombstone }]).meta_⟩ :=
    List.mem_singleton.mp hinfo
  decide

end Kronos
