import Kronos.Lib.Run
import Kronos.Proofs.ReadCompact

/-!
# Queries answer the reference map

`Clear` is the condition on a call, in the state it meets, under which the
database does what the map does. A write may not find a version of its key that
is no tombstone outside the active memtable: the query would go on showing that
version, whatever was written. A new symbol may not get an id that is taken,
and a compaction may not write over a listed file.

A run of such calls keeps the invariant, and where the invariant holds a query
returns, up to order, the rows of the map.
-/

namespace Kronos

open Spec

/-! ## Queries -/

theorem inRange_iff (req : QueryRequest) (sym_id : UInt32) (e : Event) :
    inRange (req.start_key sym_id) (req.end_key sym_id) e = true ↔
      e.symbol_id = sym_id ∧ req.start_ns ≤ e.timestamp_ns ∧ e.timestamp_ns ≤ req.end_ns := by
  have hseq := e.sequence_id.toNat_lt
  have hmax : (0xFFFFFFFFFFFFFFFF : UInt64).toNat = 2 ^ 64 - 1 := rfl
  have hzero : (0 : UInt64).toNat = 0 := rfl
  rw [inRange, decide_eq_true_eq, Key.le_iff, Key.le_iff]
  simp only [QueryRequest.start_key, QueryRequest.end_key, Event.key, ← UInt32.toNat_inj,
    ← UInt64.toNat_inj, UInt64.le_iff_toNat_le, hmax, hzero]
  omega

/-- The rows of the map are its live events in the range, of the type. -/
theorem refRows_eq {t : SymbolTable} {m : RefMap} (hm : Named t m) {req : QueryRequest}
    {sym_id : UInt32} (hsym : t.lookup req.symbol = some sym_id) :
    m.rows req = ((refEvents m).filter
      (inRange (req.start_key sym_id) (req.end_key sym_id))).filter req.wants := by
  rw [RefMap.rows, refEvents, List.filter_map, List.filter_map, List.filter_filter]
  congr 1
  refine List.filter_congr fun p hp => ?_
  obtain ⟨h1, h2, -⟩ := hm.entry p hp
  have hid : p.1.symbol = req.symbol ↔ p.2.symbol_id = sym_id := by
    constructor
    · intro heq
      rw [heq, hsym] at h1
      exact (Option.some.inj h1).symm
    · intro heq
      exact hm.inj _ _ _ h1 (heq ▸ hsym)
  have hrange := inRange_iff req sym_id p.2
  simp only [Matches, Function.comp, QueryRequest.wants, hid, h2]
  rw [Bool.eq_iff_iff, Bool.and_eq_true, decide_eq_true_eq, decide_eq_true_eq, hrange]
  tauto

theorem queryRows_eq {t : Tracked} (h : Refines t) (req : QueryRequest) (sym_id : UInt32) :
    queryRows req sym_id t.db = ((visible t.db).filter
      (inRange (req.start_key sym_id) (req.end_key sym_id))).filter req.wants := by
  have hfiles : ∀ info ∈ files_to_scan t.db.levels,
      fileDelivers t.db.disk.ssts (req.start_key sym_id) (req.end_key sym_id) info =
        (fileEvents t.db.disk.ssts info).filter
          (inRange (req.start_key sym_id) (req.end_key sym_id)) := by
    intro info hinfo
    rcases h.filed.mem_files.mp hinfo with hinfo | hinfo
    · exact (h.filed.l0 info hinfo).1.delivers _ _
    · exact (h.l1 info hinfo).delivers _ _
  rw [queryRows, List.flatMap_congr hfiles, List.flatMap_cons, visible, buriedEvents,
    ← List.append_assoc, List.filter_append, List.filter_append, List.filter_append,
    List.filter_append]
  simp only [List.filter_flatMap, List.filter_append]

theorem filter_wants (l : List Event) (p : Event → Bool) (req : QueryRequest) :
    (l.filter p).filter req.wants = ((live l).filter p).filter req.wants := by
  rw [live, List.filter_filter, List.filter_filter, List.filter_filter]
  refine List.filter_congr fun e _ => ?_
  rw [QueryRequest.wants]
  by_cases htomb : e.event_type = .Tombstone <;> simp [htomb]

theorem Refines.ordered {t : Tracked} (h : Refines t) : t.db.Ordered := by
  refine ⟨h.filed.mems, fun info hinfo => ?_⟩
  rcases h.filed.mem_files.mp hinfo with hinfo | hinfo
  · exact (h.filed.l0 info hinfo).1.ordered
  · exact (h.l1 info hinfo).ordered

theorem Refines.answers {t : Tracked} (h : Refines t) (req : QueryRequest) : Answers t req := by
  intro hlimit
  cases hsym : t.db.symbols.lookup req.symbol with
  | none =>
      refine ⟨{}, DB.query_unknown h.opened hsym, rfl, ?_⟩
      have hnone : t.ref.rows req = [] := by
        rw [RefMap.rows, List.map_eq_nil_iff, List.filter_eq_nil_iff]
        intro p hp hmatch
        rw [Matches, decide_eq_true_eq] at hmatch
        have hentry := (h.named.entry p hp).1
        rw [hmatch.1, hsym] at hentry
        cases hentry
      rw [hnone]
  | some sym_id =>
      obtain ⟨r, hquery, hok, hrows⟩ := DB.query_rows h.ordered h.opened hsym
      have hperm : (queryRows req sym_id t.db).Perm (t.ref.rows req) := by
        rw [queryRows_eq h, refRows_eq h.named hsym, filter_wants, filter_wants (refEvents t.ref)]
        exact (h.rows.filter _).filter _
      have hfits : (queryRows req sym_id t.db).length ≤ req.row_limit := by
        have hpos : 0 < req.limit := UInt32.lt_iff_toNat_lt.mpr (Nat.zero_lt_of_lt hlimit)
        rw [hperm.length_eq, QueryRequest.row_limit, if_pos hpos]
        exact hlimit.le
      rw [List.take_of_length_le hfits] at hrows
      exact ⟨r, hquery, hok, hrows ▸ hperm⟩

/-! ## The condition on a call -/

/-- The id a symbol has or is about to get. -/
def internId (db : DB) (symbol : Bytes) : UInt32 :=
  (db.symbols.lookup symbol).getD db.symbols.next_id

/-- An id about to be given out is not taken. -/
def FreshId (db : DB) (symbol : Bytes) : Prop :=
  db.symbols.lookup symbol = none → ∀ name, db.symbols.lookup name ≠ some db.symbols.next_id

def Clear (t : Tracked) : Call → Prop
  | .append symbol args _ =>
      FreshId t.db symbol ∧
        ¬ Buried t.db ⟨internId t.db symbol, args.timestamp_ns, t.db.next_seq⟩
  | .remove symbol timestamp_ns sequence_id _ =>
      FreshId t.db symbol ∧
        ¬ Buried t.db ⟨internId t.db symbol, timestamp_ns, sequence_id⟩
  | .flush_now => True
  | .compact_now => ∀ i < outputCount t.db, ∀ info ∈ t.db.levels 1,
      info.path ≠ ⟨1, .compacted 1 (t.db.sst_seq + i)⟩

instance (db : DB) (key : Key) : Decidable (Buried db key) := by
  unfold Buried; infer_instance

/-! ## The writes -/

theorem intern_cases (db : DB) (symbol : Bytes) :
    (db.symbols.lookup symbol = some (internId db symbol) ∧
      db.intern symbol = (internId db symbol, db)) ∨
    (db.symbols.lookup symbol = none ∧ internId db symbol = db.symbols.next_id ∧
      ∃ file, db.intern symbol = (internId db symbol,
        { db with
          symbols :=
            { name_to_id := db.symbols.name_to_id.insert symbol db.symbols.next_id
              id_to_name := db.symbols.id_to_name.insert db.symbols.next_id symbol
              next_id := db.symbols.next_id + 1 }
          disk.symbol_table := file })) := by
  rw [DB.intern, SymbolTable.intern, internId, SymbolTable.lookup]
  cases db.symbols.name_to_id.lookup symbol with
  | none => exact .inr ⟨rfl, rfl, _, rfl⟩
  | some id => exact .inl ⟨rfl, rfl⟩

theorem intern_keeps (db : DB) (symbol name : Bytes) (id : UInt32)
    (h : db.symbols.lookup name = some id) : (db.intern symbol).2.symbols.lookup name = some id := by
  rcases intern_cases db symbol with ⟨-, heq⟩ | ⟨hnone, -, file, heq⟩ <;> rw [heq]
  · exact h
  · have hne : name ≠ symbol := fun hsym => by
      rw [hsym, hnone] at h
      cases h
    exact (AList.lookup_insert_ne hne).trans h

theorem intern_known (db : DB) (symbol : Bytes) :
    (db.intern symbol).2.symbols.lookup symbol = some (db.intern symbol).1 := by
  rcases intern_cases db symbol with ⟨hknown, heq⟩ | ⟨-, hid, file, heq⟩ <;> rw [heq]
  · exact hknown
  · exact (AList.lookup_insert _).trans (congrArg some hid.symm)

theorem intern_refines {t : Tracked} (h : Refines t) {symbol : Bytes}
    (hfresh : FreshId t.db symbol) :
    ∃ db, t.db.intern symbol = (internId t.db symbol, db) ∧ Refines { t with db } ∧
      db.symbols.lookup symbol = some (internId t.db symbol) ∧ db.next_seq = t.db.next_seq ∧
      (∀ key, Buried db key ↔ Buried t.db key) := by
  rcases intern_cases t.db symbol with ⟨hlook, heq⟩ | ⟨hnone, hid, file, heq⟩
  · exact ⟨_, heq, h, hlook, rfl, fun _ => Iff.rfl⟩
  · refine ⟨_, heq, ⟨h.filed.quiet ⟨rfl, rfl, rfl, rfl, rfl, rfl⟩, h.opened, h.wal, h.l1,
      h.newer, ?_, h.rows⟩, ?_, rfl, fun _ => Iff.rfl⟩
    · have hother : ∀ name id, t.db.symbols.lookup name = some id →
          (t.db.symbols.name_to_id.insert symbol t.db.symbols.next_id).lookup name = some id := by
        intro name id hname
        have hne : name ≠ symbol := fun heq => by
          rw [heq, hnone] at hname
          cases hname
        rw [AList.lookup_insert_ne hne]
        exact hname
      refine ⟨fun p hp => ?_, fun a b id ha hb => ?_⟩
      · obtain ⟨h1, h2⟩ := h.named.entry p hp
        exact ⟨hother _ _ h1, h2⟩
      · simp only [SymbolTable.lookup] at ha hb
        -- the new id is nobody else's
        by_cases hsa : a = symbol <;> by_cases hsb : b = symbol
        · rw [hsa, hsb]
        · subst hsa
          rw [AList.lookup_insert] at ha
          rw [AList.lookup_insert_ne hsb] at hb
          exact absurd (hb.trans ha.symm) (hfresh hnone b)
        · subst hsb
          rw [AList.lookup_insert] at hb
          rw [AList.lookup_insert_ne hsa] at ha
          exact absurd (ha.trans hb.symm) (hfresh hnone a)
        · rw [AList.lookup_insert_ne hsa] at ha
          rw [AList.lookup_insert_ne hsb] at hb
          exact h.named.inj a b id ha hb
    · rw [hid]
      exact AList.lookup_insert _

theorem wal_append_ready {db : DB} (h : WalReady db) (e : Event) :
    ∃ offset wal dir, db.wal_append e {} = .ok offset { db with wal, disk.wal := dir } ∧
      WalReady { db with wal, disk.wal := dir } := by
  rw [DB.wal_append]
  cases hw : db.wal with
  | none =>
      refine ⟨0, none, db.disk.wal, ?_, fun w hw' => by cases hw'⟩
      simp only [← hw]
  | some w =>
      obtain ⟨log, hlog⟩ := h w hw
      obtain ⟨r, s', happ, hs'⟩ := hlog.append e
      simp only at happ
      simp only [happ]
      refine ⟨_, _, _, rfl, fun w' hw' => ?_⟩
      cases hw'
      exact ⟨_, hs'⟩

theorem log_and_insert_refines {t : Tracked} (h : Refines t) {symbol : Bytes} {e : Event}
    (hsym : t.db.symbols.lookup symbol = some e.symbol_id) (hclear : ¬ Buried t.db e.key)
    (height : Fin kMaxHeight) :
    ∃ offset db, DB.log_and_insert e height {} t.db = .ok ⟨e.sequence_id, offset⟩ db ∧
      db.symbols = t.db.symbols ∧
      Refines ⟨db, t.ref.insert ⟨symbol, e.timestamp_ns, e.sequence_id⟩ e⟩ := by
  obtain ⟨offset, wal, dir, happ, hready⟩ := wal_append_ready h.wal e
  have hlogged : Refines ⟨{ t.db with wal, disk.wal := dir }, t.ref⟩ :=
    ⟨h.filed.quiet ⟨rfl, rfl, rfl, rfl, rfl, rfl⟩, h.opened, hready, h.l1, h.newer, h.named, h.rows⟩
  rw [DB.log_and_insert, happ]
  refine ⟨offset, _, rfl, ?_, mem_insert_refines hlogged hsym hclear height⟩
  rw [mem_insert_eq]
  split <;> rfl

/-- A clear call keeps the invariant. -/
theorem exec_refines (t : Tracked) (c : Call) (h : Refines t) (hc : Clear t c) :
    Refines (exec t c) := by
  cases c with
  | append symbol args height =>
      obtain ⟨hfresh, hclear⟩ := hc
      obtain ⟨db, hintern, hdb, hsym, hseq, hburied⟩ := intern_refines h hfresh
      rw [← hseq] at hclear
      obtain ⟨offset, db', hlog, hsyms, hdb'⟩ := log_and_insert_refines
        (t := ⟨{ db with next_seq := db.next_seq + 1 }, t.ref⟩)
        (e := { args with
          symbol_id := internId t.db symbol
          sequence_id := db.next_seq })
        ⟨hdb.filed.quiet ⟨rfl, rfl, rfl, rfl, rfl, rfl⟩, hdb.opened, hdb.wal, hdb.l1, hdb.newer, hdb.named,
          hdb.rows⟩
        hsym (fun hb => hclear ((hburied _).mp hb)) height
      have happ : t.db.append symbol args height {} = .ok ⟨db.next_seq, offset⟩ db' := by
        rw [DB.append, h.opened, hintern]
        exact hlog
      have hid : symbolId db' symbol = internId t.db symbol := by
        rw [symbolId, hsyms, hsym]
        rfl
      rw [exec, happ]
      simp only [hid]
      exact hdb'
  | remove symbol timestamp_ns sequence_id height =>
      obtain ⟨hfresh, hclear⟩ := hc
      obtain ⟨db, hintern, hdb, hsym, -, hburied⟩ := intern_refines h hfresh
      obtain ⟨offset, db', hlog, hsyms, hdb'⟩ := log_and_insert_refines (t := ⟨db, t.ref⟩)
        (e := { timestamp_ns
                symbol_id := internId t.db symbol
                sequence_id
                event_type := .Tombstone })
        hdb hsym (fun hb => hclear ((hburied _).mp hb)) height
      have hrem : t.db.remove symbol timestamp_ns sequence_id height {} =
          .ok ⟨sequence_id, offset⟩ db' := by
        rw [DB.remove, h.opened, hintern]
        exact hlog
      have hid : symbolId db' symbol = internId t.db symbol := by
        rw [symbolId, hsyms, hsym]
        rfl
      rw [exec, hrem]
      simp only [hid]
      exact hdb'
  | flush_now => exact flush_now_refines h
  | compact_now =>
      obtain ⟨db, hcompact, hdb⟩ := compact_refines h hc
      rw [exec, hcompact]
      exact hdb

theorem openEmpty_refines (cfg : DBConfig) : Refines (openEmpty cfg) := by
  obtain ⟨s, hs, hserves⟩ := create_empty cfg.wal_segment_bytes
  obtain ⟨wal, dir, heq, hready⟩ : ∃ wal dir,
      openEmpty cfg = ⟨{ DB.load cfg {} [] with wal, disk.wal := dir }, ∅⟩ ∧
        ∀ w, wal = some w → ∃ log, Serves ⟨⟨dir.getD ∅, w⟩, log⟩ := by
    rw [openEmpty, DB.open_]
    cases cfg.wal_enabled with
    | false => exact ⟨none, none, rfl, fun w hw => by cases hw⟩
    | true =>
        simp only [if_true, hs]
        refine ⟨some s.writer, some s.dir, rfl, fun w hw => ⟨[], ?_⟩⟩
        cases hw
        exact hserves
  rw [heq]
  refine ⟨(load_filed cfg).quiet ⟨rfl, rfl, rfl, rfl, rfl, rfl⟩, rfl, hready, ?_, ?_, ?_, ?_⟩
  · intro info hinfo
    cases hinfo
  · exact List.pairwise_singleton _ _
  · refine ⟨fun p hp => ?_, fun a b id ha => ?_⟩
    · cases hp
    · cases ha
  · exact List.Perm.refl _

/-- As long as every call is clear, every query with room for its rows returns
exactly one row for every key whose most recent write matches. -/
theorem clear_reads_refine (cfg : DBConfig) (calls : List Call)
    (h : Run.Along exec Clear (openEmpty cfg) calls) (req : QueryRequest) :
    Answers (calls.foldl exec (openEmpty cfg)) req :=
  (h.invariant exec_refines (openEmpty_refines cfg)).answers req

/-- Two symbols, a removal in the memtable, a flush and a compaction. -/
def mixedCalls : List Call :=
  [.append [65] {} 0, .append [65] { timestamp_ns := 7 } 1, .remove [65] 0 1 0, .flush_now,
    .append [66] {} 0, .compact_now]

theorem clear_reads_refine_mixed :
    Answers (mixedCalls.foldl exec (openEmpty {})) { symbol := [65] } := by
  refine clear_reads_refine {} mixedCalls
    ⟨⟨fun _ _ => nofun, by decide⟩, ⟨fun h => absurd h (by decide), by decide⟩,
      ⟨fun h => absurd h (by decide), by decide⟩, trivial, ⟨fun _ name => ?_, by decide⟩,
      fun i _ info hinfo => absurd hinfo List.not_mem_nil, trivial⟩ _
  change (AList.insert [65] 1 ∅).lookup name ≠ some 2
  by_cases hname : name = [65]
  · subst hname
    rw [AList.lookup_insert]
    decide
  · rw [AList.lookup_insert_ne hname]
    nofun

/-! ## A removal that comes after the flush -/

/-- The removed event is flushed before the tombstone is written. -/
def lateRemove : List Call := [.append [65] {} 0, .flush_now, .remove [65] 0 1 0]

/-- The query still shows it. -/
theorem late_remove_shown : ¬ Answers (lateRemove.foldl exec (openEmpty {})) { symbol := [65] } := by
  intro h
  obtain ⟨r, hquery, -, hperm⟩ := h (by decide)
  have hrow : (lateRemove.foldl exec (openEmpty {})).db.query { symbol := [65] } =
      .ok { rows := [{ symbol_id := 1, sequence_id := 1 }]
            stats := ⟨1, 0, 1, 2, 1⟩ } := by rfl
  rw [hrow, Except.ok.injEq] at hquery
  subst hquery
  exact absurd hperm.length_eq (by decide)

end Kronos
