import Kronos.Proofs.Reopened

/-!
# What a crash leaves of a session

A write that has returned has its record in the log, and no later crash takes
it away. The database opened next replays the log into its active memtable,
which every query scans first. So of a key whose last record is its append, the
append is found, whatever else the crash has left of symbols and tables.
-/

namespace Kronos

open Spec Compaction Spec.Symbols Framing

/-! ## The log -/

/-- The log in a directory that nobody writes to. -/
def LogLeft (disk : Disk) (events : List Event) : Prop :=
  (disk.wal = none ∧ events = []) ∨
    ∃ dir log, disk.wal = some dir ∧ Survives ⟨dir, log⟩ ∧ log.map LogEntry.event = events

theorem Logs.left {db : DB} {events : List Event} (h : Logs db events) :
    LogLeft db.disk events := .inr h.survives

theorem LogLeft.congr {disk disk' : Disk} {events : List Event} (h : LogLeft disk events)
    (hwal : disk'.wal = disk.wal) : LogLeft disk' events := by
  rw [LogLeft, hwal]
  exact h

/-- The writer a call leaves, whether it returns or throws. -/
def walAfter {α : Type} : WalResult α → WalState
  | .ok _ s => s
  | .error _ s => s

theorem wal_append_after {db : DB} {writer : WALWriter} (hwal : db.wal = some writer) (e : Event)
    (io : AppendIO) : (after (db.wal_append e io)).disk.wal =
      some (walAfter (WALWriter.append e io ⟨db.disk.wal.getD ∅, writer⟩)).dir := by
  rw [DB.wal_append, hwal]
  simp only []
  split <;> next happ => rw [happ]; rfl

/-- An append that is cut off, in its record or behind it, leaves the record
whole or a tail that is none. -/
theorem append_interrupted {live : Live} (h : Serves live) (e : Event) (stored : Nat) :
    ∃ log, Survives ⟨(walAfter (WALWriter.append e ⟨stored, false⟩ live.state)).dir, log⟩ ∧
      (log = live.log ∨ ∃ x, log = live.log ++ [x] ∧ x.event = e) := by
  obtain ⟨init, last, hrun, hlog⟩ := h
  by_cases hshort : stored < recordSize
  · obtain ⟨s, happ, hrun'⟩ := append_short hrun e
      (show (⟨stored, false⟩ : AppendIO).stored < recordSize from hshort)
    refine ⟨live.log, .inr ⟨init, last, _, ?_, walFormat_torn e hshort, hlog⟩, .inl rfl⟩
    rw [happ]
    exact hrun'.holds
  · -- a rotation cannot open its file, but by then the record is written
    have hfull : (wal_record e).take stored = wal_record e :=
      List.take_of_length_le (by rw [wal_record_length]; exact Nat.le_of_not_lt hshort)
    have hdir : (walAfter (WALWriter.append e ⟨stored, false⟩ live.state)).dir =
        live.state.dir.insert (init.length + 1)
          (live.state.dir.contents (init.length + 1) ++ wal_record e) := by
      rw [WALWriter.append]
      simp only [hrun.fd, hfull]
      rw [if_neg (by rw [wal_record_length]; exact hshort)]
      split <;> rfl
    refine ⟨live.log ++ [⟨e, init.length + 1, recordSize * last.length⟩],
      .inr ⟨init, last ++ [e], [], ?_, walFormat_parse_nil, ?_⟩, .inr ⟨_, rfl, rfl⟩⟩
    · rw [hdir]
      exact (write_holds hrun.holds (wal_record e)).absorb
    · rw [logOf_append, hlog]

theorem Logs.interrupted {db : DB} {events : List Event} (h : Logs db events) (e : Event)
    (stored : Nat) : ∃ events', LogLeft (after (db.wal_append e ⟨stored, false⟩)).disk events' ∧
      (events' = events ∨ events' = events ++ [e]) := by
  obtain ⟨writer, dir, log, hwal, hdir, hserves, rfl⟩ := h
  obtain ⟨log', hsurvives, hlog'⟩ := append_interrupted hserves e stored
  have hafter := wal_append_after hwal e ⟨stored, false⟩
  rw [hdir, Option.getD_some] at hafter
  refine ⟨log'.map LogEntry.event, .inr ⟨_, log', hafter, hsurvives, rfl⟩, ?_⟩
  rcases hlog' with rfl | ⟨x, rfl, rfl⟩
  · exact .inl rfl
  · exact .inr (by rw [List.map_append, List.map_singleton])

/-- A crash leaves the log as it was, or with the interrupted write behind it. -/
theorem crash_log {db : DB} {events : List Event} (h : Logs db events) {s : Step}
    (hs : Unhindered s) {disk : Disk} (hcrash : CrashLeaves db s disk) :
    ∃ events', LogLeft disk events' ∧
      (events' = events ∨ ∃ p, written db s = some p ∧ events' = events ++ [p.2]) := by
  have hsame : ∀ disk' : Disk, disk'.wal = db.disk.wal → ∃ events', LogLeft disk' events' ∧
      (events' = events ∨ ∃ p, written db s = some p ∧ events' = events ++ [p.2]) :=
    fun disk' hwal => ⟨events, h.left.congr hwal, .inl rfl⟩
  cases hcrash with
  | before => exact hsame _ rfl
  | after =>
      cases hw : written db s with
      | none =>
          obtain ⟨hwal, hlog⟩ := unwritten_log hw
          exact ⟨events, (h.congr hwal hlog).left, .inl rfl⟩
      | some p => exact ⟨_, (h.write hs hw).1.left, .inr ⟨p, rfl, rfl⟩⟩
  | symbol => exact hsame _ rfl
  | @record _ symbol e hw stored =>
      have hintern : Logs (db.intern symbol).2 events := h.congr rfl rfl
      obtain ⟨events', hleft, hevents⟩ := hintern.interrupted e stored
      exact ⟨events', hleft, hevents.imp_right fun heq => ⟨_, hw, heq⟩⟩
  | flush => exact hsame _ rfl
  | between hrun j => exact hsame _ (by rw [write_outputs_eq])
  | output hrun hj t => exact hsame _ (by rw [write_outputs_eq])
  | removing hrun hne i => exact hsame _ (by rw [write_outputs_eq, remove_inputs_eq])
  | symbols => exact hsame _ rfl

theorem survives_events {dir : WalDir} {log : List LogEntry} (h : Survives ⟨dir, log⟩) :
    (read_all dir).records.map WALRecord.event = log.map LogEntry.event := by
  rcases h with ⟨hdir, hlog⟩ | ⟨init, last, tail, hdir, htail, hlog⟩ <;> simp only at hdir hlog
  · rw [hdir, hlog, read_all_empty]
    rfl
  · rw [hdir.read_all_records htail, hlog, List.map_map]
    rfl

/-- What `open` does with such a log. -/
theorem opened_left {cfg : DBConfig} (hwal : cfg.wal_enabled = true) {disk : Disk}
    {events : List Event} (h : LogLeft disk events) (listing : List SSTablePath)
    (heights : Nat → Fin kMaxHeight) :
    let db := opened cfg disk listing heights
    Logs db events ∧ db.closed = false ∧
      db.active_mem.nodes = events.foldl (fun nodes e => Keyed.upsert Event.key e nodes) [] ∧
      db.symbols = (DB.load cfg disk listing).symbols ∧
      db.disk.symbol_table = disk.symbol_table := by
  rcases h with ⟨hnone, rfl⟩ | ⟨dir, log, hdir, hlog, rfl⟩
  · obtain ⟨s, hs, hserves⟩ := create_empty cfg.wal_segment_bytes
    have hdb : opened cfg disk listing heights = { DB.load cfg disk listing with
        wal := some s.writer, disk := { disk with wal := some s.dir } } := by
      simp only [opened, DB.open_, hwal, if_true, hnone, hs, after]
      rfl
    rw [hdb]
    exact ⟨⟨s.writer, s.dir, [], rfl, rfl, hserves, rfl⟩, rfl, rfl, rfl, rfl⟩
  · obtain ⟨s, hs, hserves⟩ := recover_serves hlog cfg.wal_segment_bytes
    have hread : (wal_recover dir cfg.wal_segment_bytes).1 = read_all dir := by
      rw [wal_recover]
      split <;> rfl
    have hdb : opened cfg disk listing heights =
        { DB.load cfg disk listing with
          active_mem :=
            DB.replay heights (read_all dir).records (DB.load cfg disk listing).active_mem
          next_seq := DB.recovered_seq (read_all dir).records
          wal := some s.writer
          disk := { disk with wal := some s.dir } } := by
      simp only [opened, DB.open_, hwal, if_true, hdir, hs, hread, after]
      rfl
    rw [hdb]
    refine ⟨⟨s.writer, s.dir, _, rfl, rfl, hserves, rfl⟩, rfl, ?_, rfl, rfl⟩
    change (DB.replay heights (read_all dir).records (MemTable.new _)).nodes = _
    rw [LogOrder.replay_nodes, survives_events hlog]
    rfl

/-! ## The symbols -/

/-- The symbol table says what its file says, and the file ends with a whole entry. -/
structure Registered (s : Symbols) : Prop where
  whole : Symbols.Whole (s.file.getD [])
  known : ∀ name id, s.table.lookup name = some id ↔ (id, name) ∈ entriesIn (s.file.getD [])
  names : ((entriesIn (s.file.getD [])).map Prod.snd).Nodup

def symbolsOf (db : DB) : Symbols := { table := db.symbols, file := db.disk.symbol_table }

theorem registered_new : Registered {} := by
  have hnone : entriesIn [] = [] := entriesIn_none symbolFormat_nil
  refine ⟨Format.clean_none symbolFormat_nil, fun name id => ⟨nofun, fun hin => ?_⟩, ?_⟩
  · rw [Option.getD_none, hnone] at hin
    cases hin
  · rw [Option.getD_none, hnone]
    exact List.nodup_nil

/-- A new entry goes behind whole ones. -/
theorem Registered.entries_new {s : Symbols} (h : Registered s) {name : Bytes}
    (hlook : s.table.lookup name = none) (k : Nat) (hshort : name.length ≤ 65535) :
    let es := entriesIn (s.file.getD [] ++ (SymbolTable.entry s.table.next_id name).take k)
    (es = entriesIn (s.file.getD []) ∨
      es = entriesIn (s.file.getD []) ++ [(s.table.next_id, name)]) ∧ (es.map Prod.snd).Nodup := by
  intro es
  have hes : es = entriesIn (s.file.getD []) ++
      entriesIn ((SymbolTable.entry s.table.next_id name).take k) := entriesIn_append h.whole _
  rcases entriesIn_cut s.table.next_id hshort k with hcut | hcut <;> rw [hcut] at hes
  · refine ⟨.inr hes, ?_⟩
    rw [hes, List.map_append, List.map_singleton]
    refine List.nodup_append.mpr ⟨h.names, List.nodup_singleton _, fun x hx y hy hxy => ?_⟩
    obtain ⟨q, hq, rfl⟩ := List.mem_map.mp hx
    have hq2 : q.2 = name := hxy.trans (List.mem_singleton.mp hy)
    rw [← hq2, (h.known q.2 q.1).mpr hq] at hlook
    cases hlook
  · rw [List.append_nil] at hes
    exact ⟨.inl hes, hes ▸ h.names⟩

theorem Registered.intern {s : Symbols} (h : Registered s) {name : Bytes}
    (hshort : name.length ≤ 65535) : Registered (s.call (.intern name)) := by
  cases hlook : s.table.lookup name with
  | some id =>
      rw [call_known hlook]
      exact ⟨h.whole, h.known, h.names⟩
  | none =>
      have hfile : (s.call (.intern name)).file.getD [] =
          s.file.getD [] ++ SymbolTable.entry s.table.next_id name := by
        rw [call_new hlook, Option.getD_some]
      have hparse := symbolFormat_entry s.table.next_id hshort
      have hentry : Symbols.Whole (SymbolTable.entry s.table.next_id name) := by
        rw [Symbols.Whole, Format.clean_some hparse, List.drop_length, Format.clean_none symbolFormat_nil,
          Nat.add_zero]
      have hentries : entriesIn ((s.call (.intern name)).file.getD []) =
          entriesIn (s.file.getD []) ++ [(s.table.next_id, name)] := by
        rw [hfile, entriesIn_append h.whole, entriesIn_entry _ hshort]
      refine ⟨?_, fun n i => ?_, ?_⟩
      · rw [hfile, Symbols.Whole, Format.clean_append _ h.whole, hentry, List.length_append]
      · rw [hentries, List.mem_append, List.mem_singleton, ← h.known, lookup_call_new hlook,
          Prod.mk.injEq, or_comm, and_comm (a := n = name)]
      · have hnew := (h.entries_new hlook (SymbolTable.entry s.table.next_id name).length hshort).2
        rw [List.take_length, ← hfile] at hnew
        exact hnew

theorem symbolsOf_intern (db : DB) (name : Bytes) : Registered (symbolsOf (db.intern name).2) ↔
    Registered ((symbolsOf db).call (.intern name)) := by
  have hsame : symbolsOf (db.intern name).2 =
      { ((symbolsOf db).call (.intern name)) with told := [] } := by
    cases hlook : db.symbols.lookup name with
    | some id =>
        rw [call_known (s := symbolsOf db) hlook]
        simp only [symbolsOf, DB.intern, SymbolTable.intern_known hlook, if_true]
    | none =>
        rw [call_new (s := symbolsOf db) hlook]
        simp only [symbolsOf, DB.intern, SymbolTable.intern_new hlook, if_neg (entry_ne_nil _ _)]
  rw [hsame]
  exact ⟨fun h => ⟨h.whole, h.known, h.names⟩, fun h => ⟨h.whole, h.known, h.names⟩⟩

theorem written_short {db : DB} {s : Step} (hshort : ShortSymbol s) {p : Bytes × Event}
    (hw : written db s = some p) : p.1.length ≤ 65535 := by
  obtain ⟨-, _, _, _, -, hkind⟩ := written_step hw
  rcases hkind with ⟨_, rfl, -⟩ | ⟨_, _, rfl, -⟩ <;> exact hshort

theorem Registered.step {db : DB} {events : List Event} (h : Registered (symbolsOf db))
    (hlogs : Logs db events) {s : Step} (hs : Unhindered s) (hc : ¬ Closes s)
    (hshort : ShortSymbol s) : Registered (symbolsOf (step db s)) := by
  cases hw : written db s with
  | none =>
      have ha := unwritten_aside hc hw
      rw [symbolsOf, ha.symbols, ha.symbol_table]
      exact h
  | some p =>
      obtain ⟨-, db', height, hstep, -, -, hsymbols, htable, -⟩ := hlogs.write hs hw
      have ha := mem_insert_aside p.2 height db'
      rw [symbolsOf, hstep, ha.symbols, ha.symbol_table, hsymbols, htable]
      exact (symbolsOf_intern db p.1).mpr (h.intern (written_short hshort hw))

theorem wal_append_symbols (e : Event) (io : AppendIO) (db : DB) :
    (after (db.wal_append e io)).disk.symbol_table = db.disk.symbol_table := by
  rw [DB.wal_append]
  split
  · rfl
  · split <;> rfl

/-- After a crash every name that was known is loaded with its id. -/
theorem crash_known {db : DB} {events : List Event} (h : Registered (symbolsOf db))
    (hlogs : Logs db events) {s : Step} (hs : Unhindered s) (hc : ¬ Closes s)
    (hshort : ShortSymbol s) {disk : Disk} (hcrash : CrashLeaves db s disk) {name : Bytes}
    {id : UInt32} (hknown : db.symbols.lookup name = some id) :
    ((disk.symbol_table.map SymbolTable.load).getD {}).lookup name = some id := by
  have hload : ∀ file : Option Bytes, ((entriesIn (file.getD [])).map Prod.snd).Nodup →
      (id, name) ∈ entriesIn (file.getD []) →
        ((file.map SymbolTable.load).getD {}).lookup name = some id := fun file hnames hin => by
    have hreload := reload_table { file := file }
    simp only [Symbols.reload] at hreload
    rw [hreload, SymbolTable.load_eq]
    exact (SymbolTable.lookup_iff hnames).mpr hin
  have hregistered : ∀ db' : DB, Registered (symbolsOf db') →
      db'.symbols.lookup name = some id → ∀ file, file = db'.disk.symbol_table →
        ((file.map SymbolTable.load).getD {}).lookup name = some id := by
    intro db' hdb' hlook file hfile
    exact hload file (hfile ▸ hdb'.names) (hfile ▸ (hdb'.known name id).mp hlook)
  have hsame := hregistered db h hknown
  cases hcrash with
  | before => exact hsame _ rfl
  | after =>
      refine hregistered _ (h.step hlogs hs hc hshort) ?_ _ rfl
      cases hw : written db s with
      | none => rw [(unwritten_aside hc hw).symbols, hknown]
      | some p =>
          obtain ⟨-, db', height, hstep, -, -, hsymbols, -⟩ := hlogs.write hs hw
          rw [hstep, (mem_insert_aside p.2 height db').symbols, hsymbols]
          exact intern_keeps _ _ _ _ hknown
  | @symbol _ symbol e hw k =>
      have hin := (h.known name id).mp hknown
      cases hlook : db.symbols.lookup symbol with
      | some id' =>
          refine hload _ ?_ ?_ <;>
            simp only [SymbolTable.intern_known hlook, List.take_nil, List.append_nil,
              Option.getD_some]
          · exact h.names
          · exact hin
      | none =>
          obtain ⟨hes, hnodup⟩ := h.entries_new hlook k (written_short hshort hw)
          refine hload _ ?_ ?_ <;> simp only [SymbolTable.intern_new hlook, Option.getD_some]
          · exact hnodup
          · rcases hes with hes | hes
            · exact hes ▸ hin
            · exact hes ▸ List.mem_append_left _ hin
  | @record _ symbol e hw stored =>
      refine hregistered (db.intern symbol).2 ?_ (intern_keeps _ _ _ _ hknown) _ ?_
      · exact (symbolsOf_intern db symbol).mpr (h.intern (written_short hshort hw))
      · exact wal_append_symbols e _ _
  | flush => exact hsame _ rfl
  | between hrun j => exact hsame _ (by rw [write_outputs_eq])
  | output hrun hj t => exact hsame _ (by rw [write_outputs_eq])
  | removing hrun hne i => exact hsame _ (by rw [write_outputs_eq, remove_inputs_eq])
  | symbols => exact absurd trivial hc

/-! ## The tables -/

/-- Finished tables hold nothing but `P`; of the others nothing is known. -/
def FinishedWith (P : Event → Prop) (ssts : SSTableDir) : Prop :=
  ∀ path t, ssts.lookup path = some (.finished t) → TableWith P t

section
variable {P : Event → Prop}

theorem FilesWith.finished {ssts : SSTableDir} (h : FilesWith P ssts) : FinishedWith P ssts :=
  fun path t hlook => h path (.finished t) hlook

theorem FinishedWith.torn {ssts : SSTableDir} (h : FinishedWith P ssts) (path : SSTablePath)
    (t : TornTable) : FinishedWith P (ssts.insert path (.torn t)) := by
  intro other t' hlook
  by_cases heq : other = path
  · rw [heq, AList.lookup_insert] at hlook
    cases hlook
  · rw [AList.lookup_insert_ne heq] at hlook
    exact h other t' hlook

theorem crash_finished {db : DB} (h : Holding P db) {s : Step}
    (hs : ∀ p, written db s = some p → P p.2) {disk : Disk} (hcrash : CrashLeaves db s disk) :
    FinishedWith P disk.ssts := by
  cases hcrash with
  | before => exact h.files.finished
  | after => exact (h.step hs).files.finished
  | symbol => exact h.files.finished
  | record hw stored =>
      rw [(wal_append_quiet _ _ _).ssts]
      exact h.files.finished
  | flush himm hmem t => exact h.files.finished.torn _ t
  | between hrun j =>
      rw [write_outputs_eq]
      exact (h.files.insertTables fun u hu => h.files.run hrun u (List.mem_of_mem_take hu)).finished
  | output hrun hj t =>
      rw [write_outputs_eq]
      refine FinishedWith.torn (FilesWith.finished ?_) _ t
      exact h.files.insertTables fun u hu => h.files.run hrun u (List.mem_of_mem_take hu)
  | removing hrun hne i =>
      rw [write_outputs_eq, remove_inputs_eq]
      exact ((h.files.insertTables (h.files.run hrun)).eraseFiles _).finished
  | symbols => exact h.files.finished

end

/-! ## The query -/

/-- What the active memtable holds comes before any other row. -/
theorem query_active {db : DB} (hdb : db.Ordered) (hopen : db.closed = false) {req : QueryRequest}
    {e : Event} (hsym : db.symbols.lookup req.symbol = some e.symbol_id)
    (hlo : req.start_ns ≤ e.timestamp_ns) (hhi : e.timestamp_ns ≤ req.end_ns)
    (hwants : req.wants e = true) (he : e ∈ db.active_mem.nodes)
    (hroom : differentRows db req < req.row_limit) : ∃ r, db.query req = .ok r ∧ e ∈ r.rows := by
  obtain ⟨r, hquery, -, hrows⟩ := DB.query_rows hdb hopen hsym
  obtain ⟨r', hquery', -, hrows'⟩ := DB.query_rows hdb hopen
    (show db.symbols.lookup ({ req with limit := 0xFFFFFFFF } : QueryRequest).symbol = _ from hsym)
  let front := (db.active_mem.nodes.filter
    (inRange (req.start_key e.symbol_id) (req.end_key e.symbol_id))).filter req.wants
  obtain ⟨back, hback⟩ : ∃ back, queryRows req e.symbol_id db = front ++ back :=
    ⟨_, by rw [queryRows, List.flatMap_cons, List.append_assoc, List.filter_append]⟩
  have hback' : queryRows { req with limit := 0xFFFFFFFF } e.symbol_id db = front ++ back := hback
  have hin : e ∈ front := List.mem_filter.mpr
    ⟨List.mem_filter.mpr ⟨he, (inRange_iff _ _ _).mpr ⟨rfl, hlo, hhi⟩⟩, hwants⟩
  have hnodup : front.Nodup := by
    refine List.Nodup.filter _ (List.Nodup.filter _ ?_)
    exact (hdb.mems _ List.mem_cons_self).imp fun hlt heq =>
      absurd (congrArg Event.key heq) (ne_of_lt hlt)
  have hmax : req.row_limit ≤ 0xFFFFFFFF := by
    have hlimit := req.limit.toNat_lt
    rw [QueryRequest.row_limit]
    split <;> omega
  -- so many different rows there are
  have hcount : min 0xFFFFFFFF front.length ≤ differentRows db req := by
    rw [differentRows, hquery']
    simp only []
    rw [hrows', hback', ← List.length_take]
    have htake := hnodup.sublist (List.take_sublist 0xFFFFFFFF front)
    refine (List.subperm_of_subset htake fun x hx => ?_).length_le
    rw [List.mem_dedup, List.take_append]
    exact List.mem_append_left _ hx
  refine ⟨r, hquery, ?_⟩
  rw [hrows, hback, List.take_append, List.take_of_length_le (by omega)]
  exact List.mem_append_left _ hin

/-! ## A session and its crash -/

section
variable {cfg : DBConfig} (hwal : cfg.wal_enabled = true) (heights : Nat → Fin kMaxHeight)
  {steps : List Step} (hs : ∀ s ∈ steps, Unhindered s ∧ ¬ Closes s ∧ ShortSymbol s)

include hwal hs in
theorem noted_session : (∃ log, Session (fun _ => True) ((Noted.start cfg heights).run steps) log) ∧
    Registered (symbolsOf ((Noted.start cfg heights).run steps).db) := by
  induction steps using List.reverseRecOn with
  | nil =>
      refine ⟨⟨[], start_session (fun _ => True) hwal heights⟩, ?_⟩
      have hnew : symbolsOf ((Noted.start cfg heights).run []).db = {} := by
        obtain ⟨wal, dir, hdb, -⟩ := start_eq cfg heights
        rw [Noted.run, List.foldl_nil, hdb]
        rfl
      exact hnew ▸ registered_new
  | append_singleton steps s ih =>
      obtain ⟨⟨log, hsession⟩, hreg⟩ := ih fun s' hs' => hs s' (List.mem_append_left _ hs')
      obtain ⟨hio, hc, hshort⟩ := hs s (List.mem_append_right _ (List.mem_singleton.mpr rfl))
      rw [noted_concat]
      refine ⟨⟨_, hsession.step hio hc fun _ _ => trivial⟩, ?_⟩
      rw [noted_db]
      exact hreg.step hsession.logs hio hc hshort

end

/-- What alone has its key in the log is there after the log is replayed. -/
theorem mem_replayed {events : List Event} {e : Event} (hin : e ∈ events)
    (honly : ∀ x ∈ events, x.key = e.key → x = e) :
    e ∈ events.foldl (fun nodes e => Keyed.upsert Event.key e nodes) [] := by
  obtain ⟨x, hx⟩ : ∃ x, (events.filter (·.key = e.key)).getLast? = some x := by
    refine Option.isSome_iff_exists.mp (List.getLast?_isSome.mpr fun hnil => ?_)
    exact List.filter_eq_nil_iff.mp hnil e hin (decide_eq_true rfl)
  obtain ⟨hxin, hxkey⟩ := List.mem_filter.mp (List.mem_of_getLast? hx)
  have hsorted : Keyed.Sorted Event.key
      (events.foldl (fun nodes e => Keyed.upsert Event.key e nodes) []) :=
    Keyed.foldl_upsert_sorted events List.Pairwise.nil
  rw [hsorted.mem_iff_find, Keyed.find_foldl_upsert _ List.Pairwise.nil, hx,
    honly x hxin (of_decide_eq_true hxkey)]
  rfl

/-- Of an appended event whose key was not removed, the log of a crash ends with
the append. -/
theorem last_recorded {t : Noted} {log events : List Event}
    (hsession : Session (fun _ => True) t log) (hfew : t.appended.length ≤ 2 ^ 64)
    (hevents : ∀ e ∈ events, e ∈ log) {p : Bytes × Event} (hp : p ∈ t.appended)
    (hkept : ∀ q ∈ t.removed, q.2.key ≠ p.2.key) (hin : p.2 ∈ events) :
    p.2 ∈ events.foldl (fun nodes e => Keyed.upsert Event.key e nodes) [] := by
  have hsame : ∀ e ∈ events, e.key = p.2.key → e = p.2 := fun e he hkey => by
    rcases (hsession.logged e).mp (hevents e he) with he | he
    · obtain ⟨q, hq, rfl⟩ := List.mem_map.mp he
      rw [hsession.counted.eq_of_id hfew hq hp (congrArg Key.sequence_id hkey)]
    · obtain ⟨q, hq, rfl⟩ := List.mem_map.mp he
      exact absurd hkey (hkept q hq)
  exact mem_replayed hin hsame

/-- What a crash at any point of a session leaves is enough to find every
acknowledged append again. -/
theorem acknowledged_recovered {cfg : DBConfig} (hwal : cfg.wal_enabled = true)
    (heights : Nat → Fin kMaxHeight) (steps : List Step) (s : Step)
    (hs : ∀ s' ∈ steps ++ [s], Unhindered s' ∧ ¬ Closes s' ∧ ShortSymbol s') {disk : Disk}
    (hcrash : CrashLeaves ((Noted.start cfg heights).run steps).db s disk)
    (hfew : ((Noted.start cfg heights).run (steps ++ [s])).appended.length ≤ 2 ^ 64)
    (listing : List SSTablePath) (heights' : Nat → Fin kMaxHeight) :
    Recovered ((Noted.start cfg heights).run steps) ((Noted.start cfg heights).run (steps ++ [s]))
      (opened cfg disk listing heights') := by
  obtain ⟨⟨log, hsession⟩, hreg⟩ :=
    noted_session hwal heights fun s' hs' => hs s' (List.mem_append_left _ hs')
  obtain ⟨hio, hc, hshort⟩ := hs s (List.mem_append_right _ (List.mem_singleton.mpr rfl))
  rw [noted_concat] at hfew ⊢
  generalize (Noted.start cfg heights).run steps = t at *
  have hsession' := hsession.step hio hc fun _ _ => trivial
  obtain ⟨events, hleft, hevents⟩ := crash_log hsession.logs hio hcrash
  obtain ⟨-, hclosed, hnodes, hsymbols, -⟩ := opened_left hwal hleft listing heights'
  obtain ⟨hlevels, -, himm, hssts⟩ := open_quiet cfg disk listing heights'
  have hin : ∀ e ∈ log, e ∈ events := fun e he => by
    rcases hevents with rfl | ⟨p, -, rfl⟩
    · exact he
    · exact List.mem_append_left _ he
  have hsub : ∀ e ∈ events, e ∈ log ++ (written t.db s).toList.map Prod.snd := fun e he => by
    rcases hevents with rfl | ⟨p, hw, rfl⟩
    · exact List.mem_append_left _ he
    · rw [hw]
      exact he
  have hordered : (opened cfg disk listing heights').Ordered := by
    refine ⟨fun m hm => ?_, fun info _ file hfile => ?_⟩
    · rw [himm] at hm
      rw [List.mem_singleton.mp hm, hnodes]
      exact Keyed.foldl_upsert_sorted _ List.Pairwise.nil
    · rw [hssts] at hfile
      cases file with
      | torn t => exact trivial
      | finished t =>
          exact (crash_finished hsession.holding (fun _ _ => trivial) hcrash _ t hfile).sorted
  intro p hp hlive hkept req ⟨hsym, hlo, hhi, htype⟩ hroom
  refine query_active hordered hclosed ?_ hlo hhi ?_ ?_ hroom
  · rw [hsymbols, hsym]
    exact crash_known hreg hsession.logs hio hc hshort hcrash (hsession.named p hp)
  · rw [QueryRequest.wants, decide_eq_true_eq]
    exact ⟨hlive, htype⟩
  · rw [hnodes]
    refine last_recorded hsession' hfew hsub (noted_appended hp) hkept (hin _ ?_)
    exact (hsession.logged p.2).mpr (.inl (List.mem_map_of_mem hp))

theorem noted_length (t : Noted) (steps : List Step) :
    (t.run steps).appended.length ≤ t.appended.length + steps.length := by
  induction steps using List.reverseRecOn with
  | nil => exact Nat.le_refl _
  | append_singleton steps s ih =>
      rw [noted_concat, List.length_append, List.length_singleton]
      generalize t.run steps = t' at *
      have hone : ∀ o : Option (Bytes × Event), o.toList.length ≤ 1 := fun o => by cases o <;> simp
      have hone := hone (written t'.db s)
      cases s <;> simp only [Noted.step, List.length_append] <;> omega

/-- An append, and another that a crash cuts off in its record. -/
def cutSession : List Step :=
  [.append [65] { timestamp_ns := 5 } 0 {}, .append [66] { timestamp_ns := 6 } 0 {}]

theorem acknowledged_recovered_cut : ∃ disk,
    CrashLeaves ((Noted.start {} fun _ => 0).run (cutSession.take 1)).db
      (.append [66] { timestamp_ns := 6 } 0 {}) disk ∧
    Recovered ((Noted.start {} fun _ => 0).run (cutSession.take 1))
      ((Noted.start {} fun _ => 0).run cutSession) (opened {} disk [] fun _ => 0) := by
  have hs : ∀ s ∈ cutSession, Unhindered s ∧ ¬ Closes s ∧ ShortSymbol s := by
    intro s hs
    rcases List.mem_pair.mp hs with rfl | rfl <;> exact ⟨rfl, id, by simp [ShortSymbol]⟩
  have hfirst : ∀ s ∈ cutSession.take 1, Unhindered s ∧ ¬ Closes s ∧ ShortSymbol s :=
    fun s hin => hs s (List.mem_of_mem_take hin)
  obtain ⟨⟨log, hsession⟩, -⟩ :=
    noted_session (show ({} : DBConfig).wal_enabled = true from rfl) (fun _ => 0) hfirst
  have hwrites : written ((Noted.start {} fun _ => 0).run (cutSession.take 1)).db
      (.append [66] { timestamp_ns := 6 } 0 {}) ≠ none := by
    rw [written, hsession.opened]
    exact Option.some_ne_none _
  obtain ⟨p, hw⟩ := Option.ne_none_iff_exists'.mp hwrites
  have hfew := noted_length (Noted.start {} fun _ => 0) cutSession
  exact ⟨_, .record hw 10, acknowledged_recovered rfl _ (cutSession.take 1) _ hs (.record hw 10)
    (hfew.trans (by decide)) [] _⟩

end Kronos
