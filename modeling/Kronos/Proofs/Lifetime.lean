import Kronos.Proofs.Histories
import Kronos.Proofs.Served
import Kronos.Spec.Lifetime

/-!
# What a directory retains over its lifetime

Nothing ever leaves the log: a write that returned has its record there, no
crash takes it away, and every `open` replays all of it into the active
memtable. So a session starts with every event that was told in its memtable,
whatever the table files and their numbers have come to.
-/

namespace Kronos

open Spec Compaction Spec.Symbols Framing

variable {P : Event → Prop} {told : List (Bytes × Event)}

/-! ## What a session retains -/

/-- What is told is in the log, under symbols that the table knows. -/
structure Retains (P : Event → Prop) (told : List (Bytes × Event)) (db : DB) : Prop where
  holding : Holding P db
  log : ∃ events, (∀ e ∈ events, P e) ∧ (∀ p ∈ told, p.2 ∈ events) ∧ Logs db events
  registered : Registered (symbolsOf db)
  named : ∀ p ∈ told, db.symbols.lookup p.1 = some p.2.symbol_id

/-- The symbols that `open` finds. -/
def symbolsIn (disk : Disk) : Symbols :=
  { table := (disk.symbol_table.map SymbolTable.load).getD {}, file := disk.symbol_table }

/-- The same of a directory that nobody has open. -/
structure RetainedIn (P : Event → Prop) (told : List (Bytes × Event)) (disk : Disk) : Prop where
  files : FilesWith P disk.ssts
  log : ∃ events, (∀ e ∈ events, P e) ∧ (∀ p ∈ told, p.2 ∈ events) ∧ LogLeft disk events
  registered : Registered (symbolsIn disk)
  named : ∀ p ∈ told, (symbolsIn disk).table.lookup p.1 = some p.2.symbol_id

theorem Retains.imp {Q : Event → Prop} (himp : ∀ e, P e → Q e) {db : DB} (h : Retains P told db) :
    Retains Q told db := by
  obtain ⟨events, hall, htold, hlogs⟩ := h.log
  exact ⟨h.holding.imp himp, ⟨events, fun e he => himp e (hall e he), htold, hlogs⟩,
    h.registered, h.named⟩

/-- The symbol file that `close` writes. -/
theorem Registered.flushed {s : Symbols} (h : Registered s) :
    Registered { s with file := some s.table.flush } := by
  have hshort : ∀ p ∈ s.table.name_to_id.entries, p.1.length ≤ 65535 := fun p hp =>
    entriesIn_short _ _ ((h.known p.1 p.2).mp (mem_entries.mp hp))
  obtain ⟨hentries, hclean⟩ := entriesIn_walk hshort symbolFormat_nil
  rw [List.append_nil] at hentries hclean
  have hfile : entriesIn s.table.flush = walkEntries s.table.name_to_id.entries := hentries
  refine ⟨hclean, fun name id => ?_, ?_⟩
  · rw [Option.getD_some, hfile, walkEntries, List.mem_map]
    constructor
    · intro hlook
      exact ⟨⟨name, id⟩, mem_entries.mpr hlook, rfl⟩
    · rintro ⟨p, hp, heq⟩
      cases heq
      exact mem_entries.mp hp
  · rw [Option.getD_some, hfile, walkEntries, List.map_map]
    exact s.table.name_to_id.keys_nodup

/-- A table loaded from the file is the one that was left. -/
theorem Registered.loaded {db : DB} (h : Registered (symbolsOf db)) {disk : Disk}
    (hfile : disk.symbol_table = db.disk.symbol_table) :
    Registered (symbolsIn disk) ∧
      ∀ name, (symbolsIn disk).table.lookup name = db.symbols.lookup name := by
  have htable : (symbolsIn disk).table = SymbolTable.load (disk.symbol_table.getD []) :=
    reload_table { file := disk.symbol_table }
  have hnames : ((entriesIn (disk.symbol_table.getD [])).map Prod.snd).Nodup := hfile ▸ h.names
  have hknown : ∀ name id, (symbolsIn disk).table.lookup name = some id ↔
      (id, name) ∈ entriesIn (disk.symbol_table.getD []) := fun name id => by
    rw [htable, SymbolTable.load_eq]
    exact SymbolTable.lookup_iff hnames
  refine ⟨⟨?_, hknown, hnames⟩, fun name => Option.ext fun id => ?_⟩
  · show Symbols.Whole (disk.symbol_table.getD [])
    rw [hfile]
    exact h.whole
  · rw [hknown, hfile]
    exact (h.known name id).symm

theorem acknowledged_written {db : DB} {s : Step} {p : Bytes × Event}
    (h : acknowledged db s = some p) : written db s = some p := by
  cases s with
  | append symbol args height io =>
      rw [acknowledged] at h
      split at h
      · exact h
      · cases h
  | _ => cases h

theorem written_named {db : DB} {s : Step} {p : Bytes × Event} (h : written db s = some p) :
    p.2.symbol_id = (db.intern p.1).1 := by
  unfold written at h
  split at h
  · cases h
  · split at h <;> cases h <;> rfl

section
variable {db : DB} (h : Retains P told db) {s : Step} (hs : Unhindered s)

include h hs in
theorem Retains.lookups {name : Bytes} {id : UInt32} (hlook : db.symbols.lookup name = some id) :
    (step db s).symbols.lookup name = some id := by
  obtain ⟨events, -, -, hlogs⟩ := h.log
  cases hw : written db s with
  | some p =>
      obtain ⟨-, db', height, hstep, -, -, hsymbols, -⟩ := hlogs.write hs hw
      rw [hstep, (mem_insert_aside p.2 height db').symbols, hsymbols]
      exact intern_keeps _ _ _ _ hlook
  | none =>
      by_cases hc : Closes s
      · cases s with
        | stop => exact hlook
        | save_symbols => exact hlook
        | _ => exact hc.elim
      · rw [(unwritten_aside hc hw).symbols]
        exact hlook

include h hs in
/-- Every step keeps what was told, and a write that returns is told as well. -/
theorem Retains.step (hshort : ShortSymbol s) (hP : ∀ p, written db s = some p → P p.2) :
    Retains P (told ++ (acknowledged db s).toList) (step db s) := by
  obtain ⟨events, hall, htold, hlogs⟩ := h.log
  have hnew : ∀ p, p ∈ (acknowledged db s).toList → written db s = some p := fun p hp =>
    acknowledged_written (Option.mem_toList.mp hp)
  refine ⟨h.holding.step hP, ?_, ?_, fun p hp => ?_⟩
  · cases hw : written db s with
    | none =>
        obtain ⟨hwal, hlog⟩ := unwritten_log hw
        refine ⟨events, hall, fun p hp => ?_, hlogs.congr hwal hlog⟩
        rcases List.mem_append.mp hp with hp | hp
        · exact htold p hp
        · rw [hnew p hp] at hw
          cases hw
    | some q =>
        refine ⟨events ++ [q.2], fun e he => ?_, fun p hp => ?_, (hlogs.write hs hw).1⟩
        · rcases List.mem_append.mp he with he | he
          · exact hall e he
          · rw [List.mem_singleton.mp he]
            exact hP q hw
        · rcases List.mem_append.mp hp with hp | hp
          · exact List.mem_append_left _ (htold p hp)
          · rw [hnew p hp] at hw
            rw [Option.some.inj hw]
            exact List.mem_append_right _ (List.mem_singleton.mpr rfl)
  · by_cases hc : Closes s
    · cases s with
      | stop => exact h.registered
      | save_symbols => exact h.registered.flushed
      | _ => exact hc.elim
    · exact h.registered.step hlogs hs hc hshort
  · rcases List.mem_append.mp hp with hp | hp
    · exact h.lookups hs (h.named p hp)
    · obtain ⟨-, db', height, hstep, -, -, hsymbols, -⟩ := hlogs.write hs (hnew p hp)
      rw [hstep, (mem_insert_aside p.2 height db').symbols, hsymbols,
        written_named (hnew p hp)]
      exact intern_known db p.1

end

theorem Retains.run {db : DB} (h : Retains P told db) {steps : List Step}
    (hs : ∀ s ∈ steps, Unhindered s ∧ ShortSymbol s) (hP : ∀ e ∈ writesAlong db steps, P e) :
    Retains P (told ++ acknowledgedAlong db steps) (steps.foldl Spec.step db) := by
  induction steps generalizing db told with
  | nil =>
      rw [acknowledgedAlong, List.append_nil]
      exact h
  | cons s steps ih =>
      obtain ⟨hio, hshort⟩ := hs s List.mem_cons_self
      have hstep := h.step hio hshort fun p hw => by
        refine hP _ (List.mem_append_left _ ?_)
        rw [hw]
        exact List.mem_cons_self
      rw [acknowledgedAlong, ← List.append_assoc]
      exact ih hstep (fun s' hs' => hs s' (List.mem_cons_of_mem _ hs'))
        fun e he => hP e (List.mem_append_right _ he)

/-! ## Between sessions -/

theorem Retains.crash {db : DB} (h : Retains P told db) {s : Step} (hs : Unhindered s)
    (hshort : ShortSymbol s) (hP : ∀ p, written db s = some p → P p.2) {disk : Disk}
    (hcrash : CrashLeaves db s disk) (hshut : Shut disk.ssts)
    (hsymbols : disk.symbol_table = db.disk.symbol_table ∨
      disk.symbol_table = (Spec.step db s).disk.symbol_table) : RetainedIn P told disk := by
  obtain ⟨events, hall, htold, hlogs⟩ := h.log
  have hfiles := (crash_finished h.holding hP hcrash).shut hshut
  have hlog : ∃ events', (∀ e ∈ events', P e) ∧ (∀ p ∈ told, p.2 ∈ events') ∧
      LogLeft disk events' := by
    obtain ⟨events', hleft, hevents⟩ := crash_log hlogs hs hcrash
    refine ⟨events', fun e he => ?_, fun p hp => ?_, hleft⟩ <;>
      rcases hevents with rfl | ⟨q, hw, rfl⟩
    · exact hall e he
    · rcases List.mem_append.mp he with he | he
      · exact hall e he
      · rw [List.mem_singleton.mp he]
        exact hP q hw
    · exact htold p hp
    · exact List.mem_append_left _ (htold p hp)
  rcases hsymbols with hsymbols | hsymbols
  · obtain ⟨hregistered, hlook⟩ := h.registered.loaded hsymbols
    exact ⟨hfiles, hlog, hregistered, fun p hp => (hlook p.1).trans (h.named p hp)⟩
  · obtain ⟨hregistered, hlook⟩ := (h.step hs hshort hP).registered.loaded hsymbols
    exact ⟨hfiles, hlog, hregistered, fun p hp => (hlook p.1).trans (h.lookups hs (h.named p hp))⟩

/-- A crash while the log is opened takes at most a torn tail. -/
theorem LogLeft.opening {disk disk' : Disk} {events : List Event} (h : LogLeft disk events)
    {cfg : DBConfig} (hcrash : OpenLeaves cfg disk disk') : LogLeft disk' events := by
  obtain ⟨log, hsurvives, rfl⟩ : ∃ log, Survives ⟨disk.wal.getD ∅, log⟩ ∧
      log.map LogEntry.event = events := by
    rcases h with ⟨hnone, rfl⟩ | ⟨dir, log, hdir, hsurvives, rfl⟩
    · rw [hnone]
      exact ⟨[], .inl ⟨rfl, rfl⟩, rfl⟩
    · rw [hdir]
      exact ⟨log, hsurvives, rfl⟩
  cases hcrash with
  | directory => exact .inr ⟨_, log, rfl, hsurvives, rfl⟩
  | @segment s hs =>
      refine .inr ⟨_, log, rfl, ?_, rfl⟩
      rcases hsurvives with ⟨hdir, hlog⟩ | ⟨init, last, tail, hdir, htail, hlog⟩ <;>
        simp only at hdir hlog
      · obtain ⟨s', hs', init, last, hrun, hnil⟩ := create_empty cfg.wal_segment_bytes
        rw [hdir, hs'] at hs
        cases hs
        exact .inr ⟨init, last, [], hrun.holds, walFormat_parse_nil, hlog.trans hnil⟩
      · obtain ⟨s', hs', hholds, -⟩ := create_holds hdir cfg.wal_segment_bytes
        rw [hs'] at hs
        cases hs
        exact .inr ⟨init, last, tail, hholds, htail, hlog⟩
  | @truncated s hs htorn =>
      refine .inr ⟨_, log, rfl, ?_, rfl⟩
      rcases hsurvives with ⟨hdir, hlog⟩ | ⟨init, last, tail, hdir, htail, hlog⟩ <;>
        simp only at hdir hlog
      · rw [hdir, read_all_empty] at htorn
        cases htorn
      · obtain ⟨s', hs', hholds, hfd, -⟩ := create_holds hdir cfg.wal_segment_bytes
        rw [hs'] at hs
        cases hs
        rw [hdir.read_all_clean_end htail]
        exact .inr ⟨init, last, [], (truncate_holds hholds hfd).1, walFormat_parse_nil, hlog⟩

theorem RetainedIn.opening {disk disk' : Disk} (h : RetainedIn P told disk) {cfg : DBConfig}
    (hcrash : OpenLeaves cfg disk disk') : RetainedIn P told disk' := by
  obtain ⟨events, hall, htold, hleft⟩ := h.log
  have hlog := hleft.opening hcrash
  cases hcrash <;> exact ⟨h.files, ⟨events, hall, htold, hlog⟩, h.registered, h.named⟩

theorem RetainedIn.imp {Q : Event → Prop} (himp : ∀ e, P e → Q e) {disk : Disk}
    (h : RetainedIn P told disk) : RetainedIn Q told disk := by
  obtain ⟨events, hall, htold, hleft⟩ := h.log
  exact ⟨h.files.imp himp, ⟨events, fun e he => himp e (hall e he), htold, hleft⟩, h.registered,
    h.named⟩

/-- Whatever session comes next, its active memtable holds all of the log. -/
theorem RetainedIn.opened {disk : Disk} (h : RetainedIn P told disk) {cfg : DBConfig}
    (hwal : cfg.wal_enabled = true) (listing : List SSTablePath)
    (heights : Nat → Fin kMaxHeight) :
    Retains P told (opened cfg disk listing heights) ∧
      ∀ p ∈ told, (∀ e, P e → e.key = p.2.key → e = p.2) →
        p.2 ∈ (opened cfg disk listing heights).active_mem.nodes := by
  obtain ⟨events, hall, htold, hleft⟩ := h.log
  obtain ⟨hlogs, -, hnodes, hsymbols, htable⟩ := opened_left hwal hleft listing heights
  have hsound := SoundDisk.opened ⟨h.files, events, hall, hleft⟩ cfg listing heights
  have hin : symbolsOf (Spec.opened cfg disk listing heights) = symbolsIn disk := by
    rw [symbolsOf, hsymbols, htable]
    rfl
  refine ⟨⟨hsound.holding, ⟨events, hall, htold, hlogs⟩, hin ▸ h.registered, fun p hp => ?_⟩,
    fun p hp honly => ?_⟩
  · rw [hsymbols]
    exact h.named p hp
  · rw [hnodes]
    exact mem_replayed (htold p hp) fun e he => honly e (hall e he)

end Kronos
