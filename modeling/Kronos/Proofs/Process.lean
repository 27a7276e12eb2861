import Kronos.Proofs.Lifetime

/-!
# What the threads of a process retain

The threads can come between each other everywhere, but each writes its record
at the end of the log, interns its symbol in one step, and hands on only what
some call has drawn. A step lemma for every kind of thread, and a process leaves
no less than a session of single steps.
-/

namespace Kronos

open Spec Compaction Spec.Symbols

variable {P : Event → Prop} {told : List (Bytes × Event)}

/-! ## The log -/

/-- The log has these events, whether it is open or `close` is through with it. -/
def LogKept (db : DB) (events : List Event) : Prop :=
  Logs db events ∨ Closed db ∧ LogLeft db.disk events

section
variable {db : DB} {events : List Event} (h : LogKept db events)

include h in
theorem LogKept.left : LogLeft db.disk events := h.elim Logs.left And.right

include h in
theorem LogKept.congr {db' : DB} (hwal : db'.wal = db.wal) (hlog : db'.disk.wal = db.disk.wal) :
    LogKept db' events := by
  refine h.imp (fun h => h.congr hwal hlog) ?_
  rintro ⟨⟨writer, hw, hfd⟩, hleft⟩
  exact ⟨⟨writer, hwal.trans hw, hfd⟩, hleft.congr hlog⟩

include h in
/-- Closing the log takes nothing from it. -/
theorem LogKept.close :
    LogKept { db with wal := db.wal.map fun writer => { writer with fd := none } } events := by
  obtain ⟨writer, hwal⟩ : ∃ writer, db.wal = some writer := by
    rcases h with ⟨writer, -, -, hwal, -⟩ | ⟨⟨writer, hwal, -⟩, -⟩ <;> exact ⟨writer, hwal⟩
  exact .inr ⟨⟨_, by rw [hwal]; rfl, rfl⟩, h.left⟩

end

/-- A closed log refuses a record. -/
theorem LogLeft.refuses {db : DB} {events : List Event} (hclosed : Closed db)
    (hleft : LogLeft db.disk events) (e : Event) (io : AppendIO) :
    ∃ db', db.wal_append e io = .error (.wal .write_failed) db' ∧ Closed db' ∧
      LogLeft db'.disk events := by
  obtain ⟨writer, hwal, hfd⟩ := hclosed
  refine ⟨{ db with wal := some writer, disk := { db.disk with wal := some (db.disk.wal.getD ∅) } },
    ?_, ⟨writer, rfl, hfd⟩, hleft.opening (@OpenLeaves.directory {} _)⟩
  rw [DB.wal_append, hwal]
  simp only [WALWriter.append, hfd]

section
variable {db : DB} {events : List Event} (h : LogKept db events)

include h in
theorem LogKept.append (e : Event) :
    (∃ off db', db.wal_append e {} = .ok off db' ∧ LogKept db' (events ++ [e])) ∨
      ∃ err db', db.wal_append e {} = .error err db' ∧ LogKept db' events := by
  rcases h with hlogs | ⟨hclosed, hleft⟩
  · obtain ⟨off, writer, dir, happ, hlogs'⟩ := hlogs.append e
    exact .inl ⟨off, _, happ, .inl hlogs'⟩
  · obtain ⟨db', happ, hclosed', hleft'⟩ := hleft.refuses hclosed e {}
    exact .inr ⟨_, db', happ, .inr ⟨hclosed', hleft'⟩⟩

include h in
theorem LogKept.interrupted (e : Event) (stored : Nat) :
    ∃ events', LogLeft (after (db.wal_append e ⟨stored, false⟩)).disk events' ∧
      (events' = events ∨ events' = events ++ [e]) := by
  rcases h with hlogs | ⟨hclosed, hleft⟩
  · exact hlogs.interrupted e stored
  · obtain ⟨db', happ, -, hleft'⟩ := hleft.refuses hclosed e ⟨stored, false⟩
    rw [happ]
    exact ⟨events, hleft', .inl rfl⟩

end

/-! ## What the threads have in hand -/

def MemWith (P : Event → Prop) (m : MemTable) : Prop :=
  Keyed.Sorted Event.key m.nodes ∧ ∀ e ∈ m.nodes, P e

def FlusherWith (P : Event → Prop) : Flusher → Prop
  | .popped mem => MemWith P mem
  | .numbered mem _ => MemWith P mem
  | .written _ => True

def CompactorWith (P : Event → Prop) : Compactor → Prop
  | .writing _ _ left => ∀ u ∈ left, TableWith P u
  | _ => True

def ClosingWith (P : Event → Prop) : Closing → Prop
  | .popped mem => MemWith P mem
  | _ => True

structure ThreadsWith (P : Event → Prop) (s : Process) : Prop where
  holding : Holding P s.writers.db
  closing : ClosingWith P s.closing
  flushers : ∀ f ∈ s.flushers, FlusherWith P f
  compactors : ∀ c ∈ s.compactors, CompactorWith P c

/-- A memtable that leaves `imm_mems_`. -/
theorem Holding.pop {db : DB} (h : Holding P db) {mem : MemTable} {rest : List MemTable}
    (himm : db.imm_mems = mem :: rest) :
    MemWith P mem ∧ Holding P { db with imm_mems := rest } := by
  have hin : ∀ m ∈ mem :: rest, m ∈ db.active_mem :: db.imm_mems := fun m hm =>
    List.mem_cons_of_mem _ (himm ▸ hm)
  have hrest : ∀ m ∈ db.active_mem :: rest, m ∈ db.active_mem :: db.imm_mems := by
    intro m hm
    rcases List.mem_cons.mp hm with rfl | hm
    · exact List.mem_cons_self
    · exact hin m (List.mem_cons_of_mem _ hm)
  exact ⟨⟨h.mems mem (hin mem List.mem_cons_self), h.nodes mem (hin mem List.mem_cons_self)⟩,
    fun m hm => h.mems m (hrest m hm), fun m hm => h.nodes m (hrest m hm), h.files⟩

theorem Holding.do_flush {db : DB} (h : Holding P db) {mem : MemTable} (hmem : MemWith P mem)
    (seq : Nat) : Holding P (DB.do_flush mem seq db) := by
  rw [DB.do_flush]
  split
  · exact h
  · exact ⟨h.mems, h.nodes, h.files.insert _ (tableWith_write 0 seq hmem.1 hmem.2)⟩

theorem Holding.closing {w : Writers} (h : Holding P w.db) {closing : Closing}
    (hclosing : ClosingWith P closing) :
    Holding P (closing.next w).1.db ∧ ClosingWith P (closing.next w).2 := by
  rw [Closing.next.eq_def]
  split
  · split
    · exact ⟨h, trivial⟩
    · exact ⟨⟨h.mems, h.nodes, h.files⟩, trivial⟩
  · split
    · exact ⟨h, trivial⟩
    · exact ⟨h.retire, trivial⟩
  · split
    · exact ⟨h, trivial⟩
    · next himm =>
        obtain ⟨hmem, hrest⟩ := h.pop himm
        exact ⟨hrest, hmem⟩
  · have hdb : Holding P { w.db with sst_seq := w.db.sst_seq + 1 } := ⟨h.mems, h.nodes, h.files⟩
    exact ⟨hdb.do_flush hclosing _, trivial⟩
  · exact ⟨⟨h.mems, h.nodes, h.files⟩, trivial⟩
  · exact ⟨⟨h.mems, h.nodes, h.files⟩, trivial⟩
  · exact ⟨h, trivial⟩

theorem Holding.compactor {db : DB} (h : Holding P db) {c : Compactor} (hc : CompactorWith P c) :
    Holding P (c.next db).1 ∧ CompactorWith P (c.next db).2 := by
  rw [Compactor.next.eq_def]
  split
  · split <;> exact ⟨h, trivial⟩
  · exact ⟨⟨h.mems, h.nodes, h.files⟩, trivial⟩
  · split
    · exact ⟨h, trivial⟩
    · next outputs stats hrun => exact ⟨h, h.files.run hrun⟩
  · exact ⟨⟨h.mems, h.nodes, h.files.insert _ (hc _ List.mem_cons_self)⟩,
      fun u hu => hc u (List.mem_cons_of_mem _ hu)⟩
  · split <;> exact ⟨h, trivial⟩
  · next f left => exact ⟨⟨h.mems, h.nodes, h.files.eraseFiles [f]⟩, trivial⟩
  · exact ⟨⟨h.mems, h.nodes, h.files⟩, trivial⟩
  · exact ⟨h, trivial⟩
  · exact ⟨h, trivial⟩

/-- Of the flushing threads `t` has only these and the database. -/
structure FlushingWith (P : Event → Prop) (t : Threads) : Prop where
  holding : Holding P t.db
  flushers : ∀ f ∈ t.flushers, FlusherWith P f

theorem FlushingWith.pop {t : Threads} (h : FlushingWith P t) : FlushingWith P t.pop := by
  rw [Threads.pop]
  split
  · exact h
  · next himm =>
      obtain ⟨hmem, hrest⟩ := h.holding.pop himm
      refine ⟨hrest, fun f hf => ?_⟩
      rcases List.mem_append.mp hf with hf | hf
      · exact h.flushers f hf
      · rw [List.mem_singleton.mp hf]
        exact hmem

theorem FlushingWith.flush {t : Threads} (h : FlushingWith P t) (i : Nat) :
    FlushingWith P (t.flush i) := by
  have hset : ∀ x, FlusherWith P x → ∀ f ∈ t.flushers.set i x, FlusherWith P f :=
    fun x hx f hf => (List.mem_or_eq_of_mem_set hf).elim (h.flushers f) (· ▸ hx)
  have herase : ∀ f ∈ t.flushers.eraseIdx i, FlusherWith P f := fun f hf =>
    h.flushers f (List.mem_of_mem_eraseIdx hf)
  rw [Threads.flush]
  split
  · exact h
  · next mem hi =>
      have hmem : MemWith P mem := h.flushers _ (List.mem_of_getElem? hi)
      exact ⟨⟨h.holding.mems, h.holding.nodes, h.holding.files⟩, hset _ hmem⟩
  · next mem seq hi =>
      have hmem : MemWith P mem := h.flushers _ (List.mem_of_getElem? hi)
      split
      · exact ⟨h.holding, herase⟩
      · exact ⟨⟨h.holding.mems, h.holding.nodes,
          h.holding.files.insert _ (tableWith_write 0 seq hmem.1 hmem.2)⟩, hset _ trivial⟩
  · exact ⟨⟨h.holding.mems, h.holding.nodes, h.holding.files⟩, herase⟩

/-! ## The calls -/

/-- The event a call carries. -/
def carried : Writing → Option Event
  | .drawn e => some e
  | .logged e _ => some e
  | .inserted e _ => some e
  | _ => none

/-- It is behind the log. -/
def Behind (at_ : Writing) (e : Event) : Prop := ∃ off, at_ = .logged e off ∨ at_ = .inserted e off

/-- A call's symbol has the id that it goes on with. -/
structure CallWith (P : Event → Prop) (db : DB) (c : WriteCall) : Prop where
  short : c.args.symbol.length ≤ 65535
  interned : ∀ id, c.at_ = .interned id → db.symbols.lookup c.args.symbol = some id
  carries : ∀ e, carried c.at_ = some e →
    db.symbols.lookup c.args.symbol = some e.symbol_id ∧ P e

/-- What the calls have, and what they have made of the log and the symbols. -/
structure CallsWith (P : Event → Prop) (told : List (Bytes × Event)) (w : Writers) : Prop where
  log : ∃ events, (∀ e ∈ events, P e) ∧ (∀ p ∈ told, p.2 ∈ events) ∧
    (∀ c ∈ w.calls, ∀ e, Behind c.at_ e → e ∈ events) ∧ LogKept w.db events
  registered : Registered (symbolsOf w.db)
  named : ∀ p ∈ told, w.db.symbols.lookup p.1 = some p.2.symbol_id
  calls : ∀ c ∈ w.calls, CallWith P w.db c

theorem CallWith.mono {db db' : DB} {c : WriteCall} (h : CallWith P db c)
    (hkeep : ∀ name id, db.symbols.lookup name = some id → db'.symbols.lookup name = some id) :
    CallWith P db' c :=
  ⟨h.short, fun id hat => hkeep _ _ (h.interned id hat), fun e he =>
    ⟨hkeep _ _ (h.carries e he).1, (h.carries e he).2⟩⟩

/-- Steps that leave the calls, the log and the symbols alone. -/
theorem CallsWith.frame {w w' : Writers} (h : CallsWith P told w) (hcalls : w'.calls = w.calls)
    (hsymbols : w'.db.symbols = w.db.symbols) (hregistered : Registered (symbolsOf w'.db))
    (hlog : ∀ events, LogKept w.db events → LogKept w'.db events) : CallsWith P told w' := by
  obtain ⟨events, hall, htold, hbehind, hkept⟩ := h.log
  refine ⟨⟨events, hall, htold, ?_, hlog events hkept⟩, hregistered, ?_, ?_⟩
  · rw [hcalls]; exact hbehind
  · rw [hsymbols]; exact h.named
  · rw [hcalls]
    exact fun c hc => (h.calls c hc).mono fun name id hlook => by rw [hsymbols]; exact hlook

theorem CallsWith.aside {w w' : Writers} (h : CallsWith P told w) (hcalls : w'.calls = w.calls)
    (ha : Aside w.db w'.db) : CallsWith P told w' := by
  refine h.frame hcalls ha.symbols ?_ fun events hkept => hkept.congr ha.wal ha.log
  rw [symbolsOf, ha.symbols, ha.symbol_table]
  exact h.registered

/-- The step of one call, from what it leaves of the database. -/
theorem CallsWith.set {w : Writers} (h : CallsWith P told w) {i : Nat} {c : WriteCall}
    (hi : w.calls[i]? = some c) {at_ : Writing} {db : DB} (new : List Event)
    (hnew : ∀ e ∈ new, P e) (hkeep : ∀ name id, w.db.symbols.lookup name = some id →
      db.symbols.lookup name = some id)
    (hlog : ∀ events, LogKept w.db events → LogKept db (events ++ new))
    (hbehind : ∀ e, Behind at_ e → e ∈ new ∨ Behind c.at_ e)
    (hregistered : Registered (symbolsOf db))
    (hcall : CallWith P w.db c → CallWith P db { c with at_ }) :
    CallsWith P told { w with db, calls := w.calls.set i { c with at_ } } := by
  obtain ⟨events, hall, htold, hevents, hkept⟩ := h.log
  have hc := List.mem_of_getElem? hi
  refine ⟨⟨events ++ new, fun e he => ?_, fun p hp => List.mem_append_left _ (htold p hp),
    fun c' hc' e he => ?_, hlog events hkept⟩, hregistered, fun p hp => hkeep _ _ (h.named p hp),
    fun c' hc' => ?_⟩
  · exact (List.mem_append.mp he).elim (hall e) (hnew e)
  · rcases List.mem_or_eq_of_mem_set hc' with hc' | rfl
    · exact List.mem_append_left _ (hevents c' hc' e he)
    · rcases hbehind e he with he | he
      · exact List.mem_append_right _ he
      · exact List.mem_append_left _ (hevents c hc e he)
  · rcases List.mem_or_eq_of_mem_set hc' with hc' | rfl
    · exact (h.calls c' hc').mono hkeep
    · exact hcall (h.calls c hc)

/-- The same of a step that does not touch the log. -/
theorem CallsWith.set_aside {w : Writers} (h : CallsWith P told w) {i : Nat} {c : WriteCall}
    (hi : w.calls[i]? = some c) {at_ : Writing} {db : DB} (ha : Aside { w.db with
      next_seq := db.next_seq } db) (hbehind : ∀ e, Behind at_ e → Behind c.at_ e)
    (hcall : CallWith P w.db c → CallWith P db { c with at_ }) :
    CallsWith P told { w with db, calls := w.calls.set i { c with at_ } } := by
  refine h.set hi [] (fun e he => absurd he List.not_mem_nil) (fun name id hlook => ?_)
    (fun events hkept => ?_) (fun e he => .inr (hbehind e he)) ?_ hcall
  · rw [ha.symbols]
    exact hlook
  · rw [List.append_nil]
    exact hkept.congr ha.wal ha.log
  · rw [symbolsOf, ha.symbols, ha.symbol_table]
    exact h.registered

/-- A call that is behind the log or through: it gets no other event, and the log and
the symbols are left alone. -/
theorem CallsWith.proceed {w : Writers} (h : CallsWith P told w) {i : Nat} {c : WriteCall}
    (hi : w.calls[i]? = some c) {at_ : Writing} {db : DB} (ha : Aside w.db db)
    (hat : at_ = c.at_ ∨ (∃ e off, c.at_ = .logged e off ∧ at_ = .inserted e off) ∨
      (∃ result, at_ = .returned result) ∨ at_ = .faulted) :
    CallsWith P told { w with db, calls := w.calls.set i { c with at_ } } := by
  refine h.set_aside hi ⟨ha.wal, ha.log, ha.symbols, ha.symbol_table, rfl, ha.closed, ha.cfg⟩
    (fun e he => ?_) fun hcall => ⟨hcall.short, fun id hid => ?_, fun e he => ?_⟩
  · rcases hat with rfl | ⟨x, off, hlogged, rfl⟩ | ⟨result, rfl⟩ | rfl
    · exact he
    · obtain ⟨off', hat | hat⟩ := he <;> cases hat
      exact ⟨off, .inl hlogged⟩
    · obtain ⟨off', hat | hat⟩ := he <;> cases hat
    · obtain ⟨off', hat | hat⟩ := he <;> cases hat
  · rw [ha.symbols]
    rcases hat with rfl | ⟨x, off, -, rfl⟩ | ⟨result, rfl⟩ | rfl
    · exact hcall.interned id hid
    all_goals cases hid
  · rw [ha.symbols]
    rcases hat with rfl | ⟨x, off, hlogged, rfl⟩ | ⟨result, rfl⟩ | rfl
    · exact hcall.carries e he
    · cases he
      exact hcall.carries e (by rw [hlogged]; rfl)
    all_goals cases he

/-- A call in its record: let through, or refused by the closed log. -/
theorem CallsWith.record {w : Writers} (h : CallsWith P told w) {i : Nat} {args : WriteArgs}
    {e : Event} (hi : w.calls[i]? = some ⟨args, .drawn e⟩) (height : Fin kMaxHeight) :
    CallsWith P told (w.next i height) := by
  obtain ⟨hid, hPe⟩ := (h.calls _ (List.mem_of_getElem? hi)).carries e rfl
  have hlogged := wal_append_logged e {} w.db
  have htable := wal_append_symbols e {} w.db
  have hregistered : ∀ db' : DB, db'.symbols = w.db.symbols →
      db'.disk.symbol_table = w.db.disk.symbol_table → Registered (symbolsOf db') := by
    intro db' hsymbols htable
    rw [symbolsOf, hsymbols, htable]
    exact h.registered
  rw [Writers.next_eq hi]
  cases happ : w.db.wal_append e {} with
  | ok off db' =>
      have hstep : w.advance height ⟨args, .drawn e⟩ = (.logged e off, db') := by
        simp only [Writers.advance, happ]
      rw [happ] at hlogged htable
      rw [hstep]
      refine h.set hi [e] (fun x hx => ?_) (fun name id hlook => ?_) (fun events hkept => ?_) ?_
        (hregistered db' hlogged.symbols htable) fun hcall => ⟨hcall.short, ?_, fun x hx => ?_⟩
      · rw [List.mem_singleton.mp hx]
        exact hPe
      · exact hlogged.symbols ▸ hlook
      · rcases hkept.append e with ⟨_, _, happ', hkept'⟩ | ⟨_, _, happ', -⟩ <;>
          rw [happ] at happ' <;> cases happ'
        exact hkept'
      · rintro x ⟨off', hat | hat⟩ <;> cases hat
        exact .inl (List.mem_singleton.mpr rfl)
      · intro id hat
        cases hat
      · cases hx
        exact ⟨hlogged.symbols ▸ hid, hPe⟩
  | error err db' =>
      have hstep : w.advance height ⟨args, .drawn e⟩ = (.threw err, db') := by
        simp only [Writers.advance, happ]
      rw [happ] at hlogged htable
      rw [hstep]
      refine h.set hi [] (fun x hx => absurd hx List.not_mem_nil) (fun name id hlook => ?_)
        (fun events hkept => ?_) ?_ (hregistered db' hlogged.symbols htable)
        fun hcall => ⟨hcall.short, ?_, fun x hx => ?_⟩
      · exact hlogged.symbols ▸ hlook
      · rcases hkept.append e with ⟨_, _, happ', -⟩ | ⟨_, _, happ', hkept'⟩ <;>
          rw [happ] at happ' <;> cases happ'
        rw [List.append_nil]
        exact hkept'
      · rintro x ⟨off', hat | hat⟩ <;> cases hat
      · intro id hat
        cases hat
      · cases hx

theorem CallsWith.next {w : Writers} (h : CallsWith P told w) {i : Nat} {c : WriteCall}
    (hi : w.calls[i]? = some c) (height : Fin kMaxHeight)
    (hP : ∀ sym_id, c.at_ = .interned sym_id → P (Writers.draw sym_id w.db c.args).1) :
    CallsWith P told (w.next i height) := by
  obtain ⟨args, at_⟩ := c
  have hkept := h.calls _ (List.mem_of_getElem? hi)
  cases at_ with
  | drawn e => exact h.record hi height
  | checked =>
      rw [Writers.next_eq hi]
      refine h.set hi [] (fun e he => absurd he List.not_mem_nil) (intern_keeps w.db args.symbol)
        (fun events hkept => ?_) ?_ ?_ fun hcall => ⟨hcall.short, ?_, ?_⟩
      · rw [List.append_nil]
        exact hkept.congr rfl rfl
      · rintro e ⟨off, hat | hat⟩ <;> cases hat
      · exact (symbolsOf_intern w.db args.symbol).mpr (h.registered.intern hkept.short)
      · intro id hat
        cases hat
        exact intern_known w.db args.symbol
      · intro e he
        cases he
  | interned sym_id =>
      have hid := hkept.interned sym_id rfl
      have hdraw := hP sym_id rfl
      rw [Writers.next_eq hi]
      cases args <;>
      · refine h.set_aside hi ⟨rfl, rfl, rfl, rfl, rfl, rfl, rfl⟩ ?_ fun hcall =>
          ⟨hcall.short, ?_, ?_⟩
        · rintro e ⟨off, hat | hat⟩ <;> cases hat
        · intro id hat
          cases hat
        · intro e he
          cases he
          exact ⟨hid, hdraw⟩
  | logged e off =>
      rw [Writers.next_eq hi]
      refine h.proceed hi ?_ ?_ <;> rw [Writers.advance] <;> dsimp only
      · split
        · exact .refl w.db
        · cases args <;> exact mem_insert_aside e height w.db
      · split
        · exact .inr (.inr (.inr rfl))
        · cases args
          · exact .inr (.inl ⟨e, off, rfl, rfl⟩)
          · exact .inr (.inr (.inl ⟨_, rfl⟩))
  | inserted e off =>
      rw [Writers.next_eq hi]
      refine h.proceed hi ?_ ?_ <;> rw [Writers.advance] <;> dsimp only
      · split <;> exact .refl w.db
      · split
        · exact .inr (.inr (.inr rfl))
        · exact .inr (.inr (.inl ⟨_, rfl⟩))
  | returned result =>
      rw [Writers.next_eq hi]
      exact h.proceed hi (.refl w.db) (.inl rfl)
  | threw err =>
      rw [Writers.next_eq hi]
      exact h.proceed hi (.refl w.db) (.inl rfl)
  | faulted =>
      rw [Writers.next_eq hi]
      exact h.proceed hi (.refl w.db) (.inl rfl)

/-- A call that returns has its record. -/
theorem CallsWith.tell {w : Writers} (h : CallsWith P told w) {symbol : Bytes} {args e : Event}
    {off : Nat} (hc : ⟨.append symbol args, .inserted e off⟩ ∈ w.calls) :
    CallsWith P (told ++ [(symbol, e)]) w := by
  obtain ⟨events, hall, htold, hbehind, hkept⟩ := h.log
  refine ⟨⟨events, hall, fun p hp => ?_, hbehind, hkept⟩, h.registered, fun p hp => ?_, h.calls⟩ <;>
    rcases List.mem_append.mp hp with hp | hp
  · exact htold p hp
  · rw [List.mem_singleton.mp hp]
    exact hbehind _ hc e ⟨off, .inr rfl⟩
  · exact h.named p hp
  · rw [List.mem_singleton.mp hp]
    exact ((h.calls _ hc).carries e rfl).1

theorem CallsWith.call {w : Writers} (h : CallsWith P told w) {args : WriteArgs}
    (hshort : args.symbol.length ≤ 65535) : CallsWith P told (w.call args) := by
  obtain ⟨events, hall, htold, hbehind, hkept⟩ := h.log
  have hnew : ∀ c ∈ (w.call args).calls, c ∈ w.calls ∨
      c.args = args ∧ (c.at_ = .checked ∨ c.at_ = .threw .closed) := fun c hc => by
    rcases List.mem_append.mp hc with hc | hc
    · exact .inl hc
    · rw [List.mem_singleton.mp hc]
      refine .inr ⟨rfl, ?_⟩
      dsimp only
      split
      · exact .inr rfl
      · exact .inl rfl
  refine ⟨⟨events, hall, htold, fun c hc e he => ?_, hkept⟩, h.registered, h.named, fun c hc => ?_⟩
  · rcases hnew c hc with hc | ⟨-, hat⟩
    · exact hbehind c hc e he
    · obtain ⟨off, he⟩ := he
      rcases hat with hat | hat <;> rw [hat] at he <;> rcases he with he | he <;> cases he
  · rcases hnew c hc with hc | ⟨rfl, hat⟩
    · exact h.calls c hc
    · refine ⟨hshort, fun id he => ?_, fun e he => ?_⟩ <;> rcases hat with hat | hat <;>
        rw [hat] at he <;> cases he

/-! ## A step of the process -/

structure Retaining (P : Event → Prop) (told : List (Bytes × Event)) (s : Process) : Prop where
  threads : ThreadsWith P s
  calls : CallsWith P told s.writers

theorem Holding.next {w : Writers} (h : Holding P w.db) (hcalls : ∀ c ∈ w.calls, CallWith P w.db c)
    (i : Nat) (height : Fin kMaxHeight) : Holding P (w.next i height).db := by
  cases hi : w.calls[i]? with
  | none => rwa [Writers.next_none hi]
  | some c =>
      rw [Writers.next_eq hi]
      have hcall := hcalls c (List.mem_of_getElem? hi)
      obtain ⟨args, at_⟩ := c
      cases at_ with
      | checked => exact h.quiet (intern_quiet args.symbol w.db)
      | interned sym_id => cases args <;> exact ⟨h.mems, h.nodes, h.files⟩
      | drawn e =>
          have hquiet := h.quiet (wal_append_quiet e {} w.db)
          show Holding P (w.advance height ⟨args, .drawn e⟩).2
          rw [Writers.advance]
          dsimp only
          split <;> next happ => rwa [happ] at hquiet
      | logged e off =>
          show Holding P (w.advance height ⟨args, .logged e off⟩).2
          rw [Writers.advance]
          dsimp only
          split
          · exact h
          · cases args <;> exact h.mem_insert (hcall.carries e rfl).2 height
      | inserted e off =>
          show Holding P (w.advance height ⟨args, .inserted e off⟩).2
          rw [Writers.advance]
          dsimp only
          split <;> exact h
      | _ => exact h

theorem CallsWith.closing {w : Writers} (h : CallsWith P told w) (closing : Closing) :
    CallsWith P told (closing.next w).1 := by
  rw [Closing.next.eq_def]
  split
  · split
    · exact h
    · exact h.frame rfl rfl h.registered fun events hkept => hkept.congr rfl rfl
  · split
    · exact h
    · exact h.aside rfl ⟨rfl, rfl, rfl, rfl, rfl, rfl, rfl⟩
  · split
    · exact h
    · exact h.aside rfl ⟨rfl, rfl, rfl, rfl, rfl, rfl, rfl⟩
  · refine h.aside rfl ?_
    rw [DB.do_flush]
    split <;> exact ⟨rfl, rfl, rfl, rfl, rfl, rfl, rfl⟩
  · exact h.frame rfl rfl h.registered fun events hkept => hkept.close
  · exact h.frame rfl rfl h.registered.flushed fun events hkept => hkept.congr rfl rfl
  · exact h

theorem pop_aside (t : Threads) : Aside t.db t.pop.db := by
  rw [Threads.pop]
  split
  · exact .refl t.db
  · exact ⟨rfl, rfl, rfl, rfl, rfl, rfl, rfl⟩

theorem flush_aside (i : Nat) (t : Threads) : Aside t.db (t.flush i).db := by
  rw [Threads.flush]
  split
  · exact .refl t.db
  · exact ⟨rfl, rfl, rfl, rfl, rfl, rfl, rfl⟩
  · split <;> exact ⟨rfl, rfl, rfl, rfl, rfl, rfl, rfl⟩
  · exact ⟨rfl, rfl, rfl, rfl, rfl, rfl, rfl⟩

theorem compactor_aside (db : DB) (c : Compactor) : Aside db (c.next db).1 := by
  rw [Compactor.next.eq_def]
  split
  · split <;> exact .refl db
  · exact ⟨rfl, rfl, rfl, rfl, rfl, rfl, rfl⟩
  · split <;> exact .refl db
  · exact ⟨rfl, rfl, rfl, rfl, rfl, rfl, rfl⟩
  · split <;> exact .refl db
  · exact ⟨rfl, rfl, rfl, rfl, rfl, rfl, rfl⟩
  · exact ⟨rfl, rfl, rfl, rfl, rfl, rfl, rfl⟩
  · exact .refl db
  · exact .refl db

/-- A step of a thread that flushes. -/
theorem Retaining.flush_step {s : Process} (h : Retaining P told s) {f : Threads → Threads}
    (haside : ∀ t, Aside t.db (f t).db) (hf : ∀ t, FlushingWith P t → FlushingWith P (f t)) :
    Retaining P told (s.flush_step f) := by
  obtain ⟨hholding, hflushers⟩ := hf { db := s.writers.db, flushers := s.flushers }
    ⟨h.threads.holding, h.threads.flushers⟩
  have ha : Aside s.writers.db (s.flush_step f).writers.db :=
    haside { db := s.writers.db, flushers := s.flushers }
  exact ⟨⟨hholding, h.threads.closing, hflushers, h.threads.compactors⟩, h.calls.aside rfl ha⟩

theorem Retaining.compact {s : Process} (h : Retaining P told s) (i : Nat) :
    Retaining P told (s.compact i) := by
  rw [Process.compact]
  split
  · exact h
  · next c hi =>
      have hc := h.threads.compactors c (List.mem_of_getElem? hi)
      obtain ⟨hholding, hnext⟩ := h.threads.holding.compactor hc
      refine ⟨⟨hholding, h.threads.closing, h.threads.flushers, fun c' hc' => ?_⟩,
        h.calls.aside rfl (compactor_aside _ c)⟩
      exact (List.mem_or_eq_of_mem_set hc').elim (h.threads.compactors c') (· ▸ hnext)

/-- The threads beside the calls. -/
theorem Retaining.act {s : Process} (h : Retaining P told s) {a : ProcessAct}
    (ha : ∀ x, a ≠ .write x) : Retaining P told (s.act a) := by
  cases a with
  | write x => exact absurd rfl (ha x)
  | close =>
      obtain ⟨hholding, hclosing⟩ := h.threads.holding.closing h.threads.closing
      exact ⟨⟨hholding, hclosing, h.threads.flushers, h.threads.compactors⟩, h.calls.closing _⟩
  | rotate =>
      rw [Process.act]
      split
      · exact h
      · exact ⟨⟨h.threads.holding.rotate, h.threads.closing, h.threads.flushers,
          h.threads.compactors⟩, h.calls.aside rfl (rotate_aside _)⟩
  | pop => exact h.flush_step pop_aside fun t ht => ht.pop
  | flush i => exact h.flush_step (flush_aside i) fun t ht => ht.flush i
  | begin_compact =>
      refine ⟨⟨h.threads.holding, h.threads.closing, h.threads.flushers, fun c hc => ?_⟩, h.calls⟩
      rcases List.mem_append.mp hc with hc | hc
      · exact h.threads.compactors c hc
      · rw [List.mem_singleton.mp hc]
        exact trivial
  | compact i => exact h.compact i

/-! ## A run of the process -/

theorem act_process (s : Watched) (a : ProcessAct) : (s.act a).process = s.process.act a := by
  rw [Watched.act.eq_def]
  split
  · rw [Watched.note_next]
    split <;> rfl
  · rfl

theorem act_drawn (s : Watched) (a : ProcessAct) : ∀ e ∈ s.drawn, e ∈ (s.act a).drawn := by
  intro e he
  rw [Watched.act.eq_def]
  split
  · rw [Watched.note_next]
    split
    · exact List.mem_append_left _ he
    · exact he
    · exact he
  · exact he

/-- What the step of a call notes. -/
theorem act_notes {s : Watched} {i : Nat} {c : WriteCall}
    (hi : s.process.writers.calls[i]? = some c) (height : Fin kMaxHeight) :
    ((s.act (.write (.next i height))).told = s.told ∨
      ∃ symbol args e off, c = ⟨.append symbol args, .inserted e off⟩ ∧
        (s.act (.write (.next i height))).told = s.told ++ [(symbol, e)]) ∧
    ∀ sym_id, c.at_ = .interned sym_id → (Writers.draw sym_id s.process.writers.db c.args).1 ∈
      (s.act (.write (.next i height))).drawn := by
  rw [Watched.act, Watched.note_next]
  split
  · next hcall =>
      cases hi.symm.trans hcall
      refine ⟨.inl rfl, fun sym_id hat => ?_⟩
      cases hat
      exact List.mem_append_right _ (List.mem_singleton.mpr rfl)
  · next hcall =>
      cases hi.symm.trans hcall
      refine ⟨.inr ⟨_, _, _, _, rfl, rfl⟩, fun sym_id hat => ?_⟩
      cases hat
  · next hno _ =>
      refine ⟨.inl rfl, fun sym_id hat => ?_⟩
      obtain ⟨args, at_⟩ := c
      cases hat
      exact absurd hi (hno args sym_id)

theorem Retaining.watched {s : Watched} (h : Retaining P (told ++ s.told) s.process) {a : ProcessAct}
    (hshort : ShortCall a) (hP : ∀ e ∈ (s.act a).drawn, P e) :
    Retaining P (told ++ (s.act a).told) (s.act a).process := by
  have hthreads := h.threads
  rw [act_process]
  cases a with
  | write x =>
      cases x with
      | call args =>
          exact ⟨⟨hthreads.holding, hthreads.closing, hthreads.flushers, hthreads.compactors⟩,
            h.calls.call hshort⟩
      | next i height =>
          have hnext := hthreads.holding.next h.calls.calls i height
          refine ⟨⟨hnext, hthreads.closing, hthreads.flushers, hthreads.compactors⟩, ?_⟩
          cases hi : s.process.writers.calls[i]? with
          | none =>
              have hstay : s.process.writers.next i height = s.process.writers :=
                Writers.next_none hi height
              show CallsWith P (told ++ (s.act (.write (.next i height))).told)
                (s.process.writers.next i height)
              rw [hstay, Watched.act, Watched.note_next, hi]
              exact h.calls
          | some c =>
              obtain ⟨htold, hdrawn⟩ := act_notes hi height
              have hdraw := fun sym_id hat => hP _ (hdrawn sym_id hat)
              rcases htold with htold | ⟨symbol, args, e, off, rfl, htold⟩ <;> rw [htold]
              · exact h.calls.next hi height hdraw
              · rw [← List.append_assoc]
                exact (h.calls.tell (List.mem_of_getElem? hi)).next hi height hdraw
  | _ => exact h.act fun x hx => by cases hx

theorem Retaining.run {s : Watched} (h : Retaining P (told ++ s.told) s.process)
    {acts : List ProcessAct} (hshort : ∀ a ∈ acts, ShortCall a)
    (hP : ∀ e ∈ (acts.foldl Watched.act s).drawn, P e) :
    Retaining P (told ++ (acts.foldl Watched.act s).told) (acts.foldl Watched.act s).process := by
  induction acts using List.reverseRecOn with
  | nil => exact h
  | append_singleton acts a ih =>
      rw [List.foldl_append] at hP ⊢
      refine Retaining.watched (ih (fun a' ha' => hshort a' (List.mem_append_left _ ha')) fun e he => ?_)
        (hshort a (List.mem_append_right _ (List.mem_singleton.mpr rfl))) hP
      exact hP e (act_drawn _ a e he)

/-- A process starts with what `open` found. -/
theorem Retains.intact {db : DB} (h : Retains P told db) :
    Retaining P told { writers := { db } } := by
  obtain ⟨events, hall, htold, hlogs⟩ := h.log
  exact ⟨⟨h.holding, trivial, fun f hf => absurd hf List.not_mem_nil,
      fun c hc => absurd hc List.not_mem_nil⟩,
    ⟨events, hall, htold, fun c hc => absurd hc List.not_mem_nil, .inl hlogs⟩, h.registered,
    h.named, fun c hc => absurd hc List.not_mem_nil⟩

/-- A crash leaves what the calls were told, whatever becomes of the tables. -/
theorem Retaining.crash {s : Process} (h : Retaining P told s) {disk : Disk}
    (hcrash : ProcessLeaves s disk) : RetainedIn P told disk := by
  obtain ⟨events, hall, htold, -, hkept⟩ := h.calls.log
  obtain ⟨hregistered, hlook⟩ := h.calls.registered.loaded hcrash.symbol_table
  refine ⟨fun path file hfile => ?_, ?_, hregistered, fun p hp =>
    (hlook p.1).trans (h.calls.named p hp)⟩
  · rcases hcrash.ssts path file hfile with hfile | ⟨t, rfl, ht⟩
    · exact h.threads.holding.files path file hfile
    · exact ht
  · obtain ⟨torn, hwal⟩ := hcrash.wal
    rw [Sessions.wal_left.eq_def] at hwal
    split at hwal
    · exact ⟨events, hall, htold, hkept.left.congr hwal⟩
    · next i stored =>
        split at hwal
        · next args e hi =>
            obtain ⟨events', hleft, hevents⟩ := hkept.interrupted e stored
            obtain ⟨-, hPe⟩ := (h.calls.calls _ (List.mem_of_getElem? hi)).carries e rfl
            refine ⟨events', fun x hx => ?_, fun p hp => ?_, hleft.congr hwal⟩ <;>
              rcases hevents with rfl | rfl
            · exact hall x hx
            · rcases List.mem_append.mp hx with hx | hx
              · exact hall x hx
              · rw [List.mem_singleton.mp hx]
                exact hPe
            · exact htold p hp
            · exact List.mem_append_left _ (htold p hp)
        · exact ⟨events, hall, htold, hkept.left.congr hwal⟩

/-! ## The lifetime of a directory -/

theorem lifetime_retained {disk : Disk} {events : List Event} (h : Lifetime disk told events) :
    RetainedIn (· ∈ events) told disk := by
  induction h with
  | new =>
      refine ⟨fun path file hlook => ?_, ⟨[], fun e he => he, fun p hp => ?_, .inl ⟨rfl, rfl⟩⟩,
        registered_new, fun p hp => ?_⟩
      · cases hlook
      · cases hp
      · cases hp
  | opening _ cfg hcrash ih => exact ih.opening hcrash
  | @session disk disk' told events _ cfg hwal listing heights steps s hio hend hshut hsymbols ih =>
      have hsplit := writesAlong_append (Spec.opened cfg disk listing heights) steps [s]
      have hopened := (ih.opened hwal listing heights).1.imp fun e he =>
        List.mem_append_left
          (writesAlong (Spec.opened cfg disk listing heights) (steps ++ [s])) he
      have hrun := hopened.run (fun s' hs' => hio s' (List.mem_append_left _ hs')) fun e he => by
        rw [hsplit]
        exact List.mem_append_right _ (List.mem_append_left _ he)
      obtain ⟨hs, hshort⟩ := hio s (List.mem_append_right _ (List.mem_singleton.mpr rfl))
      refine hrun.crash hs hshort (fun p hw => ?_) hend hshut hsymbols
      rw [hsplit, writesAlong, hw]
      exact List.mem_append_right _ (List.mem_append_right _ (List.mem_append_left _
        List.mem_cons_self))
  | @process disk disk' told events _ cfg hwal listing heights acts hshort hend ih =>
      let last := acts.foldl Watched.act (Watched.start cfg disk listing heights)
      have hopened := (ih.opened hwal listing heights).1.imp fun e he =>
        List.mem_append_left last.drawn he
      have hstart : Retaining (· ∈ events ++ last.drawn)
          (told ++ (Watched.start cfg disk listing heights).told)
          (Watched.start cfg disk listing heights).process := by
        rw [Watched.start, List.append_nil]
        exact hopened.intact
      exact (hstart.run hshort fun e he => List.mem_append_right _ he).crash hend

end Kronos
