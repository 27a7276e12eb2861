import Kronos.Lib.Slots
import Kronos.Proofs.Writers
import Kronos.Spec.CloseRace

/-!
# Calls and `close`

Three things are kept on their own. The pointer: while it is null no call is
about to go through it. The log: what calls in `mem_mu_` have written to it
stays in it, whatever `close` does. And without a log: what the memtables were
given is in one of them, with `close`, or in a table, and when `close` is done
it is in a table.
-/

namespace Kronos.Spec.CloseRace

open Kronos

abbrev writers (s : CloseRace) : Writers := s.shutdown.writers

abbrev db (s : CloseRace) : DB := s.shutdown.writers.db

variable {s : CloseRace}

/-! ## The steps -/

theorem act_next_none {i : Nat} (hi : s.writers.calls[i]? = none) (height : Fin kMaxHeight) :
    s.act (.write (.next i height)) = s := by
  have hstay : s.shutdown.act (.write (.next i height)) = s.shutdown := by
    simp only [Shutdown.act, Writers.act, Writers.next_none hi]
  rw [act, note_next, hi, hstay]
  split <;> simp_all

/-- What a call's step leaves of the rest. -/
theorem act_next {i : Nat} {c : WriteCall} (hi : s.writers.calls[i]? = some c)
    (height : Fin kMaxHeight) :
    (s.act (.write (.next i height))).writers =
        { s.writers with
          db := (s.writers.advance height c).2
          calls := s.writers.calls.set i { c with at_ := (s.writers.advance height c).1 } } ∧
      (s.act (.write (.next i height))).shutdown.closing = s.shutdown.closing ∧
      (s.act (.write (.next i height))).tables = s.tables := by
  have hshut : s.shutdown.act (.write (.next i height)) = { s.shutdown with
      writers := { s.writers with
        db := (s.writers.advance height c).2
        calls := s.writers.calls.set i { c with at_ := (s.writers.advance height c).1 } } } := by
    simp only [Shutdown.act, Writers.act, Writers.next_eq hi]
  rw [act, note_next, hshut]
  split <;> exact ⟨rfl, rfl, rfl⟩

/-- What a call's step notes: an insert, or at most an answer. -/
theorem act_next_notes {i : Nat} {c : WriteCall} (hi : s.writers.calls[i]? = some c)
    (height : Fin kMaxHeight) :
    (∃ e off, c.at_ = .logged e off ∧ s.writers.active_null = false ∧
        (s.act (.write (.next i height))).inserted = s.inserted ++ [e] ∧
          (s.act (.write (.next i height))).acked = s.acked) ∨
      (s.writers.active_null = false → ∀ e off, c.at_ ≠ .logged e off) ∧
        (s.act (.write (.next i height))).inserted = s.inserted ∧
          ∀ e ∈ (s.act (.write (.next i height))).acked,
            e ∈ s.acked ∨ ∃ off, c.at_ = .inserted e off := by
  rw [act, note_next]
  split
  · next hnull hcall =>
      cases hi.symm.trans hcall
      exact .inl ⟨_, _, rfl, hnull, rfl, rfl⟩
  · next hnull hcall =>
      cases hi.symm.trans hcall
      refine .inr ⟨fun _ => nofun, rfl, fun e he => ?_⟩
      rcases List.mem_append.mp he with he | he
      · exact .inl he
      · rw [List.mem_singleton.mp he]
        exact .inr ⟨_, rfl⟩
  · next hlogged _ =>
      refine .inr ⟨fun hnull e off hat => ?_, rfl, fun e he => .inl he⟩
      obtain ⟨args, at_⟩ := c
      cases hat
      exact hlogged args e off hnull hi

/-- `close` leaves the calls alone and notes nothing but its tables. -/
theorem act_close (s : CloseRace) : (s.act .close).writers.calls = s.writers.calls ∧
    (s.act .close).inserted = s.inserted ∧ (s.act .close).acked = s.acked ∧
      (s.act .close).shutdown = s.shutdown.act .close := by
  have hcalls : (s.shutdown.act .close).writers.calls = s.writers.calls := by
    simp only [Shutdown.act, Closing.next]
    split
    · split <;> rfl
    · split <;> rfl
    · split <;> rfl
    all_goals rfl
  rw [act, note_close]
  split
  · split <;> exact ⟨hcalls, rfl, rfl, rfl⟩
  · exact ⟨hcalls, rfl, rfl, rfl⟩

/-! ## The pointer -/

structure Guarded (s : CloseRace) : Prop where
  null : s.writers.active_null = true → ∀ c ∈ s.writers.calls, ¬ Entering c.at_
  no_fault : ∀ c ∈ s.writers.calls, c.at_ ≠ .faulted

/-- A call enters `mem_mu_` only through the log. -/
theorem advance_entering {w : Writers} {c : WriteCall} {height : Fin kMaxHeight}
    (hc : ¬ Entering c.at_) (hlog : ∀ e, c.at_ = .drawn e → Closed w.db) :
    ¬ Entering (w.advance height c).1 := by
  obtain ⟨args, at_⟩ := c
  cases at_ with
  | drawn e =>
      obtain ⟨db', happ, -⟩ := (hlog e rfl).append e {}
      rw [Writers.advance]
      simp only [happ]
      exact id
  | logged e off => exact absurd trivial hc
  | inserted e off => exact absurd trivial hc
  | _ => exact id

theorem advance_no_fault {w : Writers} {c : WriteCall} {height : Fin kMaxHeight}
    (hc : c.at_ ≠ .faulted) (hnull : w.active_null = true → ¬ Entering c.at_) :
    (w.advance height c).1 ≠ .faulted := by
  obtain ⟨args, at_⟩ := c
  cases at_ with
  | drawn e =>
      rw [Writers.advance]
      simp only []
      split <;> simp
  | logged e off =>
      have hno : w.active_null = false := Bool.eq_false_iff.mpr fun h => hnull h trivial
      rw [Writers.advance]
      simp only [hno]
      cases args <;> simp
  | inserted e off =>
      have hno : w.active_null = false := Bool.eq_false_iff.mpr fun h => hnull h trivial
      rw [Writers.advance]
      simp only [hno]
      simp
  | faulted => exact absurd rfl hc
  | interned sym_id => cases args <;> simp [Writers.advance]
  | _ => simp [Writers.advance]

theorem guarded_call (h : Guarded s) (args : WriteArgs) :
    Guarded (s.act (.write (.call args))) := by
  have hnew : ∀ c ∈ (s.act (.write (.call args))).writers.calls,
      c ∈ s.writers.calls ∨ ¬ Entering c.at_ ∧ c.at_ ≠ .faulted := fun c hc => by
    rcases List.mem_append.mp hc with hc | hc
    · exact .inl hc
    · right
      rw [List.mem_singleton.mp hc]
      split <;> exact ⟨id, nofun⟩
  refine ⟨fun hnull c hc => ?_, fun c hc => ?_⟩
  · exact (hnew c hc).elim (h.null hnull c) And.left
  · exact (hnew c hc).elim (h.no_fault c) And.right

theorem guarded_next (h : Guarded s) {i : Nat} {height : Fin kMaxHeight}
    (hclear : Clear s (.write (.next i height))) : Guarded (s.act (.write (.next i height))) := by
  cases hi : s.writers.calls[i]? with
  | none => rwa [act_next_none hi]
  | some c =>
      obtain ⟨hw, -, -⟩ := act_next hi height
      have hc := List.mem_of_getElem? hi
      constructor
      · rw [hw]
        intro hnull c' hc'
        rcases List.mem_or_eq_of_mem_set hc' with hc' | rfl
        · exact h.null hnull c' hc'
        · refine advance_entering (h.null hnull c hc) fun e he => ?_
          obtain ⟨args, at_⟩ := c
          cases he
          exact hclear.1 args e hi hnull
      · rw [hw]
        intro c' hc'
        rcases List.mem_or_eq_of_mem_set hc' with hc' | rfl
        · exact h.no_fault c' hc'
        · exact advance_no_fault (h.no_fault c hc) fun hnull => h.null hnull c hc

theorem guarded_close (h : Guarded s) (hclear : Clear s .close) : Guarded (s.act .close) := by
  obtain ⟨hcalls, -, -, hshut⟩ := act_close s
  refine ⟨?_, by rw [hcalls]; exact h.no_fault⟩
  rw [hcalls]
  have hnull : (s.act .close).writers.active_null = true → s.writers.active_null = true ∨
      s.shutdown.closing = .flagged ∧ s.writers.active_null = false ∧
        s.db.active_mem.empty = false := by
    rw [writers, hshut, Shutdown.act]
    simp only [Closing.next]
    split
    · split <;> exact .inl
    · next hflagged =>
        split
        · exact .inl
        · next htake =>
            intro _
            rw [not_or] at htake
            exact .inr ⟨hflagged, Bool.eq_false_iff.mpr htake.1, Bool.eq_false_iff.mpr htake.2⟩
    · split <;> exact .inl
    all_goals exact .inl
  intro hafter
  rcases hnull hafter with hnull | ⟨hflagged, hfalse, hfull⟩
  · exact h.null hnull
  · exact hclear.1 hflagged hfalse hfull

/-! ## The log -/

/-- The log reads back as `events`, open or closed, and has what the calls
behind it have written. -/
structure LogStored (s : CloseRace) (events : List Event) : Prop where
  log : Logs s.db events ∨ Closed s.db ∧ recoverable s.db.disk = events
  entering : ∀ c ∈ s.writers.calls, ∀ e off, c.at_ = .logged e off ∨ c.at_ = .inserted e off →
    e ∈ events
  acked : ∀ e ∈ s.acked, e ∈ events

theorem LogStored.recoverable {events : List Event} (h : LogStored s events) :
    recoverable s.db.disk = events :=
  h.log.elim Logs.recoverable And.right

theorem logStored_call {events : List Event} (h : LogStored s events) (args : WriteArgs) :
    LogStored (s.act (.write (.call args))) events := by
  refine ⟨h.log, fun c hc e off hat => ?_, h.acked⟩
  rcases List.mem_append.mp hc with hc | hc
  · exact h.entering c hc e off hat
  · rw [List.mem_singleton.mp hc] at hat
    dsimp only at hat
    split at hat <;> rcases hat with hat | hat <;> cases hat

/-- A call's step writes its record or leaves the log alone. -/
theorem advance_stored {w : Writers} {c : WriteCall} (height : Fin kMaxHeight)
    {events : List Event} (hlog : Logs w.db events ∨ Closed w.db ∧ recoverable w.db.disk = events)
    (hc : ∀ e off, c.at_ = .logged e off ∨ c.at_ = .inserted e off → e ∈ events) :
    ∃ new, (Logs (w.advance height c).2 (events ++ new) ∨ Closed (w.advance height c).2 ∧
        recoverable (w.advance height c).2.disk = events ++ new) ∧
      ∀ e off, (w.advance height c).1 = .logged e off ∨ (w.advance height c).1 = .inserted e off →
        e ∈ events ++ new := by
  obtain ⟨args, at_⟩ := c
  by_cases hdrawn : ∃ e, at_ = .drawn e
  · obtain ⟨e, rfl⟩ := hdrawn
    rcases hlog with hlog | ⟨hclosed, hrec⟩
    · obtain ⟨off, hat, hlogs⟩ :=
        Writers.advance_drawn (w := w) (c := ⟨args, .drawn e⟩) rfl hlog height
      refine ⟨[e], .inl hlogs, fun f off' hf => ?_⟩
      rw [hat] at hf
      rcases hf with hf | hf <;> cases hf
      exact List.mem_append_right _ (List.mem_singleton.mpr rfl)
    · obtain ⟨db', happ, hclosed', hrec'⟩ := hclosed.append e {}
      refine ⟨[], ?_, fun f off' hf => ?_⟩
      · rw [List.append_nil, Writers.advance]
        simp only [happ]
        exact .inr ⟨hclosed', hrec'.trans hrec⟩
      · rw [Writers.advance] at hf
        simp only [happ] at hf
        rcases hf with hf | hf <;> cases hf
  · obtain ⟨hwal, hdisk⟩ := w.advance_log height (c := ⟨args, at_⟩) fun e he => hdrawn ⟨e, he⟩
    refine ⟨[], ?_, fun e off hat => ?_⟩
    · rw [List.append_nil]
      refine hlog.imp (fun h => h.congr hwal hdisk) fun h => ?_
      obtain ⟨⟨writer, hw, hfd⟩, hrec⟩ := h
      refine ⟨⟨writer, hwal.trans hw, hfd⟩, ?_⟩
      rw [← hrec, recoverable, recoverable, hdisk]
    · rw [List.append_nil]
      cases at_ with
      | drawn f => exact absurd ⟨f, rfl⟩ hdrawn
      | logged f off' =>
          rw [Writers.advance] at hat
          dsimp only at hat
          split at hat
          · rcases hat with hat | hat <;> cases hat
          · split at hat <;> rcases hat with hat | hat <;> cases hat
            exact hc _ _ (.inl rfl)
      | inserted f off' =>
          rw [Writers.advance] at hat
          dsimp only at hat
          split at hat <;> rcases hat with hat | hat <;> cases hat
      | _ => rcases hat with hat | hat <;> cases hat

theorem logStored_next {events : List Event} (h : LogStored s events) (i : Nat)
    (height : Fin kMaxHeight) :
    ∃ events', LogStored (s.act (.write (.next i height))) events' := by
  cases hi : s.writers.calls[i]? with
  | none => exact ⟨events, by rwa [act_next_none hi]⟩
  | some c =>
      obtain ⟨hw, -, -⟩ := act_next hi height
      have hc := List.mem_of_getElem? hi
      obtain ⟨new, hlog, hentering⟩ := advance_stored height h.log (h.entering c hc)
      refine ⟨events ++ new, ?_, fun c' hc' e off hat => ?_, fun e he => ?_⟩
      · rw [show (s.act (.write (.next i height))).db = _ from congrArg Writers.db hw]
        exact hlog
      · rw [hw] at hc'
        rcases List.mem_or_eq_of_mem_set hc' with hc' | rfl
        · exact List.mem_append_left _ (h.entering c' hc' e off hat)
        · exact hentering e off hat
      · refine List.mem_append_left _ ?_
        rcases act_next_notes hi height with ⟨-, -, -, -, -, hacked⟩ | ⟨-, -, hacked⟩
        · exact h.acked e (hacked ▸ he)
        · rcases hacked e he with he | ⟨off, hat⟩
          · exact h.acked e he
          · exact h.entering c hc e off (.inr hat)

theorem logStored_close {events : List Event} (h : LogStored s events) :
    LogStored (s.act .close) events := by
  obtain ⟨hcalls, -, hacked, hshut⟩ := act_close s
  refine ⟨?_, by rw [hcalls]; exact h.entering, by rw [hacked]; exact h.acked⟩
  have hsame : ∀ db' : DB, db'.wal = s.db.wal → db'.disk.wal = s.db.disk.wal →
      Logs db' events ∨ Closed db' ∧ recoverable db'.disk = events := fun db' hwal hdisk => by
    refine h.log.imp (fun h => h.congr hwal hdisk) fun ⟨⟨writer, hw, hfd⟩, hrec⟩ => ?_
    refine ⟨⟨writer, hwal.trans hw, hfd⟩, ?_⟩
    rw [← hrec, recoverable, recoverable, hdisk]
  rw [db, hshut, Shutdown.act]
  simp only [Closing.next]
  split
  · split <;> exact hsame _ rfl rfl
  · split <;> exact hsame _ rfl rfl
  · split <;> exact hsame _ rfl rfl
  · next mem _ =>
      rw [DB.do_flush]
      split <;> exact hsame _ rfl rfl
  · -- the log is closed as it is
    right
    rcases h.log with hlog | ⟨⟨writer, hw, hfd⟩, hrec⟩
    · obtain ⟨writer, -, -, hw, -⟩ := id hlog
      exact ⟨⟨_, by rw [hw]; rfl, rfl⟩, hlog.recoverable⟩
    · exact ⟨⟨_, by rw [hw]; rfl, rfl⟩, hrec⟩
  · exact hsame _ rfl rfl
  · exact hsame _ rfl rfl

/-! ## The memtables -/

/-- An event is in a memtable, or in the one that `close` has popped. -/
def Held (s : CloseRace) (f : Event) : Prop :=
  (s.writers.active_null = false ∧ f ∈ s.db.active_mem.nodes) ∨
    (∃ m ∈ s.db.imm_mems, f ∈ m.nodes) ∨ ∃ m, s.shutdown.closing = .popped m ∧ f ∈ m.nodes

theorem InTable.frame {f : Event} (h : s.InTable f) {s' : CloseRace}
    (htables : s'.tables = s.tables) (hssts : s'.db.disk.ssts = s.db.disk.ssts) : s'.InTable f := by
  obtain ⟨p, hp, hlook, hf⟩ := h
  exact ⟨p, htables ▸ hp, (congrArg (AList.lookup p.1) hssts).trans hlook, hf⟩

/-- Without a log, what was inserted is held or in a table, itself or what came
over it, and `close` is not through before it is in a table. -/
structure MemStored (s : CloseRace) : Prop where
  wal : s.db.wal = none
  closed : s.shutdown.closing = .idle → s.db.closed = false
  inserted : ∀ c ∈ s.writers.calls, ∀ e off, c.at_ = .inserted e off → e ∈ s.inserted
  acked : ∀ e ∈ s.acked, e ∈ s.inserted
  tables : ∀ p ∈ s.tables, s.db.disk.ssts.lookup p.1 = some (.finished p.2) ∧
    ∃ seq < s.db.sst_seq, p.1 = DB.flush_path seq
  kept : ∀ e ∈ s.inserted, ∃ f, s.Replaces f e ∧ (s.InTable f ∨ s.Held f)
  drained : Drained s.shutdown.closing → ∀ f, ¬ s.Held f

/-- Steps that insert nothing keep it, if they lose nothing. -/
theorem MemStored.frame (h : MemStored s) {s' : CloseRace} (hwal : s'.db.wal = none)
    (hclosed : s'.shutdown.closing = .idle → s'.db.closed = false)
    (hinserted : ∀ c ∈ s'.writers.calls, ∀ e off, c.at_ = .inserted e off → e ∈ s'.inserted)
    (hsame : s'.inserted = s.inserted) (hacked : ∀ e ∈ s'.acked, e ∈ s.inserted)
    (htables : ∀ p ∈ s'.tables, s'.db.disk.ssts.lookup p.1 = some (.finished p.2) ∧
      ∃ seq < s'.db.sst_seq, p.1 = DB.flush_path seq)
    (hkept : ∀ f, s.InTable f ∨ s.Held f → s'.InTable f ∨ s'.Held f)
    (hdrained : Drained s'.shutdown.closing → ∀ f, ¬ s'.Held f) : MemStored s' where
  wal := hwal
  closed := hclosed
  inserted := hinserted
  acked e he := hsame ▸ hacked e he
  tables := htables
  kept e he := by
    obtain ⟨f, ⟨hkey, before, behind, hsplit, hin⟩, hf⟩ := h.kept e (hsame ▸ he)
    exact ⟨f, ⟨hkey, before, behind, hsame.trans hsplit, hin⟩, hkept f hf⟩
  drained := hdrained

theorem memStored_call (h : MemStored s) (args : WriteArgs) :
    MemStored (s.act (.write (.call args))) := by
  refine h.frame h.wal h.closed (fun c hc e off hat => ?_) rfl h.acked h.tables (fun f hf => hf)
    h.drained
  rcases List.mem_append.mp hc with hc | hc
  · exact h.inserted c hc e off hat
  · rw [List.mem_singleton.mp hc] at hat
    dsimp only at hat
    split at hat <;> cases hat

/-- A step of a call that inserts nothing leaves the memtables and the tables
alone. -/
theorem advance_mems {w : Writers} {c : WriteCall} (height : Fin kMaxHeight)
    (hwal : w.db.wal = none) (hc : w.active_null = false → ∀ e off, c.at_ ≠ .logged e off) :
    let db := (w.advance height c).2
    db.wal = none ∧ db.closed = w.db.closed ∧ db.active_mem = w.db.active_mem ∧
      db.imm_mems = w.db.imm_mems ∧
      db.disk.ssts = w.db.disk.ssts ∧ db.sst_seq = w.db.sst_seq ∧
      ∀ e off, (w.advance height c).1 ≠ .inserted e off := by
  obtain ⟨args, at_⟩ := c
  cases at_ with
  | interned sym_id =>
      cases args <;> exact ⟨hwal, rfl, rfl, rfl, rfl, rfl, by simp [Writers.advance]⟩
  | drawn e =>
      have happ : w.db.wal_append e {} = .ok 0 w.db := by rw [DB.wal_append, hwal]
      have hstep : w.advance height ⟨args, .drawn e⟩ = (.logged e 0, w.db) := by
        simp only [Writers.advance, happ]
      rw [hstep]
      exact ⟨hwal, rfl, rfl, rfl, rfl, rfl, by simp⟩
  | logged e off =>
      have hnull : w.active_null = true := by
        cases hnull : w.active_null with
        | true => rfl
        | false => exact absurd rfl (hc hnull e off)
      have hstep : w.advance height ⟨args, .logged e off⟩ = (.faulted, w.db) := by
        simp only [Writers.advance, hnull, if_true]
      rw [hstep]
      exact ⟨hwal, rfl, rfl, rfl, rfl, rfl, by simp⟩
  | inserted e off =>
      rw [Writers.advance]
      dsimp only
      split <;> exact ⟨hwal, rfl, rfl, rfl, rfl, rfl, by simp⟩
  | _ => exact ⟨hwal, rfl, rfl, rfl, rfl, rfl, by simp [Writers.advance]⟩

/-- Over an insert the versions that stand for others are the same or the new
event. -/
theorem replaces_insert {e f x : Event} (h : s.Replaces f e) {s' : CloseRace}
    (hinserted : s'.inserted = s.inserted ++ [x]) :
    s'.Replaces f e ∧ (f.key = x.key → s'.Replaces x e) := by
  obtain ⟨hkey, before, behind, hsplit, hin⟩ := h
  have hsplit' : s'.inserted = before ++ e :: (behind ++ [x]) := by
    rw [hinserted, hsplit, List.append_assoc, List.cons_append]
  refine ⟨⟨hkey, before, _, hsplit', ?_⟩, fun hx => ⟨hx.symm.trans hkey, before, _, hsplit', ?_⟩⟩
  · rcases List.mem_cons.mp hin with rfl | hin
    · exact List.mem_cons_self
    · exact List.mem_cons_of_mem _ (List.mem_append_left _ hin)
  · exact List.mem_cons_of_mem _ (List.mem_append_right _ (List.mem_singleton.mpr rfl))

/-- The critical section of a write: what was held is held or came under the
new event, which is held. -/
theorem mem_insert_held {db : DB} {x : Event} {height : Fin kMaxHeight} {f : Event}
    (h : f ∈ db.active_mem.nodes ∨ ∃ m ∈ db.imm_mems, f ∈ m.nodes) (hne : f.key ≠ x.key ∨ f = x) :
    f ∈ (db.mem_insert x height).active_mem.nodes ∨
      ∃ m ∈ (db.mem_insert x height).imm_mems, f ∈ m.nodes := by
  have hactive : f ∈ db.active_mem.nodes → f ∈ (db.active_mem.insert x height).nodes := fun hf => by
    rcases hne with hne | rfl
    · exact Keyed.mem_upsert_of_ne hf hne
    · exact Keyed.mem_upsert_self _ _
  rw [DB.mem_insert]
  split
  · right
    rcases h with h | ⟨m, hm, hf⟩
    · exact ⟨_, List.mem_append_right _ (List.mem_singleton.mpr rfl), hactive h⟩
    · exact ⟨m, List.mem_append_left _ hm, hf⟩
  · exact h.imp_left hactive

theorem mem_insert_new (db : DB) (x : Event) (height : Fin kMaxHeight) :
    x ∈ (db.mem_insert x height).active_mem.nodes ∨
      ∃ m ∈ (db.mem_insert x height).imm_mems, x ∈ m.nodes := by
  rw [DB.mem_insert]
  split
  · exact .inr ⟨_, List.mem_append_right _ (List.mem_singleton.mpr rfl),
      Keyed.mem_upsert_self _ _⟩
  · exact .inl (Keyed.mem_upsert_self _ _)

theorem memStored_insert (h : MemStored s) {i : Nat} {args : WriteArgs} {x : Event} {off : Nat}
    (hi : s.writers.calls[i]? = some ⟨args, .logged x off⟩) (hnull : s.writers.active_null = false)
    (height : Fin kMaxHeight) (hclear : ¬ Drained s.shutdown.closing)
    (hinserted : (s.act (.write (.next i height))).inserted = s.inserted ++ [x])
    (hacked : (s.act (.write (.next i height))).acked = s.acked) :
    MemStored (s.act (.write (.next i height))) := by
  obtain ⟨hw, hclosing, htables⟩ := act_next hi height
  have hadv : (s.writers.advance height ⟨args, .logged x off⟩).2 = s.db.mem_insert x height ∧
      ∀ e off', (s.writers.advance height ⟨args, .logged x off⟩).1 = .inserted e off' → e = x := by
    simp only [Writers.advance, hnull]
    cases args with
    | append _ _ => exact ⟨rfl, fun e off' hat => by cases hat; rfl⟩
    | remove _ _ _ => exact ⟨rfl, by simp⟩
  have hdb : (s.act (.write (.next i height))).db = s.db.mem_insert x height :=
    (congrArg Writers.db hw).trans hadv.1
  have hkeep : (s.db.mem_insert x height).wal = s.db.wal ∧
      (s.db.mem_insert x height).closed = s.db.closed ∧
        (s.db.mem_insert x height).disk = s.db.disk ∧
          (s.db.mem_insert x height).sst_seq = s.db.sst_seq := by
    rw [DB.mem_insert]
    split <;> exact ⟨rfl, rfl, rfl, rfl⟩
  obtain ⟨hwal, hclosed, hdisk, hseq⟩ := hkeep
  have hssts : (s.act (.write (.next i height))).db.disk.ssts = s.db.disk.ssts := by
    rw [hdb, hdisk]
  have hnull' : (s.act (.write (.next i height))).writers.active_null = false := by
    rw [hw]
    exact hnull
  have hheld : ∀ f, (f ∈ (s.db.mem_insert x height).active_mem.nodes ∨
      ∃ m ∈ (s.db.mem_insert x height).imm_mems, f ∈ m.nodes) →
        (s.act (.write (.next i height))).Held f := by
    rintro f (hf | hf)
    · exact .inl ⟨hnull', by rw [hdb]; exact hf⟩
    · exact .inr (.inl (by rw [hdb]; exact hf))
  refine ⟨by rw [hdb, hwal]; exact h.wal,
    fun hidle => by rw [hdb, hclosed]; exact h.closed (hclosing ▸ hidle),
    fun c hc e off' hat => ?_, fun e he => ?_, ?_, fun e he => ?_, fun hd => absurd (hclosing ▸ hd) hclear⟩
  · rw [hinserted]
    rw [hw] at hc
    rcases List.mem_or_eq_of_mem_set hc with hc | rfl
    · exact List.mem_append_left _ (h.inserted c hc e off' hat)
    · exact List.mem_append_right _ (List.mem_singleton.mpr (hadv.2 e off' hat))
  · rw [hinserted]
    exact List.mem_append_left _ (h.acked e (hacked ▸ he))
  · rw [htables, hdb, hdisk, hseq]
    exact h.tables
  · rw [hinserted] at he
    rcases List.mem_append.mp he with he | he
    · obtain ⟨f, hf, hwhere⟩ := h.kept e he
      obtain ⟨hsame, hover⟩ := replaces_insert hf hinserted
      by_cases hkey : f.key = x.key
      · exact ⟨x, hover hkey, .inr (hheld x (mem_insert_new s.db x height))⟩
      · refine ⟨f, hsame, ?_⟩
        rcases hwhere with hin | ⟨-, hin⟩ | hin | ⟨m, hm, hin⟩
        · exact .inl (hin.frame htables hssts)
        · exact .inr (hheld f (mem_insert_held (.inl hin) (.inl hkey)))
        · exact .inr (hheld f (mem_insert_held (.inr hin) (.inl hkey)))
        · exact .inr (.inr (.inr ⟨m, hclosing.trans hm, hin⟩))
    · rw [List.mem_singleton.mp he]
      exact ⟨x, ⟨rfl, s.inserted, [], hinserted, List.mem_cons_self⟩,
        .inr (hheld x (mem_insert_new s.db x height))⟩

theorem memStored_next (h : MemStored s) {i : Nat} {height : Fin kMaxHeight}
    (hclear : Clear s (.write (.next i height))) :
    MemStored (s.act (.write (.next i height))) := by
  cases hi : s.writers.calls[i]? with
  | none => rwa [act_next_none hi]
  | some c =>
      have hc := List.mem_of_getElem? hi
      rcases act_next_notes hi height with
        ⟨x, off, hat, hnull, hinserted, hacked⟩ | ⟨hquiet, hinserted, hacked⟩
      · obtain ⟨args, at_⟩ := c
        cases hat
        exact memStored_insert h hi hnull height (hclear.2 args x off hi h.wal) hinserted hacked
      · obtain ⟨hw, hclosing, htables⟩ := act_next hi height
        obtain ⟨hwal, hclosed, hactive, himm, hssts, hseq, hphase⟩ :=
          advance_mems height h.wal hquiet
        have hdb : (s.act (.write (.next i height))).db = (s.writers.advance height c).2 :=
          congrArg Writers.db hw
        have hheld : ∀ f, (s.act (.write (.next i height))).Held f ↔ s.Held f := fun f => by
          rw [Held, Held, hdb, hclosing, hw, hactive, himm]
        refine h.frame (hdb ▸ hwal)
          (fun hidle => by rw [hdb, hclosed]; exact h.closed (hclosing ▸ hidle))
          (fun c' hc' e off hat => ?_) hinserted (fun e he => ?_) ?_
          (fun f hf => hf.imp (·.frame htables (hdb ▸ hssts)) (hheld f).mpr)
          fun hd f hf => h.drained (hclosing ▸ hd) f ((hheld f).mp hf)
        · rw [hinserted]
          rw [hw] at hc'
          rcases List.mem_or_eq_of_mem_set hc' with hc' | rfl
          · exact h.inserted c' hc' e off hat
          · exact absurd hat (hphase e off)
        · rcases hacked e he with he | ⟨off, hat⟩
          · exact h.acked e he
          · exact h.inserted c hc e off hat
        · rw [htables, hdb, hssts, hseq]
          exact h.tables

theorem Held.at_rest {f : Event} (h : s.Held f) (hc : ∀ m, s.shutdown.closing ≠ .popped m) :
    (s.writers.active_null = false ∧ f ∈ s.db.active_mem.nodes) ∨
      ∃ m ∈ s.db.imm_mems, f ∈ m.nodes :=
  h.imp_right fun h => h.resolve_right fun ⟨m, hm, _⟩ => hc m hm

theorem not_mem_of_empty {m : MemTable} (h : m.empty = true) (f : Event) : f ∉ m.nodes := by
  rw [List.isEmpty_iff.mp h]
  exact List.not_mem_nil

/-- `close` writes the table of a memtable. -/
theorem memStored_flush (h : MemStored s) {mem : MemTable}
    (hclosing : s.shutdown.closing = .popped mem) (hempty : ¬ mem.empty = true) :
    MemStored (s.act .close) := by
  let seq := s.db.sst_seq
  let t := SSTable.write 0 seq mem.to_sorted_events
  let w : Writers := { s.writers with
    db := DB.do_flush mem seq { s.db with sst_seq := seq + 1 } }
  have hact : s.act .close =
      { s with
        shutdown := ⟨w, .draining⟩
        tables := s.tables ++ [(DB.flush_path seq, t)] } := by
    simp only [act, note_close, hclosing, Shutdown.act, Closing.next, if_neg hempty]
    rfl
  have hflush : w.db.wal = s.db.wal ∧ w.db.active_mem = s.db.active_mem ∧
      w.db.imm_mems = s.db.imm_mems ∧ w.db.sst_seq = seq + 1 ∧
        w.db.disk.ssts = s.db.disk.ssts.insert (DB.flush_path seq) (.finished t) := by
    simp only [w, DB.do_flush, if_neg hempty]
    exact ⟨rfl, rfl, rfl, rfl, rfl⟩
  obtain ⟨hwal, hactive, himm, hseq, hssts⟩ := hflush
  have hold : ∀ p ∈ s.tables, w.db.disk.ssts.lookup p.1 = some (.finished p.2) := fun p hp => by
    obtain ⟨hlook, n, hlt, hpath⟩ := h.tables p hp
    have hne : p.1 ≠ DB.flush_path seq := fun heq => by
      rw [hpath, DB.flush_path, DB.flush_path] at heq
      cases heq
      exact absurd hlt (Nat.lt_irrefl _)
    rw [hssts, AList.lookup_insert_ne hne]
    exact hlook
  have hnew : w.db.disk.ssts.lookup (DB.flush_path seq) = some (.finished t) := by
    rw [hssts, AList.lookup_insert]
  rw [hact]
  refine h.frame (hwal.trans h.wal) nofun h.inserted rfl h.acked (fun p hp => ?_) ?_
    (by rintro (hd | hd | hd) <;> cases hd)
  · change w.db.disk.ssts.lookup p.1 = _ ∧ ∃ n < w.db.sst_seq, _
    rw [hseq]
    rcases List.mem_append.mp hp with hp | hp
    · obtain ⟨-, n, hlt, hpath⟩ := h.tables p hp
      exact ⟨hold p hp, n, Nat.lt_succ_of_lt hlt, hpath⟩
    · rw [List.mem_singleton.mp hp]
      exact ⟨hnew, seq, Nat.lt_succ_self _, rfl⟩
  · rintro f (⟨p, hp, -, hf⟩ | ⟨hnull, hf⟩ | ⟨m, hm, hf⟩ | ⟨m, hm, hf⟩)
    · exact .inl ⟨p, List.mem_append_left _ hp, hold p hp, hf⟩
    · exact .inr (.inl ⟨hnull, hactive.symm ▸ hf⟩)
    · exact .inr (.inr (.inl ⟨m, himm.symm ▸ hm, hf⟩))
    · cases hclosing.symm.trans hm
      exact .inl ⟨_, List.mem_append_right _ (List.mem_singleton.mpr rfl), hnew, hf⟩

theorem memStored_close (h : MemStored s) (hclear : Clear s .close) : MemStored (s.act .close) := by
  -- a step that only moves memtables about
  have hmove : ∀ (w : Writers) (closing : Closing), closing ≠ .idle →
      s.act .close = { s with shutdown := ⟨w, closing⟩ } → w.calls = s.writers.calls →
      w.db.wal = none → w.db.disk.ssts = s.db.disk.ssts → s.db.sst_seq ≤ w.db.sst_seq →
      (∀ f, s.Held f → Held { s with shutdown := ⟨w, closing⟩ } f) →
      (Drained closing → ∀ f, ¬ Held { s with shutdown := ⟨w, closing⟩ } f) →
      MemStored (s.act .close) := by
    intro w closing hidle hact hcalls hwal hssts hseq hheld hdrained
    rw [hact]
    refine h.frame hwal (fun hi => absurd hi hidle) ?_ rfl h.acked ?_
      (fun f hf => hf.imp (·.frame rfl hssts) (hheld f)) hdrained
    · exact fun c hc => h.inserted c (hcalls ▸ hc)
    · intro p hp
      obtain ⟨hlook, seq, hlt, hpath⟩ := h.tables p hp
      exact ⟨(congrArg (AList.lookup p.1) hssts).trans hlook, seq, Nat.lt_of_lt_of_le hlt hseq,
        hpath⟩
  cases hclosing : s.shutdown.closing with
  | idle =>
      refine hmove { s.writers with db := { s.db with closed := true } } .flagged nofun ?_ rfl h.wal
        rfl (Nat.le_refl _) (fun f hf => ?_) (by rintro (hd | hd | hd) <;> cases hd)
      · simp only [act, note_close, hclosing, Shutdown.act, Closing.next, h.closed hclosing]
        rfl
      · exact (hf.at_rest (by rw [hclosing]; exact nofun)).imp_right .inl
  | flagged =>
      by_cases htake : s.writers.active_null = true ∨ s.db.active_mem.empty = true
      · refine hmove s.writers .draining nofun ?_ rfl h.wal rfl (Nat.le_refl _) (fun f hf => ?_)
          (by rintro (hd | hd | hd) <;> cases hd)
        · simp only [act, note_close, hclosing, Shutdown.act, Closing.next, if_pos htake]
        · exact (hf.at_rest (by rw [hclosing]; exact nofun)).imp_right .inl
      · refine hmove { s.writers with
            db := { s.db with
              imm_mems := s.db.imm_mems ++ [s.db.active_mem]
              active_mem := MemTable.new s.db.cfg.memtable_flush_bytes }
            active_null := true } .draining nofun ?_ rfl h.wal rfl (Nat.le_refl _)
          (fun f hf => .inr (.inl ?_)) (by rintro (hd | hd | hd) <;> cases hd)
        · simp only [act, note_close, hclosing, Shutdown.act, Closing.next, if_neg htake]
        · rcases hf.at_rest (by rw [hclosing]; exact nofun) with ⟨-, hf⟩ | ⟨m, hm, hf⟩
          · exact ⟨_, List.mem_append_right _ (List.mem_singleton.mpr rfl), hf⟩
          · exact ⟨m, List.mem_append_left _ hm, hf⟩
  | draining =>
      have hrest := fun f (hf : s.Held f) => hf.at_rest (by rw [hclosing]; exact nofun)
      cases himm : s.db.imm_mems with
      | nil =>
          refine hmove s.writers .drained nofun ?_ rfl h.wal rfl (Nat.le_refl _)
            (fun f hf => (hrest f hf).imp_right .inl) fun _ f hf => ?_
          · simp only [act, note_close, hclosing, Shutdown.act, Closing.next, himm]
          · rcases hf with ⟨hnull, hf⟩ | ⟨m, hm, -⟩ | ⟨m, hm, -⟩
            · exact not_mem_of_empty (hclear.2 hclosing himm h.wal hnull) f hf
            · rw [show s.db.imm_mems = _ from himm] at hm
              cases hm
            · cases hm
      | cons mem rest =>
          refine hmove { s.writers with db := { s.db with imm_mems := rest } } (.popped mem) nofun
            ?_ rfl h.wal rfl (Nat.le_refl _) (fun f hf => ?_) (by rintro (hd | hd | hd) <;> cases hd)
          · simp only [act, note_close, hclosing, Shutdown.act, Closing.next, himm]
          · rcases hrest f hf with hf | ⟨m, hm, hf⟩
            · exact .inl hf
            · rw [himm] at hm
              rcases List.mem_cons.mp hm with rfl | hm
              · exact .inr (.inr ⟨_, rfl, hf⟩)
              · exact .inr (.inl ⟨m, hm, hf⟩)
  | popped mem =>
      by_cases hempty : mem.empty = true
      · refine hmove { s.writers with db := { s.db with sst_seq := s.db.sst_seq + 1 } } .draining
          nofun ?_ rfl h.wal rfl (Nat.le_succ _) (fun f hf => ?_)
          (by rintro (hd | hd | hd) <;> cases hd)
        · simp only [act, note_close, hclosing, Shutdown.act, Closing.next, DB.do_flush, hempty,
            if_true]
        · rcases hf with hf | hf | ⟨m, hm, hf⟩
          · exact .inl hf
          · exact .inr (.inl hf)
          · cases hclosing.symm.trans hm
            exact absurd hf (not_mem_of_empty hempty f)
      · exact memStored_flush h hclosing hempty
  | drained =>
      have hnone := h.drained (.inl hclosing)
      refine hmove { s.writers with db := { s.db with wal := none } } .wal_closed nofun ?_ rfl rfl
        rfl (Nat.le_refl _) (fun f hf => absurd hf (hnone f)) fun _ f hf => hnone f ?_
      · have hwal : s.shutdown.writers.db.wal = none := h.wal
        simp only [act, note_close, hclosing, Shutdown.act, Closing.next, hwal]
        rfl
      · exact (hf.at_rest nofun).imp_right .inl
  | wal_closed =>
      have hnone := h.drained (.inr (.inl hclosing))
      refine hmove { s.writers with
          db := { s.db with disk := { s.db.disk with symbol_table := some s.db.symbols.flush } } }
        .done nofun ?_ rfl h.wal rfl (Nat.le_refl _) (fun f hf => absurd hf (hnone f))
        fun _ f hf => hnone f ?_
      · simp only [act, note_close, hclosing, Shutdown.act, Closing.next]
      · exact (hf.at_rest nofun).imp_right .inl
  | done =>
      have hstay : s.act .close = s := by
        simp only [act, note_close, hclosing, Shutdown.act, Closing.next]
        rw [← hclosing]
      rwa [hstay]

/-! ## All steps -/

/-- What every clear step keeps. -/
def Kept (s : CloseRace) : Prop := Guarded s ∧ ((∃ events, LogStored s events) ∨ MemStored s)

theorem Kept.safe (h : Kept s) : Safe s := by
  obtain ⟨hguarded, hstored⟩ := h
  refine ⟨hguarded.no_fault, fun hdone e he => ?_⟩
  rcases hstored with ⟨events, hlog⟩ | hmem
  · have hread : (read_all (s.shutdown.writers.db.disk.wal.getD ∅)).records.map WALRecord.event =
        events := hlog.recoverable
    exact .inl (hread ▸ hlog.acked e he)
  · obtain ⟨f, hf, hin | hheld⟩ := hmem.kept e (hmem.acked e he)
    · exact .inr ⟨f, hf, hin⟩
    · exact absurd hheld (hmem.drained (.inr (.inr hdone)) f)

theorem kept_act (h : Kept s) {a : ShutdownAct} (hclear : Clear s a) : Kept (s.act a) := by
  obtain ⟨hguarded, hstored⟩ := h
  match a with
  | .write (.call args) =>
      exact ⟨guarded_call hguarded args, hstored.imp
        (fun ⟨events, hlog⟩ => ⟨events, logStored_call hlog args⟩) (memStored_call · args)⟩
  | .write (.next i height) =>
      exact ⟨guarded_next hguarded hclear, hstored.imp
        (fun ⟨_, hlog⟩ => logStored_next hlog i height) (memStored_next · hclear)⟩
  | .close =>
      exact ⟨guarded_close hguarded hclear, hstored.imp
        (fun ⟨events, hlog⟩ => ⟨events, logStored_close hlog⟩) (memStored_close · hclear)⟩

theorem kept_start (cfg : DBConfig) (max_segment_bytes : Nat)
    (history : List (List Event × Nat)) (disk : Disk) (listing : List SSTablePath)
    (heights : Nat → Fin kMaxHeight) :
    Kept (startCloseRace cfg (withLog max_segment_bytes history disk) listing heights) := by
  refine ⟨⟨fun hnull => (by cases hnull), fun _ hc => (by cases hc)⟩, ?_⟩
  cases hwal : cfg.wal_enabled with
  | true =>
      have hlogs := opened_withLog hwal max_segment_bytes history disk listing heights
      exact .inl ⟨_, .inl hlogs, fun _ hc => (by cases hc), fun _ hc => (by cases hc)⟩
  | false =>
      have hopen : opened cfg (withLog max_segment_bytes history disk) listing heights =
          DB.load cfg (withLog max_segment_bytes history disk) listing := by
        simp only [opened, DB.open_, hwal, Bool.false_eq_true, if_false, after]
      refine .inr ⟨?_, fun _ => ?_, fun _ hc => (by cases hc), fun _ hc => (by cases hc),
        fun _ hc => (by cases hc), fun _ hc => (by cases hc), ?_⟩
      · rw [db, startCloseRace, hopen]
        rfl
      · rw [db, startCloseRace, hopen]
        rfl
      · rintro (hd | hd | hd) <;> cases hd

/-- After `open`, over any calls and one `close`: as long as `close` takes the
memtable while no call is about to use it, no call uses the log between that
and its end, and without a log no write misses `close`'s last look, no call
goes through the null pointer and every answered append is in the log or in a
table when `close` is done. -/
theorem close_safe (cfg : DBConfig) (max_segment_bytes : Nat) (history : List (List Event × Nat))
    (disk : Disk) (listing : List SSTablePath) (heights : Nat → Fin kMaxHeight)
    (acts : List ShutdownAct)
    (hclear : Run.Along act Clear
      (startCloseRace cfg (withLog max_segment_bytes history disk) listing heights) acts) :
    Run.Along act (fun s a => Safe (s.act a))
      (startCloseRace cfg (withLog max_segment_bytes history disk) listing heights) acts := by
  have hrun : ∀ (acts : List ShutdownAct) (s : CloseRace), Kept s → Run.Along act Clear s acts →
      Run.Along act (fun s a => Safe (s.act a)) s acts := by
    intro acts
    induction acts with
    | nil => exact fun _ _ _ => trivial
    | cons a acts ih =>
        intro s hs ha
        have hnext := kept_act hs ha.1
        exact ⟨hnext.safe, ih _ hnext ha.2⟩
  exact hrun acts _ (kept_start cfg max_segment_bytes history disk listing heights) hclear

/-- Before `close` begins every step of a call is clear. -/
theorem clear_next_idle (hidle : s.shutdown.closing = .idle)
    (hnull : s.writers.active_null = false) (i : Nat) (height : Fin kMaxHeight) :
    Clear s (.write (.next i height)) := by
  refine ⟨fun args e _ h => ?_, fun args e off _ _ => ?_⟩
  · cases hnull.symm.trans h
  · rw [hidle]
    rintro (hd | hd | hd) <;> cases hd

/-- An append up to its insert. -/
def appended (i : Nat) : List ShutdownAct :=
  [.write (.call (.append [65] {})), .write (.next i 0), .write (.next i 0), .write (.next i 0),
    .write (.next i 0)]

/-- A second append is under way when `close` takes the memtable, and comes to the log
when that is closed. -/
def overtaken : List ShutdownAct :=
  appended 0 ++ [.write (.next 0 0), .write (.call (.append [65] {})), .write (.next 1 0), .close,
    .close, .close, .close, .close, .write (.next 1 0), .close, .write (.next 1 0), .close]

theorem close_safe_overtaken : Run.Along act (fun s a => Safe (s.act a))
    (startCloseRace {} (withLog 0 [] {}) [] fun _ => 0) overtaken := by
  refine close_safe {} 0 [] {} [] (fun _ => 0) _ ⟨trivial, clear_next_idle rfl rfl 0 0,
    clear_next_idle rfl rfl 0 0, clear_next_idle rfl rfl 0 0, clear_next_idle rfl rfl 0 0,
    clear_next_idle rfl rfl 0 0, trivial, clear_next_idle rfl rfl 1 0, ⟨nofun, nofun⟩, ⟨?_, nofun⟩,
    ⟨nofun, ?_⟩, ⟨nofun, nofun⟩, ⟨nofun, ?_⟩, ⟨?_, ?_⟩, ⟨nofun, nofun⟩, ⟨?_, ?_⟩, ⟨nofun, nofun⟩,
    trivial⟩
  · -- the second append has its symbol's id, and no record yet
    intro _ _ _ c hc
    rcases List.mem_cons.mp hc with rfl | hc
    · exact id
    · rw [List.mem_singleton.mp hc]
      exact id
  · intro _ _ hwal
    cases hwal
  · intro _ _ hwal
    cases hwal
  · intro args e hcall
    cases hcall
  · intro args e off hcall
    cases hcall
  · exact fun _ _ _ _ => ⟨_, rfl, rfl⟩
  · intro args e off hcall
    cases hcall

/-- `close` takes the memtable between the record and the insert of a second
append. -/
theorem null_dereferenced : ¬ Run.Along act (fun s a => Safe (s.act a))
    (startCloseRace {} (withLog 0 [] {}) [] fun _ => 0)
    (appended 0 ++ (appended 1).dropLast ++ [.close, .close] ++ [.write (.next 1 0)]) := by
  intro h
  have hend := h.last (List.append_ne_nil_of_right_ne_nil _ (List.cons_ne_nil _ _))
  exact hend.no_fault ⟨.append [65] {}, .faulted⟩ (by decide) rfl

end Kronos.Spec.CloseRace
