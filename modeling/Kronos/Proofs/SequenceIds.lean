import Kronos.Lib.Slots
import Kronos.Proofs.LogOrder
import Kronos.Spec.SequenceIds

/-!
# No id twice

The ids that appends have answered or hold are different from each other and
all below the counter, as long as it has not come around. A reopen keeps that
only if the last record of the log is not below any of them.
-/

namespace Kronos.Spec.Sessions

open Kronos

/-- The ids that are given out. -/
def out (s : Sessions) : List UInt64 := s.returned ++ s.shutdown.writers.calls.filterMap drawn_id

structure Distinct (s : Sessions) : Prop where
  nodup : s.out.Nodup
  below : s.shutdown.writers.db.next_seq = 0 ∨
    ∀ id ∈ s.out, id < s.shutdown.writers.db.next_seq

variable {s : Sessions}

/-- Fewer ids, in any order. -/
theorem Distinct.subperm (h : Distinct s) {s' : Sessions} (hout : s'.out.Subperm s.out)
    (hseq : s'.shutdown.writers.db.next_seq = s.shutdown.writers.db.next_seq) : Distinct s' := by
  refine ⟨?_, ?_⟩
  · obtain ⟨l, hperm, hsub⟩ := hout
    exact hperm.nodup_iff.mp (h.nodup.sublist hsub)
  · rw [hseq]
    exact h.below.imp_right fun hb id hid => hb id (hout.subset hid)

/-! ## The counter -/

theorem advance_next_seq (height : Fin kMaxHeight) (w : Writers) {c : WriteCall}
    (hc : ∀ symbol args sym_id, c ≠ ⟨.append symbol args, .interned sym_id⟩) :
    (w.advance height c).2.next_seq = w.db.next_seq := by
  have hinsert : ∀ e, (w.db.mem_insert e height).next_seq = w.db.next_seq := fun e => by
    rw [DB.mem_insert]
    split <;> rfl
  have hwal : ∀ e, (after (w.db.wal_append e {})).next_seq = w.db.next_seq := fun e => by
    rw [DB.wal_append]
    split
    · rfl
    · split <;> rfl
  obtain ⟨args, at_⟩ := c
  cases at_ with
  | interned sym_id =>
      cases args with
      | append symbol args => exact absurd rfl (hc symbol args sym_id)
      | remove _ _ _ => rfl
  | drawn e =>
      have h := hwal e
      rw [Writers.advance]
      dsimp only
      split
      · next happ => rwa [happ] at h
      · next happ => rwa [happ] at h
  | logged e off =>
      rw [Writers.advance]
      dsimp only
      split
      · rfl
      · cases args <;> exact hinsert e
  | inserted e off =>
      rw [Writers.advance]
      dsimp only
      split <;> rfl
  | _ => rfl

theorem close_next_seq (w : Writers) (closing : Closing) :
    (closing.next w).1.db.next_seq = w.db.next_seq ∧ (closing.next w).1.calls = w.calls := by
  cases closing with
  | idle =>
      rw [Closing.next]
      split <;> exact ⟨rfl, rfl⟩
  | flagged =>
      rw [Closing.next]
      split <;> exact ⟨rfl, rfl⟩
  | draining =>
      rw [Closing.next]
      split <;> exact ⟨rfl, rfl⟩
  | popped mem =>
      rw [Closing.next, DB.do_flush]
      refine ⟨?_, rfl⟩
      dsimp only
      split <;> rfl
  | _ => exact ⟨rfl, rfl⟩

/-- The counter that `open` sets. -/
theorem opened_next_seq (cfg : DBConfig) (disk : Disk) (listing : List SSTablePath)
    (heights : Nat → Fin kMaxHeight) :
    (opened cfg disk listing heights).next_seq =
      if cfg.wal_enabled then DB.recovered_seq (read_all (disk.wal.getD ∅)).records else 1 := by
  have hread : ∀ dir : WalDir, (wal_recover dir cfg.wal_segment_bytes).1 = read_all dir := by
    intro dir
    rw [wal_recover]
    split <;> rfl
  rw [opened, DB.open_]
  cases cfg.wal_enabled with
  | false => rfl
  | true =>
      simp only [if_true]
      split
      · next dir hdir =>
          rw [hdir, Option.getD_some, ← hread dir]
          split <;> rfl
      · next hnone =>
          rw [hnone]
          split <;> rfl

/-! ## The steps of a call -/

/-- But for the `fetch_add` a call keeps the id it holds or lets it go. -/
theorem advance_drawn_id (height : Fin kMaxHeight) (w : Writers) {c : WriteCall}
    (hc : ∀ symbol args sym_id, c ≠ ⟨.append symbol args, .interned sym_id⟩) :
    drawn_id { c with at_ := (w.advance height c).1 } = drawn_id c ∨
      drawn_id { c with at_ := (w.advance height c).1 } = none := by
  obtain ⟨args, at_⟩ := c
  cases args with
  | remove _ _ _ => exact .inr (by rw [drawn_id])
  | append symbol args =>
      cases at_ with
      | interned sym_id => exact absurd rfl (hc symbol args sym_id)
      | drawn e =>
          rw [Writers.advance]
          dsimp only
          split
          · exact .inr rfl
          · exact .inl rfl
      | logged e off =>
          rw [Writers.advance]
          dsimp only
          split
          · exact .inr rfl
          · exact .inl rfl
      | inserted e off =>
          rw [Writers.advance]
          dsimp only
          split <;> exact .inr rfl
      | _ => exact .inl rfl

/-- What a call's step does to the history. -/
theorem act_next {i : Nat} {c : WriteCall} (hi : s.shutdown.writers.calls[i]? = some c)
    (height : Fin kMaxHeight) :
    (s.act (.run (.write (.next i height)))).shutdown.writers =
        { s.shutdown.writers with
          db := (s.shutdown.writers.advance height c).2
          calls := s.shutdown.writers.calls.set i
            { c with at_ := (s.shutdown.writers.advance height c).1 } } ∧
      ((∃ symbol args e off, c = ⟨.append symbol args, .inserted e off⟩ ∧
          s.shutdown.writers.active_null = false ∧
            (s.act (.run (.write (.next i height)))).returned = s.returned ++ [e.sequence_id]) ∨
        (s.act (.run (.write (.next i height)))).returned = s.returned) := by
  have hshut : s.shutdown.act (.write (.next i height)) = { s.shutdown with
      writers := { s.shutdown.writers with
        db := (s.shutdown.writers.advance height c).2
        calls := s.shutdown.writers.calls.set i
          { c with at_ := (s.shutdown.writers.advance height c).1 } } } := by
    simp only [Shutdown.act, Writers.act, Writers.next_eq hi]
  rw [act, hshut]
  dsimp only
  split
  · next symbol args e off hnull hcall =>
      cases hi.symm.trans hcall
      exact ⟨rfl, .inl ⟨symbol, args, e, off, rfl, hnull, rfl⟩⟩
  · exact ⟨rfl, .inr rfl⟩

theorem act_next_none {i : Nat} (hi : s.shutdown.writers.calls[i]? = none)
    (height : Fin kMaxHeight) : s.act (.run (.write (.next i height))) = s := by
  have hstay : s.shutdown.act (.write (.next i height)) = s.shutdown := by
    simp only [Shutdown.act, Writers.act, Writers.next_none hi]
  rw [act, hstay]
  simp only [hi]
  split <;> simp_all

/-- The `fetch_add` gives out an id above all others. -/
theorem distinct_draw (h : Distinct s) {i : Nat} {height : Fin kMaxHeight} {symbol : Bytes}
    {args : Event} {sym_id : UInt32}
    (hi : s.shutdown.writers.calls[i]? = some ⟨.append symbol args, .interned sym_id⟩)
    (hfresh : s.shutdown.writers.db.next_seq = 0 → s.out = []) :
    Distinct (s.act (.run (.write (.next i height)))) := by
  let n := s.shutdown.writers.db.next_seq
  obtain ⟨a, b, hl, hset⟩ := Slots.exists_split hi
  obtain ⟨hw, hret⟩ := act_next hi height
  have hreturned : (s.act (.run (.write (.next i height)))).returned = s.returned :=
    hret.resolve_left fun ⟨_, _, _, _, heq, _⟩ => by cases heq
  have hseq : (s.act (.run (.write (.next i height)))).shutdown.writers.db.next_seq = n + 1 := by
    rw [hw]
    rfl
  have hout : s.out = s.returned ++ (a.filterMap drawn_id ++ b.filterMap drawn_id) := by
    rw [out, hl, List.filterMap_append]
    rfl
  have hout' : (s.act (.run (.write (.next i height)))).out =
      s.returned ++ (a.filterMap drawn_id ++ n :: b.filterMap drawn_id) := by
    rw [out, hreturned, hw]
    dsimp only
    rw [hset, List.filterMap_append]
    rfl
  have hperm : (s.act (.run (.write (.next i height)))).out.Perm (n :: s.out) := by
    rw [hout, hout', ← List.append_assoc, ← List.append_assoc]
    exact List.perm_middle
  have hnew : n ∉ s.out := fun hin => by
    rcases h.below with hzero | hbelow
    · rw [hfresh hzero] at hin
      cases hin
    · exact absurd (hbelow n hin) (UInt64.lt_irrefl n)
  refine ⟨hperm.nodup_iff.mpr (List.nodup_cons.mpr ⟨hnew, h.nodup⟩), ?_⟩
  rw [hseq]
  by_cases hwrap : n + 1 = 0
  · exact .inl hwrap
  · right
    have hlt : n < n + 1 := by
      have hmax := n.toNat_lt
      have hne : n.toNat + 1 ≠ 2 ^ 64 := fun heq => hwrap (UInt64.toNat_inj.mp (by
        rw [UInt64.toNat_add, UInt64.toNat_one, heq]
        rfl))
      rw [UInt64.lt_iff_toNat_lt, UInt64.toNat_add, UInt64.toNat_one, Nat.mod_eq_of_lt (by omega)]
      exact Nat.lt_succ_self _
    intro id hid
    rcases List.mem_cons.mp (hperm.mem_iff.mp hid) with rfl | hid
    · exact hlt
    · rcases h.below with hzero | hbelow
      · rw [hfresh hzero] at hid
        cases hid
      · exact UInt64.lt_trans (hbelow id hid) hlt

theorem distinct_next (h : Distinct s) {i : Nat} {height : Fin kMaxHeight}
    (hfresh : Fresh s (.run (.write (.next i height)))) :
    Distinct (s.act (.run (.write (.next i height)))) := by
  cases hi : s.shutdown.writers.calls[i]? with
  | none => rwa [act_next_none hi]
  | some c =>
      by_cases hdraw : ∃ symbol args sym_id, c = ⟨.append symbol args, .interned sym_id⟩
      · obtain ⟨symbol, args, sym_id, rfl⟩ := hdraw
        refine distinct_draw h hi fun hzero => ?_
        obtain ⟨hreturned, hnone⟩ := hfresh symbol args sym_id hi hzero
        rw [out, hreturned, List.nil_append]
        exact List.filterMap_eq_nil_iff.mpr hnone
      · have hc : ∀ symbol args sym_id, c ≠ ⟨.append symbol args, .interned sym_id⟩ :=
          fun symbol args sym_id heq => hdraw ⟨symbol, args, sym_id, heq⟩
        obtain ⟨a, b, hl, hset⟩ := Slots.exists_split hi
        obtain ⟨hw, hret⟩ := act_next hi height
        have hseq : (s.act (.run (.write (.next i height)))).shutdown.writers.db.next_seq =
            s.shutdown.writers.db.next_seq := by
          rw [hw]
          exact advance_next_seq height _ hc
        have hcalls : (s.act (.run (.write (.next i height)))).shutdown.writers.calls =
            a ++ { c with at_ := (s.shutdown.writers.advance height c).1 } :: b := by
          rw [hw]
          exact hset _
        refine h.subperm ?_ hseq
        rw [out, out, hcalls, hl]
        rcases hret with ⟨symbol, args, e, off, rfl, hnull, hreturned⟩ | hreturned
        · -- the id goes from the call to the answers
          have hnone : drawn_id ⟨.append symbol args, (s.shutdown.writers.advance height
              ⟨.append symbol args, .inserted e off⟩).1⟩ = none := by
            rw [Writers.advance]
            dsimp only
            split <;> rfl
          have hsome : drawn_id ⟨.append symbol args, .inserted e off⟩ = some e.sequence_id := rfl
          rw [hreturned, List.filterMap_append, List.filterMap_append,
            List.filterMap_cons_none hnone, List.filterMap_cons_some hsome,
            List.append_assoc s.returned, List.singleton_append]
          exact (List.perm_middle.symm.append_left _).subperm
        · rw [hreturned]
          refine (List.Sublist.append_left ?_ _).subperm
          rw [List.filterMap_append, List.filterMap_append]
          refine List.Sublist.append_left ?_ _
          rw [List.filterMap_cons, List.filterMap_cons]
          rcases advance_drawn_id height s.shutdown.writers hc with hid | hid
          · rw [hid]
          · rw [hid]
            cases drawn_id c with
            | none => exact List.Sublist.refl _
            | some id => exact List.sublist_cons_self _ _

/-! ## Calls alone in a session -/

/-- Calls alone are the same in a session as they are beside the monitor of
the log. -/
theorem writers_eq (acts : List WriterAct) (s : Sessions) (l : LogOrder)
    (h : s.shutdown.writers = l.writers) :
    ((acts.map fun a => SessionAct.run (.write a)).foldl act s).shutdown.writers =
      (acts.foldl LogOrder.act l).writers := by
  induction acts generalizing s l with
  | nil => exact h
  | cons a acts ih =>
      refine ih _ _ ?_
      have hs : (s.act (.run (.write a))).shutdown.writers = s.shutdown.writers.act a := by
        cases a with
        | call args => rfl
        | next i height =>
            rw [act]
            split <;> rfl
      have hl : (l.act a).writers = l.writers.act a := by
        cases a with
        | call args => rfl
        | next i height =>
            rw [LogOrder.act]
            split <;> rfl
      rw [hs, hl, h]

/-- Every step is fresh as long as the counter has not come around. -/
theorem fresh_run (h : s.shutdown.writers.db.next_seq ≠ 0) (a : ShutdownAct) :
    s.Fresh (.run a) :=
  match a with
  | .write (.next _ _) => fun _ _ _ _ hzero => absurd hzero h
  | .write (.call _) => trivial
  | .close => trivial

theorem fresh_calls {acts : List WriterAct}
    (h : Run.Along act (fun s _ => s.shutdown.writers.db.next_seq ≠ 0) s
      (acts.map fun a => .run (.write a))) :
    Run.Along act Fresh s (acts.map fun a => .run (.write a)) := by
  induction acts generalizing s with
  | nil => exact trivial
  | cons a acts ih => exact ⟨fresh_run h.1 _, ih h.2⟩

theorem reopen_returned (r : Reopening) : (s.act (.reopen r)).returned = s.returned := rfl

/-- The only call of a session goes on. -/
theorem act_single {db : DB} {c : WriteCall} (hw : s.shutdown.writers = ⟨db, false, [c]⟩)
    (height : Fin kMaxHeight) :
    (s.act (.run (.write (.next 0 height)))).shutdown.writers =
        ⟨(Writers.advance height ⟨db, false, [c]⟩ c).2, false,
          [{ c with at_ := (Writers.advance height ⟨db, false, [c]⟩ c).1 }]⟩ ∧
      (s.act (.run (.write (.next 0 height)))).returned =
        match c with
        | ⟨.append _ _, .inserted e _⟩ => s.returned ++ [e.sequence_id]
        | _ => s.returned := by
  have hi : s.shutdown.writers.calls[0]? = some c := by rw [hw]; rfl
  refine ⟨?_, ?_⟩
  · rw [(act_next hi height).1, hw]
    rfl
  · rw [act]
    simp only [hw]
    obtain ⟨args, at_⟩ := c
    cases args <;> cases at_ <;> rfl

/-- And draws no id unless it is behind `intern`. -/
theorem fresh_single {db : DB} {c : WriteCall} (hw : s.shutdown.writers = ⟨db, false, [c]⟩)
    (h : ∀ sym_id, c.at_ ≠ .interned sym_id) (height : Fin kMaxHeight) :
    s.Fresh (.run (.write (.next 0 height))) := by
  intro symbol args sym_id hcall _
  rw [hw] at hcall
  cases hcall
  exact absurd rfl (h sym_id)

/-- The steps of one call, the `i`-th. -/
def callSteps (i : Nat) (args : WriteArgs) : List WriterAct :=
  .call args :: List.replicate 5 (.next i 0)

/-- An append that is alone in a session answers the counter. -/
theorem append_alone {db : DB} (hw : s.shutdown.writers = ⟨db, false, []⟩)
    (hclosed : db.closed = false) {events : List Event} (hlogs : Logs db events) (symbol : Bytes)
    (args : Event) :
    (db.next_seq ≠ 0 → Run.Along act Fresh s
      ((callSteps 0 (.append symbol args)).map fun a => .run (.write a))) ∧
    (((callSteps 0 (.append symbol args)).map fun a => SessionAct.run (.write a)).foldl act
      s).returned = s.returned ++ [db.next_seq] := by
  let w (db : DB) (at_ : Writing) : Writers := ⟨db, false, [⟨.append symbol args, at_⟩]⟩
  let e : Event :=
    { args with symbol_id := (db.intern symbol).1, sequence_id := db.next_seq }
  let drawn : DB := { (db.intern symbol).2 with next_seq := db.next_seq + 1 }
  have h0 : (s.act (.run (.write (.call (.append symbol args))))).shutdown.writers =
      w db .checked := by
    simp only [act, Shutdown.act, Writers.act, Writers.call, hw, hclosed]
    rfl
  obtain ⟨h1, r1⟩ := act_single h0 0
  obtain ⟨h2, r2⟩ := act_single h1 0
  obtain ⟨off, hat, -⟩ := Writers.advance_drawn (w := w drawn (.drawn e))
    (c := ⟨.append symbol args, .drawn e⟩) rfl (hlogs.congr rfl rfl) 0
  have h2 : _ = w drawn (.drawn e) := h2
  obtain ⟨h3, r3⟩ := act_single h2 0
  rw [hat] at h3
  obtain ⟨h4, r4⟩ := act_single h3 0
  obtain ⟨-, r5⟩ := act_single (c := ⟨.append symbol args, .inserted e off⟩) h4 0
  refine ⟨fun hseq => ?_, ?_⟩
  · -- only the second of its steps draws an id
    refine ⟨trivial, fresh_single h0 ?_ 0, fresh_run ?_ _, fresh_single h2 ?_ 0,
      fresh_single h3 ?_ 0, fresh_single h4 ?_ 0, trivial⟩
    · intro _ hat
      cases hat
    · rwa [h1]
    · intro _ hat
      cases hat
    · intro _ hat
      cases hat
    · intro _ hat
      cases hat
  · have hall := r5.trans (congrArg (· ++ [e.sequence_id]) (r4.trans (r3.trans (r2.trans r1))))
    exact hall

theorem recovered_seq_eq {records : List WALRecord} {e : Event}
    (h : (records.map WALRecord.event).getLast? = some e) :
    DB.recovered_seq records = e.sequence_id + 1 := by
  rw [List.getLast?_map] at h
  obtain ⟨record, hlast, rfl⟩ := Option.map_eq_some_iff.mp h
  rw [DB.recovered_seq, hlast]

/-- Some calls on an empty directory, each beside the others. -/
def firstCalls (acts : List WriterAct) : Sessions :=
  (acts.map fun a => SessionAct.run (.write a)).foldl act (firstSession {} fun _ => 0)

/-- What the log of the same calls holds. -/
def firstLog (acts : List WriterAct) : List Event :=
  (acts.foldl LogOrder.act (startLogOrder {} (withLog 0 [] {}) [] fun _ => 0)).recorded

/-- The directory they leave is opened behind the last record. -/
theorem next_session (acts : List WriterAct) {id : UInt64}
    (hlast : (firstLog acts).getLast?.map Event.sequence_id = some id) :
    let first := firstCalls acts
    let db := opened {} (left first.shutdown.writers {}) [] fun _ => 0
    (∃ record, (read_all ((wal_left first.shutdown.writers none).getD ∅)).records.getLast? =
        some record ∧ record.event.sequence_id = id) ∧
      db.closed = false ∧ db.next_seq = id + 1 ∧ ∃ events, Logs db events := by
  intro first db
  have hwriters := writers_eq acts (firstSession {} fun _ => 0)
    (startLogOrder {} (withLog 0 [] {}) [] fun _ => 0) rfl
  have hlogs : Logs first.shutdown.writers.db (firstLog acts) := by
    have h := LogOrder.logs_run (s := startLogOrder {} (withLog 0 [] {}) [] fun _ => 0)
      (opened_withLog rfl 0 [] {} [] fun _ => 0) acts
    rwa [← hwriters] at h
  obtain ⟨e, hlast, hid⟩ := Option.map_eq_some_iff.mp hlast
  obtain ⟨dir, log, hdir, hsurvives, -⟩ := hlogs.survives
  have hread : (read_all dir).records.map WALRecord.event = firstLog acts := by
    have hrec := hlogs.recoverable
    rwa [recoverable, hdir] at hrec
  have hwal : (left first.shutdown.writers {}).wal = some dir := hdir
  obtain ⟨hlogs', hclosed⟩ : Logs db (log.map LogEntry.event) ∧ db.closed = false :=
    opened_logs rfl hsurvives hwal [] fun _ => 0
  refine ⟨?_, hclosed, ?_, _, hlogs'⟩
  · have hrecord := hlast
    rw [← hread, List.getLast?_map] at hrecord
    obtain ⟨record, hrecord, rfl⟩ := Option.map_eq_some_iff.mp hrecord
    refine ⟨record, ?_, hid⟩
    rwa [show wal_left first.shutdown.writers none = some dir from hdir]
  · rw [opened_next_seq, if_pos rfl, hwal, Option.getD_some, recovered_seq_eq (hread ▸ hlast), hid]

/-! ## Sessions -/

/-- A reopen counts on from the last record. -/
theorem distinct_reopen (h : Distinct s) {r : Reopening} (hfresh : Fresh s (.reopen r)) :
    Distinct (s.act (.reopen r)) := by
  have hout : (s.act (.reopen r)).out = s.returned := List.append_nil _
  have hsub : s.returned.Sublist s.out := List.sublist_append_left _ _
  refine ⟨hout ▸ h.nodup.sublist hsub, ?_⟩
  rw [hout]
  rcases hfresh with hnone | ⟨hwal, record, hlast, hmax, hall⟩
  · rw [hnone]
    exact .inr nofun
  · have hseq : (s.act (.reopen r)).shutdown.writers.db.next_seq =
        record.event.sequence_id + 1 := by
      refine (opened_next_seq r.cfg _ r.listing r.heights).trans ?_
      rw [if_pos hwal, left, DB.recovered_seq, hlast]
    right
    intro id hid
    have hle := hall id hid
    have hlt := record.event.sequence_id.toNat_lt
    have hne : record.event.sequence_id.toNat ≠ 2 ^ 64 - 1 := fun heq =>
      hmax (UInt64.toNat_inj.mp heq)
    rw [UInt64.le_iff_toNat_le] at hle
    rw [hseq, UInt64.lt_iff_toNat_lt, UInt64.toNat_add, UInt64.toNat_one,
      Nat.mod_eq_of_lt (by omega)]
    exact Nat.lt_succ_of_le hle

theorem distinct_act (h : Distinct s) {a : SessionAct} (hfresh : Fresh s a) :
    Distinct (s.act a) := by
  match a with
  | .run (.write (.call args)) =>
      refine h.subperm ?_ rfl
      refine List.Perm.subperm (List.Perm.of_eq ?_)
      have hnone : drawn_id ⟨args, if s.shutdown.writers.db.closed then .threw .closed
          else .checked⟩ = none := by
        split <;> cases args <;> rfl
      change s.returned ++ (s.shutdown.writers.calls ++ [_]).filterMap drawn_id = s.out
      rw [List.filterMap_append, List.filterMap_cons_none hnone, List.filterMap_nil,
        List.append_nil, out]
  | .run (.write (.next i height)) => exact distinct_next h hfresh
  | .run .close =>
      obtain ⟨hseq, hcalls⟩ := close_next_seq s.shutdown.writers s.shutdown.closing
      refine h.subperm (List.Perm.subperm (List.Perm.of_eq ?_)) hseq
      change s.returned ++ (s.shutdown.closing.next s.shutdown.writers).1.calls.filterMap drawn_id =
        s.out
      rw [hcalls, out]
  | .reopen r => exact distinct_reopen h hfresh

/-- Two appends beside each other; the second one answers first. -/
def twoAppends : List WriterAct :=
  [.call (.append [65] {}), .call (.append [66] {}), .next 0 0, .next 1 0, .next 0 0, .next 1 0,
    .next 0 0, .next 1 0, .next 1 0, .next 1 0, .next 0 0, .next 0 0]

/-- Two appends, and the first one's event removed. -/
def removedLast : List WriterAct :=
  callSteps 0 (.append [65] {}) ++ callSteps 1 (.append [65] {}) ++ callSteps 2 (.remove [65] 0 1)

end Kronos.Spec.Sessions
