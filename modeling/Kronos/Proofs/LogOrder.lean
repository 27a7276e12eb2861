import Kronos.Lib.Slots
import Kronos.Proofs.Writers
import Kronos.Spec.LogOrder

/-!
# The log in the order of the memtables

Of each key, the records are the inserts and behind them the events of the
calls that still have to insert, as long as a call inserts before those that
wrote a record of the key later. When no call is left the two orders agree on
the key, and so do the last of its records and the last of its inserts.
-/

namespace Kronos.Spec.LogOrder

open Kronos

/-- What every guarded step keeps. -/
structure Ordered (s : LogOrder) : Prop where
  active : s.writers.active_null = false
  logs : Logs s.writers.db s.recorded
  split : ∀ key : Key, s.recorded.filter (·.key = key) =
    s.inserted.filter (·.key = key) ++ (s.waiting.map Prod.snd).filter (·.key = key)
  waiting : ∀ (i : Nat) e, (i, e) ∈ s.waiting ↔
    ∃ args off, s.writers.calls[i]? = some ⟨args, .logged e off⟩
  nodup : (s.waiting.map Prod.fst).Nodup

variable {s : LogOrder}

/-! ## Replaying -/

theorem replay_nodes (heights : Nat → Fin kMaxHeight) (records : List WALRecord) (m : MemTable) :
    (DB.replay heights records m).nodes =
      (records.map WALRecord.event).foldl (fun nodes e => Keyed.upsert Event.key e nodes)
        m.nodes := by
  have hgen : ∀ (records : List WALRecord) (k : Nat) (m : MemTable),
      ((records.zipIdx k).foldl (fun m p => m.insert p.1.event (heights p.2)) m).nodes =
        (records.map WALRecord.event).foldl (fun nodes e => Keyed.upsert Event.key e nodes)
          m.nodes := by
    intro records
    induction records with
    | nil => exact fun _ _ => rfl
    | cons r records ih => exact fun k m => ih (k + 1) (m.insert r.event (heights k))
  exact hgen records 0 m

/-- The last record of a key is its version after a recovery. -/
theorem replay_find (heights : Nat → Fin kMaxHeight) (records : List WALRecord)
    (flush_threshold : Nat) (key : Key) :
    (DB.replay heights records (MemTable.new flush_threshold)).nodes.find? (·.key = key) =
      latest key (records.map WALRecord.event) := by
  rw [replay_nodes, latest]
  exact (Keyed.find_foldl_upsert _ List.Pairwise.nil key).trans (Option.or_none ..)

theorem Ordered.agrees (h : Ordered s) : Agrees s := by
  intro hdone heights flush_threshold key
  have hnone : s.waiting = [] := by
    refine List.eq_nil_iff_forall_not_mem.mpr fun p hp => ?_
    obtain ⟨args, off, hcall⟩ := (h.waiting p.1 p.2).mp hp
    obtain ⟨r, hr⟩ := hdone _ (List.mem_of_getElem? hcall)
    cases hr
  have hsplit := h.split key
  rw [hnone, List.map_nil, List.filter_nil, List.append_nil] at hsplit
  have hread : (read_all (s.writers.db.disk.wal.getD ∅)).records.map WALRecord.event =
      s.recorded := h.logs.recoverable
  rw [replay_find, hread, latest, hsplit, latest]

/-! ## Steps -/

/-- Taking one event out of the waiting ones: where those of its key in front
of it are equal to it, it is as if the first one left. -/
theorem leave_filter {waiting : List (Nat × Event)} {i : Nat} {e : Event}
    (hnodup : (waiting.map Prod.fst).Nodup) (hmem : (i, e) ∈ waiting)
    (hfront : ∀ p ∈ waiting.takeWhile (·.1 ≠ i), p.2.key = e.key → p.2 = e) (key : Key) :
    (waiting.map Prod.snd).filter (·.key = key) =
      [e].filter (·.key = key) ++
        ((waiting.filter (·.1 ≠ i)).map Prod.snd).filter (·.key = key) := by
  induction waiting with
  | nil => cases hmem
  | cons p waiting ih =>
      obtain ⟨hp, hnodup'⟩ := List.nodup_cons.mp hnodup
      by_cases hpi : p.1 = i
      · have hpe : p = (i, e) := by
          rcases List.mem_cons.mp hmem with heq | hin
          · exact heq.symm
          · exact absurd (hpi ▸ List.mem_map_of_mem hin) hp
        have hself : waiting.filter (·.1 ≠ i) = waiting :=
          List.filter_eq_self.mpr fun q hq => decide_eq_true fun hqi =>
            hp (hpi ▸ hqi ▸ List.mem_map_of_mem hq)
        have hrest : (p :: waiting).filter (·.1 ≠ i) = waiting :=
          (List.filter_cons_of_neg (by simpa using hpi)).trans hself
        rw [hrest, List.map_cons, hpe, ← List.filter_append, List.singleton_append]
      · have hin : (i, e) ∈ waiting := by
          rcases List.mem_cons.mp hmem with heq | hin
          · exact absurd (congrArg Prod.fst heq).symm hpi
          · exact hin
        rw [List.takeWhile_cons_of_pos (by simpa using hpi)] at hfront
        have ih := ih hnodup' hin fun q hq => hfront q (List.mem_cons_of_mem p hq)
        have hrest : (p :: waiting).filter (·.1 ≠ i) = p :: waiting.filter (·.1 ≠ i) :=
          List.filter_cons_of_pos (by simpa using hpi)
        rw [hrest, List.map_cons, List.map_cons]
        by_cases hpk : p.2.key = key
        · have hpos : ∀ l : List Event,
              (p.2 :: l).filter (·.key = key) = p.2 :: l.filter (·.key = key) := fun l =>
            List.filter_cons_of_pos (by simpa using hpk)
          rw [hpos, hpos, ih]
          by_cases hek : e.key = key
          · -- `p` is of the same key, and so the same event
            have hpe : p.2 = e := hfront p List.mem_cons_self (hpk.trans hek.symm)
            have he : [e].filter (·.key = key) = [e] := List.filter_cons_of_pos (by simpa using hek)
            rw [he, hpe]
            rfl
          · have he : [e].filter (·.key = key) = [] := List.filter_cons_of_neg (by simpa using hek)
            rw [he]
            rfl
        · have hneg : ∀ l : List Event,
              (p.2 :: l).filter (·.key = key) = l.filter (·.key = key) := fun l =>
            List.filter_cons_of_neg (by simpa using hpk)
          rw [hneg, hneg, ih]

/-- Which calls wait, after a call went on. -/
theorem logged_set {l : List WriteCall} {i : Nat} {c c' : WriteCall} (hi : l[i]? = some c)
    (j : Nat) (e : Event) :
    (∃ args off, (l.set i c')[j]? = some ⟨args, .logged e off⟩) ↔
      (j = i ∧ ∃ off, c'.at_ = .logged e off) ∨
        (j ≠ i ∧ ∃ args off, l[j]? = some ⟨args, .logged e off⟩) := by
  simp only [Slots.set_iff hi]
  constructor
  · rintro ⟨args, off, ⟨hj, rfl⟩ | ⟨hj, hat⟩⟩
    · exact .inl ⟨hj, off, rfl⟩
    · exact .inr ⟨hj, args, off, hat⟩
  · rintro (⟨hj, off, hoff⟩ | ⟨hj, args, off, hat⟩)
    · exact ⟨c'.args, off, .inl ⟨hj, by rw [← hoff]⟩⟩
    · exact ⟨args, off, .inr ⟨hj, hat⟩⟩

/-- Whatever the order, the log reads back as what was recorded. -/
theorem logs_act (h : Logs s.writers.db s.recorded) (a : WriterAct) :
    Logs (s.act a).writers.db (s.act a).recorded := by
  cases a with
  | call args => exact h
  | next i height =>
      cases hi : s.writers.calls[i]? with
      | none => simpa only [act, hi, Writers.act, Writers.next_none hi] using h
      | some c =>
          obtain ⟨args, at_⟩ := c
          have hquiet : (∀ e, at_ ≠ .drawn e) →
              s.act (.next i height) = { s.act (.next i height) with
                writers := s.writers.next i height, recorded := s.recorded } →
              Logs (s.act (.next i height)).writers.db (s.act (.next i height)).recorded := by
            intro hd hact
            obtain ⟨hwal, hdisk⟩ := s.writers.advance_log height (c := ⟨args, at_⟩) hd
            rw [hact, Writers.next_eq hi]
            exact h.congr hwal hdisk
          cases at_ with
          | drawn e =>
              obtain ⟨-, -, hlogs⟩ := Writers.advance_drawn (c := ⟨args, .drawn e⟩) rfl h height
              simpa only [act, hi, Writers.act, Writers.next_eq hi] using hlogs
          | _ => exact hquiet (by simp) (by simp only [act, hi, Writers.act])

theorem logs_run (h : Logs s.writers.db s.recorded) (acts : List WriterAct) :
    Logs (acts.foldl act s).writers.db (acts.foldl act s).recorded :=
  Run.invariant (I := fun s : LogOrder => Logs s.writers.db s.recorded)
    (fun _ a hs => logs_act hs a) acts h

/-- A step that neither writes a record nor inserts. -/
theorem Ordered.quiet (h : Ordered s) {i : Nat} {c c' : WriteCall}
    (hi : s.writers.calls[i]? = some c) (hc : ∀ e off, c.at_ ≠ .logged e off)
    (hc' : ∀ e off, c'.at_ ≠ .logged e off) {db : DB} (hwal : db.wal = s.writers.db.wal)
    (hdisk : db.disk.wal = s.writers.db.disk.wal) :
    Ordered { s with writers := { s.writers with db, calls := s.writers.calls.set i c' } } where
  active := h.active
  logs := h.logs.congr hwal hdisk
  split := h.split
  waiting j e := by
    rw [h.waiting, logged_set hi]
    constructor
    · rintro ⟨args, off, hj⟩
      refine .inr ⟨?_, args, off, hj⟩
      rintro rfl
      rw [hi] at hj
      cases hj
      exact hc e off rfl
    · rintro (⟨-, off, hoff⟩ | ⟨-, hj⟩)
      · exact absurd hoff (hc' e off)
      · exact hj
  nodup := h.nodup

theorem ordered_record (h : Ordered s) {i : Nat} {args : WriteArgs} {e : Event}
    (hi : s.writers.calls[i]? = some ⟨args, .drawn e⟩) (height : Fin kMaxHeight) :
    Ordered (s.act (.next i height)) := by
  obtain ⟨off, hat, hlogs⟩ := Writers.advance_drawn (c := ⟨args, .drawn e⟩) rfl h.logs height
  have hact : s.act (.next i height) =
      { writers := { s.writers with
          db := (s.writers.advance height ⟨args, .drawn e⟩).2
          calls := s.writers.calls.set i ⟨args, .logged e off⟩ }
        recorded := s.recorded ++ [e]
        inserted := s.inserted
        waiting := s.waiting ++ [(i, e)] } := by
    simp only [act, hi, Writers.act, Writers.next_eq hi, hat]
  have hnew : i ∉ s.waiting.map Prod.fst := fun hin => by
    obtain ⟨p, hp, rfl⟩ := List.mem_map.mp hin
    obtain ⟨args', off', hj⟩ := (h.waiting p.1 p.2).mp hp
    rw [hi] at hj
    cases hj
  rw [hact]
  refine ⟨h.active, hlogs, fun key => ?_, fun j f => ?_, ?_⟩
  · rw [List.filter_append, h.split, List.map_append, List.map_singleton, List.filter_append,
      List.append_assoc]
  · rw [List.mem_append, List.mem_singleton, logged_set hi, h.waiting]
    constructor
    · rintro (⟨args', off', hj⟩ | hj)
      · refine .inr ⟨?_, args', off', hj⟩
        rintro rfl
        rw [hi] at hj
        cases hj
      · cases hj
        exact .inl ⟨rfl, off, rfl⟩
    · rintro (⟨rfl, off', hoff⟩ | ⟨-, hj⟩)
      · cases hoff
        exact .inr rfl
      · exact .inl hj
  · rw [List.map_append, List.map_singleton]
    refine List.nodup_append.mpr ⟨h.nodup, List.nodup_singleton _, fun x hx y hy hxy => hnew ?_⟩
    have hy : y = i := List.mem_singleton.mp hy
    rwa [← hy, ← hxy]

theorem ordered_insert (h : Ordered s) {i : Nat} {args : WriteArgs} {e : Event} {off : Nat}
    (hi : s.writers.calls[i]? = some ⟨args, .logged e off⟩) (height : Fin kMaxHeight)
    (hturn : Turn s (.next i height)) : Ordered (s.act (.next i height)) := by
  obtain ⟨hwal, hdisk⟩ := s.writers.advance_log height (c := ⟨args, .logged e off⟩) (by simp)
  have hat : ∀ f off', (s.writers.advance height ⟨args, .logged e off⟩).1 ≠ .logged f off' := by
    intro f off'
    simp only [Writers.advance, h.active]
    cases args <;> simp
  have hact : s.act (.next i height) =
      { writers := { s.writers with
          db := (s.writers.advance height ⟨args, .logged e off⟩).2
          calls := s.writers.calls.set i
            ⟨args, (s.writers.advance height ⟨args, .logged e off⟩).1⟩ }
        recorded := s.recorded
        inserted := s.inserted ++ [e]
        waiting := s.waiting.filter (·.1 ≠ i) } := by
    simp only [act, hi, Writers.act, Writers.next_eq hi]
  have hmem : (i, e) ∈ s.waiting := (h.waiting i e).mpr ⟨args, off, hi⟩
  rw [hact]
  refine ⟨h.active, h.logs.congr hwal hdisk, fun key => ?_, fun j f => ?_, ?_⟩
  · rw [h.split, leave_filter h.nodup hmem (hturn args e off hi) key, List.filter_append,
      List.append_assoc]
  · rw [List.mem_filter, h.waiting, logged_set hi]
    constructor
    · rintro ⟨hj, hji⟩
      exact .inr ⟨of_decide_eq_true hji, hj⟩
    · rintro (⟨-, off', hoff⟩ | ⟨hji, hj⟩)
      · exact absurd hoff (hat f off')
      · exact ⟨hj, decide_eq_true hji⟩
  · exact h.nodup.sublist ((List.filter_sublist (l := s.waiting)).map _)

theorem ordered_act (h : Ordered s) {a : WriterAct} (hturn : Turn s a) : Ordered (s.act a) := by
  cases a with
  | call args =>
      refine ⟨h.active, h.logs, h.split, fun i e => (h.waiting i e).trans ?_, h.nodup⟩
      change _ ↔ ∃ args' off, (s.writers.calls ++ [_])[i]? = some ⟨args', .logged e off⟩
      simp only [Slots.concat_iff]
      constructor
      · rintro ⟨args', off, hi⟩
        exact ⟨args', off, .inl hi⟩
      · rintro ⟨args', off, hi | ⟨-, hi⟩⟩
        · exact ⟨args', off, hi⟩
        · split at hi <;> cases hi
  | next i height =>
      cases hi : s.writers.calls[i]? with
      | none =>
          have hself : s.act (.next i height) = s := by
            simp only [act, hi, Writers.act, Writers.next_none hi]
          rwa [hself]
      | some c =>
          obtain ⟨args, at_⟩ := c
          have hquiet : (∀ e, at_ ≠ .drawn e) → (∀ e off, at_ ≠ .logged e off) →
              (∀ e off, (s.writers.advance height ⟨args, at_⟩).1 ≠ .logged e off) →
              s.act (.next i height) = { s with writers := s.writers.act (.next i height) } →
              Ordered (s.act (.next i height)) := by
            intro hd hl hl' hact
            obtain ⟨hwal, hdisk⟩ := s.writers.advance_log height (c := ⟨args, at_⟩) hd
            rw [hact, Writers.act, Writers.next_eq hi]
            exact h.quiet hi hl hl' hwal hdisk
          cases at_ with
          | drawn e => exact ordered_record h hi height
          | logged e off => exact ordered_insert h hi height hturn
          | inserted e off =>
              refine hquiet (by simp) (by simp) (fun f off' => ?_) (by simp only [act, hi])
              simp only [Writers.advance, h.active]
              simp
          | interned sym_id =>
              cases args <;>
                exact hquiet (by simp) (by simp) (by simp [Writers.advance]) (by simp only [act, hi])
          | _ =>
              exact hquiet (by simp) (by simp) (by simp [Writers.advance]) (by simp only [act, hi])

/-- After `open` on what any history of sessions left of the log, over any
calls: as long as a call inserts its event before those that wrote a record of
the same key later, a recovery after the last of them gives every key the
version that was inserted last. -/
theorem log_agrees (cfg : DBConfig) (hwal : cfg.wal_enabled = true) (max_segment_bytes : Nat)
    (history : List (List Event × Nat)) (disk : Disk) (listing : List SSTablePath)
    (heights : Nat → Fin kMaxHeight) (acts : List WriterAct)
    (hturn : Run.Along act Turn
      (startLogOrder cfg (withLog max_segment_bytes history disk) listing heights) acts) :
    Run.Along act (fun s a => Agrees (s.act a))
      (startLogOrder cfg (withLog max_segment_bytes history disk) listing heights) acts := by
  have hrun : ∀ (acts : List WriterAct) (s : LogOrder), Ordered s → Run.Along act Turn s acts →
      Run.Along act (fun s a => Agrees (s.act a)) s acts := by
    intro acts
    induction acts with
    | nil => exact fun _ _ _ => trivial
    | cons a acts ih =>
        intro s hs ha
        have hnext := ordered_act hs ha.1
        exact ⟨hnext.agrees, ih _ hnext ha.2⟩
  refine hrun acts _ ?_ hturn
  have hlogs := opened_withLog hwal max_segment_bytes history disk listing heights
  exact ⟨rfl, hlogs, fun key => (List.append_nil _).symm, fun i e => ⟨nofun, nofun⟩, List.nodup_nil⟩

/-- An append, and a remove of what it will answer, each up to its record. -/
def bothRecorded : List WriterAct :=
  [.call (.append [65] { timestamp_ns := 7 }), .call (.remove [65] 7 1), .next 0 0, .next 0 0,
    .next 1 0, .next 1 0, .next 0 0, .next 1 0]

theorem log_agrees_two : Run.Along act (fun s a => Agrees (s.act a))
    (startLogOrder {} (withLog 0 [] {}) [] fun _ => 0)
    (bothRecorded ++ [.next 0 0, .next 1 0, .next 0 0]) :=
  log_agrees {} rfl 0 [] {} [] (fun _ => 0) _ (by decide)

/-- The remove inserts first. -/
def removedFirst : List WriterAct := bothRecorded ++ [.next 1 0, .next 0 0]

/-- The remove inserts first, and so its tombstone is overwritten; the log has
it last. -/
theorem tombstone_overwritten : ¬ Run.Along act (fun s a => Agrees (s.act a))
    (startLogOrder {} (withLog 0 [] {}) [] fun _ => 0)
    (removedFirst ++ [.next 0 0]) := by
  intro h
  have hagrees := h.last (List.append_ne_nil_of_right_ne_nil _ (List.cons_ne_nil _ _))
  have hlogs := logs_run (s := startLogOrder {} (withLog 0 [] {}) [] fun _ => 0)
    (opened_withLog rfl 0 [] {} [] fun _ => 0)
    (removedFirst ++ [.next 0 0])
  generalize hs : (removedFirst ++ [WriterAct.next 0 0]).foldl act
    (startLogOrder {} (withLog 0 [] {}) [] fun _ => 0) = s at hagrees hlogs
  have hcalls : s.writers.calls.map (·.at_) = [.returned ⟨1, 0⟩, .returned ⟨1, 78⟩] := by
    rw [← hs]
    decide
  have hdone : ∀ c ∈ s.writers.calls, ∃ r, c.at_ = .returned r := fun c hc => by
    have hin := List.mem_map_of_mem (f := (·.at_)) hc
    rw [hcalls] at hin
    rcases List.mem_cons.mp hin with hin | hin
    · exact ⟨_, hin⟩
    · exact ⟨_, List.mem_singleton.mp hin⟩
  have hread : (read_all (s.writers.db.disk.wal.getD ∅)).records.map WALRecord.event =
      s.recorded := hlogs.recoverable
  have hfind := hagrees hdone (fun _ => 0) 0 ⟨1, 7, 1⟩
  rw [replay_find, hread, ← hs] at hfind
  revert hfind
  decide

end Kronos.Spec.LogOrder
