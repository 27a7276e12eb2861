import Kronos.Proofs.CutShort
import Kronos.Proofs.LogOrder
import Kronos.Proofs.SequenceIds
import Kronos.Proofs.SymbolCrash
import Kronos.Spec.Reopened

/-!
# What a session keeps for the next one

The next session has the table files, the symbol file and the log to go by. The
files that can be opened are finished tables of what was written (`Holding`). A
write that returns has put its record at the end of the log, and every other
step leaves log, symbols and counter alone (`Aside`).
-/

namespace Kronos

open Spec Compaction

/-! ## Tables and memtables -/

/-- A table as its writer finishes it, with nothing but `P` in it. -/
structure TableWith (P : Event → Prop) (t : SSTable) : Prop where
  meta_eq : t.meta_ = (SSTable.write t.meta_.level t.meta_.sequence t.events).meta_
  sorted : Keyed.Sorted Event.key t.events
  all : ∀ e ∈ t.events, P e

/-- A file is such a table, or it cannot be opened. -/
def FileWith (P : Event → Prop) : SSTableFile → Prop
  | .finished t => TableWith P t
  | .torn t => t.meta_ = none

def FilesWith (P : Event → Prop) (ssts : SSTableDir) : Prop :=
  ∀ path file, ssts.lookup path = some file → FileWith P file

structure Holding (P : Event → Prop) (db : DB) : Prop where
  mems : ∀ m ∈ db.active_mem :: db.imm_mems, Keyed.Sorted Event.key m.nodes
  nodes : ∀ m ∈ db.active_mem :: db.imm_mems, ∀ e ∈ m.nodes, P e
  files : FilesWith P db.disk.ssts

variable {P : Event → Prop}

theorem tableWith_write (level sequence : Nat) {events : List Event}
    (hsorted : Keyed.Sorted Event.key events) (hall : ∀ e ∈ events, P e) :
    TableWith P (SSTable.write level sequence events) := ⟨rfl, hsorted, hall⟩

section
variable {ssts : SSTableDir} (h : FilesWith P ssts)

include h in
theorem FilesWith.insert (path : SSTablePath) {file : SSTableFile} (hfile : FileWith P file) :
    FilesWith P (ssts.insert path file) := by
  intro other file' hlook
  by_cases heq : other = path
  · rw [heq, AList.lookup_insert] at hlook
    exact Option.some.inj hlook ▸ hfile
  · rw [AList.lookup_insert_ne heq] at hlook
    exact h other file' hlook

theorem FilesWith.insertTables {outputs : List SSTable} (hout : ∀ u ∈ outputs, TableWith P u)
    {ssts : SSTableDir} (h : FilesWith P ssts) : FilesWith P (insertTables outputs ssts) := by
  induction outputs generalizing ssts with
  | nil => exact h
  | cons u us ih =>
      exact ih (fun v hv => hout v (List.mem_cons_of_mem _ hv))
        (h.insert _ (hout u List.mem_cons_self))

theorem FilesWith.eraseFiles (files : List SSTableInfo) {ssts : SSTableDir}
    (h : FilesWith P ssts) : FilesWith P (eraseFiles files ssts) := by
  induction files generalizing ssts with
  | nil => exact h
  | cons f fs ih =>
      refine ih fun path file hlook => ?_
      by_cases heq : path = f.path
      · rw [heq, AList.lookup_erase] at hlook
        cases hlook
      · rw [AList.lookup_erase_ne heq] at hlook
        exact h path file hlook

theorem FilesWith.imp {Q : Event → Prop} (himp : ∀ e, P e → Q e) {ssts : SSTableDir}
    (h : FilesWith P ssts) : FilesWith Q ssts := by
  intro path file hlook
  have hfile := h path file hlook
  cases file with
  | finished t => exact ⟨hfile.meta_eq, hfile.sorted, fun e he => himp e (hfile.all e he)⟩
  | torn t => exact hfile

include h in
/-- What a compaction reads comes from the finished files. -/
theorem FilesWith.read_inputs {inputs : List SSTableInfo} {all all' : List EventWithSeq}
    (hall : ∀ ew ∈ all, P ew.e) (hread : read_inputs ssts all inputs = .ok all') :
    ∀ ew ∈ all', P ew.e := by
  induction inputs generalizing all with
  | nil =>
      rw [Compaction.read_inputs] at hread
      cases hread
      exact hall
  | cons info inputs ih =>
      rw [Compaction.read_inputs] at hread
      cases hlook : ssts.lookup info.path with
      | none => simp only [read_input, hlook] at hread; cases hread
      | some file =>
          have hfile := h info.path file hlook
          cases file with
          | torn t =>
              simp only [read_input, hlook, SSTableFile.read_meta,
                show t.meta_ = none from hfile] at hread
              cases hread
          | finished t =>
              simp only [read_input_ok hlook] at hread
              refine ih (fun ew hew => ?_) hread
              rcases List.mem_append.mp hew with hew | hew
              · exact hall ew hew
              · obtain ⟨e, he, rfl⟩ := List.mem_map.mp hew
                exact hfile.all e he

include h in
theorem FilesWith.run {inputs : List SSTableInfo} {sequence target : Nat}
    {outputs : List SSTable} {stats : CompactionStats}
    (hrun : Compaction.run ssts inputs 1 sequence target = .ok (outputs, stats)) :
    ∀ u ∈ outputs, TableWith P u := by
  rw [Compaction.run] at hrun
  split at hrun
  · cases hrun
  · next all hread =>
      cases hrun
      have hall := h.read_inputs (fun ew hew => absurd hew List.not_mem_nil) hread
      have hmerged : ∀ e ∈ merge 1 all, P e := fun e he => by
        rw [merge_low (by decide)] at he
        obtain ⟨ew, hew, rfl⟩ := List.mem_map.mp he
        exact hall ew (NewestWins.mem_of_mem_merge hew)
      obtain ⟨chunks, houts, hflat, -, -⟩ := write_outputs_chunks 1 sequence target (merge 1 all)
      rw [houts]
      intro u hu
      obtain ⟨⟨c, n⟩, hc, rfl⟩ := List.mem_map.mp hu
      have hc := List.fst_mem_of_mem_zipIdx hc
      refine tableWith_write 1 n ?_ fun e he => hmerged e ?_
      · exact List.Pairwise.sublist (List.sublist_flatten_of_mem hc) (hflat ▸ merge_sorted 1 all)
      · rw [← hflat]
        exact List.mem_flatten_of_mem hc he

end

section
variable {db : DB} (h : Holding P db)

include h in
theorem Holding.quiet {db' : DB} (hq : Quiet db db') : Holding P db' := by
  constructor
  · rw [hq.active, hq.imm]; exact h.mems
  · rw [hq.active, hq.imm]; exact h.nodes
  · rw [hq.ssts]; exact h.files

include h in
theorem Holding.imp {Q : Event → Prop} (himp : ∀ e, P e → Q e) : Holding Q db :=
  ⟨h.mems, fun m hm e he => himp e (h.nodes m hm e he), h.files.imp himp⟩

include h in
theorem Holding.retire : Holding P (retire db) := by
  refine ⟨mems_sorted_retire h.mems, fun m hm => ?_, h.files⟩
  rcases List.mem_cons.mp hm with rfl | hm
  · exact fun e he => absurd he List.not_mem_nil
  · rcases List.mem_append.mp hm with hm | hm
    · exact h.nodes m (List.mem_cons_of_mem _ hm)
    · rw [List.mem_singleton.mp hm]
      exact h.nodes _ List.mem_cons_self

include h in
theorem Holding.mem_insert {e : Event} (he : P e) (height : Fin kMaxHeight) :
    Holding P (db.mem_insert e height) := by
  have hput : Holding P (putActive e height db) := by
    refine ⟨fun m hm => ?_, fun m hm => ?_, h.files⟩
    · rcases List.mem_cons.mp hm with rfl | hm
      · exact Keyed.upsert_sorted e (h.mems _ List.mem_cons_self)
      · exact h.mems m (List.mem_cons_of_mem _ hm)
    · rcases List.mem_cons.mp hm with rfl | hm
      · intro x hx
        rcases Keyed.mem_upsert_sub hx with rfl | hx
        · exact he
        · exact h.nodes _ List.mem_cons_self x hx
      · exact h.nodes m (List.mem_cons_of_mem _ hm)
  rw [mem_insert_eq]
  split
  · exact hput.retire
  · exact hput

include h in
theorem Holding.rotate : Holding P db.rotate := by
  rcases rotate_cases db with heq | ⟨-, heq⟩ <;> rw [heq]
  · exact h
  · exact h.retire

include h in
theorem Holding.flush_front : Holding P db.flush_front := by
  rw [DB.flush_front]
  split
  · exact h
  · next mem rest himm =>
      have hmem : mem ∈ db.active_mem :: db.imm_mems := by
        rw [himm]
        exact List.mem_cons_of_mem _ List.mem_cons_self
      have hrest : ∀ m ∈ db.active_mem :: rest, m ∈ db.active_mem :: db.imm_mems := fun m hm => by
        rw [himm]
        rcases List.mem_cons.mp hm with rfl | hm
        · exact List.mem_cons_self
        · exact List.mem_cons_of_mem _ (List.mem_cons_of_mem _ hm)
      rw [DB.do_flush]
      split
      · exact ⟨fun m hm => h.mems m (hrest m hm), fun m hm => h.nodes m (hrest m hm), h.files⟩
      · exact ⟨fun m hm => h.mems m (hrest m hm), fun m hm => h.nodes m (hrest m hm),
          h.files.insert _ (tableWith_write 0 db.sst_seq (h.mems mem hmem) (h.nodes mem hmem))⟩

include h in
theorem Holding.compact : Holding P (after db.compact_now) := by
  rw [DB.compact_now, DB.do_compact_l0]
  split
  · exact h
  · simp only []
    split
    · exact ⟨h.mems, h.nodes, h.files⟩
    · next outputs stats hrun =>
        have houts := h.files.run hrun
        rw [write_outputs_eq]
        split
        · exact ⟨h.mems, h.nodes, h.files.insertTables houts⟩
        · rw [remove_inputs_eq]
          exact ⟨h.mems, h.nodes, (h.files.insertTables houts).eraseFiles _⟩

end

/-! ## The steps that write -/

theorem append_step {db : DB} (hopen : db.closed = false) (symbol : Bytes) (args : Event)
    (height : Fin kMaxHeight) (io : AppendIO) :
    step db (.append symbol args height io) = after (DB.log_and_insert
      { args with symbol_id := (db.intern symbol).1, sequence_id := db.next_seq } height io
      { (db.intern symbol).2 with next_seq := db.next_seq + 1 }) := by
  rw [step, DB.append, hopen]
  rfl

theorem remove_step {db : DB} (hopen : db.closed = false) (symbol : Bytes)
    (timestamp_ns sequence_id : UInt64) (height : Fin kMaxHeight) (io : AppendIO) :
    step db (.remove symbol timestamp_ns sequence_id height io) = after (DB.log_and_insert
      { timestamp_ns, symbol_id := (db.intern symbol).1, sequence_id, event_type := .Tombstone }
      height io (db.intern symbol).2) := by
  rw [step, DB.remove, hopen]
  rfl

/-- A write names its event, and what is left to do is to log and insert it. -/
theorem written_step {db : DB} {s : Step} {p : Bytes × Event} (h : written db s = some p) :
    db.closed = false ∧ ∃ height io next_seq,
      step db s = after (DB.log_and_insert p.2 height io { (db.intern p.1).2 with next_seq }) ∧
        ((∃ args, s = .append p.1 args height io ∧ next_seq = db.next_seq + 1) ∨
          ∃ timestamp_ns sequence_id,
            s = .remove p.1 timestamp_ns sequence_id height io ∧ next_seq = db.next_seq) := by
  unfold written at h
  split at h
  · cases h
  · next hclosed =>
      have hopen : db.closed = false := Bool.eq_false_iff.mpr hclosed
      refine ⟨hopen, ?_⟩
      cases s with
      | append symbol args height io =>
          cases h
          exact ⟨_, _, _, append_step hopen .., .inl ⟨_, rfl, rfl⟩⟩
      | remove symbol timestamp_ns sequence_id height io =>
          cases h
          exact ⟨_, _, _, remove_step hopen .., .inr ⟨_, _, rfl, rfl⟩⟩
      | _ => cases h

/-- A write to a closed database is refused. -/
theorem unwritten_cases {db : DB} {s : Step} (hw : written db s = none) :
    step db s = db ∨ s = .rotate ∨ s = .flush_front ∨ s = .compact ∨ Closes s := by
  cases s with
  | append symbol args height io =>
      cases hclosed : db.closed with
      | false => rw [written, hclosed] at hw; cases hw
      | true => exact .inl (by rw [step, DB.append, hclosed]; rfl)
  | remove symbol timestamp_ns sequence_id height io =>
      cases hclosed : db.closed with
      | false => rw [written, hclosed] at hw; cases hw
      | true => exact .inl (by rw [step, DB.remove, hclosed]; rfl)
  | rotate => exact .inr (.inl rfl)
  | flush_front => exact .inr (.inr (.inl rfl))
  | compact => exact .inr (.inr (.inr (.inl rfl)))
  | stop => exact .inr (.inr (.inr (.inr trivial)))
  | save_symbols => exact .inr (.inr (.inr (.inr trivial)))

theorem Holding.step {db : DB} (h : Holding P db) {s : Step}
    (hs : ∀ p, written db s = some p → P p.2) : Holding P (step db s) := by
  cases hw : written db s with
  | some p =>
      obtain ⟨-, height, io, next_seq, hstep, -⟩ := written_step hw
      have hintern : Quiet db { (db.intern p.1).2 with next_seq } := ⟨rfl, rfl, rfl, rfl, rfl, rfl⟩
      obtain ⟨db', hquiet, heq⟩ := log_and_insert_effect p.2 height io
        { (db.intern p.1).2 with next_seq }
      have hdb' := h.quiet (hintern.trans hquiet)
      rw [hstep]
      rcases heq with heq | heq <;> rw [heq]
      · exact hdb'
      · exact hdb'.mem_insert (hs p hw) height
  | none =>
      rcases unwritten_cases hw with heq | rfl | rfl | rfl | hcloses
      · rw [heq]
        exact h
      · exact h.rotate
      · exact h.flush_front
      · exact h.compact
      · cases s with
        | stop => exact ⟨h.mems, h.nodes, h.files⟩
        | save_symbols => exact ⟨h.mems, h.nodes, h.files⟩
        | _ => exact hcloses.elim

/-! ## The other steps -/

/-- Equal but for the memtables, the levels and the table files. -/
structure Aside (db db' : DB) : Prop where
  wal : db'.wal = db.wal
  log : db'.disk.wal = db.disk.wal
  symbols : db'.symbols = db.symbols
  symbol_table : db'.disk.symbol_table = db.disk.symbol_table
  next_seq : db'.next_seq = db.next_seq
  closed : db'.closed = db.closed
  cfg : db'.cfg = db.cfg

theorem Aside.refl (db : DB) : Aside db db := ⟨rfl, rfl, rfl, rfl, rfl, rfl, rfl⟩

theorem Aside.trans {a b c : DB} (h : Aside a b) (h' : Aside b c) : Aside a c :=
  ⟨h'.wal.trans h.wal, h'.log.trans h.log, h'.symbols.trans h.symbols,
    h'.symbol_table.trans h.symbol_table, h'.next_seq.trans h.next_seq, h'.closed.trans h.closed,
    h'.cfg.trans h.cfg⟩

theorem mem_insert_aside (e : Event) (height : Fin kMaxHeight) (db : DB) :
    Aside db (db.mem_insert e height) := by
  obtain ⟨active_mem, imm_mems, heq⟩ := mem_insert_rest e height db
  rw [heq]
  exact ⟨rfl, rfl, rfl, rfl, rfl, rfl, rfl⟩

theorem rotate_aside (db : DB) : Aside db db.rotate := by
  obtain ⟨active_mem, imm_mems, heq⟩ := rotate_rest db
  rw [heq]
  exact ⟨rfl, rfl, rfl, rfl, rfl, rfl, rfl⟩

theorem flush_front_aside (db : DB) : Aside db db.flush_front := by
  rw [DB.flush_front]
  split
  · exact .refl db
  · rw [DB.do_flush]
    split <;> exact ⟨rfl, rfl, rfl, rfl, rfl, rfl, rfl⟩

theorem compact_aside (db : DB) : Aside db (after db.compact_now) := by
  rw [DB.compact_now, DB.do_compact_l0]
  split
  · exact .refl db
  · simp only []
    split
    · exact ⟨rfl, rfl, rfl, rfl, rfl, rfl, rfl⟩
    · rw [write_outputs_eq]
      split
      · exact ⟨rfl, rfl, rfl, rfl, rfl, rfl, rfl⟩
      · rw [remove_inputs_eq]
        exact ⟨rfl, rfl, rfl, rfl, rfl, rfl, rfl⟩

theorem unwritten_aside {db : DB} {s : Step} (hs : ¬ Closes s) (hw : written db s = none) :
    Aside db (step db s) := by
  rcases unwritten_cases hw with heq | rfl | rfl | rfl | hcloses
  · rw [heq]
    exact .refl db
  · exact rotate_aside db
  · exact flush_front_aside db
  · exact compact_aside db
  · exact absurd hcloses hs

/-- The steps of `close` leave the log alone as well. -/
theorem unwritten_log {db : DB} {s : Step} (hw : written db s = none) :
    (step db s).wal = db.wal ∧ (step db s).disk.wal = db.disk.wal := by
  by_cases hs : Closes s
  · cases s with
    | stop => exact ⟨rfl, rfl⟩
    | save_symbols => exact ⟨rfl, rfl⟩
    | _ => exact hs.elim
  · have ha := unwritten_aside hs hw
    exact ⟨ha.wal, ha.log⟩

theorem Logs.aside {db db' : DB} {events : List Event} (h : Logs db events) (ha : Aside db db') :
    Logs db' events := h.congr ha.wal ha.log

/-- A write that nothing hinders: a record at the end of the log, and then the
memtables. -/
theorem Logs.write {db : DB} {events : List Event} (h : Logs db events) {s : Step}
    (hs : Unhindered s) {p : Bytes × Event} (hw : written db s = some p) :
    Logs (step db s) (events ++ [p.2]) ∧ ∃ db' height, step db s = db'.mem_insert p.2 height ∧
      Quiet db db' ∧ db'.closed = false ∧ db'.symbols = (db.intern p.1).2.symbols ∧
      db'.disk.symbol_table = (db.intern p.1).2.disk.symbol_table ∧
      ((∃ args io, s = .append p.1 args height io ∧ db'.next_seq = db.next_seq + 1) ∨
        (∃ timestamp_ns sequence_id io, s = .remove p.1 timestamp_ns sequence_id height io ∧
          db'.next_seq = db.next_seq)) := by
  obtain ⟨hopen, height, io, next_seq, hstep, hkind⟩ := written_step hw
  have hio : io = {} := by
    rcases hkind with ⟨args, rfl, -⟩ | ⟨_, _, rfl, -⟩ <;> exact hs
  have hintern : Logs { (db.intern p.1).2 with next_seq } events := h.congr rfl rfl
  obtain ⟨off, writer, dir, happ, hlogs⟩ := hintern.append p.2
  have heq : step db s = DB.mem_insert p.2 height { (db.intern p.1).2 with
      next_seq, wal := some writer, disk := { (db.intern p.1).2.disk with wal := some dir } } := by
    rw [hstep, hio, DB.log_and_insert, happ]
    rfl
  refine ⟨?_, _, height, heq, ⟨rfl, rfl, rfl, rfl, rfl, rfl⟩, hopen, rfl, rfl, ?_⟩
  · rw [heq]
    exact hlogs.aside (mem_insert_aside ..)
  · rcases hkind with ⟨args, hkind, hseq⟩ | ⟨_, _, hkind, hseq⟩
    · exact .inl ⟨args, io, hkind, hseq⟩
    · exact .inr ⟨_, _, io, hkind, hseq⟩

/-! ## A session -/

/-- The ids that appends have given out count up from 1. -/
structure Counted (t : Noted) : Prop where
  next : t.db.next_seq = UInt64.ofNat (t.appended.length + 1)
  ids : ∀ i p, t.appended[i]? = some p → p.2.sequence_id = UInt64.ofNat (i + 1)

/-- A session without `close` on an empty directory, and what its log reads back as. -/
structure Session (P : Event → Prop) (t : Noted) (log : List Event) : Prop where
  opened : t.db.closed = false
  logs : Logs t.db log
  logged : ∀ e, e ∈ log ↔ e ∈ t.appended.map Prod.snd ∨ e ∈ t.removed.map Prod.snd
  holding : Holding P t.db
  counted : Counted t
  named : ∀ p ∈ t.appended, t.db.symbols.lookup p.1 = some p.2.symbol_id

theorem Counted.append {t : Noted} (h : Counted t) {db : DB}
    (hseq : db.next_seq = t.db.next_seq + 1) {p : Bytes × Event}
    (hp : p.2.sequence_id = t.db.next_seq) :
    Counted { t with db, appended := t.appended ++ [p] } := by
  constructor
  · rw [hseq, h.next, List.length_append, List.length_singleton,
      UInt64.ofNat_add (t.appended.length + 1) 1]
    rfl
  · intro i q hq
    rcases Slots.concat_iff.mp hq with hq | ⟨rfl, rfl⟩
    · exact h.ids i q hq
    · rw [hp, h.next]

/-- Up to 2^64 of them are different. -/
theorem Counted.eq_of_id {t : Noted} (h : Counted t) (hfew : t.appended.length ≤ 2 ^ 64)
    {p q : Bytes × Event} (hp : p ∈ t.appended) (hq : q ∈ t.appended)
    (heq : p.2.sequence_id = q.2.sequence_id) : p = q := by
  obtain ⟨i, hi⟩ := List.mem_iff_getElem?.mp hp
  obtain ⟨j, hj⟩ := List.mem_iff_getElem?.mp hq
  have hilt := (List.getElem?_eq_some_iff.mp hi).1
  have hjlt := (List.getElem?_eq_some_iff.mp hj).1
  rw [h.ids i p hi, h.ids j q hj, ← UInt64.toNat_inj, UInt64.toNat_ofNat',
    UInt64.toNat_ofNat'] at heq
  have hij : i = j := by omega
  subst hij
  exact Option.some.inj (hi.symm.trans hj)

/-- Opened on an empty directory, but for the log there is nothing. -/
theorem start_eq (cfg : DBConfig) (heights : Nat → Fin kMaxHeight) :
    ∃ wal dir, (Noted.start cfg heights).db =
        { DB.load cfg {} [] with wal := wal, disk := { wal := dir } } ∧
      if cfg.wal_enabled then Logs (Noted.start cfg heights).db [] else wal = none := by
  cases hwal : cfg.wal_enabled with
  | false =>
      refine ⟨none, none, ?_, rfl⟩
      simp only [Noted.start, opened, DB.open_, hwal, after]
      rfl
  | true =>
      obtain ⟨s, hs, hserves⟩ := create_empty cfg.wal_segment_bytes
      have hdb : (Noted.start cfg heights).db = { DB.load cfg {} [] with
          wal := some s.writer, disk := { wal := some s.dir } } := by
        simp only [Noted.start, opened, DB.open_, hwal, if_true, hs, after]
        rfl
      refine ⟨_, _, hdb, ?_⟩
      rw [hdb]
      exact ⟨s.writer, s.dir, [], rfl, rfl, hserves, rfl⟩

theorem start_session (P : Event → Prop) {cfg : DBConfig} (hwal : cfg.wal_enabled = true)
    (heights : Nat → Fin kMaxHeight) : Session P (Noted.start cfg heights) [] := by
  obtain ⟨wal, dir, hdb, hlogs⟩ := start_eq cfg heights
  rw [if_pos hwal] at hlogs
  have happ : (Noted.start cfg heights).appended = [] := rfl
  have hrem : (Noted.start cfg heights).removed = [] := rfl
  refine ⟨by rw [hdb]; rfl, hlogs, fun e => ?_, ?_, ⟨by rw [hdb]; rfl, ?_⟩, ?_⟩
  · rw [happ, hrem]
    simp
  · rw [hdb]
    refine ⟨fun m hm => ?_, fun m hm => ?_, fun path file hlook => by cases hlook⟩ <;>
      rw [List.mem_singleton.mp hm]
    · exact List.Pairwise.nil
    · exact fun e he => absurd he List.not_mem_nil
  · exact fun i p hp => by cases hp
  · exact fun p hp => by cases hp

/-- What a write adds to what is noted. -/
theorem noted_append {t : Noted} {symbol : Bytes} {args : Event} {height : Fin kMaxHeight}
    {io : AppendIO} {p : Bytes × Event}
    (hw : written t.db (.append symbol args height io) = some p) :
    t.step (.append symbol args height io) =
      { t with
        db := step t.db (.append symbol args height io)
        appended := t.appended ++ [p] } := by
  simp only [Noted.step, hw, Option.toList_some]

theorem noted_remove {t : Noted} {symbol : Bytes} {timestamp_ns sequence_id : UInt64}
    {height : Fin kMaxHeight} {io : AppendIO} {p : Bytes × Event}
    (hw : written t.db (.remove symbol timestamp_ns sequence_id height io) = some p) :
    t.step (.remove symbol timestamp_ns sequence_id height io) =
      { t with
        db := step t.db (.remove symbol timestamp_ns sequence_id height io)
        removed := t.removed ++ [p] } := by
  simp only [Noted.step, hw, Option.toList_some]

theorem noted_other {t : Noted} {s : Step} (hw : written t.db s = none) :
    t.step s = { t with db := step t.db s } := by
  cases s <;> simp only [Noted.step, hw, Option.toList_none, List.append_nil]

theorem noted_db (t : Noted) (s : Step) : (t.step s).db = step t.db s := by
  cases s <;> rfl

theorem noted_run_db (t : Noted) (steps : List Step) :
    (t.run steps).db = steps.foldl step t.db := by
  induction steps generalizing t with
  | nil => rfl
  | cons s steps ih => exact (ih (t.step s)).trans (by rw [noted_db]; rfl)

theorem noted_concat (t : Noted) (steps : List Step) (s : Step) :
    t.run (steps ++ [s]) = (t.run steps).step s := by
  rw [Noted.run, List.foldl_append]
  rfl

/-- What is noted stays noted. -/
theorem noted_appended {t : Noted} {s : Step} {p : Bytes × Event} (h : p ∈ t.appended) :
    p ∈ (t.step s).appended := by
  cases s <;> first | exact h | exact List.mem_append_left _ h

theorem written_id {db : DB} {symbol : Bytes} {args : Event} {height : Fin kMaxHeight}
    {io : AppendIO} {p : Bytes × Event} (hw : written db (.append symbol args height io) = some p) :
    p.2.sequence_id = db.next_seq ∧ p.2.symbol_id = (db.intern symbol).1 := by
  unfold written at hw
  split at hw <;> cases hw
  exact ⟨rfl, rfl⟩

section
variable {t : Noted} {log : List Event} (h : Session P t log) {s : Step} (hs : Unhindered s)
  (hc : ¬ Closes s)

include h hs hc in
theorem Session.step (hP : ∀ p, written t.db s = some p → P p.2) :
    Session P (t.step s) (log ++ (written t.db s).toList.map Prod.snd) := by
  cases hw : written t.db s with
  | none =>
      have ha := unwritten_aside hc hw
      rw [noted_other hw, Option.toList_none, List.map_nil, List.append_nil]
      refine ⟨ha.closed.trans h.opened, h.logs.aside ha, h.logged, h.holding.step hP,
        ⟨ha.next_seq.trans h.counted.next, h.counted.ids⟩, fun p hp => ?_⟩
      rw [ha.symbols]
      exact h.named p hp
  | some p =>
      obtain ⟨hlogs, db', height, hstep, -, hclosed, hsymbols, -, hkind⟩ := h.logs.write hs hw
      have hheld := h.holding.step hP
      have ha := mem_insert_aside p.2 height db'
      rw [← hstep] at ha
      have hopen := ha.closed.trans hclosed
      have hknown : ∀ name id, t.db.symbols.lookup name = some id →
          (Spec.step t.db s).symbols.lookup name = some id := fun name id hlook => by
        rw [ha.symbols, hsymbols]
        exact intern_keeps _ _ _ _ hlook
      rw [Option.toList_some, List.map_singleton]
      rcases hkind with ⟨args, io, rfl, hseq⟩ | ⟨timestamp_ns, sequence_id, io, rfl, hseq⟩
      · obtain ⟨hid, hsym⟩ := written_id hw
        rw [noted_append hw]
        refine ⟨hopen, hlogs, fun e => ?_, hheld,
          h.counted.append (ha.next_seq.trans hseq) hid, fun q hq => ?_⟩
        · rw [List.mem_append, h.logged, List.mem_singleton]
          simp only [List.map_append, List.mem_append, List.map_singleton, List.mem_singleton]
          tauto
        · rcases List.mem_append.mp hq with hq | hq
          · exact hknown _ _ (h.named q hq)
          · rw [List.mem_singleton.mp hq, ha.symbols, hsymbols, hsym]
            exact intern_known t.db p.1
      · rw [noted_remove hw]
        refine ⟨hopen, hlogs, fun e => ?_, hheld,
          ⟨ha.next_seq.trans (hseq.trans h.counted.next), h.counted.ids⟩, fun q hq => ?_⟩
        · rw [List.mem_append, h.logged, List.mem_singleton]
          simp only [List.map_append, List.mem_append, List.map_singleton, List.mem_singleton]
          tauto
        · exact hknown _ _ (h.named q hq)

end

end Kronos
