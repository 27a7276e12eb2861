import Kronos.Proofs.Querying

/-!
# Events on their way to a file

What an append put in the active memtable is from then on in exactly one of
three places, a memtable, the hands of a flushing thread or a listed file, and
moves through them in this order. `Handing` says so of a state and `Progress`
of two; every step of an append and of a flushing thread keeps the one and
makes the other, and so does every run of them, however many there are.
-/

namespace Kronos

open Spec

/-! ## The three places -/

namespace Flusher

def events (ssts : SSTableDir) : Flusher → List Event
  | popped mem => mem.nodes
  | numbered mem _ => mem.nodes
  | written info => fileEvents ssts info

def number : Flusher → Option Nat
  | popped _ => none
  | numbered _ seq => some seq
  | written info => some info.meta_.sequence

/-- What a flusher holds is in order, and its file, once written, is its own. -/
def Ready (ssts : SSTableDir) : Flusher → Prop
  | popped mem => Keyed.Sorted Event.key mem.nodes
  | numbered mem _ => Keyed.Sorted Event.key mem.nodes
  | written info => Tabled ssts info (fileEvents ssts info) ∧
      info.path = DB.flush_path info.meta_.sequence

end Flusher

def inFlight (s : Threads) : List Event := s.flushers.flatMap (Flusher.events s.db.disk.ssts)

def stored (s : Threads) : List Event := inMemtables s.db ++ (inFlight s ++ inFiles s.db)

/-- The events of the appends that are through, the latest last. -/
def ackedEvents (s : Threads) : List Event := s.acked.map Prod.snd

/-- No other write has the key of `e`. -/
def WrittenOnce (s : Threads) (e : Event) : Prop := ((ackedEvents s).map Event.key).count e.key = 1

/-- What holds between any two steps. -/
structure Handing (s : Threads) : Prop where
  opened : s.db.closed = false
  mems : ∀ m ∈ s.db.active_mem :: s.db.imm_mems, Keyed.Sorted Event.key m.nodes
  listed : ∀ info ∈ files_to_scan s.db.levels,
    Tabled s.db.disk.ssts info (fileEvents s.db.disk.ssts info) ∧
      ∀ n, info.path = DB.flush_path n → n < s.db.sst_seq
  ready : ∀ f ∈ s.flushers, f.Ready s.db.disk.ssts
  numbers : (s.flushers.filterMap Flusher.number).Nodup
  unlisted : ∀ n ∈ s.flushers.filterMap Flusher.number,
    n < s.db.sst_seq ∧ ∀ info ∈ files_to_scan s.db.levels, info.path ≠ DB.flush_path n
  named : ∀ p ∈ s.acked ++ s.appends, s.db.symbols.lookup p.1 = some p.2.symbol_id
  sub : (live (stored s)).Subperm (live (ackedEvents s))
  kept : ∀ e ∈ live (ackedEvents s), WrittenOnce s e → e ∈ stored s

/-- What never goes back. -/
structure Progress (s s' : Threads) : Prop where
  files : ∀ info ∈ files_to_scan s.db.levels, info ∈ files_to_scan s'.db.levels ∧
    fileEvents s'.db.disk.ssts info = fileEvents s.db.disk.ssts info
  settled : ∀ e ∈ inFlight s ++ inFiles s.db, e ∈ inFlight s' ++ inFiles s'.db
  acked : s.acked <+: s'.acked
  symbols : ∀ name id, s.db.symbols.lookup name = some id → s'.db.symbols.lookup name = some id

theorem Progress.refl (s : Threads) : Progress s s :=
  ⟨fun _ h => ⟨h, rfl⟩, fun _ h => h, List.prefix_refl _, fun _ _ h => h⟩

theorem Progress.trans {a b c : Threads} (h : Progress a b) (h' : Progress b c) :
    Progress a c := by
  refine ⟨fun info hinfo => ?_, fun e he => h'.settled e (h.settled e he), h.acked.trans h'.acked,
    fun name id hid => h'.symbols name id (h.symbols name id hid)⟩
  obtain ⟨hb, hevents⟩ := h.files info hinfo
  obtain ⟨hc, hevents'⟩ := h'.files info hb
  exact ⟨hc, hevents'.trans hevents⟩

/-! ## Steps that move nothing -/

/-- The files, the memtables and the flushers are as they were. -/
theorem Handing.frame {s s' : Threads} (h : Handing s) (hq : Quiet s.db s'.db)
    (hopened : s'.db.closed = false)
    (hsymbols : ∀ name id, s.db.symbols.lookup name = some id →
      s'.db.symbols.lookup name = some id)
    (hflushers : s'.flushers = s.flushers) (hacked : s'.acked = s.acked)
    (hnamed : ∀ p ∈ s'.acked ++ s'.appends, s'.db.symbols.lookup p.1 = some p.2.symbol_id) :
    Handing s' ∧ Progress s s' := by
  have hstored : stored s' = stored s := by
    rw [stored, inMemtables, inFlight, inFiles, hq.active, hq.imm, hflushers, hq.ssts, hq.levels]
    rfl
  have hevents : ackedEvents s' = ackedEvents s := by rw [ackedEvents, hacked, ackedEvents]
  refine ⟨⟨hopened, ?_, ?_, ?_, ?_, ?_, hnamed, ?_, ?_⟩,
    ⟨fun info hinfo => ?_, fun e he => ?_, ?_, hsymbols⟩⟩
  · rw [hq.active, hq.imm]; exact h.mems
  · rw [hq.levels, hq.ssts, hq.sst_seq]; exact h.listed
  · rw [hflushers, hq.ssts]; exact h.ready
  · rw [hflushers]; exact h.numbers
  · rw [hflushers, hq.levels, hq.sst_seq]; exact h.unlisted
  · rw [hstored, hevents]; exact h.sub
  · rw [hstored, hevents]
    intro e he honce
    exact h.kept e he (by rw [WrittenOnce, hevents] at honce; exact honce)
  · rw [hq.levels, hq.ssts]
    exact ⟨hinfo, rfl⟩
  · rw [inFlight, inFiles, hflushers, hq.ssts, hq.levels]
    exact he
  · rw [hacked]

theorem begin_append_handing {s : Threads} (h : Handing s) (symbol : Bytes) (args : Event) :
    Handing (s.begin_append symbol args) ∧ Progress s (s.begin_append symbol args) := by
  refine h.frame ⟨rfl, rfl, rfl, rfl, rfl, rfl⟩ h.opened (intern_keeps s.db symbol) rfl rfl
    fun p hp => ?_
  have hp : p ∈ s.acked ++ (s.appends ++ [(symbol, { args with
      symbol_id := (s.db.intern symbol).1, sequence_id := s.db.next_seq })]) := hp
  rw [← List.append_assoc] at hp
  rcases List.mem_append.mp hp with hp | hp
  · exact intern_keeps s.db symbol _ _ (h.named p hp)
  · rw [List.mem_singleton.mp hp]
    exact intern_known s.db symbol

/-! ## Steps that move events -/

theorem inMemtables_retire (db : DB) : (inMemtables (retire db)).Perm (inMemtables db) := by
  have hnew : (MemTable.new db.cfg.memtable_flush_bytes).nodes = [] := rfl
  simp only [inMemtables, retire, hnew, List.nil_append, List.flatMap_append, List.flatMap_cons,
    List.flatMap_nil, List.append_nil]
  exact List.perm_append_comm

theorem inMemtables_rotate (db : DB) : (inMemtables db.rotate).Perm (inMemtables db) := by
  rcases rotate_cases db with heq | ⟨-, heq⟩ <;> rw [heq]
  exact inMemtables_retire db

theorem inMemtables_insert {db : DB} (hsorted : Keyed.Sorted Event.key db.active_mem.nodes)
    (e : Event) (height : Fin kMaxHeight) :
    (inMemtables (db.mem_insert e height)).Perm
      (e :: (db.active_mem.nodes.filter (·.key ≠ e.key) ++
        db.imm_mems.flatMap MemTable.nodes)) := by
  have hput : (inMemtables (putActive e height db)).Perm
      (e :: (db.active_mem.nodes.filter (·.key ≠ e.key) ++
        db.imm_mems.flatMap MemTable.nodes)) :=
    (Keyed.upsert_perm e hsorted).append_right _
  rw [mem_insert_eq]
  split
  · exact (inMemtables_retire _).trans hput
  · exact hput

/-- A step that touches the memtables only. -/
theorem Handing.memtables {s s' : Threads} (h : Handing s)
    (hdb : ∃ active_mem imm_mems, s'.db = { s.db with active_mem, imm_mems })
    (hflushers : s'.flushers = s.flushers) (hacked : s.acked <+: s'.acked)
    (hmems : ∀ m ∈ s'.db.active_mem :: s'.db.imm_mems, Keyed.Sorted Event.key m.nodes)
    (hnamed : ∀ p ∈ s'.acked ++ s'.appends, s'.db.symbols.lookup p.1 = some p.2.symbol_id)
    (hsub : (live (stored s')).Subperm (live (ackedEvents s')))
    (hkept : ∀ e ∈ live (ackedEvents s'), WrittenOnce s' e → e ∈ stored s') :
    Handing s' ∧ Progress s s' := by
  obtain ⟨active_mem, imm_mems, hdb⟩ := hdb
  refine ⟨⟨?_, hmems, ?_, ?_, ?_, ?_, hnamed, hsub, hkept⟩,
    ⟨fun info hinfo => ?_, fun e he => ?_, hacked, fun name id hid => ?_⟩⟩
  · rw [hdb]; exact h.opened
  · rw [hdb]; exact h.listed
  · rw [hdb, hflushers]; exact h.ready
  · rw [hflushers]; exact h.numbers
  · rw [hdb, hflushers]; exact h.unlisted
  · rw [hdb]; exact ⟨hinfo, rfl⟩
  · rw [inFlight, inFiles, hflushers, hdb]
    exact he
  · rw [hdb]
    exact hid

/-- Moving events about keeps what is said of them as a whole. -/
theorem Handing.moved {s s' : Threads} (h : Handing s) (hperm : (stored s').Perm (stored s))
    (hacked : s'.acked = s.acked) :
    (live (stored s')).Subperm (live (ackedEvents s')) ∧
      ∀ e ∈ live (ackedEvents s'), WrittenOnce s' e → e ∈ stored s' := by
  have hevents : ackedEvents s' = ackedEvents s := by rw [ackedEvents, hacked, ackedEvents]
  rw [hevents]
  refine ⟨(live_perm hperm).subperm.trans h.sub, fun e he honce => hperm.mem_iff.mpr ?_⟩
  exact h.kept e he (by rw [WrittenOnce, hevents] at honce; exact honce)

theorem rotate_handing {s : Threads} (h : Handing s) :
    Handing { s with db := s.db.rotate } ∧ Progress s { s with db := s.db.rotate } := by
  obtain ⟨active_mem, imm_mems, hrest⟩ := rotate_rest s.db
  have hperm : (stored { s with db := s.db.rotate }).Perm (stored s) := by
    have hsame : inFlight { s with db := s.db.rotate } ++ inFiles s.db.rotate =
        inFlight s ++ inFiles s.db := by
      rw [inFlight, inFiles, hrest]
      rfl
    rw [stored, hsame]
    exact (inMemtables_rotate s.db).append_right _
  obtain ⟨hsub, hkept⟩ := h.moved hperm rfl
  refine h.memtables ⟨active_mem, imm_mems, hrest⟩ rfl (List.prefix_refl _) ?_ ?_ hsub hkept
  · rcases rotate_cases s.db with heq | ⟨-, heq⟩ <;> simp only [heq]
    · exact h.mems
    · exact mems_sorted_retire h.mems
  · simp only [hrest]
    exact h.named

theorem insert_handing {s : Threads} (h : Handing s) (i : Nat) (height : Fin kMaxHeight) :
    Handing (s.insert i height) ∧ Progress s (s.insert i height) := by
  rw [Threads.insert]
  split
  · exact ⟨h, .refl s⟩
  · next symbol e hget =>
      obtain ⟨active_mem, imm_mems, hrest⟩ := mem_insert_rest e height s.db
      have hmem := List.mem_of_getElem? hget
      have hsame : inFlight { s with
            db := s.db.mem_insert e height
            appends := s.appends.eraseIdx i
            acked := s.acked ++ [(symbol, e)] } ++ inFiles (s.db.mem_insert e height) =
          inFlight s ++ inFiles s.db := by
        rw [inFlight, inFiles, hrest]
        rfl
      have hperm := inMemtables_insert (h.mems _ List.mem_cons_self) e height
      have hevents : ackedEvents { s with
            db := s.db.mem_insert e height
            appends := s.appends.eraseIdx i
            acked := s.acked ++ [(symbol, e)] } = ackedEvents s ++ [e] := by
        rw [ackedEvents, List.map_append]
        rfl
      refine h.memtables ⟨active_mem, imm_mems, hrest⟩ rfl (List.prefix_append _ _)
        (mems_sorted_insert h.mems e height) ?_ ?_ ?_
      · intro p hp
        simp only [hrest]
        refine h.named p ?_
        rcases List.mem_append.mp hp with hp | hp
        · rcases List.mem_append.mp hp with hp | hp
          · exact List.mem_append_left _ hp
          · rw [List.mem_singleton.mp hp]
            exact List.mem_append_right _ hmem
        · exact List.mem_append_right _ (List.mem_of_mem_eraseIdx hp)
      · rw [stored, hsame, hevents]
        refine (live_perm (hperm.append_right _)).subperm.trans ?_
        have hless : (s.db.active_mem.nodes.filter (·.key ≠ e.key) ++
            s.db.imm_mems.flatMap MemTable.nodes ++ (inFlight s ++ inFiles s.db)).Sublist
            (stored s) :=
          (List.filter_sublist.append_right _).append_right _
        rw [List.cons_append, ← List.singleton_append, live_append [e], live_append _ [e]]
        have hrestSub := (live_sublist hless).subperm.trans h.sub
        exact ((List.subperm_append_left _).mpr hrestSub).trans List.perm_append_comm.subperm
      · rw [stored, hsame, hevents]
        intro x hx honce
        rw [WrittenOnce, hevents, List.map_append, List.count_append, List.map_singleton] at honce
        rw [live_append, List.mem_append] at hx
        refine ((hperm.append_right _).mem_iff).mpr ?_
        rw [List.cons_append, List.append_assoc]
        by_cases hkey : x.key = e.key
        · -- an earlier write would be a second one
          have hnone : x.key ∉ (ackedEvents s).map Event.key := by
            rw [hkey, List.count_singleton_self] at honce
            rw [hkey, ← List.count_eq_zero]
            omega
          rcases hx with hx | hx
          · exact absurd (List.mem_map_of_mem (mem_live.mp hx).1) hnone
          · rw [List.mem_singleton.mp (mem_live.mp hx).1]
            exact List.mem_cons_self
        · rw [List.count_singleton, if_neg (by simpa using fun heq => hkey heq.symm)] at honce
          rcases hx with hx | hx
          · have hold := h.kept x hx honce
            refine List.mem_cons_of_mem _ ?_
            rw [stored, inMemtables, List.append_assoc] at hold
            rcases List.mem_append.mp hold with hold | hold
            · exact List.mem_append_left _ (List.mem_filter.mpr ⟨hold, decide_eq_true hkey⟩)
            · exact List.mem_append_right _ hold
          · exact absurd (congrArg Event.key (List.mem_singleton.mp (mem_live.mp hx).1)) hkey

/-! ## Steps of the flushers -/

/-- The place of the `i`-th thread in the list. -/
theorem place_of {fs : List Flusher} {i : Nat} {f : Flusher} (h : fs[i]? = some f) :
    ∃ before behind, fs = before ++ f :: behind ∧ fs.eraseIdx i = before ++ behind ∧
      ∀ f', fs.set i f' = before ++ f' :: behind := by
  obtain ⟨hi, hget⟩ := List.getElem?_eq_some_iff.mp h
  refine ⟨fs.take i, fs.drop (i + 1), ?_, List.eraseIdx_eq_take_drop_succ _ _, fun f' => ?_⟩
  · rw [← hget, List.getElem_cons_drop, List.take_append_drop]
  · rw [List.set_eq_take_append_cons_drop, if_pos hi]

theorem pop_handing {s : Threads} (h : Handing s) :
    Handing s.pop ∧ Progress s s.pop := by
  rw [Threads.pop]
  split
  · exact ⟨h, .refl s⟩
  · next mem rest himm =>
      have hsorted : ∀ m ∈ s.db.active_mem :: mem :: rest, Keyed.Sorted Event.key m.nodes :=
        himm ▸ h.mems
      have hflying : inFlight { s with
            db.imm_mems := rest
            flushers := s.flushers ++ [.popped mem] } = inFlight s ++ mem.nodes := by
        rw [inFlight, List.flatMap_append, List.flatMap_singleton]
        rfl
      have hperm : (stored { s with
            db.imm_mems := rest
            flushers := s.flushers ++ [.popped mem] }).Perm (stored s) := by
        rw [stored, hflying, stored, inMemtables, inMemtables, himm, List.flatMap_cons]
        simp only [List.append_assoc]
        refine List.Perm.append_left _ ?_
        exact ((List.perm_append_comm_assoc _ _ _).append_left _).trans
          (List.perm_append_comm_assoc _ _ _)
      obtain ⟨hsub, hkept⟩ := h.moved hperm rfl
      refine ⟨⟨h.opened, ?_, h.listed, ?_, ?_, ?_, h.named, hsub, hkept⟩,
        ⟨fun info hinfo => ⟨hinfo, rfl⟩, fun e he => ?_, List.prefix_refl _, fun _ _ hid => hid⟩⟩
      · intro m hm
        refine hsorted m ?_
        rcases List.mem_cons.mp hm with rfl | hm
        · exact List.mem_cons_self
        · exact List.mem_cons_of_mem _ (List.mem_cons_of_mem _ hm)
      · intro f hf
        rcases List.mem_append.mp hf with hf | hf
        · exact h.ready f hf
        · rw [List.mem_singleton.mp hf]
          exact hsorted mem (List.mem_cons_of_mem _ List.mem_cons_self)
      · rw [List.filterMap_append]
        exact (List.append_nil _).symm ▸ h.numbers
      · rw [List.filterMap_append]
        exact (List.append_nil _).symm ▸ h.unlisted
      · rw [hflying]
        rcases List.mem_append.mp he with he | he
        · exact List.mem_append_left _ (List.mem_append_left _ he)
        · exact List.mem_append_right _ he

section
variable {s : Threads} (h : Handing s) {i : Nat}

include h in
theorem number_handing {mem : MemTable} (hget : s.flushers[i]? = some (.popped mem)) :
    Handing (s.flush i) ∧ Progress s (s.flush i) := by
  obtain ⟨before, behind, hfs, -, hset⟩ := place_of hget
  rw [Threads.flush, hget]
  simp only [hset]
  have hready := h.ready
  have hnumbers := h.numbers
  have hunlisted := h.unlisted
  rw [hfs, List.filterMap_append, List.filterMap_cons] at hnumbers hunlisted
  simp only [Flusher.number] at hnumbers hunlisted
  have hflying : inFlight { s with
        db.sst_seq := s.db.sst_seq + 1
        flushers := before ++ .numbered mem s.db.sst_seq :: behind } = inFlight s := by
    rw [inFlight, inFlight, hfs, List.flatMap_append, List.flatMap_append, List.flatMap_cons,
      List.flatMap_cons]
    rfl
  have hperm : (stored { s with
        db.sst_seq := s.db.sst_seq + 1
        flushers := before ++ .numbered mem s.db.sst_seq :: behind }).Perm (stored s) := by
    rw [stored, hflying]
    exact .refl _
  obtain ⟨hsub, hkept⟩ := h.moved hperm rfl
  have hnew : (before ++ Flusher.numbered mem s.db.sst_seq :: behind).filterMap Flusher.number =
      before.filterMap Flusher.number ++ s.db.sst_seq :: behind.filterMap Flusher.number := by
    rw [List.filterMap_append, List.filterMap_cons]
    rfl
  refine ⟨⟨h.opened, h.mems, fun info hinfo => ?_, fun f hf => ?_, ?_, ?_, h.named, hsub, hkept⟩,
    ⟨fun info hinfo => ⟨hinfo, rfl⟩, fun e he => ?_, List.prefix_refl _, fun _ _ hid => hid⟩⟩
  · obtain ⟨htab, hlt⟩ := h.listed info hinfo
    exact ⟨htab, fun n hn => Nat.lt_succ_of_lt (hlt n hn)⟩
  · rw [hfs] at hready
    rcases List.mem_append.mp hf with hf | hf
    · exact hready f (List.mem_append_left _ hf)
    · rcases List.mem_cons.mp hf with rfl | hf
      · exact hready (.popped mem) (List.mem_append_right _ List.mem_cons_self)
      · exact hready f (List.mem_append_right _ (List.mem_cons_of_mem _ hf))
  · rw [hnew, List.perm_middle.nodup_iff, List.nodup_cons]
    exact ⟨fun hmem => Nat.lt_irrefl _ (hunlisted _ hmem).1, hnumbers⟩
  · rw [hnew]
    intro n hn
    rcases List.mem_cons.mp (List.perm_middle.mem_iff.mp hn) with rfl | hn
    · exact ⟨Nat.lt_succ_self _, fun info hinfo hpath =>
        Nat.lt_irrefl _ ((h.listed info hinfo).2 _ hpath)⟩
    · exact ⟨Nat.lt_succ_of_lt (hunlisted n hn).1, (hunlisted n hn).2⟩
  · rw [hflying]
    exact he

include h in
/-- An empty memtable gets no file. -/
theorem skip_handing {mem : MemTable} {seq : Nat} (hget : s.flushers[i]? = some (.numbered mem seq))
    (hempty : mem.empty = true) : Handing (s.flush i) ∧ Progress s (s.flush i) := by
  obtain ⟨before, behind, hfs, herase, -⟩ := place_of hget
  rw [Threads.flush, hget]
  simp only [if_pos hempty, herase]
  rw [MemTable.empty, List.isEmpty_iff] at hempty
  have hflying : inFlight { s with flushers := before ++ behind } = inFlight s := by
    rw [inFlight, inFlight, hfs, List.flatMap_append, List.flatMap_append, List.flatMap_cons,
      Flusher.events, hempty]
    rfl
  have hsublist : (before ++ behind).Sublist s.flushers := by
    rw [hfs]
    exact (List.Sublist.refl before).append (List.sublist_cons_self _ _)
  have hperm : (stored { s with flushers := before ++ behind }).Perm (stored s) := by
    rw [stored, hflying]
    exact .refl _
  obtain ⟨hsub, hkept⟩ := h.moved hperm rfl
  refine ⟨⟨h.opened, h.mems, h.listed, fun f hf => h.ready f (hsublist.subset hf),
      h.numbers.sublist (hsublist.filterMap _),
      fun n hn => h.unlisted n ((hsublist.filterMap _).subset hn), h.named, hsub, hkept⟩,
    ⟨fun info hinfo => ⟨hinfo, rfl⟩, fun e he => ?_, List.prefix_refl _, fun _ _ hid => hid⟩⟩
  rw [hflying]
  exact he

include h in
/-- What the other threads hold is not touched by writing a file. -/
theorem other_ready {before behind : List Flusher} {mem : MemTable} {seq : Nat}
    (hfs : s.flushers = before ++ .numbered mem seq :: behind) (file : SSTableFile) {f : Flusher}
    (hf : f ∈ before ++ behind) :
    f.Ready (s.db.disk.ssts.insert (DB.flush_path seq) file) ∧
      f.events (s.db.disk.ssts.insert (DB.flush_path seq) file) = f.events s.db.disk.ssts := by
  have hready : f.Ready s.db.disk.ssts := h.ready f (by
    rw [hfs]
    exact List.perm_middle.symm.subset (List.mem_cons_of_mem _ hf))
  have hnumbers := h.numbers
  rw [hfs, List.filterMap_append, List.filterMap_cons] at hnumbers
  have hother : seq ∉ (before ++ behind).filterMap Flusher.number := by
    rw [List.filterMap_append]
    exact (List.nodup_cons.mp (List.perm_middle.nodup_iff.mp hnumbers)).1
  cases f with
  | popped mem => exact ⟨hready, rfl⟩
  | numbered mem seq => exact ⟨hready, rfl⟩
  | written info =>
      obtain ⟨htab, hpath⟩ := hready
      have hne : info.path ≠ DB.flush_path seq := by
        intro heq
        refine hother (List.mem_filterMap.mpr ⟨_, hf, ?_⟩)
        rw [Flusher.number, flush_path_inj (hpath.symm.trans heq)]
      have hevents : fileEvents (s.db.disk.ssts.insert (DB.flush_path seq) file) info =
          fileEvents s.db.disk.ssts info := fileEvents_insert_ne hne file
      exact ⟨⟨hevents ▸ htab.insert_ne hne file, hpath⟩, hevents⟩

include h in
theorem write_handing {mem : MemTable} {seq : Nat}
    (hget : s.flushers[i]? = some (.numbered mem seq)) (hempty : mem.empty ≠ true) :
    Handing (s.flush i) ∧ Progress s (s.flush i) := by
  obtain ⟨before, behind, hfs, -, hset⟩ := place_of hget
  have hsorted : Keyed.Sorted Event.key mem.nodes := h.ready _ (List.mem_of_getElem? hget)
  have hunlisted := (h.unlisted seq (List.mem_filterMap.mpr ⟨_, List.mem_of_getElem? hget, rfl⟩))
  have hothers := fun f hf => other_ready h hfs (.finished (SSTable.write 0 seq mem.nodes)) (f := f) hf
  have hwritten := Tabled.written s.db.disk.ssts (DB.flush_path seq) 0 seq hsorted
  have hfiles : ∀ info ∈ files_to_scan s.db.levels,
      fileEvents (s.db.disk.ssts.insert (DB.flush_path seq)
        (.finished (SSTable.write 0 seq mem.nodes))) info = fileEvents s.db.disk.ssts info :=
    fun info hinfo => fileEvents_insert_ne (hunlisted.2 info hinfo) _
  rw [Threads.flush, hget]
  simp only [if_neg hempty, hset]
  generalize hs' : ({ s with
      db := s.db.write_table (DB.flush_path seq) (SSTable.write 0 seq mem.to_sorted_events)
      flushers := before ++ .written ⟨DB.flush_path seq,
        (SSTable.write 0 seq mem.to_sorted_events).meta_⟩ :: behind } : Threads) = s'
  have hssts : s'.db.disk.ssts = s.db.disk.ssts.insert (DB.flush_path seq)
      (.finished (SSTable.write 0 seq mem.nodes)) := by rw [← hs']; rfl
  have hfs' : s'.flushers = before ++ .written ⟨DB.flush_path seq,
      (SSTable.write 0 seq mem.nodes).meta_⟩ :: behind := by rw [← hs']; rfl
  have hflying : inFlight s' = inFlight s := by
    rw [inFlight, inFlight, hfs, hfs', hssts, List.flatMap_append, List.flatMap_append,
      List.flatMap_cons, List.flatMap_cons,
      List.flatMap_congr fun f hf => (hothers f (List.mem_append_left _ hf)).2,
      List.flatMap_congr fun f hf => (hothers f (List.mem_append_right _ hf)).2]
    exact congrArg (fun l => _ ++ (l ++ _)) hwritten.events_eq
  have hlisted : inFiles s'.db = inFiles s.db := by
    rw [inFiles, inFiles, hssts, show s'.db.levels = s.db.levels by rw [← hs']; rfl,
      List.flatMap_congr hfiles]
  have hnumbers : s'.flushers.filterMap Flusher.number =
      s.flushers.filterMap Flusher.number := by
    rw [hfs', hfs, List.filterMap_append, List.filterMap_append, List.filterMap_cons,
      List.filterMap_cons]
    rfl
  have hrest : s'.db.active_mem = s.db.active_mem ∧ s'.db.imm_mems = s.db.imm_mems ∧
      s'.db.levels = s.db.levels ∧ s'.db.sst_seq = s.db.sst_seq ∧ s'.acked = s.acked ∧
      s'.appends = s.appends ∧ s'.db.symbols = s.db.symbols ∧ s'.db.closed = s.db.closed := by
    rw [← hs']
    exact ⟨rfl, rfl, rfl, rfl, rfl, rfl, rfl, rfl⟩
  obtain ⟨hactive, himm, hlevels, hseq, hacked, happends, hsymbols, hclosed⟩ := hrest
  have hperm : (stored s').Perm (stored s) := by
    rw [stored, hflying, hlisted, inMemtables, hactive, himm]
    exact .refl _
  obtain ⟨hsub, hkept⟩ := h.moved hperm hacked
  refine ⟨⟨hclosed.trans h.opened, ?_, fun info hinfo => ?_, fun f hf => ?_, ?_, ?_, ?_, hsub, hkept⟩,
    ⟨fun info hinfo => ?_, fun e he => ?_, ?_, fun name id hid => hsymbols ▸ hid⟩⟩
  · rw [hactive, himm]; exact h.mems
  · rw [hlevels] at hinfo
    obtain ⟨htab, hlt⟩ := h.listed info hinfo
    rw [hssts, hfiles info hinfo, hseq]
    exact ⟨htab.insert_ne (hunlisted.2 info hinfo) _, hlt⟩
  · rw [hssts]
    rw [hfs'] at hf
    rcases List.mem_cons.mp (List.perm_middle.subset hf) with rfl | hf
    · exact ⟨hwritten.own, rfl⟩
    · exact (hothers f hf).1
  · rw [hnumbers]; exact h.numbers
  · rw [hnumbers, hseq, hlevels]; exact h.unlisted
  · rw [hacked, happends, hsymbols]; exact h.named
  · rw [hlevels, hssts]
    exact ⟨hinfo, hfiles info hinfo⟩
  · rw [hflying, hlisted]
    exact he
  · rw [hacked]

theorem files_to_scan_push (levels : Levels) (info : SSTableInfo) :
    (files_to_scan (Function.update levels 0 (levels 0 ++ [info]))).Perm
      (info :: files_to_scan levels) := by
  rw [files_to_scan_eq, files_to_scan_eq, Function.update_self,
    Function.update_of_ne (by decide), Function.update_of_ne (by decide),
    Function.update_of_ne (by decide), List.append_assoc, List.singleton_append]
  exact List.perm_middle

include h in
theorem publish_handing {info : SSTableInfo} (hget : s.flushers[i]? = some (.written info)) :
    Handing (s.flush i) ∧ Progress s (s.flush i) := by
  obtain ⟨before, behind, hfs, herase, -⟩ := place_of hget
  obtain ⟨htab, hpath⟩ := h.ready _ (List.mem_of_getElem? hget)
  have hmine := h.unlisted info.meta_.sequence
    (List.mem_filterMap.mpr ⟨_, List.mem_of_getElem? hget, rfl⟩)
  have hnumbers := h.numbers
  rw [hfs, List.filterMap_append, List.filterMap_cons] at hnumbers
  obtain ⟨hother, hnodup⟩ := List.nodup_cons.mp (List.perm_middle.nodup_iff.mp hnumbers)
  rw [← List.filterMap_append] at hother hnodup
  have hsublist : (before ++ behind).Sublist s.flushers := by
    rw [hfs]
    exact (List.Sublist.refl before).append (List.sublist_cons_self _ _)
  have hfiles := files_to_scan_push s.db.levels info
  rw [Threads.flush, hget]
  simp only [herase]
  have hsettled : (inFlight { s with
        db.levels := Function.update s.db.levels 0 (s.db.levels 0 ++ [info])
        flushers := before ++ behind } ++
      inFiles { s.db with levels := Function.update s.db.levels 0 (s.db.levels 0 ++ [info]) }).Perm
      (inFlight s ++ inFiles s.db) := by
    rw [inFlight, inFlight, hfs, inFiles, inFiles]
    refine ((hfiles.flatMap_right _).append_left _).trans ?_
    rw [List.flatMap_cons, List.flatMap_append, List.flatMap_append, List.flatMap_cons,
      List.append_assoc, List.append_assoc, List.append_assoc]
    exact (List.perm_append_comm_assoc _ _ _).append_left _
  have hperm : (stored { s with
        db.levels := Function.update s.db.levels 0 (s.db.levels 0 ++ [info])
        flushers := before ++ behind }).Perm (stored s) := hsettled.append_left _
  obtain ⟨hsub, hkept⟩ := h.moved hperm rfl
  refine ⟨⟨h.opened, h.mems, fun i hi => ?_, fun f hf => h.ready f (hsublist.subset hf), hnodup,
      fun n hn => ⟨(h.unlisted n ((hsublist.filterMap _).subset hn)).1, fun i hi => ?_⟩, h.named,
      hsub, hkept⟩,
    ⟨fun i hi => ⟨hfiles.symm.subset (List.mem_cons_of_mem _ hi), rfl⟩,
      fun e he => hsettled.symm.subset he, List.prefix_refl _, fun _ _ hid => hid⟩⟩
  · rcases List.mem_cons.mp (hfiles.subset hi) with rfl | hi
    · refine ⟨htab, fun n hn => ?_⟩
      rw [← flush_path_inj (hpath.symm.trans hn)]
      exact hmine.1
    · exact h.listed i hi
  · rcases List.mem_cons.mp (hfiles.subset hi) with rfl | hi
    · intro hsame
      rw [← flush_path_inj (hpath.symm.trans hsame)] at hn
      exact hother hn
    · exact (h.unlisted n ((hsublist.filterMap _).subset hn)).2 i hi

include h in
theorem flush_handing : Handing (s.flush i) ∧ Progress s (s.flush i) := by
  cases hget : s.flushers[i]? with
  | none =>
      rw [Threads.flush, hget]
      exact ⟨h, .refl s⟩
  | some f =>
      cases f with
      | popped mem => exact number_handing h hget
      | numbered mem seq =>
          by_cases hempty : mem.empty = true
          · exact skip_handing h hget hempty
          · exact write_handing h hget hempty
      | written info => exact publish_handing h hget

end

/-! ## Runs -/

/-- A step of an append or of a flushing thread. -/
def Background : Act → Prop
  | .compact => False
  | .query => False
  | _ => True

theorem background_handing (req : QueryRequest) {s : Threads} (h : Handing s) {a : Act}
    (ha : Background a) : Handing (s.act req a) ∧ Progress s (s.act req a) ∧
      (s.act req a).query = s.query := by
  have hquery : (s.act req a).query = s.query :=
    act_query req s fun heq => by rw [heq] at ha; exact ha
  rw [← and_assoc]
  refine ⟨?_, hquery⟩
  cases a with
  | begin_append symbol args => exact begin_append_handing h symbol args
  | insert i height => exact insert_handing h i height
  | rotate => exact rotate_handing h
  | pop => exact pop_handing h
  | flush i => exact flush_handing h
  | compact => exact ha.elim
  | query => exact ha.elim

theorem run_handing (req : QueryRequest) {s : Threads} (h : Handing s) {acts : List Act}
    (hacts : ∀ a ∈ acts, Background a) : Handing (run req s acts) ∧ Progress s (run req s acts) ∧
      (run req s acts).query = s.query := by
  induction acts generalizing s with
  | nil => exact ⟨h, .refl s, rfl⟩
  | cons a acts ih =>
      obtain ⟨hh, hp, hq⟩ := background_handing req h (hacts a List.mem_cons_self)
      obtain ⟨hh', hp', hq'⟩ := ih hh fun a ha => hacts a (List.mem_cons_of_mem _ ha)
      exact ⟨hh', hp.trans hp', hq'.trans hq⟩

/-- A step of the query moves nothing. -/
theorem query_handing (req : QueryRequest) {s : Threads} (h : Handing s) :
    Handing (s.act req .query) ∧ Progress s (s.act req .query) :=
  ⟨⟨h.opened, h.mems, h.listed, h.ready, h.numbers, h.unlisted, h.named, h.sub, h.kept⟩,
    ⟨fun _ hinfo => ⟨hinfo, rfl⟩, fun _ he => he, List.prefix_refl _, fun _ _ hid => hid⟩⟩

end Kronos
