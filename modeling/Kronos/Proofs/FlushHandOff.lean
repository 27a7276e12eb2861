import Kronos.Proofs.Handing

/-!
# A query beside flushing threads

A memtable leaves `imm_mems_` before its file enters `levels_[0]`, and a query
looks at the one and then at the other. So the query misses an event that was
in flight at both its looks, and sees an event twice that was in a memtable at
the first and in a file at the second. All other events it sees once.
-/

namespace Kronos

open Spec

/-! ## What the query returns -/

section
variable {req : QueryRequest} {sym_id : UInt32}

/-- Where the query is after its snapshot in state `at_`, if `mem` is what it got
from the memtables. -/
inductive Scanning (req : QueryRequest) (sym_id : UInt32) (mem : List Event) (at_ : Threads) :
    Querying → Prop where
  | listed {c : Collecting} {seen left : List SSTableInfo}
      (hfiles : seen ++ left = files_to_scan at_.db.levels)
      (hgot : Got req c (covered req sym_id
        (mem ++ seen.flatMap (fileEvents at_.db.disk.ssts)))) :
      Scanning req sym_id mem at_ (.listed sym_id c left)
  | returned {c : Collecting}
      (hgot : Got req c (covered req sym_id (mem ++ inFiles at_.db))) :
      Scanning req sym_id mem at_ (.returned { c.result with ok := true })

theorem scanning_step {mem : List Event} {at_ s : Threads} (h : Handing s) (hp : Progress at_ s)
    (hs : Scanning req sym_id mem at_ s.query) :
    Scanning req sym_id mem at_ (s.act req .query).query := by
  rw [Threads.act]
  cases hq : s.query <;> rw [hq] at hs <;> cases hs
  · next c left seen hgot hfiles =>
      cases left with
      | nil =>
          rw [List.append_nil] at hfiles
          rw [hfiles] at hgot
          exact .returned hgot
      | cons info left =>
          have hinfo : info ∈ files_to_scan at_.db.levels :=
            hfiles ▸ List.mem_append_right _ List.mem_cons_self
          obtain ⟨hlisted, hevents⟩ := hp.files info hinfo
          have htab := (h.listed info hlisted).1
          have hseen : (seen ++ [info]) ++ left = files_to_scan at_.db.levels := by
            rw [List.append_assoc]; exact hfiles
          refine .listed hseen ?_
          have hfile := hgot.file sym_id htab.ordered
          rw [htab.delivers, hevents] at hfile
          rw [List.flatMap_append, List.flatMap_singleton, ← List.append_assoc, covered,
            List.filter_append]
          exact hfile
  · next c hgot => exact .returned hgot

/-- The steps the query still has to make. -/
def toGo : Querying → Nat
  | .listed _ _ left => left.length + 1
  | _ => 0

theorem scanning_run {mem : List Event} {at_ s : Threads} (h : Handing s) (hp : Progress at_ s)
    (hs : Scanning req sym_id mem at_ s.query) {acts : List Act}
    (hacts : ∀ a ∈ acts, a ≠ .compact) :
    Scanning req sym_id mem at_ (run req s acts).query ∧
      toGo (run req s acts).query ≤ toGo s.query - acts.countP isQuery := by
  induction acts generalizing s with
  | nil => exact ⟨hs, Nat.le_refl _⟩
  | cons a acts ih =>
      have hrest := fun b hb => hacts b (List.mem_cons_of_mem a hb)
      by_cases ha : a = .query
      · subst ha
        obtain ⟨hh, hp'⟩ := query_handing req h
        have hstep := scanning_step h hp hs
        have hgo : toGo (s.act req .query).query ≤ toGo s.query - 1 := by
          rw [Threads.act]
          generalize s.query = q at hs
          cases hs with
          | @listed c seen left hfiles hgot => cases left <;> exact Nat.le_refl _
          | returned hgot => exact Nat.le_refl _
        obtain ⟨hend, hle⟩ := ih hh (hp.trans hp') hstep hrest
        refine ⟨hend, hle.trans ?_⟩
        rw [List.countP_cons_of_pos (by rfl)]
        omega
      · have hback : Background a := by
          cases a with
          | compact => exact absurd rfl (hacts _ List.mem_cons_self)
          | query => exact absurd rfl ha
          | _ => trivial
        obtain ⟨hh, hp', hq⟩ := background_handing req h hback
        obtain ⟨hend, hle⟩ := ih hh (hp.trans hp') (hq ▸ hs) hrest
        refine ⟨hend, hle.trans ?_⟩
        have hnot : isQuery a = false := by
          cases a <;> first | rfl | exact absurd rfl ha
        rw [hq, List.countP_cons_of_neg (by rw [hnot]; exact Bool.false_ne_true)]

end

/-! ## Counting -/

theorem count_acked_le_one {s : Threads} {e : Event} (h : WrittenOnce s e) :
    (live (ackedEvents s)).count e ≤ 1 :=
  (List.filter_sublist.count_le e).trans ((List.count_le_count_map).trans h.le)

theorem WrittenOnce.back {s s' : Threads} {e : Event} (h : WrittenOnce s' e)
    (hacked : s.acked <+: s'.acked) (he : e ∈ ackedEvents s) : WrittenOnce s e := by
  have hpos : 0 < ((ackedEvents s).map Event.key).count e.key :=
    List.count_pos_iff.mpr (List.mem_map_of_mem he)
  have hle : ((ackedEvents s).map Event.key).count e.key ≤ 1 :=
    (((hacked.map Prod.snd).map Event.key).sublist.count_le e.key).trans h.le
  rw [WrittenOnce]
  omega

/-- What is written once is in exactly one place, once. -/
theorem Handing.one_place {s : Threads} (h : Handing s) {e : Event} (he : e ∈ live (ackedEvents s))
    (honce : WrittenOnce s e) :
    (inMemtables s.db).count e + ((inFlight s).count e + (inFiles s.db).count e) = 1 := by
  rw [← List.count_append, ← List.count_append]
  change (stored s).count e = 1
  have hpos := List.count_pos_iff.mpr (h.kept e he honce)
  have hlive : (live (stored s)).count e = (stored s).count e := count_live (mem_live.mp he).2
  have hle := h.sub.count_le e
  have := count_acked_le_one honce
  omega

/-- In flight at both looks of the query, so seen at neither. -/
def Gap (mem list : Threads) (e : Event) : Prop := e ∈ inFlight mem ∧ e ∈ inFlight list

/-- Seen at both looks. -/
def Overlap (mem list : Threads) (e : Event) : Prop := e ∈ inMemtables mem.db ∧ e ∈ inFiles list.db

/-- Between the two looks an event that is written once moves on or stays. -/
theorem seen_once_iff {mem list : Threads} (hmem : Handing mem) (hlist : Handing list)
    (hp : Progress mem list) {e : Event} (he : e ∈ live (ackedEvents mem))
    (honce : WrittenOnce list e) :
    (inMemtables mem.db ++ inFiles list.db).count e = 1 ↔
      ¬ Gap mem list e ∧ ¬ Overlap mem list e := by
  have hacked : e ∈ live (ackedEvents list) :=
    (live_sublist (hp.acked.map Prod.snd).sublist).subset he
  have hone := hmem.one_place he (honce.back hp.acked (mem_live.mp he).1)
  have hone' := hlist.one_place hacked honce
  have hsettled : 0 < (inFlight mem).count e + (inFiles mem.db).count e →
      0 < (inFlight list).count e + (inFiles list.db).count e := by
    rw [← List.count_append, ← List.count_append, List.count_pos_iff, List.count_pos_iff]
    exact hp.settled e
  have hfiles : 0 < (inFiles mem.db).count e → 0 < (inFiles list.db).count e := by
    rw [List.count_pos_iff, List.count_pos_iff]
    intro hmem
    obtain ⟨info, hinfo, hevent⟩ := List.mem_flatMap.mp hmem
    obtain ⟨hlisted, hevents⟩ := hp.files info hinfo
    exact List.mem_flatMap.mpr ⟨info, hlisted, hevents ▸ hevent⟩
  rw [Gap, Overlap, ← List.count_pos_iff, ← List.count_pos_iff, ← List.count_pos_iff,
    ← List.count_pos_iff, List.count_append]
  omega

/-- How many of the appends so far match. -/
def matchCount (req : QueryRequest) (s : Threads) : Nat := ((ackedEvents s).filter (Wanted req s)).length

/-- What lies in one place matches at most as often as was appended. -/
theorem wanted_subperm (req : QueryRequest) {s list : Threads} (h : Handing s)
    (hp : Progress s list) {l : List Event} (hl : l.Sublist (stored s)) :
    (l.filter (Wanted req list)).Subperm ((ackedEvents list).filter (Wanted req list)) := by
  rw [← filter_wanted, ← filter_wanted req list (ackedEvents list)]
  refine List.Subperm.filter _ ?_
  exact ((live_sublist hl).subperm.trans h.sub).trans
    (live_sublist (hp.acked.map Prod.snd).sublist).subperm

section
variable {req : QueryRequest} {mem list : Threads} (hmem : Handing mem) (hlist : Handing list)
  (hp : Progress mem list)

include hmem hlist hp in
/-- No more rows than matches, unless something was seen twice. -/
theorem rows_le (hoverlap : ∀ e, Wanted req list e = true → ¬ Overlap mem list e) :
    ((inMemtables mem.db ++ inFiles list.db).filter (Wanted req list)).length ≤
      matchCount req list := by
  refine (List.subperm_ext_iff.mpr fun e he => ?_).length_le
  have hwanted := (List.mem_filter.mp he).2
  have hleft := (wanted_subperm req hmem hp
    (List.sublist_append_left (inMemtables mem.db) _)).count_le e
  have hright := (wanted_subperm req hlist (.refl list)
    ((List.sublist_append_right (inFlight list) (inFiles list.db)).trans
      (List.sublist_append_right _ _))).count_le e
  have hnot := hoverlap e hwanted
  rw [Overlap, ← List.count_pos_iff, ← List.count_pos_iff] at hnot
  rw [List.filter_append, List.count_append]
  simp only [List.count_filter hwanted] at hleft hright ⊢
  omega

include hmem hlist hp in
theorem rows_le_twice :
    ((inMemtables mem.db ++ inFiles list.db).filter (Wanted req list)).length ≤
      2 * matchCount req list := by
  have hleft := (wanted_subperm req hmem hp
    (List.sublist_append_left (inMemtables mem.db) _)).length_le
  have hright := (wanted_subperm req hlist (.refl list)
    ((List.sublist_append_right (inFlight list) (inFiles list.db)).trans
      (List.sublist_append_right _ _))).length_le
  rw [List.filter_append, List.length_append, matchCount]
  omega

end

/-! ## A whole query -/

theorem started_handing {t : Tracked} (h : Refines t) : Handing (started t) := by
  have hstored : stored (started t) = visible t.db := by
    rw [stored, inMemtables, inFlight, inFiles, visible, buriedEvents, List.append_assoc]
    rfl
  have hevents : ackedEvents (started t) = refEvents t.ref := by
    rw [ackedEvents, started, List.map_map]
    rfl
  refine ⟨h.opened, h.filed.mems, fun info hinfo => ?_, fun f hf => ?_, List.nodup_nil,
    fun n hn => ?_, fun p hp => ?_, ?_, fun e he _ => ?_⟩
  · rcases h.filed.mem_files.mp hinfo with hinfo | hinfo
    · obtain ⟨htab, hpath, hlt⟩ := h.filed.l0 info hinfo
      exact ⟨htab, fun n hn => flush_path_inj (hpath.symm.trans hn) ▸ hlt⟩
    · refine ⟨h.l1 info hinfo, fun n hn => ?_⟩
      rw [h.filed.l1_paths info hinfo] at hn
      cases hn
  · cases hf
  · cases hn
  · rw [show (started t).appends = [] from rfl, List.append_nil] at hp
    obtain ⟨entry, hentry, rfl⟩ := List.mem_map.mp hp
    exact (h.named.entry entry hentry).1
  · rw [hstored, hevents]
    exact h.rows.subperm
  · rw [hevents] at he
    rw [hstored]
    exact (mem_live.mp (h.rows.symm.subset he)).1

section
variable (req : QueryRequest) {begun : Threads} (hbegun : Handing begun)
  {toMem toList rest : List Act} (htoMem : ∀ a ∈ toMem, Background a)
  (htoList : ∀ a ∈ toList, Background a) (hrest : ∀ a ∈ rest, a ≠ .compact)

/-- The state at the first look of a query that begins in `begun`. -/
def atMem (req : QueryRequest) (begun : Threads) (toMem : List Act) : Threads :=
  run req (begun.act req .query) toMem

/-- The state at the second. -/
def atList (req : QueryRequest) (begun : Threads) (toMem toList : List Act) : Threads :=
  run req ((atMem req begun toMem).act req .query) toList

include hbegun htoMem in
theorem atMem_handing : Handing (atMem req begun toMem) ∧ Progress begun (atMem req begun toMem) ∧
    (atMem req begun toMem).query = begun.query.next req begun.db := by
  obtain ⟨hh, hp⟩ := query_handing req hbegun
  obtain ⟨hh', hp', hq⟩ := run_handing req hh htoMem
  exact ⟨hh', hp.trans hp', hq⟩

include hbegun htoMem htoList in
theorem atList_handing : Handing (atList req begun toMem toList) ∧
    Progress (atMem req begun toMem) (atList req begun toMem toList) ∧
    (atList req begun toMem toList).query =
      (atMem req begun toMem).query.next req (atMem req begun toMem).db :=
  atMem_handing req (atMem_handing req hbegun htoMem).1 htoList

include hbegun htoMem htoList hrest in
/-- A query that makes a step for every listed file and one more returns what lay
in the memtables at its first look and in the files at its second. -/
theorem returned_rows (hidle : begun.query = .idle) {sym_id : UInt32}
    (hsym : begun.db.symbols.lookup req.symbol = some sym_id)
    (hsteps : (files_to_scan (atList req begun toMem toList).db.levels).length <
      rest.countP isQuery) :
    ∃ c, (run req ((atList req begun toMem toList).act req .query) rest).query =
        .returned { c.result with ok := true } ∧
      Got req c (covered req sym_id
        (inMemtables (atMem req begun toMem).db ++
          inFiles (atList req begun toMem toList).db)) := by
  obtain ⟨hmem, -, hlooked⟩ := atMem_handing req hbegun htoMem
  obtain ⟨hlist, -, hscanned⟩ := atList_handing req hbegun htoMem htoList
  obtain ⟨hlisted, hp⟩ := query_handing req hlist
  rw [hidle, next_idle hbegun.opened hsym] at hlooked
  rw [hlooked, Querying.next] at hscanned
  have hscanning : Scanning req sym_id (inMemtables (atMem req begun toMem).db)
      (atList req begun toMem toList) ((atList req begun toMem toList).act req .query).query := by
    rw [Threads.act, hscanned]
    refine .listed (List.nil_append _) ?_
    rw [List.flatMap_nil, List.append_nil]
    exact got_memtables hmem.mems
  have hgo : toGo ((atList req begun toMem toList).act req .query).query ≤
      rest.countP isQuery := by
    rw [Threads.act, hscanned]
    exact hsteps
  obtain ⟨hend, hle⟩ := scanning_run hlisted hp hscanning hrest
  generalize (run req ((atList req begun toMem toList).act req .query) rest).query = q at hend hle
  cases hend with
  | @listed _ _ left hfiles hgot =>
      have hleft : left.length + 1 ≤
          toGo ((atList req begun toMem toList).act req .query).query - rest.countP isQuery := hle
      omega
  | returned hgot => exact ⟨_, rfl, hgot⟩

end

/-- A query beside appends and flushing threads, over a database that is read
right before. An event of an append that is through when the query begins, and
that nothing else is written over, is returned exactly once if it was not in
flight at both looks and no matching event was in a memtable at the first and
in a file at the second. With room for rows seen twice, it is returned exactly
once only then. -/
theorem flush_handoff (cfg : DBConfig) (calls : List Call)
    (hclear : Run.Along exec Clear (openEmpty cfg) calls) (req : QueryRequest)
    {before toMem toList rest : List Act} (hbefore : ∀ a ∈ before, Background a)
    (htoMem : ∀ a ∈ toMem, Background a) (htoList : ∀ a ∈ toList, Background a)
    (hrest : ∀ a ∈ rest, a ≠ .compact) :
    let begun := run req (started (calls.foldl exec (openEmpty cfg))) before
    let mem := atMem req begun toMem
    let list := atList req begun toMem toList
    (files_to_scan list.db.levels).length < rest.countP isQuery →
    ∃ r, (run req (list.act req .query) rest).query = .returned r ∧ r.ok = true ∧
      ∀ e, (req.symbol, e) ∈ begun.acked → Wanted req list e = true → WrittenOnce list e →
        (matchCount req list < req.limit.toNat →
          (∀ x, Wanted req list x = true → ¬ Overlap mem list x) → ¬ Gap mem list e →
            r.rows.count e = 1) ∧
        (2 * matchCount req list < req.limit.toNat →
          (r.rows.count e = 1 ↔ ¬ Gap mem list e ∧ ¬ Overlap mem list e)) := by
  intro begun mem list hsteps
  have hstart : Handing (started (calls.foldl exec (openEmpty cfg))) :=
    started_handing (hclear.invariant exec_refines (openEmpty_refines cfg))
  obtain ⟨hbegun, -, hidle⟩ := run_handing req hstart hbefore
  obtain ⟨hmem, hpMem, hqMem⟩ := atMem_handing req hbegun htoMem
  obtain ⟨hlist, hpList, hqList⟩ := atList_handing req hbegun htoMem htoList
  cases hsym : begun.db.symbols.lookup req.symbol with
  | none =>
      have hunknown : mem.query = .returned {} := by
        rw [hqMem, hidle]
        exact next_unknown hbegun.opened hsym
      rw [hunknown, Querying.next] at hqList
      refine ⟨{}, ?_, rfl, fun e hacked => ?_⟩
      · refine returned_run ?_ rest
        rw [Threads.act, hqList, Querying.next]
      · have hknown := hbegun.named _ (List.mem_append_left _ hacked)
        rw [hsym] at hknown
        cases hknown
  | some sym_id =>
      obtain ⟨c, hr, hgot⟩ := returned_rows req hbegun htoMem htoList hrest hidle hsym hsteps
      have hsymList : list.db.symbols.lookup req.symbol = some sym_id :=
        (hpMem.trans hpList).symbols _ _ hsym
      refine ⟨_, hr, rfl, fun e hacked hwanted honce => ?_⟩
      have hcount : ((inMemtables mem.db ++ inFiles list.db).filter (Wanted req list)).length <
          req.limit.toNat →
          c.result.rows.count e = (inMemtables mem.db ++ inFiles list.db).count e := by
        intro hroom
        rw [← wanted_eq hsymList] at hroom
        rw [hgot.all hroom, wanted_eq hsymList, List.count_filter hwanted]
      have hlive : e ∈ live (ackedEvents mem) :=
        mem_live.mpr ⟨(hpMem.acked.map Prod.snd).subset (List.mem_map_of_mem hacked),
          wanted_live hwanted⟩
      have honceIff := seen_once_iff hmem hlist hpList hlive honce
      constructor
      · intro hlimit hoverlap hgap
        exact (hcount ((rows_le hmem hlist hpList hoverlap).trans_lt hlimit)).trans
          (honceIff.mpr ⟨hgap, hoverlap e hwanted⟩)
      · intro hlimit
        rw [← honceIff, ← hcount ((rows_le_twice hmem hlist hpList).trans_lt hlimit)]

/-- One event in a file, one in the memtable. -/
def halfHanded : List Call :=
  [.append [65] {} 0, .flush_now, .append [65] { timestamp_ns := 5 } 0]

/-- The memtable is taken off the queue and its file gets a number before the query
looks at the memtables, with another append beside it. -/
def handedFirst : List Act := [.begin_append [65] { timestamp_ns := 9 }, .pop, .flush 0, .insert 0 0]

/-- The file is written and listed before the query looks at the levels. -/
def handedThen : List Act := [.flush 0, .flush 0]

/-- The event that is handed over is in flight at the first look, and in a file at the second. -/
theorem flush_handoff_flushed :
    ∃ r, (run { symbol := [65] } (started (halfHanded.foldl exec (openEmpty {})))
        ([.rotate, .query] ++ handedFirst ++ [.query] ++ handedThen ++
          [.query, .query, .query, .query])).query = .returned r ∧
      r.rows.count { symbol_id := 1, sequence_id := 2, timestamp_ns := 5 } = 1 := by
  have hbefore : ∀ a ∈ [Act.rotate], Background a := by simp [Background]
  have hfirst : ∀ a ∈ handedFirst, Background a := by simp [handedFirst, Background]
  have hthen : ∀ a ∈ handedThen, Background a := by simp [handedThen, Background]
  have hrest : ∀ a ∈ [Act.query, .query, .query], a ≠ .compact := by simp
  have hclear : Run.Along exec Clear (openEmpty {}) halfHanded :=
    ⟨⟨fun _ _ => nofun, by decide⟩, trivial, ⟨fun h => absurd h (by decide), by decide⟩, trivial⟩
  obtain ⟨r, hr, -, hrows⟩ := flush_handoff {} halfHanded hclear { symbol := [65] } hbefore hfirst
    hthen hrest (by decide)
  have hacked : ([65], { symbol_id := 1, sequence_id := 2, timestamp_ns := 5 }) ∈
      (run { symbol := [65] } (started (halfHanded.foldl exec (openEmpty {}))) [.rotate]).acked := by
    decide
  refine ⟨r, hr, (hrows _ hacked (by decide) rfl).1 (by decide) ?_ ?_⟩
  · rintro x - ⟨hmem, hfile⟩
    obtain rfl := List.mem_singleton.mp hmem
    revert hfile
    decide
  · exact fun hgap => List.not_mem_nil hgap.2

/-! ## A query between the two -/

/-- The memtable of an append that is through is with a flushing thread. -/
def handedOver : Threads :=
  run { symbol := [65] } (started ([Call.append [65] {} 0].foldl exec (openEmpty {})))
    [.rotate, .pop]

/-- A query that runs now answers without its event. -/
theorem handed_over_missed :
    ([65], { symbol_id := 1, sequence_id := 1 }) ∈ handedOver.acked ∧
      matchCount { symbol := [65] } handedOver < 1000 ∧
      ∃ r, (run { symbol := [65], limit := 1000 } handedOver
          [.query, .query, .query, .query]).query = .returned r ∧
        r.ok = true ∧ r.rows.count { symbol_id := 1, sequence_id := 1 } = 0 :=
  ⟨List.mem_singleton.mpr rfl, by decide, {}, rfl, rfl, rfl⟩

end Kronos
