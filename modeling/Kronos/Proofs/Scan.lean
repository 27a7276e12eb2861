import Kronos.Ref.Query

/-!
# A query is a filter over its sources

Every source delivers its events in the key range one after the other to a
callback that may stop it. What the callback collects depends only on the
events delivered: they are filtered, appended, and cut at the row limit, and
the callback stops exactly when the limit is reached. So the rows of a query
are the wanted events of all sources laid end to end, cut at the limit.
-/

namespace Kronos

/-- The events a query's callback keeps. -/
def QueryRequest.wants (req : QueryRequest) (e : Event) : Bool :=
  e.event_type ≠ .Tombstone ∧ (req.event_type = none ∨ req.event_type = some e.event_type)

def inRange (start end_ : Key) (e : Event) : Bool := start ≤ e.key ∧ e.key ≤ end_

/-! ## Sources feed their range -/

section
variable {σ : Type} {start end_ : Key} (cb : Callback σ)

theorem scan_from_eq_feed (s : σ) (l : List Event) :
    MemTable.scan_from end_ cb s l = (feed cb s (l.takeWhile (·.key ≤ end_))).1 := by
  induction l generalizing s with
  | nil => rfl
  | cons e es ih =>
      rw [MemTable.scan_from, List.takeWhile_cons]
      by_cases hend : end_ < e.key
      · rw [if_pos hend, if_neg (by simpa using hend)]
        rfl
      · rw [if_neg hend, if_pos (by simpa using not_lt.mp hend), feed]
        rcases cb s e with ⟨s', more⟩
        cases more with
        | false => rfl
        | true => exact ih s'

theorem MemTable.scan_eq_feed {m : MemTable} (h : Keyed.Sorted Event.key m.nodes) (s : σ) :
    m.scan start end_ cb s = (feed cb s (m.nodes.filter (inRange start end_))).1 := by
  rw [MemTable.scan, scan_from_eq_feed]
  exact congrArg (fun l => (feed cb s l).1) (Keyed.walk_eq_filter h)

theorem block_scan_feed {l : List Event} (h : Keyed.Sorted Event.key l) (s : σ) :
    block_scan start end_ cb s l = feed cb s (l.filter (inRange start end_)) := by
  induction l generalizing s with
  | nil => rfl
  | cons e es ih =>
      obtain ⟨he, hes⟩ := List.pairwise_cons.mp h
      rw [block_scan]
      by_cases hlo : e.key < start
      · rw [if_pos hlo, ih hes,
          List.filter_cons_of_neg (by simpa [inRange] using fun h => absurd hlo (not_lt.mpr h))]
      · rw [if_neg hlo]
        by_cases hhi : end_ < e.key
        · have hnone : (e :: es).filter (inRange start end_) = [] :=
            List.filter_eq_nil_iff.mpr fun x hx => by
              rcases List.mem_cons.mp hx with rfl | hx
              · simpa [inRange] using fun _ => hhi
              · simpa [inRange] using fun _ => hhi.trans (he x hx)
          rw [if_pos hhi, hnone]
          rfl
        · rw [if_neg hhi,
            List.filter_cons_of_pos (by simpa [inRange] using ⟨not_lt.mp hlo, not_lt.mp hhi⟩),
            feed]
          split
          · exact ih hes _
          · rfl

theorem block_scan_eq_feed {l : List Event} (h : Keyed.Sorted Event.key l) (s : σ) :
    (block_scan start end_ cb s l).1 = (feed cb s (l.filter (inRange start end_))).1 := by
  rw [block_scan_feed cb h s]

theorem feed_append (s : σ) (a b : List Event) :
    feed cb s (a ++ b) =
      match feed cb s a with
      | (s, true) => feed cb s b
      | (s, false) => (s, false) := by
  induction a generalizing s with
  | nil => rfl
  | cons e es ih =>
      rw [List.cons_append, feed, feed]
      cases h : cb s e with
      | mk s' go =>
          cases go with
          | true => exact ih s'
          | false => rfl

end

/-! ## The collecting callback -/

namespace QueryRequest

variable (req : QueryRequest)

theorem row_limit_pos : 0 < req.row_limit := by
  rw [row_limit]
  split
  · next h => exact UInt32.lt_iff_toNat_lt.mp h
  · decide

/-- What the callback keeps up: it is done when the limit is reached and never
goes past it. -/
structure Fits (c : Collecting) : Prop where
  done_iff : c.done = true ↔ req.row_limit ≤ c.result.rows.length
  le : c.result.rows.length ≤ req.row_limit

theorem fits_start : req.Fits {} :=
  ⟨⟨Bool.noConfusion, fun h => absurd h (Nat.not_le.mpr req.row_limit_pos)⟩, Nat.zero_le _⟩

variable {req}

theorem filter_and_collect_done {c : Collecting} (h : c.done = true) (e : Event) :
    req.filter_and_collect c e = (c, false) := by
  rw [filter_and_collect, if_pos h]

/-- An event the query does not want is only counted. -/
theorem filter_and_collect_drop {c : Collecting} (h : c.done = false) {e : Event}
    (he : req.wants e = false) :
    ∃ c', req.filter_and_collect c e = (c', true) ∧ c'.result.rows = c.result.rows ∧
      c'.done = false := by
  rw [filter_and_collect, if_neg (by rw [h]; exact Bool.false_ne_true)]
  simp only []
  split
  · exact ⟨_, rfl, rfl, h⟩
  · next htomb =>
      split
      · exact ⟨_, rfl, rfl, h⟩
      · next htype =>
          exfalso
          rw [wants, decide_eq_false_iff_not] at he
          refine he ⟨htomb, ?_⟩
          cases hreq : req.event_type with
          | none => exact .inl rfl
          | some t =>
              right
              by_contra hne
              exact htype ⟨by rw [hreq]; rfl, by rw [hreq]; exact hne⟩

theorem filter_and_collect_keep {c : Collecting} (h : c.done = false) {e : Event}
    (he : req.wants e = true) :
    ∃ c', req.filter_and_collect c e =
        (c', decide (c.result.rows.length + 1 < req.row_limit)) ∧
      c'.result.rows = c.result.rows ++ [e] ∧
      c'.done = decide (req.row_limit ≤ c.result.rows.length + 1) := by
  rw [wants, decide_eq_true_eq] at he
  rw [filter_and_collect, if_neg (by rw [h]; exact Bool.false_ne_true)]
  simp only []
  rw [if_neg he.1, if_neg]
  · simp only [List.length_append, List.length_singleton]
    split
    · next hfull =>
        exact ⟨_, by rw [decide_eq_false (by omega)], rfl, by rw [decide_eq_true hfull]⟩
    · next hroom =>
        exact ⟨_, by rw [decide_eq_true (by omega)], rfl, by rw [decide_eq_false hroom]; exact h⟩
  · rintro ⟨hsome, hne⟩
    rcases he.2 with hnone | heq
    · rw [hnone] at hsome; cases hsome
    · exact hne heq

/-- What is collected from a list of events: the wanted ones, cut at the limit. -/
theorem feed_rows {c : Collecting} (hc : req.Fits c) (es : List Event) :
    (feed req.filter_and_collect c es).1.result.rows =
        (c.result.rows ++ es.filter req.wants).take req.row_limit ∧
      req.Fits (feed req.filter_and_collect c es).1 ∧
      ((feed req.filter_and_collect c es).2 = false →
        (feed req.filter_and_collect c es).1.done = true) := by
  induction es generalizing c with
  | nil =>
      refine ⟨?_, hc, fun h => by cases h⟩
      rw [List.filter_nil, List.append_nil, List.take_of_length_le hc.le]
      rfl
  | cons e es ih =>
      rw [feed]
      cases hd : c.done with
      | true =>
          rw [filter_and_collect_done hd]
          have hlen : c.result.rows.length = req.row_limit :=
            Nat.le_antisymm hc.le (hc.done_iff.mp hd)
          refine ⟨?_, hc, fun _ => hd⟩
          rw [← hlen, List.take_left]
      | false =>
          have hlt : c.result.rows.length < req.row_limit := by
            by_contra hge
            rw [hc.done_iff.mpr (Nat.not_lt.mp hge)] at hd
            cases hd
          cases he : req.wants e with
          | false =>
              obtain ⟨c', hcb, hrows, hdone⟩ := filter_and_collect_drop hd he
              have hc' : req.Fits c' := by
                refine ⟨?_, by rw [hrows]; exact hc.le⟩
                rw [hdone, hrows, ← hc.done_iff, hd]
              rw [hcb, List.filter_cons_of_neg (by rw [he]; exact Bool.false_ne_true), ← hrows]
              exact ih hc'
          | true =>
              obtain ⟨c', hcb, hrows, hdone⟩ := filter_and_collect_keep hd he
              have hlen : c'.result.rows.length = c.result.rows.length + 1 := by
                rw [hrows, List.length_append, List.length_singleton]
              have hc' : req.Fits c' :=
                ⟨by rw [hdone, hlen, decide_eq_true_eq], by rw [hlen]; exact hlt⟩
              rw [hcb, List.filter_cons_of_pos he]
              by_cases hroom : c.result.rows.length + 1 < req.row_limit
              · rw [decide_eq_true hroom, List.append_cons, ← hrows]
                exact ih hc'
              · rw [decide_eq_false hroom]
                refine ⟨?_, hc', fun _ => by rw [hdone]; exact decide_eq_true (by omega)⟩
                rw [List.append_cons, ← hrows, List.take_append_of_le_length (by omega),
                  List.take_of_length_le hc'.le]

end QueryRequest

/-! ## The sources of a query -/

/-- What a file delivers to an unstopped scan. -/
def SSTableFile.delivered (start end_ : Key) : SSTableFile → List Event
  | .finished t =>
      if end_ < t.meta_.min_key ∨ t.meta_.max_key < start then []
      else t.events.filter (inRange start end_)
  | .torn t => (t.deliver start end_).1

/-- A finished file is sorted. A torn one may be anything. -/
def SSTableFile.Ordered : SSTableFile → Prop
  | .finished t => Keyed.Sorted Event.key t.events
  | .torn _ => True

/-- What a query gets from a listed file: nothing if the meta block rules it
out or it cannot be opened. -/
def fileDelivers (ssts : SSTableDir) (start end_ : Key) (info : SSTableInfo) : List Event :=
  if info.may_contain start end_ then
    match ssts.lookup info.path with
    | none => []
    | some file => if file.read_meta.isSome then file.delivered start end_ else []
  else []

theorem SSTableFile.scan_rows {req : QueryRequest} {c : Collecting} (hc : req.Fits c)
    (start end_ : Key) {file : SSTableFile} (hfile : file.Ordered) :
    (file.scan start end_ req.filter_and_collect c).1.result.rows =
        (c.result.rows ++ (file.delivered start end_).filter req.wants).take req.row_limit ∧
      req.Fits (file.scan start end_ req.filter_and_collect c).1 := by
  cases file with
  | finished t =>
      rw [SSTableFile.scan, SSTableFile.delivered]
      split
      · rw [List.filter_nil, List.append_nil, List.take_of_length_le hc.le]
        exact ⟨rfl, hc⟩
      · simp only [block_scan_eq_feed _ hfile]
        obtain ⟨h1, h2, -⟩ := QueryRequest.feed_rows hc (t.events.filter (inRange start end_))
        exact ⟨h1, h2⟩
  | torn t =>
      rw [SSTableFile.scan, SSTableFile.delivered]
      obtain ⟨h1, h2, -⟩ := QueryRequest.feed_rows hc (t.deliver start end_).1
      simp only []
      split
      · next h => rw [h] at h1 h2; exact ⟨h1, h2⟩
      · next h => rw [h] at h1 h2; exact ⟨h1, h2⟩

theorem scan_file_rows {req : QueryRequest} (sym_id : UInt32) {ssts : SSTableDir}
    {c : Collecting} (hc : req.Fits c) {info : SSTableInfo}
    (hinfo : ∀ file, ssts.lookup info.path = some file → file.Ordered) :
    (scan_file req sym_id ssts c info).result.rows =
        (c.result.rows ++ (fileDelivers ssts (req.start_key sym_id) (req.end_key sym_id)
          info).filter req.wants).take req.row_limit ∧
      req.Fits (scan_file req sym_id ssts c info) := by
  have hnil : c.result.rows = (c.result.rows ++ ([] : List Event).filter req.wants).take
      req.row_limit := by
    rw [List.filter_nil, List.append_nil, List.take_of_length_le hc.le]
  rw [scan_file]
  split
  · next hd =>
      have hlen : c.result.rows.length = req.row_limit :=
        Nat.le_antisymm hc.le (hc.done_iff.mp hd)
      refine ⟨?_, hc⟩
      rw [← hlen, List.take_left]
  · rw [fileDelivers]
    split
    · simp only []
      cases hlook : ssts.lookup info.path with
      | none => exact ⟨hnil, hc.done_iff, hc.le⟩
      | some file =>
          simp only []
          cases hmeta : file.read_meta with
          | none => exact ⟨hnil, hc.done_iff, hc.le⟩
          | some m =>
              have hcount : req.Fits { c with
                  result.stats.files_considered := c.result.stats.files_considered + 1 } :=
                ⟨hc.done_iff, hc.le⟩
              obtain ⟨h1, h2⟩ := SSTableFile.scan_rows hcount (req.start_key sym_id)
                (req.end_key sym_id) (hinfo file hlook)
              simp only [Option.isSome_some, if_true]
              split
              · next h => rw [h] at h1 h2; exact ⟨h1, h2⟩
              · next h => rw [h] at h1 h2; exact ⟨h1, h2.done_iff, h2.le⟩
    · exact ⟨hnil, hc.done_iff, hc.le⟩

theorem take_append_take (a b : List Event) (n : Nat) :
    (a.take n ++ b).take n = (a ++ b).take n := by
  rw [List.take_append, List.take_append, List.take_take, Nat.min_self, List.length_take]
  congr 2
  omega

theorem scan_files_rows {req : QueryRequest} (sym_id : UInt32) {ssts : SSTableDir}
    {c : Collecting} (hc : req.Fits c) {infos : List SSTableInfo}
    (hinfos : ∀ info ∈ infos, ∀ file, ssts.lookup info.path = some file → file.Ordered) :
    (infos.foldl (scan_file req sym_id ssts) c).result.rows =
        (c.result.rows ++ (infos.flatMap (fileDelivers ssts (req.start_key sym_id)
          (req.end_key sym_id))).filter req.wants).take req.row_limit ∧
      req.Fits (infos.foldl (scan_file req sym_id ssts) c) := by
  induction infos generalizing c with
  | nil =>
      refine ⟨?_, hc⟩
      rw [List.flatMap_nil, List.filter_nil, List.append_nil, List.take_of_length_le hc.le]
      rfl
  | cons info infos ih =>
      obtain ⟨h1, h2⟩ := scan_file_rows sym_id hc (hinfos info List.mem_cons_self)
      obtain ⟨h3, h4⟩ := ih h2 fun i hi => hinfos i (List.mem_cons_of_mem _ hi)
      refine ⟨?_, h4⟩
      rw [List.foldl_cons, h3, h1, take_append_take, List.flatMap_cons, List.filter_append,
        List.append_assoc]

theorem scan_memtables_rows {req : QueryRequest} (sym_id : UInt32) {active_mem : MemTable}
    {imm_mems : List MemTable} {c : Collecting} (hc : req.Fits c)
    (hmems : ∀ m ∈ active_mem :: imm_mems, Keyed.Sorted Event.key m.nodes) :
    (scan_memtables req sym_id active_mem imm_mems c).result.rows =
        (c.result.rows ++ ((active_mem :: imm_mems).flatMap fun m => m.nodes.filter
          (inRange (req.start_key sym_id) (req.end_key sym_id))).filter req.wants).take
          req.row_limit ∧
      req.Fits (scan_memtables req sym_id active_mem imm_mems c) := by
  rw [scan_memtables]
  generalize active_mem :: imm_mems = mems at hmems
  induction mems generalizing c with
  | nil =>
      refine ⟨?_, hc⟩
      rw [List.flatMap_nil, List.filter_nil, List.append_nil, List.take_of_length_le hc.le]
      rfl
  | cons m ms ih =>
      rw [List.foldl_cons, List.flatMap_cons, List.filter_append, ← List.append_assoc,
        ← take_append_take]
      obtain ⟨h1, h2, -⟩ := QueryRequest.feed_rows hc (m.nodes.filter
        (inRange (req.start_key sym_id) (req.end_key sym_id)))
      split
      · next hd =>
          -- once done, the rows are the limit's worth already
          have hlen : c.result.rows.length = req.row_limit :=
            Nat.le_antisymm hc.le (hc.done_iff.mp hd)
          rw [← hlen, List.take_left, hlen]
          exact ih hc fun m' hm' => hmems m' (List.mem_cons_of_mem _ hm')
      · rw [MemTable.scan_eq_feed _ (hmems m List.mem_cons_self), ← h1]
        exact ih h2 fun m' hm' => hmems m' (List.mem_cons_of_mem _ hm')

/-! ## A query step by step -/

/-- What the query has collected after it was handed `got`. -/
structure Got (req : QueryRequest) (c : Collecting) (got : List Event) : Prop where
  fits : req.Fits c
  rows : c.result.rows = (got.filter req.wants).take req.row_limit

theorem got_memtables {req : QueryRequest} {sym_id : UInt32} {active_mem : MemTable}
    {imm_mems : List MemTable} (hmems : ∀ m ∈ active_mem :: imm_mems,
      Keyed.Sorted Event.key m.nodes) :
    Got req (scan_memtables req sym_id active_mem imm_mems {})
      ((active_mem.nodes ++ imm_mems.flatMap MemTable.nodes).filter
        (inRange (req.start_key sym_id) (req.end_key sym_id))) := by
  obtain ⟨hrows, hfits⟩ := scan_memtables_rows sym_id req.fits_start hmems
  refine ⟨hfits, ?_⟩
  have hflat : (active_mem.nodes ++ imm_mems.flatMap MemTable.nodes).filter
      (inRange (req.start_key sym_id) (req.end_key sym_id)) =
      (active_mem :: imm_mems).flatMap fun m => m.nodes.filter
        (inRange (req.start_key sym_id) (req.end_key sym_id)) := by
    rw [← List.flatMap_cons (f := MemTable.nodes), List.filter_flatMap]
  rw [hrows, List.nil_append, hflat]

theorem Got.file {req : QueryRequest} {c : Collecting} {got : List Event} (h : Got req c got)
    (sym_id : UInt32) {ssts : SSTableDir} {info : SSTableInfo}
    (hinfo : ∀ file, ssts.lookup info.path = some file → file.Ordered) :
    Got req (scan_file req sym_id ssts c info)
      (got ++ fileDelivers ssts (req.start_key sym_id) (req.end_key sym_id) info) := by
  obtain ⟨hrows, hfits⟩ := scan_file_rows sym_id h.fits hinfo
  refine ⟨hfits, ?_⟩
  rw [hrows, h.rows, take_append_take, List.filter_append]

/-- With room for everything, all that is wanted is returned. -/
theorem Got.all {req : QueryRequest} {c : Collecting} {got : List Event} (h : Got req c got)
    (hroom : (got.filter req.wants).length < req.limit.toNat) :
    c.result.rows = got.filter req.wants := by
  have hpos : 0 < req.limit := UInt32.lt_iff_toNat_lt.mpr (Nat.zero_lt_of_lt hroom)
  rw [h.rows, List.take_of_length_le]
  rw [QueryRequest.row_limit, if_pos hpos]
  exact hroom.le

/-! ## The rows of a query -/

/-- The wanted events of the memtables, then of the listed files. -/
def queryRows (req : QueryRequest) (sym_id : UInt32) (db : DB) : List Event :=
  ((db.active_mem :: db.imm_mems).flatMap (fun m => m.nodes.filter
      (inRange (req.start_key sym_id) (req.end_key sym_id))) ++
    (files_to_scan db.levels).flatMap
      (fileDelivers db.disk.ssts (req.start_key sym_id) (req.end_key sym_id))).filter req.wants

/-- Memtables are sorted and so are the finished files that are listed. -/
structure DB.Ordered (db : DB) : Prop where
  mems : ∀ m ∈ db.active_mem :: db.imm_mems, Keyed.Sorted Event.key m.nodes
  files : ∀ info ∈ files_to_scan db.levels, ∀ file,
    db.disk.ssts.lookup info.path = some file → file.Ordered

theorem DB.query_rows {db : DB} (hdb : db.Ordered) (hopen : db.closed = false)
    {req : QueryRequest} {sym_id : UInt32} (hsym : db.symbols.lookup req.symbol = some sym_id) :
    ∃ r, db.query req = .ok r ∧ r.ok = true ∧
      r.rows = (queryRows req sym_id db).take req.row_limit := by
  obtain ⟨h1, h2⟩ := scan_memtables_rows sym_id req.fits_start hdb.mems
  obtain ⟨h3, -⟩ := scan_files_rows sym_id h2 hdb.files
  refine ⟨{ ((files_to_scan db.levels).foldl (scan_file req sym_id db.disk.ssts)
    (scan_memtables req sym_id db.active_mem db.imm_mems {})).result with ok := true }, ?_, rfl, ?_⟩
  · rw [DB.query, hopen, hsym]
    rfl
  · rw [h3, h1, take_append_take, queryRows, List.filter_append, List.nil_append]

theorem DB.query_unknown {db : DB} (hopen : db.closed = false) {req : QueryRequest}
    (hsym : db.symbols.lookup req.symbol = none) : db.query req = .ok {} := by
  rw [DB.query, hopen, hsym]
  rfl

end Kronos
