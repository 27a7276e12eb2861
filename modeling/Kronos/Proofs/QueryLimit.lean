import Kronos.Proofs.Scan
import Kronos.Ref.StoredQuery

/-!
# The limit of a query cuts its rows and nothing else

Nothing is assumed of the database here: memtables and blocks in any order, files
that do not open, blocks that do not decode, a cache that holds anything. Each
source still has a list of events that it hands to a callback one after the other
until the callback has enough, and that list is the same for every callback. A
file's list depends on what the cache holds, and the cache on what was read
before, but only up to the place where the query stops. So the lists of all
sources, laid end to end, are the same for every limit.
-/

namespace Kronos

/-! ## What the sources hand over -/

/-- What a block hands over of a range, sorted or not. -/
def blockHands (start end_ : Key) (l : List Event) : List Event :=
  (l.filter (start ≤ ·.key)).takeWhile (·.key ≤ end_)

theorem block_scan_hands {σ : Type} (cb : Callback σ) (start end_ : Key) (s : σ)
    (l : List Event) :
    block_scan start end_ cb s l = feed cb s (blockHands start end_ l) := by
  induction l generalizing s with
  | nil => rfl
  | cons e es ih =>
      rw [block_scan, blockHands]
      by_cases hlo : e.key < start
      · rw [if_pos hlo, List.filter_cons_of_neg (by simpa using hlo)]
        exact ih s
      · rw [if_neg hlo, List.filter_cons_of_pos (by simpa using hlo), List.takeWhile_cons]
        by_cases hhi : end_ < e.key
        · rw [if_pos hhi, if_neg (by simpa using hhi)]
          rfl
        · rw [if_neg hhi, if_pos (by simpa using hhi), feed]
          obtain ⟨s', more⟩ := cb s e
          cases more with
          | false => rfl
          | true => exact ih s'

/-- What a memtable hands over of a range. -/
def MemTable.hands (start end_ : Key) (m : MemTable) : List Event :=
  (m.nodes.dropWhile (·.key < start)).takeWhile (·.key ≤ end_)

/-- The blocks that a scan names, up to the first that cannot be read, and the cache
after it. -/
def SSTableReader.hands (start end_ : Key) (r : SSTableReader) :
    List Nat → Option BlockCache → List Event × Option BlockCache
  | [], cache => ([], cache)
  | bi :: rest, cache =>
      match r.index.entries[bi]? with
      | none => ([], cache)
      | some entry =>
          match r.read_block_at entry.block_offset entry.block_size cache with
          | (.error _, cache) => ([], cache)
          | (.ok blk, cache) =>
              let (events, cache) := hands start end_ r rest cache
              (blockHands start end_ blk.events ++ events, cache)

/-- A listed file, to a query that is not done. -/
def fileHands (files : StoredFiles) (start end_ : Key) (info : SSTableInfo)
    (cache : Option BlockCache) : List Event × Option BlockCache :=
  if info.may_contain start end_ then
    match files info.path with
    | none => ([], cache)
    | some file =>
        match SSTableReader.open_ info.path file with
        | .error _ => ([], cache)
        | .ok reader =>
            if reader.may_contain start end_ then
              reader.hands start end_ (reader.index.blocks_in_range start end_) cache
            else ([], cache)
  else ([], cache)

/-- One more file after others. -/
def handOver (files : StoredFiles) (start end_ : Key)
    (p : List Event × Option BlockCache) (info : SSTableInfo) : List Event × Option BlockCache :=
  (p.1 ++ (fileHands files start end_ info p.2).1, (fileHands files start end_ info p.2).2)

/-- All sources laid end to end. -/
def allHanded (files : StoredFiles) (cache : Option BlockCache) (start end_ : Key) (db : DB) :
    List Event :=
  ((files_to_scan db.levels).foldl (handOver files start end_)
    ((db.active_mem :: db.imm_mems).flatMap (MemTable.hands start end_), cache)).1

section
variable {σ : Type} (cb : Callback σ) (start end_ : Key) (r : SSTableReader)

/-- A scan of blocks feeds what they hand over. When the callback did not stop it, the
cache is what it is without a callback. -/
theorem scan_blocks_hands (idxs : List Nat) (s : σ) (cache : Option BlockCache) :
    (r.scan_blocks start end_ cb idxs s cache).state =
        (feed cb s (r.hands start end_ idxs cache).1).1 ∧
      ((feed cb s (r.hands start end_ idxs cache).1).2 = true →
        (r.scan_blocks start end_ cb idxs s cache).cache = (r.hands start end_ idxs cache).2) := by
  induction idxs generalizing s cache with
  | nil => exact ⟨rfl, fun _ => rfl⟩
  | cons bi rest ih =>
      rw [SSTableReader.scan_blocks, SSTableReader.hands]
      cases r.index.entries[bi]? with
      | none => exact ⟨rfl, fun _ => rfl⟩
      | some entry =>
          simp only []
          obtain ⟨read, cache'⟩ := r.read_block_at entry.block_offset entry.block_size cache
          cases read with
          | error err => exact ⟨rfl, fun _ => rfl⟩
          | ok blk =>
              simp only [block_scan_hands, feed_append]
              obtain ⟨s', more⟩ := feed cb s (blockHands start end_ blk.events)
              cases more with
              | false => exact ⟨rfl, fun h => by cases h⟩
              | true => exact ih s' cache'

end

/-! ## What the query counts -/

/-- The counters of a query stand in their order. -/
structure Tallied (c : Collecting) : Prop where
  returned : c.result.stats.rows_returned = c.result.rows.length
  scanned : c.result.stats.rows_returned ≤ c.result.stats.rows_scanned
  skipped : c.result.stats.files_skipped ≤ c.result.stats.files_considered

section
variable {req : QueryRequest} {c : Collecting}

variable (req) in
theorem Tallied.collect (h : Tallied c) (e : Event) : Tallied (req.filter_and_collect c e).1 := by
  obtain ⟨hreturned, hscanned, hskipped⟩ := h
  rw [QueryRequest.filter_and_collect]
  split
  · exact ⟨hreturned, hscanned, hskipped⟩
  · simp only []
    split
    · exact ⟨hreturned, Nat.le_succ_of_le hscanned, hskipped⟩
    · split
      · exact ⟨hreturned, Nat.le_succ_of_le hscanned, hskipped⟩
      · have hlen : c.result.stats.rows_returned + 1 = (c.result.rows ++ [e]).length := by
          rw [List.length_append, List.length_singleton, hreturned]
        split
        · exact ⟨hlen, Nat.succ_le_succ hscanned, hskipped⟩
        · exact ⟨hlen, Nat.succ_le_succ hscanned, hskipped⟩

theorem Tallied.feed (h : Tallied c) (es : List Event) :
    Tallied (feed req.filter_and_collect c es).1 := by
  induction es generalizing c with
  | nil => exact h
  | cons e es ih =>
      rw [Kronos.feed]
      have hstep := h.collect req e
      generalize req.filter_and_collect c e = p at hstep
      obtain ⟨c', more⟩ := p
      cases more with
      | false => exact hstep
      | true => exact ih hstep

end

/-! ## A query in the middle -/

/-- The query was handed `got`, event by event until it was done. -/
structure Collected (req : QueryRequest) (got : List Event) (c : Collecting) : Prop extends
  Got req c got, Tallied c

section
variable {req : QueryRequest} {c : Collecting} {got : List Event}

theorem collected_start (req : QueryRequest) : Collected req [] {} :=
  ⟨⟨req.fits_start, by simp⟩, ⟨rfl, Nat.le_refl _, Nat.le_refl _⟩⟩

theorem Collected.feed (h : Collected req got c) (es : List Event) :
    Collected req (got ++ es) (feed req.filter_and_collect c es).1 := by
  obtain ⟨hrows, hfits, -⟩ := QueryRequest.feed_rows h.fits es
  refine ⟨⟨hfits, ?_⟩, h.toTallied.feed es⟩
  rw [hrows, h.rows, take_append_take, List.filter_append]

/-- Once it is done, nothing is added. -/
theorem Collected.done (h : Collected req got c) (hdone : c.done = true) (es : List Event) :
    Collected req (got ++ es) c := by
  have hlen : c.result.rows.length = req.row_limit :=
    Nat.le_antisymm h.fits.le (h.fits.done_iff.mp hdone)
  refine ⟨⟨h.fits, ?_⟩, h.toTallied⟩
  rw [List.filter_append, ← take_append_take, ← h.rows, ← hlen, List.take_left]

/-- It goes on unless it is done. -/
theorem Collected.goes_on (h : Collected req got c) {es : List Event}
    (hopen : (Kronos.feed req.filter_and_collect c es).1.done = false) :
    (Kronos.feed req.filter_and_collect c es).2 = true := by
  obtain ⟨-, -, hstop⟩ := QueryRequest.feed_rows h.fits es
  cases hgo : (Kronos.feed req.filter_and_collect c es).2 with
  | true => rfl
  | false =>
      rw [hstop hgo] at hopen
      cases hopen

/-- The memtables, one after the other. -/
theorem collected_memtables (req : QueryRequest) (sym_id : UInt32) (active_mem : MemTable)
    (imm_mems : List MemTable) :
    Collected req
      ((active_mem :: imm_mems).flatMap
        (MemTable.hands (req.start_key sym_id) (req.end_key sym_id)))
      (scan_memtables req sym_id active_mem imm_mems {}) := by
  have hstart := collected_start req
  rw [scan_memtables, ← List.nil_append (List.flatMap _ _)]
  generalize ([] : List Event) = got, ({} : Collecting) = c, active_mem :: imm_mems = mems
    at hstart ⊢
  induction mems generalizing got c with
  | nil =>
      rw [List.flatMap_nil, List.append_nil]
      exact hstart
  | cons m ms ih =>
      rw [List.foldl_cons, List.flatMap_cons, ← List.append_assoc]
      split
      · next hdone => exact ih _ _ (hstart.done hdone _)
      · rw [MemTable.scan, scan_from_eq_feed]
        exact ih _ _ (hstart.feed _)

end

/-- If it is not done, the cache is the one that goes with what it was handed. -/
structure Handed (req : QueryRequest) (got : List Event × Option BlockCache)
    (p : Collecting × Option BlockCache) : Prop where
  collected : Collected req got.1 p.1
  cache : p.1.done = false → p.2 = got.2

section
variable {req : QueryRequest} {got : List Event × Option BlockCache} {c : Collecting}
  {cache : Option BlockCache}

/-- The counters of the files do not matter to the rest. -/
theorem Handed.counted (h : Handed req got (c, cache)) {considered skipped : Nat}
    (hle : skipped ≤ considered) (blocks : Nat) :
    Handed req got ({ c with
      result.stats.files_considered := considered
      result.stats.files_skipped := skipped
      result.stats.blocks_read := blocks }, cache) := by
  obtain ⟨⟨⟨hfits, hrows⟩, hreturned, hscanned, -⟩, hcache⟩ := h
  exact ⟨⟨⟨⟨hfits.done_iff, hfits.le⟩, hrows⟩, hreturned, hscanned, hle⟩, hcache⟩

/-- A source that hands over nothing. -/
theorem Handed.nothing (h : Handed req got (c, got.2)) :
    Handed req (got.1 ++ [], got.2) (c, got.2) := by
  rw [List.append_nil]
  exact h

theorem Handed.scan (h : Handed req got (c, got.2)) (r : SSTableReader) (start end_ : Key)
    (idxs : List Nat) :
    Handed req (got.1 ++ (r.hands start end_ idxs got.2).1, (r.hands start end_ idxs got.2).2)
      ((r.scan_blocks start end_ req.filter_and_collect idxs c got.2).state,
        (r.scan_blocks start end_ req.filter_and_collect idxs c got.2).cache) := by
  obtain ⟨hstate, hleft⟩ := scan_blocks_hands req.filter_and_collect start end_ r idxs c
    got.2
  rw [hstate]
  exact ⟨h.collected.feed _, fun hopen => hleft (h.collected.goes_on hopen)⟩

end

/-- One round of the loop over the files. -/
theorem Handed.file {req : QueryRequest} {got : List Event × Option BlockCache}
    {p : Collecting × Option BlockCache} (h : Handed req got p) (sym_id : UInt32)
    (files : StoredFiles) (info : SSTableInfo) :
    Handed req (handOver files (req.start_key sym_id) (req.end_key sym_id) got info)
      (scan_stored_file req sym_id files p info) := by
  obtain ⟨c, cache⟩ := p
  rw [scan_stored_file, handOver]
  split
  · next hdone =>
      refine ⟨h.collected.done hdone _, fun hopen => ?_⟩
      rw [hdone] at hopen
      cases hopen
  · next hopen =>
      obtain rfl : cache = got.2 := h.cache (Bool.eq_false_iff.mpr hopen)
      have hle := h.collected.skipped
      -- the file is counted, whatever comes of it
      have hcount := h.counted (Nat.le_succ_of_le hle) c.result.stats.blocks_read
      rw [fileHands]
      simp only []
      split
      · cases files info.path with
        | none => exact hcount.nothing
        | some file =>
            simp only []
            cases SSTableReader.open_ info.path file with
            | error err => exact hcount.nothing
            | ok reader =>
                simp only [SSTableReader.scan]
                cases reader.may_contain (req.start_key sym_id) (req.end_key sym_id) with
                | false => exact (h.counted (Nat.le_succ_of_le hle) _).nothing
                | true =>
                    simp only [if_true]
                    have hscan := hcount.scan reader (req.start_key sym_id) (req.end_key sym_id)
                      (reader.index.blocks_in_range (req.start_key sym_id) (req.end_key sym_id))
                    split
                    · next hx =>
                        rw [hx] at hscan
                        exact hscan
                    · next hx =>
                        rw [hx] at hscan
                        exact hscan.counted hscan.collected.skipped _
      · exact (h.counted (Nat.succ_le_succ hle) c.result.stats.blocks_read).nothing

theorem Handed.files {req : QueryRequest} {got : List Event × Option BlockCache}
    {p : Collecting × Option BlockCache} (h : Handed req got p) (sym_id : UInt32)
    (files : StoredFiles) (infos : List SSTableInfo) :
    Handed req (infos.foldl (handOver files (req.start_key sym_id) (req.end_key sym_id)) got)
      (infos.foldl (scan_stored_file req sym_id files) p) := by
  induction infos generalizing got p with
  | nil => exact h
  | cons info infos ih => exact ih (h.file sym_id files info)

/-! ## The rows of a query -/

/-- What a query answers, whatever the database and its files are like. -/
theorem DB.query_stored_rows (files : StoredFiles) (cache : Option BlockCache)
    (req : QueryRequest) {db : DB} (hopen : db.closed = false) {sym_id : UInt32}
    (hsym : db.symbols.lookup req.symbol = some sym_id) :
    ∃ c : Collecting, (db.query_stored files cache req).1 = .ok { c.result with ok := true } ∧
      Collected req (allHanded files cache (req.start_key sym_id) (req.end_key sym_id) db) c := by
  have hstart : Handed req ((db.active_mem :: db.imm_mems).flatMap
      (MemTable.hands (req.start_key sym_id) (req.end_key sym_id)), cache)
      (scan_memtables req sym_id db.active_mem db.imm_mems {}, cache) :=
    ⟨collected_memtables req sym_id db.active_mem db.imm_mems, fun _ => rfl⟩
  have hall := hstart.files sym_id files (files_to_scan db.levels)
  refine ⟨_, ?_, hall.collected⟩
  rw [DB.query_stored, hopen, if_neg Bool.false_ne_true, hsym]

theorem row_limit_of (req : QueryRequest) {n : UInt32} (hn : 1 ≤ n) :
    QueryRequest.row_limit { req with limit := n } = n.toNat := by
  have hpos : (0 : UInt32).toNat < n.toNat := UInt32.le_iff_toNat_le.mp hn
  exact if_pos (UInt32.lt_iff_toNat_lt.mpr hpos)

/-- The rows for a limit are those for a larger one, cut. -/
theorem rows_cut {got : List Event} {req : QueryRequest} {n m : UInt32} (hn : 1 ≤ n) (hnm : n ≤ m)
    {c d : Collecting} (hc : Got { req with limit := n } c got)
    (hd : Got { req with limit := m } d got) :
    c.result.rows = d.result.rows.take (min n.toNat d.result.rows.length) := by
  have hnm' : n.toNat ≤ m.toNat := UInt32.le_iff_toNat_le.mp hnm
  have hwants : QueryRequest.wants { req with limit := n } =
      QueryRequest.wants { req with limit := m } := rfl
  rw [← List.take_eq_take_min, hc.rows, hd.rows, row_limit_of req hn,
    row_limit_of req (UInt32.le_trans hn hnm), hwants, List.take_take, Nat.min_eq_left hnm']

/-- For every database, whatever its files and its cache hold: the rows for a limit are
the first of the rows for a larger one, the counters agree with the rows, and no limit
is a limit of 1000. -/
theorem query_limit_cuts (files : StoredFiles) (cache : Option BlockCache) (db : DB)
    (req : QueryRequest) :
    (∀ n m : UInt32, 1 ≤ n → n ≤ m →
      (db.query_stored files cache { req with limit := n }).1.map QueryResult.rows =
        (db.query_stored files cache { req with limit := m }).1.map fun r =>
          r.rows.take (min n.toNat r.rows.length)) ∧
    (∀ r, (db.query_stored files cache req).1 = .ok r →
      r.stats.rows_returned = r.rows.length ∧ r.rows.length ≤ req.row_limit ∧
      r.stats.rows_returned ≤ r.stats.rows_scanned ∧
      r.stats.files_skipped ≤ r.stats.files_considered) ∧
    db.query_stored files cache { req with limit := 0 } =
      db.query_stored files cache { req with limit := 1000 } := by
  cases hopen : db.closed with
  | true =>
      have hclosed : ∀ req, db.query_stored files cache req = (.error .closed, cache) := by
        intro req
        rw [DB.query_stored, if_pos hopen]
      refine ⟨fun n m _ _ => ?_, fun r hr => ?_, ?_⟩
      · rw [hclosed, hclosed]
        rfl
      · rw [hclosed] at hr
        cases hr
      · rw [hclosed, hclosed]
  | false =>
      cases hsym : db.symbols.lookup req.symbol with
      | none =>
          have hnone : ∀ n, db.query_stored files cache { req with limit := n } = (.ok {}, cache) := by
            intro n
            rw [DB.query_stored, hopen, if_neg Bool.false_ne_true, hsym]
          refine ⟨fun n m _ _ => ?_, fun r hr => ?_, ?_⟩
          · rw [hnone, hnone]
            exact congrArg Except.ok List.take_nil.symm
          · rw [hnone req.limit] at hr
            cases hr
            exact ⟨rfl, Nat.zero_le _, Nat.le_refl _, Nat.le_refl _⟩
          · rw [hnone, hnone]
      | some sym_id =>
          refine ⟨fun n m hn hnm => ?_, fun r hr => ?_, ?_⟩
          · obtain ⟨c, hc, hgot⟩ := DB.query_stored_rows files cache
              { req with limit := n } hopen hsym
            obtain ⟨d, hd, hgot'⟩ := DB.query_stored_rows files cache
              { req with limit := m } hopen hsym
            rw [hc, hd]
            exact congrArg Except.ok (rows_cut hn hnm hgot.toGot hgot'.toGot)
          · obtain ⟨c, hc, hgot⟩ := DB.query_stored_rows files cache req hopen hsym
            rw [hc] at hr
            cases hr
            exact ⟨hgot.returned, hgot.fits.le, hgot.scanned, hgot.skipped⟩
          · rfl

/-- A database with three events in memory and a listed file. -/
def threeEvents : DB :=
  { cfg := {}
    symbols := { name_to_id := AList.singleton [65] 1 }
    active_mem :=
      { MemTable.new 0 with
        nodes :=
          [{ timestamp_ns := 1, symbol_id := 1 }, { timestamp_ns := 2, symbol_id := 1 },
            { timestamp_ns := 3, symbol_id := 1 }] }
    levels := fun l => if l = 0 then [⟨DB.flush_path 1, ⟨1, ⟨1, 0, 0⟩, ⟨1, 9, 0⟩, 0, 1⟩⟩] else [] }

/-- Of the three rows of a limit of 5, one of 2 leaves the first two. The file is empty and
does not open. -/
theorem query_limit_cuts_two :
    (threeEvents.query_stored (fun _ => some []) none { symbol := [65], limit := 2 }).1.map
        QueryResult.rows =
      (threeEvents.query_stored (fun _ => some []) none { symbol := [65], limit := 5 }).1.map
        fun r => r.rows.take (min (2 : UInt32).toNat r.rows.length) :=
  (query_limit_cuts (fun _ => some []) none threeEvents { symbol := [65] }).1 2 5 (by decide)
    (by decide)

end Kronos
