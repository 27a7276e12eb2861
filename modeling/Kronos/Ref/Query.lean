import Kronos.Ref.DB

/-!
# Queries

`DB::query` walks its sources one after the other, the active memtable, the
immutable ones from the oldest on, then every listed file level by level, and
hands each event in the key range to one callback, which filters, collects and
counts. Nothing compares an event with one from another source. A file that
cannot be opened is passed over.

Block reads go to the file: the cache in front of them is keyed by path and
offset. Times are left out of the statistics.
-/

namespace Kronos

structure QueryRequest where
  symbol : Bytes
  start_ns : UInt64 := 0
  end_ns : UInt64 := 0xFFFFFFFFFFFFFFFF
  event_type : Option EventType := none
  limit : UInt32 := 1000
  deriving DecidableEq, Repr

structure QueryStats where
  files_considered : Nat := 0
  files_skipped : Nat := 0
  blocks_read : Nat := 0
  rows_scanned : Nat := 0
  rows_returned : Nat := 0
  deriving DecidableEq, Repr

/-- The `error` of a result is never set. -/
structure QueryResult where
  rows : List Event := []
  stats : QueryStats := {}
  ok : Bool := true
  deriving DecidableEq, Repr

/-- What `filter_and_collect` captures. -/
structure Collecting where
  result : QueryResult := {}
  done : Bool := false
  deriving DecidableEq, Repr

namespace QueryRequest

def start_key (req : QueryRequest) (sym_id : UInt32) : Key := ⟨sym_id, req.start_ns, 0⟩

def end_key (req : QueryRequest) (sym_id : UInt32) : Key :=
  ⟨sym_id, req.end_ns, 0xFFFFFFFFFFFFFFFF⟩

def row_limit (req : QueryRequest) : Nat := if req.limit > 0 then req.limit.toNat else 1000

def filter_and_collect (req : QueryRequest) : Callback Collecting := fun c e =>
  if c.done then (c, false)
  else
    let c := { c with result.stats.rows_scanned := c.result.stats.rows_scanned + 1 }
    if e.event_type = .Tombstone then (c, true)
    else if req.event_type.isSome ∧ req.event_type ≠ some e.event_type then (c, true)
    else
      let c := { c with
        result.rows := c.result.rows ++ [e]
        result.stats.rows_returned := c.result.stats.rows_returned + 1 }
      if req.row_limit ≤ c.result.rows.length then ({ c with done := true }, false)
      else (c, true)

end QueryRequest

/-- `may_contain` of the file list: the key range of the listed meta block. -/
def SSTableInfo.may_contain (info : SSTableInfo) (s e : Key) : Bool :=
  ¬ (e < info.meta_.min_key ∨ info.meta_.max_key < s)

/-- The memtables, under `mem_mu_`. -/
def scan_memtables (req : QueryRequest) (sym_id : UInt32) (active_mem : MemTable)
    (imm_mems : List MemTable) (c : Collecting) : Collecting :=
  (active_mem :: imm_mems).foldl (fun c mem =>
    if c.done then c
    else mem.scan (req.start_key sym_id) (req.end_key sym_id) req.filter_and_collect c) c

/-- One round of the loop over the file list. -/
def scan_file (req : QueryRequest) (sym_id : UInt32) (ssts : SSTableDir) (c : Collecting)
    (info : SSTableInfo) : Collecting :=
  if c.done then c
  else
    let c := { c with
      result.stats.files_considered := c.result.stats.files_considered + 1 }
    if info.may_contain (req.start_key sym_id) (req.end_key sym_id) then
      let rows_before := c.result.stats.rows_scanned
      match ssts.lookup info.path with
      | none => c
      | some file =>
          match file.read_meta with
          | none => c
          | some _ =>
              match file.scan (req.start_key sym_id) (req.end_key sym_id)
                  req.filter_and_collect c with
              | (c, true) => c
              | (c, false) =>
                  let rows_in_file := c.result.stats.rows_scanned - rows_before
                  { c with result.stats.blocks_read :=
                      c.result.stats.blocks_read + max 1 ((rows_in_file + 983) / 984) }
    else { c with result.stats.files_skipped := c.result.stats.files_skipped + 1 }

/-- The snapshot of the file list. -/
def files_to_scan (levels : Levels) : List SSTableInfo :=
  (List.finRange kMaxLevels).flatMap levels

def DB.query (req : QueryRequest) (db : DB) : Except DBError QueryResult :=
  if db.closed then .error .closed
  else
    match db.symbols.lookup req.symbol with
    | none => .ok {}
    | some sym_id =>
        let c := scan_memtables req sym_id db.active_mem db.imm_mems {}
        let c := (files_to_scan db.levels).foldl (scan_file req sym_id db.disk.ssts) c
        .ok { c.result with ok := true }

end Kronos
