import Kronos.Ref.Query
import Kronos.Ref.TableFile

/-!
# Queries over the bytes of the files

`DB::query` once more, with a reader constructed on the bytes of every listed
file it does not rule out, and the blocks it reads going through the block
cache. What a reader throws, opening the file or in the middle of a scan, is
caught and the loop goes on to the next file; what the callback was given by
then stays given.
-/

namespace Kronos

/-- What a reader gets from each path, nothing if it cannot be opened. -/
abbrev StoredFiles := SSTablePath → Option Bytes

/-- One round of the loop over the file list. -/
def scan_stored_file (req : QueryRequest) (sym_id : UInt32) (files : StoredFiles) :
    Collecting × Option BlockCache → SSTableInfo → Collecting × Option BlockCache
  | (c, cache), info =>
      if c.done then (c, cache)
      else
        let c := { c with
          result.stats.files_considered := c.result.stats.files_considered + 1 }
        if info.may_contain (req.start_key sym_id) (req.end_key sym_id) then
          let rows_before := c.result.stats.rows_scanned
          match files info.path with
          | none => (c, cache)
          | some file =>
              match SSTableReader.open_ info.path file with
              | .error _ => (c, cache)
              | .ok reader =>
                  match reader.scan (req.start_key sym_id) (req.end_key sym_id)
                      req.filter_and_collect c cache with
                  | ⟨c, cache, some _⟩ => (c, cache)
                  | ⟨c, cache, none⟩ =>
                      let rows_in_file := c.result.stats.rows_scanned - rows_before
                      ({ c with result.stats.blocks_read :=
                          c.result.stats.blocks_read + max 1 ((rows_in_file + 983) / 984) }, cache)
        else
          ({ c with result.stats.files_skipped := c.result.stats.files_skipped + 1 }, cache)

/-- The result, and what the query leaves in the block cache. The `disk` of `db` is not
read. -/
def DB.query_stored (files : StoredFiles) (cache : Option BlockCache) (req : QueryRequest)
    (db : DB) : Except DBError QueryResult × Option BlockCache :=
  if db.closed then (.error .closed, cache)
  else
    match db.symbols.lookup req.symbol with
    | none => (.ok {}, cache)
    | some sym_id =>
        let c := scan_memtables req sym_id db.active_mem db.imm_mems {}
        let (c, cache) := (files_to_scan db.levels).foldl
          (scan_stored_file req sym_id files) (c, cache)
        (.ok { c.result with ok := true }, cache)

end Kronos
