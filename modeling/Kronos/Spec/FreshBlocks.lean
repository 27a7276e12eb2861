import Mathlib.Logic.Function.Basic
import Kronos.Ref.StoredQuery
import Kronos.Spec.FileNumbers

/-!
# What the block cache should answer

A session with the bytes of its table files and its block cache beside it. A
query goes through the cache; flushes and compactions write and remove files and
leave the cache alone. What a query takes from the cache should be what the file
holds by then.
-/

namespace Kronos.Spec

open Kronos

structure CachedSession where
  db : DB
  files : StoredFiles
  block_cache : BlockCache
  block_target_bytes : Nat := 64 * 1024

inductive CachedStep where
  | db (s : Step)
  | query (req : QueryRequest)

/-- What a writer leaves of a table. -/
def tableBytes (block_target_bytes : Nat) (t : SSTable) : Bytes :=
  (SSTableWriter.write t.meta_.level t.meta_.sequence block_target_bytes (.new .default) t.events).1

/-- The tables that a step writes, each with its path. -/
def tablesWritten (db : DB) : Step → List (SSTablePath × SSTable)
  | .flush_front =>
      match db.imm_mems with
      | [] => []
      | mem :: _ =>
          if mem.empty then []
          else [(DB.flush_path db.sst_seq, SSTable.write 0 db.sst_seq mem.to_sorted_events)]
  | .compact =>
      if db.levels 0 = [] then []
      else
        match Compaction.run db.disk.ssts (db.levels 0) 1 db.sst_seq
            db.cfg.sstable_target_bytes with
        | .error _ => []
        | .ok (outputs, _) => outputs.map fun t => (Compaction.output_path 1 t, t)
  | _ => []

/-- The files that a step removes. -/
def pathsRemoved (db : DB) : Step → List SSTablePath
  | .compact => if tablesWritten db .compact = [] then [] else (db.levels 0).map (·.path)
  | _ => []

/-- `do_flush` passes the target of the configuration on, a compaction leaves the
constructor its default. -/
def blockTarget (s : CachedSession) : Step → Nat
  | .compact => 64 * 1024
  | _ => s.block_target_bytes

def written_files (target : Nat) (tables : List (SSTablePath × SSTable)) (files : StoredFiles) :
    StoredFiles :=
  tables.foldl (fun files w => Function.update files w.1 (some (tableBytes target w.2))) files

def removed_files (paths : List SSTablePath) (files : StoredFiles) : StoredFiles :=
  paths.foldl (fun files path => Function.update files path none) files

namespace CachedSession

def act (s : CachedSession) : CachedStep → CachedSession
  | .db step =>
      { s with
        db := Spec.step s.db step
        files := removed_files (pathsRemoved s.db step)
          (written_files (blockTarget s step) (tablesWritten s.db step) s.files) }
  | .query req =>
      { s with
        block_cache := ((s.db.query_stored s.files (some s.block_cache) req).2).getD s.block_cache }

end CachedSession

/-! ## What is read -/

/-- The reader of a file as it is now. -/
def Opens (files : StoredFiles) (r : SSTableReader) : Prop :=
  ∃ file, files r.path = some file ∧ SSTableReader.open_ r.path file = .ok r

/-- The bytes that `read_block_at` finds in the cache. -/
def cached (key : BlockKey) (c : BlockCache) : Option Bytes :=
  (c.get key).1.map fun node =>
    ((BlockCache.node? node (c.get key).2.lru).map (·.data)).getD []

/-- The caches that any reads of blocks come to, one after the other. -/
inductive Reads (files : StoredFiles) (c : BlockCache) : BlockCache → Prop where
  | start : Reads files c c
  | read {c₁ c₂ : BlockCache} {r : SSTableReader} {entry : IndexEntry} (h : Reads files c c₁)
      (hr : Opens files r) (hentry : entry ∈ r.index.entries)
      (hread : (r.read_block_at entry.block_offset entry.block_size (some c₁)).2 = some c₂) :
      Reads files c c₂

/-- Reading by way of the cache is reading the files. -/
structure ReadsFiles (files : StoredFiles) (cache : BlockCache) : Prop where
  /-- what is in the cache at any point is what the file holds -/
  blocks : ∀ c, Reads files cache c → ∀ r, Opens files r → ∀ entry ∈ r.index.entries,
    ∀ data ∈ cached ⟨r.path, entry.block_offset.toNat⟩ c,
      pread r.file entry.block_size.toNat entry.block_offset = some data
  scans : ∀ r, Opens files r → ∀ (σ : Type) (cb : Callback σ) (s : σ) (start end_ : Key),
    (r.scan start end_ cb s (some cache)).state = (r.scan start end_ cb s none).state ∧
      (r.scan start end_ cb s (some cache)).threw = (r.scan start end_ cb s none).threw

/-- A query finds in the cache what the files hold, and answers what it would answer
without one. -/
def ServesFiles (s : CachedSession) : CachedStep → Prop
  | .db _ => True
  | .query req => ReadsFiles s.files s.block_cache ∧
      (s.db.query_stored s.files (some s.block_cache) req).1 =
        (s.db.query_stored s.files none req).1

/-! ## What has to be the case -/

/-- An offset has one size in the index. -/
def OneSize (ib : IndexBlock) : Prop :=
  ∀ a ∈ ib.entries, ∀ b ∈ ib.entries, a.block_offset = b.block_offset →
    a.block_size = b.block_size

/-- No file is written that the cache holds blocks of; and no file that is queried gives
an offset two sizes. -/
def Unread (s : CachedSession) : CachedStep → Prop
  | .db step => ∀ w ∈ tablesWritten s.db step, ∀ e ∈ s.block_cache.lru, e.key.path ≠ w.1
  | .query _ => ∀ r, Opens s.files r → OneSize r.index

/-- A session just opened. -/
def cachedSession (cfg : DBConfig) (disk : Disk) (listing : List SSTablePath)
    (heights : Nat → Fin kMaxHeight) (files : StoredFiles)
    (block_cache_bytes block_target_bytes : Nat) : CachedSession :=
  { db := after (DB.open_ cfg disk listing heights)
    files
    block_cache := { max_bytes := block_cache_bytes }
    block_target_bytes }

end Kronos.Spec
