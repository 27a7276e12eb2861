import Kronos.Spec.CachedSession
import Kronos.Spec.Crash

/-!
# The bytes of a directory over its sessions

Sessions share the table files and nothing else that a query reads: each starts
with an empty cache and lists what it can read the meta block of. What becomes
of the log and of the symbol file between two sessions does not matter here.
-/

namespace Kronos.Spec

open Kronos

/-- No table gets more than 2^25 events, and each goes into a new file that the cache
holds no block of. -/
def WritesAfresh (s : CachedSession) : CachedStep → Prop
  | .db step => ∀ w ∈ tablesWritten s.db step,
      w.2.events.length ≤ 2 ^ 25 ∧ s.files w.1 = none ∧
        ∀ e ∈ s.block_cache.lru, e.key.path ≠ w.1
  | .query _ => True

/-- A session that writes afresh, up to any of its steps. -/
structure StoredSession where
  cfg : DBConfig
  listing : List SSTablePath
  heights : Nat → Fin kMaxHeight
  block_cache_bytes : Nat
  block_target_bytes : Nat
  steps : List CachedStep

def StoredSession.start (disk : Disk) (files : StoredFiles) (s : StoredSession) :
    CachedSession :=
  cachedSession s.cfg disk s.listing s.heights files s.block_cache_bytes s.block_target_bytes

/-- What any number of such sessions leave. -/
inductive StoredHistory : Disk → StoredFiles → Prop where
  | new : StoredHistory {} fun _ => none
  | session {disk disk' : Disk} {files : StoredFiles} (h : StoredHistory disk files)
      (s : StoredSession)
      (hrun : Run.Along CachedSession.act WritesAfresh (s.start disk files) s.steps)
      (hdisk : disk'.ssts = (s.steps.foldl CachedSession.act (s.start disk files)).db.disk.ssts) :
      StoredHistory disk' (s.steps.foldl CachedSession.act (s.start disk files)).files

end Kronos.Spec
