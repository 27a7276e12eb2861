import Kronos.Spec.FreshBlocks

/-!
# What a session with bytes and a cache should answer

Between a query and an event lie the encoding of events and blocks, checksums,
index, filter and the block cache. A client should notice none of it.
-/

namespace Kronos.Spec

open Kronos

/-- No table gets more than 2^25 events, and no compaction writes over a file. -/
def WritesNew (s : CachedSession) : CachedStep → Prop
  | .db step => ∀ w ∈ tablesWritten s.db step,
      w.2.events.length ≤ 2 ^ 25 ∧ (step = .compact → s.files w.1 = none)
  | .query _ => True

/-- A query over the bytes, by way of the cache, answers what it answers over the
tables. -/
def AnswersTables (s : CachedSession) : CachedStep → Prop
  | .db _ => True
  | .query req => (s.db.query_stored s.files (some s.block_cache) req).1 = s.db.query req

end Kronos.Spec
