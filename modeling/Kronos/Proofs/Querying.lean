import Kronos.Proofs.ReadRefinement
import Kronos.Ref.Threads

/-!
# A query among other threads

A query takes its steps while other threads take theirs, and what it has seen
by then is its own. Here is what does not depend on what the others do: which
events it asks for, which steps are its own, and where it starts and stops.
-/

namespace Kronos

open Spec

/-! ## What a query asks for -/

/-- The events in the key range of the query. -/
def covered (req : QueryRequest) (sym_id : UInt32) (l : List Event) : List Event :=
  l.filter (inRange (req.start_key sym_id) (req.end_key sym_id))

/-- The event is one the query asks for. -/
def Wanted (req : QueryRequest) (s : Threads) (e : Event) : Bool :=
  s.db.symbols.lookup req.symbol = some e.symbol_id ∧ req.start_ns ≤ e.timestamp_ns ∧
    e.timestamp_ns ≤ req.end_ns ∧ req.wants e

theorem wanted_eq {req : QueryRequest} {s : Threads} {sym_id : UInt32}
    (hsym : s.db.symbols.lookup req.symbol = some sym_id) (l : List Event) :
    (covered req sym_id l).filter req.wants = l.filter (Wanted req s) := by
  rw [covered, List.filter_filter]
  refine List.filter_congr fun e _ => ?_
  rw [Bool.eq_iff_iff, Bool.and_eq_true, inRange_iff, Wanted, hsym, decide_eq_true_eq]
  constructor
  · rintro ⟨hwants, rfl, hlo, hhi⟩
    exact ⟨rfl, hlo, hhi, hwants⟩
  · rintro ⟨hid, hlo, hhi, hwants⟩
    exact ⟨hwants, (Option.some.inj hid).symm, hlo, hhi⟩

theorem wanted_live {req : QueryRequest} {s : Threads} {e : Event} (h : Wanted req s e = true) :
    e.event_type ≠ .Tombstone := by
  rw [Wanted, decide_eq_true_eq, QueryRequest.wants, decide_eq_true_eq] at h
  exact h.2.2.2.1

theorem filter_wanted (req : QueryRequest) (s : Threads) (l : List Event) :
    (live l).filter (Wanted req s) = l.filter (Wanted req s) := by
  rw [live, List.filter_filter]
  refine List.filter_congr fun e _ => ?_
  rw [Bool.and_eq_left_iff_imp, decide_eq_true_eq]
  exact wanted_live

/-! ## Where it can find it -/

def inMemtables (db : DB) : List Event := db.active_mem.nodes ++ db.imm_mems.flatMap MemTable.nodes

def inFiles (db : DB) : List Event := (files_to_scan db.levels).flatMap (fileEvents db.disk.ssts)

theorem visible_eq (db : DB) : visible db = inMemtables db ++ inFiles db := by
  rw [inMemtables, inFiles, visible, buriedEvents, List.append_assoc]

/-! ## Its steps -/

def run (req : QueryRequest) (s : Threads) (acts : List Act) : Threads := acts.foldl (Threads.act req) s

def isQuery : Act → Bool
  | .query => true
  | _ => false

/-- The other threads leave it where it is. -/
theorem act_query (req : QueryRequest) (s : Threads) {a : Act} (ha : a ≠ .query) :
    (s.act req a).query = s.query := by
  cases a with
  | query => exact absurd rfl ha
  | insert i height =>
      rw [Threads.act, Threads.insert]
      split <;> rfl
  | pop =>
      rw [Threads.act, Threads.pop]
      split <;> rfl
  | flush i =>
      rw [Threads.act, Threads.flush]
      split
      · rfl
      · rfl
      · split <;> rfl
      · rfl
  | _ => rfl

/-- A query that has returned makes no more steps. -/
theorem returned_run {req : QueryRequest} {s : Threads} {r : QueryResult}
    (hs : s.query = .returned r) (acts : List Act) : (run req s acts).query = .returned r := by
  refine Run.invariant (I := fun s : Threads => s.query = .returned r) (fun s a hs => ?_) acts hs
  by_cases ha : a = .query
  · subst ha
    rw [Threads.act, hs, Querying.next]
  · exact (act_query req s ha).trans hs

theorem next_idle {req : QueryRequest} {db : DB} {sym_id : UInt32} (hopened : db.closed = false)
    (hsym : db.symbols.lookup req.symbol = some sym_id) :
    Querying.idle.next req db = .looked_up sym_id := by
  rw [Querying.next, hopened, hsym]
  rfl

theorem next_unknown {req : QueryRequest} {db : DB} (hopened : db.closed = false)
    (hsym : db.symbols.lookup req.symbol = none) :
    Querying.idle.next req db = .returned {} := by
  rw [Querying.next, hopened, hsym]
  rfl

/-! ## Before the threads start -/

/-- The threads over a database that calls were made of before. -/
def started (t : Tracked) : Threads :=
  { db := t.db, acked := t.ref.entries.map fun p => (p.1.symbol, p.2) }

end Kronos
