import Kronos.Ref.Server
import Kronos.Spec.Served

/-!
# What a client of the API gets back

A server takes requests, one after the other, and between them flushes, compactions
and the synthetic generator go on. Beside it it is noted which ingest requests were
answered with which sequence id, and what was deleted. A row of a query should give
back what the body of the ingest request said.
-/

namespace Kronos.Spec

open Kronos

/-- What the JSON library documents of its conversions: a string is taken as it is, an
integer of any size is cast. -/
structure Documented (lib : JsonLibrary) : Prop where
  string : ∀ j s, lib.get_string j = some s ↔ j = .string s
  uint64 : ∀ n, lib.get_uint64 (.integer n) = some (UInt64.ofInt n)
  int64 : ∀ n, lib.get_int64 (.integer n) = some (Int64.ofInt n)
  uint32 : ∀ n, lib.get_uint32 (.integer n) = some (UInt32.ofInt n)

/-! ## Rows -/

/-- The types that numbers are cast to. -/
inductive Width where
  | unsigned (bits : Nat)
  | signed (bits : Nat)

def Width.cast : Width → Int → Int
  | unsigned bits, n => n % 2 ^ bits
  | signed bits, n => n.bmod (2 ^ bits)

/-- The numbers of an event other than its sequence id. -/
def numbers : List (String × Width) :=
  [("timestamp_ns", .unsigned 64), ("price_ticks", .signed 64), ("bid_px_ticks", .signed 64),
    ("ask_px_ticks", .signed 64), ("quantity", .unsigned 32), ("bid_qty", .unsigned 32),
    ("ask_qty", .unsigned 32), ("order_id", .unsigned 64)]

/-- A row gives back the body of an ingest request: its strings, and each of its integers
as far as the type of the field holds it; 0 for what the body left out. -/
structure Echoes (body : Json) (id : UInt64) (row : Json) : Prop where
  sequence_id : row.find "sequence_id" = some (.integer id.toNat)
  symbol : row.find "symbol" = body.find "symbol"
  event_type : row.find "event_type" = body.find "event_type"
  sent : ∀ p ∈ numbers, ∀ n, body.find p.1 = some (.integer n) →
    row.find p.1 = some (.integer (p.2.cast n))
  left_out : ∀ p ∈ numbers, body.find p.1 = none → row.find p.1 = some (.integer 0)

/-! ## A server -/

structure Serving where
  db : DB
  /-- a division by zero has ended the process -/
  stopped : Bool := false
  /-- the bodies of the ingest requests that were answered, with the sequence ids -/
  ingested : List (Json × UInt64) := []
  /-- timestamp and sequence id of the delete requests that were answered -/
  deleted : List (UInt64 × UInt64) := []

inductive ServerStep where
  | request (env : Surroundings) (req : Request)
  /-- the flush and compaction threads, and the worker of the generator -/
  | background (s : Step)

/-- The sequence id of an answer to a write. -/
def answered_id : Option Response → Option UInt64
  | some (.ok body) =>
      match body.find "sequence_id" with
      | some (.integer n) => some (UInt64.ofInt n)
      | _ => none
  | _ => none

namespace Serving

variable (lib : JsonLibrary)

def step (t : Serving) : ServerStep → Serving
  | .background s => if t.stopped then t else { t with db := Spec.step t.db s }
  | .request env req =>
      if t.stopped then t
      else
        let (res, db) := Server.handle lib env req t.db
        let t' := { t with db, stopped := res.isNone }
        match req with
        | .ingest_event text =>
            match lib.parse text, answered_id res with
            | some body, some id => { t' with ingested := t.ingested ++ [(body, id)] }
            | _, _ => t'
        | .delete_event text =>
            match (lib.parse text).map (Server.delete_args lib), answered_id res with
            | some (.ok (_, timestamp_ns, sequence_id)), some _ =>
                { t' with deleted := t.deleted ++ [(timestamp_ns, sequence_id)] }
            | _, _ => t'
        | _ => t'

/-- Opened on an empty directory. -/
def start (cfg : DBConfig) (heights : Nat → Fin kMaxHeight) : Serving :=
  { db := opened cfg {} [] heights }

end Serving

/-- How many appends a step may make. -/
def appendsOf (lib : JsonLibrary) : ServerStep → Nat
  | .background (.append _ _ _ _) => 1
  | .background _ => 0
  | .request _ (.ingest_event _) => 1
  | .request _ (.benchmark_run text) =>
      match (lib.parse text).map (Server.bench_args lib) with
      | some (.ok (_, events, _)) => events.toNat
      | _ => 0
  | .request _ _ => 0

/-- What goes on in the background is flushes, compactions that write over no listed
file, and appends. -/
def Proper (t : Serving) : ServerStep → Prop
  | .request _ _ => True
  | .background s =>
      ¬ Closes s ∧ (s = .compact → OpensFresh t.db s) ∧
        ∀ symbol timestamp_ns sequence_id height io,
          s ≠ .remove symbol timestamp_ns sequence_id height io

/-- A query request that asks for what an ingest request said, was answered, is no
tombstone and was not deleted since, is answered with a row that gives it back, if its
limit is above its rows. -/
def GivesBack (lib : JsonLibrary) (t : Serving) : Prop :=
  ∀ p ∈ t.ingested, ∀ symbol args, Server.ingest_args lib p.1 = .ok (symbol, args) →
    args.event_type ≠ .Tombstone → (args.timestamp_ns, p.2) ∉ t.deleted →
    ∀ env text body req, lib.parse text = some body →
      Server.query_args lib body = .ok (symbol, req) →
      req.start_ns ≤ args.timestamp_ns → args.timestamp_ns ≤ req.end_ns →
      (req.event_type = none ∨ req.event_type = some args.event_type) →
      rowCount t.db req < req.row_limit →
      ∃ answer rows row, (Server.handle lib env (.query text) t.db).1 = some (.ok answer) ∧
        answer.find "rows" = some (.array rows) ∧ row ∈ rows ∧ Echoes p.1 p.2 row

/-! ## Rejected requests -/

/-- The rows of a query, whatever its statistics are. -/
def rowsOf (db : DB) (req : QueryRequest) : Except DBError (List Event) :=
  (db.query req).map (·.rows)

/-- Answered with 400. -/
def Rejected : Option Response → Prop
  | some (.error status _ _) => status = 400
  | _ => False

/-- A rejected request changes the rows of no query, as long as there are ids for the
symbols. -/
def RejectedKeeps (lib : JsonLibrary) (t : Serving) : Prop :=
  t.db.symbols.size < 2 ^ 32 - 1 → ∀ env req, Rejected (Server.handle lib env req t.db).1 →
    ∀ asked, rowsOf (Server.handle lib env req t.db).2 asked = rowsOf t.db asked

end Kronos.Spec
