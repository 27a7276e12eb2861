import Kronos.Ref.Query

/-!
# The HTTP API

The handlers that `Server::setup_routes` registers and that use the database:
`/v1/ingest/event`, `/v1/events/delete`, `/v1/query` and `/v1/benchmark/run`. Each
parses the body of its request, takes arguments out of the JSON object, calls the
database and answers with an object or with an error. Which path leads to which
handler is the HTTP library's doing, so a request names its handler here.

The JSON library is not in the repository. `JsonLibrary` is what the handlers call
it for: parsing, and the conversions `get<T>()`. The lookups `at`, `value` and
`contains` are those of a map. A handler's arguments to the database are taken out
in the order in which they are written.

Clocks go into the events of a benchmark only; latencies, the throughput and the
file that a benchmark leaves are left out.
-/

namespace Kronos

/-- Integers that fit neither 64-bit type become `float`s when they are parsed. -/
inductive Json where
  | null
  | boolean (b : Bool)
  | integer (n : Int)
  /-- a `double`, by its 64 bits -/
  | float (bits : UInt64)
  | string (s : String)
  | array (values : List Json)
  | object (members : List (String × Json))

/-- Each gives nothing where the library throws. -/
structure JsonLibrary where
  parse : Bytes → Option Json
  get_string : Json → Option String
  get_uint64 : Json → Option UInt64
  get_int64 : Json → Option Int64
  get_uint32 : Json → Option UInt32

/-- Why a request failed. -/
inductive Failure where
  /-- "request body is not valid JSON" -/
  | not_json
  /-- an exception of the JSON library: a key that is missing, a value of another type -/
  | json
  /-- "unknown event_type: " -/
  | unknown_event_type (s : String)
  | db (err : DBError)
  /-- "only 'ingest' supported via API; use bench/ binaries for others" -/
  | unsupported
  deriving DecidableEq, Repr

namespace Json

def find (key : String) : Json → Option Json
  | object members => members.lookup key
  | _ => none

/-- `at` -/
def at_ (key : String) (j : Json) : Except Failure Json :=
  match j.find key with
  | some v => .ok v
  | none => .error .json

/-- `get<T>()` -/
def get {α : Type} (conversion : Json → Option α) (j : Json) : Except Failure α :=
  match conversion j with
  | some v => .ok v
  | none => .error .json

/-- `value` throws on what is no object, and where the key is there but its value does
not convert. -/
def value {α : Type} (conversion : Json → Option α) (key : String) (default : α) (j : Json) :
    Except Failure α :=
  match j with
  | object members =>
      match members.lookup key with
      | some v => v.get conversion
      | none => .ok default
  | _ => .error .json

end Json

/-! ## Requests and answers -/

inductive Request where
  | ingest_event (body : Bytes)
  | delete_event (body : Bytes)
  | query (body : Bytes)
  | benchmark_run (body : Bytes)
  deriving DecidableEq, Repr

/-- `respond_ok` and `respond_err`; the body of an error has its code and the text of its
reason. -/
inductive Response where
  | ok (body : Json)
  | error (status : Nat) (code : String) (reason : Failure)

/-- What a handler meets outside: for its `i`-th write the height of the new node, the
operating system, and the clock. -/
structure Surroundings where
  heights : Nat → Fin kMaxHeight
  io : Nat → AppendIO
  now : Nat → UInt64

namespace Server

/-- A `std::string` of JSON is a symbol as it is. -/
def symbol_of (s : String) : Bytes := s.toUTF8.data.toList

variable (lib : JsonLibrary)

def event_type_of (s : String) : Except Failure EventType :=
  match Event.parse_event_type s with
  | some t => .ok t
  | none => .error (.unknown_event_type s)

/-! ## POST /v1/ingest/event -/

/-- The arguments of `append`: the symbol, and the other fields of the event. -/
def ingest_args (body : Json) : Except Failure (String × Event) := do
  let symbol ← (← body.at_ "symbol").get lib.get_string
  let timestamp_ns ← (← body.at_ "timestamp_ns").get lib.get_uint64
  let event_type ← event_type_of (← (← body.at_ "event_type").get lib.get_string)
  let price_ticks ← body.value lib.get_int64 "price_ticks" 0
  let bid_px_ticks ← body.value lib.get_int64 "bid_px_ticks" 0
  let ask_px_ticks ← body.value lib.get_int64 "ask_px_ticks" 0
  let quantity ← body.value lib.get_uint32 "quantity" 0
  let bid_qty ← body.value lib.get_uint32 "bid_qty" 0
  let ask_qty ← body.value lib.get_uint32 "ask_qty" 0
  let order_id ← body.value lib.get_uint64 "order_id" 0
  return (symbol, { timestamp_ns, event_type, price_ticks, bid_px_ticks, ask_px_ticks, quantity,
                    bid_qty, ask_qty, order_id })

/-- The answer to a write. -/
def written_body (r : AppendResult) : Json :=
  .object [("ok", .boolean true), ("sequence_id", .integer r.sequence_id.toNat),
    ("wal_offset", .integer r.wal_offset)]

/-- What the `try` block around a write makes of its outcome. -/
def respond_written : DBResult AppendResult → Response × DB
  | .ok r db => (.ok (written_body r), db)
  | .error err db => (.error 400 "INVALID_REQUEST" (.db err), db)

def ingest_event (env : Surroundings) (body : Json) (db : DB) : Response × DB :=
  match ingest_args lib body with
  | .error reason => (.error 400 "INVALID_REQUEST" reason, db)
  | .ok (symbol, args) =>
      respond_written (db.append (symbol_of symbol) args (env.heights 0) (env.io 0))

/-! ## POST /v1/events/delete -/

def delete_args (body : Json) : Except Failure (String × UInt64 × UInt64) := do
  let symbol ← (← body.at_ "symbol").get lib.get_string
  let timestamp_ns ← (← body.at_ "timestamp_ns").get lib.get_uint64
  let sequence_id ← (← body.at_ "sequence_id").get lib.get_uint64
  return (symbol, timestamp_ns, sequence_id)

def delete_event (env : Surroundings) (body : Json) (db : DB) : Response × DB :=
  match delete_args lib body with
  | .error reason => (.error 400 "INVALID_REQUEST" reason, db)
  | .ok (symbol, timestamp_ns, sequence_id) =>
      respond_written
        (db.remove (symbol_of symbol) timestamp_ns sequence_id (env.heights 0) (env.io 0))

/-! ## POST /v1/query -/

/-- An `event_type` of null is as good as none. -/
def type_filter (body : Json) : Except Failure (Option EventType) :=
  match body.find "event_type" with
  | none => .ok none
  | some .null => .ok none
  | some v => do return some (← event_type_of (← v.get lib.get_string))

def query_args (body : Json) : Except Failure (String × QueryRequest) := do
  let symbol ← (← body.at_ "symbol").get lib.get_string
  let start_ns ← body.value lib.get_uint64 "start_ns" 0
  let end_ns ← body.value lib.get_uint64 "end_ns" 0xFFFFFFFFFFFFFFFF
  let limit ← body.value lib.get_uint32 "limit" 1000
  let event_type ← type_filter lib body
  return (symbol, { symbol := symbol_of symbol, start_ns, end_ns, event_type, limit })

/-- One row, under the symbol that was asked for. -/
def row (symbol : String) (e : Event) : Json :=
  .object [("timestamp_ns", .integer e.timestamp_ns.toNat),
    ("symbol", .string symbol),
    ("sequence_id", .integer e.sequence_id.toNat),
    ("event_type", .string (Event.event_type_name e.event_type)),
    ("price_ticks", .integer e.price_ticks.toInt),
    ("bid_px_ticks", .integer e.bid_px_ticks.toInt),
    ("ask_px_ticks", .integer e.ask_px_ticks.toInt),
    ("quantity", .integer e.quantity.toNat),
    ("bid_qty", .integer e.bid_qty.toNat),
    ("ask_qty", .integer e.ask_qty.toNat),
    ("order_id", .integer e.order_id.toNat)]

def columns : List String :=
  ["timestamp_ns", "symbol", "sequence_id", "event_type", "price_ticks", "bid_px_ticks",
    "ask_px_ticks", "quantity", "bid_qty", "ask_qty", "order_id"]

def stats_body (st : QueryStats) : Json :=
  .object [("files_considered", .integer st.files_considered),
    ("files_skipped", .integer st.files_skipped),
    ("blocks_read", .integer st.blocks_read),
    ("rows_scanned", .integer st.rows_scanned),
    ("rows_returned", .integer st.rows_returned)]

def query_body (symbol : String) (r : QueryResult) : Json :=
  .object [("ok", .boolean true),
    ("columns", .array (columns.map .string)),
    ("rows", .array (r.rows.map (row symbol))),
    ("stats", stats_body r.stats)]

def query (body : Json) (db : DB) : Response :=
  match query_args lib body with
  | .error reason => .error 400 "INVALID_REQUEST" reason
  | .ok (symbol, req) =>
      match db.query req with
      | .error err => .error 400 "INVALID_REQUEST" (.db err)
      | .ok r => .ok (query_body symbol r)

/-! ## POST /v1/benchmark/run -/

/-- "BENCH%04u"; the buffer of 16 bytes takes every 32-bit number. -/
def bench_symbol (n : Nat) : String :=
  "BENCH" ++ String.ofList ((Nat.toDigits 10 n).leftpad 4 '0')

/-- What round `i` appends. -/
def bench_event (env : Surroundings) (i : Nat) : Event :=
  { timestamp_ns := env.now i
    event_type := .Trade
    price_ticks := 100
    bid_px_ticks := 99
    ask_px_ticks := 101
    quantity := 100
    bid_qty := 200
    ask_qty := 200
    order_id := .ofNat i }

/-- The loop, with so many rounds to go; `i % symbols` is not by zero. -/
def bench_loop (env : Surroundings) (symbols : UInt32) : Nat → Nat → DB → Except DBError Unit × DB
  | 0, _, db => (.ok (), db)
  | rounds + 1, i, db =>
      match db.append (symbol_of (bench_symbol (i % symbols.toNat))) (bench_event env i)
          (env.heights i) (env.io i) with
      | .error err db => (.error err, db)
      | .ok _ db => bench_loop env symbols rounds (i + 1) db

def bench_args (body : Json) : Except Failure (String × UInt64 × UInt32) := do
  let bench_name ← body.value lib.get_string "benchmark" "ingest"
  let events ← body.value lib.get_uint64 "events" 1000000
  let symbols ← body.value lib.get_uint32 "symbols" 100
  return (bench_name, events, symbols)

/-- Nothing where a division by zero ends the process. -/
def benchmark_run (env : Surroundings) (body : Json) (db : DB) : Option Response × DB :=
  match bench_args lib body with
  | .error reason => (some (.error 500 "INTERNAL" reason), db)
  | .ok (bench_name, events, symbols) =>
      if bench_name ≠ "ingest" then (some (.error 400 "UNSUPPORTED" .unsupported), db)
      else if symbols = 0 ∧ events ≠ 0 then (none, db)
      else
        match bench_loop env symbols events.toNat 0 db with
        | (.error err, db) => (some (.error 500 "INTERNAL" (.db err)), db)
        | (.ok (), db) =>
            (some (.ok (.object [("ok", .boolean true), ("benchmark", .string bench_name),
              ("events", .integer events.toNat)])), db)

/-! ## A request -/

/-- `parse_body`, and the handler behind it. -/
def with_body (text : Bytes) (db : DB) (handler : Json → Option Response × DB) :
    Option Response × DB :=
  match lib.parse text with
  | none => (some (.error 400 "INVALID_JSON" .not_json), db)
  | some body => handler body

def handle (env : Surroundings) (req : Request) (db : DB) : Option Response × DB :=
  match req with
  | .ingest_event text => with_body lib text db fun body =>
      let (res, db) := ingest_event lib env body db
      (some res, db)
  | .delete_event text => with_body lib text db fun body =>
      let (res, db) := delete_event lib env body db
      (some res, db)
  | .query text => with_body lib text db fun body => (some (query lib body db), db)
  | .benchmark_run text => with_body lib text db fun body => benchmark_run lib env body db

end Server

end Kronos
