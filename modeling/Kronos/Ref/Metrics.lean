import Mathlib.Algebra.Order.Floor.Ring
import Mathlib.Data.Rat.Floor

/-!
# Metrics

`LatencyHistogram` counts latencies in 64 buckets of powers of two and reads a
percentile off the running sum. The counters are natural numbers, as no process
records 2^64 latencies; the `double` arithmetic is that of the rationals.

`ThroughputTracker` gathers amounts in `pending_` and, at most every 100 ms,
turns them into a rate. Its calls run beside each other and are cut at their
atomic steps: the `fetch_add`, the reading of the clock, the load of `last_ns_`,
the compare-exchange, and the exchange of `pending_`. The average that the rate
goes into is left out.
-/

namespace Kronos

/-! ## LatencyHistogram -/

structure LatencyHistogram where
  buckets : List Nat
  total : Nat
  sum : UInt64

namespace LatencyHistogram

def kBuckets : Nat := 64

def empty : LatencyHistogram := { buckets := List.replicate kBuckets 0, total := 0, sum := 0 }

/-- `64 - __builtin_clzll(us)` is the number of significant bits. -/
def bucket_for (us : UInt64) : Nat :=
  if us = 0 then 0
  else
    let b := us.toNat.log2 + 1
    min b (kBuckets - 1)

def record (h : LatencyHistogram) (us : UInt64) : LatencyHistogram :=
  { buckets := h.buckets.modify (bucket_for us) (· + 1)
    total := h.total + 1
    sum := h.sum + us }

/-- What is reported for bucket `i`. -/
def midpoint (i : Nat) : ℚ :=
  if i = 0 then 1 / 2
  else
    let lo := 2 ^ (i - 1)
    let hi := 2 ^ i
    ((lo + hi) / 2 : Nat)

/-- The loop over the buckets from `i` on. -/
def walk (target : Nat) : Nat → Nat → List Nat → ℚ
  | _, _, [] => (2 ^ (kBuckets - 1) : Nat)
  | i, cumulative, b :: bs =>
      let cumulative := cumulative + b
      if target ≤ cumulative then midpoint i else walk target (i + 1) cumulative bs

def percentile (p : ℚ) (h : LatencyHistogram) : ℚ :=
  if p ≤ 0 then 0
  else
    let p := if 1 ≤ p then 1 else p
    if h.total = 0 then 0
    else
      let target := ⌊p * h.total⌋₊
      let target := if target = 0 then 1 else target
      walk target 0 0 h.buckets

end LatencyHistogram

/-! ## ThroughputTracker -/

/-- Where a call of `add` is. -/
inductive Adding where
  /-- its amount is in `pending_` -/
  | added
  | clocked (now : UInt64)
  | loaded (now last : UInt64)
  /-- it won the update window -/
  | won (dt : UInt64)
  /-- it took `cnt` for an update, or left without one -/
  | returned (cnt : Option UInt64)
  deriving DecidableEq, Repr

structure ThroughputTracker where
  last_ns : UInt64 := 0
  pending : UInt64 := 0
  /-- what `steady_clock` shows -/
  clock : UInt64 := 0
  calls : List Adding := []

inductive TrackerStep where
  /-- time passes; the clock is monotone -/
  | tick (ns : UInt64)
  /-- a call, up to its `fetch_add` -/
  | add (n : UInt64)
  /-- the next atomic step of the `i`-th call -/
  | next (i : Nat)
  deriving DecidableEq, Repr

namespace ThroughputTracker

/-- `compare_exchange_strong` on `last_ns_`. -/
def exchange_last (last now : UInt64) (s : ThroughputTracker) : Bool × ThroughputTracker :=
  if s.last_ns = last then (true, { s with last_ns := now }) else (false, s)

/-- What a call that has loaded `last` does: the first one only sets the time;
`dt_s < 0.1` leaves. -/
def try_update (now last : UInt64) (s : ThroughputTracker) : Adding × ThroughputTracker :=
  if last = 0 then (.returned none, (s.exchange_last last now).2)
  else
    let dt := now - last
    if dt < 100000000 then (.returned none, s)
    else
      match s.exchange_last last now with
      | (false, s) => (.returned none, s)
      | (true, s) => (.won dt, s)

def advance (s : ThroughputTracker) : Adding → Adding × ThroughputTracker
  | .added => (.clocked s.clock, s)
  | .clocked now => (.loaded now s.last_ns, s)
  | .loaded now last => s.try_update now last
  | .won _ => (.returned (some s.pending), { s with pending := 0 })
  | .returned cnt => (.returned cnt, s)

def next (i : Nat) (s : ThroughputTracker) : ThroughputTracker :=
  match s.calls[i]? with
  | none => s
  | some call =>
      let (call, s) := s.advance call
      { s with calls := s.calls.set i call }

def step (s : ThroughputTracker) : TrackerStep → ThroughputTracker
  | .tick ns => { s with clock := max s.clock ns }
  | .add n => { s with pending := s.pending + n, calls := s.calls ++ [.added] }
  | .next i => s.next i

end ThroughputTracker

end Kronos
