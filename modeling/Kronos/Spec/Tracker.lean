import Kronos.Lib.Run
import Kronos.Ref.Metrics

/-!
# Where the amounts are

The tracker with a book kept beside it: what every call of `add` passed, which
amounts are in `pending_` and which of them each update took, and which calls
have been overtaken: behind their reading of the clock another call stored a
later one.
-/

namespace Kronos.Spec

open Kronos

structure Ledger where
  tracker : ThroughputTracker := {}
  /-- what each call passed -/
  amounts : List UInt64 := []
  /-- the calls whose amounts are in `pending_` -/
  held : List Nat := []
  /-- of each update, what it got from the exchange and whose amounts these were -/
  taken : List (UInt64 × List Nat) := []
  overtaken : List Nat := []

namespace Ledger

/-- The clock reading that a step's compare-exchange stores, if it succeeds. -/
def stored (l : Ledger) : TrackerStep → Option UInt64
  | .next i =>
      match l.tracker.calls[i]? with
      | some (.loaded now last) =>
          if l.tracker.last_ns = last ∧ (last = 0 ∨ ¬ now - last < 100000000) then some now
          else none
      | _ => none
  | _ => none

/-- The calls with an earlier reading that have `last_ns_` still to load. -/
def behind (l : Ledger) (now : UInt64) : List Nat :=
  (List.range l.tracker.calls.length).filter fun i =>
    l.tracker.calls[i]?.any fun call =>
      match call with
      | .clocked read => read < now
      | _ => false

def step (l : Ledger) (st : TrackerStep) : Ledger :=
  let tracker := l.tracker.step st
  let overtaken := l.overtaken ++ (l.stored st).elim [] l.behind
  match st with
  | .tick _ => { l with tracker, overtaken }
  | .add n =>
      { l with
        tracker
        overtaken
        amounts := l.amounts ++ [n]
        held := l.held ++ [l.amounts.length] }
  | .next i =>
      match l.tracker.calls[i]? with
      | some (.won _) =>
          { l with
            tracker
            overtaken
            held := []
            taken := l.taken ++ [(l.tracker.pending, l.held)] }
      | _ => { l with tracker, overtaken }

/-- The amounts of some calls, added up as `pending_` does. -/
def sum (amounts : List UInt64) (ids : List Nat) : UInt64 :=
  ids.foldl (fun s i => s + amounts.getD i 0) 0

/-- Every amount is in `pending_` or in one update, and in no second place. -/
structure Accounted (l : Ledger) : Prop where
  calls : l.amounts.length = l.tracker.calls.length
  places : (l.held ++ (l.taken.map Prod.snd).flatten).Perm (List.range l.amounts.length)
  pending : l.tracker.pending = sum l.amounts l.held
  updates : ∀ u ∈ l.taken, u.1 = sum l.amounts u.2

/-- No call has a difference `now - last` that wraps. -/
def Unwrapped (l : Ledger) : Prop :=
  ∀ now last, .loaded now last ∈ l.tracker.calls → last ≤ now

/-- A call that loads `last_ns_` has not been overtaken. -/
def InTime (l : Ledger) : TrackerStep → Prop
  | .next i => ∀ now, l.tracker.calls[i]? = some (.clocked now) → i ∉ l.overtaken
  | _ => True

/-- Time goes forward over a step, and the amounts are accounted for behind it. -/
def Forward (l : Ledger) (st : TrackerStep) : Prop :=
  (l.step st).Unwrapped ∧ l.tracker.last_ns ≤ (l.step st).tracker.last_ns ∧
    (l.step st).Accounted

end Ledger

end Kronos.Spec
