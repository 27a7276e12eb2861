import Kronos.Ref.Metrics

/-!
# What a percentile is

The bucket that covers a fraction of the samples: so many of them are below its
upper edge, and fewer are below the upper edge of any lower bucket.
-/

namespace Kronos.Spec

open Kronos

/-- The samples below the upper edge of bucket `k`. -/
def below (samples : List UInt64) (k : Nat) : Nat := samples.countP (·.toNat < 2 ^ k)

def IsPercentile (samples : List UInt64) (p : ℚ) (i : Nat) : Prop :=
  p * samples.length ≤ below samples i ∧ ∀ j < i, below samples j < p * samples.length

/-- The histogram after a number of calls of `record`. -/
def recorded (samples : List UInt64) : LatencyHistogram :=
  samples.foldl LatencyHistogram.record .empty

/-- The rank has no fraction to lose, or it is raised to 1 again, or no edge
cuts the samples just there. -/
def RankKept (samples : List UInt64) (p : ℚ) : Prop :=
  (∃ n : Nat, p * samples.length = n) ∨ p * samples.length < 1 ∨
    ∀ k < LatencyHistogram.kBuckets, below samples k ≠ ⌊p * samples.length⌋₊

end Kronos.Spec
