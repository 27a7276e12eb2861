import Kronos.Ref.SkipThreads

/-!
# What an iteration sees

The keys come in order, nothing that was in the list when the iteration started
is passed over or seen twice, and nothing is seen that was not inserted.
-/

namespace Kronos.Spec

open Kronos

variable {K V : Type} [LinearOrder K]

/-- The node is linked at level 0. -/
inductive LinkedIn (s : SkipList K V) : Addr → Prop where
  | first {x : Addr} (h : s.seek_to_first = some x) : LinkedIn s x
  | next {x y : Addr} (hx : LinkedIn s x) (h : s.next x = some y) : LinkedIn s y

/-- The iteration so far, up to the last node it came to. -/
structure SafeIteration (s : SkipThreads K V) : Prop where
  increasing : s.visited.Pairwise (· < ·)
  above : ∀ t, s.target = some t → ∀ k ∈ s.visited, t ≤ k
  inserted : ∀ k ∈ s.visited, ∃ v, (k, v) ∈ s.inserted
  once : ∀ x, LinkedIn s.start x → (∀ t, s.target = some t → t ≤ s.start.key x) →
    (∃ last, s.visited.getLast? = some last ∧ s.start.key x ≤ last) →
      s.visited.count (s.start.key x) = 1
  values : ∀ p ∈ s.reads, ∃ v, p.2 = some v ∧ (p.1, v) ∈ s.inserted

end Kronos.Spec
