import Mathlib.Data.List.Dedup
import Kronos.Ref.LinkedMemTable
import Kronos.Ref.SSTable

/-!
# What a memtable is

A map from keys to the event that was inserted last under each, which is walked
in key order.
-/

namespace Kronos.Spec

open Kronos

/-- The memtable after some inserts, every new node with the height it got. -/
def filled (inserts : List (Event × Fin kMaxHeight)) : Option LinkedMemTable :=
  inserts.foldlM (fun m p => m.insert p.1 p.2) {}

def lastInserted (inserted : List Event) (k : Key) : Option Event :=
  (inserted.filter (·.key = k)).getLast?

/-- The memtable is the map that the inserts make. -/
structure SortedMap (inserted : List Event) (m : LinkedMemTable) : Prop where
  events : ∃ events, m.to_sorted_events = some events ∧
    events.Pairwise (fun e e' => e.key < e'.key) ∧
    (∀ e, e ∈ events ↔ lastInserted inserted e.key = some e) ∧
    ∀ (σ : Type) (cb : Callback σ) (s : σ) (start end_ : Key), m.scan start end_ cb s =
      some (feed cb s (events.filter fun e => start ≤ e.key ∧ e.key ≤ end_)).1
  count : m.count = (inserted.map Event.key).dedup.length
  min_key : inserted ≠ [] → m.min_key ∈ inserted.map Event.key ∧
    ∀ e ∈ inserted, m.min_key ≤ e.key
  max_key : inserted ≠ [] → m.max_key ∈ inserted.map Event.key ∧
    ∀ e ∈ inserted, e.key ≤ m.max_key
  contains : ∀ k, m.sl.contains k = some (decide (k ∈ inserted.map Event.key))

end Kronos.Spec
