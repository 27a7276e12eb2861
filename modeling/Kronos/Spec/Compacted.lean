import Kronos.Ref.Compaction

/-!
# What a compaction should leave

Of every key the version of the newest input that has it, in key order. What
an input or an output holds is what a scan of everything delivers from its
file.
-/

namespace Kronos.Spec

open Kronos Compaction

/-- A scan of everything, from the file at a path. -/
def scanned (ssts : SSTableDir) (path : SSTablePath) : List Event :=
  match ssts.lookup path with
  | none => []
  | some file => (file.scan minKey maxKey (fun seen e => (seen ++ [e], true)) []).1

/-- A finished file with its events in strictly increasing key order. -/
def SortedFile (ssts : SSTableDir) (path : SSTablePath) : Prop :=
  ∃ t, ssts.lookup path = some (.finished t) ∧ Keyed.Sorted Event.key t.events

/-- The version of its key from the input with the largest number. -/
def Newest (ssts : SSTableDir) (inputs : List SSTableInfo) (e : Event) : Prop :=
  ∃ info ∈ inputs, e ∈ scanned ssts info.path ∧
    ∀ other ∈ inputs, ∀ e' ∈ scanned ssts other.path, e'.key = e.key →
      other.meta_.sequence ≤ info.meta_.sequence

/-- The directory with the outputs in it. -/
def saved (out_dir : Nat) (outputs : List SSTable) (ssts : SSTableDir) : SSTableDir :=
  outputs.foldl (fun ssts t => ssts.insert (output_path out_dir t) (.finished t)) ssts

/-- The scans of the outputs, one after the other. -/
def outputEvents (out_dir : Nat) (outputs : List SSTable) (ssts : SSTableDir) : List Event :=
  outputs.flatMap fun t => scanned (saved out_dir outputs ssts) (output_path out_dir t)

/-- How many events the inputs hold. -/
def inputCount (ssts : SSTableDir) (inputs : List SSTableInfo) : Nat :=
  (inputs.map fun info => (scanned ssts info.path).length).sum

end Kronos.Spec
