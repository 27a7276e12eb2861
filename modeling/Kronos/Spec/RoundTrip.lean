import Kronos.Ref.TableFile

/-!
# What a table file should give back

The events that were added, cut into blocks by what `BlockBuilder::add`
refuses, and for a callback that has enough after `j` events the first `j` of
a range.
-/

namespace Kronos.Spec

open Kronos

/-- The event goes into the last block, unless that refuses it. -/
def place (target : Nat) (blocks : List (List Event)) (e : Event) : List (List Event) :=
  match blocks.getLast? with
  | none => [[e]]
  | some block =>
      if (BlockBuilder.add e ⟨target, block⟩).1 then blocks.dropLast ++ [block ++ [e]]
      else blocks ++ [[e]]

/-- The blocks a writer fills. -/
def blocksOf (target : Nat) (events : List Event) : List (List Event) :=
  events.foldl (place target) []

/-- The bytes of a block. -/
def blockBytes (block : List Event) : Bytes := BlockBuilder.finish ⟨0, block⟩

/-- The sizes and the number of the blocks fit the 32 bits they are stored in, and
the file is one that the operating system can address. -/
structure Storable (target : Nat) (events : List Event) (file : Bytes) : Prop where
  sizes : ∀ b ∈ blocksOf target events, (blockBytes b).length < 2 ^ 32
  count : (blocksOf target events).length < 2 ^ 32
  file : file.length < 2 ^ 63

/-- Notes what it is given and answers false to the `j`-th event. -/
def upTo (j : Nat) : Callback (List Event) := fun seen e =>
  (seen ++ [e], seen.length + 1 ≠ j)

end Kronos.Spec
