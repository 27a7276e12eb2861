import Mathlib.Data.Set.Basic
import Kronos.Ref.Arena

/-!
# What an arena is for

Whoever asks for bytes gets bytes of one block that nobody else has. A block
that `operator new[]` returns starts at a multiple of 16, so an offset that is a
multiple of 8 is an address that is one.
-/

namespace Kronos.Spec

open Kronos

inductive ArenaCall where
  | allocate (n : Nat) (new_ok : Bool)
  | allocate_aligned (n : Nat) (new_ok : Bool)
  deriving DecidableEq, Repr

/-- An arena and the regions it has given out. -/
structure Given where
  arena : BlockArena := {}
  regions : List Region := []
  deriving DecidableEq, Repr

namespace Given

/-- What a call is answered; nothing is given where it throws. -/
def answer (g : Given) (size : Nat) : Option (Option Pointer × BlockArena) → Given
  | none => g
  | some (ptr, arena) => ⟨arena, g.regions ++ [⟨ptr, size⟩]⟩

def call (g : Given) : ArenaCall → Given
  | .allocate n new_ok => g.answer n (g.arena.allocate n new_ok)
  | .allocate_aligned n new_ok => g.answer n (g.arena.allocate_aligned n new_ok)

end Given

/-- The bytes of a region. -/
def regionBytes (r : Region) : Set Pointer :=
  {b | ∃ p, r.ptr = some p ∧ b.block = p.block ∧ p.offset ≤ b.offset ∧
    b.offset < p.offset + r.size}

/-- The bytes of all blocks. -/
def blockBytesOf (blocks : List Nat) : Set Pointer :=
  {b | ∃ size, blocks[b.block]? = some size ∧ b.offset < size}

/-- Rounding the size up does not wrap. -/
def RoundsUp : ArenaCall → Prop
  | .allocate _ _ => True
  | .allocate_aligned n _ => n + 7 < 2 ^ 64

instance : DecidablePred RoundsUp
  | .allocate _ _ => inferInstanceAs (Decidable True)
  | .allocate_aligned _ _ => inferInstanceAs (Decidable (_ < _))

/-- A call that leaves the pointer at a multiple of 8. -/
def KeepsAligned : ArenaCall → Prop
  | .allocate n _ => 8 ∣ n
  | .allocate_aligned _ _ => True

instance : DecidablePred KeepsAligned
  | .allocate _ _ => inferInstanceAs (Decidable (_ ∣ _))
  | .allocate_aligned _ _ => inferInstanceAs (Decidable True)

/-- What the callers of an arena rely on. -/
structure OwnBytes (g : Given) : Prop where
  /-- who asked for bytes has a pointer -/
  given : ∀ r ∈ g.regions, 0 < r.size → r.ptr.isSome
  inside : ∀ r ∈ g.regions, regionBytes r ⊆ blockBytesOf g.arena.blocks
  apart : g.regions.Pairwise fun r r' => regionBytes r ∩ regionBytes r' = ∅
  memory_used : g.arena.memory_used = g.arena.blocks.sum

def AlignedRegions (g : Given) : Prop :=
  ∀ r ∈ g.regions, ∀ p, r.ptr = some p → 8 ∣ p.offset

/-! ## Memtables -/

/-- An insert, and whether `operator new[]` would give it a block. -/
structure MemInsert where
  e : Event
  height : Fin kMaxHeight
  value_ok : Bool := true
  node_ok : Bool := true
  deriving DecidableEq, Repr

/-- What a call leaves, whether it returns or throws. -/
def memoryAfter : MemTableMemory.Result Unit → MemTableMemory
  | .ok _ m => m
  | .error _ m => m

namespace MemInsert

def act (m : MemTableMemory) (i : MemInsert) : MemTableMemory :=
  memoryAfter (m.insert i.e i.height i.value_ok i.node_ok)

/-- The same insert into the memtable that only keeps sizes. -/
def sized (t : MemTable) (i : MemInsert) : MemTable := t.insert i.e i.height

end MemInsert

/-- The arena of a memtable and its objects. -/
def givenOf (m : MemTableMemory) : Given := ⟨m.arena, m.objects⟩

/-- The two sizes that `Arena` keeps. -/
def sizesOf (a : BlockArena) : Arena := ⟨a.remaining, a.used⟩

end Kronos.Spec
