import Kronos.Ref.MemTable

/-!
# The arena with its blocks

`Arena` keeps two sizes. Here is the same class with the blocks that
`operator new[]` gives it and the pointers it gives out, each a block and an
offset in it. Where `operator new[]` throws, nothing has changed yet. A
`size_t` wraps where a size is rounded up.

The objects of a memtable are the head, a value for each insert and a node for
each key.
-/

namespace Kronos

/-- A `char*` that is no `nullptr`. -/
structure Pointer where
  block : Nat
  offset : Nat
  deriving DecidableEq, Repr

structure BlockArena where
  ptr : Option Pointer := none
  remaining : Nat := 0
  used : Nat := 0
  /-- the sizes of `blocks_` -/
  blocks : List Nat := []
  deriving DecidableEq, Repr

/-- What a call was answered, and how many bytes the caller may use there. -/
structure Region where
  ptr : Option Pointer
  size : Nat
  deriving DecidableEq, Repr

namespace BlockArena

def slow_alloc (n : Nat) (new_ok : Bool) (a : BlockArena) : Option (Option Pointer × BlockArena) :=
  if new_ok then
    let sz := if n > Arena.kBlockSize then n else Arena.kBlockSize
    let block := a.blocks.length
    some (some ⟨block, 0⟩,
      { ptr := some ⟨block, n⟩
        remaining := sz - n
        used := a.used + sz
        blocks := a.blocks ++ [sz] })
  else none

/-- `none` is `std::bad_alloc`. -/
def allocate (n : Nat) (new_ok : Bool) (a : BlockArena) : Option (Option Pointer × BlockArena) :=
  if n ≤ a.remaining then
    some (a.ptr,
      { a with
        ptr := a.ptr.map fun p => { p with offset := p.offset + n }
        remaining := a.remaining - n })
  else a.slow_alloc n new_ok

/-- Rounded up to `sizeof(void*)`. -/
def allocate_aligned (n : Nat) (new_ok : Bool) (a : BlockArena) :
    Option (Option Pointer × BlockArena) :=
  a.allocate ((n + 7) % 2 ^ 64 / 8 * 8) new_ok

def memory_used (a : BlockArena) : Nat := a.used

end BlockArena

/-! ## The memory of a memtable -/

inductive AllocError where
  | bad_alloc
  deriving DecidableEq, Repr

/-- The nodes at level 0, and where every object is. -/
structure MemTableMemory where
  nodes : List Event := []
  arena : BlockArena := {}
  objects : List Region := []
  deriving DecidableEq, Repr

namespace MemTableMemory

abbrev Result := EStateM.Result AllocError MemTableMemory

/-- `new (arena_.allocate_aligned(n))` -/
def place (n : Nat) (new_ok : Bool) (m : MemTableMemory) : Result Unit :=
  match m.arena.allocate_aligned n new_ok with
  | none => .error .bad_alloc m
  | some (ptr, arena) => .ok () { m with arena, objects := m.objects ++ [⟨ptr, n⟩] }

/-- A head with every level. -/
def new (new_ok : Bool) : Result Unit := place (nodeSize kMaxHeight) new_ok {}

/-- The value is there before the node is asked for. -/
def insert (e : Event) (height : Fin kMaxHeight) (value_ok node_ok : Bool) (m : MemTableMemory) :
    Result Unit :=
  let known := m.nodes.any (·.key = e.key)
  match m.place kEventSize value_ok with
  | .error err m => .error err m
  | .ok _ m =>
      match if known then .ok () m else m.place (nodeSize (height + 1)) node_ok with
      | .error err m => .error err m
      | .ok _ m => .ok () { m with nodes := Keyed.upsert Event.key e m.nodes }

end MemTableMemory

end Kronos
