import Kronos.Lib.Keyed
import Kronos.Ref.Event

/-!
# Memtables

A memtable is a skip list over an arena. What its readers see of the skip list
is the list at level 0, the nodes in key order; the towers above it only make
finding a place fast. What the towers do decide is how much memory a node
takes, and so when the table is full: the height of a new node is an argument
of `insert`.

The sizes are those of the nodes and events of a 64-bit build.
-/

namespace Kronos

/-- A `std::function<bool(const Event&)>`: what it captures, and whether the
walk goes on. -/
abbrev Callback (σ : Type) := σ → Event → σ × Bool

/-! ## Arena -/

structure Arena where
  remaining : Nat := 0
  used : Nat := 0
  deriving DecidableEq, Repr

namespace Arena

def kBlockSize : Nat := 4096

def allocate (n : Nat) (a : Arena) : Arena :=
  if n ≤ a.remaining then { a with remaining := a.remaining - n }
  else
    let sz := if n > kBlockSize then n else kBlockSize
    { remaining := sz - n, used := a.used + sz }

/-- Rounded up to `sizeof(void*)`. -/
def allocate_aligned (n : Nat) (a : Arena) : Arena := a.allocate ((n + 7) / 8 * 8)

end Arena

/-! ## MemTable -/

abbrev kMaxHeight : Nat := 12

instance : NeZero kMaxHeight := ⟨by decide⟩

/-- `sizeof(Event)` -/
def kEventSize : Nat := 80

/-- `sizeof(Node) + (height - 1) * sizeof(std::atomic<Node*>)` -/
def nodeSize (height : Nat) : Nat := 48 + (height - 1) * 8

structure MemTable where
  flush_threshold : Nat
  arena : Arena
  /-- level 0 of the skip list -/
  nodes : List Event
  deriving DecidableEq, Repr

namespace MemTable

/-- The head node has every level. -/
def new (flush_threshold_bytes : Nat) : MemTable :=
  ⟨flush_threshold_bytes, ({} : Arena).allocate_aligned (nodeSize kMaxHeight), []⟩

/-- A key that is there already gets a new value and no new node. -/
def insert (e : Event) (height : Fin kMaxHeight) (m : MemTable) : MemTable :=
  let arena := m.arena.allocate_aligned kEventSize
  { m with
    arena := if m.nodes.any (·.key = e.key) then arena
      else arena.allocate_aligned (nodeSize (height + 1))
    nodes := Keyed.upsert Event.key e m.nodes }

def empty (m : MemTable) : Bool := m.nodes.isEmpty

def should_flush (m : MemTable) : Bool := m.flush_threshold ≤ m.arena.used

def to_sorted_events (m : MemTable) : List Event := m.nodes

variable {σ : Type}

/-- The loop of `scan`, from the node `seek` found. -/
def scan_from (end_ : Key) (cb : Callback σ) : σ → List Event → σ
  | s, [] => s
  | s, e :: it =>
      if end_ < e.key then s
      else
        match cb s e with
        | (s, true) => scan_from end_ cb s it
        | (s, false) => s

def scan (start end_ : Key) (cb : Callback σ) (s : σ) (m : MemTable) : σ :=
  scan_from end_ cb s (m.nodes.dropWhile (·.key < start))

end MemTable

end Kronos
