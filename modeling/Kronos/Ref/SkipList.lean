import Mathlib.Logic.Function.Basic
import Mathlib.Order.Lattice
import Kronos.Ref.MemTable

/-!
# Skip lists

The nodes lie in an arena, a node is known by its address, and a list is what
the `next_` pointers make it. Addresses are given out in order, the head has
the first one. Both searches walk right while the next key is below the target
and go down a level when it is not. Whether a walk ends depends on the
pointers, so the loops run on fuel, a round for each level and each node, and
have no result when it is used up or an element of `prev` is read that was not
set.

`<` stands for `cmp_`. The height of a new node is an argument of `insert`.
-/

namespace Kronos

abbrev Addr := Nat

/-- `next` at `i` is `next_[i]`, for `i` below `height`. -/
structure Node (K V : Type) where
  key : K
  val_ptr : Option V
  height : Nat
  next : Nat → Option Addr

structure SkipList (K V : Type) where
  heap : Addr → Node K V
  /-- the first address that is not given out -/
  allocated : Nat
  max_height : Nat
  count : Nat

namespace SkipList

/-- `Node* prev[kMaxHeight]`, with what is set of it. -/
abbrev Prev := Nat → Option Addr

/-- `head_` -/
def head : Addr := 0

variable {K V : Type}

def new [Inhabited K] : SkipList K V :=
  { heap := fun _ => ⟨default, none, kMaxHeight, fun _ => none⟩
    allocated := 1
    max_height := 1
    count := 0 }

/-! ## Loads and stores -/

def key (s : SkipList K V) (x : Addr) : K := (s.heap x).key

def load_next (s : SkipList K V) (x : Addr) (level : Nat) : Option Addr := (s.heap x).next level

def store_next (s : SkipList K V) (x : Addr) (level : Nat) (n : Option Addr) : SkipList K V :=
  let node := s.heap x
  { s with heap :=
      Function.update s.heap x { node with next := Function.update node.next level n } }

def store_val_ptr (s : SkipList K V) (x : Addr) (v : V) : SkipList K V :=
  let node := s.heap x
  { s with heap := Function.update s.heap x { node with val_ptr := some v } }

def store_max_height (s : SkipList K V) (h : Nat) : SkipList K V := { s with max_height := h }

/-- At address `allocated`. -/
def new_node (s : SkipList K V) (k : K) (v : V) (h : Nat) : SkipList K V :=
  { s with
    heap := Function.update s.heap s.allocated ⟨k, some v, h, fun _ => none⟩
    allocated := s.allocated + 1 }

/-! ## Searching -/

variable [LinearOrder K]

/-- `nx != nullptr && cmp_(nx->key, target)` -/
def precedes (s : SkipList K V) (target : K) (nx : Option Addr) : Bool :=
  nx.any fun nx => s.key nx < target

/-- Where a search stands after a load: at a node and a level, or done. -/
inductive Search where
  | at_ (x : Addr) (lvl : Nat)
  | found (node : Option Addr)
  deriving DecidableEq, Repr

/-- One round of the loop of `find_first_ge`, which loads one pointer. -/
def search_round (s : SkipList K V) (target : K) (x : Addr) (lvl : Nat) : Search :=
  let nx := s.load_next x lvl
  match nx, s.precedes target nx with
  | some nx, true => .at_ nx lvl
  | nx, _ =>
      match lvl with
      | 0 => .found nx
      | lvl + 1 => .at_ x lvl

/-- The loop of `find_first_ge`. -/
def find_first_ge_from (s : SkipList K V) (target : K) :
    Nat → Addr → Nat → Option (Option Addr)
  | 0, _, _ => none
  | fuel + 1, x, lvl =>
      match s.search_round target x lvl with
      | .found node => some node
      | .at_ x lvl => find_first_ge_from s target fuel x lvl

/-- The loop of `find_prev`. -/
def find_prev_from (s : SkipList K V) (target : K) :
    Nat → Addr → Nat → Prev → Option (Addr × Prev)
  | 0, _, _, _ => none
  | fuel + 1, x, lvl, prev =>
      let nx := s.load_next x lvl
      match nx, s.precedes target nx with
      | some nx, true => find_prev_from s target fuel nx lvl prev
      | _, _ =>
          let prev := Function.update prev lvl (some x)
          match lvl with
          | 0 => some (x, prev)
          | lvl + 1 => find_prev_from s target fuel x lvl prev

def fuel (s : SkipList K V) : Nat := s.allocated + s.max_height

def find_first_ge (s : SkipList K V) (target : K) : Option (Option Addr) :=
  s.find_first_ge_from target s.fuel head (s.max_height - 1)

def find_prev (s : SkipList K V) (target : K) : Option (Addr × Prev) :=
  s.find_prev_from target s.fuel head (s.max_height - 1) fun _ => none

/-- `x != nullptr && !cmp_(x->key, k) && !cmp_(k, x->key)` -/
def has_key (s : SkipList K V) (k : K) (x : Option Addr) : Bool :=
  x.any fun x => ¬ s.key x < k ∧ ¬ k < s.key x

def contains (s : SkipList K V) (k : K) : Option Bool :=
  (s.find_first_ge k).map (s.has_key k)

/-! ## Inserting -/

/-- `prev` with the head at the levels from `cur_max` up to `h`. -/
def raise_prev (cur_max h : Nat) (prev : Prev) : Prev := fun i =>
  if cur_max ≤ i ∧ i < h then some head else prev i

/-- One round of the loop that links a node in: two stores. -/
def link_level (n : Addr) (prev : Prev) (s : SkipList K V) (i : Nat) : Option (SkipList K V) := do
  let p ← prev i
  let s := s.store_next n i (s.load_next p i)
  some (s.store_next p i (some n))

def insert (k : K) (v : V) (height : Fin kMaxHeight) (s : SkipList K V) :
    Option (SkipList K V) := do
  let (x, prev) ← s.find_prev k
  match s.load_next x 0, s.has_key k (s.load_next x 0) with
  | some x, true => some (s.store_val_ptr x v)
  | _, _ =>
      let h := height.val + 1
      let cur_max := s.max_height
      let prev := raise_prev cur_max h prev
      let s := if cur_max < h then s.store_max_height h else s
      let n := s.allocated
      let s ← (List.range h).foldlM (link_level n prev) (s.new_node k v h)
      some { s with count := s.count + 1 }

/-! ## Iterating -/

/-- `Iterator::value`: `*node_->val_ptr` -/
def value (s : SkipList K V) (x : Addr) : Option V := (s.heap x).val_ptr

def seek_to_first (s : SkipList K V) : Option Addr := s.load_next head 0

def seek (s : SkipList K V) (target : K) : Option (Option Addr) := s.find_first_ge target

/-- `Iterator::next` -/
def next (s : SkipList K V) (x : Addr) : Option Addr := s.load_next x 0

end SkipList

end Kronos
