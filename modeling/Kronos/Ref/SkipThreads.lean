import Kronos.Ref.SkipList

/-!
# A reader beside the writer of a skip list

The single writer stores one pointer, value or `max_height_` a step, the reader
of an iterator loads one a step, in any order. The writer's own loads are part
of the step before: nobody else stores. A node is its own until the first
pointer to it is stored, so setting it up is no step either.
-/

namespace Kronos

namespace SkipList

/-- Where `insert` stands, before a store. -/
inductive ListWriter (K V : Type) where
  | idle
  /-- before the store of `val_ptr` -/
  | replacing (x : Addr) (v : V)
  /-- before the store of `max_height_` -/
  | raising (k : K) (v : V) (h : Nat) (prev : Prev)
  /-- at level `i`, before the store to `n`, or, if `n` is ready, to `prev[i]` -/
  | linking (n : Addr) (h : Nat) (prev : Prev) (i : Nat) (ready : Bool)
  /-- before the store of `count_` -/
  | counting

/-- Where an `Iterator` stands. -/
inductive ListReader (K : Type) where
  | idle
  /-- in `seek`, before the load of `x->next_[lvl]` -/
  | seeking (target : K) (x : Addr) (lvl : Nat)
  /-- at `node_` -/
  | on (node : Option Addr)

variable {K V : Type} [LinearOrder K]

namespace ListWriter

/-- From `new_node` to the first store of the loop. -/
def allocate (k : K) (v : V) (h : Nat) (prev : Prev) (s : SkipList K V) :
    ListWriter K V × SkipList K V :=
  (.linking s.allocated h prev 0 false, s.new_node k v h)

/-- `insert` up to its first store. -/
def begin (k : K) (v : V) (height : Fin kMaxHeight) (s : SkipList K V) :
    ListWriter K V × SkipList K V :=
  match s.find_prev k with
  | none => (.idle, s)
  | some (x, prev) =>
      match s.load_next x 0, s.has_key k (s.load_next x 0) with
      | some x, true => (.replacing x v, s)
      | _, _ =>
          let h := height.val + 1
          let cur_max := s.max_height
          let prev := raise_prev cur_max h prev
          if cur_max < h then (.raising k v h prev, s) else allocate k v h prev s

/-- The next store, and `insert` up to the one after it. -/
def store (w : ListWriter K V) (s : SkipList K V) : ListWriter K V × SkipList K V :=
  match w with
  | idle => (.idle, s)
  | replacing x v => (.idle, s.store_val_ptr x v)
  | raising k v h prev => allocate k v h prev (s.store_max_height h)
  | linking n h prev i false =>
      match prev i with
      | none => (w, s)
      | some p => (.linking n h prev i true, s.store_next n i (s.load_next p i))
  | linking n h prev i true =>
      match prev i with
      | none => (w, s)
      | some p =>
          let s := s.store_next p i (some n)
          (if i + 1 < h then .linking n h prev (i + 1) false else .counting, s)
  | counting => (.idle, { s with count := s.count + 1 })

end ListWriter

end SkipList

open SkipList

/-- The list, where its two threads stand, and what happened: the inserts that were
begun, the list when the iteration started, its target, the keys of the nodes it
came to and the values it read. -/
structure SkipThreads (K V : Type) where
  list : SkipList K V
  writer : ListWriter K V := .idle
  reader : ListReader K := .idle
  inserted : List (K × V) := []
  start : SkipList K V
  target : Option K := none
  visited : List K := []
  reads : List (K × Option V) := []

inductive SkipAct (K V : Type) where
  /-- the writer, if it is idle, begins an insert -/
  | insert (k : K) (v : V) (height : Fin kMaxHeight)
  | store
  /-- the reader starts over -/
  | seek (target : K)
  | seek_to_first
  /-- the next load of `seek` -/
  | load
  | value
  | next

namespace SkipThreads

variable {K V : Type} [LinearOrder K]

def new [Inhabited K] : SkipThreads K V := { list := .new, start := .new }

/-- The iterator comes to a node, or to the end. -/
def arrive (s : SkipThreads K V) (node : Option Addr) : SkipThreads K V :=
  { s with
    reader := .on node
    visited := s.visited ++ (node.map s.list.key).toList }

/-- A new iteration. -/
def restart (s : SkipThreads K V) (target : Option K) : SkipThreads K V :=
  { s with start := s.list, target, visited := [], reads := [] }

def act (s : SkipThreads K V) : SkipAct K V → SkipThreads K V
  | .insert k v height =>
      match s.writer with
      | .idle =>
          let (writer, list) := ListWriter.begin k v height s.list
          { s with writer, list, inserted := s.inserted ++ [(k, v)] }
      | _ => s
  | .store =>
      let (writer, list) := s.writer.store s.list
      { s with writer, list }
  | .seek target =>
      { s.restart (some target) with
        reader := .seeking target head (s.list.max_height - 1) }
  | .seek_to_first => (s.restart none).arrive s.list.seek_to_first
  | .load =>
      match s.reader with
      | .seeking target x lvl =>
          match s.list.search_round target x lvl with
          | .at_ x lvl => { s with reader := .seeking target x lvl }
          | .found node => s.arrive node
      | _ => s
  | .value =>
      match s.reader with
      | .on (some x) => { s with reads := s.reads ++ [(s.list.key x, s.list.value x)] }
      | _ => s
  | .next =>
      match s.reader with
      | .on (some x) => s.arrive (s.list.next x)
      | _ => s

end SkipThreads

end Kronos
