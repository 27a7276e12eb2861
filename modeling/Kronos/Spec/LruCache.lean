import Kronos.Lib.Fitting
import Kronos.Ref.BlockCache

/-!
# A byte-bounded LRU map

What the block cache is for: a list of keys with their bytes, the most recently
used one first, of which a `put` keeps as much from the front as fits.
-/

namespace Kronos.Spec

open Kronos

inductive CacheCall where
  | get (key : BlockKey)
  | put (key : BlockKey) (data : Bytes)
  | evict (path : SSTablePath)
  deriving DecidableEq

structure Lru where
  max_bytes : Nat
  entries : List (BlockKey × Bytes) := []

namespace Lru

/-- The entries without a key's. -/
def others (key : BlockKey) (l : Lru) : List (BlockKey × Bytes) := l.entries.filter (·.1 ≠ key)

def get (key : BlockKey) (l : Lru) : Option Bytes × Lru :=
  match l.entries.find? (·.1 = key) with
  | none => (none, l)
  | some e => (some e.2, { l with entries := e :: l.others key })

def put (key : BlockKey) (data : Bytes) (l : Lru) : Lru :=
  { l with entries := Fitting.fit (·.2.length) l.max_bytes ((key, data) :: l.others key) }

def evict (path : SSTablePath) (l : Lru) : Lru :=
  { l with entries := l.entries.filter (·.1.path ≠ path) }

def call (l : Lru) : CacheCall → Lru
  | .get key => (l.get key).2
  | .put key data => l.put key data
  | .evict path => l.evict path

end Lru

/-- The bytes that the last `put` of a key stored. -/
def lastPut (key : BlockKey) (calls : List CacheCall) : Option Bytes :=
  calls.foldl (fun last call =>
    match call with
    | .put k data => if k = key then some data else last
    | _ => last) none

end Kronos.Spec

namespace Kronos.BlockCache

open Spec

def call (c : BlockCache) : CacheCall → BlockCache
  | .get key => (c.get key).2
  | .put key data => c.put key data
  | .evict path => c.evict path

/-- What the caller of `get` finds behind the pointer it is handed. -/
def read (key : BlockKey) (c : BlockCache) : Option Bytes :=
  (c.get key).1.bind fun node => (node? node (c.get key).2.lru).map (·.data)

/-- The list as the map has it. -/
def view (c : BlockCache) : Lru := ⟨c.max_bytes, c.lru.map fun e => (e.key, e.data)⟩

/-! ## What is taken off the total -/

/-- The total before and what is subtracted, for each round of the loop in `put`. -/
def evictions : Nat → BlockCache → List (Nat × Nat)
  | 0, _ => []
  | n + 1, c =>
      if c.max_bytes < c.cur_bytes ∧ c.lru ≠ [] then
        (c.lru.getLast?.map fun back => (c.cur_bytes, back.data.length)).toList ++
          evictions n c.evict_lru
      else []

/-- The same for the loop in `evict`, an entry in front of the rest at a time. -/
def erasures (path : SSTablePath) : List Entry → BlockCache → List (Nat × Nat)
  | [], _ => []
  | e :: rest, c =>
      (if e.key.path = path then [(c.cur_bytes, e.data.length)] else []) ++
        erasures path rest (c.evict_from path [e])

/-- Every subtraction from `cur_bytes_` that a call makes. -/
def subtractions (c : BlockCache) : CacheCall → List (Nat × Nat)
  | .get _ => []
  | .put key data =>
      let pushed := (c.drop_key key).push_front key data
      (((c.index.lookup key).bind (node? · c.lru)).map fun e =>
        (c.cur_bytes, e.data.length)).toList ++ evictions pushed.lru.length pushed
  | .evict path => erasures path c.lru c

end Kronos.BlockCache
