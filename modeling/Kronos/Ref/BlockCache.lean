import Mathlib.Data.List.AList
import Kronos.Ref.SSTable

/-!
# The block cache

The raw bytes of table blocks, by file and offset: a list, the most recently
used entry first, and an index into it. `get` answers a pointer to an entry and
lets go of the lock, `put` evicts from the back while the total is too large.

A pointer is the number of a list node. `splice` moves a node, `push_front`
makes a new one.
-/

namespace Kronos

structure BlockKey where
  path : SSTablePath
  offset : Nat
  deriving DecidableEq, Repr

structure BlockCache.Entry where
  node : Nat
  key : BlockKey
  data : Bytes
  deriving DecidableEq, Repr

structure BlockCache where
  max_bytes : Nat
  cur_bytes : Nat := 0
  lru : List BlockCache.Entry := []
  /-- the node of each key -/
  index : AList (fun _ : BlockKey => Nat) := ∅
  /-- the next node of `push_front` -/
  next_node : Nat := 0

namespace BlockCache

/-- `list::erase` -/
def erase_node (node : Nat) (lru : List Entry) : List Entry := lru.filter (·.node ≠ node)

def node? (node : Nat) (lru : List Entry) : Option Entry := lru.find? (·.node = node)

/-- `lru_.splice(lru_.begin(), lru_, it)` -/
def to_front (node : Nat) (lru : List Entry) : List Entry :=
  (node? node lru).toList ++ erase_node node lru

/-- The pointer, and the cache with its entry in front. -/
def get (key : BlockKey) (c : BlockCache) : Option Nat × BlockCache :=
  match c.index.lookup key with
  | none => (none, c)
  | some node => (some node, { c with lru := to_front node c.lru })

def evict_lru (c : BlockCache) : BlockCache :=
  match c.lru.getLast? with
  | none => c
  | some back =>
      { c with
        cur_bytes := c.cur_bytes - back.data.length
        index := c.index.erase back.key
        lru := c.lru.dropLast }

/-- The loop at the end of `put`; it ends when the list is empty. -/
def evict_while : Nat → BlockCache → BlockCache
  | 0, c => c
  | n + 1, c => if c.max_bytes < c.cur_bytes ∧ c.lru ≠ [] then evict_while n c.evict_lru else c

/-- Drop the entry of the key. -/
def drop_key (key : BlockKey) (c : BlockCache) : BlockCache :=
  match c.index.lookup key with
  | none => c
  | some node =>
      { c with
        cur_bytes := c.cur_bytes - ((node? node c.lru).map (·.data.length)).getD 0
        lru := erase_node node c.lru
        index := c.index.erase key }

def push_front (key : BlockKey) (data : Bytes) (c : BlockCache) : BlockCache :=
  { c with
    lru := ⟨c.next_node, key, data⟩ :: c.lru
    index := c.index.insert key c.next_node
    cur_bytes := c.cur_bytes + data.length
    next_node := c.next_node + 1 }

def put (key : BlockKey) (data : Bytes) (c : BlockCache) : BlockCache :=
  let c := (c.drop_key key).push_front key data
  c.evict_while c.lru.length

/-- The loop of `evict` from an iterator on: an entry of the path is erased,
another one passed over. -/
def evict_from (path : SSTablePath) : List Entry → BlockCache → BlockCache
  | [], c => c
  | e :: rest, c =>
      evict_from path rest
        (if e.key.path = path then
          { c with
            cur_bytes := c.cur_bytes - e.data.length
            index := c.index.erase e.key
            lru := erase_node e.node c.lru }
        else c)

/-- Remove all blocks belonging to `path`. -/
def evict (path : SSTablePath) (c : BlockCache) : BlockCache := c.evict_from path c.lru

end BlockCache

/-! ## Calls beside each other -/

/-- Where a call of `read_block_at` is. -/
inductive BlockReading where
  /-- a hit, its pointer not yet read through -/
  | hit (key : BlockKey) (node : Nat)
  /-- a miss, with what `pread` gets: nothing if it is short -/
  | missed (key : BlockKey) (buf : Option Bytes)
  | decoded (block : Option Bytes)
  /-- "SSTable block read failed" -/
  | threw
  deriving DecidableEq

structure BlockReadings where
  cache : BlockCache
  calls : List BlockReading := []

inductive BlockStep where
  /-- a call, up to its `get` -/
  | get (key : BlockKey) (buf : Option Bytes)
  /-- what the `i`-th call does next: decode what it has or `put` what it read -/
  | next (i : Nat)
  deriving DecidableEq

namespace BlockReadings

def get (key : BlockKey) (buf : Option Bytes) (s : BlockReadings) : BlockReadings :=
  match s.cache.get key with
  | (some node, cache) => { cache, calls := s.calls ++ [.hit key node] }
  | (none, cache) => { cache, calls := s.calls ++ [.missed key buf] }

def next (i : Nat) (s : BlockReadings) : BlockReadings :=
  match s.calls[i]? with
  | some (.hit _ node) =>
      { s with calls := s.calls.set i
                 (.decoded ((BlockCache.node? node s.cache.lru).map (·.data))) }
  | some (.missed key (some buf)) =>
      { cache := s.cache.put key buf, calls := s.calls.set i (.decoded (some buf)) }
  | some (.missed _ none) => { s with calls := s.calls.set i .threw }
  | _ => s

def step (s : BlockReadings) : BlockStep → BlockReadings
  | .get key buf => s.get key buf
  | .next i => s.next i

end BlockReadings

end Kronos
