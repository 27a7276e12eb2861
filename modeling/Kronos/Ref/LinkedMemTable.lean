import Kronos.Ref.SkipList

/-!
# The memtable with its skip list

`MemTable` keeps level 0 of the skip list and the size of the arena. Here is the
same class with the skip list as it lies in memory and with the bounds of its
keys, which it keeps beside the list. A walk takes one round a node.
-/

namespace Kronos

instance : Inhabited Key := ⟨⟨0, 0, 0⟩⟩

structure LinkedMemTable where
  sl : SkipList Key Event := .new
  has_entries : Bool := false
  first_key : Key := default
  last_key : Key := default

namespace LinkedMemTable

def insert (e : Event) (height : Fin kMaxHeight) (m : LinkedMemTable) :
    Option LinkedMemTable := do
  let sl ← m.sl.insert e.key e height
  let k := e.key
  if ¬ m.has_entries then
    some { sl, has_entries := true, first_key := k, last_key := k }
  else
    some { m with
      sl
      first_key := if k < m.first_key then k else m.first_key
      last_key := if k > m.last_key then k else m.last_key }

variable {σ : Type}

/-- The loop of `scan`. -/
def scan_from (sl : SkipList Key Event) (end_ : Key) (cb : Callback σ) :
    Nat → σ → Option Addr → Option σ
  | _, s, none => some s
  | 0, _, some _ => none
  | fuel + 1, s, some x =>
      if sl.key x > end_ then some s
      else do
        let e ← sl.value x
        match cb s e with
        | (s, true) => scan_from sl end_ cb fuel s (sl.next x)
        | (s, false) => some s

def scan (start end_ : Key) (cb : Callback σ) (s : σ) (m : LinkedMemTable) : Option σ := do
  let node ← m.sl.seek start
  scan_from m.sl end_ cb m.sl.fuel s node

/-- The loop of `to_sorted_events`. -/
def collect (sl : SkipList Key Event) : Nat → Option Addr → Option (List Event)
  | _, none => some []
  | 0, some _ => none
  | fuel + 1, some x => do
      let e ← sl.value x
      let rest ← collect sl fuel (sl.next x)
      some (e :: rest)

def to_sorted_events (m : LinkedMemTable) : Option (List Event) :=
  collect m.sl m.sl.fuel m.sl.seek_to_first

def count (m : LinkedMemTable) : Nat := m.sl.count

def min_key (m : LinkedMemTable) : Key := if m.has_entries then m.first_key else default

def max_key (m : LinkedMemTable) : Key := if m.has_entries then m.last_key else default

end LinkedMemTable

end Kronos
