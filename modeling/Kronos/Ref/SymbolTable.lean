import Mathlib.Data.List.AList
import Kronos.Ref.Event

/-!
# The symbol table

Names and their ids, both ways, and the next id to give out. The file behind
it is a list of entries, one appended for each new name; `load` reads entries
until one is incomplete. Ids are 32 bits and wrap, the name length in an entry
is 16 bits.
-/

namespace Kronos

structure SymbolTable where
  name_to_id : AList (fun _ : Bytes => UInt32) := ∅
  id_to_name : AList (fun _ : UInt32 => Bytes) := ∅
  next_id : UInt32 := 1

namespace SymbolTable

/-- `[id : 4 LE] [name_len : 2 LE] [name]`, the length cut to 16 bits. -/
def entry (id : UInt32) (name : Bytes) : Bytes :=
  write_le 4 id.toBitVec ++ write_le 2 (BitVec.ofNat 16 name.length) ++ name

def lookup (t : SymbolTable) (symbol : Bytes) : Option UInt32 := t.name_to_id.lookup symbol

def lookup_name (t : SymbolTable) (id : UInt32) : Option Bytes := t.id_to_name.lookup id

/-- The id, the table, and what `append_entry` adds to the file. -/
def intern (t : SymbolTable) (symbol : Bytes) : UInt32 × SymbolTable × Bytes :=
  match t.name_to_id.lookup symbol with
  | some id => (id, t, [])
  | none =>
      let id := t.next_id
      (id, { name_to_id := t.name_to_id.insert symbol id
             id_to_name := t.id_to_name.insert id symbol
             next_id := id + 1 }, entry id symbol)

/-- `intern` where `append_entry` may find that the file cannot be opened, and throw:
the maps and the counter have been set by then. -/
def intern_unless (t : SymbolTable) (symbol : Bytes) (open_ok : Bool) :
    Option UInt32 × SymbolTable × Bytes :=
  match t.name_to_id.lookup symbol with
  | some id => (some id, t, [])
  | none =>
      let id := t.next_id
      let t := { name_to_id := t.name_to_id.insert symbol id
                 id_to_name := t.id_to_name.insert id symbol
                 next_id := id + 1 }
      if open_ok then (some id, t, entry id symbol) else (none, t, [])

/-- The `while` loop of `load`: an entry that is cut off ends it. -/
def load_from (t : SymbolTable) (file : Bytes) : SymbolTable :=
  if 6 ≤ file.length then
    let id : UInt32 := .ofBitVec (read_le 4 file)
    let len := (read_le 2 (file.drop 4) : BitVec 16).toNat
    if 6 + len ≤ file.length then
      let name := (file.drop 6).take len
      let t := { t with
        name_to_id := t.name_to_id.insert name id
        id_to_name := t.id_to_name.insert id name
        next_id := if t.next_id ≤ id then id + 1 else t.next_id }
      load_from t (file.drop (6 + len))
    else t
  else t
termination_by file.length
decreasing_by
  simp only [List.length_drop]
  omega

def load (file : Bytes) : SymbolTable := load_from {} file

def size (t : SymbolTable) : Nat := t.name_to_id.entries.length

/-- The file that a walk over the map writes. -/
def flush_walk (walk : List (Sigma fun _ : Bytes => UInt32)) : Bytes :=
  walk.flatMap fun p => entry p.2 p.1

/-- The file `flush` writes, its entries in the order the map is walked in. -/
def flush (t : SymbolTable) : Bytes :=
  t.name_to_id.entries.flatMap fun p => entry p.2 p.1

/-- Where the order of the hash map matters: `walk` if it goes over the map, and
the order of `flush` if it does not. -/
def walked (t : SymbolTable) (walk : List (Sigma fun _ : Bytes => UInt32)) :
    List (Sigma fun _ : Bytes => UInt32) :=
  if walk.Perm t.name_to_id.entries then walk else t.name_to_id.entries

end SymbolTable

end Kronos
