import Kronos.Lib.Run
import Kronos.Ref.SymbolTable

/-!
# What a symbol table promises

To its callers a symbol table is a naming that only grows: an id that `intern`
has answered for a name is that name's from then on, in the table and in every
table loaded from the file later, and no other name ever has it.

A session is a table on the file; it ends when the next one loads the file. A
crash ends it in the middle of a write and leaves a prefix of that write.
-/

namespace Kronos.Spec

open Kronos

/-- The table, its file, and what `intern` has answered so far. -/
structure Symbols where
  table : SymbolTable := {}
  file : Option Bytes := none
  told : List (Bytes × UInt32) := []

inductive SymbolCall where
  | intern (name : Bytes)
  /-- with the order in which the hash map is walked -/
  | flush (walk : List (Sigma fun _ : Bytes => UInt32))
  /-- a new table on the same path -/
  | reload
  deriving DecidableEq

namespace Symbols

def names (s : Symbols) : List Bytes := s.told.map Prod.fst

/-- What `append_entry` puts behind the file. -/
def grow (s : Symbols) (data : Bytes) : Symbols :=
  if data = [] then s else { s with file := some (s.file.getD [] ++ data) }

def reload (s : Symbols) : Symbols := { s with table := (s.file.map SymbolTable.load).getD {} }

def call (s : Symbols) : SymbolCall → Symbols
  | .intern name =>
      let (id, table, entry) := s.table.intern name
      { (s.grow entry) with table, told := s.told ++ [(name, id)] }
  | .flush walk => { s with file := some (SymbolTable.flush_walk (s.table.walked walk)) }
  | .reload => s.reload

/-- What was answered still holds, both ways, and `size` counts it. -/
structure Persistent (s : Symbols) : Prop where
  ids : ∀ p ∈ s.told, s.table.lookup p.1 = some p.2 ∧ (s.table.intern p.1).1 = p.2 ∧
    s.table.lookup_name p.2 = some p.1
  distinct : ∀ p ∈ s.told, ∀ q ∈ s.told, p.2 = q.2 → p.1 = q.1
  size : s.table.size = s.names.dedup.length

/-! ## Crashes -/

/-- A call, or a crash in one and the load after it. -/
inductive SymbolEvent where
  | call (c : SymbolCall)
  /-- in `append_entry`, after `k` bytes -/
  | torn_intern (name : Bytes) (k : Nat)
  /-- in `flush`, after `k` bytes -/
  | torn_flush (walk : List (Sigma fun _ : Bytes => UInt32)) (k : Nat)
  deriving DecidableEq

/-- The names an event hands to `intern`. -/
def SymbolEvent.name? : SymbolEvent → Option Bytes
  | .call (.intern name) => some name
  | .torn_intern name _ => some name
  | _ => none

def event (s : Symbols) : SymbolEvent → Symbols
  | .call c => s.call c
  | .torn_intern name k => (s.grow ((s.table.intern name).2.2.take k)).reload
  | .torn_flush walk k =>
      { s with file := some ((SymbolTable.flush_walk (s.table.walked walk)).take k) }.reload

/-- Every name keeps the id `intern` answered for it, and no other name has it. -/
structure Kept (s : Symbols) : Prop where
  ids : ∀ p ∈ s.told, s.table.lookup p.1 = some p.2
  owner : ∀ p ∈ s.told, ∀ name, s.table.lookup name = some p.2 → name = p.1
  distinct : ∀ p ∈ s.told, ∀ q ∈ s.told, p.2 = q.2 → p.1 = q.1

end Symbols

end Kronos.Spec
