import Kronos.Spec.Symbols

/-!
# A symbol table whose file cannot always be opened

An `intern` that throws should leave the table as it was. What `intern` has
answered should then be in the file, so that a table loaded from it, with no
`flush` before, has the name under that id and the id under no other name.
-/

namespace Kronos.Spec

open Kronos

inductive FileCall where
  /-- with whether `append_entry` can open the file -/
  | intern (name : Bytes) (open_ok : Bool)
  | flush (walk : List (Sigma fun _ : Bytes => UInt32))
  | reload
  deriving DecidableEq

namespace Symbols

def write (s : Symbols) : FileCall → Symbols
  | .intern name open_ok =>
      let (id, table, entry) := s.table.intern_unless name open_ok
      { (s.grow entry) with table, told := s.told ++ (id.map (name, ·)).toList }
  | .flush walk => s.call (.flush walk)
  | .reload => s.call .reload

/-- The call throws. -/
def Throws (s : Symbols) : FileCall → Prop
  | .intern name open_ok => (s.table.intern_unless name open_ok).1 = none
  | _ => False

/-- What was answered is what a table loaded now says. -/
structure InFile (s : Symbols) : Prop where
  ids : ∀ p ∈ s.told, s.reload.table.lookup p.1 = some p.2
  owner : ∀ p ∈ s.told, ∀ name,
    s.reload.table.lookup name = some p.2 ∨ s.reload.table.lookup_name p.2 = some name →
      name = p.1

/-- A call that throws changes nothing, and what was answered is in the file. -/
def Atomic (s : Symbols) (c : FileCall) : Prop :=
  (s.Throws c → (s.write c).table = s.table) ∧ (s.write c).InFile

/-- A name that gets an id is written, is not longer than an entry can say, and
the id is no other name's. -/
def Writable (s : Symbols) : FileCall → Prop
  | .intern name open_ok => s.table.lookup name = none →
      open_ok = true ∧ name.length ≤ 65535 ∧ ∀ n, s.table.lookup n ≠ some s.table.next_id
  | _ => True

end Symbols

end Kronos.Spec
