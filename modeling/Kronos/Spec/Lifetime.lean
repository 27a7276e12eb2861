import Kronos.Ref.Process
import Kronos.Spec.Histories
import Kronos.Spec.SequenceIds
import Kronos.Spec.Served

/-!
# The lifetime of a directory

A directory is opened with the log on, again and again. A session takes its
steps one after the other or is a process whose threads run beside each other.
It ends with a crash, or with the last step of its `close`, and a crash can come
while the log is opened. Kept beside the directory are the appends that returned
and every event that was written, that of an interrupted write included.

A crash that cuts a write to the symbol file short is left out: what is
interned behind it is lost.
-/

namespace Kronos.Spec

open Kronos

/-- What a crash leaves while `open` is at the log. -/
inductive OpenLeaves (cfg : DBConfig) (disk : Disk) : Disk → Prop where
  /-- the directory is there -/
  | directory : OpenLeaves cfg disk { disk with wal := some (disk.wal.getD ∅) }
  /-- the writer has its segment -/
  | segment {s : WalState}
      (hs : WALWriter.create (disk.wal.getD ∅) cfg.wal_segment_bytes = .ok () s) :
      OpenLeaves cfg disk { disk with wal := some s.dir }
  /-- the torn tail is cut off, and the next segment not yet there -/
  | truncated {s : WalState}
      (hs : WALWriter.create (disk.wal.getD ∅) cfg.wal_segment_bytes = .ok () s)
      (htorn : (read_all (disk.wal.getD ∅)).torn = true) :
      OpenLeaves cfg disk { disk with
        wal := some (WALWriter.truncate (read_all (disk.wal.getD ∅)).clean_end_offset s).dir }

/-- The symbol and the event of an append that returns. -/
def acknowledged (db : DB) : Step → Option (Bytes × Event)
  | .append symbol args height io =>
      match db.append symbol args height io with
      | .ok _ _ => written db (.append symbol args height io)
      | .error _ _ => none
  | _ => none

/-- The appends of a run of steps that return, in order. -/
def acknowledgedAlong (db : DB) : List Step → List (Bytes × Event)
  | [] => []
  | s :: steps => (acknowledged db s).toList ++ acknowledgedAlong (step db s) steps

/-- A process, with the appends that have returned and every event that a call has
drawn. -/
structure Watched where
  process : Process
  told : List (Bytes × Event) := []
  drawn : List Event := []

namespace Watched

def note_next (s : Watched) (i : Nat) (process : Process) : Watched :=
  match s.process.writers.active_null, s.process.writers.calls[i]? with
  | _, some ⟨args, .interned sym_id⟩ =>
      { s with process, drawn := s.drawn ++ [(Writers.draw sym_id s.process.writers.db args).1] }
  | false, some ⟨.append symbol _, .inserted e _⟩ =>
      { s with process, told := s.told ++ [(symbol, e)] }
  | _, _ => { s with process }

def act (s : Watched) (a : ProcessAct) : Watched :=
  match a with
  | .write (.next i _) => s.note_next i (s.process.act a)
  | _ => { s with process := s.process.act a }

/-- A process that has just opened the directory. -/
def start (cfg : DBConfig) (disk : Disk) (listing : List SSTablePath)
    (heights : Nat → Fin kMaxHeight) : Watched :=
  { process := { writers := { db := opened cfg disk listing heights } } }

end Watched

/-- What a crash of a process leaves: one call at most is in its record, and of the
table files some may be cut off or gone. -/
structure ProcessLeaves (s : Process) (disk : Disk) : Prop where
  symbol_table : disk.symbol_table = s.writers.db.disk.symbol_table
  wal : ∃ torn, disk.wal = Sessions.wal_left s.writers torn
  ssts : ∀ path file, disk.ssts.lookup path = some file →
    s.writers.db.disk.ssts.lookup path = some file ∨ ∃ t, file = .torn t ∧ t.meta_ = none

/-- The symbol of a call fits an entry of the symbol file. -/
def ShortCall : ProcessAct → Prop
  | .write (.call args) => args.symbol.length ≤ 65535
  | _ => True

/-- The directories that sessions with the log on leave, the appends that
returned, and everything that was written. -/
inductive Lifetime : Disk → List (Bytes × Event) → List Event → Prop where
  | new : Lifetime {} [] []
  | opening {disk disk' : Disk} {told : List (Bytes × Event)} {events : List Event}
      (h : Lifetime disk told events) (cfg : DBConfig) (hcrash : OpenLeaves cfg disk disk') :
      Lifetime disk' told events
  | session {disk disk' : Disk} {told : List (Bytes × Event)} {events : List Event}
      (h : Lifetime disk told events) (cfg : DBConfig) (hwal : cfg.wal_enabled = true)
      (listing : List SSTablePath) (heights : Nat → Fin kMaxHeight) (steps : List Step) (s : Step)
      (hio : ∀ s' ∈ steps ++ [s], Unhindered s' ∧ ShortSymbol s')
      (hend : CrashLeaves (steps.foldl step (opened cfg disk listing heights)) s disk')
      (hshut : Shut disk'.ssts)
      (hsymbols : disk'.symbol_table =
          (steps.foldl step (opened cfg disk listing heights)).disk.symbol_table ∨
        disk'.symbol_table =
          (step (steps.foldl step (opened cfg disk listing heights)) s).disk.symbol_table) :
      Lifetime disk' (told ++ acknowledgedAlong (opened cfg disk listing heights) steps)
        (events ++ writesAlong (opened cfg disk listing heights) (steps ++ [s]))
  | process {disk disk' : Disk} {told : List (Bytes × Event)} {events : List Event}
      (h : Lifetime disk told events) (cfg : DBConfig) (hwal : cfg.wal_enabled = true)
      (listing : List SSTablePath) (heights : Nat → Fin kMaxHeight) (acts : List ProcessAct)
      (hshort : ∀ a ∈ acts, ShortCall a)
      (hend : ProcessLeaves
        (acts.foldl Watched.act (Watched.start cfg disk listing heights)).process disk') :
      Lifetime disk'
        (told ++ (acts.foldl Watched.act (Watched.start cfg disk listing heights)).told)
        (events ++ (acts.foldl Watched.act (Watched.start cfg disk listing heights)).drawn)

/-- A session, with the paths of the files it has written. -/
structure Filing where
  db : DB
  made : List SSTablePath := []

namespace Filing

def step (t : Filing) (s : Step) : Filing :=
  ⟨Spec.step t.db s, t.made ++ (created t.db s).map Prod.fst⟩

/-- Not a step of `close`, and a compaction writes over no file that the session
itself has written. -/
def Proceeds (t : Filing) (s : Step) : Prop :=
  Unhindered s ∧ ShortSymbol s ∧ ¬ Closes s ∧
    (s = .compact → ∀ c ∈ created t.db s, c.1 ∉ t.made)

end Filing

/-- Of what was told, an event whose key no other write has is in the rows of every
query that asks for it and whose limit is above its rows. -/
def Returned (told : List (Bytes × Event)) (events : List Event) (db : DB) : Prop :=
  ∀ p ∈ told, p.2.event_type ≠ .Tombstone → (∀ e ∈ events, e.key = p.2.key → e = p.2) →
    ∀ req, Asks req p → rowCount db req < req.row_limit →
      ∃ r, db.query req = .ok r ∧ p.2 ∈ r.rows

end Kronos.Spec
