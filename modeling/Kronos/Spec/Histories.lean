import Kronos.Spec.Reopened

/-!
# What was ever written to a directory

A directory is opened, by any configuration, again and again. Every session
ends with a crash, or with the last step of its `close`. Kept beside it is what
the sessions handed to the log and the memtables.
-/

namespace Kronos.Spec

open Kronos

/-- The events that a run of steps writes, in order. -/
def writesAlong (db : DB) : List Step → List Event
  | [] => []
  | s :: steps => (written db s).toList.map Prod.snd ++ writesAlong (step db s) steps

/-- A table that was cut off cannot be opened. -/
def Shut (ssts : SSTableDir) : Prop :=
  ∀ path t, ssts.lookup path = some (.torn t) → t.meta_ = none

/-- The directories that sessions leave, and what was written in them. A write
that a crash interrupts counts. -/
inductive History : Disk → List Event → Prop where
  | new : History {} []
  | session {disk disk' : Disk} {events : List Event} (h : History disk events) (cfg : DBConfig)
      (listing : List SSTablePath) (heights : Nat → Fin kMaxHeight) (steps : List Step) (s : Step)
      (hio : ∀ s' ∈ steps ++ [s], Unhindered s')
      (hend : CrashLeaves (steps.foldl step (opened cfg disk listing heights)) s disk')
      (hshut : Shut disk'.ssts) :
      History disk' (events ++ writesAlong (opened cfg disk listing heights) (steps ++ [s]))

end Kronos.Spec
