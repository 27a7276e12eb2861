import Mathlib.Data.List.Basic

/-!
# The synthetic generator's thread

`start` and `stop` run under `control_mu_`, one of them at a time, and share
`running_` with the `run_loop` that `start` puts into `worker_`. The loop ends
when it finds `running_` cleared or its deadline passed, and clears `running_`
itself on the way out. Each load and store of `running_`, the assignment to
`worker_` and each `join` is a step of its own.

Whether the deadline has passed is an argument of the loop's step. What the
loop generates, and the configuration that says what, are left out. A thread
can be constructed.
-/

namespace Kronos

/-- Where a `run_loop` is. -/
inductive RunLoop where
  | looping
  /-- behind the loop, with `running_` still to be cleared -/
  | leaving (expired : Bool)
  /-- returned, `expired` when it was the deadline that ended it -/
  | done (expired : Bool)
  deriving DecidableEq, Repr

/-- It has not returned. -/
def RunLoop.active : RunLoop → Bool
  | done _ => false
  | _ => true

inductive GeneratorAnswer where
  | started (job_id : String)
  /-- "generator already running" -/
  | already_running
  | stopped (events_generated : Nat)
  /-- "unknown job_id: " -/
  | unknown_job (job_id : String)
  deriving DecidableEq, Repr

/-- Where the call under `control_mu_`, or the destructor, is. -/
inductive Control where
  | idle
  /-- `start`, after it found `running_` cleared and reset the counter -/
  | checked
  /-- `start`, with the thread still to be put into `worker_` -/
  | spawning
  /-- `stop`, with `worker_` still to be joined -/
  | stopping
  /-- the destructor, after its exchange -/
  | destroying (was_running : Bool)
  | destroyed
  deriving DecidableEq, Repr

structure SyntheticGenerator where
  current_job_id : String := ""
  running : Bool := false
  events_generated : Nat := 0
  /-- which `run_loop` `worker_` holds, if it is joinable -/
  worker : Option Nat := none
  /-- every `run_loop` that was started, in order -/
  loops : List RunLoop := []
  control : Control := .idle
  answer : Option GeneratorAnswer := none
  /-- `std::terminate` was called -/
  terminated : Bool := false
  deriving DecidableEq, Repr

namespace SyntheticGenerator

/-- `worker_.join()` returns: its `run_loop` has. -/
def joins (g : SyntheticGenerator) : Bool :=
  match g.worker with
  | none => true
  | some i =>
      g.loops[i]?.any fun l => ¬ l.active

/-! ## Calls -/

def start (g : SyntheticGenerator) : SyntheticGenerator :=
  if g.running then { g with answer := some .already_running }
  else
    { g with
      current_job_id := "synthetic-001"
      events_generated := 0
      control := .checked }

def stop (job_id : String) (g : SyntheticGenerator) : SyntheticGenerator :=
  if job_id ≠ g.current_job_id then { g with answer := some (.unknown_job job_id) }
  else { g with running := false, control := .stopping }

def destroy (g : SyntheticGenerator) : SyntheticGenerator :=
  { g with running := false, control := .destroying g.running }

/-- The next step of the call that is under way. -/
def proceed (g : SyntheticGenerator) : SyntheticGenerator :=
  match g.control with
  | .idle => g
  | .checked => { g with running := true, control := .spawning }
  | .spawning =>
      let loops := g.loops ++ [RunLoop.looping]
      -- the assignment to a joinable thread terminates
      if g.worker.isSome then { g with loops, terminated := true }
      else
        { g with
          loops
          worker := some g.loops.length
          control := .idle
          answer := some (.started g.current_job_id) }
  | .stopping =>
      if g.joins then
        { g with worker := none, control := .idle, answer := some (.stopped g.events_generated) }
      else g
  | .destroying was_running =>
      if was_running ∧ g.worker.isSome then
        if g.joins then { g with worker := none, control := .destroyed } else g
      -- so does the destruction of a joinable thread
      else if g.worker.isSome then { g with terminated := true }
      else { g with control := .destroyed }
  | .destroyed => g

/-! ## The worker -/

/-- One step of the `i`-th `run_loop`. -/
def run_loop (i : Nat) (deadline : Bool) (g : SyntheticGenerator) : SyntheticGenerator :=
  match g.loops[i]? with
  | some .looping =>
      if ¬ g.running then { g with loops := g.loops.set i (.leaving false) }
      else if deadline then { g with loops := g.loops.set i (.leaving true) }
      else { g with events_generated := g.events_generated + 1 }
  | some (.leaving expired) => { g with loops := g.loops.set i (.done expired), running := false }
  | _ => g

end SyntheticGenerator

/-! ## The system -/

inductive GeneratorAct where
  /-- a call gets `control_mu_` -/
  | start
  | stop (job_id : String)
  /-- no call is under way or will be -/
  | destroy
  | proceed
  | run_loop (i : Nat) (deadline : Bool)
  deriving DecidableEq, Repr

/-- A call begins when none is under way; nothing happens after `std::terminate`. -/
def SyntheticGenerator.act (g : SyntheticGenerator) (a : GeneratorAct) : SyntheticGenerator :=
  if g.terminated then g
  else
    match a with
    | .start => if g.control = .idle then g.start else g
    | .stop job_id => if g.control = .idle then g.stop job_id else g
    | .destroy => if g.control = .idle then g.destroy else g
    | .proceed => g.proceed
    | .run_loop i deadline => g.run_loop i deadline

end Kronos
