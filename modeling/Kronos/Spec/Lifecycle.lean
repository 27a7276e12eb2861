import Kronos.Lib.Run
import Kronos.Ref.Synthetic

/-!
# What the generator's thread should never do

`std::thread` terminates the program when a joinable thread is assigned to or
destroyed.
-/

namespace Kronos.Spec

open Kronos

/-- No joinable thread was assigned to or destroyed, and one `run_loop` at most has
not returned. -/
structure Alive (g : SyntheticGenerator) : Prop where
  running : g.terminated = false
  one : ∀ (i j : Nat) (l l' : RunLoop), g.loops[i]? = some l → l.active = true →
    g.loops[j]? = some l' → l'.active = true → i = j

/-- The `run_loop` in `worker_` has ended at its deadline, and no `stop` has joined
it. -/
def Expired (g : SyntheticGenerator) : Prop :=
  g.worker.bind (fun i => g.loops[i]?) = some (.done true)

instance (g : SyntheticGenerator) : Decidable (Expired g) :=
  inferInstanceAs (Decidable (_ = some (RunLoop.done true)))

/-- Neither `start` nor the destructor is called on a worker that has expired. -/
def Reaped (g : SyntheticGenerator) : GeneratorAct → Prop
  | .start => ¬ Expired g
  | .destroy => ¬ Expired g
  | _ => True

instance (g : SyntheticGenerator) (a : GeneratorAct) : Decidable (Reaped g a) :=
  match a with
  | .start => inferInstanceAs (Decidable (¬ Expired g))
  | .destroy => inferInstanceAs (Decidable (¬ Expired g))
  | .stop _ => inferInstanceAs (Decidable True)
  | .proceed => inferInstanceAs (Decidable True)
  | .run_loop _ _ => inferInstanceAs (Decidable True)

end Kronos.Spec
