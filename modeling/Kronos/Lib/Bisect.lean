import Mathlib.Data.List.Basic
import Mathlib.Tactic.Common

/-!
# Halving an interval

The search that keeps a half-open interval, looks at its middle and goes on in
the half the answer says, until one position is left. It needs no order on
what it looks at: the position it ends at is one where the answer was yes, or
where it began, and behind that position the answer was no, or the interval
ended there.
-/

namespace Bisect

/-- `while (lo + 1 < hi)`: up to the middle on a yes, down to it on a no. -/
def bisect (yes : Nat → Bool) (lo hi : Nat) : Nat :=
  if lo + 1 < hi then
    let mid := (lo + hi) / 2
    if yes mid then bisect yes mid hi else bisect yes lo mid
  else lo
termination_by hi - lo
decreasing_by all_goals omega

/-- Where it did not stay, the answer was yes. -/
theorem bisect_yes (yes : Nat → Bool) (lo hi : Nat) :
    bisect yes lo hi = lo ∨ yes (bisect yes lo hi) = true := by
  fun_induction bisect yes lo hi with
  | case1 lo hi hlt mid hyes ih =>
      refine .inr (ih.elim (fun h => ?_) id)
      rw [h]
      exact hyes
  | case2 lo hi hlt mid hno ih => exact ih
  | case3 lo hi hlt => exact .inl rfl

/-- Where it ended, the interval ended or the answer behind was no. -/
theorem bisect_stop (yes : Nat → Bool) (lo hi : Nat) (h : lo < hi) :
    bisect yes lo hi < hi ∧
      (bisect yes lo hi + 1 = hi ∨ yes (bisect yes lo hi + 1) = false) := by
  fun_induction bisect yes lo hi with
  | case1 lo hi hlt mid hyes ih => exact ih (by omega)
  | case2 lo hi hlt mid hno ih =>
      obtain ⟨hin, hstop⟩ := ih (by omega)
      refine ⟨by omega, .inr (hstop.elim (fun h => ?_) id)⟩
      rw [h]
      exact Bool.eq_false_iff.mpr hno
  | case3 lo hi hlt => exact ⟨h, .inl (by omega)⟩

end Bisect
