import Mathlib.Algebra.GroupWithZero.Nat
import Mathlib.Data.List.Basic

/-!
# What fits

Elements have sizes, and of a list only so much fits: the longest prefix whose
total is within a bound. Dropping the last element as long as the total is too
large comes to the same prefix. Whether an element is in it depends on what
stands in front of it and on its own size only.
-/

namespace Fitting

variable {α : Type*} (size : α → Nat)

abbrev total (l : List α) : Nat := (l.map size).sum

/-- The longest prefix of a total within `max`. -/
def fit : Nat → List α → List α
  | _, [] => []
  | max, x :: xs => if size x ≤ max then x :: fit (max - size x) xs else []

/-- The total up to the first element that meets `p`, its own size included. -/
def upTo (p : α → Bool) : List α → Nat
  | [] => 0
  | x :: xs => size x + if p x then 0 else upTo p xs

variable {size}

theorem fit_sublist (max : Nat) (l : List α) : (fit size max l).Sublist l := by
  induction l generalizing max with
  | nil => exact List.Sublist.refl _
  | cons x xs ih =>
      rw [fit]
      split
      · exact (ih _).cons_cons x
      · exact List.nil_sublist _

theorem total_filter_le (p : α → Bool) (l : List α) : total size (l.filter p) ≤ total size l := by
  induction l with
  | nil => exact Nat.le_refl _
  | cons x xs ih =>
      rw [total, total] at ih
      rw [total, total, List.filter_cons, List.map_cons, List.sum_cons]
      split
      · rw [List.map_cons, List.sum_cons]
        omega
      · omega

theorem fit_is_initial (max : Nat) (l : List α) : fit size max l <+: l := by
  induction l generalizing max with
  | nil => exact List.prefix_rfl
  | cons x xs ih =>
      rw [fit]
      split
      · rw [List.cons_prefix_cons]
        exact ⟨rfl, ih _⟩
      · exact List.nil_prefix

theorem total_fit_le (max : Nat) (l : List α) : total size (fit size max l) ≤ max := by
  induction l generalizing max with
  | nil => exact Nat.zero_le _
  | cons x xs ih =>
      rw [fit]
      split
      · have hrest := ih (max - size x)
        rw [total, List.map_cons, List.sum_cons]
        rw [total] at hrest
        omega
      · exact Nat.zero_le _

/-- No longer prefix fits. -/
theorem prefix_fit {max : Nat} {l p : List α} (hp : p <+: l) (h : total size p ≤ max) :
    p <+: fit size max l := by
  induction l generalizing max p with
  | nil => rwa [fit]
  | cons x xs ih =>
      cases p with
      | nil => exact List.nil_prefix
      | cons y ys =>
          obtain ⟨rfl, hys⟩ := List.cons_prefix_cons.mp hp
          rw [total, List.map_cons, List.sum_cons] at h
          rw [fit, if_pos (by omega), List.cons_prefix_cons]
          exact ⟨rfl, ih hys (by rw [total]; omega)⟩

theorem fit_map {β : Type*} (f : β → α) (max : Nat) (l : List β) :
    fit size max (l.map f) = (fit (fun b => size (f b)) max l).map f := by
  induction l generalizing max with
  | nil => rfl
  | cons b l ih =>
      rw [List.map_cons, fit, fit, ih]
      split <;> rfl

theorem fit_of_le {max : Nat} {l : List α} (h : total size l ≤ max) : fit size max l = l := by
  induction l generalizing max with
  | nil => rfl
  | cons x xs ih =>
      rw [total, List.map_cons, List.sum_cons] at h
      rw [fit, if_pos (by omega), ih (by rw [total]; omega)]

/-- What does not fit as a whole fits no better without its last element. -/
theorem fit_concat {max : Nat} {l : List α} {x : α} (h : max < total size (l ++ [x])) :
    fit size max (l ++ [x]) = fit size max l := by
  induction l generalizing max with
  | nil =>
      rw [total, List.nil_append, List.map_singleton, List.sum_singleton] at h
      exact if_neg (by omega)
  | cons y ys ih =>
      rw [total, List.cons_append, List.map_cons, List.sum_cons] at h
      rw [List.cons_append, fit, fit]
      split
      · rw [ih (by rw [total]; omega)]
      · rfl

theorem exists_mem_fit {max : Nat} {l : List α} {p : α → Bool} :
    (∃ x ∈ fit size max l, p x) ↔ (∃ x ∈ l, p x) ∧ upTo size p l ≤ max := by
  induction l generalizing max with
  | nil => exact ⟨nofun, nofun⟩
  | cons y ys ih =>
      rw [fit, upTo]
      simp only [List.mem_cons, exists_eq_or_imp]
      cases hy : p y with
      | true => by_cases hmax : size y ≤ max <;> simp [hmax, hy]
      | false =>
          by_cases hmax : size y ≤ max
          · have hle : size y + upTo size p ys ≤ max ↔ upTo size p ys ≤ max - size y := by omega
            simp only [if_pos hmax, List.mem_cons, exists_eq_or_imp, hy, ih, Bool.false_eq_true,
              false_or, if_false, hle]
          · have hno : ¬ size y + upTo size p ys ≤ max := by omega
            simp [hmax, hno]

end Fitting
