import Mathlib.Data.List.Basic

/-!
# Threads as places in a list

A program with any number of threads keeps one state for each in a list. A new
thread is put behind the others, one that goes on has its place set, and one
that is through can be erased. What is found at a place afterwards is told by
what was found at some place before.
-/

namespace Slots

variable {α β : Type*} {l : List α} {i j : Nat} {x y z : α}

theorem concat_iff : (l ++ [x])[j]? = some y ↔ l[j]? = some y ∨ j = l.length ∧ x = y := by
  rcases Nat.lt_trichotomy j l.length with hj | rfl | hj
  · rw [List.getElem?_append_left hj]
    simp [Nat.ne_of_lt hj]
  · simp
  · rw [List.getElem?_eq_none (by rw [List.length_append]; exact hj),
      List.getElem?_eq_none (Nat.le_of_lt hj)]
    simp [Nat.ne_of_gt hj]

theorem set_iff (hi : l[i]? = some z) :
    (l.set i x)[j]? = some y ↔ j = i ∧ x = y ∨ j ≠ i ∧ l[j]? = some y := by
  have hlt := (List.getElem?_eq_some_iff.mp hi).1
  by_cases hij : j = i
  · subst hij
    simp [List.getElem?_set_self hlt]
  · rw [List.getElem?_set_ne (Ne.symm hij)]
    simp [hij]

/-- The list around a place. -/
theorem exists_split (hi : l[i]? = some z) :
    ∃ a b, l = a ++ z :: b ∧ ∀ x, l.set i x = a ++ x :: b := by
  obtain ⟨hlt, rfl⟩ := List.getElem?_eq_some_iff.mp hi
  refine ⟨l.take i, l.drop (i + 1), ?_, fun x => ?_⟩
  rotate_left
  · exact List.set_eq_take_append_cons_drop.trans (if_pos hlt)
  rw [List.getElem_cons_drop, List.take_append_drop]

/-- What is not at the place that is set stays. -/
theorem mem_set_of_mem (hi : l[i]? = some z) (hne : y ≠ z) (h : y ∈ l) : y ∈ l.set i x := by
  obtain ⟨j, hj⟩ := List.mem_iff_getElem?.mp h
  refine List.mem_iff_getElem?.mpr ⟨j, (set_iff hi).mpr (.inr ⟨?_, hj⟩)⟩
  rintro rfl
  exact hne (Option.some.inj (hj.symm.trans hi))

theorem mem_of_mem_set (hne : y ≠ x) (h : y ∈ l.set i x) : y ∈ l :=
  (List.mem_or_eq_of_mem_set h).resolve_right hne

/-- Two lists that keep pace. -/
theorem of_erase_pair {m : List β} {w : β} (hy : (l.eraseIdx i)[j]? = some y)
    (hw : (m.eraseIdx i)[j]? = some w) : ∃ k : Nat, l[k]? = some y ∧ m[k]? = some w := by
  rw [List.getElem?_eraseIdx] at hy hw
  split at hy
  · next hj =>
      rw [if_pos hj] at hw
      exact ⟨j, hy, hw⟩
  · next hj =>
      rw [if_neg hj] at hw
      exact ⟨j + 1, hy, hw⟩

end Slots
