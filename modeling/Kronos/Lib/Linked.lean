import Mathlib.Data.List.Induction

/-!
# Singly linked lists

`Links next x l`: following `next` from `x` visits the elements of `l` in order
and ends. What `next` says of elements that are not on the way does not matter,
so a store into a list is two equations and a frame condition.
-/

namespace Linked

variable {α : Type*} {next next' : α → Option α}

def Links (next : α → Option α) : α → List α → Prop
  | x, [] => next x = none
  | x, y :: l => next x = some y ∧ Links next y l

/-- The element a walk along `l` from `x` ends at. -/
def lastOf (x : α) (l : List α) : α := l.getLast?.getD x

@[simp] theorem lastOf_nil (x : α) : lastOf x [] = x := rfl

@[simp] theorem lastOf_cons (x y : α) (l : List α) : lastOf x (y :: l) = lastOf y l := by
  cases l with
  | nil => rfl
  | cons z l => simp [lastOf, List.getLast?_cons]

@[simp] theorem lastOf_concat (x y : α) (l : List α) : lastOf x (l ++ [y]) = y := by
  simp [lastOf]

theorem lastOf_mem (x : α) (l : List α) : lastOf x l = x ∧ l = [] ∨ lastOf x l ∈ l := by
  induction l generalizing x with
  | nil => exact .inl ⟨rfl, rfl⟩
  | cons y l ih =>
      rw [lastOf_cons]
      obtain ⟨h, -⟩ | h := ih y
      · rw [h]
        exact .inr List.mem_cons_self
      · exact .inr (List.mem_cons_of_mem _ h)

/-- An element that passes a filter is still the last. -/
theorem lastOf_filter {p : α → Bool} {x : α} {l : List α} (h : l = [] ∨ p (lastOf x l) = true) :
    lastOf x (l.filter p) = lastOf x l := by
  induction l using List.reverseRecOn with
  | nil => rfl
  | append_singleton l y _ =>
      have hy : p y = true := by
        obtain h | h := h
        · simp at h
        · rw [lastOf_concat] at h
          exact h
      rw [List.filter_append, List.filter_cons_of_pos hy, List.filter_nil, lastOf_concat,
        lastOf_concat]

namespace Links

theorem head? {x : α} {l : List α} (h : Links next x l) : next x = l.head? := by
  cases l with
  | nil => exact h
  | cons y l => exact h.1

/-- The rest of the list hangs on the last element of the front. -/
theorem drop {x : α} {pre suf : List α} (h : Links next x (pre ++ suf)) :
    Links next (lastOf x pre) suf := by
  induction pre generalizing x with
  | nil => exact h
  | cons y pre ih =>
      rw [lastOf_cons]
      exact ih h.2

theorem congr {x : α} {l : List α} (h : Links next x l) (heq : ∀ y ∈ x :: l, next' y = next y) :
    Links next' x l := by
  induction l generalizing x with
  | nil => exact (heq x List.mem_cons_self).trans h
  | cons y l ih =>
      exact ⟨(heq x List.mem_cons_self).trans h.1,
        ih h.2 fun z hz => heq z (List.mem_cons_of_mem _ hz)⟩

/-- A new element behind the last of the front. -/
theorem insert {x n : α} {pre suf : List α} (h : Links next x (pre ++ suf))
    (hnodup : (x :: (pre ++ suf)).Nodup) (hlast : next' (lastOf x pre) = some n)
    (hnew : next' n = suf.head?)
    (hrest : ∀ y ∈ x :: (pre ++ suf), y ≠ lastOf x pre → next' y = next y) :
    Links next' x (pre ++ n :: suf) := by
  induction pre generalizing x with
  | nil =>
      refine ⟨hlast, ?_⟩
      have hx : ∀ y ∈ suf, y ≠ x := by
        intro y hy heq
        exact (List.nodup_cons.mp hnodup).1 (heq ▸ hy)
      cases suf with
      | nil => exact hnew
      | cons y suf =>
          refine ⟨hnew, h.2.congr fun z hz => ?_⟩
          exact hrest z (List.mem_cons_of_mem _ hz) (hx z hz)
  | cons y pre ih =>
      rw [lastOf_cons] at hlast hrest
      have hne : x ≠ lastOf y pre := by
        intro heq
        refine (List.nodup_cons.mp hnodup).1 ?_
        obtain ⟨hy, -⟩ | hmem := lastOf_mem y pre
        · rw [heq, hy]
          exact List.mem_cons_self
        · rw [heq]
          exact List.mem_cons_of_mem _ (List.mem_append_left _ hmem)
      refine ⟨(hrest x List.mem_cons_self hne).trans h.1, ?_⟩
      exact ih h.2 (List.nodup_cons.mp hnodup).2 hlast fun z hz hz' =>
        hrest z (List.mem_cons_of_mem _ hz) hz'

end Links

end Linked
