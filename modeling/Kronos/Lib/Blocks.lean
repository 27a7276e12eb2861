import Mathlib.Data.List.Flatten
import Kronos.Lib.Keyed

/-!
# A sorted list cut into blocks

A list in the order of its keys is stored as blocks, none of them empty. To
find a range of keys it is enough to know the first key of every block: the
blocks in front of one that starts at or below the range hold nothing of it,
and so does every block from one that starts above it on.
-/

namespace Blocks

variable {κ α : Type*} [LinearOrder κ] {key : α → κ}

theorem length_flatten {blocks : List (List α)} {n : Nat} (h : ∀ b ∈ blocks, b.length = n) :
    blocks.flatten.length = blocks.length * n := by
  induction blocks with
  | nil => rw [List.flatten_nil, List.length_nil, List.length_nil, Nat.zero_mul]
  | cons b bs ih =>
      rw [List.flatten_cons, List.length_append, h b List.mem_cons_self,
        ih fun c hc => h c (List.mem_cons_of_mem _ hc), List.length_cons, Nat.succ_mul,
        Nat.add_comm]

/-- What starts above the upper end is above it. -/
theorem filter_above {hi : κ} {p : α → Bool} (hp : ∀ a, p a = true → key a ≤ hi)
    {a : α} {l : List α} (h : Keyed.Sorted key (a :: l)) (ha : hi < key a) :
    (a :: l).filter p = [] := by
  refine List.filter_eq_nil_iff.mpr fun x hx hpx => ?_
  have hle : key a ≤ key x := by
    rcases List.mem_cons.mp hx with rfl | hx
    · exact le_refl _
    · exact ((List.pairwise_cons.mp h).1 x hx).le
  exact absurd (ha.trans_le (hle.trans (hp x hpx))) (lt_irrefl _)

/-- What stands in front of something at or below the lower end is below it. -/
theorem filter_below {lo : κ} {p : α → Bool} (hp : ∀ a, p a = true → lo ≤ key a)
    {l r : List α} {a : α} (h : Keyed.Sorted key (l ++ a :: r)) (ha : key a ≤ lo) :
    l.filter p = [] := by
  refine List.filter_eq_nil_iff.mpr fun x hx hpx => ?_
  have hlt := (List.pairwise_append.mp h).2.2 x hx a List.mem_cons_self
  exact absurd (hlt.trans_le (ha.trans (hp x hpx))) (lt_irrefl _)

/-- The block does not start above `hi`. -/
def startsBy (key : α → κ) (hi : κ) (block : List α) : Bool := block.head?.all (key · ≤ hi)

/-- From a block that starts at or below the lower end, or from the first, up to
the first block that starts above the upper end: nothing of the range is
anywhere else. -/
theorem filter_window {blocks : List (List α)} (hne : ∀ b ∈ blocks, b ≠ [])
    (hsorted : Keyed.Sorted key blocks.flatten) {lo hi : κ} {p : α → Bool}
    (hp : ∀ a, p a = true → lo ≤ key a ∧ key a ≤ hi) {s : Nat}
    (hs : s = 0 ∨ ∃ a block, blocks[s]? = some (a :: block) ∧ key a ≤ lo) :
    ((blocks.drop s).takeWhile (startsBy key hi)).flatten.filter p = blocks.flatten.filter p := by
  have hfront : (blocks.take s).flatten.filter p = [] := by
    rcases hs with rfl | ⟨a, block, hget, hle⟩
    · rw [List.take_zero]
      rfl
    · obtain ⟨hlt, hget⟩ := List.getElem?_eq_some_iff.mp hget
      have hflat : blocks.flatten =
          (blocks.take s).flatten ++ a :: (block ++ (blocks.drop (s + 1)).flatten) := by
        conv_lhs => rw [← List.take_append_drop s blocks, List.drop_eq_getElem_cons hlt, hget]
        rw [List.flatten_append, List.flatten_cons, List.cons_append]
      rw [hflat] at hsorted
      exact filter_below (fun x hx => (hp x hx).1) hsorted hle
  have hback : ((blocks.drop s).dropWhile (startsBy key hi)).flatten.filter p = [] := by
    cases hrest : (blocks.drop s).dropWhile (startsBy key hi) with
    | nil => rfl
    | cons block rest =>
        have hmem : block ∈ blocks := List.mem_of_mem_drop
          ((List.dropWhile_sublist _).subset (hrest ▸ List.mem_cons_self))
        obtain ⟨a, block, rfl⟩ := List.exists_cons_of_ne_nil (hne block hmem)
        have hstart := List.head?_dropWhile_not (startsBy key hi) (blocks.drop s)
        rw [hrest] at hstart
        have hlt : hi < key a := by simpa [startsBy] using hstart
        have hsub : ((a :: block) ++ rest.flatten).Sublist blocks.flatten := by
          rw [← List.flatten_cons, ← hrest]
          exact ((List.dropWhile_sublist _).trans (List.drop_sublist s blocks)).flatten
        exact filter_above (fun x hx => (hp x hx).2) (hsorted.sublist hsub) hlt
  conv_rhs => rw [← List.take_append_drop s blocks,
    ← List.takeWhile_append_dropWhile (p := startsBy key hi) (l := blocks.drop s)]
  rw [List.flatten_append, List.flatten_append, List.filter_append, List.filter_append, hfront,
    hback, List.append_nil, List.nil_append]

end Blocks
