import Mathlib.Data.List.Perm.Basic
import Mathlib.Order.Lattice
import Mathlib.Tactic.Common

/-!
# Lists sorted by a key

A map kept as a list that is strictly increasing in the key of its elements.
`upsert` puts an element in its place, over the one that had its key; up to
order, that is the element and everything with another key. A range of keys is
a stretch of the list: what lies in front of it can be skipped and what lies
behind it cuts the walk short, so walking to it and stopping behind it is the
same as filtering (`walk_eq_filter`).
-/

namespace Keyed

variable {α κ : Type*} [LinearOrder κ] (key : α → κ)

/-- Strictly increasing keys. -/
abbrev Sorted (l : List α) : Prop := l.Pairwise (key · < key ·)

def upsert (a : α) : List α → List α
  | [] => [a]
  | x :: xs =>
      if key x < key a then x :: upsert a xs
      else if key x = key a then a :: xs
      else a :: x :: xs

variable {key}

theorem mem_upsert_sub {a x : α} {l : List α} (h : x ∈ upsert key a l) : x = a ∨ x ∈ l := by
  induction l with
  | nil => exact .inl (List.mem_singleton.mp h)
  | cons y ys ih =>
      rw [upsert] at h
      split at h
      · rcases List.mem_cons.mp h with rfl | h
        · exact .inr List.mem_cons_self
        · exact (ih h).imp_right (List.mem_cons_of_mem _)
      · split at h
        · exact (List.mem_cons.mp h).imp_right (List.mem_cons_of_mem _)
        · exact List.mem_cons.mp h

theorem mem_upsert_self (a : α) (l : List α) : a ∈ upsert key a l := by
  induction l with
  | nil => exact List.mem_singleton.mpr rfl
  | cons y ys ih =>
      rw [upsert]
      split
      · exact List.mem_cons_of_mem _ ih
      · split <;> exact List.mem_cons_self

theorem mem_upsert_of_ne {a x : α} {l : List α} (h : x ∈ l) (hne : key x ≠ key a) :
    x ∈ upsert key a l := by
  induction l with
  | nil => cases h
  | cons y ys ih =>
      rw [upsert]
      split
      · rcases List.mem_cons.mp h with rfl | h
        · exact List.mem_cons_self
        · exact List.mem_cons_of_mem _ (ih h)
      · split
        · next heq =>
            rcases List.mem_cons.mp h with rfl | h
            · exact absurd heq hne
            · exact List.mem_cons_of_mem _ h
        · exact List.mem_cons_of_mem _ h

theorem upsert_sorted (a : α) {l : List α} (h : Sorted key l) : Sorted key (upsert key a l) := by
  induction l with
  | nil => exact List.pairwise_singleton _ _
  | cons y ys ih =>
      obtain ⟨hy, hys⟩ := List.pairwise_cons.mp h
      rw [upsert]
      split
      · next hlt =>
          refine List.pairwise_cons.mpr ⟨fun x hx => ?_, ih hys⟩
          rcases mem_upsert_sub hx with rfl | hx
          · exact hlt
          · exact hy x hx
      · next hnlt =>
          split
          · next heq => exact List.pairwise_cons.mpr ⟨fun x hx => heq ▸ hy x hx, hys⟩
          · next hne =>
              have hlt : key a < key y := lt_of_le_of_ne (not_lt.mp hnlt) (Ne.symm hne)
              refine List.pairwise_cons.mpr ⟨fun x hx => ?_, h⟩
              rcases List.mem_cons.mp hx with rfl | hx
              · exact hlt
              · exact hlt.trans (hy x hx)

/-- Up to order, `upsert` is the element and everything with another key. -/
theorem upsert_perm (a : α) {l : List α} (h : Sorted key l) :
    (upsert key a l).Perm (a :: l.filter (key · ≠ key a)) := by
  induction l with
  | nil => exact List.Perm.refl _
  | cons y ys ih =>
      obtain ⟨hy, hys⟩ := List.pairwise_cons.mp h
      rw [upsert]
      split
      · next hlt =>
          rw [List.filter_cons_of_pos (by simpa using ne_of_lt hlt)]
          exact ((ih hys).cons y).trans (List.Perm.swap ..)
      · next hnlt =>
          split
          · next heq =>
              have hrest : ys.filter (key · ≠ key a) = ys :=
                List.filter_eq_self.mpr fun x hx => by
                  simpa using (ne_of_gt (heq ▸ hy x hx))
              rw [List.filter_cons_of_neg (by simpa using heq), hrest]
          · next hne =>
              have hlt : key a < key y := lt_of_le_of_ne (not_lt.mp hnlt) (Ne.symm hne)
              have hall : (y :: ys).filter (key · ≠ key a) = y :: ys :=
                List.filter_eq_self.mpr fun x hx => by
                  rcases List.mem_cons.mp hx with rfl | hx
                  · simpa using ne_of_gt hlt
                  · simpa using ne_of_gt (hlt.trans (hy x hx))
              rw [hall]

theorem upsert_ne_nil (a : α) (l : List α) : upsert key a l ≠ [] := by
  cases l with
  | nil => exact List.cons_ne_nil _ _
  | cons y ys =>
      rw [upsert]
      split
      · exact List.cons_ne_nil _ _
      · split <;> exact List.cons_ne_nil _ _

/-- One more, unless the key is there already. -/
theorem length_upsert (a : α) {l : List α} (h : Sorted key l) :
    (upsert key a l).length = if l.any (key · = key a) then l.length else l.length + 1 := by
  induction l with
  | nil => rfl
  | cons y ys ih =>
      obtain ⟨hy, hys⟩ := List.pairwise_cons.mp h
      rw [upsert, List.any_cons]
      split
      · next hlt =>
          rw [decide_eq_false (ne_of_lt hlt), Bool.false_or, List.length_cons, ih hys]
          split <;> rfl
      · next hnlt =>
          split
          · next heq =>
              rw [decide_eq_true heq, Bool.true_or]
              rfl
          · next hne =>
              have hlt : key a < key y := lt_of_le_of_ne (not_lt.mp hnlt) (Ne.symm hne)
              have hnone : ys.any (key · = key a) = false := by
                rw [List.any_eq_false]
                intro x hx
                simpa using ne_of_gt (hlt.trans (hy x hx))
              rw [decide_eq_false hne, hnone]
              rfl

/-- In a sorted list an element is told by its key. -/
theorem Sorted.inj {l : List α} (h : Sorted key l) {x y : α} (hx : x ∈ l) (hy : y ∈ l)
    (hxy : key x = key y) : x = y := by
  induction l with
  | nil => cases hx
  | cons z zs ih =>
      obtain ⟨hz, hzs⟩ := List.pairwise_cons.mp h
      rcases List.mem_cons.mp hx with hxz | hx' <;> rcases List.mem_cons.mp hy with hyz | hy'
      · rw [hxz, hyz]
      · exact absurd (hxz ▸ hxy) (ne_of_lt (hz y hy'))
      · exact absurd (hyz ▸ hxy) (ne_of_gt (hz x hx'))
      · exact ih hzs hx' hy'

/-- A key cuts a sorted list in two. -/
theorem Sorted.split {l : List α} (h : Sorted key l) (k : κ) :
    l = l.filter (key · < k) ++ l.filter (k ≤ key ·) := by
  induction l with
  | nil => rfl
  | cons x xs ih =>
      obtain ⟨hx, hxs⟩ := List.pairwise_cons.mp h
      by_cases hlt : key x < k
      · rw [List.filter_cons_of_pos (by simpa using hlt),
          List.filter_cons_of_neg (by simpa using hlt), List.cons_append, ← ih hxs]
      · have hge : k ≤ key x := not_lt.mp hlt
        have hnone : xs.filter (key · < k) = [] :=
          List.filter_eq_nil_iff.mpr fun y hy => by simpa using hge.trans (hx y hy).le
        have hall : xs.filter (k ≤ key ·) = xs :=
          List.filter_eq_self.mpr fun y hy => by simpa using hge.trans (hx y hy).le
        rw [List.filter_cons_of_neg (by simpa using hge),
          List.filter_cons_of_pos (by simpa using hge), hnone, hall, List.nil_append]

/-- A new key goes between the smaller and the larger ones. -/
theorem upsert_between {a : α} {lo hi : List α} (hlo : ∀ x ∈ lo, key x < key a)
    (hhi : ∀ x ∈ hi, key a < key x) : upsert key a (lo ++ hi) = lo ++ a :: hi := by
  induction lo with
  | nil =>
      cases hi with
      | nil => rfl
      | cons y hi =>
          have hy := hhi y List.mem_cons_self
          rw [List.nil_append, upsert, if_neg hy.not_gt, if_neg hy.ne']
          rfl
  | cons x lo ih =>
      rw [List.cons_append, upsert, if_pos (hlo x List.mem_cons_self),
        ih fun y hy => hlo y (List.mem_cons_of_mem _ hy)]
      rfl

theorem upsert_over {a x : α} {lo : List α} (hlo : ∀ y ∈ lo, key y < key a)
    (hx : key x = key a) (hi : List α) : upsert key a (lo ++ x :: hi) = lo ++ a :: hi := by
  induction lo with
  | nil => rw [List.nil_append, upsert, if_neg hx.not_lt, if_pos hx, List.nil_append]
  | cons y lo ih =>
      rw [List.cons_append, upsert, if_pos (hlo y List.mem_cons_self),
        ih fun z hz => hlo z (List.mem_cons_of_mem _ hz)]
      rfl

theorem find_upsert (a : α) {l : List α} (h : Sorted key l) (k : κ) :
    (upsert key a l).find? (key · = k) = if key a = k then some a else l.find? (key · = k) := by
  induction l with
  | nil =>
      rw [upsert, List.find?_cons]
      by_cases ha : key a = k <;> simp [ha]
  | cons y ys ih =>
      rw [upsert]
      split
      · next hlt =>
          rw [List.find?_cons, List.find?_cons, ih (List.pairwise_cons.mp h).2]
          by_cases hy : key y = k
          · have ha : key a ≠ k := fun ha => (ne_of_lt hlt) (hy.trans ha.symm)
            simp [hy, ha]
          · simp [hy]
      · split
        · next heq =>
            rw [List.find?_cons, List.find?_cons, heq]
            by_cases ha : key a = k <;> simp [ha]
        · rw [List.find?_cons]
          by_cases ha : key a = k <;> simp [ha]

theorem foldl_upsert_sorted (l : List α) {m : List α} (h : Sorted key m) :
    Sorted key (l.foldl (fun m a => upsert key a m) m) := by
  induction l generalizing m with
  | nil => exact h
  | cons a l ih => exact ih (upsert_sorted a h)

/-- Elements with keys of their own are all there in the end. -/
theorem foldl_upsert_perm {l m : List α} (h : Sorted key m) (hkeys : (l.map key).Nodup)
    (hnew : ∀ a ∈ l, ∀ x ∈ m, key x ≠ key a) :
    (l.foldl (fun m a => upsert key a m) m).Perm (l ++ m) := by
  induction l generalizing m with
  | nil => exact .refl _
  | cons a l ih =>
      obtain ⟨ha, hl⟩ := List.nodup_cons.mp hkeys
      have hput : (upsert key a m).Perm (a :: m) := by
        have hperm := upsert_perm a h
        rwa [List.filter_eq_self.mpr fun x hx =>
          decide_eq_true (hnew a List.mem_cons_self x hx)] at hperm
      refine (ih (upsert_sorted a h) hl fun b hb x hx => ?_).trans
        ((hput.append_left l).trans List.perm_middle)
      rcases mem_upsert_sub hx with rfl | hx
      · exact fun heq => ha (heq ▸ List.mem_map_of_mem hb)
      · exact hnew b (List.mem_cons_of_mem _ hb) x hx

/-- After a row of writes a key has the last one that it was given. -/
theorem find_foldl_upsert (l : List α) {m : List α} (h : Sorted key m) (k : κ) :
    (l.foldl (fun m a => upsert key a m) m).find? (key · = k) =
      ((l.filter (key · = k)).getLast?).or (m.find? (key · = k)) := by
  induction l generalizing m with
  | nil => rfl
  | cons a l ih =>
      rw [List.foldl_cons, ih (upsert_sorted a h), find_upsert a h]
      by_cases ha : key a = k
      · rw [List.filter_cons_of_pos (by simpa using ha), List.getLast?_cons, if_pos ha]
        cases (l.filter (key · = k)).getLast? <;> rfl
      · rw [List.filter_cons_of_neg (by simpa using ha), if_neg ha]

/-- An element is what is found under its key. -/
theorem Sorted.mem_iff_find {l : List α} (h : Sorted key l) {a : α} :
    a ∈ l ↔ l.find? (key · = key a) = some a := by
  constructor
  · intro ha
    obtain ⟨b, hb⟩ : ∃ b, l.find? (key · = key a) = some b := by
      refine Option.isSome_iff_exists.mp (List.find?_isSome.mpr ⟨a, ha, ?_⟩)
      exact decide_eq_true rfl
    have hkey : key b = key a := by simpa using List.find?_some hb
    rw [hb, h.inj (List.mem_of_find?_eq_some hb) ha hkey]
  · exact List.mem_of_find?_eq_some

/-- A map that keeps the keys keeps the order. -/
theorem upsert_map {β : Type*} {key' : β → κ} {f : α → β} (hf : ∀ a, key' (f a) = key a) (a : α)
    (l : List α) : upsert key' (f a) (l.map f) = (upsert key a l).map f := by
  induction l with
  | nil => rfl
  | cons x xs ih =>
      rw [List.map_cons, upsert, upsert, hf, hf, ih]
      split
      · rfl
      · split <;> rfl

/-! ## Ranges -/

theorem Sorted.dropWhile_eq {l : List α} (h : Sorted key l) (k : κ) :
    l.dropWhile (key · < k) = l.filter (k ≤ key ·) := by
  have hlow : ∀ x ∈ l.filter (key · < k), decide (key x < k) = true := fun x hx =>
    (List.mem_filter.mp hx).2
  have hhigh : (l.filter (k ≤ key ·)).dropWhile (key · < k) = l.filter (k ≤ key ·) := by
    cases hfilter : l.filter (k ≤ key ·) with
    | nil => rfl
    | cons x xs =>
        have hx : x ∈ l.filter (k ≤ key ·) := hfilter ▸ List.mem_cons_self
        have hle : k ≤ key x := of_decide_eq_true (List.mem_filter.mp hx).2
        rw [List.dropWhile_cons_of_neg (by simpa using hle)]
  conv_lhs => rw [h.split k]
  rw [List.dropWhile_append_of_pos hlow, hhigh]

/-- Walk to the first key not under `lo` and on to the last not over `hi`. -/
def walk (key : α → κ) (lo hi : κ) (l : List α) : List α :=
  (l.dropWhile fun x => decide (key x < lo)).takeWhile fun x => decide (key x ≤ hi)

theorem walk_eq_filter {lo hi : κ} {l : List α} (h : Sorted key l) :
    walk key lo hi l = l.filter fun x => decide (lo ≤ key x ∧ key x ≤ hi) := by
  induction l with
  | nil => rfl
  | cons y ys ih =>
      obtain ⟨hy, hys⟩ := List.pairwise_cons.mp h
      rw [walk, List.dropWhile_cons]
      by_cases hlo : key y < lo
      · rw [if_pos (by simpa using hlo), ← walk, ih hys,
          List.filter_cons_of_neg (by simpa using fun h => absurd hlo (not_lt.mpr h))]
      · have hge : ∀ x ∈ ys, ¬ key x < lo := fun x hx hx' =>
          hlo ((hy x hx).trans hx')
        have hdrop : ys.dropWhile (fun x => decide (key x < lo)) = ys := by
          cases ys with
          | nil => rfl
          | cons z zs =>
              rw [List.dropWhile_cons, if_neg (by simpa using hge z List.mem_cons_self)]
        rw [if_neg (by simpa using hlo), List.takeWhile_cons]
        by_cases hhi : key y ≤ hi
        · rw [if_pos (by simpa using hhi),
            List.filter_cons_of_pos (by simpa using ⟨not_lt.mp hlo, hhi⟩), ← ih hys, walk, hdrop]
        · have hnone : ys.filter (fun x => decide (lo ≤ key x ∧ key x ≤ hi)) = [] :=
            List.filter_eq_nil_iff.mpr fun x hx => by
              simpa using fun _ => (not_le.mp hhi).trans (hy x hx)
          rw [if_neg (by simpa using hhi),
            List.filter_cons_of_neg (by simpa using fun _ => not_le.mp hhi), hnone]

end Keyed
