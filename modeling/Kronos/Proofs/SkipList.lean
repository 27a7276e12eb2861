import Kronos.Lib.Linked
import Kronos.Ref.SkipList

/-!
# What a skip list holds

`Rep s base lv` says how the pointers lie: `base` is level 0 in key order, and a
node is on the first `lv` levels, so every level is the part of `base` that
reaches up to it. Between two inserts `lv` is the height; in the middle of one
the new node is on fewer levels than it is high.

A search stands behind a front `pre` of `base` whose keys are all below the
target, on a level its node reaches. That is all both searches need, and what
is left of `base` and of the levels is their fuel.
-/

namespace Kronos.SkipList

open Linked

variable {K V : Type}

/-! ## Loads after stores -/

section
variable (s : SkipList K V) (x y : Addr) (level l : Nat) (n : Option Addr) (v : V) (h : Nat)

theorem load_next_store : (s.store_next x level n).load_next y l =
    if y = x ∧ l = level then n else s.load_next y l := by
  by_cases hy : y = x
  · subst hy
    by_cases hl : l = level
    · subst hl
      simp [load_next, store_next]
    · simp [load_next, store_next, hl]
  · simp [load_next, store_next, hy]

@[simp] theorem key_store_next : (s.store_next x level n).key y = s.key y := by
  by_cases hy : y = x
  · subst hy
    simp [key, store_next]
  · simp [key, store_next, hy]

@[simp] theorem height_store_next :
    ((s.store_next x level n).heap y).height = (s.heap y).height := by
  by_cases hy : y = x
  · subst hy
    simp [store_next]
  · simp [store_next, hy]

@[simp] theorem value_store_next : (s.store_next x level n).value y = s.value y := by
  by_cases hy : y = x
  · subst hy
    simp [value, store_next]
  · simp [value, store_next, hy]

@[simp] theorem allocated_store_next : (s.store_next x level n).allocated = s.allocated := rfl

@[simp] theorem max_height_store_next : (s.store_next x level n).max_height = s.max_height := rfl

@[simp] theorem load_next_store_val : (s.store_val_ptr x v).load_next y l = s.load_next y l := by
  by_cases hy : y = x
  · subst hy
    simp [load_next, store_val_ptr]
  · simp [load_next, store_val_ptr, hy]

@[simp] theorem key_store_val : (s.store_val_ptr x v).key y = s.key y := by
  by_cases hy : y = x
  · subst hy
    simp [key, store_val_ptr]
  · simp [key, store_val_ptr, hy]

@[simp] theorem height_store_val :
    ((s.store_val_ptr x v).heap y).height = (s.heap y).height := by
  by_cases hy : y = x
  · subst hy
    simp [store_val_ptr]
  · simp [store_val_ptr, hy]

theorem value_store_val :
    (s.store_val_ptr x v).value y = if y = x then some v else s.value y := by
  by_cases hy : y = x
  · subst hy
    simp [value, store_val_ptr]
  · simp [value, store_val_ptr, hy]

/-- A node is not touched by the allocation of another. -/
theorem heap_new_node_ne (k : K) (hy : y ≠ s.allocated) :
    (s.new_node k v h).heap y = s.heap y := Function.update_of_ne hy _ _

theorem heap_new_node (k : K) :
    (s.new_node k v h).heap s.allocated = ⟨k, some v, h, fun _ => none⟩ :=
  Function.update_self _ _ _

end

/-! ## Rounds of the searches -/

variable [LinearOrder K]

section
variable {s : SkipList K V} {t : K} {x n : Addr} {lvl : Nat}

/-- To the right, where the next key is below the target. -/
theorem search_round_right (hload : s.load_next x lvl = some n) (hlt : s.key n < t) :
    s.search_round t x lvl = .at_ n lvl := by
  have htest : s.precedes t (some n) = true := decide_eq_true hlt
  rw [search_round]
  simp only [hload, htest]

/-- Down, where it is not. -/
theorem search_round_down (hstop : s.precedes t (s.load_next x (lvl + 1)) = false) :
    s.search_round t x (lvl + 1) = .at_ x lvl := by
  rw [search_round]
  cases hload : s.load_next x (lvl + 1) with
  | none => rfl
  | some n =>
      rw [hload] at hstop
      simp only [hstop]

theorem search_round_end (hstop : s.precedes t (s.load_next x 0) = false) :
    s.search_round t x 0 = .found (s.load_next x 0) := by
  rw [search_round]
  cases hload : s.load_next x 0 with
  | none => rfl
  | some n =>
      rw [hload] at hstop
      simp only [hstop]

theorem find_prev_from_right (hload : s.load_next x lvl = some n) (hlt : s.key n < t) (fuel : Nat)
    (prev : Prev) : s.find_prev_from t (fuel + 1) x lvl prev =
      s.find_prev_from t fuel n lvl prev := by
  have htest : s.precedes t (some n) = true := decide_eq_true hlt
  rw [find_prev_from]
  simp only [hload, htest]

theorem find_prev_from_down (hstop : s.precedes t (s.load_next x (lvl + 1)) = false) (fuel : Nat)
    (prev : Prev) : s.find_prev_from t (fuel + 1) x (lvl + 1) prev =
      s.find_prev_from t fuel x lvl (Function.update prev (lvl + 1) (some x)) := by
  rw [find_prev_from]
  cases hload : s.load_next x (lvl + 1) with
  | none => rfl
  | some n =>
      rw [hload] at hstop
      simp only [hstop]

theorem find_prev_from_end (hstop : s.precedes t (s.load_next x 0) = false) (fuel : Nat)
    (prev : Prev) : s.find_prev_from t (fuel + 1) x 0 prev =
      some (x, Function.update prev 0 (some x)) := by
  rw [find_prev_from]
  cases hload : s.load_next x 0 with
  | none => rfl
  | some n =>
      rw [hload] at hstop
      simp only [hstop]

end

/-! ## The invariant -/

def height (s : SkipList K V) (a : Addr) : Nat := (s.heap a).height

/-- Level 0 is `base`, and every node is on the levels below `lv`. -/
structure Rep (s : SkipList K V) (base : List Addr) (lv : Addr → Nat) : Prop where
  sorted : Keyed.Sorted s.key base
  nodes : ∀ a ∈ base, head < a ∧ a < s.allocated
  levels : ∀ a ∈ base, 0 < lv a ∧ lv a ≤ s.height a ∧ s.height a ≤ s.max_height
  links : ∀ l, Links (s.load_next · l) head (base.filter (l < lv ·))
  tall : 0 < s.max_height ∧ s.max_height ≤ kMaxHeight
  head_node : head < s.allocated ∧ s.height head = kMaxHeight
  vals : ∀ a ∈ base, (s.value a).isSome

namespace Rep

variable {s : SkipList K V} {base : List Addr} {lv : Addr → Nat}

theorem nodup (h : Rep s base lv) : (head :: base).Nodup := by
  refine List.nodup_cons.mpr ⟨fun hmem => ?_, ?_⟩
  · exact absurd (h.nodes _ hmem).1 (lt_irrefl _)
  · exact h.sorted.imp fun hlt heq => absurd (heq ▸ hlt) (lt_irrefl _)

theorem length_lt (h : Rep s base lv) : base.length < s.allocated := by
  have hsub : (head :: base) ⊆ List.range s.allocated := by
    intro a ha
    obtain rfl | ha := List.mem_cons.mp ha
    · exact List.mem_range.mpr h.head_node.1
    · exact List.mem_range.mpr (h.nodes a ha).2
  have hlen := (h.nodup.subperm hsub).length_le
  rw [List.length_cons, List.length_range] at hlen
  exact hlen

/-- Behind a front of `base` whose last node reaches the level comes the next node
that does. -/
theorem next_eq (h : Rep s base lv) {pre suf : List Addr} (hbase : base = pre ++ suf) {lvl : Nat}
    (hx : pre = [] ∨ lvl < lv (lastOf head pre)) :
    s.load_next (lastOf head pre) lvl = (suf.filter (lvl < lv ·)).head? := by
  have hlinks := h.links lvl
  rw [hbase, List.filter_append] at hlinks
  have hlast : lastOf head (pre.filter (lvl < lv ·)) = lastOf head pre :=
    lastOf_filter (hx.imp_right decide_eq_true)
  rw [← hlinks.drop.head?, hlast]

/-- On level 0 that is the next node. -/
theorem next_zero (h : Rep s base lv) {pre suf : List Addr} (hbase : base = pre ++ suf) :
    s.load_next (lastOf head pre) 0 = suf.head? := by
  have hall : suf.filter (0 < lv ·) = suf := by
    refine List.filter_eq_self.mpr fun a ha => decide_eq_true ?_
    exact (h.levels a (hbase ▸ List.mem_append_right _ ha)).1
  have hx : pre = [] ∨ 0 < lv (lastOf head pre) := by
    obtain ⟨-, hnil⟩ | hmem := lastOf_mem head pre
    · exact .inl hnil
    · exact .inr (h.levels _ (hbase ▸ List.mem_append_left _ hmem)).1
  rw [h.next_eq hbase hx, hall]

theorem first_eq (h : Rep s base lv) : s.seek_to_first = base.head? :=
  h.next_zero (show base = [] ++ base from rfl)

theorem next_behind (h : Rep s base lv) {pre suf : List Addr} {a : Addr}
    (hbase : base = pre ++ a :: suf) : s.next a = suf.head? := by
  have hsplit : base = (pre ++ [a]) ++ suf := by rw [hbase, List.append_assoc]; rfl
  have hnext := h.next_zero hsplit
  rw [lastOf_concat] at hnext
  exact hnext

/-- A round goes right to a node whose key is below the target, or there is no such
node left on the level. -/
theorem round (h : Rep s base lv) {pre suf : List Addr} (hbase : base = pre ++ suf) {lvl : Nat}
    (hx : pre = [] ∨ lvl < lv (lastOf head pre)) (t : K) :
    (∃ mid n rest, suf = mid ++ n :: rest ∧ lvl < lv n ∧ s.key n < t ∧
      s.load_next (lastOf head pre) lvl = some n) ∨
    (s.precedes t (s.load_next (lastOf head pre) lvl) = false ∧
      ∀ a ∈ suf, lvl < lv a → t ≤ s.key a) := by
  have hnext := h.next_eq hbase hx
  cases hlevel : suf.filter (lvl < lv ·) with
  | nil =>
      rw [hlevel] at hnext
      refine .inr ⟨by rw [hnext]; rfl, fun a ha hlv => ?_⟩
      exact absurd (decide_eq_true hlv) (List.filter_eq_nil_iff.mp hlevel a ha)
  | cons n rest =>
      obtain ⟨mid, suf', rfl, hmid, hn, -⟩ := List.filter_eq_cons_iff.mp hlevel
      rw [hlevel] at hnext
      by_cases hlt : s.key n < t
      · exact .inl ⟨mid, n, suf', rfl, of_decide_eq_true hn, hlt, hnext⟩
      · refine .inr ⟨?_, fun a ha hlv => ?_⟩
        · rw [hnext, precedes]
          exact decide_eq_false hlt
        · have hsorted := h.sorted
          rw [hbase] at hsorted
          have hsuf := (List.pairwise_append.mp hsorted).2.1
          obtain ha | ha := List.mem_append.mp ha
          · exact absurd (decide_eq_true hlv) (hmid a ha)
          · obtain rfl | ha := List.mem_cons.mp ha
            · exact not_lt.mp hlt
            · have hrest := (List.pairwise_append.mp hsuf).2.1
              exact (not_lt.mp hlt).trans ((List.pairwise_cons.mp hrest).1 a ha).le

/-! ## Searching -/

/-- The last node of a level whose key is below the target. -/
def pred (s : SkipList K V) (base : List Addr) (lv : Addr → Nat) (t : K) (lvl : Nat) : Addr :=
  lastOf head ((base.filter (s.key · < t)).filter (lvl < lv ·))

/-- Where a level ends below the target, the search stands at the last node. -/
theorem pred_eq {pre suf : List Addr} (hbase : base = pre ++ suf) {lvl : Nat}
    (hx : pre = [] ∨ lvl < lv (lastOf head pre)) {t : K} (hpre : ∀ a ∈ pre, s.key a < t)
    (hsuf : ∀ a ∈ suf, lvl < lv a → t ≤ s.key a) : pred s base lv t lvl = lastOf head pre := by
  have hlow : pre.filter (s.key · < t) = pre :=
    List.filter_eq_self.mpr fun a ha => decide_eq_true (hpre a ha)
  have hhigh : (suf.filter (s.key · < t)).filter (lvl < lv ·) = [] := by
    refine List.filter_eq_nil_iff.mpr fun a ha hlv => ?_
    obtain ⟨hmem, hlt⟩ := List.mem_filter.mp ha
    exact absurd (of_decide_eq_true hlt) (not_lt.mpr (hsuf a hmem (of_decide_eq_true hlv)))
  rw [pred, hbase, List.filter_append, List.filter_append, hlow, hhigh, List.append_nil]
  exact lastOf_filter (hx.imp_right decide_eq_true)

theorem pred_zero (h : Rep s base lv) (t : K) :
    pred s base lv t 0 = lastOf head (base.filter (s.key · < t)) := by
  have hall : (base.filter (s.key · < t)).filter (0 < lv ·) = base.filter (s.key · < t) := by
    refine List.filter_eq_self.mpr fun a ha => decide_eq_true ?_
    exact (h.levels a (List.mem_filter.mp ha).1).1
  rw [pred, hall]

theorem find_prev_from_eq (h : Rep s base lv) (t : K) {fuel : Nat} {pre suf : List Addr}
    (hbase : base = pre ++ suf) {lvl : Nat} (hx : pre = [] ∨ lvl < lv (lastOf head pre))
    (hpre : ∀ a ∈ pre, s.key a < t) (hfuel : suf.length + lvl < fuel) {prev : Prev} {top : Nat}
    (hprev : ∀ j, lvl < j → j < top → prev j = some (pred s base lv t j)) :
    ∃ prev', s.find_prev_from t fuel (lastOf head pre) lvl prev =
        some (pred s base lv t 0, prev') ∧
      ∀ j < top, prev' j = some (pred s base lv t j) := by
  induction fuel generalizing pre suf lvl prev with
  | zero => omega
  | succ fuel ih =>
      obtain ⟨mid, n, rest, hsuf, hlv, hlt, hload⟩ | ⟨hstop, hhigh⟩ := h.round hbase hx t
      · -- to the right: the nodes passed over are below the next one
        have hsplit : base = (pre ++ mid ++ [n]) ++ rest := by
          rw [hbase, hsuf]
          simp only [List.append_assoc, List.singleton_append]
        have hbelow : ∀ a ∈ pre ++ mid ++ [n], s.key a < t := by
          intro a ha
          rw [List.append_assoc] at ha
          obtain ha | ha := List.mem_append.mp ha
          · exact hpre a ha
          · obtain ha | ha := List.mem_append.mp ha
            · have hsorted := h.sorted
              rw [hbase, hsuf] at hsorted
              have hright := (List.pairwise_append.mp hsorted).2.1
              have hmid := (List.pairwise_append.mp hright).2.2 a ha n List.mem_cons_self
              exact hmid.trans hlt
            · rw [List.mem_singleton.mp ha]
              exact hlt
        have hroom : rest.length + lvl < fuel := by
          rw [hsuf, List.length_append, List.length_cons] at hfuel
          omega
        have hnext := ih hsplit (.inr (by rw [lastOf_concat]; exact hlv)) hbelow hroom hprev
        rw [lastOf_concat] at hnext
        rw [find_prev_from_right hload hlt]
        exact hnext
      · -- down, with the node as the last of its level
        have hlast := pred_eq hbase hx hpre hhigh
        have hset : ∀ j, lvl ≤ j → j < top →
            Function.update prev lvl (some (lastOf head pre)) j = some (pred s base lv t j) := by
          intro j hj htop
          obtain rfl | hlt := Nat.eq_or_lt_of_le hj
          · rw [Function.update_self, hlast]
          · rw [Function.update_of_ne (by omega)]
            exact hprev j hlt htop
        cases lvl with
        | zero =>
            refine ⟨_, ?_, fun j hj => hset j (Nat.zero_le _) hj⟩
            rw [find_prev_from_end hstop, hlast]
        | succ lvl =>
            rw [find_prev_from_down hstop]
            have hroom : suf.length + lvl < fuel := by omega
            have hreach : pre = [] ∨ lvl < lv (lastOf head pre) := hx.imp_right fun hlt => by omega
            exact ih hbase hreach hpre hroom fun j hj htop => hset j hj htop

theorem find_prev_eq (h : Rep s base lv) (t : K) :
    ∃ prev, s.find_prev t = some (pred s base lv t 0, prev) ∧
      ∀ j < s.max_height, prev j = some (pred s base lv t j) := by
  have hlen := h.length_lt
  have htall := h.tall.1
  have hroom : base.length + (s.max_height - 1) < s.fuel := by
    rw [fuel]
    omega
  have hbase : base = [] ++ base := rfl
  refine h.find_prev_from_eq t hbase (.inl rfl) (fun a ha => by cases ha) hroom fun j hj hj' => ?_
  omega

end Rep

/-- The two searches go the same way. -/
theorem find_first_ge_from_eq (s : SkipList K V) (t : K) (fuel : Nat) (x : Addr) (lvl : Nat)
    (prev : Prev) : s.find_first_ge_from t fuel x lvl =
      (s.find_prev_from t fuel x lvl prev).map fun p => s.load_next p.1 0 := by
  induction fuel generalizing x lvl prev with
  | zero => rfl
  | succ fuel ih =>
      rw [find_first_ge_from, find_prev_from, search_round]
      cases hload : s.load_next x lvl with
      | none =>
          cases lvl with
          | zero => simp [hload]
          | succ lvl => exact ih x lvl _
      | some n =>
          cases htest : s.precedes t (some n) with
          | true => exact ih n lvl _
          | false =>
              cases lvl with
              | zero => simp [hload]
              | succ lvl => exact ih x lvl _

namespace Rep

variable {s : SkipList K V} {base : List Addr} {lv : Addr → Nat}

theorem find_first_ge_eq (h : Rep s base lv) (t : K) :
    s.find_first_ge t = some (base.filter (t ≤ s.key ·)).head? := by
  obtain ⟨prev, hprev, -⟩ := h.find_prev_eq t
  rw [find_first_ge, find_first_ge_from_eq s t s.fuel head _ fun _ => none, ← find_prev, hprev,
    Option.map_some, h.pred_zero, h.next_zero (h.sorted.split t)]

theorem has_key_eq (s : SkipList K V) (k : K) (x : Addr) :
    s.has_key k (some x) = decide (s.key x = k) := by
  rw [has_key, Option.any_some, decide_eq_decide]
  constructor
  · intro h
    exact le_antisymm (not_lt.mp h.2) (not_lt.mp h.1)
  · intro h
    exact ⟨h.not_lt, h.symm.not_lt⟩

/-- The node a search for `k` finds has the key if any has it. -/
theorem has_key_iff (h : Rep s base lv) (k : K) :
    s.has_key k (base.filter (k ≤ s.key ·)).head? = true ↔ ∃ a ∈ base, s.key a = k := by
  cases hfilter : base.filter (k ≤ s.key ·) with
  | nil =>
      refine ⟨fun htest => by simp [has_key] at htest, ?_⟩
      rintro ⟨a, ha, hkey⟩
      exact absurd (decide_eq_true hkey.ge) (List.filter_eq_nil_iff.mp hfilter a ha)
  | cons x rest =>
      rw [List.head?_cons, has_key_eq, decide_eq_true_eq]
      have hx : x ∈ base.filter (k ≤ s.key ·) := hfilter ▸ List.mem_cons_self
      refine ⟨fun hkey => ⟨x, (List.mem_filter.mp hx).1, hkey⟩, ?_⟩
      rintro ⟨a, ha, hkey⟩
      -- no node before the one with the key is found
      have hle : k ≤ s.key x := of_decide_eq_true (List.mem_filter.mp hx).2
      have hmem : a ∈ x :: rest := hfilter ▸ List.mem_filter.mpr ⟨ha, decide_eq_true hkey.ge⟩
      obtain rfl | hmem := List.mem_cons.mp hmem
      · exact hkey
      · have hsorted : Keyed.Sorted s.key (x :: rest) := hfilter ▸ h.sorted.filter _
        have hlt := (List.pairwise_cons.mp hsorted).1 a hmem
        rw [hkey] at hlt
        exact absurd hlt (not_lt.mpr hle)

theorem contains_eq (h : Rep s base lv) (k : K) :
    ∃ b, s.contains k = some b ∧ (b = true ↔ ∃ a ∈ base, s.key a = k) := by
  refine ⟨_, ?_, h.has_key_iff k⟩
  rw [contains, h.find_first_ge_eq]
  rfl

end Rep

end Kronos.SkipList
