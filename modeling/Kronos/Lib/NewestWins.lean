import Mathlib.Data.List.Sort
import Kronos.Lib.Keyed

/-!
# Newest-wins merge

Versions carry a key and an age, the larger the newer. Sorting them by key,
the newest of a key in front, and keeping the first of each key leaves one
version of every key: the newest. The result is sorted by key.
-/

namespace NewestWins

variable {α κ τ : Type*} [LinearOrder κ] [LinearOrder τ] (key : α → κ) (age : α → τ)

def le (a b : α) : Prop := if key a ≠ key b then key a < key b else age b ≤ age a

instance : DecidableRel (le key age) := fun a b => by unfold le; infer_instance

/-- Drop what has the key of the one before it. -/
def firsts : Option κ → List α → List α
  | _, [] => []
  | prev, a :: rest =>
      if prev = some (key a) then firsts prev rest else a :: firsts (some (key a)) rest

def merge (l : List α) : List α := firsts key none (l.insertionSort (le key age))

variable {key age}

theorem le_iff {a b : α} :
    le key age a b ↔ key a < key b ∨ key a = key b ∧ age b ≤ age a := by
  rw [le]
  split
  · next hne => exact ⟨.inl, fun h => h.resolve_right fun h => hne h.1⟩
  · next heq =>
      rw [not_not] at heq
      exact ⟨fun h => .inr ⟨heq, h⟩, fun h => (h.resolve_left (by rw [heq]; exact lt_irrefl _)).2⟩

instance : Std.Total (le key age) where
  total a b := by
    rw [le_iff, le_iff]
    rcases lt_trichotomy (key a) (key b) with h | h | h
    · exact .inl (.inl h)
    · rcases le_total (age a) (age b) with ha | ha
      · exact .inr (.inr ⟨h.symm, ha⟩)
      · exact .inl (.inr ⟨h, ha⟩)
    · exact .inr (.inl h)

instance : IsTrans α (le key age) where
  trans a b c := by
    rw [le_iff, le_iff, le_iff]
    rintro (hab | ⟨hab, gab⟩) (hbc | ⟨hbc, gbc⟩)
    · exact .inl (hab.trans hbc)
    · exact .inl (hbc ▸ hab)
    · exact .inl (hab ▸ hbc)
    · exact .inr ⟨hab.trans hbc, gbc.trans gab⟩

theorem key_le_of_le {a b : α} (h : le key age a b) : key a ≤ key b := by
  rcases le_iff.mp h with h | h
  · exact h.le
  · exact h.1.le

theorem mem_of_mem_firsts {prev : Option κ} {l : List α} {x : α} (h : x ∈ firsts key prev l) :
    x ∈ l := by
  induction l generalizing prev with
  | nil => cases h
  | cons a l ih =>
      rw [firsts] at h
      split at h
      · exact List.mem_cons_of_mem _ (ih h)
      · rcases List.mem_cons.mp h with rfl | h
        · exact List.mem_cons_self
        · exact List.mem_cons_of_mem _ (ih h)

/-- In a sorted list the first of a key is the newest, if no two versions of a
key are of one age. -/
theorem mem_firsts_iff {l : List α} (hl : l.Pairwise (le key age))
    (hinj : ∀ a ∈ l, ∀ b ∈ l, key a = key b → age a = age b → a = b) {prev : Option κ}
    (hprev : ∀ p ∈ prev, ∀ y ∈ l, p ≤ key y) {x : α} :
    x ∈ firsts key prev l ↔
      x ∈ l ∧ prev ≠ some (key x) ∧ ∀ y ∈ l, key y = key x → age y ≤ age x := by
  induction l generalizing prev with
  | nil => exact ⟨fun h => absurd h List.not_mem_nil, fun h => absurd h.1 List.not_mem_nil⟩
  | cons a l ih =>
      obtain ⟨ha, hl⟩ := List.pairwise_cons.mp hl
      have hinj' : ∀ b ∈ l, ∀ c ∈ l, key b = key c → age b = age c → b = c := fun b hb c hc =>
        hinj b (List.mem_cons_of_mem _ hb) c (List.mem_cons_of_mem _ hc)
      rw [firsts]
      split
      · next hp =>
          subst hp
          rw [ih hl hinj' fun p hp y hy => hprev p hp y (List.mem_cons_of_mem _ hy)]
          constructor
          · rintro ⟨hx, hne, hmax⟩
            refine ⟨List.mem_cons_of_mem _ hx, hne, fun y hy hyx => ?_⟩
            rcases List.mem_cons.mp hy with rfl | hy
            · exact absurd (congrArg some hyx) hne
            · exact hmax y hy hyx
          · rintro ⟨hx, hne, hmax⟩
            rcases List.mem_cons.mp hx with rfl | hx
            · exact absurd rfl hne
            · exact ⟨hx, hne, fun y hy => hmax y (List.mem_cons_of_mem _ hy)⟩
      · next hp =>
          have hfloor : ∀ p ∈ some (key a), ∀ y ∈ l, p ≤ key y := by
            intro p hp y hy
            cases hp
            exact key_le_of_le (ha y hy)
          rw [List.mem_cons, ih hl hinj' hfloor]
          constructor
          · rintro (rfl | ⟨hx, hne, hmax⟩)
            · refine ⟨List.mem_cons_self, hp, fun y hy hyx => ?_⟩
              rcases List.mem_cons.mp hy with rfl | hy
              · exact le_refl _
              · exact ((le_iff.mp (ha y hy)).resolve_left (hyx ▸ lt_irrefl _)).2
            · refine ⟨List.mem_cons_of_mem _ hx, ?_, fun y hy hyx => ?_⟩
              · intro heq
                have hpa := hprev _ heq a List.mem_cons_self
                have hax := hfloor _ rfl x hx
                exact hne (congrArg some (le_antisymm hax hpa))
              · rcases List.mem_cons.mp hy with rfl | hy
                · exact absurd (congrArg some hyx) hne
                · exact hmax y hy hyx
          · rintro ⟨hx, -, hmax⟩
            by_cases hxa : key x = key a
            · left
              rcases List.mem_cons.mp hx with rfl | hx
              · rfl
              · have hage := hmax a List.mem_cons_self hxa.symm
                have hage' := ((le_iff.mp (ha x hx)).resolve_left (hxa ▸ lt_irrefl _)).2
                exact hinj x (List.mem_cons_of_mem _ hx) a List.mem_cons_self hxa
                  (le_antisymm hage' hage)
            · right
              have hx' : x ∈ l := (List.mem_cons.mp hx).resolve_left fun h => hxa (h ▸ rfl)
              exact ⟨hx', fun h => hxa (Option.some.inj h).symm,
                fun y hy => hmax y (List.mem_cons_of_mem _ hy)⟩

theorem firsts_sorted {l : List α} (hl : l.Pairwise (le key age)) (prev : Option κ)
    (hprev : ∀ p ∈ prev, ∀ y ∈ l, p ≤ key y) :
    Keyed.Sorted key (firsts key prev l) ∧ ∀ p ∈ prev, ∀ y ∈ firsts key prev l, p < key y := by
  induction l generalizing prev with
  | nil => exact ⟨List.Pairwise.nil, fun p _ y hy => absurd hy List.not_mem_nil⟩
  | cons a l ih =>
      obtain ⟨ha, hl⟩ := List.pairwise_cons.mp hl
      rw [firsts]
      split
      · exact ih hl prev fun p hp y hy => hprev p hp y (List.mem_cons_of_mem _ hy)
      · next hne =>
          obtain ⟨h1, h2⟩ := ih hl (some (key a)) fun p hp y hy => by
            cases hp
            exact key_le_of_le (ha y hy)
          have hafter := h2 _ rfl
          refine ⟨List.pairwise_cons.mpr ⟨hafter, h1⟩, fun p hp y hy => ?_⟩
          have hpa : p < key a :=
            lt_of_le_of_ne (hprev p hp a List.mem_cons_self) fun heq => hne (heq ▸ hp)
          rcases List.mem_cons.mp hy with rfl | hy
          · exact hpa
          · exact hpa.trans (hafter y hy)

theorem merge_sorted (l : List α) : Keyed.Sorted key (merge key age l) :=
  (firsts_sorted (List.pairwise_insertionSort (le key age) l) none fun p hp => by cases hp).1

/-- The merge holds the newest version of every key and nothing else. -/
theorem mem_merge_iff {l : List α}
    (hinj : ∀ a ∈ l, ∀ b ∈ l, key a = key b → age a = age b → a = b) {x : α} :
    x ∈ merge key age l ↔ x ∈ l ∧ ∀ y ∈ l, key y = key x → age y ≤ age x := by
  have hperm := List.perm_insertionSort (le key age) l
  rw [merge, mem_firsts_iff (List.pairwise_insertionSort (le key age) l)
    (fun a ha b hb => hinj a (hperm.subset ha) b (hperm.subset hb)) fun p hp => by cases hp]
  simp only [hperm.mem_iff, ne_eq, reduceCtorEq, not_false_eq_true, true_and]

/-- Every key of the list is in the merge. -/
theorem exists_mem_firsts {l : List α} {x : α} (hx : x ∈ l) (prev : Option κ)
    (hne : prev ≠ some (key x)) : ∃ y ∈ firsts key prev l, key y = key x := by
  induction l generalizing prev with
  | nil => cases hx
  | cons a l ih =>
      rw [firsts]
      split
      · next hp =>
          rcases List.mem_cons.mp hx with rfl | hx
          · exact absurd hp hne
          · exact ih hx prev hne
      · by_cases hxa : key x = key a
        · exact ⟨a, List.mem_cons_self, hxa.symm⟩
        · rcases List.mem_cons.mp hx with rfl | hx
          · exact absurd rfl hxa
          · obtain ⟨y, hy, hyx⟩ := ih hx (some (key a)) fun h =>
              hxa (Option.some.inj h).symm
            exact ⟨y, List.mem_cons_of_mem _ hy, hyx⟩

theorem exists_mem_merge {l : List α} {x : α} (hx : x ∈ l) :
    ∃ y ∈ merge key age l, key y = key x :=
  exists_mem_firsts ((List.perm_insertionSort _ l).mem_iff.mpr hx) none (by simp)

/-- Where every key has one version the merge only sorts. -/
theorem merge_perm {l : List α} (h : (l.map key).Nodup) : (merge key age l).Perm l := by
  have hinj : ∀ a ∈ l, ∀ b ∈ l, key a = key b → a = b := fun a ha b hb heq =>
    List.inj_on_of_nodup_map h ha hb heq
  have hsorted : Keyed.Sorted key (merge key age l) := merge_sorted l
  refine (List.perm_ext_iff_of_nodup ?_ h.of_map).mpr fun x => ?_
  · exact hsorted.imp fun hlt heq => absurd (congrArg key heq) (ne_of_lt hlt)
  · rw [mem_merge_iff fun a ha b hb hkey _ => hinj a ha b hb hkey]
    refine and_iff_left_of_imp fun hx y hy hkey => ?_
    rw [hinj y hy x hx hkey]

theorem mem_of_mem_merge {l : List α} {x : α} (hx : x ∈ merge key age l) : x ∈ l :=
  (List.perm_insertionSort _ l).subset (mem_of_mem_firsts hx)

end NewestWins
