import Kronos.Ref.Block

/-!
# Which blocks a range touches

A block holds the keys from its first one up to the first one of the next
block. The search lands on the last block that starts at or below the range,
or on block 0 when every block starts above it; everything in front of it ends
too early. The walk from there takes every block that starts inside and stops
at the first that starts behind, since the first keys only grow.
-/

namespace Kronos.IndexBlock

variable {start end_ : Key}

/-- The walk takes the entries that start at or below `end_`: with growing
first keys that is every such entry from `i` on. -/
theorem mem_push_from {entries : List IndexEntry}
    (h : entries.Pairwise fun a b => a.first_key < b.first_key) (i j : Nat) :
    j ∈ push_from end_ i entries ↔
      ∃ k e, j = i + k ∧ entries[k]? = some e ∧ e.first_key ≤ end_ := by
  induction entries generalizing i with
  | nil => simp [push_from]
  | cons a entries ih =>
      have hrest := ih (List.pairwise_cons.mp h).2 (i + 1)
      rw [push_from]
      split
      · next habove =>
          constructor
          · intro hj
            simp at hj
          · intro hex
            obtain ⟨k, e, -, hk, hle⟩ := hex
            -- nothing behind an entry above the range starts in it
            have hlt : end_ < e.first_key := by
              cases k with
              | zero =>
                  rw [List.getElem?_cons_zero, Option.some.injEq] at hk
                  exact hk ▸ habove
              | succ k =>
                  rw [List.getElem?_cons_succ] at hk
                  exact habove.trans ((List.pairwise_cons.mp h).1 e (List.mem_of_getElem? hk))
            exact absurd hlt (not_lt.mpr hle)
      · next hin =>
          rw [List.mem_cons, hrest]
          constructor
          · intro hj
            rcases hj with hj | hj
            · exact ⟨0, a, hj, rfl, not_lt.mp hin⟩
            · obtain ⟨k, e, hj, hk, hle⟩ := hj
              exact ⟨k + 1, e, by omega, hk, hle⟩
          · intro hex
            obtain ⟨k, e, hj, hk, hle⟩ := hex
            cases k with
            | zero => exact .inl hj
            | succ k => exact .inr ⟨k, e, by omega, hk, hle⟩

theorem push_from_sorted (entries : List IndexEntry) (i : Nat) :
    (push_from end_ i entries).Pairwise (· < ·) ∧ ∀ j ∈ push_from end_ i entries, i ≤ j := by
  induction entries generalizing i with
  | nil => simp [push_from]
  | cons a entries ih =>
      obtain ⟨hsorted, hfrom⟩ := ih (i + 1)
      rw [push_from]
      split
      · simp
      · apply And.intro
        · rw [List.pairwise_cons]
          exact ⟨fun j hj => hfrom j hj, hsorted⟩
        · intro j hj
          rcases List.mem_cons.mp hj with hj | hj
          · omega
          · have := hfrom j hj
            omega

/-- The entry the search lands on, told by what stands around it. -/
theorem search_lands {entries : List IndexEntry} (hne : entries ≠ [])
    (h : entries.Pairwise fun a b => a.first_key < b.first_key) {first : Nat}
    (hfirst : first = Bisect.bisect (fun mid => entries[mid]?.any (·.first_key ≤ start)) 0
      entries.length) {i : Nat} (hi : i < entries.length) :
    first ≤ i ↔ ∀ next, entries[i + 1]? = some next → start < next.first_key := by
  have hgrow : ∀ {i j : Nat} {a b : IndexEntry}, i < j → entries[i]? = some a →
      entries[j]? = some b → a.first_key < b.first_key := by
    intro i j a b hij ha hb
    obtain ⟨hi, rfl⟩ := List.getElem?_eq_some_iff.mp ha
    obtain ⟨hj, rfl⟩ := List.getElem?_eq_some_iff.mp hb
    exact List.pairwise_iff_getElem.mp h i j hi hj hij
  have hyes := Bisect.bisect_yes (fun mid => entries[mid]?.any (·.first_key ≤ start)) 0
    entries.length
  obtain ⟨hlt, hstop⟩ := Bisect.bisect_stop
    (fun mid => entries[mid]?.any (·.first_key ≤ start)) 0 entries.length
    (List.length_pos_iff.mpr hne)
  rw [← hfirst] at hyes hlt hstop
  constructor
  · intro hle next hnext
    -- behind the place it landed on the answer was no
    have hnot : ∀ e, entries[first + 1]? = some e → start < e.first_key := by
      intro e he
      rcases hstop with hend | hno
      · rw [List.getElem?_eq_none (by omega)] at he
        cases he
      · simpa [he] using hno
    rcases Nat.lt_or_eq_of_le hle with hlt' | heq
    · obtain ⟨e, he⟩ : ∃ e, entries[first + 1]? = some e :=
        ⟨_, List.getElem?_eq_getElem (by omega)⟩
      exact (hnot e he).trans (hgrow (by omega) he hnext)
    · exact hnot next (heq ▸ hnext)
  · intro hbehind
    by_contra hless
    -- the place it landed on starts at or below, and so does everything in front
    rcases hyes with hzero | hany
    · omega
    · obtain ⟨e, he, hstart⟩ := (Option.any_eq_true _ _).mp hany
      have hle : e.first_key ≤ start := of_decide_eq_true hstart
      obtain ⟨next, hnext⟩ : ∃ next, entries[i + 1]? = some next :=
        ⟨_, List.getElem?_eq_getElem (by omega)⟩
      have habove := hbehind next hnext
      rcases Nat.lt_or_eq_of_le (show i + 1 ≤ first by omega) with hlt' | heq
      · exact absurd ((hgrow hlt' hnext he).trans_le hle) (not_lt.mpr habove.le)
      · rw [heq, he, Option.some.injEq] at hnext
        exact absurd (hnext ▸ hle) (not_le.mpr habove)

/-- The blocks in range, in increasing order, are those that start at or below
its end and in front of whose end, the first key of the next block, it starts. -/
theorem blocks_in_range_exact (ib : IndexBlock)
    (h : ib.entries.Pairwise fun a b => a.first_key < b.first_key) (start end_ : Key) :
    (ib.blocks_in_range start end_).Pairwise (· < ·) ∧
    ∀ i, i ∈ ib.blocks_in_range start end_ ↔
      ∃ e, ib.entries[i]? = some e ∧ e.first_key ≤ end_ ∧
        (i + 1 = ib.entries.length ∨
          ∃ next, ib.entries[i + 1]? = some next ∧ start < next.first_key) := by
  by_cases hnil : ib.entries = []
  · simp [blocks_in_range, hnil]
  · rw [blocks_in_range, if_neg hnil]
    dsimp only
    generalize hfirst : Bisect.bisect (fun mid => ib.entries[mid]?.any (·.first_key ≤ start)) 0
      ib.entries.length = first
    apply And.intro
    · exact (push_from_sorted _ _).1
    · intro i
      rw [mem_push_from (h.sublist (List.drop_sublist ..))]
      constructor
      · intro hex
        obtain ⟨k, e, rfl, hk, hle⟩ := hex
        rw [List.getElem?_drop] at hk
        obtain ⟨hin, -⟩ := List.getElem?_eq_some_iff.mp hk
        have hafter := (search_lands hnil h hfirst.symm hin).mp (by omega)
        refine ⟨e, hk, hle, ?_⟩
        rcases Nat.lt_or_ge (first + k + 1) ib.entries.length with hlt | hge
        · exact .inr ⟨_, List.getElem?_eq_getElem hlt, hafter _ (List.getElem?_eq_getElem hlt)⟩
        · exact .inl (by omega)
      · intro hex
        obtain ⟨e, he, hle, hafter⟩ := hex
        obtain ⟨hin, -⟩ := List.getElem?_eq_some_iff.mp he
        have hfrom : first ≤ i := by
          apply (search_lands hnil h hfirst.symm hin).mpr
          intro next hnext
          rcases hafter with hend | hafter
          · rw [List.getElem?_eq_none (by omega)] at hnext
            cases hnext
          · obtain ⟨next', hnext', hlt⟩ := hafter
            rw [hnext', Option.some.injEq] at hnext
            exact hnext ▸ hlt
        refine ⟨i - first, e, by omega, ?_, hle⟩
        rw [List.getElem?_drop, show first + (i - first) = i by omega]
        exact he

theorem blocks_in_range_exact_two :
    let ib : IndexBlock := ⟨[⟨⟨1, 5, 0⟩, 0, 113⟩, ⟨⟨1, 9, 0⟩, 113, 113⟩]⟩
    (ib.blocks_in_range ⟨1, 6, 0⟩ ⟨1, 9, 0⟩).Pairwise (· < ·) ∧
    ∀ i, i ∈ ib.blocks_in_range ⟨1, 6, 0⟩ ⟨1, 9, 0⟩ ↔
      ∃ e, ib.entries[i]? = some e ∧ e.first_key ≤ ⟨1, 9, 0⟩ ∧
        (i + 1 = ib.entries.length ∨
          ∃ next, ib.entries[i + 1]? = some next ∧ ⟨1, 6, 0⟩ < next.first_key) :=
  blocks_in_range_exact _ (by decide) _ _

end Kronos.IndexBlock
