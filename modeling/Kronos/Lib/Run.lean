import Mathlib.Data.List.Basic

/-!
# Runs whose steps are guarded

A run folds a step function over a list of inputs. Some programs behave well
only as long as every input meets a condition in the state it meets: `Along`
says that of a whole run, state by state. An invariant that a guarded step
keeps is then kept by a guarded run, and a guarded run can be cut and
continued anywhere.
-/

namespace Run

variable {σ ι : Type*} (step : σ → ι → σ) (ok : σ → ι → Prop)

/-- Every input of the run meets `ok` in the state before it. -/
def Along : σ → List ι → Prop
  | _, [] => True
  | s, i :: is => ok s i ∧ Along (step s i) is

instance Along.decidable [∀ s i, Decidable (ok s i)] (s : σ) (is : List ι) :
    Decidable (Along step ok s is) :=
  match is with
  | [] => inferInstanceAs (Decidable True)
  | i :: is =>
      have := Along.decidable (step s i) is
      inferInstanceAs (Decidable (ok s i ∧ Along step ok (step s i) is))

variable {step ok}

theorem along_append {s : σ} {is js : List ι} :
    Along step ok s (is ++ js) ↔ Along step ok s is ∧ Along step ok (is.foldl step s) js := by
  induction is generalizing s with
  | nil => exact ⟨fun h => ⟨trivial, h⟩, fun h => h.2⟩
  | cons i is ih =>
      rw [List.cons_append, Along, Along, ih, List.foldl_cons, and_assoc]

/-- What a guarded step keeps, a guarded run keeps. -/
theorem Along.invariant {I : σ → Prop} (hstep : ∀ s i, I s → ok s i → I (step s i)) {s : σ}
    {is : List ι} (hs : I s) (h : Along step ok s is) : I (is.foldl step s) := by
  induction is generalizing s with
  | nil => exact hs
  | cons i is ih => exact ih (hstep s i hs h.1) h.2

/-- So every state of the run has it. -/
theorem Along.always {I : σ → Prop} (hstep : ∀ s i, I s → ok s i → I (step s i)) {s : σ}
    {is : List ι} (hs : I s) (h : Along step ok s is) :
    Along step (fun s i => I (step s i)) s is := by
  induction is generalizing s with
  | nil => exact trivial
  | cons i is ih => exact ⟨hstep s i hs h.1, ih (hstep s i hs h.1) h.2⟩

theorem along_of_forall (h : ∀ s i, ok s i) (s : σ) (is : List ι) : Along step ok s is := by
  induction is generalizing s with
  | nil => exact trivial
  | cons i is ih => exact ⟨h s i, ih _⟩

/-- A guard that an invariant grants. -/
theorem along_of_invariant {I : σ → Prop} {is : List ι} (hok : ∀ s, ∀ i ∈ is, I s → ok s i)
    (hstep : ∀ s, ∀ i ∈ is, I s → I (step s i)) {s : σ} (hs : I s) : Along step ok s is := by
  induction is generalizing s with
  | nil => exact trivial
  | cons i is ih =>
      refine ⟨hok s i List.mem_cons_self hs, ih (fun s j hj => ?_) (fun s j hj => ?_) ?_⟩
      · exact hok s j (List.mem_cons_of_mem _ hj)
      · exact hstep s j (List.mem_cons_of_mem _ hj)
      · exact hstep s i List.mem_cons_self hs

/-- A weaker guard. -/
theorem Along.imp {ok' : σ → ι → Prop} (himp : ∀ s i, ok s i → ok' s i) {s : σ} {is : List ι}
    (h : Along step ok s is) : Along step ok' s is := by
  induction is generalizing s with
  | nil => exact trivial
  | cons i is ih => exact ⟨himp s i h.1, ih h.2⟩

/-- With an invariant that guarded steps keep, each guard may be weakened where it holds. -/
theorem Along.grants {I : σ → Prop} {ok' : σ → ι → Prop}
    (hstep : ∀ s i, I s → ok s i → I (step s i)) (himp : ∀ s i, I s → ok s i → ok' s i) {s : σ}
    {is : List ι} (hs : I s) (h : Along step ok s is) : Along step ok' s is := by
  induction is generalizing s with
  | nil => exact trivial
  | cons i is ih => exact ⟨himp s i hs h.1, ih (hstep s i hs h.1) h.2⟩

/-- What every step establishes holds where the run ends. -/
theorem Along.last {P : σ → Prop} {s : σ} {is : List ι}
    (h : Along step (fun s i => P (step s i)) s is) (hne : is ≠ []) : P (is.foldl step s) := by
  obtain ⟨front, i, rfl⟩ := (List.eq_nil_or_concat' is).resolve_left hne
  rw [List.foldl_append]
  exact (along_append.mp h).2.1

/-- What holds where the run ends, if a step can only destroy it, holds after
every step. -/
theorem along_of_last {P : σ → Prop} (hback : ∀ s i, P (step s i) → P s) {s : σ} {is : List ι}
    (h : P (is.foldl step s)) : P s ∧ Along step (fun s i => P (step s i)) s is := by
  induction is generalizing s with
  | nil => exact ⟨h, trivial⟩
  | cons i is ih =>
      obtain ⟨hnow, hrest⟩ := ih h
      exact ⟨hback s i hnow, hnow, hrest⟩

theorem Along.and {ok' : σ → ι → Prop} {s : σ} {is : List ι} (h : Along step ok s is)
    (h' : Along step ok' s is) : Along step (fun s i => ok s i ∧ ok' s i) s is := by
  induction is generalizing s with
  | nil => exact trivial
  | cons i is ih => exact ⟨⟨h.1, h'.1⟩, ih h.2 h'.2⟩

/-- A measure that no step raises and the inputs of one kind lower: so many of
them bring it to zero. -/
theorem Along.countdown {I : σ → Prop} {m : σ → Nat} {p : ι → Bool}
    (hstep : ∀ s i, I s → ok s i → I (step s i) ∧ m (step s i) ≤ m s ∧
      (p i = true → m s ≠ 0 → m (step s i) < m s))
    {s : σ} {is : List ι} (hs : I s) (h : Along step ok s is) :
    m (is.foldl step s) ≤ m s - is.countP p := by
  induction is generalizing s with
  | nil => exact Nat.le_refl _
  | cons i is ih =>
      obtain ⟨hkeep, hle, hlt⟩ := hstep s i hs h.1
      have hrest := ih hkeep h.2
      rw [List.foldl_cons]
      by_cases hp : p i = true
      · rw [List.countP_cons_of_pos hp]
        have hlt := hlt hp
        omega
      · rw [List.countP_cons_of_neg hp]
        omega

/-- Two guards that agree wherever `R` relates the states admit the same runs. -/
theorem along_iff {τ : Type*} {step' : τ → ι → τ} {ok' : τ → ι → Prop} {R : σ → τ → Prop}
    (hok : ∀ s t i, R s t → (ok s i ↔ ok' t i))
    (hstep : ∀ s t i, R s t → ok s i → R (step s i) (step' t i)) {s : σ} {t : τ} {is : List ι}
    (h : R s t) : Along step ok s is ↔ Along step' ok' t is := by
  induction is generalizing s t with
  | nil => exact Iff.rfl
  | cons i is ih =>
      rw [Along, Along, hok s t i h]
      refine and_congr_right fun hi => ih (hstep s t i h ((hok s t i h).mpr hi))

/-- A run with no guard. -/
theorem invariant {I : σ → Prop} (hstep : ∀ s i, I s → I (step s i)) {s : σ} (is : List ι)
    (hs : I s) : I (is.foldl step s) := by
  induction is generalizing s with
  | nil => exact hs
  | cons i is ih => exact ih (hstep s i hs)

end Run
