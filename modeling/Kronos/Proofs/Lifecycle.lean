import Kronos.Spec.Lifecycle

/-!
# The generator's thread, as long as expired workers are joined

At rest `running_` says whether the `run_loop` in `worker_` is still to end by
itself: a call that clears `running_` joins before it comes to rest, so a
cleared `running_` beside a joinable `worker_` means that the loop has run to
its deadline. That is the one state in which `start` goes on to the assignment
and the destructor passes over the join, and both then meet a joinable thread.
-/

namespace Kronos

open Spec

namespace SyntheticGenerator

/-! ## The invariant -/

/-- What a call has found and left, where it is. -/
def Placed (g : SyntheticGenerator) : Prop :=
  match g.control with
  -- the worker is on its way, or has ended at its deadline
  | .idle => ∀ i, g.worker = some i →
      (g.running = true ∧ (g.loops[i]? = some .looping ∨ g.loops[i]? = some (.leaving true))) ∨
        (g.running = false ∧ g.loops[i]? = some (.done true))
  | .checked => g.worker = none
  | .spawning => g.worker = none ∧ g.running = true
  | .stopping => True
  | .destroying was_running => was_running = false → g.worker = none
  | .destroyed => g.worker = none

structure Held (g : SyntheticGenerator) : Prop where
  running : g.terminated = false
  placed : g.Placed
  /-- a `run_loop` that has not returned is the one in `worker_` -/
  owned : ∀ i l, g.loops[i]? = some l → l.active = true → g.worker = some i

theorem Held.alive {g : SyntheticGenerator} (h : Held g) : Alive g := by
  refine ⟨h.running, ?_⟩
  intro i j l l' hi hl hj hl'
  have hboth := (h.owned i l hi hl).symm.trans (h.owned j l' hj hl')
  exact Option.some.inj hboth

theorem held_new : Held {} := by
  refine ⟨rfl, ?_, fun i l hi => by simp at hi⟩
  intro i hi
  cases hi

/-! ## Calls -/

theorem held_start {g : SyntheticGenerator} (h : Held g) (hidle : g.control = .idle)
    (hreaped : ¬ Expired g) : Held g.start := by
  have hplaced := h.placed
  rw [Placed, hidle] at hplaced
  rw [start]
  split
  · refine ⟨h.running, ?_, h.owned⟩
    rw [Placed]
    dsimp only
    rw [hidle]
    exact hplaced
  · next hoff =>
      refine ⟨h.running, ?_, h.owned⟩
      show g.worker = none
      cases hw : g.worker with
      | none => rfl
      | some i =>
          obtain ⟨hon, -⟩ | ⟨-, hdone⟩ := hplaced i hw
          · exact absurd hon hoff
          · exact absurd (by rw [Expired, hw]; exact hdone) hreaped

theorem held_stop {g : SyntheticGenerator} (h : Held g) (hidle : g.control = .idle)
    (job_id : String) : Held (g.stop job_id) := by
  rw [stop]
  split
  · refine ⟨h.running, ?_, h.owned⟩
    have hplaced := h.placed
    rw [Placed, hidle] at hplaced
    rw [Placed]
    dsimp only
    rw [hidle]
    exact hplaced
  · exact ⟨h.running, trivial, h.owned⟩

theorem held_destroy {g : SyntheticGenerator} (h : Held g) (hidle : g.control = .idle)
    (hreaped : ¬ Expired g) : Held g.destroy := by
  have hplaced := h.placed
  rw [Placed, hidle] at hplaced
  refine ⟨h.running, ?_, h.owned⟩
  show g.running = false → g.worker = none
  intro hoff
  cases hw : g.worker with
  | none => rfl
  | some i =>
      obtain ⟨hon, -⟩ | ⟨-, hdone⟩ := hplaced i hw
      · rw [hoff] at hon
        cases hon
      · exact absurd (by rw [Expired, hw]; exact hdone) hreaped

/-- Behind a `join` no `run_loop` is left. -/
theorem none_left {g : SyntheticGenerator} (h : Held g) (hjoins : g.joins = true) {i : Nat}
    {l : RunLoop} (hi : g.loops[i]? = some l) : l.active = false := by
  cases hl : l.active with
  | false => rfl
  | true =>
      rw [joins, h.owned i l hi hl] at hjoins
      dsimp only at hjoins
      rw [hi, Option.any_some, hl] at hjoins
      cases hjoins

theorem held_proceed {g : SyntheticGenerator} (h : Held g) : Held g.proceed := by
  have hplaced := h.placed
  rw [Placed] at hplaced
  rw [proceed]
  cases hc : g.control with
  | idle => exact h
  | checked =>
      rw [hc] at hplaced
      exact ⟨h.running, ⟨hplaced, rfl⟩, h.owned⟩
  | spawning =>
      rw [hc] at hplaced
      obtain ⟨hplaced, hon⟩ := hplaced
      dsimp only
      rw [if_neg (by rw [hplaced]; simp)]
      refine ⟨h.running, ?_, fun i l hi hl => ?_⟩
      · intro i hi
        cases hi
        exact .inl ⟨hon, .inl List.getElem?_concat_length⟩
      · obtain hlt | rfl | hgt := Nat.lt_trichotomy i g.loops.length
        · rw [List.getElem?_append_left hlt] at hi
          have hw := h.owned i l hi hl
          rw [hplaced] at hw
          cases hw
        · rfl
        · rw [List.getElem?_eq_none (by simp; omega)] at hi
          cases hi
  | stopping =>
      dsimp only
      split
      · next hjoins =>
          refine ⟨h.running, ?_, fun i l hi hl => ?_⟩
          · intro i hi
            cases hi
          · rw [none_left h hjoins hi] at hl
            cases hl
      · exact h
  | destroying was_running =>
      rw [hc] at hplaced
      dsimp only at hplaced ⊢
      split
      · split
        · next hjoins =>
            refine ⟨h.running, rfl, fun i l hi hl => ?_⟩
            rw [none_left h hjoins hi] at hl
            cases hl
        · exact h
      · next hpassed =>
          have hnone : g.worker = none := by
            cases was_running with
            | false => exact hplaced rfl
            | true => simpa using hpassed
          rw [if_neg (by rw [hnone]; simp)]
          exact ⟨h.running, hnone, h.owned⟩
  | destroyed => exact h

/-! ## The worker -/

/-- The `run_loop` in `worker_` moves. -/
theorem Held.moved {g : SyntheticGenerator} (h : Held g) {i : Nat} {l : RunLoop} {on : Bool}
    (hi : i < g.loops.length) (hw : g.worker = some i)
    (hidle : g.control = .idle → (on = true ∧ (l = .looping ∨ l = .leaving true)) ∨
      (on = false ∧ l = .done true)) :
    Held { g with loops := g.loops.set i l, running := on } := by
  have hplaced := h.placed
  rw [Placed] at hplaced
  refine ⟨h.running, ?_, fun j k hj hk => ?_⟩
  · rw [Placed]
    dsimp only
    cases hc : g.control with
    | idle =>
        intro j hj
        rw [hw] at hj
        cases hj
        rw [List.getElem?_set_self hi]
        exact (hidle hc).imp (And.imp id (Or.imp (congrArg some) (congrArg some)))
          (And.imp id (congrArg some))
    | checked =>
        rw [hc, hw] at hplaced
        cases hplaced
    | spawning =>
        rw [hc, hw] at hplaced
        cases hplaced.1
    | stopping => trivial
    | destroying was_running =>
        rw [hc] at hplaced
        exact hplaced
    | destroyed =>
        rw [hc, hw] at hplaced
        cases hplaced
  · by_cases hij : i = j
    · rw [← hij]
      exact hw
    · dsimp only at hj
      rw [List.getElem?_set_ne hij] at hj
      exact h.owned j k hj hk

theorem held_run_loop {g : SyntheticGenerator} (h : Held g) (i : Nat) (deadline : Bool) :
    Held (g.run_loop i deadline) := by
  have hplaced := h.placed
  rw [Placed] at hplaced
  rw [run_loop]
  cases hi : g.loops[i]? with
  | none => exact h
  | some l =>
      have hlt : i < g.loops.length := (List.getElem?_eq_some_iff.mp hi).1
      cases l with
      | done expired => exact h
      | looping =>
          have hw := h.owned i .looping hi rfl
          dsimp only
          split
          · next hoff =>
              -- only a call under way has cleared `running_`
              refine h.moved hlt hw fun hidle => ?_
              rw [hidle] at hplaced
              obtain ⟨hon, -⟩ | ⟨-, hdone⟩ := hplaced i hw
              · exact absurd hon hoff
              · rw [hi] at hdone
                cases hdone
          · next hon =>
              rw [not_not] at hon
              split
              · exact h.moved hlt hw fun _ => .inl ⟨hon, .inr rfl⟩
              · exact ⟨h.running, h.placed, h.owned⟩
      | leaving expired =>
          have hw := h.owned i _ hi rfl
          refine h.moved hlt hw fun hidle => .inr ⟨rfl, ?_⟩
          rw [hidle] at hplaced
          obtain ⟨-, hloop | hleave⟩ | ⟨-, hdone⟩ := hplaced i hw
          · rw [hi] at hloop
            cases hloop
          · rw [hi] at hleave
            cases hleave
            rfl
          · rw [hi] at hdone
            cases hdone

/-! ## Runs -/

theorem held_act {g : SyntheticGenerator} (h : Held g) {a : GeneratorAct} (ha : Reaped g a) :
    Held (g.act a) := by
  unfold act
  rw [if_neg (by rw [h.running]; simp)]
  cases a with
  | start =>
      dsimp only
      split
      · next hidle => exact held_start h hidle ha
      · exact h
  | stop job_id =>
      dsimp only
      split
      · next hidle => exact held_stop h hidle job_id
      · exact h
  | destroy =>
      dsimp only
      split
      · next hidle => exact held_destroy h hidle ha
      · exact h
  | proceed => exact held_proceed h
  | run_loop i deadline => exact held_run_loop h i deadline

/-- In every interleaving in which an expired worker is joined by a `stop` before
`start` or the destructor is called, the program is not terminated and at most
one `run_loop` is active, in every state. -/
theorem generator_alive {acts : List GeneratorAct} (h : Run.Along act Reaped {} acts) :
    Run.Along act (fun g a => Alive (g.act a)) {} acts :=
  (h.always (I := Held) (fun _ _ hg ha => held_act hg ha) held_new).imp fun _ _ hg => hg.alive

/-- A worker that ends at its deadline, a `stop`, and a second job. -/
theorem generator_alive_again : Run.Along act (fun g a => Alive (g.act a)) {}
    [.start, .proceed, .proceed, .run_loop 0 true, .run_loop 0 true,
      .stop "synthetic-001", .proceed, .start, .proceed, .proceed, .destroy] :=
  generator_alive (by decide)

/-! ## An expired worker -/

/-- What the condition rules out ends the program: at rest an expired worker leaves
`running_` cleared, so `start` assigns to it and the destructor does not join it. -/
theorem expired_terminates {g : SyntheticGenerator} (h : Held g) (hidle : g.control = .idle)
    (hexpired : Expired g) :
    (((g.act .start).act .proceed).act .proceed).terminated = true ∧
      ((g.act .destroy).act .proceed).terminated = true := by
  have hplaced := h.placed
  have hrun := h.running
  rw [Placed, hidle] at hplaced
  obtain ⟨i, hw, hi⟩ := Option.bind_eq_some_iff.mp hexpired
  have hoff : g.running = false := by
    obtain ⟨-, hloop | hleave⟩ | ⟨hoff, -⟩ := hplaced i hw
    · rw [hi] at hloop
      cases hloop
    · rw [hi] at hleave
      cases hleave
    · exact hoff
  constructor
  · simp [act, start, proceed, hidle, hoff, hrun, hw]
  · simp [act, destroy, proceed, hidle, hoff, hrun, hw]

/-- The job ends at its deadline; then `start` assigns to its thread, and without
a second job the destructor destroys it. -/
theorem deadline_terminates :
    ([.start, .proceed, .proceed, .run_loop 0 true, .run_loop 0 true,
      .start, .proceed, .proceed].foldl act {}).terminated = true ∧
    ([.start, .proceed, .proceed, .run_loop 0 true, .run_loop 0 true,
      .destroy, .proceed].foldl act {}).terminated = true := by
  decide

end SyntheticGenerator

end Kronos
