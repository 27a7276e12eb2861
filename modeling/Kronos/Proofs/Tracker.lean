import Kronos.Lib.Slots
import Kronos.Spec.Tracker
import Mathlib.Data.List.GetD
import Mathlib.Data.List.Induction

/-!
# When time goes forward

Every value that `last_ns_` takes is a reading of the clock, and a call whose
reading is at least the value it loads can only move it up. A call loads a
later value than its own reading exactly if another call stored one in between:
the first one's difference then wraps, and its compare-exchange moves the time
back. The amounts are counted right in every order, since `fetch_add` and
`exchange` are one step each.
-/

namespace Kronos

open Spec

/-! ## One step of a call -/

namespace ThroughputTracker

variable {s : ThroughputTracker}

/-- The compare-exchange of a call that has loaded `last` stores its reading or
leaves everything as it is. -/
theorem try_update_cases (now last : UInt64) (s : ThroughputTracker) :
    ((s.last_ns = last ∧ (last = 0 ∨ ¬ now - last < 100000000)) ∧
      (s.try_update now last).2 = { s with last_ns := now } ∧
      ((s.try_update now last).1 = .returned none ∨ ∃ dt, (s.try_update now last).1 = .won dt)) ∨
    (¬ (s.last_ns = last ∧ (last = 0 ∨ ¬ now - last < 100000000)) ∧
      (s.try_update now last).2 = s ∧ (s.try_update now last).1 = .returned none) := by
  rw [try_update, exchange_last]
  by_cases hzero : last = 0
  · by_cases hsame : s.last_ns = last
    · simp [hzero, hsame]
    · simp only [hzero] at hsame ⊢
      simp [hsame]
  · by_cases hdt : now - last < 100000000
    · simp [hzero, hdt]
    · by_cases hsame : s.last_ns = last
      · simp [hzero, hdt, hsame]
      · simp [hzero, hdt, hsame]

theorem next_eq {i : Nat} {call : Adding} (hi : s.calls[i]? = some call) :
    s.next i = { (s.advance call).2 with calls := (s.advance call).2.calls.set i (s.advance call).1 } := by
  rw [next, hi]

/-- Only the exchange touches `pending_`. -/
theorem advance_pending {call : Adding} (h : ∀ dt, call ≠ .won dt) :
    (s.advance call).2.pending = s.pending := by
  cases call with
  | added => rfl
  | clocked now => rfl
  | loaded now last =>
      rcases try_update_cases now last s with ⟨-, h2, -⟩ | ⟨-, h2, -⟩
      · rw [advance, h2]
      · rw [advance, h2]
  | won dt => exact absurd rfl (h dt)
  | returned cnt => rfl

/-- A step of one call leaves the others where they are. -/
theorem advance_calls (call : Adding) : (s.advance call).2.calls = s.calls := by
  cases call with
  | added => rfl
  | clocked now => rfl
  | loaded now last =>
      rcases try_update_cases now last s with ⟨-, h2, -⟩ | ⟨-, h2, -⟩
      · rw [advance, h2]
      · rw [advance, h2]
  | won dt => rfl
  | returned cnt => rfl

end ThroughputTracker

namespace Spec.Ledger

variable {l : Ledger}

/-! ## The amounts -/

theorem sum_concat (amounts : List UInt64) (ids : List Nat) (i : Nat) :
    sum amounts (ids ++ [i]) = sum amounts ids + amounts.getD i 0 := by
  rw [sum, List.foldl_append]
  rfl

/-- A call that is added changes no sum over the earlier ones. -/
theorem sum_amounts_concat {amounts : List UInt64} {ids : List Nat} (n : UInt64)
    (h : ∀ i ∈ ids, i < amounts.length) : sum (amounts ++ [n]) ids = sum amounts ids := by
  induction ids using List.reverseRecOn with
  | nil => rfl
  | append_singleton ids i ih =>
      have hi : i < amounts.length := h i (List.mem_append_right _ List.mem_cons_self)
      rw [sum_concat, sum_concat, ih fun j hj => h j (List.mem_append_left _ hj),
        List.getD_append _ _ _ _ hi]

theorem accounted_step (h : l.Accounted) (st : TrackerStep) : (l.step st).Accounted := by
  obtain ⟨hcalls, hplaces, hpending, hupdates⟩ := h
  have hin : ∀ i ∈ l.held ++ (l.taken.map Prod.snd).flatten, i < l.amounts.length := by
    intro i hi
    exact List.mem_range.mp (hplaces.mem_iff.mp hi)
  cases st with
  | tick ns => exact ⟨hcalls, hplaces, hpending, hupdates⟩
  | add n =>
      refine ⟨?_, ?_, ?_, ?_⟩
      · change (l.amounts ++ [n]).length = (l.tracker.calls ++ [Adding.added]).length
        rw [List.length_append, List.length_append, hcalls]
        rfl
      · change ((l.held ++ [l.amounts.length]) ++ (l.taken.map Prod.snd).flatten).Perm
          (List.range (l.amounts ++ [n]).length)
        rw [List.length_append, List.length_singleton, List.range_succ, List.append_assoc]
        exact (List.perm_append_comm.append_left _).trans
          ((List.append_assoc ..).symm ▸ hplaces.append_right _)
      · change l.tracker.pending + n = sum (l.amounts ++ [n]) (l.held ++ [l.amounts.length])
        have hlast : (l.amounts ++ [n]).getD l.amounts.length 0 = n := by
          simp [List.getD_eq_getElem?_getD]
        rw [sum_concat, hlast, hpending,
          sum_amounts_concat n fun i hi => hin i (List.mem_append_left _ hi)]
      · intro u hu
        have hids : ∀ i ∈ u.2, i < l.amounts.length := by
          intro i hi
          apply hin
          apply List.mem_append_right
          exact List.mem_flatten.mpr ⟨u.2, List.mem_map_of_mem hu, hi⟩
        exact (hupdates u hu).trans (sum_amounts_concat n hids).symm
  | next i =>
      cases hi : l.tracker.calls[i]? with
      | none =>
          simp only [step, hi, ThroughputTracker.step, ThroughputTracker.next]
          exact ⟨hcalls, hplaces, hpending, hupdates⟩
      | some call =>
          have hnext := ThroughputTracker.next_eq hi
          have hlen : (l.tracker.next i).calls.length = l.tracker.calls.length := by
            rw [hnext, List.length_set, ThroughputTracker.advance_calls]
          by_cases hwon : ∃ dt, call = .won dt
          · obtain ⟨dt, rfl⟩ := hwon
            simp only [step, hi, ThroughputTracker.step]
            refine ⟨hcalls.trans hlen.symm, ?_, ?_, ?_⟩
            · simp only [List.nil_append, List.map_append, List.map_cons, List.map_nil,
                List.flatten_append, List.flatten_cons, List.flatten_nil, List.append_nil]
              exact List.perm_append_comm.trans hplaces
            · rw [hnext]
              rfl
            · intro u hu
              rcases List.mem_append.mp hu with hu | hu
              · exact hupdates u hu
              · rw [List.mem_singleton.mp hu]
                exact hpending
          · have hsame : (l.tracker.next i).pending = l.tracker.pending := by
              rw [hnext]
              exact ThroughputTracker.advance_pending fun dt hdt => hwon ⟨dt, hdt⟩
            have hstep : l.step (.next i) = { l with
                tracker := l.tracker.next i
                overtaken := l.overtaken ++ (l.stored (.next i)).elim [] l.behind } := by
              simp only [step, hi]
              cases call with
              | won dt => exact absurd ⟨dt, rfl⟩ hwon
              | _ => rfl
            rw [hstep]
            exact ⟨hcalls.trans hlen.symm, hplaces, hsame.trans hpending, hupdates⟩

/-! ## The clock readings -/

/-- Every reading is of the past, a call that loaded loaded an earlier one, and
the overtaken calls are those with a reading before `last_ns_`. -/
structure Kept (l : Ledger) : Prop where
  last : l.tracker.last_ns ≤ l.tracker.clock
  read : ∀ (i : Nat) (now : UInt64), l.tracker.calls[i]? = some (.clocked now) →
    now ≤ l.tracker.clock ∧ (i ∈ l.overtaken ↔ now < l.tracker.last_ns)
  loaded : ∀ (i : Nat) (now last : UInt64), l.tracker.calls[i]? = some (.loaded now last) →
    last ≤ now ∧ now ≤ l.tracker.clock
  past : ∀ i ∈ l.overtaken, ∃ call, l.tracker.calls[i]? = some call ∧ call ≠ .added

theorem mem_behind {now : UInt64} {i : Nat} :
    i ∈ l.behind now ↔ ∃ read, l.tracker.calls[i]? = some (.clocked read) ∧ read < now := by
  rw [behind, List.mem_filter, List.mem_range]
  constructor
  · intro h
    obtain ⟨-, hany⟩ := h
    obtain ⟨call, hcall, hread⟩ := (Option.any_eq_true _ _).mp hany
    cases call with
    | clocked read => exact ⟨read, hcall, of_decide_eq_true hread⟩
    | added => cases hread
    | loaded now last => cases hread
    | won dt => cases hread
    | returned cnt => cases hread
  · intro h
    obtain ⟨read, hcall, hread⟩ := h
    refine ⟨(List.getElem?_eq_some_iff.mp hcall).1, ?_⟩
    rw [hcall]
    exact decide_eq_true hread

theorem unwrapped (h : l.Kept) : l.Unwrapped := by
  intro now last hin
  obtain ⟨i, hi⟩ := List.mem_iff_getElem?.mp hin
  exact (h.loaded i now last hi).1

theorem kept_tick (h : l.Kept) (ns : UInt64) : (l.step (.tick ns)).Kept := by
  have hclock : ∀ t : UInt64, t ≤ l.tracker.clock → t ≤ max l.tracker.clock ns := by
    intro t ht
    rw [show max l.tracker.clock ns = if l.tracker.clock ≤ ns then ns else l.tracker.clock by rfl]
    simp only [UInt64.le_iff_toNat_le] at ht ⊢
    split <;> omega
  have hnone : l.overtaken ++ (l.stored (.tick ns)).elim [] l.behind = l.overtaken :=
    List.append_nil _
  refine ⟨hclock _ h.last, ?_, ?_, ?_⟩
  · intro i now hi
    obtain ⟨hle, hiff⟩ := h.read i now hi
    refine ⟨hclock _ hle, ?_⟩
    change i ∈ l.overtaken ++ (l.stored (.tick ns)).elim [] l.behind ↔ _
    rw [hnone]
    exact hiff
  · intro i now last hi
    obtain ⟨hle, hnow⟩ := h.loaded i now last hi
    exact ⟨hle, hclock _ hnow⟩
  · intro i hi
    change i ∈ l.overtaken ++ (l.stored (.tick ns)).elim [] l.behind at hi
    rw [hnone] at hi
    exact h.past i hi

theorem kept_add (h : l.Kept) (n : UInt64) : (l.step (.add n)).Kept := by
  have hnone : l.overtaken ++ (l.stored (.add n)).elim [] l.behind = l.overtaken :=
    List.append_nil _
  have hcall : ∀ {i : Nat} {call : Adding}, call ≠ .added →
      (l.tracker.calls ++ [Adding.added])[i]? = some call → l.tracker.calls[i]? = some call := by
    intro i call hne hi
    rcases Slots.concat_iff.mp hi with hold | hnew
    · exact hold
    · exact absurd hnew.2.symm hne
  refine ⟨h.last, ?_, ?_, ?_⟩
  · intro i now hi
    obtain ⟨hle, hiff⟩ := h.read i now (hcall (by intro hc; cases hc) hi)
    refine ⟨hle, ?_⟩
    change i ∈ l.overtaken ++ (l.stored (.add n)).elim [] l.behind ↔ _
    rw [hnone]
    exact hiff
  · intro i now last hi
    exact h.loaded i now last (hcall (by intro hc; cases hc) hi)
  · intro i hi
    change i ∈ l.overtaken ++ (l.stored (.add n)).elim [] l.behind at hi
    rw [hnone] at hi
    obtain ⟨call, hcall', hne⟩ := h.past i hi
    exact ⟨call, Slots.concat_iff.mpr (.inl hcall'), hne⟩

theorem step_next (l : Ledger) (i : Nat) :
    (l.step (.next i)).tracker = l.tracker.next i ∧
      (l.step (.next i)).overtaken =
        l.overtaken ++ (l.stored (.next i)).elim [] l.behind := by
  simp only [step]
  split
  · exact ⟨rfl, rfl⟩
  · exact ⟨rfl, rfl⟩

/-- A step of call `i` that stores nothing. -/
theorem kept_quiet (h : l.Kept) {i : Nat} {call : Adding}
    (hi : l.tracker.calls[i]? = some call) (hnone : l.stored (.next i) = none)
    (hadvance : (l.tracker.advance call).2.last_ns = l.tracker.last_ns ∧
      (l.tracker.advance call).2.clock = l.tracker.clock)
    (hne : (l.tracker.advance call).1 ≠ .added)
    (hread : ∀ now, (l.tracker.advance call).1 = .clocked now →
      now ≤ l.tracker.clock ∧ (i ∈ l.overtaken ↔ now < l.tracker.last_ns))
    (hloaded : ∀ now last, (l.tracker.advance call).1 = .loaded now last →
      last ≤ now ∧ now ≤ l.tracker.clock) :
    (l.step (.next i)).Kept ∧ l.tracker.last_ns ≤ (l.step (.next i)).tracker.last_ns := by
  obtain ⟨htracker, hover⟩ := step_next l i
  rw [ThroughputTracker.next_eq hi, ThroughputTracker.advance_calls] at htracker
  rw [hnone, Option.elim_none, List.append_nil] at hover
  obtain ⟨hlast, hclock⟩ := hadvance
  refine ⟨⟨?_, ?_, ?_, ?_⟩, ?_⟩
  · rw [htracker]
    simp only [hlast, hclock]
    exact h.last
  · intro j now hj
    rw [htracker] at hj ⊢
    simp only [hlast, hclock, hover]
    rcases (Slots.set_iff hi).mp hj with ⟨rfl, hnow⟩ | ⟨-, hold⟩
    · exact hread now hnow
    · exact h.read j now hold
  · intro j now last hj
    rw [htracker] at hj ⊢
    simp only [hclock]
    rcases (Slots.set_iff hi).mp hj with ⟨rfl, hnow⟩ | ⟨-, hold⟩
    · exact hloaded now last hnow
    · exact h.loaded j now last hold
  · intro j hj
    rw [hover] at hj
    obtain ⟨c, hc, hcne⟩ := h.past j hj
    rw [htracker]
    by_cases hji : j = i
    · exact ⟨_, (Slots.set_iff hi).mpr (.inl ⟨hji, rfl⟩), hne⟩
    · exact ⟨c, (Slots.set_iff hi).mpr (.inr ⟨hji, hc⟩), hcne⟩
  · rw [htracker]
    simp only [hlast]
    exact UInt64.le_refl _

/-- A compare-exchange that succeeds. -/
theorem kept_store (h : l.Kept) {i : Nat} {now last : UInt64} {call' : Adding}
    (hi : l.tracker.calls[i]? = some (.loaded now last)) {l' : Ledger}
    (htracker : l'.tracker.last_ns = now ∧ l'.tracker.clock = l.tracker.clock ∧
      l'.tracker.calls = l.tracker.calls.set i call')
    (hover : l'.overtaken = l.overtaken ++ l.behind now)
    (hsame : l.tracker.last_ns = last)
    (hcall : call' = .returned none ∨ ∃ dt, call' = .won dt) : l'.Kept := by
  obtain ⟨hlast, hclock, hcalls⟩ := htracker
  obtain ⟨hle, hnow⟩ := h.loaded i now last hi
  refine ⟨?_, ?_, ?_, ?_⟩
  · rw [hlast, hclock]
    exact hnow
  · intro j read hj
    rw [hcalls] at hj
    rcases (Slots.set_iff hi).mp hj with ⟨-, hnew⟩ | ⟨-, hold⟩
    · rcases hcall with rfl | ⟨dt, rfl⟩ <;> cases hnew
    · obtain ⟨hread, hiff⟩ := h.read j read hold
      rw [hclock, hlast, hover, List.mem_append, mem_behind, hiff]
      refine ⟨hread, ?_⟩
      -- a reading before the old value is before the new one
      constructor
      · intro hor
        rcases hor with hless | ⟨r, hr, hless⟩
        · rw [hsame] at hless
          simp only [UInt64.lt_iff_toNat_lt, UInt64.le_iff_toNat_le] at hless hle ⊢
          omega
        · rw [hold, Option.some.injEq, Adding.clocked.injEq] at hr
          rwa [hr]
      · intro hless
        exact .inr ⟨read, hold, hless⟩
  · intro j now' last' hj
    rw [hcalls] at hj
    rw [hclock]
    rcases (Slots.set_iff hi).mp hj with ⟨-, hnew⟩ | ⟨-, hold⟩
    · rcases hcall with rfl | ⟨dt, rfl⟩ <;> cases hnew
    · exact h.loaded j now' last' hold
  · intro j hj
    have hne : call' ≠ .added := by
      rcases hcall with rfl | ⟨dt, rfl⟩ <;> intro hc <;> cases hc
    have hread : ∃ c, l.tracker.calls[j]? = some c ∧ c ≠ .added := by
      rw [hover] at hj
      rcases List.mem_append.mp hj with hj | hj
      · exact h.past j hj
      · obtain ⟨read, hread, -⟩ := mem_behind.mp hj
        exact ⟨_, hread, by intro hc; cases hc⟩
    obtain ⟨c, hc, hcne⟩ := hread
    rw [hcalls]
    by_cases hji : j = i
    · exact ⟨call', (Slots.set_iff hi).mpr (.inl ⟨hji, rfl⟩), hne⟩
    · exact ⟨c, (Slots.set_iff hi).mpr (.inr ⟨hji, hc⟩), hcne⟩

/-- A call's step in time keeps the readings in order and moves the time up. -/
theorem kept_next (h : l.Kept) {i : Nat} (hok : l.InTime (.next i)) :
    (l.step (.next i)).Kept ∧ l.tracker.last_ns ≤ (l.step (.next i)).tracker.last_ns := by
  obtain ⟨htracker, hover⟩ := step_next l i
  cases hi : l.tracker.calls[i]? with
  | none =>
      have hself : l.tracker.next i = l.tracker := by rw [ThroughputTracker.next, hi]
      have hnone : l.stored (.next i) = none := by simp only [stored, hi]
      rw [hnone, Option.elim_none, List.append_nil] at hover
      rw [hself] at htracker
      refine ⟨⟨?_, ?_, ?_, ?_⟩, by rw [htracker]; exact UInt64.le_refl _⟩
      · rw [htracker]
        exact h.last
      · rw [htracker, hover]
        exact h.read
      · rw [htracker]
        exact h.loaded
      · rw [htracker, hover]
        exact h.past
  | some call =>
      cases call with
      | added =>
          apply kept_quiet h hi (by simp only [stored, hi]) ⟨rfl, rfl⟩
          · intro hc
            cases hc
          · intro now hnow
            cases hnow
            -- a call that has not read the clock yet is not overtaken
            refine ⟨UInt64.le_refl _, iff_of_false ?_ (UInt64.not_lt.mpr h.last)⟩
            intro hin
            obtain ⟨c, hc, hne⟩ := h.past i hin
            rw [hi, Option.some.injEq] at hc
            exact hne hc.symm
          · intro now last hc
            cases hc
      | clocked now =>
          obtain ⟨hnow, hiff⟩ := h.read i now hi
          apply kept_quiet h hi (by simp only [stored, hi]) ⟨rfl, rfl⟩
          · intro hc
            cases hc
          · intro now hc
            cases hc
          · intro now' last hc
            cases hc
            exact ⟨UInt64.not_lt.mp fun hless => hok now hi (hiff.mpr hless), hnow⟩
      | loaded now last =>
          rcases ThroughputTracker.try_update_cases now last l.tracker with
            ⟨hstore, hafter, hcall⟩ | ⟨hstore, hafter, hcall⟩
          · have hsome : l.stored (.next i) = some now := by
              simp only [stored, hi, if_pos hstore]
            rw [ThroughputTracker.next_eq hi, ThroughputTracker.advance_calls,
              ThroughputTracker.advance, hafter] at htracker
            rw [hsome, Option.elim_some] at hover
            apply And.intro
            · exact kept_store h hi (by rw [htracker]; exact ⟨rfl, rfl, rfl⟩) hover hstore.1 hcall
            · rw [htracker, hstore.1]
              exact (h.loaded i now last hi).1
          · apply kept_quiet h hi (by simp only [stored, hi, if_neg hstore])
            · rw [ThroughputTracker.advance, hafter]
              exact ⟨rfl, rfl⟩
            · intro hc
              rw [ThroughputTracker.advance, hcall] at hc
              cases hc
            · intro now hc
              rw [ThroughputTracker.advance, hcall] at hc
              cases hc
            · intro now last hc
              rw [ThroughputTracker.advance, hcall] at hc
              cases hc
      | won dt =>
          apply kept_quiet h hi (by simp only [stored, hi]) ⟨rfl, rfl⟩
          · intro hc
            cases hc
          · intro now hc
            cases hc
          · intro now last hc
            cases hc
      | returned cnt =>
          apply kept_quiet h hi (by simp only [stored, hi]) ⟨rfl, rfl⟩
          · intro hc
            cases hc
          · intro now hc
            cases hc
          · intro now last hc
            cases hc

theorem kept_step (h : l.Kept) (st : TrackerStep) (hok : l.InTime st) :
    (l.step st).Kept ∧ l.tracker.last_ns ≤ (l.step st).tracker.last_ns := by
  cases st with
  | tick ns => exact ⟨kept_tick h ns, UInt64.le_refl _⟩
  | add n => exact ⟨kept_add h n, UInt64.le_refl _⟩
  | next i => exact kept_next h hok

/-- A step goes forward exactly if it does not load behind an overtaking store:
the difference of a call that was overtaken wraps. -/
theorem forward_iff (h : l.Kept) (ha : l.Accounted) (st : TrackerStep) :
    l.InTime st ↔ l.Forward st := by
  constructor
  · intro hok
    obtain ⟨hkept, hup⟩ := kept_step h st hok
    exact ⟨unwrapped hkept, hup, accounted_step ha st⟩
  · intro hforward
    cases st with
    | tick ns => exact trivial
    | add n => exact trivial
    | next i =>
        intro now hi hin
        have hless := (h.read i now hi).2.mp hin
        have hload : (l.step (.next i)).tracker.calls[i]? =
            some (.loaded now l.tracker.last_ns) := by
          rw [(step_next l i).1, ThroughputTracker.next_eq hi]
          exact (Slots.set_iff hi).mpr (.inl ⟨rfl, rfl⟩)
        have hle := hforward.1 now l.tracker.last_ns (List.mem_of_getElem? hload)
        exact UInt64.not_lt.mpr hle hless

end Spec.Ledger

open Spec Ledger

/-- In any interleaving, as long as no call loads `last_ns_` after another one
stored a later reading than its own behind that reading, no difference wraps,
`last_ns_` never decreases, and the amounts are in one place each; and only so
long. -/
theorem tracker_forward_iff (steps : List TrackerStep) :
    Run.Along Ledger.step InTime {} steps ↔ Run.Along Ledger.step Forward {} steps := by
  have hkept : Kept {} := by
    refine ⟨UInt64.le_refl _, ?_, ?_, ?_⟩
    · intro i now hi
      cases hi
    · intro i now last hi
      cases hi
    · intro i hi
      cases hi
  have haccounted : Accounted {} := by
    refine ⟨rfl, List.Perm.refl _, rfl, ?_⟩
    intro u hu
    cases hu
  refine Run.along_iff (R := fun l m => l = m ∧ l.Kept ∧ l.Accounted) ?_ ?_
    ⟨rfl, hkept, haccounted⟩
  · rintro l _ st ⟨rfl, h, ha⟩
    exact forward_iff h ha st
  · rintro l _ st ⟨rfl, h, ha⟩ hok
    exact ⟨rfl, (kept_step h st hok).1, accounted_step ha st⟩

/-- The second call reads the clock at 1.2 s, the third one stores 1.4 s before
the second loads: its difference wraps and it moves the time back. -/
def overtaking : List TrackerStep :=
  [.add 1, .tick 1000000000, .next 0, .next 0, .next 0,
    .add 1, .tick 1200000000, .next 1,
    .add 1, .tick 1400000000, .next 2, .next 2, .next 2,
    .next 1, .next 1]

theorem tracker_turns_back : ¬ Run.Along Ledger.step Forward {} overtaking ∧
    (overtaking.dropLast.foldl Ledger.step {}).tracker.last_ns = 1400000000 ∧
    (overtaking.foldl Ledger.step {}).tracker.last_ns = 1200000000 := by
  have hback : (overtaking.dropLast.foldl Ledger.step {}).tracker.last_ns = 1400000000 ∧
      (overtaking.foldl Ledger.step {}).tracker.last_ns = 1200000000 := by decide +kernel
  refine ⟨?_, hback⟩
  intro h
  have hsplit : overtaking = overtaking.dropLast ++ [.next 1] := by decide
  rw [hsplit] at h
  have hlast := (Run.along_append.mp h).2.1.2.1
  revert hlast
  decide +kernel

end Kronos
