import Mathlib.Data.List.Basic
import Mathlib.Tactic.Common

/-!
# Self-delimiting records in a byte stream

A log file is records laid end to end with nothing between them. What makes it
readable is that each record says how long it is, and what makes it safe to
tear is a locality law: whether a record is there, and what it says, depends
on nothing behind it.

`Format` carries that law as a field, so a reader built on one inherits the
whole theory: a stream that is read clean to its end can be continued without
disturbing what was read (`scan_append`), cutting a stream where reading
stopped changes nothing (`scan_take_clean`), and no proper prefix of a record
is mistaken for a record (`parse_prefix`).
-/

namespace Framing

/-- How to take one record off the front of a stream: the record and the
number of elements it occupies. `local_` is the law that makes a torn tail
harmless. -/
structure Format (β α : Type*) where
  parse : List β → Option (α × Nat)
  pos : ∀ {l x n}, parse l = some (x, n) → 0 < n
  le_length : ∀ {l x n}, parse l = some (x, n) → n ≤ l.length
  local_ : ∀ {l x n}, parse l = some (x, n) → ∀ r, parse (l.take n ++ r) = some (x, n)

namespace Format

variable {β α : Type*} (f : Format β α)

/-- What lies in front of the first thing that is not a record, each record
with the offset it starts at. -/
def scan (off : Nat) (l : List β) : List (Nat × α) :=
  match _h : f.parse l with
  | none => []
  | some (x, n) => (off, x) :: scan (off + n) (l.drop n)
termination_by l.length
decreasing_by
  have := f.pos _h
  have := f.le_length _h
  simp only [List.length_drop]
  omega

/-- How far `scan` gets. -/
def clean (l : List β) : Nat :=
  match _h : f.parse l with
  | none => 0
  | some (_, n) => n + clean (l.drop n)
termination_by l.length
decreasing_by
  have := f.pos _h
  have := f.le_length _h
  simp only [List.length_drop]
  omega

variable {f}

theorem scan_none {off : Nat} {l : List β} (h : f.parse l = none) : f.scan off l = [] := by
  rw [scan]
  split
  · rfl
  · next h' => rw [h] at h'; cases h'

theorem scan_some {off n : Nat} {l : List β} {x : α} (h : f.parse l = some (x, n)) :
    f.scan off l = (off, x) :: f.scan (off + n) (l.drop n) := by
  rw [scan]
  split
  · next h' => rw [h] at h'; cases h'
  · next h' => rw [h] at h'; cases h'; rfl

theorem clean_none {l : List β} (h : f.parse l = none) : f.clean l = 0 := by
  rw [clean]
  split
  · rfl
  · next h' => rw [h] at h'; cases h'

theorem clean_some {n : Nat} {l : List β} {x : α} (h : f.parse l = some (x, n)) :
    f.clean l = n + f.clean (l.drop n) := by
  rw [clean]
  split
  · next h' => rw [h] at h'; cases h'
  · next h' => rw [h] at h'; cases h'; rfl

/-- Induction along a scan: stop where nothing parses, or step over a record. -/
theorem scan_induction {P : List β → Prop} (stop : ∀ l, f.parse l = none → P l)
    (step : ∀ l x n, f.parse l = some (x, n) → P (l.drop n) → P l) (l : List β) : P l := by
  induction hk : l.length using Nat.strongRecOn generalizing l with
  | ind k ih =>
      cases h : f.parse l with
      | none => exact stop l h
      | some r =>
          have hpos := f.pos h
          have hle := f.le_length h
          exact step l r.1 r.2 h (ih _ (by rw [List.length_drop]; omega) _ rfl)

theorem clean_le_length (l : List β) : f.clean l ≤ l.length := by
  induction l using scan_induction (f := f) with
  | stop l h => rw [clean_none h]; exact Nat.zero_le _
  | step l x n h ih =>
      have hle := f.le_length h
      rw [clean_some h]
      rw [List.length_drop] at ih
      omega

theorem parse_append {l r : List β} {x : α} {n : Nat} (h : f.parse l = some (x, n)) :
    f.parse (l ++ r) = some (x, n) := by
  have hl := f.local_ h (l.drop n ++ r)
  rwa [← List.append_assoc, List.take_append_drop] at hl

/-- A stream read clean to its end is not disturbed by what follows it. -/
theorem scan_append {a : List β} (b : List β) (off : Nat) (h : f.clean a = a.length) :
    f.scan off (a ++ b) = f.scan off a ++ f.scan (off + a.length) b := by
  induction a using scan_induction (f := f) generalizing off with
  | stop a hp =>
      rw [clean_none hp] at h
      rw [List.eq_nil_of_length_eq_zero h.symm, List.nil_append, scan_none (f := f) (l := [])]
      · rfl
      · rw [List.eq_nil_of_length_eq_zero h.symm] at hp; exact hp
  | step a x n hp ih =>
      have hle := f.le_length hp
      rw [clean_some hp] at h
      have hrest : f.clean (a.drop n) = (a.drop n).length := by
        rw [List.length_drop]; omega
      rw [scan_some (parse_append hp), scan_some hp, List.drop_append_of_le_length hle,
        ih (off + n) hrest, List.length_drop, List.cons_append]
      rw [show off + n + (a.length - n) = off + a.length by omega]

/-- Where a stream starts does not matter to what its records say. -/
theorem scan_map_snd (l : List β) (off off' : Nat) :
    (f.scan off l).map Prod.snd = (f.scan off' l).map Prod.snd := by
  induction l using scan_induction (f := f) generalizing off off' with
  | stop l h => rw [scan_none h, scan_none h]
  | step l x n h ih => rw [scan_some h, scan_some h, List.map_cons, List.map_cons, ih _ (off' + n)]

theorem clean_append {a : List β} (b : List β) (h : f.clean a = a.length) :
    f.clean (a ++ b) = a.length + f.clean b := by
  induction a using scan_induction (f := f) with
  | stop a hp =>
      rw [clean_none hp] at h
      rw [List.eq_nil_of_length_eq_zero h.symm]
      simp
  | step a x n hp ih =>
      have hle := f.le_length hp
      rw [clean_some hp] at h
      have hrest : f.clean (a.drop n) = (a.drop n).length := by
        rw [List.length_drop]; omega
      rw [clean_some (parse_append hp), List.drop_append_of_le_length hle, ih hrest,
        List.length_drop]
      omega

/-- Cutting a stream where reading stopped loses nothing. -/
theorem scan_take_clean (l : List β) (off : Nat) :
    f.scan off (l.take (f.clean l)) = f.scan off l ∧
      f.clean (l.take (f.clean l)) = f.clean l := by
  induction l using scan_induction (f := f) generalizing off with
  | stop l h =>
      rw [clean_none h, List.take_zero]
      cases hn : f.parse ([] : List β) with
      | none => exact ⟨by rw [scan_none hn, scan_none h], clean_none hn⟩
      | some r =>
          have hpos := f.pos hn
          have hle := f.le_length hn
          simp only [List.length_nil] at hle
          omega
  | step l x n h ih =>
      have hle := f.le_length h
      have htake : l.take (f.clean l) = l.take n ++ (l.drop n).take (f.clean (l.drop n)) := by
        rw [clean_some h, List.take_add]
      have hp : f.parse (l.take (f.clean l)) = some (x, n) := by
        rw [htake]; exact f.local_ h _
      have hdrop : (l.take (f.clean l)).drop n = (l.drop n).take (f.clean (l.drop n)) := by
        rw [htake, List.drop_append_of_le_length (by rw [List.length_take]; omega)]
        simp
      have hrest := ih (off + n)
      rw [scan_some hp, clean_some hp, hdrop, hrest.1, hrest.2, scan_some h, clean_some h]
      exact ⟨rfl, rfl⟩

/-! ## Streams of whole records -/

/-- A whole record at the front is read and stepped over. -/
theorem scan_record {e l : List β} {x : α} (h : f.parse e = some (x, e.length)) (off : Nat) :
    f.scan off (e ++ l) = (off, x) :: f.scan (off + e.length) l := by
  rw [scan_some (parse_append h), List.drop_left]

theorem clean_record {e l : List β} {x : α} (h : f.parse e = some (x, e.length)) :
    f.clean (e ++ l) = e.length + f.clean l := by
  rw [clean_some (parse_append h), List.drop_left]

/-- A torn record is not a record. -/
theorem parse_prefix {e p : List β} {x : α} (h : f.parse e = some (x, e.length))
    (hp : p <+: e) (hlt : p.length < e.length) : f.parse p = none := by
  obtain ⟨r, rfl⟩ := hp
  cases hq : f.parse p with
  | none => rfl
  | some y =>
      have hle := f.le_length hq
      rw [parse_append hq] at h
      have heq : y.2 = (p ++ r).length := congrArg Prod.snd (Option.some.inj h)
      omega

variable {γ : Type*}

/-- Where records laid end to end start. -/
def placed (enc : γ → List β) (g : γ → α) : Nat → List γ → List (Nat × α)
  | _, [] => []
  | off, c :: cs => (off, g c) :: placed enc g (off + (enc c).length) cs

variable {enc : γ → List β} {g : γ → α}

/-- Records of one size start at its multiples. -/
theorem placed_eq_zipIdx {k : Nat} (hk : ∀ c, (enc c).length = k) :
    ∀ (cs : List γ) (i : Nat),
      placed enc g (k * i) cs = (cs.zipIdx i).map fun p => (k * p.2, g p.1) := by
  intro cs
  induction cs with
  | nil => intro i; rfl
  | cons c cs ih =>
      intro i
      rw [placed, hk, ← Nat.mul_succ, ih]
      rfl

/-- A file of whole records, torn or not behind the last one, reads back as
those records. -/
theorem scan_records {tail : List β} (htail : f.parse tail = none) {cs : List γ}
    (henc : ∀ c ∈ cs, f.parse (enc c) = some (g c, (enc c).length)) (off : Nat) :
    f.scan off (cs.flatMap enc ++ tail) = placed enc g off cs ∧
      f.clean (cs.flatMap enc ++ tail) = (cs.flatMap enc).length := by
  induction cs generalizing off with
  | nil => simp [scan_none htail, clean_none htail, placed]
  | cons c cs ih =>
      have hc := henc c List.mem_cons_self
      have hrest := ih (fun c' hc' => henc c' (List.mem_cons_of_mem _ hc')) (off + (enc c).length)
      rw [List.flatMap_cons, List.append_assoc, scan_record hc, clean_record hc,
        hrest.1, hrest.2, List.length_append]
      exact ⟨rfl, rfl⟩

theorem placed_map_snd (off : Nat) (cs : List γ) :
    (placed enc g off cs).map Prod.snd = cs.map g := by
  induction cs generalizing off with
  | nil => rfl
  | cons c cs ih => rw [placed, List.map_cons, ih, List.map_cons]

/-- Of records laid end to end, a cut leaves some whole and part of the next. -/
theorem take_records {cs : List γ}
    (henc : ∀ c ∈ cs, f.parse (enc c) = some (g c, (enc c).length))
    (hnil : f.parse ([] : List β) = none) (k : Nat) :
    ∃ (j : Nat) (tail : List β), (cs.flatMap enc).take k = (cs.take j).flatMap enc ++ tail ∧
      f.parse tail = none ∧ ∀ i, ((cs.take i).flatMap enc).length ≤ k → cs.take i <+: cs.take j := by
  induction cs generalizing k with
  | nil => exact ⟨0, [], by simp, hnil, fun i _ => by simp⟩
  | cons c cs ih =>
      have hc := henc c List.mem_cons_self
      by_cases hk : (enc c).length ≤ k
      · obtain ⟨j, tail, htake, htail, hmax⟩ :=
          ih (fun c' hc' => henc c' (List.mem_cons_of_mem _ hc')) (k - (enc c).length)
        refine ⟨j + 1, tail, ?_, htail, fun i hi => ?_⟩
        · rw [List.flatMap_cons, List.take_append, List.take_of_length_le hk, htake,
            List.take_succ_cons, List.flatMap_cons, List.append_assoc]
        · cases i with
          | zero => exact List.nil_prefix
          | succ i =>
              rw [List.take_succ_cons, List.flatMap_cons, List.length_append] at hi
              rw [List.take_succ_cons, List.take_succ_cons]
              exact List.cons_prefix_cons.mpr ⟨rfl, hmax i (by omega)⟩
      · refine ⟨0, (enc c).take k, ?_, ?_, fun i hi => ?_⟩
        · rw [List.flatMap_cons, List.take_append_of_le_length (by omega), List.take_zero]
          rfl
        · exact parse_prefix hc (List.take_prefix _ _) (by rw [List.length_take]; omega)
        · cases i with
          | zero => exact List.nil_prefix
          | succ i =>
              rw [List.take_succ_cons, List.flatMap_cons, List.length_append] at hi
              omega

end Format

end Framing
