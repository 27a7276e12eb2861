import Kronos.Spec.Percentile
import Mathlib.Data.List.Induction
import Mathlib.Order.Monotone.Basic
import Mathlib.Tactic.Linarith

/-!
# Which bucket a percentile reports

The running sum over the buckets counts the samples below each upper edge, and
the loop stops at the first edge with as many as the rank asks for. The rank is
`p` times the number of samples without its fraction, so it asks for one too
few whenever there is a fraction. That shows where an edge has exactly so many
samples below it: the bucket under this edge is reported and covers less than
`p`.
-/

namespace Kronos

open Spec

namespace LatencyHistogram

/-! ## Buckets -/

theorem bucket_for_le {us : UInt64} (h : us.toNat < 2 ^ 63) (k : Nat) :
    bucket_for us ≤ k ↔ us.toNat < 2 ^ k := by
  rw [bucket_for]
  split
  · next hzero => simp [hzero]
  · next hne =>
      have hnat : us.toNat ≠ 0 := by
        intro hz
        exact hne (UInt64.toNat_inj.mp hz)
      have hlog := (Nat.log2_lt hnat).mpr h
      have hk := Nat.log2_lt (k := k) hnat
      have hb : kBuckets - 1 = 63 := rfl
      rw [hb, Nat.min_eq_left (by omega), ← hk, Nat.succ_le_iff]

theorem bucket_for_lt (us : UInt64) : bucket_for us < kBuckets := by
  rw [bucket_for]
  split
  · decide
  · exact Nat.lt_of_le_of_lt (Nat.min_le_right ..) (by decide)

theorem bucket_for_bounds {us : UInt64} (h : us.toNat < 2 ^ 63) (hb : 1 ≤ bucket_for us) :
    2 ^ (bucket_for us - 1) ≤ us.toNat ∧ us.toNat < 2 ^ bucket_for us := by
  have hbelow := bucket_for_le h (bucket_for us - 1)
  apply And.intro
  · omega
  · exact (bucket_for_le h _).mp (Nat.le_refl _)

theorem sum_take_modify (l : List Nat) {i : Nat} (hi : i < l.length) (k : Nat) :
    ((l.modify i (· + 1)).take (k + 1)).sum =
      (l.take (k + 1)).sum + if i ≤ k then 1 else 0 := by
  induction l generalizing i k with
  | nil => simp at hi
  | cons a l ih =>
      cases i with
      | zero =>
          simp only [List.modify_zero_cons, List.take_succ_cons, List.sum_cons, Nat.zero_le, if_true]
          omega
      | succ i =>
          simp only [List.modify_succ_cons, List.take_succ_cons, List.sum_cons]
          cases k with
          | zero => simp
          | succ k =>
              rw [ih (Nat.lt_of_succ_lt_succ hi)]
              simp only [Nat.add_le_add_iff_right]
              omega

/-- The running sum counts the samples below an edge. -/
theorem foldl_record (samples : List UInt64) {h : LatencyHistogram}
    (hlen : h.buckets.length = kBuckets) (hfit : ∀ us ∈ samples, us.toNat < 2 ^ 63) :
    (samples.foldl record h).buckets.length = kBuckets ∧
      (samples.foldl record h).total = h.total + samples.length ∧
      ∀ k, ((samples.foldl record h).buckets.take (k + 1)).sum =
        (h.buckets.take (k + 1)).sum + below samples k := by
  induction samples generalizing h with
  | nil => exact ⟨hlen, rfl, fun k => rfl⟩
  | cons us samples ih =>
      have hus := hfit us List.mem_cons_self
      have hlen' : (h.record us).buckets.length = kBuckets := by
        rw [record, List.length_modify, hlen]
      obtain ⟨hlength, htotal, hsum⟩ :=
        ih hlen' fun u hu => hfit u (List.mem_cons_of_mem _ hu)
      refine ⟨hlength, ?_, fun k => ?_⟩
      · have hone : (h.record us).total = h.total + 1 := rfl
        rw [List.foldl_cons, htotal, hone, List.length_cons]
        omega
      · have hin : bucket_for us < h.buckets.length := hlen ▸ bucket_for_lt us
        have hcount : below (us :: samples) k =
            below samples k + if bucket_for us ≤ k then 1 else 0 := by
          simp only [below, List.countP_cons, decide_eq_true_eq, bucket_for_le hus]
        rw [List.foldl_cons, hsum, hcount, record, sum_take_modify _ hin]
        omega

theorem below_mono (samples : List UInt64) : Monotone (below samples) := by
  intro i j hij
  apply List.countP_mono_left
  intro us _ hus
  rw [decide_eq_true_eq] at hus ⊢
  exact Nat.lt_of_lt_of_le hus (Nat.pow_le_pow_right (by decide) hij)

theorem below_last {samples : List UInt64} (hfit : ∀ us ∈ samples, us.toNat < 2 ^ 63) :
    below samples 63 = samples.length := by
  apply List.countP_eq_length.mpr
  intro us hus
  exact decide_eq_true (hfit us hus)

theorem midpoint_strictMono : StrictMono midpoint := by
  apply strictMono_nat_of_lt_succ
  intro i
  cases i with
  | zero =>
      simp only [midpoint]
      norm_num
  | succ i =>
      have hpos : 0 < 2 ^ i := Nat.pow_pos (by decide)
      simp only [midpoint, Nat.succ_ne_zero, if_false, Nat.add_sub_cancel, Nat.cast_lt]
      rw [Nat.pow_succ 2 (i + 1), Nat.pow_succ 2 i]
      omega

/-! ## The loop -/

theorem walk_spec {target : Nat} {bs : List Nat} (hne : bs ≠ []) (i c : Nat)
    (h : target ≤ c + bs.sum) :
    ∃ k < bs.length, walk target i c bs = midpoint (i + k) ∧
      target ≤ c + (bs.take (k + 1)).sum ∧ ∀ j < k, c + (bs.take (j + 1)).sum < target := by
  induction bs generalizing i c with
  | nil => exact absurd rfl hne
  | cons b bs ih =>
      rw [List.sum_cons, ← Nat.add_assoc] at h
      simp only [walk]
      split
      · next hstop =>
          refine ⟨0, by simp, rfl, ?_, fun j hj => absurd hj (Nat.not_lt_zero j)⟩
          simpa using hstop
      · next hgo =>
          have hbs : bs ≠ [] := by
            intro hnil
            rw [hnil, List.sum_nil] at h
            exact hgo h
          obtain ⟨k, hk, hwalk, hreach, hbefore⟩ := ih hbs (i + 1) (c + b) h
          refine ⟨k + 1, Nat.succ_lt_succ hk, ?_, ?_, ?_⟩
          · rw [hwalk, Nat.add_assoc, Nat.add_comm 1]
          · rwa [List.take_succ_cons, List.sum_cons, ← Nat.add_assoc]
          · intro j hj
            cases j with
            | zero => simpa using hgo
            | succ j =>
                have := hbefore j (Nat.lt_of_succ_lt_succ hj)
                rwa [List.take_succ_cons, List.sum_cons, ← Nat.add_assoc]

/-- The rank that `percentile` looks for. -/
def rank (p : ℚ) (n : Nat) : Nat := if ⌊p * n⌋₊ = 0 then 1 else ⌊p * n⌋₊

theorem rank_mono {p q : ℚ} (h : p ≤ q) (n : Nat) : rank p n ≤ rank q n := by
  have hfloor : ⌊p * n⌋₊ ≤ ⌊q * n⌋₊ :=
    Nat.floor_mono (mul_le_mul_of_nonneg_right h (Nat.cast_nonneg n))
  rw [rank, rank]
  split <;> split <;> omega

theorem rank_le {p : ℚ} (hp : p ≤ 1) {n : Nat} (hn : n ≠ 0) : rank p n ≤ n := by
  have hfloor : ⌊p * n⌋₊ ≤ n :=
    Nat.floor_le_of_le (mul_le_of_le_one_left (Nat.cast_nonneg n) hp)
  rw [rank]
  split <;> omega

section
variable {samples : List UInt64} (hne : samples ≠ [])
  (hfit : ∀ us ∈ samples, us.toNat < 2 ^ 63)
include hne hfit

/-- The bucket that is reported is the first with the rank below its edge. -/
theorem percentile_spec {p : ℚ} (hp : 0 < p) :
    ∃ i < kBuckets, percentile p (recorded samples) = midpoint i ∧
      rank (min p 1) samples.length ≤ below samples i ∧
      ∀ j < i, below samples j < rank (min p 1) samples.length := by
  have hlen : LatencyHistogram.empty.buckets.length = kBuckets := List.length_replicate
  obtain ⟨hlength, htotal, hsum⟩ := foldl_record samples hlen hfit
  have hzero : ∀ k, (LatencyHistogram.empty.buckets.take (k + 1)).sum = 0 := by
    intro k
    rw [empty, List.take_replicate, List.sum_replicate]
    rfl
  simp only [hzero, Nat.zero_add] at hsum
  rw [show LatencyHistogram.empty.total = 0 by rfl, Nat.zero_add] at htotal
  have hn : samples.length ≠ 0 := fun h => hne (List.length_eq_zero_iff.mp h)
  have hclamp : (if 1 ≤ p then 1 else p) = min p 1 := by
    rcases le_total 1 p with h | h
    · rw [if_pos h, min_eq_right h]
    · rw [min_eq_left h]
      split
      · next h' => exact le_antisymm h' h
      · rfl
  have hall : (recorded samples).buckets.sum = samples.length := by
    have hlast := hsum 63
    rw [List.take_of_length_le (by rw [hlength]; decide), below_last hfit] at hlast
    exact hlast
  have hbuckets : (recorded samples).buckets ≠ [] := by
    intro hnil
    rw [recorded] at hnil
    rw [hnil] at hlength
    cases hlength
  have henough : rank (min p 1) samples.length ≤ 0 + (recorded samples).buckets.sum := by
    rw [hall, Nat.zero_add]
    exact rank_le (min_le_right p 1) hn
  obtain ⟨i, hi, hvalue, hreach, hbefore⟩ := walk_spec hbuckets 0 0 henough
  have hcount : ∀ k, 0 + ((recorded samples).buckets.take (k + 1)).sum = below samples k := by
    intro k
    rw [Nat.zero_add]
    exact hsum k
  rw [hcount] at hreach
  refine ⟨i, hlength ▸ hi, ?_, hreach, fun j hj => hcount j ▸ hbefore j hj⟩
  rw [percentile, if_neg (not_le.mpr hp), hclamp]
  have htot : (recorded samples).total = samples.length := htotal
  simp only [htot, if_neg hn]
  rw [Nat.zero_add] at hvalue
  exact hvalue

theorem percentile_mono {p q : ℚ} (h : p ≤ q) :
    percentile p (recorded samples) ≤ percentile q (recorded samples) := by
  rcases le_or_gt p 0 with hp | hp
  · rw [percentile, if_pos hp]
    rcases le_or_gt q 0 with hq | hq
    · rw [percentile, if_pos hq]
    · obtain ⟨i, -, hvalue, -, -⟩ := percentile_spec hne hfit hq
      have hhalf : (1 / 2 : ℚ) ≤ midpoint i := midpoint_strictMono.monotone (Nat.zero_le i)
      rw [hvalue]
      linarith
  · obtain ⟨i, -, hvalue, -, hbefore⟩ := percentile_spec hne hfit hp
    obtain ⟨j, -, hvalue', hreach, -⟩ := percentile_spec hne hfit (hp.trans_le h)
    have hrank := rank_mono (min_le_min_right 1 h) samples.length
    rw [hvalue, hvalue']
    apply midpoint_strictMono.monotone
    by_contra hlt
    have := hbefore j (by omega)
    omega

/-- No lower bucket covers the fraction, and the one that is reported does
exactly if the rank lost nothing that counts. -/
theorem percentile_bucket {p : ℚ} (hp : 0 < p) (hp1 : p ≤ 1) :
    ∃ i < kBuckets, percentile p (recorded samples) = midpoint i ∧
      (∀ j < i, below samples j < p * samples.length) ∧
      (p * samples.length ≤ below samples i ↔ RankKept samples p) := by
  obtain ⟨i, hi, hvalue, hreach, hbefore⟩ := percentile_spec hne hfit hp
  rw [min_eq_left hp1] at hreach hbefore
  have hn : (0 : ℚ) < samples.length := Nat.cast_pos.mpr (List.length_pos_iff.mpr hne)
  have hpos : 0 < p * samples.length := mul_pos hp hn
  have hfloor : (⌊p * samples.length⌋₊ : ℚ) ≤ p * samples.length := Nat.floor_le hpos.le
  have hnext : p * samples.length < ⌊p * samples.length⌋₊ + 1 := Nat.lt_floor_add_one _
  refine ⟨i, hi, hvalue, ?_, ?_⟩
  · intro j hj
    have hless := hbefore j hj
    rw [rank] at hless
    split at hless
    · rw [show below samples j = 0 by omega, Nat.cast_zero]
      exact hpos
    · exact (Nat.cast_lt.mpr hless).trans_le hfloor
  · constructor
    · intro hcover
      by_contra hlost
      simp only [RankKept, not_or, not_exists, not_forall, not_not, not_lt] at hlost
      obtain ⟨hfrac, hone, k, -, hedge⟩ := hlost
      have hge : 1 ≤ ⌊p * samples.length⌋₊ := Nat.le_floor (by exact_mod_cast hone)
      rw [rank, if_neg (by omega)] at hbefore
      -- the edge with exactly so many samples is at or above the reported one
      have hle : i ≤ k := by
        by_contra hlt
        have := hbefore k (by omega)
        omega
      have hfew : below samples i ≤ ⌊p * samples.length⌋₊ := hedge ▸ below_mono samples hle
      apply hfrac ⌊p * samples.length⌋₊
      exact le_antisymm (hcover.trans (Nat.cast_le.mpr hfew)) hfloor
    · intro hkept
      rcases hkept with hint | hsmall | hedge
      · obtain ⟨m, hm⟩ := hint
        have hrank : m ≤ rank p samples.length := by
          rw [rank, hm, Nat.floor_natCast]
          split <;> omega
        rw [hm]
        exact Nat.cast_le.mpr (hrank.trans hreach)
      · have hzero : ⌊p * samples.length⌋₊ = 0 := Nat.floor_eq_zero.mpr hsmall
        rw [rank, if_pos hzero] at hreach
        exact hsmall.le.trans (by exact_mod_cast hreach)
      · have hneq := hedge i hi
        have hmore : ⌊p * samples.length⌋₊ + 1 ≤ below samples i := by
          rw [rank] at hreach
          split at hreach <;> omega
        exact hnext.le.trans (by exact_mod_cast hmore)

end

/-- The reported bucket is the one that covers the fraction exactly if the rank
lost nothing that counts; no lower bucket covers it, a larger fraction never
reports less, and a bucket holds what its bounds say. -/
theorem percentile_covers_iff {samples : List UInt64} (hne : samples ≠ [])
    (hfit : ∀ us ∈ samples, us.toNat < 2 ^ 63) {p : ℚ} (hp : 0 < p) (hp1 : p ≤ 1) :
    ((∃ i < kBuckets, percentile p (recorded samples) = midpoint i ∧ IsPercentile samples p i) ↔
      RankKept samples p) ∧
    (∃ i < kBuckets, percentile p (recorded samples) = midpoint i ∧
      ∀ j < i, below samples j < p * samples.length) ∧
    (∀ q, p ≤ q → percentile p (recorded samples) ≤ percentile q (recorded samples)) ∧
    ∀ us : UInt64, us.toNat < 2 ^ 63 → 1 ≤ bucket_for us →
      2 ^ (bucket_for us - 1) ≤ us.toNat ∧ us.toNat < 2 ^ bucket_for us := by
  obtain ⟨i, hi, hvalue, hlower, hcover⟩ := percentile_bucket hne hfit hp hp1
  refine ⟨?_, ⟨i, hi, hvalue, hlower⟩, fun q h => percentile_mono hne hfit h,
    fun us h hb => bucket_for_bounds h hb⟩
  rw [← hcover]
  constructor
  · intro hex
    obtain ⟨j, -, hj, hcovered, -⟩ := hex
    have hsame : i = j := midpoint_strictMono.injective (hvalue.symm.trans hj)
    rw [hsame]
    exact hcovered
  · intro hcovered
    exact ⟨i, hi, hvalue, hcovered, hlower⟩

theorem percentile_covers_iff_two :
    ((∃ i < kBuckets, percentile (1 / 2) (recorded [1, 100]) = midpoint i ∧
      IsPercentile [1, 100] (1 / 2) i) ↔ RankKept [1, 100] (1 / 2)) ∧
    (∃ i < kBuckets, percentile (1 / 2) (recorded [1, 100]) = midpoint i ∧
      ∀ j < i, below [1, 100] j < (1 / 2 : ℚ) * [(1 : UInt64), 100].length) ∧
    (∀ q, 1 / 2 ≤ q →
      percentile (1 / 2) (recorded [1, 100]) ≤ percentile q (recorded [1, 100])) ∧
    ∀ us : UInt64, us.toNat < 2 ^ 63 → 1 ≤ bucket_for us →
      2 ^ (bucket_for us - 1) ≤ us.toNat ∧ us.toNat < 2 ^ bucket_for us :=
  percentile_covers_iff (by simp) (by simp) (by norm_num) (by norm_num)

/-- Half of three samples is one and a half; the bucket of the first sample is
reported, and one sample in three is below its edge. -/
theorem percentile_short : ¬ ∃ i < kBuckets,
    percentile (1 / 2) (recorded [1, 100, 100]) = midpoint i ∧
      IsPercentile [1, 100, 100] (1 / 2) i := by
  have hshort : ∀ i < kBuckets, percentile (1 / 2) (recorded [1, 100, 100]) = midpoint i →
      ¬ (1 / 2 : ℚ) * [(1 : UInt64), 100, 100].length ≤ below [1, 100, 100] i := by
    decide +kernel
  intro hex
  obtain ⟨i, hi, hvalue, hcovered, -⟩ := hex
  exact hshort i hi hvalue hcovered

end LatencyHistogram

end Kronos
