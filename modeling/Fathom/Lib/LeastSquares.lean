/-
**Least squares**: the slope of the line that misses some points least.

`squared_error` is what a line misses the points by. The line with the slope `slope`, the
covariance over the variance of the abscissae, misses them least: `slope_fits`. A slope
notices neither the order of the points nor where the abscissae are counted from; it does
notice the ordinate of a first point: `slope_ne_of_first`.
-/
import Mathlib.Algebra.BigOperators.Ring.List
import Mathlib.Algebra.Order.BigOperators.Group.List
import Mathlib.Algebra.Order.Field.Basic
import Mathlib.Tactic.FieldSimp
import Mathlib.Tactic.Linarith
import Mathlib.Tactic.Ring

set_option autoImplicit false

namespace Fathom.LeastSquares

universe u

variable {K : Type u} [Field K]

/-- The mean of a column of the points. -/
def mean (f : K × K → K) (points : List (K × K)) : K := (points.map f).sum / points.length

/-- The squared deviations of the abscissae. -/
def variance (points : List (K × K)) : K :=
  (points.map fun p => (p.1 - mean Prod.fst points) ^ 2).sum

/-- The deviations of both coordinates. -/
def covariance (points : List (K × K)) : K :=
  (points.map fun p => (p.1 - mean Prod.fst points) * (p.2 - mean Prod.snd points)).sum

/-- The slope of the best line. Where all abscissae are one the quotient is that of a level
one. -/
def slope (points : List (K × K)) : K := covariance points / variance points

/-- What the line `y = m x + c` misses the points by. -/
def squared_error (m c : K) (points : List (K × K)) : K :=
  (points.map fun p => (p.2 - (m * p.1 + c)) ^ 2).sum

variable [LinearOrder K] [IsStrictOrderedRing K]

/-- **A slope fits the points**: some line of it misses them no more than any line. -/
def Fits (points : List (K × K)) (m : K) : Prop :=
  ∃ c, ∀ m' c', squared_error m c points ≤ squared_error m' c' points

/-- All abscissae are one. -/
def Upright (points : List (K × K)) : Prop := ∀ p ∈ points, ∀ q ∈ points, p.1 = q.1

/-- **The least-squares slope**: one that fits, and the level one when all of them do. -/
structure IsSlope (points : List (K × K)) (m : K) : Prop where
  fits : Fits points m
  upright : Upright points → m = 0

/-! ## Deviations -/

section

variable {points : List (K × K)}

theorem sum_deviation (f : K × K → K) (points : List (K × K)) :
    (points.map fun p => f p - mean f points).sum = 0 := by
  by_cases hnil : points = []
  · rw [hnil]
    rfl
  · have hlength : (points.length : K) ≠ 0 := by
      rw [Nat.cast_ne_zero]
      exact fun h => hnil (List.eq_nil_of_length_eq_zero h)
    have hsum : (points.map fun p => f p - mean f points).sum
        = (points.map f).sum - points.length * mean f points := by
      simp only [sub_eq_add_neg, List.sum_map_add, List.map_const', List.sum_replicate, nsmul_eq_mul]
      ring
    rw [hsum, mean]
    field_simp
    ring

theorem variance_nonneg (points : List (K × K)) : 0 ≤ variance points := by
  refine List.sum_nonneg ?_
  intro x hx
  obtain ⟨p, -, rfl⟩ := List.mem_map.mp hx
  exact sq_nonneg _

/-- Without a variance the abscissae are their mean. -/
theorem abscissa_of_variance (h : variance points = 0) {p : K × K} (hp : p ∈ points) : p.1 = mean Prod.fst points := by
  have hnonneg : ∀ x ∈ points.map fun p => (p.1 - mean Prod.fst points) ^ 2, 0 ≤ x := by
    intro x hx
    obtain ⟨r, -, rfl⟩ := List.mem_map.mp hx
    exact sq_nonneg _
  -- squares that add up to nothing are nothing
  have hzero := List.all_zero_of_le_zero_le_of_sum_eq_zero hnonneg h (List.mem_map_of_mem hp)
  exact sub_eq_zero.mp ((pow_eq_zero_iff two_ne_zero).mp hzero)

/-- The variance vanishes exactly when all abscissae are one. -/
theorem variance_eq_zero_iff : variance points = 0 ↔ Upright points := by
  constructor
  · intro h p hp q hq
    rw [abscissa_of_variance h hp, abscissa_of_variance h hq]
  · intro h
    cases points with
    | nil => rfl
    | cons p points =>
        have hmean : mean Prod.fst (p :: points) = p.1 := by
          have hmap : (p :: points).map Prod.fst = List.replicate (p :: points).length p.1 := by
            refine List.eq_replicate_iff.mpr ⟨List.length_map _, ?_⟩
            intro x hx
            obtain ⟨q, hq, rfl⟩ := List.mem_map.mp hx
            exact h q hq p List.mem_cons_self
          have hlength : ((p :: points).length : K) ≠ 0 := by
            rw [Nat.cast_ne_zero]
            exact Nat.succ_ne_zero _
          rw [mean, hmap, List.sum_replicate, nsmul_eq_mul, mul_div_cancel_left₀ _ hlength]
        refine List.sum_eq_zero ?_
        intro x hx
        obtain ⟨q, hq, rfl⟩ := List.mem_map.mp hx
        rw [hmean, h q hq p List.mem_cons_self, sub_self, zero_pow two_ne_zero]

/-- **What a line misses the points by**, by its slope and by its height at the mean. -/
theorem squared_error_eq (m c : K) (points : List (K × K)) :
    squared_error m c points
      = (points.map fun p => (p.2 - mean Prod.snd points) ^ 2).sum - 2 * m * covariance points + m ^ 2 * variance points
        + points.length * (mean Prod.snd points - (m * mean Prod.fst points + c)) ^ 2 := by
  have hx := sum_deviation Prod.fst points
  have hy := sum_deviation Prod.snd points
  rw [squared_error, covariance, variance]
  generalize mean Prod.fst points = x₀ at hx ⊢
  generalize mean Prod.snd points = y₀ at hy ⊢
  -- the square, by the deviations and the height `y₀ - (m x₀ + c)`
  have hsquare : ∀ p : K × K, (p.2 - (m * p.1 + c)) ^ 2
      = (p.2 - y₀) ^ 2 + -(2 * m) * ((p.1 - x₀) * (p.2 - y₀)) + m ^ 2 * (p.1 - x₀) ^ 2 + (y₀ - (m * x₀ + c)) ^ 2
        + 2 * (y₀ - (m * x₀ + c)) * (p.2 - y₀) + -(2 * m * (y₀ - (m * x₀ + c))) * (p.1 - x₀) := by
    intro p
    ring
  simp only [hsquare, List.sum_map_add, List.sum_map_mul_left, List.map_const', List.sum_replicate, nsmul_eq_mul, hx, hy]
  ring

/-- Without a variance there is no covariance. -/
theorem covariance_eq_zero (h : variance points = 0) : covariance points = 0 := by
  refine List.sum_eq_zero ?_
  intro x hx
  obtain ⟨p, hp, rfl⟩ := List.mem_map.mp hx
  rw [abscissa_of_variance h hp, sub_self, zero_mul]

/-- What a line misses the points by, beyond what the best one does. -/
theorem squared_error_slope (m c : K) (points : List (K × K)) : squared_error m c points
      = squared_error (slope points) (mean Prod.snd points - slope points * mean Prod.fst points) points
        + variance points * (m - slope points) ^ 2
        + points.length * (mean Prod.snd points - (m * mean Prod.fst points + c)) ^ 2 := by
  have hslope : slope points * variance points = covariance points := by
    by_cases h : variance points = 0
    · rw [covariance_eq_zero h, h, mul_zero]
    · rw [slope, div_mul_cancel₀ _ h]
  rw [squared_error_eq, squared_error_eq, ← hslope]
  ring

/-- **The slope fits.** -/
theorem slope_fits (points : List (K × K)) : Fits points (slope points) := by
  refine ⟨mean Prod.snd points - slope points * mean Prod.fst points, fun m c => ?_⟩
  have hslope : 0 ≤ variance points * (m - slope points) ^ 2 := mul_nonneg (variance_nonneg points) (sq_nonneg _)
  have hheight : 0 ≤ (points.length : K) * (mean Prod.snd points - (m * mean Prod.fst points + c)) ^ 2 :=
    mul_nonneg (Nat.cast_nonneg _) (sq_nonneg _)
  rw [squared_error_slope m c]
  linarith

theorem isSlope_slope (points : List (K × K)) : IsSlope points (slope points) :=
  ⟨slope_fits points, fun h => by rw [slope, variance_eq_zero_iff.mpr h, div_zero]⟩

/-! ## What a slope notices -/

omit [LinearOrder K] [IsStrictOrderedRing K] in
theorem mean_perm (f : K × K → K) {points' : List (K × K)} (h : points.Perm points') :
    mean f points = mean f points' := by
  rw [mean, mean, (h.map f).sum_eq, h.length_eq]

omit [LinearOrder K] [IsStrictOrderedRing K] in
/-- Not the order of the points. -/
theorem slope_perm {points' : List (K × K)} (h : points.Perm points') : slope points = slope points' := by
  have hvariance : variance points = variance points' := by
    rw [variance, variance, mean_perm Prod.fst h, (h.map _).sum_eq]
  have hcovariance : covariance points = covariance points' := by
    rw [covariance, covariance, mean_perm Prod.fst h, mean_perm Prod.snd h, (h.map _).sum_eq]
  rw [slope, slope, hvariance, hcovariance]

/-- Nor where the abscissae are counted from. -/
theorem slope_shift (x : K) (points : List (K × K)) : slope (points.map fun p => (p.1 - x, p.2)) = slope points := by
  by_cases hnil : points = []
  · rw [hnil]
    rfl
  · have hlength : (points.length : K) ≠ 0 := by
      rw [Nat.cast_ne_zero]
      exact fun h => hnil (List.eq_nil_of_length_eq_zero h)
    have hfst : mean Prod.fst (points.map fun p => (p.1 - x, p.2)) = mean Prod.fst points - x := by
      have hsum : (points.map fun p => p.1 - x).sum = (points.map Prod.fst).sum - points.length * x := by
        simp only [sub_eq_add_neg, List.sum_map_add, List.map_const', List.sum_replicate, nsmul_eq_mul]
        ring
      rw [mean, mean, List.map_map, List.length_map, show (Prod.fst ∘ fun p : K × K => (p.1 - x, p.2)) = fun p => p.1 - x from rfl,
        hsum]
      field_simp
    have hsnd : mean Prod.snd (points.map fun p => (p.1 - x, p.2)) = mean Prod.snd points := by
      rw [mean, mean, List.map_map, List.length_map]
      rfl
    have hdeviation : ∀ p : K × K, p.1 - x - (mean Prod.fst points - x) = p.1 - mean Prod.fst points := by
      intro p
      ring
    rw [slope, slope, covariance, covariance, variance, variance, hfst, hsnd]
    simp only [List.map_map, Function.comp_def, hdeviation]

/-- The ordinates come in by the deviations of the abscissae. -/
theorem covariance_eq (points : List (K × K)) :
    covariance points = (points.map fun p => (p.1 - mean Prod.fst points) * p.2).sum := by
  have hx := sum_deviation Prod.fst points
  rw [covariance]
  generalize mean Prod.fst points = x₀ at hx ⊢
  have hsplit : ∀ p : K × K, (p.1 - x₀) * (p.2 - mean Prod.snd points)
      = (p.1 - x₀) * p.2 + -(mean Prod.snd points) * (p.1 - x₀) := by
    intro p
    ring
  simp only [hsplit, List.sum_map_add, List.sum_map_mul_left, hx, mul_zero, add_zero]

/-- **But the ordinate of a point before all others.** -/
theorem slope_ne_of_first {x y y' : K} (hnil : points ≠ []) (hfirst : ∀ p ∈ points, x < p.1) (hy : y ≠ y') :
    slope ((x, y) :: points) ≠ slope ((x, y') :: points) := by
  have hmean : mean Prod.fst ((x, y) :: points) = mean Prod.fst ((x, y') :: points) := rfl
  have hvariance : variance ((x, y) :: points) = variance ((x, y') :: points) := rfl
  have hnonzero : variance ((x, y) :: points) ≠ 0 := by
    intro h
    obtain ⟨p, hp⟩ := List.exists_mem_of_ne_nil _ hnil
    have hsame := variance_eq_zero_iff.mp h (x, y) List.mem_cons_self p (List.mem_cons_of_mem _ hp)
    exact (hfirst p hp).ne hsame
  -- its deviation is not zero, being below all others
  have hdeviation : x ≠ mean Prod.fst ((x, y) :: points) := by
    intro h
    have hsum := sum_deviation Prod.fst ((x, y) :: points)
    rw [← h, List.map_cons, List.sum_cons, sub_self, zero_add] at hsum
    have hpos : 0 < (points.map fun p => p.1 - x).sum := by
      refine List.sum_pos _ ?_ ?_
      · intro z hz
        obtain ⟨p, hp, rfl⟩ := List.mem_map.mp hz
        exact sub_pos.mpr (hfirst p hp)
      · rw [Ne, List.map_eq_nil_iff]
        exact hnil
    exact hpos.ne' hsum
  intro h
  rw [slope, slope, ← hvariance, div_left_inj' hnonzero, covariance_eq, covariance_eq, ← hmean, List.map_cons, List.map_cons,
    List.sum_cons, List.sum_cons, add_left_inj] at h
  exact hy (mul_left_cancel₀ (sub_ne_zero.mpr hdeviation) h)

end

end Fathom.LeastSquares
