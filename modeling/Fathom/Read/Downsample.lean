/-
**The points of a growth chart** (`_downsample` in `core/query_charts.py`) with the slices
computed exactly.

The code divides in floats; `exact_slice` is what it computes in rationals. Slice `i` is then
the time from `slice_start` of `i` up to that of `i + 1`, and the last slice has its end in
it (`kept_slice_eq_iff`). So a chart of a series in order shows the last point of each slice
with a point in it: `downsample_exact`.
-/
import Fathom.Lib.Sampling
import Fathom.Read.Charts
import Mathlib.Algebra.Order.Field.Basic
import Mathlib.Algebra.Order.Field.Rat
import Mathlib.Order.WithBotTop
import Mathlib.Tactic.FieldSimp
import Mathlib.Tactic.Linarith
import Mathlib.Tactic.Ring

set_option autoImplicit false

namespace Fathom.Read

open Fathom.Ingest (Instant)
open Fathom.Sampling (last_in sample)

/-! ## Exact slices -/

/-- `int((ts - first) / span * buckets)`, in rationals. Of a moment before the first there is
no slice in the model: no series in order has one. -/
def exact_slice : Slice := fun first last buckets ts =>
  (((ts - first : Instant) : ℚ) / ((last - first : Instant) : ℚ) * (buckets : ℚ)).floor.toNat

/-- The slice a point is kept in: the last moment counts to the last slice. -/
def kept_slice (first last : Instant) (buckets : ℕ) (p : GrowthPoint) : ℕ :=
  min (exact_slice first last buckets p.ts) (buckets - 1)

/-- Where a slice starts: `span` cut into `buckets` equal times. -/
def slice_start (first last : Instant) (buckets i : ℕ) : ℚ :=
  (first : ℚ) + ((last - first : Instant) : ℚ) * (i : ℚ) / (buckets : ℚ)

/-- The moments of a slice. -/
def InSlice (first last : Instant) (buckets i : ℕ) (ts : Instant) : Prop :=
  slice_start first last buckets i ≤ (ts : ℚ) ∧ ((ts : ℚ) < slice_start first last buckets (i + 1) ∨ i + 1 = buckets)

section

variable {first last ts ts' : Instant} {buckets i : ℕ}

theorem span_pos (hspan : first < last) : (0 : ℚ) < ((last - first : Instant) : ℚ) :=
  Int.cast_pos.mpr (Int.sub_pos_of_lt hspan)

/-- A slice has started when so many slices have passed. -/
theorem slice_start_le_iff (hspan : first < last) (hbuckets : 1 ≤ buckets) :
    slice_start first last buckets i ≤ (ts : ℚ) ↔
      (i : ℚ) ≤ ((ts - first : Instant) : ℚ) / ((last - first : Instant) : ℚ) * (buckets : ℚ) := by
  have hbuckets' : (0 : ℚ) < (buckets : ℚ) := Nat.cast_pos.mpr hbuckets
  rw [slice_start, div_mul_eq_mul_div, le_div_iff₀ (span_pos hspan), ← le_sub_iff_add_le', div_le_iff₀ hbuckets',
    Int.cast_sub ts, mul_comm (i : ℚ)]

/-- A moment is in the exact slice that has started last. -/
theorem le_exact_slice_iff (hspan : first < last) (hbuckets : 1 ≤ buckets) (hts : first ≤ ts) :
    i ≤ exact_slice first last buckets ts ↔ slice_start first last buckets i ≤ (ts : ℚ) := by
  have hnonneg : (0 : ℚ) ≤ ((ts - first : Instant) : ℚ) / ((last - first : Instant) : ℚ) * (buckets : ℚ) := by
    have hpassed : (0 : ℚ) ≤ ((ts - first : Instant) : ℚ) := Int.cast_nonneg (Int.sub_nonneg_of_le hts)
    exact mul_nonneg (div_nonneg hpassed (span_pos hspan).le) (Nat.cast_nonneg buckets)
  rw [slice_start_le_iff hspan hbuckets, exact_slice]
  rw [Int.le_toNat (Rat.le_floor_iff.mpr hnonneg), Rat.le_floor_iff, Int.cast_natCast]

/-- **A point is kept in the slice it is in.** -/
theorem kept_slice_eq_iff {p : GrowthPoint} (hspan : first < last) (hbuckets : 1 ≤ buckets) (hp : first ≤ p.ts) :
    kept_slice first last buckets p = i ↔ i < buckets ∧ InSlice first last buckets i p.ts := by
  have hnext : (p.ts : ℚ) < slice_start first last buckets (i + 1) ↔ exact_slice first last buckets p.ts < i + 1 := by
    rw [← not_le, ← le_exact_slice_iff hspan hbuckets hp, not_le]
  rw [InSlice, ← le_exact_slice_iff hspan hbuckets hp, hnext, kept_slice]
  omega

/-- Later points are not kept in earlier slices. -/
theorem kept_slice_mono {p p' : GrowthPoint} (hspan : first < last) (hbuckets : 1 ≤ buckets) (hp : first ≤ p.ts)
    (hle : p.ts ≤ p'.ts) : kept_slice first last buckets p ≤ kept_slice first last buckets p' := by
  have hslice : exact_slice first last buckets p.ts ≤ exact_slice first last buckets p'.ts := by
    rw [le_exact_slice_iff hspan hbuckets (hp.trans hle)]
    calc slice_start first last buckets (exact_slice first last buckets p.ts)
        ≤ (p.ts : ℚ) := (le_exact_slice_iff hspan hbuckets hp).mp le_rfl
      _ ≤ (p'.ts : ℚ) := Int.cast_le.mpr hle
  rw [kept_slice, kept_slice]
  omega

end

/-! ## The chart -/

/-- The loop keeps the last point of each slice. -/
theorem choose_eq (first last : Instant) (buckets : ℕ) (points : List GrowthPoint) :
    choose exact_slice first last buckets points = last_in (kept_slice first last buckets) points :=
  Sampling.written_eq points

/-- What a chart of so many slices shows of a series between two moments. -/
structure Sampled (first last : Instant) (buckets : ℕ) (points shown : List GrowthPoint) : Prop where
  sublist : shown.Sublist points
  length_le : shown.length ≤ buckets
  /-- it ends with the end of the series -/
  ends : shown.getLast? = points.getLast?
  /-- and shows nothing else where no time passes -/
  flat : first = last → shown = points.getLast?.toList
  /-- what is shown is the last point of a slice -/
  closes : ∀ p ∈ shown, ∃ i < buckets, InSlice first last buckets i p.ts ∧
    ∃ before after, points = before ++ p :: after ∧ ∀ q ∈ after, ¬InSlice first last buckets i q.ts
  /-- and each slice with a point in it shows one -/
  covers : ∀ i < buckets, ∀ p ∈ points, InSlice first last buckets i p.ts →
    ∃ q ∈ shown, InSlice first last buckets i q.ts

section

variable {points : List GrowthPoint} {buckets : ℕ} {first last : GrowthPoint}

/-- A series in order starts with its first moment, -/
theorem first_le (hordered : points.Pairwise fun p q => p.ts ≤ q.ts) (hfirst : points.head? = some first)
    {p : GrowthPoint} (hp : p ∈ points) : first.ts ≤ p.ts := by
  obtain ⟨rest, rfl⟩ := List.head?_eq_some_iff.mp hfirst
  obtain rfl | hp := List.mem_cons.mp hp
  · exact Int.le_refl _
  · exact (List.pairwise_cons.mp hordered).1 p hp

/-- and ends with its last. -/
theorem le_last (hordered : points.Pairwise fun p q => p.ts ≤ q.ts) (hlast : points.getLast? = some last)
    {p : GrowthPoint} (hp : p ∈ points) : p.ts ≤ last.ts := by
  obtain ⟨init, rfl⟩ := List.getLast?_eq_some_iff.mp hlast
  obtain hp | hp := List.mem_append.mp hp
  · exact (List.pairwise_append.mp hordered).2.2 p hp last List.mem_cons_self
  · obtain rfl := List.mem_singleton.mp hp
    exact Int.le_refl _

/-- Where no time passes, every moment is in the last slice and in no other. -/
theorem in_slice_flat_iff {ts : Instant} {i : ℕ} : InSlice ts ts buckets i ts ↔ i + 1 = buckets := by
  have hstart : ∀ j, slice_start ts ts buckets j = (ts : ℚ) := by
    intro j
    rw [slice_start, Int.sub_self, Int.cast_zero, zero_mul, zero_div, add_zero]
  rw [InSlice, hstart, hstart]
  constructor
  · rintro ⟨-, hlt | hi⟩
    · exact absurd hlt (lt_irrefl _)
    · exact hi
  · intro hi
    exact ⟨le_rfl, Or.inr hi⟩

/-- A series in which no time passes is its last point. -/
theorem sampled_flat (hordered : points.Pairwise fun p q => p.ts ≤ q.ts) (hbuckets : 1 ≤ buckets)
    (hfirst : points.head? = some first) (hlast : points.getLast? = some last) (hflat : last.ts = first.ts) :
    Sampled first.ts last.ts buckets points [last] := by
  obtain ⟨init, hpoints⟩ := List.getLast?_eq_some_iff.mp hlast
  have hts : ∀ p ∈ points, p.ts = first.ts := by
    intro p hp
    have hle := le_last hordered hlast hp
    rw [hflat] at hle
    exact Int.le_antisymm hle (first_le hordered hfirst hp)
  have hmem : last ∈ points := List.mem_of_getLast? hlast
  rw [hflat]
  refine ⟨List.singleton_sublist.mpr hmem, hbuckets, by rw [hlast]; rfl, fun _ => by rw [hlast]; rfl, ?_, ?_⟩
  · intro p hp
    rw [List.mem_singleton.mp hp, hts last hmem]
    refine ⟨buckets - 1, by omega, in_slice_flat_iff.mpr (by omega), init, [], hpoints, ?_⟩
    exact fun q hq => absurd hq List.not_mem_nil
  · intro i _ p hp hi
    rw [hts p hp] at hi
    exact ⟨last, List.mem_cons_self, by rw [hts last hmem]; exact hi⟩

/-- A series in which time passes, sampled by its exact slices. -/
theorem sampled_exact (hordered : points.Pairwise fun p q => p.ts ≤ q.ts) (hbuckets : 1 ≤ buckets)
    (hfirst : points.head? = some first) (hspan : first.ts < last.ts) :
    Sampled first.ts last.ts buckets points (sample (kept_slice first.ts last.ts buckets) buckets points) := by
  have hslice : ∀ p ∈ points, ∀ i, kept_slice first.ts last.ts buckets p = i ↔
      i < buckets ∧ InSlice first.ts last.ts buckets i p.ts :=
    fun p hp i => kept_slice_eq_iff hspan hbuckets (first_le hordered hfirst hp)
  have hkept : ∀ p ∈ points, kept_slice first.ts last.ts buckets p < buckets :=
    fun p hp => ((hslice p hp _).mp rfl).1
  have hslices : Sampling.Ordered (kept_slice first.ts last.ts buckets) points :=
    hordered.imp_of_mem fun hp _ hle => kept_slice_mono hspan hbuckets (first_le hordered hfirst hp) hle
  refine ⟨Sampling.sample_sublist buckets hslices, Sampling.length_sample_le buckets points,
    Sampling.getLast?_sample hslices fun p hp => hkept p (List.mem_of_getLast? hp), ?_, ?_, ?_⟩
  · intro hflat
    exact absurd hspan (by rw [hflat]; exact Int.lt_irrefl _)
  · intro p hp
    obtain ⟨hlt, hlast_in⟩ := Sampling.mem_sample.mp hp
    obtain ⟨-, before, after, hpoints, hafter⟩ := Sampling.last_in_eq_some_iff.mp hlast_in
    have hmem : p ∈ points := by
      rw [hpoints]
      exact List.mem_append_right before List.mem_cons_self
    refine ⟨_, hlt, ((hslice p hmem _).mp rfl).2, before, after, hpoints, fun q hq hin => ?_⟩
    have hq' : q ∈ points := by
      rw [hpoints]
      exact List.mem_append_right before (List.mem_cons_of_mem p hq)
    exact hafter q hq ((hslice q hq' _).mpr ⟨hlt, hin⟩)
  · intro i hi p hp hin
    obtain rfl := (hslice p hp i).mpr ⟨hi, hin⟩
    obtain ⟨q, hq⟩ := @Sampling.last_in_of_mem _ (kept_slice first.ts last.ts buckets) _ _ hp
    obtain ⟨hq', before, after, hpoints, -⟩ := Sampling.last_in_eq_some_iff.mp hq
    have hmem : q ∈ points := by
      rw [hpoints]
      exact List.mem_append_right before List.mem_cons_self
    refine ⟨q, Sampling.mem_sample.mpr ?_, ((hslice q hmem _).mp hq').2⟩
    rw [hq']
    exact ⟨hi, hq⟩

/-- **A chart of a series in order.** A longer series is sampled by exact slices of time, and a
shorter one is shown as it is. -/
theorem downsample_exact (hordered : points.Pairwise fun p q => p.ts ≤ q.ts) (hbuckets : 1 ≤ buckets) :
    (buckets < points.length → ∃ first last, points.head? = some first ∧ points.getLast? = some last ∧
        Sampled first.ts last.ts buckets points (downsample exact_slice points buckets)) ∧
      (points.length ≤ buckets → downsample exact_slice points buckets = points) := by
  constructor
  · intro hlong
    have hne : points ≠ [] := List.length_pos_iff.mp (by omega)
    have hfirst := List.head?_eq_some_head hne
    have hlast := List.getLast?_eq_some_getLast hne
    have hle := le_last hordered hlast (List.head_mem hne)
    refine ⟨points.head hne, points.getLast hne, hfirst, hlast, ?_⟩
    rw [downsample, hfirst, hlast]
    dsimp only
    rw [if_neg (by omega), choose_eq]
    split
    · rename_i hspan
      exact sampled_flat hordered hbuckets hfirst hlast (Int.le_antisymm (Int.le_of_sub_nonpos hspan) hle)
    · rename_i hspan
      exact sampled_exact hordered hbuckets hfirst (Int.lt_of_sub_pos (Int.not_le.mp hspan))
  · intro hshort
    unfold downsample
    split
    · rw [if_pos (Or.inr hshort)]
    · rfl

end

/-- A series of four points, the third of which is where the second slice of two starts. -/
def four_points : List GrowthPoint := [⟨0, 1, 1, 1⟩, ⟨4, 2, 2, 1⟩, ⟨5, 3, 3, 1⟩, ⟨10, 4, 4, 1⟩]

theorem downsample_four_points :
    ∃ first last, four_points.head? = some first ∧ four_points.getLast? = some last ∧
      Sampled first.ts last.ts 2 four_points (downsample exact_slice four_points 2) :=
  (downsample_exact (by simp [four_points]) (by decide)).1 (by decide)

example : downsample exact_slice four_points 2 = [⟨4, 2, 2, 1⟩, ⟨10, 4, 4, 1⟩] := by decide +kernel

end Fathom.Read
