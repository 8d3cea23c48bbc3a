/-
**Sampling**: a sequence cut into numbered slices, of each of which the last element is kept.

Where the elements come in the order of their slices, what is kept comes in the order of the
sequence (`sample_sublist`) and ends with its last element (`getLast?_sample`): the last of a
slice is followed by nothing of its slice (`last_in_eq_some_iff`), and the slice of the last
element is the last slice.
-/
import Mathlib.Data.List.Range
import Mathlib.Logic.Function.Basic

set_option autoImplicit false

namespace Fathom.Sampling

universe u

variable {α : Type u} (slice_of : α → ℕ)

/-- The last element of a slice. -/
def last_in (xs : List α) (i : ℕ) : Option α := (xs.filter fun x => slice_of x = i).getLast?

/-- A table of slices into which the elements are written one after the other. -/
def written (xs : List α) : ℕ → Option α :=
  xs.foldl (fun table x => Function.update table (slice_of x) (some x)) fun _ => none

/-- The last elements of the first slices, of those that have one. -/
def sample (buckets : ℕ) (xs : List α) : List α := (List.range buckets).filterMap (last_in slice_of xs)

/-- The elements come in the order of their slices. -/
abbrev Ordered (xs : List α) : Prop := xs.Pairwise fun x y => slice_of x ≤ slice_of y

variable {slice_of}

/-! ## The last of a slice -/

theorem last_in_append (xs : List α) (x : α) (i : ℕ) :
    last_in slice_of (xs ++ [x]) i = if slice_of x = i then some x else last_in slice_of xs i := by
  rw [last_in, List.filter_append]
  split
  · rename_i hi
    rw [List.filter_cons_of_pos (p := fun y => slice_of y = i) (decide_eq_true hi), List.filter_nil, List.getLast?_concat]
  · rename_i hi
    rw [List.filter_cons_of_neg (by simpa using hi), List.filter_nil, List.append_nil]
    rfl

/-- **A table keeps the last of each slice.** -/
theorem written_eq (xs : List α) : written slice_of xs = last_in slice_of xs := by
  induction xs using List.reverseRecOn with
  | nil => rfl
  | append_singleton xs x ih =>
      funext i
      rw [written, List.foldl_append, List.foldl_cons, List.foldl_nil]
      show Function.update (written slice_of xs) (slice_of x) (some x) i = _
      rw [last_in_append, ih, Function.update_apply]
      exact if_congr eq_comm rfl rfl

variable {xs : List α} {x : α} {buckets : ℕ}

/-- The last of a slice is followed by none of its slice. -/
theorem last_in_eq_some_iff {i : ℕ} : last_in slice_of xs i = some x ↔
      slice_of x = i ∧ ∃ before after, xs = before ++ x :: after ∧ ∀ y ∈ after, slice_of y ≠ i := by
  rw [last_in, List.getLast?_eq_some_iff]
  constructor
  · rintro ⟨kept, hkept⟩
    -- the filter ends with `x`, so it is cut where `x` stands
    obtain ⟨before, rest, rfl, -, hrest⟩ := List.filter_eq_append_iff.mp hkept
    obtain ⟨skipped, after, rfl, -, hx, hafter⟩ := List.filter_eq_cons_iff.mp hrest
    refine ⟨of_decide_eq_true hx, before ++ skipped, after, by rw [List.append_assoc], fun y hy heq => ?_⟩
    exact absurd (decide_eq_true heq) (List.filter_eq_nil_iff.mp hafter y hy)
  · rintro ⟨hx, before, after, rfl, hafter⟩
    refine ⟨before.filter fun y => slice_of y = i, ?_⟩
    have hnone : after.filter (fun y => slice_of y = i) = [] := by
      rw [List.filter_eq_nil_iff]
      intro y hy
      rw [decide_eq_true_eq]
      exact hafter y hy
    rw [List.filter_append, List.filter_cons_of_pos (p := fun y => slice_of y = i) (decide_eq_true hx), hnone]

/-- A slice with an element in it has a last one. -/
theorem last_in_of_mem (hx : x ∈ xs) : ∃ y, last_in slice_of xs (slice_of x) = some y := by
  have hkept : x ∈ xs.filter fun y => slice_of y = slice_of x := List.mem_filter.mpr ⟨hx, decide_eq_true rfl⟩
  exact ⟨_, List.getLast?_eq_some_getLast (List.ne_nil_of_mem hkept)⟩

/-! ## The sample -/

theorem mem_sample :
    x ∈ sample slice_of buckets xs ↔ slice_of x < buckets ∧ last_in slice_of xs (slice_of x) = some x := by
  rw [sample, List.mem_filterMap]
  constructor
  · rintro ⟨i, hi, hlast⟩
    obtain rfl := (last_in_eq_some_iff.mp hlast).1
    exact ⟨List.mem_range.mp hi, hlast⟩
  · rintro ⟨hlt, hlast⟩
    exact ⟨slice_of x, List.mem_range.mpr hlt, hlast⟩

theorem length_sample_le (buckets : ℕ) (xs : List α) : (sample slice_of buckets xs).length ≤ buckets := by
  calc (sample slice_of buckets xs).length
      ≤ (List.range buckets).length := List.length_filterMap_le _ _
    _ = buckets := List.length_range

/-- An element of a slice past those that are kept is not kept. -/
theorem sample_append_of_le (h : buckets ≤ slice_of x) :
    sample slice_of buckets (xs ++ [x]) = sample slice_of buckets xs := by
  apply List.filterMap_congr
  intro i hi
  have hlt : i < buckets := List.mem_range.mp hi
  rw [last_in_append, if_neg (by omega)]

/-- One more element, of the last slice so far, closes the sample: what was kept of its slice
goes. -/
theorem sample_append_of_lt (hle : ∀ y ∈ xs, slice_of y ≤ slice_of x) (h : slice_of x < buckets) :
    sample slice_of buckets (xs ++ [x]) = sample slice_of (slice_of x) xs ++ [x] := by
  obtain ⟨rest, rfl⟩ := Nat.exists_eq_add_of_le (Nat.succ_le_of_lt h)
  -- the slices behind the element's own are empty
  have hrest : ((List.range rest).map (slice_of x + 1 + ·)).filterMap (last_in slice_of (xs ++ [x])) = [] := by
    rw [List.filterMap_eq_nil_iff]
    intro i hi
    obtain ⟨j, -, rfl⟩ := List.mem_map.mp hi
    rw [last_in_append, if_neg (by omega), last_in, List.getLast?_eq_none_iff, List.filter_eq_nil_iff]
    intro y hy
    have hy' := hle y hy
    rw [decide_eq_true_eq]
    omega
  have hown : last_in slice_of (xs ++ [x]) (slice_of x) = some x := by rw [last_in_append, if_pos rfl]
  rw [sample, Nat.succ_eq_add_one, List.range_add, List.filterMap_append, hrest, List.append_nil,
    List.range_succ, List.filterMap_append, List.filterMap_cons_some hown, List.filterMap_nil]
  exact congrArg (· ++ [x]) (sample_append_of_le le_rfl)

section

variable {xs : List α}

theorem Ordered.before (h : Ordered slice_of (xs ++ [x])) :
    Ordered slice_of xs ∧ ∀ y ∈ xs, slice_of y ≤ slice_of x := by
  obtain ⟨hxs, -, hle⟩ := List.pairwise_append.mp h
  exact ⟨hxs, fun y hy => hle y hy x List.mem_cons_self⟩

/-- **A sample keeps the order of the sequence.** -/
theorem sample_sublist (buckets : ℕ) (h : Ordered slice_of xs) : (sample slice_of buckets xs).Sublist xs := by
  induction xs using List.reverseRecOn generalizing buckets with
  | nil =>
      have hnil : sample slice_of buckets [] = [] := List.filterMap_eq_nil_iff.mpr fun _ _ => rfl
      rw [hnil]
  | append_singleton xs x ih =>
      obtain ⟨hxs, hle⟩ := h.before
      by_cases hx : slice_of x < buckets
      · rw [sample_append_of_lt hle hx]
        exact (ih (slice_of x) hxs).append (List.Sublist.refl [x])
      · rw [sample_append_of_le (by omega)]
        exact (ih buckets hxs).trans (List.sublist_append_left xs [x])

/-- **A sample ends with the last element**, if its slice is kept. -/
theorem getLast?_sample (h : Ordered slice_of xs) (hlast : ∀ x ∈ xs.getLast?, slice_of x < buckets) :
    (sample slice_of buckets xs).getLast? = xs.getLast? := by
  induction xs using List.reverseRecOn with
  | nil =>
      rw [List.getLast?_nil, List.getLast?_eq_none_iff]
      exact List.filterMap_eq_nil_iff.mpr fun _ _ => rfl
  | append_singleton xs x ih =>
      rw [List.getLast?_concat] at hlast ⊢
      rw [sample_append_of_lt h.before.2 (hlast x rfl), List.getLast?_concat]

end

end Fathom.Sampling
