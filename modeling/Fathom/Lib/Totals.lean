/-
**Totals over a tree of places**: things stand at lists of names, and what is beneath a
place is what stands at longer lists that begin with it.

The total beneath a place is the sum over its children of what stands at them and what is
beneath them. Nothing has to stand at a place for something to be beneath it, so the
children are the names that occur next, not the things.
-/
import Mathlib.Algebra.BigOperators.Group.List.Basic
import Mathlib.Data.List.Infix

set_option autoImplicit false

namespace Fathom.Totals

variable {α ν M : Type} [DecidableEq ν] [AddCommMonoid M]

/-- A place is strictly beneath another. -/
def beneath (place other : List ν) : Bool := place.isPrefixOf other && place.length < other.length

theorem beneath_iff {place other : List ν} : beneath place other = true ↔ ∃ more, more ≠ [] ∧ other = place ++ more := by
  rw [beneath, Bool.and_eq_true, decide_eq_true_eq, List.isPrefixOf_iff_prefix]
  constructor
  · rintro ⟨⟨more, rfl⟩, hlt⟩
    refine ⟨more, fun hnil => ?_, rfl⟩
    rw [hnil, List.append_nil] at hlt
    exact Nat.lt_irrefl _ hlt
  · rintro ⟨more, hmore, rfl⟩
    have hpos := List.length_pos_of_ne_nil hmore
    exact ⟨List.prefix_append _ _, by rw [List.length_append]; omega⟩

/-- The total of what is beneath a place. -/
def total (path : α → List ν) (weight : α → M) (xs : List α) (place : List ν) : M :=
  ((xs.filter fun x => beneath place (path x)).map weight).sum

/-- The total of what stands at a place. -/
def own (path : α → List ν) (weight : α → M) (xs : List α) (place : List ν) : M :=
  ((xs.filter fun x => path x = place).map weight).sum

section

variable {path : α → List ν} {weight : α → M} {place : List ν}

theorem total_cons (x : α) (xs : List α) :
    total path weight (x :: xs) place = (if beneath place (path x) = true then weight x else 0) + total path weight xs place := by
  rw [total, total, List.filter_cons]
  split
  · rw [List.map_cons, List.sum_cons]
  · rw [zero_add]

theorem own_cons (x : α) (xs : List α) :
    own path weight (x :: xs) place = (if path x = place then weight x else 0) + own path weight xs place := by
  rw [own, own, List.filter_cons]
  by_cases h : path x = place
  · rw [if_pos (decide_eq_true h), if_pos h, List.map_cons, List.sum_cons]
  · rw [if_neg (by simpa using h), if_neg h, zero_add]

/-- A name that occurs once in a list is the only one that counts. -/
theorem sum_once {names : List ν} (hnodup : names.Nodup) {name : ν} (hin : name ∈ names) (w : M) :
    (names.map fun n => if n = name then w else 0).sum = w := by
  induction names with
  | nil => exact absurd hin List.not_mem_nil
  | cons n names ih =>
      obtain ⟨hnew, hrest⟩ := List.nodup_cons.mp hnodup
      rw [List.map_cons, List.sum_cons]
      rcases List.mem_cons.mp hin with rfl | hin
      · have hnone : names.map (fun n => if n = name then w else 0) = names.map fun _ => 0 :=
          List.map_congr_left fun m hm => if_neg fun (heq : m = name) => hnew (heq ▸ hm)
        rw [if_pos rfl, hnone, List.sum_map_zero, add_zero]
      · rw [if_neg fun (heq : n = name) => hnew (heq ▸ hin), zero_add, ih hrest hin]

/-- **The total beneath a place is the sum over its children** of what stands at them and
what is beneath them. -/
theorem total_children {xs : List α} {names : List ν} (hnodup : names.Nodup)
    (hall : ∀ x ∈ xs, ∀ name more, path x = place ++ name :: more → name ∈ names) :
    total path weight xs place
      = (names.map fun name => own path weight xs (place ++ [name]) + total path weight xs (place ++ [name])).sum := by
  induction xs with
  | nil =>
      have hzero : names.map (fun name => own path weight [] (place ++ [name]) + total path weight [] (place ++ [name]))
          = names.map fun _ => (0 : M) := List.map_congr_left fun _ _ => add_zero 0
      rw [hzero, List.sum_map_zero]
      rfl
  | cons x xs ih =>
      -- what the first thing adds to a child
      have hadds : ∀ name, own path weight (x :: xs) (place ++ [name]) + total path weight (x :: xs) (place ++ [name])
          = ((if path x = place ++ [name] then weight x else 0)
              + if beneath (place ++ [name]) (path x) = true then weight x else 0)
            + (own path weight xs (place ++ [name]) + total path weight xs (place ++ [name])) := by
        intro name
        rw [own_cons, total_cons]
        exact add_add_add_comm _ _ _ _
      rw [List.map_congr_left fun name _ => hadds name, List.sum_map_add, total_cons,
        ← ih fun x' hx' => hall x' (List.mem_cons_of_mem _ hx')]
      refine congrArg (· + total path weight xs place) ?_
      by_cases hx : beneath place (path x) = true
      · obtain ⟨more, hmore, hpath⟩ := beneath_iff.mp hx
        obtain ⟨name, rest, rfl⟩ := List.exists_cons_of_ne_nil hmore
        have hone : ∀ n, ((if path x = place ++ [n] then weight x else 0)
            + if beneath (place ++ [n]) (path x) = true then weight x else 0) = if n = name then weight x else 0 := by
          intro n
          have hat : path x = place ++ [n] ↔ n = name ∧ rest = [] := by
            rw [hpath, List.append_cancel_left_eq, List.cons.injEq]
            exact and_congr_left' eq_comm
          have hunder : beneath (place ++ [n]) (path x) = true ↔ n = name ∧ rest ≠ [] := by
            rw [beneath_iff, hpath]
            constructor
            · rintro ⟨below, hbelow, heq⟩
              rw [List.append_assoc, List.append_cancel_left_eq, List.singleton_append, List.cons.injEq] at heq
              exact ⟨heq.1.symm, heq.2 ▸ hbelow⟩
            · rintro ⟨rfl, hrest⟩
              exact ⟨rest, hrest, by rw [List.append_assoc, List.singleton_append]⟩
          simp only [hat, hunder]
          by_cases hn : n = name <;> by_cases hrest : rest = [] <;> simp [hn, hrest]
        rw [if_pos hx, List.map_congr_left fun n _ => hone n,
          sum_once hnodup (hall x List.mem_cons_self name rest hpath)]
      · have hnone : ∀ n, ((if path x = place ++ [n] then weight x else 0)
            + if beneath (place ++ [n]) (path x) = true then weight x else 0) = 0 := by
          intro n
          have hat : ¬path x = place ++ [n] := fun heq => hx (beneath_iff.mpr ⟨[n], List.cons_ne_nil _ _, heq⟩)
          have hunder : ¬beneath (place ++ [n]) (path x) = true := by
            intro h
            obtain ⟨more, -, heq⟩ := beneath_iff.mp h
            exact hx (beneath_iff.mpr ⟨n :: more, List.cons_ne_nil _ _, by rw [heq, List.append_assoc]; rfl⟩)
          rw [if_neg hat, if_neg hunder, add_zero]
        rw [if_neg hx, List.map_congr_left fun n _ => hnone n, List.sum_map_zero]

end

end Fathom.Totals
