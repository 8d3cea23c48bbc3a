/-
**Numbers with a NaN** in them, as comparisons see them: a NaN is neither below nor above
anything, so a search for the least of a list keeps it when it comes first and passes over
it when it comes later.
-/
import Mathlib.Data.List.MinMax

set_option autoImplicit false

namespace Fathom.Nan

variable {τ : Type}

/-- A number, or a NaN. -/
inductive WithNan (τ : Type) where
  | nan
  | num (x : τ)
  deriving DecidableEq

/-- `a <= b`, but for a NaN, which is not even equal to itself. -/
instance [LE τ] : LE (WithNan τ) where
  le a b := a = b ∨ ∃ x y, a = .num x ∧ b = .num y ∧ x ≤ y

/-- `a < b`. -/
instance [LT τ] : LT (WithNan τ) where
  lt
    | .num x, .num y => x < y
    | _, _ => False

instance [LT τ] [DecidableLT τ] : DecidableLT (WithNan τ)
  | .num x, .num y => inferInstanceAs (Decidable (x < y))
  | .nan, .nan => isFalse fun h => h
  | .nan, .num _ => isFalse fun h => h
  | .num _, .nan => isFalse fun h => h

/-- `a == b`. -/
def equal [DecidableEq τ] : WithNan τ → WithNan τ → Bool
  | .num x, .num y => x = y
  | _, _ => false

/-- `min(a, b)`: the first, unless the second is below it. -/
def least_of_two [LT τ] [DecidableLT τ] (a b : WithNan τ) : WithNan τ := if b < a then b else a

/-- What is not a NaN. -/
def is_num : WithNan τ → Bool
  | .num _ => true
  | .nan => false

section

variable [LinearOrder τ]

@[simp] theorem num_le_num {x y : τ} : WithNan.num x ≤ .num y ↔ x ≤ y := by
  constructor
  · rintro (h | ⟨a, b, ha, hb, hle⟩)
    · exact le_of_eq (WithNan.num.inj h)
    · rw [WithNan.num.inj ha, WithNan.num.inj hb]
      exact hle
  · exact fun h => Or.inr ⟨x, y, rfl, rfl, h⟩

@[simp] theorem num_lt_num {x y : τ} : WithNan.num x < .num y ↔ x < y := Iff.rfl

theorem not_lt_nan (a : WithNan τ) : ¬a < .nan := by
  cases a <;> exact fun h => h

theorem not_nan_lt (a : WithNan τ) : ¬WithNan.nan < a := by
  cases a <;> exact fun h => h

instance : PartialOrder (WithNan τ) where
  le_refl a := Or.inl rfl
  le_trans a b c hab hbc := by
    obtain rfl | ⟨x, y, rfl, rfl, hxy⟩ := hab
    · exact hbc
    · obtain rfl | ⟨y', z, hy, rfl, hyz⟩ := hbc
      · exact num_le_num.mpr hxy
      · exact num_le_num.mpr (hxy.trans (WithNan.num.inj hy ▸ hyz))
  le_antisymm a b hab hba := by
    obtain rfl | ⟨x, y, rfl, rfl, hxy⟩ := hab
    · rfl
    · exact congrArg WithNan.num (le_antisymm hxy (num_le_num.mp hba))
  lt_iff_le_not_ge a b := by
    cases a with
    | nan =>
        refine iff_of_false (not_nan_lt b) fun ⟨hle, hge⟩ => hge ?_
        obtain rfl | ⟨x, y, hx, -, -⟩ := hle
        · exact Or.inl rfl
        · cases hx
    | num x =>
        cases b with
        | nan =>
            refine iff_of_false (not_lt_nan _) fun hle => ?_
            obtain h | ⟨-, y, -, hy, -⟩ := hle.1
            · cases h
            · cases hy
        | num y => rw [num_lt_num, num_le_num, num_le_num, lt_iff_le_not_ge]

theorem equal_iff {a b : WithNan τ} : equal a b = true ↔ is_num a = true ∧ a = b := by
  cases a <;> cases b <;> simp [equal, is_num]

/-- The lesser of two is a NaN when the first one is. -/
theorem is_num_least_of_two {a b : WithNan τ} : is_num (least_of_two a b) = is_num a := by
  rw [least_of_two]
  split
  · rename_i hlt
    cases a with
    | nan => exact absurd hlt (not_lt_nan b)
    | num x =>
        cases b with
        | nan => exact absurd hlt (not_nan_lt _)
        | num y => rfl
  · rfl

/-! ## The least of a list -/

/-- The first of a list is kept when nothing after it is below it. -/
theorem argmin_head {α β : Type} [Preorder β] [DecidableLT β] {f : α → β} {a : α} {xs : List α}
    (h : ∀ x ∈ xs, ¬f x < f a) : (a :: xs).argmin f = some a := by
  induction xs using List.reverseRecOn with
  | nil => exact List.argmin_singleton
  | append_singleton xs x ih =>
      have hxs := ih fun y hy => h y (List.mem_append_left _ hy)
      rw [← List.cons_append, List.argmin_concat, hxs]
      exact if_neg (h x (List.mem_append_right _ (List.mem_singleton.mpr rfl)))

theorem exists_argmin {α β : Type} [Preorder β] [DecidableLT β] (f : α → β) {xs : List α} (h : xs ≠ []) :
    ∃ a, xs.argmin f = some a :=
  Option.ne_none_iff_exists'.mp fun hnone => h (List.argmin_eq_none.mp hnone)

/-- A NaN that comes first is what a search for the least finds. -/
theorem minimum_nan (xs : List (WithNan τ)) : (WithNan.nan :: xs).argmin id = some .nan :=
  argmin_head fun x _ => not_lt_nan x

/-- Without a NaN the least is found, wherever it stands. -/
theorem minimum_of_nums {xs : List (WithNan τ)} (hnum : ∀ x ∈ xs, is_num x = true) {least : WithNan τ}
    (h : xs.argmin id = some least) : is_num least = true ∧ least ∈ xs ∧ ∀ x ∈ xs, least ≤ x := by
  have hmem : least ∈ xs := List.argmin_mem h
  refine ⟨hnum least hmem, hmem, fun x hx => ?_⟩
  have hlt : ¬x < least := List.not_lt_of_mem_argmin hx h
  have hx' := hnum x hx
  have hleast := hnum least hmem
  cases x with
  | nan => cases hx'
  | num x =>
      cases least with
      | nan => cases hleast
      | num least => exact num_le_num.mpr (not_lt.mp hlt)

end

end Fathom.Nan
