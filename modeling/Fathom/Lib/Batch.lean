/-
**Batches**: a stream is handed on in lists of at most some size, the last one as far as
it has come. Put back together, the lists are the stream.
-/
import Mathlib.Data.List.Basic

set_option autoImplicit false

namespace Fathom.Batch

variable {α σ : Type}

/-- The lists that were handed on, and the one that is being filled. -/
structure Filling (α : Type) where
  full : List (List α)
  batch : List α

/-- One more; a list of the size is handed on. -/
def Filling.add (size : ℕ) (f : Filling α) (x : α) : Filling α :=
  let batch := f.batch ++ [x]
  if size ≤ batch.length then { full := f.full ++ [batch], batch := [] } else { f with batch := batch }

/-- What is left is handed on at the end. -/
def Filling.lists (f : Filling α) : List (List α) := if f.batch.isEmpty then f.full else f.full ++ [f.batch]

/-- A stream, in lists of at most a size. -/
def batched (size : ℕ) (xs : List α) : List (List α) := (xs.foldl (Filling.add size) { full := [], batch := [] }).lists

theorem Filling.flatten_lists (f : Filling α) : f.lists.flatten = f.full.flatten ++ f.batch := by
  rw [Filling.lists]
  split
  · rename_i hempty
    rw [List.isEmpty_iff.mp hempty, List.append_nil]
  · rw [List.flatten_append, List.flatten_singleton]

theorem Filling.flatten_foldl (size : ℕ) (xs : List α) (f : Filling α) :
    (xs.foldl (Filling.add size) f).lists.flatten = f.full.flatten ++ f.batch ++ xs := by
  induction xs generalizing f with
  | nil => rw [List.foldl_nil, Filling.flatten_lists, List.append_nil]
  | cons x xs ih =>
      rw [List.foldl_cons, ih, Filling.add]
      split
      · rw [List.flatten_append, List.flatten_singleton, List.append_nil, ← List.append_assoc, List.append_assoc]
        rfl
      · rw [← List.append_assoc, List.append_assoc (f.full.flatten ++ f.batch)]
        rfl

/-- **Nothing is lost or handed on twice.** -/
theorem flatten_batched (size : ℕ) (xs : List α) : (batched size xs).flatten = xs :=
  Filling.flatten_foldl size xs { full := [], batch := [] }

end Fathom.Batch
