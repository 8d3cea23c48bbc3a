/-
**Insert-if-absent ledgers**: a table with a unique key, and the one operation
that inserts a key unless it is there.

Uniqueness of the keys is a field of the type, as it is a constraint of the
table. As a system the ledger has one label per *successful* insertion, and what
a run of it says is the whole point of such a table: the keys inserted along a
run are pairwise different and none of them was there before
(`single_use_trace`).
-/
import Fathom.Lib.System
import Mathlib.Data.List.Nodup

set_option autoImplicit false

namespace Fathom

/-- A table of rows with a unique key. -/
structure Ledger (κ β : Type) where
  rows : List (κ × β)
  unique : (rows.map Prod.fst).Nodup

namespace Ledger

variable {κ β : Type}

/-- The keys, in the order they were inserted. -/
def keys (l : Ledger κ β) : List κ := l.rows.map Prod.fst

/-- The ledger without rows. -/
def empty : Ledger κ β := ⟨[], List.nodup_nil⟩

variable [DecidableEq κ]

/-- Insert the row unless its key is there. The answer is whether it was
inserted. -/
def insert (l : Ledger κ β) (k : κ) (b : β) : Bool × Ledger κ β :=
  if h : k ∈ l.keys then (false, l)
  else (true, ⟨l.rows ++ [(k, b)], by
    rw [List.map_append, List.map_singleton, List.nodup_append]
    refine ⟨l.unique, List.nodup_singleton k, ?_⟩
    intro a ha c hc hac
    apply h
    rw [← show c = k from List.mem_singleton.mp hc, ← hac]
    exact ha⟩)

/-- An insertion succeeds exactly when the key is absent. -/
theorem insert_fst (l : Ledger κ β) (k : κ) (b : β) : (l.insert k b).1 = true ↔ k ∉ l.keys := by
  unfold insert
  split_ifs with h <;> simp [h]

/-- A successful insertion adds one row at the end. -/
theorem insert_keys {l : Ledger κ β} {k : κ} {b : β} (h : k ∉ l.keys) : (l.insert k b).2.keys = l.keys ++ [k] := by
  unfold insert
  rw [dif_neg h, keys, List.map_append, List.map_singleton, keys]

/-- A failed insertion changes nothing. -/
theorem insert_present {l : Ledger κ β} {k : κ} {b : β} (h : k ∈ l.keys) : l.insert k b = (false, l) := by
  unfold insert
  rw [dif_pos h]

/-- The ledger as a system: one label per successful insertion. -/
def single_use (l₀ : Ledger κ β) : System (Ledger κ β) (κ × β) where
  init := fun l => l = l₀
  step := fun l row =>
    match l.insert row.1 row.2 with
    | (true, l') => some l'
    | (false, _) => none

theorem single_use_step {l₀ l l' : Ledger κ β} {row : κ × β} : (single_use l₀).step l row = some l' ↔
      row.1 ∉ l.keys ∧ (l.insert row.1 row.2).2 = l' := by
  simp only [single_use]
  by_cases h : row.1 ∈ l.keys
  · rw [insert_present h]
    simp [h]
  · have hfst := (insert_fst l row.1 row.2).mpr h
    rcases hins : l.insert row.1 row.2 with ⟨b, l₁⟩
    rw [hins] at hfst
    dsimp only at hfst
    rw [hfst]
    simp [h]

/-- **Every key is used once.** After any run the keys are the ones there at
first followed by the ones inserted, in order, and they are pairwise
different. -/
theorem single_use_trace {l₀ l : Ledger κ β} {tr : List (κ × β)}
    (h : (single_use l₀).Trace tr l) : l.keys = l₀.keys ++ tr.map Prod.fst := by
  refine h.induct (P := fun tr l => l.keys = l₀.keys ++ tr.map Prod.fst) ?_ ?_
  · intro s hs
    rw [show s = l₀ from hs, List.map_nil, List.append_nil]
  · intro tr l row l' _ ih hstep
    rcases single_use_step.mp hstep with ⟨hfresh, hl'⟩
    rw [← hl', insert_keys hfresh, ih, List.map_append, List.map_singleton, List.append_assoc]

/-- The same, read as distinctness. -/
theorem single_use_nodup {l₀ l : Ledger κ β} {tr : List (κ × β)} (h : (single_use l₀).Trace tr l) :
    (tr.map Prod.fst).Nodup ∧ ∀ k ∈ tr.map Prod.fst, k ∉ l₀.keys := by
  have hun : l.keys.Nodup := l.unique
  rw [single_use_trace h, List.nodup_append] at hun
  refine ⟨hun.2.1, fun k hk hk₀ => hun.2.2 k hk₀ k hk rfl⟩

end Ledger

end Fathom
