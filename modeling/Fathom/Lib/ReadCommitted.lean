/-
**Transactions under READ COMMITTED**, as far as one table goes.

A row is its columns under a primary key. A transaction keeps what it has written to
itself until it commits: the new versions of the rows it updated, the latest first, and
the rows it inserted. A statement reads the committed rows with these laid over them,
and it reads the rows committed when the statement begins, not when the transaction
does. An `UPDATE` finds the rows of its `WHERE` when it begins and, after it has waited
for the transactions that hold locks on them, writes those that still match.

The counting lemmas are about a class of rows that no update brings a row into (a row
is inserted into the class, and an update can only take it out). Whatever commits
between two reads of one transaction, the second read finds at most the rows of the
first and those the others inserted.
-/
import Mathlib.Data.List.Basic

set_option autoImplicit false

namespace Fathom

universe u

/-- What a transaction has written and not yet committed. -/
structure Writes (ρ : Type u) where
  updates : List (ℕ × ρ) := []
  inserts : List (ℕ × ρ) := []

namespace Writes

variable {ρ : Type u} (w : Writes ρ) (table : List (ℕ × ρ)) (p : ρ → Bool)

/-- The version of a row that the transaction sees. -/
def version (row : ℕ × ρ) : ℕ × ρ :=
  (row.1, (w.updates.lookup row.1).getD row.2)

/-- The rows the transaction sees, and what its commit makes of the table. -/
def view : List (ℕ × ρ) :=
  (table ++ w.inserts).map w.version

/-- The keys of the rows an `UPDATE … WHERE p` finds when it begins. -/
def found : List ℕ :=
  ((w.view table).filter fun row => p row.2).map fun row => row.1

/-- `UPDATE … SET set WHERE p`, of the rows found that still match. -/
def update (keys : List ℕ) (set : ρ → ρ) : Writes ρ :=
  { w with
    updates :=
      (((w.view table).filter fun row => keys.contains row.1 && p row.2).map
        fun row => (row.1, set row.2)) ++ w.updates }

/-- `INSERT`, under a key from the table's sequence. -/
def insert (key : ℕ) (row : ρ) : Writes ρ :=
  { w with inserts := w.inserts ++ [(key, row)] }

/-- The keys of the rows it has updated: it holds the locks on them until it ends. -/
def locked : List ℕ :=
  w.updates.map fun row => row.1

/-- The rows of a class. -/
def count (rows : List (ℕ × ρ)) : ℕ :=
  rows.countP fun row => p row.2

/-- No update of the transaction puts a row into the class. -/
def Leaves : Prop :=
  ∀ row ∈ w.updates, p row.2 = false

variable {w table p}

theorem leaves_nil : ({} : Writes ρ).Leaves p := by
  intro row hrow
  exact absurd hrow List.not_mem_nil

theorem Leaves.insert (h : w.Leaves p) (key : ℕ) (row : ρ) : (w.insert key row).Leaves p := h

/-- An `UPDATE` whose `SET` leads out of the class. -/
theorem Leaves.update (h : w.Leaves p) {q : ρ → Bool} (keys : List ℕ) {set : ρ → ρ}
    (hset : ∀ row, p (set row) = false) : (w.update table q keys set).Leaves p := by
  intro row hrow
  rw [Writes.update] at hrow
  rcases List.mem_append.mp hrow with hnew | hold
  · obtain ⟨old, _, heq⟩ := List.mem_map.mp hnew
    rw [← heq]
    exact hset old.2
  · exact h row hold

/-- A row seen in the class was in it before the transaction. -/
theorem Leaves.of_version (h : w.Leaves p) {row : ℕ × ρ} (hp : p (w.version row).2 = true) :
    p row.2 = true ∧ w.version row = row := by
  unfold Writes.version at hp ⊢
  cases hlook : w.updates.lookup row.1 with
  | none =>
      rw [hlook] at hp
      exact ⟨hp, rfl⟩
  | some new =>
      -- an updated row is out of the class
      rw [hlook, Option.getD_some] at hp
      have hmem : (row.1, new) ∈ w.updates := by
        rw [List.lookup_eq_some_iff] at hlook
        obtain ⟨l₁, l₂, heq, _⟩ := hlook
        rw [heq]
        simp
      rw [h _ hmem] at hp
      exact absurd hp (by simp)

theorem count_append (rows rows' : List (ℕ × ρ)) :
    count p (rows ++ rows') = count p rows + count p rows' :=
  List.countP_append

/-- The transaction's own versions only take rows out of the class. -/
theorem Leaves.count_map_le (h : w.Leaves p) (rows : List (ℕ × ρ)) :
    count p (rows.map w.version) ≤ count p rows := by
  unfold count
  rw [List.countP_map]
  exact List.countP_mono_left fun row _ hp => (h.of_version hp).1

theorem Leaves.count_view_le (h : w.Leaves p) (table : List (ℕ × ρ)) :
    count p (w.view table) ≤ count p table + count p w.inserts := by
  rw [← count_append]
  exact h.count_map_le _

/-- An inserted row is seen with the others. -/
theorem Leaves.count_view_insert (h : w.Leaves p) (table : List (ℕ × ρ)) (key : ℕ) (row : ρ) :
    count p ((w.insert key row).view table) ≤ count p (w.view table) + count p [(key, row)] := by
  have hview : (w.insert key row).view table = w.view table ++ [(key, row)].map w.version := by
    unfold view Writes.insert
    rw [← List.append_assoc, List.map_append]
    rfl
  rw [hview, count_append]
  have hrow := h.count_map_le [(key, row)]
  omega

/-- **What others commit.** After another transaction's commit a transaction sees no more
rows of the class than before it and those the other inserted. -/
theorem Leaves.count_view_commit (h : w.Leaves p) {other : Writes ρ} (hother : other.Leaves p) (table : List (ℕ × ρ)) :
    count p (w.view (other.view table)) ≤ count p (w.view table) + count p other.inserts := by
  unfold view
  simp only [List.map_append, count_append]
  -- of the committed rows: one seen in the class after was seen in it before
  have hrows : count p ((table.map other.version).map w.version) ≤ count p (table.map w.version) := by
    unfold count
    rw [List.countP_map, List.countP_map, List.countP_map]
    refine List.countP_mono_left fun row _ hp => ?_
    obtain ⟨hp', _⟩ := h.of_version hp
    rw [Function.comp_apply, Function.comp_apply, (hother.of_version hp').2] at hp
    exact hp
  have hseen := h.count_map_le (other.inserts.map other.version)
  have hinserts := hother.count_map_le other.inserts
  omega

end Writes

end Fathom
