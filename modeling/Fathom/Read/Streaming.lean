/-
**Grouping in one pass** (`iter_provider_hash_duplicates` in `core/provider_dedup.py`).

The loop keeps the rows of one key and closes a group where the key changes, and once more at
the end of the stream. On rows in order it gives the groups of a `GROUP BY`, with all that is
said of them: `run_groups_grouped`.
-/
import Fathom.Read.Confine
import Mathlib.Algebra.Ring.Nat

set_option autoImplicit false

namespace Fathom.Read

/-- `reclaimable_bytes`. -/
def ProviderDupGroup.reclaimable_bytes (group : ProviderDupGroup) : Int :=
  (group.size : Int) * ((group.members.length : Int) - 1)

/-- The groups of some rows, by what they say. -/
structure Grouped (rows : List Row) (min_members : ℕ) (groups : List ProviderDupGroup) : Prop where
  once : (groups.map ProviderDupGroup.key).Nodup
  /-- a group for each key that enough rows have, with these rows as its members -/
  mem_iff : ∀ group, group ∈ groups ↔
    (∃ row ∈ rows, provider_key row = group.key) ∧ min_members ≤ (members_of rows group.key).length ∧
      group.members = members_of rows group.key
  count : ∀ group ∈ groups, group.members.length = rows.countP fun row => provider_key row = group.key
  /-- all bytes of the rows but those of one copy -/
  reclaimable : ∀ group ∈ groups, group.reclaimable_bytes =
    ((((under provider_key rows group.key).map fun row => row.1.size_logical).sum : ℕ) : Int) - (group.size : Int)

section

variable {order : KeyOrder ProviderKey} {rows : List Row} {min_members : ℕ}

/-- All rows of a key have its size. -/
theorem sum_sizes (rows : List Row) (key : ProviderKey) :
    ((under provider_key rows key).map fun row => row.1.size_logical).sum = (under provider_key rows key).length * key.size := by
  have hsizes : (under provider_key rows key).map (fun row => row.1.size_logical) =
      List.replicate (under provider_key rows key).length key.size := by
    rw [List.eq_replicate_iff]
    refine ⟨List.length_map _, ?_⟩
    intro size hsize
    obtain ⟨row, hrow, rfl⟩ := List.mem_map.mp hsize
    rw [← (mem_under.mp hrow).2]
    rfl
  rw [hsizes, List.sum_replicate_nat]

/-- **What a `GROUP BY` gives**, of rows in any order. -/
theorem group_by_grouped (min_members : ℕ) (rows : List Row) : Grouped rows min_members (group_by min_members rows) := by
  have hmembers : ∀ group ∈ group_by min_members rows, group.members = members_of rows group.key :=
    fun group hgroup => (mem_group_by.mp hgroup).2.2
  have hcount : ∀ group ∈ group_by min_members rows, group.members.length = (under provider_key rows group.key).length := by
    intro group hgroup
    rw [hmembers group hgroup, members_of, List.length_map]
    rfl
  refine ⟨?_, fun group => mem_group_by, ?_, ?_⟩
  · -- the keys are those of the dict that are left
    rw [group_by, List.map_map]
    exact (buckets_filled provider_key rows).keys.sublist (List.filter_sublist.map _)
  · intro group hgroup
    rw [hcount group hgroup, List.countP_eq_length_filter]
    rfl
  · intro group hgroup
    have hsize : group.size = group.key.size := rfl
    rw [sum_sizes, ProviderDupGroup.reclaimable_bytes, hcount group hgroup, hsize]
    push_cast
    ring

/-- **One pass groups as `GROUP BY` does**, where the rows come in order: the same groups, in
the same order, the one that is open at the end among them. -/
theorem run_groups_grouped
    (hsorted : rows.Pairwise fun row row' => order.le (provider_key row) (provider_key row') = true) :
    run_groups min_members none [] rows = group_by min_members rows ∧
      Grouped rows min_members (run_groups min_members none [] rows) := by
  rw [run_groups_eq_group_by hsorted]
  exact ⟨rfl, group_by_grouped min_members rows⟩

end

/-- A file with the hash of a provider. -/
def attested_file (hash : String) (id : ℕ) : Row :=
  ({ system_file "f" id with provider_hash := some hash, provider_hash_algo := some "md5" }, id)

/-- One file that is alone, and two that are not. -/
def three_files : List Row := [attested_file "a" 1, attested_file "b" 2, attested_file "b" 3]

theorem three_files_grouped :
    run_groups 2 none [] three_files = group_by 2 three_files ∧ Grouped three_files 2 (run_groups 2 none [] three_files) :=
  @run_groups_grouped code_point_order three_files 2 (by decide +kernel)

example : run_groups 2 none [] three_files = [⟨"md5", "b", 10, [⟨2, 1, 1, "/f"⟩, ⟨3, 1, 1, "/f"⟩]⟩] := by decide +kernel

end Fathom.Read
