/-
**The two keyset lists**: the pages of duplicate groups (`list_duplicate_groups` of
`core/query.py`) and the pages of the audit log (`persisted_records_page` of
`core/audit_store.py`).

Both are the page of `Lib.Keyset`: the groups by ascending `id`, the audit rows by
descending `seq`. The statements filter before they sort, so what is shown is a part
of the visible rows in their order (`Sorted.mergeSort_filter`).
-/
import Fathom.Audit.Store
import Fathom.Lib.Keyset
import Fathom.Lib.Sorted
import Fathom.Read.Duplicates

set_option autoImplicit false

namespace Fathom.Read

open Fathom.Auth (ScopeFilter)
open Fathom.Catalogue (DupGroup Tables)
open Fathom.Audit (AuditRow)

/-! ## The audit log -/

/-- The audit table: `seq` is its primary key. -/
structure AuditTable where
  rows : List AuditRow
  seq_key : (rows.map AuditRow.seq).Nodup

/-- `persisted_records_page`. -/
def persisted_records_page (table : AuditTable) (cursor : Option ℕ) (limit : ℕ) : List AuditRow × Option ℕ :=
  let rows := ((table.rows.filter fun r => cursor.all fun c => r.seq < c).mergeSort
    fun a b => b.seq ≤ a.seq).take (limit + 1)
  let page := rows.take limit
  (page, if limit < rows.length then page.getLast?.map AuditRow.seq else none)

/-! ## Sorted by a key -/

section

variable {ρ : Type} {key : ρ → ℕ} {rows : List ρ}

theorem ascending_mergeSort (hkey : (rows.map key).Nodup) :
    (rows.mergeSort fun a b => key a ≤ key b).Pairwise fun a b => key a < key b := by
  have hle := Sorted.pairwise_mergeSort_key key (· ≤ ·) rows
  have hne : (rows.mergeSort fun a b => key a ≤ key b).Pairwise fun a b => key a ≠ key b :=
    List.pairwise_map.mp (((List.mergeSort_perm rows _).map key).nodup_iff.mpr hkey)
  exact hle.imp₂ (fun _ _ hab hne => Nat.lt_of_le_of_ne hab hne) hne

theorem descending_mergeSort (hkey : (rows.map key).Nodup) :
    (rows.mergeSort fun a b => key b ≤ key a).Pairwise fun a b => key b < key a := by
  have hle := Sorted.pairwise_mergeSort_key key (fun m n => n ≤ m) rows
  have hne : (rows.mergeSort fun a b => key b ≤ key a).Pairwise fun a b => key a ≠ key b :=
    List.pairwise_map.mp (((List.mergeSort_perm rows _).map key).nodup_iff.mpr hkey)
  exact hle.imp₂ (fun _ _ hab hne => Nat.lt_of_le_of_ne hab hne.symm) hne

end

/-! ## The pages -/

/-- The groups a principal sees in the list. -/
def visible_groups (db : Tables) (scope : Option ScopeFilter) (volume_id : Option ℕ) : List DupGroup :=
  db.groups.filter (group_listed scope volume_id none)

theorem list_duplicate_groups_page (db : Tables) (scope : Option ScopeFilter) (volume_id cursor : Option ℕ) (limit : ℕ) :
    list_duplicate_groups db scope volume_id cursor limit =
      Keyset.page (· < ·) DupGroup.id ((visible_groups db scope volume_id).mergeSort fun g g' => g.id ≤ g'.id)
        limit cursor := by
  have hkey : ((visible_groups db scope volume_id).map DupGroup.id).Nodup :=
    db.groups_key.sublist (List.filter_sublist.map _)
  have hfilter : db.groups.filter (group_listed scope volume_id cursor) =
      (visible_groups db scope volume_id).filter (Keyset.behind (· < ·) DupGroup.id cursor) := by
    rw [visible_groups, List.filter_filter]
    refine List.filter_congr fun g _ => ?_
    rw [group_listed, group_listed, Option.all_none, Bool.true_and, Bool.and_assoc]
    rfl
  rw [list_duplicate_groups, hfilter, Sorted.mergeSort_filter (· ≤ ·) hkey]
  rfl

theorem persisted_records_page_page (table : AuditTable) (cursor : Option ℕ) (limit : ℕ) :
    persisted_records_page table cursor limit =
      Keyset.page (· > ·) AuditRow.seq (table.rows.mergeSort fun a b => b.seq ≤ a.seq) limit cursor := by
  have hsort := Sorted.mergeSort_filter (fun m n => n ≤ m) table.seq_key fun r => cursor.all fun c => decide (r.seq < c)
  rw [persisted_records_page, hsort]
  rfl

/-- **The pages of both lists are exact**: whoever follows the cursors from the first
page sees every visible group once, by ascending `id`, and every audit row once, by
descending `seq`, and is told so after as many requests as there are rows and one
more. -/
theorem pages_exact (db : Tables) (scope : Option ScopeFilter) (volume_id : Option ℕ) (audit : AuditTable)
    (limit : ℕ) (hlimit : 1 ≤ limit) :
    (∃ pages, Keyset.follow (fun cursor => list_duplicate_groups db scope volume_id cursor limit)
        ((visible_groups db scope volume_id).length + 1) none = some pages ∧
      pages.flatten.Perm (visible_groups db scope volume_id) ∧
      pages.flatten.Pairwise fun g g' => g.id < g'.id) ∧
    ∃ pages, Keyset.follow (fun cursor => persisted_records_page audit cursor limit)
        (audit.rows.length + 1) none = some pages ∧
      pages.flatten.Perm audit.rows ∧ pages.flatten.Pairwise fun a b => b.seq < a.seq := by
  have hgroups : ((visible_groups db scope volume_id).map DupGroup.id).Nodup :=
    db.groups_key.sublist (List.filter_sublist.map _)
  constructor
  · have hsorted := ascending_mergeSort hgroups
    obtain ⟨pages, hpages, hflat⟩ := Keyset.follow_page (· < ·) hlimit hsorted
    rw [List.length_mergeSort] at hpages
    refine ⟨pages, ?_, ?_, ?_⟩
    · rw [funext fun cursor => list_duplicate_groups_page db scope volume_id cursor limit]
      exact hpages
    · rw [hflat]
      exact List.mergeSort_perm _ _
    · rw [hflat]
      exact hsorted
  · have hsorted := descending_mergeSort audit.seq_key
    obtain ⟨pages, hpages, hflat⟩ := Keyset.follow_page (· > ·) hlimit hsorted
    rw [List.length_mergeSort] at hpages
    refine ⟨pages, ?_, ?_, ?_⟩
    · rw [funext fun cursor => persisted_records_page_page audit cursor limit]
      exact hpages
    · rw [hflat]
      exact List.mergeSort_perm _ _
    · rw [hflat]
      exact hsorted

/-- Two groups without members, the later one stored first. -/
def two_groups : Tables where
  hosts := []
  volumes := []
  entries := []
  groups := [⟨8, "9f", 3, 0, 0, .null, 11, "oldest copy", []⟩, ⟨5, "a0", 4, 0, 0, .null, 12, "oldest copy", []⟩]
  next_group_id := 9
  hosts_key := by decide
  entries_key := by decide
  groups_key := by decide
  groups_below := by simp
  entry_host := by simp
  member_entry := by simp

/-- Two rows of the audit log. -/
def two_audit_rows : AuditTable where
  rows := [⟨1, "t1", "op", "auth.login", "op", [], "ok", "", "h1"⟩, ⟨2, "t2", "op", "auth.logout", "op", [], "ok", "h1", "h2"⟩]
  seq_key := by decide

/-- Pages of one row: three requests at most for two rows. -/
theorem pages_exact_two :
    (∃ pages, Keyset.follow (fun cursor => list_duplicate_groups two_groups none none cursor 1)
        ((visible_groups two_groups none none).length + 1) none = some pages ∧
      pages.flatten.Perm (visible_groups two_groups none none) ∧
      pages.flatten.Pairwise fun g g' => g.id < g'.id) ∧
    ∃ pages, Keyset.follow (fun cursor => persisted_records_page two_audit_rows cursor 1)
        (two_audit_rows.rows.length + 1) none = some pages ∧
      pages.flatten.Perm two_audit_rows.rows ∧ pages.flatten.Pairwise fun a b => b.seq < a.seq :=
  pages_exact two_groups none none two_audit_rows 1 (Nat.le_refl 1)

end Fathom.Read
