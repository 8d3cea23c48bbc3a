/-
**What the sample of a comparison shows.**

The sample is filled from three queries, each with the room the ones before have left.
Together that is the first `MAX_ITEMS` of the actionable items, kind by kind and each kind
by path (`sample_items_eq`). So nothing in it is made up and it is never too long; what
can go wrong is at the two ends of the claim it makes for itself. The flag compares the
length with the cap, and cannot tell a sample that is full from one that is cut. And a
path that a side has twice, because a file was replaced in place, is shown twice.
-/
import Fathom.Lib.Sorted
import Fathom.Reconcile.Partition
import Mathlib.Data.String.Basic

set_option autoImplicit false

namespace Fathom.Reconcile

open Fathom.Ingest (Catalogue)
open Fathom.Auth (ScopeFilter)
open Join Classification

/-- How the database orders text: a total order. -/
structure Collation where
  le : String → String → Bool
  order : IsLinearOrder String fun a b => le a b = true

/-! ## The actionable items -/

section

variable (left right : List SideRow)

/-- The matched pairs whose content differs, or may. -/
def flagged_items : List ReconcileItem :=
  ((matched left right).filter fun row =>
    classify row.1 row.2 = diverged ∨ classify row.1 row.2 = size_match_unhashed).map flagged_item

/-- The files the comparison side lacks. -/
def comparison_items : List ReconcileItem := (missing left right).map missing_on_comparison_item

/-- The files the definitive side lacks. -/
def definitive_items : List ReconcileItem := (missing right left).map missing_on_definitive_item

/-- All there is to act on. -/
def actionable : List ReconcileItem :=
  flagged_items left right ++ comparison_items left right ++ definitive_items left right

/-- What a sample promises. -/
structure SampleExact (res : ReconcileResult) : Prop where
  shown : ∀ i ∈ res.items, i ∈ actionable left right ∧
    i.classification ∈ [diverged, size_match_unhashed, missing_on_comparison, missing_on_definitive]
  once : (res.items.map ReconcileItem.relpath).Nodup
  capped : res.items.length ≤ MAX_ITEMS
  truncated : res.truncated = true ↔ ∃ i, res.items.count i < (actionable left right).count i

end

section

variable {left right : List SideRow}

theorem classification_of_actionable {i : ReconcileItem} (h : i ∈ actionable left right) :
    i.classification ∈ [diverged, size_match_unhashed, missing_on_comparison, missing_on_definitive] := by
  rw [actionable, List.mem_append, List.mem_append] at h
  rcases h with (hflagged | hcomparison) | hdefinitive
  · obtain ⟨row, hrow, rfl⟩ := List.mem_map.mp hflagged
    have hclass := of_decide_eq_true (List.mem_filter.mp hrow).2
    rcases hclass with hclass | hclass
    · simp [flagged_item, hclass]
    · simp [flagged_item, hclass]
  · obtain ⟨row, _, rfl⟩ := List.mem_map.mp hcomparison
    simp [missing_on_comparison_item]
  · obtain ⟨row, _, rfl⟩ := List.mem_map.mp hdefinitive
    simp [missing_on_definitive_item]

variable (left right) in
/-- A path is in one kind: on both sides, on the left only, or on the right only. -/
theorem path_kinds (path : String) : (((flagged_items left right).map ReconcileItem.relpath).count path = 0 ∨
        ((comparison_items left right).map ReconcileItem.relpath).count path = 0 ∧
          ((definitive_items left right).map ReconcileItem.relpath).count path = 0) ∧
      (((comparison_items left right).map ReconcileItem.relpath).count path = 0 ∨
        ((definitive_items left right).map ReconcileItem.relpath).count path = 0) := by
  have hflagged : path ∈ (flagged_items left right).map ReconcileItem.relpath →
      (∃ l ∈ left, path = l.relpath) ∧ ∃ r ∈ right, path = r.relpath := by
    intro h
    obtain ⟨i, hi, rfl⟩ := List.mem_map.mp h
    obtain ⟨row, hrow, rfl⟩ := List.mem_map.mp hi
    obtain ⟨hl, hr, heq⟩ := mem_inner_join.mp (List.mem_filter.mp hrow).1
    exact ⟨⟨row.1, hl, rfl⟩, row.2, hr, heq⟩
  have hcomparison : path ∈ (comparison_items left right).map ReconcileItem.relpath →
      (∃ l ∈ left, path = l.relpath) ∧ ∀ r ∈ right, path ≠ r.relpath := by
    intro h
    obtain ⟨i, hi, rfl⟩ := List.mem_map.mp h
    obtain ⟨row, hrow, rfl⟩ := List.mem_map.mp hi
    obtain ⟨hl, hnone⟩ := mem_unmatched.mp hrow
    exact ⟨⟨row, hl, rfl⟩, hnone⟩
  have hdefinitive : path ∈ (definitive_items left right).map ReconcileItem.relpath →
      ∀ l ∈ left, path ≠ l.relpath := by
    intro h
    obtain ⟨i, hi, rfl⟩ := List.mem_map.mp h
    obtain ⟨row, hrow, rfl⟩ := List.mem_map.mp hi
    exact (mem_unmatched.mp hrow).2
  rw [List.count_eq_zero, List.count_eq_zero, List.count_eq_zero]
  constructor
  · by_cases h : path ∈ (flagged_items left right).map ReconcileItem.relpath
    · obtain ⟨⟨l, hl, hpl⟩, r, hr, hpr⟩ := hflagged h
      exact Or.inr ⟨fun hmem => (hcomparison hmem).2 r hr hpr, fun hmem => hdefinitive hmem l hl hpl⟩
    · exact Or.inl h
  · by_cases h : path ∈ (comparison_items left right).map ReconcileItem.relpath
    · obtain ⟨⟨l, hl, hpl⟩, -⟩ := hcomparison h
      exact Or.inr fun hmem => hdefinitive hmem l hl hpl
    · exact Or.inl h

end

/-! ## The sample is a first part -/

section

variable (collation : Collation) {left right : List SideRow}

/-- `ORDER BY relpath`. -/
def by_path (items : List ReconcileItem) : List ReconcileItem :=
  items.mergeSort fun i i' => collation.le i.relpath i'.relpath

/-- The actionable items in the order in which the sample takes them. -/
def ranked (left right : List SideRow) : List ReconcileItem :=
  by_path collation (flagged_items left right) ++ by_path collation (comparison_items left right) ++
    by_path collation (definitive_items left right)

/-- One more kind behind a sample that is a first part. -/
theorem fill_take (items more : List ReconcileItem) :
    fill collation.le (items.take MAX_ITEMS) more = (items ++ by_path collation more).take MAX_ITEMS := by
  rw [fill, List.take_append, List.length_take]
  split
  · rename_i hroom
    have hlen : items.length ≤ MAX_ITEMS := by omega
    rw [Nat.min_eq_right hlen]
    rfl
  · rename_i hfull
    rw [show MAX_ITEMS - items.length = 0 by omega, List.take_zero, List.append_nil]

/-- **The sample is the first `MAX_ITEMS` of the actionable items.** -/
theorem sample_items_eq : sample_items collation.le left right = (ranked collation left right).take MAX_ITEMS := by
  have hempty : ([] : List ReconcileItem) = List.take MAX_ITEMS [] := rfl
  rw [sample_items, hempty, fill_take, fill_take, fill_take, List.nil_append]
  rfl

variable (left right) in
theorem ranked_perm : (ranked collation left right).Perm (actionable left right) :=
  ((List.mergeSort_perm _ _).append (List.mergeSort_perm _ _)).append (List.mergeSort_perm _ _)

/-- The flag says that the sample is full; something is left out if there is more than
fits. -/
theorem left_out_iff :
    (∃ i, ((ranked collation left right).take MAX_ITEMS).count i < (actionable left right).count i) ↔
      MAX_ITEMS < (actionable left right).length := by
  have hperm := ranked_perm collation left right
  constructor
  · rintro ⟨i, hi⟩
    by_contra hshort
    rw [List.take_of_length_le (by rw [hperm.length_eq]; omega), hperm.count_eq] at hi
    exact Nat.lt_irrefl _ hi
  · intro hlong
    by_contra hall
    rw [not_exists] at hall
    have hsub : (actionable left right).Subperm ((ranked collation left right).take MAX_ITEMS) :=
      List.subperm_ext_iff.mpr fun i _ => Nat.not_lt.mp (hall i)
    have hle := hsub.length_le
    rw [List.length_take] at hle
    omega

/-! ## Exact samples -/

/-- In a kind behind `before` other items, no path that occurs twice is near enough to the
front to be shown twice. -/
def Uncrowded (before : ℕ) (kind : List ReconcileItem) : Prop :=
  ∀ path, 2 ≤ (kind.map ReconcileItem.relpath).count path →
    MAX_ITEMS ≤ before + Sorted.before ReconcileItem.relpath (fun a b => collation.le a b = true) kind path + 1

/-- The actionable items are not just as many as a sample holds, and no kind is crowded. -/
def Roomy (left right : List SideRow) : Prop :=
  (actionable left right).length ≠ MAX_ITEMS ∧ Uncrowded collation 0 (flagged_items left right) ∧
    Uncrowded collation (flagged_items left right).length (comparison_items left right) ∧
    Uncrowded collation ((flagged_items left right).length + (comparison_items left right).length)
      (definitive_items left right)

/-- How often a path is shown of one kind. -/
theorem count_by_path (kind : List ReconcileItem) (n : ℕ) (path : String) :
    (((by_path collation kind).take n).map ReconcileItem.relpath).count path =
      min (n - Sorted.before ReconcileItem.relpath (fun a b => collation.le a b = true) kind path)
        ((kind.map ReconcileItem.relpath).count path) := by
  have horder := collation.order
  have hperm : (by_path collation kind).Perm kind := List.mergeSort_perm _ _
  have hsorted : (by_path collation kind).Pairwise fun i i' => collation.le i.relpath i'.relpath = true := by
    have h := Sorted.pairwise_mergeSort_key ReconcileItem.relpath (fun a b => collation.le a b = true) kind
    simpa [by_path] using h
  rw [Sorted.count_take_sorted (fun a b => collation.le a b = true) hsorted, (hperm.map _).count_eq,
    Sorted.before, hperm.countP_eq]
  rfl

theorem nodup_sample_iff : (((ranked collation left right).take MAX_ITEMS).map ReconcileItem.relpath).Nodup ↔
      Uncrowded collation 0 (flagged_items left right) ∧
        Uncrowded collation (flagged_items left right).length (comparison_items left right) ∧
        Uncrowded collation ((flagged_items left right).length + (comparison_items left right).length)
          (definitive_items left right) := by
  have hlen : ∀ kind, (by_path collation kind).length = kind.length := fun kind => List.length_mergeSort _
  rw [List.nodup_iff_count_le_one, Uncrowded, Uncrowded, Uncrowded, ← forall_and, ← forall_and]
  refine forall_congr' fun path => ?_
  have hkinds := path_kinds left right path
  rw [ranked, List.take_append, List.take_append, List.map_append, List.map_append, List.count_append,
    List.count_append, List.length_append, hlen, hlen, count_by_path, count_by_path, count_by_path]
  generalize ((flagged_items left right).map ReconcileItem.relpath).count path = f at *
  generalize ((comparison_items left right).map ReconcileItem.relpath).count path = c at *
  generalize ((definitive_items left right).map ReconcileItem.relpath).count path = d at *
  rw [Nat.zero_add]
  rcases hkinds with ⟨rfl | ⟨rfl, rfl⟩, hcd⟩
  · rcases hcd with rfl | rfl
    · omega
    · omega
  · omega

end

section

variable (collation : Collation) (cat : Catalogue) (definitive_volume_id : ℕ) (definitive_root : String)
  (comparison_volume_id : ℕ) (comparison_root : String) (scope : Option ScopeFilter)

/-- A sample of two sides is exact unless the actionable items are as many as it holds, or
one path fills two of its places. -/
theorem exact_iff {left right : List SideRow} {res : ReconcileResult}
    (hitems : res.items = sample_items collation.le left right)
    (htruncated : res.truncated = decide (MAX_ITEMS ≤ res.items.length)) :
    SampleExact left right res ↔ Roomy collation left right := by
  have hperm := ranked_perm collation left right
  rw [sample_items_eq] at hitems
  have hflag : res.truncated = true ↔ MAX_ITEMS ≤ (actionable left right).length := by
    rw [htruncated, decide_eq_true_eq, hitems, List.length_take, hperm.length_eq]
    omega
  rw [Roomy, ← nodup_sample_iff, ← hitems]
  constructor
  · intro h
    refine ⟨fun hfull => ?_, h.once⟩
    -- just full: the flag is set and nothing is missing
    have hout := h.truncated.mp (hflag.mpr (by omega))
    rw [hitems, left_out_iff] at hout
    omega
  · rintro ⟨hfull, honce⟩
    refine ⟨fun i hi => ?_, honce, ?_, ?_⟩
    · have hmem : i ∈ actionable left right :=
        hperm.mem_iff.mp (List.mem_of_mem_take (hitems ▸ hi))
      exact ⟨hmem, classification_of_actionable hmem⟩
    · rw [hitems, List.length_take]
      exact Nat.min_le_left _ _
    · rw [hflag, hitems, left_out_iff]
      omega

/-- **When the sample of a comparison is exact.** -/
theorem sample_exact_iff :
    SampleExact (side cat definitive_volume_id definitive_root scope) (side cat comparison_volume_id comparison_root scope)
        (compare_inner collation.le cat definitive_volume_id definitive_root comparison_volume_id comparison_root scope) ↔
      Roomy collation (side cat definitive_volume_id definitive_root scope)
        (side cat comparison_volume_id comparison_root scope) :=
  exact_iff collation rfl rfl

end

/-! ## A sample that is just full -/

/-- The `n`-th of some files with one-character names. -/
def nth_file (n : ℕ) : Ingest.FsEntryRow := plain_file 1 (String.ofList ['/', 'a', '/', Char.ofNat (0x4e00 + n)]) n 10

/-- As many files as a sample holds. -/
def full_table : Table Ingest.FsEntryRow.key where
  rows := (List.range MAX_ITEMS).map nth_file
  unique := by
    rw [List.map_map]
    refine List.Nodup.map (fun m n h => ?_) List.nodup_range
    simpa [nth_file, plain_file, Ingest.FsEntryRow.key, Ingest.FsEntryRow.identity] using h

theorem of_mem_full_table {r : Ingest.FsEntryRow} (h : r ∈ full_table.rows) : ∃ n, r = nth_file n := by
  simp only [full_table, List.mem_map] at h
  obtain ⟨n, -, rfl⟩ := h
  exact ⟨n, rfl⟩

/-- The files are under `/a`, and there are none under `/b`. -/
def full_catalogue : Catalogue where
  hosts := .single _ ⟨1, "h", none, none, "fp", none, none⟩
  volumes := two_volumes
  snapshots := .empty _
  fs_entry := full_table
  change_log := []
  entry_host := fun r hr => by
    obtain ⟨n, rfl⟩ := of_mem_full_table hr
    exact List.mem_cons_self
  entry_volume := fun r hr => by
    obtain ⟨n, rfl⟩ := of_mem_full_table hr
    exact List.mem_cons_self

/-- Against an empty side every file is missing. -/
theorem length_actionable_nil (left : List SideRow) : (actionable left []).length = left.length := by
  have hmatched : matched left [] = [] := by
    rw [matched, inner_join, List.flatMap_eq_nil_iff]
    intro l _
    rfl
  have hmissing : missing left [] = left := by
    rw [missing, unmatched_eq]
    exact List.filter_eq_self.mpr fun l _ => rfl
  have hnone : missing [] left = [] := rfl
  rw [actionable, flagged_items, comparison_items, definitive_items, hmatched, hmissing, hnone]
  simp

theorem of_mem_join_full {j : Read.Joined} (h : j ∈ Read.join_volumes full_catalogue) : ∃ n, j.1 = nth_file n := by
  obtain ⟨r, hr, hj⟩ := List.mem_flatMap.mp h
  obtain ⟨v, -, rfl⟩ := List.mem_map.mp hj
  exact of_mem_full_table hr

theorem full_left : (side full_catalogue 1 "/a" none).length = MAX_ITEMS := by
  have hall : side_entries full_catalogue 1 "/a" none = Read.join_volumes full_catalogue := by
    refine List.filter_eq_self.mpr fun j hj => ?_
    obtain ⟨n, hn⟩ := of_mem_join_full hj
    have hlike : Like.like Read.LIKE_ESCAPE (Read.escape_like (base "/a") ++ "/%".toList) j.1.path.toList = true := by
      refine Read.like_under.mpr ⟨[Char.ofNat (0x4e00 + n)], ?_⟩
      rw [hn]
      exact (String.toList_ofList (l := ['/', 'a', '/', Char.ofNat (0x4e00 + n)])).symm
    rw [on_side, hlike, hn]
    rfl
  rw [side, List.length_map, hall]
  decide +kernel

theorem full_right : side full_catalogue 2 "/b" none = [] := by
  have hnone : side_entries full_catalogue 2 "/b" none = [] := by
    refine List.filter_eq_nil_iff.mpr fun j hj hon => ?_
    obtain ⟨n, hn⟩ := of_mem_join_full hj
    rw [on_side, hn] at hon
    exact absurd hon (by simp [nth_file, plain_file])
  rw [side, hnone, List.map_nil]

/-- Five hundred files are missing, all of them are shown, and the sample calls itself
truncated. -/
theorem full_sample_flagged :
    ¬ ∀ (collation : Collation) (cat : Catalogue) (definitive_volume_id : ℕ) (definitive_root : String)
      (comparison_volume_id : ℕ) (comparison_root : String) (scope : Option ScopeFilter),
      SampleExact (side cat definitive_volume_id definitive_root scope)
        (side cat comparison_volume_id comparison_root scope)
        (compare_inner collation.le cat definitive_volume_id definitive_root comparison_volume_id comparison_root
          scope) := by
  intro h
  have hlength : (actionable (side full_catalogue 1 "/a" none) (side full_catalogue 2 "/b" none)).length = MAX_ITEMS := by
    rw [full_right, length_actionable_nil, full_left]
  have horder : IsLinearOrder String fun a b => decide (a ≤ b) = true := by
    simpa using (inferInstance : IsLinearOrder String (· ≤ ·))
  have hexact := h ⟨fun a b => decide (a ≤ b), horder⟩ full_catalogue 1 "/a" 2 "/b" none
  exact ((exact_iff _ rfl rfl).mp hexact).1 hlength

end Fathom.Reconcile
