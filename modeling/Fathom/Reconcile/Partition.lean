/-
**What the counts of a comparison count.**

The classes are meant to partition the distinct relative paths: each path is in one
class, and the sum over the classes is the number of paths. The queries count pairs and
rows. A path that a side has `m` times and the other `n` times is counted `m * n` times,
and where only one side has it, as often as it has it; so the counts are right exactly
when no side selects two rows of one path. The sides are interchangeable either way.
-/
import Fathom.Reconcile.Service

set_option autoImplicit false

namespace Fathom.Reconcile

open Fathom.Ingest (Catalogue)
open Fathom.Auth (ScopeFilter)
open Fathom.Read
open Join Classification

/-! ## What is promised -/

/-- The distinct relative paths of two sides. -/
def relpaths (left right : List SideRow) : List String :=
  (left.map SideRow.relpath ++ right.map SideRow.relpath).dedup

/-- One class for each path, the one the rows of the path are in, and for each class the
number of its paths. -/
structure Partitions (left right : List SideRow) (res : ReconcileResult) (cls : String → Classification) :
    Prop where
  both : ∀ l ∈ left, ∀ r ∈ right, l.relpath = r.relpath → cls l.relpath = classify l r
  left_only : ∀ l ∈ left, (∀ r ∈ right, l.relpath ≠ r.relpath) → cls l.relpath = missing_on_comparison
  right_only : ∀ r ∈ right, (∀ l ∈ left, r.relpath ≠ l.relpath) → cls r.relpath = missing_on_definitive
  counts : ∀ c, res.counts c = ((relpaths left right).filter fun path => cls path = c).length
  considered : res.considered = (relpaths left right).length

/-- The class seen from the other side. -/
def Classification.mirror : Classification → Classification
  | missing_on_comparison => missing_on_definitive
  | missing_on_definitive => missing_on_comparison
  | c => c

/-- The comparison of the sides exchanged. -/
def Mirrors (res swapped : ReconcileResult) : Prop :=
  ∀ c, swapped.counts c = res.counts c.mirror

/-- No two of some entries have the same path. -/
def DistinctPaths (entries : List Joined) : Prop :=
  entries.Pairwise fun j j' => j.1.path ≠ j'.1.path

/-! ## The paths of a side -/

theorem path_of_on_side {volume_id : ℕ} {root : String} {scope : Option ScopeFilter} {j : Joined}
    (h : on_side volume_id root scope j = true) :
    j.1.path.toList = base root ++ '/' :: j.1.path.toList.drop ((base root).length + 1) := by
  unfold on_side at h
  rw [Bool.and_eq_true, Bool.and_eq_true] at h
  obtain ⟨rest, hrest⟩ := like_under.mp h.1.2
  rw [← hrest, List.append_assoc]
  unfold base
  rw [← List.drop_drop, List.drop_left]
  rfl

/-- Below one root the relative path tells the paths apart. -/
theorem relpath_eq_iff {volume_id : ℕ} {root : String} {scope : Option ScopeFilter} {j j' : Joined}
    (h : on_side volume_id root scope j = true) (h' : on_side volume_id root scope j' = true) :
    (side_row root j).relpath = (side_row root j').relpath ↔ j.1.path = j'.1.path := by
  unfold side_row
  dsimp only
  rw [String.ofList_inj]
  constructor
  · intro heq
    apply String.toList_inj.mp
    rw [path_of_on_side h, path_of_on_side h', heq]
  · intro heq
    rw [heq]

theorem nodup_relpaths_iff (cat : Catalogue) (volume_id : ℕ) (root : String) (scope : Option ScopeFilter) :
    ((side cat volume_id root scope).map SideRow.relpath).Nodup ↔
      DistinctPaths (side_entries cat volume_id root scope) := by
  unfold side DistinctPaths
  rw [List.map_map, List.Nodup, List.pairwise_map]
  refine List.Pairwise.iff_of_mem fun {j j'} hj hj' => ?_
  exact not_congr (relpath_eq_iff (List.mem_filter.mp hj).2 (List.mem_filter.mp hj').2)

/-! ## The counts -/

section

variable {left right : List SideRow}

theorem classify_comm (l r : SideRow) : classify r l = classify l r := by
  unfold classify
  rw [Bool.and_comm r.full_hash.isSome, Bool.beq_comm (a := r.full_hash), Bool.beq_comm (a := r.mtime),
    bne_comm (a := r.full_hash), bne_comm (a := r.size)]

theorem classify_not_missing (l r : SideRow) :
    classify l r ≠ missing_on_comparison ∧ classify l r ≠ missing_on_definitive := by
  unfold classify
  dsimp only
  split_ifs <;> decide

/-- Assigning the groups one by one. -/
theorem foldl_update (f : Classification → ℕ) (classes : List Classification) (counts : Classification → ℕ)
    (c : Classification) :
    (classes.map fun cls => (cls, f cls)).foldl (fun counts row => Function.update counts row.1 row.2) counts c
      = if c ∈ classes then f c else counts c := by
  induction classes generalizing counts with
  | nil =>
      rw [if_neg List.not_mem_nil]
      rfl
  | cons cls classes ih =>
      rw [List.map_cons, List.foldl_cons, ih]
      by_cases hmem : c ∈ classes
      · rw [if_pos hmem, if_pos (List.mem_cons_of_mem _ hmem)]
      · rw [if_neg hmem]
        by_cases hc : c = cls
        · rw [if_pos (by rw [hc]; exact List.mem_cons_self), hc]
          exact Function.update_self _ _ _
        · rw [if_neg (fun h => (List.mem_cons.mp h).elim hc hmem)]
          exact Function.update_of_ne hc _ _

/-- The classes of the matched pairs. -/
def pair_classes (left right : List SideRow) : List Classification :=
  (matched left right).map fun row => classify row.1 row.2

theorem class_counts_comparison : class_counts left right missing_on_comparison = (missing left right).length := by
  unfold class_counts
  rw [Function.update_of_ne (by decide), Function.update_self]

theorem class_counts_definitive : class_counts left right missing_on_definitive = (missing right left).length := by
  unfold class_counts
  rw [Function.update_self]

theorem class_counts_matched {c : Classification} (hcomparison : c ≠ missing_on_comparison)
    (hdefinitive : c ≠ missing_on_definitive) : class_counts left right c = (pair_classes left right).count c := by
  unfold class_counts matched_q
  dsimp only
  rw [Function.update_of_ne hdefinitive, Function.update_of_ne hcomparison, foldl_update]
  -- a class without a pair has no group and keeps its zero
  split_ifs with hmem
  · rfl
  · rw [List.mem_dedup] at hmem
    exact (List.count_eq_zero.mpr hmem).symm

theorem missing_not_mem_pair_classes :
    missing_on_comparison ∉ pair_classes left right ∧ missing_on_definitive ∉ pair_classes left right := by
  unfold pair_classes
  constructor
  · intro h
    obtain ⟨row, _, hrow⟩ := List.mem_map.mp h
    exact (classify_not_missing row.1 row.2).1 hrow
  · intro h
    obtain ⟨row, _, hrow⟩ := List.mem_map.mp h
    exact (classify_not_missing row.1 row.2).2 hrow

/-- The four classes of a pair are all there are. -/
theorem sum_matched {classes : List Classification} (hcomparison : missing_on_comparison ∉ classes)
    (hdefinitive : missing_on_definitive ∉ classes) :
    classes.count identical + classes.count content_same_meta_diff + classes.count diverged
      + classes.count size_match_unhashed = classes.length := by
  induction classes with
  | nil => rfl
  | cons c classes ih =>
      have hrest := ih (fun h => hcomparison (List.mem_cons_of_mem _ h))
        (fun h => hdefinitive (List.mem_cons_of_mem _ h))
      rw [List.length_cons, ← hrest]
      simp only [List.count_cons]
      cases c with
      | missing_on_comparison => exact absurd List.mem_cons_self hcomparison
      | missing_on_definitive => exact absurd List.mem_cons_self hdefinitive
      | identical => simp; omega
      | content_same_meta_diff => simp; omega
      | diverged => simp; omega
      | size_match_unhashed => simp; omega

/-- The sum of the counts, as the length of the three queries. -/
theorem sum_class_counts : (ALL_CLASSES.map (class_counts left right)).sum
      = (outer_keys SideRow.relpath SideRow.relpath left right).length := by
  obtain ⟨hcomparison, hdefinitive⟩ := @missing_not_mem_pair_classes left right
  have hsum := sum_matched hcomparison hdefinitive
  have hlen : (pair_classes left right).length = (matched left right).length := List.length_map _
  unfold ALL_CLASSES outer_keys
  simp only [List.map_cons, List.map_nil, List.sum_cons, List.sum_nil, List.length_append, List.length_map]
  rw [class_counts_matched (by decide) (by decide), class_counts_matched (by decide) (by decide),
    class_counts_matched (by decide) (by decide), class_counts_matched (by decide) (by decide),
    class_counts_comparison, class_counts_definitive]
  change _ = (matched left right).length + (missing left right).length + (missing right left).length
  omega

/-! ## The two sides exchanged -/

theorem pair_classes_swap : (pair_classes right left).Perm (pair_classes left right) := by
  have hswap : pair_classes right left
      = ((matched right left).map Prod.swap).map fun row => classify row.1 row.2 := by
    unfold pair_classes
    rw [List.map_map]
    refine List.map_congr_left fun row _ => ?_
    exact (classify_comm row.1 row.2).symm
  rw [hswap]
  exact inner_join_swap.map _

theorem class_counts_swap {c : Classification} (hcomparison : c ≠ missing_on_comparison)
    (hdefinitive : c ≠ missing_on_definitive) : class_counts right left c = class_counts left right c := by
  rw [class_counts_matched hcomparison hdefinitive, class_counts_matched hcomparison hdefinitive]
  exact pair_classes_swap.count_eq c

/-- **The mirror**: it holds whatever the sides have twice. -/
theorem class_counts_mirror (c : Classification) : class_counts right left c = class_counts left right c.mirror := by
  cases c with
  | missing_on_comparison => exact class_counts_comparison.trans class_counts_definitive.symm
  | missing_on_definitive => exact class_counts_definitive.trans class_counts_comparison.symm
  | identical => exact class_counts_swap (by decide) (by decide)
  | content_same_meta_diff => exact class_counts_swap (by decide) (by decide)
  | diverged => exact class_counts_swap (by decide) (by decide)
  | size_match_unhashed => exact class_counts_swap (by decide) (by decide)

/-! ## One class a path -/

/-- The class of a path, from the first rows that have it. -/
def class_of (left right : List SideRow) (path : String) : Classification :=
  match left.find? fun l => l.relpath = path, right.find? fun r => r.relpath = path with
  | some l, some r => classify l r
  | some _, none => missing_on_comparison
  | none, _ => missing_on_definitive

/-- Where no path occurs twice, the first row of a path is the row. -/
theorem find_of_nodup {rows : List SideRow} (hnodup : (rows.map SideRow.relpath).Nodup) {row : SideRow}
    (hrow : row ∈ rows) : (rows.find? fun r => r.relpath = row.relpath) = some row := by
  cases hfind : rows.find? fun r => r.relpath = row.relpath with
  | none =>
      have hnone := List.find?_eq_none.mp hfind row hrow
      exact absurd (decide_eq_true rfl) hnone
  | some other =>
      have hsame : other.relpath = row.relpath := by simpa using List.find?_some hfind
      rw [List.inj_on_of_nodup_map hnodup (List.mem_of_find?_eq_some hfind) hrow hsame]

theorem find_of_absent {rows : List SideRow} {path : String} (h : ∀ r ∈ rows, path ≠ r.relpath) :
    (rows.find? fun r => r.relpath = path) = none := by
  rw [List.find?_eq_none]
  intro r hr heq
  exact h r hr (of_decide_eq_true heq).symm

theorem class_of_both (hleft : (left.map SideRow.relpath).Nodup) (hright : (right.map SideRow.relpath).Nodup)
    {l r : SideRow} (hl : l ∈ left) (hr : r ∈ right) (heq : l.relpath = r.relpath) :
    class_of left right l.relpath = classify l r := by
  unfold class_of
  rw [find_of_nodup hleft hl, heq, find_of_nodup hright hr]

theorem class_of_left_only (hleft : (left.map SideRow.relpath).Nodup) {l : SideRow} (hl : l ∈ left)
    (h : ∀ r ∈ right, l.relpath ≠ r.relpath) : class_of left right l.relpath = missing_on_comparison := by
  unfold class_of
  rw [find_of_nodup hleft hl, find_of_absent h]

theorem class_of_right_only {r : SideRow} (h : ∀ l ∈ left, r.relpath ≠ l.relpath) :
    class_of left right r.relpath = missing_on_definitive := by
  unfold class_of
  rw [find_of_absent h]

/-- Rows whose paths are all in one class. -/
theorem countP_class {rows : List SideRow} {cls : String → Classification} {k : Classification}
    (h : ∀ row ∈ rows, cls row.relpath = k) (c : Classification) :
    (rows.map SideRow.relpath).countP (fun path => cls path = c) = if k = c then rows.length else 0 := by
  rw [List.countP_map]
  by_cases hk : k = c
  · rw [if_pos hk, List.countP_eq_length]
    intro row hrow
    exact decide_eq_true ((h row hrow).trans hk)
  · rw [if_neg hk, List.countP_eq_zero]
    intro row hrow heq
    exact hk ((h row hrow).symm.trans (of_decide_eq_true heq))

/-- The paths of the three queries that are in a class are as many as its count. -/
theorem count_outer_keys_class (hleft : (left.map SideRow.relpath).Nodup)
    (hright : (right.map SideRow.relpath).Nodup) (c : Classification) :
    (outer_keys SideRow.relpath SideRow.relpath left right).countP (fun path => class_of left right path = c)
      = class_counts left right c := by
  have hmatched : ((matched left right).map fun row => row.1.relpath).countP
      (fun path => class_of left right path = c) = (pair_classes left right).count c := by
    unfold pair_classes
    rw [List.count, List.countP_map, List.countP_map]
    refine List.countP_congr fun row hrow => ?_
    obtain ⟨hl, hr, heq⟩ := mem_inner_join.mp hrow
    rw [Function.comp_apply, Function.comp_apply, class_of_both hleft hright hl hr heq, decide_eq_true_eq,
      beq_iff_eq]
  have hcomparison := @countP_class (missing left right) (class_of left right) _
    (fun l hl => class_of_left_only hleft (mem_unmatched.mp hl).1 (mem_unmatched.mp hl).2) c
  have hdefinitive := @countP_class (missing right left) (class_of left right) _
    (fun r hr => class_of_right_only (mem_unmatched.mp hr).2) c
  obtain ⟨hno, hno'⟩ := @missing_not_mem_pair_classes left right
  unfold outer_keys
  rw [List.countP_append, List.countP_append]
  change ((matched left right).map fun row => row.1.relpath).countP _
    + ((missing left right).map SideRow.relpath).countP _
    + ((missing right left).map SideRow.relpath).countP _ = _
  rw [hmatched, hcomparison, hdefinitive]
  by_cases hc : missing_on_comparison = c
  · rw [← hc, List.count_eq_zero.mpr hno, if_pos rfl, if_neg (by decide), class_counts_comparison]
    omega
  · by_cases hc' : missing_on_definitive = c
    · rw [← hc', List.count_eq_zero.mpr hno', if_neg (by decide), if_pos rfl, class_counts_definitive]
      omega
    · rw [if_neg hc, if_neg hc', class_counts_matched (Ne.symm hc) (Ne.symm hc')]
      omega

end

/-! ## Faithful comparisons -/

section

variable (collation : String → String → Bool) (cat : Catalogue) (definitive_volume_id : ℕ)
  (definitive_root : String) (comparison_volume_id : ℕ) (comparison_root : String) (scope : Option ScopeFilter)

/-- The comparison partitions the paths under its roots, and the other way round it is its mirror. -/
def Faithful : Prop :=
  (∃ cls, Partitions (side cat definitive_volume_id definitive_root scope)
      (side cat comparison_volume_id comparison_root scope)
      (compare_inner collation cat definitive_volume_id definitive_root comparison_volume_id comparison_root scope)
      cls) ∧
    Mirrors
      (compare_inner collation cat definitive_volume_id definitive_root comparison_volume_id comparison_root scope)
      (compare_inner collation cat comparison_volume_id comparison_root definitive_volume_id definitive_root scope)

/-- **The counts of a comparison are right exactly when no side selects a path twice.** -/
theorem compare_faithful_iff :
    Faithful collation cat definitive_volume_id definitive_root comparison_volume_id comparison_root scope ↔
      DistinctPaths (side_entries cat definitive_volume_id definitive_root scope) ∧
        DistinctPaths (side_entries cat comparison_volume_id comparison_root scope) := by
  rw [← nodup_relpaths_iff, ← nodup_relpaths_iff]
  constructor
  · rintro ⟨⟨cls, hpartitions⟩, _⟩
    -- the sum alone tells: it is the number of pairs and rows
    have hconsidered := hpartitions.considered
    unfold compare_inner relpaths at hconsidered
    dsimp only at hconsidered
    rw [sum_class_counts] at hconsidered
    exact length_outer_keys_iff.mp hconsidered
  · rintro ⟨hleft, hright⟩
    have hperm := outer_keys_perm hleft hright
    refine ⟨⟨class_of (side cat definitive_volume_id definitive_root scope)
      (side cat comparison_volume_id comparison_root scope), ?_⟩, fun c => class_counts_mirror c⟩
    constructor
    · intro l hl r hr heq
      exact class_of_both hleft hright hl hr heq
    · intro l hl h
      exact class_of_left_only hleft hl h
    · intro r _ h
      exact class_of_right_only h
    · intro c
      rw [← List.countP_eq_length_filter]
      exact (count_outer_keys_class hleft hright c).symm.trans (hperm.countP_eq _)
    · exact sum_class_counts.trans hperm.length_eq

end

/-! ## A file replaced in place -/

/-- A volume of a host. -/
def data_volume (id : ℕ) (mountpoint : String) : Ingest.Volume where
  id := id
  host_id := 1
  mountpoint := mountpoint
  display_name := none
  kind := "data"
  fs_type := "zfs"
  device := ""
  transport := "sata"
  raid_role := none
  pool := none
  dataset := none
  total := 0
  used := 0
  free := 0
  change_log_enabled := true
  updated_at := 0

def two_volumes : Table Ingest.Volume.location where
  rows := [data_volume 1 "/a", data_volume 2 "/b"]
  unique := by decide

/-- A file, at the root of its volume. -/
def plain_file (volume_id : ℕ) (path : String) (inode : Int) (size : ℕ) : Ingest.FsEntryRow where
  host_id := 1
  volume_id := volume_id
  parent_id := none
  name := "x"
  path := path
  depth := 1
  is_dir := false
  is_symlink := false
  size_logical := size
  size_on_disk := size
  mtime := 0
  ctime := 0
  uid := 0
  gid := 0
  inode := inode
  dev := 1
  flags := []
  last_seen_snapshot_id := none
  present := true
  removed_at := none
  partial_hash := none
  full_hash := none
  hashed_at := none
  provider_hash := none
  provider_hash_algo := none

/-- `/a/x` has been replaced: the row of the old inode is still present beside the new one. -/
def replaced_catalogue : Catalogue where
  hosts := .single _ ⟨1, "h", none, none, "fp", none, none⟩
  volumes := two_volumes
  snapshots := .empty _
  fs_entry := ⟨[plain_file 1 "/a/x" 2 10, plain_file 1 "/a/x" 3 20, plain_file 2 "/b/x" 2 20], by decide⟩
  change_log := []
  entry_host := by decide
  entry_volume := by decide

/-- One path in two classes, counted twice. -/
theorem replaced_file_counted_twice :
    let left := side replaced_catalogue 1 "/a" none
    let right := side replaced_catalogue 2 "/b" none
    let res := compare_inner (fun _ _ => true) replaced_catalogue 1 "/a" 2 "/b" none
    relpaths left right = ["x"] ∧ res.counts diverged = 1 ∧ res.counts size_match_unhashed = 1 ∧
      res.considered = 2 ∧ ¬ Faithful (fun _ _ => true) replaced_catalogue 1 "/a" 2 "/b" none := by
  have hpaths : relpaths (side replaced_catalogue 1 "/a" none) (side replaced_catalogue 2 "/b" none) = ["x"] := by
    decide
  have hconsidered : (compare_inner (fun _ _ => true) replaced_catalogue 1 "/a" 2 "/b" none).considered = 2 := by
    decide
  refine ⟨hpaths, by decide, by decide, hconsidered, ?_⟩
  rintro ⟨⟨cls, hpartitions⟩, _⟩
  have hsum := hpartitions.considered
  rw [hpaths, hconsidered] at hsum
  exact absurd hsum (by decide)

end Fathom.Reconcile
