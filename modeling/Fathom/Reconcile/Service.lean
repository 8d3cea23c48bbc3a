/-
**Cross-host reconciliation** (`core/reconcile/service.py`).

The files under two roots are matched by their path below each root. Both sides are a
selection of the catalogue; the classes are counted by three queries over their joins, a
sample is taken by three more. The queries read one state of the catalogue. How the
database orders paths is a parameter, and so is whether it cancels the comparison, which
depends on how long it runs.
-/
import Fathom.Lib.Join
import Fathom.Read.Search
import Mathlib.Logic.Function.Basic

set_option autoImplicit false

namespace Fathom.Reconcile

open Fathom.Ingest (Catalogue FsEntryRow Volume)
open Fathom.Auth (ScopeFilter)
open Fathom.Read
open Join

def MAX_SIDE_ENTRIES : ℕ := 2000000

/-- The classification labels. -/
inductive Classification where
  | identical
  | content_same_meta_diff
  | diverged
  | size_match_unhashed
  | missing_on_comparison
  | missing_on_definitive
  deriving DecidableEq, Repr

open Classification

def ALL_CLASSES : List Classification :=
  [identical, content_same_meta_diff, diverged, size_match_unhashed, missing_on_comparison,
    missing_on_definitive]

def MAX_ITEMS : ℕ := 500

/-- The refusals: `ReconcileTooLargeError` with its saturating counts, and
`ReconcileTimeoutError`. -/
inductive ReconcileError where
  | too_large (definitive_count comparison_count cap : ℕ)
  | timeout
  deriving DecidableEq, Repr

/-- `ReconcileItem`. -/
structure ReconcileItem where
  relpath : String
  classification : Classification
  definitive_size : Option ℕ
  comparison_size : Option ℕ
  definitive_hash : Option String
  comparison_hash : Option String
  deriving DecidableEq, Repr

/-- `ReconcileResult`. -/
structure ReconcileResult where
  definitive_volume_id : ℕ
  definitive_root : String
  comparison_volume_id : ℕ
  comparison_root : String
  counts : Classification → ℕ
  considered : ℕ
  items : List ReconcileItem
  truncated : Bool

/-! ## A side -/

/-- The columns of a side. -/
structure SideRow where
  relpath : String
  size : ℕ
  mtime : ℚ
  full_hash : Option String
  deriving DecidableEq

/-- `root.rstrip("/")`. -/
def base (root : String) : List Char := rstrip root.toList

/-- The conditions of `_side`. -/
def on_side (volume_id : ℕ) (root : String) (scope : Option ScopeFilter) (j : Joined) : Bool :=
  let like := escape_like (base root) ++ "/%".toList
  j.1.volume_id = volume_id && !j.1.is_dir && j.1.present &&
    Like.like LIKE_ESCAPE like j.1.path.toList && in_scope scope joined_columns j

/-- The rows of the catalogue `_side` selects. -/
def side_entries (cat : Catalogue) (volume_id : ℕ) (root : String) (scope : Option ScopeFilter) :
    List Joined :=
  (join_volumes cat).filter (on_side volume_id root scope)

/-- The row of a side: `substr(path, len(base) + 2)` counts from one. -/
def side_row (root : String) (j : Joined) : SideRow where
  relpath := String.ofList (j.1.path.toList.drop ((base root).length + 1))
  size := j.1.size_logical
  mtime := j.1.mtime
  full_hash := j.1.full_hash

/-- `_side`. -/
def side (cat : Catalogue) (volume_id : ℕ) (root : String) (scope : Option ScopeFilter) : List SideRow :=
  (side_entries cat volume_id root scope).map (side_row root)

/-- `_count_side_capped`. -/
def count_side_capped (cat : Catalogue) (volume_id : ℕ) (root : String) (scope : Option ScopeFilter)
    (cap : ℕ) : ℕ :=
  ((side_entries cat volume_id root scope).take (cap + 1)).length

/-! ## The classes -/

/-- The class of a matched pair: the `CASE`, whose comparisons of hashes are of two that
are there. -/
def classify (left right : SideRow) : Classification :=
  let both_hashed := left.full_hash.isSome && right.full_hash.isSome
  if both_hashed && left.full_hash == right.full_hash && left.mtime == right.mtime then identical
  else if both_hashed && left.full_hash == right.full_hash then content_same_meta_diff
  else if both_hashed && left.full_hash != right.full_hash then diverged
  else if left.size != right.size then diverged
  else size_match_unhashed

/-- `left.join(right, left.c.relpath == right.c.relpath)`. -/
def matched (left right : List SideRow) : List (SideRow × SideRow) :=
  inner_join SideRow.relpath SideRow.relpath left right

/-- The rows of a side beside which the outer join has a null. -/
def missing (left right : List SideRow) : List SideRow :=
  unmatched SideRow.relpath SideRow.relpath left right

/-- `SELECT cls, count(*) … GROUP BY cls`, of the matched pairs. -/
def matched_q (left right : List SideRow) : List (Classification × ℕ) :=
  let classes := (matched left right).map fun row => classify row.1 row.2
  classes.dedup.map fun cls => (cls, classes.count cls)

/-- `counts`: zeros, the groups of the matched pairs, then the missing ones. -/
def class_counts (left right : List SideRow) : Classification → ℕ :=
  let counts := (matched_q left right).foldl (fun counts row => Function.update counts row.1 row.2) fun _ => 0
  let counts := Function.update counts missing_on_comparison (missing left right).length
  Function.update counts missing_on_definitive (missing right left).length

/-! ## The sample -/

def flagged_item (row : SideRow × SideRow) : ReconcileItem where
  relpath := row.1.relpath
  classification := classify row.1 row.2
  definitive_size := some row.1.size
  comparison_size := some row.2.size
  definitive_hash := row.1.full_hash
  comparison_hash := row.2.full_hash

def missing_on_comparison_item (row : SideRow) : ReconcileItem where
  relpath := row.relpath
  classification := missing_on_comparison
  definitive_size := some row.size
  comparison_size := none
  definitive_hash := row.full_hash
  comparison_hash := none

def missing_on_definitive_item (row : SideRow) : ReconcileItem where
  relpath := row.relpath
  classification := missing_on_definitive
  definitive_size := none
  comparison_size := some row.size
  definitive_hash := none
  comparison_hash := row.full_hash

/-- Further items, while there is room for one: `ORDER BY relpath LIMIT` what is left. -/
def fill (collation : String → String → Bool) (items more : List ReconcileItem) : List ReconcileItem :=
  if items.length < MAX_ITEMS then
    items ++ (more.mergeSort fun i i' => collation i.relpath i'.relpath).take (MAX_ITEMS - items.length)
  else items

/-- `_sample_items`. -/
def sample_items (collation : String → String → Bool) (left right : List SideRow) : List ReconcileItem :=
  let flagged := (matched left right).filter fun row =>
    classify row.1 row.2 = diverged ∨ classify row.1 row.2 = size_match_unhashed
  let items := fill collation [] (flagged.map flagged_item)
  let items := fill collation items ((missing left right).map missing_on_comparison_item)
  fill collation items ((missing right left).map missing_on_definitive_item)

/-! ## The comparison -/

/-- `_compare_inner`. -/
def compare_inner (collation : String → String → Bool) (cat : Catalogue) (definitive_volume_id : ℕ)
    (definitive_root : String) (comparison_volume_id : ℕ) (comparison_root : String)
    (scope : Option ScopeFilter) : ReconcileResult :=
  let left := side cat definitive_volume_id definitive_root scope
  let right := side cat comparison_volume_id comparison_root scope
  let counts := class_counts left right
  let items := sample_items collation left right
  { definitive_volume_id := definitive_volume_id
    definitive_root := String.ofList (base definitive_root)
    comparison_volume_id := comparison_volume_id
    comparison_root := String.ofList (base comparison_root)
    counts := counts
    considered := (ALL_CLASSES.map counts).sum
    items := items
    truncated := MAX_ITEMS ≤ items.length }

/-- `compare`. -/
def compare (collation : String → String → Bool) (cancelled : Bool) (cat : Catalogue)
    (definitive_volume_id : ℕ) (definitive_root : String) (comparison_volume_id : ℕ)
    (comparison_root : String) (scope : Option ScopeFilter) (max_side_entries : ℕ) :
    Except ReconcileError ReconcileResult :=
  let def_count := count_side_capped cat definitive_volume_id definitive_root scope max_side_entries
  let cmp_count := count_side_capped cat comparison_volume_id comparison_root scope max_side_entries
  if max_side_entries < def_count ∨ max_side_entries < cmp_count then
    .error (.too_large def_count cmp_count max_side_entries)
  else if cancelled then .error .timeout
  else
    .ok (compare_inner collation cat definitive_volume_id definitive_root comparison_volume_id
      comparison_root scope)

end Fathom.Reconcile
