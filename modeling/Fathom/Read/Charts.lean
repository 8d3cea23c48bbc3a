/-
**The reads of the charts** (`core/query_charts.py`): the nodes of a treemap, the largest
children, the growth of a subtree.

Each loads the volume and checks it first, and takes its rows by the conditions of the
drill-down. How the database orders paths is a parameter, and so is the slice of time a
point falls into, which the code computes in floating point.
-/
import Fathom.Read.Search

set_option autoImplicit false

namespace Fathom.Read

open Fathom.Ingest (Catalogue FsEntryRow Volume Instant)
open Fathom.Auth (ScopeFilter)

/-! ## Children -/

/-- `SizeBasis`. -/
inductive SizeBasis where
  | on_disk
  | logical
  deriving DecidableEq, Repr

/-- `TopNKind`. -/
inductive TopNKind where
  | dir
  | file
  | any
  deriving DecidableEq, Repr

/-- `TreemapNode`. -/
structure TreemapNode where
  path : String
  name : String
  is_dir : Bool
  subtree_size_logical : ℕ
  subtree_size_on_disk : ℕ
  file_count : ℕ
  deriving DecidableEq

/-- `TopNItem`. -/
structure TopNItem where
  path : String
  name : String
  is_dir : Bool
  size_logical : ℕ
  size_on_disk : ℕ
  file_count : ℕ
  deriving DecidableEq

/-- The totals of the rollup under an entry's path, or its own. -/
def effective (t : Table SubtreeRollup.key) (r : FsEntryRow) : ℕ × ℕ × ℕ :=
  match t.find ⟨r.volume_id, r.path⟩ with
  | some rollup => (rollup.total_size_logical, rollup.total_size_on_disk, rollup.file_count)
  | none => (r.size_logical, r.size_on_disk, if r.is_dir then 0 else 1)

def treemap_node (t : Table SubtreeRollup.key) (r : FsEntryRow) : TreemapNode :=
  let (logical, on_disk, file_count) := effective t r
  ⟨r.path, r.name, r.is_dir, logical, on_disk, file_count⟩

def top_n_item (t : Table SubtreeRollup.key) (r : FsEntryRow) : TopNItem :=
  let (logical, on_disk, file_count) := effective t r
  ⟨r.path, r.name, r.is_dir, logical, on_disk, file_count⟩

/-- The rows beneath a path, one level down. -/
def child_rows (cat : Catalogue) (volume : Volume) (path : String) : List FsEntryRow :=
  cat.fs_entry.rows.filter (listed volume path)

/-- `treemap_children`. -/
def treemap_children (db : Database) (volume_id : ℕ) (path : String) (limit : ℕ) (scope : Option ScopeFilter) :
    Except ReadError (List TreemapNode) :=
  match scoped_volume db.cat volume_id scope with
  | .error e => .error e
  | .ok volume =>
    let nodes := (child_rows db.cat volume path).map (treemap_node db.subtree_rollup)
    .ok ((nodes.mergeSort fun n n' => n'.subtree_size_on_disk ≤ n.subtree_size_on_disk).take limit)

/-- `kind`, as a condition. -/
def TopNKind.admits (kind : TopNKind) (r : FsEntryRow) : Bool :=
  match kind with
  | .dir => r.is_dir
  | .file => !r.is_dir
  | .any => true

/-- `size_col`. -/
def SizeBasis.size (basis : SizeBasis) (t : Table SubtreeRollup.key) (r : FsEntryRow) : ℕ :=
  match basis with
  | .on_disk => (effective t r).2.1
  | .logical => (effective t r).1

/-- `top_n_subtrees`. -/
def top_n_subtrees (path_le : String → String → Bool) (db : Database) (volume_id : ℕ) (path : String) (n : ℕ)
    (basis : SizeBasis) (kind : TopNKind) (scope : Option ScopeFilter) : Except ReadError (List TopNItem) :=
  match scoped_volume db.cat volume_id scope with
  | .error e => .error e
  | .ok volume =>
    let size := basis.size db.subtree_rollup
    let rows := (child_rows db.cat volume path).filter kind.admits
    let ordered := rows.mergeSort fun r r' => size r' < size r ∨ (size r = size r' ∧ path_le r.path r'.path = true)
    .ok ((ordered.take n).map (top_n_item db.subtree_rollup))

/-! ## Growth -/

/-- `GrowthPoint`. -/
structure GrowthPoint where
  ts : Instant
  total_size_logical : ℕ
  total_size_on_disk : ℕ
  file_count : ℕ
  deriving DecidableEq

/-- `GrowthSeries`. -/
structure GrowthSeries where
  volume_id : ℕ
  path : String
  points : List GrowthPoint
  deriving DecidableEq

def growth_point (h : SizeHistory) : GrowthPoint :=
  ⟨h.ts, h.total_size_logical, h.total_size_on_disk, h.file_count⟩

/-- The slice of a moment, of so many between two: `int((ts - first) / span * buckets)`. -/
abbrev Slice := Instant → Instant → ℕ → Instant → ℕ

/-- `chosen`: the last point seen in each slice. -/
def choose (slice : Slice) (first last : Instant) (buckets : ℕ) (points : List GrowthPoint) : ℕ → Option GrowthPoint :=
  points.foldl (fun chosen point => Function.update chosen (min (slice first last buckets point.ts) (buckets - 1)) (some point))
    fun _ => none

/-- `_downsample`. -/
def downsample (slice : Slice) (points : List GrowthPoint) (buckets : ℕ) : List GrowthPoint :=
  match points.head?, points.getLast? with
  | some first, some last =>
    if buckets = 0 ∨ points.length ≤ buckets then points
    else if last.ts - first.ts ≤ 0 then [last]
    else (List.range buckets).filterMap (choose slice first.ts last.ts buckets points)
  | _, _ => points

/-- `growth_series`. -/
def growth_series (slice : Slice) (cat : Catalogue) (history : List SizeHistory) (volume_id : ℕ) (path : String)
    (since until_ : Option Instant) (buckets : ℕ) (scope : Option ScopeFilter) : Except ReadError GrowthSeries :=
  match scoped_volume cat volume_id scope with
  | .error e => .error e
  | .ok _ =>
    let points := (history_rows history volume_id path since until_).map growth_point
    .ok ⟨volume_id, path, downsample slice points buckets⟩

/-! ## What each chart returns -/

section

variable {db : Database} {volume_id : ℕ} {path : String} {scope : Option ScopeFilter}

theorem mem_child_rows {cat : Catalogue} {volume : Volume} {r : FsEntryRow} (h : r ∈ child_rows cat volume path) :
    r ∈ cat.fs_entry.rows ∧ r.volume_id = volume.id := by
  obtain ⟨hmem, hlisted⟩ := List.mem_filter.mp h
  exact ⟨hmem, (listed_iff.mp hlisted).1⟩

theorem treemap_children_scoped {limit : ℕ} {nodes : List TreemapNode}
    (h : treemap_children db volume_id path limit scope = .ok nodes) :
    ∃ volume, scoped_volume db.cat volume_id scope = .ok volume ∧
      ∀ node ∈ nodes, ∃ r ∈ db.cat.fs_entry.rows, node = treemap_node db.subtree_rollup r ∧ r.volume_id = volume.id := by
  unfold treemap_children at h
  split at h
  · exact absurd h (by simp)
  · rename_i volume hvolume
    refine ⟨volume, hvolume, fun node hnode => ?_⟩
    rw [← Except.ok.inj h] at hnode
    have hnode := List.mem_of_mem_take hnode
    rw [List.mem_mergeSort] at hnode
    obtain ⟨r, hr, rfl⟩ := List.mem_map.mp hnode
    exact ⟨r, (mem_child_rows hr).1, rfl, (mem_child_rows hr).2⟩

theorem top_n_subtrees_scoped {path_le : String → String → Bool} {n : ℕ} {basis : SizeBasis} {kind : TopNKind}
    {items : List TopNItem} (h : top_n_subtrees path_le db volume_id path n basis kind scope = .ok items) :
    ∃ volume, scoped_volume db.cat volume_id scope = .ok volume ∧
      ∀ item ∈ items, ∃ r ∈ db.cat.fs_entry.rows, item = top_n_item db.subtree_rollup r ∧ r.volume_id = volume.id := by
  unfold top_n_subtrees at h
  split at h
  · exact absurd h (by simp)
  · rename_i volume hvolume
    refine ⟨volume, hvolume, fun item hitem => ?_⟩
    rw [← Except.ok.inj h] at hitem
    obtain ⟨r, hr, rfl⟩ := List.mem_map.mp hitem
    have hr := List.mem_of_mem_take hr
    rw [List.mem_mergeSort, List.mem_filter] at hr
    exact ⟨r, (mem_child_rows hr.1).1, rfl, (mem_child_rows hr.1).2⟩

/-- What is chosen was among the points. -/
theorem choose_mem {slice : Slice} {first last : Instant} {buckets i : ℕ} {points : List GrowthPoint} {point : GrowthPoint}
    (h : choose slice first last buckets points i = some point) : point ∈ points := by
  induction points using List.reverseRecOn with
  | nil => exact absurd h (by simp [choose])
  | append_singleton points last' ih =>
      rw [choose, List.foldl_append, List.foldl_cons, List.foldl_nil] at h
      by_cases hi : i = min (slice first last buckets last'.ts) (buckets - 1)
      · rw [hi, Function.update_self] at h
        rw [Option.some.inj h]
        exact List.mem_append_right _ List.mem_cons_self
      · rw [Function.update_of_ne hi] at h
        exact List.mem_append_left _ (ih h)

theorem mem_downsample {slice : Slice} {points : List GrowthPoint} {buckets : ℕ} {point : GrowthPoint}
    (h : point ∈ downsample slice points buckets) : point ∈ points := by
  unfold downsample at h
  split at h
  · rename_i first last hfirst hlast
    split at h
    · exact h
    · split at h
      · rw [List.mem_singleton.mp h]
        exact List.mem_of_getLast? hlast
      · obtain ⟨i, -, hi⟩ := List.mem_filterMap.mp h
        exact choose_mem hi
  · exact h

theorem growth_series_scoped {slice : Slice} {cat : Catalogue} {history : List SizeHistory} {since until_ : Option Instant}
    {buckets : ℕ} {series : GrowthSeries}
    (h : growth_series slice cat history volume_id path since until_ buckets scope = .ok series) :
    ∃ volume, scoped_volume cat volume_id scope = .ok volume ∧
      ∀ point ∈ series.points, ∃ r ∈ history, point = growth_point r ∧ r.volume_id = volume_id := by
  unfold growth_series at h
  split at h
  · exact absurd h (by simp)
  · rename_i volume hvolume
    refine ⟨volume, hvolume, fun point hpoint => ?_⟩
    rw [← Except.ok.inj h] at hpoint
    obtain ⟨r, hr, rfl⟩ := List.mem_map.mp (mem_downsample hpoint)
    exact ⟨r, (mem_history_rows hr).1, rfl, (mem_history_rows hr).2⟩

end

end Fathom.Read
