/-
**Subtree rollups** (`core/rollup.py`): the totals of everything beneath a directory, for
every directory of a volume.

Each present entry contributes to its ancestor directories, which are found by taking its
path apart at slashes. The tally is a table under the ancestors' paths; a recomputation
replaces the volume's rows by it. The point it appends to the size history is left out,
for no modelled function reads it.
-/
import Fathom.Ingest.Catalogue
import Mathlib.Data.List.DropRight

set_option autoImplicit false

namespace Fathom.Read

open Fathom.Ingest (Catalogue FsEntryRow Volume Instant)

/-! ## Paths as rollups take them apart -/

/-- `s.rstrip("/")`. -/
def rstrip (s : List Char) : List Char := s.rdropWhile (· = '/')

/-- `s.strip("/")`. -/
def strip (s : List Char) : List Char := rstrip (s.dropWhile (· = '/'))

/-- `_depth_within`, of `core/rollup.py` and of `core/query.py`. -/
def depth_within (mount path : List Char) : ℕ :=
  let rel := strip (path.drop mount.length)
  if rel = [] then 0 else rel.count '/' + 1

/-- The paths one gets to by descending along some parts. -/
def descend : List Char → List (List Char) → List (List Char)
  | _, [] => []
  | cur, part :: parts => (cur ++ '/' :: part) :: descend (cur ++ '/' :: part) parts

/-- `_ancestor_dirs`. -/
def ancestor_dirs (path mount : List Char) : List (List Char) :=
  if path = mount ∨ ¬ (rstrip mount ++ ['/']) <+: path then if path = mount then [] else [mount]
  else mount :: descend (rstrip mount) ((strip (path.drop mount.length)).splitOn '/').dropLast

/-! ## Tallies -/

/-- `_Acc`. -/
@[ext]
structure Acc where
  total_size_logical : ℕ
  total_size_on_disk : ℕ
  file_count : ℕ
  dir_count : ℕ
  deriving DecidableEq, Repr

instance : Zero Acc := ⟨⟨0, 0, 0, 0⟩⟩

instance : Add Acc where
  add a b := ⟨a.total_size_logical + b.total_size_logical, a.total_size_on_disk + b.total_size_on_disk,
    a.file_count + b.file_count, a.dir_count + b.dir_count⟩

instance : AddCommMonoid Acc where
  add_assoc a b c := Acc.ext (Nat.add_assoc _ _ _) (Nat.add_assoc _ _ _) (Nat.add_assoc _ _ _) (Nat.add_assoc _ _ _)
  zero_add a := Acc.ext (Nat.zero_add _) (Nat.zero_add _) (Nat.zero_add _) (Nat.zero_add _)
  add_zero a := Acc.ext (Nat.add_zero _) (Nat.add_zero _) (Nat.add_zero _) (Nat.add_zero _)
  add_comm a b := Acc.ext (Nat.add_comm _ _) (Nat.add_comm _ _) (Nat.add_comm _ _) (Nat.add_comm _ _)
  nsmul := nsmulRec

/-- What an entry adds to each of its ancestors. -/
def contribution (r : FsEntryRow) : Acc where
  total_size_logical := r.size_logical
  total_size_on_disk := r.size_on_disk
  file_count := if r.is_dir then 0 else 1
  dir_count := if r.is_dir then 1 else 0

/-- An item of `_Tally.by_path`. -/
structure TallyItem where
  path : String
  acc : Acc
  deriving DecidableEq

/-- `by_path[ancestor]` is made when it is first asked for, and added to. -/
def add_to : Conflict TallyItem.path where
  guard := fun _ _ => true
  set := fun row x => { row with acc := row.acc + x.acc }
  set_key := fun _ _ => rfl

/-- What the present entries of a volume add, in the order they are read. -/
def contributions (rows : List FsEntryRow) (mount : String) : List TallyItem :=
  rows.flatMap fun r =>
    (ancestor_dirs r.path.toList mount.toList).map fun ancestor => ⟨String.ofList ancestor, contribution r⟩

def tally (rows : List FsEntryRow) (mount : String) : Table TallyItem.path :=
  (Table.empty _).upsert_many add_to (contributions rows mount)

/-! ## The table -/

/-- `uq_rollup_vol_path`. -/
structure RollupKey where
  volume_id : ℕ
  path : String
  deriving DecidableEq

/-- `SubtreeRollup`. -/
structure SubtreeRollup where
  volume_id : ℕ
  path : String
  depth : ℕ
  total_size_logical : ℕ
  total_size_on_disk : ℕ
  file_count : ℕ
  dir_count : ℕ
  computed_at : Instant
  deriving DecidableEq

def SubtreeRollup.key (r : SubtreeRollup) : RollupKey := ⟨r.volume_id, r.path⟩

/-- One of `_rollup_rows`. -/
def rollup_row (volume_id : ℕ) (mount : String) (now : Instant) (item : TallyItem) : SubtreeRollup where
  volume_id := volume_id
  path := item.path
  depth := depth_within mount.toList item.path.toList
  total_size_logical := item.acc.total_size_logical
  total_size_on_disk := item.acc.total_size_on_disk
  file_count := item.acc.file_count
  dir_count := item.acc.dir_count
  computed_at := now

/-- The tables the read side reads. -/
structure Database where
  cat : Catalogue
  subtree_rollup : Table SubtreeRollup.key

/-- `session.get(Volume, volume_id)`. -/
def get_volume (cat : Catalogue) (volume_id : ℕ) : Option Volume := cat.volumes.rows.find? fun v => v.id = volume_id

/-- The present entries of a volume. -/
def present_rows (cat : Catalogue) (volume_id : ℕ) : List FsEntryRow :=
  cat.fs_entry.rows.filter fun r => r.volume_id = volume_id ∧ r.present = true

/-- The rows a recomputation inserts. -/
def rollup_rows (cat : Catalogue) (volume : Volume) (now : Instant) : List SubtreeRollup :=
  (tally (present_rows cat volume.id) volume.mountpoint).rows.map (rollup_row volume.id volume.mountpoint now)

/-- The volume's rollup, replaced. -/
def replace_rollup (t : Table SubtreeRollup.key) (cat : Catalogue) (volume : Volume) (now : Instant) :
    Table SubtreeRollup.key where
  rows := t.rows.filter (fun r => r.volume_id ≠ volume.id) ++ rollup_rows cat volume now
  unique := by
    rw [List.map_append]
    refine List.nodup_append.mpr ⟨t.unique.sublist (List.filter_sublist.map _), ?_, ?_⟩
    · rw [rollup_rows, List.map_map]
      have hpaths := (tally (present_rows cat volume.id) volume.mountpoint).unique
      refine List.Nodup.of_map RollupKey.path ?_
      rw [List.map_map]
      exact hpaths
    · intro k hk k' hk' heq
      obtain ⟨r, hr, rfl⟩ := List.mem_map.mp hk
      obtain ⟨r', hr', rfl⟩ := List.mem_map.mp hk'
      obtain ⟨item, -, rfl⟩ := List.mem_map.mp hr'
      exact of_decide_eq_true (List.mem_filter.mp hr).2 (congrArg RollupKey.volume_id heq)

/-- `RollupService.recompute_full`: the tables after it and the number of rows, for a
volume that is there. -/
def recompute_full (db : Database) (volume_id : ℕ) (now : Instant) : Option (Database × ℕ) :=
  (get_volume db.cat volume_id).map fun volume =>
    (⟨db.cat, replace_rollup db.subtree_rollup db.cat volume now⟩, (rollup_rows db.cat volume now).length)

/-! ## What is stored -/

/-- The entries that contribute under a path. -/
def beneath (rows : List FsEntryRow) (mount path : String) : List FsEntryRow :=
  rows.filter fun r => path.toList ∈ ancestor_dirs r.path.toList mount.toList

/-- An accumulator that is there gets one contribution after the other. -/
theorem fold_add_to (path : String) (adds : List Acc) (acc : Acc) :
    (adds.map fun a => (⟨path, a⟩ : TallyItem)).foldl (fun before x => some (Table.stored add_to before x))
      (some ⟨path, acc⟩) = some ⟨path, acc + adds.sum⟩ := by
  induction adds generalizing acc with
  | nil => rw [List.map_nil, List.foldl_nil, List.sum_nil, add_zero]
  | cons a adds ih =>
      rw [List.map_cons, List.foldl_cons, List.sum_cons, ← add_assoc]
      exact ih (acc + a)

/-- An entry contributes once to each of its ancestors. -/
theorem contributions_under {rows : List FsEntryRow} {mount : String}
    (hnodup : ∀ r ∈ rows, (ancestor_dirs r.path.toList mount.toList).Nodup) (path : String) :
    (contributions rows mount).filter (fun x => x.path = path)
      = ((beneath rows mount path).map contribution).map fun a => ⟨path, a⟩ := by
  have hone : ∀ (r : FsEntryRow) (ancestors : List (List Char)), ancestors.Nodup →
      (ancestors.map fun ancestor => (⟨String.ofList ancestor, contribution r⟩ : TallyItem)).filter
        (fun x => x.path = path) = if path.toList ∈ ancestors then [⟨path, contribution r⟩] else [] := by
    intro r ancestors hnd
    have hiff : ∀ a : List Char, String.ofList a = path ↔ a = path.toList := fun a =>
      ⟨fun h => by rw [← h, String.toList_ofList], fun h => by rw [h, String.ofList_toList]⟩
    induction ancestors with
    | nil => rfl
    | cons a ancestors ih =>
        rw [List.nodup_cons] at hnd
        rw [List.map_cons, List.filter_cons, ih hnd.2]
        by_cases ha : a = path.toList
        · have hrest : path.toList ∉ ancestors := ha ▸ hnd.1
          rw [if_pos (decide_eq_true ((hiff a).mpr ha)), if_neg hrest, if_pos (ha ▸ List.mem_cons_self),
            (hiff a).mpr ha]
        · have hmem : path.toList ∈ a :: ancestors ↔ path.toList ∈ ancestors := by
            rw [List.mem_cons]
            exact or_iff_right fun heq => ha heq.symm
          rw [if_neg (by simpa using fun h => ha ((hiff a).mp h))]
          exact (if_congr hmem rfl rfl).symm
  induction rows with
  | nil => rfl
  | cons r rows ih =>
      have hrest := ih fun r' hr' => hnodup r' (List.mem_cons_of_mem _ hr')
      rw [contributions, List.flatMap_cons, List.filter_append, ← contributions, hrest,
        hone r _ (hnodup r List.mem_cons_self), beneath, beneath, List.filter_cons]
      by_cases hmem : path.toList ∈ ancestor_dirs r.path.toList mount.toList
      · rw [if_pos hmem, if_pos (decide_eq_true hmem)]
        rfl
      · rw [if_neg hmem, if_neg (by simpa using hmem)]
        rfl

/-- **The tally under a path** is the sum over what lies beneath it. -/
theorem find_tally {rows : List FsEntryRow} {mount : String}
    (hnodup : ∀ r ∈ rows, (ancestor_dirs r.path.toList mount.toList).Nodup) (path : String) :
    (tally rows mount).find path = if beneath rows mount path = [] then none
        else some ⟨path, ((beneath rows mount path).map contribution).sum⟩ := by
  rw [tally, Table.find_upsert_many, contributions_under hnodup, Table.find_empty]
  rcases beneath rows mount path with _ | ⟨r, rest⟩
  · rfl
  · rw [if_neg (List.cons_ne_nil _ _), List.map_cons, List.map_cons, List.foldl_cons, List.sum_cons]
    exact fold_add_to path (rest.map contribution) (contribution r)

/-- **The rollup under a path of the volume** is its tally. -/
theorem find_replace_rollup (t : Table SubtreeRollup.key) (cat : Catalogue) (volume : Volume) (now : Instant)
    (path : String) : (replace_rollup t cat volume now).find ⟨volume.id, path⟩
      = ((tally (present_rows cat volume.id) volume.mountpoint).find path).map
          (rollup_row volume.id volume.mountpoint now) := by
  show (t.rows.filter (fun r => r.volume_id ≠ volume.id) ++ rollup_rows cat volume now).find? _ = _
  have hother : (t.rows.filter fun r => r.volume_id ≠ volume.id).find?
      (fun r => SubtreeRollup.key r = ⟨volume.id, path⟩) = none := by
    refine List.find?_eq_none.mpr fun r hr hkey => ?_
    exact of_decide_eq_true (List.mem_filter.mp hr).2 (congrArg RollupKey.volume_id (of_decide_eq_true hkey))
  rw [List.find?_append, hother, Option.none_or, rollup_rows, List.find?_map, Table.find]
  refine congrArg (Option.map (rollup_row volume.id volume.mountpoint now)) ?_
  refine congrArg (List.find? · (tally (present_rows cat volume.id) volume.mountpoint).rows) ?_
  funext item
  refine decide_eq_decide.mpr ⟨fun h => congrArg RollupKey.path h, fun h => ?_⟩
  show (⟨volume.id, item.path⟩ : RollupKey) = _
  rw [h]

end Fathom.Read
