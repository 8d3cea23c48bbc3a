/-
**The drill-down of the catalogue** (`core/query.py`).

Children are found by depth and an escaped `LIKE` prefix, and carry the rollup under their
path or, where there is none, their own size. `LIKE` is the standard one, which tells
cases apart. How the database orders names is a parameter; a row's place in the table
serves as its id, for rows are never deleted.
-/
import Fathom.Lib.Like
import Fathom.Read.Rollup
import Fathom.Auth.Scope

set_option autoImplicit false

namespace Fathom.Read

open Fathom.Ingest (Catalogue FsEntryRow Volume)
open Fathom.Auth (ScopeFilter)

/-- `_LIKE_ESCAPE`. -/
def LIKE_ESCAPE : Char := '\\'

/-- `escape_like`. -/
def escape_like (text : List Char) : List Char := Like.escape LIKE_ESCAPE text

/-- What a read raises. -/
inductive ReadError where
  /-- `unknown volume_id …` -/
  | unknown_volume (volume_id : ℕ)
  /-- `HTTPException` of the scope filter -/
  | http (e : ScopeFilter.HTTPException)
  deriving DecidableEq

/-- `TreeChild`. -/
structure TreeChild where
  entry_id : ℕ
  path : String
  name : String
  is_dir : Bool
  is_symlink : Bool
  size_logical : ℕ
  size_on_disk : ℕ
  subtree_size_logical : ℕ
  subtree_size_on_disk : ℕ
  file_count : ℕ
  mtime : ℚ
  uid : Int
  gid : Int
  inode : Int
  flags : List (String × Bool)
  content_hash : Option String
  deriving DecidableEq

/-- `_check_volume_in_scope`. -/
def check_volume_in_scope (volume : Volume) (scope : Option ScopeFilter) : Except ReadError Unit :=
  match scope with
  | none => .ok ()
  | some f =>
    match f.check_target volume.host_id (some volume.id) (some volume.kind) with
    | .error e => .error (.http e)
    | .ok _ => .ok ()

/-- The child made of a row, with its id and the rollup joined to it. -/
def tree_child (t : Table SubtreeRollup.key) (row : FsEntryRow × ℕ) : TreeChild :=
  let entry := row.1
  let rollup := t.find ⟨entry.volume_id, entry.path⟩
  { entry_id := row.2
    path := entry.path
    name := entry.name
    is_dir := entry.is_dir
    is_symlink := entry.is_symlink
    size_logical := entry.size_logical
    size_on_disk := entry.size_on_disk
    subtree_size_logical := (rollup.map SubtreeRollup.total_size_logical).getD entry.size_logical
    subtree_size_on_disk := (rollup.map SubtreeRollup.total_size_on_disk).getD entry.size_on_disk
    file_count := (rollup.map SubtreeRollup.file_count).getD (if entry.is_dir then 0 else 1)
    mtime := entry.mtime
    uid := entry.uid
    gid := entry.gid
    inode := entry.inode
    flags := entry.flags
    content_hash := entry.full_hash }

/-- The rows with their ids. -/
def rows_with_ids (cat : Catalogue) : List (FsEntryRow × ℕ) := cat.fs_entry.rows.zipIdx 1

/-- The conditions of `list_children` on a row. -/
def listed (volume : Volume) (path : String) (r : FsEntryRow) : Bool :=
  let mount := volume.mountpoint.toList
  let child_depth := depth_within mount path.toList + 1
  let like := escape_like (rstrip path.toList) ++ "/%".toList
  r.volume_id = volume.id ∧ r.depth = child_depth ∧ Like.like LIKE_ESCAPE like r.path.toList = true ∧
    r.present = true

/-- `list_children`. -/
def list_children (collation : String → String → Bool) (db : Database) (volume_id : ℕ) (path : String)
    (scope : Option ScopeFilter) : Except ReadError (List TreeChild) :=
  match get_volume db.cat volume_id with
  | none => .error (.unknown_volume volume_id)
  | some volume =>
  match check_volume_in_scope volume scope with
  | .error e => .error e
  | .ok _ =>
    let rows := (rows_with_ids db.cat).filter fun row => listed volume path row.1
    .ok ((rows.mergeSort fun row row' => collation row.1.name row'.1.name).map (tree_child db.subtree_rollup))

/-- The prefix pattern of a read matches what lies below the path, at any depth. -/
theorem like_under {path text : List Char} :
    Like.like LIKE_ESCAPE (escape_like (rstrip path) ++ "/%".toList) text = true ↔
      rstrip path ++ ['/'] <+: text :=
  Like.like_escape_under (by decide) (by decide)

/-- **An escaped path stands for itself.** Whatever signs of patterns and escapes are in a
directory's path, the pattern of what lies under it matches the texts that start with the
path and a `/`: as `LIKE` is read, and as the matcher finds it. -/
theorem escape_like_exact (dir entry : List Char) :
    (Like.Matches LIKE_ESCAPE (escape_like dir ++ "/%".toList) entry ↔ dir ++ "/".toList <+: entry) ∧
      (Like.like LIKE_ESCAPE (escape_like dir ++ "/%".toList) entry = true ↔ dir ++ "/".toList <+: entry) := by
  have hlike : Like.like LIKE_ESCAPE (escape_like dir ++ "/%".toList) entry = true ↔ dir ++ "/".toList <+: entry :=
    Like.like_escape_under (by decide) (by decide)
  rw [← Like.like_iff]
  exact ⟨hlike, hlike⟩

example : Like.like LIKE_ESCAPE (escape_like "/a_b%\\c".toList ++ "/%".toList) "/a_b%\\c/d".toList = true := by
  decide +kernel

example : Like.like LIKE_ESCAPE (escape_like "/a_b".toList ++ "/%".toList) "/aXb/d".toList = false := by decide +kernel

/-- The conditions, in terms of the path's own text. -/
theorem listed_iff {volume : Volume} {path : String} {r : FsEntryRow} : listed volume path r = true ↔
      r.volume_id = volume.id ∧ r.present = true ∧ r.depth = depth_within volume.mountpoint.toList path.toList + 1 ∧
        rstrip path.toList ++ ['/'] <+: r.path.toList := by
  rw [listed, decide_eq_true_eq, like_under]
  constructor
  · rintro ⟨hvolume, hdepth, hprefix, hpresent⟩
    exact ⟨hvolume, hpresent, hdepth, hprefix⟩
  · rintro ⟨hvolume, hpresent, hdepth, hprefix⟩
    exact ⟨hvolume, hdepth, hprefix, hpresent⟩

end Fathom.Read
