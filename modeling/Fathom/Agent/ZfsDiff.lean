/-
**The ZFS feed** (`agent/reader/feed.py`, `ZfsDiffFeed`): from the lines of `zfs diff` to the change
events of a scan root.

A line has a kind and one path or two. What is known of a path is the entry that stands there, if
the walk of the path finds it, and the row the catalogue has under it. `right_event` says what a
record comes to by the places of its paths, and `Translates` when the feed says the same.

The trap is that the feed asks other questions than the places. Whether a path is below the root it
asks of the texts, so that a sibling whose name goes on is below. Of a rename it asks the old path
first. A path is stat'ed by a walk from its real path, which has the path only if it is real. And a
removal names an inode of device 0, whatever the device of the row.
-/
import Fathom.Agent.Delta
import Fathom.Config.Store
import Fathom.Read.Rollup

set_option autoImplicit false

namespace Fathom.Agent

open Fathom.Config (is_space)
open Fathom.Ingest (Identity)
open Fathom.Read (rstrip)

/-! ## What stands on the disk -/

/-- What `lstat` gives at a path, the real paths, and what the workers of a walk report below a
directory. An entry has the path it was asked at. -/
structure Disk where
  lstat : String → Option FsEntry
  realpath : String → String
  below : String → List FsEntry
  lstat_path : ∀ path e, lstat path = some e → e.path = path
  below_lstat : ∀ path, ∀ e ∈ below path, lstat e.path = some e

/-- `PosixBackend.walk` of a path, with nothing excluded. -/
def Disk.walk (disk : Disk) (root : String) : List FsEntry :=
  match disk.lstat (disk.realpath root) with
  | none => []
  | some e => e :: disk.below (disk.realpath root)

/-! ## The feed -/

/-- `ZfsDiffFeed`. -/
structure ZfsDiffFeed where
  disk : Disk
  baseline_paths : String → Option Int
  excluded : List (List Char)

/-- `line.split("\t") if "\t" in line else line.split()`. -/
def columns (line : String) : List String :=
  if '\t' ∈ line.toList then (line.toList.splitOn '\t').map String.ofList
  else ((line.toList.splitOnP is_space).filter fun word => word ≠ []).map String.ofList

namespace ZfsDiffFeed

variable (feed : ZfsDiffFeed) (root : String)

/-- `_stat_one`. -/
def stat_one (path : String) : Option FsEntry :=
  (feed.disk.walk path).find? fun e => e.path = path

/-- The path begins with the root's text and is not excluded. -/
def takes (path : String) : Bool :=
  root.toList.isPrefixOf path.toList && !is_excluded_path path.toList feed.excluded

/-- `_rename_event`. -/
def rename_event (old new : String) : Option ChangeEvent :=
  if feed.takes root new = false then
    (feed.baseline_paths old).map fun inode => .delete ⟨0, inode⟩ old
  else (feed.stat_one new).map .modify

/-- `_parse_line`. -/
def parse_line (line : String) : Option ChangeEvent :=
  match columns line with
  | change :: path :: rest =>
    if feed.takes root path = false then none
    else if change = "-" then
      (feed.baseline_paths path).map fun inode => .delete ⟨0, inode⟩ path
    else if change = "+" then (feed.stat_one path).map .create
    else if change = "M" then (feed.stat_one path).map .modify
    else if change = "R" then
      match rest with
      | new :: _ => feed.rename_event root path new
      | [] => none
    else none
  | _ => none

/-- `changes_between`, of the lines the runner returns. -/
def changes_between (lines : List String) : List ChangeEvent :=
  lines.filterMap (feed.parse_line root)

end ZfsDiffFeed

/-! ## Records -/

/-- A path as `zfs diff -H` prints it: a tab is the end of a column. -/
structure DiffPath where
  text : String
  no_tab : '\t' ∉ text.toList

inductive DiffRecord where
  | added (path : DiffPath)
  | removed (path : DiffPath)
  | modified (path : DiffPath)
  | renamed (old new : DiffPath)

def DiffRecord.columns : DiffRecord → List String
  | .added path => ["+", path.text]
  | .removed path => ["-", path.text]
  | .modified path => ["M", path.text]
  | .renamed old new => ["R", old.text, new.text]

def DiffRecord.line (r : DiffRecord) : String :=
  String.ofList (['\t'].intercalate (r.columns.map String.toList))

/-! ## What a record comes to -/

/-- A path is the root or component-wise below it. -/
def within (root path : String) : Bool :=
  (rstrip root.toList ++ ['/']).isPrefixOf (rstrip path.toList ++ ['/'])

/-- The path of an event. -/
def ChangeEvent.path : ChangeEvent → String
  | .create entry => entry.path
  | .modify entry => entry.path
  | .delete _ path => path

section

variable (disk : Disk) (rows : String → Option Identity) (exclude : List String) (root : String)

/-- The feed of a catalogue that has these rows, by path. -/
def zfs_feed : ZfsDiffFeed :=
  ⟨disk, fun path => (rows path).map Identity.inode, normalise_excludes exclude⟩

/-- In the root and not excluded. -/
def in_scope (path : String) : Bool :=
  within root path && !is_excluded_path path.toList (normalise_excludes exclude)

/-- The event of a record. -/
def right_event : DiffRecord → Option ChangeEvent
  | .added path => if in_scope exclude root path.text then (disk.lstat path.text).map .create else none
  | .modified path =>
    if in_scope exclude root path.text then (disk.lstat path.text).map .modify else none
  | .removed path =>
    if in_scope exclude root path.text then (rows path.text).map fun id => .delete id path.text
    else none
  | .renamed old new =>
    if in_scope exclude root new.text then
      if in_scope exclude root old.text then (disk.lstat new.text).map .modify
      else (disk.lstat new.text).map .create
    else if in_scope exclude root old.text then (rows old.text).map fun id => .delete id old.text
    else none

/-- Events in scope only, and the right one of every record. -/
structure Translated (records : List DiffRecord) : Prop where
  only_in_scope : ∀ ev ∈ (zfs_feed disk rows exclude).changes_between root
    (records.map DiffRecord.line), in_scope exclude root ev.path = true
  right : ∀ r ∈ records,
    (zfs_feed disk rows exclude).parse_line root r.line = right_event disk rows exclude root r

/-- The walk of a path has the path: it is its own real path, or reported below that. -/
def Disk.finds (path : String) : Prop :=
  disk.realpath path = path ∨
    (disk.lstat (disk.realpath path)).isSome = true ∧
      path ∈ (disk.below (disk.realpath path)).map FsEntry.path

/-- Nothing stands at a path, or it is in scope exactly when the feed takes it and finds it. -/
def Restated (path : String) : Prop :=
  disk.lstat path = none ∨
    (((zfs_feed disk rows exclude).takes root path = true ∧ disk.finds path) ↔
      in_scope exclude root path = true)

/-- The feed sees the places of a record as they are, as far as something depends on them: a file
that stands there, or a row. -/
def Translates : DiffRecord → Prop
  | .added path => Restated disk rows exclude root path.text
  | .modified path => Restated disk rows exclude root path.text
  | .removed path => ∀ id, rows path.text = some id →
      ((zfs_feed disk rows exclude).takes root path.text = true ↔
        in_scope exclude root path.text = true) ∧
      (in_scope exclude root path.text = true → id.dev = 0)
  | .renamed old new =>
    (∀ id, rows old.text = some id →
      (((zfs_feed disk rows exclude).takes root old.text = true ∧
          (zfs_feed disk rows exclude).takes root new.text = false) ↔
        (in_scope exclude root old.text = true ∧ in_scope exclude root new.text = false)) ∧
      (in_scope exclude root old.text = true → in_scope exclude root new.text = false →
        id.dev = 0)) ∧
    (disk.lstat new.text = none ∨
      (((zfs_feed disk rows exclude).takes root old.text = true ∧
          (zfs_feed disk rows exclude).takes root new.text = true ∧ disk.finds new.text) ↔
        (in_scope exclude root old.text = true ∧ in_scope exclude root new.text = true)) ∧
      (in_scope exclude root new.text = true → in_scope exclude root old.text = true))

end

/-! ## Lines -/

theorem columns_line (r : DiffRecord) : columns r.line = r.columns := by
  have hne : r.columns.map String.toList ≠ [] := by
    cases r <;> simp [DiffRecord.columns]
  have hsep : ∀ column ∈ r.columns.map String.toList, '\t' ∉ column := by
    cases r with
    | renamed old new => simpa [DiffRecord.columns] using ⟨old.no_tab, new.no_tab⟩
    | _ path => simpa [DiffRecord.columns] using path.no_tab
  have htab : '\t' ∈ r.line.toList := by
    rw [DiffRecord.line, String.toList_ofList]
    cases r <;> simp [DiffRecord.columns, List.intercalate]
  rw [columns, if_pos htab, DiffRecord.line, String.toList_ofList,
    List.splitOn_intercalate '\t' hsep hne, List.map_map]
  simp

/-! ## The re-stat -/

variable {e : FsEntry} {feed : ZfsDiffFeed} {path : String}

/-- What a walk reports is what stands there, and the walk's own path has it when it is real. -/
theorem Disk.mem_walk {disk : Disk} {root : String} :
    e ∈ disk.walk root ↔ (disk.lstat (disk.realpath root)).isSome = true ∧
      (disk.lstat (disk.realpath root) = some e ∨ e ∈ disk.below (disk.realpath root)) := by
  rw [Disk.walk]
  cases hroot : disk.lstat (disk.realpath root) with
  | none => simp
  | some e' => simp [eq_comm]

theorem Disk.lstat_of_mem_walk {disk : Disk} {root : String} (h : e ∈ disk.walk root) : disk.lstat e.path = some e := by
  obtain ⟨-, hreal | hbelow⟩ := Disk.mem_walk.mp h
  · rw [disk.lstat_path _ e hreal]
    exact hreal
  · exact disk.below_lstat _ e hbelow

/-- The re-stat of a path gives what stands there, if the walk of the path finds it. -/
theorem stat_one_iff : feed.stat_one path = some e ↔ feed.disk.finds path ∧ feed.disk.lstat path = some e := by
  constructor
  · intro h
    have hpath : e.path = path := by simpa using List.find?_some h
    have hmem := List.mem_of_find?_eq_some h
    have hlstat := Disk.lstat_of_mem_walk hmem
    rw [hpath] at hlstat
    refine ⟨?_, hlstat⟩
    obtain ⟨hroot, hreal | hbelow⟩ := Disk.mem_walk.mp hmem
    · left
      rw [← feed.disk.lstat_path _ e hreal, hpath]
    · right
      exact ⟨hroot, List.mem_map.mpr ⟨e, hbelow, hpath⟩⟩
  · rintro ⟨hfinds, hlstat⟩
    have hpath := feed.disk.lstat_path _ e hlstat
    have hmem : ∃ x ∈ feed.disk.walk path, decide (x.path = path) = true := by
      obtain hreal | ⟨hroot, hbelow⟩ := hfinds
      · refine ⟨e, Disk.mem_walk.mpr ?_, decide_eq_true hpath⟩
        rw [hreal, hlstat]
        exact ⟨rfl, Or.inl rfl⟩
      · obtain ⟨x, hx, hxpath⟩ := List.mem_map.mp hbelow
        exact ⟨x, Disk.mem_walk.mpr ⟨hroot, Or.inr hx⟩, decide_eq_true hxpath⟩
    obtain ⟨x, hx⟩ := Option.isSome_iff_exists.mp (List.find?_isSome.mpr hmem)
    -- whichever entry of that path is found, it is the one that stands there
    have hxpath : x.path = path := by simpa using List.find?_some hx
    have hxlstat := Disk.lstat_of_mem_walk (List.mem_of_find?_eq_some hx)
    rw [hxpath, hlstat, Option.some.injEq] at hxlstat
    rw [ZfsDiffFeed.stat_one, hx, hxlstat]

theorem stat_one_of_finds (h : feed.disk.finds path) : feed.stat_one path = feed.disk.lstat path := by
  apply Option.ext
  intro e
  rw [stat_one_iff]
  exact and_iff_right h

theorem stat_one_of_not_finds (h : ¬feed.disk.finds path) : feed.stat_one path = none := by
  rw [Option.eq_none_iff_forall_ne_some]
  exact fun e he => h (stat_one_iff.mp he).1

theorem stat_one_of_none (h : feed.disk.lstat path = none) : feed.stat_one path = none := by
  rw [Option.eq_none_iff_forall_ne_some]
  intro e he
  rw [(stat_one_iff.mp he).2] at h
  exact absurd h (by simp)

/-! ## One record -/

section

variable {disk : Disk} {rows : String → Option Identity} {exclude : List String} {root : String}

/-- What the feed makes of the entry at a path it takes, against what stands there. -/
theorem restated_iff (event : FsEntry → ChangeEvent) :
    ((if (zfs_feed disk rows exclude).takes root path = false then none
      else ((zfs_feed disk rows exclude).stat_one path).map event) =
      if in_scope exclude root path then (disk.lstat path).map event else none) ↔
      Restated disk rows exclude root path := by
  rw [Restated]
  cases hlstat : disk.lstat path with
  | none =>
      have hnone : (zfs_feed disk rows exclude).stat_one path = none := stat_one_of_none hlstat
      rw [hnone]
      exact iff_of_true (by simp) (Or.inl rfl)
  | some e =>
      by_cases hfinds : disk.finds path
      · have hstat : (zfs_feed disk rows exclude).stat_one path = disk.lstat path :=
          stat_one_of_finds hfinds
        rw [hstat, hlstat]
        cases (zfs_feed disk rows exclude).takes root path <;>
          cases in_scope exclude root path <;> simp [hfinds]
      · have hstat : (zfs_feed disk rows exclude).stat_one path = none := stat_one_of_not_finds hfinds
        rw [hstat]
        cases in_scope exclude root path <;> simp [hfinds]

/-- The inode of a row, on device 0, is the row's identity. -/
theorem inode_eq_iff {id : Identity} : (⟨0, id.inode⟩ : Identity) = id ↔ id.dev = 0 := by
  constructor
  · intro h
    rw [← h]
  · intro h
    rw [← h]

/-- What the feed makes of the row of a path, in the places it sees and in the right ones. -/
theorem removed_iff {seen place : Bool} :
    ((if seen = false then none
      else (rows path).map fun id => ChangeEvent.delete ⟨0, id.inode⟩ path) =
      if place then (rows path).map fun id => .delete id path else none) ↔
      ∀ id, rows path = some id → (seen = true ↔ place = true) ∧ (place = true → id.dev = 0) := by
  cases rows path with
  | none => simp
  | some id => cases seen <;> cases place <;> simp [inode_eq_iff]

/-- The same of a renamed file: its row, and the entry at its new path. -/
theorem renamed_iff {old : String} {seen_old seen_new in_old in_new finds : Bool}
    {row : Option Identity} {entry : Option FsEntry} :
    ((if seen_old = false then none
      else if seen_new = false then row.map fun id => ChangeEvent.delete ⟨0, id.inode⟩ old
      else (if finds then entry else none).map .modify) =
      if in_new then if in_old then entry.map .modify else entry.map .create
      else if in_old then row.map fun id => .delete id old else none) ↔
      (∀ id, row = some id →
        ((seen_old = true ∧ seen_new = false) ↔ (in_old = true ∧ in_new = false)) ∧
        (in_old = true → in_new = false → id.dev = 0)) ∧
      (entry = none ∨
        ((seen_old = true ∧ seen_new = true ∧ finds = true) ↔
          (in_old = true ∧ in_new = true)) ∧ (in_new = true → in_old = true)) := by
  cases row <;> cases entry <;> cases seen_old <;> cases seen_new <;> cases in_old <;>
    cases in_new <;> cases finds <;> simp [inode_eq_iff]

/-- The feed gives the event of a record exactly when it sees the record's places as they are. -/
theorem parse_line_iff (r : DiffRecord) :
    (zfs_feed disk rows exclude).parse_line root r.line = right_event disk rows exclude root r ↔
      Translates disk rows exclude root r := by
  rw [ZfsDiffFeed.parse_line, columns_line]
  cases r with
  | added path => exact restated_iff .create
  | modified path => exact restated_iff .modify
  | removed path =>
      have hrow : ((zfs_feed disk rows exclude).baseline_paths path.text).map
          (fun inode => ChangeEvent.delete ⟨0, inode⟩ path.text) =
          (rows path.text).map fun id => .delete ⟨0, id.inode⟩ path.text := Option.map_map _ _ _
      rw [DiffRecord.columns]
      dsimp only
      rw [if_pos rfl, hrow]
      exact removed_iff
  | renamed old new =>
      have hrow : ((zfs_feed disk rows exclude).baseline_paths old.text).map
          (fun inode => ChangeEvent.delete ⟨0, inode⟩ old.text) =
          (rows old.text).map fun id => .delete ⟨0, id.inode⟩ old.text := Option.map_map _ _ _
      rw [DiffRecord.columns]
      dsimp only
      rw [if_neg (by decide : ¬"R" = "-"), if_neg (by decide : ¬"R" = "+"),
        if_neg (by decide : ¬"R" = "M"), if_pos rfl, ZfsDiffFeed.rename_event, hrow, Translates]
      by_cases hfinds : disk.finds new.text
      · have hstat : (zfs_feed disk rows exclude).stat_one new.text =
            if true then disk.lstat new.text else none := stat_one_of_finds hfinds
        rw [hstat, iff_true_intro hfinds, ← eq_self_iff_true true]
        exact renamed_iff
      · have hstat : (zfs_feed disk rows exclude).stat_one new.text =
            if false then disk.lstat new.text else none := stat_one_of_not_finds hfinds
        rw [hstat, iff_false_intro hfinds, ← Bool.false_eq_true]
        exact renamed_iff

/-- The event of a record is in scope. -/
theorem right_event_in_scope {r : DiffRecord} {ev : ChangeEvent}
    (h : right_event disk rows exclude root r = some ev) : in_scope exclude root ev.path = true := by
  have hentry : ∀ {path : String} {event : FsEntry → ChangeEvent},
      (∀ e, (event e).path = e.path) → in_scope exclude root path = true →
      (disk.lstat path).map event = some ev → in_scope exclude root ev.path = true := by
    intro path event hevent hscope hmap
    obtain ⟨e, he, rfl⟩ := Option.map_eq_some_iff.mp hmap
    rw [hevent, disk.lstat_path _ e he]
    exact hscope
  have hrow : ∀ {path : String}, in_scope exclude root path = true →
      ((rows path).map fun id => ChangeEvent.delete id path) = some ev →
      in_scope exclude root ev.path = true := by
    intro path hscope hmap
    obtain ⟨id, -, rfl⟩ := Option.map_eq_some_iff.mp hmap
    exact hscope
  cases r with
  | added path =>
      rw [right_event, Option.ite_none_right_eq_some] at h
      exact hentry (fun _ => rfl) h.1 h.2
  | modified path =>
      rw [right_event, Option.ite_none_right_eq_some] at h
      exact hentry (fun _ => rfl) h.1 h.2
  | removed path =>
      rw [right_event, Option.ite_none_right_eq_some] at h
      exact hrow h.1 h.2
  | renamed old new =>
      rw [right_event] at h
      split at h
      · rename_i hnew
        split at h
        · exact hentry (fun _ => rfl) hnew h
        · exact hentry (fun _ => rfl) hnew h
      · rw [Option.ite_none_right_eq_some] at h
        exact hrow h.1 h.2

end

/-- **The ZFS feed.** Of a list of records, the feed emits events in scope only and the right event
of every record, exactly when every record is one whose places it sees as they are. -/
theorem zfs_diff_translated_iff (disk : Disk) (rows : String → Option Identity)
    (exclude : List String) (root : String) (records : List DiffRecord) :
    Translated disk rows exclude root records ↔
      ∀ r ∈ records, Translates disk rows exclude root r := by
  constructor
  · intro h r hr
    exact (parse_line_iff r).mp (h.right r hr)
  · intro h
    refine ⟨fun ev hev => ?_, fun r hr => (parse_line_iff r).mpr (h r hr)⟩
    obtain ⟨line, hline, hparse⟩ := List.mem_filterMap.mp hev
    obtain ⟨r, hr, rfl⟩ := List.mem_map.mp hline
    rw [(parse_line_iff r).mpr (h r hr)] at hparse
    exact right_event_in_scope hparse

/-- Files at some real paths, and a link at `/data/link` to one elsewhere. -/
def few_files (paths : List String) : Disk where
  lstat := fun path => if path ∈ paths then some { five_bytes with path } else none
  realpath := fun path => if path = "/data/link" then "/mnt/file" else path
  below := fun _ => []
  lstat_path := by
    intro path e h
    rw [Option.ite_none_right_eq_some, Option.some.injEq] at h
    rw [← h.2]
  below_lstat := fun _ _ h => absurd h List.not_mem_nil

/-- A sibling of the root, a file that is moved into it, a link, and a row on device 5. -/
theorem zfs_diff_wrong_places :
    ¬Translated (few_files ["/data2/x"]) (fun _ => none) [] "/data"
        [.added ⟨"/data2/x", by decide⟩] ∧
      ¬Translated (few_files ["/data/f"]) (fun _ => none) [] "/data"
        [.renamed ⟨"/tmp/f", by decide⟩ ⟨"/data/f", by decide⟩] ∧
      ¬Translated (few_files ["/data/link"]) (fun _ => none) [] "/data"
        [.added ⟨"/data/link", by decide⟩] ∧
      ¬Translated (few_files []) (fun _ => some ⟨5, 9⟩) [] "/data"
        [.removed ⟨"/data/gone", by decide⟩] := by
  refine ⟨fun h => ?_, fun h => ?_, fun h => ?_, fun h => ?_⟩
  · have hsame := congrArg Option.isSome (h.right _ List.mem_cons_self)
    exact absurd hsame (by decide +kernel)
  · have hsame := congrArg Option.isSome (h.right _ List.mem_cons_self)
    exact absurd hsame (by decide +kernel)
  · have hsame := congrArg Option.isSome (h.right _ List.mem_cons_self)
    exact absurd hsame (by decide +kernel)
  · have hsame := congrArg (Option.map ChangeEvent.identity) (h.right _ List.mem_cons_self)
    exact absurd hsame (by decide +kernel)

end Fathom.Agent
