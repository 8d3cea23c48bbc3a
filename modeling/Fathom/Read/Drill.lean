/-
**Drilling down** from the mountpoint of a volume (`core/query.py` over what
`core/rollup.py` stores).

One wants three things of it: a listing of a directory is the present entries whose parent
it is, each entry is found by descending from the mountpoint, and a directory that is
listed carries the totals of what lies beneath it. The reads cut paths at slashes. So the
paths of Windows volumes are never listed; below the mount `//` the rollups stand under
other paths than the entries; a directory with nothing beneath it has no rollup, and its
own size is shown in the place of nothing; and one gets to an entry only if each directory
above it has an entry of its own.
-/
import Fathom.Ingest.Vetting
import Fathom.Read.Query
import Fathom.Read.Subtree

set_option autoImplicit false

namespace Fathom.Read

open Fathom.Security
open Fathom.Ingest

/-! ## What is wanted -/

/-- The pure path of a text: a Windows one of what looks like it. -/
def pure_path (text : String) : PurePath :=
  if is_windows_path text then windows_path text.toList else posix_path text.toList

/-- An absolute path that is its own normal form. -/
inductive IsNormal : PurePath → Prop
  | posix {root : List Char} {names : List Name} (h : IsPosix root names) : IsNormal (.posix root names)
  | windows {drive root : List Char} {names : List Name} (h : IsWindows drive root names) :
      IsNormal (.windows drive root names)

/-- The directories of a volume are the paths at or below its mountpoint. -/
structure IsDirectory (lower : String → String) (mountpoint : String) (p : PurePath) : Prop where
  normal : IsNormal p
  within : PurePath.within lower (pure_path mountpoint) p = true

/-- The parent of an entry is a directory. -/
def is_child (lower : String → String) (p : PurePath) (r : FsEntryRow) : Bool :=
  (pure_path r.path).parents.head?.any (PurePath.same lower p)

/-- An entry lies beneath a directory. -/
def is_beneath (lower : String → String) (p : PurePath) (r : FsEntryRow) : Bool :=
  (pure_path r.path).parents.any (PurePath.same lower p)

/-- The totals of some entries. -/
def totals (rows : List FsEntryRow) : Acc := (rows.map contribution).sum

/-- The present entries beneath a directory. -/
def entries_beneath (lower : String → String) (cat : Catalogue) (v : Volume) (p : PurePath) : List FsEntryRow :=
  (present_rows cat v.id).filter (is_beneath lower p)

/-- What is listed of a directory; nothing if the listing fails. -/
def children (collation : String → String → Bool) (db : Database) (v : Volume) (path : String) : List TreeChild :=
  match list_children collation db v.id path none with
  | .ok listing => listing
  | .error _ => []

/-- **A listing is exact**: it has the present entries whose parent is the directory, each
once. -/
def Exact (lower : String → String) (collation : String → String → Bool) (db : Database) (v : Volume)
    (p : PurePath) : Prop :=
  ∃ listing, list_children collation db v.id p.str none = .ok listing ∧
    listing.Perm (((rows_with_ids db.cat).filter fun row =>
      row.1.volume_id = v.id ∧ row.1.present = true ∧ is_child lower p row.1 = true).map
        (tree_child db.subtree_rollup))

/-- The directories one gets to from a mountpoint by descending into what is listed. -/
inductive Reached (listing : String → List TreeChild) (mountpoint : String) : String → Prop
  | mount : Reached listing mountpoint mountpoint
  | child {path : String} {c : TreeChild} (h : Reached listing mountpoint path) (hc : c ∈ listing path)
      (hdir : c.is_dir = true) : Reached listing mountpoint c.path

/-- **An entry is found by drilling down**: it is the mountpoint's own, or is listed in a
directory one gets to. -/
def Found (collation : String → String → Bool) (db : Database) (v : Volume) (row : FsEntryRow × ℕ) : Prop :=
  row.1.path = v.mountpoint ∨
    ∃ path, Reached (children collation db v) v.mountpoint path ∧
      tree_child db.subtree_rollup row ∈ children collation db v path

/-- **A child carries some totals.** -/
structure Carries (c : TreeChild) (acc : Acc) : Prop where
  size_logical : c.subtree_size_logical = acc.total_size_logical
  size_on_disk : c.subtree_size_on_disk = acc.total_size_on_disk
  file_count : c.file_count = acc.file_count

/-- **Drill-down is complete** for a volume. -/
structure DrillDown (lower : String → String) (collation : String → String → Bool) (db : Database) (v : Volume) :
    Prop where
  exact_listing : ∀ p, IsDirectory lower v.mountpoint p → Exact lower collation db v p
  found : ∀ row ∈ rows_with_ids db.cat, row.1.volume_id = v.id → row.1.present = true →
    Found collation db v row
  rollups : ∀ p, IsDirectory lower v.mountpoint p → ∀ c ∈ children collation db v p.str, c.is_dir = true →
    Carries c (totals (entries_beneath lower db.cat v (pure_path c.path)))

/-- **What it takes.** The volume is a POSIX one, or has no entry but its mountpoint's own;
each directory between the mountpoint and an entry has an entry itself; and a directory
without a rollup, because nothing lies beneath it or the mountpoint is `//`, has by chance
the size of what lies beneath it, and no files there. -/
structure Drillable (lower : String → String) (cat : Catalogue) (v : Volume) : Prop where
  posix : v.mountpoint.toList.head? = some '/' ∨ ∀ r ∈ present_rows cat v.id, r.path = v.mountpoint
  ancestors : ∀ r ∈ present_rows cat v.id, ∀ p ∈ (pure_path r.path).parents,
    IsDirectory lower v.mountpoint p → p.str ≠ v.mountpoint →
      ∃ d ∈ present_rows cat v.id, d.is_dir = true ∧ d.path = p.str
  bare : ∀ d ∈ present_rows cat v.id, d.is_dir = true → d.path ≠ v.mountpoint →
    v.mountpoint = "//" ∨ entries_beneath lower cat v (pure_path d.path) = [] →
      d.size_logical = (totals (entries_beneath lower cat v (pure_path d.path))).total_size_logical ∧
      d.size_on_disk = (totals (entries_beneath lower cat v (pure_path d.path))).total_size_on_disk ∧
      (totals (entries_beneath lower cat v (pure_path d.path))).file_count = 0

/-! ## Listings -/

section

variable {lower : String → String} {collation : String → String → Bool} {db : Database} {v : Volume}

theorem mem_rows_with_ids {cat : Catalogue} {row : FsEntryRow × ℕ} (h : row ∈ rows_with_ids cat) :
    row.1 ∈ cat.fs_entry.rows := List.fst_mem_of_mem_zipIdx h

theorem exists_row_with_id {cat : Catalogue} {r : FsEntryRow} (h : r ∈ cat.fs_entry.rows) :
    ∃ id, (r, id) ∈ rows_with_ids cat := by
  have hmap : r ∈ (rows_with_ids cat).map Prod.fst := by
    rw [rows_with_ids, List.zipIdx_map_fst]
    exact h
  obtain ⟨row, hrow, rfl⟩ := List.mem_map.mp hmap
  exact ⟨row.2, hrow⟩

theorem mem_present_rows {cat : Catalogue} {volume_id : ℕ} {r : FsEntryRow} :
    r ∈ present_rows cat volume_id ↔ r ∈ cat.fs_entry.rows ∧ r.volume_id = volume_id ∧ r.present = true := by
  rw [present_rows, List.mem_filter, decide_eq_true_eq]

theorem list_children_ok (hv : get_volume db.cat v.id = some v) (path : String) :
    list_children collation db v.id path none
      = .ok ((((rows_with_ids db.cat).filter fun row => listed v path row.1).mergeSort fun row row' =>
          collation row.1.name row'.1.name).map (tree_child db.subtree_rollup)) := by
  rw [list_children, hv]
  rfl

theorem mem_children (hv : get_volume db.cat v.id = some v) {path : String} {c : TreeChild} :
    c ∈ children collation db v path ↔
      ∃ row ∈ rows_with_ids db.cat, listed v path row.1 = true ∧ tree_child db.subtree_rollup row = c := by
  rw [children, list_children_ok hv]
  dsimp only
  rw [List.mem_map]
  constructor
  · rintro ⟨row, hrow, rfl⟩
    obtain ⟨hmem, hlisted⟩ := List.mem_filter.mp (List.mem_mergeSort.mp hrow)
    exact ⟨row, hmem, hlisted, rfl⟩
  · rintro ⟨row, hmem, hlisted, rfl⟩
    exact ⟨row, List.mem_mergeSort.mpr (List.mem_filter.mpr ⟨hmem, hlisted⟩), rfl⟩

/-- A listing is exact when the conditions of the query select the children. -/
theorem exact_of_listed (hv : get_volume db.cat v.id = some v) {p : PurePath}
    (h : ∀ r ∈ db.cat.fs_entry.rows, listed v p.str r = true ↔
      r.volume_id = v.id ∧ r.present = true ∧ is_child lower p r = true) : Exact lower collation db v p := by
  refine ⟨_, list_children_ok hv _, ?_⟩
  refine (List.Perm.trans (List.mergeSort_perm _ _) (List.Perm.of_eq ?_)).map _
  refine List.filter_congr fun row hrow => ?_
  rw [Bool.eq_iff_iff, h row.1 (mem_rows_with_ids hrow), decide_eq_true_eq]

end

/-! ## Paths -/

section

variable {lower : String → String} {root : List Char} {names : List Name}

theorem str_toList (h : IsPosix root names) : (PurePath.posix root names).str.toList = posix_text root names := by
  rw [PurePath.str, String.toList_ofList, posix_chars h]
  rfl

theorem pure_path_posix (h : IsPosix root names) : pure_path (PurePath.posix root names).str = .posix root names := by
  have hwindows : is_windows_path (PurePath.posix root names).str = false := by
    rw [is_windows_path, str_toList h, posix_text]
    rcases h.root with hroot | hroot
    · rw [hroot]
      rcases hjoin : join '/' names with _ | ⟨c, _ | ⟨d, rest⟩⟩
      · rfl
      · simp
      · by_cases hc : c = ':'
        · rw [hc]
          rfl
        · simp [hc]
    · rw [hroot]
      rfl
  rw [pure_path, hwindows, if_neg Bool.false_ne_true, str_toList h]
  exact posix_path_anchored h

theorem parents_head {n : ℕ} (f : ℕ → PurePath) :
    ((List.range n).reverse.map f).head? = if n = 0 then none else some (f (n - 1)) := by
  cases n with
  | zero => rfl
  | succ n =>
      rw [List.range_succ, List.reverse_append, List.reverse_singleton, List.singleton_append, List.map_cons,
        List.head?_cons, if_neg (Nat.succ_ne_zero n), Nat.add_sub_cancel]

theorem same_posix (lower : String → String) {root' : List Char} {names' : List Name} (h : IsPosix root names) (h' : IsPosix root' names') :
    PurePath.same lower (.posix root names) (.posix root' names') = true ↔ root = root' ∧ names = names' := by
  constructor
  · intro hsame
    have hstr : (PurePath.posix root names).str = (PurePath.posix root' names').str := of_decide_eq_true hsame
    have hchars := congrArg String.toList hstr
    rw [PurePath.str, PurePath.str, String.toList_ofList, String.toList_ofList] at hchars
    exact posix_chars_inj h h' hchars
  · rintro ⟨rfl, rfl⟩
    exact decide_eq_true rfl

/-- A path above another is a proper beginning of its components. -/
theorem mem_parents_iff {p : PurePath} :
    p ∈ (PurePath.posix root names).parents ↔ ∃ c d, d ≠ [] ∧ names = c ++ d ∧ p = .posix root c := by
  show p ∈ (List.range names.length).reverse.map (fun n => PurePath.posix root (names.take n)) ↔ _
  rw [List.mem_map]
  constructor
  · rintro ⟨n, hn, rfl⟩
    rw [List.mem_reverse, List.mem_range] at hn
    refine ⟨names.take n, names.drop n, ?_, (List.take_append_drop n names).symm, rfl⟩
    intro hnil
    have := List.drop_eq_nil_iff.mp hnil
    omega
  · rintro ⟨c, d, hd, rfl, rfl⟩
    refine ⟨c.length, ?_, by rw [List.take_left]⟩
    rw [List.mem_reverse, List.mem_range, List.length_append]
    have := List.length_pos_of_ne_nil hd
    omega

/-- The parent of a path is it without its last component. -/
theorem head_parents_iff {p : PurePath} :
    (PurePath.posix root names).parents.head? = some p ↔ ∃ c x, names = c ++ [x] ∧ p = .posix root c := by
  show ((List.range names.length).reverse.map fun n => PurePath.posix root (names.take n)).head? = some p ↔ _
  rw [parents_head]
  rcases List.eq_nil_or_concat names with hnil | ⟨init, last, hsnoc⟩
  · rw [hnil]
    refine iff_of_false (by simp) ?_
    rintro ⟨c, x, heq, -⟩
    exact absurd heq (by simp)
  · rw [List.concat_eq_append] at hsnoc
    rw [hsnoc, List.length_append, List.length_singleton, if_neg (Nat.succ_ne_zero _), Nat.add_sub_cancel,
      List.take_left, Option.some.injEq]
    constructor
    · intro heq
      exact ⟨init, last, rfl, heq.symm⟩
    · rintro ⟨c, x, heq, rfl⟩
      rw [(List.append_inj' heq rfl).1]

end

/-! ## POSIX volumes -/

/-- A volume with a POSIX mountpoint, and its entries below that. -/
structure OnPosix (cat : Catalogue) (v : Volume) (root : List Char) (mount : List Name) : Prop where
  normal : IsPosix root mount
  mountpoint : v.mountpoint = (PurePath.posix root mount).str
  rows : ∀ r ∈ cat.fs_entry.rows, r.volume_id = v.id →
    ∃ below, IsPosix root (mount ++ below) ∧ r.path = (PurePath.posix root (mount ++ below)).str ∧
      r.depth = below.length

section

variable {lower : String → String} {collation : String → String → Bool} {db : Database} {v : Volume}
variable {root : List Char} {mount : List Name}

variable {cat : Catalogue} {c below : List Name} {r : FsEntryRow}

theorem below_components (h : IsPosix root (mount ++ below)) :
    ∀ name ∈ below, IsComponent '/' name := fun n hn => h.normal n (List.mem_append_right _ hn)

/-- A directory of a POSIX volume is the mountpoint and some components. -/
theorem posix_directory (h : IsPosix root mount) {mountpoint : String}
    (hv : mountpoint = (PurePath.posix root mount).str) {p : PurePath} :
    IsDirectory lower mountpoint p ↔ ∃ c, IsPosix root (mount ++ c) ∧ p = .posix root (mount ++ c) := by
  constructor
  · rintro ⟨hnormal, hwithin⟩
    rw [hv, pure_path_posix h] at hwithin
    cases hnormal with
    | windows hwindows =>
        rw [not_within_flavour.1] at hwithin
        exact absurd hwithin Bool.false_ne_true
    | posix hposix =>
        obtain ⟨c, hbelow⟩ := below_posix h hposix hwithin
        cases hbelow
        exact ⟨c, hposix, rfl⟩
  · rintro ⟨c, hposix, rfl⟩
    refine ⟨.posix hposix, ?_⟩
    rw [hv, pure_path_posix h, PurePath.within, Bool.or_eq_true]
    by_cases hc : c = []
    · left
      rw [hc, List.append_nil]
      exact (same_posix lower h h).mpr ⟨rfl, rfl⟩
    · right
      rw [List.any_eq_true]
      exact ⟨_, mem_parents_iff.mpr ⟨mount, c, hc, rfl, rfl⟩, (same_posix lower h h).mpr ⟨rfl, rfl⟩⟩

theorem is_child_posix (hc : IsPosix root (mount ++ c)) (hr : IsPosix root (mount ++ below))
    (hpath : r.path = (PurePath.posix root (mount ++ below)).str) :
    is_child lower (.posix root (mount ++ c)) r = true ↔ ∃ x, below = c ++ [x] := by
  rw [is_child, hpath, pure_path_posix hr, Option.any_eq_true]
  constructor
  · rintro ⟨q, hq, hsame⟩
    obtain ⟨above, x, hnames, rfl⟩ := head_parents_iff.mp hq
    have habove : IsPosix root above :=
      ⟨hr.root, fun n hn => hr.normal n (by rw [hnames]; exact List.mem_append_left _ hn)⟩
    have heq := ((same_posix lower hc habove).mp hsame).2
    refine ⟨x, List.append_cancel_left (hnames.trans ?_)⟩
    rw [← heq, List.append_assoc]
  · rintro ⟨x, rfl⟩
    exact ⟨_, head_parents_iff.mpr ⟨mount ++ c, x, (List.append_assoc _ _ _).symm, rfl⟩,
      (same_posix lower hc hc).mpr ⟨rfl, rfl⟩⟩

/-- A directory is above a path when components are left below it. -/
theorem any_parent_posix (hc : IsPosix root (mount ++ c)) (hr : IsPosix root (mount ++ below)) :
    (PurePath.posix root (mount ++ below)).parents.any (PurePath.same lower (.posix root (mount ++ c))) = true ↔
      ∃ d, d ≠ [] ∧ below = c ++ d := by
  rw [List.any_eq_true]
  constructor
  · rintro ⟨q, hq, hsame⟩
    obtain ⟨above, d, hd, hnames, rfl⟩ := mem_parents_iff.mp hq
    have habove : IsPosix root above :=
      ⟨hr.root, fun n hn => hr.normal n (by rw [hnames]; exact List.mem_append_left _ hn)⟩
    have heq := ((same_posix lower hc habove).mp hsame).2
    refine ⟨d, hd, List.append_cancel_left (hnames.trans ?_)⟩
    rw [← heq, List.append_assoc]
  · rintro ⟨d, hd, rfl⟩
    exact ⟨_, mem_parents_iff.mpr ⟨mount ++ c, d, hd, (List.append_assoc _ _ _).symm, rfl⟩,
      (same_posix lower hc hc).mpr ⟨rfl, rfl⟩⟩

theorem is_beneath_posix (hc : IsPosix root (mount ++ c)) (hr : IsPosix root (mount ++ below))
    (hpath : r.path = (PurePath.posix root (mount ++ below)).str) :
    is_beneath lower (.posix root (mount ++ c)) r = true ↔ ∃ d, d ≠ [] ∧ below = c ++ d := by
  rw [is_beneath, hpath, pure_path_posix hr]
  exact any_parent_posix hc hr

/-- **The query selects the children.** -/
theorem listed_posix (lower : String → String) (h : OnPosix db.cat v root mount) (hc : IsPosix root (mount ++ c))
    (hr : r ∈ db.cat.fs_entry.rows) : listed v (PurePath.posix root (mount ++ c)).str r = true ↔
      r.volume_id = v.id ∧ r.present = true ∧ is_child lower (.posix root (mount ++ c)) r = true := by
  rw [listed_iff]
  by_cases hvolume : r.volume_id = v.id
  swap
  · exact iff_of_false (fun hall => hvolume hall.1) fun hall => hvolume hall.1
  obtain ⟨below, hbelow, hpath, hdepth⟩ := h.rows r hr hvolume
  rw [is_child_posix hc hbelow hpath, h.mountpoint, str_toList h.normal, str_toList hc, hpath, str_toList hbelow,
    depth_within_text (below_components hc), hdepth, prefix_text_iff hc hbelow]
  refine and_congr_right fun _ => and_congr_right fun _ => ?_
  constructor
  · rintro ⟨hlength, hprefix⟩
    have hlength : below.length = c.length + 1 := by exact_mod_cast hlength
    have hmore : ∃ more, below = c ++ more := by
      rcases hprefix with hnil | ⟨more, -, heq⟩
      · exact ⟨below, by rw [(List.append_eq_nil_iff.mp hnil).2, List.nil_append]⟩
      · exact ⟨more, List.append_cancel_left (heq.trans (List.append_assoc mount c more))⟩
    obtain ⟨more, rfl⟩ := hmore
    rw [List.length_append] at hlength
    obtain ⟨x, hx⟩ := List.length_eq_one_iff.mp (show more.length = 1 by omega)
    exact ⟨x, by rw [hx]⟩
  · rintro ⟨x, rfl⟩
    refine ⟨by rw [List.length_append, List.length_singleton]; push_cast; rfl, Or.inr ⟨[x], ?_, ?_⟩⟩
    · exact List.cons_ne_nil _ _
    · rw [List.append_assoc]

/-! ### Rollups -/

theorem path_toList (hr : IsPosix root (mount ++ below)) (hpath : r.path = (PurePath.posix root (mount ++ below)).str) :
    r.path.toList = posix_text root (mount ++ below) := by
  rw [hpath, str_toList hr]

theorem nodup_ancestors (h : OnPosix cat v root mount) :
    ∀ r ∈ present_rows cat v.id, (ancestor_dirs r.path.toList v.mountpoint.toList).Nodup := by
  intro r hr
  obtain ⟨hmem, hvolume, -⟩ := mem_present_rows.mp hr
  obtain ⟨below, hbelow, hpath, -⟩ := h.rows r hmem hvolume
  rw [path_toList hbelow hpath, h.mountpoint, str_toList h.normal]
  exact nodup_ancestor_dirs h.normal (below_components hbelow)

theorem mountpoint_slashes_iff (h : IsPosix root mount) (hv : v.mountpoint = (PurePath.posix root mount).str) :
    v.mountpoint = "//" ↔ root = ['/', '/'] ∧ mount = [] := by
  have hslashes : IsPosix ['/', '/'] [] := ⟨Or.inr rfl, fun n hn => absurd hn List.not_mem_nil⟩
  have hstr : (PurePath.posix ['/', '/'] []).str = "//" := rfl
  rw [hv, ← hstr]
  constructor
  · intro heq
    exact (same_posix id h hslashes).mp (decide_eq_true heq)
  · rintro ⟨rfl, rfl⟩
    rfl

/-- **What contributes under a directory below the mountpoint** lies beneath it, or
nothing does, below `//`. -/
theorem beneath_posix (lower : String → String) (h : OnPosix cat v root mount) (hc : IsPosix root (mount ++ c))
    (hne : c ≠ []) : beneath (present_rows cat v.id) v.mountpoint (PurePath.posix root (mount ++ c)).str
      = if v.mountpoint = "//" then [] else entries_beneath lower cat v (.posix root (mount ++ c)) := by
  have hiff : ∀ r ∈ present_rows cat v.id,
      ((PurePath.posix root (mount ++ c)).str.toList ∈ ancestor_dirs r.path.toList v.mountpoint.toList ↔
        v.mountpoint ≠ "//" ∧ is_beneath lower (.posix root (mount ++ c)) r = true) := by
    intro r hr
    obtain ⟨hmem, hvolume, -⟩ := mem_present_rows.mp hr
    obtain ⟨below, hbelow, hpath, -⟩ := h.rows r hmem hvolume
    rw [is_beneath_posix hc hbelow hpath, Ne, mountpoint_slashes_iff h.normal h.mountpoint, path_toList hbelow hpath,
      h.mountpoint, str_toList h.normal, str_toList hc]
    exact mem_ancestor_dirs_iff h.normal (below_components hbelow) (below_components hc) hne
  rw [beneath]
  by_cases hslashes : v.mountpoint = "//"
  · rw [if_pos hslashes, List.filter_eq_nil_iff]
    intro r hr hmem
    exact ((hiff r hr).mp (of_decide_eq_true hmem)).1 hslashes
  · rw [if_neg hslashes, entries_beneath]
    refine List.filter_congr fun r hr => ?_
    rw [Bool.eq_iff_iff, decide_eq_true_eq, hiff r hr]
    exact and_iff_right hslashes

/-- What is stored under a directory below the mountpoint. -/
theorem find_rollup_posix (lower : String → String) (h : OnPosix cat v root mount) (t : Table SubtreeRollup.key)
    (now : Instant) (hc : IsPosix root (mount ++ c)) (hne : c ≠ []) :
    (replace_rollup t cat v now).find ⟨v.id, (PurePath.posix root (mount ++ c)).str⟩
      = if v.mountpoint = "//" ∨ entries_beneath lower cat v (.posix root (mount ++ c)) = [] then none
        else some (rollup_row v.id v.mountpoint now
          ⟨(PurePath.posix root (mount ++ c)).str, totals (entries_beneath lower cat v (.posix root (mount ++ c)))⟩) := by
  have hbeneath := beneath_posix lower h hc hne
  rw [find_replace_rollup, find_tally (nodup_ancestors h), hbeneath]
  by_cases hslashes : v.mountpoint = "//"
  · rw [if_pos hslashes, if_pos rfl, if_pos (Or.inl hslashes)]
    rfl
  · rw [if_neg hslashes]
    by_cases hempty : entries_beneath lower cat v (.posix root (mount ++ c)) = []
    · rw [if_pos hempty, if_pos (Or.inr hempty)]
      rfl
    · rw [if_neg hempty, if_neg (not_or.mpr ⟨hslashes, hempty⟩)]
      rfl

/-- **A listed directory carries its rollup** when there is one; else its own size has to
do. -/
theorem carries_posix (h : OnPosix cat v root mount) (t : Table SubtreeRollup.key) (now : Instant)
    (hc : IsPosix root (mount ++ c)) (hne : c ≠ []) {d : FsEntryRow} (hvolume : d.volume_id = v.id)
    (hdir : d.is_dir = true) (hpath : d.path = (PurePath.posix root (mount ++ c)).str) (id : ℕ) :
    Carries (tree_child (replace_rollup t cat v now) (d, id)) (totals (entries_beneath lower cat v (pure_path d.path))) ↔
      (v.mountpoint = "//" ∨ entries_beneath lower cat v (pure_path d.path) = [] →
        d.size_logical = (totals (entries_beneath lower cat v (pure_path d.path))).total_size_logical ∧
        d.size_on_disk = (totals (entries_beneath lower cat v (pure_path d.path))).total_size_on_disk ∧
        (totals (entries_beneath lower cat v (pure_path d.path))).file_count = 0) := by
  have hfind := find_rollup_posix lower h t now hc hne
  rw [← hvolume, ← hpath] at hfind
  rw [hpath, pure_path_posix hc]
  by_cases hbare : v.mountpoint = "//" ∨ entries_beneath lower cat v (.posix root (mount ++ c)) = []
  · rw [if_pos hbare] at hfind
    constructor
    · rintro ⟨hlogical, hdisk, hfiles⟩ _
      rw [tree_child] at hlogical hdisk hfiles
      dsimp only at hlogical hdisk hfiles
      rw [hfind] at hlogical hdisk hfiles
      rw [hdir] at hfiles
      exact ⟨hlogical, hdisk, hfiles.symm⟩
    · intro hown
      obtain ⟨hlogical, hdisk, hfiles⟩ := hown hbare
      refine ⟨?_, ?_, ?_⟩
      · rw [tree_child]
        dsimp only
        rw [hfind]
        exact hlogical
      · rw [tree_child]
        dsimp only
        rw [hfind]
        exact hdisk
      · rw [tree_child]
        dsimp only
        rw [hfind, hdir]
        exact hfiles.symm
  · rw [if_neg hbare] at hfind
    refine iff_of_true ?_ fun h => absurd h hbare
    refine ⟨?_, ?_, ?_⟩
    · rw [tree_child]
      dsimp only
      rw [hfind]
      rfl
    · rw [tree_child]
      dsimp only
      rw [hfind]
      rfl
    · rw [tree_child]
      dsimp only
      rw [hfind]
      rfl

/-! ### Descending -/

/-- Each directory below the mountpoint down to a path has an entry. -/
def Covered (cat : Catalogue) (v : Volume) (root : List Char) (mount c : List Name) : Prop :=
  ∀ q, q ≠ [] → q <+: c → ∃ d ∈ present_rows cat v.id, d.is_dir = true ∧
    d.path = (PurePath.posix root (mount ++ q)).str

theorem posix_prefix {q : List Name} (hc : IsPosix root (mount ++ c)) (hq : q <+: c) : IsPosix root (mount ++ q) := by
  refine ⟨hc.root, fun n hn => hc.normal n ?_⟩
  rw [List.mem_append] at hn ⊢
  exact hn.imp id fun hmem => hq.subset hmem

/-- **One gets to a directory** by going through each of those above it. -/
theorem reached_of_covered (h : OnPosix db.cat v root mount) (hv : get_volume db.cat v.id = some v)
    (hc : IsPosix root (mount ++ c)) (hcovered : Covered db.cat v root mount c) :
    Reached (children collation db v) v.mountpoint (PurePath.posix root (mount ++ c)).str := by
  induction c using List.reverseRecOn with
  | nil =>
      rw [List.append_nil, ← h.mountpoint]
      exact .mount
  | append_singleton c x ih =>
      have hprefix : c <+: c ++ [x] := List.prefix_append _ _
      have habove := posix_prefix hc hprefix
      have hreached := ih habove fun q hq hqc => hcovered q hq (hqc.trans hprefix)
      obtain ⟨d, hd, hdir, hpath⟩ := hcovered (c ++ [x]) (by simp) List.prefix_rfl
      obtain ⟨hmem, hvolume, hpresent⟩ := mem_present_rows.mp hd
      obtain ⟨id, hid⟩ := exists_row_with_id hmem
      have hlisted : listed v (PurePath.posix root (mount ++ c)).str d = true :=
        (listed_posix (fun s => s) h habove hmem).mpr
          ⟨hvolume, hpresent, (is_child_posix habove hc hpath).mpr ⟨x, rfl⟩⟩
      have hchild : tree_child db.subtree_rollup (d, id) ∈ children collation db v (PurePath.posix root (mount ++ c)).str :=
        (mem_children hv).mpr ⟨(d, id), hid, hlisted, rfl⟩
      rw [← hpath]
      exact .child hreached hchild hdir

/-- **One gets only to what is covered.** -/
theorem covered_of_reached (h : OnPosix db.cat v root mount) (hv : get_volume db.cat v.id = some v) {path : String}
    (hreached : Reached (children collation db v) v.mountpoint path) :
    ∃ c, IsPosix root (mount ++ c) ∧ path = (PurePath.posix root (mount ++ c)).str ∧ Covered db.cat v root mount c := by
  induction hreached with
  | mount =>
      refine ⟨[], by rw [List.append_nil]; exact h.normal, by rw [List.append_nil, h.mountpoint], ?_⟩
      intro q hq hprefix
      exact absurd (List.prefix_nil.mp hprefix) hq
  | child _ hchild hdir ih =>
      obtain ⟨c, hc, hpath, hcovered⟩ := ih
      obtain ⟨⟨d, id⟩, hrow, hlisted, rfl⟩ := (mem_children hv).mp hchild
      have hmem := mem_rows_with_ids hrow
      rw [hpath] at hlisted
      obtain ⟨hvolume, hpresent, his_child⟩ := (listed_posix (fun s => s) h hc hmem).mp hlisted
      obtain ⟨below, hbelow, hdpath, -⟩ := h.rows d hmem hvolume
      obtain ⟨x, rfl⟩ := (is_child_posix hc hbelow hdpath).mp his_child
      refine ⟨c ++ [x], hbelow, hdpath, ?_⟩
      intro q hq hprefix
      rcases List.prefix_concat_iff.mp hprefix with heq | habove
      · exact ⟨d, mem_present_rows.mpr ⟨hmem, hvolume, hpresent⟩, hdir, by rw [heq]; exact hdpath⟩
      · exact hcovered q hq habove

/-! ### Each part of it -/

theorem mountpoint_of_nil (h : OnPosix cat v root mount) (hc : IsPosix root (mount ++ c)) :
    (PurePath.posix root (mount ++ c)).str = v.mountpoint ↔ c = [] := by
  rw [h.mountpoint]
  constructor
  · intro heq
    have hnames := ((same_posix id hc h.normal).mp (decide_eq_true heq)).2
    exact List.append_cancel_left (hnames.trans (List.append_nil mount).symm)
  · intro hnil
    rw [hnil, List.append_nil]

variable {row : FsEntryRow × ℕ}

/-- What is found has all its directories catalogued. -/
theorem ancestors_of_found (db : Database) (h : OnPosix db.cat v root mount) (hv : get_volume db.cat v.id = some v)
    (hmem : row.1 ∈ db.cat.fs_entry.rows) (hvolume : row.1.volume_id = v.id) (hfound : Found collation db v row)
    {p : PurePath} (hp : p ∈ (pure_path row.1.path).parents) (hdirectory : IsDirectory lower v.mountpoint p)
    (hne : p.str ≠ v.mountpoint) : ∃ d ∈ present_rows db.cat v.id, d.is_dir = true ∧ d.path = p.str := by
  obtain ⟨below, hbelow, hpath, -⟩ := h.rows row.1 hmem hvolume
  obtain ⟨c, hc, rfl⟩ := (posix_directory h.normal h.mountpoint).mp hdirectory
  rw [hpath, pure_path_posix hbelow] at hp
  obtain ⟨above, d, hd, hnames, heq⟩ := mem_parents_iff.mp hp
  have hsplit : below = c ++ d := by
    rw [← (PurePath.posix.inj heq).2, List.append_assoc] at hnames
    exact List.append_cancel_left hnames
  have hc_ne : c ≠ [] := fun hnil => hne ((mountpoint_of_nil h hc).mpr hnil)
  rcases hfound with hself | ⟨path, hreached, hchild⟩
  · -- the mountpoint's own entry has no directory above it
    have hnil := (mountpoint_of_nil h hbelow).mp (hpath.symm.trans hself)
    rw [hsplit] at hnil
    exact absurd (List.append_eq_nil_iff.mp hnil).1 hc_ne
  · -- it is listed in a directory one gets to, and the path is that or above it
    obtain ⟨q, hq, rfl, hcovered⟩ := covered_of_reached h hv hreached
    obtain ⟨row', hrow', hlisted, hsame⟩ := (mem_children hv).mp hchild
    obtain ⟨-, -, his_child⟩ := (listed_posix lower h hq (mem_rows_with_ids hrow')).mp hlisted
    obtain ⟨x, hx⟩ := (is_child_posix hq hbelow ((congrArg TreeChild.path hsame).trans hpath)).mp his_child
    apply hcovered c hc_ne
    rw [hsplit] at hx
    rcases List.eq_nil_or_concat d with hnil | ⟨init, last, hsnoc⟩
    · exact absurd hnil hd
    · rw [hsnoc, List.concat_eq_append, ← List.append_assoc] at hx
      exact ⟨init, (List.append_inj' hx rfl).1⟩

/-- What has all its directories catalogued is found. -/
theorem found_of_ancestors (h : OnPosix db.cat v root mount) (hv : get_volume db.cat v.id = some v)
    (hrow : row ∈ rows_with_ids db.cat) (hvolume : row.1.volume_id = v.id) (hpresent : row.1.present = true)
    (hancestors : ∀ p ∈ (pure_path row.1.path).parents, IsDirectory lower v.mountpoint p → p.str ≠ v.mountpoint →
      ∃ d ∈ present_rows db.cat v.id, d.is_dir = true ∧ d.path = p.str) : Found collation db v row := by
  have hmem := mem_rows_with_ids hrow
  obtain ⟨below, hbelow, hpath, -⟩ := h.rows row.1 hmem hvolume
  rcases List.eq_nil_or_concat below with hnil | ⟨c, x, hsnoc⟩
  · left
    rw [hpath, (mountpoint_of_nil h hbelow).mpr hnil]
  right
  rw [List.concat_eq_append] at hsnoc
  have hc : IsPosix root (mount ++ c) := posix_prefix hbelow ⟨[x], hsnoc.symm⟩
  have hcovered : Covered db.cat v root mount c := by
    rintro q hq ⟨more, hmore⟩
    have hqposix := posix_prefix hc ⟨more, hmore⟩
    apply hancestors (.posix root (mount ++ q))
    · rw [hpath, pure_path_posix hbelow]
      refine mem_parents_iff.mpr ⟨mount ++ q, more ++ [x], by simp, ?_, rfl⟩
      rw [hsnoc, ← hmore]
      simp only [List.append_assoc]
    · exact (posix_directory h.normal h.mountpoint).mpr ⟨q, hqposix, rfl⟩
    · exact fun heq => hq ((mountpoint_of_nil h hqposix).mp heq)
  refine ⟨_, reached_of_covered h hv hc hcovered, (mem_children hv).mpr ⟨row, hrow, ?_, rfl⟩⟩
  exact (listed_posix lower h hc hmem).mpr ⟨hvolume, hpresent, (is_child_posix hc hbelow hpath).mpr ⟨x, hsnoc⟩⟩

/-- A directory below the mountpoint is listed in the one above it. -/
theorem listed_in_parent (db : Database) (h : OnPosix db.cat v root mount) (hv : get_volume db.cat v.id = some v)
    (hrow : row ∈ rows_with_ids db.cat) (hvolume : row.1.volume_id = v.id) (hpresent : row.1.present = true)
    (hbelow : IsPosix root (mount ++ below)) (hne : below ≠ [])
    (hpath : row.1.path = (PurePath.posix root (mount ++ below)).str) :
    ∃ p, IsDirectory lower v.mountpoint p ∧ tree_child db.subtree_rollup row ∈ children collation db v p.str := by
  rcases List.eq_nil_or_concat below with hnil | ⟨c, x, hsnoc⟩
  · exact absurd hnil hne
  rw [List.concat_eq_append] at hsnoc
  have hc : IsPosix root (mount ++ c) := posix_prefix hbelow ⟨[x], hsnoc.symm⟩
  refine ⟨_, (posix_directory h.normal h.mountpoint).mpr ⟨c, hc, rfl⟩, (mem_children hv).mpr ⟨row, hrow, ?_, rfl⟩⟩
  exact (listed_posix lower h hc (mem_rows_with_ids hrow)).mpr
    ⟨hvolume, hpresent, (is_child_posix hc hbelow hpath).mpr ⟨x, hsnoc⟩⟩

/-- **Drill-down on a POSIX volume.** -/
theorem drill_down_posix (h : OnPosix cat v root mount) (hv : get_volume cat v.id = some v)
    (t : Table SubtreeRollup.key) (now : Instant) :
    DrillDown lower collation ⟨cat, replace_rollup t cat v now⟩ v ↔ Drillable lower cat v := by
  constructor
  · intro hdrill
    refine ⟨Or.inl ?_, ?_, ?_⟩
    · rw [h.mountpoint, str_toList h.normal, posix_text]
      rcases h.normal.root with hroot | hroot
      · rw [hroot]
        rfl
      · rw [hroot]
        rfl
    · intro r hr p hp hdirectory hne
      obtain ⟨hmem, hvolume, hpresent⟩ := mem_present_rows.mp hr
      obtain ⟨id, hid⟩ := exists_row_with_id hmem
      exact ancestors_of_found ⟨cat, _⟩ h hv hmem hvolume (hdrill.found (r, id) hid hvolume hpresent) hp
        hdirectory hne
    · intro d hd hdir hne
      obtain ⟨hmem, hvolume, hpresent⟩ := mem_present_rows.mp hd
      obtain ⟨below, hbelow, hpath, -⟩ := h.rows d hmem hvolume
      have hbelow_ne : below ≠ [] := fun hnil => hne (hpath.trans ((mountpoint_of_nil h hbelow).mpr hnil))
      obtain ⟨id, hid⟩ := exists_row_with_id hmem
      obtain ⟨p, hp, hchild⟩ := listed_in_parent ⟨cat, _⟩ h hv hid hvolume hpresent hbelow hbelow_ne hpath
      exact (carries_posix h t now hbelow hbelow_ne hvolume hdir hpath id).mp (hdrill.rollups p hp _ hchild hdir)
  · intro hdrillable
    refine ⟨?_, ?_, ?_⟩
    · intro p hp
      obtain ⟨c, hc, rfl⟩ := (posix_directory h.normal h.mountpoint).mp hp
      exact exact_of_listed hv fun r hr => listed_posix lower h hc hr
    · intro row hrow hvolume hpresent
      exact found_of_ancestors h hv hrow hvolume hpresent
        (hdrillable.ancestors row.1 (mem_present_rows.mpr ⟨mem_rows_with_ids hrow, hvolume, hpresent⟩))
    · intro p hp c hchild hdir
      obtain ⟨above, habove, rfl⟩ := (posix_directory h.normal h.mountpoint).mp hp
      obtain ⟨⟨d, id⟩, hrow, hlisted, rfl⟩ := (mem_children hv).mp hchild
      have hmem := mem_rows_with_ids hrow
      obtain ⟨hvolume, hpresent, his_child⟩ := (listed_posix lower h habove hmem).mp hlisted
      obtain ⟨below, hbelow, hpath, -⟩ := h.rows d hmem hvolume
      obtain ⟨x, rfl⟩ := (is_child_posix habove hbelow hpath).mp his_child
      have hbelow_ne : above ++ [x] ≠ [] := by simp
      apply (carries_posix h t now hbelow hbelow_ne hvolume hdir hpath id).mpr
      apply hdrillable.bare d (mem_present_rows.mpr ⟨hmem, hvolume, hpresent⟩) hdir
      rw [hpath]
      exact fun heq => hbelow_ne ((mountpoint_of_nil h hbelow).mp heq)

end

/-! ## Windows volumes -/

/-- A volume with a Windows mountpoint. -/
structure OnWindows (cat : Catalogue) (v : Volume) (drive root : List Char) (mount : List Name) : Prop where
  normal : IsWindows drive root mount
  windows : is_windows_path v.mountpoint = true
  mountpoint : v.mountpoint = (PurePath.windows drive root mount).str
  rows : ∀ r ∈ cat.fs_entry.rows, r.volume_id = v.id → '/' ∉ r.path.toList

section

variable {lower : String → String} {collation : String → String → Bool} {db : Database} {v : Volume}
variable {drive root : List Char} {mount : List Name}

theorem pure_path_windows {cat : Catalogue} (h : OnWindows cat v drive root mount) :
    pure_path v.mountpoint = .windows drive root mount := by
  rw [pure_path, h.windows, if_pos rfl, h.mountpoint, PurePath.str, String.toList_ofList, windows_chars h.normal]
  exact h.normal.path

/-- Nothing above a Windows mountpoint is at or below it. -/
theorem not_above_windows (hlower : Lowers lower) {cat : Catalogue} (h : OnWindows cat v drive root mount)
    {p q : PurePath} (hp : IsDirectory lower v.mountpoint p) (hq : q ∈ (PurePath.windows drive root mount).parents)
    (hsame : PurePath.same lower p q = true) : False := by
  obtain ⟨hnormal, hwithin⟩ := hp
  rw [pure_path_windows h] at hwithin
  obtain ⟨n, hn, rfl⟩ := List.mem_map.mp hq
  rw [List.mem_reverse, List.mem_range] at hn
  cases hnormal with
  | posix hposix =>
      rw [not_within_flavour.2] at hwithin
      exact absurd hwithin Bool.false_ne_true
  | @windows drive' root' names' hwindows =>
      obtain ⟨below, hbelow⟩ := below_windows hlower h.normal hwindows hwithin
      have hlonger : mount.length ≤ names'.length := by
        cases hbelow with
        | windows hdrive habove =>
            have hlength := congrArg List.length habove
            rw [List.length_map, List.length_map] at hlength
            rw [List.length_append]
            omega
      -- the same text has as many components
      have htext : lowered lower (PurePath.windows drive' root' names').chars
          = lowered lower (PurePath.windows drive root (mount.take n)).chars :=
        congrArg String.toList (of_decide_eq_true hsame)
      rw [windows_chars hwindows, PurePath.chars, if_neg fun hnil => h.normal.anchor.ne_nil hnil.1] at htext
      have hbare : root = [] → mount.take n = [] := fun hroot => by rw [h.normal.bare hroot, List.take_nil]
      have hcut : ∀ name ∈ mount.take n, IsComponent '\\' name :=
        fun name hname => h.normal.normal name (List.mem_of_mem_take hname)
      have hnames := (lowered_anchored hlower hwindows.anchor hwindows.bare hwindows.normal h.normal.anchor hbare hcut
        htext).2.2
      have hlength := congrArg List.length hnames
      rw [List.length_map, List.length_map, List.length_take] at hlength
      omega

/-- No entry of a Windows volume is listed: its path has no slash. -/
theorem not_listed_windows {cat : Catalogue} (h : OnWindows cat v drive root mount) {path : String} {r : FsEntryRow}
    (hr : r ∈ cat.fs_entry.rows) : ¬ listed v path r = true := by
  intro hlisted
  obtain ⟨hvolume, -, -, hprefix⟩ := listed_iff.mp hlisted
  apply h.rows r hr hvolume
  exact hprefix.subset (List.mem_append_right _ List.mem_cons_self)

/-- **Drill-down on a Windows volume** shows nothing. -/
theorem drill_down_windows (hlower : Lowers lower) (h : OnWindows db.cat v drive root mount)
    (hv : get_volume db.cat v.id = some v) : DrillDown lower collation db v ↔ Drillable lower db.cat v := by
  have hempty : ∀ path c, c ∉ children collation db v path := by
    intro path c hc
    obtain ⟨row, hrow, hlisted, -⟩ := (mem_children hv).mp hc
    exact not_listed_windows h (mem_rows_with_ids hrow) hlisted
  constructor
  · intro hdrill
    have hmount : ∀ r ∈ present_rows db.cat v.id, r.path = v.mountpoint := by
      intro r hr
      obtain ⟨hmem, hvolume, hpresent⟩ := mem_present_rows.mp hr
      obtain ⟨id, hid⟩ := exists_row_with_id hmem
      rcases hdrill.found (r, id) hid hvolume hpresent with hself | ⟨path, -, hchild⟩
      · exact hself
      · exact absurd hchild (hempty path _)
    refine ⟨Or.inr hmount, ?_, ?_⟩
    · intro r hr p hp hdirectory _
      rw [hmount r hr, pure_path_windows h] at hp
      refine (not_above_windows hlower h hdirectory hp ?_).elim
      obtain ⟨n, -, rfl⟩ := List.mem_map.mp hp
      exact decide_eq_true rfl
    · exact fun d hd _ hne => absurd (hmount d hd) hne
  · intro hdrillable
    have hmount : ∀ r ∈ present_rows db.cat v.id, r.path = v.mountpoint := by
      refine hdrillable.posix.resolve_left fun hhead => ?_
      have hslash : '/' ∈ v.mountpoint.toList := List.mem_of_mem_head? hhead
      rw [h.mountpoint, PurePath.str, String.toList_ofList, windows_chars h.normal] at hslash
      exact h.normal.not_slash hslash
    refine ⟨?_, ?_, ?_⟩
    · intro p hp
      refine exact_of_listed hv fun r hr => iff_of_false (not_listed_windows h hr) ?_
      rintro ⟨hvolume, hpresent, his_child⟩
      rw [is_child, hmount r (mem_present_rows.mpr ⟨hr, hvolume, hpresent⟩), pure_path_windows h,
        Option.any_eq_true] at his_child
      obtain ⟨q, hq, hsame⟩ := his_child
      exact not_above_windows hlower h hp (List.mem_of_mem_head? hq) hsame
    · intro row hrow hvolume hpresent
      exact Or.inl (hmount row.1 (mem_present_rows.mpr ⟨mem_rows_with_ids hrow, hvolume, hpresent⟩))
    · exact fun p _ c hc => absurd hc (hempty p.str c)

end

/-! ## Any volume -/

section

variable {server : Server} {cat : Catalogue} {v : Volume}

/-- A catalogued volume is of one flavour, with its entries. -/
theorem volume_cases {pushes : List Push} (hbuilt : Built server.lower pushes cat) (hv : v ∈ cat.volumes.rows)
    {mount : PurePath} (hmount : validate_agent_path v.mountpoint = .ok mount) (hcanonical : mount.str = v.mountpoint) :
    (∃ root names, OnPosix cat v root names) ∨ ∃ drive root names, OnWindows cat v drive root names := by
  have hrow : ∀ r ∈ cat.fs_entry.rows, r.volume_id = v.id →
      ∃ p below, Normalised r.path p ∧ Below server.lower mount p below ∧ r.depth = below.length := by
    intro r hr hvolume
    obtain ⟨mount', p, below, hmount', -, hnormal, hbelow, hdepth⟩ := hbuilt.vetted r hr v hv hvolume.symm
    rw [hmount, Except.ok.injEq] at hmount'
    exact ⟨p, below, hnormal, hmount' ▸ hbelow, hdepth⟩
  rcases canonical_shape hmount hcanonical with ⟨root, names, hposix, rfl⟩ | ⟨drive, root, names, hwindows, rfl⟩
  · refine Or.inl ⟨root, names, hposix, hcanonical.symm, ?_⟩
    intro r hr hvolume
    obtain ⟨p, below, hnormal, hbelow, hdepth⟩ := hrow r hr hvolume
    cases hbelow
    exact ⟨below, ⟨hposix.root, hnormal.normal⟩, hnormal.str.symm, hdepth⟩
  · refine Or.inr ⟨drive, root, names, hwindows, ?_, hcanonical.symm, ?_⟩
    · by_contra hposix
      rw [validate_agent_path, if_neg hposix] at hmount
      obtain ⟨root', names', -, heq, -⟩ := validate_config_path_shape hmount
      exact absurd heq (by simp)
    · intro r hr hvolume
      obtain ⟨p, below, hnormal, hbelow, -⟩ := hrow r hr hvolume
      cases hbelow
      rw [← hnormal.str, PurePath.str, String.toList_ofList]
      exact validate_windows_no_slash hnormal.fixed

theorem get_volume_of_mem {pushes : List Push} {lower : String → String} (hbuilt : Built lower pushes cat)
    (hv : v ∈ cat.volumes.rows) : get_volume cat v.id = some v := by
  rcases hfind : get_volume cat v.id with _ | w
  · exact absurd (decide_eq_true rfl) (List.find?_eq_none.mp hfind v hv)
  · have hid : w.id = v.id := by
      have := List.find?_some hfind
      exact of_decide_eq_true this
    rw [hbuilt.volume_ids w (List.mem_of_find?_eq_some hfind) v hv hid]

/-- **Where drill-down is complete.** After any accepted batches, once its rollups have been
recomputed: for the volumes that are `Drillable`, and no others. -/
theorem drill_down_iff (collation : String → String → Bool) {pushes : List Push} {a : Archive} {db db' : Database}
    {now : Instant} {n : ℕ} (hlower : Lowers server.lower) (h : (archiving server).Trace pushes a)
    (hv : v ∈ a.cat.volumes.rows) (hcat : db.cat = a.cat) (hrollup : recompute_full db v.id now = some (db', n)) :
    DrillDown server.lower collation db' v ↔ Drillable server.lower a.cat v := by
  have hbuilt := built hlower h
  have hget := get_volume_of_mem hbuilt hv
  obtain ⟨mount, hmount, hcanonical⟩ := canonical_mountpoints h v hv
  rw [recompute_full, hcat, hget, Option.map_some, Option.some.injEq, Prod.mk.injEq] at hrollup
  rw [← hrollup.1]
  rcases volume_cases hbuilt hv hmount hcanonical with ⟨root, names, hposix⟩ | ⟨drive, root, names, hwindows⟩
  · exact drill_down_posix hposix hget _ now
  · exact drill_down_windows hlower hwindows hget

end

/-- The volume of a first batch. -/
def volume_of_first (batch : IngestBatch) : Volume := upsert_volume (.empty _) 1 batch.volume 0

/-- The rollups of the only volume of a catalogue. -/
def rolled_up (cat : Catalogue) (v : Volume) : Database := ⟨cat, replace_rollup (.empty _) cat v 0⟩

/-- Two files of one volume. -/
theorem drill_down_two_files :
    DrillDown sample_server.lower (fun _ _ => true)
        (rolled_up (archived [two_alike "f"]).cat (volume_of_first (two_alike "f"))) (volume_of_first (two_alike "f")) ↔
      Drillable sample_server.lower (archived [two_alike "f"]).cat (volume_of_first (two_alike "f")) := by
  have htrace : (archiving sample_server).Trace [⟨two_alike "f", "fp", 0⟩] (archived [two_alike "f"]) := ⟨_, rfl, rfl⟩
  have hvolume : volume_of_first (two_alike "f") ∈ (archived [two_alike "f"]).cat.volumes.rows := List.mem_cons_self
  have hrollup : recompute_full ⟨(archived [two_alike "f"]).cat, .empty _⟩ (volume_of_first (two_alike "f")).id 0
      = some (rolled_up (archived [two_alike "f"]).cat (volume_of_first (two_alike "f")), 1) := rfl
  exact drill_down_iff _ lowers_id htrace hvolume rfl hrollup

/-- A file at the root of a Windows volume. -/
def windows_file : IngestBatch :=
  { batch_at "C:\\" with entries := [{ sample_entry "f" 7 1 10 with path := "C:\\f" }] }

theorem windows_root : IsDirectory id "C:\\" (.windows ['C', ':'] ['\\'] []) := by
  have hanchor : WindowsAnchor ['C', ':'] ['\\'] := .letter 'C' (by decide) (by decide)
  have hno : ∀ {P : Name → Prop}, ∀ name ∈ ([] : List Name), P name := fun name hname => absurd hname List.not_mem_nil
  exact ⟨.windows ⟨hanchor, fun _ => rfl, hno, hno, by decide⟩, by decide⟩

/-- The listing of `C:\` lacks the file there. -/
theorem windows_file_not_listed :
    ¬ ∀ (server : Server) (collation : String → String → Bool) (pushes : List Push) (a : Archive) (v : Volume)
      (db db' : Database) (now : Instant) (n : ℕ), Lowers server.lower → (archiving server).Trace pushes a →
      v ∈ a.cat.volumes.rows → db.cat = a.cat → recompute_full db v.id now = some (db', n) →
        DrillDown server.lower collation db' v := by
  intro hall
  have hvolume : volume_of_first windows_file ∈ (archived [windows_file]).cat.volumes.rows := List.mem_cons_self
  have hdrill := hall sample_server (fun _ _ => true) [⟨windows_file, "fp", 0⟩] (archived [windows_file])
    (volume_of_first windows_file) ⟨(archived [windows_file]).cat, .empty _⟩
    (rolled_up (archived [windows_file]).cat (volume_of_first windows_file)) 0 1 lowers_id ⟨_, rfl, rfl⟩ hvolume rfl rfl
  obtain ⟨listing, hlisting, hperm⟩ := hdrill.exact_listing _ windows_root
  have hget : get_volume (rolled_up (archived [windows_file]).cat (volume_of_first windows_file)).cat
      (volume_of_first windows_file).id = some (volume_of_first windows_file) := rfl
  have hnone : (rows_with_ids (rolled_up (archived [windows_file]).cat (volume_of_first windows_file)).cat).filter
      (fun row => listed (volume_of_first windows_file) (PurePath.windows ['C', ':'] ['\\'] []).str row.1) = [] := by
    decide
  have hempty : listing = [] := by
    rw [list_children_ok hget, hnone, List.mergeSort_nil, List.map_nil] at hlisting
    exact (Except.ok.inj hlisting).symm
  have hlength := hperm.length_eq
  rw [hempty] at hlength
  revert hlength
  decide

end Fathom.Read
