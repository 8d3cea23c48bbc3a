/-
**The scope of a full-bit pass** (`agent/runner.py`, `_run_fullbit`, and `agent/staging/store.py`,
`collision_sizes`, `candidates_of_size`): which staged files a pass opens.

The store selects by the text of a path: the root itself, or what is `LIKE` the root, a slash and
anything. Whatever lies below the root is, so no file is missed. But the root stands in the pattern
as it is. An underscore or a percent sign of its name stands for other names, and SQLite does not
tell capital letters from small ones; so what lies below another directory may be selected too, and
it is opened when its size is that of another selected file (`funnel_scope_iff`).

The runner asks for a pass only of a root that `in_fullbit_scope` admits, by the components of the
paths. For normal paths that is what the text of a path says (`below_root_iff`).
-/
import Fathom.Agent.Funnel
import Fathom.Read.Drill
import Mathlib.Data.List.Dedup

set_option autoImplicit false

namespace Fathom.Agent

open Fathom.Dedup (Candidate)
open Fathom.Ingest (Mode VolumeFrame)
open Fathom.Like (like_nocase)
open Fathom.Read (posix_text rstrip)
open Fathom.Security (IsPosix Name PurePath validate_config_path)

/-! ## The gate -/

/-- `AgentConfig.in_fullbit_scope`. -/
def in_fullbit_scope (fullbit_scope : List String) (target : String) : Bool :=
  if fullbit_scope = [] then false
  else
    match validate_config_path target with
    | .error _ => false
    | .ok candidate => fullbit_scope.any fun root =>
      match validate_config_path root with
      | .error _ => false
      | .ok root_path => PurePath.within id root_path candidate

/-! ## The selection -/

/-- `path = ? OR path LIKE ?`. -/
def matches_scope ( scope_prefix path : String) : Bool :=
  path = scope_prefix || like_nocase (rstrip scope_prefix.toList ++ ['/'] ++ ['%']) path.toList

section

variable (config : AgentConfig) (volume : VolumeFrame) (s : Staging) ( scope_prefix : String)

/-- The files that are selected, in the order of their rows. -/
def matching_files : List StagedEntry :=
  (s.rows_of config.host_id volume.mountpoint).filter fun r =>
    !r.entry.is_dir && !r.entry.is_symlink && matches_scope scope_prefix r.entry.path

/-- `candidates_of_size`. -/
def candidates_of_size (size : ℕ) : List StagedEntry :=
  (matching_files config volume s scope_prefix).filter fun r => r.entry.size_logical = size

/-- `collision_sizes`. -/
def collision_sizes : List ℕ :=
  ((((matching_files config volume s scope_prefix).map fun r => r.entry.size_logical).filter
    fun size => 0 < size ∧ 2 ≤ (candidates_of_size config volume s scope_prefix size).length).dedup).mergeSort
      fun a b => a ≤ b

/-- The candidate made of a row. -/
def row_candidate (r : StagedEntry) : Candidate Int :=
  { id := r.entry.inode, path := r.entry.path, size := r.entry.size_logical, dev := r.entry.dev }

/-- The groups `_run_fullbit` streams. -/
def size_groups : List (List StagedEntry) :=
  (collision_sizes config volume s scope_prefix).map (candidates_of_size config volume s scope_prefix)

/-- `_run_fullbit`. -/
def run_fullbit (hasher : Dedup.Hasher) (root : String) (blocked : Bool) (finished_at : ℚ) :
    Except FullBitError (Staging × FullBitResult) :=
  scan_grouped config hasher volume root ((size_groups config volume s root).map (List.map row_candidate))
    (some .fullbit) blocked finished_at s

/-- What the funnel opens: `_funnel_group` returns at once from fewer than two. -/
def opened : List StagedEntry :=
  ((size_groups config volume s scope_prefix).filter fun group => 2 ≤ group.length).flatten

end

/-! ## The scope -/

/-- A path is the root, or begins with the root and a slash. -/
def below_root (root path : String) : Bool :=
  path = root || (rstrip root.toList ++ ['/']).isPrefixOf path.toList

section

variable (config : AgentConfig) (volume : VolumeFrame) (s : Staging) (root : String)

/-- A file in scope, with something in it. -/
structure InScope (r : StagedEntry) : Prop where
  row : r ∈ s.rows_of config.host_id volume.mountpoint
  file : r.entry.is_dir = false ∧ r.entry.is_symlink = false
  filled : 0 < r.entry.size_logical
  below : below_root root r.entry.path = true

/-- The funnel opens files in scope only, and all of which another has the size. -/
structure ScopedFunnel : Prop where
  only : ∀ r ∈ opened config volume s root, below_root root r.entry.path = true
  all : ∀ r r', InScope config volume s root r → InScope config volume s root r' → r ≠ r' →
    r.entry.size_logical = r'.entry.size_logical → r ∈ opened config volume s root

/-- No file outside the root that is selected as well has something in it and the size of another
selected file. -/
def NoLookalike : Prop :=
  ∀ r ∈ matching_files config volume s root, below_root root r.entry.path = false →
    0 < r.entry.size_logical → ∀ r' ∈ matching_files config volume s root, r' ≠ r →
      r'.entry.size_logical ≠ r.entry.size_logical

end

/-! ## What is opened -/

section

variable {config : AgentConfig} {volume : VolumeFrame} {s : Staging} {root : String}
  {r r' : StagedEntry}

theorem mem_candidates_of_size {size : ℕ} : r ∈ candidates_of_size config volume s root size ↔
    r ∈ matching_files config volume s root ∧ r.entry.size_logical = size := by
  rw [candidates_of_size, List.mem_filter, decide_eq_true_eq]

theorem mem_collision_sizes {size : ℕ} : size ∈ collision_sizes config volume s root ↔
    0 < size ∧ 2 ≤ (candidates_of_size config volume s root size).length := by
  rw [collision_sizes, List.mem_mergeSort, List.mem_dedup, List.mem_filter, decide_eq_true_eq]
  refine and_iff_right_of_imp fun h => ?_
  -- a size of two candidates is the size of one
  obtain ⟨r, hr⟩ := List.exists_mem_of_length_pos (l := candidates_of_size config volume s root size) (by omega)
  obtain ⟨hrow, hsize⟩ := mem_candidates_of_size.mp hr
  exact List.mem_map.mpr ⟨r, hrow, hsize⟩

theorem mem_opened : r ∈ opened config volume s root ↔
    r ∈ matching_files config volume s root ∧ 0 < r.entry.size_logical ∧
      2 ≤ (candidates_of_size config volume s root r.entry.size_logical).length := by
  rw [opened, List.mem_flatten]
  constructor
  · rintro ⟨group, hgroup, hr⟩
    obtain ⟨hgroup, htwo⟩ := List.mem_filter.mp hgroup
    obtain ⟨size, hsize, rfl⟩ := List.mem_map.mp hgroup
    obtain ⟨hrow, rfl⟩ := mem_candidates_of_size.mp hr
    exact ⟨hrow, (mem_collision_sizes.mp hsize).1, of_decide_eq_true htwo⟩
  · rintro ⟨hrow, hfilled, htwo⟩
    refine ⟨_, List.mem_filter.mpr ⟨List.mem_map.mpr ⟨_, mem_collision_sizes.mpr ⟨hfilled, htwo⟩, rfl⟩,
      decide_eq_true htwo⟩, mem_candidates_of_size.mpr ⟨hrow, rfl⟩⟩

theorem matching_files_nodup : (matching_files config volume s root).Nodup :=
  (List.Nodup.of_map _ s.staged_entry.unique).filter _ |>.filter _

/-- A list without repetitions has two elements when it has two that differ. -/
theorem two_le_length_iff {α : Type} {xs : List α} (hnd : xs.Nodup) {x : α} (hx : x ∈ xs) :
    2 ≤ xs.length ↔ ∃ y ∈ xs, y ≠ x := by
  constructor
  · intro htwo
    obtain ⟨a, b, rest, rfl⟩ : ∃ a b rest, xs = a :: b :: rest := by
      match xs, htwo with
      | a :: b :: rest, _ => exact ⟨a, b, rest, rfl⟩
    have hab : a ≠ b := fun heq => (List.nodup_cons.mp hnd).1 (heq ▸ List.mem_cons_self)
    by_cases hxa : a = x
    · exact ⟨b, List.mem_cons_of_mem _ List.mem_cons_self, fun heq => hab (hxa.trans heq.symm)⟩
    · exact ⟨a, List.mem_cons_self, hxa⟩
  · rintro ⟨y, hy, hne⟩
    match xs, hx, hy with
    | [a], hx, hy => exact absurd ((List.mem_singleton.mp hy).trans (List.mem_singleton.mp hx).symm) hne
    | a :: b :: rest, _, _ =>
        rw [List.length_cons, List.length_cons]
        omega

/-- A file is opened when it is selected, has something in it, and another selected file has its
size. -/
theorem mem_opened_iff : r ∈ opened config volume s root ↔
    r ∈ matching_files config volume s root ∧ 0 < r.entry.size_logical ∧
      ∃ r' ∈ matching_files config volume s root, r' ≠ r ∧ r'.entry.size_logical = r.entry.size_logical := by
  rw [mem_opened]
  refine and_congr_right fun hrow => and_congr_right fun _ => ?_
  have hself : r ∈ candidates_of_size config volume s root r.entry.size_logical :=
    mem_candidates_of_size.mpr ⟨hrow, rfl⟩
  have hnd : (candidates_of_size config volume s root r.entry.size_logical).Nodup :=
    matching_files_nodup.filter _
  rw [two_le_length_iff hnd hself]
  constructor
  · rintro ⟨r', hr', hne⟩
    obtain ⟨hrow', hsize⟩ := mem_candidates_of_size.mp hr'
    exact ⟨r', hrow', hne, hsize⟩
  · rintro ⟨r', hrow', hne, hsize⟩
    exact ⟨r', mem_candidates_of_size.mpr ⟨hrow', hsize⟩, hne⟩

/-- What lies below the root is selected, whatever signs its name has. -/
theorem matches_scope_of_below {path : String} (h : below_root root path = true) : matches_scope root path = true := by
  rw [below_root, Bool.or_eq_true] at h
  rw [matches_scope, Bool.or_eq_true]
  exact h.imp_right fun hprefix => Like.like_nocase_of_prefix (List.isPrefixOf_iff_prefix.mp hprefix)

theorem InScope.matching (h : InScope config volume s root r) : r ∈ matching_files config volume s root := by
  rw [matching_files, List.mem_filter, h.file.1, h.file.2, matches_scope_of_below h.below]
  exact ⟨h.row, rfl⟩

/-- **The scope of a full-bit pass.** A pass opens the files below its root that have the size of
another, and no other file, exactly when no file outside the root that its pattern selects as well
has the size of another file so selected. -/
theorem funnel_scope_iff (config : AgentConfig) (volume : VolumeFrame) (s : Staging) (root : String) :
    ScopedFunnel config volume s root ↔ NoLookalike config volume s root := by
  constructor
  · intro h r hr houtside hfilled r' hr' hne hsize
    have hopened := mem_opened_iff.mpr ⟨hr, hfilled, r', hr', hne, hsize⟩
    rw [h.only r hopened] at houtside
    exact absurd houtside (by simp)
  · intro h
    refine ⟨fun r hr => ?_, fun r r' hr hr' hne hsize => ?_⟩
    · obtain ⟨hrow, hfilled, r', hrow', hne, hsize⟩ := mem_opened_iff.mp hr
      rw [← Bool.not_eq_false]
      exact fun houtside => h r hrow houtside hfilled r' hrow' hne hsize
    · exact mem_opened_iff.mpr ⟨hr.matching, hr.filled, r', hr'.matching, hne.symm, hsize.symm⟩

end

/-- Two files of one size, below a directory and below another that its name matches. -/
def two_albums : Staging :=
  { two_copies_staged with
    staged_entry := ⟨[⟨"h", "/m", sample_file "a_b/x" 7 0 1, none, none, 1, false⟩,
      ⟨"h", "/m", sample_file "acb/x" 8 0 1, none, none, 1, false⟩,
      ⟨"h", "/m", sample_file "A_B/x" 9 0 1, none, none, 1, false⟩], by decide⟩
    entry_run := by decide }

/-- A pass below `/m/a_b` opens a file below `/m/acb`, and one below `/m/A_B`. -/
theorem two_albums_opened :
    (∃ r ∈ opened ⟨"h", false, [], 1000⟩ sample_volume two_albums "/m/a_b", r.entry.path = "/m/acb/x") ∧
      (∃ r ∈ opened ⟨"h", false, [], 1000⟩ sample_volume two_albums "/m/a_b", r.entry.path = "/m/A_B/x") ∧
      ¬ScopedFunnel ⟨"h", false, [], 1000⟩ sample_volume two_albums "/m/a_b" := by
  have hopened : ∀ r ∈ two_albums.staged_entry.rows,
      r ∈ opened ⟨"h", false, [], 1000⟩ sample_volume two_albums "/m/a_b" := by
    intro r hr
    rw [mem_opened]
    revert r
    decide +kernel
  refine ⟨⟨_, hopened _ (List.mem_cons_of_mem _ List.mem_cons_self), rfl⟩,
    ⟨_, hopened _ (List.mem_cons_of_mem _ (List.mem_cons_of_mem _ List.mem_cons_self)), rfl⟩, fun h => ?_⟩
  have hbelow := h.only _ (hopened _ (List.mem_cons_of_mem _ List.mem_cons_self))
  exact absurd hbelow (by decide)

/-! ## The gate and the text -/

section

variable {root : List Char} {names names' more : List Name}

theorem within_iff (h : IsPosix root names) (h' : IsPosix root names') :
    PurePath.within id (.posix root names) (.posix root names') = true ↔ names <+: names' := by
  rw [PurePath.within, Bool.or_eq_true, Read.same_posix id h' h, List.any_eq_true]
  constructor
  · rintro (⟨-, heq⟩ | ⟨p, hp, hsame⟩)
    · rw [heq]
    · obtain ⟨c, d, -, rfl, rfl⟩ := Read.mem_parents_iff.mp hp
      have hc : IsPosix root c := ⟨h.root, fun n hn => h'.normal n (List.mem_append_left _ hn)⟩
      rw [((Read.same_posix id h hc).mp hsame).2]
      exact List.prefix_append c d
  · rintro ⟨more, rfl⟩
    by_cases hmore : more = []
    · left
      rw [hmore, List.append_nil]
      exact ⟨rfl, rfl⟩
    · right
      exact ⟨.posix root names, Read.mem_parents_iff.mpr ⟨names, more, hmore, rfl, rfl⟩,
        (Read.same_posix id h h).mpr ⟨rfl, rfl⟩⟩

/-- Below a root, by the text and by the components. -/
theorem below_root_iff (h : IsPosix root names) (h' : IsPosix root names') :
    below_root (PurePath.posix root names).str (PurePath.posix root names').str = true ↔
      PurePath.within id (.posix root names) (.posix root names') = true := by
  rw [within_iff h h', below_root, Bool.or_eq_true, decide_eq_true_eq, List.isPrefixOf_iff_prefix,
    Read.str_toList h, Read.str_toList h', Read.prefix_text_iff h h']
  constructor
  · rintro (heq | rfl | ⟨more, -, rfl⟩)
    · have hchars := congrArg String.toList heq
      rw [PurePath.str, PurePath.str, String.toList_ofList, String.toList_ofList] at hchars
      rw [(Security.posix_chars_inj h' h hchars).2]
    · exact List.nil_prefix
    · exact List.prefix_append _ _
  · rintro ⟨more, rfl⟩
    by_cases hmore : more = []
    · left
      rw [hmore, List.append_nil]
    · exact Or.inr (Or.inr ⟨more, hmore, rfl⟩)

end

end Fathom.Agent
