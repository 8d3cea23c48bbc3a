/-
**What is excluded** (`AgentConfig.is_excluded` in `agent/config.py`, `normalise_excludes` and
`is_excluded_path` in `backends/posix.py`): two tests for one list of excludes.

The configuration compares paths by their components, the walk by their texts. The walk looks for
an exclude and a slash behind it, and there is none behind the slash of a mere root. So the exclude
`/` prunes the root alone and nothing below it, and `//` likewise; and as `/` and a slash are `//`,
the exclude `/` prunes what begins with two slashes, which the configuration takes for another
root. `excluded_agree_iff` says for which paths the tests agree.
-/
import Fathom.Agent.FullBitScope

set_option autoImplicit false

namespace Fathom.Agent

open Fathom.Read (posix_text)
open Fathom.Security (IsComponent IsPosix Name PathSafetyError PosixRoot PurePath initial_slashes join norm_components
  normpath normpath_parts posix_path posix_path_anchored validate_config_path)

/-! ## The tests -/

/-- `AgentConfig._scope_paths_absolute`: the entry that is refused, and why. -/
def scope_paths_absolute : List String → Except (String × PathSafetyError) (List String)
  | [] => .ok []
  | root :: value =>
    match validate_config_path root with
    | .error exc => .error (root, exc)
    | .ok path =>
      match scope_paths_absolute value with
      | .error e => .error e
      | .ok normalised => .ok (path.str :: normalised)

/-- The loop of `AgentConfig.is_excluded`. -/
def at_or_under (candidate : PurePath) : List String → Except PathSafetyError Bool
  | [] => .ok false
  | ex :: exclude_scope =>
    match validate_config_path ex with
    | .error exc => .error exc
    | .ok ex_path => if PurePath.within id ex_path candidate then .ok true else at_or_under candidate exclude_scope

/-- `AgentConfig.is_excluded`. -/
def is_excluded (exclude_scope : List String) (target : String) : Except PathSafetyError Bool :=
  if exclude_scope = [] then .ok false
  else
    match validate_config_path target with
    | .error _ => .ok true
    | .ok candidate => at_or_under candidate exclude_scope

/-! ## What is wanted -/

/-- The slashes an absolute path begins with, of which POSIX keeps one or two. -/
def root_of (text : String) : List Char := initial_slashes text.toList

/-- The components of an absolute path. -/
def names_of (text : String) : List Name := norm_components '/' true text.toList

/-- A path is at or below another, component by component. -/
def Contains (ex target : String) : Prop := root_of ex = root_of target ∧ names_of ex <+: names_of target

/-- **The tests agree**: each says whether some configured exclude contains the path. -/
structure Agree (value exclude_scope : List String) (target : String) : Prop where
  same : is_excluded exclude_scope target = .ok (is_excluded_path target.toList (normalise_excludes exclude_scope))
  containment : is_excluded_path target.toList (normalise_excludes exclude_scope) = true ↔ ∃ ex ∈ value, Contains ex target

/-! ## The condition -/

/-- A mere root is among the excludes. -/
def RootExcluded (root : List Char) (value : List String) : Prop := ∃ ex ∈ value, root_of ex = root ∧ names_of ex = []

/-- Some exclude that has a name contains the path. -/
def NamedExclude (value : List String) (target : String) : Prop :=
  ∃ ex ∈ value, names_of ex ≠ [] ∧ Contains ex target

/-- **No mere root decides.** A path below `/` is not to be excluded by that; one below `//` is to
be excluded by both roots or by none, and `//` itself not by `/` alone. -/
structure RootsLeave (value : List String) (target : String) : Prop where
  single : root_of target = ['/'] → names_of target ≠ [] → ¬RootExcluded ['/'] value
  double : root_of target = ['/', '/'] → RootExcluded ['/'] value → RootExcluded ['/', '/'] value
  below_double : root_of target = ['/', '/'] → names_of target ≠ [] → RootExcluded ['/', '/'] value →
    RootExcluded ['/'] value

/-- **What it takes**: an exclude with a name contains the path, or no mere root decides; and a
text with a NUL in it, which is no path, is where an exclude is. -/
structure Decided (value : List String) (target : String) : Prop where
  excludes : NamedExclude value target ∨ RootsLeave value target
  nul : Char.ofNat 0 ∈ target.toList → value ≠ [] → ∃ ex ∈ value, Contains ex target

/-! ## Normal forms -/

/-- The text a configured path is stored as. -/
def normal_text (text : String) : String := (PurePath.posix (root_of text) (names_of text)).str

section

variable {value exclude_scope : List String} {ex target : String}

theorem normal_parts (h : target.toList.head? = some '/') : IsPosix (root_of target) (names_of target) :=
  (normpath_parts h).1

theorem normpath_eq (h : target.toList.head? = some '/') :
    normpath target.toList = posix_text (root_of target) (names_of target) := (normpath_parts h).2

theorem normal_text_toList (h : target.toList.head? = some '/') :
    (normal_text target).toList = posix_text (root_of target) (names_of target) := Read.str_toList (normal_parts h)

/-- A valid path is absolute, has no NUL in it and is known by its parts. -/
theorem validate_parts {p : PurePath} (h : validate_config_path ex = .ok p) :
    ex.toList.head? = some '/' ∧ Char.ofNat 0 ∉ ex.toList ∧ p = .posix (root_of ex) (names_of ex) := by
  rw [validate_config_path] at h
  split_ifs at h with hempty hnul habs
  have hhead := not_not.mp habs
  refine ⟨hhead, fun hmem => hnul (List.contains_iff_mem.mpr hmem), ?_⟩
  rw [normpath_eq hhead, posix_text, posix_path_anchored (normal_parts hhead)] at h
  exact (Except.ok.inj h).symm

theorem validate_absolute (h : target.toList.head? = some '/') :
    (∃ exc, validate_config_path target = .error exc) ∧ Char.ofNat 0 ∈ target.toList ∨
      validate_config_path target = .ok (.posix (root_of target) (names_of target)) ∧ Char.ofNat 0 ∉ target.toList := by
  cases hvalid : validate_config_path target with
  | ok p =>
      obtain ⟨-, hnul, rfl⟩ := validate_parts hvalid
      exact Or.inr ⟨rfl, hnul⟩
  | error exc =>
      refine Or.inl ⟨⟨exc, rfl⟩, ?_⟩
      rw [validate_config_path] at hvalid
      split_ifs at hvalid with hempty hnul habs
      · rw [hempty] at h
        cases h
      · exact List.contains_iff_mem.mp hnul
      · exact absurd h habs

/-- What is configured is the normal forms of what was asked for. -/
theorem configured (h : scope_paths_absolute value = .ok exclude_scope) :
    exclude_scope = value.map normal_text ∧ ∀ ex ∈ value, ex.toList.head? = some '/' ∧
      validate_config_path (normal_text ex) = .ok (.posix (root_of ex) (names_of ex)) := by
  induction value generalizing exclude_scope with
  | nil =>
      rw [scope_paths_absolute, Except.ok.injEq] at h
      exact ⟨h.symm, fun ex hex => absurd hex List.not_mem_nil⟩
  | cons root value ih =>
      rw [scope_paths_absolute] at h
      split at h
      · cases h
      · rename_i path hpath
        split at h
        · cases h
        · rename_i normalised hnormalised
          obtain ⟨heq, hall⟩ := ih hnormalised
          obtain ⟨hhead, -, hparts⟩ := validate_parts hpath
          obtain ⟨-, -, -, -, hfixed⟩ := Security.validate_config_path_shape hpath
          rw [hparts] at hfixed h
          refine ⟨?_, List.forall_mem_cons.mpr ⟨⟨hhead, hfixed⟩, hall⟩⟩
          rw [← Except.ok.inj h, heq]
          rfl

/-! ## The configuration's test -/

theorem root_of_within {root root' : List Char} {names names' : List Name} (h : IsPosix root names)
    (h' : IsPosix root' names') (hwithin : PurePath.within id (.posix root names) (.posix root' names') = true) :
    root = root' := by
  obtain ⟨below, hbelow⟩ := Security.below_posix h h' hwithin
  cases hbelow
  rfl

theorem contains_iff_within (h : ex.toList.head? = some '/') (h' : target.toList.head? = some '/') :
    PurePath.within id (.posix (root_of ex) (names_of ex)) (.posix (root_of target) (names_of target)) = true ↔
      Contains ex target := by
  constructor
  · intro hwithin
    have hroot := root_of_within (normal_parts h) (normal_parts h') hwithin
    refine ⟨hroot, ?_⟩
    rw [← hroot] at hwithin
    exact (within_iff (normal_parts h) (hroot ▸ normal_parts h')).mp hwithin
  · rintro ⟨hroot, hnames⟩
    rw [← hroot]
    exact (within_iff (normal_parts h) (hroot ▸ normal_parts h')).mpr hnames

theorem at_or_under_configured (hvalue : ∀ ex ∈ value, ex.toList.head? = some '/' ∧
      validate_config_path (normal_text ex) = .ok (.posix (root_of ex) (names_of ex)))
    (h : target.toList.head? = some '/') :
    ∃ b, at_or_under (.posix (root_of target) (names_of target)) (value.map normal_text) = .ok b ∧
      (b = true ↔ ∃ ex ∈ value, Contains ex target) := by
  induction value with
  | nil => exact ⟨false, rfl, by simp⟩
  | cons ex value ih =>
      obtain ⟨⟨hhead, hvalid⟩, hrest⟩ := List.forall_mem_cons.mp hvalue
      obtain ⟨b, hb, hiff⟩ := ih hrest
      rw [List.map_cons, at_or_under, hvalid]
      dsimp only
      split
      · rename_i hwithin
        exact ⟨true, rfl, iff_of_true rfl ⟨ex, List.mem_cons_self, (contains_iff_within hhead h).mp hwithin⟩⟩
      · rename_i hwithin
        refine ⟨b, hb, hiff.trans ?_⟩
        rw [List.exists_mem_cons_iff, or_iff_right fun hcontains => hwithin ((contains_iff_within hhead h).mpr hcontains)]

/-- **The configuration's test is containment**, and takes no text with a NUL in it. -/
theorem is_excluded_configured (hconfig : scope_paths_absolute value = .ok exclude_scope)
    (h : target.toList.head? = some '/') : ∃ b, is_excluded exclude_scope target = .ok b ∧
      (b = true ↔ (Char.ofNat 0 ∈ target.toList ∧ value ≠ []) ∨ ∃ ex ∈ value, Contains ex target) := by
  obtain ⟨rfl, hvalue⟩ := configured hconfig
  rw [is_excluded]
  by_cases hempty : value = []
  · rw [hempty]
    exact ⟨false, rfl, by simp⟩
  · rw [if_neg (by simpa using hempty)]
    rcases validate_absolute h with ⟨⟨exc, hexc⟩, hnul⟩ | ⟨hok, hnul⟩
    · rw [hexc]
      exact ⟨true, rfl, iff_of_true rfl (Or.inl ⟨hnul, hempty⟩)⟩
    · rw [hok]
      obtain ⟨b, hb, hiff⟩ := at_or_under_configured hvalue h
      exact ⟨b, hb, hiff.trans (or_iff_right fun hboth => hnul hboth.1).symm⟩

end

/-! ## The test of the walk -/

section

variable {root root' : List Char} {names names' : List Name}

theorem posix_text_inj (h : IsPosix root names) (h' : IsPosix root' names') :
    posix_text root names = posix_text root' names' ↔ root = root' ∧ names = names' := by
  constructor
  · intro heq
    refine Security.posix_chars_inj h h' ?_
    rw [Security.posix_chars h, Security.posix_chars h']
    exact heq
  · rintro ⟨rfl, rfl⟩
    rfl

/-- No component begins with a slash: the text tells one slash from two. -/
theorem not_slash_begins (h : ∀ name ∈ names, IsComponent '/' name) {rest : List Char} :
    ¬ '/' :: rest <+: join '/' names := by
  rintro ⟨more, hmore⟩
  apply Security.head?_join_ne h
  rw [← hmore]
  rfl

/-- A mere root and a slash. -/
theorem root_slash_begins_iff (h : PosixRoot root) (h' : IsPosix root' names') :
    root ++ ['/'] <+: posix_text root' names' ↔ root = ['/'] ∧ root' = ['/', '/'] := by
  rw [posix_text]
  rcases h with hroot | hroot
  · rcases h'.root with hroot' | hroot'
    · rw [hroot, hroot']
      refine iff_of_false (fun hbegins => ?_) fun heq => absurd heq.2 (by decide)
      exact not_slash_begins h'.normal (List.cons_prefix_cons.mp hbegins).2
    · rw [hroot, hroot']
      exact iff_of_true ⟨_, rfl⟩ ⟨rfl, rfl⟩
  · rcases h'.root with hroot' | hroot'
    · rw [hroot, hroot']
      refine iff_of_false (fun hbegins => ?_) fun heq => absurd heq.1 (by decide)
      exact not_slash_begins h'.normal (List.cons_prefix_cons.mp hbegins).2
    · rw [hroot, hroot']
      refine iff_of_false (fun hbegins => ?_) fun heq => absurd heq.1 (by decide)
      have hrest := (List.cons_prefix_cons.mp (List.cons_prefix_cons.mp hbegins).2).2
      exact not_slash_begins h'.normal hrest

/-- A path with a name and a slash. -/
theorem named_slash_begins_iff (h : IsPosix root names) (hnames : names ≠ []) (h' : IsPosix root' names') :
    posix_text root names ++ ['/'] <+: posix_text root' names' ↔
      root = root' ∧ ∃ more, more ≠ [] ∧ names' = names ++ more := by
  by_cases hroot : root = root'
  · rw [← hroot, and_iff_right rfl]
    have hbegins := Read.prefix_text_iff h (hroot ▸ h' : IsPosix root names')
    rw [Read.rstrip_text h, if_neg hnames, or_iff_right hnames] at hbegins
    exact hbegins
  · refine iff_of_false (fun hbegins => ?_) fun hall => hroot hall.1
    rw [posix_text, posix_text] at hbegins
    obtain ⟨first, rest, hjoin⟩ := List.exists_cons_of_ne_nil
      (fun hnil => hnames ((Read.join_eq_nil_iff h.normal).mp hnil) : join '/' names ≠ [])
    rcases h.root with hone | hone
    · rcases h'.root with hone' | hone'
      · exact hroot (hone.trans hone'.symm)
      · -- the first letter of a name stands against the second slash
        rw [hone, hone', hjoin] at hbegins
        obtain ⟨hslash, -⟩ := List.cons_prefix_cons.mp (List.cons_prefix_cons.mp hbegins).2
        apply Security.head?_join_ne h.normal
        rw [hjoin, hslash]
        rfl
    · rcases h'.root with hone' | hone'
      · rw [hone, hone'] at hbegins
        exact not_slash_begins h'.normal (List.cons_prefix_cons.mp hbegins).2
      · exact hroot (hone.trans hone'.symm)

end

section

variable {value exclude_scope : List String} {target : String}

theorem normalise_configured (hvalue : ∀ ex ∈ value, ex.toList.head? = some '/') :
    normalise_excludes (value.map normal_text) = value.map fun ex => posix_text (root_of ex) (names_of ex) := by
  have htext : ∀ ex ∈ value, (normal_text ex).toList = posix_text (root_of ex) (names_of ex) :=
    fun ex hex => normal_text_toList (hvalue ex hex)
  rw [normalise_excludes, List.filter_eq_self.mpr, List.map_map]
  · refine List.map_congr_left fun ex hex => ?_
    rw [Function.comp_apply, htext ex hex]
    exact Security.normpath_anchored (normal_parts (hvalue ex hex))
  · intro text hmem
    obtain ⟨ex, hex, rfl⟩ := List.mem_map.mp hmem
    refine decide_eq_true fun hempty => (normal_parts (hvalue ex hex)).root.ne_nil ?_
    have hnil := htext ex hex
    rw [hempty] at hnil
    exact (List.append_eq_nil_iff.mp hnil.symm).1

/-- One exclude, as the walk tests for it. -/
theorem walk_test_iff {ex : String} (hex : ex.toList.head? = some '/') (h : target.toList.head? = some '/') :
    (posix_text (root_of target) (names_of target) = posix_text (root_of ex) (names_of ex) ∨
        posix_text (root_of ex) (names_of ex) ++ ['/'] <+: posix_text (root_of target) (names_of target)) ↔
      (names_of ex ≠ [] ∧ Contains ex target) ∨ names_of ex = [] ∧ (root_of ex = root_of target ∧ names_of target = [] ∨
          root_of ex = ['/'] ∧ root_of target = ['/', '/']) := by
  have hshape := normal_parts hex
  have hshape' := normal_parts h
  rw [posix_text_inj hshape' hshape]
  by_cases hnames : names_of ex = []
  · -- a mere root
    have hunnamed : ¬(names_of ex ≠ [] ∧ Contains ex target) := fun hboth => hboth.1 hnames
    rw [or_iff_right hunnamed, and_iff_right hnames, hnames,
      show posix_text (root_of ex) [] = root_of ex from List.append_nil _, root_slash_begins_iff hshape.root hshape',
      eq_comm (a := root_of target)]
  · have hnamed : ¬(names_of ex = [] ∧ (root_of ex = root_of target ∧ names_of target = [] ∨
        root_of ex = ['/'] ∧ root_of target = ['/', '/'])) := fun hboth => hnames hboth.1
    rw [named_slash_begins_iff hshape hnames hshape', or_iff_left hnamed, and_iff_right hnames, Contains]
    constructor
    · rintro (⟨hroot, heq⟩ | ⟨hroot, more, -, heq⟩)
      · exact ⟨hroot.symm, heq ▸ List.prefix_refl _⟩
      · exact ⟨hroot, more, heq.symm⟩
    · rintro ⟨hroot, more, heq⟩
      by_cases hmore : more = []
      · rw [hmore, List.append_nil] at heq
        exact Or.inl ⟨hroot.symm, heq.symm⟩
      · exact Or.inr ⟨hroot, more, hmore, heq.symm⟩

/-- **The test of the walk**: containment in an exclude with a name, and of the mere roots
what their texts give. -/
theorem is_excluded_path_configured (hconfig : scope_paths_absolute value = .ok exclude_scope)
    (h : target.toList.head? = some '/') : is_excluded_path target.toList (normalise_excludes exclude_scope) = true ↔
      NamedExclude value target ∨ (RootExcluded (root_of target) value ∧ names_of target = [] ∨
        RootExcluded ['/'] value ∧ root_of target = ['/', '/']) := by
  obtain ⟨rfl, hvalue⟩ := configured hconfig
  have hany : is_excluded_path target.toList (normalise_excludes (value.map normal_text)) = true ↔
      ∃ ex ∈ value, posix_text (root_of target) (names_of target) = posix_text (root_of ex) (names_of ex) ∨
        posix_text (root_of ex) (names_of ex) ++ ['/'] <+: posix_text (root_of target) (names_of target) := by
    rw [normalise_configured fun ex hex => (hvalue ex hex).1, is_excluded_path, normpath_eq h]
    split
    · rename_i hempty
      rw [List.map_eq_nil_iff.mp hempty]
      simp
    · dsimp only
      rw [List.any_map, List.any_eq_true]
      refine exists_congr fun ex => and_congr_right fun _ => ?_
      rw [Function.comp_apply, Bool.or_eq_true, decide_eq_true_eq, List.isPrefixOf_iff_prefix]
  rw [hany]
  constructor
  · rintro ⟨ex, hex, htest⟩
    rcases (walk_test_iff (hvalue ex hex).1 h).mp htest with hnamed | ⟨hnames, ⟨hroot, hbare⟩ | ⟨hroot, hdouble⟩⟩
    · exact Or.inl ⟨ex, hex, hnamed⟩
    · exact Or.inr (Or.inl ⟨⟨ex, hex, hroot, hnames⟩, hbare⟩)
    · exact Or.inr (Or.inr ⟨⟨ex, hex, hroot, hnames⟩, hdouble⟩)
  · rintro (⟨ex, hex, hnamed⟩ | ⟨⟨ex, hex, hroot, hnames⟩, hbare⟩ | ⟨⟨ex, hex, hroot, hnames⟩, hdouble⟩)
    · exact ⟨ex, hex, (walk_test_iff (hvalue ex hex).1 h).mpr (Or.inl hnamed)⟩
    · exact ⟨ex, hex, (walk_test_iff (hvalue ex hex).1 h).mpr (Or.inr ⟨hnames, Or.inl ⟨hroot, hbare⟩⟩)⟩
    · exact ⟨ex, hex, (walk_test_iff (hvalue ex hex).1 h).mpr (Or.inr ⟨hnames, Or.inr ⟨hroot, hdouble⟩⟩)⟩

/-- Containment is in an exclude with a name, or in the root of the path. -/
theorem contains_iff : (∃ ex ∈ value, Contains ex target) ↔
    NamedExclude value target ∨ RootExcluded (root_of target) value := by
  constructor
  · rintro ⟨ex, hex, hcontains⟩
    by_cases hnames : names_of ex = []
    · exact Or.inr ⟨ex, hex, hcontains.1, hnames⟩
    · exact Or.inl ⟨ex, hex, hnames, hcontains⟩
  · rintro (⟨ex, hex, -, hcontains⟩ | ⟨ex, hex, hroot, hnames⟩)
    · exact ⟨ex, hex, hcontains⟩
    · exact ⟨ex, hex, hroot, by rw [hnames]; exact List.nil_prefix⟩

/-- When the test of the walk is containment. -/
theorem walk_contains_iff (value : List String) (hroot : PosixRoot (root_of target)) :
    ((NamedExclude value target ∨ (RootExcluded (root_of target) value ∧ names_of target = [] ∨
        RootExcluded ['/'] value ∧ root_of target = ['/', '/'])) ↔
      (NamedExclude value target ∨ RootExcluded (root_of target) value)) ↔
      NamedExclude value target ∨ RootsLeave value target := by
  by_cases hnamed : NamedExclude value target
  · exact iff_of_true (iff_of_true (Or.inl hnamed) (Or.inl hnamed)) (Or.inl hnamed)
  rw [or_iff_right hnamed, or_iff_right hnamed, or_iff_right hnamed]
  rcases hroot with hone | htwo
  · -- below one slash the walk knows the root alone
    have hdiffer : root_of target ≠ ['/', '/'] := by
      rw [hone]
      decide
    rw [hone]
    constructor
    · intro hiff
      refine ⟨fun _ hnames hexcluded => ?_, fun heq => absurd heq hdiffer, fun heq => absurd heq hdiffer⟩
      rcases hiff.mpr hexcluded with ⟨-, hbare⟩ | ⟨-, heq⟩
      · exact hnames hbare
      · exact absurd heq (by decide)
    · intro hleave
      constructor
      · rintro (⟨hexcluded, -⟩ | ⟨-, heq⟩)
        · exact hexcluded
        · exact absurd heq (by decide)
      · intro hexcluded
        by_contra hnot
        exact hleave.single hone (fun hbare => hnot (Or.inl ⟨hexcluded, hbare⟩)) hexcluded
  · have hdiffer : root_of target ≠ ['/'] := by
      rw [htwo]
      decide
    rw [htwo]
    constructor
    · intro hiff
      refine ⟨fun heq => absurd heq hdiffer, fun _ hexcluded => hiff.mp (Or.inr ⟨hexcluded, rfl⟩),
        fun _ hnames hexcluded => ?_⟩
      rcases hiff.mpr hexcluded with ⟨-, hbare⟩ | ⟨hsingle, -⟩
      · exact absurd hbare hnames
      · exact hsingle
    · intro hleave
      constructor
      · rintro (⟨hexcluded, -⟩ | ⟨hsingle, -⟩)
        · exact hexcluded
        · exact hleave.double htwo hsingle
      · intro hexcluded
        by_cases hbare : names_of target = []
        · exact Or.inl ⟨hexcluded, hbare⟩
        · exact Or.inr ⟨hleave.below_double htwo hbare hexcluded, rfl⟩

/-- **When the two tests agree.** For every list of configured excludes and every absolute
path: exactly when no mere root decides about it, and it has no NUL in it that only the
configuration minds. -/
theorem excluded_agree_iff (hconfig : scope_paths_absolute value = .ok exclude_scope)
    (h : target.toList.head? = some '/') : Agree value exclude_scope target ↔ Decided value target := by
  obtain ⟨b, hb, hiff⟩ := is_excluded_configured hconfig h
  have hwalk := is_excluded_path_configured hconfig h
  have hcontains := walk_contains_iff value (normal_parts h).root
  rw [← hwalk, ← contains_iff] at hcontains
  constructor
  · rintro ⟨hsame, hcontainment⟩
    refine ⟨hcontains.mp hcontainment, fun hnul hne => hcontainment.mp ?_⟩
    rw [hb, Except.ok.injEq] at hsame
    rw [← hsame]
    exact hiff.mpr (Or.inl ⟨hnul, hne⟩)
  · rintro ⟨hexcludes, hnul⟩
    have hcontainment := hcontains.mpr hexcludes
    refine ⟨?_, hcontainment⟩
    rw [hb, Except.ok.injEq, Bool.eq_iff_iff, hcontainment, hiff]
    exact or_iff_right_of_imp fun hboth => hnul hboth.1 hboth.2

end

/-- A file below an excluded directory, given with a slash behind it. -/
theorem excluded_below_cache : Agree ["/data/cache/"] ["/data/cache"] "/data/cache/f" ↔
    Decided ["/data/cache/"] "/data/cache/f" :=
  excluded_agree_iff (by decide) (by decide)

/-- The walk goes on below an excluded `/`. -/
theorem root_not_pruned :
    ¬ ∀ (value exclude_scope : List String) (target : String), scope_paths_absolute value = .ok exclude_scope →
      target.toList.head? = some '/' → Agree value exclude_scope target := by
  intro hall
  have hagree := hall ["/"] ["/"] "/a" (by decide) (by decide)
  have hsame := hagree.same
  revert hsame
  decide

end Fathom.Agent
