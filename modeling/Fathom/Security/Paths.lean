/-
**Path safety** (`security/paths.py`, `security/winpaths.py`): the validators every
agent-supplied path passes, and the pure paths they return.

Strings are taken apart as lists of characters, as `os.path` and `ntpath` do it.
`normpath` is one fold over the components for both flavours: a component is
dropped, pushed, or pops the one before it. A pure path keeps its anchor and its
tail, and `PurePath.str` puts them back together.

`str.lower`, by which Windows paths compare, is a parameter: the comparison is by
the lowered text, whatever the tables of the interpreter say about a character.
-/
import Mathlib.Data.List.Basic
import Mathlib.Data.List.Infix

set_option autoImplicit false

namespace Fathom.Security

/-- A path component. -/
abbrev Name := List Char

/-! ## Normalising -/

/-- `sep.join(components)`. -/
def join (sep : Char) (comps : List Name) : List Char := [sep].intercalate comps

/-- What `normpath` does with one more component: `''` and `'.'` go, `'..'` takes
the component before it along, unless there is none to take. -/
def norm_step (rooted : Bool) (comps : List Name) (comp : Name) : List Name :=
  if comp = [] ∨ comp = ['.'] then comps
  else if comp ≠ ['.', '.'] ∨ (rooted = false ∧ comps = []) ∨ comps.getLast? = some ['.', '.'] then
    comps ++ [comp]
  else comps.dropLast

/-- The components of a path once normalised. -/
def norm_components (sep : Char) (rooted : Bool) (path : List Char) : List Name :=
  (path.splitOn sep).foldl (norm_step rooted) []

/-- The leading slashes `posixpath.normpath` keeps: POSIX lets exactly two mean
something else than one. -/
def initial_slashes : List Char → List Char
  | '/' :: '/' :: '/' :: _ => ['/']
  | '/' :: '/' :: _ => ['/', '/']
  | '/' :: _ => ['/']
  | _ => []

/-- `os.path.normpath`. -/
def normpath (path : List Char) : List Char :=
  let root := initial_slashes path
  let comps := norm_components '/' (root ≠ []) path
  if root ++ join '/' comps = [] then ['.'] else root ++ join '/' comps

/-! ## Pure paths -/

/-- A pure path: `PurePosixPath` or `PureWindowsPath`. -/
inductive PurePath where
  | posix (root : List Char) (tail : List Name)
  | windows (drive root : List Char) (tail : List Name)
  deriving DecidableEq

namespace PurePath

/-- The characters of `str(path)`. -/
def chars : PurePath → List Char
  | posix root tail => if root = [] ∧ tail = [] then ['.'] else root ++ join '/' tail
  | windows drive root tail =>
      if drive = [] ∧ root = [] ∧ tail = [] then ['.'] else drive ++ root ++ join '\\' tail

/-- `str(path)`. -/
def str (path : PurePath) : String := String.ofList path.chars

/-- `len(path.parts)`: the anchor is a part of its own. -/
def parts_length : PurePath → ℕ
  | posix root tail => (if root = [] then 0 else 1) + tail.length
  | windows drive root tail => (if drive ++ root = [] then 0 else 1) + tail.length

/-- `path.parents`, nearest first. -/
def parents : PurePath → List PurePath
  | posix root tail => (List.range tail.length).reverse.map fun n => posix root (tail.take n)
  | windows drive root tail =>
      (List.range tail.length).reverse.map fun n => windows drive root (tail.take n)

/-- `p == q`: paths of one flavour with the same text, of Windows paths the
lowered one. -/
def same (lower : String → String) : PurePath → PurePath → Bool
  | p@(posix ..), q@(posix ..) => p.str = q.str
  | p@(windows ..), q@(windows ..) => lower p.str = lower q.str
  | _, _ => false

/-- `path == mount or mount in path.parents`. -/
def within (lower : String → String) (mount path : PurePath) : Bool :=
  same lower path mount || path.parents.any (same lower mount)

end PurePath

/-- Why a path is refused. -/
inductive PathSafetyError where
  /-- `path is empty` -/
  | empty
  /-- `path contains a NUL byte` -/
  | nul
  /-- `path must be absolute: …` -/
  | relative (text : String)
  /-- `path must be drive-rooted (C:\…) or UNC (\\server\share\…): …` -/
  | not_rooted (original : String)
  /-- `forbidden character in path component …` -/
  | forbidden (comp original : String)
  /-- `alternate data stream not allowed: …` -/
  | stream (original : String)
  /-- `reserved device name in path: …` -/
  | reserved (comp : String)
  /-- `path component ends with dot/space: …` -/
  | trailing (comp : String)
  deriving DecidableEq

/-! ## POSIX -/

/-- `Path(text)` of a normalised text. -/
def posix_path (text : List Char) : PurePath :=
  .posix (initial_slashes text) ((text.splitOn '/').filter fun c => c ≠ [] ∧ c ≠ ['.'])

/-- `validate_config_path`, without the existence checks nobody asks for here. -/
def validate_config_path (text : String) : Except PathSafetyError PurePath :=
  let cs := text.toList
  if cs = [] then .error .empty
  else if cs.contains (Char.ofNat 0) then .error .nul
  else if cs.head? ≠ some '/' then .error (.relative text)
  else .ok (posix_path (normpath cs))

/-! ## Windows -/

/-- Forward slashes as backslashes. -/
def backslashed (cs : List Char) : List Char := cs.map fun c => if c = '/' then '\\' else c

/-- `str.upper` on the letters the two fixed texts below are made of. -/
def upper (cs : List Char) : List Char := cs.map Char.toUpper

/-- `text.find('\\', start)`. -/
def find_sep (cs : List Char) (start : ℕ) : Option ℕ :=
  ((cs.drop start).findIdx? (· = '\\')).map (· + start)

/-- `ntpath.splitroot`: drive, root and the rest. -/
def splitroot (p : List Char) : List Char × List Char × List Char :=
  let normp := backslashed p
  match normp with
  | '\\' :: '\\' :: _ =>
      let start := if upper (normp.take 8) = "\\\\?\\UNC\\".toList then 8 else 2
      match find_sep normp start with
      | none => (p, [], [])
      | some index =>
          match find_sep normp (index + 1) with
          | none => (p, [], [])
          | some index2 => (p.take index2, (p.drop index2).take 1, p.drop (index2 + 1))
  | '\\' :: _ => ([], p.take 1, p.drop 1)
  | _ :: ':' :: '\\' :: _ => (p.take 2, (p.drop 2).take 1, p.drop 3)
  | _ :: ':' :: _ => (p.take 2, [], p.drop 2)
  | _ => ([], [], p)

/-- `ntpath.normpath`. -/
def nt_normpath (path : List Char) : List Char :=
  let (drive, root, rest) := splitroot (backslashed path)
  let comps := norm_components '\\' (root ≠ []) rest
  if drive ++ root = [] ∧ comps = [] then ['.'] else drive ++ root ++ join '\\' comps

/-- `ntpath.isabs`. -/
def nt_isabs (path : List Char) : Bool :=
  match backslashed (path.take 3) with
  | '\\' :: _ => true
  | _ :: ':' :: '\\' :: _ => true
  | _ => false

/-- `strip_long_path_prefix`. -/
def strip_long_path_prefix (text : List Char) : List Char :=
  let long_unc := "\\\\?\\UNC\\".toList
  let long := "\\\\?\\".toList
  if long_unc.isPrefixOf text then '\\' :: '\\' :: text.drop long_unc.length
  else if long.isPrefixOf text then text.drop long.length
  else text

/-- The device names of `_RESERVED`. -/
def reserved_names : List Name :=
  ["CON", "PRN", "AUX", "NUL",
    "COM1", "COM2", "COM3", "COM4", "COM5", "COM6", "COM7", "COM8", "COM9",
    "LPT1", "LPT2", "LPT3", "LPT4", "LPT5", "LPT6", "LPT7", "LPT8", "LPT9"].map String.toList

/-- `is_reserved_component`: a device name, alone or before a dot. The `$` of the
pattern also matches before a final newline. -/
def is_reserved_component (name : Name) : Bool :=
  reserved_names.any fun device =>
    device.isPrefixOf (upper name) &&
      (match name.drop device.length with
        | [] => true
        | '.' :: _ => true
        | ['\n'] => true
        | _ => false)

/-- `_check_component`. -/
def check_component (comp : Name) (original : String) : Except PathSafetyError Unit :=
  if comp.any (fun c => c ∈ ['<', '>', '"', '|', '?', '*'] ∨ c.toNat < 32) then
    .error (.forbidden (String.ofList comp) original)
  else if ':' ∈ comp then .error (.stream original)
  else if is_reserved_component comp then .error (.reserved (String.ofList comp))
  else if comp.getLast? = some ' ' ∨ comp.getLast? = some '.' then
    .error (.trailing (String.ofList comp))
  else .ok ()

/-- `_normalise`, of which the validator keeps the normalised text. -/
def normalise (text original : String) : Except PathSafetyError (List Char) :=
  let cs := text.toList
  if cs = [] then .error .empty
  else if cs.contains (Char.ofNat 0) then .error .nul
  else
    let norm := nt_normpath ( strip_long_path_prefix cs)
    let (drive, root, rest) := splitroot norm
    if drive = [] ∨ nt_isabs norm = false then .error (.not_rooted original)
    else
      let comps := ((root ++ rest).splitOn '\\').filter (· ≠ [])
      match comps.findSome? fun c =>
          match check_component c original with
          | .error e => some e
          | .ok () => none with
      | some e => .error e
      | none => .ok norm

/-- `PureWindowsPath(text)` of a normalised text: a bare share is given its root. -/
def windows_path (text : List Char) : PurePath :=
  let (drive, root, rest) := splitroot (backslashed text)
  let drive_parts := drive.splitOn '\\'
  let share := root = [] ∧ drive.head? = some '\\' ∧ drive.getLast? ≠ some '\\' ∧
    ((drive_parts.length = 4 ∧ drive_parts[2]? ∉ [some ['?'], some ['.'], some ['?', '.'], some []]) ∨
      drive_parts.length = 6)
  .windows drive (if share then ['\\'] else root)
    ((rest.splitOn '\\').filter fun c => c ≠ [] ∧ c ≠ ['.'])

/-- `validate_windows_config_path`. -/
def validate_windows_config_path (text : String) : Except PathSafetyError PurePath :=
  match normalise text text with
  | .error e => .error e
  | .ok norm => .ok (windows_path norm)

/-! ## Agent paths -/

/-- The `_WINDOWS_PATH` of `core/ingest.py`: a drive letter and a slash, or two
backslashes. -/
def is_windows_path (text : String) : Bool :=
  match text.toList with
  | '\\' :: '\\' :: _ => true
  | c :: ':' :: d :: _ => c.isAlpha && (d = '\\' || d = '/')
  | _ => false

/-- `_validate_agent_path`. -/
def validate_agent_path (text : String) : Except PathSafetyError PurePath :=
  if is_windows_path text then validate_windows_config_path text else validate_config_path text

/-- `_path_depth`. -/
def path_depth (mount candidate : PurePath) : Int :=
  candidate.parts_length - mount.parts_length

/-! ## Paths a walk builds

A walk starts at a resolved root and descends by names. Such a path is its own
normal form, so the server stores it under the text it was sent with. -/

/-- The names a directory entry can have. -/
def IsName (name : Name) : Prop :=
  name ≠ [] ∧ name ≠ ['.'] ∧ name ≠ ['.', '.'] ∧ '/' ∉ name ∧ Char.ofNat 0 ∉ name

instance (name : Name) : Decidable (IsName name) := by
  unfold IsName
  infer_instance

/-- The text of an absolute path with these names. -/
def absolute (names : List Name) : List Char := '/' :: join '/' names

@[simp] theorem join_nil (sep : Char) : join sep [] = [] := rfl

@[simp] theorem join_singleton (sep : Char) (name : Name) : join sep [name] = name := by
  rw [join, List.intercalate_singleton]

theorem join_cons_cons (sep : Char) (a b : Name) (names : List Name) :
    join sep (a :: b :: names) = a ++ sep :: join sep (b :: names) := by
  rw [join, List.intercalate_cons_cons, List.append_assoc]
  rfl

variable {names : List Name}

/-- Joining brings in nothing but the separator. -/
theorem not_mem_join {sep c : Char} (hsep : c ≠ sep) (h : ∀ name ∈ names, c ∉ name) : c ∉ join sep names := by
  induction names with
  | nil => exact List.not_mem_nil
  | cons a names ih =>
      have ha := h a List.mem_cons_self
      have hrest := ih fun name hname => h name (List.mem_cons_of_mem _ hname)
      rcases names with _ | ⟨b, names⟩
      · rw [join_singleton]
        exact ha
      · rw [join_cons_cons, List.mem_append, List.mem_cons]
        rintro (hmem | heq | hmem)
        · exact ha hmem
        · exact hsep heq
        · exact hrest hmem

theorem splitOn_absolute (h : ∀ name ∈ names, IsName name) :
    (absolute names).splitOn '/' = [] :: (if names = [] then [[]] else names) := by
  have hsplit := List.splitOn_append_cons_self_of_not_mem (List.not_mem_nil (a := '/')) (join '/' names)
  rw [List.nil_append] at hsplit
  rw [absolute, hsplit]
  by_cases hempty : names = []
  · rw [if_pos hempty, hempty]
    rfl
  · rw [if_neg hempty, join, List.splitOn_intercalate '/' (fun name hname => (h name hname).2.2.2.1) hempty]

/-- A name is pushed. -/
theorem norm_step_name {name : Name} (h : IsName name) (rooted : Bool) (comps : List Name) :
    norm_step rooted comps name = comps ++ [name] := by
  rw [norm_step, if_neg, if_pos]
  · exact Or.inl h.2.2.1
  · rintro (hempty | hdot)
    · exact h.1 hempty
    · exact h.2.1 hdot

theorem norm_step_empty (rooted : Bool) (comps : List Name) : norm_step rooted comps [] = comps := by
  rw [norm_step, if_pos (Or.inl rfl)]

theorem foldl_norm_step_names (h : ∀ name ∈ names, IsName name) (rooted : Bool) (comps : List Name) :
    names.foldl (norm_step rooted) comps = comps ++ names := by
  induction names generalizing comps with
  | nil => rw [List.foldl_nil, List.append_nil]
  | cons name names ih =>
      rw [List.foldl_cons, norm_step_name (h name List.mem_cons_self),
        ih (fun n hn => h n (List.mem_cons_of_mem _ hn)), List.append_assoc, List.singleton_append]

theorem norm_components_absolute (h : ∀ name ∈ names, IsName name) (rooted : Bool) :
    norm_components '/' rooted (absolute names) = names := by
  rw [norm_components, splitOn_absolute h, List.foldl_cons, norm_step_empty]
  by_cases hempty : names = []
  · rw [if_pos hempty, List.foldl_cons, norm_step_empty, List.foldl_nil, hempty]
  · rw [if_neg hempty, foldl_norm_step_names h, List.nil_append]

/-- Joined names do not start with a separator. -/
theorem join_head_ne {sep : Char} (h : ∀ name ∈ names, name ≠ [] ∧ sep ∉ name) : (join sep names).head? ≠ some sep := by
  rcases names with _ | ⟨_ | ⟨c, name⟩, names⟩
  · exact fun hhead => absurd hhead (by simp)
  · exact absurd rfl (h _ List.mem_cons_self).1
  · have hc : c ≠ sep := fun heq => (h _ List.mem_cons_self).2 (heq ▸ List.mem_cons_self)
    rcases names with _ | ⟨second, rest⟩
    · rw [join_singleton]
      exact fun hhead => hc (Option.some.inj hhead)
    · rw [join_cons_cons]
      exact fun hhead => hc (Option.some.inj hhead)

theorem initial_slashes_cons {text : List Char} (h : text.head? ≠ some '/') :
    initial_slashes ('/' :: text) = ['/'] := by
  rcases text with _ | ⟨c, text⟩
  · rfl
  · have hc : c ≠ '/' := fun heq => h (congrArg some heq)
    unfold initial_slashes
    split
    · rename_i heq
      exact absurd (List.cons.inj (List.cons.inj heq).2).1 hc
    · rename_i heq
      exact absurd (List.cons.inj (List.cons.inj heq).2).1 hc
    · rfl
    · rename_i hnone
      exact absurd rfl (hnone (c :: text))

theorem initial_slashes_absolute (h : ∀ name ∈ names, IsName name) : initial_slashes (absolute names) = ['/'] :=
  initial_slashes_cons (join_head_ne fun name hname => ⟨(h name hname).1, (h name hname).2.2.2.1⟩)

theorem normpath_absolute (h : ∀ name ∈ names, IsName name) : normpath (absolute names) = absolute names := by
  rw [normpath, initial_slashes_absolute h, norm_components_absolute h]
  show (if ['/'] ++ join '/' names = [] then ['.'] else ['/'] ++ join '/' names) = _
  exact if_neg (List.cons_ne_nil _ _)

theorem posix_path_absolute (h : ∀ name ∈ names, IsName name) : posix_path (absolute names) = .posix ['/'] names := by
  rw [posix_path, initial_slashes_absolute h, splitOn_absolute h]
  congr 1
  by_cases hempty : names = []
  · rw [if_pos hempty, hempty]
    rfl
  · rw [if_neg hempty, List.filter_cons_of_neg (by simp)]
    refine List.filter_eq_self.mpr fun name hname => ?_
    exact decide_eq_true ⟨(h name hname).1, (h name hname).2.1⟩

theorem validate_agent_path_absolute (h : ∀ name ∈ names, IsName name) :
    validate_agent_path (String.ofList (absolute names)) = .ok (.posix ['/'] names) := by
  have hwindows : is_windows_path (String.ofList (absolute names)) = false := by
    rw [is_windows_path, String.toList_ofList, absolute]
    split
    · rename_i heq
      exact absurd (List.cons.inj heq).1 (by decide)
    · rename_i heq
      rw [← (List.cons.inj heq).1]
      rfl
    · rfl
  have hnul : (absolute names).contains (Char.ofNat 0) = false := by
    rw [List.contains_eq_mem, decide_eq_false_iff_not, absolute, List.mem_cons, not_or]
    exact ⟨by decide, not_mem_join (by decide) fun name hname => (h name hname).2.2.2.2⟩
  rw [validate_agent_path, hwindows, if_neg Bool.false_ne_true, validate_config_path,
    String.toList_ofList, if_neg (show absolute names ≠ [] from List.cons_ne_nil _ _), hnul, if_neg Bool.false_ne_true,
    if_neg (fun hne => hne rfl), normpath_absolute h, posix_path_absolute h]

/-- A path with names appended is within the path. -/
theorem within_posix (lower : String → String) (root : List Char) (mount names : List Name) :
    PurePath.within lower (.posix root mount) (.posix root (mount ++ names)) = true := by
  rw [PurePath.within, Bool.or_eq_true]
  by_cases hempty : names = []
  · left
    rw [hempty, List.append_nil]
    exact decide_eq_true rfl
  · right
    have hlen : mount.length < (mount ++ names).length := by
      rw [List.length_append]
      have := List.length_pos_iff.mpr hempty
      omega
    rw [List.any_eq_true]
    refine ⟨.posix root mount, List.mem_map.mpr ⟨mount.length, ?_, ?_⟩, decide_eq_true rfl⟩
    · rw [List.mem_reverse, List.mem_range]
      exact hlen
    · rw [List.take_left]

end Fathom.Security
