/-
**Safe joins** (`safe_path_join` of `security/paths.py`, `safe_windows_path_join` of
`security/winpaths.py`): a candidate is put under a base, and the join is refused when it
has left the base.

POSIX: `pathlib` joins, prints, and `normpath` normalises what was printed; that is the
normal form of the plain join (`normpath_truediv`), so what is returned is exactly what
is at or below the base. Windows: drive and root of the join are the base's own
(`nt_join_anchored`), so comparing the components is enough, as long as the base has a
root to join under.
-/
import Fathom.Security.Canonical

set_option autoImplicit false

namespace Fathom.Security

/-- Why a join is refused. -/
inductive JoinError where
  /-- the base, the candidate or the joined path is no path -/
  | invalid (e : PathSafetyError)
  /-- `base must be absolute: …` -/
  | base_relative (base : String)
  /-- `candidate must be relative: …` -/
  | candidate_absolute (candidate : String)
  /-- `path escapes base: … not within …` -/
  | escapes (candidate base : String)
  deriving DecidableEq

/-! ## POSIX -/

/-- `posixpath.join(a, b)`. -/
def posix_join (a b : List Char) : List Char :=
  if b.head? = some '/' then b
  else if a = [] ∨ a.getLast? = some '/' then a ++ b
  else a ++ '/' :: b

/-- `PurePosixPath(a) / b`. -/
def truediv (a b : List Char) : PurePath := posix_path (posix_join a b)

/-- `safe_path_join`. -/
def safe_path_join (base candidate : String) : Except JoinError PurePath :=
  if base.toList.contains (Char.ofNat 0) ∨ candidate.toList.contains (Char.ofNat 0) then .error (.invalid .nul)
  else
    let base_text := normpath base.toList
    if base_text.head? ≠ some '/' then .error (.base_relative base)
    else
      let joined := posix_path (normpath (truediv base_text candidate.toList).chars)
      if PurePath.within id (posix_path base_text) joined then .ok joined
      else .error (.escapes candidate base)

/-! ## Windows -/

/-- What `ntpath.join` ends with: a separator between a share and what is not absolute. -/
def nt_finish (drive root path : List Char) : List Char :=
  if path ≠ [] ∧ root = [] ∧ drive ≠ [] ∧ drive.getLast? ∉ [some ':', some '\\', some '/'] then
    drive ++ '\\' :: path
  else drive ++ root ++ path

/-- `ntpath.join(path, p)`. -/
def nt_join (lower : String → String) (path p : List Char) : List Char :=
  let (drive, root, rest) := splitroot path
  let (p_drive, p_root, p_path) := splitroot p
  if p_root ≠ [] then nt_finish (if p_drive ≠ [] ∨ drive = [] then p_drive else drive) p_root p_path
  else if p_drive ≠ [] ∧ lower (String.ofList p_drive) ≠ lower (String.ofList drive) then
    nt_finish p_drive p_root p_path
  else
    nt_finish (if p_drive ≠ [] then p_drive else drive) root
      ((if rest ≠ [] ∧ rest.getLast? ∉ [some '\\', some '/'] then rest ++ ['\\'] else rest) ++ p_path)

/-- The components `_normalise` returns beside the normalised text. -/
def normalised_components (norm : List Char) : List Name :=
  components '\\' ((splitroot norm).2.1 ++ (splitroot norm).2.2)

/-- `safe_windows_path_join`. -/
def safe_windows_path_join (lower casefold : String → String) (base candidate : String) : Except JoinError PurePath :=
  match normalise base base with
  | .error e => .error (.invalid e)
  | .ok base_norm =>
    if candidate.toList = [] then .error (.invalid .empty)
    else if candidate.toList.contains (Char.ofNat 0) then .error (.invalid .nul)
    else
      let cand := backslashed ( strip_long_path_prefix candidate.toList)
      if (splitroot cand).1 ≠ [] ∨ cand.head? = some '\\' then .error (.candidate_absolute candidate)
      else
        match normalise (String.ofList (nt_join lower base_norm cand)) candidate with
        | .error e => .error (.invalid e)
        | .ok joined_norm =>
          let base_key := (normalised_components base_norm).map (lowered casefold)
          let joined_key := (normalised_components joined_norm).map (lowered casefold)
          if joined_key.take base_key.length ≠ base_key then .error (.escapes candidate base)
          else .ok (windows_path joined_norm)

/-! ## Contained paths -/

/-- A path is a base or below it, with normal components. -/
structure Contained (casefold : String → String) (base path : PurePath) : Prop where
  below : ∃ names, Below casefold base path names
  normal : ∀ name ∈ path.tail, IsComponent path.sep name

/-- The join of `os.path`, normalised. -/
def normalised_join (base candidate : String) : PurePath :=
  posix_path (normpath (posix_join base.toList candidate.toList))

/-! ## The normal form of a join -/

section

variable {a b text : List Char}

/-- The leading slashes of a text are in its front, unless more come right behind. -/
theorem initial_slashes_append (ha : a.head? = some '/') (h : a.getLast? = some '/' → b.head? ≠ some '/') :
    initial_slashes (a ++ b) = initial_slashes a := by
  have hone : ∀ {t : List Char}, t.head? ≠ some '/' → initial_slashes ('/' :: t) = ['/'] :=
    fun ht => initial_slashes_cons ht
  have htwo : ∀ {t : List Char}, t.head? ≠ some '/' → initial_slashes ('/' :: '/' :: t) = ['/', '/'] :=
    fun ht => initial_slashes_anchored (Or.inr rfl) ht
  rcases a with _ | ⟨x, _ | ⟨y, _ | ⟨z, t⟩⟩⟩
  · exact absurd ha (by simp)
  · obtain rfl := Option.some.inj ha
    exact hone (h rfl)
  · obtain rfl := Option.some.inj ha
    by_cases hy : y = '/'
    · rw [hy] at h ⊢
      exact htwo (h rfl)
    · have hhead : ∀ t : List Char, (y :: t).head? ≠ some '/' := fun t heq => hy (Option.some.inj heq)
      exact (hone (hhead b)).trans (hone (hhead [])).symm
  · obtain rfl := Option.some.inj ha
    by_cases hy : y = '/'
    · rw [hy]
      by_cases hz : z = '/'
      · rw [hz]
        rfl
      · have hhead : ∀ t : List Char, (z :: t).head? ≠ some '/' := fun t heq => hz (Option.some.inj heq)
        exact (htwo (hhead (t ++ b))).trans (htwo (hhead t)).symm
    · have hhead : ∀ t : List Char, (y :: t).head? ≠ some '/' := fun t heq => hy (Option.some.inj heq)
      exact (hone (hhead (z :: t ++ b))).trans (hone (hhead (z :: t))).symm

theorem normpath_of_absolute (h : text.head? = some '/') :
    normpath text = initial_slashes text ++ join '/' (norm_components '/' true text) := by
  have hroot := (initial_slashes_root h).ne_nil
  rw [normpath, decide_eq_true hroot]
  exact if_neg fun hnil => hroot (List.append_eq_nil_iff.mp hnil).1

/-- A text is absolute if its normal form is. -/
theorem head?_normpath : (normpath text).head? = some '/' ↔ text.head? = some '/' := by
  constructor
  · intro h
    by_contra hrelative
    have hslashes : initial_slashes text = [] := by
      rcases text with _ | ⟨c, text⟩
      · rfl
      · have hc : c ≠ '/' := fun heq => hrelative (congrArg some heq)
        unfold initial_slashes
        split
        · rename_i heq
          exact absurd (List.cons.inj heq).1 hc
        · rename_i heq
          exact absurd (List.cons.inj heq).1 hc
        · rename_i heq
          exact absurd (List.cons.inj heq).1 hc
        · rfl
    rw [normpath, hslashes, List.nil_append] at h
    split at h
    · exact absurd h (by decide)
    · obtain ⟨rest, hrest⟩ := List.head?_eq_some_iff.mp h
      exact not_mem_splitOn_join (fun n hn => norm_components_mem hn) hrest rfl
  · intro h
    rw [normpath_of_absolute h]
    rcases initial_slashes_root h with hroot | hroot
    · rw [hroot]
      rfl
    · rw [hroot]
      rfl

/-- Empty components and dots can go before the others are looked at. -/
theorem foldl_norm_step_filter (names comps : List Name) :
    (names.filter fun c => c ≠ [] ∧ c ≠ ['.']).foldl (norm_step true) comps = names.foldl (norm_step true) comps := by
  induction names generalizing comps with
  | nil => rfl
  | cons name names ih =>
      by_cases hskip : name = [] ∨ name = ['.']
      · rw [List.filter_cons_of_neg (by simpa [← not_or] using hskip), ih, List.foldl_cons]
        rw [norm_step, if_pos hskip]
      · rw [List.filter_cons_of_pos (by simpa [not_or] using hskip), List.foldl_cons, List.foldl_cons, ih]

/-- **Printing a path keeps its normal form.** -/
theorem normpath_posix_path (h : text.head? = some '/') : normpath (posix_path text).chars = normpath text := by
  have hroot := initial_slashes_root h
  generalize hnames : (text.splitOn '/').filter (fun c => c ≠ [] ∧ c ≠ ['.']) = names
  have hplain : ∀ name ∈ names, name ≠ [] ∧ '/' ∉ name := by
    intro name hname
    rw [← hnames] at hname
    obtain ⟨hmem, hkept⟩ := List.mem_filter.mp hname
    exact ⟨(of_decide_eq_true hkept).1, not_mem_of_mem_splitOn hmem⟩
  have hchars : (posix_path text).chars = initial_slashes text ++ join '/' names := by
    rw [posix_path, hnames]
    exact if_neg fun hnil => hroot.ne_nil hnil.1
  have hhead : (join '/' names).head? ≠ some '/' := by
    intro hslash
    obtain ⟨rest, hrest⟩ := List.head?_eq_some_iff.mp hslash
    exact not_mem_splitOn_join hplain hrest rfl
  have hcomps : norm_components '/' true (join '/' names) = norm_components '/' true text := by
    have hfold : norm_components '/' true (join '/' names) = names.foldl (norm_step true) [] := by
      by_cases hnil : names = []
      · rw [hnil]
        rfl
      · rw [norm_components, splitOn_join (fun n hn => (hplain n hn).2) hnil]
    rw [hfold, ← hnames, foldl_norm_step_filter]
    rfl
  have habs : (initial_slashes text ++ join '/' names).head? = some '/' := by
    rcases hroot with hroot | hroot
    · rw [hroot]
      rfl
    · rw [hroot]
      rfl
  rw [hchars, normpath_of_absolute habs, normpath_of_absolute h, initial_slashes_anchored hroot hhead,
    norm_components_root hroot, hcomps]

theorem head?_posix_join (ha : a.head? = some '/') : (posix_join a b).head? = some '/' := by
  obtain ⟨rest, rfl⟩ := List.head?_eq_some_iff.mp ha
  rw [posix_join]
  split_ifs with hb
  · exact hb
  · rfl
  · rfl

/-- A relative text goes on where the components of the first end. -/
theorem norm_components_posix_join (ha : a ≠ []) (hb : b.head? ≠ some '/') : norm_components '/' true (posix_join a b) =
      (b.splitOn '/').foldl (norm_step true) (norm_components '/' true a) := by
  rw [posix_join, if_neg hb]
  split_ifs with hend
  · obtain ⟨init, rfl⟩ := List.getLast?_eq_some_iff.mp (hend.resolve_left ha)
    have hinit : norm_components '/' true (init ++ ['/']) = norm_components '/' true init := by
      rw [norm_components, List.splitOn_append_cons_self, List.foldl_append]
      exact norm_step_empty true _
    rw [hinit, List.append_assoc, norm_components, List.singleton_append, List.splitOn_append_cons_self,
      List.foldl_append]
    rfl
  · rw [norm_components, List.splitOn_append_cons_self, List.foldl_append]
    rfl

theorem initial_slashes_posix_join (ha : a.head? = some '/') (hb : b.head? ≠ some '/') :
    initial_slashes (posix_join a b) = initial_slashes a := by
  rw [posix_join, if_neg hb]
  split_ifs with hend
  · exact initial_slashes_append ha fun _ => hb
  · exact initial_slashes_append ha fun hlast => absurd (Or.inr hlast) hend

/-- **Joining to a normalised base and joining to the base** have one normal form. -/
theorem normpath_join_normpath (ha : a.head? = some '/') :
    normpath (posix_join (normpath a) b) = normpath (posix_join a b) := by
  by_cases hb : b.head? = some '/'
  · rw [posix_join, posix_join, if_pos hb, if_pos hb]
  · have hnorm := head?_normpath.mpr ha
    have hne : ∀ {t : List Char}, t.head? = some '/' → t ≠ [] := by
      rintro _ ht rfl
      exact absurd ht (by simp)
    have hnormal := @norm_components_all '/' a
    have hroot := initial_slashes_root ha
    rw [normpath_of_absolute (head?_posix_join hnorm), normpath_of_absolute (head?_posix_join ha),
      initial_slashes_posix_join hnorm hb, initial_slashes_posix_join ha hb,
      norm_components_posix_join (hne hnorm) hb, norm_components_posix_join (hne ha) hb, normpath_of_absolute ha,
      initial_slashes_anchored hroot (head?_join_ne hnormal), norm_components_root hroot, norm_components_join hnormal]

end

/-! ## What `safe_path_join` returns -/

theorem posix_path_normpath {text : List Char} (h : text.head? = some '/') :
    ∃ root names, IsPosix root names ∧ posix_path (normpath text) = .posix root names := by
  obtain ⟨root, names, hposix, hnorm, -⟩ := normpath_shape h
  exact ⟨root, names, hposix, by rw [hnorm, posix_path_anchored hposix]⟩

/-- **What `safe_path_join` returns**: the normalised join, when the base is absolute, no
text has a NUL byte, and the join is at or below the base. -/
theorem safe_path_join_iff {base candidate : String} {p : PurePath} : safe_path_join base candidate = .ok p ↔
      (base.toList.head? = some '/' ∧ Char.ofNat 0 ∉ base.toList) ∧ Char.ofNat 0 ∉ candidate.toList ∧
        p = normalised_join base candidate ∧ Contained id (posix_path (normpath base.toList)) p := by
  rw [safe_path_join]
  split_ifs with hnul
  · refine ⟨fun h => absurd h (by simp), fun h => absurd hnul ?_⟩
    rw [List.contains_eq_mem, List.contains_eq_mem, decide_eq_true_eq, decide_eq_true_eq]
    exact not_or.mpr ⟨h.1.2, h.2.1⟩
  rw [List.contains_eq_mem, List.contains_eq_mem, decide_eq_true_eq, decide_eq_true_eq, not_or] at hnul
  dsimp only
  by_cases habs : base.toList.head? = some '/'
  · have hjoin : posix_path (normpath (truediv (normpath base.toList) candidate.toList).chars) =
        normalised_join base candidate := by
      rw [truediv, normpath_posix_path (head?_posix_join (head?_normpath.mpr habs)), normpath_join_normpath habs]
      rfl
    obtain ⟨root, names, hbase, hbase_path⟩ := posix_path_normpath habs
    obtain ⟨root', names', hjoined, hjoined_path⟩ := posix_path_normpath (head?_posix_join (b := candidate.toList) habs)
    rw [if_neg (not_not.mpr (head?_normpath.mpr habs)), hjoin]
    have hwithin : PurePath.within id (posix_path (normpath base.toList)) (normalised_join base candidate) = true ↔
        Contained id (posix_path (normpath base.toList)) (normalised_join base candidate) := by
      rw [normalised_join, hbase_path, hjoined_path]
      constructor
      · exact fun h => ⟨below_posix hbase hjoined h, hjoined.normal⟩
      · rintro ⟨⟨below, hbelow⟩, -⟩
        cases hbelow
        exact within_posix id root names below
    split_ifs with hin
    · refine ⟨fun h => ?_, fun h => by rw [h.2.2.1]⟩
      rw [← Except.ok.inj h]
      exact ⟨⟨habs, hnul.1⟩, hnul.2, rfl, hwithin.mp hin⟩
    · refine ⟨fun h => absurd h (by simp), fun h => absurd (hwithin.mpr ?_) hin⟩
      rw [← h.2.2.1]
      exact h.2.2.2
  · rw [if_pos fun h => habs (head?_normpath.mp h)]
    exact ⟨fun h => absurd h (by simp), fun h => absurd h.1.1 habs⟩

/-! ## What `safe_windows_path_join` returns -/

/-- The text `_normalise` makes of a base. -/
def base_text (base : String) : List Char := nt_normpath ( strip_long_path_prefix base.toList)

/-- The bases there is something to join under: the long-path prefix is gone, the path has a
root, and no colon is last (behind one `ntpath.join` puts no separator). -/
structure ProperBase (base : String) : Prop where
  short : ¬ long_prefix <+: base_text base
  rooted : ∃ drive names, windows_path (base_text base) = .windows drive ['\\'] names
  colon : (base_text base).getLast? ≠ some ':'

section

variable {lower casefold : String → String} {drive root : List Char} {names : List Name} {cand text norm : List Char}

/-- A candidate without a drive that starts with no separator is all path. -/
theorem splitroot_relative (hslash : '/' ∉ cand) (hdrive : (splitroot cand).1 = []) (hhead : cand.head? ≠ some '\\') :
    splitroot cand = ([], [], cand) := by
  have hlong : ¬ long_prefix <+: cand := by
    rintro ⟨rest, rfl⟩
    exact hhead rfl
  have happend := splitroot_append cand
  cases splitroot_split hslash hlong with
  | anchored drive root text hanchor hbare hcs hsplit =>
      rw [hsplit] at hdrive
      exact absurd hdrive hanchor.ne_nil
  | rooted text hsplit =>
      rw [hsplit] at happend
      exact absurd (congrArg List.head? happend.symm) hhead
  | letter c text hc hcs htext hsplit =>
      rw [hsplit] at hdrive
      exact absurd hdrive (by simp)
  | relative hsplit => exact hsplit

/-- A share that is given a root does not end in a separator. -/
theorem windows_path_takes_root (h : WindowsAnchor drive []) {names : List Name}
    (hpath : windows_path drive = .windows drive ['\\'] names) : drive.getLast? ≠ some '\\' := by
  rw [windows_path, h.split_bare.1, h.split_bare.2] at hpath
  dsimp only at hpath
  split at hpath
  · rename_i hshare
    exact hshare.2.2.1
  · injection hpath with _ hroot _
    exact absurd hroot (by simp)

variable (lower) in
/-- **A join keeps the drive and the root of its base**; or it has added nothing to a share
that has no root. -/
theorem nt_join_anchored (hanchor : WindowsAnchor drive root) (hbare : root = [] → names = [])
    (hslash : ∀ name ∈ names, '/' ∉ name)
    (hlast : root = [] → drive.getLast? ∉ [some ':', some '\\']) (hcand : splitroot cand = ([], [], cand))
    (hcand_slash : '/' ∉ cand) : (root = [] ∧ nt_join lower (drive ++ root ++ join '\\' names) cand = drive) ∨
      ∃ text, '/' ∉ text ∧ nt_join lower (drive ++ root ++ join '\\' names) cand = drive ++ ['\\'] ++ text := by
  have hsplit : splitroot (drive ++ root ++ join '\\' names) = (drive, root, join '\\' names) :=
    splitroot_anchored hanchor (fun hnil => by rw [hbare hnil, join_nil]) (not_mem_join (by decide) hslash)
  have hjoin_slash : '/' ∉ join '\\' names := not_mem_join (by decide) hslash
  rw [nt_join, hsplit, hcand]
  dsimp only
  rw [if_neg (not_not.mpr rfl), if_neg fun h => h.1 rfl, if_neg (not_not.mpr rfl)]
  rcases hanchor.root_eq with rfl | rfl
  · right
    generalize hrest : (if join '\\' names ≠ [] ∧ (join '\\' names).getLast? ∉ [some '\\', some '/'] then
      join '\\' names ++ ['\\'] else join '\\' names) = rest
    have hrest_slash : '/' ∉ rest := by
      rw [← hrest]
      split_ifs with hsep
      · rw [List.mem_append, not_or]
        exact ⟨hjoin_slash, by decide⟩
      · exact hjoin_slash
    refine ⟨rest ++ cand, ?_, ?_⟩
    · rw [List.mem_append, not_or]
      exact ⟨hrest_slash, hcand_slash⟩
    · rw [nt_finish, if_neg fun h => absurd h.2.1 (by simp)]
  · obtain rfl := hbare rfl
    rw [join_nil, if_neg fun h => h.1 rfl, List.nil_append, nt_finish]
    have hdrive_slash : drive.getLast? ≠ some '/' := fun hmem =>
      hanchor.no_slash (List.mem_append_left _ (List.mem_of_getLast? hmem))
    have hcolon := hlast rfl
    rw [List.mem_cons, List.mem_singleton, not_or] at hcolon
    by_cases hnil : cand = []
    · left
      rw [if_neg fun h => h.1 hnil, hnil, List.append_nil, List.append_nil]
      exact ⟨rfl, rfl⟩
    · right
      refine ⟨cand, hcand_slash, ?_⟩
      rw [if_pos, List.append_assoc, List.singleton_append]
      refine ⟨hnil, rfl, hanchor.ne_nil, ?_⟩
      rw [List.mem_cons, List.mem_cons, List.mem_singleton, not_or, not_or]
      exact ⟨hcolon.1, hcolon.2, hdrive_slash⟩

/-- What is normalised behind a drive and a root stays behind them. -/
theorem normalised_behind (hanchor : WindowsAnchor drive ['\\']) (htext : '/' ∉ text)
    (hnorm : nt_normpath ( strip_long_path_prefix (drive ++ ['\\'] ++ text)) = norm) :
    ∃ names, (∀ name ∈ names, IsComponent '\\' name) ∧ normalised_components norm = names ∧
      windows_path norm = .windows drive ['\\'] names := by
  have hslash : '/' ∉ drive ++ ['\\'] ++ text := by
    rw [List.mem_append, not_or]
    exact ⟨hanchor.no_slash, htext⟩
  have hbare : ∀ {t : List Char}, ['\\'] = [] → t = [] := fun h => absurd h (by simp)
  have hsplit : splitroot (backslashed (drive ++ ['\\'] ++ text)) = (drive, ['\\'], text) := by
    rw [backslashed_self hslash, splitroot_anchored hanchor hbare htext]
  have hnormal := @norm_components_all '\\' text
  have hnormal_slash : ∀ name ∈ norm_components '\\' true text, '/' ∉ name :=
    fun name hname => norm_components_no_slash htext hname
  have hne : drive ++ ['\\'] ≠ [] := fun hnil => hanchor.ne_nil (List.append_eq_nil_iff.mp hnil).1
  rw [strip_long_path_prefix_self (hanchor.not_long hbare), nt_normpath_of_split hsplit, if_neg fun h => hne h.1,
    decide_eq_true (List.cons_ne_nil _ _)] at hnorm
  refine ⟨norm_components '\\' true text, hnormal, ?_, ?_⟩
  · rw [← hnorm, normalised_components]
    have hback : splitroot (drive ++ ['\\'] ++ join '\\' (norm_components '\\' true text)) = _ :=
      splitroot_anchored hanchor hbare (not_mem_join (by decide) hnormal_slash)
    rw [hback, List.singleton_append, components_sep_cons, components_join hnormal]
  · rw [← hnorm]
    exact windows_path_rooted hanchor hnormal hnormal_slash

/-- A drive without a root is left as it is. -/
theorem normalised_bare (hanchor : WindowsAnchor drive []) : nt_normpath ( strip_long_path_prefix drive) = drive := by
  have hnil : '/' ∉ ([] : List Char) := List.not_mem_nil
  have hlong := @WindowsAnchor.not_long _ _ hanchor [] fun _ => rfl
  have hsplit := splitroot_anchored hanchor (fun _ => rfl) hnil
  rw [List.append_nil, List.append_nil] at hlong hsplit
  have hself : splitroot (backslashed drive) = (drive, [], []) := by
    rw [backslashed_self fun hmem => hanchor.no_slash (List.mem_append_left _ hmem), hsplit]
  rw [strip_long_path_prefix_self hlong, nt_normpath_of_split hself]
  have hcomps : norm_components '\\' (decide (([] : List Char) ≠ [])) [] = [] := rfl
  rw [hcomps, join_nil, if_neg fun h => hanchor.ne_nil (List.append_eq_nil_iff.mp h.1).1, List.append_nil,
    List.append_nil]

/-- **A Windows join stays under its base.** -/
theorem contained_of_safe_windows_path_join {base candidate : String} {p : PurePath} (hbase : ProperBase base)
    (h : safe_windows_path_join lower casefold base candidate = .ok p) :
    ∃ b, validate_windows_config_path base = .ok b ∧ Contained casefold b p := by
  rw [safe_windows_path_join] at h
  split at h
  · exact absurd h (by simp)
  rename_i base_norm hbase_ok
  have hn := normalise_ok_iff.mp hbase_ok
  have htext : base_text base = base_norm := hn.norm_eq
  obtain ⟨hshort, ⟨drive, names, hpath⟩, hcolon⟩ := hbase
  rw [htext] at hshort hpath hcolon
  refine ⟨.windows drive ['\\'] names, by rw [validate_windows_config_path, hbase_ok]; exact congrArg _ hpath, ?_⟩
  dsimp only at h
  split_ifs at h with hempty hnul habs
  rw [not_or, not_not] at habs
  split at h
  · exact absurd h (by simp)
  rename_i joined_norm hjoined_ok
  split_ifs at h with hescape
  rw [not_not] at hescape
  -- the base: a drive, a root and normal components
  rw [← htext] at hshort
  obtain ⟨drive', root, names', hanchor, hbare, hnormal, hslash, hshape⟩ :=
    nt_normpath_shape hshort (hn.norm_eq.symm ▸ hn.drive) (hn.norm_eq.symm ▸ hn.isabs)
  rw [hn.norm_eq] at hshape
  obtain ⟨root', hwindows, hsettled⟩ := windows_path_shape hanchor hbare hnormal hslash
  rw [← hshape, hpath] at hsettled
  injection hsettled with hdrive hroot hnames
  subst hdrive hroot hnames
  have hbase_comps : normalised_components base_norm = names := by
    rw [normalised_components, hshape, splitroot_anchored hanchor (fun hnil => by rw [hbare hnil, join_nil])
      (not_mem_join (by decide) hslash)]
    rcases hanchor.root_eq with hroot | hroot
    · rw [hroot, List.singleton_append, components_sep_cons, components_join hnormal]
    · rw [hroot, hbare hroot]
      rfl
  have hlast : root = [] → drive.getLast? ∉ [some ':', some '\\'] := by
    intro hroot
    have hbare_norm : base_norm = drive := by
      rw [hshape, hroot, hbare hroot, join_nil, List.append_nil, List.append_nil]
    rw [hbare_norm] at hcolon hpath
    rw [hroot] at hanchor
    rw [List.mem_cons, List.mem_singleton, not_or]
    exact ⟨hcolon, windows_path_takes_root hanchor hpath⟩
  have hslash_cand := not_mem_backslashed ( strip_long_path_prefix candidate.toList)
  have hjoin := nt_join_anchored lower hanchor hbare hslash hlast
    (splitroot_relative hslash_cand habs.1 habs.2) hslash_cand
  rw [← hshape] at hjoin
  have hjoined := normalise_ok_iff.mp hjoined_ok
  have hjoined_norm := hjoined.norm_eq
  rw [String.toList_ofList] at hjoined_norm
  have hp := Except.ok.inj h
  rcases hjoin with ⟨hroot, heq⟩ | ⟨text, htext_slash, heq⟩
  · -- nothing was added: the base again
    have hsame : joined_norm = base_norm := by
      have hdrive : base_norm = drive := by
        rw [hshape, hroot, hbare hroot, join_nil, List.append_nil, List.append_nil]
      rw [hroot] at hanchor
      rw [← hjoined_norm, heq, hdrive, normalised_bare hanchor]
    rw [← hp, hsame, hpath]
    refine ⟨⟨[], ?_⟩, hnormal⟩
    have hbelow := @Below.windows casefold drive drive ['\\'] names names [] rfl rfl
    rwa [List.append_nil] at hbelow
  · rw [heq] at hjoined_norm
    obtain ⟨found, hfound, hcomps, hfound_path⟩ := normalised_behind hwindows.anchor htext_slash hjoined_norm
    rw [hbase_comps, hcomps, List.length_map, ← List.map_take] at hescape
    rw [← hp, hfound_path]
    refine ⟨⟨found.drop names.length, ?_⟩, hfound⟩
    have hbelow := @Below.windows casefold drive drive ['\\'] names (found.take names.length)
      (found.drop names.length) rfl hescape
    rwa [List.take_append_drop] at hbelow

end

/-- **Safe joins contain.** A POSIX join is returned exactly when its base is absolute, no text
has a NUL byte and its normal form is at or below the base; a Windows join is at or below any
proper base. -/
theorem safe_joins_contain (lower casefold : String → String) :
    (∀ (base candidate : String) (p : PurePath), safe_path_join base candidate = .ok p ↔
      (base.toList.head? = some '/' ∧ Char.ofNat 0 ∉ base.toList) ∧ Char.ofNat 0 ∉ candidate.toList ∧
        p = normalised_join base candidate ∧ Contained id (posix_path (normpath base.toList)) p) ∧
    ∀ (base candidate : String) (p : PurePath), ProperBase base →
      safe_windows_path_join lower casefold base candidate = .ok p →
        ∃ b, validate_windows_config_path base = .ok b ∧ Contained casefold b p :=
  ⟨fun _ _ _ => safe_path_join_iff, fun _ _ _ => contained_of_safe_windows_path_join⟩

/-- A file under a share that is given without its root. -/
theorem safe_joins_contain_share :
    ∃ b, validate_windows_config_path "\\\\nas\\share" = .ok b ∧
      Contained id b (.windows "\\\\nas\\share".toList ['\\'] [['x']]) := by
  have hproper : ProperBase "\\\\nas\\share" :=
    ⟨by decide +kernel, ⟨"\\\\nas\\share".toList, [], by decide +kernel⟩, by decide +kernel⟩
  exact (safe_joins_contain id id).2 _ "x" _ hproper (by decide +kernel)

/-- A relative base is refused whatever is joined to it, and the long-path prefix without its
last separator is a base one can leave: behind it a candidate makes a prefix that is then
stripped. -/
theorem joins_not_contained :
    (¬ ∀ base candidate : String, (∃ p, safe_path_join base candidate = .ok p) ↔
      Char.ofNat 0 ∉ candidate.toList ∧
        Contained id (posix_path (normpath base.toList)) (normalised_join base candidate)) ∧
    ¬ ∀ (base candidate : String) (p : PurePath), safe_windows_path_join id id base candidate = .ok p →
      ∃ b, validate_windows_config_path base = .ok b ∧ Contained id b p := by
  constructor
  · intro h
    have hbase : posix_path (normpath "a".toList) = .posix [] [['a']] := by decide +kernel
    have hjoin : normalised_join "a" "b" = .posix [] ([['a']] ++ [['b']]) := by decide +kernel
    have hcontained : Contained id (posix_path (normpath "a".toList)) (normalised_join "a" "b") := by
      rw [hbase, hjoin]
      refine ⟨⟨_, .posix [] [['a']] [['b']]⟩, fun name hname => ?_⟩
      rcases List.mem_cons.mp hname with rfl | hname
      · exact ⟨by decide, by decide, by decide, by decide⟩
      · rw [List.mem_singleton.mp hname]
        exact ⟨by decide, by decide, by decide, by decide⟩
    obtain ⟨p, hp⟩ := (h "a" "b").mpr ⟨by decide +kernel, hcontained⟩
    have hrefused : safe_path_join "a" "b" = .error (.base_relative "a") := by decide +kernel
    rw [hrefused] at hp
    exact absurd hp (by simp)
  · intro h
    have hjoined : safe_windows_path_join id id "\\\\?" "UNC\\srv\\share\\x" =
        .ok (.windows "\\\\srv\\share".toList ['\\'] [['x']]) := by decide +kernel
    obtain ⟨b, hb, ⟨names, hbelow⟩, -⟩ := h _ _ _ hjoined
    have hbase : validate_windows_config_path "\\\\?" = .ok (.windows "\\\\?".toList [] []) := by decide +kernel
    rw [hbase] at hb
    rw [← Except.ok.inj hb] at hbelow
    -- a path below the base would have no root, either
    cases hbelow

end Fathom.Security
