/-
**The normal forms the path validators return** (`security/paths.py`,
`security/winpaths.py`).

A validated path is an anchor and components with no separator, none of them empty, `.`
or `..`. Its text splits back into that anchor and those components, so it is the normal
form of itself, and being within a mount by text (`mount in path.parents`) is being below
it by components.

The one text that is not its own normal form is a Windows path still starting with the
long-path prefix after one such prefix has been stripped. No mount is one, so nothing
within a mount is.
-/
import Fathom.Security.Paths
import Mathlib.Algebra.BigOperators.Group.List.Basic
import Mathlib.Algebra.Ring.Nat

set_option autoImplicit false

namespace Fathom.Security

theorem lawful_text : LawfulBEq (List Char) := inferInstance

/-! ## Components -/

/-- The components a normalised path can have. -/
structure IsComponent (sep : Char) (comp : Name) : Prop where
  ne_nil : comp ≠ []
  ne_dot : comp ≠ ['.']
  ne_parent : comp ≠ ['.', '.']
  no_sep : sep ∉ comp

section

variable {sep : Char}

theorem splitOn_sep_cons (sep : Char) (text : List Char) : (sep :: text).splitOn sep = [] :: text.splitOn sep :=
  List.splitOn_append_cons_self_of_not_mem List.not_mem_nil text

/-- What a text is split into has no separator. -/
theorem not_mem_of_mem_splitOn {text : List Char} {comp : Name} (h : comp ∈ text.splitOn sep) : sep ∉ comp := by
  induction text generalizing comp with
  | nil =>
      rw [List.splitOn_nil, List.mem_singleton] at h
      rw [h]
      exact List.not_mem_nil
  | cons c text ih =>
      rw [List.splitOn_cons_eq_if_modifyHead] at h
      split at h
      · rcases List.mem_cons.mp h with heq | hmem
        · rw [heq]
          exact List.not_mem_nil
        · exact ih hmem
      · rename_i hc
        -- `c` is put before the first of the rest
        rcases hsplit : text.splitOn sep with _ | ⟨first, rest⟩
        · exact absurd hsplit (List.splitOn_ne_nil sep text)
        · rw [hsplit, List.modifyHead_cons] at h
          rcases List.mem_cons.mp h with heq | hmem
          · rw [heq, List.mem_cons, not_or]
            exact ⟨fun heq => hc (by rw [heq, beq_self_eq_true]),
              ih (hsplit ▸ List.mem_cons_self)⟩
          · exact ih (hsplit ▸ List.mem_cons_of_mem _ hmem)

theorem splitOn_join {names : List Name} (h : ∀ name ∈ names, sep ∉ name) (hne : names ≠ []) :
    (join sep names).splitOn sep = names := List.splitOn_intercalate sep h hne

/-- The components of a text: what it is split into, without what is empty. -/
def components (sep : Char) (text : List Char) : List Name := (text.splitOn sep).filter (· ≠ [])

theorem components_join {names : List Name} (h : ∀ name ∈ names, IsComponent sep name) :
    components sep (join sep names) = names := by
  rcases names with _ | ⟨name, names⟩
  · rfl
  · rw [components, splitOn_join (fun n hn => (h n hn).no_sep) (List.cons_ne_nil _ _)]
    exact List.filter_eq_self.mpr fun n hn => decide_eq_true (h n hn).ne_nil

theorem components_sep_cons (text : List Char) : components sep (sep :: text) = components sep text := by
  have hsplit := List.splitOn_append_cons_self_of_not_mem (List.not_mem_nil (a := sep)) text
  rw [List.nil_append] at hsplit
  rw [components, hsplit, List.filter_cons_of_neg (by simp)]
  rfl

theorem norm_step_component {comp : Name} (h : IsComponent sep comp) (rooted : Bool) (comps : List Name) :
    norm_step rooted comps comp = comps ++ [comp] := by
  rw [norm_step, if_neg, if_pos]
  · exact Or.inl h.ne_parent
  · rintro (hempty | hdot)
    · exact h.ne_nil hempty
    · exact h.ne_dot hdot

theorem foldl_norm_step_components {names : List Name} (h : ∀ name ∈ names, IsComponent sep name)
    (rooted : Bool) (comps : List Name) : names.foldl (norm_step rooted) comps = comps ++ names := by
  induction names generalizing comps with
  | nil => rw [List.foldl_nil, List.append_nil]
  | cons name names ih =>
      rw [List.foldl_cons, norm_step_component (h name List.mem_cons_self),
        ih (fun n hn => h n (List.mem_cons_of_mem _ hn)), List.append_assoc, List.singleton_append]

/-- Without a `..` normalising only drops what is empty or a dot. -/
theorem foldl_norm_step_no_parent {names : List Name} (h : ['.', '.'] ∉ names) (rooted : Bool)
    (comps : List Name) :
    names.foldl (norm_step rooted) comps = comps ++ names.filter fun n => n ≠ [] ∧ n ≠ ['.'] := by
  induction names generalizing comps with
  | nil => exact (List.append_nil comps).symm
  | cons name names ih =>
      rw [List.mem_cons, not_or] at h
      rw [List.foldl_cons, ih h.2, norm_step]
      by_cases hskip : name = [] ∨ name = ['.']
      · rw [if_pos hskip, List.filter_cons_of_neg (by simpa [← not_or] using hskip)]
      · rw [if_neg hskip, if_pos (Or.inl (Ne.symm h.1)), List.filter_cons_of_pos (by simpa [not_or] using hskip),
          List.append_assoc]
        rfl

/-- **Normal components are left as they are.** -/
theorem norm_components_join {names : List Name} (h : ∀ name ∈ names, IsComponent sep name) (rooted : Bool) :
    norm_components sep rooted (join sep names) = names := by
  rcases names with _ | ⟨name, names⟩
  · rfl
  · rw [norm_components, splitOn_join (fun n hn => (h n hn).no_sep) (List.cons_ne_nil _ _),
      foldl_norm_step_components h, List.nil_append]

theorem norm_components_sep_cons (rooted : Bool) (text : List Char) :
    norm_components sep rooted (sep :: text) = norm_components sep rooted text := by
  have hsplit := List.splitOn_append_cons_self_of_not_mem (List.not_mem_nil (a := sep)) text
  rw [List.nil_append] at hsplit
  rw [norm_components, hsplit, List.foldl_cons, norm_step_empty]
  rfl

/-- Below a root a step keeps the components normal: there is nothing for `..` to be
kept for. -/
theorem norm_step_all {comps : List Name} {comp : Name} (h : ∀ c ∈ comps, IsComponent sep c)
    (hcomp : sep ∉ comp) : ∀ c ∈ norm_step true comps comp, IsComponent sep c := by
  rw [norm_step]
  split
  · exact h
  rename_i hplain
  push Not at hplain
  split
  · rename_i hpush
    intro c hc
    rcases List.mem_append.mp hc with hold | hnew
    · exact h c hold
    · rw [List.mem_singleton.mp hnew]
      refine ⟨hplain.1, hplain.2, ?_, hcomp⟩
      rcases hpush with hne | ⟨hrooted, -⟩ | hlast
      · exact hne
      · exact absurd hrooted (by decide)
      · exact absurd rfl (h _ (List.mem_of_getLast? hlast)).ne_parent
  · exact fun c hc => h c (List.mem_of_mem_dropLast hc)

/-- **What is normalised below a root** has normal components. -/
theorem norm_components_all (path : List Char) : ∀ c ∈ norm_components sep true path, IsComponent sep c := by
  have hfold : ∀ (comps names : List Name), (∀ c ∈ comps, IsComponent sep c) → (∀ n ∈ names, sep ∉ n) →
      ∀ c ∈ names.foldl (norm_step true) comps, IsComponent sep c := by
    intro comps names
    induction names generalizing comps with
    | nil => exact fun h _ => h
    | cons name names ih =>
        intro h hnames
        exact ih _ (norm_step_all h (hnames name List.mem_cons_self))
          fun n hn => hnames n (List.mem_cons_of_mem _ hn)
  exact hfold [] _ (fun c hc => absurd hc List.not_mem_nil) fun n hn => not_mem_of_mem_splitOn hn

/-- What a step makes of the components is made of characters they have. -/
theorem norm_step_chars {rooted : Bool} {comps : List Name} {comp c : Name}
    (h : c ∈ norm_step rooted comps comp) : c ∈ comps ∨ c = comp := by
  rw [norm_step] at h
  split at h
  · exact Or.inl h
  split at h
  · rcases List.mem_append.mp h with hold | hnew
    · exact Or.inl hold
    · exact Or.inr (List.mem_singleton.mp hnew)
  · exact Or.inl (List.mem_of_mem_dropLast h)

theorem norm_components_subset {rooted : Bool} {path : List Char} {c : Name}
    (h : c ∈ norm_components sep rooted path) : c ∈ path.splitOn sep := by
  have hfold : ∀ (comps names : List Name), c ∈ names.foldl (norm_step rooted) comps → c ∈ comps ∨ c ∈ names := by
    intro comps names
    induction names generalizing comps with
    | nil => exact Or.inl
    | cons name names ih =>
        intro hc
        rcases ih _ hc with hstep | htail
        · rcases norm_step_chars hstep with hold | hnew
          · exact Or.inl hold
          · exact Or.inr (hnew ▸ List.mem_cons_self)
        · exact Or.inr (List.mem_cons_of_mem _ htail)
  rcases hfold [] _ h with hnil | hmem
  · exact absurd hnil List.not_mem_nil
  · exact hmem

/-- With no root, what is left of `..` stands before the normal components. -/
theorem norm_components_relative (sep : Char) (path : List Char) :
    ∃ k names, norm_components sep false path = List.replicate k ['.', '.'] ++ names ∧
      ∀ n ∈ names, IsComponent sep n := by
  have hstep : ∀ (comps : List Name) (comp : Name), sep ∉ comp →
      (∃ k names, comps = List.replicate k ['.', '.'] ++ names ∧ ∀ n ∈ names, IsComponent sep n) →
      ∃ k names, norm_step false comps comp = List.replicate k ['.', '.'] ++ names ∧
        ∀ n ∈ names, IsComponent sep n := by
    rintro _ comp hcomp ⟨k, names, rfl, hnames⟩
    rw [norm_step]
    split
    · exact ⟨k, names, rfl, hnames⟩
    rename_i hplain
    push Not at hplain
    by_cases hparent : comp = ['.', '.']
    · rcases List.eq_nil_or_concat names with hnil | ⟨init, last, hsnoc⟩
      · -- nothing to take along: one more `..`
        refine ⟨k + 1, [], ?_, fun n hn => absurd hn List.not_mem_nil⟩
        rw [hnil, hparent, List.append_nil, List.append_nil, if_pos, List.replicate_succ']
        rcases Nat.eq_zero_or_pos k with hzero | hpos
        · exact Or.inr (Or.inl ⟨rfl, by rw [hzero]; rfl⟩)
        · refine Or.inr (Or.inr ?_)
          rw [List.getLast?_replicate, if_neg (by omega)]
      · rw [List.concat_eq_append] at hsnoc
        have hlast : IsComponent sep last := hnames last (by rw [hsnoc]; exact List.mem_append_right _ List.mem_cons_self)
        refine ⟨k, init, ?_, fun n hn => hnames n (by rw [hsnoc]; exact List.mem_append_left _ hn)⟩
        rw [hsnoc, ← List.append_assoc, if_neg, List.dropLast_concat]
        rintro (hne | ⟨-, hnil⟩ | hdots)
        · exact hne hparent
        · exact absurd hnil (by simp)
        · rw [List.getLast?_concat, Option.some.injEq] at hdots
          exact hlast.ne_parent hdots
    · rw [if_pos (Or.inl hparent), List.append_assoc]
      refine ⟨k, names ++ [comp], rfl, fun n hn => ?_⟩
      rcases List.mem_append.mp hn with hold | hnew
      · exact hnames n hold
      · rw [List.mem_singleton.mp hnew]
        exact ⟨hplain.1, hplain.2, hparent, hcomp⟩
  have hfold : ∀ (comps more : List Name), (∀ n ∈ more, sep ∉ n) →
      (∃ k names, comps = List.replicate k ['.', '.'] ++ names ∧ ∀ n ∈ names, IsComponent sep n) →
      ∃ k names, more.foldl (norm_step false) comps = List.replicate k ['.', '.'] ++ names ∧
        ∀ n ∈ names, IsComponent sep n := by
    intro comps more
    induction more generalizing comps with
    | nil => exact fun _ h => h
    | cons name more ih =>
        intro hmore h
        exact ih _ (fun n hn => hmore n (List.mem_cons_of_mem _ hn)) (hstep comps name (hmore name List.mem_cons_self) h)
  exact hfold [] _ (fun n hn => not_mem_of_mem_splitOn hn) ⟨0, [], rfl, fun n hn => absurd hn List.not_mem_nil⟩

theorem mem_of_mem_splitOn {text : List Char} {comp : Name} (h : comp ∈ text.splitOn sep) {c : Char}
    (hc : c ∈ comp) : c ∈ text := by
  have hjoin : [sep].intercalate (text.splitOn sep) = text := List.intercalate_splitOn sep
  rw [← hjoin]
  generalize text.splitOn sep = comps at h
  induction comps with
  | nil => exact absurd h List.not_mem_nil
  | cons first rest ih =>
      rcases rest with _ | ⟨second, rest⟩
      · rw [List.mem_singleton.mp h] at hc
        rw [List.intercalate_singleton]
        exact hc
      · rw [List.intercalate_cons_cons, List.append_assoc, List.mem_append]
        rcases List.mem_cons.mp h with heq | hmem
        · exact Or.inl (heq ▸ hc)
        · exact Or.inr (List.mem_append.mpr (Or.inr (ih hmem)))

/-! ### Lengths -/

/-- The length of some components with a separator after each. -/
def spread (names : List Name) : ℕ := (names.map fun n => n.length + 1).sum

theorem spread_append (names more : List Name) : spread (names ++ more) = spread names + spread more := by
  rw [spread, List.map_append, List.sum_append]
  rfl

theorem length_join (sep : Char) {names : List Name} (h : names ≠ []) : (join sep names).length + 1 = spread names := by
  induction names with
  | nil => exact absurd rfl h
  | cons name names ih =>
      rcases names with _ | ⟨second, rest⟩
      · rw [join_singleton]
        simp [spread]
      · have hrest := ih (List.cons_ne_nil _ _)
        rw [join_cons_cons, List.length_append, List.length_cons]
        have hspread : spread (name :: second :: rest) = (name.length + 1) + spread (second :: rest) := by
          rw [spread, List.map_cons, List.sum_cons]
          rfl
        omega

theorem spread_dropLast_le (names : List Name) : spread names.dropLast ≤ spread names := by
  rcases List.eq_nil_or_concat names with hnil | ⟨init, last, hsnoc⟩
  · rw [hnil]
    rfl
  · rw [hsnoc, List.concat_eq_append, List.dropLast_concat, spread_append]
    omega

theorem spread_norm_step_le (rooted : Bool) (comps : List Name) (comp : Name) :
    spread (norm_step rooted comps comp) ≤ spread comps + (comp.length + 1) := by
  rw [norm_step]
  split
  · omega
  split
  · rw [spread_append]
    simp [spread]
  · have := spread_dropLast_le comps
    omega

/-- **Normalising does not lengthen.** -/
theorem length_join_norm_le (sep : Char) (rooted : Bool) (path : List Char) :
    (join sep (norm_components sep rooted path)).length ≤ path.length := by
  have hfold : ∀ (comps names : List Name),
      spread (names.foldl (norm_step rooted) comps) ≤ spread comps + spread names := by
    intro comps names
    induction names generalizing comps with
    | nil => exact Nat.le_add_right _ _
    | cons name names ih =>
        have hstep := spread_norm_step_le rooted comps name
        have hrest := ih (norm_step rooted comps name)
        have hcons : spread (name :: names) = (name.length + 1) + spread names := by
          rw [spread, List.map_cons, List.sum_cons]
          rfl
        rw [List.foldl_cons]
        omega
  have hall := hfold [] (path.splitOn sep)
  have hpath := length_join sep (List.splitOn_ne_nil sep path)
  rw [join, List.intercalate_splitOn] at hpath
  have hnil : spread [] = 0 := rfl
  by_cases hempty : norm_components sep rooted path = []
  · rw [hempty]
    exact Nat.zero_le _
  · have hjoin := length_join sep hempty
    rw [norm_components] at hjoin ⊢
    omega

end

/-! ## POSIX -/

/-- The roots of absolute POSIX paths. Two slashes are a root of their own. -/
def PosixRoot (root : List Char) : Prop := root = ['/'] ∨ root = ['/', '/']

section

variable {root : List Char} {names : List Name}

variable {text : List Char}

theorem initial_slashes_root (h : text.head? = some '/') : PosixRoot (initial_slashes text) := by
  unfold initial_slashes
  split
  · exact Or.inl rfl
  · exact Or.inr rfl
  · exact Or.inl rfl
  · rename_i hno
    rcases text with _ | ⟨c, text⟩
    · exact absurd h (by simp)
    · exact absurd (by rw [Option.some.inj h]) (hno text)

theorem head?_join_ne {sep : Char} (h : ∀ name ∈ names, IsComponent sep name) :
    (join sep names).head? ≠ some sep :=
  join_head_ne fun name hname => ⟨(h name hname).ne_nil, (h name hname).no_sep⟩

theorem initial_slashes_anchored (hroot : PosixRoot root) (h : text.head? ≠ some '/') :
    initial_slashes (root ++ text) = root := by
  rcases hroot with rfl | rfl
  · exact initial_slashes_cons h
  · rcases text with _ | ⟨c, text⟩
    · rfl
    · have hc : c ≠ '/' := fun heq => h (congrArg some heq)
      unfold initial_slashes
      split
      · rename_i heq
        exact absurd (List.cons.inj (List.cons.inj (List.cons.inj heq).2).2).1 hc
      · rfl
      · rename_i hnone heq
        exact absurd (List.cons.inj heq).2.symm (hnone (c :: text))
      · rename_i hnone
        exact absurd rfl (hnone ('/' :: c :: text))

theorem components_root (hroot : PosixRoot root) (text : List Char) :
    components '/' (root ++ text) = components '/' text := by
  rcases hroot with rfl | rfl
  · exact components_sep_cons text
  · exact (components_sep_cons ('/' :: text)).trans (components_sep_cons text)

theorem norm_components_root (hroot : PosixRoot root) (text : List Char) :
    norm_components '/' true (root ++ text) = norm_components '/' true text := by
  rcases hroot with rfl | rfl
  · exact norm_components_sep_cons true text
  · exact (norm_components_sep_cons true ('/' :: text)).trans (norm_components_sep_cons true text)

theorem PosixRoot.ne_nil (hroot : PosixRoot root) : root ≠ [] := by
  rcases hroot with rfl | rfl
  · exact List.cons_ne_nil _ _
  · exact List.cons_ne_nil _ _

/-- A root with normal components behind it. -/
structure IsPosix (root : List Char) (names : List Name) : Prop where
  root : PosixRoot root
  normal : ∀ name ∈ names, IsComponent '/' name

theorem normpath_anchored (h : IsPosix root names) : normpath (root ++ join '/' names) = root ++ join '/' names := by
  have hne : root ++ join '/' names ≠ [] := fun hnil => h.root.ne_nil (List.append_eq_nil_iff.mp hnil).1
  rw [normpath, initial_slashes_anchored h.root (head?_join_ne h.normal),
    decide_eq_true h.root.ne_nil, norm_components_root h.root, norm_components_join h.normal]
  exact if_neg hne

theorem posix_path_anchored (h : IsPosix root names) : posix_path (root ++ join '/' names) = .posix root names := by
  have hcomps : ((root ++ join '/' names).splitOn '/').filter (fun c => c ≠ [] ∧ c ≠ ['.']) = names := by
    have hfilter : ((root ++ join '/' names).splitOn '/').filter (fun c => c ≠ [] ∧ c ≠ ['.'])
        = (components '/' (root ++ join '/' names)).filter (· ≠ ['.']) := by
      rw [components, List.filter_filter]
      refine List.filter_congr fun c _ => ?_
      rw [← Bool.decide_and]
      exact decide_eq_decide.mpr and_comm
    rw [hfilter, components_root h.root, components_join h.normal]
    exact List.filter_eq_self.mpr fun n hn => decide_eq_true (h.normal n hn).ne_dot
  rw [posix_path, initial_slashes_anchored h.root (head?_join_ne h.normal), hcomps]

theorem posix_chars (h : IsPosix root names) : (PurePath.posix root names).chars = root ++ join '/' names :=
  if_neg fun hnil => h.root.ne_nil hnil.1

/-- The slashes and the components `posixpath.normpath` keeps of an absolute path. -/
theorem normpath_parts (h : text.head? = some '/') :
    IsPosix (initial_slashes text) (norm_components '/' true text) ∧
      normpath text = initial_slashes text ++ join '/' (norm_components '/' true text) := by
  have hroot := initial_slashes_root h
  refine ⟨⟨hroot, norm_components_all text⟩, ?_⟩
  rw [normpath, decide_eq_true hroot.ne_nil]
  exact if_neg fun hnil => hroot.ne_nil (List.append_eq_nil_iff.mp hnil).1

/-- `posixpath.normpath` of an absolute path is a root and normal components. -/
theorem normpath_shape (h : text.head? = some '/') :
    ∃ root names, IsPosix root names ∧ normpath text = root ++ join '/' names ∧
      ∀ name ∈ names, name ∈ text.splitOn '/' :=
  ⟨_, _, (normpath_parts h).1, (normpath_parts h).2, fun _ hname => norm_components_subset hname⟩

/-- **What `validate_config_path` returns**: a root and normal components, which the text
of the path is split into again. -/
theorem validate_config_path_shape {text : String} {p : PurePath} (h : validate_config_path text = .ok p) :
    ∃ root names, IsPosix root names ∧ p = .posix root names ∧ validate_config_path p.str = .ok p := by
  rw [validate_config_path] at h
  split at h
  · exact absurd h (by simp)
  split at h
  · exact absurd h (by simp)
  rename_i hnul
  split at h
  · exact absurd h (by simp)
  rename_i habs
  obtain ⟨root, names, hshape, hnorm, hsub⟩ := normpath_shape (not_not.mp habs)
  rw [hnorm, posix_path_anchored hshape, Except.ok.injEq] at h
  refine ⟨root, names, hshape, h.symm, ?_⟩
  have hchars : p.str.toList = root ++ join '/' names := by
    rw [← h, PurePath.str, String.toList_ofList, posix_chars hshape]
  have hne : root ++ join '/' names ≠ [] :=
    fun hnil => hshape.root.ne_nil (List.append_eq_nil_iff.mp hnil).1
  have hhead : (root ++ join '/' names).head? = some '/' := by
    rcases hshape.root with hroot | hroot
    · rw [hroot]
      rfl
    · rw [hroot]
      rfl
  have hno : (root ++ join '/' names).contains (Char.ofNat 0) = false := by
    rw [List.contains_eq_mem, decide_eq_false_iff_not, List.mem_append, not_or]
    constructor
    · rcases hshape.root with hroot | hroot
      · rw [hroot]
        decide
      · rw [hroot]
        decide
    · refine not_mem_join (by decide) fun name hname hmem => ?_
      rw [List.contains_eq_mem, decide_eq_true_eq] at hnul
      exact hnul (mem_of_mem_splitOn (hsub name hname) hmem)
  rw [validate_config_path, hchars, if_neg hne, hno, if_neg Bool.false_ne_true, if_neg (not_not.mpr hhead),
    normpath_anchored hshape, posix_path_anchored hshape, h]

/-- The text of a path says its root and its components. -/
theorem posix_chars_inj {root' : List Char} {names' : List Name} (h : IsPosix root names)
    (h' : IsPosix root' names') (heq : (PurePath.posix root names).chars = (PurePath.posix root' names').chars) :
    root = root' ∧ names = names' := by
  have hpath := posix_path_anchored h
  rw [posix_chars h, posix_chars h'] at heq
  rw [heq, posix_path_anchored h'] at hpath
  injection hpath with hroot hnames
  exact ⟨hroot.symm, hnames.symm⟩

end

/-! ## Windows -/

/-- The prefix `strip_long_path_prefix` strips. -/
def long_prefix : List Char := "\\\\?\\".toList

theorem backslashed_self {cs : List Char} (h : '/' ∉ cs) : backslashed cs = cs := by
  rw [backslashed]
  refine (List.map_congr_left fun c hc => ?_).trans (List.map_id cs)
  exact if_neg fun (heq : c = '/') => h (heq ▸ hc)

theorem not_mem_backslashed (cs : List Char) : '/' ∉ backslashed cs := by
  intro h
  obtain ⟨c, -, hc⟩ := List.mem_map.mp h
  split at hc
  · exact absurd hc (by decide)
  · rename_i hne
    exact hne hc

theorem length_backslashed (cs : List Char) : (backslashed cs).length = cs.length := List.length_map _

theorem find_sep_of_mem (pre : List Char) {a b : List Char} (h : '\\' ∉ a) :
    find_sep (pre ++ (a ++ '\\' :: b)) pre.length = some (pre.length + a.length) := by
  have hfind : (a ++ '\\' :: b).findIdx? (· = '\\') = some a.length := by
    rw [List.findIdx?_append, List.findIdx?_eq_none_iff.mpr, List.findIdx?_cons]
    · simp
    · exact fun c hc => decide_eq_false fun heq => h (heq ▸ hc)
  rw [find_sep, List.drop_left, hfind, Option.map_some, Nat.add_comm]

theorem find_sep_of_not_mem (pre : List Char) {a : List Char} (h : '\\' ∉ a) : find_sep (pre ++ a) pre.length = none := by
  rw [find_sep, List.drop_left, List.findIdx?_eq_none_iff.mpr, Option.map_none]
  exact fun c hc => decide_eq_false fun heq => h (heq ▸ hc)

/-- Only the device prefix is upper-cased into the device prefix. -/
theorem toUpper_eq {c d : Char} (hd : d = '\\' ∨ d = '?') (h : c.toUpper = d) : c = d := by
  delta Char.toUpper at h
  split at h
  · exfalso
    rename_i hlower
    have hval : (c.val + ('A'.val - 'a'.val)).toNat = d.val.toNat := congrArg (fun x => x.val.toNat) h
    have hlow : 97 ≤ c.val.toNat := hlower.1
    have hhigh : c.val.toNat ≤ 122 := hlower.2
    have hshift : ('A'.val - 'a'.val).toNat = 4294967264 := by decide
    rw [UInt32.toNat_add, hshift] at hval
    have hd' : d.val.toNat = 92 ∨ d.val.toNat = 63 := by
      rcases hd with rfl | rfl
      · exact Or.inl rfl
      · exact Or.inr rfl
    omega
  · exact h

/-- What `splitroot` does not take for the long UNC prefix. -/
theorem upper_take_ne {cs : List Char} (h : ¬ long_prefix <+: cs) : upper (cs.take 8) ≠ "\\\\?\\UNC\\".toList := by
  intro hupper
  apply h
  rcases cs with _ | ⟨a, _ | ⟨b, _ | ⟨c, _ | ⟨d, rest⟩⟩⟩⟩
  · exact absurd hupper (by decide)
  · exact absurd (congrArg List.length hupper) (by simp [upper])
  · exact absurd (congrArg List.length hupper) (by simp [upper])
  · exact absurd (congrArg List.length hupper) (by simp [upper])
  · have hcons : a.toUpper :: b.toUpper :: c.toUpper :: d.toUpper :: upper (rest.take 4)
        = '\\' :: '\\' :: '?' :: '\\' :: "UNC\\".toList := hupper
    obtain ⟨ha, hcons⟩ := List.cons.inj hcons
    obtain ⟨hb, hcons⟩ := List.cons.inj hcons
    obtain ⟨hc, hcons⟩ := List.cons.inj hcons
    obtain ⟨hd, -⟩ := List.cons.inj hcons
    rw [toUpper_eq (Or.inl rfl) ha, toUpper_eq (Or.inl rfl) hb, toUpper_eq (Or.inr rfl) hc,
      toUpper_eq (Or.inl rfl) hd]
    exact ⟨rest, rfl⟩

/-- **The drives and roots of absolute Windows paths** without the long-path prefix: a
drive letter and a root, a share and a root, and the two that are left without one. -/
inductive WindowsAnchor : List Char → List Char → Prop
  | letter (c : Char) (hc : c ≠ '\\') (hslash : c ≠ '/') : WindowsAnchor [c, ':'] ['\\']
  | share (server share : Name) (hserver : '\\' ∉ server) (hshare : '\\' ∉ share)
      (hslash : '/' ∉ server ++ share) (hlong : server ≠ ['?']) :
      WindowsAnchor ('\\' :: '\\' :: (server ++ '\\' :: share)) ['\\']
  | server (server : Name) (hserver : '\\' ∉ server) (hslash : '/' ∉ server) :
      WindowsAnchor ('\\' :: '\\' :: server) []
  | device (server share : Name) (hserver : '\\' ∉ server) (hshare : '\\' ∉ share)
      (hslash : '/' ∉ server ++ share) (hlong : server ≠ ['?']) :
      WindowsAnchor ('\\' :: '\\' :: (server ++ '\\' :: share)) []

section

variable {drive root : List Char}

theorem WindowsAnchor.root_eq (h : WindowsAnchor drive root) : root = ['\\'] ∨ root = [] := by
  cases h with
  | letter => exact Or.inl rfl
  | share => exact Or.inl rfl
  | server => exact Or.inr rfl
  | device => exact Or.inr rfl

theorem WindowsAnchor.ne_nil (h : WindowsAnchor drive root) : drive ≠ [] := by
  cases h with
  | letter => exact List.cons_ne_nil _ _
  | share => exact List.cons_ne_nil _ _
  | server => exact List.cons_ne_nil _ _
  | device => exact List.cons_ne_nil _ _

theorem WindowsAnchor.no_slash (h : WindowsAnchor drive root) : '/' ∉ drive ++ root := by
  rcases h with ⟨c, -, hslash⟩ | ⟨server, share, -, -, hslash, -⟩ | ⟨server, -, hslash⟩ |
    ⟨server, share, -, -, hslash, -⟩
  · rw [List.mem_append, not_or]
    exact ⟨by simpa using fun heq => hslash heq.symm, by decide⟩
  · rw [List.mem_append, not_or] at hslash
    simpa using hslash
  · simpa using hslash
  · rw [List.mem_append, not_or] at hslash
    simpa using hslash

/-- What follows a root does not make a text long-prefixed. -/
theorem not_long_unc {server : List Char} (hserver : '\\' ∉ server) (hlong : server ≠ ['?']) (more : List Char) :
    ¬ long_prefix <+: '\\' :: '\\' :: (server ++ '\\' :: more) := by
  rintro ⟨rest, hrest⟩
  have hcons : '?' :: '\\' :: rest = server ++ '\\' :: more :=
    (List.cons.inj (List.cons.inj hrest).2).2
  have hsplit : ('?' :: '\\' :: rest).splitOn '\\' = ['?'] :: rest.splitOn '\\' :=
    List.splitOn_append_cons_self_of_not_mem (show '\\' ∉ ['?'] by decide) rest
  rw [hcons, List.splitOn_append_cons_self_of_not_mem hserver] at hsplit
  exact hlong (List.cons.inj hsplit).1

theorem not_long_server {server : List Char} (hserver : '\\' ∉ server) : ¬ long_prefix <+: '\\' :: '\\' :: server := by
  rintro ⟨rest, hrest⟩
  have hcons : '?' :: '\\' :: rest = server := (List.cons.inj (List.cons.inj hrest).2).2
  exact hserver (hcons ▸ List.mem_cons_of_mem _ List.mem_cons_self)

theorem WindowsAnchor.not_long (h : WindowsAnchor drive root) {text : List Char} (hbare : root = [] → text = []) :
    ¬ long_prefix <+: drive ++ root ++ text := by
  rcases h with ⟨c, hc, -⟩ | ⟨server, share, hserver, -, -, hlong⟩ | ⟨server, hserver, -⟩ |
    ⟨server, share, hserver, -, -, hlong⟩
  · rintro ⟨rest, hrest⟩
    exact hc (List.cons.inj hrest).1.symm
  · have hnot := not_long_unc hserver hlong (share ++ '\\' :: text)
    simpa using hnot
  · rw [hbare rfl, List.append_nil, List.append_nil]
    exact not_long_server hserver
  · rw [hbare rfl, List.append_nil, List.append_nil]
    exact not_long_unc hserver hlong _

/-- What `splitroot` makes of two leading separators, searching from `start` on. -/
def share_split (cs : List Char) (start : ℕ) : List Char × List Char × List Char :=
  match find_sep cs start with
  | none => (cs, [], [])
  | some index =>
      match find_sep cs (index + 1) with
      | none => (cs, [], [])
      | some index2 => (cs.take index2, (cs.drop index2).take 1, cs.drop (index2 + 1))

theorem splitroot_share_split {rest : List Char} (hslash : '/' ∉ rest) :
    splitroot ('\\' :: '\\' :: rest) = share_split ('\\' :: '\\' :: rest)
      (if upper (('\\' :: '\\' :: rest).take 8) = "\\\\?\\UNC\\".toList then 8 else 2) := by
  have hself : backslashed ('\\' :: '\\' :: rest) = '\\' :: '\\' :: rest :=
    backslashed_self (by simpa using hslash)
  rw [splitroot, hself]
  rfl

theorem splitroot_unc {rest : List Char} (hslash : '/' ∉ rest) (hlong : ¬ long_prefix <+: '\\' :: '\\' :: rest) :
    splitroot ('\\' :: '\\' :: rest) = share_split ('\\' :: '\\' :: rest) 2 := by
  rw [splitroot_share_split hslash, if_neg (upper_take_ne hlong)]

theorem splitroot_share {server share text : List Char} (hserver : '\\' ∉ server) (hshare : '\\' ∉ share)
    (hslash : '/' ∉ server ++ share) (hlong : server ≠ ['?']) (htext : '/' ∉ text) :
    splitroot ('\\' :: '\\' :: (server ++ '\\' :: (share ++ '\\' :: text)))
      = ('\\' :: '\\' :: (server ++ '\\' :: share), ['\\'], text) := by
  have hfirst : find_sep ('\\' :: '\\' :: (server ++ '\\' :: (share ++ '\\' :: text))) 2 = some (2 + server.length) :=
    find_sep_of_mem ['\\', '\\'] hserver
  have hsecond : find_sep ('\\' :: '\\' :: (server ++ '\\' :: (share ++ '\\' :: text))) (2 + server.length + 1)
      = some (2 + server.length + 1 + share.length) := by
    have := @find_sep_of_mem ('\\' :: '\\' :: (server ++ ['\\'])) share text hshare
    have hpre : ('\\' :: '\\' :: (server ++ ['\\'])).length = 2 + server.length + 1 := by
      simp
      omega
    rw [hpre] at this
    simpa using this
  have hnot : '/' ∉ server ++ '\\' :: (share ++ '\\' :: text) := by
    rw [List.mem_append, not_or] at hslash
    simpa using ⟨hslash.1, hslash.2, htext⟩
  have hcut : '\\' :: '\\' :: (server ++ '\\' :: (share ++ '\\' :: text))
      = ('\\' :: '\\' :: (server ++ '\\' :: share)) ++ '\\' :: text := by simp
  have hlen : ('\\' :: '\\' :: (server ++ '\\' :: share)).length = 2 + server.length + 1 + share.length := by
    simp
    omega
  rw [splitroot_unc hnot (not_long_unc hserver hlong _), share_split, hfirst]
  dsimp only
  rw [hsecond]
  dsimp only
  rw [hcut, ← hlen, List.take_left, List.drop_left, List.drop_append]
  simp

theorem splitroot_server {server : List Char} (hserver : '\\' ∉ server) (hslash : '/' ∉ server) :
    splitroot ('\\' :: '\\' :: server) = ('\\' :: '\\' :: server, [], []) := by
  rw [splitroot_unc hslash (not_long_server hserver), share_split,
    show find_sep ('\\' :: '\\' :: server) 2 = none from find_sep_of_not_mem ['\\', '\\'] hserver]

theorem splitroot_device {server share : List Char} (hserver : '\\' ∉ server) (hshare : '\\' ∉ share)
    (hslash : '/' ∉ server ++ share) (hlong : server ≠ ['?']) : splitroot ('\\' :: '\\' :: (server ++ '\\' :: share))
      = ('\\' :: '\\' :: (server ++ '\\' :: share), [], []) := by
  have hfirst : find_sep ('\\' :: '\\' :: (server ++ '\\' :: share)) 2 = some (2 + server.length) :=
    find_sep_of_mem ['\\', '\\'] hserver
  have hsecond : find_sep ('\\' :: '\\' :: (server ++ '\\' :: share)) (2 + server.length + 1) = none := by
    have := find_sep_of_not_mem ('\\' :: '\\' :: (server ++ ['\\'])) hshare
    have hpre : ('\\' :: '\\' :: (server ++ ['\\'])).length = 2 + server.length + 1 := by
      simp
      omega
    rw [hpre] at this
    simpa using this
  have hnot : '/' ∉ server ++ '\\' :: share := by
    rw [List.mem_append, not_or] at hslash
    simpa using hslash
  rw [splitroot_unc hnot (not_long_unc hserver hlong _), share_split, hfirst]
  dsimp only
  rw [hsecond]

theorem splitroot_letter {c : Char} {text : List Char} (hc : c ≠ '\\') (hslash : c ≠ '/') (htext : '/' ∉ text) :
    splitroot (c :: ':' :: '\\' :: text) = ([c, ':'], ['\\'], text) := by
  have hself : backslashed (c :: ':' :: '\\' :: text) = c :: ':' :: '\\' :: text :=
    backslashed_self (by simpa using ⟨fun heq => hslash heq.symm, htext⟩)
  rw [splitroot, hself]
  split
  · rename_i heq
    exact absurd (List.cons.inj heq).1 hc
  · rename_i heq
    exact absurd (List.cons.inj heq).1 hc
  · rfl
  · rename_i hnone heq
    exact absurd (List.cons.inj (List.cons.inj heq).2).2.symm (hnone text)
  · rename_i hnone
    exact absurd rfl (hnone c (.cons '\\' text))

/-- **A drive and a root are found again**, whatever stands behind the root. -/
theorem splitroot_anchored (h : WindowsAnchor drive root) {text : List Char} (hbare : root = [] → text = [])
    (htext : '/' ∉ text) : splitroot (drive ++ root ++ text) = (drive, root, text) := by
  rcases h with ⟨c, hc, hslash⟩ | ⟨server, share, hserver, hshare, hslash, hlong⟩ | ⟨server, hserver, hslash⟩ |
    ⟨server, share, hserver, hshare, hslash, hlong⟩
  · exact splitroot_letter hc hslash htext
  · have := splitroot_share hserver hshare hslash hlong htext
    simpa using this
  · rw [hbare rfl, List.append_nil, List.append_nil]
    exact splitroot_server hserver hslash
  · rw [hbare rfl, List.append_nil, List.append_nil]
    exact splitroot_device hserver hshare hslash hlong

/-- A text cut at the first of some characters, if it is there. -/
theorem cut_at (sep : Char) (text : List Char) :
    sep ∉ text ∨ ∃ before after, text = before ++ sep :: after ∧ sep ∉ before := by
  by_cases h : sep ∈ text
  · exact Or.inr (List.eq_append_cons_of_mem h)
  · exact Or.inl h

/-- What `splitroot` takes a text without the long-path prefix apart into. -/
inductive Split (cs : List Char) : Prop
  /-- a drive, with a root behind it or nothing -/
  | anchored (drive root text : List Char) (hanchor : WindowsAnchor drive root) (hbare : root = [] → text = [])
      (hcs : cs = drive ++ root ++ text) (hsplit : splitroot cs = (drive, root, text))
  /-- a root without a drive -/
  | rooted (text : List Char) (hsplit : splitroot cs = ([], ['\\'], text))
  /-- a drive letter without a root -/
  | letter (c : Char) (text : List Char) (hc : c ≠ '\\') (hcs : cs = c :: ':' :: text)
      (htext : text.head? ≠ some '\\') (hsplit : splitroot cs = ([c, ':'], [], text))
  | relative (hsplit : splitroot cs = ([], [], cs))

theorem splitroot_split {cs : List Char} (hslash : '/' ∉ cs) (hlong : ¬ long_prefix <+: cs) : Split cs := by
  have hself : backslashed cs = cs := backslashed_self hslash
  have found : ∀ {drive root : List Char} (text : List Char), WindowsAnchor drive root → (root = [] → text = []) →
      cs = drive ++ root ++ text → Split cs := by
    intro drive root text hanchor hbare hcs
    have htext : '/' ∉ text := fun hmem => hslash (hcs ▸ List.mem_append_right _ hmem)
    exact .anchored drive root text hanchor hbare hcs (by rw [hcs, splitroot_anchored hanchor hbare htext])
  rcases cs with _ | ⟨a, _ | ⟨b, rest⟩⟩
  · exact .relative rfl
  · by_cases ha : a = '\\'
    · rw [ha]
      exact .rooted [] rfl
    · refine .relative ?_
      rw [splitroot, hself]
      split
      · rename_i heq
        exact absurd (List.cons.inj heq).1 ha
      · rename_i heq
        exact absurd (List.cons.inj heq).1 ha
      · rename_i heq
        exact absurd (List.cons.inj heq).2 (by simp)
      · rename_i heq
        exact absurd (List.cons.inj heq).2 (by simp)
      · rfl
  by_cases ha : a = '\\'
  · subst ha
    by_cases hb : b = '\\'
    · subst hb
      have hrest : '/' ∉ rest := fun hmem => hslash (List.mem_cons_of_mem _ (List.mem_cons_of_mem _ hmem))
      rcases cut_at '\\' rest with hno | ⟨server, after, rfl, hserver⟩
      · exact found [] (.server rest hno hrest) (fun _ => rfl) (by simp)
      have hserver_long : server ≠ ['?'] := by
        rintro rfl
        exact hlong ⟨after, rfl⟩
      rcases cut_at '\\' after with hno | ⟨share, text, rfl, hshare⟩
      · exact found [] (.device server after hserver hno (by simpa using hrest) hserver_long) (fun _ => rfl) (by simp)
      · refine found text (.share server share hserver hshare ?_ hserver_long) (fun h => absurd h (by simp))
          (by simp)
        intro hmem
        apply hrest
        rcases List.mem_append.mp hmem with h | h
        · exact List.mem_append_left _ h
        · exact List.mem_append_right _ (List.mem_cons_of_mem _ (List.mem_append_left _ h))
    · refine .rooted (b :: rest) ?_
      rw [splitroot, hself]
      split
      · rename_i heq
        exact absurd (List.cons.inj (List.cons.inj heq).2).1 hb
      · rfl
      · rename_i hno heq
        exact absurd (List.cons.inj heq).1.symm hno
      · rename_i hno _ heq
        exact absurd (List.cons.inj heq).1.symm hno
      · rename_i hno _ _
        exact absurd rfl (hno (b :: rest))
  · by_cases hb : b = ':'
    · subst hb
      by_cases htext : rest.head? = some '\\'
      · rcases rest with _ | ⟨c, text⟩
        · exact absurd htext (by simp)
        · obtain rfl := Option.some.inj htext
          exact found text (.letter a ha fun heq => hslash (heq ▸ List.mem_cons_self))
            (fun h => absurd h (by simp)) rfl
      · refine .letter a rest ha rfl htext ?_
        rw [splitroot, hself]
        split
        · rename_i heq
          exact absurd (List.cons.inj heq).1 ha
        · rename_i heq
          exact absurd (List.cons.inj heq).1 ha
        · rename_i heq
          exact absurd (by rw [(List.cons.inj (List.cons.inj heq).2).2]; rfl) htext
        · rfl
        · rename_i hno
          exact absurd rfl (hno a rest)
    · refine .relative ?_
      rw [splitroot, hself]
      split
      · rename_i heq
        exact absurd (List.cons.inj heq).1 ha
      · rename_i heq
        exact absurd (List.cons.inj heq).1 ha
      · rename_i heq
        exact absurd (List.cons.inj (List.cons.inj heq).2).1 hb
      · rename_i heq
        exact absurd (List.cons.inj (List.cons.inj heq).2).1 hb
      · rfl

/-- **What `splitroot` takes for a drive**, in an absolute text without the long-path
prefix. -/
theorem splitroot_shape {cs : List Char} (hslash : '/' ∉ cs) (hlong : ¬ long_prefix <+: cs)
    (hdrive : (splitroot cs).1 ≠ []) (habs : nt_isabs cs = true) :
    ∃ drive root text, WindowsAnchor drive root ∧ (root = [] → text = []) ∧ cs = drive ++ root ++ text ∧
      splitroot cs = (drive, root, text) := by
  cases splitroot_split hslash hlong with
  | anchored drive root text hanchor hbare hcs hsplit => exact ⟨drive, root, text, hanchor, hbare, hcs, hsplit⟩
  | rooted text hsplit => exact absurd (by rw [hsplit]) hdrive
  | relative hsplit => exact absurd (by rw [hsplit]) hdrive
  | letter c text hc hcs htext hsplit =>
      -- a drive letter alone is not absolute
      have hhead : backslashed (cs.take 3) = cs.take 3 :=
        backslashed_self fun hmem => hslash (List.mem_of_mem_take hmem)
      rw [nt_isabs, hhead, hcs] at habs
      split at habs
      · rename_i heq
        exact absurd (List.cons.inj heq).1 hc
      · rename_i heq
        have htake : text.take 1 = _ := (List.cons.inj (List.cons.inj heq).2).2
        rcases text with _ | ⟨a, text⟩
        · exact absurd htake (by simp)
        · exact absurd (congrArg some (List.cons.inj htake).1) htext
      · exact absurd habs (by simp)

/-- Nothing is lost or made up by `splitroot`. -/
theorem splitroot_append (cs : List Char) : (splitroot cs).1 ++ (splitroot cs).2.1 ++ (splitroot cs).2.2 = cs := by
  have hcut : ∀ n, cs.take n ++ (cs.drop n).take 1 ++ cs.drop (n + 1) = cs := by
    intro n
    rw [← List.drop_drop, List.append_assoc, List.take_append_drop, List.take_append_drop]
  generalize hresult : splitroot cs = result
  rw [splitroot] at hresult
  dsimp only at hresult
  split at hresult
  · split at hresult
    · rw [← hresult]
      simp
    · split at hresult
      · rw [← hresult]
        simp
      · rw [← hresult]
        exact hcut _
  · rw [← hresult]
    exact hcut 0
  · rw [← hresult]
    exact hcut 2
  · rw [← hresult]
    simp
  · rw [← hresult]
    simp

theorem le_of_find_sep {cs : List Char} {start index : ℕ} (h : find_sep cs start = some index) : start ≤ index := by
  obtain ⟨n, -, hn⟩ := Option.map_eq_some_iff.mp h
  omega

/-- The drive of a long-prefixed text is long-prefixed. -/
theorem long_drive {cs : List Char} (hslash : '/' ∉ cs) (h : long_prefix <+: cs) :
    long_prefix <+: (splitroot cs).1 := by
  have hlen : long_prefix.length = 4 := by decide
  have hfound : ∀ start, (∀ index, find_sep cs start = some index → 3 ≤ index) →
      long_prefix <+: (share_split cs start).1 := by
    intro start hstart
    rw [share_split]
    split
    · exact h
    · rename_i index hindex
      have hle := hstart index hindex
      split
      · exact h
      · rename_i index2 hindex2
        have hle2 := le_of_find_sep hindex2
        exact List.prefix_take_iff.mpr ⟨h, by omega⟩
  obtain ⟨rest, rfl⟩ := h
  have hrest : '/' ∉ '?' :: '\\' :: rest := fun hmem => hslash (List.mem_cons_of_mem _ (List.mem_cons_of_mem _ hmem))
  have hsplit : splitroot ( long_prefix ++ rest) = _ := splitroot_share_split hrest
  rw [hsplit]
  refine hfound _ fun index hindex => ?_
  split at hindex
  · -- the long UNC prefix: the search starts behind it
    have hle := le_of_find_sep hindex
    omega
  · have hfirst : find_sep ( long_prefix ++ rest) 2 = some 3 :=
      find_sep_of_mem ['\\', '\\'] (show '\\' ∉ ['?'] by decide)
    rw [hfirst, Option.some.injEq] at hindex
    omega

theorem windows_path_rooted {names : List Name} (h : WindowsAnchor drive ['\\'])
    (hnames : ∀ name ∈ names, IsComponent '\\' name) (hslash : ∀ name ∈ names, '/' ∉ name) :
    windows_path (drive ++ ['\\'] ++ join '\\' names) = .windows drive ['\\'] names := by
  have htext : '/' ∉ join '\\' names := not_mem_join (by decide) hslash
  have hself : backslashed (drive ++ ['\\'] ++ join '\\' names) = drive ++ ['\\'] ++ join '\\' names := by
    refine backslashed_self fun hmem => ?_
    rcases List.mem_append.mp hmem with hleft | hright
    · exact h.no_slash hleft
    · exact htext hright
  have hcomps : ((join '\\' names).splitOn '\\').filter (fun c => c ≠ [] ∧ c ≠ ['.']) = names := by
    have hfilter : ((join '\\' names).splitOn '\\').filter (fun c => c ≠ [] ∧ c ≠ ['.'])
        = (components '\\' (join '\\' names)).filter (· ≠ ['.']) := by
      rw [components, List.filter_filter]
      refine List.filter_congr fun c _ => ?_
      rw [← Bool.decide_and]
      exact decide_eq_decide.mpr and_comm
    rw [hfilter, components_join hnames]
    exact List.filter_eq_self.mpr fun n hn => decide_eq_true (hnames n hn).ne_dot
  rw [windows_path, hself, splitroot_anchored h (fun hnil => absurd hnil (by simp)) htext]
  dsimp only
  rw [hcomps, if_neg (fun hshare => absurd hshare.1 (by simp))]

/-- A drive without a root is all of its text. -/
theorem WindowsAnchor.split_bare (h : WindowsAnchor drive []) :
    backslashed drive = drive ∧ splitroot drive = (drive, [], []) := by
  refine ⟨backslashed_self fun hmem => h.no_slash (List.mem_append_left _ hmem), ?_⟩
  have hnil : '/' ∉ ([] : List Char) := List.not_mem_nil
  have hsplit := splitroot_anchored h (fun _ => rfl) hnil
  rwa [List.append_nil, List.append_nil] at hsplit

/-- A drive without a root is left so, or is a share that is given one. -/
theorem windows_path_bare (h : WindowsAnchor drive []) : windows_path drive = .windows drive [] [] ∨
      (windows_path drive = .windows drive ['\\'] [] ∧ WindowsAnchor drive ['\\']) := by
  rw [windows_path, h.split_bare.1, h.split_bare.2]
  dsimp only
  rw [show (List.filter (fun c => decide (c ≠ [] ∧ c ≠ ['.'])) (List.splitOn '\\' [])) = ([] : List Name) from rfl]
  split
  · rename_i hshare
    right
    refine ⟨rfl, ?_⟩
    cases h with
    | server server hserver hslash =>
        -- three parts are no share
        have hparts : ('\\' :: '\\' :: server).splitOn '\\' = [[], [], server] := by
          rw [splitOn_sep_cons, splitOn_sep_cons, List.splitOn_eq_singleton hserver]
        rw [hparts] at hshare
        exact absurd hshare.2.2.2 (by simp)
    | device server share hserver hno hslash hlong => exact .share server share hserver hno hslash hlong
  · exact Or.inl rfl

/-- An absolute Windows path that is its own normal form. -/
structure IsWindows (drive root : List Char) (names : List Name) : Prop where
  anchor : WindowsAnchor drive root
  bare : root = [] → names = []
  normal : ∀ name ∈ names, IsComponent '\\' name
  no_slash : ∀ name ∈ names, '/' ∉ name
  path : windows_path (drive ++ root ++ join '\\' names) = .windows drive root names

variable {names : List Name}

theorem IsWindows.join_bare (h : IsWindows drive root names) (hroot : root = []) : join '\\' names = [] := by
  rw [h.bare hroot, join_nil]

theorem IsWindows.not_slash (h : IsWindows drive root names) : '/' ∉ drive ++ root ++ join '\\' names := by
  rw [List.mem_append, not_or]
  exact ⟨h.anchor.no_slash, not_mem_join (by decide) h.no_slash⟩

theorem IsWindows.splitroot_eq (h : IsWindows drive root names) :
    splitroot (drive ++ root ++ join '\\' names) = (drive, root, join '\\' names) :=
  splitroot_anchored h.anchor h.join_bare (not_mem_join (by decide) h.no_slash)

theorem windows_chars (h : IsWindows drive root names) :
    (PurePath.windows drive root names).chars = drive ++ root ++ join '\\' names :=
  if_neg fun hnil => h.anchor.ne_nil hnil.1

/-- **What `PureWindowsPath` makes of a normalised text.** -/
theorem windows_path_shape (h : WindowsAnchor drive root) (hbare : root = [] → names = [])
    (hnames : ∀ name ∈ names, IsComponent '\\' name) (hslash : ∀ name ∈ names, '/' ∉ name) :
    ∃ root', IsWindows drive root' names ∧
      windows_path (drive ++ root ++ join '\\' names) = .windows drive root' names := by
  rcases h.root_eq with rfl | rfl
  · have hpath := windows_path_rooted h hnames hslash
    exact ⟨_, ⟨h, hbare, hnames, hslash, hpath⟩, hpath⟩
  · obtain rfl := hbare rfl
    rw [join_nil, List.append_nil, List.append_nil]
    rcases windows_path_bare h with hpath | ⟨hpath, hshare⟩
    · refine ⟨[], ⟨h, hbare, hnames, hslash, ?_⟩, hpath⟩
      rw [join_nil, List.append_nil, List.append_nil]
      exact hpath
    · exact ⟨['\\'], ⟨hshare, fun _ => rfl, hnames, hslash, windows_path_rooted hshare hnames hslash⟩, hpath⟩

/-- Joined components are no drive letter and root, and no separator comes first. -/
theorem not_mem_splitOn_join {sep c : Char} {names : List Name} {text : List Char}
    (hnames : ∀ name ∈ names, name ≠ [] ∧ sep ∉ name) (heq : join sep names = c :: text) : c ≠ sep := by
  rintro rfl
  rcases names with _ | ⟨name, rest⟩
  · exact absurd heq (by simp)
  · have hsplit := splitOn_join (fun n hn => (hnames n hn).2) (List.cons_ne_nil name rest)
    have hhead := List.splitOn_append_cons_self_of_not_mem (List.not_mem_nil (a := c)) text
    rw [List.nil_append] at hhead
    rw [heq, hhead] at hsplit
    exact (hnames name List.mem_cons_self).1 (List.cons.inj hsplit).1.symm

theorem norm_components_mem {sep : Char} {rooted : Bool} {path : List Char} {c : Name}
    (h : c ∈ norm_components sep rooted path) : c ≠ [] ∧ sep ∉ c := by
  refine ⟨?_, not_mem_of_mem_splitOn (norm_components_subset h)⟩
  cases rooted with
  | true => exact (norm_components_all path c h).ne_nil
  | false =>
      obtain ⟨k, names, hcomps, hnames⟩ := norm_components_relative sep path
      rw [hcomps] at h
      rcases List.mem_append.mp h with hdots | hname
      · rw [List.eq_of_mem_replicate hdots]
        exact List.cons_ne_nil _ _
      · exact (hnames c hname).ne_nil

/-- A drive is a letter with a root behind it, or starts with two separators. -/
theorem WindowsAnchor.starts (h : WindowsAnchor drive root) :
    (∃ c, c ≠ '\\' ∧ drive = [c, ':'] ∧ root = ['\\']) ∨ ∃ rest, drive = '\\' :: '\\' :: rest := by
  cases h with
  | letter c hc => exact Or.inl ⟨c, hc, rfl, rfl⟩
  | share => exact Or.inr ⟨_, rfl⟩
  | server => exact Or.inr ⟨_, rfl⟩
  | device => exact Or.inr ⟨_, rfl⟩

theorem nt_normpath_of_split {text drive root rest : List Char} (h : splitroot (backslashed text) = (drive, root, rest)) :
    nt_normpath text = if drive ++ root = [] ∧ norm_components '\\' (root ≠ []) rest = [] then ['.']
      else drive ++ root ++ join '\\' (norm_components '\\' (root ≠ []) rest) := by
  rw [nt_normpath, h]

theorem norm_components_no_slash {rooted : Bool} {path : List Char} (h : '/' ∉ path) {c : Name}
    (hc : c ∈ norm_components '\\' rooted path) : '/' ∉ c :=
  fun hmem => h (mem_of_mem_splitOn (norm_components_subset hc) hmem)

/-- Normalising brings in nothing but separators and a dot. -/
theorem not_mem_nt_normpath {text : List Char} {c : Char} (h : c ∉ backslashed text) (hsep : c ≠ '\\')
    (hdot : c ≠ '.') : c ∉ nt_normpath text := by
  rcases hsplit : splitroot (backslashed text) with ⟨drive, root, rest⟩
  have happend := splitroot_append (backslashed text)
  rw [hsplit] at happend
  have hno : c ∉ drive ++ root ++ rest := happend ▸ h
  rw [List.mem_append, not_or] at hno
  rw [nt_normpath_of_split hsplit]
  split
  · simpa using hdot
  · rw [List.mem_append, not_or]
    refine ⟨hno.1, not_mem_join hsep fun n hn hmem => hno.2 ?_⟩
    exact mem_of_mem_splitOn (norm_components_subset hn) hmem

theorem nt_normpath_no_slash (text : List Char) : '/' ∉ nt_normpath text :=
  not_mem_nt_normpath (not_mem_backslashed text) (by decide) (by decide)

/-- **What `ntpath.normpath` returns**, when it is absolute and not long-prefixed: a
drive, a root and normal components. -/
theorem nt_normpath_shape {text : List Char} (hlong : ¬ long_prefix <+: nt_normpath text)
    (hdrive : (splitroot (nt_normpath text)).1 ≠ []) (habs : nt_isabs (nt_normpath text) = true) :
    ∃ drive root names, WindowsAnchor drive root ∧ (root = [] → names = []) ∧
      (∀ name ∈ names, IsComponent '\\' name) ∧ (∀ name ∈ names, '/' ∉ name) ∧
      nt_normpath text = drive ++ root ++ join '\\' names := by
  obtain ⟨drive, root, found, hanchor, hbare, hnorm, -⟩ :=
    splitroot_shape (nt_normpath_no_slash text) hlong hdrive habs
  have hslash := not_mem_backslashed text
  have hlong' : ¬ long_prefix <+: backslashed text := by
    intro hprefix
    apply hlong
    have hfirst := long_drive hslash hprefix
    rcases hsplit : splitroot (backslashed text) with ⟨drive, root, rest⟩
    rw [hsplit] at hfirst
    rw [nt_normpath_of_split hsplit, if_neg, List.append_assoc]
    · exact hfirst.trans (List.prefix_append _ _)
    · rintro ⟨hnil, -⟩
      rw [(List.append_eq_nil_iff.mp hnil).1] at hfirst
      exact absurd hfirst.length_le (by simp [ long_prefix])
  cases splitroot_split hslash hlong' with
  | anchored drive root rest hanchor hbare hcs hsplit =>
      have hrest : '/' ∉ rest := fun hmem => hslash (hcs ▸ List.mem_append_right _ hmem)
      rw [nt_normpath_of_split hsplit, if_neg fun hnil => hanchor.ne_nil (List.append_eq_nil_iff.mp hnil.1).1]
      refine ⟨drive, root, _, hanchor, ?_, ?_, fun n hn => norm_components_no_slash hrest hn, rfl⟩
      · intro hroot
        rw [hbare hroot]
        rfl
      · rcases hanchor.root_eq with rfl | rfl
        · exact norm_components_all rest
        · rw [hbare rfl]
          exact fun n hn => absurd hn List.not_mem_nil
  | rooted rest hsplit =>
      -- one separator, and a component that starts with none
      exfalso
      rw [nt_normpath_of_split hsplit, if_neg (by simp), List.nil_append, List.singleton_append] at hnorm
      rcases hanchor.starts with ⟨c, hc, rfl, -⟩ | ⟨more, rfl⟩
      · exact hc (List.cons.inj hnorm).1.symm
      · exact not_mem_splitOn_join (fun n hn => norm_components_mem hn) (List.cons.inj hnorm).2 rfl
  | letter c rest hc hcs htext hsplit =>
      exfalso
      rw [nt_normpath_of_split hsplit, if_neg (by simp), List.append_nil] at hnorm
      rcases hanchor.starts with ⟨a, ha, rfl, rfl⟩ | ⟨more, rfl⟩
      · exact not_mem_splitOn_join (fun n hn => norm_components_mem hn)
          (List.cons.inj (List.cons.inj hnorm).2).2 rfl
      · exact hc (List.cons.inj hnorm).1
  | relative hsplit =>
      -- no drive and no root: a drive letter can only be the first component
      rw [nt_normpath_of_split hsplit] at hnorm ⊢
      rw [List.nil_append, List.nil_append] at hnorm ⊢
      obtain ⟨k, names, hcomps, hnames⟩ := norm_components_relative '\\' (backslashed text)
      have hmem : ∀ n ∈ List.replicate k ['.', '.'] ++ names, n ≠ [] ∧ '\\' ∉ n := by
        intro n hn
        rw [← hcomps] at hn
        exact norm_components_mem hn
      have hcomps' : norm_components '\\' (([] : List Char) ≠ []) (backslashed text)
          = List.replicate k ['.', '.'] ++ names := hcomps
      have hclean : ∀ n ∈ names, '/' ∉ n := fun n hn =>
        norm_components_no_slash hslash (hcomps ▸ List.mem_append_right _ hn)
      rw [hcomps'] at hnorm ⊢
      split at hnorm
      · exfalso
        rcases hanchor.starts with ⟨a, -, rfl, -⟩ | ⟨more, rfl⟩
        · exact absurd hnorm (by simp)
        · exact absurd hnorm (by simp)
      rename_i hne
      rw [if_neg hne]
      have hne' : List.replicate k ['.', '.'] ++ names ≠ [] := fun hnil => hne ⟨rfl, hnil⟩
      rcases hanchor.starts with ⟨a, ha, rfl, rfl⟩ | ⟨more, rfl⟩
      · have hsplit' := splitOn_join (fun n hn => (hmem n hn).2) hne'
        rw [hnorm] at hsplit'
        have hfirst : (([a, ':'] ++ ['\\'] ++ found).splitOn '\\') = [a, ':'] :: found.splitOn '\\' := by
          rw [List.append_assoc]
          exact List.splitOn_append_cons_self_of_not_mem (by simpa using fun heq => ha heq.symm) found
        rw [hfirst] at hsplit'
        rcases k with _ | k
        · rcases names with _ | ⟨first, rest⟩
          · exact absurd rfl hne'
          · have hrest : found.splitOn '\\' = rest := (List.cons.inj hsplit').2
            refine ⟨[a, ':'], ['\\'], rest, hanchor, fun h => absurd h (by simp),
              fun n hn => hnames n (List.mem_cons_of_mem _ hn), fun n hn => hclean n (List.mem_cons_of_mem _ hn), ?_⟩
            rw [hnorm, ← hrest, join, List.intercalate_splitOn]
        · exact absurd (List.cons.inj hsplit').1 (by simp)
      · exact absurd rfl (not_mem_splitOn_join hmem hnorm)

/-- A normal text is left as it is. -/
theorem nt_normpath_self (h : IsWindows drive root names) :
    nt_normpath (drive ++ root ++ join '\\' names) = drive ++ root ++ join '\\' names := by
  have hsplit : splitroot (backslashed (drive ++ root ++ join '\\' names)) = (drive, root, join '\\' names) := by
    rw [backslashed_self h.not_slash, h.splitroot_eq]
  rw [nt_normpath_of_split hsplit, norm_components_join h.normal]
  exact if_neg fun hnil => h.anchor.ne_nil (List.append_eq_nil_iff.mp hnil.1).1

theorem IsWindows.isabs (h : IsWindows drive root names) : nt_isabs (drive ++ root ++ join '\\' names) = true := by
  have hhead : backslashed ((drive ++ root ++ join '\\' names).take 3) = (drive ++ root ++ join '\\' names).take 3 :=
    backslashed_self fun hmem => h.not_slash (List.mem_of_mem_take hmem)
  rw [nt_isabs, hhead]
  rcases h.anchor.starts with ⟨c, hc, rfl, rfl⟩ | ⟨rest, rfl⟩
  · have htake : ([c, ':'] ++ ['\\'] ++ join '\\' names).take 3 = [c, ':', '\\'] := rfl
    rw [htake]
    split
    · rfl
    · rfl
    · rename_i hno
      exact absurd rfl (hno c [])
  · rfl

theorem components_anchored (h : IsWindows drive root names) : components '\\' (root ++ join '\\' names) = names := by
  rcases h.anchor.root_eq with hroot | hroot
  · rw [hroot, List.singleton_append, components_sep_cons, components_join h.normal]
  · rw [hroot, h.join_bare hroot, h.bare hroot]
    rfl

/-! ### Lengths -/

theorem spread_filter_le (p : Name → Bool) (names : List Name) : spread (names.filter p) ≤ spread names := by
  induction names with
  | nil => exact Nat.le_refl _
  | cons name names ih =>
      have hcons : ∀ more : List Name, spread (name :: more) = (name.length + 1) + spread more := by
        intro more
        rw [spread, List.map_cons, List.sum_cons]
        rfl
      rw [List.filter_cons]
      split
      · rw [hcons, hcons]
        omega
      · rw [hcons]
        omega

theorem length_join_filter_le (sep : Char) (p : Name → Bool) (text : List Char) :
    (join sep ((text.splitOn sep).filter p)).length ≤ text.length := by
  have hall := spread_filter_le p (text.splitOn sep)
  have htext := length_join sep (List.splitOn_ne_nil sep text)
  rw [join, List.intercalate_splitOn] at htext
  by_cases hempty : (text.splitOn sep).filter p = []
  · rw [hempty]
    exact Nat.zero_le _
  · have hjoin := length_join sep hempty
    omega

theorem length_nt_normpath_le (text : List Char) (hdrive : nt_normpath text ≠ ['.']) :
    (nt_normpath text).length ≤ text.length := by
  rcases hsplit : splitroot (backslashed text) with ⟨drive, root, rest⟩
  have happend := splitroot_append (backslashed text)
  rw [hsplit] at happend
  have hlen := congrArg List.length happend
  rw [length_backslashed, List.length_append, List.length_append] at hlen
  dsimp only at hlen
  have hjoin := length_join_norm_le '\\' (decide (root ≠ [])) rest
  rw [nt_normpath_of_split hsplit] at hdrive ⊢
  split
  · rename_i hnil
    rw [if_pos hnil] at hdrive
    exact absurd rfl hdrive
  · rw [List.length_append, List.length_append]
    omega

theorem length_windows_path_le {text : List Char} (hdrive : (splitroot (backslashed text)).1 ≠ []) :
    ∃ root' names, windows_path text = .windows (splitroot (backslashed text)).1 root' names ∧
      (windows_path text).chars.length ≤ text.length + 1 := by
  rcases hsplit : splitroot (backslashed text) with ⟨drive, root, rest⟩
  have happend := splitroot_append (backslashed text)
  rw [hsplit] at happend hdrive
  have hlen := congrArg List.length happend
  rw [length_backslashed, List.length_append, List.length_append] at hlen
  dsimp only at hlen
  have hjoin := length_join_filter_le '\\' (fun c => c ≠ [] ∧ c ≠ ['.']) rest
  rw [windows_path, hsplit]
  dsimp only
  refine ⟨_, _, rfl, ?_⟩
  rw [PurePath.chars, if_neg fun hnil => hdrive hnil.1, List.length_append, List.length_append]
  split
  · simp only [List.length_singleton]
    omega
  · omega

/-! ### Validation -/

/-- What the checks of `_normalise` let through. -/
structure Normalises (text : List Char) (original : String) (norm : List Char) : Prop where
  ne_nil : text ≠ []
  nul : Char.ofNat 0 ∉ text
  norm_eq : nt_normpath ( strip_long_path_prefix text) = norm
  drive : (splitroot norm).1 ≠ []
  isabs : nt_isabs norm = true
  checked : ∀ comp ∈ components '\\' ((splitroot norm).2.1 ++ (splitroot norm).2.2),
    check_component comp original = .ok ()

theorem findSome?_check {comps : List Name} {original : String} :
    (comps.findSome? fun c =>
        match check_component c original with
        | .error e => some e
        | .ok () => none) = none ↔ ∀ c ∈ comps, check_component c original = .ok () := by
  rw [List.findSome?_eq_none_iff]
  refine forall₂_congr fun c _ => ?_
  rcases check_component c original with e | ⟨⟩
  · simp
  · simp

theorem normalise_ok_iff {text original : String} {norm : List Char} :
    normalise text original = .ok norm ↔ Normalises text.toList original norm := by
  rw [normalise]
  constructor
  · intro h
    split at h
    · exact absurd h (by simp)
    rename_i hne
    split at h
    · exact absurd h (by simp)
    rename_i hnul
    dsimp only at h
    split at h
    · exact absurd h (by simp)
    rename_i hrooted
    rw [not_or, Bool.not_eq_false] at hrooted
    split at h
    · exact absurd h (by simp)
    rename_i hchecks
    obtain rfl := Except.ok.inj h
    rw [List.contains_eq_mem, decide_eq_true_eq] at hnul
    exact ⟨hne, hnul, rfl, hrooted.1, hrooted.2, findSome?_check.mp hchecks⟩
  · intro h
    have hnul : text.toList.contains (Char.ofNat 0) = false := by
      rw [List.contains_eq_mem]
      exact decide_eq_false h.nul
    have hchecks := findSome?_check.mpr h.checked
    rw [components] at hchecks
    have hrooted : ¬ ((splitroot norm).1 = [] ∨ nt_isabs norm = false) := by
      rw [not_or, Bool.not_eq_false]
      exact ⟨h.drive, h.isabs⟩
    rw [if_neg h.ne_nil, hnul, if_neg Bool.false_ne_true, h.norm_eq]
    dsimp only
    rw [if_neg hrooted]
    split
    · rename_i e hsome
      exact absurd (hchecks.symm.trans hsome) (by simp)
    · rfl

/-- A component passes or not, whatever text the error would show. -/
theorem check_component_ok {comp : Name} {original : String} (h : check_component comp original = .ok ())
    (other : String) : check_component comp other = .ok () := by
  rw [check_component] at h ⊢
  split at h
  · exact absurd h (by simp)
  rename_i hforbidden
  rw [if_neg hforbidden]
  split at h
  · exact absurd h (by simp)
  rename_i hstream
  rw [if_neg hstream]
  split at h
  · exact absurd h (by simp)
  rename_i hreserved
  rw [if_neg hreserved]
  split at h
  · exact absurd h (by simp)
  rename_i htrailing
  rw [if_neg htrailing]

theorem check_component_no_nul {comp : Name} {original : String} (h : check_component comp original = .ok ()) :
    Char.ofNat 0 ∉ comp := by
  intro hmem
  rw [check_component, if_pos] at h
  · exact absurd h (by simp)
  · exact List.any_eq_true.mpr ⟨_, hmem, by decide⟩

theorem strip_long_path_prefix_self {text : List Char} (h : ¬ long_prefix <+: text) :
    strip_long_path_prefix text = text := by
  have hlong : ( long_prefix.isPrefixOf text) = false :=
    Bool.eq_false_iff.mpr fun htrue => h (List.isPrefixOf_iff_prefix.mp htrue)
  have hunc : ("\\\\?\\UNC\\".toList.isPrefixOf text) = false := by
    refine Bool.eq_false_iff.mpr fun htrue => h ?_
    have hthere : long_prefix <+: "\\\\?\\UNC\\".toList := ⟨"UNC\\".toList, by decide⟩
    exact hthere.trans (List.isPrefixOf_iff_prefix.mp htrue)
  rw [ long_prefix] at hlong
  rw [ strip_long_path_prefix, hunc, hlong]
  rfl

theorem length_strip_lt {text : List Char} (h : long_prefix <+: text) :
    ( strip_long_path_prefix text).length + 4 ≤ text.length := by
  have hlen : 4 ≤ text.length := h.length_le
  have hlong : ( long_prefix.isPrefixOf text) = true := List.isPrefixOf_iff_prefix.mpr h
  rw [ long_prefix] at hlong
  rw [ strip_long_path_prefix, hlong]
  split
  · rename_i hunc
    have hle := (List.isPrefixOf_iff_prefix.mp hunc).length_le
    have hcount : "\\\\?\\UNC\\".toList.length = 8 := by decide
    rw [hcount] at hle ⊢
    rw [List.length_cons, List.length_cons, List.length_drop]
    omega
  · rw [if_pos rfl, List.length_drop]
    have hcount : "\\\\?\\".toList.length = 4 := by decide
    omega

theorem strip_subset {text : List Char} {c : Char} (h : c ∈ strip_long_path_prefix text) : c ∈ text ∨ c = '\\' := by
  rw [ strip_long_path_prefix] at h
  split at h
  · rcases List.mem_cons.mp h with heq | h
    · exact Or.inr heq
    · rcases List.mem_cons.mp h with heq | h
      · exact Or.inr heq
      · exact Or.inl (List.mem_of_mem_drop h)
  · split at h
    · exact Or.inl (List.mem_of_mem_drop h)
    · exact Or.inl h

/-- A normal path whose components pass is its own canonical form. -/
theorem validate_windows_self (h : IsWindows drive root names) (hnul : Char.ofNat 0 ∉ drive)
    (hchecked : ∀ name ∈ names, check_component name (PurePath.windows drive root names).str = .ok ()) :
    validate_windows_config_path (PurePath.windows drive root names).str = .ok (.windows drive root names) := by
  have hchars : (PurePath.windows drive root names).str.toList = drive ++ root ++ join '\\' names := by
    rw [PurePath.str, String.toList_ofList, windows_chars h]
  have hroot : Char.ofNat 0 ∉ root := by
    rcases h.anchor.root_eq with hroot | hroot
    · rw [hroot]
      decide
    · rw [hroot]
      exact List.not_mem_nil
  have hnorm : Normalises (drive ++ root ++ join '\\' names) (PurePath.windows drive root names).str
      (drive ++ root ++ join '\\' names) := by
    refine ⟨?_, ?_, ?_, ?_, h.isabs, ?_⟩
    · intro hnil
      exact h.anchor.ne_nil (List.append_eq_nil_iff.mp (List.append_eq_nil_iff.mp hnil).1).1
    · rw [List.mem_append, List.mem_append, not_or, not_or]
      exact ⟨⟨hnul, hroot⟩, not_mem_join (by decide) fun n hn => check_component_no_nul (hchecked n hn)⟩
    · rw [strip_long_path_prefix_self (h.anchor.not_long h.join_bare), nt_normpath_self h]
    · rw [h.splitroot_eq]
      exact h.anchor.ne_nil
    · rw [h.splitroot_eq]
      dsimp only
      rw [components_anchored h]
      exact hchecked
  rw [← hchars] at hnorm
  rw [validate_windows_config_path, normalise_ok_iff.mpr hnorm]
  dsimp only
  rw [hchars, h.path]

theorem windows_no_slash (hdrive : '/' ∉ drive) (hroot : '/' ∉ root) (hnames : ∀ name ∈ names, '/' ∉ name) :
    '/' ∉ (PurePath.windows drive root names).chars := by
  rw [PurePath.chars]
  split
  · decide
  · rw [List.mem_append, List.mem_append, not_or, not_or]
    exact ⟨⟨hdrive, hroot⟩, not_mem_join (by decide) hnames⟩

/-- What a text without slashes is split into has none. -/
theorem windows_path_no_slash {text : List Char} (h : '/' ∉ text) : '/' ∉ (windows_path text).chars := by
  have hself := backslashed_self h
  have happend := splitroot_append text
  rcases hsplit : splitroot text with ⟨drive, root, rest⟩
  rw [hsplit] at happend
  dsimp only at happend
  rw [← happend, List.mem_append, List.mem_append, not_or, not_or] at h
  obtain ⟨⟨hdrive, hroot⟩, hrest⟩ := h
  rw [windows_path, hself, hsplit]
  apply windows_no_slash hdrive
  · split
    · decide
    · exact hroot
  · exact fun name hname hmem => hrest (mem_of_mem_splitOn (List.mem_filter.mp hname).1 hmem)

theorem validate_windows_no_slash {text : String} {p : PurePath} (h : validate_windows_config_path text = .ok p) :
    '/' ∉ p.chars := by
  rw [validate_windows_config_path] at h
  split at h
  · exact absurd h (by simp)
  rename_i norm hnormalise
  rw [← Except.ok.inj h]
  refine windows_path_no_slash ?_
  rw [← (normalise_ok_iff.mp hnormalise).norm_eq]
  exact nt_normpath_no_slash _

/-- **What `validate_windows_config_path` returns**: a drive, a root and normal
components, which the text of the path is split into again; unless it still has the
long-path prefix. -/
theorem validate_windows_config_path_shape {text : String} {p : PurePath}
    (h : validate_windows_config_path text = .ok p) : ∃ drive root names, p = .windows drive root names ∧
      p.chars.length ≤ ( strip_long_path_prefix text.toList).length + 1 ∧
      ( long_prefix <+: drive ∨ (IsWindows drive root names ∧ validate_windows_config_path p.str = .ok p)) := by
  rw [validate_windows_config_path] at h
  split at h
  · exact absurd h (by simp)
  rename_i norm hnormalise
  have hpath := Except.ok.inj h
  have hn := normalise_ok_iff.mp hnormalise
  have hslash : '/' ∉ norm := hn.norm_eq ▸ nt_normpath_no_slash _
  have hself : backslashed norm = norm := backslashed_self hslash
  have hdot : norm ≠ ['.'] := by
    rintro rfl
    exact hn.drive rfl
  have hlen : norm.length ≤ ( strip_long_path_prefix text.toList).length := by
    rw [← hn.norm_eq]
    exact length_nt_normpath_le _ (hn.norm_eq ▸ hdot)
  have hdrive : (splitroot (backslashed norm)).1 ≠ [] := hself.symm ▸ hn.drive
  obtain ⟨root', names', hwindows, hle⟩ := length_windows_path_le hdrive
  rw [hpath] at hwindows hle
  by_cases hlong : long_prefix <+: norm
  · refine ⟨_, root', names', hwindows, by omega, Or.inl ?_⟩
    rw [hself]
    exact long_drive hslash hlong
  · have hshort : ¬ long_prefix <+: nt_normpath ( strip_long_path_prefix text.toList) := hn.norm_eq.symm ▸ hlong
    obtain ⟨drive, root, names, hanchor, hbare, hnames, hnames_slash, hshape⟩ :=
      nt_normpath_shape hshort (hn.norm_eq.symm ▸ hn.drive) (hn.norm_eq.symm ▸ hn.isabs)
    rw [hn.norm_eq] at hshape
    obtain ⟨settled, hnormal, hsettled⟩ := windows_path_shape hanchor hbare hnames hnames_slash
    rw [← hshape, hpath] at hsettled
    have hsplit : splitroot norm = (drive, root, join '\\' names) := by
      rw [hshape]
      refine splitroot_anchored hanchor (fun hnil => ?_) (not_mem_join (by decide) hnames_slash)
      rw [hbare hnil, join_nil]
    have hcomps : components '\\' (root ++ join '\\' names) = names := by
      rcases hanchor.root_eq with hroot | hroot
      · rw [hroot, List.singleton_append, components_sep_cons, components_join hnames]
      · rw [hroot, hbare hroot]
        rfl
    have hchecked := hn.checked
    rw [hsplit] at hchecked
    dsimp only at hchecked
    rw [hcomps] at hchecked
    have hnul : Char.ofNat 0 ∉ drive := by
      intro hmem
      have hmem' : Char.ofNat 0 ∈ nt_normpath ( strip_long_path_prefix text.toList) := by
        rw [hn.norm_eq, hshape, List.append_assoc]
        exact List.mem_append_left _ hmem
      refine not_mem_nt_normpath (fun hthere => ?_) (by decide) (by decide) hmem'
      obtain ⟨c, hc, hcnul⟩ := List.mem_map.mp hthere
      split at hcnul
      · exact absurd hcnul (by decide)
      · rw [hcnul] at hc
        rcases strip_subset hc with hin | hsep
        · exact hn.nul hin
        · exact absurd hsep (by decide)
    refine ⟨drive, settled, names, hsettled, by omega, Or.inr ⟨hnormal, ?_⟩⟩
    rw [hsettled]
    exact validate_windows_self hnormal hnul fun n hn => check_component_ok (hchecked n hn) _

end

/-! ## Below a mount -/

/-- A text as Windows paths compare it. -/
def lowered (lower : String → String) (text : List Char) : List Char := (lower (String.ofList text)).toList

/-- What is relied on of `str.lower`: it replaces cased characters only, and what stands
on one side of a separator does not matter to the other. -/
structure Lowers (lower : String → String) : Prop where
  sep : ∀ text, (lowered lower text).splitOn '\\' = (text.splitOn '\\').map (lowered lower)
  empty : ∀ text, lowered lower text = [] ↔ text = []
  mark : ∀ text, lowered lower text = ['?'] ↔ text = ['?']

/-- A path is a mount and some components below it. -/
inductive Below (lower : String → String) : PurePath → PurePath → List Name → Prop
  | posix (root : List Char) (mount below : List Name) :
      Below lower (.posix root mount) (.posix root (mount ++ below)) below
  | windows {drive drive' root : List Char} {mount above below : List Name}
      (hdrive : lowered lower drive' = lowered lower drive)
      (habove : above.map (lowered lower) = mount.map (lowered lower)) :
      Below lower (.windows drive root mount) (.windows drive' root (above ++ below)) below

/-- The separator of a path, its components and the validator of its flavour. -/
def PurePath.sep : PurePath → Char
  | .posix .. => '/'
  | .windows .. => '\\'

def PurePath.tail : PurePath → List Name
  | .posix _ tail => tail
  | .windows _ _ tail => tail

def PurePath.validator : PurePath → String → Except PathSafetyError PurePath
  | .posix .. => validate_config_path
  | .windows .. => validate_windows_config_path

/-- **A text is a normalised path**: its validator leaves it as it is, and it has normal
components. -/
structure Normalised (text : String) (p : PurePath) : Prop where
  str : p.str = text
  fixed : p.validator text = .ok p
  normal : ∀ name ∈ p.tail, IsComponent p.sep name

section

variable {lower : String → String} {drive root : List Char} {names : List Name}

/-- What a drive is split into: a letter is one part, a share four. -/
theorem WindowsAnchor.parts (h : WindowsAnchor drive root) :
    ∃ first rest, drive.splitOn '\\' = first :: rest ∧ rest.length ≤ 3 ∧
      (first = [] → root ≠ [] → rest.length = 3) ∧ (first ≠ [] → rest = [] ∧ root ≠ []) := by
  have hunc : ∀ text, ('\\' :: '\\' :: text).splitOn '\\' = [] :: [] :: text.splitOn '\\' := by
    intro text
    rw [splitOn_sep_cons, splitOn_sep_cons]
  cases h with
  | letter c hc =>
      refine ⟨[c, ':'], [], List.splitOn_eq_singleton ?_, by simp, by simp, by simp⟩
      simpa using fun heq => hc heq.symm
  | share server share hserver hshare =>
      refine ⟨[], [[], server, share], ?_, by simp, by simp, by simp⟩
      rw [hunc, List.splitOn_append_cons_self_of_not_mem hserver, List.splitOn_eq_singleton hshare]
  | server server hserver =>
      refine ⟨[], [[], server], ?_, by simp, by simp, by simp⟩
      rw [hunc, List.splitOn_eq_singleton hserver]
  | device server share hserver hshare =>
      refine ⟨[], [[], server, share], ?_, by simp, by simp, by simp⟩
      rw [hunc, List.splitOn_append_cons_self_of_not_mem hserver, List.splitOn_eq_singleton hshare]

/-- How many parts of a text are its drive. -/
def drive_width (parts : List Name) : ℕ := if parts.head? = some [] then 4 else 1

/-- **The parts of a text tell its drive, its root and its components.** -/
theorem parts_anchored (h : WindowsAnchor drive root) {text : List Char} (hbare : root = [] → text = []) :
    ((drive ++ root ++ text).splitOn '\\').take (drive_width ((drive ++ root ++ text).splitOn '\\'))
        = drive.splitOn '\\' ∧
      ((drive ++ root ++ text).splitOn '\\').drop (drive_width ((drive ++ root ++ text).splitOn '\\'))
        = if root = [] then [] else text.splitOn '\\' := by
  obtain ⟨first, rest, hparts, hle, hshare, hletter⟩ := h.parts
  have hall : (drive ++ root ++ text).splitOn '\\' = (first :: rest) ++ (if root = [] then [] else text.splitOn '\\') := by
    rcases h.root_eq with hroot | hroot
    · rw [hroot, List.append_assoc, List.singleton_append, List.splitOn_append_cons_self, hparts,
        if_neg (List.cons_ne_nil _ _)]
    · rw [hbare hroot, hroot, List.append_nil, List.append_nil, if_pos rfl, List.append_nil, hparts]
  have hwidth : root ≠ [] → drive_width ((drive ++ root ++ text).splitOn '\\') = (first :: rest).length := by
    intro hroot
    rw [hall, drive_width, List.cons_append, List.head?_cons, List.length_cons]
    by_cases hfirst : first = []
    · rw [if_pos (by rw [hfirst]), hshare hfirst hroot]
    · rw [if_neg (fun heq => hfirst (Option.some.inj heq)), (hletter hfirst).1]
      rfl
  by_cases hroot : root = []
  · -- no root: every part is the drive's
    have hfirst : first = [] := by
      by_contra hne
      exact (hletter hne).2 hroot
    have hwide : (first :: rest).length ≤ drive_width ((drive ++ root ++ text).splitOn '\\') := by
      rw [hall, drive_width, List.cons_append, List.head?_cons, List.length_cons, if_pos (by rw [hfirst])]
      omega
    rw [if_pos hroot] at hall ⊢
    rw [List.append_nil] at hall
    rw [hall] at hwide ⊢
    rw [hparts]
    exact ⟨List.take_of_length_le hwide, List.drop_of_length_le hwide⟩
  · rw [hwidth hroot, hparts, hall]
    exact ⟨List.take_left, List.drop_left⟩

theorem map_filter_lowered (hlower : Lowers lower) (names : List Name) :
    (names.filter (· ≠ [])).map (lowered lower) = (names.map (lowered lower)).filter (· ≠ []) := by
  rw [List.filter_map]
  congr 1
  refine List.filter_congr fun name _ => ?_
  exact decide_eq_decide.mpr (not_congr (hlower.empty name)).symm

theorem drive_width_lowered (hlower : Lowers lower) {parts parts' : List Name}
    (h : parts.map (lowered lower) = parts'.map (lowered lower)) : drive_width parts = drive_width parts' := by
  have hhead := congrArg List.head? h
  rw [List.head?_map, List.head?_map] at hhead
  have hiff : parts.head? = some [] ↔ parts'.head? = some [] := by
    constructor
    · intro heq
      rw [heq, Option.map_some, (hlower.empty []).mpr rfl] at hhead
      obtain ⟨name, hname, hempty⟩ := Option.map_eq_some_iff.mp hhead.symm
      rw [hname, (hlower.empty name).mp hempty]
    · intro heq
      rw [heq, Option.map_some, (hlower.empty []).mpr rfl] at hhead
      obtain ⟨name, hname, hempty⟩ := Option.map_eq_some_iff.mp hhead
      rw [hname, (hlower.empty name).mp hempty]
  rw [drive_width, drive_width]
  exact if_congr hiff rfl rfl

/-- **Texts that compare equal have drives, roots and components that do.** -/
theorem lowered_anchored (hlower : Lowers lower) {drive' root' : List Char} {names' : List Name}
    (h : WindowsAnchor drive root) (hbare : root = [] → names = [])
    (hnames : ∀ name ∈ names, IsComponent '\\' name) (h' : WindowsAnchor drive' root')
    (hbare' : root' = [] → names' = []) (hnames' : ∀ name ∈ names', IsComponent '\\' name)
    (heq : lowered lower (drive ++ root ++ join '\\' names) = lowered lower (drive' ++ root' ++ join '\\' names')) :
    lowered lower drive = lowered lower drive' ∧ root = root' ∧
      names.map (lowered lower) = names'.map (lowered lower) := by
  have hjoin : root = [] → join '\\' names = [] := fun hroot => by rw [hbare hroot, join_nil]
  have hjoin' : root' = [] → join '\\' names' = [] := fun hroot => by rw [hbare' hroot, join_nil]
  obtain ⟨htake, hdrop⟩ := parts_anchored h hjoin
  obtain ⟨htake', hdrop'⟩ := parts_anchored h' hjoin'
  have hparts := congrArg (List.splitOn '\\') heq
  rw [hlower.sep, hlower.sep] at hparts
  have hwidth := drive_width_lowered hlower hparts
  -- the parts of the drives, and the parts behind them
  have hdrives := congrArg (List.take (drive_width ((drive ++ root ++ join '\\' names).splitOn '\\'))) hparts
  have hrest := congrArg (List.drop (drive_width ((drive ++ root ++ join '\\' names).splitOn '\\'))) hparts
  rw [← List.map_take, htake, hwidth, ← List.map_take, htake'] at hdrives
  rw [← List.map_drop, hdrop, hwidth, ← List.map_drop, hdrop'] at hrest
  have htails : ∀ {root : List Char} {names : List Name}, (root = [] → names = []) →
      (∀ name ∈ names, IsComponent '\\' name) →
      (if root = [] then [] else (join '\\' names).splitOn '\\').filter (· ≠ []) = names := by
    intro root names hbare hnames
    by_cases hroot : root = []
    · rw [if_pos hroot, hbare hroot]
      rfl
    · rw [if_neg hroot]
      exact components_join hnames
  have hroots : root = [] ↔ root' = [] := by
    constructor
    · intro hroot
      by_contra hroot'
      rw [if_pos hroot, if_neg hroot', List.map_nil] at hrest
      exact List.splitOn_ne_nil _ _ (List.map_eq_nil_iff.mp hrest.symm)
    · intro hroot'
      by_contra hroot
      rw [if_pos hroot', if_neg hroot, List.map_nil] at hrest
      exact List.splitOn_ne_nil _ _ (List.map_eq_nil_iff.mp hrest)
  refine ⟨?_, ?_, ?_⟩
  · rw [← hlower.sep, ← hlower.sep] at hdrives
    have hjoin : ['\\'].intercalate ((lowered lower drive).splitOn '\\') = lowered lower drive :=
      List.intercalate_splitOn '\\'
    rw [← hjoin, hdrives, List.intercalate_splitOn]
  · rcases h.root_eq with hroot | hroot
    · rcases h'.root_eq with hroot' | hroot'
      · rw [hroot, hroot']
      · exact absurd (hroots.mpr hroot') (by rw [hroot]; exact List.cons_ne_nil _ _)
    · rw [hroot, hroots.mp hroot]
  · have hnames_eq := congrArg (List.filter (· ≠ [])) hrest
    rw [← map_filter_lowered hlower, ← map_filter_lowered hlower, htails hbare hnames, htails hbare' hnames'] at hnames_eq
    exact hnames_eq

/-- A text that compares equal to a long-prefixed one is long-prefixed. -/
theorem long_of_lowered (hlower : Lowers lower) {text text' : List Char} (h : long_prefix <+: text)
    (heq : lowered lower text = lowered lower text') : long_prefix <+: text' := by
  obtain ⟨rest, rfl⟩ := h
  have hparts := congrArg (List.splitOn '\\') heq
  rw [hlower.sep, hlower.sep] at hparts
  have hsplit : ( long_prefix ++ rest).splitOn '\\' = [] :: [] :: ['?'] :: rest.splitOn '\\' := by
    rw [show long_prefix ++ rest = '\\' :: '\\' :: (['?'] ++ '\\' :: rest) from rfl, splitOn_sep_cons,
      splitOn_sep_cons, List.splitOn_append_cons_self_of_not_mem (by decide)]
  rw [hsplit, List.map_cons, List.map_cons, List.map_cons, (hlower.empty []).mpr rfl, (hlower.mark ['?']).mpr rfl] at hparts
  rcases hparts' : text'.splitOn '\\' with _ | ⟨a, _ | ⟨b, _ | ⟨c, _ | ⟨d, more⟩⟩⟩⟩
  · exact absurd hparts' (List.splitOn_ne_nil _ _)
  · rw [hparts'] at hparts
    exact absurd (congrArg List.length hparts) (by simp)
  · rw [hparts'] at hparts
    exact absurd (congrArg List.length hparts) (by simp)
  · rw [hparts'] at hparts
    have hnil := (List.cons.inj (List.cons.inj (List.cons.inj hparts).2).2).2
    exact absurd (List.map_eq_nil_iff.mp hnil) (List.splitOn_ne_nil _ _)
  · rw [hparts'] at hparts
    obtain ⟨ha, hparts⟩ := List.cons.inj hparts
    obtain ⟨hb, hparts⟩ := List.cons.inj hparts
    obtain ⟨hc, -⟩ := List.cons.inj hparts
    refine ⟨join '\\' (d :: more), ?_⟩
    have hjoin : ['\\'].intercalate (text'.splitOn '\\') = text' := List.intercalate_splitOn '\\'
    rw [← hjoin, hparts', (hlower.empty a).mp ha.symm,
      (hlower.empty b).mp hb.symm, (hlower.mark c).mp hc.symm]
    rw [← join, join_cons_cons, join_cons_cons, join_cons_cons]
    rfl

/-- A path that is within another is, cut short somewhere, the same. -/
theorem within_cut {root' : List Char} {mount names' : List Name}
    (h : PurePath.within lower (.posix root mount) (.posix root' names') = true) :
    ∃ n, (PurePath.posix root' (names'.take n)).str = (PurePath.posix root mount).str := by
  rw [PurePath.within, Bool.or_eq_true] at h
  rcases h with hsame | hparent
  · refine ⟨names'.length, ?_⟩
    rw [List.take_length]
    exact of_decide_eq_true hsame
  · obtain ⟨q, hq, hsame⟩ := List.any_eq_true.mp hparent
    obtain ⟨n, -, rfl⟩ := List.mem_map.mp hq
    exact ⟨n, (of_decide_eq_true hsame).symm⟩

theorem within_cut_windows {drive' root' : List Char} {mount names' : List Name}
    (h : PurePath.within lower (.windows drive root mount) (.windows drive' root' names') = true) :
    ∃ n, lowered lower (PurePath.windows drive' root' (names'.take n)).chars
      = lowered lower (PurePath.windows drive root mount).chars := by
  rw [PurePath.within, Bool.or_eq_true] at h
  rcases h with hsame | hparent
  · refine ⟨names'.length, ?_⟩
    rw [List.take_length]
    exact congrArg String.toList (of_decide_eq_true hsame)
  · obtain ⟨q, hq, hsame⟩ := List.any_eq_true.mp hparent
    obtain ⟨n, -, rfl⟩ := List.mem_map.mp hq
    exact ⟨n, congrArg String.toList (of_decide_eq_true hsame).symm⟩

/-- A path is not within one of the other flavour. -/
theorem not_within_flavour {root' : List Char} {names names' : List Name} :
    PurePath.within lower (.posix root' names') (.windows drive root names) = false ∧
      PurePath.within lower (.windows drive root names) (.posix root' names') = false := by
  constructor
  · rw [PurePath.within, Bool.or_eq_false_iff]
    refine ⟨rfl, List.any_eq_false.mpr fun q hq => ?_⟩
    obtain ⟨n, -, rfl⟩ := List.mem_map.mp hq
    exact Bool.false_ne_true
  · rw [PurePath.within, Bool.or_eq_false_iff]
    refine ⟨rfl, List.any_eq_false.mpr fun q hq => ?_⟩
    obtain ⟨n, -, rfl⟩ := List.mem_map.mp hq
    exact Bool.false_ne_true

/-- A canonical Windows path has no long-path prefix: stripping that would have shortened it. -/
theorem canonical_windows {text : String} {p : PurePath} (h : validate_windows_config_path text = .ok p)
    (hstr : p.str = text) : ∃ drive root names, IsWindows drive root names ∧ p = .windows drive root names := by
  obtain ⟨drive, root, names, rfl, hlen, hcase⟩ := validate_windows_config_path_shape h
  rcases hcase with hlong | ⟨hwindows, -⟩
  · exfalso
    have hchars : text.toList = (PurePath.windows drive root names).chars := by
      rw [← hstr, PurePath.str, String.toList_ofList]
    have hdrive : drive ≠ [] := by
      rintro rfl
      exact absurd hlong.length_le (by simp [ long_prefix])
    have hprefix : long_prefix <+: text.toList := by
      rw [hchars, PurePath.chars, if_neg fun hnil => hdrive hnil.1, List.append_assoc]
      exact hlong.trans (List.prefix_append _ _)
    have hshort := length_strip_lt hprefix
    rw [hchars] at hshort
    rw [hchars] at hlen
    omega
  · exact ⟨drive, root, names, hwindows, rfl⟩

/-- **A canonical path** is a root and normal components. -/
theorem canonical_shape {text : String} {p : PurePath} (h : validate_agent_path text = .ok p) (hstr : p.str = text) :
    (∃ root names, IsPosix root names ∧ p = .posix root names) ∨
      ∃ drive root names, IsWindows drive root names ∧ p = .windows drive root names := by
  rw [validate_agent_path] at h
  split at h
  · exact Or.inr (canonical_windows h hstr)
  · left
    obtain ⟨root, names, hposix, hp, -⟩ := validate_config_path_shape h
    exact ⟨root, names, hposix, hp⟩

theorem below_posix {root' : List Char} {mount names' : List Name} (hmount : IsPosix root mount)
    (h' : IsPosix root' names') (hwithin : PurePath.within lower (.posix root mount) (.posix root' names') = true) :
    ∃ below, Below lower (.posix root mount) (.posix root' names') below := by
  obtain ⟨n, hn⟩ := within_cut hwithin
  have hcut : IsPosix root' (names'.take n) := ⟨h'.root, fun name hname => h'.normal name (List.mem_of_mem_take hname)⟩
  have hchars : (PurePath.posix root' (names'.take n)).chars = (PurePath.posix root mount).chars := by
    have := congrArg String.toList hn
    rwa [PurePath.str, PurePath.str, String.toList_ofList, String.toList_ofList] at this
  obtain ⟨rfl, hnames⟩ := posix_chars_inj hcut hmount hchars
  obtain ⟨below, hsplit⟩ : ∃ below, names' = mount ++ below :=
    ⟨names'.drop n, by rw [← hnames, List.take_append_drop]⟩
  rw [hsplit]
  exact ⟨below, .posix root' mount below⟩

theorem below_windows (hlower : Lowers lower) {drive' root' : List Char} {mount names' : List Name}
    (hmount : IsWindows drive root mount) (h' : IsWindows drive' root' names')
    (hwithin : PurePath.within lower (.windows drive root mount) (.windows drive' root' names') = true) :
    ∃ below, Below lower (.windows drive root mount) (.windows drive' root' names') below := by
  obtain ⟨n, hn⟩ := within_cut_windows hwithin
  have hcut : (PurePath.windows drive' root' (names'.take n)).chars = drive' ++ root' ++ join '\\' (names'.take n) :=
    if_neg fun hnil => h'.anchor.ne_nil hnil.1
  rw [hcut, windows_chars hmount] at hn
  have hbare : root' = [] → names'.take n = [] := fun hroot => by rw [h'.bare hroot, List.take_nil]
  obtain ⟨hdrive, hroot, hnames⟩ := lowered_anchored hlower h'.anchor hbare
    (fun name hname => h'.normal name (List.mem_of_mem_take hname)) hmount.anchor hmount.bare hmount.normal hn
  rw [hroot, ← List.take_append_drop n names']
  exact ⟨names'.drop n, .windows hdrive hnames⟩

/-- **Within a mount, by text, is below it, by components**; the depth is the number of
these, and the path is its own normal form. -/
theorem below_of_within (hlower : Lowers lower) {mountpoint text : String} {mount p : PurePath}
    (hmount : validate_agent_path mountpoint = .ok mount) (hcanonical : mount.str = mountpoint)
    (hp : validate_agent_path text = .ok p) (hwithin : PurePath.within lower mount p = true) :
    ∃ below, Below lower mount p below ∧ path_depth mount p = below.length ∧ Normalised p.str p := by
  rcases canonical_shape hmount hcanonical with ⟨root, names, hposix, rfl⟩ | ⟨drive, root, names, hwindows, rfl⟩
  · rw [validate_agent_path] at hp
    split at hp
    · obtain ⟨drive', root', names', rfl, -⟩ := validate_windows_config_path_shape hp
      rw [not_within_flavour.1] at hwithin
      exact absurd hwithin Bool.false_ne_true
    · obtain ⟨root', names', h', rfl, hfixed⟩ := validate_config_path_shape hp
      obtain ⟨below, hbelow⟩ := below_posix hposix h' hwithin
      refine ⟨below, hbelow, ?_, rfl, hfixed, h'.normal⟩
      cases hbelow
      rw [path_depth, PurePath.parts_length, PurePath.parts_length, List.length_append]
      push_cast
      omega
  · rw [validate_agent_path] at hp
    split at hp
    · obtain ⟨drive', root', names', rfl, -, hcase⟩ := validate_windows_config_path_shape hp
      have hdrive' : drive' ≠ [] := by
        rcases hcase with hlong | ⟨h', -⟩
        · rintro rfl
          exact absurd hlong.length_le (by simp [ long_prefix])
        · exact h'.anchor.ne_nil
      rcases hcase with hlong | ⟨h', hfixed⟩
      · -- the mount would be long-prefixed, too
        exfalso
        obtain ⟨n, hn⟩ := within_cut_windows hwithin
        rw [PurePath.chars, if_neg fun hnil => hdrive' hnil.1, windows_chars hwindows, List.append_assoc] at hn
        exact hwindows.anchor.not_long hwindows.join_bare
          (long_of_lowered hlower (hlong.trans (List.prefix_append _ _)) hn)
      · obtain ⟨below, hbelow⟩ := below_windows hlower hwindows h' hwithin
        refine ⟨below, hbelow, ?_, rfl, hfixed, h'.normal⟩
        cases hbelow with
        | windows hdrive habove =>
            have hlength := congrArg List.length habove
            rw [List.length_map, List.length_map] at hlength
            rw [path_depth, PurePath.parts_length, PurePath.parts_length, List.length_append,
              if_neg fun hnil => h'.anchor.ne_nil (List.append_eq_nil_iff.mp hnil).1,
              if_neg fun hnil => hwindows.anchor.ne_nil (List.append_eq_nil_iff.mp hnil).1]
            push_cast
            omega
    · obtain ⟨root', names', h', rfl, -⟩ := validate_config_path_shape hp
      rw [not_within_flavour.2] at hwithin
      exact absurd hwithin Bool.false_ne_true

end

end Fathom.Security
