/-
**What the reads take a POSIX path for** (`_ancestor_dirs`, `_depth_within`, the prefix of
`list_children`).

All three work on texts. For normal paths below a mount they are what one means: the
depth is the number of components, the prefix selects what lies beneath, the ancestors are
the directories from the mount down. The exception is the mount `//`: the slashes are
stripped from it, and what is put back is one.
-/
import Fathom.Read.Rollup
import Fathom.Security.Canonical

set_option autoImplicit false

namespace Fathom.Read

open Fathom.Security

/-! ## Texts of normal paths -/

/-- The text of a POSIX path. -/
def posix_text (root : List Char) (names : List Name) : List Char := root ++ join '/' names

section

variable {root : List Char} {names more : List Name}

variable {sep : Char}

theorem join_append {names more : List Name} (hnames : names ≠ []) (hmore : more ≠ []) :
    join sep (names ++ more) = join sep names ++ sep :: join sep more := by
  induction names with
  | nil => exact absurd rfl hnames
  | cons name rest ih =>
      rcases rest with _ | ⟨second, rest⟩
      · rcases more with _ | ⟨first, more⟩
        · exact absurd rfl hmore
        · rw [List.singleton_append, join_cons_cons, join_singleton]
      · rw [List.cons_append, List.cons_append, join_cons_cons, ← List.cons_append, ih (List.cons_ne_nil _ _),
          join_cons_cons, List.append_assoc, List.cons_append]

/-- Joined components end in something else than a separator. -/
theorem join_ends (h : ∀ name ∈ names, IsComponent sep name) (hne : names ≠ []) :
    ∃ init c, join sep names = init ++ [c] ∧ c ≠ sep := by
  rcases List.eq_nil_or_concat names with hnil | ⟨init, last, hsnoc⟩
  · exact absurd hnil hne
  · rw [List.concat_eq_append] at hsnoc
    have hlast := h last (by rw [hsnoc]; exact List.mem_append_right _ List.mem_cons_self)
    rcases List.eq_nil_or_concat last with hnil | ⟨chars, c, hchars⟩
    · exact absurd hnil hlast.ne_nil
    · rw [List.concat_eq_append] at hchars
      have hc : c ≠ sep := by
        rintro rfl
        exact hlast.no_sep (by rw [hchars]; exact List.mem_append_right _ List.mem_cons_self)
      by_cases hinit : init = []
      · exact ⟨chars, c, by rw [hsnoc, hinit, List.nil_append, join_singleton, hchars], hc⟩
      · refine ⟨join sep init ++ sep :: chars, c, ?_, hc⟩
        rw [hsnoc, join_append hinit (List.cons_ne_nil _ _), join_singleton, hchars, List.append_assoc]
        rfl

theorem rstrip_join (h : ∀ name ∈ names, IsComponent '/' name) : rstrip (join '/' names) = join '/' names := by
  by_cases hne : names = []
  · rw [hne]
    rfl
  · obtain ⟨init, c, hjoin, hc⟩ := join_ends h hne
    rw [hjoin, rstrip, List.rdropWhile_concat_neg _ _ _ (by simpa using hc)]

/-- Nothing is stripped from a path but the mere root. -/
theorem rstrip_text (h : IsPosix root names) :
    rstrip (posix_text root names) = if names = [] then [] else posix_text root names := by
  by_cases hne : names = []
  · rw [if_pos hne, hne, posix_text, join_nil, List.append_nil]
    rcases h.root with hroot | hroot
    · rw [hroot]
      rfl
    · rw [hroot]
      rfl
  · obtain ⟨init, c, hjoin, hc⟩ := join_ends h.normal hne
    rw [if_neg hne, posix_text, hjoin, ← List.append_assoc, rstrip,
      List.rdropWhile_concat_neg _ _ _ (by simpa using hc)]

theorem strip_join (h : ∀ name ∈ names, IsComponent '/' name) : strip (join '/' names) = join '/' names := by
  have hhead := head?_join_ne h
  have hdrop : (join '/' names).dropWhile (· = '/') = join '/' names := by
    rcases hjoin : join '/' names with _ | ⟨c, rest⟩
    · rfl
    · rw [hjoin] at hhead
      exact List.dropWhile_cons_of_neg (by simpa using fun heq => hhead (congrArg some heq))
  rw [strip, hdrop, rstrip_join h]

theorem strip_slash_join (h : ∀ name ∈ names, IsComponent '/' name) : strip ('/' :: join '/' names) = join '/' names := by
  have hdrop : ('/' :: join '/' names).dropWhile (· = '/') = (join '/' names).dropWhile (· = '/') :=
    List.dropWhile_cons_of_pos (by decide)
  rw [strip, hdrop]
  exact strip_join h

/-- Some more components, as text. -/
theorem posix_text_append (hmore : more ≠ []) :
    posix_text root (names ++ more) = posix_text root names ++ (if names = [] then join '/' more else '/' :: join '/' more) := by
  by_cases hne : names = []
  · rw [if_pos hne, hne, List.nil_append, posix_text, posix_text, join_nil, List.append_nil]
  · rw [if_neg hne, posix_text, posix_text, join_append hne hmore, List.append_assoc]

/-- **The components below a mount**, as the reads cut them out of the text. -/
theorem strip_drop_text (h : ∀ name ∈ more, IsComponent '/' name) :
    strip ((posix_text root (names ++ more)).drop (posix_text root names).length) = join '/' more := by
  by_cases hmore : more = []
  · rw [hmore, List.append_nil, List.drop_length]
    rfl
  · rw [posix_text_append hmore, List.drop_left]
    split
    · exact strip_join h
    · exact strip_slash_join h

theorem count_join (h : ∀ name ∈ names, sep ∉ name) (hne : names ≠ []) :
    (join sep names).count sep + 1 = names.length := by
  induction names with
  | nil => exact absurd rfl hne
  | cons name rest ih =>
      have hname : name.count sep = 0 := List.count_eq_zero.mpr (h name List.mem_cons_self)
      rcases rest with _ | ⟨second, rest⟩
      · rw [join_singleton, hname]
        rfl
      · have hrest := ih (fun n hn => h n (List.mem_cons_of_mem _ hn)) (List.cons_ne_nil _ _)
        rw [join_cons_cons, List.count_append, List.count_cons_self, hname, List.length_cons]
        omega

theorem join_eq_nil_iff (h : ∀ name ∈ names, IsComponent sep name) : join sep names = [] ↔ names = [] := by
  constructor
  · intro hnil
    by_contra hne
    obtain ⟨init, c, hjoin, -⟩ := join_ends h hne
    rw [hjoin] at hnil
    exact absurd hnil (by simp)
  · intro hnil
    rw [hnil, join_nil]

/-- **The depth of a path is the number of components below the mount.** -/
theorem depth_within_text (h : ∀ name ∈ more, IsComponent '/' name) :
    depth_within (posix_text root names) (posix_text root (names ++ more)) = more.length := by
  rw [depth_within, strip_drop_text h]
  by_cases hmore : more = []
  · rw [hmore]
    rfl
  · rw [if_neg (fun hnil => hmore ((join_eq_nil_iff h).mp hnil)), count_join (fun n hn => (h n hn).no_sep) hmore]

/-- **What starts with a directory and a slash lies beneath it.** -/
theorem prefix_text_iff {names' : List Name} (h : IsPosix root names) (h' : IsPosix root names') :
    rstrip (posix_text root names) ++ ['/'] <+: posix_text root names' ↔
      names = [] ∨ ∃ more, more ≠ [] ∧ names' = names ++ more := by
  rw [rstrip_text h]
  by_cases hne : names = []
  · rw [if_pos hne, List.nil_append]
    refine iff_of_true ?_ (Or.inl hne)
    rcases h.root with hroot | hroot
    · rw [hroot]
      exact ⟨_, rfl⟩
    · rw [hroot]
      exact ⟨'/' :: join '/' names', rfl⟩
  · rw [if_neg hne, posix_text, posix_text, List.append_assoc, List.prefix_append_right_inj]
    constructor
    · rintro ⟨rest, hrest⟩
      right
      rw [List.append_assoc, List.singleton_append] at hrest
      have hne' : names' ≠ [] := by
        rintro rfl
        exact absurd hrest (by simp)
      have hsplit := splitOn_join (fun n hn => (h'.normal n hn).no_sep) hne'
      rw [← hrest, List.splitOn_append_cons_self, splitOn_join (fun n hn => (h.normal n hn).no_sep) hne] at hsplit
      exact ⟨_, List.splitOn_ne_nil _ _, hsplit.symm⟩
    · rintro (hnil | ⟨more, hmore, rfl⟩)
      · exact absurd hnil hne
      · rw [join_append hne hmore]
        exact ⟨join '/' more, by rw [List.append_assoc]; rfl⟩

/-! ## Ancestors -/

theorem mem_descend {cur x : List Char} {parts : List (List Char)} :
    x ∈ descend cur parts ↔ ∃ q, q ≠ [] ∧ q <+: parts ∧ x = cur ++ '/' :: join '/' q := by
  induction parts generalizing cur with
  | nil =>
      refine iff_of_false List.not_mem_nil ?_
      rintro ⟨q, hq, hprefix, -⟩
      exact hq (List.prefix_nil.mp hprefix)
  | cons part parts ih =>
      rw [descend, List.mem_cons, ih]
      constructor
      · rintro (rfl | ⟨q, hq, hprefix, rfl⟩)
        · exact ⟨[part], List.cons_ne_nil _ _, ⟨parts, rfl⟩, by rw [join_singleton]⟩
        · refine ⟨part :: q, List.cons_ne_nil _ _, List.cons_prefix_cons.mpr ⟨rfl, hprefix⟩, ?_⟩
          rw [← List.singleton_append (x := part), join_append (List.cons_ne_nil _ _) hq, join_singleton, List.append_assoc]
          rfl
      · rintro ⟨q, hq, hprefix, rfl⟩
        rcases q with _ | ⟨first, q⟩
        · exact absurd rfl hq
        · obtain ⟨rfl, hrest⟩ := List.cons_prefix_cons.mp hprefix
          by_cases hnil : q = []
          · left
            rw [hnil, join_singleton]
          · right
            refine ⟨q, hnil, hrest, ?_⟩
            rw [← List.singleton_append (x := first), join_append (List.cons_ne_nil _ _) hnil, join_singleton, List.append_assoc]
            rfl

theorem length_lt_of_mem_descend {cur x : List Char} {parts : List (List Char)} (h : x ∈ descend cur parts) :
    cur.length < x.length := by
  obtain ⟨q, -, -, rfl⟩ := mem_descend.mp h
  rw [List.length_append, List.length_cons]
  omega

theorem nodup_descend (cur : List Char) (parts : List (List Char)) : (descend cur parts).Nodup := by
  induction parts generalizing cur with
  | nil => exact List.nodup_nil
  | cons part parts ih =>
      exact List.nodup_cons.mpr ⟨fun h => absurd (length_lt_of_mem_descend h) (Nat.lt_irrefl _), ih _⟩

/-- The ancestors of a path below a mount. -/
theorem ancestor_dirs_text (hmount : IsPosix root names) (h : ∀ name ∈ more, IsComponent '/' name) :
    ancestor_dirs (posix_text root (names ++ more)) (posix_text root names) = if more = [] then []
        else posix_text root names :: descend (rstrip (posix_text root names)) more.dropLast := by
  have hall : IsPosix root (names ++ more) := ⟨hmount.root, fun n hn => (List.mem_append.mp hn).elim (hmount.normal n) (h n)⟩
  by_cases hmore : more = []
  · rw [if_pos hmore, hmore, List.append_nil, ancestor_dirs, if_pos (Or.inl rfl), if_pos rfl]
  · have hne : posix_text root (names ++ more) ≠ posix_text root names := by
      rw [posix_text_append hmore]
      intro heq
      have hnil := List.append_cancel_left (heq.trans (List.append_nil _).symm)
      split at hnil
      · exact hmore ((join_eq_nil_iff h).mp hnil)
      · exact absurd hnil (by simp)
    have hprefix := (prefix_text_iff hmount hall).mpr (Or.inr ⟨more, hmore, rfl⟩)
    rw [ancestor_dirs, if_neg, if_neg hmore, strip_drop_text h, splitOn_join (fun n hn => (h n hn).no_sep) hmore]
    rw [not_or, not_not]
    exact ⟨hne, hprefix⟩

/-- What one gets to by descending from a mount is not the mount. -/
theorem mount_not_mem_descend (hmount : IsPosix root names) (h : ∀ name ∈ more, IsComponent '/' name) :
    posix_text root names ∉ descend (rstrip (posix_text root names)) more := by
  rw [rstrip_text hmount]
  intro hmem
  by_cases hne : names = []
  · rw [if_pos hne, hne, posix_text, join_nil, List.append_nil, mem_descend] at hmem
    obtain ⟨q, hq, hprefix, hroot⟩ := hmem
    have hnormal : ∀ name ∈ q, IsComponent '/' name := fun n hn => h n ( hprefix.subset hn)
    rcases hmount.root with heq | heq
    · -- the root alone, and a component below it
      rw [heq] at hroot
      exact hq ((join_eq_nil_iff hnormal).mp (List.cons.inj hroot).2.symm)
    · rw [heq] at hroot
      exact head?_join_ne hnormal (by rw [← (List.cons.inj hroot).2]; rfl)
  · rw [if_neg hne] at hmem
    exact absurd (length_lt_of_mem_descend hmem) (Nat.lt_irrefl _)

theorem nodup_ancestor_dirs (hmount : IsPosix root names) (h : ∀ name ∈ more, IsComponent '/' name) :
    (ancestor_dirs (posix_text root (names ++ more)) (posix_text root names)).Nodup := by
  rw [ancestor_dirs_text hmount h]
  split
  · exact List.nodup_nil
  · refine List.nodup_cons.mpr ⟨?_, nodup_descend _ _⟩
    exact mount_not_mem_descend hmount fun n hn => h n (List.mem_of_mem_dropLast hn)

theorem join_inj (h : ∀ name ∈ names, IsComponent sep name) (h' : ∀ name ∈ more, IsComponent sep name)
    (heq : join sep names = join sep more) : names = more := by
  rw [← components_join h, heq, components_join h']

theorem prefix_dropLast_iff {c b : List Name} : c <+: b.dropLast ∧ b ≠ [] ↔ ∃ d, d ≠ [] ∧ b = c ++ d := by
  constructor
  · rintro ⟨⟨d, hd⟩, hb⟩
    refine ⟨d ++ [b.getLast hb], by simp, ?_⟩
    rw [← List.append_assoc, hd, List.dropLast_append_getLast]
  · rintro ⟨d, hd, rfl⟩
    refine ⟨?_, by simp [hd]⟩
    rw [List.dropLast_append_of_ne_nil hd]
    exact List.prefix_append _ _

/-- **The ancestors below the mount are the directories above the path**, unless the mount
is `//`. -/
theorem mem_ancestor_dirs_iff {c : List Name} (hmount : IsPosix root names) (h : ∀ name ∈ more, IsComponent '/' name)
    (hc : ∀ name ∈ c, IsComponent '/' name) (hne : c ≠ []) :
    posix_text root (names ++ c) ∈ ancestor_dirs (posix_text root (names ++ more)) (posix_text root names) ↔
      ¬ (root = ['/', '/'] ∧ names = []) ∧ ∃ d, d ≠ [] ∧ more = c ++ d := by
  rw [ancestor_dirs_text hmount h, ← prefix_dropLast_iff]
  by_cases hmore : more = []
  · rw [if_pos hmore]
    exact iff_of_false List.not_mem_nil fun hall => hall.2.2 hmore
  have hself : posix_text root (names ++ c) ≠ posix_text root names := by
    intro heq
    rw [posix_text, posix_text, List.append_cancel_left_eq] at heq
    have hall : ∀ name ∈ names ++ c, IsComponent '/' name :=
      fun n hn => (List.mem_append.mp hn).elim (hmount.normal n) (hc n)
    exact hne (by simpa using join_inj hall hmount.normal heq)
  rw [if_neg hmore, List.mem_cons, or_iff_right hself, mem_descend, rstrip_text hmount]
  have hnormal : ∀ q, q <+: more.dropLast → ∀ name ∈ q, IsComponent '/' name :=
    fun q hq n hn => h n (List.mem_of_mem_dropLast (hq.subset hn))
  by_cases hnames : names = []
  · rw [if_pos hnames, hnames, List.nil_append, posix_text]
    rcases hmount.root with hroot | hroot
    · rw [hroot]
      constructor
      · rintro ⟨q, -, hprefix, heq⟩
        have hq := join_inj hc (hnormal q hprefix) (List.cons.inj heq).2
        exact ⟨by simp, hq ▸ hprefix, hmore⟩
      · rintro ⟨-, hprefix, -⟩
        exact ⟨c, hne, hprefix, rfl⟩
    · rw [hroot]
      refine iff_of_false ?_ fun hall => hall.1 ⟨rfl, rfl⟩
      rintro ⟨q, -, hprefix, heq⟩
      exact head?_join_ne (hnormal q hprefix) (by rw [← (List.cons.inj heq).2]; rfl)
  · rw [if_neg hnames, posix_text_append hne, if_neg hnames]
    constructor
    · rintro ⟨q, -, hprefix, heq⟩
      have hq := join_inj hc (hnormal q hprefix) (List.cons.inj (List.append_cancel_left heq)).2
      exact ⟨fun hroot => hnames hroot.2, hq ▸ hprefix, hmore⟩
    · rintro ⟨-, hprefix, -⟩
      exact ⟨c, hne, hprefix, rfl⟩

end

end Fathom.Read
