/-
**Trees whose names are Unicode.** The trees of `Fathom.Agent.Tree` are such; `lift` writes
one with names of code points. All of it is taken there, so its walk by workers is exact,
and what they report is `Tree.walk`, in some order.

What there is to see is that the path functions do the same to a text and to its code
points.
-/
import Fathom.Agent.Crawl

set_option autoImplicit false

namespace Fathom.Agent.Crawl

open Fathom.Security (Name absolute join join_singleton join_cons_cons splitOn_absolute)

/-! ## Texts -/

theorem text_injective : Function.Injective text := by
  refine List.map_injective_iff.mpr fun a b h => ?_
  injection h

@[simp] theorem text_inj {a b : List Char} : text a = text b ↔ a = b := text_injective.eq_iff

@[simp] theorem text_eq_nil {a : List Char} : text a = [] ↔ a = [] := List.map_eq_nil_iff

theorem text_append (a b : List Char) : text (a ++ b) = text a ++ text b := List.map_append

theorem char_mem_text {c : Char} {cs : List Char} : CodePoint.char c ∈ text cs ↔ c ∈ cs := by
  rw [text, List.mem_map]
  constructor
  · rintro ⟨d, hd, heq⟩
    injection heq with heq
    rw [← heq]
    exact hd
  · exact fun hc => ⟨c, hc, rfl⟩

theorem splitOn_text (c : Char) (cs : List Char) : (text cs).splitOn (.char c) = (cs.splitOn c).map text := by
  induction cs with
  | nil => rfl
  | cons d cs ih =>
      rw [text, List.map_cons, List.splitOn_cons_eq_if_modifyHead, List.splitOn_cons_eq_if_modifyHead, ← text, ih]
      by_cases hd : d = c
      · rw [hd, if_pos (beq_self_eq_true _), if_pos (beq_self_eq_true _)]
        rfl
      · have hchar : (CodePoint.char d == CodePoint.char c) = false :=
          beq_false_of_ne fun heq => hd (by injection heq)
        rw [hchar, if_neg (by decide), beq_false_of_ne hd, if_neg (by decide)]
        cases cs.splitOn c with
        | nil => rfl
        | cons first rest => rfl

theorem intercalate_text (comps : List Name) : (text ['/']).intercalate (comps.map text) = text (join '/' comps) := by
  induction comps with
  | nil => rfl
  | cons a comps ih =>
      cases comps with
      | nil => rw [List.map_singleton, List.intercalate_singleton, join_singleton]
      | cons b comps =>
          rw [List.map_cons, List.map_cons, List.intercalate_cons_cons, ← List.map_cons, ih, join_cons_cons, text_append,
            List.append_assoc]
          rfl

theorem norm_step_text (rooted : Bool) (comps : List Name) (comp : Name) :
    norm_step rooted (comps.map text) (text comp) = (Security.norm_step rooted comps comp).map text := by
  have hlast : (comps.map text).getLast? = some (text ['.', '.']) ↔ comps.getLast? = some ['.', '.'] := by
    rw [List.getLast?_map, Option.map_eq_some_iff]
    constructor
    · rintro ⟨last, hlast, heq⟩
      rw [hlast, text_injective heq]
    · exact fun hlast => ⟨_, hlast, rfl⟩
  rw [norm_step, Security.norm_step]
  simp only [text_eq_nil, text_inj, ne_eq, List.map_eq_nil_iff, hlast]
  split_ifs
  · rfl
  · rw [List.map_append, List.map_singleton]
  · rw [List.map_dropLast]

theorem foldl_norm_step_text (rooted : Bool) (acc comps : List Name) :
    (comps.map text).foldl (norm_step rooted) (acc.map text) = (comps.foldl (Security.norm_step rooted) acc).map text := by
  induction comps generalizing acc with
  | nil => rfl
  | cons comp comps ih => rw [List.map_cons, List.foldl_cons, List.foldl_cons, norm_step_text, ih]

theorem initial_slashes_text (cs : List Char) : initial_slashes (text cs) = text (Security.initial_slashes cs) := by
  unfold Security.initial_slashes
  split
  · rfl
  · rename_i rest hrest
    cases rest with
    | nil => rfl
    | cons c rest =>
        have hc : c ≠ '/' := fun heq => hrest rest (by rw [heq])
        simp [text, initial_slashes, hc]
  · rename_i rest _ hrest
    cases rest with
    | nil => rfl
    | cons c rest =>
        have hc : c ≠ '/' := fun heq => hrest rest (by rw [heq])
        simp [text, initial_slashes, hc]
  · rename_i hnone
    cases cs with
    | nil => rfl
    | cons c rest =>
        have hc : c ≠ '/' := fun heq => hnone rest (by rw [heq])
        simp [text, initial_slashes, hc]

theorem normpath_text (cs : List Char) : normpath (text cs) = text (Security.normpath cs) := by
  rw [normpath, Security.normpath, initial_slashes_text, splitOn_text, ← List.map_nil (f := text), foldl_norm_step_text,
    intercalate_text, ← text_append]
  simp only [text_eq_nil, ne_eq]
  rw [← Security.norm_components]
  split_ifs
  · rfl
  · rfl

/-! ## Excludes -/

theorem normalise_excludes_text (exclude : List String) :
    normalise_excludes (exclude.map fun e => text e.toList) = (Agent.normalise_excludes exclude).map text := by
  rw [normalise_excludes, Agent.normalise_excludes, List.filter_map, List.map_map, List.map_map]
  have hfilter : exclude.filter ((fun e => decide (e ≠ [])) ∘ fun e => text e.toList) = exclude.filter fun e => e ≠ "" := by
    refine List.filter_congr fun e _ => ?_
    rw [Function.comp_apply, decide_eq_decide, ne_eq, text_eq_nil, ne_eq, ← String.toList_inj]
    rfl
  rw [hfilter]
  refine List.map_congr_left fun e _ => ?_
  rw [Function.comp_apply, Function.comp_apply, normpath_text]

theorem is_excluded_path_text (path : List Char) (excluded : List (List Char)) :
    is_excluded_path (text path) (excluded.map text) = Agent.is_excluded_path path excluded := by
  rw [is_excluded_path, Agent.is_excluded_path, normpath_text, List.any_map]
  simp only [List.map_eq_nil_iff]
  split_ifs with hempty
  · rfl
  · congr 1
    funext e
    rw [Function.comp_apply, ← text_append, Bool.eq_iff_iff, Bool.or_eq_true, Bool.or_eq_true, decide_eq_true_eq,
      decide_eq_true_eq, text_inj, List.isPrefixOf_iff_prefix, List.isPrefixOf_iff_prefix, text, text,
      List.prefix_map_iff_of_injective fun a b h => by injection h]

/-! ## Paths -/

/-- A name, as code points. -/
def lift_name (name : Agent.FileName) : FileName :=
  ⟨text name.val, by
    obtain ⟨hnil, hdot, hparent, hslash, hnul⟩ := name.property
    exact ⟨fun h => hnil (text_eq_nil.mp h), fun h => hdot (text_inj.mp h), fun h => hparent (text_inj.mp h),
      fun h => hslash (char_mem_text.mp h), fun h => hnul (char_mem_text.mp h)⟩⟩

/-- The path of some names. -/
def lift_path (names : List Agent.FileName) : Text := text (absolute (names.map Subtype.val))

theorem join_snoc {names : List Name} (h : names ≠ []) (name : Name) :
    join '/' (names ++ [name]) = join '/' names ++ '/' :: name := by
  induction names with
  | nil => exact absurd rfl h
  | cons a names ih =>
      cases names with
      | nil => rw [List.singleton_append, join_cons_cons, join_singleton, join_singleton]
      | cons b names =>
          rw [List.cons_append, List.cons_append, join_cons_cons, ← List.cons_append, ih (List.cons_ne_nil _ _),
            join_cons_cons, List.append_assoc, List.cons_append]

/-- A path that is not the root does not end in a slash. -/
theorem getLast?_lift_path {names : List Agent.FileName} (h : names ≠ []) :
    (lift_path names).getLast? ≠ some (.char '/') := by
  obtain ⟨front, last, rfl⟩ := List.eq_nil_or_concat names |>.resolve_left h
  have hsplit : ∃ before, absolute ((front ++ [last]).map Subtype.val) = before ++ last.val := by
    rw [List.map_append, List.map_singleton, absolute]
    by_cases hfront : front.map Subtype.val = []
    · rw [hfront, List.nil_append, join_singleton]
      exact ⟨['/'], rfl⟩
    · rw [join_snoc hfront]
      exact ⟨'/' :: (join '/' (front.map Subtype.val) ++ ['/']), by simp⟩
  obtain ⟨before, hbefore⟩ := hsplit
  rw [List.concat_eq_append, lift_path, hbefore, text_append,
    List.getLast?_append_of_ne_nil _ fun hnil => last.property.1 (text_eq_nil.mp hnil)]
  intro hslash
  exact last.property.2.2.2.1 (char_mem_text.mp (List.mem_of_getLast? hslash))

theorem join_path_lift (names : List Agent.FileName) (name : Agent.FileName) :
    join_path (lift_path names) (lift_name name).val = lift_path (names ++ [name]) := by
  rw [join_path]
  by_cases hnames : names = []
  · have hslash : (lift_path []).getLast? = some (.char '/') := rfl
    rw [hnames, if_pos hslash, lift_path, lift_path, lift_name, ← text_append, List.nil_append, List.map_singleton, absolute,
      absolute, join_singleton]
    rfl
  · have hvals : names.map Subtype.val ≠ [] := fun h => hnames (List.map_eq_nil_iff.mp h)
    rw [if_neg (getLast?_lift_path hnames), lift_path, lift_path, lift_name, List.map_append, List.map_singleton, absolute,
      absolute, join_snoc hvals, ← List.cons_append, text_append]
    rfl

/-- The name of a scan root. -/
theorem path_name_lift (root : List Agent.FileName) :
    (if path_name (lift_path root) = [] then lift_path root else path_name (lift_path root))
      = text (root_name root).toList := by
  have hnames : ∀ name ∈ root.map Subtype.val, Security.IsName name := by
    intro name hname
    obtain ⟨n, -, rfl⟩ := List.mem_map.mp hname
    exact n.property
  have hcomps : (((lift_path root).splitOn (.char '/')).filter fun comp => comp ≠ [] ∧ comp ≠ text ['.'])
      = (root.map Subtype.val).map text := by
    rw [lift_path, splitOn_text, splitOn_absolute hnames, List.map_cons, List.filter_cons_of_neg (by simp)]
    split_ifs with hroot
    · rw [hroot]
      rfl
    · rw [List.filter_eq_self]
      intro comp hcomp
      obtain ⟨name, hname, rfl⟩ := List.mem_map.mp hcomp
      obtain ⟨hnil, hdot, -⟩ := hnames name hname
      simp [hnil, hdot]
  rw [path_name, hcomps, List.map_map, List.getLast?_map, root_name]
  cases hlast : root.getLast? with
  | none =>
      rw [Option.map_none, Option.getD_none, if_pos rfl, path_text, String.toList_ofList, lift_path]
  | some name =>
      rw [Option.map_some, Option.getD_some, Function.comp_apply, if_neg fun h => name.property.1 (text_eq_nil.mp h),
        String.toList_ofList]

/-! ## Trees -/

/-- An entry, as code points. -/
def lift_dirent (d : Agent.Dirent) : Dirent := ⟨lift_name d.name, d.node, d.fault⟩

/-- A directory, as code points. -/
def lift_listing : Agent.Listing → Listing
  | .nil => .nil
  | .raised rest => .raised (lift_listing rest)
  | .leaf d is_symlink next => .leaf (lift_dirent d) is_symlink (lift_listing next)
  | .dir d children next => .dir (lift_dirent d) (lift_listing children) (lift_listing next)

/-- A tree, as code points. Its root is a directory. -/
def lift_tree (tree : Agent.Tree) : Tree := ⟨tree.inodes, tree.node, tree.fault, .directory (lift_listing tree.listing)⟩

/-- A walk told what to exclude. -/
def lift_scope (one_filesystem : Bool) (exclude : List String) : Scope :=
  ⟨one_filesystem, exclude.map fun e => text e.toList⟩

theorem join_path_dirent (path : List Agent.FileName) (d : Agent.Dirent) :
    join_path (lift_path path) (lift_dirent d).name = lift_path (path ++ [d.name]) := join_path_lift path d.name

theorem fault_lift (d : Agent.Dirent) : (lift_dirent d).fault = d.fault := rfl

section

variable {validate : Text → Option String} (hstrict : Strict validate) {inodes : Node → Stat} {one_filesystem : Bool}
  {exclude : List String} {root_dev : UInt64}

theorem prunes_lift (names : List Agent.FileName) :
    (lift_scope one_filesystem exclude).prunes (lift_path names)
      = Agent.Scope.prunes ⟨one_filesystem, Agent.normalise_excludes exclude⟩ names := by
  rw [Scope.prunes, lift_scope, normalise_excludes_text, lift_path, is_excluded_path_text, Agent.Scope.prunes]

include hstrict in
/-- What is Unicode is taken as it is. -/
theorem make_entry_lift (names : List Agent.FileName) (name : List Char) (node : Node) (is_dir is_symlink : Bool) :
    make_entry validate inodes ⟨lift_path names, text name, node, is_dir, is_symlink⟩
      = some (Agent.make_entry inodes names (String.ofList name) node is_dir is_symlink) := by
  rw [make_entry, lift_path, hstrict.unicode, hstrict.unicode]
  rfl

include hstrict in
theorem make_dirent_lift (path : List Agent.FileName) (d : Agent.Dirent) (is_dir is_symlink : Bool) :
    make_entry validate inodes ⟨lift_path (path ++ [d.name]), (lift_dirent d).name, (lift_dirent d).node, is_dir, is_symlink⟩
      = some (Agent.make_entry inodes (path ++ [d.name]) (String.ofList d.name.val) d.node is_dir is_symlink) :=
  make_entry_lift hstrict _ _ _ _ _

/-- What is entered there is entered here. -/
theorem enters_lift (d : Agent.Dirent) :
    Scope.enters (lift_scope one_filesystem exclude) root_dev (lift_dirent d).node.st_dev = true ↔
      ¬ (one_filesystem = true ∧ d.node.st_dev ≠ root_dev) := by
  cases one_filesystem with
  | true =>
      change (!true || decide (d.node.st_dev = root_dev)) = true ↔ _
      rw [Bool.not_true, Bool.false_or, decide_eq_true_iff]
      exact ⟨fun h hcross => hcross.2 h, fun h => by_contra fun hdev => h ⟨rfl, hdev⟩⟩
  | false => simp [Scope.enters, lift_scope, lift_dirent]

include hstrict in
/-- What is to be reported below a directory is what is walked there. -/
theorem places_lift (l : Agent.Listing) (path : List Agent.FileName) :
    ((lift_listing l).places (lift_scope one_filesystem exclude) root_dev (lift_path path)).filterMap
        (make_entry validate inodes)
      = l.walk ⟨one_filesystem, Agent.normalise_excludes exclude⟩ inodes root_dev path := by
  induction l generalizing path with
  | nil => rfl
  | raised rest _ => rfl
  | leaf d is_symlink next ih =>
      rw [lift_listing, Listing.places, Agent.Listing.walk, List.filterMap_append, ih path, join_path_dirent, prunes_lift,
        fault_lift]
      refine congrArg (· ++ _) ?_
      cases Agent.Scope.prunes ⟨one_filesystem, Agent.normalise_excludes exclude⟩ (path ++ [d.name]) with
      | true => rfl
      | false =>
        cases d.fault with
        | true => rfl
        | false =>
            rw [Bool.or_false, if_neg Bool.false_ne_true, if_neg Bool.false_ne_true, if_neg Bool.false_ne_true,
              List.filterMap_cons_some (make_dirent_lift hstrict path d false is_symlink), List.filterMap_nil]
  | dir d children next ihc ih =>
      rw [lift_listing, Listing.places, Agent.Listing.walk, List.filterMap_append, ih path, join_path_dirent, prunes_lift,
        fault_lift]
      refine congrArg (· ++ _) ?_
      cases Agent.Scope.prunes ⟨one_filesystem, Agent.normalise_excludes exclude⟩ (path ++ [d.name]) with
      | true => rfl
      | false =>
        cases d.fault with
        | true => rfl
        | false =>
            rw [Bool.or_false, if_neg Bool.false_ne_true, if_neg Bool.false_ne_true, if_neg Bool.false_ne_true,
              List.filterMap_cons_some (make_dirent_lift hstrict path d true false)]
            refine congrArg (_ :: ·) ?_
            by_cases hcross : one_filesystem = true ∧ d.node.st_dev ≠ root_dev
            · rw [if_neg fun h => (enters_lift d).mp h hcross, if_pos hcross, List.filterMap_nil]
            · rw [if_pos ((enters_lift d).mpr hcross), if_neg hcross, ihc]

include hstrict in
/-- The root is taken. -/
theorem root_lift (tree : Agent.Tree) (root : List Agent.FileName) :
    make_entry validate (lift_tree tree).inodes ((lift_tree tree).place (lift_path root))
      = some (Agent.make_entry tree.inodes root (root_name root) tree.node true false) := by
  have hentry := @make_entry_lift validate hstrict tree.inodes root (root_name root).toList tree.node true false
  rw [String.ofList_toList, ← path_name_lift] at hentry
  exact hentry

include hstrict in
/-- **What is to be reported of a tree** is what is walked of it. -/
theorem wanted_lift (tree : Agent.Tree) (root : List Agent.FileName) :
    (lift_tree tree).wanted validate (lift_scope one_filesystem exclude) (lift_path root)
      = tree.walk ⟨one_filesystem, Agent.normalise_excludes exclude⟩ root := by
  rw [Tree.wanted, Tree.places, Agent.Tree.walk, prunes_lift]
  by_cases hprunes : Agent.Scope.prunes ⟨one_filesystem, Agent.normalise_excludes exclude⟩ root = true
  · rw [hprunes]
    rfl
  · rw [Bool.eq_false_iff.mpr hprunes]
    cases hfault : tree.fault with
    | true =>
        rw [show (lift_tree tree).fault = true from hfault]
        rfl
    | false =>
        rw [show (lift_tree tree).fault = false from hfault, if_neg (by decide), if_neg (by decide), if_neg (by decide),
          List.filterMap_cons_some (root_lift hstrict tree root)]
        exact congrArg (_ :: ·) (places_lift hstrict tree.listing root)

/-- In a directory of Unicode names none is not taken. -/
theorem own_lift (hstrict : Strict validate) (scope : Scope) (l : Agent.Listing) (path : List Agent.FileName) :
    ∀ place ∈ (lift_listing l).own scope (lift_path path), make_entry validate inodes place ≠ none := by
  have hone : ∀ (d : Agent.Dirent) (is_dir is_symlink ends : Bool), ∀ place ∈ if ends then ([] : List Place) else
      [⟨lift_path (path ++ [d.name]), (lift_dirent d).name, (lift_dirent d).node, is_dir, is_symlink⟩],
      make_entry validate inodes place ≠ none := by
    intro d is_dir is_symlink ends place h
    split at h
    · exact absurd h List.not_mem_nil
    · rw [List.mem_singleton.mp h]
      exact Option.ne_none_iff_exists'.mpr ⟨_, make_dirent_lift hstrict path d is_dir is_symlink⟩
  induction l with
  | nil => exact fun place h => absurd h List.not_mem_nil
  | raised rest _ => exact fun place h => absurd h List.not_mem_nil
  | leaf d is_symlink next ih =>
      intro place h
      rw [lift_listing, Listing.own, join_path_dirent, List.mem_append] at h
      exact h.elim (hone d _ _ _ place) (ih place)
  | dir d children next _ ih =>
      intro place h
      rw [lift_listing, Listing.own, join_path_dirent, List.mem_append] at h
      exact h.elim (hone d _ _ _ place) (ih place)

/-- The directories that come up are of Unicode names too. -/
theorem subdirs_lift (scope : Scope) (l : Agent.Listing) (path : List Agent.FileName) :
    ∀ d ∈ (lift_listing l).subdirs scope root_dev (lift_path path),
      ∃ l' path', d = ⟨lift_path path', lift_listing l'⟩ := by
  induction l with
  | nil => exact fun d h => absurd h List.not_mem_nil
  | raised rest _ => exact fun d h => absurd h List.not_mem_nil
  | leaf d is_symlink next ih => exact ih
  | dir d children next _ ih =>
      intro sub h
      rw [lift_listing, Listing.subdirs, join_path_dirent, List.mem_append] at h
      rcases h with hhere | hnext
      · split at hhere
        · exact ⟨children, path ++ [d.name], List.mem_singleton.mp hhere⟩
        · exact absurd hhere List.not_mem_nil
      · exact ih sub hnext

end

/-- A walk of a tree whose names are Unicode loses nothing. -/
theorem unspoilt_lift {validate : Text → Option String} (hstrict : Strict validate) (tree : Agent.Tree) (scope : Scope)
    (root : List Agent.FileName) : Unspoilt validate (lift_tree tree) scope (lift_path root) := by
  have hnone : ∀ d ∈ (lift_tree tree).directories validate scope (lift_path root),
      d.rejects scope validate tree.inodes = false := by
    intro d hd
    have hlifted : ∃ l path, d = ⟨lift_path path, lift_listing l⟩ := by
      refine Pool.breadth_first_all (P := fun d => ∃ l path, d = ⟨lift_path path, lift_listing l⟩) ?_ ?_ d hd
      · rintro _ ⟨l, path, rfl⟩ sub hsub
        split at hsub
        · exact absurd hsub List.not_mem_nil
        · exact subdirs_lift scope l path sub hsub
      · intro j hj
        rw [List.mem_singleton.mp hj]
        exact ⟨tree.listing, root, rfl⟩
    obtain ⟨l, path, rfl⟩ := hlifted
    rw [Directory.rejects, List.any_eq_false]
    intro place hplace
    rw [decide_eq_true_eq]
    exact own_lift hstrict scope l path place hplace
  refine ⟨?_, fun d hd => hnone d (List.mem_of_mem_dropLast hd), fun d hd hrejects => ?_⟩
  · exact Option.ne_none_iff_exists'.mpr ⟨_, root_lift hstrict tree root⟩
  · exact absurd hrejects (by rw [show (lift_tree tree).inodes = tree.inodes from rfl, hnone d hd]; decide)

def one_leaf : Agent.Tree :=
  ⟨fun _ => ⟨1, 1, 0, 0, 0, 0⟩, ⟨1, 1⟩, false, .leaf ⟨⟨['l'], by decide⟩, ⟨1, 2⟩, false⟩ false .nil⟩

end Fathom.Agent.Crawl
