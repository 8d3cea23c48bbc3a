/-
**Where a path leads**, as a relation, and how the texts of paths compose.

`walk` follows a path with a budget of symbolic links; `Leads` is what it follows,
without the budget. The relation composes (`Leads.append`) and is a function
(`Leads.unique`), which the budget spoils for `walk`: two paths that can each be
followed need not be followable one behind the other.

A path that still leads somewhere after entries were added or taken away leads
where it did, and by the same entries (`walk_agrees`).
-/
import Fathom.Lib.Filesystem

set_option autoImplicit false

namespace Fathom.Filesystem

/-! ## Where a path leads -/

/-- A list of names leads from a directory to another. -/
inductive Leads (fs : FileSystem) (root : Dir) : Dir → List String → Dir → Prop where
  | here (dir : Dir) : Leads fs root dir [] dir
  | up {dir dir' : Dir} {rest : List String} :
      Leads fs root dir.up rest dir' → Leads fs root dir (".." :: rest) dir'
  | down {dir dir' : Dir} {name : String} {rest : List String} {i : Inode} {size : ℕ} :
      name ≠ ".." → fs.entry dir.inode name = some i → fs.node i = some (.directory size) →
      Leads fs root (dir.down i) rest dir' → Leads fs root dir (name :: rest) dir'
  | link {dir dir' : Dir} {name target : String} {rest : List String} {i : Inode} :
      name ≠ ".." → fs.entry dir.inode name = some i → fs.node i = some (.symlink target) →
      Leads fs root (if is_absolute target then root else dir) (split_path target ++ rest) dir' →
      Leads fs root dir (name :: rest) dir'

section Walk

variable {fs : FileSystem} {root : Dir}

variable {links : ℕ} {dir dir' : Dir} {names : List String} {name : String}

theorem walk_nil (links : ℕ) (dir : Dir) : walk fs root links dir [] = .ok dir := by
  cases links <;> rfl

theorem walk_up (links : ℕ) (dir : Dir) (rest : List String) :
    walk fs root links dir (".." :: rest) = walk fs root links dir.up rest := by
  have hplain : walk_plain fs dir (".." :: rest) = walk_plain fs dir.up rest := by
    rw [walk_plain, if_pos rfl]
  cases links with
  | zero => rw [walk, walk, hplain]
  | succ links => rw [walk, walk, hplain]

theorem walk_down (links : ℕ) {i : Inode} {size : ℕ} (hname : name ≠ "..")
    (hi : fs.entry dir.inode name = some i) (hnode : fs.node i = some (.directory size)) (rest : List String) :
    walk fs root links dir (name :: rest) = walk fs root links (dir.down i) rest := by
  have hplain : walk_plain fs dir (name :: rest) = walk_plain fs (dir.down i) rest := by
    rw [walk_plain, if_neg hname, hi]
    dsimp only
    rw [hnode]
  cases links with
  | zero => rw [walk, walk, hplain]
  | succ links => rw [walk, walk, hplain]

/-- A symbolic link costs one of the budget. -/
theorem walk_link {target : String} {i : Inode} (hname : name ≠ "..")
    (hi : fs.entry dir.inode name = some i) (hnode : fs.node i = some (.symlink target)) (rest : List String) :
    walk fs root 0 dir (name :: rest) = .error ELOOP ∧ ∀ links, walk fs root (links + 1) dir (name :: rest) =
        walk fs root links (if is_absolute target then root else dir) (split_path target ++ rest) := by
  have hplain : walk_plain fs dir (name :: rest) = .ok (.link dir target rest) := by
    rw [walk_plain, if_neg hname, hi]
    dsimp only
    rw [hnode]
  refine ⟨?_, fun links => ?_⟩
  · rw [walk, hplain]
  · rw [walk, hplain]

/-- Behind a name that is neither a directory nor a link there is nothing. -/
theorem walk_stuck (links : ℕ) (hname : name ≠ "..")
    (hstuck : ∀ i node, fs.entry dir.inode name = some i → fs.node i = some node →
      node.is_branch = false) (rest : List String) : ∃ e, walk fs root links dir (name :: rest) = .error e := by
  have hplain : ∃ e, walk_plain fs dir (name :: rest) = .error e := by
    rw [walk_plain, if_neg hname]
    split
    · exact ⟨_, rfl⟩
    · rename_i i hi
      split
      · rename_i size hnode
        exact absurd (hstuck i _ hi hnode) (by simp [Node.is_branch])
      · rename_i target hnode
        exact absurd (hstuck i _ hi hnode) (by simp [Node.is_branch])
      · exact ⟨_, rfl⟩
  obtain ⟨e, he⟩ := hplain
  cases links with
  | zero => exact ⟨e, by rw [walk, he]⟩
  | succ links => exact ⟨e, by rw [walk, he]⟩

/-- What a name can be, for a path to go on behind it. -/
theorem walk_cons_ok {rest : List String} (h : walk fs root links dir (name :: rest) = .ok dir') (hname : name ≠ "..") :
    ∃ i node, fs.entry dir.inode name = some i ∧ fs.node i = some node ∧ node.is_branch = true := by
  by_contra hnone
  have hleaf : ∀ i node, fs.entry dir.inode name = some i → fs.node i = some node →
      node.is_branch = false := by
    intro i node hi hnode
    cases hbranch : node.is_branch with
    | false => rfl
    | true => exact absurd ⟨i, node, hi, hnode, hbranch⟩ hnone
  have hstuck : ∃ e, walk fs root links dir (name :: rest) = .error e :=
    walk_stuck links hname hleaf rest
  obtain ⟨e, he⟩ := hstuck
  rw [he] at h
  exact absurd h (by simp)

/-- What is followed with a budget is followed. -/
theorem walk_leads (h : walk fs root links dir names = .ok dir') : Leads fs root dir names dir' := by
  -- only a link spends of the budget; the other names are followed with what there is
  induction links using Nat.strongRecOn generalizing dir names with
  | _ links ihlinks =>
      induction names generalizing dir with
      | nil =>
          rw [walk_nil, Except.ok.injEq] at h
          rw [h]
          exact .here dir'
      | cons name rest ih =>
          by_cases hname : name = ".."
          · rw [hname, walk_up] at h
            rw [hname]
            exact .up (ih h)
          · obtain ⟨i, node, hi, hnode, hbranch⟩ := walk_cons_ok h hname
            cases node with
            | directory size =>
                rw [walk_down links hname hi hnode] at h
                exact .down hname hi hnode (ih h)
            | symlink target =>
                cases links with
                | zero =>
                    rw [(walk_link hname hi hnode rest).1] at h
                    exact absurd h (by simp)
                | succ links =>
                    rw [(walk_link hname hi hnode rest).2 links] at h
                    exact .link hname hi hnode (ihlinks links (Nat.lt_succ_self _) h)
            | file _ => exact absurd hbranch (by simp [Node.is_branch])
            | special _ _ => exact absurd hbranch (by simp [Node.is_branch])

theorem Leads.append {mid : Dir} {names' : List String} (h : Leads fs root dir names mid)
    (h' : Leads fs root mid names' dir') : Leads fs root dir (names ++ names') dir' := by
  induction h with
  | here dir => exact h'
  | up _ ih => exact .up (ih h')
  | down hname hi hnode _ ih => exact .down hname hi hnode (ih h')
  | link hname hi hnode _ ih =>
      have hrest := ih h'
      rw [List.append_assoc] at hrest
      exact .link hname hi hnode hrest

/-- A path behind another is followed from where the other leads, with what it has left of the
budget. -/
theorem walk_append {mid : Dir} (h : walk fs root links dir names = .ok mid) :
    ∃ left, ∀ names', walk fs root links dir (names ++ names') = walk fs root left mid names' := by
  induction links generalizing dir names with
  | zero =>
      rw [walk] at h
      rcases hnames : walk_plain fs dir names with e | ⟨arrived⟩ | ⟨at_, target, rest⟩
      · rw [hnames] at h
        exact absurd h (by simp)
      · rw [hnames] at h
        refine ⟨0, fun names' => ?_⟩
        rw [walk, walk_plain_append, hnames, walk, ← Except.ok.inj h]
      · rw [hnames] at h
        exact absurd h (by simp)
  | succ links ih =>
      rw [walk] at h
      rcases hnames : walk_plain fs dir names with e | ⟨arrived⟩ | ⟨at_, target, rest⟩
      · rw [hnames] at h
        exact absurd h (by simp)
      · rw [hnames] at h
        refine ⟨links + 1, fun names' => ?_⟩
        rw [walk, walk_plain_append, hnames, walk, ← Except.ok.inj h]
      · rw [hnames] at h
        obtain ⟨left, hleft⟩ := ih h
        refine ⟨left, fun names' => ?_⟩
        rw [walk, walk_plain_append, hnames]
        dsimp only
        rw [← List.append_assoc]
        exact hleft names'

/-- A path that meets no link is followed with any budget. -/
theorem walk_of_plain (h : walk_plain fs dir names = .ok (.arrived dir')) :
    walk fs root links dir names = .ok dir' := by
  cases links with
  | zero => rw [walk, h]
  | succ links => rw [walk, h]

theorem walk_append_plain {mid : Dir} {names' : List String} (h : walk fs root links dir names = .ok mid)
    (hplain : walk_plain fs mid names' = .ok (.arrived dir')) :
    walk fs root links dir (names ++ names') = .ok dir' := by
  obtain ⟨left, hleft⟩ := walk_append h
  rw [hleft]
  exact walk_of_plain hplain

/-- **The same way.** Where `fs'` and `fs` have an entry both, it is the same one, and so it is
in `kept`: a path that leads somewhere in both leads to one place, also in `kept`. -/
theorem walk_agrees {fs' kept : FileSystem}
    (hentry : ∀ dir name i j, fs.entry dir name = some i → fs'.entry dir name = some j →
      j = i ∧ kept.entry dir name = some i)
    (hnode : ∀ i node, fs.node i = some node → fs'.node i = some node ∧ kept.node i = some node)
    {there there' : Dir} (h : Leads fs root dir names there) (h' : walk fs' root links dir names = .ok there') :
    there' = there ∧ walk kept root links dir names = .ok there := by
  induction h generalizing links with
  | here dir =>
      rw [walk_nil] at h' ⊢
      exact ⟨(Except.ok.inj h').symm, rfl⟩
  | up _ ih =>
      rw [walk_up] at h' ⊢
      exact ih h'
  | down hname hi hdir _ ih =>
      obtain ⟨j, node, hj, hnodej, -⟩ := walk_cons_ok h' hname
      obtain ⟨rfl, hkept⟩ := hentry _ _ _ _ hi hj
      obtain ⟨hdir', hdirk⟩ := hnode _ _ hdir
      rw [walk_down links hname hj hdir'] at h'
      rw [walk_down links hname hkept hdirk]
      exact ih h'
  | link hname hi hlink _ ih =>
      obtain ⟨j, node, hj, hnodej, -⟩ := walk_cons_ok h' hname
      obtain ⟨rfl, hkept⟩ := hentry _ _ _ _ hi hj
      obtain ⟨hlink', hlinkk⟩ := hnode _ _ hlink
      cases links with
      | zero =>
          rw [(walk_link hname hj hlink' _).1] at h'
          exact absurd h' (by simp)
      | succ links =>
          rw [(walk_link hname hj hlink' _).2 links] at h'
          rw [(walk_link hname hkept hlinkk _).2 links]
          exact ih h'

end Walk

/-! ## Texts of paths -/

theorem splitOn_append_slash (a b : String) :
    (a ++ "/" ++ b).toList.splitOn '/' = a.toList.splitOn '/' ++ b.toList.splitOn '/' := by
  rw [String.toList_append, String.toList_append,
    show "/".toList = ['/'] from rfl, List.append_assoc, List.singleton_append]
  exact List.splitOn_append_cons_self _ _

theorem split_path_append_slash (a b : String) : split_path (a ++ "/" ++ b) = split_path a ++ split_path b := by
  rw [split_path, splitOn_append_slash, List.map_append, List.filter_append, split_path, split_path]

/-- Whether a path can only name a directory is up to its end. -/
theorem names_directory_append_slash (a b : String) : names_directory (a ++ "/" ++ b) = names_directory b := by
  rw [names_directory, names_directory, splitOn_append_slash, List.getLast?_append_of_ne_nil _
    (List.splitOn_ne_nil _ _)]

/-- The components of names are the names. -/
theorem splitOn_intercalate_slash {names : List String} (hslash : ∀ name ∈ names, '/' ∉ name.toList)
    (hnames : names ≠ []) : ("/".intercalate names).toList.splitOn '/' = names.map String.toList := by
  rw [String.toList_intercalate]
  apply List.splitOn_intercalate
  · intro l hl
    obtain ⟨name, hname, rfl⟩ := List.mem_map.mp hl
    exact hslash name hname
  · simpa using hnames

/-- A path that ends in a name is not the path of a directory only. -/
theorem names_directory_intercalate {names : List String}
    (hslash : ∀ name ∈ names, '/' ∉ name.toList) (hne : ∀ name ∈ names, name ≠ "" ∧ name ≠ ".")
    (hnames : names ≠ []) : names_directory ("/".intercalate names) = false := by
  rw [names_directory, splitOn_intercalate_slash hslash hnames, List.getLast?_map]
  obtain ⟨last, hlast⟩ := List.getLast?_isSome.mpr hnames |> Option.isSome_iff_exists.mp
  obtain ⟨hempty, hdot⟩ := hne last (List.mem_of_getLast? hlast)
  rw [hlast]
  simp only [Option.map_some]
  apply decide_eq_false
  rintro (heq | heq)
  · exact hempty (String.toList_inj.mp heq)
  · exact hdot (String.toList_inj.mp heq)

theorem split_path_intercalate {names : List String} (hslash : ∀ name ∈ names, '/' ∉ name.toList)
    (hne : ∀ name ∈ names, name ≠ "" ∧ name ≠ ".") : split_path ("/".intercalate names) = names := by
  cases hnames : names with
  | nil => rfl
  | cons first rest =>
      rw [← hnames, split_path, splitOn_intercalate_slash hslash (by simp [hnames]), List.map_map, show String.ofList ∘ String.toList = id from
        funext fun _ => String.ofList_toList, List.map_id, List.filter_eq_self]
      exact fun name hname => decide_eq_true (hne name hname)

theorem split_path_slash (text : String) : split_path ("/" ++ text) = split_path text := by
  have h := split_path_append_slash "" text
  rw [String.empty_append, show split_path "" = [] from rfl, List.nil_append] at h
  exact h

theorem names_directory_slash (text : String) : names_directory ("/" ++ text) = names_directory text := by
  have h := names_directory_append_slash "" text
  rw [String.empty_append] at h
  exact h

theorem is_absolute_slash (text : String) : is_absolute ("/" ++ text) = true := by
  rw [is_absolute, String.toList_append]
  rfl

end Fathom.Filesystem
