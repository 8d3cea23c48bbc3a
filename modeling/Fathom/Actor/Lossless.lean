/-
**Quarantine and move lose nothing**: what an act may say it has done, against what it
has done to the names of a filesystem.

An act that reports `quarantined` or `moved` must have taken the file from its name to
the path it reports, with every other name where it was (`Relocated`); one that reports
anything else must have left every file under its name (`SameFiles`).

A rename replaces what has its destination, and does nothing at all when source and
destination are two names of one inode, so a quarantine keeps its word exactly when
nothing has the new name and the reported path still leads there without the old one.
A move links, which replaces nothing; it keeps its word unless `dest_rel` ends in a
slash, or the kernel refuses both the unlink of the source and the one that takes the
link back (`lossless_iff`).
-/
import Fathom.Actor.Move

set_option autoImplicit false

namespace Fathom.Actor

open Fathom.Datetime (Timestamp)
open Fathom.Audit (AuditChain AuditRecord)
open Fathom.Filesystem
open Fathom.Remediation

/-! ## The path of the quarantine -/

/-- Names in a row start with the first of them, which is no slash. -/
theorem is_absolute_intercalate {names : List String} (hslash : ∀ name ∈ names, '/' ∉ name.toList)
    (hne : ∀ name ∈ names, name ≠ "") : is_absolute ("/".intercalate names) = false := by
  cases names with
  | nil => rfl
  | cons first rest =>
      have hfirst := hne first List.mem_cons_self
      have hno := hslash first List.mem_cons_self
      rw [is_absolute, decide_eq_false_iff_not, String.toList_intercalate]
      cases hchars : first.toList with
      | nil => exact absurd (String.toList_inj.mp hchars) hfirst
      | cons c cs =>
          rw [hchars, List.mem_cons, not_or] at hno
          cases rest with
          | nil => simpa [hchars, List.intercalate, List.intersperse] using Ne.symm hno.1
          | cons _ _ => simpa [hchars, List.intercalate, List.intersperse] using Ne.symm hno.1

theorem split_path_names (path : String) :
    split_path ("/".intercalate (split_path path)) = split_path path :=
  split_path_intercalate (fun _ h => slash_not_mem_split_path h) fun _ h => mem_split_path h

/-- `str(Path(path))` has the names of the path and starts where the path does. -/
theorem path_str_spec (path : String) :
    split_path (path_str path) = split_path path ∧
      is_absolute (path_str path) = is_absolute path ∧
      (split_path path ≠ [] → names_directory (path_str path) = false) := by
  have hslash : ∀ name ∈ split_path path, '/' ∉ name.toList :=
    fun _ h => slash_not_mem_split_path h
  have hne : ∀ name ∈ split_path path, name ≠ "" ∧ name ≠ "." := fun _ h => mem_split_path h
  have hnames : split_path path ≠ [] →
      names_directory ("/".intercalate (split_path path)) = false :=
    names_directory_intercalate hslash hne
  unfold path_str
  dsimp only
  by_cases habs : is_absolute path = true
  · rw [if_neg (by simp [habs]), habs]
    split
    · rw [show ("//" : String) = "/" ++ "/" from rfl, String.append_assoc, split_path_slash,
        split_path_slash, names_directory_slash, names_directory_slash]
      exact ⟨split_path_names path, is_absolute_slash _, hnames⟩
    · rw [split_path_slash, names_directory_slash]
      exact ⟨split_path_names path, is_absolute_slash _, hnames⟩
  · rw [if_pos habs]
    rw [Bool.not_eq_true] at habs
    have hrelative := is_absolute_intercalate hslash fun name h => (hne name h).1
    split
    · rename_i hempty
      have hsplit := split_path_names path
      rw [hempty] at hsplit
      refine ⟨hsplit, habs.symm, fun h => ?_⟩
      exact absurd hsplit.symm h
    · exact ⟨split_path_names path, hrelative.trans habs.symm, hnames⟩

/-- The path of a text behind a directory: the text alone when it is absolute, and otherwise
the names of both, from where the directory's path starts. -/
theorem path_join_spec (p : Process) {base : String} (hbase : base ≠ "") (path : String)
    (hpath : split_path path ≠ []) : p.start p.cwd (path_join base path) =
        (if is_absolute path then p.root else p.start p.cwd base) ∧ split_path (path_join base path) =
        (if is_absolute path then [] else split_path base) ++ split_path path ∧
      names_directory (path_join base path) = false := by
  unfold path_join
  by_cases habs : is_absolute path = true
  · obtain ⟨hsplit, hstart, hdir⟩ := path_str_spec path
    rw [if_pos habs, if_pos habs, if_pos habs, hsplit, Process.start, hstart, if_pos habs]
    exact ⟨rfl, rfl, hdir hpath⟩
  · have hboth : split_path (base ++ "/" ++ path) = split_path base ++ split_path path :=
      split_path_append_slash base path
    have hhead : is_absolute (base ++ "/" ++ path) = is_absolute base := by
      rw [is_absolute, is_absolute, String.toList_append, String.toList_append]
      cases hchars : base.toList with
      | nil => exact absurd (String.toList_inj.mp hchars) hbase
      | cons c cs => rfl
    obtain ⟨hsplit, hstart, hdir⟩ := path_str_spec (base ++ "/" ++ path)
    rw [if_neg habs, if_neg habs, if_neg habs, hsplit, hboth, Process.start, hstart, hhead,
      Process.start]
    refine ⟨rfl, rfl, hdir ?_⟩
    rw [hboth]
    exact fun h => hpath (List.append_eq_nil_iff.mp h).2

variable {fs fs' : FileSystem} {p : Process} {dir dst : Dir} {name : String} {i : Inode}
  {node : Node}

/-- A file is found under the path a quarantine reports exactly where the path leads. -/
theorem lstat_path_join {base path : String} (hbase : base ≠ "") (hpath : split_path path ≠ []) :
    lstat fs p (path_join base path) =
      match locate fs p (path_join base path) with
      | .ok (dir, name) => lstat_at fs dir name
      | .error e => .error e := by
  obtain ⟨-, -, hdir⟩ := path_join_spec p hbase path hpath
  rw [lstat]
  exact if_neg (by simp [hdir])

/-- What was opened and located in turn is led to in one. -/
theorem path_join_leads {base path : String} {q : Dir} (hopen : open_directory fs p base = .ok q)
    (hlocate : locate_at fs p q path = .ok (dst, name)) : base ≠ "" ∧ (split_path path).getLast? = some name ∧
      Leads fs p.root (p.start p.cwd (path_join base path)) (split_path (path_join base path)).dropLast dst := by
  have hbase : base ≠ "" := by
    rintro rfl
    rw [open_directory, if_pos rfl] at hopen
    exact absurd hopen (by simp)
  rw [open_directory, if_neg hbase] at hopen
  unfold locate_at at hlocate
  split at hlocate
  · exact absurd hlocate (by simp)
  · rename_i last hlast
    split at hlocate
    · rename_i dst' hwalk
      obtain ⟨rfl, rfl⟩ := Prod.mk.inj (Except.ok.inj hlocate)
      have hpath : split_path path ≠ [] := by
        intro hnil
        rw [hnil] at hlast
        exact absurd hlast (by simp)
      obtain ⟨hstart, hsplit, -⟩ := path_join_spec p hbase path hpath
      refine ⟨hbase, hlast, ?_⟩
      rw [hstart, hsplit, List.dropLast_append_of_ne_nil hpath]
      have hrest := walk_leads hwalk
      unfold Process.start at hrest
      by_cases habs : is_absolute path = true
      · rw [if_pos habs] at hrest
        rw [if_pos habs, if_pos habs]
        exact hrest
      · rw [if_neg habs] at hrest
        rw [if_neg habs, if_neg habs]
        exact (walk_leads hopen).append hrest
    · exact absurd hlocate (by simp)

/-! ## Losing nothing -/

/-- A file has gone from its name to the path that is reported, and nothing else has. -/
structure Relocated (p : Process) (fs fs' : FileSystem) (dir : Dir) (name reported : String) :
    Prop where
  gone : fs'.entry dir.inode name = none
  there : ∃ i node, fs.entry dir.inode name = some i ∧ fs.node i = some node ∧
    lstat fs' p reported = .ok (i, node)
  others : ∀ d n j, fs.entry d n = some j → ¬(d = dir.inode ∧ n = name) →
    fs'.entry d n = some j

/-- An act has lost nothing: the file is where the report says, or all files are where they
were. -/
def Lossless (p : Process) (fs fs' : FileSystem) (dir : Dir) (name status detail : String) :
    Prop :=
  if status = "quarantined" ∨ status = "moved" then Relocated p fs fs' dir name detail
  else SameFiles fs fs'

/-- Where a quarantine renames, nothing is, and the reported path leads there also when the old
name is gone. -/
def quarantine_safe (executor : Executor) (p : Process) (fs : FileSystem) (faults : Faults)
    (dir : Dir) (name plan_id : String) (item : PlanItem) : Prop :=
  ∀ q dst name', attempt faults.open_quarantine (open_directory fs p executor.quarantine_dir) =
      .ok q →
    locate_at fs p q (quarantine_name plan_id item name) = .ok (dst, name') →
    (∃ fs', attempt faults.rename (rename fs dir name dst name') = .ok fs') →
    fs.entry dst.inode name' = none ∧
      locate (fs.remove_entry dir.inode name) p
        (path_join executor.quarantine_dir (quarantine_name plan_id item name)) = .ok (dst, name')

/-- A move that has linked and unlinked has no slash at the end of its `dest_rel`, and one
whose unlink is refused can take its link back. -/
def move_safe (p : Process) (fs : FileSystem) (faults : Faults) (dir : Dir) (name : String)
    (move_root dest_rel : Option String) : Prop :=
  ∀ root dest, move_root.filter (fun r => r ≠ "") = some root →
    dest_rel.filter (fun d => d ≠ "") = some dest →
    ∀ mid dst leaf, move_target p fs faults root dest = some (mid, dst, leaf) →
      ∀ linked, attempt faults.link (link mid dir name dst leaf) = .ok linked →
        match attempt faults.unlink_source (unlink linked dir name) with
        | .ok _ => names_directory dest = false
        | .error _ => faults.unlink_leaf = none

/-- The condition of an item, in the filesystem it is acted on. -/
def lossless_when (blake3 : ByteArray → String) (executor : Executor) (p : Process)
    (fs : FileSystem) (faults : Faults) (dir : Dir) (plan : RemediationPlan) (item : PlanItem) :
    Prop :=
  recheck blake3 fs faults dir (path_name item.path) item = none →
    match item.action with
    | .quarantine => quarantine_safe executor p fs faults dir (path_name item.path) plan.plan_id item
    | .move => move_safe p fs faults dir (path_name item.path) plan.move_root item.dest_rel
    | _ => True

/-! ## The quarantine -/

/-- A name a file was renamed to is a name of its own. -/
theorem rename_reserved {src : Dir} {name' : String} (h : rename fs src name dst name' = .ok fs') :
    reserved name' = false := by
  unfold rename at h
  split_ifs at h with hempty hdev hreserved
  rw [not_or, Bool.not_eq_true, Bool.not_eq_true] at hreserved
  exact hreserved.2

/-- A file renamed to a name nothing has. -/
structure Renamed (fs fs' : FileSystem) (dir : Dir) (name : String) (dst : Dir) (name' : String)
    (i : Inode) (node : Node) : Prop where
  entry : fs.entry dir.inode name = some i
  node : fs.node i = some node
  free : fs.entry dst.inode name' = none
  leaf_name : reserved name' = false
  moved : fs' = (fs.remove_entry dir.inode name).set_entry dst.inode name' i

/-- What has an entry before has it without the old name and with the new one, or is the old
name. -/
theorem Renamed.others {name' : String} (h : Renamed fs fs' dir name dst name' i node) {d : Inode}
    {n : String} {j : Inode} (hj : fs.entry d n = some j) :
    fs'.entry d n = (fs.remove_entry dir.inode name).entry d n := by
  rw [h.moved, FileSystem.entry_set_entry, if_neg]
  rintro ⟨rfl, rfl⟩
  rw [h.free] at hj
  exact absurd hj (by simp)

/-- **A renamed file is where the report says** when the report leads there without the old
name, -/
theorem Renamed.relocated {base path name' : String} (h : Renamed fs fs' dir name dst name' i node)
    (hbase : base ≠ "") (hpath : split_path path ≠ [])
    (hlocate : locate (fs.remove_entry dir.inode name) p (path_join base path) =
      .ok (dst, name')) : Relocated p fs fs' dir name (path_join base path) := by
  have hbranches : KeepsBranches (fs.remove_entry dir.inode name) fs' := by
    intro d n j other hj hother _
    rw [h.moved]
    refine ⟨?_, hother⟩
    rw [FileSystem.entry_set_entry]
    by_cases hkey : d = dst.inode ∧ n = name'
    · have hfree := h.free
      rw [← hkey.1, ← hkey.2] at hfree
      rw [FileSystem.entry_remove_entry, hfree, ite_self] at hj
      exact absurd hj (by simp)
    · rw [if_neg hkey]
      exact hj
  refine ⟨?_, ⟨i, node, h.entry, h.node, ?_⟩, ?_⟩
  · rw [h.others h.entry, FileSystem.entry_remove_entry, if_pos ⟨rfl, rfl⟩]
  · rw [lstat_path_join hbase hpath, locate, locate_keeps hbranches hlocate]
    refine lstat_at_ok.mpr ⟨?_, ?_⟩
    · rw [lookup_eq_entry h.leaf_name, h.moved, FileSystem.entry_set_entry, if_pos ⟨rfl, rfl⟩]
    · rw [h.moved]
      exact h.node
  · intro d n j hj hne
    rw [h.others hj, FileSystem.entry_remove_entry, if_neg hne]
    exact hj

/-- and only then: the way to the report is the way to the quarantine. -/
theorem Renamed.located {q : Dir} {base path name' : String}
    (h : Renamed fs fs' dir name dst name' i node) (hopen : open_directory fs p base = .ok q)
    (hlocate : locate_at fs p q path = .ok (dst, name'))
    (hrelocated : Relocated p fs fs' dir name (path_join base path)) :
    locate (fs.remove_entry dir.inode name) p (path_join base path) = .ok (dst, name') := by
  obtain ⟨hbase, hlast, hleads⟩ := path_join_leads hopen hlocate
  have hpath : split_path path ≠ [] := by
    intro hnil
    rw [hnil] at hlast
    exact absurd hlast (by simp)
  obtain ⟨-, hsplit, -⟩ := path_join_spec p hbase path hpath
  have hlast' : (split_path (path_join base path)).getLast? = some name' := by
    rw [hsplit, List.getLast?_append_of_ne_nil _ hpath]
    exact hlast
  have hentry : ∀ d n j j', fs.entry d n = some j → fs'.entry d n = some j' →
      j' = j ∧ (fs.remove_entry dir.inode name).entry d n = some j := by
    intro d n j j' hj hj'
    rw [h.others hj, FileSystem.entry_remove_entry] at hj'
    rw [FileSystem.entry_remove_entry]
    split_ifs at hj' with hkey
    rw [hj, Option.some.injEq] at hj'
    exact ⟨hj'.symm, by rw [if_neg hkey, hj]⟩
  have hnode : ∀ j n, fs.node j = some n →
      fs'.node j = some n ∧ (fs.remove_entry dir.inode name).node j = some n := by
    intro j n hn
    rw [h.moved]
    exact ⟨hn, hn⟩
  obtain ⟨i', node', -, -, hthere⟩ := hrelocated.there
  rw [lstat_path_join hbase hpath] at hthere
  unfold locate locate_at at hthere ⊢
  rw [hlast'] at hthere ⊢
  dsimp only at hthere ⊢
  split at hthere
  · rename_i d n hfound
    split at hfound
    · rename_i there hwalk
      rw [(walk_agrees hentry hnode hleads hwalk).2]
    · exact absurd hfound (by simp)
  · exact absurd hthere (by simp)

/-- **A rename that relocates** is one to a name nothing has, reported by a path that leads there
without the old name. -/
theorem rename_relocated {q : Dir} {base path name' : String}
    (hi : fs.entry dir.inode name = some i) (hnode : fs.node i = some node)
    (hopen : open_directory fs p base = .ok q) (hlocate : locate_at fs p q path = .ok (dst, name'))
    (hrename : rename fs dir name dst name' = .ok fs') : Relocated p fs fs' dir name (path_join base path) ↔
      fs.entry dst.inode name' = none ∧
        locate (fs.remove_entry dir.inode name) p (path_join base path) = .ok (dst, name') := by
  obtain ⟨hbase, hlast, -⟩ := path_join_leads hopen hlocate
  have hpath : split_path path ≠ [] := by
    intro hnil
    rw [hnil] at hlast
    exact absurd hlast (by simp)
  obtain ⟨j, -, hj, hcase⟩ := rename_spec hrename
  rw [hi, Option.some.injEq] at hj
  subst hj
  have hrenamed : fs.entry dst.inode name' = none → Renamed fs fs' dir name dst name' i node := by
    intro hnone
    obtain ⟨hsame, -⟩ | ⟨-, hfs'⟩ := hcase
    · rw [hnone] at hsame
      exact absurd hsame (by simp)
    · exact ⟨hi, hnode, hnone, rename_reserved hrename, hfs'⟩
  constructor
  · intro hrelocated
    have hnone : fs.entry dst.inode name' = none := by
      by_contra hsome
      obtain ⟨found, hfound⟩ := Option.ne_none_iff_exists'.mp hsome
      obtain ⟨-, hfs'⟩ | ⟨hreplaced, hfs'⟩ := hcase
      · -- two names of one inode: the old name is still there
        have hgone := hrelocated.gone
        rw [hfs', hi] at hgone
        exact absurd hgone (by simp)
      · -- what had the name has been replaced
        obtain ⟨hne, -⟩ := hreplaced found hfound
        have hkept := hrelocated.others _ _ _ hfound (by
          rintro ⟨hd, hn⟩
          rw [hd, hn, hi, Option.some.injEq] at hfound
          exact hne hfound.symm)
        rw [hfs', FileSystem.entry_set_entry, if_pos ⟨rfl, rfl⟩, Option.some.injEq] at hkept
        exact hne hkept.symm
    exact ⟨hnone, (hrenamed hnone).located hopen hlocate hrelocated⟩
  · rintro ⟨hnone, hleads⟩
    exact (hrenamed hnone).relocated hbase hpath hleads

/-! ## The move -/

/-- The way to the path a move reports. -/
theorem reported_path {root dest leaf : String} (hroot : root ≠ "") (hlast : (dest_parts dest).getLast? = some leaf)
    (hparts : ∀ part ∈ dest_parts dest, part ≠ ".." ∧ part ≠ ".") :
    p.start p.cwd (rstrip_slash root ++ "/" ++ dest) = p.start p.cwd root ∧
      split_path (rstrip_slash root ++ "/" ++ dest) = split_path root ++ (dest_parts dest).dropLast ++ [leaf] := by
  refine ⟨?_, ?_⟩
  · rw [Process.start, Process.start, is_absolute_rstrip_slash hroot]
  · rw [split_path_append_slash, split_path_rstrip_slash,
      split_path_dest fun part hpart => (hparts part hpart).2, List.append_assoc,
      List.dropLast_append_getLast? _ hlast]

variable {faults : Faults} {blake3 : ByteArray → String} {item : PlanItem}

/-- **A move that links and unlinks** has the file at the path it reports, unless that path can
only name a directory. -/
theorem linked_relocated {mid : FileSystem} {root dest leaf : String} {j : Inode} (hroot : root ≠ "")
    (htarget : move_target p fs faults root dest = some (mid, dst, leaf)) (hi : fs.entry dir.inode name = some i)
    (hnode : fs.node i = some node) (hsymlink : ∀ target, node ≠ .symlink target)
    (hlinked : Linked mid dir name dst leaf j) (hunlink : unlink (mid.set_entry dst.inode leaf j) dir name = .ok fs') :
    Relocated p fs fs' dir name (rstrip_slash root ++ "/" ++ dest) ↔ names_directory dest = false := by
  obtain ⟨hsame, hlast, hparts, hwalk⟩ := move_target_spec hroot htarget
  obtain ⟨hstart, hsplit⟩ := reported_path (p := p) hroot hlast hparts
  obtain ⟨_, hreserved, -, -, hfs'⟩ := unlink_spec hunlink
  have hj := hlinked.looked_up
  rw [lookup_eq_entry hreserved, hsame.entry _ _ _ hi, Option.some.injEq] at hj
  subst hj
  have hnode' := hsame.node i node hnode
  have hleaf : node.is_branch = false := by
    cases node with
    | file _ => rfl
    | special _ _ => rfl
    | symlink target => exact absurd rfl (hsymlink target)
    | directory size => exact absurd hnode' (hlinked.not_directory size)
  have hother : ¬(dst.inode = dir.inode ∧ leaf = name) := by
    rintro ⟨hd, hn⟩
    have hnone := hlinked.not_there
    rw [hd, hn, hsame.entry _ _ _ hi] at hnone
    exact absurd hnone (by simp)
  have hleaf_entry : fs'.entry dst.inode leaf = some i := by
    rw [hfs', FileSystem.entry_remove_entry, if_neg hother, FileSystem.entry_set_entry,
      if_pos ⟨rfl, rfl⟩]
  have hkept : ∀ d n k, mid.entry d n = some k → ¬(d = dir.inode ∧ n = name) →
      fs'.entry d n = some k := by
    intro d n k hk hne
    rw [hfs', FileSystem.entry_remove_entry, if_neg hne, FileSystem.entry_set_entry, if_neg]
    · exact hk
    · rintro ⟨rfl, rfl⟩
      rw [hlinked.not_there] at hk
      exact absurd hk (by simp)
  have hbranches : KeepsBranches mid fs' := by
    intro d n k other hk hother' hbranch
    refine ⟨hkept d n k hk ?_, by rw [hfs']; exact hother'⟩
    rintro ⟨rfl, rfl⟩
    rw [hsame.entry _ _ _ hi, Option.some.injEq] at hk
    rw [← hk, hnode', Option.some.injEq] at hother'
    rw [← hother', hleaf] at hbranch
    exact absurd hbranch (by simp)
  have hway := walk_keeps hbranches hwalk
  have hfs_node : fs'.node i = some node := by
    rw [hfs']
    exact hnode'
  constructor
  · rintro ⟨-, ⟨i', node', -, -, hthere⟩, -⟩
    rcases hdir : names_directory dest with _ | _
    · rfl
    · -- behind a file the path goes on to nothing
      obtain ⟨left, hleft⟩ := walk_append hway
      have hstuck : ∀ k other, fs'.entry dst.inode leaf = some k → fs'.node k = some other →
          other.is_branch = false := by
        intro k other hk hother'
        rw [hleaf_entry, Option.some.injEq] at hk
        rw [← hk, hfs_node, Option.some.injEq] at hother'
        rw [← hother']
        exact hleaf
      have hbehind : ∃ e, walk fs' p.root left dst [leaf] = .error e :=
        walk_stuck left (hparts leaf (List.mem_of_getLast? hlast)).1 hstuck []
      obtain ⟨e, he⟩ := hbehind
      have hopen : open_directory fs' p (rstrip_slash root ++ "/" ++ dest) = .error e ∨
          open_directory fs' p (rstrip_slash root ++ "/" ++ dest) = .error ENOENT := by
        rw [open_directory]
        split_ifs
        · exact Or.inr rfl
        · rw [hstart, hsplit, hleft, he]
          exact Or.inl rfl
      rw [lstat, names_directory_append_slash, if_pos hdir] at hthere
      obtain hopen | hopen := hopen
      · rw [hopen] at hthere
        exact absurd hthere (by simp)
      · rw [hopen] at hthere
        exact absurd hthere (by simp)
  · intro hdir
    refine ⟨?_, ⟨i, node, hi, hnode, ?_⟩, ?_⟩
    · rw [hfs', FileSystem.entry_remove_entry, if_pos ⟨rfl, rfl⟩]
    · rw [lstat, names_directory_append_slash, if_neg (by simp [hdir]), locate, locate_at, hsplit,
        hstart, List.getLast?_concat, List.dropLast_concat, hway]
      refine lstat_at_ok.mpr ⟨?_, hfs_node⟩
      rw [lookup_eq_entry hlinked.leaf_name]
      exact hleaf_entry
    · intro d n k hk hne
      exact hkept d n k (hsame.entry _ _ _ hk) hne

/-- A file that is left linked is a file more than there was. -/
theorem linked_not_same {mid : FileSystem} {leaf : String} (hsame : SameFiles fs mid)
    (hlinked : Linked mid dir name dst leaf i) : ¬SameFiles fs (mid.set_entry dst.inode leaf i) := by
  intro h
  have hi : (mid.set_entry dst.inode leaf i).entry dst.inode leaf = some i := by
    rw [FileSystem.entry_set_entry, if_pos ⟨rfl, rfl⟩]
  obtain hold | ⟨-, size, hsize⟩ := h.back _ _ _ hi
  · have hmid := hsame.entry _ _ _ hold
    rw [hlinked.not_there] at hmid
    exact absurd hmid (by simp)
  · exact hlinked.not_directory size hsize

/-! ## An act -/

theorem lossless_same {status detail : String} (hstatus : status = "aborted_drift" ∨ status = "skipped_disabled") :
    Lossless p fs fs' dir name status detail ↔ SameFiles fs fs' := by
  rw [Lossless, if_neg]
  rcases hstatus with rfl | rfl
  · decide
  · decide

theorem quarantine_lossless {executor : Executor} {plan_id status detail : String}
    (hfound : Rechecked blake3 fs dir name item i node)
    (hres : (quarantine executor p fs faults dir name plan_id item).result = .ok (status, detail)) :
    Lossless p fs (quarantine executor p fs faults dir name plan_id item).fs dir name status
        detail ↔ quarantine_safe executor p fs faults dir name plan_id item := by
  unfold quarantine at hres ⊢
  unfold quarantine_safe
  dsimp only at hres ⊢
  split at hres
  · exact absurd hres (by simp)
  · rename_i q hopen
    split_ifs at hres with hnul
    split at hres
    · -- a rename that is refused changes nothing
      rename_i e hrefused
      obtain ⟨hstatus, -⟩ := Prod.mk.inj (Except.ok.inj hres)
      rw [hopen, if_neg hnul, lossless_same (Or.inl hstatus.symm)]
      refine iff_of_true (SameFiles.refl fs) ?_
      rintro q' dst name' hq hlocate ⟨fs', hrename⟩
      rw [← Except.ok.inj hq] at hlocate
      have hcall := attempt_ok hrename
      cases hfault : faults.rename with
      | some e' =>
          rw [hfault] at hrename
          exact absurd hrename (by simp [attempt])
      | none =>
          rw [hfault, attempt, quarantine_rename, hlocate] at hrefused
          dsimp only at hrefused
          rw [hcall] at hrefused
          exact absurd hrefused (by simp)
    · rename_i fs' op hmoved
      obtain ⟨hstatus, hdetail⟩ := Prod.mk.inj (Except.ok.inj hres)
      rw [hopen, if_neg hnul, ← hstatus, ← hdetail, Lossless, if_pos (Or.inl rfl)]
      have hcall := attempt_ok hmoved
      unfold quarantine_rename at hcall
      split at hcall
      · exact absurd hcall (by simp)
      · rename_i dst name' hlocate
        split at hcall
        · exact absurd hcall (by simp)
        · rename_i fs'' hrename
          obtain ⟨rfl, -⟩ := Prod.mk.inj (Except.ok.inj hcall)
          obtain ⟨_, hreserved, -, -⟩ := rename_spec hrename
          have hi := hfound.looked_up
          rw [lookup_eq_entry hreserved] at hi
          rw [rename_relocated hi hfound.found (attempt_ok hopen) hlocate hrename]
          constructor
          · intro hsafe q' dst' name'' hq hlocate' _
            rw [← Except.ok.inj hq, hlocate] at hlocate'
            obtain ⟨rfl, rfl⟩ := Prod.mk.inj (Except.ok.inj hlocate')
            exact hsafe
          · intro hsafe
            refine hsafe q dst name' rfl hlocate ⟨fs'', ?_⟩
            cases hfault : faults.rename with
            | some e' =>
                rw [hfault] at hmoved
                exact absurd hmoved (by simp [attempt])
            | none => exact hrename

theorem move_lossless {status detail : String} {move_root dest_rel : Option String}
    (hfound : Rechecked blake3 fs dir name item i node)
    (hres : (move p fs faults dir name move_root dest_rel).result = .ok (status, detail)) :
    Lossless p fs (move p fs faults dir name move_root dest_rel).fs dir name status detail ↔
      move_safe p fs faults dir name move_root dest_rel := by
  by_cases htarget : ∃ root dest mid dst leaf, move_root.filter (fun r => r ≠ "") = some root ∧
      dest_rel.filter (fun d => d ≠ "") = some dest ∧
      move_target p fs faults root dest = some (mid, dst, leaf)
  · obtain ⟨root, dest, mid, dst, leaf, hroot, hdest, htarget⟩ := htarget
    have hne : root ≠ "" := by
      have hkeep := (Option.filter_eq_some_iff.mp hroot).2
      simpa using hkeep
    have hsame := (move_target_spec hne htarget).1
    obtain ⟨hfs, hresult⟩ := @move_at_target fs p faults name root dest leaf mid dir dst _ _ hroot
      hdest htarget
    rw [hresult] at hres
    rw [hfs]
    -- the one target of the move is this one
    have hsafe : move_safe p fs faults dir name move_root dest_rel ↔
        ∀ linked, attempt faults.link (link mid dir name dst leaf) = .ok linked →
          match attempt faults.unlink_source (unlink linked dir name) with
          | .ok _ => names_directory dest = false
          | .error _ => faults.unlink_leaf = none := by
      constructor
      · intro h
        exact h root dest hroot hdest mid dst leaf htarget
      · intro h root' dest' hroot' hdest' mid' dst' leaf' htarget'
        rw [hroot, Option.some.injEq] at hroot'
        rw [hdest, Option.some.injEq] at hdest'
        rw [← hroot', ← hdest', htarget, Option.some.injEq, Prod.mk.injEq,
          Prod.mk.injEq] at htarget'
        rw [← htarget'.1, ← htarget'.2.1, ← htarget'.2.2, ← hdest']
        exact h
    rw [hsafe]
    obtain ⟨hkept, ⟨detail', hres'⟩, hundone⟩ | ⟨j, hlinked, hlink, hdone⟩ :=
      link_and_unlink_exits mid faults dir name dst leaf (rstrip_slash root ++ "/" ++ dest)
    · rw [hres'] at hres
      obtain ⟨hstatus, -⟩ := Prod.mk.inj (Except.ok.inj hres)
      rw [lossless_same (Or.inl hstatus.symm)]
      refine iff_of_true (hsame.trans hkept) fun linked hlink => ?_
      obtain ⟨⟨e, he⟩, hleaf⟩ := hundone linked hlink
      rw [he]
      exact hleaf
    · have honly : (∀ linked, attempt faults.link (link mid dir name dst leaf) = .ok linked →
            match attempt faults.unlink_source (unlink linked dir name) with
            | .ok _ => names_directory dest = false
            | .error _ => faults.unlink_leaf = none) ↔
          match attempt faults.unlink_source (unlink (mid.set_entry dst.inode leaf j) dir name) with
          | .ok _ => names_directory dest = false
          | .error _ => faults.unlink_leaf = none := by
        rw [hlink]
        constructor
        · intro h
          exact h _ rfl
        · intro h linked heq
          rw [← Except.ok.inj heq]
          exact h
      rw [honly]
      obtain ⟨hunlink, hres'⟩ | ⟨⟨e, he⟩, hfault, hleft, detail', hres'⟩ := hdone
      · rw [hres'] at hres
        obtain ⟨hstatus, hdetail⟩ := Prod.mk.inj (Except.ok.inj hres)
        have hcall := attempt_ok hunlink
        obtain ⟨_, hreserved, -, -, -⟩ := unlink_spec hcall
        have hi := hfound.looked_up
        rw [lookup_eq_entry hreserved] at hi
        rw [hunlink, ← hstatus, ← hdetail, Lossless, if_pos (Or.inr rfl)]
        exact linked_relocated hne htarget hi hfound.found hfound.not_symlink hlinked hcall
      · rw [hres'] at hres
        obtain ⟨hstatus, -⟩ := Prod.mk.inj (Except.ok.inj hres)
        rw [lossless_same (Or.inl hstatus.symm), hleft, he]
        exact iff_of_false (linked_not_same hsame hlinked) hfault
  · have hnone : ∀ root dest, move_root.filter (fun r => r ≠ "") = some root →
        dest_rel.filter (fun d => d ≠ "") = some dest →
        move_target p fs faults root dest = none := by
      intro root dest hroot hdest
      by_contra hsome
      obtain ⟨⟨mid, dst, leaf⟩, hsome⟩ := Option.ne_none_iff_exists'.mp hsome
      exact htarget ⟨root, dest, mid, dst, leaf, hroot, hdest, hsome⟩
    obtain ⟨hsame, hstatus⟩ := @move_no_target fs p faults name dir _ _ hnone
    rw [lossless_same (hstatus status detail hres)]
    refine iff_of_true hsame ?_
    intro root dest hroot hdest mid dst leaf hsome
    rw [hnone root dest hroot hdest] at hsome
    exact absurd hsome (by simp)

/-- What an act that returns has done: nothing, to an item that has drifted, or its mutation. -/
theorem act_returned {executor : Executor} {chain : AuditChain} {now now' : Timestamp} {plan : RemediationPlan}
    {result : ExecResult} {records : List AuditRecord} (hdir : open_parent fs p item.path = .ok dir)
    (hres : (act blake3 executor p fs chain faults now now' plan item).result = .ok (result, records)) :
    ((∃ drift, recheck blake3 fs faults dir (path_name item.path) item = some drift) ∧ result.status = "aborted_drift" ∧
        (act blake3 executor p fs chain faults now now' plan item).fs = fs) ∨
      (recheck blake3 fs faults dir (path_name item.path) item = none ∧
        (act blake3 executor p fs chain faults now now' plan item).fs =
          (mutate executor p fs faults dir (path_name item.path) plan item).fs ∧
        (mutate executor p fs faults dir (path_name item.path) plan item).result =
          .ok (result.status, result.detail)) := by
  have hexit := @act_exit blake3 executor p fs chain faults now now' plan item
  generalize act blake3 executor p fs chain faults now now' plan item = acted at hexit hres ⊢
  cases hexit with
  | stopped e he => exact absurd hres (by simp)
  | drifted dir' drift hopen hdrift =>
      rw [hdir, Except.ok.injEq] at hopen
      rw [← hopen] at hdrift
      obtain ⟨rfl, -⟩ := Prod.mk.inj (Except.ok.inj hres)
      exact Or.inl ⟨⟨drift, hdrift⟩, rfl, rfl⟩
  | raised dir' e hopen hrecheck hmutate => exact absurd hres (by simp)
  | unrecorded dir' status detail hopen hrecheck hmutate => exact absurd hres (by simp)
  | done dir' status detail hopen hrecheck hmutate =>
      rw [hdir, Except.ok.injEq] at hopen
      subst hopen
      obtain ⟨rfl, -⟩ := Prod.mk.inj (Except.ok.inj hres)
      exact Or.inr ⟨hrecheck, rfl, hmutate⟩

/-- **An act loses nothing exactly when** its quarantine renames to a name that nothing has and
whose path does not go by the old one, and its move reports no directory and can take back its
link. -/
theorem lossless_iff {blake3 : ByteArray → String} {executor : Executor} {p : Process}
    {fs : FileSystem} {chain : AuditChain} {faults : Faults} {now now' : Timestamp}
    {plan : RemediationPlan} {item : PlanItem} {dir : Dir} {result : ExecResult}
    {records : List AuditRecord} (hact : item.action ≠ .hard_delete)
    (hdir : open_parent fs p item.path = .ok dir)
    (hres : (act blake3 executor p fs chain faults now now' plan item).result =
      .ok (result, records)) :
    Lossless p fs (act blake3 executor p fs chain faults now now' plan item).fs dir
        (path_name item.path) result.status result.detail ↔
      lossless_when blake3 executor p fs faults dir plan item := by
  obtain ⟨⟨drift, hdrift⟩, hstatus, hfs⟩ | ⟨hrecheck, hfs, hmutate⟩ := act_returned hdir hres
  · rw [lossless_same (Or.inl hstatus), hfs, lossless_when, hdrift]
    exact iff_of_true (SameFiles.refl fs) fun h => absurd h (by simp)
  · obtain ⟨i, node, hfound⟩ := recheck_spec hrecheck
    have hwhen : lossless_when blake3 executor p fs faults dir plan item ↔
        match item.action with
        | .quarantine =>
          quarantine_safe executor p fs faults dir (path_name item.path) plan.plan_id item
        | .move => move_safe p fs faults dir (path_name item.path) plan.move_root item.dest_rel
        | _ => True := ⟨fun h => h hrecheck, fun h _ => h⟩
    rw [hwhen, hfs]
    unfold mutate at hmutate ⊢
    cases haction : item.action with
    | quarantine =>
        rw [haction] at hmutate
        exact quarantine_lossless hfound hmutate
    | move =>
        rw [haction] at hmutate
        exact move_lossless hfound hmutate
    | hard_delete => exact absurd haction hact
    | hardlink =>
        rw [haction] at hmutate
        obtain ⟨hstatus, -⟩ := Prod.mk.inj (Except.ok.inj hmutate)
        rw [lossless_same (Or.inr hstatus.symm)]
        exact iff_of_true (SameFiles.refl fs) trivial

/-! ### A host with hard links -/

/-- Two directories with a hard link each of one file, and a quarantine the first of them has
been renamed to. -/
def linked_copies : FileSystem :=
  .of_tables
    [(⟨1, 2⟩, .directory 4096), (⟨1, 3⟩, .directory 4096), (⟨1, 4⟩, .directory 4096),
      (⟨1, 42⟩, .file ⟨#[1, 2, 3]⟩)]
    [(⟨1, 2⟩, [("b", ⟨1, 3⟩), ("q", ⟨1, 4⟩)]), (⟨1, 3⟩, [("x", ⟨1, 42⟩)]),
      (⟨1, 4⟩, [("plan-1__42__x", ⟨1, 42⟩)])]

/-- The second of the two. -/
def linked_item : PlanItem where
  entry_id := .int 13
  path := "/b/x"
  prior_inode := 42
  prior_size := 3
  prior_hash := some "9f"
  action := .quarantine
  dest_rel := none

/-- The plan of both. -/
def linked_plan : RemediationPlan where
  plan_id := "plan-1"
  created_by := "orchestrator"
  keeper_path := "/data/k"
  items := [{ linked_item with path := "/a/x" }, linked_item]
  move_root := none
  plan_id_ne := second_copy_job.plan_id_ne
  created_by_ne := orchestrator_ne
  items_ne := by decide

/-- The act on the second link, when the first is in the quarantine. -/
def linked_act (fs : FileSystem) : Acted :=
  act (fun _ => "9f") sample_dispatcher.executor sample_dispatcher.process fs
    ⟨[], Fathom.Audit.GENESIS_HASH⟩ no_faults sample_time sample_time linked_plan linked_item

/-- The second link is reported as quarantined, and it is where it was. -/
theorem quarantine_leaves_source :
    ∃ result records, (linked_act linked_copies).result = .ok (result, records) ∧
      result.status = "quarantined" ∧
      (linked_act linked_copies).fs.entry ⟨1, 3⟩ "x" = some ⟨1, 42⟩ ∧
      ¬Lossless sample_dispatcher.process linked_copies (linked_act linked_copies).fs
        ⟨⟨1, 3⟩, [⟨1, 2⟩]⟩ "x" result.status result.detail := by
  refine ⟨_, _, rfl, rfl, rfl, ?_⟩
  rw [Lossless, if_pos (Or.inl rfl)]
  intro hrelocated
  have hgone := hrelocated.gone
  have hthere : (linked_act linked_copies).fs.entry ⟨1, 3⟩ "x" = some ⟨1, 42⟩ := rfl
  rw [hthere] at hgone
  exact absurd hgone (by simp)

/-- Without the first link in the quarantine nothing is lost. -/
theorem lossless_first_link :
    ∃ result records,
      (linked_act (linked_copies.remove_entry ⟨1, 4⟩ "plan-1__42__x")).result =
        .ok (result, records) ∧
      (Lossless sample_dispatcher.process (linked_copies.remove_entry ⟨1, 4⟩ "plan-1__42__x")
          (linked_act (linked_copies.remove_entry ⟨1, 4⟩ "plan-1__42__x")).fs
          ⟨⟨1, 3⟩, [⟨1, 2⟩]⟩ (path_name linked_item.path) result.status result.detail ↔
        lossless_when (fun _ => "9f") sample_dispatcher.executor sample_dispatcher.process
          (linked_copies.remove_entry ⟨1, 4⟩ "plan-1__42__x") no_faults ⟨⟨1, 3⟩, [⟨1, 2⟩]⟩
          linked_plan linked_item) :=
  ⟨_, _, rfl, lossless_iff (by decide) rfl rfl⟩

end Fathom.Actor
