/-
**The metadata walk** (`backends/posix.py`) and the tree it walks.

A tree is what the filesystem holds below a scan root at one moment. Names lead to
inodes, and what a `stat` says is said by the inode, so two names of one file agree
on it. A tree also says what cannot be read: an entry whose `stat` raises, and the
place in a directory at which `os.scandir` raises. What stands behind an obstacle is
in the tree all the same, and no walk reports it.

`PosixBackend.walk` is `Tree.walk`, up to the order of the entries, which is up to
the worker pool. What it reports is said independently of it by `Tree.Holds`.
-/
import Fathom.Agent.Staging

set_option autoImplicit false

namespace Fathom.Agent

open Fathom.Ingest (Identity)
open Fathom.Security (Name IsName absolute normpath)

/-! ## Excludes -/

/-- `normalise_excludes`. -/
def normalise_excludes (exclude : List String) : List (List Char) :=
  (exclude.filter fun e => e ≠ "").map fun e => normpath e.toList

/-- `is_excluded_path`. -/
def is_excluded_path (path : List Char) (excluded : List (List Char)) : Bool :=
  if excluded = [] then false
  else
    let p := normpath path
    excluded.any fun e => p = e || (e ++ ['/']).isPrefixOf p

/-! ## Inodes -/

/-- `_to_signed64`: identities are stored signed. -/
def to_signed64 (value : UInt64) : Int :=
  if value.toNat > 2 ^ 63 - 1 then (value.toNat : Int) - 2 ^ 64 else value.toNat

theorem to_signed64_injective : Function.Injective to_signed64 := by
  intro a b h
  have ha := a.toNat_lt
  have hb := b.toNat_lt
  apply UInt64.toNat_inj.mp
  rw [to_signed64, to_signed64] at h
  split at h
  · split at h <;> omega
  · split at h <;> omega

/-- A device and an inode number of it. -/
structure Node where
  st_dev : UInt64
  st_ino : UInt64
  deriving DecidableEq

/-- The identity a node is staged under. -/
def Node.identity (n : Node) : Identity := ⟨to_signed64 n.st_dev, to_signed64 n.st_ino⟩

theorem Node.identity_injective : Function.Injective Node.identity := by
  intro n m h
  rw [Node.identity, Node.identity, Identity.mk.injEq] at h
  cases n
  cases m
  rw [Node.mk.injEq]
  exact ⟨to_signed64_injective h.1, to_signed64_injective h.2⟩

/-- What the inode says of a file. -/
structure Stat where
  st_size : ℕ
  st_blocks : ℕ
  st_mtime : ℚ
  st_ctime : ℚ
  st_uid : Int
  st_gid : Int

/-! ## Trees -/

/-- A name a directory entry can have. -/
abbrev FileName := { name : Name // IsName name }

/-- The text of an absolute path. -/
def path_text (names : List FileName) : String :=
  String.ofList (absolute (names.map Subtype.val))

/-- One entry of a directory. `fault` says that its `stat` raises. -/
structure Dirent where
  name : FileName
  node : Node
  fault : Bool

/-- What a directory holds, in the order `os.scandir` yields it. -/
inductive Listing where
  | nil
  /-- `os.scandir` raises here; the rest is there and is not listed -/
  | raised (rest : Listing)
  /-- anything but a directory -/
  | leaf (d : Dirent) (is_symlink : Bool) (next : Listing)
  | dir (d : Dirent) (children next : Listing)

/-- What the filesystem holds at and below a scan root, which is a directory.
`fault` says that the `lstat` of the root raises. -/
structure Tree where
  inodes : Node → Stat
  node : Node
  fault : Bool
  listing : Listing

/-! ## The walk -/

/-- What a walk is told. -/
structure Scope where
  one_filesystem : Bool
  excluded : List (List Char)

/-- Whether a path is pruned. -/
def Scope.prunes (scope : Scope) (path : List FileName) : Bool :=
  is_excluded_path (absolute (path.map Subtype.val)) scope.excluded

/-- `PosixBackend._entry`. -/
def make_entry (inodes : Node → Stat) (path : List FileName) (name : String) (node : Node)
    (is_dir is_symlink : Bool) : FsEntry :=
  let stat := inodes node
  let size_on_disk := stat.st_blocks * 512
  { path := path_text path
    name
    is_dir
    is_symlink
    size_logical := stat.st_size
    size_on_disk
    mtime := stat.st_mtime
    ctime := stat.st_ctime
    uid := stat.st_uid
    gid := stat.st_gid
    inode := to_signed64 node.st_ino
    dev := to_signed64 node.st_dev
    flags := if is_dir = false ∧ is_symlink = false ∧ size_on_disk < stat.st_size then [("sparse", true)]
      else [] }

/-- `Path(root).name or root`. -/
def root_name (root : List FileName) : String :=
  match root.getLast? with
  | some name => String.ofList name.val
  | none => path_text root

/-- `PosixBackend._scan_dir` and the descents it asks for. -/
def Listing.walk (scope : Scope) (inodes : Node → Stat) (root_dev : UInt64) (path : List FileName) :
    Listing → List FsEntry
  | .nil => []
  | .raised _ => []
  | .leaf d is_symlink next =>
    let here := path ++ [d.name]
    (if scope.prunes here then []
      else if d.fault then []
      else [make_entry inodes here (String.ofList d.name.val) d.node false is_symlink]) ++
      next.walk scope inodes root_dev path
  | .dir d children next =>
    let here := path ++ [d.name]
    (if scope.prunes here then []
      else if d.fault then []
      else
        make_entry inodes here (String.ofList d.name.val) d.node true false ::
          -- a mount point is reported; whether it is entered is `_should_descend`
          (if scope.one_filesystem ∧ d.node.st_dev ≠ root_dev then []
            else children.walk scope inodes root_dev here)) ++
      next.walk scope inodes root_dev path

/-- `PosixBackend.walk`, of a root whose real path is given. -/
def Tree.walk (tree : Tree) (scope : Scope) (root : List FileName) : List FsEntry :=
  if scope.prunes root then []
  else if tree.fault then []
  else
    make_entry tree.inodes root (root_name root) tree.node true false ::
      tree.listing.walk scope tree.inodes tree.node.st_dev root

/-! ## What a tree holds -/

/-- **A name stands below a directory**, in scope: neither it nor a directory on the
way is excluded and, where the scope is one filesystem, no directory on the way is
on another device. It is readable when no `stat` and no listing on the way
raises. -/
inductive Listing.Holds (scope : Scope) (root_dev : UInt64) (readable : Bool) :
    List FileName → Listing → List FileName → Node → Prop
  | leaf {path d is_symlink next} (hscope : scope.prunes (path ++ [d.name]) = false)
      (hfault : readable = true → d.fault = false) :
      Holds scope root_dev readable path (.leaf d is_symlink next) (path ++ [d.name]) d.node
  | dir {path d children next} (hscope : scope.prunes (path ++ [d.name]) = false)
      (hfault : readable = true → d.fault = false) :
      Holds scope root_dev readable path (.dir d children next) (path ++ [d.name]) d.node
  | inside {path d children next names node} (hscope : scope.prunes (path ++ [d.name]) = false)
      (hfault : readable = true → d.fault = false)
      (hmount : scope.one_filesystem = true → d.node.st_dev = root_dev)
      (hinside : Holds scope root_dev readable (path ++ [d.name]) children names node) :
      Holds scope root_dev readable path (.dir d children next) names node
  | past_leaf {path d is_symlink next names node}
      (hnext : Holds scope root_dev readable path next names node) :
      Holds scope root_dev readable path (.leaf d is_symlink next) names node
  | past_dir {path d children next names node}
      (hnext : Holds scope root_dev readable path next names node) :
      Holds scope root_dev readable path (.dir d children next) names node
  | past_raise {path rest names node} (hreadable : readable = false)
      (hrest : Holds scope root_dev readable path rest names node) :
      Holds scope root_dev readable path (.raised rest) names node

/-- What stands at or below a scan root, in scope. -/
structure Tree.Holds (tree : Tree) (scope : Scope) (root : List FileName) (readable : Bool)
    (names : List FileName) (node : Node) : Prop where
  unpruned : scope.prunes root = false
  statable : readable = true → tree.fault = false
  place : (names = root ∧ node = tree.node) ∨
    tree.listing.Holds scope tree.node.st_dev readable root names node

/-! ## What the walk reports -/

/-- An entry reports a name: its path, its identity and what the inode says. -/
structure Reports (inodes : Node → Stat) (names : List FileName) (node : Node) (e : FsEntry) : Prop where
  path : e.path = path_text names
  identity : e.identity = node.identity
  mtime : e.mtime = (inodes node).st_mtime
  size_logical : e.size_logical = (inodes node).st_size

theorem make_entry_reports (inodes : Node → Stat) (path : List FileName) (name : String) (node : Node)
    (is_dir is_symlink : Bool) :
    Reports inodes path node (make_entry inodes path name node is_dir is_symlink) :=
  ⟨rfl, rfl, rfl, rfl⟩

section

variable {scope : Scope} {inodes : Node → Stat} {root_dev : UInt64}

/-- What a directory walk reports is there and readable. -/
theorem Listing.holds_of_walk {l : Listing} {path : List FileName} {e : FsEntry}
    (h : e ∈ l.walk scope inodes root_dev path) :
    ∃ names node, l.Holds scope root_dev true path names node ∧ Reports inodes names node e := by
  induction l generalizing path with
  | nil => exact absurd h List.not_mem_nil
  | raised rest _ => exact absurd h List.not_mem_nil
  | leaf d is_symlink next ih =>
      rcases List.mem_append.mp h with hhere | hnext
      · split at hhere
        · exact absurd hhere List.not_mem_nil
        rename_i hscope
        split at hhere
        · exact absurd hhere List.not_mem_nil
        rename_i hfault
        rw [List.mem_singleton.mp hhere]
        exact ⟨_, _, .leaf (Bool.eq_false_iff.mpr hscope) (fun _ => Bool.eq_false_iff.mpr hfault),
          make_entry_reports _ _ _ _ _ _⟩
      · obtain ⟨names, node, hholds, hreports⟩ := ih hnext
        exact ⟨names, node, .past_leaf hholds, hreports⟩
  | dir d children next ihc ih =>
      rcases List.mem_append.mp h with hhere | hnext
      · split at hhere
        · exact absurd hhere List.not_mem_nil
        rename_i hscope
        split at hhere
        · exact absurd hhere List.not_mem_nil
        rename_i hfault
        have hscope : scope.prunes (path ++ [d.name]) = false := Bool.eq_false_iff.mpr hscope
        have hfault : true = true → d.fault = false := fun _ => Bool.eq_false_iff.mpr hfault
        rcases List.mem_cons.mp hhere with rfl | hinside
        · exact ⟨_, _, .dir hscope hfault, make_entry_reports _ _ _ _ _ _⟩
        · split at hinside
          · exact absurd hinside List.not_mem_nil
          rename_i hmount
          obtain ⟨names, node, hholds, hreports⟩ := ihc hinside
          refine ⟨names, node, .inside hscope hfault ?_ hholds, hreports⟩
          intro hone
          by_contra hdev
          exact hmount ⟨hone, hdev⟩
      · obtain ⟨names, node, hholds, hreports⟩ := ih hnext
        exact ⟨names, node, .past_dir hholds, hreports⟩

/-- What is there and readable is reported. -/
theorem Listing.Holds.walk {l : Listing} {path names : List FileName} {node : Node}
    (h : l.Holds scope root_dev true path names node) :
    ∃ e ∈ l.walk scope inodes root_dev path, Reports inodes names node e := by
  induction h with
  | @leaf path d is_symlink next hscope hfault =>
      refine ⟨make_entry inodes (path ++ [d.name]) (String.ofList d.name.val) d.node false is_symlink,
        List.mem_append_left _ ?_, make_entry_reports _ _ _ _ _ _⟩
      rw [if_neg (Bool.eq_false_iff.mp hscope), if_neg (Bool.eq_false_iff.mp (hfault rfl))]
      exact List.mem_singleton.mpr rfl
  | @dir path d children next hscope hfault =>
      refine ⟨make_entry inodes (path ++ [d.name]) (String.ofList d.name.val) d.node true false,
        List.mem_append_left _ ?_, make_entry_reports _ _ _ _ _ _⟩
      rw [if_neg (Bool.eq_false_iff.mp hscope), if_neg (Bool.eq_false_iff.mp (hfault rfl))]
      exact List.mem_cons_self
  | inside hscope hfault hmount _ ih =>
      obtain ⟨e, he, hreports⟩ := ih
      refine ⟨e, List.mem_append_left _ ?_, hreports⟩
      rw [if_neg (Bool.eq_false_iff.mp hscope), if_neg (Bool.eq_false_iff.mp (hfault rfl)), if_neg]
      · exact List.mem_cons_of_mem _ he
      · rintro ⟨hone, hdev⟩
        exact hdev (hmount hone)
  | past_leaf _ ih =>
      obtain ⟨e, he, hreports⟩ := ih
      exact ⟨e, List.mem_append_right _ he, hreports⟩
  | past_dir _ ih =>
      obtain ⟨e, he, hreports⟩ := ih
      exact ⟨e, List.mem_append_right _ he, hreports⟩
  | past_raise hreadable _ _ => exact absurd hreadable (by simp)

/-- What stands below a directory has a longer path. -/
theorem Listing.Holds.under_path {l : Listing} {readable : Bool} {path names : List FileName} {node : Node}
    (h : l.Holds scope root_dev readable path names node) : ∃ rest, names = path ++ rest := by
  induction h with
  | leaf _ _ => exact ⟨_, rfl⟩
  | dir _ _ => exact ⟨_, rfl⟩
  | inside _ _ _ _ ih =>
      obtain ⟨rest, hrest⟩ := ih
      rw [hrest, List.append_assoc]
      exact ⟨_, rfl⟩
  | past_leaf _ ih => exact ih
  | past_dir _ ih => exact ih
  | past_raise _ _ ih => exact ih

end

variable {tree : Tree} {scope : Scope} {root : List FileName} {node : Node}

/-- **The walk reports what the tree holds in scope and readable.** -/
theorem Tree.holds_of_walk {e : FsEntry} (h : e ∈ tree.walk scope root) :
    ∃ names node, tree.Holds scope root true names node ∧ Reports tree.inodes names node e := by
  rw [Tree.walk] at h
  split at h
  · exact absurd h List.not_mem_nil
  rename_i hscope
  split at h
  · exact absurd h List.not_mem_nil
  rename_i hfault
  have hscope : scope.prunes root = false := Bool.eq_false_iff.mpr hscope
  have hfault : true = true → tree.fault = false := fun _ => Bool.eq_false_iff.mpr hfault
  rcases List.mem_cons.mp h with rfl | hbelow
  · exact ⟨root, tree.node, ⟨hscope, hfault, Or.inl ⟨rfl, rfl⟩⟩, make_entry_reports _ _ _ _ _ _⟩
  · obtain ⟨names, node, hholds, hreports⟩ := Listing.holds_of_walk hbelow
    exact ⟨names, node, ⟨hscope, hfault, Or.inr hholds⟩, hreports⟩

variable {names : List FileName}

theorem Tree.Holds.walk (h : tree.Holds scope root true names node) :
    ∃ e ∈ tree.walk scope root, Reports tree.inodes names node e := by
  rw [Tree.walk, if_neg (Bool.eq_false_iff.mp h.unpruned), if_neg (Bool.eq_false_iff.mp (h.statable rfl))]
  rcases h.place with ⟨rfl, rfl⟩ | hbelow
  · exact ⟨_, List.mem_cons_self, make_entry_reports _ _ _ _ _ _⟩
  · have hlisted : ∃ e ∈ tree.listing.walk scope tree.inodes tree.node.st_dev root,
        Reports tree.inodes names node e := hbelow.walk
    obtain ⟨e, he, hreports⟩ := hlisted
    exact ⟨e, List.mem_cons_of_mem _ he, hreports⟩

/-- The files of a tree are those its walk has an entry of. -/
theorem Tree.identities_of_walk {walked : List FsEntry} (hperm : walked.Perm (tree.walk scope root))
    {identity : Identity} :
    (∃ names node, tree.Holds scope root true names node ∧ node.identity = identity) ↔
      identity ∈ walked.map FsEntry.identity := by
  rw [List.mem_map]
  constructor
  · rintro ⟨names, node, hholds, rfl⟩
    obtain ⟨e, he, hreports⟩ := hholds.walk
    exact ⟨e, hperm.mem_iff.mpr he, hreports.identity⟩
  · rintro ⟨e, he, rfl⟩
    obtain ⟨names, node, hholds, hreports⟩ := Tree.holds_of_walk (hperm.mem_iff.mp he)
    exact ⟨names, node, hholds, hreports.identity.symm⟩

/-- Whatever stands in a tree has a path at or below the root. -/
theorem Tree.Holds.under_root {readable : Bool} (h : tree.Holds scope root readable names node) :
    ∃ rest, names = root ++ rest := by
  rcases h.place with ⟨rfl, -⟩ | hbelow
  · exact ⟨[], (List.append_nil _).symm⟩
  · exact hbelow.under_path

/-- What a walk that stays on its filesystem may report, every walk may. -/
theorem Listing.Holds.widen {excluded : List (List Char)} {one_filesystem : Bool} {root_dev : UInt64} {readable : Bool}
    {l : Listing} {path : List FileName} (h : l.Holds ⟨true, excluded⟩ root_dev readable path names node) :
    l.Holds ⟨one_filesystem, excluded⟩ root_dev readable path names node := by
  induction h with
  | leaf hscope hfault => exact .leaf hscope hfault
  | dir hscope hfault => exact .dir hscope hfault
  | inside hscope hfault hmount _ ih => exact .inside hscope hfault (fun _ => hmount rfl) ih
  | past_leaf _ ih => exact .past_leaf ih
  | past_dir _ ih => exact .past_dir ih
  | past_raise hreadable _ ih => exact .past_raise hreadable ih

theorem Tree.Holds.widen {excluded : List (List Char)} {one_filesystem readable : Bool}
    (h : tree.Holds ⟨true, excluded⟩ root readable names node) :
    tree.Holds ⟨one_filesystem, excluded⟩ root readable names node := by
  refine ⟨h.unpruned, h.statable, ?_⟩
  rcases h.place with hroot | hbelow
  · exact Or.inl hroot
  · exact Or.inr hbelow.widen

/-- Two reports of one file agree on what its inode says. -/
theorem Tree.walk_agree {scope' : Scope} {e e' : FsEntry} (he : e ∈ tree.walk scope root)
    (he' : e' ∈ tree.walk scope' root) (h : e.identity = e'.identity) :
    e.mtime = e'.mtime ∧ e.size_logical = e'.size_logical := by
  obtain ⟨names, node, -, hreports⟩ := Tree.holds_of_walk he
  obtain ⟨names', node', -, hreports'⟩ := Tree.holds_of_walk he'
  rw [hreports.identity, hreports'.identity] at h
  have hnode := Node.identity_injective h
  rw [hreports.mtime, hreports'.mtime, hreports.size_logical, hreports'.size_logical, hnode]
  exact ⟨rfl, rfl⟩

end Fathom.Agent
