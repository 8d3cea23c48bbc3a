/-
**Filesystems**, as a process sees them through its system calls: inodes, directory
entries, symbolic links, and the calls that change a name.

A filesystem is a graph: directories hold entries, an entry leads to an inode, and
an inode may be reached by many entries (hard links), by a mount in several places,
or from the namespaces of several machines (a network mount). A process has a root
and a working directory; a directory is carried with the directories it was
reached through, so that `..` is what the kernel makes of it.

A call that succeeds takes away at most the entries it names and adds at most one
(`Keeps`); directories that were reached before are reached after (`walk_keeps`).
What the calls refuse is an error number; permissions, busy files and failing disks
are left to the caller, who may let any call fail.
-/
import Mathlib.Data.List.Basic
import Mathlib.Order.Basic
import Mathlib.Logic.Function.Basic

set_option autoImplicit false

namespace Fathom.Filesystem

scoped instance bytes_decidable_eq : DecidableEq ByteArray := ByteArray.instDecidableEq

/-! ## The graph -/

/-- A device and an inode number on it. -/
structure Inode where
  dev : ℕ
  ino : ℕ
  deriving DecidableEq

/-- What an inode is. A special file has whatever reading it returns. -/
inductive Node where
  | file (content : ByteArray)
  | directory (size : ℕ)
  | symlink (target : String)
  | special (size : ℕ) (content : ByteArray)
  deriving DecidableEq

/-- `st_size`. -/
def Node.size : Node → ℕ
  | .file content => content.size
  | .directory size => size
  | .symlink target => target.utf8ByteSize
  | .special size _ => size

/-- A path can go on behind the node: a directory or a symbolic link. -/
def Node.is_branch : Node → Bool
  | .directory _ => true
  | .symlink _ => true
  | _ => false

/-- Inodes and directory entries. Inode numbers from `bound` on are free. -/
structure FileSystem where
  node : Inode → Option Node
  entries : Inode → List (String × Inode)
  bound : ℕ
  free : ∀ i, bound ≤ i.ino → node i = none ∧ entries i = []

/-- The inode an entry of a directory leads to. -/
def FileSystem.entry (fs : FileSystem) (dir : Inode) (name : String) : Option Inode :=
  (fs.entries dir).lookup name

/-- An entry of a directory is set to an inode. -/
def FileSystem.set_entry (fs : FileSystem) (dir : Inode) (name : String) (i : Inode) :
    FileSystem where
  node := fs.node
  entries := Function.update fs.entries dir
    ((fs.entries dir).filter (fun e => e.1 ≠ name) ++ [(name, i)])
  bound := max fs.bound (dir.ino + 1)
  free := by
    intro j hj
    have hne : j ≠ dir := by
      rintro rfl
      omega
    rw [Function.update_of_ne hne]
    apply fs.free
    omega

/-- An entry of a directory is removed. -/
def FileSystem.remove_entry (fs : FileSystem) (dir : Inode) (name : String) : FileSystem where
  node := fs.node
  entries := Function.update fs.entries dir ((fs.entries dir).filter fun e => e.1 ≠ name)
  bound := fs.bound
  free := by
    intro j hj
    obtain ⟨hnode, hentries⟩ := fs.free j hj
    refine ⟨hnode, ?_⟩
    by_cases hdir : j = dir
    · rw [← hdir, Function.update_self, hentries, List.filter_nil]
    · rw [Function.update_of_ne hdir, hentries]

/-- The inode of the next directory on a device. -/
def FileSystem.next_inode (fs : FileSystem) (dev : ℕ) : Inode := ⟨dev, fs.bound⟩

/-- An empty directory, with no name yet. -/
def FileSystem.new_directory (fs : FileSystem) (dev : ℕ) : FileSystem where
  node := Function.update fs.node (fs.next_inode dev) (some (.directory 0))
  entries := fs.entries
  bound := fs.bound + 1
  free := by
    intro j hj
    have hne : j ≠ fs.next_inode dev := by
      rintro rfl
      rw [next_inode] at hj
      dsimp only at hj
      omega
    rw [Function.update_of_ne hne]
    apply fs.free
    omega

theorem lookup_filter_ne {entries : List (String × Inode)} {name name' : String} :
    (entries.filter fun e => e.1 ≠ name).lookup name' =
      if name' = name then none else entries.lookup name' := by
  induction entries with
  | nil => simp
  | cons e entries ih =>
      by_cases he : e.1 = name
      · rw [List.filter_cons_of_neg (by simp [he]), ih]
        by_cases hn : name' = name
        · rw [if_pos hn, if_pos hn]
        · rw [if_neg hn, if_neg hn, List.lookup_cons]
          have hne : (name' == e.1) = false := by
            rw [he]
            simpa using hn
          rw [hne]
      · rw [List.filter_cons_of_pos (by simp [he]), List.lookup_cons, List.lookup_cons, ih]
        by_cases hn : name' = name
        · have hne : (name' == e.1) = false := by
            rw [hn]
            simpa using Ne.symm he
          rw [hne, if_pos hn]
        · rw [if_neg hn, if_neg hn]

@[simp] theorem FileSystem.entry_set_entry (fs : FileSystem) (dir dir' : Inode)
    (name name' : String) (i : Inode) :
    (fs.set_entry dir name i).entry dir' name' =
      if dir' = dir ∧ name' = name then some i else fs.entry dir' name' := by
  rw [entry, set_entry]
  dsimp only
  by_cases hd : dir' = dir
  · rw [hd, Function.update_self, List.lookup_append, lookup_filter_ne]
    by_cases hn : name' = name
    · rw [if_pos hn, if_pos ⟨rfl, hn⟩, hn]
      simp
    · rw [if_neg hn, if_neg fun h => hn h.2, entry]
      rcases (fs.entries dir).lookup name' with _ | j
      · simp [hn]
      · rfl
  · rw [Function.update_of_ne hd, if_neg fun h => hd h.1, entry]

@[simp] theorem FileSystem.entry_remove_entry (fs : FileSystem) (dir dir' : Inode)
    (name name' : String) :
    (fs.remove_entry dir name).entry dir' name' =
      if dir' = dir ∧ name' = name then none else fs.entry dir' name' := by
  rw [entry, remove_entry]
  dsimp only
  by_cases hd : dir' = dir
  · rw [hd, Function.update_self, lookup_filter_ne]
    by_cases hn : name' = name
    · rw [if_pos hn, if_pos ⟨rfl, hn⟩]
    · rw [if_neg hn, if_neg fun h => hn h.2, entry]
  · rw [Function.update_of_ne hd, if_neg fun h => hd h.1, entry]

@[simp] theorem FileSystem.node_set_entry (fs : FileSystem) (dir : Inode) (name : String)
    (i : Inode) : (fs.set_entry dir name i).node = fs.node := rfl

@[simp] theorem FileSystem.node_remove_entry (fs : FileSystem) (dir : Inode) (name : String) :
    (fs.remove_entry dir name).node = fs.node := rfl

/-- A number above the inode numbers of a table. -/
def bound_of {β : Type} (table : List (Inode × β)) : ℕ :=
  (table.map fun e => e.1.ino + 1).foldr max 0

theorem lt_bound_of {β : Type} {table : List (Inode × β)} {e : Inode × β} (h : e ∈ table) :
    e.1.ino < bound_of table := by
  induction table with
  | nil => exact absurd h (by simp)
  | cons e' table ih =>
      rw [bound_of, List.map_cons, List.foldr_cons]
      rcases List.mem_cons.mp h with rfl | hmem
      · omega
      · have hlt := ih hmem
        rw [bound_of] at hlt
        omega

theorem lookup_of_bound {β : Type} {table : List (Inode × β)} {i : Inode}
    (h : bound_of table ≤ i.ino) : table.lookup i = none := by
  rw [List.lookup_eq_none_iff]
  intro e he
  have hlt := lt_bound_of he
  rw [bne_iff_ne]
  rintro rfl
  omega

/-- The filesystem of a table of inodes and a table of directories. -/
def FileSystem.of_tables (nodes : List (Inode × Node))
    (directories : List (Inode × List (String × Inode))) : FileSystem where
  node := fun i => nodes.lookup i
  entries := fun i => (directories.lookup i).getD []
  bound := max (bound_of nodes) (bound_of directories)
  free := by
    intro i hi
    have hnodes : nodes.lookup i = none := lookup_of_bound (by omega)
    have hdirectories : directories.lookup i = none := lookup_of_bound (by omega)
    rw [hnodes, hdirectories]
    exact ⟨rfl, rfl⟩

/-- An entry of a filesystem of tables is in its table. -/
theorem FileSystem.entry_of_tables {nodes : List (Inode × Node)}
    {directories : List (Inode × List (String × Inode))} {dir i : Inode} {name : String}
    (h : (of_tables nodes directories).entry dir name = some i) :
    ∃ entries, (dir, entries) ∈ directories ∧ (name, i) ∈ entries := by
  rw [entry, of_tables] at h
  dsimp only at h
  rcases hdir : directories.lookup dir with _ | entries
  · rw [hdir] at h
    exact absurd h (by simp)
  · rw [hdir] at h
    obtain ⟨_, _, hmem, -⟩ := List.lookup_eq_some_iff.mp hdir
    obtain ⟨_, _, hname, -⟩ := List.lookup_eq_some_iff.mp h
    refine ⟨entries, ?_, ?_⟩
    · rw [hmem]
      exact List.mem_append_right _ List.mem_cons_self
    · dsimp only [Option.getD_some] at hname
      rw [hname]
      exact List.mem_append_right _ List.mem_cons_self

/-! ## Paths -/

/-- The names of a path, without the ones that stand for the directory itself. -/
def split_path (path : String) : List String :=
  ((path.toList.splitOn '/').map String.ofList).filter fun name => name ≠ "" ∧ name ≠ "."

theorem not_mem_of_mem_splitOn {α : Type} [DecidableEq α] {a : α} {xs l : List α} (h : l ∈ xs.splitOn a) : a ∉ l := by
  induction xs generalizing l with
  | nil =>
      rw [List.splitOn_nil, List.mem_singleton] at h
      rw [h]
      exact List.not_mem_nil
  | cons x xs ih =>
      rw [List.splitOn_cons_eq_if_modifyHead] at h
      by_cases hx : (x == a) = true
      · rw [if_pos hx] at h
        rcases List.mem_cons.mp h with rfl | hmem
        · exact List.not_mem_nil
        · exact ih hmem
      · rw [if_neg hx] at h
        rcases hsplit : xs.splitOn a with _ | ⟨first, rest⟩
        · exact absurd hsplit (List.splitOn_ne_nil a xs)
        · rw [hsplit] at h ih
          rcases List.mem_cons.mp h with rfl | hmem
          · rw [List.mem_cons, not_or]
            exact ⟨fun heq => hx (by rw [heq, beq_self_eq_true]), ih List.mem_cons_self⟩
          · exact ih (List.mem_cons_of_mem _ hmem)

/-- No name of a path has a slash. -/
theorem slash_not_mem_split_path {path name : String} (h : name ∈ split_path path) : '/' ∉ name.toList := by
  obtain ⟨l, hl, rfl⟩ := List.mem_map.mp (List.mem_filter.mp h).1
  rw [String.toList_ofList]
  exact not_mem_of_mem_splitOn hl

/-- A text without a slash is a path of one name. -/
theorem split_path_single {text : String} (h : '/' ∉ text.toList) (hempty : text ≠ "")
    (hdot : text ≠ ".") : split_path text = [text] := by
  rw [split_path, List.splitOn_eq_singleton h, List.map_singleton, String.ofList_toList,
    List.filter_cons_of_pos (by simp [hempty, hdot]), List.filter_nil]

/-- A path from the root. -/
def is_absolute (path : String) : Bool := path.toList.head? = some '/'

/-- A path that can only name a directory: it ends in a slash or in a dot. -/
def names_directory (path : String) : Bool :=
  match (path.toList.splitOn '/').getLast? with
  | some last => last = [] ∨ last = ['.']
  | none => false

/-- A directory, with the directories it was reached through, the nearest first. -/
structure Dir where
  inode : Inode
  above : List Inode
  deriving DecidableEq

/-- `..`; the root is above itself. -/
def Dir.up (dir : Dir) : Dir :=
  match dir.above with
  | [] => dir
  | i :: above => ⟨i, above⟩

/-- A directory found in this one. -/
def Dir.down (dir : Dir) (i : Inode) : Dir := ⟨i, dir.inode :: dir.above⟩

/-- Where the paths of a process start. -/
structure Process where
  root : Dir
  cwd : Dir

/-- The directory a path starts from, when it is given relative to `base`. -/
def Process.start (p : Process) (base : Dir) (path : String) : Dir :=
  if is_absolute path then p.root else base

abbrev Errno := ℕ

def EPERM : Errno := 1
def ENOENT : Errno := 2
def EBUSY : Errno := 16
def EEXIST : Errno := 17
def EXDEV : Errno := 18
def ENOTDIR : Errno := 20
def EISDIR : Errno := 21
def EINVAL : Errno := 22
def ENOTEMPTY : Errno := 39
def ELOOP : Errno := 40

/-- How many symbolic links one path may go through. -/
def max_links : ℕ := 40

/-- How far a path goes without a symbolic link. -/
inductive Walked where
  | arrived (dir : Dir)
  /-- a link in a directory, and the names behind it -/
  | link (dir : Dir) (target : String) (rest : List String)

/-- The names of a path are followed to the end or to the first symbolic link. -/
def walk_plain (fs : FileSystem) : Dir → List String → Except Errno Walked
  | dir, [] => .ok (.arrived dir)
  | dir, name :: rest =>
    if name = ".." then walk_plain fs dir.up rest
    else
      match fs.entry dir.inode name with
      | none => .error ENOENT
      | some i =>
        match fs.node i with
        | some (.directory _) => walk_plain fs (dir.down i) rest
        | some (.symlink target) => .ok (.link dir target rest)
        | _ => .error ENOTDIR

/-- The directory that a list of names leads to, through at most `links` symbolic
links. -/
def walk (fs : FileSystem) (root : Dir) : ℕ → Dir → List String → Except Errno Dir
  | 0, dir, names =>
    match walk_plain fs dir names with
    | .ok (.arrived dir') => .ok dir'
    | .ok (.link _ _ _) => .error ELOOP
    | .error e => .error e
  | links + 1, dir, names =>
    match walk_plain fs dir names with
    | .ok (.arrived dir') => .ok dir'
    | .ok (.link dir' target rest) =>
      walk fs root links (if is_absolute target then root else dir') (split_path target ++ rest)
    | .error e => .error e

/-- The directory a path leads to, symbolic links followed. -/
def open_directory (fs : FileSystem) (p : Process) (path : String) : Except Errno Dir :=
  if path = "" then .error ENOENT
  else walk fs p.root max_links (p.start p.cwd path) (split_path path)

/-- The inode a name in a directory leads to. -/
def lookup (fs : FileSystem) (dir : Dir) (name : String) : Option Inode :=
  if name = "" then none
  else if name = "." then some dir.inode
  else if name = ".." then some dir.up.inode
  else fs.entry dir.inode name

/-- `lstat` of a name in a directory. -/
def lstat_at (fs : FileSystem) (dir : Dir) (name : String) : Except Errno (Inode × Node) :=
  match lookup fs dir name with
  | none => .error ENOENT
  | some i =>
    match fs.node i with
    | some node => .ok (i, node)
    | none => .error ENOENT

/-- The directory and the name that a path, given relative to `base`, is about: the
directory is looked up, the name is not. -/
def locate_at (fs : FileSystem) (p : Process) (base : Dir) (path : String) :
    Except Errno (Dir × String) :=
  match (split_path path).getLast? with
  | none => .error ENOENT
  | some name =>
    match walk fs p.root max_links (p.start base path) (split_path path).dropLast with
    | .ok dir => .ok (dir, name)
    | .error e => .error e

/-- The directory and the name a path is about. -/
def locate (fs : FileSystem) (p : Process) (path : String) : Except Errno (Dir × String) :=
  locate_at fs p p.cwd path

/-- `lstat`. -/
def lstat (fs : FileSystem) (p : Process) (path : String) : Except Errno (Inode × Node) :=
  if names_directory path then
    match open_directory fs p path with
    | .ok dir => lstat_at fs dir "."
    | .error e => .error e
  else
    match locate fs p path with
    | .ok (dir, name) => lstat_at fs dir name
    | .error e => .error e

/-! ## The calls -/

/-- An `open` with `O_DIRECTORY` and `O_NOFOLLOW` of a name in a directory. -/
def open_nofollow_at (fs : FileSystem) (dir : Dir) (name : String) : Except Errno Dir :=
  if name = ".." then .ok dir.up
  else
    match lstat_at fs dir name with
    | .ok (i, .directory _) => .ok (dir.down i)
    | .ok _ => .error ENOTDIR
    | .error e => .error e

/-- An `open` with `O_DIRECTORY` and `O_NOFOLLOW`: only the last name is not followed,
and that one is when a slash comes after it. -/
def open_nofollow (fs : FileSystem) (p : Process) (path : String) : Except Errno Dir :=
  if names_directory path then open_directory fs p path
  else
    match locate fs p path with
    | .ok (dir, name) => open_nofollow_at fs dir name
    | .error e => .error e

/-- A name no entry can have. -/
def reserved (name : String) : Bool := name = "" ∨ name = "." ∨ name = ".."

/-- `mkdir` of a name in a directory. -/
def mkdir (fs : FileSystem) (dir : Dir) (name : String) : Except Errno FileSystem :=
  if name = "" then .error ENOENT
  else if reserved name then .error EEXIST
  else
    match fs.entry dir.inode name with
    | some _ => .error EEXIST
    | none =>
      .ok ((fs.new_directory dir.inode.dev).set_entry dir.inode name
        (fs.next_inode dir.inode.dev))

/-- `unlink` of a name in a directory. -/
def unlink (fs : FileSystem) (dir : Dir) (name : String) : Except Errno FileSystem :=
  if name = "" then .error ENOENT
  else if reserved name then .error EISDIR
  else
    match fs.entry dir.inode name with
    | none => .error ENOENT
    | some i =>
      match fs.node i with
      | some (.directory _) => .error EISDIR
      | _ => .ok (fs.remove_entry dir.inode name)

/-- `link` without following a symbolic link. -/
def link (fs : FileSystem) (src : Dir) (name : String) (dst : Dir) (name' : String) :
    Except Errno FileSystem :=
  match lookup fs src name with
  | none => .error ENOENT
  | some i =>
    if name' = "" then .error ENOENT
    else if reserved name' then .error EEXIST
    else
      match fs.entry dst.inode name' with
      | some _ => .error EEXIST
      | none =>
        if src.inode.dev ≠ dst.inode.dev then .error EXDEV
        else
          match fs.node i with
          | some (.directory _) => .error EPERM
          | _ => .ok (fs.set_entry dst.inode name' i)

/-- Whether a rename may replace what it finds at its destination. -/
def replaceable (fs : FileSystem) (moved found : Inode) : Except Errno Unit :=
  match fs.node moved, fs.node found with
  | some (.directory _), some (.directory _) =>
    if fs.entries found = [] then .ok () else .error ENOTEMPTY
  | some (.directory _), _ => .error ENOTDIR
  | _, some (.directory _) => .error EISDIR
  | _, _ => .ok ()

/-- `rename`. -/
def rename (fs : FileSystem) (src : Dir) (name : String) (dst : Dir) (name' : String) :
    Except Errno FileSystem :=
  if name = "" ∨ name' = "" then .error ENOENT
  else if src.inode.dev ≠ dst.inode.dev then .error EXDEV
  else if reserved name ∨ reserved name' then .error EBUSY
  else
    match fs.entry src.inode name with
    | none => .error ENOENT
    | some i =>
      -- a directory does not go into itself
      if i = dst.inode ∨ i ∈ dst.above then .error EINVAL
      else
        match fs.entry dst.inode name' with
        | none => .ok ((fs.remove_entry src.inode name).set_entry dst.inode name' i)
        | some found =>
          -- two names of one file: nothing happens
          if found = i then .ok fs
          else
            match replaceable fs i found with
            | .error e => .error e
            | .ok _ => .ok ((fs.remove_entry src.inode name).set_entry dst.inode name' i)

variable {fs fs' : FileSystem} {gone : Inode → String → Prop} {dir : Dir} {name name' : String}
  {i : Inode} {node : Node}

/-! ## What a call leaves alone -/

/-- What `fs` has, `fs'` has, but for the entries that are `gone`. -/
structure Keeps (fs fs' : FileSystem) (gone : Inode → String → Prop) : Prop where
  node : ∀ i n, fs.node i = some n → fs'.node i = some n
  entry : ∀ dir name i, fs.entry dir name = some i → ¬gone dir name →
    fs'.entry dir name = some i

theorem Keeps.refl (fs : FileSystem) (gone : Inode → String → Prop) : Keeps fs fs gone :=
  ⟨fun _ _ h => h, fun _ _ _ h _ => h⟩

theorem Keeps.trans {fs'' : FileSystem} {gone' : Inode → String → Prop} (h : Keeps fs fs' gone)
    (h' : Keeps fs' fs'' gone') : Keeps fs fs'' fun dir name => gone dir name ∨ gone' dir name := by
  refine ⟨fun i n hn => h'.node i n (h.node i n hn), ?_⟩
  intro dir name i hi hgone
  rw [not_or] at hgone
  exact h'.entry dir name i (h.entry dir name i hi hgone.1) hgone.2

theorem Keeps.mono {gone' : Inode → String → Prop} (h : Keeps fs fs' gone)
    (hle : ∀ dir name, gone dir name → gone' dir name) : Keeps fs fs' gone' :=
  ⟨h.node, fun dir name i hi hgone => h.entry dir name i hi fun hg => hgone (hle dir name hg)⟩

theorem FileSystem.keeps_set_entry (fs : FileSystem) (dir : Inode) (name : String) (i : Inode) :
    Keeps fs (fs.set_entry dir name i) fun d n => d = dir ∧ n = name := by
  refine ⟨fun _ _ h => h, ?_⟩
  intro d n j hj hgone
  rw [entry_set_entry, if_neg hgone]
  exact hj

theorem FileSystem.keeps_remove_entry (fs : FileSystem) (dir : Inode) (name : String) :
    Keeps fs (fs.remove_entry dir name) fun d n => d = dir ∧ n = name := by
  refine ⟨fun _ _ h => h, ?_⟩
  intro d n j hj hgone
  rw [entry_remove_entry, if_neg hgone]
  exact hj

theorem FileSystem.keeps_new_directory (fs : FileSystem) (dev : ℕ) :
    Keeps fs (fs.new_directory dev) fun _ _ => False := by
  refine ⟨?_, fun _ _ _ h _ => h⟩
  intro i n hn
  have hne : i ≠ fs.next_inode dev := by
    rintro rfl
    rw [(fs.free _ (Nat.le_refl _)).1] at hn
    exact absurd hn (by simp)
  rw [new_directory]
  dsimp only
  rw [Function.update_of_ne hne]
  exact hn

/-- What a successful `mkdir` did. -/
theorem mkdir_spec (h : mkdir fs dir name = .ok fs') : fs.entry dir.inode name = none ∧
      fs' = (fs.new_directory dir.inode.dev).set_entry dir.inode name (fs.next_inode dir.inode.dev) := by
  unfold mkdir at h
  by_cases hempty : name = ""
  · rw [if_pos hempty] at h
    exact absurd h (by simp)
  · rw [if_neg hempty] at h
    by_cases hreserved : reserved name = true
    · rw [if_pos hreserved] at h
      exact absurd h (by simp)
    · rw [if_neg hreserved] at h
      split at h
      · exact absurd h (by simp)
      · rename_i hnone
        exact ⟨hnone, (Except.ok.inj h).symm⟩

/-- What a successful `unlink` did. -/
theorem unlink_spec (h : unlink fs dir name = .ok fs') : ∃ i, reserved name = false ∧ fs.entry dir.inode name = some i ∧
      (∀ size, fs.node i ≠ some (.directory size)) ∧ fs' = fs.remove_entry dir.inode name := by
  unfold unlink at h
  by_cases hempty : name = ""
  · rw [if_pos hempty] at h
    exact absurd h (by simp)
  · rw [if_neg hempty] at h
    by_cases hreserved : reserved name = true
    · rw [if_pos hreserved] at h
      exact absurd h (by simp)
    · rw [if_neg hreserved] at h
      split at h
      · exact absurd h (by simp)
      · rename_i i hi
        split at h
        · exact absurd h (by simp)
        · rename_i hdir
          exact ⟨i, by simpa using hreserved, hi, hdir, (Except.ok.inj h).symm⟩

/-- What a successful `link` did. -/
theorem link_spec {src dst : Dir} (h : link fs src name dst name' = .ok fs') :
    ∃ i, lookup fs src name = some i ∧ fs.entry dst.inode name' = none ∧
      (∀ size, fs.node i ≠ some (.directory size)) ∧ fs' = fs.set_entry dst.inode name' i := by
  unfold link at h
  split at h
  · exact absurd h (by simp)
  · rename_i i hi
    by_cases hempty : name' = ""
    · rw [if_pos hempty] at h
      exact absurd h (by simp)
    · rw [if_neg hempty] at h
      by_cases hreserved : reserved name' = true
      · rw [if_pos hreserved] at h
        exact absurd h (by simp)
      · rw [if_neg hreserved] at h
        split at h
        · exact absurd h (by simp)
        · rename_i hnone
          by_cases hdev : src.inode.dev ≠ dst.inode.dev
          · rw [if_pos hdev] at h
            exact absurd h (by simp)
          · rw [if_neg hdev] at h
            split at h
            · exact absurd h (by simp)
            · rename_i hdir
              exact ⟨i, hi, hnone, hdir, (Except.ok.inj h).symm⟩

/-- What a successful `rename` did: nothing, when both names were of one file, and a
move otherwise, over something it may replace. -/
theorem rename_spec {src dst : Dir} (h : rename fs src name dst name' = .ok fs') :
    ∃ i, reserved name = false ∧ fs.entry src.inode name = some i ∧ ((fs.entry dst.inode name' = some i ∧ fs' = fs) ∨
        ((∀ found, fs.entry dst.inode name' = some found → found ≠ i ∧ replaceable fs i found = .ok ()) ∧
          fs' = (fs.remove_entry src.inode name).set_entry dst.inode name' i)) := by
  unfold rename at h
  by_cases hempty : name = "" ∨ name' = ""
  · rw [if_pos hempty] at h
    exact absurd h (by simp)
  · rw [if_neg hempty] at h
    by_cases hdev : src.inode.dev ≠ dst.inode.dev
    · rw [if_pos hdev] at h
      exact absurd h (by simp)
    · rw [if_neg hdev] at h
      by_cases hreserved : reserved name = true ∨ reserved name' = true
      · rw [if_pos hreserved] at h
        exact absurd h (by simp)
      · rw [if_neg hreserved] at h
        split at h
        · exact absurd h (by simp)
        · rename_i i hi
          by_cases hself : i = dst.inode ∨ i ∈ dst.above
          · rw [if_pos hself] at h
            exact absurd h (by simp)
          · rw [if_neg hself] at h
            rw [not_or] at hreserved
            refine ⟨i, by simpa using hreserved.1, hi, ?_⟩
            split at h
            · rename_i hnone
              refine Or.inr ⟨?_, (Except.ok.inj h).symm⟩
              intro found hfound
              rw [hnone] at hfound
              exact absurd hfound (by simp)
            · rename_i found hfound
              by_cases hsame : found = i
              · rw [if_pos hsame] at h
                rw [hsame] at hfound
                exact Or.inl ⟨hfound, (Except.ok.inj h).symm⟩
              · rw [if_neg hsame] at h
                split at h
                · exact absurd h (by simp)
                · rename_i hreplace
                  refine Or.inr ⟨?_, (Except.ok.inj h).symm⟩
                  intro found' hfound'
                  rw [hfound, Option.some.injEq] at hfound'
                  rw [← hfound']
                  exact ⟨hsame, hreplace⟩

theorem mkdir_keeps (h : mkdir fs dir name = .ok fs') : Keeps fs fs' fun _ _ => False := by
  obtain ⟨hnone, rfl⟩ := mkdir_spec h
  refine ⟨(fs.keeps_new_directory _).node, ?_⟩
  intro d n i hi _
  rw [FileSystem.entry_set_entry]
  by_cases hkey : d = dir.inode ∧ n = name
  · rw [hkey.1, hkey.2, hnone] at hi
    exact absurd hi (by simp)
  · rw [if_neg hkey]
    exact hi

theorem unlink_keeps (h : unlink fs dir name = .ok fs') :
    Keeps fs fs' fun d n => d = dir.inode ∧ n = name ∧ reserved n = false := by
  obtain ⟨i, hreserved, -, -, rfl⟩ := unlink_spec h
  apply (fs.keeps_remove_entry dir.inode name).mono
  rintro d n ⟨rfl, rfl⟩
  exact ⟨rfl, rfl, hreserved⟩

theorem link_keeps {src dst : Dir} (h : link fs src name dst name' = .ok fs') :
    Keeps fs fs' fun _ _ => False := by
  obtain ⟨i, -, hnone, -, rfl⟩ := link_spec h
  refine ⟨fun _ _ hn => hn, ?_⟩
  intro d n j hj _
  rw [FileSystem.entry_set_entry]
  by_cases hkey : d = dst.inode ∧ n = name'
  · rw [hkey.1, hkey.2, hnone] at hj
    exact absurd hj (by simp)
  · rw [if_neg hkey]
    exact hj

/-- A rename takes away its source, and replaces what it may. -/
theorem rename_keeps {src dst : Dir} (h : rename fs src name dst name' = .ok fs') :
    Keeps fs fs' fun d n => (d = src.inode ∧ n = name ∧ reserved n = false) ∨
      (d = dst.inode ∧ n = name' ∧ reserved name = false ∧
        ∃ i, fs.entry src.inode name = some i ∧
          ∀ found, fs.entry d n = some found → replaceable fs i found = .ok ()) := by
  obtain ⟨i, hreserved, hi, ⟨-, rfl⟩ | ⟨hreplace, rfl⟩⟩ := rename_spec h
  · exact Keeps.refl fs' _
  · apply ((fs.keeps_remove_entry _ _).trans
      ((fs.remove_entry _ _).keeps_set_entry _ _ _)).mono
    rintro d n (⟨rfl, rfl⟩ | ⟨rfl, rfl⟩)
    · exact Or.inl ⟨rfl, rfl, hreserved⟩
    · exact Or.inr ⟨rfl, rfl, hreserved, i, hi, fun found hfound => (hreplace found hfound).2⟩

/-- A file replaces no directory. -/
theorem replaceable_leaf {moved found : Inode} (hmoved : fs.node moved = some node)
    (hleaf : node.is_branch = false) (h : replaceable fs moved found = .ok ()) (size : ℕ) :
    fs.node found ≠ some (.directory size) := by
  intro hfound
  unfold replaceable at h
  rw [hmoved, hfound] at h
  cases node with
  | directory _ => exact absurd hleaf (by simp [Node.is_branch])
  | symlink _ => exact absurd hleaf (by simp [Node.is_branch])
  | file _ => exact absurd h (by simp)
  | special _ _ => exact absurd h (by simp)

/-- A name no rule stands in for is an entry. -/
theorem lookup_eq_entry (h : reserved name = false) : lookup fs dir name = fs.entry dir.inode name := by
  rw [reserved, decide_eq_false_iff_not, not_or, not_or] at h
  rw [lookup, if_neg h.1, if_neg h.2.1, if_neg h.2.2]

/-- A directory is not made where something is. -/
theorem mkdir_there (h : name = ".." ∨ ∃ i, fs.entry dir.inode name = some i) : ∃ e, mkdir fs dir name = .error e := by
  rcases hmkdir : mkdir fs dir name with e | fs'
  · exact ⟨e, rfl⟩
  · obtain ⟨hnone, -⟩ := mkdir_spec hmkdir
    rcases h with rfl | ⟨i, hi⟩
    · rw [mkdir, if_neg (by decide), if_pos (by decide)] at hmkdir
      exact absurd hmkdir (by simp)
    · rw [hnone] at hi
      exact absurd hi (by simp)

/-! ## Directories stay -/

/-- The entries of `fs` behind which a path can go on are those of `fs'` too. -/
def KeepsBranches (fs fs' : FileSystem) : Prop :=
  ∀ dir name i node, fs.entry dir name = some i → fs.node i = some node →
    node.is_branch = true → fs'.entry dir name = some i ∧ fs'.node i = some node

theorem KeepsBranches.refl (fs : FileSystem) : KeepsBranches fs fs :=
  fun _ _ _ _ hi hnode _ => ⟨hi, hnode⟩

theorem KeepsBranches.trans {fs'' : FileSystem} (h : KeepsBranches fs fs')
    (h' : KeepsBranches fs' fs'') : KeepsBranches fs fs'' := by
  intro dir name i node hi hnode hbranch
  obtain ⟨hi', hnode'⟩ := h dir name i node hi hnode hbranch
  exact h' dir name i node hi' hnode' hbranch

theorem FileSystem.remove_entry_back (fs : FileSystem) (dir : Inode) (name : String) :
    KeepsBranches (fs.remove_entry dir name) fs := by
  intro d n i node hi hnode _
  refine ⟨?_, hnode⟩
  rw [entry_remove_entry] at hi
  by_cases hkey : d = dir ∧ n = name
  · rw [if_pos hkey] at hi
    exact absurd hi (by simp)
  · rw [if_neg hkey] at hi
    exact hi

/-- A new entry that leads to a file opens no way. -/
theorem FileSystem.set_entry_back {dir : Inode} (hnode : fs.node i = some node)
    (hleaf : node.is_branch = false) : KeepsBranches (fs.set_entry dir name i) fs := by
  intro d n j other hj hother hbranch
  refine ⟨?_, hother⟩
  rw [entry_set_entry] at hj
  by_cases hkey : d = dir ∧ n = name
  · rw [if_pos hkey, Option.some.injEq] at hj
    rw [node_set_entry, ← hj, hnode, Option.some.injEq] at hother
    rw [← hother, hleaf] at hbranch
    exact absurd hbranch (by simp)
  · rw [if_neg hkey] at hj
    exact hj

/-- So it is when what is gone led to no directory and no symbolic link. -/
theorem Keeps.branches (hkeeps : Keeps fs fs' gone)
    (hleaf : ∀ dir name i node, gone dir name → fs.entry dir name = some i →
      fs.node i = some node → node.is_branch = false) : KeepsBranches fs fs' := by
  intro dir name i node hi hnode hbranch
  refine ⟨hkeeps.entry dir name i hi ?_, hkeeps.node i node hnode⟩
  intro hgone
  rw [hleaf dir name i node hgone hi hnode] at hbranch
  exact absurd hbranch (by simp)

variable {names : List String} {p : Process} {path : String}

theorem walk_plain_keeps (hkeeps : KeepsBranches fs fs') {walked : Walked} (h : walk_plain fs dir names = .ok walked) :
    walk_plain fs' dir names = .ok walked := by
  induction names generalizing dir with
  | nil => exact h
  | cons name rest ih =>
      rw [walk_plain] at h ⊢
      by_cases hup : name = ".."
      · rw [if_pos hup] at h ⊢
        exact ih h
      · rw [if_neg hup] at h ⊢
        split at h
        · exact absurd h (by simp)
        · rename_i i hi
          split at h
          · rename_i size hnode
            obtain ⟨hi', hnode'⟩ := hkeeps _ _ i _ hi hnode rfl
            rw [hi']
            dsimp only
            rw [hnode']
            exact ih h
          · rename_i target hnode
            obtain ⟨hi', hnode'⟩ := hkeeps _ _ i _ hi hnode rfl
            rw [hi']
            dsimp only
            rw [hnode']
            exact h
          · exact absurd h (by simp)

/-- **A path to a directory stays.** -/
theorem walk_keeps (hkeeps : KeepsBranches fs fs') {root dir' : Dir} {links : ℕ}
    (h : walk fs root links dir names = .ok dir') : walk fs' root links dir names = .ok dir' := by
  induction links generalizing dir names with
  | zero =>
      rw [walk] at h ⊢
      split at h
      · rename_i hplain
        rw [walk_plain_keeps hkeeps hplain]
        exact h
      · exact absurd h (by simp)
      · exact absurd h (by simp)
  | succ links ih =>
      rw [walk] at h ⊢
      split at h
      · rename_i hplain
        rw [walk_plain_keeps hkeeps hplain]
        exact h
      · rename_i hplain
        rw [walk_plain_keeps hkeeps hplain]
        exact ih h
      · exact absurd h (by simp)

theorem walk_plain_append (fs : FileSystem) (dir : Dir) (names names' : List String) :
    walk_plain fs dir (names ++ names') =
      match walk_plain fs dir names with
      | .ok (.arrived dir') => walk_plain fs dir' names'
      | .ok (.link dir' target rest) => .ok (.link dir' target (rest ++ names'))
      | .error e => .error e := by
  induction names generalizing dir with
  | nil => rfl
  | cons name rest ih =>
      rw [List.cons_append, walk_plain, walk_plain]
      by_cases hup : name = ".."
      · rw [if_pos hup, if_pos hup]
        exact ih dir.up
      · rw [if_neg hup, if_neg hup]
        split
        · rfl
        · split
          · exact ih _
          · rfl
          · rfl

/-- A path that leads somewhere leads to its last name on the way. -/
theorem walk_last {root dir' : Dir} {links : ℕ} (h : walk fs root links dir (names ++ [name]) = .ok dir') :
    ∃ parent, walk fs root links dir names = .ok parent ∧
      (name = ".." ∨ ∃ i, fs.entry parent.inode name = some i) := by
  have hlast : ∀ {parent : Dir} {walked : Walked}, walk_plain fs parent [name] = .ok walked →
      name = ".." ∨ ∃ i, fs.entry parent.inode name = some i := by
    intro parent walked hplain
    rw [walk_plain] at hplain
    by_cases hup : name = ".."
    · exact Or.inl hup
    · rw [if_neg hup] at hplain
      split at hplain
      · exact absurd hplain (by simp)
      · rename_i i hi
        exact Or.inr ⟨i, hi⟩
  induction links generalizing dir names with
  | zero =>
      rw [walk, walk_plain_append] at h
      rw [walk]
      rcases hplain : walk_plain fs dir names with e | ⟨parent⟩ | ⟨at_, target, rest⟩
      · rw [hplain] at h
        exact absurd h (by simp)
      · rw [hplain] at h
        refine ⟨parent, rfl, ?_⟩
        dsimp only at h
        split at h
        · rename_i hwalked
          exact hlast hwalked
        · exact absurd h (by simp)
        · exact absurd h (by simp)
      · rw [hplain] at h
        exact absurd h (by simp)
  | succ links ih =>
      rw [walk, walk_plain_append] at h
      rw [walk]
      rcases hplain : walk_plain fs dir names with e | ⟨parent⟩ | ⟨at_, target, rest⟩
      · rw [hplain] at h
        exact absurd h (by simp)
      · rw [hplain] at h
        refine ⟨parent, rfl, ?_⟩
        dsimp only at h
        split at h
        · rename_i hwalked
          exact hlast hwalked
        · rename_i hwalked
          exact hlast hwalked
        · exact absurd h (by simp)
      · -- the rest of the way is behind the link
        rw [hplain] at h
        dsimp only at h ⊢
        rw [← List.append_assoc] at h
        exact ih h

theorem locate_keeps (hkeeps : KeepsBranches fs fs') {base : Dir} (h : locate_at fs p base path = .ok (dir, name)) :
    locate_at fs' p base path = .ok (dir, name) := by
  unfold locate_at at h ⊢
  split at h
  · exact absurd h (by simp)
  · split at h
    · rename_i hwalk
      rw [walk_keeps hkeeps hwalk]
      exact h
    · exact absurd h (by simp)

theorem open_directory_keeps (hkeeps : KeepsBranches fs fs') (h : open_directory fs p path = .ok dir) :
    open_directory fs' p path = .ok dir := by
  unfold open_directory at h ⊢
  by_cases hempty : path = ""
  · rw [if_pos hempty] at h
    exact absurd h (by simp)
  · rw [if_neg hempty] at h ⊢
    exact walk_keeps hkeeps h

theorem lstat_at_ok : lstat_at fs dir name = .ok (i, node) ↔ lookup fs dir name = some i ∧ fs.node i = some node := by
  unfold lstat_at
  constructor
  · intro h
    split at h
    · exact absurd h (by simp)
    · rename_i j hj
      split at h
      · rename_i node' hnode
        obtain ⟨rfl, rfl⟩ := Prod.mk.inj (Except.ok.inj h)
        exact ⟨hj, hnode⟩
      · exact absurd h (by simp)
  · rintro ⟨hlookup, hnode⟩
    rw [hlookup]
    dsimp only
    rw [hnode]

/-- A name looked up is looked up again, when its entry is not gone. -/
theorem lstat_at_keeps (hkeeps : Keeps fs fs' gone) (hgone : reserved name = false → ¬gone dir.inode name)
    (h : lstat_at fs dir name = .ok (i, node)) : lstat_at fs' dir name = .ok (i, node) := by
  rw [lstat_at_ok] at h ⊢
  refine ⟨?_, hkeeps.node i node h.2⟩
  by_cases hreserved : reserved name = true
  · -- the directory itself or the one above it: no entry is looked at
    rw [← h.1, lookup, lookup]
    by_cases hempty : name = ""
    · rw [if_pos hempty, if_pos hempty]
    · rw [if_neg hempty, if_neg hempty]
      by_cases hdot : name = "."
      · rw [if_pos hdot, if_pos hdot]
      · have hup : name = ".." := by
          simp only [reserved, decide_eq_true_eq] at hreserved
          exact (hreserved.resolve_left hempty).resolve_left hdot
        rw [if_neg hdot, if_neg hdot, if_pos hup, if_pos hup]
  · rw [Bool.not_eq_true] at hreserved
    rw [lookup_eq_entry hreserved] at h ⊢
    exact hkeeps.entry dir.inode name i h.1 (hgone hreserved)

/-- **A file stays** under its path, when neither its entry nor its way is gone. -/
theorem lstat_keeps (hkeeps : Keeps fs fs' gone)
    (hleaf : ∀ dir name i node, gone dir name → fs.entry dir name = some i →
      fs.node i = some node → node.is_branch = false)
    (hgone : ∀ dir name, locate fs p path = .ok (dir, name) → ¬gone dir.inode name)
    (h : lstat fs p path = .ok (i, node)) : lstat fs' p path = .ok (i, node) := by
  unfold lstat at h ⊢
  by_cases hdir : names_directory path = true
  · rw [if_pos hdir] at h ⊢
    split at h
    · rename_i dir hopen
      rw [open_directory_keeps (hkeeps.branches hleaf) hopen]
      exact lstat_at_keeps hkeeps (fun hreserved => absurd hreserved (by decide)) h
    · exact absurd h (by simp)
  · rw [if_neg hdir] at h ⊢
    split at h
    · rename_i dir name hlocate
      rw [locate, locate_keeps (hkeeps.branches hleaf) hlocate]
      exact lstat_at_keeps hkeeps (fun _ => hgone dir name hlocate) h
    · exact absurd h (by simp)

end Fathom.Filesystem
