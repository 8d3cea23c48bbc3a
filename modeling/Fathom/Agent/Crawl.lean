/-
**The walk by its workers** (`PosixBackend.walk`, `_scan_dir`, `_entry` in
`backends/posix.py`).

A name on disk is bytes, and `os.scandir` gives it as a `str` in which each byte that is
no UTF-8 is a surrogate. The model of an entry takes no such `str`: its validation raises
a `ValueError`, `_scan_dir` catches `OSError` only, and the worker dies of it. So one such
name costs the whole listing of its directory, what lies below it, and a worker; with the
last worker the walk stops where it is and never ends.

Here a tree has names of code points, and what a walk ought to report is said by
`Tree.wanted`. `walk_exact_iff` says for which trees it is what any number of workers
reports. For the trees of `Fathom.Agent.Tree`, whose names are Unicode, it is
`Fathom.Agent.Tree.walk` (`lift_walk`).
-/
import Fathom.Agent.Walk
import Fathom.Lib.Pool

set_option autoImplicit false

namespace Fathom.Agent.Crawl

/-! ## Texts -/

/-- A code point of a `str`. `os.fsdecode` gives a byte that is no UTF-8 as a surrogate. -/
inductive CodePoint where
  | char (c : Char)
  | surrogate (low : Fin 2048)
  deriving DecidableEq

abbrev Text := List CodePoint

/-- A `str` that is Unicode. -/
def text (cs : List Char) : Text := cs.map .char

/-- What `posixpath.normpath` does with one more component. -/
def norm_step (rooted : Bool) (comps : List Text) (comp : Text) : List Text :=
  if comp = [] ∨ comp = text ['.'] then comps
  else if comp ≠ text ['.', '.'] ∨ (rooted = false ∧ comps = []) ∨ comps.getLast? = some (text ['.', '.']) then
    comps ++ [comp]
  else comps.dropLast

/-- The leading slashes `posixpath.normpath` keeps. -/
def initial_slashes : Text → Text
  | .char '/' :: .char '/' :: .char '/' :: _ => text ['/']
  | .char '/' :: .char '/' :: _ => text ['/', '/']
  | .char '/' :: _ => text ['/']
  | _ => []

/-- `os.path.normpath`. -/
def normpath (path : Text) : Text :=
  let root := initial_slashes path
  let comps := (path.splitOn (.char '/')).foldl (norm_step (root ≠ [])) []
  if root ++ (text ['/']).intercalate comps = [] then text ['.'] else root ++ (text ['/']).intercalate comps

/-- `DirEntry.path`. -/
def join_path (path name : Text) : Text :=
  if path.getLast? = some (.char '/') then path ++ name else path ++ .char '/' :: name

/-- `Path(path).name`. -/
def path_name (path : Text) : Text :=
  (((path.splitOn (.char '/')).filter fun comp => comp ≠ [] ∧ comp ≠ text ['.']).getLast?).getD []

/-! ## Excludes -/

/-- `normalise_excludes`. -/
def normalise_excludes (exclude : List Text) : List Text := (exclude.filter fun e => e ≠ []).map normpath

/-- `is_excluded_path`. -/
def is_excluded_path (path : Text) (excluded : List Text) : Bool :=
  if excluded = [] then false
  else
    let p := normpath path
    excluded.any fun e => p = e || (e ++ text ['/']).isPrefixOf p

/-! ## Trees -/

/-- The names a directory entry can have. -/
def IsName (name : Text) : Prop :=
  name ≠ [] ∧ name ≠ text ['.'] ∧ name ≠ text ['.', '.'] ∧ .char '/' ∉ name ∧ .char (Char.ofNat 0) ∉ name

instance (name : Text) : Decidable (IsName name) := by
  unfold IsName
  infer_instance

/-- A name a directory entry can have. -/
abbrev FileName := { name : Text // IsName name }

/-- One entry of a directory. `fault` says that its `stat` raises. -/
structure Dirent where
  name : FileName
  node : Node
  fault : Bool

/-- What a directory holds, in the order `os.scandir` yields it. -/
inductive Listing where
  | nil
  /-- `os.scandir` raises here; the rest is there and is not listed -/
  | raised (rest : Listing)
  /-- anything but a directory -/
  | leaf (d : Dirent) (is_symlink : Bool) (next : Listing)
  | dir (d : Dirent) (children next : Listing)

/-- What a scan root is; `os.scandir` raises of anything but a directory. -/
inductive Root where
  | directory (listing : Listing)
  | symlink
  | other

def Root.is_dir : Root → Bool
  | .directory _ => true
  | _ => false

def Root.is_symlink : Root → Bool
  | .symlink => true
  | _ => false

def Root.listing : Root → Listing
  | .directory listing => listing
  | _ => .raised .nil

/-- What the filesystem holds at and below a scan root. `fault` says that the `lstat` of
the root raises. -/
structure Tree where
  inodes : Node → Stat
  node : Node
  fault : Bool
  root : Root

/-- What a walk is told. -/
structure Scope where
  one_filesystem : Bool
  exclude : List Text

/-- Whether a path is pruned. -/
def Scope.prunes (scope : Scope) (path : Text) : Bool := is_excluded_path path (normalise_excludes scope.exclude)

/-- Whether a directory on a device is entered: `_should_descend`, of a directory that is
no symlink. -/
def Scope.enters (scope : Scope) (root_dev st_dev : UInt64) : Bool := !scope.one_filesystem || st_dev = root_dev

/-! ## Entries -/

/-- What a walk sees of one entry. -/
structure Place where
  path : Text
  name : Text
  node : Node
  is_dir : Bool
  is_symlink : Bool

section

variable (validate : Text → Option String) (inodes : Node → Stat)

/-- `PosixBackend._entry`. The third-party model validates the two `str`s: it takes them
or raises. -/
def make_entry (place : Place) : Option FsEntry :=
  let stat := inodes place.node
  let size_on_disk := stat.st_blocks * 512
  match validate place.path, validate place.name with
  | some path, some name => some
    { path
      name
      is_dir := place.is_dir
      is_symlink := place.is_symlink
      size_logical := stat.st_size
      size_on_disk
      mtime := stat.st_mtime
      ctime := stat.st_ctime
      uid := stat.st_uid
      gid := stat.st_gid
      inode := to_signed64 place.node.st_ino
      dev := to_signed64 place.node.st_dev
      flags := if place.is_dir = false ∧ place.is_symlink = false ∧ size_on_disk < stat.st_size then [("sparse", true)]
        else [] }
  | _, _ => none

/-- The validation of a `str` takes what is Unicode as it is, and no surrogate. -/
structure Strict : Prop where
  unicode : ∀ cs, validate (text cs) = some (String.ofList cs)
  surrogate : ∀ t low, .surrogate low ∈ t → validate t = none

/-! ## One directory -/

/-- A directory that is to be scanned, by its path. -/
structure Directory where
  path : Text
  listing : Listing

variable (scope : Scope) (root_dev : UInt64)

/-- The loop of `_scan_dir`: the entries of a directory, and the directories to visit. An
entry that is not taken raises out of it. -/
def Listing.scan (path : Text) : Listing → Option (List FsEntry × List Directory)
  | .nil => some ([], [])
  | .raised _ => some ([], [])
  | .leaf d is_symlink next =>
    let here := join_path path d.name
    if scope.prunes here then next.scan path
    else if d.fault then next.scan path
    else do
      let e ← make_entry validate inodes ⟨here, d.name, d.node, false, is_symlink⟩
      let (entries, subdirs) ← next.scan path
      some (e :: entries, subdirs)
  | .dir d children next =>
    let here := join_path path d.name
    if scope.prunes here then next.scan path
    else if d.fault then next.scan path
    else do
      let e ← make_entry validate inodes ⟨here, d.name, d.node, true, false⟩
      let (entries, subdirs) ← next.scan path
      some (e :: entries, if scope.enters root_dev d.node.st_dev then ⟨here, children⟩ :: subdirs else subdirs)

/-- `PosixBackend._scan_dir`. -/
def scan_dir (d : Directory) : Option (List FsEntry × List Directory) :=
  d.listing.scan validate inodes scope root_dev d.path

end

/-! ## The walk -/

/-- `RESULTS_QUEUE_MAXSIZE`. -/
def results_queue_maxsize : ℕ := 20000

/-- A walk: it has returned at once, its root was not taken, or its workers run. -/
inductive Walk where
  | returned
  | raised
  | running (s : Pool.State Directory FsEntry)

/-- The consumer has been told that there is no more. -/
def Walk.ended : Walk → Bool
  | .returned => true
  | .raised => false
  | .running s => s.ended

/-- What the consumer has been given. -/
def Walk.emitted : Walk → List FsEntry
  | .returned => []
  | .raised => []
  | .running s => s.consumed

section

variable (validate : Text → Option String) (tree : Tree) (scope : Scope) (root : Text)

/-- The entry of a root whose real path is given: it is named `Path(root).name or root`. -/
def Tree.place : Place :=
  ⟨root, if path_name root = [] then root else path_name root, tree.node, tree.root.is_dir, tree.root.is_symlink⟩

/-- The root, as a directory to scan. -/
def Tree.directory : Directory := ⟨root, tree.root.listing⟩

/-- `PosixBackend.walk`, up to where the workers start. -/
def opening (workers : ℕ) : Walk :=
  if scope.prunes root then .returned
  else if tree.fault then .returned
  else
    match make_entry validate tree.inodes (tree.place root) with
    | none => .raised
    | some e => .running (Pool.start workers [tree.directory root] [e])

/-- `PosixBackend.walk`, as a system: a step is one of a worker, of the closer or of the
consumer. -/
def walk (workers : ℕ) : System Walk Pool.Move where
  init w := w = opening validate tree scope root workers
  step w m :=
    match w with
    | .running s =>
      (Pool.step (scan_dir validate tree.inodes scope tree.node.st_dev) results_queue_maxsize s m).map .running
    | _ => none

end

/-! ## What is wanted -/

section

variable (scope : Scope) (root_dev : UInt64)

/-- What is reachable below a directory, in scope and readable: neither it nor a directory
on the way is excluded, no `stat` and no listing on the way raises, and no mount point on
the way is one that is not entered. -/
def Listing.places (path : Text) : Listing → List Place
  | .nil => []
  | .raised _ => []
  | .leaf d is_symlink next =>
    let here := join_path path d.name
    (if scope.prunes here || d.fault then [] else [⟨here, d.name, d.node, false, is_symlink⟩]) ++ next.places path
  | .dir d children next =>
    let here := join_path path d.name
    (if scope.prunes here || d.fault then []
      else ⟨here, d.name, d.node, true, false⟩ ::
        if scope.enters root_dev d.node.st_dev then children.places here else []) ++
      next.places path

end

/-- What is reachable at and below a scan root. -/
def Tree.places (tree : Tree) (scope : Scope) (root : Text) : List Place :=
  if scope.prunes root || tree.fault then []
  else tree.place root :: tree.root.listing.places scope tree.node.st_dev root

/-- **What a walk ought to report**: what is reachable and can be turned into an entry. -/
def Tree.wanted (validate : Text → Option String) (tree : Tree) (scope : Scope) (root : Text) : List FsEntry :=
  (tree.places scope root).filterMap (make_entry validate tree.inodes)

/-- **The walk is exact**: every run of it ends, and where it ends the consumer has been
given each entry once and knows that there is no more. -/
structure Exact (validate : Text → Option String) (tree : Tree) (scope : Scope) (root : Text) (workers : ℕ) : Prop where
  ends : ∃ bound, ∀ tr w, (walk validate tree scope root workers).Trace tr w → tr.length ≤ bound
  exact : ∀ tr w, (walk validate tree scope root workers).Trace tr w →
    (∀ m, (walk validate tree scope root workers).step w m = none) →
      w.ended = true ∧ w.emitted.Perm (tree.wanted validate scope root)

/-! ## One directory, without the validation -/

section

variable (scope : Scope) (root_dev : UInt64)

/-- The entries of a directory itself, in scope and readable. -/
def Listing.own (path : Text) : Listing → List Place
  | .nil => []
  | .raised _ => []
  | .leaf d is_symlink next =>
    let here := join_path path d.name
    (if scope.prunes here || d.fault then [] else [⟨here, d.name, d.node, false, is_symlink⟩]) ++ next.own path
  | .dir d _ next =>
    let here := join_path path d.name
    (if scope.prunes here || d.fault then [] else [⟨here, d.name, d.node, true, false⟩]) ++ next.own path

/-- The directories in it that are to be visited. -/
def Listing.subdirs (path : Text) : Listing → List Directory
  | .nil => []
  | .raised _ => []
  | .leaf _ _ next => next.subdirs path
  | .dir d children next =>
    let here := join_path path d.name
    (if (scope.prunes here || d.fault) = false ∧ scope.enters root_dev d.node.st_dev = true then [⟨here, children⟩]
      else []) ++ next.subdirs path

/-- The entries of a directory itself. -/
def Directory.own (d : Directory) : List Place := d.listing.own scope d.path

def Directory.subdirs (d : Directory) : List Directory := d.listing.subdirs scope root_dev d.path

/-- What is reachable below a directory. -/
def Directory.places (d : Directory) : List Place := d.listing.places scope root_dev d.path

/-- Some entry of the directory itself is not taken. -/
def Directory.rejects (validate : Text → Option String) (inodes : Node → Stat) (d : Directory) : Bool :=
  (d.own scope).any fun place => make_entry validate inodes place = none

end

/-- As many entries as a listing has. -/
def Listing.size : Listing → ℕ
  | .nil => 1
  | .raised _ => 1
  | .leaf _ _ next => next.size + 1
  | .dir _ children next => children.size + next.size + 1

section

variable {validate : Text → Option String} {inodes : Node → Stat} {scope : Scope} {root_dev : UInt64}

theorem Listing.size_pos (l : Listing) : 0 < l.size := by
  cases l with
  | nil => exact Nat.zero_lt_one
  | raised rest => exact Nat.zero_lt_one
  | leaf d is_symlink next => exact Nat.succ_pos _
  | dir d children next => exact Nat.succ_pos _

/-- What a scan makes of an entry that is taken, or not, and of the rest. -/
theorem bind_scan {e : Option FsEntry} {next : Option (List FsEntry × List Directory)} {entries : List FsEntry}
    {subdirs : List Directory} {rejects : Bool} (add : List Directory → List Directory)
    (hnext : next = if rejects = true then none else some (entries, subdirs)) :
    (e.bind fun e => next.bind fun rest => some (e :: rest.1, add rest.2))
      = if (decide (e = none) || rejects) = true then none else some (e.toList ++ entries, add subdirs) := by
  cases e with
  | none => rfl
  | some e =>
      rw [hnext]
      cases rejects with
      | true => rfl
      | false => rfl

/-- **One scan**: the entries of the directory and its subdirectories, if all entries are taken. -/
theorem scan_dir_eq (d : Directory) : scan_dir validate inodes scope root_dev d =
      if d.rejects scope validate inodes = true then none
      else some ((d.own scope).filterMap (make_entry validate inodes), d.subdirs scope root_dev) := by
  obtain ⟨path, listing⟩ := d
  rw [scan_dir, Directory.rejects, Directory.own, Directory.subdirs]
  induction listing with
  | nil => rfl
  | raised rest => rfl
  | leaf d is_symlink next ih =>
      dsimp only at ih ⊢
      rw [Listing.scan, Listing.own, Listing.subdirs]
      cases hprunes : scope.prunes (join_path path d.name) with
      | true => exact ih
      | false =>
          cases hfault : d.fault with
          | true => exact ih
          | false =>
              refine (bind_scan id ih).trans ?_
              cases hmake : make_entry validate inodes ⟨join_path path d.name, d.name, d.node, false, is_symlink⟩ with
              | none => simp [hmake]
              | some e => simp [hmake]
  | dir d children next _ ih =>
      dsimp only at ih ⊢
      rw [Listing.scan, Listing.own, Listing.subdirs]
      cases hprunes : scope.prunes (join_path path d.name) with
      | true => exact ih
      | false =>
          cases hfault : d.fault with
          | true => exact ih
          | false =>
              refine (bind_scan (fun subdirs => if scope.enters root_dev d.node.st_dev = true then
                ⟨join_path path d.name, children⟩ :: subdirs else subdirs) ih).trans ?_
              cases hmake : make_entry validate inodes ⟨join_path path d.name, d.name, d.node, true, false⟩ with
              | none => simp [hmake]
              | some e => by_cases henters : scope.enters root_dev d.node.st_dev = true <;> simp [hmake, henters]

/-- What is reachable below a directory: its own entries, and what is below those entered. -/
theorem places_perm (scope : Scope) (root_dev : UInt64) (d : Directory) : (d.places scope root_dev).Perm
      (d.own scope ++ (d.subdirs scope root_dev).flatMap (Directory.places scope root_dev)) := by
  obtain ⟨path, listing⟩ := d
  rw [Directory.places, Directory.own, Directory.subdirs]
  induction listing with
  | nil => exact .refl _
  | raised rest => exact .refl _
  | leaf d is_symlink next ih =>
      rw [Listing.places, Listing.own, Listing.subdirs, List.append_assoc]
      exact ih.append_left _
  | dir d children next _ ih =>
      rw [Listing.places, Listing.own, Listing.subdirs]
      dsimp only at ih ⊢
      cases hout : scope.prunes (join_path path d.name) || d.fault with
      | true => exact ih
      | false =>
          cases henters : scope.enters root_dev d.node.st_dev with
          | false => exact ih.cons _
          | true =>
              rw [if_neg Bool.false_ne_true, if_neg Bool.false_ne_true, if_pos rfl, if_pos ⟨rfl, rfl⟩, List.cons_append,
                List.singleton_append, List.singleton_append, List.cons_append, List.flatMap_cons]
              refine List.Perm.cons _ ?_
              -- what is below the directory goes behind the other entries
              refine (ih.append_left _).trans ?_
              rw [← List.append_assoc, ← List.append_assoc]
              exact List.perm_append_comm.append_right _

/-- The directories of a finite tree are finite. -/
theorem directories_shrink (scope : Scope) (root_dev : UInt64) (d : Directory) :
    (d.own scope).length + ((d.subdirs scope root_dev).map fun k => k.listing.size).sum < d.listing.size := by
  obtain ⟨path, listing⟩ := d
  rw [Directory.own, Directory.subdirs]
  induction listing with
  | nil => exact Nat.zero_lt_one
  | raised rest => exact Nat.zero_lt_one
  | leaf d is_symlink next ih =>
      dsimp only at ih ⊢
      rw [Listing.own, Listing.subdirs, Listing.size, List.length_append]
      split_ifs
      · rw [List.length_nil]
        omega
      · rw [List.length_singleton]
        omega
  | dir d children next _ ih =>
      dsimp only at ih ⊢
      have hpos := children.size_pos
      rw [Listing.own, Listing.subdirs, Listing.size, List.length_append, List.map_append, List.sum_append]
      split_ifs with hout henters henters
      · exact absurd henters.1 (by simp [hout])
      · rw [List.length_nil, List.map_nil, List.sum_nil]
        omega
      · rw [List.length_singleton, List.map_singleton, List.sum_singleton]
        dsimp only
        omega
      · rw [List.length_singleton, List.map_nil, List.sum_nil]
        omega

end

/-! ## The directories as jobs -/

section

variable {validate : Text → Option String} {inodes : Node → Stat} {scope : Scope} {root_dev : UInt64}

theorem shrinks : Pool.Shrinks (scan_dir validate inodes scope root_dev) fun d => d.listing.size := by
  refine ⟨fun d entries subdirs h => ?_, fun d => d.listing.size_pos⟩
  have hlt := directories_shrink scope root_dev d
  rw [scan_dir_eq] at h
  split_ifs at h
  rw [Option.some.injEq, Prod.mk.injEq] at h
  have hle := List.length_filterMap_le (make_entry validate inodes) (d.own scope)
  rw [← h.1, ← h.2]
  omega

theorem scan_dir_none (d : Directory) :
    scan_dir validate inodes scope root_dev d = none ↔ d.rejects scope validate inodes = true := by
  rw [scan_dir_eq]
  split_ifs with hrejects
  · exact ⟨fun _ => hrejects, fun _ => rfl⟩
  · exact ⟨fun h => absurd h (by simp), fun h => absurd h hrejects⟩

theorem asked_scan_dir :
    Pool.asked (scan_dir validate inodes scope root_dev)
      = fun d => if d.rejects scope validate inodes then [] else d.subdirs scope root_dev := by
  funext d
  rw [Pool.asked, scan_dir_eq]
  split_ifs with hrejects
  · rfl
  · rfl

/-- The entries to report below a directory. -/
def Directory.wanted (validate : Text → Option String) (inodes : Node → Stat) (scope : Scope) (root_dev : UInt64)
    (d : Directory) : Multiset FsEntry := (d.places scope root_dev).filterMap (make_entry validate inodes)

theorem wanted_flatMap (ds : List Directory) :
    (((ds.flatMap (Directory.places scope root_dev)).filterMap (make_entry validate inodes) : List FsEntry) : Multiset FsEntry)
      = (ds.map (Directory.wanted validate inodes scope root_dev)).sum := by
  induction ds with
  | nil => rfl
  | cons d ds ih =>
      rw [List.flatMap_cons, List.filterMap_append, ← Multiset.coe_add, ih, List.map_cons, List.sum_cons, Directory.wanted]

theorem wanted_of_scan {d : Directory} {entries : List FsEntry} {subdirs : List Directory}
    (h : scan_dir validate inodes scope root_dev d = some (entries, subdirs)) : d.wanted validate inodes scope root_dev
      = entries + (subdirs.map (Directory.wanted validate inodes scope root_dev)).sum := by
  rw [scan_dir_eq] at h
  split_ifs at h
  rw [Option.some.injEq, Prod.mk.injEq] at h
  have hperm := (places_perm scope root_dev d).filterMap (make_entry validate inodes)
  rw [List.filterMap_append, h.1, h.2] at hperm
  rw [Directory.wanted, Multiset.coe_eq_coe.mpr hperm, ← Multiset.coe_add, wanted_flatMap]

end

/-! ## When the walk is exact -/

section

variable (validate : Text → Option String) (tree : Tree) (scope : Scope) (root : Text)

/-- The directories of a tree in the order in which they come up, breadth first. Nothing
comes up of a directory in which an entry is not taken. -/
def Tree.directories : List Directory :=
  Pool.breadth_first
    (fun d => if d.rejects scope validate tree.inodes then [] else d.subdirs scope tree.node.st_dev)
    tree.root.listing.size [tree.directory root]

/-- **What it takes**: the root is taken, and so are all entries of all directories but the
last; and the last has none that is not taken, or nothing that is. -/
structure Unspoilt : Prop where
  taken : make_entry validate tree.inodes (tree.place root) ≠ none
  before_last : ∀ d ∈ (tree.directories validate scope root).dropLast, d.rejects scope validate tree.inodes = false
  last : ∀ d ∈ tree.directories validate scope root, d.rejects scope validate tree.inodes = true →
    ∀ place ∈ d.places scope tree.node.st_dev, make_entry validate tree.inodes place = none

end

section

variable {validate : Text → Option String} {tree : Tree} {scope : Scope} {root : Text} {workers : ℕ}

/-- While the workers run the walk is the pool. -/
theorem run_running {jobs : List Directory} {before : List FsEntry} (s : Pool.State Directory FsEntry) (tr : List Pool.Move) :
    (walk validate tree scope root workers).run (.running s) tr
      = ((Pool.pool (scan_dir validate tree.inodes scope tree.node.st_dev) results_queue_maxsize workers jobs
          before).run s tr).map .running := by
  induction tr generalizing s with
  | nil => rfl
  | cons m tr ih =>
      rw [System.run_cons, System.run_cons]
      change ((Pool.step _ _ s m).map Walk.running).bind _ = Option.map _ ((Pool.step _ _ s m).bind _)
      cases Pool.step (scan_dir validate tree.inodes scope tree.node.st_dev) results_queue_maxsize s m with
      | none => rfl
      | some t => exact ih t

theorem exact_running_iff {e : FsEntry} {wanted : List FsEntry}
    (hopening : opening validate tree scope root workers = .running (Pool.start workers [tree.directory root] [e]))
    (hwanted : tree.wanted validate scope root = e :: wanted) : Exact validate tree scope root workers ↔
      Pool.Exact (scan_dir validate tree.inodes scope tree.node.st_dev) results_queue_maxsize workers
        [tree.directory root] [e] wanted := by
  have hsettled : ∀ s : Pool.State Directory FsEntry,
      (∀ m, (walk validate tree scope root workers).step (.running s) m = none) ↔
        Pool.Settled (scan_dir validate tree.inodes scope tree.node.st_dev) results_queue_maxsize s := by
    intro s
    exact forall_congr' fun m => Option.map_eq_none_iff
  constructor
  · rintro ⟨⟨bound, hbound⟩, hexact⟩
    have hlift : ∀ {tr s}, (Pool.pool (scan_dir validate tree.inodes scope tree.node.st_dev) results_queue_maxsize workers
        [tree.directory root] [e]).Trace tr s → (walk validate tree scope root workers).Trace tr (.running s) := by
      rintro tr s ⟨_, rfl, hrun⟩
      refine ⟨_, rfl, ?_⟩
      rw [hopening, run_running, hrun]
      rfl
    refine ⟨⟨bound, fun tr s h => hbound tr _ (hlift h)⟩, fun tr s h hs => ?_⟩
    obtain ⟨hended, hperm⟩ := hexact tr _ (hlift h) ((hsettled s).mpr hs)
    rw [hwanted] at hperm
    exact ⟨hended, (Multiset.coe_eq_coe.mpr hperm).trans (Multiset.coe_add [e] wanted).symm⟩
  · rintro ⟨⟨bound, hbound⟩, hexact⟩
    have hlower : ∀ {tr w}, (walk validate tree scope root workers).Trace tr w →
        ∃ s, w = .running s ∧ (Pool.pool (scan_dir validate tree.inodes scope tree.node.st_dev) results_queue_maxsize
          workers [tree.directory root] [e]).Trace tr s := by
      rintro tr w ⟨_, rfl, hrun⟩
      rw [hopening, run_running, Option.map_eq_some_iff] at hrun
      obtain ⟨s, hs, rfl⟩ := hrun
      exact ⟨s, rfl, _, rfl, hs⟩
    refine ⟨⟨bound, fun tr w h => ?_⟩, fun tr w h hw => ?_⟩
    · obtain ⟨s, rfl, hs⟩ := hlower h
      exact hbound tr s hs
    · obtain ⟨s, rfl, hs⟩ := hlower h
      obtain ⟨hended, hconsumed⟩ := hexact tr s hs ((hsettled s).mp hw)
      refine ⟨hended, ?_⟩
      rw [hwanted]
      exact Multiset.coe_eq_coe.mp (hconsumed.trans (Multiset.coe_add [e] wanted))

/-- A walk whose workers do not start stays where it is. -/
theorem not_running {w₀ w : Walk} (hw₀ : opening validate tree scope root workers = w₀)
    (hstop : ∀ m, (walk validate tree scope root workers).step w₀ m = none) {tr : List Pool.Move}
    (h : (walk validate tree scope root workers).Trace tr w) : tr = [] ∧ w = w₀ := by
  obtain ⟨_, rfl, hrun⟩ := h
  rw [hw₀] at hrun
  cases tr with
  | nil => exact ⟨rfl, (Option.some.inj hrun).symm⟩
  | cons m tr =>
      rw [System.run_cons, hstop m] at hrun
      exact absurd hrun (by simp)

theorem exact_returned (hopening : opening validate tree scope root workers = .returned)
    (hwanted : tree.wanted validate scope root = []) : Exact validate tree scope root workers := by
  refine ⟨⟨0, fun tr w h => ?_⟩, fun tr w h _ => ?_⟩
  · rw [(not_running hopening (fun _ => rfl) h).1, List.length_nil]
  · rw [(not_running hopening (fun _ => rfl) h).2, hwanted]
    exact ⟨rfl, .refl _⟩

/-- A walk that does not start has nothing to report. -/
theorem exact_closed (h : scope.prunes root = true ∨ tree.fault = true) : Exact validate tree scope root workers := by
  by_cases hprunes : scope.prunes root = true
  · refine exact_returned ?_ ?_
    · rw [opening, if_pos hprunes]
    · rw [Tree.wanted, Tree.places, hprunes]
      rfl
  · have hfault := h.resolve_left hprunes
    refine exact_returned ?_ ?_
    · rw [opening, if_neg hprunes, if_pos hfault]
    · rw [Tree.wanted, Tree.places, hfault, Bool.or_true]
      rfl

/-- When a walk that starts is exact. -/
theorem exact_open_iff (hprunes : scope.prunes root = false) (hfault : tree.fault = false) :
    (∀ workers, 1 ≤ workers → Exact validate tree scope root workers) ↔ Unspoilt validate tree scope root := by
  cases hroot : make_entry validate tree.inodes (tree.place root) with
  | none =>
      have hopening : opening validate tree scope root 1 = .raised := by
        rw [opening, hprunes, hfault, hroot]
        rfl
      constructor
      · intro hexact
        -- the exception comes out of the walk
        have hended := ((hexact 1 (Nat.le_refl _)).exact [] .raised ⟨_, rfl, by rw [hopening]; rfl⟩ fun _ => rfl).1
        exact absurd hended (by simp [Walk.ended])
      · exact fun hunspoilt => absurd hroot hunspoilt.taken
  | some e =>
      have hopening : ∀ workers,
          opening validate tree scope root workers = .running (Pool.start workers [tree.directory root] [e]) := by
        intro workers
        rw [opening, hprunes, hfault, hroot]
        rfl
      have hwanted : tree.wanted validate scope root
          = e :: ((tree.directory root).places scope tree.node.st_dev).filterMap (make_entry validate tree.inodes) := by
        rw [Tree.wanted, Tree.places, hprunes, hfault, Bool.or_false, if_neg Bool.false_ne_true,
          List.filterMap_cons_some hroot]
        rfl
      have hpool := @Pool.exact_iff _ _ (scan_dir validate tree.inodes scope tree.node.st_dev) results_queue_maxsize _
        [tree.directory root] [e] shrinks (by decide) _ (fun _ _ _ => wanted_of_scan) tree.root.listing.size
        (by rw [List.map_singleton, List.sum_singleton]; exact Nat.le_refl _)
      rw [List.map_singleton, List.sum_singleton] at hpool
      have hexact : (∀ workers, 1 ≤ workers → Exact validate tree scope root workers) ↔ _ :=
        (forall₂_congr fun workers _ => exact_running_iff (hopening workers) hwanted).trans hpool
      rw [hexact, asked_scan_dir]
      constructor
      · rintro ⟨hbefore, hlast⟩
        refine ⟨by rw [hroot]; simp, fun d hd => ?_, fun d hd hrejects place hplace => ?_⟩
        · exact Bool.eq_false_iff.mpr fun hrejects => hbefore d hd ((scan_dir_none d).mpr hrejects)
        · have hnone := hlast d hd ((scan_dir_none d).mpr hrejects)
          rw [Directory.wanted, Multiset.coe_eq_zero, List.filterMap_eq_nil_iff] at hnone
          exact hnone place hplace
      · rintro ⟨-, hbefore, hlast⟩
        refine ⟨fun d hd hnone => ?_, fun d hd hnone => ?_⟩
        · exact absurd ((scan_dir_none d).mp hnone) (by rw [hbefore d hd]; decide)
        · rw [Directory.wanted, Multiset.coe_eq_zero, List.filterMap_eq_nil_iff]
          exact hlast d hd ((scan_dir_none d).mp hnone)

theorem exact_of_unspoilt (h : Unspoilt validate tree scope root) (hworkers : 1 ≤ workers) :
    Exact validate tree scope root workers := by
  by_cases hclosed : scope.prunes root = true ∨ tree.fault = true
  · exact exact_closed hclosed
  · rw [not_or] at hclosed
    exact (exact_open_iff (Bool.eq_false_iff.mpr hclosed.1) (Bool.eq_false_iff.mpr hclosed.2)).mpr h workers hworkers

end

/-- A validation as the third-party model does it. -/
def unicode : Text → Option String
  | [] => some ""
  | .char c :: rest => (unicode rest).map fun s => String.ofList (c :: s.toList)
  | .surrogate _ :: _ => none

theorem strict_unicode : Strict unicode := by
  constructor
  · intro cs
    induction cs with
    | nil => rfl
    | cons c cs ih =>
        rw [text, List.map_cons, unicode, ← text, ih, Option.map_some, String.toList_ofList]
  · intro t low h
    induction t with
    | nil => exact absurd h List.not_mem_nil
    | cons c t ih =>
        cases c with
        | surrogate other => rfl
        | char c =>
            rw [unicode, ih ((List.mem_cons.mp h).resolve_left (by simp)), Option.map_none]

/-- A directory `/r` with two others in it: `a`, with a file whose name is the byte `0xff`, and `b`. -/
def stuck_tree : Tree where
  inodes _ := ⟨1, 1, 0, 0, 0, 0⟩
  node := ⟨1, 1⟩
  fault := false
  root := .directory
    (.dir ⟨⟨text ['a'], by decide⟩, ⟨1, 2⟩, false⟩ (.leaf ⟨⟨[.surrogate 1279], by decide⟩, ⟨1, 3⟩, false⟩ false .nil)
      (.dir ⟨⟨text ['b'], by decide⟩, ⟨1, 4⟩, false⟩ .nil .nil))

end Fathom.Agent.Crawl
