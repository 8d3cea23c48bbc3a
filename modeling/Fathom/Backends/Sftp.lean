/-
**The walk of an SFTP share** (`backends/remote.py`, `backends/sftp.py`).

The path an entry gets in the catalogue is cut out of its path on the server, by the length of
the configured path without its trailing slashes. The transport puts the path of an entry
together from the path of its directory, likewise without trailing slashes, so the two agree
however the configured path is spelled.

A directory that cannot be listed is skipped when the listing raises an `OSError`. The errors of
the SFTP client are none, and one of them ends the walk: `remote_walk_exact_iff` says when a walk
is exact. A server is any assignment of directories to paths in which a child is found behind its
directory, however many slashes stand between them.
-/
import Fathom.Agent.Columns
import Fathom.Agent.Remote
import Fathom.Lib.Traversal

set_option autoImplicit false

namespace Fathom.Backends

open Fathom.Columns Fathom.Security Fathom.Traversal
open Fathom.Agent (RemoteBackendConfig)

attribute [local instance] lawful_text

/-! ## Servers -/

/-- What a listing raises. -/
inductive ListError where
  | os_error
  /-- the client's own class, which is no `OSError` -/
  | sftp_error
  deriving DecidableEq

/-- The attributes of an entry, each of which a server may leave out. -/
structure SftpAttrs where
  permissions : Option ℕ := none
  size : Option ℕ := none
  mtime : Option ℕ := none
  uid : Option ℕ := none
  gid : Option ℕ := none

/-- `stat.S_ISDIR`. -/
def S_ISDIR (mode : ℕ) : Bool := mode &&& 0o170000 == 0o040000

/-- `stat.S_ISLNK`. -/
def S_ISLNK (mode : ℕ) : Bool := mode &&& 0o170000 == 0o120000

namespace SftpAttrs

def mode (attrs : SftpAttrs) : ℕ := attrs.permissions.getD 0

def is_dir (attrs : SftpAttrs) : Bool := S_ISDIR attrs.mode

def is_symlink (attrs : SftpAttrs) : Bool := S_ISLNK attrs.mode

/-- What a symlink is not. -/
theorem is_symlink_of_is_dir {attrs : SftpAttrs} (h : attrs.is_dir = true) : attrs.is_symlink = false := by
  rw [is_dir, S_ISDIR, beq_iff_eq] at h
  rw [is_symlink, S_ISLNK, h]
  rfl

end SftpAttrs

/-- A directory of a server, with what is below each of its entries. -/
inductive Directory where
  | nil
  /-- reading it fails here -/
  | failed (error : ListError)
  | entry (filename : Name) (attrs : SftpAttrs) (below next : Directory)

/-- An entry of a directory. -/
abbrev Row := Name × SftpAttrs × Directory

namespace Directory

/-- What reading a directory gives: all of its entries, or nothing. -/
def read : Directory → Except ListError (List Row)
  | .nil => .ok []
  | .failed error => .error error
  | .entry filename attrs below next => next.read.map ((filename, attrs, below) :: ·)

/-- How many entries there are, at any depth. -/
def size : Directory → ℕ
  | .nil => 0
  | .failed _ => 0
  | .entry _ _ below next => below.size + next.size + 1

end Directory

/-- The names `listdir` leaves out. -/
def is_dots (filename : Name) : Bool := filename == ['.'] || filename == ['.', '.']

/-- The entries that are not left out. -/
def shown (rows : List Row) : List Row := rows.filter fun row => !is_dots row.1

/-- The names of a directory are components, and no two are the same. -/
structure Proper (rows : List Row) : Prop where
  component : ∀ row ∈ shown rows, IsComponent '/' row.1
  distinct : ((shown rows).map (·.1)).Nodup

/-- A server. -/
structure Server where
  /-- The directory that a path names. -/
  node : List Char → Option Directory
  proper : ∀ {path d rows}, node path = some d → d.read = .ok rows → Proper rows
  /-- A directory in a directory is found behind it, however many slashes the path ends in. -/
  child : ∀ {bare slashes d rows row}, bare ++ List.replicate slashes '/' ≠ [] →
    node (bare ++ List.replicate slashes '/') = some d → d.read = .ok rows → row ∈ shown rows →
    row.2.1.is_dir = true → node (bare ++ '/' :: row.1) = some row.2.2

/-- `readdir` of the client. What is not there is an error of its own class. -/
def Server.readdir (server : Server) (path : List Char) : Except ListError (List (Name × SftpAttrs)) :=
  match server.node path with
  | none => .error .sftp_error
  | some d => d.read.map fun rows => rows.map fun row => (row.1, row.2.1)

/-! ## The transport and the walk -/

/-- `RemoteStat`. -/
structure RemoteStat where
  name : Name
  path : List Char
  is_dir : Bool
  is_symlink : Bool
  size : ℕ
  mtime : PyFloat
  uid : Int
  gid : Int

/-- `path.rstrip("/")`. -/
def rstrip (path : List Char) : List Char := path.rdropWhile (· = '/')

/-- The frame `listdir` makes of an entry. -/
def live_stat (path : List Char) (filename : Name) (attrs : SftpAttrs) : RemoteStat where
  name := filename
  path := rstrip path ++ '/' :: filename
  is_dir := attrs.is_dir
  is_symlink := attrs.is_symlink
  size := attrs.size.getD 0
  mtime := .finite (attrs.mtime.getD 0)
  uid := attrs.uid.getD 0
  gid := attrs.gid.getD 0

/-- `_AsyncsshSftpTransport.listdir`. -/
def listdir (server : Server) (path : List Char) : Except ListError (List RemoteStat) :=
  (server.readdir path).map fun names =>
    (names.filter fun entry => !is_dots entry.1).map fun entry => live_stat path entry.1 entry.2

section

variable (digest : String → ℕ)

/-- `synthetic_inode`, from the eight bytes of a digest. -/
def synthetic_inode (path : String) : ℕ := digest path &&& 0x7FFFFFFFFFFFFFFF

/-- `to_fs_entry`. -/
def to_fs_entry (stat : RemoteStat) (path : List Char) : FsEntry where
  path := String.ofList path
  name := String.ofList stat.name
  is_dir := stat.is_dir
  is_symlink := stat.is_symlink
  size_logical := stat.size
  size_on_disk := stat.size
  mtime := stat.mtime
  ctime := stat.mtime
  uid := stat.uid
  gid := stat.gid
  inode := synthetic_inode digest (String.ofList path)
  dev := 0
  flags := []
  provider_hash := none
  provider_hash_algo := none

/-- `_to_catalogue_path`. -/
def to_catalogue_path (real_path remote_root mount : List Char) : List Char :=
  let rel := real_path.drop (rstrip remote_root).length
  if rel ≠ [] then mount ++ rel else mount

/-- One round of `remote_walk`: what is yielded, and the directories that are put on the stack,
the last one on top. -/
def visit (listdir : List Char → Except ListError (List RemoteStat)) (follow_symlinks : Bool)
    (mount remote_root current : List Char) : Except ListError (List FsEntry × List (List Char)) :=
  match listdir current with
  | .error .os_error => .ok ([], [])
  | .error .sftp_error => .error .sftp_error
  | .ok children =>
    .ok (children.map fun child => to_fs_entry digest child (to_catalogue_path child.path remote_root mount),
      ((children.filter fun child => child.is_dir && (follow_symlinks || !child.is_symlink)).map
        RemoteStat.path).reverse)

/-- `remote_walk`, in so many rounds. -/
def remote_walk (listdir : List Char → Except ListError (List RemoteStat)) (root : List Char) (follow_symlinks : Bool)
    (mount remote_root : List Char) (rounds : ℕ) : Option (Walked FsEntry ListError) :=
  walk (visit digest listdir follow_symlinks mount remote_root) rounds [root]

/-- `mount_key`. -/
def mount_key (c : RemoteBackendConfig) : String :=
  match c.protocol with
  | .smb => "smb://" ++ c.host ++ "/" ++ c.share.getD "None" ++ c.remote_path
  | .rclone => "rclone://" ++ c.host ++ c.remote_path
  | .sftp => "sftp://" ++ c.host ++ c.remote_path

/-- `SftpBackend`. -/
structure SftpBackend where
  config : RemoteBackendConfig
  is_sftp : config.protocol = .sftp

/-- `SftpBackend.walk`. -/
def SftpBackend.walk (b : SftpBackend) (server : Server) (root : String) (follow_symlinks : Bool) (rounds : ℕ) :
    Option (Walked FsEntry ListError) :=
  let start := if root = mount_key b.config then b.config.remote_path else root
  remote_walk digest (listdir server) start.toList follow_symlinks b.config.catalogue_mount.toList
    b.config.remote_path.toList rounds

end

/-! ## What is there, and what a walk makes of it -/

/-- The directories one gets to through directories that can be listed. -/
inductive Leads : Directory → List Name → Directory → Prop where
  | here (d : Directory) : Leads d [] d
  | next {d d' : Directory} {rows : List Row} {row : Row} {names : List Name} (hread : d.read = .ok rows)
      (hrow : row ∈ shown rows) (hdir : row.2.1.is_dir = true) (hleads : Leads row.2.2 names d') :
      Leads d (row.1 :: names) d'

/-- The entries of these directories, each with its names below the first. -/
def Lists (d : Directory) (names : List Name) (attrs : SftpAttrs) : Prop :=
  ∃ above d' rows row, Leads d above d' ∧ d'.read = .ok rows ∧ row ∈ shown rows ∧ row.2.1 = attrs ∧
    names = above ++ [row.1]

/-- An entry of the catalogue is what stands under these names. -/
structure Describes (c : RemoteBackendConfig) (names : List Name) (attrs : SftpAttrs) (e : FsEntry) : Prop where
  path : e.path.toList = c.catalogue_mount.toList ++ absolute names
  below : norm_components '/' true e.path.toList = c.mount_names ++ names
  name : names.getLast? = some e.name.toList
  is_dir : e.is_dir = attrs.is_dir
  is_symlink : e.is_symlink = attrs.is_symlink
  size : e.size_logical = attrs.size.getD 0

/-- The walk is exact. -/
structure WalkExact (c : RemoteBackendConfig) (d : Directory) (w : Walked FsEntry ListError) : Prop where
  finished : w.raised = none
  sound : ∀ e ∈ w.yielded, ∃ names attrs, Lists d names attrs ∧ Describes c names attrs e
  complete : ∀ names attrs, Lists d names attrs → ∃ e ∈ w.yielded, Describes c names attrs e
  distinct : (w.yielded.map FsEntry.path).Nodup

/-- No directory that the walk comes to fails to list with an error of the client's own. -/
def Listable (d : Directory) : Prop := ∀ names d', Leads d names d' → d'.read ≠ .error .sftp_error

/-! ## Paths -/

theorem rstrip_append_replicate (path : List Char) : ∃ slashes, path = rstrip path ++ List.replicate slashes '/' := by
  induction path using List.reverseRecOn with
  | nil => exact ⟨0, rfl⟩
  | append_singleton path x ih =>
      by_cases hx : x = '/'
      · obtain ⟨slashes, hpath⟩ := ih
        refine ⟨slashes + 1, ?_⟩
        rw [rstrip, List.rdropWhile_concat_pos _ _ _ (by simpa using hx), List.replicate_succ', ← List.append_assoc,
          hx]
        exact congrArg (· ++ ['/']) hpath
      · refine ⟨0, ?_⟩
        rw [rstrip, List.rdropWhile_concat_neg _ _ _ (by simpa using hx), List.replicate_zero, List.append_nil]

/-- A path that ends in a name has no slashes to strip. -/
theorem rstrip_name (path : List Char) {name : Name} (h : IsComponent '/' name) :
    rstrip (path ++ '/' :: name) = path ++ '/' :: name := by
  rcases List.eq_nil_or_concat name with hnil | ⟨init, x, hname⟩
  · exact absurd hnil h.ne_nil
  · have hx : x ≠ '/' := by
      rintro rfl
      exact h.no_sep (by rw [hname, List.concat_eq_append]; exact List.mem_append_right _ List.mem_cons_self)
    rw [hname, List.concat_eq_append, ← List.cons_append, ← List.append_assoc]
    exact List.rdropWhile_concat_neg _ _ _ (by simpa using hx)

/-- The path of what stands under some names below a directory. -/
def at_names (path : List Char) : List Name → List Char
  | [] => path
  | name :: names => at_names (rstrip path ++ '/' :: name) names

theorem at_names_append (path : List Char) (names more : List Name) :
    at_names path (names ++ more) = at_names (at_names path names) more := by
  induction names generalizing path with
  | nil => rfl
  | cons name names ih => exact ih _

/-- The transport's paths are the path it started at, without its slashes, and the names. -/
theorem at_names_eq (path : List Char) {names : List Name} (h : ∀ n ∈ names, IsComponent '/' n) (hne : names ≠ []) :
    at_names path names = rstrip path ++ absolute names := by
  induction names generalizing path with
  | nil => exact absurd rfl hne
  | cons name names ih =>
      rw [at_names]
      rcases names with _ | ⟨second, names⟩
      · rw [absolute, join_singleton]
        rfl
      · rw [ih _ (fun n hn => h n (List.mem_cons_of_mem _ hn)) (List.cons_ne_nil _ _),
          rstrip_name _ (h name List.mem_cons_self), absolute, absolute, join_cons_cons, List.append_assoc]
        rfl

/-- **The catalogue path** of what stands under some names is the mount and the names. -/
theorem to_catalogue_path_at_names (remote_root mount : List Char) {names : List Name}
    (h : ∀ n ∈ names, IsComponent '/' n) (hne : names ≠ []) :
    to_catalogue_path (at_names remote_root names) remote_root mount = mount ++ absolute names := by
  rw [to_catalogue_path, at_names_eq remote_root h hne, List.drop_left]
  exact if_pos (List.cons_ne_nil _ _)

/-- Component by component it is below the mount. -/
theorem norm_components_below (c : RemoteBackendConfig) {names : List Name} (h : ∀ n ∈ names, IsComponent '/' n) :
    norm_components '/' true (c.catalogue_mount.toList ++ absolute names) = c.mount_names ++ names := by
  have hmount : norm_components '/' true c.catalogue_mount.toList = c.mount_names := by
    rw [c.catalogue_mount_toList, absolute, norm_components_sep_cons]
    exact norm_components_join c.mount_names_component true
  have hnames : norm_components '/' true (join '/' names) = names := norm_components_join h true
  rw [← hmount, norm_components, absolute, List.splitOn_append_cons_self, List.foldl_append]
  rcases names with _ | ⟨name, names⟩
  · rw [List.append_nil]
    exact norm_step_empty true _
  · rw [splitOn_join (fun n hn => (h n hn).no_sep) (List.cons_ne_nil _ _)]
    exact foldl_norm_step_components h true _

/-! ## A visit -/

section

variable {digest : String → ℕ} {c : RemoteBackendConfig} {server : Server} {follow_symlinks : Bool}

/-- The visits of a walk of the mount. -/
abbrev mount_visit (digest : String → ℕ) (c : RemoteBackendConfig) (server : Server) (follow_symlinks : Bool) :
    List Char → Except ListError (List FsEntry × List (List Char)) :=
  visit digest (listdir server) follow_symlinks c.catalogue_mount.toList c.remote_path.toList

/-- What is yielded for an entry of a directory. -/
def entry_at (digest : String → ℕ) (c : RemoteBackendConfig) (path : List Char) (row : Row) : FsEntry :=
  to_fs_entry digest (live_stat path row.1 row.2.1)
    (to_catalogue_path (rstrip path ++ '/' :: row.1) c.remote_path.toList c.catalogue_mount.toList)

/-- The directories that are put on the stack for one. -/
def descents (path : List Char) (rows : List Row) : List (List Char) :=
  (((shown rows).filter fun row => row.2.1.is_dir).map fun row => rstrip path ++ '/' :: row.1).reverse

variable {path : List Char} {d : Directory} {rows : List Row}

theorem listdir_ok (hnode : server.node path = some d) (hread : d.read = .ok rows) :
    listdir server path = .ok ((shown rows).map fun row => live_stat path row.1 row.2.1) := by
  rw [listdir, Server.readdir, hnode]
  dsimp only
  rw [hread, Except.map, Except.map, List.filter_map, List.map_map]
  rfl

theorem listdir_error {error : ListError} (hnode : server.node path = some d) (hread : d.read = .error error) :
    listdir server path = .error error := by
  rw [listdir, Server.readdir, hnode]
  dsimp only
  rw [hread]
  rfl

/-- **A directory that can be listed** yields its entries and puts its directories on the stack. -/
theorem visit_ok (hnode : server.node path = some d) (hread : d.read = .ok rows) :
    mount_visit digest c server follow_symlinks path = .ok ((shown rows).map (entry_at digest c path), descents path rows) := by
  rw [mount_visit, visit, listdir_ok hnode hread]
  dsimp only
  rw [List.map_map, List.filter_map, List.map_map, descents]
  have hfilter : (shown rows).filter ((fun child : RemoteStat => child.is_dir && (follow_symlinks || !child.is_symlink)) ∘
      fun row => live_stat path row.1 row.2.1) = (shown rows).filter fun row => row.2.1.is_dir := by
    refine List.filter_congr fun row _ => ?_
    show (row.2.1.is_dir && (follow_symlinks || !row.2.1.is_symlink)) = row.2.1.is_dir
    cases hdir : row.2.1.is_dir with
    | false => rfl
    | true => rw [SftpAttrs.is_symlink_of_is_dir hdir, Bool.not_false, Bool.or_true, Bool.and_true]
  rw [hfilter]
  rfl

/-- An `OSError` costs what is below the directory. -/
theorem visit_os_error (hnode : server.node path = some d) (hread : d.read = .error .os_error) :
    mount_visit digest c server follow_symlinks path = .ok ([], []) := by
  rw [mount_visit, visit, listdir_error hnode hread]

/-- An error of the client's own costs the walk. -/
theorem visit_sftp_error (hnode : server.node path = some d) (hread : d.read = .error .sftp_error) :
    mount_visit digest c server follow_symlinks path = .error .sftp_error := by
  rw [mount_visit, visit, listdir_error hnode hread]

/-- **What a visit that does not fail can be**: nothing, or that of a directory that can be listed. -/
theorem visit_eq_ok {out : List FsEntry} {more : List (List Char)} (hnode : server.node path = some d)
    (h : mount_visit digest c server follow_symlinks path = .ok (out, more)) : (out = [] ∧ more = []) ∨
      ∃ rows, d.read = .ok rows ∧ out = (shown rows).map (entry_at digest c path) ∧ more = descents path rows := by
  rcases hread : d.read with (_ | _) | rows
  · rw [visit_os_error hnode hread, Except.ok.injEq, Prod.mk.injEq] at h
    exact .inl ⟨h.1.symm, h.2.symm⟩
  · rw [visit_sftp_error hnode hread] at h
    cases h
  · rw [visit_ok hnode hread, Except.ok.injEq, Prod.mk.injEq] at h
    exact .inr ⟨rows, rfl, h.1.symm, h.2.symm⟩

/-- A visit fails with an error of the client's own. -/
theorem visit_eq_error {error : ListError} (hnode : server.node path = some d)
    (h : mount_visit digest c server follow_symlinks path = .error error) : d.read = .error .sftp_error := by
  rcases hread : d.read with (_ | _) | rows
  · rw [visit_os_error hnode hread] at h
    cases h
  · rfl
  · rw [visit_ok hnode hread] at h
    cases h

/-! ## The places of a walk -/

/-- A path names a directory, and is put together from the root and some names. -/
structure Stands (c : RemoteBackendConfig) (server : Server) (above : List Name) (path : List Char) (d : Directory) :
    Prop where
  path_eq : path = at_names c.remote_path.toList above
  ne_nil : path ≠ []
  node : server.node path = some d
  names : ∀ n ∈ above, IsComponent '/' n

variable {above names : List Name} {row : Row}

theorem mem_descents {p : List Char} :
    p ∈ descents path rows ↔ ∃ row ∈ shown rows, row.2.1.is_dir = true ∧ p = rstrip path ++ '/' :: row.1 := by
  rw [descents, List.mem_reverse, List.mem_map]
  constructor
  · rintro ⟨row, hrow, rfl⟩
    obtain ⟨hrow, hdir⟩ := List.mem_filter.mp hrow
    exact ⟨row, hrow, hdir, rfl⟩
  · rintro ⟨row, hrow, hdir, rfl⟩
    exact ⟨row, List.mem_filter.mpr ⟨hrow, hdir⟩, rfl⟩

/-- The directory below one stands behind it. -/
theorem Stands.child (h : Stands c server above path d) (hread : d.read = .ok rows) (hrow : row ∈ shown rows)
    (hdir : row.2.1.is_dir = true) : Stands c server (above ++ [row.1]) (rstrip path ++ '/' :: row.1) row.2.2 := by
  obtain ⟨slashes, hpath⟩ := rstrip_append_replicate path
  have hname := (server.proper h.node hread).component row hrow
  refine ⟨?_, by simp, ?_, fun n hn => ?_⟩
  · rw [at_names_append, ← h.path_eq]
    rfl
  · have hne := h.ne_nil
    have hnode := h.node
    rw [hpath] at hne hnode
    exact server.child hne hnode hread hrow hdir
  · rcases List.mem_append.mp hn with hn | hn
    · exact h.names n hn
    · rw [List.mem_singleton.mp hn]
      exact hname

variable (digest follow_symlinks) in
theorem Stands.leads {d' : Directory} (h : Stands c server above path d) (hleads : Leads d names d') :
    ∃ t, Stands c server (above ++ names) t d' ∧ Reached (mount_visit digest c server follow_symlinks) path t := by
  induction hleads generalizing above path with
  | here => exact ⟨path, by rw [List.append_nil]; exact h, .here path⟩
  | @next d d' rows row names hread hrow hdir _ ih =>
      obtain ⟨t, ht, hreached⟩ := ih (h.child hread hrow hdir)
      rw [List.append_assoc] at ht
      exact ⟨t, ht, .next (visit_ok h.node hread) (mem_descents.mpr ⟨row, hrow, hdir, rfl⟩) hreached⟩

theorem Stands.reached {t : List Char} (h : Stands c server above path d)
    (hreached : Reached (mount_visit digest c server follow_symlinks) path t) :
    ∃ names d', Leads d names d' ∧ Stands c server (above ++ names) t d' := by
  induction hreached generalizing above d with
  | here => exact ⟨[], d, .here d, by rw [List.append_nil]; exact h⟩
  | next hvisit ht _ ih =>
      rcases visit_eq_ok h.node hvisit with ⟨-, rfl⟩ | ⟨rows, hread, -, rfl⟩
      · exact absurd ht List.not_mem_nil
      · obtain ⟨row, hrow, hdir, rfl⟩ := mem_descents.mp ht
        obtain ⟨names, d', hleads, hstands⟩ := ih (h.child hread hrow hdir)
        rw [List.append_assoc] at hstands
        exact ⟨row.1 :: names, d', .next hread hrow hdir hleads, hstands⟩

variable (digest) in
/-- An entry is yielded as what it is, in its place. -/
theorem Stands.describes (h : Stands c server above path d) (hread : d.read = .ok rows) (hrow : row ∈ shown rows) :
    Describes c (above ++ [row.1]) row.2.1 (entry_at digest c path row) := by
  have hnames : ∀ n ∈ above ++ [row.1], IsComponent '/' n := by
    intro n hn
    rcases List.mem_append.mp hn with hn | hn
    · exact h.names n hn
    · rw [List.mem_singleton.mp hn]
      exact (server.proper h.node hread).component row hrow
  have hpath : (entry_at digest c path row).path.toList =
      c.catalogue_mount.toList ++ absolute (above ++ [row.1]) := by
    rw [entry_at, to_fs_entry, String.toList_ofList, ← to_catalogue_path_at_names _ _ hnames (by simp), at_names_append,
      ← h.path_eq]
    rfl
  refine ⟨hpath, ?_, ?_, rfl, rfl, rfl⟩
  · rw [hpath]
    exact norm_components_below c hnames
  · rw [List.getLast?_concat, entry_at, to_fs_entry, String.toList_ofList]
    rfl

/-- **What there is to yield from a place on** is what stands below it. -/
theorem Stands.yields {e : FsEntry} (h : Stands c server above path d)
    (hyields : Yields (mount_visit digest c server follow_symlinks) path e) :
    ∃ names attrs, Lists d names attrs ∧ (∀ n ∈ above ++ names, IsComponent '/' n) ∧ Describes c (above ++ names) attrs e := by
  obtain ⟨t, out, more, hreached, hvisit, he⟩ := hyields
  obtain ⟨names, d', hleads, hstands⟩ := h.reached hreached
  rcases visit_eq_ok hstands.node hvisit with ⟨rfl, -⟩ | ⟨rows, hread, rfl, -⟩
  · exact absurd he List.not_mem_nil
  · obtain ⟨row, hrow, rfl⟩ := List.mem_map.mp he
    have hdescribes := hstands.describes digest hread hrow
    rw [List.append_assoc] at hdescribes
    refine ⟨names ++ [row.1], row.2.1, ⟨names, d', rows, row, hleads, hread, hrow, rfl, rfl⟩, fun n hn => ?_, hdescribes⟩
    rw [← List.append_assoc] at hn
    rcases List.mem_append.mp hn with hn | hn
    · exact hstands.names n hn
    · rw [List.mem_singleton.mp hn]
      exact (server.proper hstands.node hread).component row hrow

variable (digest follow_symlinks) in
theorem Stands.yields_of_lists {attrs : SftpAttrs} (h : Stands c server above path d) (hlists : Lists d names attrs) :
    ∃ e, Yields (mount_visit digest c server follow_symlinks) path e ∧ Describes c (above ++ names) attrs e := by
  obtain ⟨between, d', rows, row, hleads, hread, hrow, rfl, rfl⟩ := hlists
  obtain ⟨t, hstands, hreached⟩ := h.leads digest follow_symlinks hleads
  have hdescribes := hstands.describes digest hread hrow
  rw [List.append_assoc] at hdescribes
  exact ⟨_, ⟨t, _, _, hreached, visit_ok hstands.node hread, List.mem_map_of_mem hrow⟩, hdescribes⟩

/-! ## No entry twice -/

/-- The catalogue path says under which names an entry stands. -/
theorem names_of_path {names' : List Name} {attrs attrs' : SftpAttrs} {e e' : FsEntry}
    (h : ∀ n ∈ names, IsComponent '/' n) (h' : ∀ n ∈ names', IsComponent '/' n) (he : Describes c names attrs e)
    (he' : Describes c names' attrs' e') (hpath : e.path = e'.path) : names = names' := by
  have hsame := congrArg String.toList hpath
  rw [he.path, he'.path] at hsame
  exact Fathom.Agent.RemoteBackendConfig.absolute_inj h h' (List.append_cancel_left hsame)

theorem Stands.distinct (h : Stands c server above path d) :
    Distinct (mount_visit digest c server follow_symlinks) FsEntry.path path := by
  have hown : ∀ {rows row}, d.read = .ok rows → row ∈ shown rows → ∀ n ∈ above ++ [row.1], IsComponent '/' n := by
    intro rows row hread hrow n hn
    rcases List.mem_append.mp hn with hn | hn
    · exact h.names n hn
    · rw [List.mem_singleton.mp hn]
      exact (server.proper h.node hread).component row hrow
  have hrows : ∀ {rows}, d.read = .ok rows → (shown rows).Pairwise fun row row' => row.1 ≠ row'.1 := fun hread =>
    List.pairwise_map.mp (server.proper h.node hread).distinct
  refine ⟨fun hvisit => ?_, fun hvisit e he t ht e' he' heq => ?_, fun hvisit => ?_⟩
  · rcases visit_eq_ok h.node hvisit with ⟨rfl, -⟩ | ⟨rows, hread, rfl, -⟩
    · exact List.nodup_nil
    · rw [List.map_map]
      refine List.pairwise_map.mpr ((hrows hread).imp_of_mem fun hrow hrow' hne heq => hne ?_)
      have hnames := names_of_path (hown hread hrow) (hown hread hrow') (h.describes digest hread hrow) (h.describes digest hread hrow')
        heq
      exact List.singleton_inj.mp (List.append_cancel_left hnames)
  · rcases visit_eq_ok h.node hvisit with ⟨rfl, -⟩ | ⟨rows, hread, rfl, rfl⟩
    · exact List.not_mem_nil he
    · obtain ⟨row, hrow, rfl⟩ := List.mem_map.mp he
      obtain ⟨row', hrow', hdir, rfl⟩ := mem_descents.mp ht
      obtain ⟨names, attrs, hlists, hnames, hdescribes⟩ := (h.child hread hrow' hdir).yields he'
      -- what is below a directory has more names than its entries have
      have hsame := names_of_path (hown hread hrow) hnames (h.describes digest hread hrow) hdescribes heq
      obtain ⟨between, d', rows', last, -, -, -, -, rfl⟩ := hlists
      have hlength := congrArg List.length hsame
      simp only [List.length_append, List.length_singleton] at hlength
      omega
  · rcases visit_eq_ok h.node hvisit with ⟨-, rfl⟩ | ⟨rows, hread, -, rfl⟩
    · exact List.Pairwise.nil
    · refine List.pairwise_reverse.mpr (List.pairwise_map.mpr (((hrows hread).filter _).imp_of_mem ?_))
      intro row row' hrow hrow' hne e e' he he' heq
      obtain ⟨hrow, hdir⟩ := List.mem_filter.mp hrow
      obtain ⟨hrow', hdir'⟩ := List.mem_filter.mp hrow'
      obtain ⟨names', attrs', -, hnames', hdescribes'⟩ := (h.child hread hrow' hdir').yields he
      obtain ⟨names, attrs, -, hnames, hdescribes⟩ := (h.child hread hrow hdir).yields he'
      have hsame := names_of_path hnames' hnames hdescribes' hdescribes heq
      rw [List.append_assoc, List.append_assoc] at hsame
      exact hne (List.cons.inj (List.append_cancel_left hsame)).1.symm

/-! ## The end of the walk -/

/-- What a path can still cost. -/
def rank (server : Server) (path : List Char) : ℕ := (server.node path).elim 1 fun d => d.size + 1

/-- A listing that comes to an end has its first entry and the rest. -/
theorem read_entry {filename : Name} {attrs : SftpAttrs} {below next : Directory} {rows : List Row}
    (hread : (Directory.entry filename attrs below next).read = .ok rows) :
    ∃ more, next.read = .ok more ∧ (filename, attrs, below) :: more = rows := by
  rw [Directory.read] at hread
  rcases hnext : next.read with error | more
  · rw [hnext] at hread
    cases hread
  · rw [hnext] at hread
    exact ⟨more, rfl, Except.ok.inj hread⟩

theorem size_of_read (hread : d.read = .ok rows) : (rows.map fun row => row.2.2.size + 1).sum = d.size := by
  induction d generalizing rows with
  | nil =>
      obtain rfl := Except.ok.inj hread
      rfl
  | failed error => cases hread
  | entry filename attrs below next _ ih =>
      obtain ⟨more, hnext, rfl⟩ := read_entry hread
      rw [List.map_cons, List.sum_cons, ih hnext, Directory.size]
      dsimp only
      omega

theorem sum_filter_le (rows : List Row) (keep : Row → Bool) (f : Row → ℕ) :
    ((rows.filter keep).map f).sum ≤ (rows.map f).sum := by
  induction rows with
  | nil => exact Nat.le_refl _
  | cons row rows ih =>
      rw [List.filter_cons, List.map_cons, List.sum_cons]
      split
      · rw [List.map_cons, List.sum_cons]
        omega
      · omega

/-- A visit puts on the stack less than it takes from it. -/
theorem Stands.rank_lt (h : Stands c server above path d) {out : List FsEntry} {more : List (List Char)}
    (hvisit : mount_visit digest c server follow_symlinks path = .ok (out, more)) :
    (more.map (rank server)).sum < rank server path := by
  have hrank : rank server path = d.size + 1 := by
    rw [rank, h.node]
    rfl
  rw [hrank]
  rcases visit_eq_ok h.node hvisit with ⟨-, rfl⟩ | ⟨rows, hread, -, rfl⟩
  · exact Nat.succ_pos _
  · rw [descents, List.map_reverse, List.sum_reverse, List.map_map]
    have hranks : ((shown rows).filter fun row => row.2.1.is_dir).map
          (rank server ∘ fun row => rstrip path ++ '/' :: row.1) =
        ((shown rows).filter fun row => row.2.1.is_dir).map fun row => row.2.2.size + 1 := by
      refine List.map_congr_left fun row hrow => ?_
      obtain ⟨hrow, hdir⟩ := List.mem_filter.mp hrow
      rw [Function.comp_apply, rank, (h.child hread hrow hdir).node]
      rfl
    have hle := sum_filter_le (shown rows) (fun row => row.2.1.is_dir) fun row => row.2.2.size + 1
    have hle' := sum_filter_le rows (fun row => !is_dots row.1) fun row => row.2.2.size + 1
    rw [size_of_read hread] at hle'
    rw [hranks]
    exact Nat.lt_succ_of_le (Nat.le_trans hle hle')

variable (digest follow_symlinks) in
/-- Where the walk fails, a directory it comes to has an error of the client's own. -/
theorem Stands.fails_iff (h : Stands c server above path d) :
    Fails (mount_visit digest c server follow_symlinks) path ↔ ¬ Listable d := by
  constructor
  · rintro ⟨t, error, hreached, herror⟩ hlistable
    obtain ⟨names, d', hleads, hstands⟩ := h.reached hreached
    exact hlistable names d' hleads (visit_eq_error hstands.node herror)
  · intro hnot
    unfold Listable at hnot
    push Not at hnot
    obtain ⟨names, d', hleads, hread⟩ := hnot
    obtain ⟨t, hstands, hreached⟩ := h.leads digest follow_symlinks hleads
    exact ⟨t, .sftp_error, hreached, visit_sftp_error hstands.node hread⟩

/-- The configured path stands for itself. -/
theorem stands_root (hroot : server.node c.remote_path.toList = some d) : Stands c server [] c.remote_path.toList d :=
  ⟨rfl, c.accepts.path_ne, hroot, fun _ hn => absurd hn List.not_mem_nil⟩

end

/-- **The walk of a mount** ends, for every server and every spelling of the configured path, and
it is exact if and only if no directory it comes to has an error of the client's own. -/
theorem remote_walk_exact_iff (digest : String → ℕ) (b : SftpBackend) (server : Server) (d : Directory)
    (follow_symlinks : Bool) (hroot : server.node b.config.remote_path.toList = some d) :
    ∃ w rounds,
      (∀ more, rounds ≤ more → b.walk digest server (mount_key b.config) follow_symlinks more = some w) ∧
      (WalkExact b.config d w ↔ Listable d) := by
  have hstands := stands_root hroot
  -- every place the walk comes to stands somewhere
  have hreached : ∀ s ∈ [b.config.remote_path.toList], ∀ t,
      Reached (mount_visit digest b.config server follow_symlinks) s t →
      ∃ names d', Stands b.config server names t d' := by
    intro s hs t ht
    rw [List.mem_singleton.mp hs] at ht
    obtain ⟨names, d', -, hstands'⟩ := hstands.reached ht
    exact ⟨names, d', hstands'⟩
  obtain ⟨w, hw⟩ := walk_total (rank server)
    (fun s hs t ht out more hvisit => by
      obtain ⟨names, d', hstands'⟩ := hreached s hs t ht
      exact hstands'.rank_lt hvisit)
    (fun s => by
      rw [rank]
      rcases server.node s with _ | d'
      · exact Nat.one_pos
      · exact Nat.succ_pos _)
    (Nat.le_refl ([b.config.remote_path.toList].map (rank server)).sum)
  have hwalks := walks_of_walk hw
  refine ⟨w, ([b.config.remote_path.toList].map (rank server)).sum, fun more hmore => ?_, ?_⟩
  · rw [SftpBackend.walk, if_pos rfl, remote_walk]
    exact walk_more hmore hw
  · have hraised : w.raised = none ↔ Listable d := by
      rw [← not_iff_not, ← ne_eq, raised_iff hwalks, ← hstands.fails_iff digest follow_symlinks]
      exact ⟨fun ⟨s, hs, hfails⟩ => List.mem_singleton.mp hs ▸ hfails, fun hfails => ⟨_, List.mem_singleton_self _, hfails⟩⟩
    constructor
    · exact fun hexact => hraised.mp hexact.finished
    · intro hlistable
      have hnone := hraised.mpr hlistable
      refine ⟨hnone, fun e he => ?_, fun names attrs hlists => ?_, ?_⟩
      · obtain ⟨s, hs, hyields⟩ := yields_of_mem hwalks he
        rw [List.mem_singleton.mp hs] at hyields
        obtain ⟨names, attrs, hlists, -, hdescribes⟩ := hstands.yields hyields
        exact ⟨names, attrs, hlists, hdescribes⟩
      · obtain ⟨e, hyields, hdescribes⟩ := hstands.yields_of_lists digest follow_symlinks hlists
        exact ⟨e, mem_of_yields hwalks hnone (List.mem_singleton_self _) hyields, hdescribes⟩
      · refine yielded_nodup hwalks (fun s hs t ht => ?_) (List.pairwise_singleton _ _)
        obtain ⟨names, d', hstands'⟩ := hreached s hs t ht
        exact hstands'.distinct

/-! ## The server of a tree -/

namespace Directory

/-- The names that are not left out. -/
def names : Directory → List Name
  | .nil => []
  | .failed _ => []
  | .entry filename _ _ next => if is_dots filename then next.names else filename :: next.names

/-- At any depth the names are components, and no two in a directory are the same. -/
def Orderly : Directory → Prop
  | .nil => True
  | .failed _ => True
  | .entry filename _ below next =>
    (is_dots filename = false → IsComponent '/' filename ∧ filename ∉ next.names) ∧ below.Orderly ∧ next.Orderly

/-- The directory of a name. -/
def child_named (d : Directory) (name : Name) : Option Directory :=
  match d.read with
  | .error _ => none
  | .ok rows => ((shown rows).find? fun row => row.1 == name && row.2.1.is_dir).map (·.2.2)

/-- The directory under some names. -/
def follow (d : Directory) : List Name → Option Directory
  | [] => some d
  | name :: names => (d.child_named name).bind fun d' => d'.follow names

variable {d : Directory} {rows : List Row}

theorem names_of_read (hread : d.read = .ok rows) : d.names = (shown rows).map (·.1) := by
  induction d generalizing rows with
  | nil =>
      obtain rfl := Except.ok.inj hread
      rfl
  | failed error => cases hread
  | entry filename attrs below next _ ih =>
      obtain ⟨more, hnext, rfl⟩ := read_entry hread
      rw [names, ih hnext, shown, shown, List.filter_cons]
      cases hdots : is_dots filename with
      | false => rfl
      | true => rfl

theorem orderly_of_read (h : d.Orderly) (hread : d.read = .ok rows) : Proper rows ∧ ∀ row ∈ rows, row.2.2.Orderly := by
  induction d generalizing rows with
  | nil =>
      obtain rfl := Except.ok.inj hread
      exact ⟨⟨fun _ hrow => absurd hrow List.not_mem_nil, List.nodup_nil⟩, fun _ hrow => absurd hrow List.not_mem_nil⟩
  | failed error => cases hread
  | entry filename attrs below next _ ih =>
      obtain ⟨hname, hbelow, hrest⟩ := h
      obtain ⟨more, hnext, rfl⟩ := read_entry hread
      obtain ⟨hproper, horderly⟩ := ih hrest hnext
      rw [names_of_read hnext] at hname
      refine ⟨?_, fun row hrow => ?_⟩
      · cases hdots : is_dots filename with
        | true =>
            have hshown : shown ((filename, attrs, below) :: more) = shown more :=
              List.filter_cons_of_neg (by simp [hdots])
            exact ⟨by rw [hshown]; exact hproper.component, by rw [hshown]; exact hproper.distinct⟩
        | false =>
            have hshown : shown ((filename, attrs, below) :: more) = (filename, attrs, below) :: shown more :=
              List.filter_cons_of_pos (by simp [hdots])
            obtain ⟨hcomponent, hfresh⟩ := hname hdots
            refine ⟨fun row hrow => ?_, ?_⟩
            · rw [hshown] at hrow
              rcases List.mem_cons.mp hrow with rfl | hrow
              · exact hcomponent
              · exact hproper.component row hrow
            · rw [hshown, List.map_cons]
              exact List.nodup_cons.mpr ⟨hfresh, hproper.distinct⟩
      · rcases List.mem_cons.mp hrow with rfl | hrow
        · exact hbelow
        · exact horderly row hrow

theorem child_named_eq {row : Row} (h : d.Orderly) (hread : d.read = .ok rows) (hrow : row ∈ shown rows)
    (hdir : row.2.1.is_dir = true) : d.child_named row.1 = some row.2.2 := by
  have hproper := (orderly_of_read h hread).1
  rw [child_named, hread]
  dsimp only
  cases hfind : (shown rows).find? fun row' => row'.1 == row.1 && row'.2.1.is_dir with
  | none => exact absurd (List.find?_eq_none.mp hfind row hrow) (by simp [hdir])
  | some row' =>
      have hname := List.find?_some hfind
      rw [Bool.and_eq_true, beq_iff_eq] at hname
      -- no two of them have one name
      rw [List.inj_on_of_nodup_map hproper.distinct (List.mem_of_find?_eq_some hfind) hrow hname.1]
      rfl

theorem orderly_of_child {d' : Directory} {name : Name} (h : d.Orderly) (hchild : d.child_named name = some d') :
    d'.Orderly := by
  rw [child_named] at hchild
  rcases hread : d.read with error | rows
  · rw [hread] at hchild
    cases hchild
  · rw [hread] at hchild
    obtain ⟨row, hfind, rfl⟩ := Option.map_eq_some_iff.mp hchild
    exact (orderly_of_read h hread).2 row (List.mem_of_mem_filter (List.mem_of_find?_eq_some hfind))

theorem orderly_of_follow {d' : Directory} {names : List Name} (h : d.Orderly) (hfollow : d.follow names = some d') :
    d'.Orderly := by
  induction names generalizing d with
  | nil => exact Option.some.inj hfollow ▸ h
  | cons name names ih =>
      obtain ⟨child, hchild, hfollow⟩ := Option.bind_eq_some_iff.mp hfollow
      exact ih (orderly_of_child h hchild) hfollow

theorem follow_append (d : Directory) (names more : List Name) :
    d.follow (names ++ more) = (d.follow names).bind fun d' => d'.follow more := by
  induction names generalizing d with
  | nil => rfl
  | cons name names ih =>
      rw [List.cons_append, follow, follow, Option.bind_assoc]
      exact Option.bind_congr fun d' _ => ih d'

end Directory

/-- The components of a path, as a server reads them. -/
def path_components (path : List Char) : List Name := RemoteBackendConfig.kept (path.splitOn '/')

theorem path_components_append (path more : List Char) :
    path_components (path ++ '/' :: more) = path_components path ++ path_components more := by
  rw [path_components, List.splitOn_append_cons_self]
  exact List.filter_append _ _

theorem path_components_slashes (path : List Char) (slashes : ℕ) :
    path_components (path ++ List.replicate slashes '/') = path_components path := by
  induction slashes generalizing path with
  | zero => rw [List.replicate_zero, List.append_nil]
  | succ slashes ih =>
      have hnone := ih []
      rw [List.nil_append] at hnone
      rw [List.replicate_succ, path_components_append, hnone]
      exact List.append_nil _

theorem path_components_name {name : Name} (h : IsComponent '/' name) : path_components name = [name] := by
  rw [path_components, List.splitOn_eq_singleton h.no_sep]
  exact List.filter_cons_of_pos (decide_eq_true ⟨h.ne_nil, h.ne_dot⟩)

/-- The server that exports a tree, under every spelling of its paths. -/
def exporting (root : Directory) (h : root.Orderly) : Server where
  node path := root.follow (path_components path)
  proper hnode hread := (Directory.orderly_of_read (Directory.orderly_of_follow h hnode) hread).1
  child := by
    intro bare slashes d rows row _ hnode hread hrow hdir
    have horderly := Directory.orderly_of_follow h hnode
    have hname := (Directory.orderly_of_read horderly hread).1.component row hrow
    rw [path_components_slashes] at hnode
    rw [path_components_append, path_components_name hname, Directory.follow_append, hnode, Option.bind_some]
    rw [Directory.follow, Directory.child_named_eq horderly hread hrow hdir]
    rfl

/-! ## Two shares -/

def dir_attrs : SftpAttrs := { permissions := some 0o40755 }

def file_attrs : SftpAttrs := { permissions := some 0o100644, size := some 7 }

/-- A directory with a film in one directory and another one that cannot be listed. -/
def films (error : ListError) : Directory :=
  .entry ".".toList dir_attrs .nil
    (.entry "films".toList dir_attrs (.entry "a.mkv".toList file_attrs .nil .nil)
      (.entry "lost+found".toList dir_attrs (.failed error) .nil))

/-- A share with this directory in it. -/
def share (error : ListError) : Directory := .entry "data".toList dir_attrs (films error) .nil

theorem share_orderly (error : ListError) : (share error).Orderly := by
  have hfilms : "films".toList ∉ ["lost+found".toList] := by decide
  exact ⟨fun _ => ⟨⟨by decide, by decide, by decide, by decide⟩, List.not_mem_nil⟩,
    ⟨fun hdots => absurd hdots (by decide), trivial,
      fun _ => ⟨⟨by decide, by decide, by decide, by decide⟩, hfilms⟩,
      ⟨fun _ => ⟨⟨by decide, by decide, by decide, by decide⟩, List.not_mem_nil⟩, trivial, trivial⟩,
      fun _ => ⟨⟨by decide, by decide, by decide, by decide⟩, List.not_mem_nil⟩, trivial, trivial⟩, trivial⟩

/-- A target whose path ends in slashes. -/
def nas : SftpBackend where
  config :=
    { protocol := .sftp
      host := "nas"
      remote_path := "/data//"
      accepted := by decide +kernel }
  is_sftp := rfl

theorem node_films (error : ListError) :
    (exporting (share error) (share_orderly error)).node nas.config.remote_path.toList = some (films error) := by
  have hcomponents : path_components nas.config.remote_path.toList = ["data".toList] := by decide +kernel
  show (share error).follow (path_components nas.config.remote_path.toList) = some (films error)
  have hshown : (!is_dots "data".toList) = true := by decide
  have hdir : dir_attrs.is_dir = true := by decide
  have hrow : ("data".toList, dir_attrs, films error) ∈ shown [("data".toList, dir_attrs, films error)] :=
    List.mem_filter.mpr ⟨List.mem_cons_self, hshown⟩
  rw [hcomponents, Directory.follow, Directory.child_named_eq (share_orderly error) rfl hrow hdir]
  rfl

theorem film_listed (error : ListError) : Lists (films error) ["films".toList, "a.mkv".toList] file_attrs := by
  have hshown : (!is_dots "films".toList) = true := by decide
  have hfilms : ("films".toList, dir_attrs, .entry "a.mkv".toList file_attrs .nil .nil) ∈
      shown [(".".toList, dir_attrs, .nil), ("films".toList, dir_attrs, .entry "a.mkv".toList file_attrs .nil .nil),
        ("lost+found".toList, dir_attrs, .failed error)] :=
    List.mem_filter.mpr ⟨List.mem_cons_of_mem _ List.mem_cons_self, hshown⟩
  have hfilm : ("a.mkv".toList, file_attrs, .nil) ∈ shown [("a.mkv".toList, file_attrs, .nil)] :=
    List.mem_filter.mpr ⟨List.mem_cons_self, by decide⟩
  exact ⟨["films".toList], _, _, _, .next rfl hfilms (by decide) (.here _), rfl, hfilm, rfl, rfl⟩

theorem films_listable : Listable (films .os_error) := by
  intro names d' hleads herror
  cases hleads with
  | here => cases herror
  | next hread hrow _ hleads =>
      obtain rfl := Except.ok.inj hread
      obtain ⟨hrow, hshown⟩ := List.mem_filter.mp hrow
      rcases List.mem_cons.mp hrow with rfl | hrow
      · exact absurd hshown (by decide)
      · rcases List.mem_cons.mp hrow with rfl | hrow
        · -- the film has nothing below it
          cases hleads with
          | here => cases herror
          | next hread hrow hdir _ =>
              obtain rfl := Except.ok.inj hread
              obtain rfl := List.mem_singleton.mp (List.mem_of_mem_filter hrow)
              exact absurd hdir (by decide)
        · obtain rfl := List.mem_singleton.mp hrow
          cases hleads with
          | here => cases herror
          | next hread _ _ _ => cases hread

/-- With an `OSError` the walk is exact. -/
theorem unreadable_skipped :
    ∃ w rounds,
      (∀ more, rounds ≤ more → nas.walk (fun _ => 0) (exporting (share .os_error) (share_orderly .os_error))
        (mount_key nas.config) false more = some w) ∧
      WalkExact nas.config (films .os_error) w := by
  obtain ⟨w, rounds, hw, hexact⟩ := remote_walk_exact_iff (fun _ => 0) nas
    (exporting (share .os_error) (share_orderly .os_error)) (films .os_error) false (node_films .os_error)
  exact ⟨w, rounds, hw, hexact.mpr films_listable⟩

/-- With an error of the client's own the film is not yielded: it is there, and the walk has ended. -/
theorem unreadable_ends_walk :
    Lists (films .sftp_error) ["films".toList, "a.mkv".toList] file_attrs ∧
    ∃ w, nas.walk (fun _ => 0) (exporting (share .sftp_error) (share_orderly .sftp_error)) (mount_key nas.config) false 2
        = some w ∧
      w.yielded.map FsEntry.path = ["/sftp/nas/data/films", "/sftp/nas/data/lost+found"] ∧
      ¬ WalkExact nas.config (films .sftp_error) w := by
  have hrun : (nas.walk (fun _ => 0) (exporting (share .sftp_error) (share_orderly .sftp_error)) (mount_key nas.config)
      false 2).map (fun w => (w.yielded.map FsEntry.path, w.raised)) =
        some (["/sftp/nas/data/films", "/sftp/nas/data/lost+found"], some .sftp_error) := by
    decide +kernel
  obtain ⟨w, hw, hresult⟩ := Option.map_eq_some_iff.mp hrun
  rw [Prod.mk.injEq] at hresult
  refine ⟨film_listed .sftp_error, w, hw, hresult.1, fun hexact => ?_⟩
  have hfinished := hexact.finished
  rw [hresult.2] at hfinished
  cases hfinished

end Fathom.Backends
