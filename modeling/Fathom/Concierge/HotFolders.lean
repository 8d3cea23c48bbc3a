/-
**Hot folders** (`core/concierge/queries.py`): the folders that changed most in a window of
the change log.

The newest churn rows are each put down to a folder, which is cut out of the row's path by
the depth below the mountpoint; folders are counted in a dictionary and ranked. The cut
takes no notice of the last component, the changed path itself: a path with no more
components below the mount than the depth is its own folder, although its parent is what
the comment promises. Under the mount `/` nothing cut is the empty text, and below `//`
one component is `/`. `hot_folders_attribute_iff` says for which rows the cut is right.
-/
import Fathom.Ingest.Charted
import Fathom.Read.Place
import Fathom.Read.Search

set_option autoImplicit false

namespace Fathom.Concierge

open Fathom.Security
open Fathom.Ingest (Catalogue ChangeLog Volume Instant Server Push Archive archiving ChartedBelow Charted charted
  sample_server two_rewritten archived lowers_id)
open Fathom.Auth (ScopeFilter)
open Fathom.Read (rstrip in_scope IsDirectory IsNormal pure_path posix_text Standing anchor_of steps any_parent_iff
  within_iff)

/-! ## Folders -/

/-- `xs[:end]`. -/
def slice_to {α : Type} (stop : Int) (xs : List α) : List α :=
  if 0 ≤ stop then xs.take stop.toNat else xs.take (xs.length - (-stop).toNat)

/-- `posixpath.dirname`. -/
def dirname (path : List Char) : List Char :=
  let head := path.rdropWhile (· ≠ '/')
  if head.all (· = '/') then head else rstrip head

/-- `_ancestor_folder`. -/
def ancestor_folder (mountpoint path : String) (parent_depth : Int) : String :=
  let base := rstrip mountpoint.toList
  if ¬ base ++ ['/'] <+: path.toList then
    String.ofList (if dirname path.toList = [] then base else dirname path.toList)
  else
    let rel_parts := (path.toList.drop (base.length + 1)).splitOn '/'
    let keep := slice_to parent_depth rel_parts
    String.ofList (if keep = [] then base else base ++ '/' :: join '/' keep)

/-- What is selected of a churn row and its volume. -/
structure ChurnRow where
  path : String
  size_delta : Int
  ts : Instant
  volume_id : ℕ
  host_id : ℕ
  mountpoint : String
  deriving DecidableEq

/-- The key of the dictionary. -/
structure FolderKey where
  volume_id : ℕ
  path : String
  deriving DecidableEq

/-- `HotFolder`. -/
structure HotFolder where
  volume_id : ℕ
  host_id : ℕ
  path : String
  change_count : ℕ
  net_size_delta : Int
  last_change : Instant
  deriving DecidableEq

def HotFolder.key (h : HotFolder) : FolderKey := ⟨h.volume_id, h.path⟩

/-- The folder of a row on its own. -/
def hot_folder (parent_depth : Int) (r : ChurnRow) : HotFolder where
  volume_id := r.volume_id
  host_id := r.host_id
  path := ancestor_folder r.mountpoint r.path parent_depth
  change_count := 1
  net_size_delta := r.size_delta
  last_change := r.ts

/-- `agg[key]` is made when a row first asks for it, and counts the others in. -/
def count_in : Conflict HotFolder.key where
  guard := fun _ _ => true
  set := fun cur h =>
    { cur with
      change_count := cur.change_count + h.change_count
      net_size_delta := cur.net_size_delta + h.net_size_delta
      last_change := if cur.last_change < h.last_change then h.last_change else cur.last_change }
  set_key := fun _ _ => rfl

/-- `agg`. -/
def aggregate (parent_depth : Int) (rows : List ChurnRow) : Table HotFolder.key :=
  (Table.empty _).upsert_many count_in (rows.map (hot_folder parent_depth))

/-- `(change_count, last_change)`, the greatest first. -/
def hotter (h h' : HotFolder) : Bool :=
  h'.change_count < h.change_count ∨ (h'.change_count = h.change_count ∧ h'.last_change ≤ h.last_change)

/-- The folders before the cut. -/
def ranked (parent_depth : Int) (rows : List ChurnRow) : List HotFolder :=
  (aggregate parent_depth rows).rows.mergeSort hotter

/-! ## The scan -/

/-- `_HOT_SCAN_CAP`. -/
def HOT_SCAN_CAP : ℕ := 5000

/-- The columns of a churn row and of its volume. -/
def churn_columns : ScopeFilter.Columns (ChangeLog × Volume) where
  host_col := some fun j => j.2.host_id
  volume_col := some fun j => j.1.volume_id
  kind_col := some fun j => j.2.kind

/-- `.join(Volume, Volume.id == ChangeLog.volume_id)`. -/
def join_churn (cat : Catalogue) : List (ChangeLog × Volume) :=
  cat.change_log.flatMap fun c => (cat.volumes.rows.filter fun v => v.id = c.volume_id).map fun v => (c, v)

/-- The conditions of `hot_folders`. -/
def churned (since : Instant) (scope : Option ScopeFilter) (volume_id : Option ℕ) (j : ChangeLog × Volume) : Bool :=
  since ≤ j.1.ts ∧ j.2.kind ≠ "system" ∧ volume_id.all (fun v => j.1.volume_id = v) = true ∧
    in_scope scope churn_columns j = true

def churn_row (j : ChangeLog × Volume) : ChurnRow where
  path := j.1.path
  size_delta := j.1.size_delta
  ts := j.1.ts
  volume_id := j.1.volume_id
  host_id := j.2.host_id
  mountpoint := j.2.mountpoint

/-- The rows a call reads. -/
def scanned (cat : Catalogue) (since : Instant) (scope : Option ScopeFilter) (volume_id : Option ℕ) : List ChurnRow :=
  ((((join_churn cat).filter (churned since scope volume_id)).mergeSort fun j j' => j'.1.ts ≤ j.1.ts).take
    HOT_SCAN_CAP).map churn_row

/-- `hot_folders`. -/
def hot_folders (cat : Catalogue) (since : Instant) (scope : Option ScopeFilter) (volume_id : Option ℕ)
    (parent_depth limit : Int) : List HotFolder :=
  slice_to limit (ranked parent_depth (scanned cat since scope volume_id))

/-! ## What is wanted -/

/-- A path of a volume, which is of the flavour of its mountpoint. -/
def volume_path (mountpoint text : String) : PurePath :=
  if is_windows_path mountpoint then windows_path text.toList else posix_path text.toList

/-- **A folder is a proper ancestor of a path**, at or below the mountpoint. -/
structure ProperAncestor (lower : String → String) (mountpoint path folder : String) : Prop where
  directory : IsDirectory lower mountpoint (volume_path mountpoint folder)
  spelled : (volume_path mountpoint folder).str = folder
  above : (volume_path mountpoint path).parents.any (PurePath.same lower (volume_path mountpoint folder)) = true

/-- The folder a row is counted under. -/
def counted_under (parent_depth : Int) (r : ChurnRow) (h : HotFolder) : Bool :=
  h.key = (hot_folder parent_depth r).key

/-- **The folders account for the rows**: each row is counted under one of them, a proper
ancestor of what changed, and they sum up what was scanned. -/
structure Attribute (lower : String → String) (parent_depth : Int) (rows : List ChurnRow) (folders : List HotFolder) :
    Prop where
  one : ∀ r ∈ rows, ∃ h, folders.filter (counted_under parent_depth r) = [h] ∧ h.volume_id = r.volume_id ∧
    ProperAncestor lower r.mountpoint r.path h.path
  each : ∀ h ∈ folders,
    h.change_count = (rows.filter fun r => counted_under parent_depth r h).length ∧
      h.net_size_delta = ((rows.filter fun r => counted_under parent_depth r h).map ChurnRow.size_delta).sum
  counts : (folders.map HotFolder.change_count).sum = rows.length
  deltas : (folders.map HotFolder.net_size_delta).sum = (rows.map ChurnRow.size_delta).sum

/-! ## The condition -/

/-- How many components a path has below the mountpoint. -/
def levels (mountpoint path : String) : ℕ :=
  (volume_path mountpoint path).tail.length - (volume_path mountpoint mountpoint).tail.length

/-- How many of some parts a slice keeps. -/
def kept (stop : Int) (parts : ℕ) : ℕ := if 0 ≤ stop then min stop.toNat parts else parts - (-stop).toNat

/-- **The depth leaves a component out.** The path is below the mountpoint, and on a POSIX
volume the depth keeps less than all of what is below it. Where the mountpoint is a mere
root, it also keeps one component; the second slash of `//` counts as one more. -/
def LeavesOut (parent_depth : Int) (mountpoint path : String) : Prop :=
  0 < levels mountpoint path ∧
    match volume_path mountpoint mountpoint with
    | .windows .. => True
    | .posix root [] =>
      root.length ≤ kept parent_depth (levels mountpoint path + root.length - 1) ∧
        kept parent_depth (levels mountpoint path + root.length - 1) < levels mountpoint path + root.length - 1
    | .posix _ (_ :: _) => kept parent_depth (levels mountpoint path) < levels mountpoint path

/-! ## Slices -/

section

variable {α : Type}

theorem slice_to_eq_take (stop : Int) (xs : List α) : slice_to stop xs = xs.take (kept stop xs.length) := by
  rw [slice_to, kept]
  split
  · rw [List.take_eq_take_min]
  · rfl

end

/-! ## Where a charted path stands -/

/-- The two flavours of a path at or below a mountpoint. -/
inductive Located (lower : String → String) : String → String → Prop
  | posix {root : List Char} {names below : List Name} (h : IsPosix root (names ++ below))
      (flavour : is_windows_path (PurePath.posix root names).str = false) :
      Located lower (PurePath.posix root names).str (PurePath.posix root (names ++ below)).str
  | windows {drive drive' root : List Char} {names above below : List Name} (h : IsWindows drive root names)
      (h' : IsWindows drive' root (above ++ below)) (flavour : is_windows_path (PurePath.windows drive root names).str = true)
      (hdrive : lowered lower drive' = lowered lower drive)
      (habove : above.map (lowered lower) = names.map (lowered lower)) :
      Located lower (PurePath.windows drive root names).str (PurePath.windows drive' root (above ++ below)).str

section

variable {lower : String → String} {mountpoint path : String}

theorem located (h : ChartedBelow lower mountpoint path) : Located lower mountpoint path := by
  obtain ⟨mount, p, below, hmount, hcanonical, hnormal, hbelow⟩ := h
  rcases canonical_shape hmount hcanonical with ⟨root, names, hposix, rfl⟩ | ⟨drive, root, names, hwindows, rfl⟩
  · have hflavour : is_windows_path mountpoint = false := by
      by_contra hwindows
      rw [Bool.not_eq_false] at hwindows
      rw [validate_agent_path, if_pos hwindows] at hmount
      obtain ⟨drive', root', names', heq, -⟩ := validate_windows_config_path_shape hmount
      exact absurd heq (by simp)
    cases hbelow
    rw [← hnormal.str, ← hcanonical]
    exact .posix ⟨hposix.root, hnormal.normal⟩ (hcanonical ▸ hflavour)
  · have hflavour : is_windows_path mountpoint = true := by
      by_contra hposix
      rw [validate_agent_path, if_neg hposix] at hmount
      obtain ⟨root', names', -, heq, -⟩ := validate_config_path_shape hmount
      exact absurd heq (by simp)
    cases hbelow with
    | windows hdrive habove =>
        obtain ⟨drive', root', names', hpath, heq⟩ := canonical_windows hnormal.fixed hnormal.str
        rw [PurePath.windows.injEq] at heq
        obtain ⟨rfl, rfl, rfl⟩ := heq
        rw [← hnormal.str, ← hcanonical]
        exact .windows hwindows hpath (hcanonical ▸ hflavour) hdrive habove

theorem posix_path_str {root : List Char} {names : List Name} (h : IsPosix root names) :
    posix_path (PurePath.posix root names).str.toList = .posix root names := by
  rw [PurePath.str, String.toList_ofList, posix_chars h]
  exact posix_path_anchored h

theorem windows_path_str {drive root : List Char} {names : List Name} (h : IsWindows drive root names) :
    windows_path (PurePath.windows drive root names).str.toList = .windows drive root names := by
  rw [PurePath.str, String.toList_ofList, windows_chars h]
  exact h.path

/-- The mountpoint itself stands somewhere. -/
theorem pure_path_mountpoint (mountpoint : String) : pure_path mountpoint = volume_path mountpoint mountpoint := rfl

theorem steps_length (lower : String → String) (p : PurePath) : (steps lower p).length = p.tail.length := by
  cases p with
  | posix root names => rfl
  | windows drive root names => rw [steps, List.length_map, PurePath.tail]

/-- The mountpoint and the path stand somewhere. -/
theorem Located.standing (h : Located lower mountpoint path) :
    Standing (volume_path mountpoint mountpoint) ∧ Standing (volume_path mountpoint path) := by
  cases h with
  | @posix root names below h flavour =>
      have hmount : IsPosix root names := ⟨h.root, fun n hn => h.normal n (List.mem_append_left _ hn)⟩
      rw [volume_path, volume_path, flavour, if_neg Bool.false_ne_true, if_neg Bool.false_ne_true, posix_path_str h,
        posix_path_str hmount]
      exact ⟨.posix hmount, .posix h⟩
  | windows h h' flavour hdrive habove =>
      rw [volume_path, volume_path, if_pos flavour, if_pos flavour, windows_path_str h, windows_path_str h']
      exact ⟨.windows h.anchor h.bare h.normal, .windows h'.anchor h'.bare h'.normal⟩

/-- What has a proper ancestor at or below the mountpoint is below it. -/
theorem levels_pos (hlower : Lowers lower) (h : Located lower mountpoint path) {folder : String}
    (hancestor : ProperAncestor lower mountpoint path folder) : 0 < levels mountpoint path := by
  obtain ⟨hmount, hpath⟩ := h.standing
  have hfolder := hancestor.directory.normal.standing
  have hwithin := hancestor.directory.within
  rw [pure_path_mountpoint] at hwithin
  have hbegins := ((within_iff hlower hmount hfolder).mp hwithin).2
  obtain ⟨more, hmore, hsteps⟩ := Totals.beneath_iff.mp ((any_parent_iff hlower hfolder hpath).mp hancestor.above).2
  have hle := hbegins.length_le
  have hlength := congrArg List.length hsteps
  have hpos := List.length_pos_of_ne_nil hmore
  rw [List.length_append, steps_length, steps_length] at hlength
  rw [steps_length, steps_length] at hle
  rw [levels]
  omega

end

/-! ## Windows volumes -/

section

variable {lower : String → String} {drive drive' root : List Char} {names above below : List Name}

/-- On a Windows volume nothing is cut: the folder is the mountpoint. -/
theorem ancestor_folder_windows (h : IsWindows drive root names) (h' : IsWindows drive' root (above ++ below))
    (parent_depth : Int) :
    ancestor_folder (PurePath.windows drive root names).str (PurePath.windows drive' root (above ++ below)).str
        parent_depth = (PurePath.windows drive root names).str := by
  have hmount : '/' ∉ (PurePath.windows drive root names).str.toList := by
    rw [PurePath.str, String.toList_ofList, windows_chars h]
    exact h.not_slash
  have hpath : '/' ∉ (PurePath.windows drive' root (above ++ below)).str.toList := by
    rw [PurePath.str, String.toList_ofList, windows_chars h']
    exact h'.not_slash
  have hstrip : rstrip (PurePath.windows drive root names).str.toList = (PurePath.windows drive root names).str.toList := by
    refine List.rdropWhile_eq_self_iff.mpr fun hne hslash => hmount ?_
    rw [← of_decide_eq_true hslash]
    exact List.getLast_mem hne
  have hdirname : dirname (PurePath.windows drive' root (above ++ below)).str.toList = [] := by
    have hhead : (PurePath.windows drive' root (above ++ below)).str.toList.rdropWhile (· ≠ '/') = [] := by
      refine List.rdropWhile_eq_nil_iff.mpr fun c hc => decide_eq_true ?_
      rintro rfl
      exact hpath hc
    rw [dirname, hhead]
    rfl
  have hbegins : ¬ rstrip (PurePath.windows drive root names).str.toList ++ ['/'] <+:
      (PurePath.windows drive' root (above ++ below)).str.toList :=
    fun hbegins => hpath (hbegins.subset (List.mem_append_right _ List.mem_cons_self))
  rw [ancestor_folder, if_pos hbegins, hdirname, if_pos rfl, hstrip, String.ofList_toList]

theorem proper_ancestor_windows (hlower : Lowers lower) (h : IsWindows drive root names)
    (h' : IsWindows drive' root (above ++ below)) (flavour : is_windows_path (PurePath.windows drive root names).str = true)
    (hdrive : lowered lower drive' = lowered lower drive) (habove : above.map (lowered lower) = names.map (lowered lower))
    (hbelow : below ≠ []) :
    ProperAncestor lower (PurePath.windows drive root names).str (PurePath.windows drive' root (above ++ below)).str
      (PurePath.windows drive root names).str := by
  have hmount : volume_path (PurePath.windows drive root names).str (PurePath.windows drive root names).str
      = .windows drive root names := by
    rw [volume_path, if_pos flavour, windows_path_str h]
  have hpath : volume_path (PurePath.windows drive root names).str (PurePath.windows drive' root (above ++ below)).str
      = .windows drive' root (above ++ below) := by
    rw [volume_path, if_pos flavour, windows_path_str h']
  have hstands : Standing (.windows drive root names) := .windows h.anchor h.bare h.normal
  have hstands' : Standing (.windows drive' root (above ++ below)) := .windows h'.anchor h'.bare h'.normal
  refine ⟨⟨?_, ?_⟩, ?_, ?_⟩
  · rw [hmount]
    exact .windows h
  · rw [pure_path_mountpoint, hmount]
    exact (within_iff hlower hstands hstands).mpr ⟨rfl, List.prefix_refl _⟩
  · rw [hmount]
  · rw [hmount, hpath, any_parent_iff hlower hstands hstands', Totals.beneath_iff]
    refine ⟨by rw [anchor_of, anchor_of, hdrive], below.map (lowered lower), ?_, ?_⟩
    · exact fun hnil => hbelow (List.map_eq_nil_iff.mp hnil)
    · rw [steps, steps, List.map_append, habove]

end

/-! ## POSIX volumes -/

section

variable {lower : String → String} {root : List Char} {names below : List Name}

/-- The directories between the mountpoint and a path. -/
theorem proper_ancestor_posix_iff (h : IsPosix root (names ++ below))
    (flavour : is_windows_path (PurePath.posix root names).str = false) {folder : String} :
    ProperAncestor lower (PurePath.posix root names).str (PurePath.posix root (names ++ below)).str folder ↔
      ∃ c d, d ≠ [] ∧ below = c ++ d ∧ folder = (PurePath.posix root (names ++ c)).str := by
  have hmount : IsPosix root names := ⟨h.root, fun n hn => h.normal n (List.mem_append_left _ hn)⟩
  have hpath : ∀ text, volume_path (PurePath.posix root names).str text = posix_path text.toList := by
    intro text
    rw [volume_path, flavour, if_neg Bool.false_ne_true]
  constructor
  · rintro ⟨hdirectory, hspelled, habove⟩
    obtain ⟨c, hc, hfolder⟩ := (Read.posix_directory hmount rfl).mp hdirectory
    rw [hfolder] at hspelled
    rw [hfolder, hpath, posix_path_str h] at habove
    obtain ⟨d, hd, hbelow⟩ := (Read.any_parent_posix hc h).mp habove
    exact ⟨c, d, hd, hbelow, hspelled.symm⟩
  · rintro ⟨c, d, hd, rfl, rfl⟩
    have hc : IsPosix root (names ++ c) := by
      refine ⟨h.root, fun n hn => h.normal n ?_⟩
      rw [← List.append_assoc]
      exact List.mem_append_left _ hn
    refine ⟨?_, ?_, ?_⟩
    · rw [hpath, posix_path_str hc]
      exact (Read.posix_directory hmount rfl).mpr ⟨c, hc, rfl⟩
    · rw [hpath, posix_path_str hc]
    · rw [hpath, hpath, posix_path_str hc, posix_path_str h]
      exact (Read.any_parent_posix hc h).mpr ⟨d, hd, rfl⟩

/-- A beginning of the components below the mountpoint is a directory above the path when
it is not all of them. -/
theorem proper_ancestor_take_iff (lower : String → String) (h : IsPosix root (names ++ below))
    (flavour : is_windows_path (PurePath.posix root names).str = false) (n : ℕ) :
    ProperAncestor lower (PurePath.posix root names).str (PurePath.posix root (names ++ below)).str
      (PurePath.posix root (names ++ below.take n)).str ↔ n < below.length := by
  rw [proper_ancestor_posix_iff h flavour]
  constructor
  · rintro ⟨c, d, hd, rfl, heq⟩
    have htake : IsPosix root (names ++ (c ++ d).take n) := by
      refine ⟨h.root, fun m hm => h.normal m ?_⟩
      rcases List.mem_append.mp hm with hleft | hright
      · exact List.mem_append_left _ hleft
      · exact List.mem_append_right _ (List.mem_of_mem_take hright)
    have hc : IsPosix root (names ++ c) := by
      refine ⟨h.root, fun m hm => h.normal m ?_⟩
      rw [← List.append_assoc]
      exact List.mem_append_left _ hm
    have hchars := congrArg String.toList heq
    rw [PurePath.str, PurePath.str, String.toList_ofList, String.toList_ofList] at hchars
    have hlength := congrArg List.length (List.append_cancel_left (posix_chars_inj htake hc hchars).2)
    have hpos := List.length_pos_of_ne_nil hd
    rw [List.length_take, List.length_append] at hlength
    rw [List.length_append]
    omega
  · intro hlt
    exact ⟨below.take n, below.drop n, fun hnil => absurd (List.drop_eq_nil_iff.mp hnil) (by omega),
      (List.take_append_drop n below).symm, rfl⟩

/-- Below a mountpoint with a name, the folder is a beginning of what is below it. -/
theorem ancestor_folder_posix (h : IsPosix root (names ++ below)) (hnames : names ≠ []) (hbelow : below ≠ [])
    (parent_depth : Int) :
    ancestor_folder (PurePath.posix root names).str (PurePath.posix root (names ++ below)).str parent_depth
      = (PurePath.posix root (names ++ below.take (kept parent_depth below.length))).str := by
  have hmount : IsPosix root names := ⟨h.root, fun n hn => h.normal n (List.mem_append_left _ hn)⟩
  have hcomps : ∀ name ∈ below, IsComponent '/' name := fun n hn => h.normal n (List.mem_append_right _ hn)
  have hbase : rstrip (PurePath.posix root names).str.toList = posix_text root names := by
    rw [Read.str_toList hmount, Read.rstrip_text hmount, if_neg hnames]
  have htext : (PurePath.posix root (names ++ below)).str.toList = posix_text root names ++ '/' :: join '/' below := by
    rw [Read.str_toList h, Read.posix_text_append hbelow, if_neg hnames]
  have hbegins : posix_text root names ++ ['/'] <+: posix_text root names ++ '/' :: join '/' below :=
    ⟨join '/' below, by rw [List.append_assoc]; rfl⟩
  have hrel : ((posix_text root names ++ '/' :: join '/' below).drop ((posix_text root names).length + 1)).splitOn '/'
      = below := by
    rw [← List.drop_drop, List.drop_left, List.drop_one, List.tail_cons,
      splitOn_join (fun n hn => (hcomps n hn).no_sep) hbelow]
  have htake : IsPosix root (names ++ below.take (kept parent_depth below.length)) := by
    refine ⟨h.root, fun m hm => ?_⟩
    rcases List.mem_append.mp hm with hleft | hright
    · exact hmount.normal m hleft
    · exact hcomps m (List.mem_of_mem_take hright)
  apply String.toList_injective
  rw [ancestor_folder, hbase, htext, if_neg (not_not.mpr hbegins), hrel]
  dsimp only
  rw [slice_to_eq_take, String.toList_ofList, Read.str_toList htake]
  split
  · rename_i hnil
    rw [hnil, List.append_nil]
  · rename_i hne
    rw [Read.posix_text_append hne, if_neg hnames]

/-- What is split below a mere root: the second slash of `//` is a part of its own. -/
theorem ancestor_folder_root (h : IsPosix root below) (hbelow : below ≠ []) (parent_depth : Int) :
    ancestor_folder (PurePath.posix root []).str (PurePath.posix root below).str parent_depth
      = String.ofList
          (if kept parent_depth (below.length + root.length - 1) = 0 then []
          else '/' :: join '/' ((root.tail.map (fun _ => []) ++ below).take
            (kept parent_depth (below.length + root.length - 1)))) := by
  have hmount : IsPosix root [] := ⟨h.root, fun n hn => absurd hn List.not_mem_nil⟩
  have hbase : rstrip (PurePath.posix root []).str.toList = [] := by
    rw [Read.str_toList hmount, Read.rstrip_text hmount, if_pos rfl]
  have hsplit : (join '/' below).splitOn '/' = below := splitOn_join (fun n hn => (h.normal n hn).no_sep) hbelow
  have hrel : (((PurePath.posix root below).str.toList).drop 1).splitOn '/' = root.tail.map (fun _ => []) ++ below := by
    rw [Read.str_toList h, posix_text]
    rcases h.root with hroot | hroot
    · rw [hroot, List.cons_append, List.nil_append, List.drop_one, List.tail_cons, hsplit]
      rfl
    · rw [hroot, List.cons_append, List.cons_append, List.nil_append, List.drop_one, List.tail_cons, splitOn_sep_cons,
        hsplit]
      rfl
  have hbegins : [] ++ ['/'] <+: (PurePath.posix root below).str.toList := by
    rw [Read.str_toList h, posix_text]
    rcases h.root with hroot | hroot
    · rw [hroot]
      exact ⟨_, rfl⟩
    · rw [hroot]
      exact ⟨_, rfl⟩
  have hlength : (root.tail.map (fun _ => ([] : Name)) ++ below).length = below.length + root.length - 1 := by
    have hpos := List.length_pos_of_ne_nil h.root.ne_nil
    rw [List.length_append, List.length_map, List.length_tail]
    omega
  rw [ancestor_folder, hbase, if_neg (not_not.mpr hbegins), List.length_nil, Nat.zero_add, hrel]
  dsimp only
  rw [slice_to_eq_take, hlength]
  have hne : root.tail.map (fun _ => ([] : Name)) ++ below ≠ [] := List.append_ne_nil_of_right_ne_nil _ hbelow
  by_cases hzero : kept parent_depth (below.length + root.length - 1) = 0
  · rw [if_pos hzero, hzero, List.take_zero, if_pos rfl]
  · rw [if_neg hzero, if_neg]
    · rfl
    · intro hnil
      rcases List.take_eq_nil_iff.mp hnil with hnil | hnil
      · exact hzero hnil
      · exact hne hnil

theorem ancestor_posix_iff (hlower : Lowers lower) (h : IsPosix root (names ++ below))
    (flavour : is_windows_path (PurePath.posix root names).str = false) (parent_depth : Int) :
    ProperAncestor lower (PurePath.posix root names).str (PurePath.posix root (names ++ below)).str
        (ancestor_folder (PurePath.posix root names).str (PurePath.posix root (names ++ below)).str parent_depth) ↔
      LeavesOut parent_depth (PurePath.posix root names).str (PurePath.posix root (names ++ below)).str := by
  have hmount : IsPosix root names := ⟨h.root, fun n hn => h.normal n (List.mem_append_left _ hn)⟩
  have hmountpoint : volume_path (PurePath.posix root names).str (PurePath.posix root names).str = .posix root names := by
    rw [volume_path, flavour, if_neg Bool.false_ne_true, posix_path_str hmount]
  have hlevels : levels (PurePath.posix root names).str (PurePath.posix root (names ++ below)).str = below.length := by
    rw [levels, hmountpoint, volume_path, flavour, if_neg Bool.false_ne_true, posix_path_str h]
    dsimp only [PurePath.tail]
    rw [List.length_append, Nat.add_sub_cancel_left]
  by_cases hbelow : below = []
  · -- nothing is between the mountpoint and itself
    have hzero : levels (PurePath.posix root names).str (PurePath.posix root (names ++ below)).str = 0 := by
      rw [hlevels, hbelow, List.length_nil]
    refine iff_of_false (fun hancestor => ?_) fun hleaves => ?_
    · exact absurd (levels_pos hlower (.posix h flavour) hancestor) (by omega)
    · exact absurd hleaves.1 (by omega)
  have hpos := List.length_pos_of_ne_nil hbelow
  rw [LeavesOut, hmountpoint, hlevels, and_iff_right hpos]
  rcases names with _ | ⟨name, names⟩
  · -- a mere root
    rw [List.nil_append] at h ⊢
    rw [ancestor_folder_root h hbelow]
    dsimp only
    generalize kept parent_depth (below.length + root.length - 1) = n
    have htext : ∀ {m : ℕ}, posix_text root (below.take m) = (PurePath.posix root (below.take m)).str.toList := by
      intro m
      exact (Read.str_toList ⟨h.root, fun n hn => h.normal n (List.mem_of_mem_take hn)⟩).symm
    have hbad : ∀ {folder : String}, folder.toList.length < root.length →
        ¬ ProperAncestor lower (PurePath.posix root []).str (PurePath.posix root below).str folder := by
      intro folder hshort hancestor
      obtain ⟨c, d, -, hc, rfl⟩ := (proper_ancestor_posix_iff (h : IsPosix root ([] ++ below)) flavour).mp hancestor
      rw [List.nil_append, Read.str_toList ⟨h.root, fun n hn => h.normal n (hc ▸ List.mem_append_left _ hn)⟩, posix_text,
        List.length_append] at hshort
      omega
    rcases Nat.lt_or_ge n root.length with hfew | hmany
    · refine iff_of_false (hbad ?_) fun hleaves => absurd hleaves.1 (by omega)
      rw [String.toList_ofList]
      split
      · exact List.length_pos_of_ne_nil h.root.ne_nil
      · -- the first part of what follows the slash of `//` is empty
        rename_i hzero
        rcases h.root with hroot | hroot
        · rw [hroot, List.length_singleton] at hfew
          omega
        · rw [hroot] at hfew ⊢
          obtain rfl : n = 1 := by
            rw [List.length_cons, List.length_singleton] at hfew
            omega
          show ('/' :: join '/' [[]]).length < ['/', '/'].length
          decide
    · have hne : n ≠ 0 := by
        have := List.length_pos_of_ne_nil h.root.ne_nil
        omega
      have hfolder : String.ofList ('/' :: join '/' ((root.tail.map (fun _ => []) ++ below).take n))
          = (PurePath.posix root (below.take (n + 1 - root.length))).str := by
        apply String.toList_injective
        rw [String.toList_ofList, ← htext, posix_text]
        rcases h.root with hroot | hroot
        · rw [hroot]
          rfl
        · rw [hroot] at hmany ⊢
          obtain ⟨m, rfl⟩ : ∃ m, n = m + 2 := ⟨n - 2, by
            rw [List.length_cons, List.length_singleton] at hmany
            omega⟩
          obtain ⟨first, rest, rfl⟩ := List.exists_cons_of_ne_nil hbelow
          rfl
      rw [if_neg hne, hfolder]
      have htake := proper_ancestor_take_iff lower (h : IsPosix root ([] ++ below)) flavour (n + 1 - root.length)
      rw [List.nil_append, List.nil_append] at htake
      rw [htake]
      omega
  · rw [ancestor_folder_posix h (List.cons_ne_nil _ _) hbelow, proper_ancestor_take_iff lower h flavour]

end

/-- **When the folder of a row is a proper ancestor of it.** -/
theorem ancestor_iff {lower : String → String} (hlower : Lowers lower) {mountpoint path : String}
    (h : ChartedBelow lower mountpoint path) (parent_depth : Int) :
    ProperAncestor lower mountpoint path (ancestor_folder mountpoint path parent_depth) ↔
      LeavesOut parent_depth mountpoint path := by
  cases located h with
  | posix hposix flavour => exact ancestor_posix_iff hlower hposix flavour parent_depth
  | @windows drive drive' root names above below hmount hpath flavour hdrive habove =>
      rw [ancestor_folder_windows hmount hpath]
      constructor
      · intro hancestor
        refine ⟨levels_pos hlower (located h) hancestor, ?_⟩
        rw [volume_path, if_pos flavour, windows_path_str hmount]
        trivial
      · rintro ⟨hlevels, -⟩
        refine proper_ancestor_windows hlower hmount hpath flavour hdrive habove ?_
        rintro rfl
        have hlength := congrArg List.length habove
        rw [List.length_map, List.length_map] at hlength
        rw [levels, volume_path, volume_path, if_pos flavour, if_pos flavour, windows_path_str hmount, windows_path_str hpath,
          List.append_nil] at hlevels
        dsimp only [PurePath.tail] at hlevels
        omega

/-! ## The dictionary -/

section

variable {parent_depth : Int} {rows : List ChurnRow}

/-- What is counted in adds up. -/
theorem foldl_count_in (xs : List HotFolder) (h : HotFolder) :
    ∃ h', xs.foldl (fun before x => some (Table.stored count_in before x)) (some h) = some h' ∧
      h'.change_count = h.change_count + (xs.map HotFolder.change_count).sum ∧
      h'.net_size_delta = h.net_size_delta + (xs.map HotFolder.net_size_delta).sum := by
  induction xs generalizing h with
  | nil => exact ⟨h, rfl, (Nat.add_zero _).symm, (Int.add_zero _).symm⟩
  | cons x xs ih =>
      obtain ⟨h', hfold, hcount, hdelta⟩ := ih (Table.stored count_in (some h) x)
      refine ⟨h', hfold, ?_, ?_⟩
      · rw [hcount, List.map_cons, List.sum_cons, ← Nat.add_assoc]
        rfl
      · rw [hdelta, List.map_cons, List.sum_cons, ← Int.add_assoc]
        rfl

/-- Each row counts once. -/
theorem sum_counts (parent_depth : Int) (rows : List ChurnRow) :
    ((rows.map (hot_folder parent_depth)).map HotFolder.change_count).sum = rows.length := by
  induction rows with
  | nil => rfl
  | cons r rows ih =>
      rw [List.map_cons, List.map_cons, List.sum_cons, ih, List.length_cons, Nat.add_comm]
      rfl

/-- A folder sums up the rows that are counted under it. -/
theorem sums_of_mem {h : HotFolder} (hmem : h ∈ (aggregate parent_depth rows).rows) :
    h.change_count = (rows.filter fun r => counted_under parent_depth r h).length ∧
      h.net_size_delta = ((rows.filter fun r => counted_under parent_depth r h).map ChurnRow.size_delta).sum := by
  have hfind := Table.find_of_mem hmem
  rw [aggregate, Table.find_upsert_many, Table.find_empty, List.filter_map] at hfind
  have hsame : rows.filter ((fun x => decide (HotFolder.key x = HotFolder.key h)) ∘ hot_folder parent_depth)
      = rows.filter fun r => counted_under parent_depth r h :=
    List.filter_congr fun r _ => decide_eq_decide.mpr eq_comm
  rw [hsame] at hfind
  rcases hcounted : rows.filter (fun r => counted_under parent_depth r h) with _ | ⟨first, rest⟩
  · rw [hcounted] at hfind
    cases hfind
  · rw [hcounted] at hfind
    obtain ⟨h', hfold, hcount, hdelta⟩ := foldl_count_in (rest.map (hot_folder parent_depth)) (hot_folder parent_depth first)
    obtain rfl := Option.some.inj (hfold.symm.trans hfind)
    have hdeltas : (rest.map (hot_folder parent_depth)).map HotFolder.net_size_delta = rest.map ChurnRow.size_delta :=
      List.map_map
    rw [hcount, hdelta, sum_counts, hdeltas, List.length_cons, List.map_cons, List.sum_cons]
    exact ⟨Nat.add_comm _ _, rfl⟩

theorem find_aggregate (parent_depth : Int) {r : ChurnRow} (hr : r ∈ rows) :
    ∃ h, (aggregate parent_depth rows).find (hot_folder parent_depth r).key = some h := by
  refine Option.isSome_iff_exists.mp (Table.mem_keys_iff.mp ?_)
  rw [aggregate, Table.keys_upsert_many]
  exact Or.inr (List.mem_map_of_mem (List.mem_map_of_mem hr))

theorem ranked_perm (parent_depth : Int) (rows : List ChurnRow) :
    (ranked parent_depth rows).Perm (aggregate parent_depth rows).rows := List.mergeSort_perm _ _

/-- A row is counted under one folder. -/
theorem one_folder (parent_depth : Int) {r : ChurnRow} (hr : r ∈ rows) :
    ∃ h, (ranked parent_depth rows).filter (counted_under parent_depth r) = [h] ∧ h.volume_id = r.volume_id ∧
      h.path = ancestor_folder r.mountpoint r.path parent_depth := by
  obtain ⟨h, hfind⟩ := find_aggregate parent_depth hr
  have hkey : h.key = (hot_folder parent_depth r).key := Table.key_of_find hfind
  refine ⟨h, ?_, congrArg FolderKey.volume_id hkey, congrArg FolderKey.path hkey⟩
  have hperm := (ranked_perm parent_depth rows).filter (counted_under parent_depth r)
  have hrows : (aggregate parent_depth rows).rows.filter (counted_under parent_depth r) = [h] := by
    have hfilter := Table.filter_key (aggregate parent_depth rows) (hot_folder parent_depth r).key
    rw [hfind] at hfilter
    exact hfilter
  rw [hrows] at hperm
  exact List.perm_singleton.mp hperm

/-- The sums over the folders are those over the rows. -/
theorem sums_ranked (parent_depth : Int) (rows : List ChurnRow) :
    ((ranked parent_depth rows).map HotFolder.change_count).sum = rows.length ∧
      ((ranked parent_depth rows).map HotFolder.net_size_delta).sum = (rows.map ChurnRow.size_delta).sum := by
  have hperm := ranked_perm parent_depth rows
  constructor
  · rw [(hperm.map _).sum_eq, aggregate, Table.sum_upsert_many_add (fun _ _ => rfl) fun _ _ => rfl, sum_counts]
    exact Nat.zero_add _
  · rw [(hperm.map _).sum_eq, aggregate, Table.sum_upsert_many_add (fun _ _ => rfl) fun _ _ => rfl, List.map_map]
    exact Int.zero_add _

end

/-! ## Any window -/

/-- **A later catalogue**: since the batches were ingested, churn may have been pruned, and
volumes named or declared system volumes. -/
structure Later (cat cat' : Catalogue) : Prop where
  change_log : cat'.change_log.Sublist cat.change_log
  volumes : ∀ v ∈ cat'.volumes.rows, ∃ w ∈ cat.volumes.rows, w.id = v.id ∧ w.mountpoint = v.mountpoint

section

variable {server : Server} {cat : Catalogue} {since : Instant} {scope : Option ScopeFilter} {volume_id : Option ℕ}

/-- A scanned row is a churn row with its volume. -/
theorem mem_scanned {r : ChurnRow} (hr : r ∈ scanned cat since scope volume_id) :
    ∃ c ∈ cat.change_log, ∃ v ∈ cat.volumes.rows, v.id = c.volume_id ∧ r = churn_row (c, v) := by
  obtain ⟨j, hj, rfl⟩ := List.mem_map.mp hr
  obtain ⟨hjoin, -⟩ := List.mem_filter.mp (List.mem_mergeSort.mp (List.mem_of_mem_take hj))
  obtain ⟨c, hc, hjoin⟩ := List.mem_flatMap.mp hjoin
  obtain ⟨v, hv, rfl⟩ := List.mem_map.mp hjoin
  obtain ⟨hv, hid⟩ := List.mem_filter.mp hv
  exact ⟨c, hc, v, hv, of_decide_eq_true hid, rfl⟩

/-- Below the cap every row of the window is scanned. -/
theorem scanned_perm (h : ((join_churn cat).filter (churned since scope volume_id)).length ≤ HOT_SCAN_CAP) :
    (scanned cat since scope volume_id).Perm (((join_churn cat).filter (churned since scope volume_id)).map churn_row) := by
  have hperm := List.mergeSort_perm ((join_churn cat).filter (churned since scope volume_id)) fun j j' => j'.1.ts ≤ j.1.ts
  rw [scanned, List.take_of_length_le (by rwa [hperm.length_eq])]
  exact hperm.map _

/-- A scanned row lies at or below the mountpoint it comes with. -/
theorem scanned_charted {a : Catalogue} (h : Charted server.lower a) (hlater : Later a cat) {r : ChurnRow}
    (hr : r ∈ scanned cat since scope volume_id) : ChartedBelow server.lower r.mountpoint r.path := by
  obtain ⟨c, hc, v, hv, hid, rfl⟩ := mem_scanned hr
  obtain ⟨w, hw, hwid, hmountpoint⟩ := hlater.volumes v hv
  show ChartedBelow server.lower v.mountpoint c.path
  rw [← hmountpoint]
  exact h.below c (hlater.change_log.subset hc) w hw (hwid.trans hid)

/-- **When hot folders attribute what changed.** After any accepted batches, for each
window and depth: when the depth leaves out a component of each path that is scanned. -/
theorem hot_folders_attribute_iff {pushes : List Push} {a : Archive} (hlower : Lowers server.lower)
    (h : (archiving server).Trace pushes a) (hlater : Later a.cat cat) (since : Instant) (scope : Option ScopeFilter)
    (volume_id : Option ℕ) (parent_depth : Int) :
    Attribute server.lower parent_depth (scanned cat since scope volume_id)
        (ranked parent_depth (scanned cat since scope volume_id)) ↔
      ∀ r ∈ scanned cat since scope volume_id, LeavesOut parent_depth r.mountpoint r.path := by
  have hcharted := charted hlower h
  constructor
  · intro hattribute r hr
    obtain ⟨h, hone, -, hancestor⟩ := hattribute.one r hr
    obtain ⟨h', hone', -, hpath⟩ := one_folder parent_depth hr
    obtain rfl := List.singleton_inj.mp (hone.symm.trans hone')
    rw [hpath] at hancestor
    exact (ancestor_iff hlower (scanned_charted hcharted hlater hr) parent_depth).mp hancestor
  · intro hleaves
    obtain ⟨hcounts, hdeltas⟩ := sums_ranked parent_depth (scanned cat since scope volume_id)
    refine ⟨fun r hr => ?_, fun h hmem => ?_, hcounts, hdeltas⟩
    · obtain ⟨h, hone, hvolume, hpath⟩ := one_folder parent_depth hr
      refine ⟨h, hone, hvolume, ?_⟩
      rw [hpath]
      exact (ancestor_iff hlower (scanned_charted hcharted hlater hr) parent_depth).mpr (hleaves r hr)
    · exact sums_of_mem ((ranked_perm _ _).mem_iff.mp hmem)

end

/-- Two files directly below `/m`, put down to `/m`. -/
theorem hot_folders_mountpoint :
    Attribute sample_server.lower 0 (scanned (archived [two_rewritten]).cat 0 none none)
        (ranked 0 (scanned (archived [two_rewritten]).cat 0 none none)) ↔
      ∀ r ∈ scanned (archived [two_rewritten]).cat 0 none none, LeavesOut 0 r.mountpoint r.path := by
  have htrace : (archiving sample_server).Trace [⟨two_rewritten, "fp", 0⟩] (archived [two_rewritten]) := ⟨_, rfl, rfl⟩
  have hlater : Later (archived [two_rewritten]).cat (archived [two_rewritten]).cat :=
    ⟨List.Sublist.refl _, fun v hv => ⟨v, hv, rfl, rfl⟩⟩
  exact hot_folders_attribute_iff lowers_id htrace hlater 0 none none 0

/-- At the default depth each of the two files is its own folder. -/
theorem hot_folder_is_file :
    ¬ ∀ (server : Server) (pushes : List Push) (a : Archive) (cat : Catalogue) (since : Instant)
      (scope : Option ScopeFilter) (volume_id : Option ℕ) (parent_depth : Int), Lowers server.lower →
      (archiving server).Trace pushes a → Later a.cat cat →
        Attribute server.lower parent_depth (scanned cat since scope volume_id)
          (ranked parent_depth (scanned cat since scope volume_id)) := by
  intro hall
  have hattribute := hall sample_server [⟨two_rewritten, "fp", 0⟩] (archived [two_rewritten])
    (archived [two_rewritten]).cat 0 none none 1 lowers_id ⟨_, rfl, rfl⟩
    ⟨List.Sublist.refl _, fun v hv => ⟨v, hv, rfl, rfl⟩⟩
  have hrow : (⟨"/m/a", 20, 0, 1, 1, "/m"⟩ : ChurnRow) ∈ scanned (archived [two_rewritten]).cat 0 none none :=
    (scanned_perm (by decide)).mem_iff.mpr (by decide)
  obtain ⟨h, hone, -, hancestor⟩ := hattribute.one _ hrow
  obtain ⟨h', hone', -, hpath⟩ := one_folder 1 hrow
  obtain rfl := List.singleton_inj.mp (hone.symm.trans hone')
  have habove := hancestor.above
  rw [hpath] at habove
  revert habove
  decide

end Fathom.Concierge
