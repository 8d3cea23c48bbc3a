/-
**The catalogue and its duplicate groups** (`core/catalogue/models.py`,
`core/dedup_service.py`).

The catalogue is its tables together with what their keys promise: primary keys are
unique, an entry's host exists, and a group member carries the host and the
volume of the entry it names. The last one is not a constraint of the database;
the source calls it app-enforced, and `rebuild` is where it is enforced, so
`rebuild` has to show it.

A table is a list in the order an unordered `SELECT` happens to return. Columns
no modelled function reads are left out, among them the two timestamps the
suggested keeper is ranked by: the rule is a parameter of the source as well.
-/
import Fathom.Lib.Json
import Mathlib.Data.List.Induction

set_option autoImplicit false

namespace Fathom.Catalogue

open Fathom.Json (Value)

/-! ## Rows -/

/-- `Host`; the ingest frame refuses an empty name. -/
structure Host where
  id : ℕ
  name : String
  name_ne : name ≠ ""
  deriving DecidableEq

/-- `Volume`. -/
structure Volume where
  id : ℕ
  fs_type : String
  deriving DecidableEq

/-- `FsEntryRow`: one catalogued filesystem entry. -/
structure FsEntryRow where
  id : ℕ
  host_id : ℕ
  volume_id : ℕ
  path : String
  is_dir : Bool
  present : Bool
  size_logical : ℕ
  inode : Int
  full_hash : Option String
  deriving DecidableEq

/-- `DupMember`. -/
structure DupMember where
  entry_id : ℕ
  host_id : ℕ
  volume_id : ℕ
  path : String
  is_mount_alias : Bool
  deriving DecidableEq

/-- `DupGroup`, with its members. -/
structure DupGroup where
  id : ℕ
  full_hash : String
  size : ℕ
  member_count : ℕ
  reclaimable_bytes : ℕ
  scope : Value
  suggested_keeper_entry_id : ℕ
  suggested_keeper_reason : String
  members : List DupMember

/-- The tables, and what holds of them. -/
structure Tables where
  hosts : List Host
  volumes : List Volume
  entries : List FsEntryRow
  groups : List DupGroup
  next_group_id : ℕ
  hosts_key : (hosts.map Host.id).Nodup
  entries_key : (entries.map FsEntryRow.id).Nodup
  groups_key : (groups.map DupGroup.id).Nodup
  groups_below : ∀ g ∈ groups, g.id < next_group_id
  entry_host : ∀ e ∈ entries, ∃ h ∈ hosts, h.id = e.host_id
  member_entry : ∀ g ∈ groups, ∀ m ∈ g.members, ∀ e ∈ entries, e.id = m.entry_id →
    m.host_id = e.host_id ∧ m.volume_id = e.volume_id

/-- `session.get(Host, id)`. -/
def Tables.get_host (db : Tables) (id : ℕ) : Option Host :=
  db.hosts.find? fun h => h.id = id

/-- `session.get(FsEntryRow, id)`. -/
def Tables.get_entry (db : Tables) (id : ℕ) : Option FsEntryRow :=
  db.entries.find? fun e => e.id = id

/-- `session.get(DupGroup, id)`. -/
def Tables.get_group (db : Tables) (id : ℕ) : Option DupGroup :=
  db.groups.find? fun g => g.id = id

variable {id : ℕ} {db : Tables} {g : DupGroup}

/-- A row is found by its unique key. -/
theorem find_key_iff {α : Type} {key : α → ℕ} {rows : List α} (hkey : (rows.map key).Nodup) {row : α} :
    rows.find? (fun r => key r = id) = some row ↔ row ∈ rows ∧ key row = id := by
  constructor
  · intro h
    exact ⟨List.mem_of_find?_eq_some h, by simpa using List.find?_some h⟩
  · rintro ⟨hmem, rfl⟩
    rcases hfind : rows.find? (fun r => key r = key row) with _ | found
    · have hno := List.find?_eq_none.mp hfind row hmem
      exact absurd (decide_eq_true rfl) hno
    · have hfound : key found = key row := by simpa using List.find?_some hfind
      rw [List.inj_on_of_nodup_map hkey (List.mem_of_find?_eq_some hfind) hmem hfound]

theorem get_host_iff {h : Host} : db.get_host id = some h ↔ h ∈ db.hosts ∧ h.id = id :=
  find_key_iff db.hosts_key

theorem get_entry_iff {e : FsEntryRow} : db.get_entry id = some e ↔ e ∈ db.entries ∧ e.id = id :=
  find_key_iff db.entries_key

theorem get_group_iff : db.get_group id = some g ↔ g ∈ db.groups ∧ g.id = id :=
  find_key_iff db.groups_key

/-! ## Rebuilding the groups -/

/-- `_NETWORK_FS`. -/
def NETWORK_FS : List String :=
  ["nfs", "nfs4", "nfsd", "cifs", "smbfs", "smb", "smb2", "smb3", "sshfs", "fuse.sshfs",
    "fuse.rclone", "9p", "afs", "glusterfs", "ceph", "fuse.cephfs"]

/-- `str.strip`. -/
def strip (text : List Char) : List Char :=
  ((text.dropWhile Char.isWhitespace).reverse.dropWhile Char.isWhitespace).reverse

/-- `is_network_fs`. -/
def is_network_fs (fs_type : String) : Bool :=
  NETWORK_FS.contains (String.ofList ((strip fs_type.toList).map Char.toLower))

/-- `EntryRef`. -/
structure EntryRef where
  entry_id : ℕ
  host_id : ℕ
  volume_id : ℕ
  path : String
  size : ℕ
  full_hash : String
  fs_type : String
  deriving DecidableEq

/-- `DedupScope`. -/
structure DedupScope where
  volume_ids : List ℕ := []
  path_prefix : Option String := none
  path_prefix_volume_id : Option ℕ := none
  preferred_volume_ids : List ℕ := []
  preferred_path_prefixes : List String := []

/-- `None` or a number, as JSON. -/
def opt_int : Option ℕ → Value
  | none => .null
  | some n => .int n

/-- `sorted(…)` of ids, as JSON. -/
def sorted_ids (ids : List ℕ) : Value :=
  .arr ((ids.mergeSort fun a b => a ≤ b).map fun (n : ℕ) => .int n)

/-- `DedupScope.as_json`. -/
def DedupScope.as_json (scope : DedupScope) : Value :=
  .obj [("volume_ids", sorted_ids scope.volume_ids),
    ("path_prefix", (scope.path_prefix.map Value.str).getD .null),
    ("path_prefix_volume_id", opt_int scope.path_prefix_volume_id),
    ("preferred_volume_ids", sorted_ids scope.preferred_volume_ids),
    ("preferred_path_prefixes", .arr (scope.preferred_path_prefixes.map Value.str))]

/-- `KeeperChoice`. -/
structure KeeperChoice where
  entry_id : ℕ
  reason : String

/-- `KeeperRule`. -/
abbrev KeeperRule := List EntryRef → DedupScope → KeeperChoice

/-- `path = prefix OR path LIKE escape(prefix.rstrip("/")) || "/%"`. -/
def under_prefix (path root : String) : Bool :=
  let base := (root.toList.reverse.dropWhile fun c => c = '/').reverse
  path = root || (base ++ ['/']).isPrefixOf path.toList

/-- The `WHERE` of `_load_hashed_entries`. -/
def hashed_in_scope (scope : DedupScope) (e : FsEntryRow) : Bool :=
  e.full_hash.isSome && e.present && !e.is_dir &&
    (scope.volume_ids.isEmpty || scope.volume_ids.contains e.volume_id) &&
    match scope.path_prefix, scope.path_prefix_volume_id with
    | some root, some volume_id => e.volume_id = volume_id && under_prefix e.path root
    | _, _ => true

/-- The reference made of a row, its volume joined in. -/
def entry_ref (db : Tables) (e : FsEntryRow) : EntryRef where
  entry_id := e.id
  host_id := e.host_id
  volume_id := e.volume_id
  path := e.path
  size := e.size_logical
  full_hash := e.full_hash.getD ""
  fs_type := ((db.volumes.find? fun v => v.id = e.volume_id).map Volume.fs_type).getD ""

/-- `_load_hashed_entries`. -/
def load_hashed_entries (db : Tables) (scope : DedupScope) : List EntryRef :=
  (db.entries.filter (hashed_in_scope scope)).map (entry_ref db)

/-- The key of `by_hash`. -/
def EntryRef.key (ref : EntryRef) : ℕ × String := (ref.size, ref.full_hash)

/-- `by_hash`, a `defaultdict(list)` in insertion order. -/
abbrev ByHash := List ((ℕ × String) × List EntryRef)

/-- `by_hash[(ref.size, ref.full_hash)].append(ref)`. -/
def ByHash.append : ByHash → EntryRef → ByHash
  | [], ref => [(ref.key, [ref])]
  | (key, members) :: rest, ref =>
    if key = ref.key then (key, members ++ [ref]) :: rest
    else (key, members) :: append rest ref

/-- The loop that fills `by_hash`. -/
def group_by_hash (refs : List EntryRef) : ByHash := refs.foldl ByHash.append []

/-- The member made of a reference. -/
def dup_member (ref : EntryRef) : DupMember where
  entry_id := ref.entry_id
  host_id := ref.host_id
  volume_id := ref.volume_id
  path := ref.path
  is_mount_alias := is_network_fs ref.fs_type

/-- The group made of one key of `by_hash`. -/
def make_group (scope : DedupScope) (keeper : KeeperRule) (id : ℕ)
    (group : (ℕ × String) × List EntryRef) : DupGroup :=
  let native := group.2.filter fun m => !is_network_fs m.fs_type
  let choice := keeper group.2 scope
  { id
    full_hash := group.1.2
    size := group.1.1
    member_count := group.2.length
    reclaimable_bytes := group.1.1 * (native.length - 1)
    scope := scope.as_json
    suggested_keeper_entry_id := choice.entry_id
    suggested_keeper_reason := choice.reason
    members := group.2.map dup_member }

/-- The groups a rebuild adds, numbered by the sequence. -/
def build_groups (db : Tables) (scope : DedupScope) (keeper : KeeperRule) : List DupGroup :=
  ((group_by_hash (load_hashed_entries db scope)).filter fun g => 2 ≤ g.2.length).mapIdx
    fun i g => make_group scope keeper (db.next_group_id + i) g

/-! ## What a rebuild makes -/

theorem append_keys (dict : ByHash) (ref : EntryRef) :
    (dict.append ref).map Prod.fst =
      if ref.key ∈ dict.map Prod.fst then dict.map Prod.fst else dict.map Prod.fst ++ [ref.key] := by
  induction dict with
  | nil => rfl
  | cons group rest ih =>
      rcases group with ⟨key, members⟩
      rw [ByHash.append]
      by_cases hkey : key = ref.key
      · rw [if_pos hkey, if_pos (by rw [← hkey]; exact List.mem_cons_self ..)]
        rfl
      · rw [if_neg hkey, List.map_cons, List.map_cons, ih]
        by_cases hrest : ref.key ∈ rest.map Prod.fst
        · rw [if_pos hrest, if_pos (List.mem_cons_of_mem _ hrest)]
        · have hnot : ref.key ∉ key :: rest.map Prod.fst := by
            rw [List.mem_cons, not_or]
            exact ⟨fun h => hkey h.symm, hrest⟩
          rw [if_neg hrest, if_neg hnot]
          rfl

/-- Appending touches the list under the reference's own key only. -/
theorem mem_append {dict : ByHash} {ref : EntryRef} {group : (ℕ × String) × List EntryRef}
    (hkeys : (dict.map Prod.fst).Nodup) (h : group ∈ dict.append ref) : (group.1 ≠ ref.key ∧ group ∈ dict) ∨
      (group.1 = ref.key ∧ ((∃ members, (group.1, members) ∈ dict ∧ group.2 = members ++ [ref]) ∨
        (ref.key ∉ dict.map Prod.fst ∧ group.2 = [ref]))) := by
  induction dict with
  | nil =>
      rw [List.mem_singleton.mp h]
      exact Or.inr ⟨rfl, Or.inr ⟨by simp, rfl⟩⟩
  | cons first rest ih =>
      rcases first with ⟨key, members⟩
      rw [List.map_cons, List.nodup_cons] at hkeys
      rw [ByHash.append] at h
      by_cases hkey : key = ref.key
      · rw [if_pos hkey] at h
        rcases List.mem_cons.mp h with heq | hmem
        · rw [heq]
          exact Or.inr ⟨hkey, Or.inl ⟨members, List.mem_cons_self .., rfl⟩⟩
        · refine Or.inl ⟨?_, List.mem_cons_of_mem _ hmem⟩
          intro hsame
          apply hkeys.1
          rw [hkey, ← hsame]
          exact List.mem_map.mpr ⟨group, hmem, rfl⟩
      · rw [if_neg hkey] at h
        rcases List.mem_cons.mp h with heq | hmem
        · rw [heq]
          exact Or.inl ⟨hkey, List.mem_cons_self ..⟩
        · rcases ih hkeys.2 hmem with ⟨hne, hin⟩ | ⟨hsame, ⟨ms, hin, heq⟩ | ⟨hnone, heq⟩⟩
          · exact Or.inl ⟨hne, List.mem_cons_of_mem _ hin⟩
          · exact Or.inr ⟨hsame, Or.inl ⟨ms, List.mem_cons_of_mem _ hin, heq⟩⟩
          · refine Or.inr ⟨hsame, Or.inr ⟨?_, heq⟩⟩
            rw [List.map_cons, List.mem_cons, not_or]
            exact ⟨fun hk => hkey hk.symm, hnone⟩

theorem filter_snoc {refs : List EntryRef} {ref : EntryRef} (p : EntryRef → Bool) :
    (refs ++ [ref]).filter p = refs.filter p ++ if p ref then [ref] else [] := by
  rw [List.filter_append, List.filter_cons, List.filter_nil]

/-- **Grouping**: a key occurs once, with the references of that key, in order. -/
theorem group_by_hash_spec (refs : List EntryRef) :
    ((group_by_hash refs).map Prod.fst).Nodup ∧
      (∀ ref ∈ refs, ref.key ∈ (group_by_hash refs).map Prod.fst) ∧
      ∀ group ∈ group_by_hash refs, group.2 = refs.filter fun ref => ref.key = group.1 := by
  induction refs using List.reverseRecOn with
  | nil => exact ⟨List.nodup_nil, by simp, by simp [group_by_hash]⟩
  | append_singleton refs ref ih =>
      rcases ih with ⟨hnodup, hall, hfilter⟩
      have hsnoc : group_by_hash (refs ++ [ref]) = (group_by_hash refs).append ref := by
        rw [group_by_hash, List.foldl_append]
        rfl
      rw [hsnoc, append_keys]
      refine ⟨?_, ?_, ?_⟩
      · by_cases hkey : ref.key ∈ (group_by_hash refs).map Prod.fst
        · rw [if_pos hkey]
          exact hnodup
        · rw [if_neg hkey, ← List.concat_eq_append]
          exact hnodup.concat hkey
      · intro r hr
        rcases List.mem_append.mp hr with hold | hnew
        · have hr := hall r hold
          split_ifs
          · exact hr
          · exact List.mem_append_left _ hr
        · rw [List.mem_singleton.mp hnew]
          split_ifs with hkey
          · exact hkey
          · exact List.mem_append_right _ (List.mem_singleton.mpr rfl)
      · intro group hgroup
        rw [filter_snoc]
        rcases mem_append hnodup hgroup with ⟨hne, hin⟩ | ⟨hsame, ⟨ms, hin, heq⟩ | ⟨hnone, heq⟩⟩
        · rw [if_neg (by simpa using fun h => hne h.symm), List.append_nil]
          exact hfilter group hin
        · have hms : ms = refs.filter fun r => r.key = group.1 := hfilter _ hin
          rw [if_pos (by simpa using hsame.symm), heq, hms]
        · -- no reference before this one had its key
          have hnil : (refs.filter fun r => r.key = group.1) = [] := by
            rw [List.filter_eq_nil_iff]
            intro r hr hk
            apply hnone
            rw [← hsame, ← of_decide_eq_true hk]
            exact hall r hr
          rw [if_pos (by simpa using hsame.symm), hnil, heq, List.nil_append]

/-- Every entry of a built group is present, hashed, no directory, and of the
group's size and hash. -/
structure Grouped (db : Tables) (g : DupGroup) (m : DupMember) (e : FsEntryRow) : Prop where
  entry : e ∈ db.entries
  entry_id : m.entry_id = e.id
  host_id : m.host_id = e.host_id
  volume_id : m.volume_id = e.volume_id
  path : m.path = e.path
  present : e.present = true
  file : e.is_dir = false
  size : e.size_logical = g.size
  full_hash : e.full_hash = some g.full_hash

theorem mem_load_hashed_entries {scope : DedupScope} {ref : EntryRef} :
    ref ∈ load_hashed_entries db scope ↔ ∃ e ∈ db.entries, hashed_in_scope scope e = true ∧ entry_ref db e = ref := by
  rw [load_hashed_entries, List.mem_map]
  simp only [List.mem_filter, and_assoc]

theorem hashed_in_scope_spec {scope : DedupScope} {e : FsEntryRow} (h : hashed_in_scope scope e = true) :
    e.present = true ∧ e.is_dir = false ∧ ∃ hash, e.full_hash = some hash := by
  unfold hashed_in_scope at h
  simp only [Bool.and_eq_true, Bool.not_eq_true'] at h
  obtain ⟨⟨⟨⟨hhash, hpresent⟩, hfile⟩, -⟩, -⟩ := h
  exact ⟨hpresent, hfile, Option.isSome_iff_exists.mp hhash⟩

/-- **The members of a group** are the hashed entries in scope of its size and hash. -/
theorem mem_build_groups {scope : DedupScope} {keeper : KeeperRule} (h : g ∈ build_groups db scope keeper)
    {m : DupMember} :
    m ∈ g.members ↔ ∃ e ∈ db.entries, hashed_in_scope scope e = true ∧
      e.size_logical = g.size ∧ e.full_hash = some g.full_hash ∧ dup_member (entry_ref db e) = m := by
  rw [build_groups, List.mem_mapIdx] at h
  obtain ⟨i, hi, rfl⟩ := h
  have hgroup := (List.mem_filter.mp (List.getElem_mem hi)).1
  have hfilter := (group_by_hash_spec (load_hashed_entries db scope)).2.2 _ hgroup
  rw [make_group, hfilter, List.mem_map]
  dsimp only
  constructor
  · rintro ⟨ref, href, rfl⟩
    obtain ⟨hloaded, hkey⟩ := List.mem_filter.mp href
    obtain ⟨e, he, hscope, rfl⟩ := mem_load_hashed_entries.mp hloaded
    obtain ⟨-, -, hash, hhash⟩ := hashed_in_scope_spec hscope
    have hkey' := of_decide_eq_true hkey
    rw [EntryRef.key, entry_ref, hhash] at hkey'
    refine ⟨e, he, hscope, congrArg Prod.fst hkey', ?_, rfl⟩
    rw [hhash]
    exact congrArg (fun k => some k.2) hkey'
  · rintro ⟨e, he, hscope, hsize, hhash, rfl⟩
    refine ⟨entry_ref db e, ?_, rfl⟩
    rw [List.mem_filter]
    refine ⟨mem_load_hashed_entries.mpr ⟨e, he, hscope, rfl⟩, ?_⟩
    rw [EntryRef.key, entry_ref, hsize, hhash]
    exact decide_eq_true rfl

/-- What a group of a rebuild is made of. -/
theorem build_groups_spec {scope : DedupScope} {keeper : KeeperRule} (h : g ∈ build_groups db scope keeper) :
    2 ≤ g.members.length ∧ ∀ m ∈ g.members, ∃ e, Grouped db g m e := by
  refine ⟨?_, ?_⟩
  · rw [build_groups, List.mem_mapIdx] at h
    obtain ⟨i, hi, rfl⟩ := h
    rw [make_group, List.length_map]
    exact of_decide_eq_true (List.mem_filter.mp (List.getElem_mem hi)).2
  · intro m hm
    obtain ⟨e, he, hscope, hsize, hhash, rfl⟩ := (mem_build_groups h).mp hm
    obtain ⟨hpresent, hfile, -⟩ := hashed_in_scope_spec hscope
    exact ⟨e, he, rfl, rfl, rfl, rfl, hpresent, hfile, hsize, hhash⟩

theorem build_groups_ids (db : Tables) (scope : DedupScope) (keeper : KeeperRule) :
    (∀ g ∈ build_groups db scope keeper, db.next_group_id ≤ g.id ∧
        g.id < db.next_group_id + (build_groups db scope keeper).length) ∧
      ((build_groups db scope keeper).map DupGroup.id).Nodup := by
  constructor
  · intro g hg
    have hlen : (build_groups db scope keeper).length =
        ((group_by_hash (load_hashed_entries db scope)).filter fun g => 2 ≤ g.2.length).length := by
      rw [build_groups, List.length_mapIdx]
    rw [hlen]
    rw [build_groups, List.mem_mapIdx] at hg
    rcases hg with ⟨i, hi, rfl⟩
    rw [make_group]
    dsimp only
    omega
  · rw [List.nodup_iff_getElem?_ne_getElem?]
    intro i j hij hj
    rw [List.length_map] at hj
    rw [List.getElem?_eq_getElem (by rw [List.length_map]; omega),
      List.getElem?_eq_getElem (by rw [List.length_map]; exact hj)]
    simp only [List.getElem_map, build_groups, List.getElem_mapIdx, make_group, ne_eq,
      Option.some.injEq]
    omega

/-- `DedupService.rebuild`: the groups of the same scope are replaced. -/
def rebuild (db : Tables) (scope : DedupScope) (keeper : KeeperRule) : Tables where
  hosts := db.hosts
  volumes := db.volumes
  entries := db.entries
  groups := db.groups.filter (fun g => g.scope ≠ scope.as_json) ++ build_groups db scope keeper
  next_group_id := db.next_group_id + (build_groups db scope keeper).length
  hosts_key := db.hosts_key
  entries_key := db.entries_key
  groups_key := by
    rw [List.map_append, List.nodup_append]
    refine ⟨db.groups_key.sublist (List.filter_sublist.map _), (build_groups_ids ..).2, ?_⟩
    intro a ha b hb hab
    rcases List.mem_map.mp ha with ⟨g, hg, rfl⟩
    rcases List.mem_map.mp hb with ⟨g', hg', rfl⟩
    have hold := db.groups_below g (List.mem_filter.mp hg).1
    have hnew := ((build_groups_ids db scope keeper).1 g' hg').1
    omega
  groups_below := by
    intro g hg
    rcases List.mem_append.mp hg with hold | hnew
    · have hlt := db.groups_below g (List.mem_filter.mp hold).1
      omega
    · exact ((build_groups_ids db scope keeper).1 g hnew).2
  entry_host := db.entry_host
  member_entry := by
    intro g hg m hm e he heid
    rcases List.mem_append.mp hg with hold | hnew
    · exact db.member_entry g (List.mem_filter.mp hold).1 m hm e he heid
    · rcases (build_groups_spec hnew).2 m hm with ⟨e', he'⟩
      -- ids are unique, so the entry is the one the member was made of
      have hsame : e = e' := by
        refine List.inj_on_of_nodup_map db.entries_key he he'.entry ?_
        rw [heid, he'.entry_id]
      rw [hsame]
      exact ⟨he'.host_id, he'.volume_id⟩

end Fathom.Catalogue
