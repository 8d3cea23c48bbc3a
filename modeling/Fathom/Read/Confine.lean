/-
**System volumes stay hidden** from a principal that no global grant and no grant on the
volume itself lets in: what every read, and the building of a plan, would have to keep to.

The reads of volumes, entries, history and charts pass the kind of the volume to the scope
and keep to it. The reads of duplicate groups, of provider hashes and the members a plan is
built from ask for a host or a volume only: a grant on the host is enough for them.
`confined_iff` says which estates this shows in.
-/
import Fathom.Api.Remediation
import Fathom.Ingest.Hashes
import Fathom.Read.Charts
import Fathom.Read.Duplicates
import Mathlib.Data.Prod.Lex
import Mathlib.Data.String.Basic

set_option autoImplicit false

namespace Fathom.Read

open Fathom.Auth
open Fathom.Ingest (Catalogue FsEntryRow Volume Instant ChangeLog)
open Fathom.Catalogue (DupGroup DupMember Tables)

/-- What the database and the platform decide. -/
structure Engine where
  name_le : String → String → Bool
  path_le : String → String → Bool
  fold : List Char → List Char
  key_order : KeyOrder ProviderKey
  slice : Slice

/-- Everything that is read. -/
structure Estate extends Database where
  size_history : List SizeHistory
  tables : Tables
  volumes_key : (cat.volumes.rows.map Volume.id).Nodup
  entries_eq : tables.entries = cat.grouping_rows

/-- The filter of `require(VIEW_METADATA)`. -/
def view_scope (grants : List Grant) : ScopeFilter := .from_grants grants .view_metadata

/-- The filter of `require(VIEW_DEDUP)`. -/
def dedup_scope (grants : List Grant) : ScopeFilter := .from_grants grants .view_dedup

/-- The filter of `require(BUILD_REMEDIATION)`, as the routes of remediation have it. -/
def build_scope (grants : List Grant) : Api.ScopeFilter :=
  let f := ScopeFilter.from_grants grants .build_remediation
  ⟨f.is_global, f.host_ids, f.volume_ids⟩

/-- A grant on a host. -/
def OnHost (grants : List Grant) (host_id : ℕ) : Prop :=
  ∃ g ∈ grants, g.scope_kind = .host ∧ g.host_id = some host_id

/-- A grant on a volume. -/
def OnVolume (grants : List Grant) (volume_id : ℕ) : Prop :=
  ∃ g ∈ grants, g.scope_kind = .volume ∧ g.volume_id = some volume_id

/-- **A volume is hidden** from a principal: a system volume, and neither a global grant nor
one on the volume. -/
structure Hidden (e : Estate) (grants : List Grant) (volume_id : ℕ) : Prop where
  system : ∃ v ∈ e.cat.volumes.rows, v.id = volume_id ∧ v.kind = SYSTEM_VOLUME_KIND
  no_global : ∀ g ∈ grants, g.scope_kind ≠ .global
  no_grant : ¬ OnVolume grants volume_id

/-- **No read returns a row of a hidden volume.** What is read is made of rows of other
volumes; a group is listed for a member of another volume. -/
structure Confined (engine : Engine) (e : Estate) (grants : List Grant) : Prop where
  volumes : ∀ v ∈ list_volumes e.cat (some (view_scope grants)), ¬ Hidden e grants v.id
  tree : ∀ volume_id path children,
    list_children engine.name_le e.toDatabase volume_id path (some (view_scope grants)) = .ok children →
      ∀ child ∈ children, ∃ row ∈ rows_with_ids e.cat,
        child = tree_child e.subtree_rollup row ∧ ¬ Hidden e grants row.1.volume_id
  history : ∀ volume_id path since until_ points,
    get_history e.cat e.size_history volume_id path since until_ (some (view_scope grants)) = .ok points →
      ∀ point ∈ points, ¬ Hidden e grants point.volume_id
  changes : ∀ volume_id path since until_ limit changes,
    get_changes e.cat volume_id path since until_ limit (some (view_scope grants)) = .ok changes →
      ∀ change ∈ changes, ¬ Hidden e grants change.volume_id
  search : ∀ q volume_id limit,
    ∀ result ∈ search_entries engine.fold e.cat q (some (view_scope grants)) volume_id limit,
      ¬ Hidden e grants result.volume_id
  treemap : ∀ volume_id path limit nodes,
    treemap_children e.toDatabase volume_id path limit (some (view_scope grants)) = .ok nodes →
      ∀ node ∈ nodes, ∃ r ∈ e.cat.fs_entry.rows,
        node = treemap_node e.subtree_rollup r ∧ ¬ Hidden e grants r.volume_id
  top_n : ∀ volume_id path n basis kind items,
    top_n_subtrees engine.path_le e.toDatabase volume_id path n basis kind (some (view_scope grants)) = .ok items →
      ∀ item ∈ items, ∃ r ∈ e.cat.fs_entry.rows,
        item = top_n_item e.subtree_rollup r ∧ ¬ Hidden e grants r.volume_id
  growth : ∀ volume_id path since until_ buckets series,
    growth_series engine.slice e.cat e.size_history volume_id path since until_ buckets (some (view_scope grants))
        = .ok series →
      ∀ point ∈ series.points, ∃ h ∈ e.size_history, point = growth_point h ∧ ¬ Hidden e grants h.volume_id
  groups : ∀ volume_id cursor limit,
    ∀ group ∈ (list_duplicate_groups e.tables (some (dedup_scope grants)) volume_id cursor limit).1,
      (dedup_scope grants).is_global = true ∨
        ∃ m ∈ group.members, (dedup_scope grants).apply member_columns m = true ∧ ¬ Hidden e grants m.volume_id
  group : ∀ group_id group members,
    get_duplicate_group e.tables group_id (some (dedup_scope grants)) = some (group, members) →
      ∀ m ∈ members, ¬ Hidden e grants m.volume_id
  provider : ∀ volume_ids limit,
    ∀ group ∈ find_provider_hash_duplicates engine.key_order e.cat (some (dedup_scope grants)) volume_ids 2 limit,
      ∀ m ∈ group.members, ¬ Hidden e grants m.volume_id
  plan : ∀ group_id rows group members, (∀ g, e.tables.get_group group_id = some g → rows.Perm g.members) →
    Api.load_group_members e.tables group_id rows (build_scope grants) = .ok (group, members) →
      ∀ m ∈ members, ¬ Hidden e grants m.volume_id

/-- **Where the missing kind does not show**: no member of a group, and no file that shares
a provider's hash with another one in sight, is on a hidden volume of a granted host. -/
structure Spared (e : Estate) (grants : List Grant) : Prop where
  members : ∀ group ∈ e.tables.groups, ∀ m ∈ group.members, Hidden e grants m.volume_id → ¬ OnHost grants m.host_id
  attested : ∀ row ∈ rows_with_ids e.cat, attested row = true → Hidden e grants row.1.volume_id →
    OnHost grants row.1.host_id →
      ∀ row' ∈ rows_with_ids e.cat, attested row' = true → row' ≠ row → provider_key row' = provider_key row →
        ¬ (OnHost grants row'.1.host_id ∨ OnVolume grants row'.1.volume_id)

/-! ## Filters and hidden volumes -/

section

variable {e : Estate} {grants : List Grant} {capability : Capability} {volume_id host_id : ℕ}

/-- Every role may see metadata and duplicates. -/
theorem role_has_view (role : Role) : role_has role .view_metadata = true ∧ role_has role .view_dedup = true := by
  cases role <;> exact ⟨rfl, rfl⟩

theorem Hidden.not_global (h : Hidden e grants volume_id) :
    (ScopeFilter.from_grants grants capability).is_global ≠ true := by
  intro hglobal
  obtain ⟨g, hg, hkind⟩ := ScopeFilter.global_of_from_grants hglobal
  exact h.no_global g hg hkind

theorem Hidden.not_mem (h : Hidden e grants volume_id) :
    volume_id ∉ (ScopeFilter.from_grants grants capability).volume_ids :=
  fun hmem => h.no_grant (ScopeFilter.mem_volume_ids hmem)

/-- The hosts that duplicates are filtered by. -/
theorem mem_dedup_hosts (hno : ∀ g ∈ grants, g.scope_kind ≠ .global) :
    host_id ∈ (dedup_scope grants).host_ids ↔ OnHost grants host_id := by
  refine ⟨ScopeFilter.mem_host_ids, ?_⟩
  rintro ⟨g, hg, hkind, hid⟩
  exact (ScopeFilter.from_grants_ids hno hg (role_has_view g.role).2).1 _ hkind hid

theorem mem_dedup_volumes (hno : ∀ g ∈ grants, g.scope_kind ≠ .global) :
    volume_id ∈ (dedup_scope grants).volume_ids ↔ OnVolume grants volume_id := by
  refine ⟨ScopeFilter.mem_volume_ids, ?_⟩
  rintro ⟨g, hg, hkind, hid⟩
  exact (ScopeFilter.from_grants_ids hno hg (role_has_view g.role).2).2 _ hkind hid

/-- A volume that a filter admits with its kind is not hidden. -/
theorem not_hidden_of_admits {v : Volume} (hv : v ∈ e.cat.volumes.rows)
    (h : (ScopeFilter.from_grants grants capability).is_global = true ∨
      (ScopeFilter.from_grants grants capability).Admits ⟨host_id, v.id, v.kind⟩) : ¬ Hidden e grants v.id := by
  intro hhidden
  obtain ⟨v', hv', hid, hkind⟩ := hhidden.system
  have hsame : v' = v := List.inj_on_of_nodup_map e.volumes_key hv' hv hid
  rcases h with hglobal | hadmits
  · exact hhidden.not_global hglobal
  · exact hhidden.not_mem (hadmits.system (hsame ▸ hkind))

/-- A volume that was loaded and checked is not hidden. -/
theorem not_hidden_of_scoped {v : Volume} (h : scoped_volume e.cat volume_id (some (view_scope grants)) = .ok v) :
    v.id = volume_id ∧ ¬ Hidden e grants v.id := by
  obtain ⟨hget, hcheck⟩ := scoped_volume_ok.mp h
  have htarget : (view_scope grants).check_target v.host_id (some v.id) (some v.kind) = .ok () := by
    unfold check_volume_in_scope at hcheck
    dsimp only at hcheck
    split at hcheck
    · exact absurd hcheck (by simp)
    · assumption
  have hadmits := (@ScopeFilter.check_target_iff (view_scope grants) ⟨v.host_id, v.id, v.kind⟩).mp htarget
  exact ⟨by simpa using List.find?_some hget, not_hidden_of_admits (List.mem_of_find?_eq_some hget) hadmits⟩

/-- What is admitted without its kind is what is on a granted host or volume. -/
theorem apply_iff_grant {ρ : Type} {host volume : ρ → ℕ} {r : ρ} (hno : ∀ g ∈ grants, g.scope_kind ≠ .global) :
    (dedup_scope grants).apply ⟨some host, some volume, none⟩ r = true ↔
      OnHost grants (host r) ∨ OnVolume grants (volume r) := by
  have hglobal : (dedup_scope grants).is_global ≠ true := by
    intro hglobal
    obtain ⟨g, hg, hkind⟩ := ScopeFilter.global_of_from_grants hglobal
    exact hno g hg hkind
  rw [ScopeFilter.apply_members_iff, or_iff_right hglobal, mem_dedup_hosts hno, mem_dedup_volumes hno]

/-- **A row that is admitted without its kind**, on a hidden volume, is on a granted host. -/
theorem on_host_of_apply {ρ : Type} {host volume : ρ → ℕ} {r : ρ} (h : Hidden e grants (volume r))
    (happly : (dedup_scope grants).apply ⟨some host, some volume, none⟩ r = true) : OnHost grants (host r) :=
  ((apply_iff_grant h.no_global).mp happly).resolve_right h.no_grant

/-! ## Plans -/

/-- A member that a plan is built from, on a hidden volume, is on a granted host. -/
theorem on_host_of_load {db : Tables} {m : DupMember} {out : Remediation.GroupMember}
    (hload : Api.load_group_member db (build_scope grants) m = .ok out) :
    out.volume_id = m.volume_id ∧ (Hidden e grants m.volume_id → OnHost grants m.host_id) := by
  unfold Api.load_group_member at hload
  split at hload
  · exact absurd hload (by simp)
  · rename_i hcheck
    split at hload
    · exact absurd hload (by simp)
    · refine ⟨(congrArg Remediation.GroupMember.volume_id (Except.ok.inj hload)).symm, fun hhidden => ?_⟩
      unfold Api.ScopeFilter.check_target at hcheck
      split_ifs at hcheck with hglobal hvolume hhost
      · exact absurd hglobal hhidden.not_global
      · exact absurd (by simpa [build_scope] using hvolume) (@Hidden.not_mem _ _ .build_remediation _ hhidden)
      · exact ScopeFilter.mem_host_ids (by simpa [build_scope] using hhost)

/-! ## Provider hashes -/

theorem provider_confined {engine : Engine} (h : Spared e grants) (volume_ids : Option (List ℕ)) (limit : Option ℕ) :
    ∀ group ∈ find_provider_hash_duplicates engine.key_order e.cat (some (dedup_scope grants)) volume_ids 2 limit,
      ∀ m ∈ group.members, ¬ Hidden e grants m.volume_id := by
  intro group hgroup m hm hhidden
  have hgroup := mem_find_provider_hash_duplicates hgroup
  have hids : volume_ids ≠ some [] := by
    rintro rfl
    exact absurd hgroup List.not_mem_nil
  obtain ⟨key, hlen, hperm⟩ := (iter_provider_hash_duplicates_groups hids).1 group hgroup
  obtain ⟨row, hrow, rfl⟩ := List.mem_map.mp (hperm.mem_iff.mp hm)
  obtain ⟨hrow, hkey⟩ := List.mem_filter.mp hrow
  -- the run has another row of the key, and it is in sight
  rw [hperm.length_eq, ← of_decide_eq_true hkey] at hlen
  obtain ⟨row', hrow', hne, hsame⟩ := (grouped_iff hrow).mp hlen
  obtain ⟨hmem, hattested, -, happly⟩ := mem_provider_rows.mp hrow
  obtain ⟨hmem', hattested', -, happly'⟩ := mem_provider_rows.mp hrow'
  have hhost : OnHost grants row.1.host_id :=
    @on_host_of_apply e grants Row (fun row => row.1.host_id) (fun row => row.1.volume_id) row hhidden happly
  refine h.attested row hmem hattested hhidden hhost row' hmem' hattested' hne hsame ?_
  exact (@apply_iff_grant grants Row (fun row => row.1.host_id) (fun row => row.1.volume_id) row' hhidden.no_global).mp happly'

/-! ## The reads -/

theorem confined_of_spared (engine : Engine) (h : Spared e grants) : Confined engine e grants := by
  refine ⟨?_, ?_, ?_, ?_, ?_, ?_, ?_, ?_, ?_, ?_, ?_, ?_⟩
  · -- the volumes
    intro v hv
    obtain ⟨hmem, happly⟩ := mem_list_volumes.mp hv
    exact not_hidden_of_admits hmem (ScopeFilter.apply_columns_iff.mp happly)
  · -- a directory
    intro volume_id path children hchildren child hchild
    obtain ⟨volume, hscoped, hmade⟩ := list_children_scoped hchildren
    obtain ⟨row, hrow, hmake, hvolume⟩ := hmade child hchild
    exact ⟨row, hrow, hmake, hvolume ▸ (not_hidden_of_scoped hscoped).2⟩
  · -- its history
    intro volume_id path since until_ points hpoints point hpoint
    obtain ⟨hrows, volume, hscoped⟩ := get_history_scoped hpoints
    have hvolume := (mem_history_rows (hrows ▸ hpoint)).2
    obtain ⟨hid, hnot⟩ := not_hidden_of_scoped hscoped
    rw [hvolume, ← hid]
    exact hnot
  · -- its churn
    intro volume_id path since until_ limit changes hchanges change hchange
    obtain ⟨hrows, volume, hscoped⟩ := get_changes_scoped hchanges
    obtain ⟨hid, hnot⟩ := not_hidden_of_scoped hscoped
    rw [(hrows change hchange).2, ← hid]
    exact hnot
  · -- a search
    intro q volume_id limit result hresult
    obtain ⟨r, -, v, hv, hid, rfl, happly⟩ := mem_search_entries hresult
    have hadmits := ScopeFilter.apply_columns_iff.mp happly
    dsimp only at hadmits
    rw [← hid] at hadmits
    show ¬ Hidden e grants r.volume_id
    rw [← hid]
    exact not_hidden_of_admits hv hadmits
  · -- a treemap
    intro volume_id path limit nodes hnodes node hnode
    obtain ⟨volume, hscoped, hmade⟩ := treemap_children_scoped hnodes
    obtain ⟨r, hr, hmake, hvolume⟩ := hmade node hnode
    exact ⟨r, hr, hmake, hvolume ▸ (not_hidden_of_scoped hscoped).2⟩
  · -- the largest children
    intro volume_id path n basis kind items hitems item hitem
    obtain ⟨volume, hscoped, hmade⟩ := top_n_subtrees_scoped hitems
    obtain ⟨r, hr, hmake, hvolume⟩ := hmade item hitem
    exact ⟨r, hr, hmake, hvolume ▸ (not_hidden_of_scoped hscoped).2⟩
  · -- its growth
    intro volume_id path since until_ buckets series hseries point hpoint
    obtain ⟨volume, hscoped, hmade⟩ := growth_series_scoped hseries
    obtain ⟨r, hr, hmake, hvolume⟩ := hmade point hpoint
    obtain ⟨hid, hnot⟩ := not_hidden_of_scoped hscoped
    refine ⟨r, hr, hmake, ?_⟩
    rw [hvolume, ← hid]
    exact hnot
  · -- the list of groups
    intro volume_id cursor limit group hgroup
    obtain ⟨hmem, hglobal | ⟨m, hm, happly⟩⟩ := mem_list_duplicate_groups hgroup
    · exact Or.inl hglobal
    · exact Or.inr ⟨m, hm, happly, fun hhidden => h.members group hmem m hm hhidden (on_host_of_apply hhidden happly)⟩
  · -- one group
    intro group_id group members hfound m hm hhidden
    obtain ⟨hget, -, rfl⟩ := get_duplicate_group_iff.mp hfound
    obtain ⟨hmem, hin⟩ := List.mem_filter.mp hm
    have happly : (dedup_scope grants).apply member_columns m = true :=
      (Bool.or_eq_true _ _ ▸ hin).resolve_left hhidden.not_global
    exact h.members group (Catalogue.get_group_iff.mp hget).1 m hmem hhidden (on_host_of_apply hhidden happly)
  · exact provider_confined h
  · -- the members of a plan
    intro group_id rows group members hrows hload out hout hhidden
    obtain ⟨hget, hloaded⟩ := Api.load_group_members_spec hload
    obtain ⟨m, hm, hmember⟩ := (Api.forall₂_mem hloaded).2 out hout
    obtain ⟨hvolume, hhost⟩ := on_host_of_load hmember
    rw [hvolume] at hhidden
    exact h.members group (Catalogue.get_group_iff.mp hget).1 m ((hrows group hget).mem_iff.mp hm) hhidden
      (hhost hhidden)

theorem spared_of_confined {engine : Engine} (h : Confined engine e grants) : Spared e grants := by
  constructor
  · -- the detail of a group returns every member that is admitted
    intro group hgroup m hm hhidden hhost
    have happly : (dedup_scope grants).apply member_columns m = true :=
      (apply_iff_grant hhidden.no_global).mpr (Or.inl hhost)
    have hmem : m ∈ group.members.filter fun m => (dedup_scope grants).is_global || (dedup_scope grants).apply member_columns m :=
      List.mem_filter.mpr ⟨hm, by rw [happly, Bool.or_true]⟩
    have hget : e.tables.get_group group.id = some group := Catalogue.get_group_iff.mpr ⟨hgroup, rfl⟩
    have hfound := get_duplicate_group_iff.mpr ⟨hget, List.ne_nil_of_mem hmem, rfl⟩
    exact h.group group.id group _ hfound m hmem hhidden
  · -- two rows of one key that are both admitted are grouped
    intro row hmem hattested hhidden hhost row' hmem' hattested' hne hsame hgrant
    have happly := fun row => @apply_iff_grant grants Row (fun row => row.1.host_id) (fun row => row.1.volume_id) row hhidden.no_global
    have hrow : row ∈ provider_rows e.cat (some (dedup_scope grants)) none :=
      mem_provider_rows.mpr ⟨hmem, hattested, rfl, (happly row).mpr (Or.inl hhost)⟩
    have hrow' : row' ∈ provider_rows e.cat (some (dedup_scope grants)) none :=
      mem_provider_rows.mpr ⟨hmem', hattested', rfl, (happly row').mpr hgrant⟩
    obtain ⟨group, hgroup, hperm⟩ := (@iter_provider_hash_duplicates_groups engine.key_order 2 _ _ none (by simp)).2 row hrow
      ((grouped_iff hrow).mpr ⟨row', hrow', hne, hsame⟩)
    have hmember : provider_member row ∈ group.members :=
      hperm.mem_iff.mpr (List.mem_map.mpr ⟨row, List.mem_filter.mpr ⟨hrow, decide_eq_true rfl⟩, rfl⟩)
    exact h.provider none none group hgroup _ hmember hhidden

end

/-- **The reads keep to the rule exactly where the missing kind does not show.** -/
theorem confined_iff (engine : Engine) (e : Estate) (grants : List Grant) :
    Confined engine e grants ↔ Spared e grants :=
  ⟨spared_of_confined, confined_of_spared engine⟩

/-! ## A system volume in sight -/

/-- A system volume of the first host. -/
def system_volume : Volume where
  id := 1
  host_id := 1
  mountpoint := "/"
  display_name := none
  kind := SYSTEM_VOLUME_KIND
  fs_type := "ext4"
  device := "/dev/sda1"
  transport := "sata"
  raid_role := none
  pool := none
  dataset := none
  total := 100
  used := 20
  free := 80
  change_log_enabled := true
  updated_at := 0

/-- A hashed file on it. -/
def system_file (name : String) (inode : Int) : FsEntryRow where
  host_id := 1
  volume_id := 1
  parent_id := none
  name := name
  path := "/" ++ name
  depth := 1
  is_dir := false
  is_symlink := false
  size_logical := 10
  size_on_disk := 10
  mtime := 0
  ctime := 0
  uid := 0
  gid := 0
  inode := inode
  dev := 1
  flags := []
  last_seen_snapshot_id := none
  present := true
  removed_at := none
  partial_hash := none
  full_hash := some "h"
  hashed_at := none
  provider_hash := none
  provider_hash_algo := none

def system_catalogue : Catalogue where
  hosts := .single _ ⟨1, "h", none, none, "fp", none, none⟩
  volumes := .single _ system_volume
  snapshots := .empty _
  fs_entry := ⟨[system_file "shadow" 2, system_file "shadow-" 3], by decide⟩
  change_log := []
  entry_host := by decide
  entry_volume := by decide

/-- The estate with that volume, its groups rebuilt. -/
def system_estate : Estate where
  cat := system_catalogue
  subtree_rollup := .empty _
  size_history := []
  tables := Catalogue.rebuild (Ingest.tables_of system_catalogue.grouping_rows (by decide) (by decide)) {} fun _ _ => ⟨1, ""⟩
  volumes_key := by decide
  entries_eq := rfl

/-- A viewer of the host. -/
def host_viewer : List Grant := [{ role := .viewer, scope_kind := .host, host_id := some 1 }]

/-- The columns as PostgreSQL orders them under the collation `C`. -/
def lex_key (key : ProviderKey) : Lex (String × Lex (String × ℕ)) :=
  toLex (key.algo, toLex (key.provider_hash, key.size))

theorem lex_key_injective : Function.Injective lex_key := by
  intro a b h
  obtain ⟨halgo, hrest⟩ := Prod.mk.inj (toLex_inj.mp h)
  obtain ⟨hhash, hsize⟩ := Prod.mk.inj (toLex_inj.mp hrest)
  exact ProviderKey.ext halgo hhash hsize

def code_point_order : KeyOrder ProviderKey where
  le := fun a b => lex_key a ≤ lex_key b
  total := fun a b => by simpa using le_total (lex_key a) (lex_key b)
  trans := fun a b c hab hbc => decide_eq_true (le_trans (of_decide_eq_true hab) (of_decide_eq_true hbc))
  antisymm := fun a b hab hba => lex_key_injective (le_antisymm (of_decide_eq_true hab) (of_decide_eq_true hba))

theorem system_volume_hidden : Hidden system_estate host_viewer 1 where
  system := ⟨system_volume, List.mem_singleton.mpr rfl, rfl, rfl⟩
  no_global := by decide
  no_grant := by
    rintro ⟨g, hg, hkind, -⟩
    rw [List.mem_singleton.mp hg] at hkind
    exact absurd hkind (by decide)

/-- The viewer of the host reads the members of the group on its system volume. -/
theorem host_viewer_reads_system :
    ¬ ∀ (engine : Engine) (e : Estate) (grants : List Grant), Confined engine e grants := by
  intro hall
  have hgroup : ∃ group ∈ system_estate.tables.groups, ∃ m ∈ group.members, m.volume_id = 1 ∧ m.host_id = 1 := by
    decide
  obtain ⟨group, hgroup, m, hm, hvolume, hhost⟩ := hgroup
  have hspared := spared_of_confined (hall ⟨fun _ _ => true, fun _ _ => true, fun s => s, code_point_order, fun _ _ _ _ => 0⟩
    system_estate host_viewer)
  refine hspared.members group hgroup m hm ?_ ?_
  · rw [hvolume]
    exact system_volume_hidden
  · rw [hhost]
    exact ⟨_, List.mem_singleton.mpr rfl, rfl, rfl⟩

end Fathom.Read
