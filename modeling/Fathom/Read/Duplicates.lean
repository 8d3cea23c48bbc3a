/-
**The reads of duplicates** (`core/query.py`, `core/provider_dedup.py`): the groups that
are stored, and the groups made of the hashes providers attest.

A stored group is filtered by its members, whose table has a host and a volume and no kind.
The groups of provider hashes are read off one scan in the order of algorithm, hash and
size: a group is closed when the key changes. That a run is all the rows of its key is
`mem_run_groups`, and rests on the order telling different keys apart.
-/
import Fathom.Catalogue.Dedup
import Fathom.Lib.Runs
import Fathom.Read.Search

set_option autoImplicit false

namespace Fathom.Read

open Fathom.Ingest (FsEntryRow)
open Fathom.Auth (ScopeFilter)
open Fathom.Catalogue (DupGroup DupMember Tables)

/-! ## Stored groups -/

/-- The columns of a member a scope constrains. -/
def member_columns : ScopeFilter.Columns DupMember where
  host_col := some DupMember.host_id
  volume_col := some DupMember.volume_id

/-- `_member_scope_predicate`. -/
def member_scope_predicate (f : ScopeFilter) (group : DupGroup) : Bool :=
  group.members.any fun m => f.apply member_columns m

/-- The conditions of `list_duplicate_groups`. -/
def group_listed (scope : Option ScopeFilter) (volume_id cursor : Option ℕ) (group : DupGroup) : Bool :=
  cursor.all (fun c => c < group.id) &&
    volume_id.all (fun v => group.members.any fun m => m.volume_id = v) &&
    scope.all fun f => f.is_global || member_scope_predicate f group

/-- `list_duplicate_groups`: a page, and the cursor of the next one. The routes ask for at
least one group. -/
def list_duplicate_groups (db : Tables) (scope : Option ScopeFilter) (volume_id cursor : Option ℕ) (limit : ℕ) :
    List DupGroup × Option ℕ :=
  let rows := ((db.groups.filter (group_listed scope volume_id cursor)).mergeSort fun g g' => g.id ≤ g'.id).take (limit + 1)
  let groups := rows.take limit
  (groups, if limit < rows.length then groups.getLast?.map DupGroup.id else none)

/-- `get_duplicate_group`. -/
def get_duplicate_group (db : Tables) (group_id : ℕ) (scope : Option ScopeFilter) :
    Option (DupGroup × List DupMember) :=
  match db.get_group group_id with
  | none => none
  | some group =>
    let members := group.members.filter fun m => scope.all fun f => f.is_global || f.apply member_columns m
    if members = [] then none else some (group, members)

theorem mem_list_duplicate_groups {db : Tables} {f : ScopeFilter} {volume_id cursor : Option ℕ} {limit : ℕ}
    {group : DupGroup} (h : group ∈ (list_duplicate_groups db (some f) volume_id cursor limit).1) :
    group ∈ db.groups ∧ (f.is_global = true ∨ ∃ m ∈ group.members, f.apply member_columns m = true) := by
  unfold list_duplicate_groups at h
  have h := List.mem_of_mem_take (List.mem_of_mem_take h)
  rw [List.mem_mergeSort, List.mem_filter, group_listed, Bool.and_eq_true, Option.all_some, Bool.or_eq_true,
    member_scope_predicate, List.any_eq_true] at h
  exact ⟨h.1, h.2.2⟩

theorem get_duplicate_group_iff {db : Tables} {group_id : ℕ} {f : ScopeFilter} {group : DupGroup}
    {members : List DupMember} :
    get_duplicate_group db group_id (some f) = some (group, members) ↔
      db.get_group group_id = some group ∧ members ≠ [] ∧
        members = group.members.filter fun m => f.is_global || f.apply member_columns m := by
  unfold get_duplicate_group
  split
  · rename_i hnone
    rw [hnone]
    simp
  · rename_i found hfound
    rw [hfound, Option.some.injEq]
    dsimp only [Option.all_some]
    constructor
    · intro h
      split at h
      · exact absurd h (by simp)
      · rename_i hne
        obtain ⟨rfl, rfl⟩ := Prod.mk.inj (Option.some.inj h)
        exact ⟨rfl, hne, rfl⟩
    · rintro ⟨rfl, hne, rfl⟩
      rw [if_neg hne]

/-! ## Groups of provider hashes -/

/-- `(algo, hash, size)`. -/
@[ext]
structure ProviderKey where
  algo : String
  provider_hash : String
  size : ℕ
  deriving DecidableEq

/-- An `ORDER BY`: total, and telling different keys apart. -/
structure KeyOrder (κ : Type) where
  le : κ → κ → Bool
  total : ∀ a b, (le a b || le b a) = true
  trans : ∀ a b c, le a b = true → le b c = true → le a c = true
  antisymm : ∀ a b, le a b = true → le b a = true → a = b

/-- `ProviderDupMember`. -/
structure ProviderDupMember where
  entry_id : ℕ
  host_id : ℕ
  volume_id : ℕ
  path : String
  deriving DecidableEq

/-- `ProviderDupGroup`. -/
structure ProviderDupGroup where
  algo : String
  provider_hash : String
  size : ℕ
  members : List ProviderDupMember
  deriving DecidableEq

/-- A row with its id. -/
abbrev Row := FsEntryRow × ℕ

/-- The key of a row that has both the hash and its algorithm. -/
def provider_key (row : Row) : ProviderKey :=
  ⟨row.1.provider_hash_algo.getD "", row.1.provider_hash.getD "", row.1.size_logical⟩

def provider_member (row : Row) : ProviderDupMember := ⟨row.2, row.1.host_id, row.1.volume_id, row.1.path⟩

/-- The columns of an entry a scope constrains. -/
def entry_columns : ScopeFilter.Columns Row where
  host_col := some fun row => row.1.host_id
  volume_col := some fun row => row.1.volume_id

/-- A live file with a provider's hash. -/
def attested (row : Row) : Bool :=
  row.1.provider_hash.isSome && row.1.provider_hash_algo.isSome && row.1.present && !row.1.is_dir

/-- `_make_group`. -/
def make_group (key : Option ProviderKey) (members : List ProviderDupMember) (min_members : ℕ) :
    Option ProviderDupGroup :=
  match key with
  | none => none
  | some k => if members.length < min_members then none else some ⟨k.algo, k.provider_hash, k.size, members⟩

/-- The loop of `iter_provider_hash_duplicates`, from the run that is open. -/
def run_groups (min_members : ℕ) : Option ProviderKey → List ProviderDupMember → List Row → List ProviderDupGroup
  | cur_key, cur, [] => (make_group cur_key cur min_members).toList
  | cur_key, cur, row :: rows =>
    if some (provider_key row) ≠ cur_key then
      (make_group cur_key cur min_members).toList
        ++ run_groups min_members (some (provider_key row)) [provider_member row] rows
    else run_groups min_members cur_key (cur ++ [provider_member row]) rows

/-- The rows the statement of `iter_provider_hash_duplicates` selects. -/
def provider_rows (cat : Ingest.Catalogue) (scope : Option ScopeFilter) (volume_ids : Option (List ℕ)) : List Row :=
  (rows_with_ids cat).filter fun row =>
    attested row && volume_ids.all (fun ids => ids.contains row.1.volume_id) && in_scope scope entry_columns row

/-- `iter_provider_hash_duplicates`. -/
def iter_provider_hash_duplicates (order : KeyOrder ProviderKey) (cat : Ingest.Catalogue) (scope : Option ScopeFilter)
    (volume_ids : Option (List ℕ)) (min_members : ℕ) : List ProviderDupGroup :=
  if volume_ids = some [] then []
  else
    run_groups min_members none []
      ((provider_rows cat scope volume_ids).mergeSort fun row row' => order.le (provider_key row) (provider_key row'))

/-- `find_provider_hash_duplicates`: the limit is looked at after a group was taken. -/
def find_provider_hash_duplicates (order : KeyOrder ProviderKey) (cat : Ingest.Catalogue) (scope : Option ScopeFilter)
    (volume_ids : Option (List ℕ)) (min_members : ℕ) (limit : Option ℕ) : List ProviderDupGroup :=
  let groups := iter_provider_hash_duplicates order cat scope volume_ids min_members
  match limit with
  | none => groups
  | some l => groups.take (max l 1)

/-! ## What a run is -/

/-- The members under one key. -/
def members_of (rows : List Row) (key : ProviderKey) : List ProviderDupMember :=
  (rows.filter fun row => provider_key row = key).map provider_member

/-- The key of a group. -/
def ProviderDupGroup.key (group : ProviderDupGroup) : ProviderKey := ⟨group.algo, group.provider_hash, group.size⟩

/-- The group of a key and its rows. -/
def provider_group (bucket : ProviderKey × List Row) : ProviderDupGroup :=
  ⟨bucket.1.algo, bucket.1.provider_hash, bucket.1.size, bucket.2.map provider_member⟩

/-- `GROUP BY algo, hash, size HAVING count(*) >= min_members`: every key has its list from the
first row on. -/
def group_by (min_members : ℕ) (rows : List Row) : List ProviderDupGroup :=
  ((buckets provider_key rows).filter fun bucket => min_members ≤ bucket.2.length).map provider_group

section

variable {order : KeyOrder ProviderKey} {rows : List Row} {min_members : ℕ} {group : ProviderDupGroup}

theorem make_group_toList (key : ProviderKey) (run : List Row) :
    (make_group (some key) (run.map provider_member) min_members).toList =
      ([(key, run)].filter fun bucket => min_members ≤ bucket.2.length).map provider_group := by
  rw [make_group, List.length_map]
  by_cases hfew : run.length < min_members
  · rw [if_pos hfew, List.filter_cons_of_neg (by simpa using hfew)]
    rfl
  · rw [if_neg hfew, List.filter_cons_of_pos (by simpa using hfew)]
    rfl

/-- The loop makes groups of the runs. -/
theorem run_groups_eq_runs_from (key : ProviderKey) (run : List Row) (rows : List Row) :
    run_groups min_members (some key) (run.map provider_member) rows =
      ((runs_from provider_key key run rows).filter fun bucket => min_members ≤ bucket.2.length).map provider_group := by
  induction rows generalizing key run with
  | nil => exact make_group_toList key run
  | cons row rows ih =>
      rw [run_groups, runs_from]
      by_cases hkey : provider_key row = key
      · have hrun : run.map provider_member ++ [provider_member row] = (run ++ [row]).map provider_member := by
          rw [List.map_append, List.map_singleton]
        rw [if_neg (not_not.mpr (congrArg some hkey)), if_pos hkey, hrun, ih]
      · have hopen := ih (provider_key row) [row]
        rw [List.map_singleton] at hopen
        rw [if_pos fun heq => hkey (Option.some.inj heq), if_neg hkey, make_group_toList, hopen, ← List.map_append,
          ← List.filter_append]
        rfl

theorem run_groups_eq_runs (rows : List Row) :
    run_groups min_members none [] rows =
      ((runs provider_key rows).filter fun bucket => min_members ≤ bucket.2.length).map provider_group := by
  cases rows with
  | nil => rfl
  | cons row rows =>
      have hopen := @run_groups_eq_runs_from min_members (provider_key row) [row] rows
      rw [List.map_singleton] at hopen
      rw [run_groups, if_pos (Option.some_ne_none _), hopen]
      rfl

/-- **The runs of rows in order are the lists of their keys.** -/
theorem run_groups_eq_group_by
    (hsorted : rows.Pairwise fun row row' => order.le (provider_key row) (provider_key row') = true) :
    run_groups min_members none [] rows = group_by min_members rows := by
  have hcontiguous : Contiguous (rows.map provider_key) :=
    contiguous_of_pairwise order.antisymm (List.pairwise_map.mpr hsorted)
  rw [run_groups_eq_runs, runs_eq_buckets hcontiguous]
  rfl

/-- What a `GROUP BY` gives, of rows in any order. -/
theorem mem_group_by : group ∈ group_by min_members rows ↔
    (∃ row ∈ rows, provider_key row = group.key) ∧ min_members ≤ (members_of rows group.key).length ∧
      group.members = members_of rows group.key := by
  have hfilled := buckets_filled provider_key rows
  rw [group_by, List.mem_map, members_of, List.length_map]
  constructor
  · rintro ⟨bucket, hkept, rfl⟩
    obtain ⟨hbucket, hlen⟩ := List.mem_filter.mp hkept
    have hlist := hfilled.list bucket hbucket
    rw [hlist] at hlen
    exact ⟨exists_of_mem_keys (List.mem_map_of_mem hbucket), of_decide_eq_true hlen, congrArg (List.map provider_member) hlist⟩
  · rintro ⟨⟨row, hrow, hkey⟩, hlen, hmembers⟩
    obtain ⟨bucket, hbucket, hsame⟩ := List.mem_map.mp (hfilled.all row hrow)
    have hlist : bucket.2 = under provider_key rows group.key := by rw [hfilled.list bucket hbucket, hsame, hkey]
    refine ⟨bucket, List.mem_filter.mpr ⟨hbucket, ?_⟩, ?_⟩
    · rw [hlist]
      exact decide_eq_true hlen
    · rw [provider_group, hlist, under, ← hmembers, hsame, hkey]
      rfl

theorem make_group_eq_some {key : ProviderKey} {members : List ProviderDupMember} :
    make_group (some key) members min_members = some group ↔
      min_members ≤ members.length ∧ group = ⟨key.algo, key.provider_hash, key.size, members⟩ := by
  rw [make_group]
  split
  · rename_i hfew
    refine iff_of_false (by simp) fun h => ?_
    omega
  · rename_i hmany
    rw [Option.some.injEq]
    exact ⟨fun h => ⟨not_lt.mp hmany, h.symm⟩, fun h => h.2.symm⟩

/-- **A run is all the rows of its key.** -/
theorem mem_run_groups
    (hsorted : rows.Pairwise fun row row' => order.le (provider_key row) (provider_key row') = true) :
    group ∈ run_groups min_members none [] rows ↔
      ∃ row ∈ rows, make_group (some (provider_key row)) (members_of rows (provider_key row)) min_members = some group := by
  rw [run_groups_eq_group_by hsorted, mem_group_by]
  constructor
  · rintro ⟨⟨row, hrow, hkey⟩, hlen, hmembers⟩
    refine ⟨row, hrow, make_group_eq_some.mpr ?_⟩
    rw [hkey, ← hmembers]
    exact ⟨hmembers ▸ hlen, rfl⟩
  · rintro ⟨row, hrow, hmake⟩
    obtain ⟨hlen, rfl⟩ := make_group_eq_some.mp hmake
    exact ⟨⟨row, hrow, rfl⟩, hlen, rfl⟩

theorem members_of_perm {rows rows' : List Row} (h : rows.Perm rows') (key : ProviderKey) :
    (members_of rows key).Perm (members_of rows' key) :=
  (h.filter _).map _

variable {cat : Ingest.Catalogue} {scope : Option ScopeFilter} {volume_ids : Option (List ℕ)}

/-- **The groups of provider hashes**: for each key with enough rows, its rows. -/
theorem iter_provider_hash_duplicates_groups (hids : volume_ids ≠ some []) :
    (∀ group ∈ iter_provider_hash_duplicates order cat scope volume_ids min_members,
      ∃ key, min_members ≤ group.members.length ∧
        group.members.Perm (members_of (provider_rows cat scope volume_ids) key)) ∧
    ∀ row ∈ provider_rows cat scope volume_ids,
      min_members ≤ (members_of (provider_rows cat scope volume_ids) (provider_key row)).length →
      ∃ group ∈ iter_provider_hash_duplicates order cat scope volume_ids min_members,
        group.members.Perm (members_of (provider_rows cat scope volume_ids) (provider_key row)) := by
  have hperm := List.mergeSort_perm (provider_rows cat scope volume_ids)
    fun row row' => order.le (provider_key row) (provider_key row')
  have hsorted := @List.pairwise_mergeSort _ (fun row row' => order.le (provider_key row) (provider_key row'))
    (fun _ _ _ => order.trans _ _ _) (fun _ _ => order.total _ _) (provider_rows cat scope volume_ids)
  rw [iter_provider_hash_duplicates, if_neg hids]
  constructor
  · intro group hgroup
    obtain ⟨row, -, hmake⟩ := (mem_run_groups hsorted).mp hgroup
    obtain ⟨hlen, rfl⟩ := make_group_eq_some.mp hmake
    exact ⟨provider_key row, hlen, members_of_perm hperm _⟩
  · intro row hrow hlen
    refine ⟨_, (mem_run_groups hsorted).mpr ⟨row, hperm.mem_iff.mpr hrow, make_group_eq_some.mpr ⟨?_, rfl⟩⟩, ?_⟩
    · rw [(members_of_perm hperm _).length_eq]
      exact hlen
    · exact members_of_perm hperm _

theorem mem_find_provider_hash_duplicates {limit : Option ℕ}
    (h : group ∈ find_provider_hash_duplicates order cat scope volume_ids min_members limit) :
    group ∈ iter_provider_hash_duplicates order cat scope volume_ids min_members := by
  unfold find_provider_hash_duplicates at h
  dsimp only at h
  split at h
  · exact h
  · exact List.mem_of_mem_take h

theorem nodup_rows_with_ids (cat : Ingest.Catalogue) : (rows_with_ids cat).Nodup := by
  refine List.Nodup.of_map Prod.snd ?_
  rw [rows_with_ids, List.zipIdx_map_snd]
  exact List.nodup_range'

theorem mem_provider_rows {row : Row} :
    row ∈ provider_rows cat scope volume_ids ↔
      row ∈ rows_with_ids cat ∧ attested row = true ∧ volume_ids.all (fun ids => ids.contains row.1.volume_id) = true ∧
        in_scope scope entry_columns row = true := by
  rw [provider_rows, List.mem_filter, Bool.and_eq_true, Bool.and_eq_true, and_assoc]

/-- **A row is in a group exactly beside another one of its key.** -/
theorem grouped_iff {row : Row} (hrow : row ∈ provider_rows cat scope volume_ids) :
    2 ≤ (members_of (provider_rows cat scope volume_ids) (provider_key row)).length ↔
      ∃ row' ∈ provider_rows cat scope volume_ids, row' ≠ row ∧ provider_key row' = provider_key row := by
  have hnodup : ((provider_rows cat scope volume_ids).filter fun r => provider_key r = provider_key row).Nodup :=
    ((nodup_rows_with_ids cat).filter _).filter _
  have hmem : ∀ r, r ∈ (provider_rows cat scope volume_ids).filter (fun r => provider_key r = provider_key row) ↔
      r ∈ provider_rows cat scope volume_ids ∧ provider_key r = provider_key row := fun r => by
    rw [List.mem_filter, decide_eq_true_eq]
  rw [members_of, List.length_map]
  constructor
  · intro hlen
    by_contra hnone
    have hsub : (provider_rows cat scope volume_ids).filter (fun r => provider_key r = provider_key row) ⊆ [row] := by
      intro r hr
      obtain ⟨hr, hkey⟩ := (hmem r).mp hr
      by_contra hne
      exact hnone ⟨r, hr, fun heq => hne (List.mem_singleton.mpr heq), hkey⟩
    have hle := (List.subperm_of_subset hnodup hsub).length_le
    rw [List.length_singleton] at hle
    omega
  · rintro ⟨row', hrow', hne, hkey⟩
    have hpair : [row', row].Nodup := by simpa using hne
    have hsub : [row', row] ⊆ (provider_rows cat scope volume_ids).filter fun r => provider_key r = provider_key row := by
      intro r hr
      rcases List.mem_pair.mp hr with rfl | rfl
      · exact (hmem _).mpr ⟨hrow', hkey⟩
      · exact (hmem _).mpr ⟨hrow, rfl⟩
    exact (List.subperm_of_subset hpair hsub).length_le

end

end Fathom.Read
