/-
**Rebuilding the duplicate report** (`DedupService.rebuild`, of `core/dedup_service.py`),
on the two tables it is stored in.

The groups of the scope are deleted, their members first; the hashed rows in scope are
read in the order the database returns them, put into a dict under their size and hash,
and each list of two or more becomes a group. Groups are added to a batch and the batch is
flushed when it is full; a flush numbers the rows. A keeper rule that raises ends the run,
and the transaction takes everything back.

What the report says is its contents: each group with its members, whatever their ids and
their order. `computed_at`, a default of the database as the ids are, is left out.
-/
import Fathom.Catalogue.Keeper
import Fathom.Lib.Classes
import Fathom.Lib.Like
import Mathlib.Data.List.DropRight
import Mathlib.Data.Multiset.MapFold

set_option autoImplicit false

namespace Fathom.Catalogue

open Fathom.Json (Value)
open Fathom.Like (like escape)

/-! ## The report's tables -/

/-- The columns of `DupGroup`, but for its id. -/
structure GroupData where
  full_hash : String
  size : ℕ
  member_count : ℕ
  reclaimable_bytes : ℕ
  scope : Option Value
  job_id : Option String
  suggested_keeper_entry_id : Option ℕ
  suggested_keeper_reason : Option String

/-- A row of `dup_group`. -/
structure GroupRow extends GroupData where
  id : ℕ

/-- A row of `dup_member`. -/
structure MemberRow extends DupMember where
  id : ℕ
  group_id : ℕ

/-- The two tables: their keys are unique, a sequence is ahead of each, and a member's
group is there. -/
structure Report where
  groups : List GroupRow
  members : List MemberRow
  next_group_id : ℕ
  next_member_id : ℕ
  groups_key : (groups.map GroupRow.id).Nodup
  members_key : (members.map MemberRow.id).Nodup
  groups_below : ∀ g ∈ groups, g.id < next_group_id
  members_below : ∀ m ∈ members, m.id < next_member_id
  member_group : ∀ m ∈ members, ∃ g ∈ groups, g.id = m.group_id

/-- The rows of a group's members. -/
def Report.member_rows (r : Report) (group_id : ℕ) : List MemberRow := r.members.filter fun m => m.group_id = group_id

/-- **What the report says**: each group, and its members. -/
def Report.contents (r : Report) : List (GroupData × List DupMember) :=
  r.groups.map fun g => (g.toGroupData, (r.member_rows g.id).map MemberRow.toDupMember)

/-- The contents without an order, of groups or of members. -/
def Report.tells (r : Report) : Multiset (GroupData × Multiset DupMember) :=
  (r.contents.map fun c => (c.1, (c.2 : Multiset DupMember)) : List (GroupData × Multiset DupMember))

/-- `DupGroup.scope == scope_json`. -/
def of_scope (scope : DedupScope) (g : GroupData) : Bool := g.scope = some scope.as_json

/-- `_clear_scope`: the members of the scope's groups, then the groups. -/
def Report.clear_scope (r : Report) (scope : DedupScope) : Report :=
  let prior_ids := (r.groups.filter fun g => of_scope scope g.toGroupData).map GroupRow.id
  { groups := r.groups.filter fun g => !of_scope scope g.toGroupData
    members := r.members.filter fun m => m.group_id ∉ prior_ids
    next_group_id := r.next_group_id
    next_member_id := r.next_member_id
    groups_key := r.groups_key.sublist (List.filter_sublist.map _)
    members_key := r.members_key.sublist (List.filter_sublist.map _)
    groups_below := fun g hg => r.groups_below g (List.mem_filter.mp hg).1
    members_below := fun m hm => r.members_below m (List.mem_filter.mp hm).1
    member_group := by
      intro m hm
      obtain ⟨hm, hnot⟩ := List.mem_filter.mp hm
      obtain ⟨g, hg, hid⟩ := r.member_group m hm
      refine ⟨g, List.mem_filter.mpr ⟨hg, ?_⟩, hid⟩
      rw [Bool.not_eq_true']
      by_contra hscope
      have hprior : g ∈ r.groups.filter fun g => of_scope scope g.toGroupData :=
        List.mem_filter.mpr ⟨hg, eq_true_of_ne_false hscope⟩
      exact of_decide_eq_true hnot (hid ▸ List.mem_map_of_mem hprior) }

/-- A `DupGroup` that is not stored yet. -/
structure NewGroup where
  row : GroupData
  members : List DupMember

/-- A member's row, at a place of its group's list. -/
def member_row (r : Report) (i : ℕ) (m : DupMember) : MemberRow :=
  { m with id := r.next_member_id + i, group_id := r.next_group_id }

/-- The insertion of one group and its members. -/
def Report.insert (r : Report) (g : NewGroup) : Report where
  groups := r.groups ++ [{ g.row with id := r.next_group_id }]
  members := r.members ++ g.members.mapIdx (member_row r)
  next_group_id := r.next_group_id + 1
  next_member_id := r.next_member_id + g.members.length
  groups_key := by
    rw [List.map_append, List.map_singleton, ← List.concat_eq_append]
    refine r.groups_key.concat fun h => ?_
    obtain ⟨old, hold, hid⟩ := List.mem_map.mp h
    exact absurd (r.groups_below old hold) (by rw [hid]; exact Nat.lt_irrefl _)
  members_key := by
    rw [List.map_append]
    refine List.nodup_append.mpr ⟨r.members_key, ?_, ?_⟩
    · rw [List.nodup_iff_getElem?_ne_getElem?]
      intro i j hij hj
      rw [List.length_map] at hj
      rw [List.getElem?_eq_getElem (by rw [List.length_map]; omega),
        List.getElem?_eq_getElem (by rw [List.length_map]; exact hj)]
      simp only [List.getElem_map, List.getElem_mapIdx, member_row, ne_eq, Option.some.injEq]
      omega
    · intro a ha b hb hab
      obtain ⟨old, hold, rfl⟩ := List.mem_map.mp ha
      obtain ⟨new, hnew, rfl⟩ := List.mem_map.mp hb
      obtain ⟨i, hi, rfl⟩ := List.mem_mapIdx.mp hnew
      have hlt := r.members_below old hold
      dsimp only [member_row] at hab
      omega
  groups_below := by
    intro g' hg'
    rcases List.mem_append.mp hg' with hold | hnew
    · have hlt := r.groups_below g' hold
      omega
    · rw [List.mem_singleton.mp hnew]
      exact Nat.lt_succ_self _
  members_below := by
    intro m hm
    rcases List.mem_append.mp hm with hold | hnew
    · have hlt := r.members_below m hold
      omega
    · obtain ⟨i, hi, rfl⟩ := List.mem_mapIdx.mp hnew
      dsimp only [member_row]
      omega
  member_group := by
    intro m hm
    rcases List.mem_append.mp hm with hold | hnew
    · obtain ⟨g', hg', hid⟩ := r.member_group m hold
      exact ⟨g', List.mem_append_left _ hg', hid⟩
    · obtain ⟨i, hi, rfl⟩ := List.mem_mapIdx.mp hnew
      exact ⟨_, List.mem_append_right _ (List.mem_singleton.mpr rfl), rfl⟩

/-- `session.flush`, of the groups that are pending. -/
def Report.flush (r : Report) (pending : List NewGroup) : Report := pending.foldl Report.insert r

/-! ## The rows that are read -/

/-- A row of `fs_entry`, with its times. -/
structure TimedRow extends FsEntryRow where
  mtime : Timestamp
  ctime : Timestamp

/-- The catalogue the report is made from. -/
structure Estate where
  volumes : List Volume
  entries : List TimedRow
  entries_key : (entries.map fun e => e.id).Nodup

/-- `path = prefix OR path LIKE escape_like(prefix.rstrip("/")) || "/%" ESCAPE '\\'`. -/
def path_in (root path : String) : Bool :=
  path = root || like '\\' (escape '\\' (root.toList.rdropWhile (· = '/')) ++ ['/', '%']) path.toList

/-- The `WHERE` of `_load_hashed_entries`. -/
def selected (scope : DedupScope) (e : TimedRow) : Bool :=
  e.full_hash.isSome && e.present && !e.is_dir &&
    (scope.volume_ids.isEmpty || scope.volume_ids.contains e.volume_id) &&
    match scope.path_prefix, scope.path_prefix_volume_id with
    | some root, some volume_id => e.volume_id = volume_id && path_in root e.path
    | _, _ => true

/-- An `EntryRef`, made of a row that its volume is joined to. -/
def timed_ref (volumes : List Volume) (e : TimedRow) : TimedRef where
  entry_id := e.id
  host_id := e.host_id
  volume_id := e.volume_id
  path := e.path
  size := e.size_logical
  full_hash := e.full_hash.getD ""
  fs_type := ((volumes.find? fun v => v.id = e.volume_id).map Volume.fs_type).getD ""
  mtime := e.mtime
  ctime := e.ctime

/-- `_load_hashed_entries`, of the rows in the order the database returns them. -/
def load_timed_entries (volumes : List Volume) (rows : List TimedRow) (scope : DedupScope) : List TimedRef :=
  (rows.filter (selected scope)).map (timed_ref volumes)

/-- The key of `by_hash`. -/
def TimedRef.by (ref : TimedRef) : ℕ × String := (ref.size, ref.full_hash)

/-! ## The build -/

/-- `_DEDUP_FLUSH_BATCH`. -/
def DEDUP_FLUSH_BATCH : ℕ := 1000

/-- The group made of one list of `by_hash`, unless the keeper rule raises. -/
def new_group (scope : DedupScope) (job_id : Option String) (item : (ℕ × String) × List TimedRef) : Option NewGroup :=
  match rank_oldest_then_preferred_then_shortest item.2 scope with
  | none => none
  | some choice =>
    let native := item.2.filter fun m => !is_network_fs m.fs_type
    some
      { row :=
          { full_hash := item.1.2
            size := item.1.1
            member_count := item.2.length
            reclaimable_bytes := item.1.1 * (native.length - 1)
            scope := some scope.as_json
            job_id := job_id
            suggested_keeper_entry_id := some choice.entry_id
            suggested_keeper_reason := some choice.reason }
        members := item.2.map fun m => dup_member m.toEntryRef }

/-- Where the loop of `_build_iter` stands. -/
structure Build where
  report : Report
  yielded : ℕ
  pending : List NewGroup

/-- `pending.append(group)`, and a flush when the batch is full. -/
def Build.add (b : Build) (g : NewGroup) : Build :=
  let pending := b.pending ++ [g]
  if DEDUP_FLUSH_BATCH ≤ pending.length then
    { report := b.report.flush pending, yielded := b.yielded + pending.length, pending := [] }
  else { b with pending := pending }

/-- The loop over `by_hash.items()`. -/
def build_items (scope : DedupScope) (job_id : Option String) :
    List ((ℕ × String) × List TimedRef) → Build → Option Build
  | [], b => some b
  | item :: rest, b =>
    if item.2.length < 2 then build_items scope job_id rest b
    else
      match new_group scope job_id item with
      | none => none
      | some g => build_items scope job_id rest (b.add g)

/-- What is left of the batch after the loop. -/
def Build.finish (b : Build) : Report × ℕ :=
  if b.pending.isEmpty then (b.report, b.yielded)
  else (b.report.flush b.pending, b.yielded + b.pending.length)

/-- `DedupService.rebuild`, of rows the database returns in some order: the tables and the
number of groups, unless it raises. -/
def rebuild_report (volumes : List Volume) (rows : List TimedRow) (scope : DedupScope) (job_id : Option String)
    (r : Report) : Option (Report × ℕ) :=
  let by_hash := buckets TimedRef.by (load_timed_entries volumes rows scope)
  (build_items scope job_id by_hash { report := r.clear_scope scope, yielded := 0, pending := [] }).map Build.finish

/-! ## What a rebuild is to leave behind -/

/-- **An eligible entry**: present, no directory, hashed, and in scope. -/
structure Eligible (scope : DedupScope) (e : TimedRow) : Prop where
  hashed : e.full_hash.isSome = true
  present : e.present = true
  file : e.is_dir = false
  volume : scope.volume_ids = [] ∨ e.volume_id ∈ scope.volume_ids
  below : ∀ root volume_id, scope.path_prefix = some root → scope.path_prefix_volume_id = some volume_id →
    e.volume_id = volume_id ∧
      (e.path = root ∨ root.toList.rdropWhile (· = '/') ++ ['/'] <+: e.path.toList)

/-- The prefix's pattern selects the prefix and what lies below it. -/
theorem path_in_iff {root path : String} :
    path_in root path = true ↔ path = root ∨ root.toList.rdropWhile (· = '/') ++ ['/'] <+: path.toList := by
  have hesc : '\\' ≠ '%' ∧ '\\' ≠ '_' := by decide
  have hslash : escape '\\' (root.toList.rdropWhile (· = '/')) ++ ['/', '%']
      = escape '\\' (root.toList.rdropWhile (· = '/') ++ ['/']) ++ ['%'] := by
    rw [Like.escape_plain hesc (by decide), List.append_assoc]
    rfl
  rw [path_in, Bool.or_eq_true, decide_eq_true_eq, hslash, Like.like_escape_prefix hesc]

theorem selected_iff {scope : DedupScope} {e : TimedRow} : selected scope e = true ↔ Eligible scope e := by
  unfold selected
  simp only [Bool.and_eq_true, Bool.not_eq_true', Bool.or_eq_true, List.isEmpty_iff, List.contains_iff_mem]
  constructor
  · rintro ⟨⟨⟨⟨hhash, hpresent⟩, hfile⟩, hvolume⟩, hbelow⟩
    refine ⟨hhash, hpresent, hfile, hvolume, fun root volume_id hroot hid => ?_⟩
    rw [hroot, hid] at hbelow
    simpa [path_in_iff] using hbelow
  · intro h
    refine ⟨⟨⟨⟨h.hashed, h.present⟩, h.file⟩, h.volume⟩, ?_⟩
    cases hroot : scope.path_prefix with
    | none => rfl
    | some root =>
        cases hid : scope.path_prefix_volume_id with
        | none => rfl
        | some volume_id => simpa [path_in_iff] using h.below root volume_id hroot hid

instance (scope : DedupScope) : DecidablePred (Eligible scope) := fun _ => decidable_of_iff _ selected_iff

/-- **A class**: the eligible entries of one size and hash. -/
def class_of (rows : List TimedRow) (scope : DedupScope) (key : ℕ × String) : List TimedRow :=
  rows.filter fun e => Eligible scope e ∧ e.size_logical = key.1 ∧ e.full_hash = some key.2

/-- The member an entry is. -/
def member_of (volumes : List Volume) (e : TimedRow) : DupMember := dup_member (timed_ref volumes e).toEntryRef

/-- A copy whose volume is no network mount. -/
def native_row (volumes : List Volume) (e : TimedRow) : Bool := is_native (timed_ref volumes e)

/-- The contents of a scope's groups. -/
def Report.of (r : Report) (scope : DedupScope) : List (GroupData × List DupMember) :=
  r.contents.filter fun c => of_scope scope c.1

/-- What a group is under. -/
def class_key (c : GroupData × List DupMember) : ℕ × String := (c.1.size, c.1.full_hash)

/-- **The report is exact**: the scope has one group for each class of two entries or
more, with each entry of the class as a member once; what can be reclaimed is all native
copies but one; and the rows of other scopes are those that were there. -/
structure Exact (estate : Estate) (scope : DedupScope) (before after : Report) : Prop where
  once : ((after.of scope).map class_key).Nodup
  classes : ∀ key, key ∈ (after.of scope).map class_key ↔ 2 ≤ (class_of estate.entries scope key).length
  members : ∀ c ∈ after.of scope,
    c.2.Perm ((class_of estate.entries scope (class_key c)).map (member_of estate.volumes))
  reclaimable : ∀ c ∈ after.of scope, c.1.reclaimable_bytes
    = c.1.size * (((class_of estate.entries scope (class_key c)).filter (native_row estate.volumes)).length - 1)
  others : (after.groups.filter fun g => !of_scope scope g.toGroupData)
    = before.groups.filter fun g => !of_scope scope g.toGroupData
  other_members : ∀ g ∈ before.groups, of_scope scope g.toGroupData = false →
    after.member_rows g.id = before.member_rows g.id

/-! ## The tables -/

section

variable {r : Report} {scope : DedupScope} {g : NewGroup}

theorem member_rows_none {id : ℕ} (h : r.next_group_id ≤ id) : r.member_rows id = [] := by
  refine List.filter_eq_nil_iff.mpr fun m hm heq => ?_
  obtain ⟨g, hg, hid⟩ := r.member_group m hm
  have hlt := r.groups_below g hg
  have heq' := of_decide_eq_true heq
  omega

/-- An insertion leaves the members of other groups alone. -/
theorem member_rows_insert {id : ℕ} (h : id ≠ r.next_group_id) : (r.insert g).member_rows id = r.member_rows id := by
  have hnone : (g.members.mapIdx (member_row r)).filter (fun m => m.group_id = id) = [] := by
    refine List.filter_eq_nil_iff.mpr fun m hm heq => ?_
    obtain ⟨i, hi, rfl⟩ := List.mem_mapIdx.mp hm
    exact h (of_decide_eq_true heq).symm
  rw [Report.member_rows, Report.insert, List.filter_append, hnone, List.append_nil]
  rfl

theorem member_rows_new : ((r.insert g).member_rows r.next_group_id).map MemberRow.toDupMember = g.members := by
  have hall : (g.members.mapIdx (member_row r)).filter (fun m => m.group_id = r.next_group_id)
      = g.members.mapIdx (member_row r) := by
    refine List.filter_eq_self.mpr fun m hm => ?_
    obtain ⟨i, hi, rfl⟩ := List.mem_mapIdx.mp hm
    exact decide_eq_true rfl
  have hold : r.members.filter (fun m => m.group_id = r.next_group_id) = [] := member_rows_none le_rfl
  rw [Report.member_rows, Report.insert, List.filter_append, hold, hall, List.nil_append]
  refine List.ext_getElem? fun i => ?_
  rw [List.getElem?_map, List.getElem?_mapIdx, Option.map_map]
  exact congrFun Option.map_id _

/-- **An insertion adds one group to what the report says.** -/
theorem contents_insert : (r.insert g).contents = r.contents ++ [(g.row, g.members)] := by
  have hold : ∀ g' ∈ r.groups, (g'.toGroupData, ((r.insert g).member_rows g'.id).map MemberRow.toDupMember)
      = (g'.toGroupData, (r.member_rows g'.id).map MemberRow.toDupMember) := by
    intro g' hg'
    rw [member_rows_insert (r.groups_below g' hg').ne]
  rw [Report.contents]
  show (r.groups ++ [_]).map _ = _
  rw [List.map_append, List.map_congr_left hold, List.map_singleton, member_rows_new]
  rfl

theorem contents_flush (pending : List NewGroup) :
    (r.flush pending).contents = r.contents ++ pending.map fun g => (g.row, g.members) := by
  induction pending generalizing r with
  | nil => exact (List.append_nil _).symm
  | cons g pending ih =>
      have hstep : r.flush (g :: pending) = (r.insert g).flush pending := rfl
      rw [hstep, ih, contents_insert, List.append_assoc]
      rfl

/-- A flush of the scope's groups touches no other row. -/
theorem flush_others {pending : List NewGroup} (h : ∀ g ∈ pending, of_scope scope g.row = true) :
    ((r.flush pending).groups.filter fun g => !of_scope scope g.toGroupData)
        = (r.groups.filter fun g => !of_scope scope g.toGroupData) ∧
      ∀ g ∈ r.groups, (r.flush pending).member_rows g.id = r.member_rows g.id := by
  induction pending generalizing r with
  | nil => exact ⟨rfl, fun _ _ => rfl⟩
  | cons g pending ih =>
      obtain ⟨hgroups, hmembers⟩ := @ih (r.insert g) fun g' hg' => h g' (List.mem_cons_of_mem _ hg')
      have hstep : r.flush (g :: pending) = (r.insert g).flush pending := rfl
      rw [hstep, hgroups]
      constructor
      · show (r.groups ++ [_]).filter _ = _
        have hg := h g List.mem_cons_self
        rw [List.filter_append, List.filter_cons_of_neg (by simpa using hg), List.filter_nil, List.append_nil]
      · intro g' hg'
        rw [hmembers g' (List.mem_append_left _ hg')]
        exact member_rows_insert (r.groups_below g' hg').ne

/-- The members of a group of another scope stay. -/
theorem member_rows_clear {g : GroupRow} (hg : g ∈ r.groups) (h : of_scope scope g.toGroupData = false) :
    (r.clear_scope scope).member_rows g.id = r.member_rows g.id := by
  rw [Report.member_rows, Report.clear_scope, List.filter_filter]
  refine List.filter_congr fun m _ => ?_
  by_cases hm : m.group_id = g.id
  · -- the ids are unique, so no group of the scope has this one
    have hkept : m.group_id ∉ (r.groups.filter fun g => of_scope scope g.toGroupData).map GroupRow.id := by
      intro hin
      obtain ⟨g', hg', hid⟩ := List.mem_map.mp hin
      obtain ⟨hin', hscope⟩ := List.mem_filter.mp hg'
      rw [List.inj_on_of_nodup_map r.groups_key hin' hg (hid.trans hm), h] at hscope
      exact absurd hscope Bool.false_ne_true
    rw [decide_eq_true hm, decide_eq_true hkept]
    rfl
  · rw [decide_eq_false hm]
    rfl

/-- **Clearing a scope** takes its groups out of what the report says. -/
theorem contents_clear : (r.clear_scope scope).contents = r.contents.filter fun c => !of_scope scope c.1 := by
  rw [Report.contents, Report.contents, List.filter_map]
  show (r.groups.filter _).map _ = _
  refine List.map_congr_left fun g hg => ?_
  obtain ⟨hg, hscope⟩ := List.mem_filter.mp hg
  rw [member_rows_clear hg (by simpa using hscope)]

end

/-! ## The build -/

section

variable {scope : DedupScope} {job_id : Option String}

/-- What is flushed, whether the batch was full or not. -/
theorem finish_adds (groups : List NewGroup) (b : Build) : (groups.foldl Build.add b).finish
      = (b.report.flush (b.pending ++ groups), b.yielded + (b.pending ++ groups).length) := by
  induction groups generalizing b with
  | nil =>
      rw [List.append_nil, List.foldl_nil, Build.finish]
      split
      · rename_i hempty
        rw [List.isEmpty_iff.mp hempty]
        rfl
      · rfl
  | cons g groups ih =>
      rw [List.foldl_cons, ih, Build.add]
      split
      · have hflush : b.report.flush (b.pending ++ g :: groups) = (b.report.flush (b.pending ++ [g])).flush groups := by
          rw [Report.flush, Report.flush, Report.flush, ← List.foldl_append, List.append_assoc]
          rfl
        simp only [List.nil_append, hflush, List.length_append, List.length_cons, List.length_nil]
        congr 1
        omega
      · simp only [List.append_assoc, List.singleton_append]

/-- The loop adds the groups of the lists of two or more, unless one raises. -/
theorem build_items_eq (items : List ((ℕ × String) × List TimedRef)) (b : Build) :
    build_items scope job_id items b
      = ((crowded items).mapM (new_group scope job_id)).map fun groups => groups.foldl Build.add b := by
  induction items generalizing b with
  | nil => rfl
  | cons item rest ih =>
      rw [build_items, crowded, List.filter_cons]
      split
      · rename_i hshort
        rw [if_neg (by rw [decide_eq_true_eq]; omega)]
        exact ih b
      · rename_i hlong
        rw [if_pos (by rw [decide_eq_true_eq]; omega), List.mapM_cons, ← crowded]
        cases hgroup : new_group scope job_id item with
        | none => rfl
        | some g =>
            dsimp only
            rw [ih]
            cases hrest : (crowded rest).mapM (new_group scope job_id) <;> rfl

/-- The groups a rebuild adds, unless it raises. -/
def built (volumes : List Volume) (rows : List TimedRow) (scope : DedupScope) (job_id : Option String) :
    Option (List NewGroup) :=
  (crowded (buckets TimedRef.by (load_timed_entries volumes rows scope))).mapM (new_group scope job_id)

/-- **A rebuild clears the scope and adds the groups**, whatever the batches. -/
theorem rebuild_report_eq (volumes : List Volume) (rows : List TimedRow) (r : Report) :
    rebuild_report volumes rows scope job_id r
      = (built volumes rows scope job_id).map fun groups => ((r.clear_scope scope).flush groups, groups.length) := by
  rw [rebuild_report, build_items_eq, Option.map_map, built]
  refine congrArg (Option.map · _) (funext fun groups => ?_)
  rw [Function.comp_apply, finish_adds, List.nil_append, Nat.zero_add]

/-- What a pass that may raise makes of a list, if it does not. -/
theorem mapM_some {α β : Type} {f : α → Option β} {xs : List α} {ys : List β} (h : xs.mapM f = some ys) :
    List.Forall₂ (fun x y => f x = some y) xs ys := by
  induction xs generalizing ys with
  | nil =>
      rw [List.mapM_nil] at h
      rw [← Option.some.inj h]
      exact List.Forall₂.nil
  | cons x xs ih =>
      rw [List.mapM_cons] at h
      obtain ⟨y, hy, h⟩ := Option.bind_eq_some_iff.mp h
      obtain ⟨rest, hrest, h⟩ := Option.bind_eq_some_iff.mp h
      rw [← Option.some.inj h]
      exact List.Forall₂.cons hy (ih hrest)

theorem mapM_isSome {α β : Type} {f : α → Option β} {xs : List α} (h : ∀ x ∈ xs, ∃ y, f x = some y) :
    ∃ ys, xs.mapM f = some ys := by
  induction xs with
  | nil => exact ⟨[], rfl⟩
  | cons x xs ih =>
      obtain ⟨y, hy⟩ := h x List.mem_cons_self
      obtain ⟨ys, hys⟩ := ih fun x' hx' => h x' (List.mem_cons_of_mem _ hx')
      exact ⟨y :: ys, by rw [List.mapM_cons, hy, hys]; rfl⟩

/-- Each of some results comes from a member, and each member has one. -/
theorem mem_of_forall₂ {α β : Type} {R : α → β → Prop} {xs : List α} {ys : List β} (h : List.Forall₂ R xs ys) :
    (∀ y ∈ ys, ∃ x ∈ xs, R x y) ∧ ∀ x ∈ xs, ∃ y ∈ ys, R x y := by
  induction h with
  | nil => exact ⟨fun _ h => absurd h List.not_mem_nil, fun _ h => absurd h List.not_mem_nil⟩
  | cons hxy _ ih =>
      refine ⟨fun y' hy' => ?_, fun x' hx' => ?_⟩
      · rcases List.mem_cons.mp hy' with rfl | hy'
        · exact ⟨_, List.mem_cons_self, hxy⟩
        · obtain ⟨x', hx', hR⟩ := ih.1 y' hy'
          exact ⟨x', List.mem_cons_of_mem _ hx', hR⟩
      · rcases List.mem_cons.mp hx' with rfl | hx'
        · exact ⟨_, List.mem_cons_self, hxy⟩
        · obtain ⟨y', hy', hR⟩ := ih.2 x' hx'
          exact ⟨y', List.mem_cons_of_mem _ hy', hR⟩

/-- A group, as it is added to the contents. -/
def NewGroup.content (g : NewGroup) : GroupData × List DupMember := (g.row, g.members)

/-- What a group made of a list is. -/
structure MadeOf (scope : DedupScope) (item : (ℕ × String) × List TimedRef) (g : NewGroup) : Prop where
  key : class_key g.content = item.1
  in_scope : of_scope scope g.row = true
  members : g.members = item.2.map fun m => dup_member m.toEntryRef
  reclaimable : g.row.reclaimable_bytes = item.1.1 * ((item.2.filter is_native).length - 1)
  keeper : ∃ choice, rank_oldest_then_preferred_then_shortest item.2 scope = some choice ∧
    g.row.suggested_keeper_entry_id = some choice.entry_id

theorem new_group_made {item : (ℕ × String) × List TimedRef} {g : NewGroup} (h : new_group scope job_id item = some g) :
    MadeOf scope item g := by
  unfold new_group at h
  split at h
  · cases h
  · rename_i choice hchoice
    obtain rfl := Option.some.inj h
    exact ⟨rfl, decide_eq_true rfl, rfl, rfl, choice, hchoice, rfl⟩

/-- One class, in any order, makes one group when the choice is one. -/
theorem new_group_perm {key : ℕ × String} {refs refs' : List TimedRef} {g g' : NewGroup} (hperm : refs'.Perm refs)
    (hrank : rank_oldest_then_preferred_then_shortest refs' scope = rank_oldest_then_preferred_then_shortest refs scope)
    (h : new_group scope job_id (key, refs) = some g) (h' : new_group scope job_id (key, refs') = some g') :
    g'.row = g.row ∧ g'.members.Perm g.members := by
  unfold new_group at h h'
  rw [hrank] at h'
  cases hchoice : rank_oldest_then_preferred_then_shortest refs scope with
  | none =>
      rw [hchoice] at h
      cases h
  | some choice =>
      rw [hchoice] at h h'
      obtain rfl := Option.some.inj h
      obtain rfl := Option.some.inj h'
      dsimp only
      refine ⟨?_, hperm.map _⟩
      rw [hperm.length_eq, (hperm.filter _).length_eq]

/-! ## The classes -/

variable {volumes : List Volume} {rows rows' : List TimedRow} {key : ℕ × String}

/-- **The list under a key** is the class of the key, in the order it was read. -/
theorem under_load (key : ℕ × String) :
    under TimedRef.by (load_timed_entries volumes rows scope) key = (class_of rows scope key).map (timed_ref volumes) := by
  rw [under, load_timed_entries, List.filter_map, List.filter_filter, class_of]
  refine congrArg (List.map (timed_ref volumes)) (List.filter_congr fun e _ => ?_)
  rw [Bool.eq_iff_iff, Bool.and_eq_true, Function.comp_apply, decide_eq_true_eq, decide_eq_true_eq, selected_iff]
  have hkey : Eligible scope e →
      ((timed_ref volumes e).by = key ↔ e.size_logical = key.1 ∧ e.full_hash = some key.2) := by
    intro h
    obtain ⟨hash, hhash⟩ := Option.isSome_iff_exists.mp h.hashed
    rw [hhash, Option.some_inj, Prod.ext_iff]
    show e.size_logical = key.1 ∧ e.full_hash.getD "" = key.2 ↔ _
    rw [hhash, Option.getD_some]
  constructor
  · rintro ⟨hby, h⟩
    exact ⟨h, (hkey h).mp hby⟩
  · rintro ⟨h, hby⟩
    exact ⟨(hkey h).mpr hby, h⟩

theorem class_of_perm (h : rows'.Perm rows) (key : ℕ × String) : (class_of rows' scope key).Perm (class_of rows scope key) :=
  h.filter _

/-- What the loop makes a group of: a class of two or more. -/
theorem mem_items {item : (ℕ × String) × List TimedRef} :
    item ∈ crowded (buckets TimedRef.by (load_timed_entries volumes rows scope)) ↔
      2 ≤ (class_of rows scope item.1).length ∧ item.2 = (class_of rows scope item.1).map (timed_ref volumes) := by
  rw [mem_crowded_buckets, under_load]
  constructor
  · rintro ⟨hlen, hlist⟩
    rw [hlist, List.length_map] at hlen
    exact ⟨hlen, hlist⟩
  · rintro ⟨hlen, hlist⟩
    rw [hlist, List.length_map]
    exact ⟨hlen, rfl⟩

/-- **What a rebuild adds**, for rows in some order. -/
structure Adds (volumes : List Volume) (rows : List TimedRow) (scope : DedupScope) (job_id : Option String)
    (groups : List NewGroup) : Prop where
  once : (groups.map fun g => class_key g.content).Nodup
  of_class : ∀ g ∈ groups, 2 ≤ (class_of rows scope (class_key g.content)).length ∧
    new_group scope job_id (class_key g.content, (class_of rows scope (class_key g.content)).map (timed_ref volumes)) = some g
  all : ∀ key, 2 ≤ (class_of rows scope key).length → ∃ g ∈ groups, class_key g.content = key

theorem keys_made {items : List ((ℕ × String) × List TimedRef)} {groups : List NewGroup}
    (h : List.Forall₂ (fun item g => new_group scope job_id item = some g) items groups) :
    (groups.map fun g => class_key g.content) = items.map Prod.fst := by
  induction h with
  | nil => rfl
  | cons hmade _ ih => rw [List.map_cons, List.map_cons, ih, (new_group_made hmade).key]

theorem built_adds {groups : List NewGroup} (h : built volumes rows scope job_id = some groups) :
    Adds volumes rows scope job_id groups := by
  have hall := mapM_some h
  refine ⟨?_, fun g hg => ?_, fun key hlen => ?_⟩
  · rw [keys_made hall]
    exact (buckets_filled TimedRef.by _).keys.sublist (List.filter_sublist.map _)
  · obtain ⟨item, hitem, hmade⟩ := (mem_of_forall₂ hall).1 g hg
    obtain ⟨hlen, hlist⟩ := mem_items.mp hitem
    have hkey := (new_group_made hmade).key
    rw [hkey, ← hlist]
    exact ⟨hlen, hmade⟩
  · obtain ⟨g, hg, hmade⟩ := (mem_of_forall₂ hall).2 (key, (class_of rows scope key).map (timed_ref volumes))
      (mem_items.mpr ⟨hlen, rfl⟩)
    exact ⟨g, hg, (new_group_made hmade).key⟩

/-- A rebuild goes through when no class of two or more makes the rule raise. -/
theorem built_isSome (h : ∀ key, 2 ≤ (class_of rows scope key).length →
    ∃ choice, rank_oldest_then_preferred_then_shortest ((class_of rows scope key).map (timed_ref volumes)) scope = some choice) :
    ∃ groups, built volumes rows scope job_id = some groups := by
  refine mapM_isSome fun item hitem => ?_
  obtain ⟨hlen, hlist⟩ := mem_items.mp hitem
  obtain ⟨choice, hchoice⟩ := h item.1 hlen
  rw [← hlist] at hchoice
  rw [new_group, hchoice]
  exact ⟨_, rfl⟩

end

/-! ## Exactness -/

section

variable {estate : Estate} {scope : DedupScope} {job_id : Option String} {r : Report}
variable {rows rows' : List TimedRow} {groups groups' : List NewGroup}

variable {volumes : List Volume}

theorem adds_in_scope (h : Adds volumes rows scope job_id groups) : ∀ g ∈ groups, of_scope scope g.row = true :=
  fun g hg => (new_group_made (h.of_class g hg).2).in_scope

theorem contents_after (r : Report) :
    ((r.clear_scope scope).flush groups).contents
      = (r.contents.filter fun c => !of_scope scope c.1) ++ groups.map NewGroup.content := by
  rw [contents_flush, contents_clear]
  rfl

/-- The contents of the scope are the groups that were added. -/
theorem of_after (h : Adds volumes rows scope job_id groups) (r : Report) :
    ((r.clear_scope scope).flush groups).of scope = groups.map NewGroup.content := by
  have hnone : (r.contents.filter fun c => !of_scope scope c.1).filter (fun c => of_scope scope c.1) = [] := by
    refine List.filter_eq_nil_iff.mpr fun c hc hscope => ?_
    have hother := (List.mem_filter.mp hc).2
    rw [hscope] at hother
    cases hother
  have hall : (groups.map NewGroup.content).filter (fun c => of_scope scope c.1) = groups.map NewGroup.content := by
    refine List.filter_eq_self.mpr fun c hc => ?_
    obtain ⟨g, hg, rfl⟩ := List.mem_map.mp hc
    exact adds_in_scope h g hg
  rw [Report.of, contents_after, List.filter_append, hnone, hall, List.nil_append]

/-- **A rebuild leaves an exact report**, in whatever order it read the rows. -/
theorem exact_of_adds (hperm : rows.Perm estate.entries) (h : Adds estate.volumes rows scope job_id groups) (r : Report) :
    Exact estate scope r ((r.clear_scope scope).flush groups) := by
  have hclass : ∀ key, (class_of rows scope key).Perm (class_of estate.entries scope key) := class_of_perm hperm
  obtain ⟨hgroups, hmembers⟩ := @flush_others (r.clear_scope scope) scope groups (adds_in_scope h)
  refine ⟨?_, fun key => ?_, fun c hc => ?_, fun c hc => ?_, ?_, fun g hg hscope => ?_⟩
  · rw [of_after h, List.map_map]
    exact h.once
  · rw [of_after h, List.map_map, List.mem_map, ← (hclass key).length_eq]
    constructor
    · rintro ⟨g, hg, rfl⟩
      exact (h.of_class g hg).1
    · exact h.all key
  · rw [of_after h] at hc
    obtain ⟨g, hg, rfl⟩ := List.mem_map.mp hc
    have hmade := (new_group_made (h.of_class g hg).2).members
    rw [List.map_map] at hmade
    have hcontent : g.content.2 = (class_of rows scope (class_key g.content)).map (member_of estate.volumes) := hmade
    rw [hcontent]
    exact (hclass _).map _
  · rw [of_after h] at hc
    obtain ⟨g, hg, rfl⟩ := List.mem_map.mp hc
    have hmade := (new_group_made (h.of_class g hg).2).reclaimable
    have hsize : (class_key g.content).1 = g.row.size := rfl
    have hnative : is_native ∘ timed_ref estate.volumes = native_row estate.volumes := by
      funext e
      rw [Function.comp_apply, native_row]
    rw [List.filter_map, List.length_map, ((hclass _).filter _).length_eq, hsize, hnative] at hmade
    exact hmade
  · rw [hgroups, Report.clear_scope, List.filter_filter]
    exact List.filter_congr fun g _ => Bool.and_self _
  · have hkept : g ∈ (r.clear_scope scope).groups := List.mem_filter.mpr ⟨hg, by rw [hscope]; rfl⟩
    rw [hmembers g hkept, member_rows_clear hg hscope]

/-- **Every class of the scope has a settled keeper.** -/
def SettledClasses (estate : Estate) (scope : DedupScope) : Prop :=
  ∀ key, 2 ≤ (class_of estate.entries scope key).length →
    Settled scope ((class_of estate.entries scope key).map (timed_ref estate.volumes))

/-- A settled class has one choice, in whatever order its rows were read. -/
theorem rank_class (hsettled : SettledClasses estate scope) (hperm : rows.Perm estate.entries) {key : ℕ × String}
    (hlen : 2 ≤ (class_of rows scope key).length) :
    rank_oldest_then_preferred_then_shortest ((class_of rows scope key).map (timed_ref estate.volumes)) scope
      = rank_oldest_then_preferred_then_shortest ((class_of estate.entries scope key).map (timed_ref estate.volumes)) scope := by
  have hclass : (class_of rows scope key).Perm (class_of estate.entries scope key) := class_of_perm hperm key
  rw [hclass.length_eq] at hlen
  have hne : (class_of estate.entries scope key).map (timed_ref estate.volumes) ≠ [] := fun hnil => by
    rw [List.map_eq_nil_iff.mp hnil] at hlen
    exact absurd hlen (by decide)
  exact rank_perm (hsettled key hlen) (hclass.map _) hne

theorem built_of_settled (job_id : Option String) (hsettled : SettledClasses estate scope) (hperm : rows.Perm estate.entries) :
    ∃ groups, built estate.volumes rows scope job_id = some groups := by
  refine built_isSome fun key hlen => ?_
  have hset := settled_perm ((class_of_perm hperm key).map (timed_ref estate.volumes))
    (hsettled key ((class_of_perm hperm key).length_eq ▸ hlen))
  have hne : (class_of rows scope key).map (timed_ref estate.volumes) ≠ [] := fun hnil => by
    rw [List.map_eq_nil_iff.mp hnil] at hlen
    exact absurd hlen (by decide)
  obtain ⟨chosen, reason, hrank, -⟩ := rank_foremost scope hne hset.num
  exact ⟨_, hrank⟩

/-- A group's content, its members in no order. -/
def NewGroup.tells (g : NewGroup) : GroupData × Multiset DupMember := (g.row, (g.members : Multiset DupMember))

theorem tells_same (hsettled : SettledClasses estate scope) (hperm : rows.Perm estate.entries)
    (hperm' : rows'.Perm estate.entries) (h : Adds estate.volumes rows scope job_id groups)
    (h' : Adds estate.volumes rows' scope job_id groups') {x : GroupData × Multiset DupMember}
    (hx : x ∈ groups.map NewGroup.tells) : x ∈ groups'.map NewGroup.tells := by
  obtain ⟨g, hg, rfl⟩ := List.mem_map.mp hx
  obtain ⟨hlen, hmade⟩ := h.of_class g hg
  have hclass : (class_of rows' scope (class_key g.content)).Perm (class_of rows scope (class_key g.content)) :=
    class_of_perm (hperm'.trans hperm.symm) _
  have hlen' := hclass.length_eq ▸ hlen
  obtain ⟨g', hg', hkey⟩ := h'.all (class_key g.content) hlen'
  have hmade' := (h'.of_class g' hg').2
  rw [hkey] at hmade'
  have hrank := (rank_class hsettled hperm' hlen').trans (rank_class hsettled hperm hlen).symm
  obtain ⟨hrow, hmembers⟩ := new_group_perm (hclass.map (timed_ref estate.volumes)) hrank hmade hmade'
  refine List.mem_map.mpr ⟨g', hg', ?_⟩
  rw [NewGroup.tells, NewGroup.tells, hrow, Multiset.coe_eq_coe.mpr hmembers]

theorem tells_nodup (h : Adds volumes rows scope job_id groups) : (groups.map NewGroup.tells).Nodup := by
  refine List.Nodup.of_map (fun c => ((c.1.size, c.1.full_hash) : ℕ × String)) ?_
  rw [List.map_map]
  exact h.once

theorem tells_after (r : Report) :
    ((r.clear_scope scope).flush groups).tells
      = ((((r.contents.filter fun c => !of_scope scope c.1).map fun c => (c.1, (c.2 : Multiset DupMember)))
          ++ groups.map NewGroup.tells : List _) : Multiset _) := by
  rw [Report.tells, contents_after, List.map_append, List.map_map]
  rfl

/-- **A second rebuild says the same**, when the keepers are settled. -/
theorem tells_again (hsettled : SettledClasses estate scope) (hperm : rows.Perm estate.entries)
    (hperm' : rows'.Perm estate.entries) (h : Adds estate.volumes rows scope job_id groups)
    (h' : Adds estate.volumes rows' scope job_id groups') (r : Report) :
    ((((r.clear_scope scope).flush groups).clear_scope scope).flush groups').tells
      = ((r.clear_scope scope).flush groups).tells := by
  have hothers : (((r.clear_scope scope).flush groups).contents.filter fun c => !of_scope scope c.1)
      = r.contents.filter fun c => !of_scope scope c.1 := by
    have hnone : (groups.map NewGroup.content).filter (fun c => !of_scope scope c.1) = [] := by
      refine List.filter_eq_nil_iff.mpr fun c hc => ?_
      obtain ⟨g, hg, rfl⟩ := List.mem_map.mp hc
      have hscope : of_scope scope g.content.1 = true := adds_in_scope h g hg
      rw [hscope]
      exact Bool.false_ne_true
    rw [contents_after, List.filter_append, hnone, List.append_nil, List.filter_filter]
    exact List.filter_congr fun c _ => Bool.and_self _
  rw [tells_after, tells_after, hothers]
  refine Multiset.coe_eq_coe.mpr (List.Perm.append_left _ ?_)
  refine (List.perm_ext_iff_of_nodup (tells_nodup h') (tells_nodup h)).mpr fun x => ?_
  exact ⟨tells_same hsettled hperm' hperm h' h, tells_same hsettled hperm hperm' h h'⟩

/-- Reports that say the same have one group under a key. -/
theorem row_of_tells (h : Adds volumes rows scope job_id groups) (h' : Adds volumes rows' scope job_id groups')
    {before before' : Report}
    (htells : ((before'.clear_scope scope).flush groups').tells = ((before.clear_scope scope).flush groups).tells)
    {g g' : NewGroup} (hg : g ∈ groups) (hg' : g' ∈ groups') (hkey : class_key g'.content = class_key g.content) :
    g'.row = g.row := by
  have hin : g'.tells ∈ ((before.clear_scope scope).flush groups).tells := by
    rw [← htells, tells_after]
    exact Multiset.mem_coe.mpr (List.mem_append_right _ (List.mem_map_of_mem hg'))
  rw [tells_after] at hin
  rcases List.mem_append.mp (Multiset.mem_coe.mp hin) with hother | hadded
  · obtain ⟨c, hc, heq⟩ := List.mem_map.mp hother
    have hrow : c.1 = g'.row := congrArg Prod.fst heq
    have hscope := (List.mem_filter.mp hc).2
    rw [hrow, adds_in_scope h' g' hg'] at hscope
    cases hscope
  · obtain ⟨found, hfound, heq⟩ := List.mem_map.mp hadded
    have hrow : found.row = g'.row := congrArg Prod.fst heq
    have hsame : found = g := by
      refine List.inj_on_of_nodup_map h.once hfound hg ?_
      rw [← hkey]
      show (found.row.size, found.row.full_hash) = (g'.row.size, g'.row.full_hash)
      rw [hrow]
    rw [← hrow, hsame]

/-- An order of a class is one that some order of the rows gives. -/
theorem class_in_order {key : ℕ × String} {order : List TimedRef}
    (h : order.Perm ((class_of estate.entries scope key).map (timed_ref estate.volumes))) :
    ∃ rows : List TimedRow, rows.Perm estate.entries ∧ (class_of rows scope key).map (timed_ref estate.volumes) = order := by
  have hmade : List.Forall₂ (fun ref e => ref = timed_ref estate.volumes e)
      ((class_of estate.entries scope key).map (timed_ref estate.volumes)) (class_of estate.entries scope key) := by
    rw [List.forall₂_map_left_iff]
    exact List.forall₂_same.mpr fun _ _ => rfl
  obtain ⟨picked, hpicked, hperm⟩ := List.perm_comp_forall₂ h hmade
  have horder : order = picked.map (timed_ref estate.volumes) := by
    clear h hperm hmade
    induction hpicked with
    | nil => rfl
    | cons heq _ ih => rw [heq, ih, List.map_cons]
  -- the class in this order, and then what is not of it
  refine ⟨picked ++ estate.entries.filter fun e =>
    !decide (Eligible scope e ∧ e.size_logical = key.1 ∧ e.full_hash = some key.2), ?_, ?_⟩
  · exact (hperm.append_right _).trans (List.filter_append_perm _ _)
  · rw [horder, class_of, List.filter_append, List.filter_filter]
    have hall : picked.filter (fun e => Eligible scope e ∧ e.size_logical = key.1 ∧ e.full_hash = some key.2) = picked :=
      List.filter_eq_self.mpr fun e he => (List.mem_filter.mp (hperm.mem_iff.mp he)).2
    have hnone : estate.entries.filter (fun e =>
        decide (Eligible scope e ∧ e.size_logical = key.1 ∧ e.full_hash = some key.2) &&
          !decide (Eligible scope e ∧ e.size_logical = key.1 ∧ e.full_hash = some key.2)) = [] :=
      List.filter_eq_nil_iff.mpr fun e _ => by rw [Bool.and_not_self]; exact Bool.false_ne_true
    rw [hall, hnone, List.append_nil]

/-- A rebuild goes through and leaves an exact report, and a second one says the same, in
whatever order either reads the rows. -/
def RebuildsExactly (estate : Estate) (scope : DedupScope) (job_id : Option String) (r : Report) : Prop :=
  ∀ rows : List TimedRow, rows.Perm estate.entries →
    ∃ after n, rebuild_report estate.volumes rows scope job_id r = some (after, n) ∧
      Exact estate scope r after ∧
      ∀ rows' : List TimedRow, rows'.Perm estate.entries →
        ∃ again n', rebuild_report estate.volumes rows' scope job_id after = some (again, n') ∧
          again.tells = after.tells

/-- **A rebuild is exact and repeats itself** exactly when every class of the scope has a
settled keeper. -/
theorem rebuild_exact_iff (estate : Estate) (scope : DedupScope) (job_id : Option String) (r : Report) :
    RebuildsExactly estate scope job_id r ↔ SettledClasses estate scope := by
  constructor
  · intro hall key hlen
    obtain ⟨after, n, hrebuild, -, hagain⟩ := hall estate.entries (List.Perm.refl _)
    rw [rebuild_report_eq, Option.map_eq_some_iff] at hrebuild
    obtain ⟨groups, hbuilt, hafter⟩ := hrebuild
    obtain rfl := (Prod.mk.inj hafter).1
    have hadds := built_adds hbuilt
    obtain ⟨g, hg, hkey⟩ := hadds.all key hlen
    obtain ⟨choice, -, hkeeper⟩ := (new_group_made (hadds.of_class g hg).2).keeper
    refine @settled_of_any_order _ _ choice.entry_id fun order horder => ?_
    -- a second rebuild that reads the class in this order
    obtain ⟨rows, hrows, hclass⟩ := class_in_order horder
    obtain ⟨again, n', hrebuild', htells⟩ := hagain rows hrows
    rw [rebuild_report_eq, Option.map_eq_some_iff] at hrebuild'
    obtain ⟨groups', hbuilt', hagain'⟩ := hrebuild'
    obtain rfl := (Prod.mk.inj hagain').1
    have hadds' := built_adds hbuilt'
    obtain ⟨g', hg', hkey'⟩ := hadds'.all key ((class_of_perm hrows key).length_eq ▸ hlen)
    have hmade' := (hadds'.of_class g' hg').2
    rw [hkey', hclass] at hmade'
    obtain ⟨choice', hrank, hkeeper'⟩ := (new_group_made hmade').keeper
    have hrow := row_of_tells hadds hadds' htells hg hg' (hkey'.trans hkey.symm)
    rw [hrow, hkeeper] at hkeeper'
    exact ⟨choice', hrank, (Option.some.inj hkeeper').symm⟩
  · intro hsettled rows hperm
    obtain ⟨groups, hbuilt⟩ := built_of_settled job_id hsettled hperm
    have hadds := built_adds hbuilt
    refine ⟨(r.clear_scope scope).flush groups, groups.length, ?_, exact_of_adds hperm hadds r, fun rows' hperm' => ?_⟩
    · rw [rebuild_report_eq, hbuilt]
      rfl
    · obtain ⟨groups', hbuilt'⟩ := built_of_settled job_id hsettled hperm'
      refine ⟨_, groups'.length, ?_, tells_again hsettled hperm hperm' hadds (built_adds hbuilt') r⟩
      rw [rebuild_report_eq, hbuilt']
      rfl

end

/-! ## The groups with their members

`rebuild` of `Catalogue.Dedup` keeps a group and its members in one place and ranks by
whatever rule it is given. Where that rule chooses as the one here does, the two leave the
same groups. -/

section

variable {db : Tables} {scope : DedupScope} {job_id : Option String} {keeper : KeeperRule}
variable {volumes : List Volume} {rows : List TimedRow} {r : Report}

/-- What both have of a group. -/
structure Shown where
  full_hash : String
  size : ℕ
  member_count : ℕ
  reclaimable_bytes : ℕ
  scope : Option Value
  suggested_keeper_entry_id : Option ℕ
  suggested_keeper_reason : Option String
  members : List DupMember

def shown (c : GroupData × List DupMember) : Shown where
  full_hash := c.1.full_hash
  size := c.1.size
  member_count := c.1.member_count
  reclaimable_bytes := c.1.reclaimable_bytes
  scope := c.1.scope
  suggested_keeper_entry_id := c.1.suggested_keeper_entry_id
  suggested_keeper_reason := c.1.suggested_keeper_reason
  members := c.2

def group_shown (g : DupGroup) : Shown where
  full_hash := g.full_hash
  size := g.size
  member_count := g.member_count
  reclaimable_bytes := g.reclaimable_bytes
  scope := some g.scope
  suggested_keeper_entry_id := some g.suggested_keeper_entry_id
  suggested_keeper_reason := some g.suggested_keeper_reason
  members := g.members

theorem group_by_hash_buckets (refs : List EntryRef) : group_by_hash refs = buckets EntryRef.key refs := by
  have hstep : ∀ (dict : ByHash) (ref : EntryRef), dict.append ref = append_to ref.key ref dict := by
    intro dict ref
    induction dict with
    | nil => rfl
    | cons item rest ih => rw [ByHash.append, append_to, ih]
  rw [group_by_hash, buckets]
  exact congrArg (fun f => List.foldl f [] refs) (funext fun dict => funext fun ref => hstep dict ref)

theorem selected_eq (e : TimedRow) : selected scope e = hashed_in_scope scope e.toFsEntryRow := by
  have hpath : ∀ root, path_in root e.path = under_prefix e.path root := by
    intro root
    rw [Bool.eq_iff_iff, path_in_iff, under_prefix, Bool.or_eq_true, decide_eq_true_eq, List.isPrefixOf_iff_prefix]
    rfl
  unfold selected hashed_in_scope
  cases scope.path_prefix with
  | none => rfl
  | some root =>
      cases scope.path_prefix_volume_id with
      | none => rfl
      | some volume_id => exact congrArg (fun b => _ && (decide (e.volume_id = volume_id) && b)) (hpath root)

theorem load_entries_eq (hrows : rows.map TimedRow.toFsEntryRow = db.entries) (hvolumes : volumes = db.volumes) :
    load_hashed_entries db scope = (load_timed_entries volumes rows scope).map TimedRef.toEntryRef := by
  have hselected : rows.filter (hashed_in_scope scope ∘ TimedRow.toFsEntryRow) = rows.filter (selected scope) :=
    List.filter_congr fun e _ => (selected_eq e).symm
  rw [load_hashed_entries, load_timed_entries, ← hrows, hvolumes, List.filter_map, hselected, List.map_map, List.map_map]
  rfl

/-- The rule given chooses as the one here does, on every list that becomes a group. -/
def Chooses (keeper : KeeperRule) (scope : DedupScope) (volumes : List Volume) (rows : List TimedRow) : Prop :=
  ∀ item ∈ crowded (buckets TimedRef.by (load_timed_entries volumes rows scope)),
    rank_oldest_then_preferred_then_shortest item.2 scope = some (keeper (item.2.map TimedRef.toEntryRef) scope)

theorem made_shown {items : List ((ℕ × String) × List TimedRef)} {groups : List NewGroup}
    (hrank : ∀ item ∈ items,
      rank_oldest_then_preferred_then_shortest item.2 scope = some (keeper (item.2.map TimedRef.toEntryRef) scope))
    (h : List.Forall₂ (fun item g => new_group scope job_id item = some g) items groups) :
    groups.map (fun g => shown g.content)
      = items.map fun item => group_shown (make_group scope keeper 0 (item.1, item.2.map TimedRef.toEntryRef)) := by
  induction h with
  | nil => rfl
  | @cons item g items groups hmade _ ih =>
      rw [List.map_cons, List.map_cons, ih fun item' hitem' => hrank item' (List.mem_cons_of_mem _ hitem')]
      rw [new_group, hrank item List.mem_cons_self] at hmade
      obtain rfl := Option.some.inj hmade
      refine congrArg (· :: _) ?_
      rw [make_group, group_shown, shown]
      dsimp only [NewGroup.content]
      rw [List.length_map, List.filter_map, List.length_map, List.map_map]
      rfl

/-- **The two rebuilds leave the same groups.** -/
theorem rebuild_shown (hrows : rows.map TimedRow.toFsEntryRow = db.entries) (hvolumes : volumes = db.volumes)
    (hkeeper : Chooses keeper scope volumes rows) (hshown : r.contents.map shown = db.groups.map group_shown)
    {after : Report} {n : ℕ} (h : rebuild_report volumes rows scope job_id r = some (after, n)) :
    after.contents.map shown = (rebuild db scope keeper).groups.map group_shown := by
  rw [rebuild_report_eq, Option.map_eq_some_iff] at h
  obtain ⟨groups, hbuilt, hafter⟩ := h
  obtain rfl := (Prod.mk.inj hafter).1
  have hothers : (r.contents.filter fun c => !of_scope scope c.1).map shown
      = (db.groups.filter fun g => g.scope ≠ scope.as_json).map group_shown := by
    have hleft : (r.contents.filter fun c => !of_scope scope c.1).map shown
        = (r.contents.map shown).filter fun s => !decide (s.scope = some scope.as_json) := by
      rw [List.filter_map]
      rfl
    have hright : (db.groups.filter fun g => g.scope ≠ scope.as_json).map group_shown
        = (db.groups.map group_shown).filter fun s => !decide (s.scope = some scope.as_json) := by
      rw [List.filter_map]
      refine congrArg (List.map group_shown) (List.filter_congr fun g _ => ?_)
      rw [Function.comp_apply, decide_not]
      exact congrArg not (decide_eq_decide.mpr Option.some_inj.symm)
    rw [hleft, hright, hshown]
  have hnew : (build_groups db scope keeper).map group_shown = groups.map fun g => shown g.content := by
    rw [made_shown hkeeper (mapM_some hbuilt), build_groups, group_by_hash_buckets, load_entries_eq hrows hvolumes,
      buckets_map, ← crowded, crowded_map]
    refine List.ext_getElem? fun i => ?_
    rw [List.getElem?_map, List.getElem?_mapIdx, List.getElem?_map, List.getElem?_map, Option.map_map, Option.map_map]
    rfl
  rw [contents_after, List.map_append, hothers, List.map_map]
  show _ = (db.groups.filter (fun g => g.scope ≠ scope.as_json) ++ build_groups db scope keeper).map group_shown
  rw [List.map_append, hnew]
  rfl

end

/-- A hashed file, of some host and some time. -/
def hashed_row (id host_id : ℕ) (path : String) (mtime : Timestamp) : TimedRow where
  id := id
  host_id := host_id
  volume_id := host_id
  path := path
  is_dir := false
  present := true
  size_logical := 1
  inode := 1
  full_hash := some "h"
  mtime := mtime
  ctime := .num (5 : ℚ)

/-- The files of two hosts at one path, with the times their rows carry. -/
def two_hosts (mtime mtime' : Timestamp) : Estate where
  volumes := [⟨1, "ext4"⟩, ⟨2, "ext4"⟩]
  entries := [hashed_row 1 1 "/srv/a" mtime, hashed_row 2 2 "/srv/a" mtime']
  entries_key := (by decide : ([1, 2] : List ℕ).Nodup)

/-- A report of nothing. -/
def no_report : Report where
  groups := []
  members := []
  next_group_id := 1
  next_member_id := 1
  groups_key := List.nodup_nil
  members_key := List.nodup_nil
  groups_below := fun _ h => absurd h List.not_mem_nil
  members_below := fun _ h => absurd h List.not_mem_nil
  member_group := fun _ h => absurd h List.not_mem_nil

theorem keepers_of_tells (r : Report) :
    r.tells.map (fun c => c.1.suggested_keeper_entry_id) = (r.groups.map fun g => g.suggested_keeper_entry_id : List _) := by
  rw [Report.tells, Report.contents, Multiset.map_coe, List.map_map, List.map_map]
  rfl

/-- Two files of one age at one path: the second rebuild reads the other row first, and
suggests the other keeper. A file whose time is a NaN: the rebuild raises. -/
theorem other_keeper_suggested :
    ¬RebuildsExactly (two_hosts (.num (5 : ℚ)) (.num (5 : ℚ))) {} none no_report ∧
      ¬RebuildsExactly (two_hosts .nan (.num (5 : ℚ))) {} none no_report := by
  constructor
  · intro hall
    obtain ⟨after, n, hfirst, -, hagain⟩ := hall _ (List.Perm.refl _)
    obtain ⟨again, n', hsecond, htells⟩ := hagain _ (List.Perm.swap _ _ _)
    have hkeepers := congrArg (Multiset.map fun c => c.1.suggested_keeper_entry_id) htells
    rw [keepers_of_tells, keepers_of_tells] at hkeepers
    have hone : (rebuild_report (two_hosts (.num (5 : ℚ)) (.num (5 : ℚ))).volumes
        (two_hosts (.num (5 : ℚ)) (.num (5 : ℚ))).entries {} none no_report).map
          (fun x => x.1.groups.map fun g => g.suggested_keeper_entry_id) = some [some 1] := by decide +kernel
    have htwo : ((rebuild_report (two_hosts (.num (5 : ℚ)) (.num (5 : ℚ))).volumes
        (two_hosts (.num (5 : ℚ)) (.num (5 : ℚ))).entries {} none no_report).bind fun x =>
          rebuild_report (two_hosts (.num (5 : ℚ)) (.num (5 : ℚ))).volumes
            [hashed_row 2 2 "/srv/a" (.num (5 : ℚ)), hashed_row 1 1 "/srv/a" (.num (5 : ℚ))] {} none x.1).map
          (fun x => x.1.groups.map fun g => g.suggested_keeper_entry_id) = some [some 2] := by decide +kernel
    have hswapped : rebuild_report (two_hosts (.num (5 : ℚ)) (.num (5 : ℚ))).volumes
        [hashed_row 2 2 "/srv/a" (.num (5 : ℚ)), hashed_row 1 1 "/srv/a" (.num (5 : ℚ))] {} none after
          = some (again, n') := hsecond
    rw [hfirst] at hone htwo
    rw [Option.bind_some, hswapped] at htwo
    rw [Option.map_some] at hone htwo
    rw [Option.some.inj hone, Option.some.inj htwo] at hkeepers
    exact absurd hkeepers (by decide)
  · intro hall
    obtain ⟨after, n, hfirst, -⟩ := hall _ (List.Perm.refl _)
    have hnone : (rebuild_report (two_hosts .nan (.num (5 : ℚ))).volumes (two_hosts .nan (.num (5 : ℚ))).entries {} none
        no_report).isSome = false := by decide +kernel
    rw [hfirst] at hnone
    cases hnone

def older_first : Estate := two_hosts (.num (4 : ℚ)) (.num (5 : ℚ))

/-- The same rows, without their times. -/
def older_first_rows : Tables where
  hosts := [⟨1, "srv", by decide⟩, ⟨2, "pc", by decide⟩]
  volumes := older_first.volumes
  entries := older_first.entries.map TimedRow.toFsEntryRow
  groups := []
  next_group_id := 2
  hosts_key := by decide
  entries_key := by decide
  groups_key := List.nodup_nil
  groups_below := nofun
  entry_host := by decide
  member_entry := nofun

theorem rebuild_shown_older_first : ∃ after n,
    rebuild_report older_first.volumes older_first.entries {} none no_report = some (after, n) ∧ after.contents.map shown =
      (rebuild older_first_rows {} fun _ _ => ⟨1, "oldest copy"⟩).groups.map group_shown := by
  have hsome : (rebuild_report older_first.volumes older_first.entries {} none no_report).isSome = true := by decide +kernel
  obtain ⟨⟨after, n⟩, h⟩ := Option.isSome_iff_exists.mp hsome
  have hkeeper : Chooses (fun _ _ => ⟨1, "oldest copy"⟩) {} older_first.volumes older_first.entries := by
    intro item hitem
    obtain rfl := List.mem_singleton.mp hitem
    rfl
  have hrows : older_first.entries.map TimedRow.toFsEntryRow = older_first_rows.entries := rfl
  exact ⟨after, n, h, rebuild_shown hrows rfl hkeeper rfl h⟩

end Fathom.Catalogue
