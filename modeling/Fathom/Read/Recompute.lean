/-
**A recomputation of the rollups** (`RollupService.recompute_full`, of `core/rollup.py`):
the volume's rows are deleted and the tally's are inserted, in batches.

What is wanted of it is the naive sum. A directory is any normal path at or below the
mountpoint, and it is the same directory however a Windows path is spelled; its row has
the totals of the present entries strictly beneath it, and there is one row exactly when
there is such an entry. The code takes paths apart at slashes. So on Windows, and below
the mountpoint `//`, it is right as long as nothing lies deeper than the mountpoint's own
children.
-/
import Fathom.Lib.Batch
import Fathom.Read.Place

set_option autoImplicit false

namespace Fathom.Read

open Fathom.Security
open Fathom.Ingest
open Fathom.Batch (batched)

/-! ## Inserting in batches -/

/-- `_ROLLUP_INSERT_CHUNK`. -/
def ROLLUP_INSERT_CHUNK : ℕ := 5000

/-- `delete(SubtreeRollup).where(volume_id = …)`. -/
def delete_rollups (t : Table SubtreeRollup.key) (volume_id : ℕ) : Table SubtreeRollup.key where
  rows := t.rows.filter fun r => r.volume_id ≠ volume_id
  unique := t.unique.sublist (List.filter_sublist.map _)

/-- `insert(SubtreeRollup)` of a batch; it fails on a key that is there. -/
def bulk_insert (t : Table SubtreeRollup.key) (batch : List SubtreeRollup) : Option (Table SubtreeRollup.key) :=
  if h : ((t.rows ++ batch).map SubtreeRollup.key).Nodup then some ⟨t.rows ++ batch, h⟩ else none

/-- The loop over the batches, with `inserted`. -/
def insert_batches : Table SubtreeRollup.key → List (List SubtreeRollup) → ℕ → Option (Table SubtreeRollup.key × ℕ)
  | t, [], inserted => some (t, inserted)
  | t, batch :: rest, inserted =>
    match bulk_insert t batch with
    | none => none
    | some t => insert_batches t rest (inserted + batch.length)

/-- `RollupService.recompute_full`, as it writes. -/
def recompute_in_batches (db : Database) (volume_id : ℕ) (now : Instant) : Option (Database × ℕ) :=
  match get_volume db.cat volume_id with
  | none => none
  | some volume =>
    let rows := rollup_rows db.cat volume now
    (insert_batches (delete_rollups db.subtree_rollup volume.id) (batched ROLLUP_INSERT_CHUNK rows) 0).map
      fun result => (⟨db.cat, result.1⟩, result.2)

theorem insert_batches_eq {t t' : Table SubtreeRollup.key} {batches : List (List SubtreeRollup)}
    (h : t'.rows = t.rows ++ batches.flatten) (inserted : ℕ) :
    insert_batches t batches inserted = some (t', inserted + batches.flatten.length) := by
  induction batches generalizing t inserted with
  | nil =>
      rw [List.flatten_nil, List.append_nil] at h
      rw [insert_batches, Table.ext_rows h]
      rfl
  | cons batch rest ih =>
      rw [List.flatten_cons, ← List.append_assoc] at h
      -- a part of what has no key twice has none twice
      have hkeys : ((t.rows ++ batch).map SubtreeRollup.key).Nodup := by
        refine t'.unique.sublist (List.Sublist.map _ ?_)
        rw [h]
        exact List.sublist_append_left _ _
      rw [insert_batches, bulk_insert, dif_pos hkeys]
      show insert_batches ⟨t.rows ++ batch, hkeys⟩ rest (inserted + batch.length) = _
      rw [@ih ⟨t.rows ++ batch, hkeys⟩ h (inserted + batch.length), List.flatten_cons, List.length_append, Nat.add_assoc]

/-- **The batches make no difference.** -/
theorem recompute_in_batches_eq (db : Database) (volume_id : ℕ) (now : Instant) :
    recompute_in_batches db volume_id now = recompute_full db volume_id now := by
  rw [recompute_in_batches, recompute_full]
  cases get_volume db.cat volume_id with
  | none => rfl
  | some volume =>
      have hflat := Batch.flatten_batched ROLLUP_INSERT_CHUNK (rollup_rows db.cat volume now)
      have hrows : (replace_rollup db.subtree_rollup db.cat volume now).rows
          = (delete_rollups db.subtree_rollup volume.id).rows
            ++ (batched ROLLUP_INSERT_CHUNK (rollup_rows db.cat volume now)).flatten := by
        rw [hflat]
        rfl
      dsimp only
      rw [insert_batches_eq hrows, hflat, Nat.zero_add]
      rfl

/-! ## What is wanted -/

/-- **The present entries of a volume stand at or below its mountpoint**, and their paths
are normal ones. -/
structure AtOrBelow (lower : String → String) (cat : Catalogue) (v : Volume) : Prop where
  normal : IsNormal (pure_path v.mountpoint)
  mountpoint : (pure_path v.mountpoint).str = v.mountpoint
  rows : ∀ r ∈ present_rows cat v.id,
    IsDirectory lower v.mountpoint (pure_path r.path) ∧ (pure_path r.path).str = r.path

/-- The totals of a row. -/
def SubtreeRollup.acc (r : SubtreeRollup) : Acc := ⟨r.total_size_logical, r.total_size_on_disk, r.file_count, r.dir_count⟩

/-- The rollups of a directory, however they spell it. -/
def rollups_of (lower : String → String) (db : Database) (v : Volume) (p : PurePath) : List SubtreeRollup :=
  db.subtree_rollup.rows.filter fun r => r.volume_id = v.id ∧ PurePath.same lower (pure_path r.path) p = true

/-- The totals that are recorded for a directory; a directory without a row has none. -/
def recorded (lower : String → String) (db : Database) (v : Volume) (p : PurePath) : Acc :=
  ((rollups_of lower db v p).map SubtreeRollup.acc).sum

/-- How many components below the mountpoint. -/
def depth_below (v : Volume) (p : PurePath) : ℕ := p.tail.length - (pure_path v.mountpoint).tail.length

/-- The present entries at a path. -/
def entries_at (lower : String → String) (cat : Catalogue) (v : Volume) (p : PurePath) : List FsEntryRow :=
  (present_rows cat v.id).filter fun r => PurePath.same lower (pure_path r.path) p

/-- Some paths are the children of a directory: each once, and everything beneath the
directory is at one of them or beneath it. -/
structure Children (lower : String → String) (cat : Catalogue) (v : Volume) (p : PurePath) (kids : List PurePath) :
    Prop where
  normal : ∀ q ∈ kids, IsNormal q
  child : ∀ q ∈ kids, q.parents.head?.any (PurePath.same lower p) = true
  once : kids.Pairwise fun q q' => PurePath.same lower q q' = false
  all : ∀ r ∈ present_rows cat v.id, is_beneath lower p r = true →
    ∃ q ∈ kids, PurePath.same lower (pure_path r.path) q = true ∨ is_beneath lower q r = true

/-- **The rollups of a volume are the naive sums.** -/
structure RolledUp (lower : String → String) (db : Database) (v : Volume) : Prop where
  /-- a directory has one row, with its totals and depth, when something lies beneath it -/
  rows : ∀ p, IsDirectory lower v.mountpoint p →
    (rollups_of lower db v p).map (fun r => (r.acc, r.depth))
      = if entries_beneath lower db.cat v p = [] then [] else [(totals (entries_beneath lower db.cat v p), depth_below v p)]
  /-- the totals of a directory are the sum over its children -/
  sums : ∀ p, IsDirectory lower v.mountpoint p → ∀ kids, Children lower db.cat v p kids →
    recorded lower db v p = (kids.map fun q => totals (entries_at lower db.cat v q) + recorded lower db v q).sum
  /-- and no row is of anything else -/
  directories : ∀ r ∈ db.subtree_rollup.rows, r.volume_id = v.id → IsDirectory lower v.mountpoint (pure_path r.path)

/-- **What it takes**: a POSIX mountpoint other than `//`, or no entry deeper than the
mountpoint's children and none that spells the mountpoint in another way. -/
def Regular (lower : String → String) (cat : Catalogue) (v : Volume) : Prop :=
  (v.mountpoint.toList.head? = some '/' ∧ v.mountpoint ≠ "//") ∨
    ∀ r ∈ present_rows cat v.id, r.path = v.mountpoint ∨ is_child lower (pure_path v.mountpoint) r = true

/-- What ingest has accepted for a POSIX volume is at or below its mountpoint. -/
theorem at_or_below_posix {lower : String → String} {cat : Catalogue} {v : Volume} {root : List Char} {mount : List Name}
    (h : OnPosix cat v root mount) : AtOrBelow lower cat v := by
  have hpath : pure_path v.mountpoint = .posix root mount := by rw [h.mountpoint, pure_path_posix h.normal]
  refine ⟨?_, by rw [hpath, h.mountpoint], fun r hr => ?_⟩
  · rw [hpath]
    exact .posix h.normal
  · obtain ⟨hmem, hvolume, -⟩ := mem_present_rows.mp hr
    obtain ⟨below, hbelow, hrpath, -⟩ := h.rows r hmem hvolume
    rw [hrpath, pure_path_posix hbelow]
    exact ⟨(posix_directory h.normal h.mountpoint).mpr ⟨below, hbelow, rfl⟩, rfl⟩

/-! ## Directories, as places -/

section

variable {lower : String → String} {cat : Catalogue} {v : Volume} {p : PurePath} {r : FsEntryRow}

/-- The components of an entry's path. -/
def steps_of (lower : String → String) (r : FsEntryRow) : List Name := steps lower (pure_path r.path)

theorem directory_place (hlower : Lowers lower) (h : AtOrBelow lower cat v) (hp : IsDirectory lower v.mountpoint p) :
    Standing p ∧ anchor_of lower p = anchor_of lower (pure_path v.mountpoint) ∧
      steps lower (pure_path v.mountpoint) <+: steps lower p :=
  ⟨hp.normal.standing, (within_iff hlower h.normal.standing hp.normal.standing).mp hp.within⟩

/-- The mountpoint is a directory. -/
theorem mount_directory (hlower : Lowers lower) (h : AtOrBelow lower cat v) :
    IsDirectory lower v.mountpoint (pure_path v.mountpoint) :=
  ⟨h.normal, (within_iff hlower h.normal.standing h.normal.standing).mpr ⟨rfl, List.prefix_refl _⟩⟩

theorem beneath_place (hlower : Lowers lower) (h : AtOrBelow lower cat v) (hp : Standing p)
    (hanchor : anchor_of lower p = anchor_of lower (pure_path v.mountpoint)) (hr : r ∈ present_rows cat v.id) :
    is_beneath lower p r = Totals.beneath (steps lower p) (steps_of lower r) := by
  obtain ⟨hstands, hanchor', -⟩ := directory_place hlower h (h.rows r hr).1
  rw [Bool.eq_iff_iff, is_beneath, any_parent_iff hlower hp hstands]
  exact and_iff_right (hanchor'.trans hanchor.symm)

theorem at_place (hlower : Lowers lower) (h : AtOrBelow lower cat v) (hp : Standing p)
    (hanchor : anchor_of lower p = anchor_of lower (pure_path v.mountpoint)) (hr : r ∈ present_rows cat v.id) :
    PurePath.same lower (pure_path r.path) p = true ↔ steps_of lower r = steps lower p := by
  obtain ⟨hstands, hanchor', -⟩ := directory_place hlower h (h.rows r hr).1
  rw [same_iff hlower hstands hp]
  exact and_iff_right (hanchor'.trans hanchor.symm)

/-- The totals beneath a directory, as totals of places. -/
theorem totals_beneath (hlower : Lowers lower) (h : AtOrBelow lower cat v) (hp : Standing p)
    (hanchor : anchor_of lower p = anchor_of lower (pure_path v.mountpoint)) : totals (entries_beneath lower cat v p)
      = Totals.total (steps_of lower) contribution (present_rows cat v.id) (steps lower p) := by
  rw [totals, entries_beneath, Totals.total]
  rw [List.filter_congr fun r hr => beneath_place hlower h hp hanchor hr]

theorem totals_at (hlower : Lowers lower) (h : AtOrBelow lower cat v) (hp : Standing p)
    (hanchor : anchor_of lower p = anchor_of lower (pure_path v.mountpoint)) : totals (entries_at lower cat v p)
      = Totals.own (steps_of lower) contribution (present_rows cat v.id) (steps lower p) := by
  have hat : ∀ r ∈ present_rows cat v.id, PurePath.same lower (pure_path r.path) p
      = decide (steps_of lower r = steps lower p) := by
    intro r hr
    rw [Bool.eq_iff_iff, decide_eq_true_eq]
    exact at_place hlower h hp hanchor hr
  rw [totals, entries_at, Totals.own, List.filter_congr hat]

/-- **The naive sums add up**: what lies beneath a directory is at its children and
beneath them. -/
theorem totals_children (hlower : Lowers lower) (h : AtOrBelow lower cat v) (hp : IsDirectory lower v.mountpoint p)
    {kids : List PurePath} (hkids : Children lower cat v p kids) :
    totals (entries_beneath lower cat v p)
      = (kids.map fun q => totals (entries_at lower cat v q) + totals (entries_beneath lower cat v q)).sum := by
  obtain ⟨hstands, hanchor, -⟩ := directory_place hlower h hp
  have hkid : ∀ q ∈ kids, Standing q ∧ anchor_of lower q = anchor_of lower (pure_path v.mountpoint) ∧
      steps lower q = steps lower p ++ [(steps lower q).getLastD []] := by
    intro q hq
    have hstands' := (hkids.normal q hq).standing
    obtain ⟨hanchor', name, hsteps⟩ := (head_parent_iff hlower hstands hstands').mp (hkids.child q hq)
    refine ⟨hstands', hanchor'.trans hanchor, ?_⟩
    rw [hsteps, List.getLastD_concat]
  have hnames : (kids.map fun q => (steps lower q).getLastD []).Nodup := by
    rw [List.Nodup, List.pairwise_map]
    refine hkids.once.imp_of_mem fun {q q'} hq hq' hother heq => ?_
    obtain ⟨hstands', hanchor', hsteps⟩ := hkid q hq
    obtain ⟨hstands'', hanchor'', hsteps'⟩ := hkid q' hq'
    refine Bool.false_ne_true (hother.symm.trans ((same_iff hlower hstands' hstands'').mpr ?_))
    exact ⟨hanchor'.trans hanchor''.symm, by rw [hsteps, hsteps', heq]⟩
  have hall : ∀ r ∈ present_rows cat v.id, ∀ name more, steps_of lower r = steps lower p ++ name :: more →
      name ∈ kids.map fun q => (steps lower q).getLastD [] := by
    intro r hr name more hsteps
    have hbeneath : is_beneath lower p r = true := by
      rw [beneath_place hlower h hstands hanchor hr, Totals.beneath_iff]
      exact ⟨name :: more, List.cons_ne_nil _ _, hsteps⟩
    obtain ⟨q, hq, hat⟩ := hkids.all r hr hbeneath
    obtain ⟨hstands', hanchor', hsteps'⟩ := hkid q hq
    have hbegins : steps lower q <+: steps_of lower r := by
      rcases hat with hsame | hunder
      · rw [(at_place hlower h hstands' hanchor' hr).mp hsame]
      · rw [beneath_place hlower h hstands' hanchor' hr, Totals.beneath_iff] at hunder
        obtain ⟨rest, -, heq⟩ := hunder
        exact ⟨rest, heq.symm⟩
    rw [hsteps', hsteps, List.prefix_append_right_inj, List.cons_prefix_cons] at hbegins
    exact List.mem_map.mpr ⟨q, hq, hbegins.1⟩
  rw [totals_beneath hlower h hstands hanchor, Totals.total_children hnames hall, List.map_map]
  refine congrArg List.sum (List.map_congr_left fun q hq => ?_)
  obtain ⟨hstands', hanchor', hsteps⟩ := hkid q hq
  rw [Function.comp_apply, ← hsteps, totals_at hlower h hstands' hanchor', totals_beneath hlower h hstands' hanchor']

/-- A child of a directory is a directory. -/
theorem child_directory (hlower : Lowers lower) (h : AtOrBelow lower cat v) (hp : IsDirectory lower v.mountpoint p)
    {kids : List PurePath} (hkids : Children lower cat v p kids) {q : PurePath} (hq : q ∈ kids) :
    IsDirectory lower v.mountpoint q := by
  obtain ⟨hstands, hanchor, hbegins⟩ := directory_place hlower h hp
  have hnormal := hkids.normal q hq
  obtain ⟨hanchor', name, hsteps⟩ := (head_parent_iff hlower hstands hnormal.standing).mp (hkids.child q hq)
  refine ⟨hnormal, (within_iff hlower h.normal.standing hnormal.standing).mpr ⟨hanchor'.trans hanchor, ?_⟩⟩
  rw [hsteps]
  exact hbegins.trans (List.prefix_append _ _)

/-- Rows that are the naive sums record them. -/
theorem recorded_of_rows {db : Database}
    (h : (rollups_of lower db v p).map (fun r => (r.acc, r.depth))
      = if entries_beneath lower db.cat v p = [] then [] else [(totals (entries_beneath lower db.cat v p), depth_below v p)]) :
    recorded lower db v p = totals (entries_beneath lower db.cat v p) := by
  have hacc := congrArg (List.map Prod.fst) h
  rw [List.map_map] at hacc
  have hsum : recorded lower db v p = _ := congrArg List.sum hacc
  rw [hsum]
  split
  · rename_i hempty
    rw [hempty]
    rfl
  · exact List.sum_singleton

/-! ## What the tally has -/

/-- What an entry is added to. -/
def named (v : Volume) (r : FsEntryRow) : List (List Char) := ancestor_dirs r.path.toList v.mountpoint.toList

theorem mem_tally (hnodup : ∀ r ∈ present_rows cat v.id, (named v r).Nodup) {item : TallyItem}
    (hitem : item ∈ (tally (present_rows cat v.id) v.mountpoint).rows) :
    ∃ r ∈ present_rows cat v.id, item.path.toList ∈ named v r := by
  have hfind := Table.find_of_mem hitem
  rw [find_tally hnodup] at hfind
  split at hfind
  · cases hfind
  · rename_i hsome
    obtain ⟨r, rest, hcons⟩ := List.exists_cons_of_ne_nil hsome
    obtain ⟨hr, hnamed⟩ := List.mem_filter.mp (hcons ▸ List.mem_cons_self : r ∈ beneath _ _ _)
    exact ⟨r, hr, of_decide_eq_true hnamed⟩

/-- The rows of the volume are those of its tally. -/
theorem rollups_replaced (t : Table SubtreeRollup.key) (now : Instant) (p : PurePath) :
    rollups_of lower ⟨cat, replace_rollup t cat v now⟩ v p
      = ((tally (present_rows cat v.id) v.mountpoint).rows.filter fun item =>
          PurePath.same lower (pure_path item.path) p).map (rollup_row v.id v.mountpoint now) := by
  have hother : (t.rows.filter fun r => r.volume_id ≠ v.id).filter
      (fun r => r.volume_id = v.id ∧ PurePath.same lower (pure_path r.path) p = true) = [] := by
    refine List.filter_eq_nil_iff.mpr fun r hr hmine => ?_
    exact of_decide_eq_true (List.mem_filter.mp hr).2 (of_decide_eq_true hmine).1
  have hmine : (fun r : SubtreeRollup => decide (r.volume_id = v.id ∧ PurePath.same lower (pure_path r.path) p = true))
      ∘ rollup_row v.id v.mountpoint now = fun item => PurePath.same lower (pure_path item.path) p := by
    funext item
    rw [Bool.eq_iff_iff, Function.comp_apply, decide_eq_true_eq]
    exact and_iff_right rfl
  rw [rollups_of]
  show (t.rows.filter (fun r => r.volume_id ≠ v.id) ++ rollup_rows cat v now).filter _ = _
  rw [List.filter_append, hother, List.nil_append, rollup_rows, List.filter_map, hmine]

/-- **A directory that has one name in the tally** has the row it should. -/
theorem rows_of_name (t : Table SubtreeRollup.key) (now : Instant) {name : String}
    (hnodup : ∀ r ∈ present_rows cat v.id, (named v r).Nodup)
    (hname : ∀ r ∈ present_rows cat v.id, ∀ s ∈ named v r,
      PurePath.same lower (pure_path (String.ofList s)) p = true ↔ s = name.toList)
    (hin : ∀ r ∈ present_rows cat v.id, name.toList ∈ named v r ↔ is_beneath lower p r = true)
    (hdepth : depth_within v.mountpoint.toList name.toList = depth_below v p) :
    (rollups_of lower ⟨cat, replace_rollup t cat v now⟩ v p).map (fun r => (r.acc, r.depth))
      = if entries_beneath lower cat v p = [] then [] else [(totals (entries_beneath lower cat v p), depth_below v p)] := by
  have hitems : ((tally (present_rows cat v.id) v.mountpoint).rows.filter fun item =>
      PurePath.same lower (pure_path item.path) p) = ((tally (present_rows cat v.id) v.mountpoint).find name).toList := by
    rw [← Table.filter_key]
    refine List.filter_congr fun item hitem => ?_
    obtain ⟨r, hr, hnamed⟩ := mem_tally hnodup hitem
    have hiff := hname r hr item.path.toList hnamed
    rw [String.ofList_toList] at hiff
    rw [Bool.eq_iff_iff, hiff, decide_eq_true_eq]
    exact ⟨fun heq => String.toList_injective heq, fun heq => congrArg String.toList heq⟩
  have hbeneath : beneath (present_rows cat v.id) v.mountpoint name = entries_beneath lower cat v p := by
    rw [beneath, entries_beneath]
    refine List.filter_congr fun r hr => ?_
    rw [Bool.eq_iff_iff, decide_eq_true_eq]
    exact hin r hr
  rw [rollups_replaced, hitems, find_tally hnodup, hbeneath]
  split
  · rfl
  · rw [Option.toList_some, List.map_singleton, List.map_singleton, ← hdepth]
    rfl

theorem rows_of_none (t : Table SubtreeRollup.key) (now : Instant)
    (hnodup : ∀ r ∈ present_rows cat v.id, (named v r).Nodup)
    (hname : ∀ r ∈ present_rows cat v.id, ∀ s ∈ named v r, PurePath.same lower (pure_path (String.ofList s)) p = false)
    (hin : ∀ r ∈ present_rows cat v.id, is_beneath lower p r = false) :
    (rollups_of lower ⟨cat, replace_rollup t cat v now⟩ v p).map (fun r => (r.acc, r.depth))
      = if entries_beneath lower cat v p = [] then [] else [(totals (entries_beneath lower cat v p), depth_below v p)] := by
  have hempty : entries_beneath lower cat v p = [] :=
    List.filter_eq_nil_iff.mpr fun r hr => by rw [hin r hr]; exact Bool.false_ne_true
  have hnone : ((tally (present_rows cat v.id) v.mountpoint).rows.filter fun item =>
      PurePath.same lower (pure_path item.path) p) = [] := by
    refine List.filter_eq_nil_iff.mpr fun item hitem hsame => ?_
    obtain ⟨r, hr, hnamed⟩ := mem_tally hnodup hitem
    have hother := hname r hr _ hnamed
    rw [String.ofList_toList, hsame] at hother
    cases hother
  rw [rollups_replaced, hnone, if_pos hempty]
  rfl

/-- A row of the volume is of a path that some entry names. -/
theorem named_of_row (t : Table SubtreeRollup.key) (now : Instant)
    (hnodup : ∀ r ∈ present_rows cat v.id, (named v r).Nodup) {row : SubtreeRollup}
    (hrow : row ∈ (replace_rollup t cat v now).rows) (hmine : row.volume_id = v.id) :
    ∃ r ∈ present_rows cat v.id, row.path.toList ∈ named v r := by
  have hsplit : row ∈ (t.rows.filter fun r => r.volume_id ≠ v.id) ++ rollup_rows cat v now := hrow
  rcases List.mem_append.mp hsplit with hother | hnew
  · exact absurd hmine (of_decide_eq_true (List.mem_filter.mp hother).2)
  · obtain ⟨item, hitem, rfl⟩ := List.mem_map.mp hnew
    exact mem_tally hnodup hitem

variable {s root : List Char} {mount : List Name}

/-- A path that some entry names has a row. -/
theorem row_of_named (t : Table SubtreeRollup.key) (now : Instant)
    (hnodup : ∀ r ∈ present_rows cat v.id, (named v r).Nodup) (hr : r ∈ present_rows cat v.id) (hs : s ∈ named v r) :
    rollup_row v.id v.mountpoint now
        ⟨String.ofList s, totals (beneath (present_rows cat v.id) v.mountpoint (String.ofList s))⟩
      ∈ (replace_rollup t cat v now).rows := by
  have hsome : beneath (present_rows cat v.id) v.mountpoint (String.ofList s) ≠ [] := by
    refine List.ne_nil_of_mem (List.mem_filter.mpr ⟨hr, ?_⟩)
    rw [String.toList_ofList]
    exact decide_eq_true hs
  have hfind := find_tally hnodup (String.ofList s)
  rw [if_neg hsome] at hfind
  show _ ∈ (t.rows.filter fun r => r.volume_id ≠ v.id) ++ rollup_rows cat v now
  exact List.mem_append_right _ (List.mem_map_of_mem (Table.mem_of_find hfind))

/-! ## POSIX volumes -/

theorem posix_entry (hroot : IsPosix root mount) (hpath : pure_path v.mountpoint = .posix root mount)
    (h : AtOrBelow lower cat v) (hr : r ∈ present_rows cat v.id) :
    ∃ below, IsPosix root (mount ++ below) ∧ pure_path r.path = .posix root (mount ++ below) ∧
      r.path = (PurePath.posix root (mount ++ below)).str := by
  have hmount : v.mountpoint = (PurePath.posix root mount).str := by rw [← hpath, h.mountpoint]
  obtain ⟨hdirectory, hstr⟩ := h.rows r hr
  obtain ⟨below, hbelow, heq⟩ := (posix_directory hroot hmount).mp hdirectory
  exact ⟨below, hbelow, heq, by rw [← heq, hstr]⟩

/-- What an entry below a POSIX mountpoint other than `//` names: the directories above
it. -/
theorem named_posix {below : List Name} (hroot : IsPosix root mount) (hbelow : IsPosix root (mount ++ below))
    (hslashes : ¬(root = ['/', '/'] ∧ mount = []))
    (hs : s ∈ ancestor_dirs (posix_text root (mount ++ below)) (posix_text root mount)) :
    ∃ c, IsPosix root (mount ++ c) ∧ s = posix_text root (mount ++ c) := by
  have hnormal := below_components hbelow
  rw [ancestor_dirs_text hroot hnormal] at hs
  split at hs
  · exact absurd hs List.not_mem_nil
  · rcases List.mem_cons.mp hs with rfl | hs
    · exact ⟨[], by rw [List.append_nil]; exact hroot, by rw [List.append_nil]⟩
    · obtain ⟨q, hq, hprefix, rfl⟩ := mem_descend.mp hs
      have hc : IsPosix root (mount ++ q) := by
        refine ⟨hroot.root, fun n hn => (List.mem_append.mp hn).elim (hroot.normal n) fun hin => ?_⟩
        exact hnormal n (List.mem_of_mem_dropLast ( hprefix.subset hin))
      refine ⟨q, hc, ?_⟩
      rw [rstrip_text hroot]
      by_cases hmount : mount = []
      · rw [if_pos hmount, hmount, List.nil_append, List.nil_append, posix_text]
        rcases hroot.root with heq | heq
        · rw [heq]
          rfl
        · exact absurd ⟨heq, hmount⟩ hslashes
      · rw [if_neg hmount, posix_text_append hq, if_neg hmount]

/-- The directories above an entry are those it lies beneath, the mountpoint among them. -/
theorem mem_named_posix {below c : List Name} (hroot : IsPosix root mount) (hbelow : IsPosix root (mount ++ below))
    (hslashes : ¬(root = ['/', '/'] ∧ mount = [])) (hc : IsPosix root (mount ++ c)) :
    posix_text root (mount ++ c) ∈ ancestor_dirs (posix_text root (mount ++ below)) (posix_text root mount) ↔
      ∃ d, d ≠ [] ∧ below = c ++ d := by
  by_cases hnil : c = []
  · rw [hnil, List.append_nil, ancestor_dirs_text hroot (below_components hbelow)]
    split
    · rename_i hempty
      refine iff_of_false List.not_mem_nil ?_
      rintro ⟨d, hd, heq⟩
      exact hd (heq.symm.trans hempty)
    · rename_i hsome
      exact iff_of_true List.mem_cons_self ⟨below, hsome, rfl⟩
  · rw [mem_ancestor_dirs_iff hroot (below_components hbelow) (below_components hc) hnil]
    exact and_iff_right hslashes

/-- **Below a POSIX mountpoint other than `//`** every directory has the row it should. -/
theorem rows_posix (h : AtOrBelow lower cat v) (t : Table SubtreeRollup.key) (now : Instant)
    (hhead : v.mountpoint.toList.head? = some '/') (hne : v.mountpoint ≠ "//") :
    (∀ p, IsDirectory lower v.mountpoint p →
      (rollups_of lower ⟨cat, replace_rollup t cat v now⟩ v p).map (fun r => (r.acc, r.depth))
        = if entries_beneath lower cat v p = [] then []
          else [(totals (entries_beneath lower cat v p), depth_below v p)]) ∧
      ∀ row ∈ (replace_rollup t cat v now).rows, row.volume_id = v.id →
        IsDirectory lower v.mountpoint (pure_path row.path) := by
  have hnormal := h.normal
  have hstr := h.mountpoint
  rcases hpath : pure_path v.mountpoint with ⟨root, mount⟩ | ⟨drive, root, mount⟩
  swap
  · rw [hpath] at hnormal hstr
    cases hnormal with
    | windows hwindows =>
        have hslash : '/' ∈ v.mountpoint.toList := List.mem_of_mem_head? hhead
        rw [← hstr, PurePath.str, String.toList_ofList, windows_chars hwindows] at hslash
        exact absurd hslash hwindows.not_slash
  rw [hpath] at hnormal hstr
  cases hnormal with
  | posix hroot =>
    have hslashes : ¬(root = ['/', '/'] ∧ mount = []) := fun heq =>
      hne ((mountpoint_slashes_iff hroot hstr.symm).mpr heq)
    have hmount : v.mountpoint.toList = posix_text root mount := by rw [← hstr, str_toList hroot]
    have hentry := fun r hr => @posix_entry lower cat v r root mount hroot hpath h hr
    have hnamed : ∀ {r : FsEntryRow} {below : List Name}, IsPosix root (mount ++ below) →
        r.path = (PurePath.posix root (mount ++ below)).str →
        named v r = ancestor_dirs (posix_text root (mount ++ below)) (posix_text root mount) := by
      intro r below hbelow hrpath
      rw [named, hmount, hrpath, str_toList hbelow]
    have hnodup : ∀ r ∈ present_rows cat v.id, (named v r).Nodup := by
      intro r hr
      obtain ⟨below, hbelow, -, hrpath⟩ := hentry r hr
      rw [hnamed hbelow hrpath]
      exact nodup_ancestor_dirs hroot (below_components hbelow)
    have hlist : ∀ {c : List Name}, IsPosix root (mount ++ c) →
        String.ofList (posix_text root (mount ++ c)) = (PurePath.posix root (mount ++ c)).str := by
      intro c hc
      rw [← str_toList hc, String.ofList_toList]
    constructor
    · intro p hp
      obtain ⟨c, hc, rfl⟩ := (posix_directory hroot hstr.symm).mp hp
      refine @rows_of_name lower cat v _ t now (PurePath.posix root (mount ++ c)).str hnodup ?_ ?_ ?_
      · intro r hr s hs
        obtain ⟨below, hbelow, -, hrpath⟩ := hentry r hr
        rw [hnamed hbelow hrpath] at hs
        obtain ⟨q, hq, rfl⟩ := named_posix hroot hbelow hslashes hs
        rw [hlist hq, pure_path_posix hq, same_posix lower hq hc, and_iff_right rfl, str_toList hc]
        constructor
        · intro heq
          rw [heq]
        · intro heq
          have hchars := (posix_chars hq).trans (heq.trans (posix_chars hc).symm)
          exact (posix_chars_inj hq hc hchars).2
      · intro r hr
        obtain ⟨below, hbelow, -, hrpath⟩ := hentry r hr
        rw [hnamed hbelow hrpath, str_toList hc, mem_named_posix hroot hbelow hslashes hc,
          is_beneath_posix hc hbelow hrpath]
      · rw [hmount, str_toList hc, depth_within_text (below_components hc), depth_below, hpath]
        show c.length = (mount ++ c).length - mount.length
        rw [List.length_append, Nat.add_sub_cancel_left]
    · intro row hrow hmine
      obtain ⟨r, hr, hs⟩ := named_of_row t now hnodup hrow hmine
      obtain ⟨below, hbelow, -, hrpath⟩ := hentry r hr
      rw [hnamed hbelow hrpath] at hs
      obtain ⟨q, hq, heq⟩ := named_posix hroot hbelow hslashes hs
      have hrow_path : row.path = (PurePath.posix root (mount ++ q)).str := by
        rw [← hlist hq, ← heq, String.ofList_toList]
      rw [hrow_path, pure_path_posix hq]
      exact (posix_directory hroot hstr.symm).mpr ⟨q, hq, rfl⟩

/-! ## Entries no deeper than the mountpoint's children -/

theorem depth_within_self (mount : List Char) : depth_within mount mount = 0 := by
  rw [depth_within, List.drop_length]
  rfl

theorem steps_length (lower : String → String) (p : PurePath) : (steps lower p).length = p.tail.length := by
  cases p with
  | posix root names => rfl
  | windows drive root names => exact List.length_map _

/-- An entry that names the mountpoint, unless it is at the mountpoint. -/
def Shallow (v : Volume) (r : FsEntryRow) : Prop :=
  named v r = if r.path = v.mountpoint then [] else [v.mountpoint.toList]

variable {drive : List Char}

/-- Below a Windows mountpoint paths are Windows paths. -/
theorem windows_entry (hpath : pure_path v.mountpoint = .windows drive root mount) (h : AtOrBelow lower cat v)
    (hr : r ∈ present_rows cat v.id) :
    ∃ drive' root' names', pure_path r.path = .windows drive' root' names' ∧ IsWindows drive' root' names' := by
  have hnormal := (h.rows r hr).1.normal
  have hwithin := (h.rows r hr).1.within
  rw [hpath] at hwithin
  cases hentry : pure_path r.path with
  | posix root' names' =>
      rw [hentry, not_within_flavour.2] at hwithin
      cases hwithin
  | windows drive' root' names' =>
      rw [hentry] at hnormal
      cases hnormal with
      | windows hwindows => exact ⟨_, _, _, rfl, hwindows⟩

/-- Windows paths have no slash to be taken apart at. -/
theorem shallow_windows (hpath : pure_path v.mountpoint = .windows drive root mount) (h : AtOrBelow lower cat v)
    (hr : r ∈ present_rows cat v.id) : Shallow v r := by
  obtain ⟨-, hstr⟩ := h.rows r hr
  obtain ⟨drive', root', names', hentry, hwindows⟩ := windows_entry hpath h hr
  have hslash : '/' ∉ r.path.toList := by
    rw [← hstr, hentry, PurePath.str, String.toList_ofList, windows_chars hwindows]
    exact hwindows.not_slash
  have hno : ¬rstrip v.mountpoint.toList ++ ['/'] <+: r.path.toList := fun hprefix =>
    hslash ( hprefix.subset (List.mem_append_right _ List.mem_cons_self))
  rw [Shallow, named, ancestor_dirs, if_pos (Or.inr hno)]
  by_cases heq : r.path = v.mountpoint
  · rw [if_pos heq, if_pos (congrArg String.toList heq)]
  · rw [if_neg heq, if_neg fun htext => heq (String.toList_injective htext)]

/-- A child of a POSIX mountpoint names it. -/
theorem shallow_posix (hlower : Lowers lower) (hroot : IsPosix root mount)
    (hpath : pure_path v.mountpoint = .posix root mount) (h : AtOrBelow lower cat v) (hr : r ∈ present_rows cat v.id)
    (hregular : r.path = v.mountpoint ∨ is_child lower (pure_path v.mountpoint) r = true) : Shallow v r := by
  obtain ⟨below, hbelow, hentry, hrpath⟩ := posix_entry hroot hpath h hr
  have hmount : v.mountpoint.toList = posix_text root mount := by rw [← h.mountpoint, hpath, str_toList hroot]
  rw [Shallow, named]
  by_cases heq : r.path = v.mountpoint
  · rw [if_pos heq, heq, ancestor_dirs, if_pos (Or.inl rfl), if_pos rfl]
  · have hchild := hregular.resolve_left heq
    rw [is_child, head_parent_iff hlower h.normal.standing (h.rows r hr).1.normal.standing, hpath, hentry] at hchild
    obtain ⟨-, name, hsteps⟩ := hchild
    have hone : below = [name] := List.append_cancel_left hsteps
    rw [if_neg heq, hrpath, str_toList hbelow, hmount, ancestor_dirs_text hroot (below_components hbelow), hone,
      if_neg (List.cons_ne_nil _ _)]
    rfl

theorem nodup_shallow (h : Shallow v r) : (named v r).Nodup := by
  rw [Shallow] at h
  rw [h]
  split
  · exact List.nodup_nil
  · exact List.nodup_singleton _

theorem mem_named_shallow (h : Shallow v r) : s ∈ named v r ↔ r.path ≠ v.mountpoint ∧ s = v.mountpoint.toList := by
  rw [show named v r = _ from h]
  split
  · rename_i heq
    exact iff_of_false List.not_mem_nil fun hs => hs.1 heq
  · rename_i hne
    rw [List.mem_singleton]
    exact (and_iff_right hne).symm

/-- **With nothing deeper than the mountpoint's children** every directory has the row it
should. -/
theorem rows_shallow (hlower : Lowers lower) (h : AtOrBelow lower cat v) (t : Table SubtreeRollup.key) (now : Instant)
    (hshallow : ∀ r ∈ present_rows cat v.id, Shallow v r)
    (hregular : ∀ r ∈ present_rows cat v.id, r.path = v.mountpoint ∨ is_child lower (pure_path v.mountpoint) r = true) :
    (∀ p, IsDirectory lower v.mountpoint p →
      (rollups_of lower ⟨cat, replace_rollup t cat v now⟩ v p).map (fun r => (r.acc, r.depth))
        = if entries_beneath lower cat v p = [] then []
          else [(totals (entries_beneath lower cat v p), depth_below v p)]) ∧
      ∀ row ∈ (replace_rollup t cat v now).rows, row.volume_id = v.id →
        IsDirectory lower v.mountpoint (pure_path row.path) := by
  have hnodup : ∀ r ∈ present_rows cat v.id, (named v r).Nodup := fun r hr => nodup_shallow (hshallow r hr)
  have hnamed := fun r hr s => mem_named_shallow (s := s) (hshallow r hr)
  -- an entry that is not at the mountpoint is one step below it
  have hsteps : ∀ r ∈ present_rows cat v.id, (r.path = v.mountpoint → steps_of lower r = steps lower (pure_path v.mountpoint)) ∧
      (r.path ≠ v.mountpoint → ∃ name, steps_of lower r = steps lower (pure_path v.mountpoint) ++ [name]) := by
    intro r hr
    refine ⟨fun heq => by rw [steps_of, heq], fun hne => ?_⟩
    have hchild := (hregular r hr).resolve_left hne
    rw [is_child, head_parent_iff hlower h.normal.standing (h.rows r hr).1.normal.standing] at hchild
    exact hchild.2
  constructor
  · intro p hp
    obtain ⟨hstands, hanchor, hbegins⟩ := directory_place hlower h hp
    have hbeneath := fun r hr => @beneath_place lower cat v p r hlower h hstands hanchor hr
    by_cases hsame : PurePath.same lower (pure_path v.mountpoint) p = true
    · have heq := ((same_iff hlower h.normal.standing hstands).mp hsame).2
      refine @rows_of_name lower cat v p t now v.mountpoint hnodup ?_ ?_ ?_
      · intro r hr s hs
        have hs := ((hnamed r hr s).mp hs).2
        rw [hs, String.ofList_toList]
        exact iff_of_true hsame rfl
      · intro r hr
        rw [hnamed r hr, and_iff_left rfl, hbeneath r hr, Totals.beneath_iff, ← heq]
        constructor
        · intro hne
          obtain ⟨name, hname⟩ := (hsteps r hr).2 hne
          exact ⟨[name], List.cons_ne_nil _ _, hname⟩
        · rintro ⟨more, hmore, hname⟩ hpath
          rw [(hsteps r hr).1 hpath] at hname
          exact hmore (List.append_cancel_left (hname.symm.trans (List.append_nil _).symm))
      · rw [depth_within_self, depth_below, ← steps_length lower p, ← heq, steps_length, Nat.sub_self]
    · refine rows_of_none t now hnodup ?_ ?_
      · intro r hr s hs
        rw [((hnamed r hr s).mp hs).2, String.ofList_toList]
        exact eq_false_of_ne_true hsame
      · intro r hr
        rw [hbeneath r hr]
        refine eq_false_of_ne_true fun hunder => ?_
        obtain ⟨more, hmore, hname⟩ := Totals.beneath_iff.mp hunder
        obtain ⟨rest, hrest⟩ := hbegins
        -- beneath p, which is not the mountpoint, an entry would be two steps below
        have hdeep : rest ≠ [] := by
          rintro rfl
          rw [List.append_nil] at hrest
          exact hsame ((same_iff hlower h.normal.standing hstands).mpr ⟨hanchor.symm, hrest⟩)
        have hlen := congrArg List.length hname
        rw [← hrest, List.length_append, List.length_append] at hlen
        have hpos := List.length_pos_of_ne_nil hmore
        have hpos' := List.length_pos_of_ne_nil hdeep
        by_cases hpath : r.path = v.mountpoint
        · rw [(hsteps r hr).1 hpath] at hlen
          omega
        · obtain ⟨name, hone⟩ := (hsteps r hr).2 hpath
          rw [hone, List.length_append, List.length_singleton] at hlen
          omega
  · intro row hrow hmine
    obtain ⟨r, hr, hs⟩ := named_of_row t now hnodup hrow hmine
    have heq : row.path = v.mountpoint := String.toList_injective ((hnamed r hr _).mp hs).2
    rw [heq]
    exact mount_directory hlower h

/-! ## What the sums take -/

/-- Totals count the entries, too. -/
theorem totals_count (rows : List FsEntryRow) : (totals rows).file_count + (totals rows).dir_count = rows.length := by
  induction rows with
  | nil => rfl
  | cons r rows ih =>
      have hone : (contribution r).file_count + (contribution r).dir_count = 1 := by
        rw [contribution]
        cases r.is_dir <;> rfl
      have hsum : totals (r :: rows) = contribution r + totals rows := by
        rw [totals, List.map_cons, List.sum_cons]
        rfl
      rw [hsum, List.length_cons]
      show (contribution r).file_count + (totals rows).file_count + ((contribution r).dir_count + (totals rows).dir_count) = _
      omega

/-- What is above a normal Windows path is normal. -/
theorem normal_parent_windows {names : List Name} (h : IsWindows drive root names) {q : PurePath}
    (hq : q ∈ (PurePath.windows drive root names).parents) : IsNormal q := by
  obtain ⟨n, hn, rfl⟩ := List.mem_map.mp hq
  rw [List.mem_reverse, List.mem_range] at hn
  have hnormal : ∀ name ∈ names.take n, IsComponent '\\' name := fun name hname => h.normal name (List.mem_of_mem_take hname)
  have hslash : ∀ name ∈ names.take n, '/' ∉ name := fun name hname => h.no_slash name (List.mem_of_mem_take hname)
  have hanchor := h.anchor
  rcases h.anchor.root_eq with rfl | rfl
  · exact .windows ⟨hanchor, fun hnil => absurd hnil (List.cons_ne_nil _ _), hnormal, hslash,
      windows_path_rooted hanchor hnormal hslash⟩
  · rw [h.bare rfl] at hn
    exact absurd hn (Nat.not_lt_zero n)

/-- Below `//` an entry names a path that is no directory of the volume, unless it is a
child of the mountpoint. -/
theorem regular_slashes (hlower : Lowers lower) (h : AtOrBelow lower cat v) (t : Table SubtreeRollup.key)
    (now : Instant) (hpath : pure_path v.mountpoint = .posix root mount) (hroot : IsPosix root mount)
    (hslashes : v.mountpoint = "//") (hrolled : RolledUp lower ⟨cat, replace_rollup t cat v now⟩ v)
    (hr : r ∈ present_rows cat v.id) : r.path = v.mountpoint ∨ is_child lower (pure_path v.mountpoint) r = true := by
  have hmount : v.mountpoint = (PurePath.posix root mount).str := by rw [← hpath, h.mountpoint]
  obtain ⟨rfl, rfl⟩ := (mountpoint_slashes_iff hroot hmount).mp hslashes
  have hnodup : ∀ r ∈ present_rows cat v.id, (named v r).Nodup := by
    intro r hr
    obtain ⟨below, hbelow, -, hrpath⟩ := posix_entry hroot hpath h hr
    rw [named, hrpath, str_toList hbelow, hmount, str_toList hroot]
    exact nodup_ancestor_dirs hroot (below_components hbelow)
  obtain ⟨below, hbelow, hentry, hrpath⟩ := posix_entry hroot hpath h hr
  have hcomponents := below_components hbelow
  rcases below with _ | ⟨x, _ | ⟨y, rest⟩⟩
  · exact Or.inl (hrpath.trans hmount.symm)
  · refine Or.inr ((head_parent_iff hlower h.normal.standing (h.rows r hr).1.normal.standing).mpr ?_)
    rw [hpath, hentry]
    exact ⟨rfl, x, rfl⟩
  · -- the first directory is named with one slash
    have hx : ∀ name ∈ [x], IsComponent '/' name := fun n hn =>
      hcomponents n (List.mem_cons.mpr (Or.inl (List.mem_singleton.mp hn)))
    have hnamed : posix_text ['/'] [x] ∈ named v r := by
      rw [named, hrpath, str_toList hbelow, hmount, str_toList hroot, ancestor_dirs_text hroot hcomponents,
        if_neg (List.cons_ne_nil _ _)]
      refine List.mem_cons_of_mem _ (mem_descend.mpr ⟨[x], List.cons_ne_nil _ _, ⟨(y :: rest).dropLast, rfl⟩, rfl⟩)
    have hsingle : IsPosix ['/'] [x] := ⟨Or.inl rfl, hx⟩
    have hdirectory := hrolled.directories _ (row_of_named t now hnodup hr hnamed) rfl
    have htext : String.ofList (posix_text ['/'] [x]) = (PurePath.posix ['/'] [x]).str := by
      rw [← str_toList hsingle, String.ofList_toList]
    rw [rollup_row] at hdirectory
    dsimp only at hdirectory
    rw [htext, pure_path_posix hsingle] at hdirectory
    obtain ⟨c, -, heq⟩ := (posix_directory hroot hmount).mp hdirectory
    exact absurd (PurePath.posix.inj heq).1 (by decide)

/-- On Windows an entry names the mountpoint only: a deeper one leaves its parent without
a row, and one that spells the mountpoint in another way is counted beneath it. -/
theorem regular_windows (hlower : Lowers lower) (h : AtOrBelow lower cat v) (t : Table SubtreeRollup.key)
    (now : Instant) (hpath : pure_path v.mountpoint = .windows drive root mount)
    (hrolled : RolledUp lower ⟨cat, replace_rollup t cat v now⟩ v) (hr : r ∈ present_rows cat v.id) :
    r.path = v.mountpoint ∨ is_child lower (pure_path v.mountpoint) r = true := by
  have hshallow : ∀ r ∈ present_rows cat v.id, Shallow v r := fun r hr => shallow_windows hpath h hr
  have hnodup : ∀ r ∈ present_rows cat v.id, (named v r).Nodup := fun r hr => nodup_shallow (hshallow r hr)
  have hnamed := fun r hr s => mem_named_shallow (s := s) (hshallow r hr)
  obtain ⟨hstands, hanchor, below, hsteps⟩ := directory_place hlower h (h.rows r hr).1
  by_contra hirregular
  obtain ⟨hne, hchild⟩ := not_or.mp hirregular
  rw [is_child, head_parent_iff hlower h.normal.standing hstands] at hchild
  rcases below with _ | ⟨x, _ | ⟨y, rest⟩⟩
  · -- the mountpoint, in another spelling
    rw [List.append_nil] at hsteps
    have hmount := mount_directory hlower h
    have hbeneath := fun r hr => @beneath_place lower cat v _ r hlower h h.normal.standing rfl hr
    have hself : is_beneath lower (pure_path v.mountpoint) r = false := by
      rw [hbeneath r hr, steps_of, ← hsteps]
      refine eq_false_of_ne_true fun hunder => ?_
      obtain ⟨more, hmore, heq⟩ := Totals.beneath_iff.mp hunder
      exact hmore (List.append_cancel_left (heq.symm.trans (List.append_nil _).symm))
    have hcounted : ∀ r' ∈ present_rows cat v.id, is_beneath lower (pure_path v.mountpoint) r' = true →
        r'.path ≠ v.mountpoint := by
      intro r' hr' hunder heq
      rw [hbeneath r' hr', steps_of, heq] at hunder
      obtain ⟨more, hmore, hmount_eq⟩ := Totals.beneath_iff.mp hunder
      exact hmore (List.append_cancel_left (hmount_eq.symm.trans (List.append_nil _).symm))
    have hin : v.mountpoint.toList ∈ named v r := (hnamed r hr _).mpr ⟨hne, rfl⟩
    have hrow := row_of_named t now hnodup hr hin
    rw [String.ofList_toList] at hrow
    have hmine : _ ∈ rollups_of lower ⟨cat, replace_rollup t cat v now⟩ v (pure_path v.mountpoint) :=
      List.mem_filter.mpr ⟨hrow, decide_eq_true ⟨rfl, (same_iff hlower h.normal.standing h.normal.standing).mpr ⟨rfl, rfl⟩⟩⟩
    have hrows := List.mem_map_of_mem (f := fun r : SubtreeRollup => (r.acc, r.depth)) hmine
    rw [hrolled.rows _ hmount] at hrows
    split at hrows
    · exact absurd hrows List.not_mem_nil
    · have hacc : totals (beneath (present_rows cat v.id) v.mountpoint v.mountpoint)
          = totals (entries_beneath lower cat v (pure_path v.mountpoint)) :=
        congrArg Prod.fst (List.mem_singleton.mp hrows)
      have hlen := totals_count (beneath (present_rows cat v.id) v.mountpoint v.mountpoint)
      rw [hacc, totals_count] at hlen
      -- all that is beneath is counted, and the entry as well
      have hsub : entries_beneath lower cat v (pure_path v.mountpoint)
          = (beneath (present_rows cat v.id) v.mountpoint v.mountpoint).filter (is_beneath lower (pure_path v.mountpoint)) := by
        rw [entries_beneath, beneath, List.filter_filter]
        refine List.filter_congr fun r' hr' => ?_
        rw [Bool.eq_iff_iff, Bool.and_eq_true, decide_eq_true_eq]
        exact ⟨fun hunder => ⟨hunder, (hnamed r' hr' _).mpr ⟨hcounted r' hr' hunder, rfl⟩⟩, fun hboth => hboth.1⟩
      have hthere : r ∈ beneath (present_rows cat v.id) v.mountpoint v.mountpoint :=
        List.mem_filter.mpr ⟨hr, decide_eq_true hin⟩
      have hnot : ¬is_beneath lower (pure_path v.mountpoint) r = true := by
        rw [hself]
        exact Bool.false_ne_true
      have hfewer := List.length_filter_lt_length_iff_exists.mpr ⟨r, hthere, hnot⟩
      rw [← hsub] at hfewer
      omega
  · exact hchild ⟨hanchor, x, hsteps.symm⟩
  · -- an entry with a directory between it and the mountpoint
    have hsome : steps lower (pure_path r.path) ≠ [] := by
      rw [← hsteps]
      exact List.append_ne_nil_of_right_ne_nil _ (List.cons_ne_nil _ _)
    obtain ⟨q, hq⟩ := exists_head_parent hsome
    have hq_mem := List.mem_of_mem_head? hq
    obtain ⟨name, hname⟩ := head_parent lower hq
    obtain ⟨hq_stands, hq_anchor, -⟩ := parent_stands lower hstands hq_mem
    have hlen : (steps lower q).length + 1 = (steps lower (pure_path v.mountpoint)).length + (rest.length + 2) := by
      have hlen := congrArg List.length (hname.symm.trans hsteps.symm)
      rw [List.length_append, List.length_append, List.length_singleton, List.length_cons, List.length_cons] at hlen
      exact hlen
    have hq_normal : IsNormal q := by
      obtain ⟨drive', root', names', hentry, hwindows⟩ := windows_entry hpath h hr
      rw [hentry] at hq_mem
      exact normal_parent_windows hwindows hq_mem
    have hq_directory : IsDirectory lower v.mountpoint q := by
      refine ⟨hq_normal, (within_iff hlower h.normal.standing hq_stands).mpr ⟨hq_anchor.trans hanchor, ?_⟩⟩
      refine List.prefix_of_prefix_length_le ⟨_, hsteps⟩ ⟨[name], hname.symm⟩ ?_
      omega
    have hbeneath : r ∈ entries_beneath lower cat v q := by
      refine List.mem_filter.mpr ⟨hr, ?_⟩
      rw [beneath_place hlower h hq_stands (hq_anchor.trans hanchor) hr, Totals.beneath_iff]
      exact ⟨[name], List.cons_ne_nil _ _, hname⟩
    have hrows := hrolled.rows q hq_directory
    rw [if_neg (List.ne_nil_of_mem hbeneath)] at hrows
    obtain ⟨row, hrow, -⟩ := List.mem_map.mp (hrows ▸ List.mem_singleton.mpr rfl :
      (totals (entries_beneath lower cat v q), depth_below v q) ∈ (rollups_of _ _ v q).map _)
    obtain ⟨hin, hmine⟩ := List.mem_filter.mp hrow
    obtain ⟨hvolume, hsame⟩ := of_decide_eq_true hmine
    obtain ⟨r', hr', hs⟩ := named_of_row t now hnodup hin hvolume
    have heq : row.path = v.mountpoint := String.toList_injective ((hnamed r' hr' _).mp hs).2
    rw [heq, same_iff hlower h.normal.standing hq_stands] at hsame
    rw [← hsame.2] at hlen
    omega

end

/-- A file two levels below the mountpoint of a Windows volume. -/
def deep_windows_file : IngestBatch :=
  { batch_at "C:\\" with entries := [{ sample_entry "f" 7 2 10 with path := "C:\\d\\f" }] }

/-- The tables after a batch. -/
def ingested (batch : IngestBatch) : Database := ⟨(archived [batch]).cat, .empty _⟩

/-- A directory of `C:\`, written by its names. -/
theorem windows_directory {names : List Name}
    (hnormal : ∀ name ∈ names, name ≠ [] ∧ name ≠ ['.'] ∧ name ≠ ['.', '.'] ∧ '\\' ∉ name ∧ '/' ∉ name)
    (hpath : windows_path (['C', ':'] ++ ['\\'] ++ join '\\' names) = .windows ['C', ':'] ['\\'] names)
    (hwithin : PurePath.within id (pure_path "C:\\") (.windows ['C', ':'] ['\\'] names) = true) :
    IsDirectory id "C:\\" (.windows ['C', ':'] ['\\'] names) := by
  refine ⟨.windows ⟨.letter 'C' (by decide) (by decide), fun hroot => absurd hroot (List.cons_ne_nil _ _), ?_, ?_, hpath⟩,
    hwithin⟩
  · intro name hname
    obtain ⟨hnil, hdot, hparent, hsep, -⟩ := hnormal name hname
    exact ⟨hnil, hdot, hparent, hsep⟩
  · intro name hname
    exact (hnormal name hname).2.2.2.2

end Fathom.Read
