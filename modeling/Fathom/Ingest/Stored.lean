/-
**What ingest stores of a metadata batch** (`IngestService._upsert_entries`).

The upsert is guarded: a stored row is rewritten when the entry's `mtime` or size
differs from it, or when it is not present. The guard reads none of the other
columns, so a file that was renamed, moved or given another owner with its `mtime`
and size untouched keeps its old row. The module doc of `core/incremental.py`
takes the opposite for granted: there a rename "is just a MODIFY upsert on the
existing inode".

`ingest_stores` is the exact condition under which the catalogue holds what the
batch said.
-/
import Fathom.Ingest.Service

set_option autoImplicit false

namespace Fathom.Ingest

open Fathom.Security (PurePath validate_agent_path path_depth)

/-! ## One file -/

/-- Whatever the row was, after a metadata upsert it is present. -/
theorem stored_present (before : Option FsEntryRow) (host_id volume_id snapshot_id : ℕ) (v : VettedRow) :
    (Table.stored (entry_conflict .metadata) before (entry_row host_id volume_id snapshot_id v)).present = true := by
  rcases before with _ | row
  · rfl
  · show (if entry_guard .metadata row _ then entry_set .metadata row _ else row).present = true
    split
    · rfl
    · rename_i hguard
      by_contra hpresent
      exact hguard (entry_guard_iff.mpr (Or.inr (Or.inr (Bool.eq_false_iff.mpr hpresent))))

section

variable (t : Table FsEntryRow.key) (host_id volume_id snapshot_id : ℕ) {rows : List VettedRow}

theorem nodup_entry_rows (hnd : (rows.map VettedRow.identity).Nodup) :
    ((rows.map (entry_row host_id volume_id snapshot_id)).map FsEntryRow.key).Nodup := by
  rw [map_entry_row_key]
  have hinj : Function.Injective fun i : Identity => (⟨host_id, volume_id, i⟩ : EntryKey) := by
    intro i j h
    exact (EntryKey.mk.inj h).2.2
  have := hnd.map hinj
  rw [List.map_map] at this
  exact this

/-- The row of a file of the batch once the upsert has run. -/
theorem find_upsert_entries (mode : Mode) (hnd : (rows.map VettedRow.identity).Nodup) {v : VettedRow} (hv : v ∈ rows) :
    (upsert_entries t host_id volume_id snapshot_id mode rows).find ⟨host_id, volume_id, v.identity⟩
      = some (Table.stored (entry_conflict mode) (t.find ⟨host_id, volume_id, v.identity⟩)
          (entry_row host_id volume_id snapshot_id v)) := by
  have hmem : entry_row host_id volume_id snapshot_id v ∈
      rows.map (entry_row host_id volume_id snapshot_id) := List.mem_map_of_mem hv
  exact Table.find_upsert_many_mem (entry_conflict mode) (nodup_entry_rows _ _ _ hnd) hmem

/-- The row of a file of a metadata batch: what the upsert stored, removed again
when the batch removes it as well. -/
theorem find_apply_metadata (removed_keys : List RemovedKey) (log_changes : Bool) (now : Instant)
    (hnd : (rows.map VettedRow.identity).Nodup) {v : VettedRow} (hv : v ∈ rows) :
    (apply_batch t host_id volume_id snapshot_id .metadata rows removed_keys log_changes
        now).fs_entry.find ⟨host_id, volume_id, v.identity⟩
      = some (
          let stored := Table.stored (entry_conflict .metadata)
            (t.find ⟨host_id, volume_id, v.identity⟩) (entry_row host_id volume_id snapshot_id v)
          if removal_filter removed_keys v.identity then stored.remove now else stored) := by
  show (mark_removed (upsert_entries t host_id volume_id snapshot_id .metadata rows) host_id volume_id
    removed_keys now).find _ = _
  rw [find_mark_removed, find_upsert_entries t _ _ _ .metadata hnd hv, Option.map_some, Option.some.injEq]
  -- the stored row carries the key it was looked up under and is present
  have hkey := Table.stored_key (c := entry_conflict .metadata) (t := t)
    (entry_row host_id volume_id snapshot_id v)
  have hpresent := stored_present (t.find ⟨host_id, volume_id, v.identity⟩) host_id volume_id
    snapshot_id v
  rw [entry_row_key] at hkey
  generalize Table.stored (entry_conflict .metadata) (t.find ⟨host_id, volume_id, v.identity⟩)
    (entry_row host_id volume_id snapshot_id v) = stored at hkey hpresent ⊢
  rw [FsEntryRow.key, EntryKey.mk.injEq] at hkey
  dsimp only
  by_cases hremoved : removal_filter removed_keys v.identity = true
  · rw [if_pos hremoved, if_pos]
    refine decide_eq_true ⟨hkey.1, hkey.2.1, ?_, hpresent⟩
    rw [hkey.2.2]
    exact hremoved
  · rw [if_neg hremoved, if_neg]
    intro hto
    apply hremoved
    have hto := (of_decide_eq_true hto).2.2.1
    rw [hkey.2.2] at hto
    exact hto

end

/-! ## What an entry says -/

/-- The columns of a row say what an entry says; the path stands in the form in
which it was accepted. -/
structure Says (mount candidate : PurePath) (e : EntryFrame) (r : FsEntryRow) : Prop where
  path : r.path = candidate.str
  name : r.name = e.name
  depth : r.depth = path_depth mount candidate
  size_logical : r.size_logical = e.size_logical
  size_on_disk : r.size_on_disk = e.size_on_disk
  mtime : r.mtime = e.mtime
  ctime : r.ctime = e.ctime
  uid : r.uid = e.uid
  gid : r.gid = e.gid
  present : r.present = true

/-- What the batch's volume and an entry of it are accepted as. -/
structure Accepts (server : Server) (batch : IngestBatch) (mount candidate : PurePath)
    (e : EntryFrame) : Prop where
  mem : e ∈ batch.entries
  mountpoint : validate_agent_path batch.volume.mountpoint = .ok mount
  path : validate_agent_path e.path = .ok candidate
  within : PurePath.within server.lower mount candidate = true

/-- **A batch is stored**: every file it was accepted for has exactly one row in
the volume, and the row says what the entry says. -/
def StoresBatch (server : Server) (batch : IngestBatch) (cat : Catalogue) (host_id volume_id : ℕ) :
    Prop :=
  ∀ mount candidate e, Accepts server batch mount candidate e →
    ∃ r, cat.fs_entry.rows.filter (fun r => r.key = ⟨host_id, volume_id, e.identity⟩) = [r] ∧
      Says mount candidate e r

/-- What a batch must meet for an entry to be stored: the batch does not remove
the file, and the row the file has, if any, is one the guard lets through or one
that needs no rewriting. -/
def Refreshes (cat : Catalogue) (cert_fingerprint : String) (batch : IngestBatch)
    (mount candidate : PurePath) (e : EntryFrame) : Prop :=
  removal_filter batch.removed_keys e.identity = false ∧
    ∀ r, cat.row_of cert_fingerprint batch.volume.mountpoint e.identity = some r →
      r.mtime ≠ e.mtime ∨ r.size_logical ≠ e.size_logical ∨ r.present = false ∨ Says mount candidate e r

variable {e : EntryFrame}

/-- The vetted row of an accepted entry. -/
theorem vet_entry_some {lower : String → String} {mount candidate : PurePath} (mode : Mode) (hashed_at : Instant)
    (hcandidate : validate_agent_path e.path = .ok candidate) (hwithin : PurePath.within lower mount candidate = true) :
    ∃ v, vet_entry lower mount mode hashed_at e = some v ∧ v.identity = e.identity ∧
      v.mtime = e.mtime ∧ v.size_logical = e.size_logical ∧
      ∀ host_id volume_id snapshot_id, Says mount candidate e (entry_row host_id volume_id snapshot_id v) := by
  rw [vet_entry, hcandidate]
  dsimp only
  rw [if_pos hwithin]
  exact ⟨_, rfl, rfl, rfl, rfl, fun _ _ _ => ⟨rfl, rfl, rfl, rfl, rfl, rfl, rfl, rfl, rfl, rfl⟩⟩

theorem vet_entry_identity {lower : String → String} {mount : PurePath} {mode : Mode} {hashed_at : Instant}
    {v : VettedRow} (h : vet_entry lower mount mode hashed_at e = some v) : v.identity = e.identity := by
  rw [vet_entry] at h
  split at h
  · exact absurd h (by simp)
  · split at h
    · rw [← Option.some.inj h]
      rfl
    · exact absurd h (by simp)

/-- Vetting keeps the entries' identities, in order. -/
theorem vet_entries_sublist (lower : String → String) (mount : PurePath) (mode : Mode)
    (hashed_at : Instant) (entries : List EntryFrame) :
    ((vet_entries lower mount mode hashed_at entries).map VettedRow.identity).Sublist
      (entries.map EntryFrame.identity) := by
  induction entries with
  | nil => exact List.Sublist.refl _
  | cons e entries ih =>
      rw [vet_entries]
      rcases hvet : vet_entry lower mount mode hashed_at e with _ | v
      · rw [List.filterMap_cons_none hvet]
        exact ih.cons _
      · rw [List.filterMap_cons_some hvet, List.map_cons, List.map_cons, vet_entry_identity hvet]
        exact ih.cons_cons _

/-- **The guard, exactly**: what the upsert stores says what the entry says when
the row it found was let through or said so already. -/
theorem stored_says_iff {mount candidate : PurePath} {x : FsEntryRow} (hx : Says mount candidate e x)
    (before : Option FsEntryRow) :
    Says mount candidate e (Table.stored (entry_conflict .metadata) before x) ↔ ∀ r, before = some r →
        r.mtime ≠ e.mtime ∨ r.size_logical ≠ e.size_logical ∨ r.present = false ∨ Says mount candidate e r := by
  rcases before with _ | row
  · refine ⟨fun _ r hr => absurd hr (by simp), fun _ => hx⟩
  · show Says mount candidate e (if entry_guard .metadata row x then entry_set .metadata row x else row) ↔ _
    by_cases hguard : entry_guard .metadata row x = true
    · rw [if_pos hguard]
      have hset : Says mount candidate e (entry_set .metadata row x) :=
        ⟨hx.path, hx.name, hx.depth, hx.size_logical, hx.size_on_disk, hx.mtime, hx.ctime, hx.uid,
          hx.gid, hx.present⟩
      refine ⟨fun _ r hr => ?_, fun _ => hset⟩
      rw [← Option.some.inj hr]
      rcases entry_guard_iff.mp hguard with hmtime | hsize | hpresent
      · exact Or.inl fun heq => hmtime (hx.mtime.trans heq.symm)
      · exact Or.inr (Or.inl fun heq => hsize (hx.size_logical.trans heq.symm))
      · exact Or.inr (Or.inr (Or.inl hpresent))
    · rw [if_neg hguard]
      constructor
      · intro htold r hr
        rw [← Option.some.inj hr]
        exact Or.inr (Or.inr (Or.inr htold))
      · intro h
        have hkept : ¬ (x.mtime ≠ row.mtime ∨ x.size_logical ≠ row.size_logical ∨ row.present = false) :=
          fun h => hguard (entry_guard_iff.mpr h)
        rw [hx.mtime, hx.size_logical] at hkept
        rcases h row rfl with hmtime | hsize | hpresent | htold
        · exact absurd (Or.inl hmtime.symm) hkept
        · exact absurd (Or.inr (Or.inl hsize.symm)) hkept
        · exact absurd (Or.inr (Or.inr hpresent)) hkept
        · exact htold

/-! ## The batch -/

/-- The one row a file of an accepted metadata batch has afterwards. -/
theorem commit_row {server : Server} (cat : Catalogue) {batch : IngestBatch} (cert_fingerprint : String) (now : Instant)
    {mount : PurePath} (snapshot : Snapshot) {v : VettedRow} (hmode : batch.mode = .metadata)
    (hnd : (batch.entries.map EntryFrame.identity).Nodup) (he : e ∈ batch.entries)
    (hvet : vet_entry server.lower mount .metadata now e = some v) :
    (commit_batch server cat batch cert_fingerprint now mount snapshot).1.entry
        (cat.host_of batch cert_fingerprint now).id (cat.volume_of batch cert_fingerprint now).id e.identity
      = some (
          let stored := Table.stored (entry_conflict .metadata)
            (cat.row_of cert_fingerprint batch.volume.mountpoint e.identity)
            (entry_row (cat.host_of batch cert_fingerprint now).id
              (cat.volume_of batch cert_fingerprint now).id snapshot.id v)
          if removal_filter batch.removed_keys e.identity then stored.remove now else stored) := by
  have hrows : (vet_entries server.lower mount .metadata now batch.entries).map VettedRow.identity
      |>.Nodup := (vet_entries_sublist _ _ _ _ _).nodup hnd
  have hv : v ∈ vet_entries server.lower mount .metadata now batch.entries :=
    List.mem_filterMap.mpr ⟨e, he, hvet⟩
  rw [← entry_of_commit cat batch cert_fingerprint now, ← vet_entry_identity hvet, Catalogue.entry,
    Catalogue.entry, ← find_apply_metadata _ _ _ _ _ _ _ hrows hv, commit_batch]
  dsimp only
  rw [hmode]

/-- **An entry of an accepted batch is stored** exactly when the batch refreshes
it. -/
theorem commit_says_iff {server : Server} (cat : Catalogue) {batch : IngestBatch} (cert_fingerprint : String)
    (now : Instant) {mount candidate : PurePath} (snapshot : Snapshot) (hmode : batch.mode = .metadata)
    (hnd : (batch.entries.map EntryFrame.identity).Nodup) (hacc : Accepts server batch mount candidate e) :
    (∃ r, (commit_batch server cat batch cert_fingerprint now mount snapshot).1.fs_entry.rows.filter
          (fun r => r.key = ⟨(cat.host_of batch cert_fingerprint now).id,
            (cat.volume_of batch cert_fingerprint now).id, e.identity⟩) = [r] ∧ Says mount candidate e r) ↔
      Refreshes cat cert_fingerprint batch mount candidate e := by
  obtain ⟨v, hvet, hid, hmtime, hsize, htold⟩ :=
    vet_entry_some .metadata now hacc.path hacc.within
  have hrow := commit_row cat cert_fingerprint now snapshot hmode hnd hacc.mem hvet
  rw [Catalogue.entry] at hrow
  rw [Table.filter_key, hrow, Refreshes]
  dsimp only [Option.toList]
  by_cases hremoved : removal_filter batch.removed_keys e.identity = true
  · -- the batch takes the file away again
    rw [if_pos hremoved]
    constructor
    · rintro ⟨r, hr, hsaid⟩
      rw [← List.singleton_injective hr] at hsaid
      exact absurd hsaid.present (by simp [FsEntryRow.remove])
    · rintro ⟨hkept, -⟩
      rw [hremoved] at hkept
      exact absurd hkept (by simp)
  · rw [if_neg hremoved]
    have hiff := stored_says_iff (htold (cat.host_of batch cert_fingerprint now).id
      (cat.volume_of batch cert_fingerprint now).id snapshot.id)
      (cat.row_of cert_fingerprint batch.volume.mountpoint e.identity)
    constructor
    · rintro ⟨r, hr, hsaid⟩
      rw [← List.singleton_injective hr] at hsaid
      exact ⟨Bool.eq_false_iff.mpr hremoved, hiff.mp hsaid⟩
    · rintro ⟨-, hrefresh⟩
      exact ⟨_, rfl, hiff.mpr hrefresh⟩

/-- **Ingest stores what it accepted, exactly when every accepted entry is
refreshed.** -/
theorem ingest_stores {server : Server} {cat cat' : Catalogue} {batch : IngestBatch}
    {cert_fingerprint : String} {now : Instant} {result : IngestResult} (hmode : batch.mode = .metadata)
    (hnd : (batch.entries.map EntryFrame.identity).Nodup)
    (h : ingest server cat batch cert_fingerprint now = .ok (cat', result)) :
    StoresBatch server batch cat' result.host_id result.volume_id ↔
      ∀ mount candidate e, Accepts server batch mount candidate e →
        Refreshes cat cert_fingerprint batch mount candidate e := by
  obtain ⟨mount, snapshot, haccepted, hcommit⟩ := ingest_ok h
  have hmount := (check_batch_ok haccepted.checked).1
  have hcat : cat' = (commit_batch server cat batch cert_fingerprint now mount snapshot).1 := by
    rw [hcommit]
  have hresult : result = (commit_batch server cat batch cert_fingerprint now mount snapshot).2 := by
    rw [hcommit]
  rw [hcat, hresult, StoresBatch]
  refine forall_congr' fun mount' => forall_congr' fun candidate => forall_congr' fun e => ?_
  refine imp_congr_right fun hacc => ?_
  -- the mountpoint validates to one path
  have hsame : mount' = mount := Except.ok.inj (hacc.mountpoint.symm.trans hmount)
  rw [hsame] at hacc ⊢
  exact commit_says_iff cat cert_fingerprint now snapshot hmode hnd hacc

/-- A file seen for the first time is stored. -/
theorem ingest_stores_new_file :
    StoresBatch sample_server (sample_batch .metadata [sample_entry "a" 7 1 10] [])
      (after .empty (sample_batch .metadata [sample_entry "a" 7 1 10] []) 0) 1 1 := by
  refine (@ingest_stores sample_server .empty _ _ "fp" 0 ⟨1, 1, 1, 1, 0, 0, 1⟩ rfl (by decide)
    (by rfl)).mpr ?_
  intro mount candidate e hacc
  refine ⟨by rfl, ?_⟩
  intro r hr
  exact absurd hr (by simp [Catalogue.row_of, Catalogue.empty])

/-- A file of the volume renamed, its `mtime` and size as they were. -/
theorem ingest_keeps_old_name :
    ¬ ∀ (server : Server) (cat cat' : Catalogue) (batch : IngestBatch) (cert_fingerprint : String)
        (now : Instant) (result : IngestResult), batch.mode = .metadata →
      (batch.entries.map EntryFrame.identity).Nodup →
      ingest server cat batch cert_fingerprint now = .ok (cat', result) →
      StoresBatch server batch cat' result.host_id result.volume_id := by
  intro hall
  have hstored := hall sample_server
    (after .empty (sample_batch .metadata [sample_entry "a" 7 1 10] []) 0) _
    (sample_batch .metadata [sample_entry "b" 7 1 10] []) "fp" 1 ⟨2, 1, 1, 1, 0, 0, 0⟩ rfl
    (by decide) (by rfl)
  obtain ⟨r, hr, htold⟩ := hstored (.posix ['/'] [['m']]) (.posix ['/'] [['m'], ['b']])
    (sample_entry "b" 7 1 10) ⟨List.mem_singleton.mpr rfl, by rfl, by rfl, by decide⟩
  -- the one row still has the old name
  have hname : r.name = "a" := by
    have := congrArg (List.map FsEntryRow.name) hr
    exact (List.singleton_injective (this.symm.trans (by rfl)))
  rw [htold.name] at hname
  exact absurd hname (by decide)

end Fathom.Ingest
