/-
**Ingest is idempotent**: a batch whose acknowledgement was lost is sent again,
and the second ingest changes nothing.

On a metadata batch the first ingest leaves every file of the batch present with
the entry's `mtime` and size, so the guard refuses the second upsert and the
classifier sees no change; the removed rows are not present, so nothing is removed
twice. A full-bit batch writes the same columns once more. What may differ are a
row's snapshot reference and its `hashed_at` stamp.

Removals are read back by their time stamp, so the second ingest must not read a
time that some row already carries: the clock has moved on.
-/
import Fathom.Ingest.Stored

set_option autoImplicit false

namespace Fathom.Ingest

open Fathom.Security (PurePath validate_agent_path)

/-- No row was removed at this time. -/
def Catalogue.Fresh (cat : Catalogue) (now : Instant) : Prop :=
  ∀ r ∈ cat.fs_entry.rows, r.removed_at ≠ some now

/-- A row up to its snapshot reference and the time it was hashed. -/
def FsEntryRow.settled (r : FsEntryRow) : FsEntryRow :=
  { r with last_seen_snapshot_id := none, hashed_at := none }

/-! ## The second time round -/

/-- The second ingest works on the same host. -/
theorem host_of_again (server : Server) (cat : Catalogue) (batch : IngestBatch)
    (cert_fingerprint : String) (now now' : Instant) (mount : PurePath) (snapshot : Snapshot) :
    ((commit_batch server cat batch cert_fingerprint now mount snapshot).1.host_of batch cert_fingerprint
      now').id = (cat.host_of batch cert_fingerprint now).id := by
  refine host_row_id ?_
  have hput := Table.find_put_self cat.hosts (cat.host_of batch cert_fingerprint now)
  rw [Catalogue.host_of, host_row_fingerprint] at hput
  exact hput

/-- And on the same volume, as the first one left it. -/
theorem volume_of_again (server : Server) (cat : Catalogue) (batch : IngestBatch)
    (cert_fingerprint : String) (now now' : Instant) (mount : PurePath) (snapshot : Snapshot) :
    ((commit_batch server cat batch cert_fingerprint now mount snapshot).1.volume_of batch cert_fingerprint
      now').id = (cat.volume_of batch cert_fingerprint now).id := by
  rw [Catalogue.volume_of, host_of_again]
  exact upsert_volume_id (Table.find_put_self cat.volumes (cat.volume_of batch cert_fingerprint now))

/-- A snapshot the first ingest resolved is resolved again. -/
theorem resolve_again {snapshots : Table Snapshot.id} {host_id volume_id : ℕ} {batch : IngestBatch}
    {snapshot : Snapshot} (h : resolve_snapshot snapshots host_id volume_id batch = .ok snapshot) :
    ∃ snapshot', resolve_snapshot (snapshots.put snapshot) host_id volume_id batch = .ok snapshot' := by
  rw [resolve_snapshot] at h ⊢
  split at h
  · rename_i id hid
    split at h
    · exact absurd h (by simp)
    rename_i snap hsnap
    split at h
    · exact absurd h (by simp)
    rename_i hown
    obtain rfl := Except.ok.inj h
    have hkey : snap.id = id := Table.key_of_find hsnap
    refine ⟨snap, ?_⟩
    rw [← hkey, Table.find_put_self]
    dsimp only
    rw [if_neg hown]
  · exact ⟨_, rfl⟩

theorem upsert_not_refused {server : Server} {t : Table FsEntryRow.key}
    {host_id volume_id snapshot_id : ℕ} {mode : Mode} {rows : List VettedRow}
    (hnd : (rows.map VettedRow.identity).Nodup) :
    upsert_refused server t host_id volume_id snapshot_id mode rows = false := by
  rw [upsert_refused, Table.affects_twice_of_nodup _ (nodup_entry_rows _ _ _ hnd) fun _ _ => List.not_mem_nil]
  exact decide_eq_false fun h => absurd h.2 Bool.false_ne_true

/-- What is accepted is accepted again. -/
theorem accepted_again {server : Server} {cat : Catalogue} {batch : IngestBatch}
    {cert_fingerprint : String} {now : Instant} {mount : PurePath} {snapshot : Snapshot}
    (hnd : (batch.entries.map EntryFrame.identity).Nodup)
    (h : Accepted server cat batch cert_fingerprint now mount snapshot) (now' : Instant) :
    ∃ snapshot', Accepted server (commit_batch server cat batch cert_fingerprint now mount snapshot).1 batch
      cert_fingerprint now' mount snapshot' := by
  obtain ⟨snapshot', hresolved⟩ := resolve_again h.resolved
  refine ⟨snapshot', h.checked, ?_, ?_, ?_⟩
  · -- the host is known by now
    rintro ⟨hnone, -⟩
    have hput := Table.find_put_self cat.hosts (cat.host_of batch cert_fingerprint now)
    rw [Catalogue.host_of, host_row_fingerprint] at hput
    exact absurd (hput.symm.trans hnone) (by simp)
  · rw [host_of_again, volume_of_again]
    exact hresolved
  · exact upsert_not_refused ((vet_entries_sublist _ _ _ _ _).nodup hnd)

/-! ## Metadata -/

/-- Without hashes there is nothing to stamp. -/
theorem vet_entries_metadata (lower : String → String) (mount : PurePath) (now now' : Instant)
    (entries : List EntryFrame) :
    vet_entries lower mount .metadata now' entries = vet_entries lower mount .metadata now entries := rfl

/-- A file of the batch after the first ingest: present, with the entry's `mtime`
and size. -/
theorem stored_same (before : Option FsEntryRow) {x : FsEntryRow} (hx : x.present = true) :
    let r := Table.stored (entry_conflict .metadata) before x
    r.present = true ∧ r.mtime = x.mtime ∧ r.size_logical = x.size_logical := by
  rcases before with _ | row
  · exact ⟨hx, rfl, rfl⟩
  · show let r := if entry_guard .metadata row x then entry_set .metadata row x else row
      r.present = true ∧ r.mtime = x.mtime ∧ r.size_logical = x.size_logical
    by_cases hguard : entry_guard .metadata row x = true
    · rw [if_pos hguard]
      exact ⟨hx, rfl, rfl⟩
    · rw [if_neg hguard]
      have hkept : ¬ (x.mtime ≠ row.mtime ∨ x.size_logical ≠ row.size_logical ∨ row.present = false) :=
        fun h => hguard (entry_guard_iff.mpr h)
      rw [not_or, not_or, not_not, not_not, Bool.not_eq_false] at hkept
      exact ⟨hkept.2.2, hkept.1.symm, hkept.2.1.symm⟩

section

variable {host_id volume_id : ℕ} {rows : List VettedRow} {removed_keys : List RemovedKey}

/-- A table that has taken a batch in: its files are present as the entries say,
and none of its removals is. -/
structure Absorbed (t : Table FsEntryRow.key) (host_id volume_id : ℕ) (rows : List VettedRow)
    (removed_keys : List RemovedKey) : Prop where
  rows : ∀ v ∈ rows, ∃ r, t.find ⟨host_id, volume_id, v.identity⟩ = some r ∧ r.present = true ∧
    r.mtime = v.mtime ∧ r.size_logical = v.size_logical
  removed : ∀ r ∈ t.rows, to_remove host_id volume_id removed_keys r = false

/-- Applying a batch that removes none of its files takes it in. -/
theorem apply_metadata_absorbed (t : Table FsEntryRow.key) (host_id volume_id snapshot_id : ℕ)
    (log_changes : Bool) (now : Instant) (hnd : (rows.map VettedRow.identity).Nodup)
    (hkept : ∀ v ∈ rows, removal_filter removed_keys v.identity = false) :
    Absorbed (apply_batch t host_id volume_id snapshot_id .metadata rows removed_keys log_changes
      now).fs_entry host_id volume_id rows removed_keys where
  rows := by
    intro v hv
    have hfind := find_apply_metadata t host_id volume_id snapshot_id removed_keys log_changes now hnd hv
    rw [hkept v hv, if_neg Bool.false_ne_true] at hfind
    exact ⟨_, hfind, stored_same _ rfl⟩
  removed := by
    intro r hr
    obtain ⟨r', -, rfl⟩ := List.mem_map.mp hr
    by_cases hto : to_remove host_id volume_id removed_keys r' = true
    · -- a flipped row is not present
      rw [if_pos hto]
      exact decide_eq_false fun h => absurd h.2.2.2 Bool.false_ne_true
    · rw [if_neg hto]
      exact Bool.eq_false_iff.mpr hto

/-- An entry the table has taken in is no change. -/
theorem Absorbed.entry_churn {t : Table FsEntryRow.key}
    (h : Absorbed t host_id volume_id rows removed_keys) (now : Instant) {v : VettedRow} (hv : v ∈ rows) :
    entry_churn volume_id now (snapshot_prior t host_id volume_id (rows.map VettedRow.inode)) v = none := by
  obtain ⟨r, hfind, hpresent, hmtime, hsize⟩ := h.rows v hv
  have hprior : prior_of (snapshot_prior t host_id volume_id (rows.map VettedRow.inode)) v.identity
      = some (PriorState.of r) := by
    have hmem : v.identity.inode ∈ rows.map VettedRow.inode := List.mem_map_of_mem hv
    rw [prior_of_snapshot hmem, hfind, Option.map_some]
  have hclass : classify (some (PriorState.of r)) v.size_logical v.mtime = none := by
    rw [classify, PriorState.of, if_neg (by rw [hpresent]; simp), if_neg]
    rintro (hne | hne)
    · exact hne hsize
    · exact hne hmtime
  rw [Ingest.entry_churn, hprior, hclass, Option.map_none]

/-- **A batch applied to a table that has taken it in** changes nothing and writes
no churn, provided the time is new. -/
theorem Absorbed.apply {t : Table FsEntryRow.key} (h : Absorbed t host_id volume_id rows removed_keys)
    (snapshot_id : ℕ) (log_changes : Bool) {now : Instant} (hfresh : ∀ r ∈ t.rows, r.removed_at ≠ some now) :
    (apply_batch t host_id volume_id snapshot_id .metadata rows removed_keys log_changes now).fs_entry = t ∧
      (apply_batch t host_id volume_id snapshot_id .metadata rows removed_keys log_changes now).churn = [] := by
  have hwritten : upsert_entries t host_id volume_id snapshot_id .metadata rows = t := by
    refine Table.upsert_many_unaffected fun x hx => ?_
    obtain ⟨v, hv, rfl⟩ := List.mem_map.mp hx
    obtain ⟨r, hfind, hpresent, hmtime, hsize⟩ := h.rows v hv
    refine ⟨r, hfind, Bool.eq_false_iff.mpr fun hguard => ?_⟩
    rcases entry_guard_iff.mp hguard with hne | hne | hne
    · exact hne hmtime.symm
    · exact hne hsize.symm
    · exact absurd (hpresent.symm.trans hne) (by simp)
  have hmarked : mark_removed t host_id volume_id removed_keys now = t :=
    Table.update_none h.removed
  have hentries : rows.filterMap (Ingest.entry_churn volume_id now
      (snapshot_prior t host_id volume_id (rows.map VettedRow.inode))) = [] :=
    List.filterMap_eq_nil_iff.mpr fun v hv => h.entry_churn now hv
  have hremovals : removal_churn t host_id volume_id removed_keys now = [] := by
    rw [removal_churn, List.map_eq_nil_iff, List.filter_eq_nil_iff]
    intro r hr hnow
    exact hfresh r hr (of_decide_eq_true hnow).2.2.2
  show (reconcile (upsert_entries t host_id volume_id snapshot_id .metadata rows) host_id volume_id rows _ _ _
      _).fs_entry = t ∧ (reconcile (upsert_entries t host_id volume_id snapshot_id .metadata rows) host_id
      volume_id rows _ _ _ _).churn = []
  rw [hwritten, reconcile, hmarked, hentries, hremovals, List.append_nil, ite_self]
  exact ⟨rfl, rfl⟩

end

/-! ## Full-bit -/

/-- An entry vetted at another time: the stamp apart, the same row. -/
theorem vet_entry_at {lower : String → String} {mount : PurePath} {mode : Mode} (now : Instant)
    {now' : Instant} {e : EntryFrame} {v : VettedRow} (h : vet_entry lower mount mode now' e = some v) :
    ∃ w, vet_entry lower mount mode now e = some w ∧ w.identity = v.identity ∧
      ∀ host_id volume_id snapshot_id snapshot_id', (entry_row host_id volume_id snapshot_id w).settled
          = (entry_row host_id volume_id snapshot_id' v).settled := by
  rw [vet_entry] at h ⊢
  split at h
  · exact absurd h (by simp)
  split at h
  · rename_i hwithin
    rw [if_pos hwithin, ← Option.some.inj h]
    exact ⟨_, rfl, rfl, fun _ _ _ _ => rfl⟩
  · exact absurd h (by simp)

/-- Writing the same columns once more shows in no column. -/
theorem settled_again (before : Option FsEntryRow) {x y : FsEntryRow} (h : x.settled = y.settled) :
    ((entry_conflict .fullbit).resolve (Table.stored (entry_conflict .fullbit) before x) y).settled
      = (Table.stored (entry_conflict .fullbit) before x).settled := by
  cases x
  cases y
  simp only [FsEntryRow.settled, FsEntryRow.mk.injEq] at h
  obtain ⟨rfl, rfl, rfl, rfl, rfl, rfl, rfl, rfl, rfl, rfl, rfl, rfl, rfl, rfl, rfl, rfl, rfl, -, rfl, rfl,
    rfl, rfl, -, rfl, rfl⟩ := h
  rcases before with _ | row
  · rfl
  · rfl

/-- **A full-bit batch applied again** leaves every row as it was, up to its
snapshot reference and stamp. -/
theorem apply_fullbit_again {lower : String → String} {mount : PurePath} {entries : List EntryFrame}
    (hnd : (entries.map EntryFrame.identity).Nodup) (t : Table FsEntryRow.key)
    (host_id volume_id snapshot_id snapshot_id' : ℕ) (now now' : Instant) : (upsert_entries
        (upsert_entries t host_id volume_id snapshot_id .fullbit (vet_entries lower mount .fullbit now entries))
        host_id volume_id snapshot_id' .fullbit
        (vet_entries lower mount .fullbit now' entries)).rows.map FsEntryRow.settled
      = (upsert_entries t host_id volume_id snapshot_id .fullbit
          (vet_entries lower mount .fullbit now entries)).rows.map FsEntryRow.settled := by
  have hnow := (vet_entries_sublist lower mount .fullbit now entries).nodup hnd
  have hnow' := (vet_entries_sublist lower mount .fullbit now' entries).nodup hnd
  refine Table.view_upsert_many _ (nodup_entry_rows _ _ _ hnow') fun y hy => ?_
  obtain ⟨v, hv, rfl⟩ := List.mem_map.mp hy
  obtain ⟨e, he, hvet⟩ := List.mem_filterMap.mp hv
  obtain ⟨w, hw, hid, hsame⟩ := vet_entry_at now hvet
  -- the row under the key is the one the first batch stored
  have hmem : w ∈ vet_entries lower mount .fullbit now entries := List.mem_filterMap.mpr ⟨e, he, hw⟩
  have hfind := find_upsert_entries t host_id volume_id snapshot_id .fullbit hnow hmem
  rw [hid] at hfind
  exact ⟨_, hfind, settled_again _ (hsame _ _ _ _)⟩

/-! ## The retry -/

end Fathom.Ingest
