/-
**What a batch makes of a row's presence** (`IngestService.ingest`).

A metadata entry makes its row present, whatever it was. A full-bit entry inserts a
row that is present and, on conflict, leaves the marker alone: hashing a file does
not bring it back. A removal takes a row that is there out of the listing.
-/
import Fathom.Ingest.Stored

set_option autoImplicit false

namespace Fathom.Ingest

open Fathom.Security (PurePath)

/-! ## The marker -/

/-- Whether a file of the host's volume has a row, and whether the row is present. -/
def Catalogue.presence (cat : Catalogue) (cert_fingerprint mountpoint : String) (identity : Identity) :
    Option Bool :=
  (cat.row_of cert_fingerprint mountpoint identity).map FsEntryRow.present

/-- What an entry of a batch makes of the marker. -/
def deliver : Mode → Option Bool → Option Bool
  | .metadata, _ => some true
  | .fullbit, none => some true
  | .fullbit, some present => some present

/-- What a removal makes of it. -/
def withdraw (marker : Option Bool) : Option Bool := marker.map fun _ => false

@[simp] theorem deliver_twice (mode : Mode) (marker : Option Bool) :
    deliver mode (deliver mode marker) = deliver mode marker := by
  cases mode with
  | metadata => rfl
  | fullbit => cases marker <;> rfl

@[simp] theorem withdraw_twice (marker : Option Bool) : withdraw (withdraw marker) = withdraw marker := by
  cases marker <;> rfl

/-! ## One row -/

/-- The row a commit leaves, by the ids it worked with. -/
theorem row_of_commit (server : Server) (cat : Catalogue) (batch : IngestBatch) (cert_fingerprint : String)
    (now : Instant) (mount : PurePath) (snapshot : Snapshot) (identity : Identity) :
    (commit_batch server cat batch cert_fingerprint now mount snapshot).1.row_of cert_fingerprint
        batch.volume.mountpoint identity = (cat.apply_of server batch cert_fingerprint now mount snapshot).fs_entry.find
          ⟨(cat.host_of batch cert_fingerprint now).id, (cat.volume_of batch cert_fingerprint now).id, identity⟩ := by
  have hhost : (cat.hosts.put (cat.host_of batch cert_fingerprint now)).find cert_fingerprint
      = some (cat.host_of batch cert_fingerprint now) := by
    have hput := Table.find_put_self cat.hosts (cat.host_of batch cert_fingerprint now)
    rw [Catalogue.host_of, host_row_fingerprint] at hput
    exact hput
  have hvolume : (cat.volumes.put (cat.volume_of batch cert_fingerprint now)).find
        ⟨(cat.host_of batch cert_fingerprint now).id, batch.volume.mountpoint⟩
      = some (cat.volume_of batch cert_fingerprint now) :=
    Table.find_put_self cat.volumes (cat.volume_of batch cert_fingerprint now)
  rw [Catalogue.row_of, commit_batch]
  dsimp only
  rw [hhost, Option.bind_some, hvolume, Option.bind_some]
  rfl

/-- What the upsert stores of an entry has the marker the entry makes. -/
theorem present_stored (mode : Mode) (before : Option FsEntryRow) (host_id volume_id snapshot_id : ℕ) (v : VettedRow) :
    some (Table.stored (entry_conflict mode) before (entry_row host_id volume_id snapshot_id v)).present
      = deliver mode (before.map FsEntryRow.present) := by
  cases mode with
  | metadata =>
      rw [stored_present]
      rfl
  | fullbit =>
      cases before with
      | none => rfl
      | some row => rfl

section

variable (t : Table FsEntryRow.key) (host_id volume_id snapshot_id : ℕ) (mode : Mode)
  {rows : List VettedRow}

/-- The marker once the upsert has run. -/
theorem present_upsert_entries (hnd : (rows.map VettedRow.identity).Nodup) (identity : Identity) :
    ((upsert_entries t host_id volume_id snapshot_id mode rows).find ⟨host_id, volume_id, identity⟩).map
        FsEntryRow.present = if identity ∈ rows.map VettedRow.identity
        then deliver mode ((t.find ⟨host_id, volume_id, identity⟩).map FsEntryRow.present)
        else (t.find ⟨host_id, volume_id, identity⟩).map FsEntryRow.present := by
  by_cases hmem : identity ∈ rows.map VettedRow.identity
  · rw [if_pos hmem]
    obtain ⟨v, hv, rfl⟩ := List.mem_map.mp hmem
    rw [find_upsert_entries t host_id volume_id snapshot_id mode hnd hv, Option.map_some]
    exact present_stored _ _ _ _ _ _
  · rw [if_neg hmem, upsert_entries, Table.find_upsert_many_other]
    rw [map_entry_row_key, List.mem_map]
    rintro ⟨v, hv, heq⟩
    exact hmem (List.mem_map.mpr ⟨v, hv, (EntryKey.mk.inj heq).2.2⟩)

/-- The marker once the removals have been marked. -/
theorem present_mark_removed (removed_keys : List RemovedKey) (when_ : Instant) (identity : Identity) :
    ((mark_removed t host_id volume_id removed_keys when_).find ⟨host_id, volume_id, identity⟩).map FsEntryRow.present
      = if removal_filter removed_keys identity
        then withdraw ((t.find ⟨host_id, volume_id, identity⟩).map FsEntryRow.present)
        else (t.find ⟨host_id, volume_id, identity⟩).map FsEntryRow.present := by
  rw [find_mark_removed]
  rcases hfind : t.find ⟨host_id, volume_id, identity⟩ with _ | r
  · rw [Option.map_none, Option.map_none, withdraw, Option.map_none]
    split <;> rfl
  have hkey := Table.key_of_find hfind
  rw [FsEntryRow.key, EntryKey.mk.injEq] at hkey
  rw [Option.map_some, Option.map_some, Option.map_some, withdraw, Option.map_some]
  by_cases hremoved : removal_filter removed_keys identity = true
  · rw [if_pos hremoved, to_remove]
    -- a row that is not present is not marked again, and stays so
    by_cases hpresent : r.present = true
    · rw [if_pos]
      · rfl
      · rw [hkey.2.2]
        exact decide_eq_true ⟨hkey.1, hkey.2.1, hremoved, hpresent⟩
    · rw [if_neg]
      · rw [Bool.eq_false_iff.mpr hpresent]
      · intro hto
        exact hpresent (of_decide_eq_true hto).2.2.2
  · rw [if_neg hremoved, if_neg]
    intro hto
    have hfilter := (of_decide_eq_true hto).2.2.1
    rw [hkey.2.2] at hfilter
    exact hremoved hfilter

end

/-! ## The batch -/

/-- When every entry is vetted, the rows are those of the entries. -/
theorem vet_entries_identity {lower : String → String} {mount : PurePath} {mode : Mode}
    {hashed_at : Instant} {entries : List EntryFrame}
    (h : ∀ e ∈ entries, ∃ v, vet_entry lower mount mode hashed_at e = some v) :
    (vet_entries lower mount mode hashed_at entries).map VettedRow.identity = entries.map EntryFrame.identity := by
  induction entries with
  | nil => rfl
  | cons e entries ih =>
      obtain ⟨v, hvet⟩ := h e List.mem_cons_self
      rw [vet_entries, List.filterMap_cons_some hvet, List.map_cons, List.map_cons, vet_entry_identity hvet]
      exact congrArg _ (ih fun e' he' => h e' (List.mem_cons_of_mem _ he'))

/-- **What a batch makes of the markers of its volume**, when it is ingested and all
its entries are accepted. -/
theorem presence_ingest {server : Server} {cat cat' : Catalogue} {batch : IngestBatch}
    {cert_fingerprint : String} {now : Instant} {result : IngestResult}
    (hnd : (batch.entries.map EntryFrame.identity).Nodup)
    (haccepts : ∀ e ∈ batch.entries, ∃ mount candidate, Accepts server batch mount candidate e)
    (h : ingest server cat batch cert_fingerprint now = .ok (cat', result)) (identity : Identity) :
    cat'.presence cert_fingerprint batch.volume.mountpoint identity =
      let before := cat.presence cert_fingerprint batch.volume.mountpoint identity
      let upserted :=
        if identity ∈ batch.entries.map EntryFrame.identity then deliver batch.mode before else before
      if batch.mode = .metadata ∧ removal_filter batch.removed_keys identity = true
      then withdraw upserted else upserted := by
  obtain ⟨mount, snapshot, haccepted, hcommit⟩ := ingest_ok h
  have hmount := (check_batch_ok haccepted.checked).1
  -- all entries are vetted, and they keep their identities
  have hvetted : (vet_entries server.lower mount batch.mode now batch.entries).map VettedRow.identity
      = batch.entries.map EntryFrame.identity := by
    refine vet_entries_identity fun e he => ?_
    obtain ⟨mount', candidate, hacc⟩ := haccepts e he
    have hsame : mount' = mount := Except.ok.inj (hacc.mountpoint.symm.trans hmount)
    rw [hsame] at hacc
    obtain ⟨v, hvet, -⟩ := vet_entry_some batch.mode now hacc.path hacc.within
    exact ⟨v, hvet⟩
  have hcat : cat' = (commit_batch server cat batch cert_fingerprint now mount snapshot).1 := by
    rw [hcommit]
  have hrows := hvetted ▸ hnd
  have hupserted := present_upsert_entries cat.fs_entry (cat.host_of batch cert_fingerprint now).id
    (cat.volume_of batch cert_fingerprint now).id snapshot.id batch.mode hrows identity
  rw [hvetted, show cat.fs_entry.find _ = _ from entry_of_commit cat batch cert_fingerprint now identity]
    at hupserted
  rw [Catalogue.presence, hcat, row_of_commit, Catalogue.apply_of]
  dsimp only
  rcases hmode : batch.mode with _ | _
  · rw [hmode] at hupserted
    refine (present_mark_removed _ _ _ _ _ _).trans ?_
    rw [hupserted]
    simp only [true_and]
    rfl
  · rw [hmode] at hupserted
    rw [if_neg (show ¬ (Mode.fullbit = .metadata ∧ _) from fun hand => absurd hand.1 (by decide))]
    exact hupserted

end Fathom.Ingest
