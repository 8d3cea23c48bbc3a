/-
**Where the churn rows point** (`IngestService.ingest` and `ChangeReconciler.reconcile`).

A churn row has the path of an entry that was vetted for its volume, or of a row that was
there. So it lies at or below the mountpoint of the volume whose id it carries, whatever
has been renamed since.
-/
import Fathom.Ingest.Vetting

set_option autoImplicit false

namespace Fathom.Ingest

open Fathom.Security

/-- **A path lies at or below a mountpoint**, in its normal form. -/
def ChartedBelow (lower : String → String) (mountpoint path : String) : Prop :=
  ∃ mount p below, validate_agent_path mountpoint = .ok mount ∧ mount.str = mountpoint ∧
    Normalised path p ∧ Below lower mount p below

theorem StoredBelow.charted {lower : String → String} {mountpoint : String} {r : FsEntryRow}
    (h : StoredBelow lower mountpoint r) : ChartedBelow lower mountpoint r.path := by
  obtain ⟨mount, p, below, hmount, hcanonical, hnormal, hbelow, -⟩ := h
  exact ⟨mount, p, below, hmount, hcanonical, hnormal, hbelow⟩

/-- **Every churn row is of a volume**, and lies at or below its mountpoint. -/
structure Charted (lower : String → String) (cat : Catalogue) : Prop where
  known : ∀ c ∈ cat.change_log, c.volume_id ∈ cat.volumes.rows.map Volume.id
  below : ∀ c ∈ cat.change_log, ∀ v ∈ cat.volumes.rows, v.id = c.volume_id → ChartedBelow lower v.mountpoint c.path

section

variable {server : Server} {cat : Catalogue} {batch : IngestBatch} {cert_fingerprint : String} {now : Instant}
  {mount : PurePath} {snapshot : Snapshot}

/-- A churn row of a batch is of its volume, and has the path of one of its entries or of a
row that is there. -/
theorem churn_source {c : ChangeLog} (hc : c ∈ (cat.apply_of server batch cert_fingerprint now mount snapshot).churn) :
    c.volume_id = (cat.volume_of batch cert_fingerprint now).id ∧
      ((∃ v ∈ vet_entries server.lower mount batch.mode now batch.entries, c.path = v.path) ∨
        ∃ r ∈ (cat.apply_of server batch cert_fingerprint now mount snapshot).fs_entry.rows,
          r.volume_id = c.volume_id ∧ c.path = r.path) := by
  rw [Catalogue.apply_of] at hc ⊢
  cases hmode : batch.mode with
  | fullbit =>
      rw [hmode] at hc
      exact absurd hc List.not_mem_nil
  | metadata =>
      rw [hmode] at hc
      dsimp only [apply_batch, reconcile] at hc ⊢
      split at hc
      · rcases List.mem_append.mp hc with hentry | hremoval
        · obtain ⟨v, hv, hchurn⟩ := List.mem_filterMap.mp hentry
          obtain ⟨change, -, rfl⟩ := Option.map_eq_some_iff.mp hchurn
          exact ⟨rfl, Or.inl ⟨v, hv, rfl⟩⟩
        · obtain ⟨r, hr, rfl⟩ := List.mem_map.mp hremoval
          obtain ⟨hmem, hremoved⟩ := List.mem_filter.mp hr
          exact ⟨rfl, Or.inr ⟨r, hmem, (of_decide_eq_true hremoved).2.1, rfl⟩⟩
      · exact absurd hc List.not_mem_nil

/-- **One batch.** -/
theorem Charted.step {pushes : List Push} (hlower : Lowers server.lower) (hbuilt : Built server.lower pushes cat)
    (h : Charted server.lower cat) (haccepted : Accepted server cat batch cert_fingerprint now mount snapshot) :
    Charted server.lower (commit_batch server cat batch cert_fingerprint now mount snapshot).1 := by
  obtain ⟨hmount, hcanonical⟩ := check_batch_ok haccepted.checked
  have hids := volume_ids_put batch cert_fingerprint now hbuilt.volume_ids
  have hvetted := hbuilt.vetted_step hlower haccepted
  refine ⟨?_, ?_⟩
  · intro c hc
    rw [commit_batch_change_log] at hc
    rcases List.mem_append.mp hc with hold | hnew
    · exact volume_ids (h.known c hold)
    · rw [(churn_source hnew).1]
      exact List.mem_map_of_mem (Table.mem_put_self _ _)
  · intro c hc v hv hid
    rw [commit_batch_change_log] at hc
    rcases List.mem_append.mp hc with hold | hnew
    · obtain ⟨w, hw, hwid, hmountpoint⟩ := volume_put_old hv (hid ▸ h.known c hold)
      rw [← hmountpoint]
      exact h.below c hold w hw (hwid.trans hid)
    · obtain ⟨hvolume, ⟨e, he, hpath⟩ | ⟨r, hr, hrow, hpath⟩⟩ := churn_source hnew
      · have hput : cat.volume_of batch cert_fingerprint now ∈
            (cat.volumes.put (cat.volume_of batch cert_fingerprint now)).rows := Table.mem_put_self _ _
        rw [hids v hv _ hput (hid.trans hvolume), hpath]
        exact (vet_entries_below hlower hmount hcanonical he 0 0 0).charted
      · rw [hpath]
        exact (hvetted r hr v hv (hid.trans hrow.symm)).charted

/-- **After any batches.** -/
theorem charted {pushes : List Push} {a : Archive} (hlower : Lowers server.lower)
    (h : (archiving server).Trace pushes a) : Charted server.lower a.cat := by
  have hboth : Built server.lower pushes a.cat ∧ Charted server.lower a.cat := by
    refine h.induct (P := fun pushes a => Built server.lower pushes a.cat ∧ Charted server.lower a.cat) ?_ ?_
    · rintro a rfl
      refine ⟨built hlower ⟨_, rfl, rfl⟩, ?_, ?_⟩
      · exact fun c hc => absurd hc List.not_mem_nil
      · exact fun c hc => absurd hc List.not_mem_nil
    · intro pushes a p a' _ hboth hstep
      obtain ⟨mount, snapshot, haccepted, rfl⟩ := archiving_step hstep
      exact ⟨hboth.1.step hlower haccepted, hboth.2.step hlower hboth.1 haccepted⟩
  exact hboth.2

end

end Fathom.Ingest
