/-
**Finalising a host's volumes** (`core/finalize.py`): the rollups that are out of date are
recomputed, in one transaction, while batches keep being committed.

A volume counts as out of date when its latest snapshot was started no earlier than its
rollup was computed. What is compared are readings of two clocks: the database's, at the
start of the transaction that opened the snapshot, and the server's, at the recomputation.
Both are labels here, so a run has them in any order. A batch that reuses a snapshot
starts none, and the start of a transaction says nothing about its end.

A statement of the transaction sees what has been committed when it runs. What it writes
nobody else sees before it completes. The totals copied to the snapshots and the duplicate
groups are left out.
-/
import Fathom.Ingest.Vetting
import Fathom.Read.Rollup

set_option autoImplicit false

namespace Fathom.Read

open Fathom.Ingest

/-! ## The service -/

/-- The rollup of a volume that a finalisation has computed. -/
structure Recomputed where
  volume_id : ℕ
  rows : List SubtreeRollup
  of_volume : ∀ r ∈ rows, r.volume_id = volume_id
  unique : (rows.map SubtreeRollup.key).Nodup

/-- `recompute_full`, up to what it writes. -/
def recompute (cat : Catalogue) (volume : Volume) (now : Instant) : Recomputed where
  volume_id := volume.id
  rows := rollup_rows cat volume now
  of_volume := by
    intro r hr
    obtain ⟨item, -, rfl⟩ := List.mem_map.mp hr
    rfl
  unique := (replace_rollup (.empty _) cat volume now).unique

/-- The rows of a volume, replaced. -/
def Recomputed.write (x : Recomputed) (t : Table SubtreeRollup.key) : Table SubtreeRollup.key where
  rows := t.rows.filter (fun r => r.volume_id ≠ x.volume_id) ++ x.rows
  unique := by
    rw [List.map_append]
    refine List.nodup_append.mpr ⟨t.unique.sublist (List.filter_sublist.map _), x.unique, ?_⟩
    intro k hk k' hk' heq
    obtain ⟨r, hr, rfl⟩ := List.mem_map.mp hk
    obtain ⟨r', hr', rfl⟩ := List.mem_map.mp hk'
    exact of_decide_eq_true (List.mem_filter.mp hr).2 ((congrArg RollupKey.volume_id heq).trans (x.of_volume r' hr'))

/-- A finalisation under way: the volumes it has found out of date and not come to, and
what it has computed, the latest first. -/
structure Finalisation where
  host_id : ℕ
  remaining : List ℕ
  computed : List Recomputed

/-- The tables, the column `started` of `snapshot`, and the finalisations under way. -/
structure Core where
  cat : Catalogue
  started : ℕ → Instant
  subtree_rollup : Table SubtreeRollup.key
  under_way : List Finalisation

namespace Core

def empty : Core := ⟨.empty, fun _ => 0, .empty _, []⟩

/-- When the snapshots of a volume were started, and when its rollups were computed. -/
def snapshots_started (s : Core) (volume_id : ℕ) : List Instant :=
  (s.cat.snapshots.rows.filter fun r => r.volume_id = volume_id).map fun r => s.started r.id

def rollups_computed (s : Core) (volume_id : ℕ) : List Instant :=
  (s.subtree_rollup.rows.filter fun r => r.volume_id = volume_id).map SubtreeRollup.computed_at

/-- The `WHERE` of `_stale_volume_ids`. -/
def is_stale (s : Core) (volume_id : ℕ) : Bool :=
  match (s.snapshots_started volume_id).max? with
  | none => false
  | some last_started =>
    match (s.rollups_computed volume_id).max? with
    | none => true
    | some last_computed => last_computed ≤ last_started

/-- `_stale_volume_ids`. -/
def stale_volume_ids (s : Core) (host_id : ℕ) : List ℕ :=
  ((s.cat.volumes.rows.filter fun v => v.host_id = host_id ∧ s.is_stale v.id = true).map Volume.id).insertionSort
    (· ≤ ·)

/-- What happens. -/
inductive Event where
  /-- a batch is committed, whose transaction began when the database's clock read `started` -/
  | batch (push : Push) (started : Instant)
  /-- `finalize_host` reads the volumes that are out of date -/
  | select (cert_fingerprint : String)
  /-- a finalisation recomputes its next volume -/
  | recompute (i : ℕ) (now : Instant)
  /-- `finalize_host` completes -/
  | complete (i : ℕ)
  /-- a finalisation is rolled back -/
  | abort (i : ℕ)

/-- A batch. -/
def ingest_batch (server : Server) (s : Core) (push : Push) (started : Instant) : Option Core :=
  match ingest server s.cat push.batch push.cert_fingerprint push.now with
  | .error _ => none
  | .ok (cat, result) =>
    some { s with
      cat := cat
      started := if push.batch.snapshot_id = none then Function.update s.started result.snapshot_id started
        else s.started }

/-- The beginning of `finalize_host`. A host that is not known has nothing to finalise. -/
def begin_finalize (s : Core) (cert_fingerprint : String) : Core :=
  match s.cat.hosts.find cert_fingerprint with
  | none => s
  | some host => { s with under_way := s.under_way ++ [⟨host.id, s.stale_volume_ids host.id, []⟩] }

/-- One turn of the loop of `finalize_host`. -/
def recompute_next (s : Core) (i : ℕ) (now : Instant) : Option Core :=
  match s.under_way[i]? with
  | none => none
  | some f =>
    match f.remaining with
    | [] => none
    | volume_id :: remaining =>
      (get_volume s.cat volume_id).map fun volume =>
        { s with under_way := s.under_way.set i ⟨f.host_id, remaining, recompute s.cat volume now :: f.computed⟩ }

/-- What a finalisation has computed, written. -/
def write_all (computed : List Recomputed) (t : Table SubtreeRollup.key) : Table SubtreeRollup.key :=
  computed.foldr Recomputed.write t

/-- The end of `finalize_host`, after its last volume. -/
def complete_finalize (s : Core) (i : ℕ) : Option Core :=
  match s.under_way[i]? with
  | none => none
  | some f =>
    if f.remaining = [] then
      some { s with
        subtree_rollup := write_all f.computed s.subtree_rollup
        under_way := s.under_way.eraseIdx i }
    else none

/-- **Batches and finalisations**, interleaved. -/
def finalizing (server : Server) : System Core Event where
  init := fun s => s = empty
  step := fun s e =>
    match e with
    | .batch push started => s.ingest_batch server push started
    | .select cert_fingerprint => some (s.begin_finalize cert_fingerprint)
    | .recompute i now => s.recompute_next i now
    | .complete i => s.complete_finalize i
    | .abort i => if i < s.under_way.length then some { s with under_way := s.under_way.eraseIdx i } else none

/-! ## What is asked of it -/

/-- What is stored of a path, when it was computed apart. -/
def at_time (now : Instant) (r : SubtreeRollup) : SubtreeRollup := { r with computed_at := now }

/-- What a recomputation would store of a path of a volume. -/
def expected (cat : Catalogue) (v : Volume) (now : Instant) (path : String) : Option SubtreeRollup :=
  ((tally (present_rows cat v.id) v.mountpoint).find path).map (rollup_row v.id v.mountpoint now)

/-- **The rollups of a volume are those a recomputation would store.** -/
def Fresh (s : Core) (v : Volume) : Prop :=
  ∀ now path, (s.subtree_rollup.find ⟨v.id, path⟩).map (at_time now) = expected s.cat v now path

/-- **What a step promises**: a batch leaves its volume to be recomputed by a finalisation
that begins then; and when a finalisation completes, the volumes of its host are fresh. -/
def Honoured (s : Core) (e : Event) (t : Core) : Prop :=
  match e with
  | .batch push _ =>
    (s.cat.volume_of push.batch push.cert_fingerprint push.now).id ∈
      t.stale_volume_ids (s.cat.host_of push.batch push.cert_fingerprint push.now).id
  | .complete i =>
    ∀ f, s.under_way[i]? = some f → ∀ v ∈ t.cat.volumes.rows, v.host_id = f.host_id →
      present_rows t.cat v.id ≠ [] → t.Fresh v
  | _ => True

/-- **A batch in time**: the finalisations of its host that are under way have its volume
still before them; and it opens a snapshot that was started no earlier than the volume's
rollups were computed, unless the volume was out of date already. -/
def Timely (s : Core) (e : Event) : Prop :=
  match e with
  | .batch push started =>
    let host := s.cat.host_of push.batch push.cert_fingerprint push.now
    let volume := s.cat.volume_of push.batch push.cert_fingerprint push.now
    (∀ f ∈ s.under_way, f.host_id = host.id → volume.id ∈ f.remaining) ∧
      ((push.batch.snapshot_id = none ∧ ∀ computed_at ∈ s.rollups_computed volume.id, computed_at ≤ started) ∨
        s.is_stale volume.id = true)
  | _ => True

/-! ## Out of date -/

section

variable {s t : Core}

variable {volume_id : ℕ} {push : Push} {started : Instant}

/-- **Out of date**, without the maxima. -/
theorem is_stale_iff : s.is_stale volume_id = true ↔
      ∃ started ∈ s.snapshots_started volume_id, ∀ computed_at ∈ s.rollups_computed volume_id, computed_at ≤ started := by
  rw [is_stale]
  cases hsnap : (s.snapshots_started volume_id).max? with
  | none =>
      rw [List.max?_eq_none_iff] at hsnap
      refine iff_of_false Bool.false_ne_true ?_
      rintro ⟨started, hmem, -⟩
      rw [hsnap] at hmem
      exact absurd hmem List.not_mem_nil
  | some last_started =>
      obtain ⟨hmem, hlast⟩ := List.max?_eq_some_iff.mp hsnap
      dsimp only
      cases hroll : (s.rollups_computed volume_id).max? with
      | none =>
          rw [List.max?_eq_none_iff] at hroll
          refine iff_of_true rfl ⟨last_started, hmem, fun c hc => ?_⟩
          rw [hroll] at hc
          exact absurd hc List.not_mem_nil
      | some last_computed =>
          obtain ⟨hcomputed, hbound⟩ := List.max?_eq_some_iff.mp hroll
          dsimp only
          rw [decide_eq_true_eq]
          constructor
          · intro hle
            exact ⟨last_started, hmem, fun c hc => (hbound c hc).trans hle⟩
          · rintro ⟨started, hstarted, hall⟩
            exact (hall last_computed hcomputed).trans (hlast started hstarted)

theorem mem_stale_volume_ids {host_id : ℕ} : volume_id ∈ s.stale_volume_ids host_id ↔
      ∃ v ∈ s.cat.volumes.rows, v.host_id = host_id ∧ s.is_stale v.id = true ∧ v.id = volume_id := by
  rw [stale_volume_ids, List.mem_insertionSort, List.mem_map]
  constructor
  · rintro ⟨v, hv, hid⟩
    obtain ⟨hmem, hboth⟩ := List.mem_filter.mp hv
    obtain ⟨hhost, hstale⟩ := of_decide_eq_true hboth
    exact ⟨v, hmem, hhost, hstale, hid⟩
  · rintro ⟨v, hmem, hhost, hstale, hid⟩
    exact ⟨v, List.mem_filter.mpr ⟨hmem, decide_eq_true ⟨hhost, hstale⟩⟩, hid⟩

/-! ## What is written -/

theorem find_write (x : Recomputed) (u : Table SubtreeRollup.key) (volume_id : ℕ) (path : String) :
    (x.write u).find ⟨volume_id, path⟩
      = if x.volume_id = volume_id then x.rows.find? fun r => r.key = ⟨volume_id, path⟩ else u.find ⟨volume_id, path⟩ := by
  show (u.rows.filter (fun r => r.volume_id ≠ x.volume_id) ++ x.rows).find? _ = _
  rw [List.find?_append]
  split
  · rename_i hid
    have hnone : (u.rows.filter fun r => r.volume_id ≠ x.volume_id).find? (fun r => r.key = ⟨volume_id, path⟩) = none := by
      refine List.find?_eq_none.mpr fun r hr hkey => ?_
      apply of_decide_eq_true (List.mem_filter.mp hr).2
      exact (congrArg RollupKey.volume_id (of_decide_eq_true hkey)).trans hid.symm
    rw [hnone, Option.none_or]
  · rename_i hid
    have hnone : x.rows.find? (fun r => r.key = ⟨volume_id, path⟩) = none := by
      refine List.find?_eq_none.mpr fun r hr hkey => hid ?_
      exact (x.of_volume r hr).symm.trans (congrArg RollupKey.volume_id (of_decide_eq_true hkey))
    rw [hnone, Option.or_none, List.find?_filter, Table.find]
    refine congrArg (List.find? · u.rows) ?_
    funext r
    by_cases hkey : r.key = ⟨volume_id, path⟩
    · have hvolume : r.volume_id = volume_id := congrArg RollupKey.volume_id hkey
      simp [hkey, hvolume, Ne.symm hid]
    · simp [hkey]

/-- What is stored of a volume is what was computed of it last, or what was stored. -/
theorem find_write_all (computed : List Recomputed) (u : Table SubtreeRollup.key) (volume_id : ℕ) (path : String) :
    (write_all computed u).find ⟨volume_id, path⟩
      = match computed.find? fun x => x.volume_id = volume_id with
        | some x => x.rows.find? fun r => r.key = ⟨volume_id, path⟩
        | none => u.find ⟨volume_id, path⟩ := by
  induction computed with
  | nil => rfl
  | cons x computed ih =>
      rw [show write_all (x :: computed) u = x.write (write_all computed u) from rfl, find_write, List.find?_cons]
      by_cases hid : x.volume_id = volume_id
      · rw [if_pos hid, decide_eq_true hid]
      · rw [if_neg hid, decide_eq_false hid]
        exact ih

/-- The rollups of the other volumes are as they were. -/
theorem rows_write_all {computed : List Recomputed} (u : Table SubtreeRollup.key)
    (h : volume_id ∉ computed.map Recomputed.volume_id) :
    (write_all computed u).rows.filter (fun r => r.volume_id = volume_id)
      = u.rows.filter fun r => r.volume_id = volume_id := by
  induction computed with
  | nil => rfl
  | cons x computed ih =>
      rw [List.map_cons, List.mem_cons, not_or] at h
      have hown : x.rows.filter (fun r => r.volume_id = volume_id) = [] := by
        refine List.filter_eq_nil_iff.mpr fun r hr hid => h.1 ?_
        exact (of_decide_eq_true hid).symm.trans (x.of_volume r hr)
      show ((write_all computed u).rows.filter (fun r => r.volume_id ≠ x.volume_id) ++ x.rows).filter _ = _
      rw [List.filter_append, hown, List.append_nil, List.filter_filter, ← ih h.2]
      refine List.filter_congr fun r _ => ?_
      by_cases hid : r.volume_id = volume_id
      · simp [hid, h.1]
      · simp [hid]

/-! ## What a batch touches -/

/-- The tables after an accepted batch, whose snapshot is started if it is new. -/
def committed (server : Server) (s : Core) (push : Push) (started : Instant) (mount : Security.PurePath)
    (snapshot : Snapshot) : Core :=
  { s with
    cat := (commit_batch server s.cat push.batch push.cert_fingerprint push.now mount snapshot).1
    started := if push.batch.snapshot_id = none then Function.update s.started snapshot.id started else s.started }

theorem ingest_batch_cases {server : Server} (h : s.ingest_batch server push started = some t) :
    ∃ mount snapshot, Accepted server s.cat push.batch push.cert_fingerprint push.now mount snapshot ∧
      t = s.committed server push started mount snapshot := by
  rw [ingest_batch] at h
  split at h
  · exact absurd h (by simp)
  rename_i cat result hingest
  obtain ⟨mount, snapshot, haccepted, hcommit⟩ := ingest_ok hingest
  refine ⟨mount, snapshot, haccepted, ?_⟩
  have hid : result.snapshot_id = snapshot.id := by
    rw [show result = (commit_batch server s.cat push.batch push.cert_fingerprint push.now mount snapshot).2 by
      rw [hcommit]]
    rfl
  rw [← Option.some.inj h, committed, hcommit, hid]

variable {server : Server} {cat : Catalogue} {batch : IngestBatch} {cert_fingerprint : String} {now : Instant}
variable {mount : Security.PurePath} {snapshot : Snapshot}

/-- The snapshots after a batch: one more, or those before. -/
theorem snapshots_of_commit (h : Accepted server cat batch cert_fingerprint now mount snapshot) :
    snapshot.volume_id = (cat.volume_of batch cert_fingerprint now).id ∧ if batch.snapshot_id = none then
        snapshot.id ∉ cat.snapshots.rows.map Snapshot.id ∧ (cat.snapshots.put snapshot).rows = cat.snapshots.rows ++ [snapshot]
      else snapshot ∈ cat.snapshots.rows ∧ cat.snapshots.put snapshot = cat.snapshots := by
  have hresolved := h.resolved
  rw [resolve_snapshot] at hresolved
  split at hresolved
  · rename_i id hid
    rw [hid, if_neg (by simp)]
    split at hresolved
    · exact absurd hresolved (by simp)
    rename_i snap hfind
    split at hresolved
    · exact absurd hresolved (by simp)
    rename_i hown
    obtain rfl := Except.ok.inj hresolved
    rw [not_or, not_not, not_not] at hown
    refine ⟨hown.2, Table.mem_of_find hfind, Table.put_of_find ?_⟩
    rw [Table.key_of_find hfind]
    exact hfind
  · rename_i hid
    obtain rfl := Except.ok.inj hresolved
    rw [hid, if_pos rfl]
    have hfresh := next_id_fresh (cat.snapshots.rows.map Snapshot.id)
    exact ⟨rfl, hfresh, Table.rows_upsert_of_new (Table.find_none_iff.mpr hfresh)⟩

/-- **The entries of the other volumes are as they were.** -/
theorem present_rows_of_commit (hne : volume_id ≠ (cat.volume_of batch cert_fingerprint now).id) :
    present_rows (commit_batch server cat batch cert_fingerprint now mount snapshot).1 volume_id
      = present_rows cat volume_id := by
  have hupsert : (upsert_entries cat.fs_entry (cat.host_of batch cert_fingerprint now).id
      (cat.volume_of batch cert_fingerprint now).id snapshot.id batch.mode
      (vet_entries server.lower mount batch.mode now batch.entries)).rows.filter
        (fun r => r.volume_id = volume_id ∧ r.present = true) = present_rows cat volume_id := by
    refine Table.filter_upsert_many_other fun x hx r hkey => ?_
    obtain ⟨e, -, rfl⟩ := List.mem_map.mp hx
    have hvolume : r.volume_id = (cat.volume_of batch cert_fingerprint now).id := congrArg EntryKey.volume_id hkey
    exact decide_eq_false fun hboth => hne (hboth.1.symm.trans hvolume)
  rw [present_rows, commit_batch_entries, Catalogue.apply_of]
  cases hmode : batch.mode with
  | fullbit =>
      rw [hmode] at hupsert
      exact hupsert
  | metadata =>
      rw [hmode] at hupsert
      rw [← hupsert]
      refine Table.filter_update_other (FsEntryRow.remove_key now) fun r hr => ?_
      have hvolume : r.volume_id = (cat.volume_of batch cert_fingerprint now).id := (of_decide_eq_true hr).2.1
      constructor
      · exact decide_eq_false fun hboth => hne (hboth.1.symm.trans hvolume)
      · exact decide_eq_false fun hboth => hne (hboth.1.symm.trans hvolume)

/-- A volume after a batch is the batch's, or another of those before. -/
theorem volumes_of_commit (hids : ∀ v ∈ cat.volumes.rows, ∀ w ∈ cat.volumes.rows, v.id = w.id → v = w) {v : Volume}
    (hv : v ∈ (cat.volumes.put (cat.volume_of batch cert_fingerprint now)).rows) :
    v = cat.volume_of batch cert_fingerprint now ∨
      (v ∈ cat.volumes.rows ∧ v.id ≠ (cat.volume_of batch cert_fingerprint now).id) := by
  rcases Table.mem_put hv with heq | ⟨hold, hkey⟩
  · exact Or.inl heq
  · right
    refine ⟨hold, fun hid => hkey ?_⟩
    rw [volume_ids_put batch cert_fingerprint now hids v hv _ (Table.mem_put_self _ _) hid]

/-- A volume is there after a batch, under its id and of its host. -/
theorem volume_kept {v : Volume} (batch : IngestBatch) (cert_fingerprint : String) (now : Instant)
    (hv : v ∈ cat.volumes.rows) :
    ∃ w ∈ (cat.volumes.put (cat.volume_of batch cert_fingerprint now)).rows, w.id = v.id ∧ w.host_id = v.host_id := by
  by_cases hkey : v.location = (cat.volume_of batch cert_fingerprint now).location
  · refine ⟨_, Table.mem_put_self _ _, ?_, (congrArg Location.host_id hkey).symm⟩
    have hfind := Table.find_of_mem hv
    rw [hkey] at hfind
    exact upsert_volume_id hfind
  · exact ⟨v, Table.mem_put_of_ne hv hkey, rfl, rfl⟩

/-- When snapshots were started: a batch adds to that of its own volume, if it opens one. -/
theorem snapshots_started_committed {s : Core}
    (h : Accepted server s.cat push.batch push.cert_fingerprint push.now mount snapshot) (volume_id : ℕ) :
    (s.committed server push started mount snapshot).snapshots_started volume_id = s.snapshots_started volume_id ++
        if push.batch.snapshot_id = none ∧
            (s.cat.volume_of push.batch push.cert_fingerprint push.now).id = volume_id then [started] else [] := by
  obtain ⟨hvolume, hsnapshots⟩ := snapshots_of_commit h
  rw [snapshots_started, snapshots_started, ← hvolume]
  show ((s.cat.snapshots.put snapshot).rows.filter _).map (fun r =>
    (if push.batch.snapshot_id = none then Function.update s.started snapshot.id started else s.started) r.id) = _
  by_cases hnew : push.batch.snapshot_id = none
  · rw [if_pos hnew] at hsnapshots ⊢
    obtain ⟨hfresh, hrows⟩ := hsnapshots
    rw [hrows, List.filter_append, List.map_append]
    congr 1
    · -- the snapshots before have other ids
      refine List.map_congr_left fun r hr => ?_
      have hne : r.id ≠ snapshot.id := fun heq => hfresh (heq ▸ List.mem_map_of_mem (List.mem_filter.mp hr).1)
      rw [Function.update_of_ne hne]
    · rw [List.filter_singleton]
      by_cases hid : snapshot.volume_id = volume_id
      · simp [hnew, hid]
      · simp [hid]
  · rw [if_neg hnew] at hsnapshots ⊢
    rw [hsnapshots.2, if_neg fun hboth => hnew hboth.1, List.append_nil]

/-- **A batch leaves its volume to be recomputed** exactly when it opens a snapshot started
no earlier than the volume's rollups were computed, or the volume was out of date. -/
theorem is_stale_committed_iff {s : Core}
    (h : Accepted server s.cat push.batch push.cert_fingerprint push.now mount snapshot) :
    (s.committed server push started mount snapshot).is_stale
        (s.cat.volume_of push.batch push.cert_fingerprint push.now).id = true ↔
      (push.batch.snapshot_id = none ∧ ∀ computed_at ∈ s.rollups_computed
        (s.cat.volume_of push.batch push.cert_fingerprint push.now).id, computed_at ≤ started) ∨
      s.is_stale (s.cat.volume_of push.batch push.cert_fingerprint push.now).id = true := by
  rw [is_stale_iff, is_stale_iff, snapshots_started_committed h]
  constructor
  · rintro ⟨started', hmem, hlate⟩
    rcases List.mem_append.mp hmem with hold | hnew
    · exact Or.inr ⟨started', hold, hlate⟩
    · split at hnew
      · rename_i hopens
        rw [List.mem_singleton.mp hnew] at hlate
        exact Or.inl ⟨hopens.1, hlate⟩
      · exact absurd hnew List.not_mem_nil
  · rintro (⟨hnew, hlate⟩ | ⟨started', hold, hlate⟩)
    · exact ⟨started, List.mem_append_right _ (by rw [if_pos ⟨hnew, rfl⟩]; exact List.mem_cons_self), hlate⟩
    · exact ⟨started', List.mem_append_left _ hold, hlate⟩

end

/-! ## The invariant -/

/-- With what a finalisation has computed written. -/
def with_written (s : Core) (f : Finalisation) : Core :=
  { s with subtree_rollup := write_all f.computed s.subtree_rollup }

/-- **What is so between steps** when all batches are in time: a volume is fresh or out of
date, and each finalisation under way has a volume of its host before it or would leave it
fresh. -/
structure Sound (s : Core) : Prop where
  volume_ids : ∀ v ∈ s.cat.volumes.rows, ∀ w ∈ s.cat.volumes.rows, v.id = w.id → v = w
  due : ∀ v ∈ s.cat.volumes.rows, s.Fresh v ∨ s.is_stale v.id = true
  known : ∀ f ∈ s.under_way, ∀ id, id ∈ f.remaining ∨ id ∈ f.computed.map Recomputed.volume_id →
    ∃ v ∈ s.cat.volumes.rows, v.id = id ∧ v.host_id = f.host_id
  kept : ∀ f ∈ s.under_way, ∀ v ∈ s.cat.volumes.rows, v.host_id = f.host_id →
    v.id ∈ f.remaining ∨ (s.with_written f).Fresh v

section

variable {s t : Core}

theorem sound_empty : Sound empty where
  volume_ids := fun _ hv => absurd hv List.not_mem_nil
  due := fun _ hv => absurd hv List.not_mem_nil
  known := fun _ hf => absurd hf List.not_mem_nil
  kept := fun _ hf => absurd hf List.not_mem_nil

/-- What is fresh stays so while neither its rollups nor its entries change. -/
theorem Fresh.congr {v : Volume} (h : s.Fresh v)
    (hrollup : ∀ path, t.subtree_rollup.find ⟨v.id, path⟩ = s.subtree_rollup.find ⟨v.id, path⟩)
    (hrows : present_rows t.cat v.id = present_rows s.cat v.id) : t.Fresh v := by
  intro now path
  rw [hrollup, h now path, expected, expected, hrows]

/-- A volume that a finalisation has not computed is as fresh as it is without it. -/
theorem fresh_with_written {f : Finalisation} {v : Volume} (h : (s.with_written f).Fresh v)
    (hnot : f.computed.find? (fun x => x.volume_id = v.id) = none) : s.Fresh v := by
  refine h.congr (fun path => ?_) rfl
  show _ = (write_all f.computed s.subtree_rollup).find ⟨v.id, path⟩
  rw [find_write_all, hnot]

/-- **A batch in time.** -/
theorem Sound.batch {server : Server} {push : Push} {started : Instant} (hs : Sound s)
    (htimely : s.Timely (.batch push started)) (h : s.ingest_batch server push started = some t) :
    Sound t ∧ s.Honoured (.batch push started) t := by
  obtain ⟨mount, snapshot, haccepted, rfl⟩ := ingest_batch_cases h
  obtain ⟨hahead, hstarted⟩ := htimely
  have hsnapshots : ∀ volume_id, (s.committed server push started mount snapshot).snapshots_started volume_id
      = s.snapshots_started volume_id ++
        if push.batch.snapshot_id = none ∧
            (s.cat.volume_of push.batch push.cert_fingerprint push.now).id = volume_id then [started] else [] :=
    fun volume_id => snapshots_started_committed haccepted volume_id
  have hcases := fun v (hv : v ∈ (s.committed server push started mount snapshot).cat.volumes.rows) =>
    volumes_of_commit hs.volume_ids hv
  -- the volume of the batch is out of date
  have hstale := (is_stale_committed_iff haccepted).mpr hstarted
  refine ⟨⟨volume_ids_put _ _ _ hs.volume_ids, ?_, ?_, ?_⟩, ?_⟩
  · intro v hv
    rcases hcases v hv with rfl | ⟨hold, hne⟩
    · exact Or.inr hstale
    · rcases hs.due v hold with hfresh | hdue
      · exact Or.inl (hfresh.congr (fun _ => rfl) (present_rows_of_commit hne))
      · right
        rw [is_stale, hsnapshots, if_neg fun hboth => hne hboth.2.symm, List.append_nil]
        exact hdue
  · intro f hf id hid
    obtain ⟨v, hv, rfl, hhost⟩ := hs.known f hf id hid
    obtain ⟨w, hw, hwid, hwhost⟩ := volume_kept push.batch push.cert_fingerprint push.now hv
    exact ⟨w, hw, hwid, hwhost.trans hhost⟩
  · intro f hf v hv hhost
    rcases hcases v hv with rfl | ⟨hold, hne⟩
    · exact Or.inl (hahead f hf hhost.symm)
    · rcases hs.kept f hf v hold hhost with hbefore | hfresh
      · exact Or.inl hbefore
      · exact Or.inr (hfresh.congr (fun _ => rfl) (present_rows_of_commit hne))
  · exact mem_stale_volume_ids.mpr ⟨_, Table.mem_put_self _ _, rfl, hstale, rfl⟩

/-- A finalisation begins with the volumes that are out of date; the others are fresh. -/
theorem Sound.select (hs : Sound s) (cert_fingerprint : String) : Sound (s.begin_finalize cert_fingerprint) := by
  rw [begin_finalize]
  split
  · exact hs
  rename_i host hhost
  refine ⟨hs.volume_ids, hs.due, ?_, ?_⟩
  · intro f hf id hid
    rcases List.mem_append.mp hf with hold | hnew
    · exact hs.known f hold id hid
    · obtain rfl := List.mem_singleton.mp hnew
      rcases hid with hremaining | hcomputed
      · obtain ⟨v, hv, hvhost, -, hvid⟩ := mem_stale_volume_ids.mp hremaining
        exact ⟨v, hv, hvid, hvhost⟩
      · exact absurd hcomputed List.not_mem_nil
  · intro f hf v hv hvhost
    rcases List.mem_append.mp hf with hold | hnew
    · exact hs.kept f hold v hv hvhost
    · obtain rfl := List.mem_singleton.mp hnew
      rcases hs.due v hv with hfresh | hstale
      · exact Or.inr hfresh
      · exact Or.inl (mem_stale_volume_ids.mpr ⟨v, hv, hvhost, hstale, rfl⟩)

/-- **A recomputation** leaves its volume fresh, were it written. -/
theorem Sound.recompute (hs : Sound s) {i : ℕ} {now : Instant} (h : s.recompute_next i now = some t) : Sound t := by
  rw [recompute_next] at h
  split at h
  · exact absurd h (by simp)
  rename_i f hf
  have hmem := List.mem_of_getElem? hf
  split at h
  · exact absurd h (by simp)
  rename_i volume_id remaining hremaining
  obtain ⟨volume, hvolume, rfl⟩ := Option.map_eq_some_iff.mp h
  have hid : volume.id = volume_id := by
    have hfound := List.find?_some hvolume
    exact of_decide_eq_true hfound
  have hvmem : volume ∈ s.cat.volumes.rows := List.mem_of_find?_eq_some hvolume
  refine ⟨hs.volume_ids, hs.due, ?_, ?_⟩
  · intro g hg id hgid
    rcases List.mem_or_eq_of_mem_set hg with hold | rfl
    · exact hs.known g hold id hgid
    · apply hs.known f hmem id
      rw [hremaining]
      rcases hgid with hrest | hcomputed
      · exact Or.inl (List.mem_cons_of_mem _ hrest)
      · rcases List.mem_cons.mp hcomputed with heq | hold
        · exact Or.inl (by rw [heq, show (Read.recompute s.cat volume now).volume_id = volume_id from hid]; exact List.mem_cons_self)
        · exact Or.inr hold
  · intro g hg v hv hvhost
    rcases List.mem_or_eq_of_mem_set hg with hold | rfl
    · exact hs.kept g hold v hv hvhost
    · by_cases hv_id : v.id = volume.id
      · right
        obtain rfl := hs.volume_ids v hv volume hvmem hv_id
        intro now' path
        show ((replace_rollup (write_all f.computed s.subtree_rollup) s.cat v now).find ⟨v.id, path⟩).map (at_time now') = _
        rw [find_replace_rollup, Option.map_map]
        rfl
      · rcases hs.kept f hmem v hv hvhost with hbefore | hfresh
        · left
          rw [hremaining, List.mem_cons] at hbefore
          exact hbefore.resolve_left fun heq => hv_id (heq.trans hid.symm)
        · right
          refine hfresh.congr (fun path => ?_) rfl
          show ((Read.recompute s.cat volume now).write (write_all f.computed s.subtree_rollup)).find _ = _
          rw [find_write, if_neg fun heq => hv_id heq.symm]
          rfl

/-- **When a finalisation completes**, the volumes of its host are fresh, and the others
are as they were. -/
theorem Sound.complete (hs : Sound s) {i : ℕ} (h : s.complete_finalize i = some t) :
    Sound t ∧ s.Honoured (.complete i) t := by
  rw [complete_finalize] at h
  split at h
  · exact absurd h (by simp)
  rename_i f hf
  have hmem := List.mem_of_getElem? hf
  split at h
  swap
  · exact absurd h (by simp)
  rename_i hdone
  obtain rfl := Option.some.inj h
  have hown : ∀ v ∈ s.cat.volumes.rows, v.host_id = f.host_id → (s.with_written f).Fresh v := by
    intro v hv hhost
    rcases hs.kept f hmem v hv hhost with hremaining | hfresh
    · rw [hdone] at hremaining
      exact absurd hremaining List.not_mem_nil
    · exact hfresh
  -- a volume of another host is not among those computed
  have hother : ∀ v ∈ s.cat.volumes.rows, v.host_id ≠ f.host_id → v.id ∉ f.computed.map Recomputed.volume_id := by
    intro v hv hhost hcomputed
    obtain ⟨w, hw, hid, hwhost⟩ := hs.known f hmem v.id (Or.inr hcomputed)
    exact hhost (hs.volume_ids w hw v hv hid ▸ hwhost)
  have hsame : ∀ v ∈ s.cat.volumes.rows, v.host_id ≠ f.host_id → ∀ path,
      (write_all f.computed s.subtree_rollup).find ⟨v.id, path⟩ = s.subtree_rollup.find ⟨v.id, path⟩ := by
    intro v hv hhost path
    have hnone : f.computed.find? (fun x => x.volume_id = v.id) = none := by
      refine List.find?_eq_none.mpr fun x hx hid => hother v hv hhost ?_
      exact of_decide_eq_true hid ▸ List.mem_map_of_mem hx
    rw [find_write_all, hnone]
  refine ⟨⟨hs.volume_ids, ?_, ?_, ?_⟩, ?_⟩
  · intro v hv
    by_cases hhost : v.host_id = f.host_id
    · exact Or.inl (hown v hv hhost)
    · rcases hs.due v hv with hfresh | hstale
      · exact Or.inl (hfresh.congr (hsame v hv hhost) rfl)
      · right
        rw [is_stale, rollups_computed] at hstale ⊢
        dsimp only
        rw [rows_write_all _ (hother v hv hhost)]
        exact hstale
  · exact fun g hg => hs.known g (List.mem_of_mem_eraseIdx hg)
  · intro g hg v hv hhost
    rcases hs.kept g (List.mem_of_mem_eraseIdx hg) v hv hhost with hremaining | hfresh
    · exact Or.inl hremaining
    right
    rcases hcomputed : g.computed.find? (fun x => x.volume_id = v.id) with _ | x
    · -- the other finalisation leaves the volume to this one
      have hwritten : (s.with_written f).Fresh v := by
        by_cases hvhost : v.host_id = f.host_id
        · exact hown v hv hvhost
        · exact (fresh_with_written hfresh hcomputed).congr (hsame v hv hvhost) rfl
      refine hwritten.congr (fun path => ?_) rfl
      show (write_all g.computed (write_all f.computed s.subtree_rollup)).find _ = _
      rw [find_write_all, hcomputed]
      rfl
    · refine hfresh.congr (fun path => ?_) rfl
      show (write_all g.computed (write_all f.computed s.subtree_rollup)).find _
        = (write_all g.computed s.subtree_rollup).find _
      simp only [find_write_all, hcomputed]
  · intro f' hf' v hv hhost _
    rw [hf, Option.some.injEq] at hf'
    exact hown v hv (hf' ▸ hhost)

theorem Sound.abort (hs : Sound s) (i : ℕ) : Sound { s with under_way := s.under_way.eraseIdx i } where
  volume_ids := hs.volume_ids
  due := hs.due
  known := fun f hf => hs.known f (List.mem_of_mem_eraseIdx hf)
  kept := fun f hf => hs.kept f (List.mem_of_mem_eraseIdx hf)

/-- **One step.** -/
theorem Sound.step {server : Server} {e : Event} (hs : Sound s) (htimely : s.Timely e)
    (h : (finalizing server).step s e = some t) : Sound t ∧ s.Honoured e t := by
  cases e with
  | batch push started => exact hs.batch htimely h
  | select cert_fingerprint =>
      obtain rfl := Option.some.inj h
      exact ⟨hs.select cert_fingerprint, trivial⟩
  | recompute i now => exact ⟨hs.recompute h, trivial⟩
  | complete i => exact hs.complete h
  | abort i =>
      have h : (if i < s.under_way.length then some { s with under_way := s.under_way.eraseIdx i } else none) = some t := h
      split at h
      · obtain rfl := Option.some.inj h
        exact ⟨hs.abort i, trivial⟩
      · exact absurd h (by simp)

end

/-- **When finalising keeps the rollups fresh.** In a run all of whose batches are in time,
every step does what it promises. -/
theorem honoured_of_timely {server : Server} {events : List Event} {s : Core}
    (h : (finalizing server).run empty events = some s) (htimely : (finalizing server).Meets Timely empty events)
    {n : ℕ} {u t : Core} {e : Event} (hu : (finalizing server).run empty (events.take n) = some u)
    (he : events[n]? = some e) (ht : (finalizing server).step u e = some t) : u.Honoured e t := by
  obtain ⟨hsound, hstep⟩ := System.Meets.keeps (I := Sound) (fun s e t hs hok hstep => (hs.step hok hstep).1)
    sound_empty htimely h hu
  exact (hsound.step (hstep e he).1 ht).2

/-- A batch, and a finalisation after it. -/
def finalized_once : List Event :=
  [.batch ⟨two_alike "f", "fp", 0⟩ 0, .select "fp", .recompute 0 1, .complete 0]

/-- What some events make of an empty database, when they can happen. -/
def after_events (events : List Event) : Core := ((finalizing sample_server).run empty events).getD empty

/-- The finalisation leaves the volume fresh. -/
theorem honoured_first_finalisation :
    (after_events (finalized_once.take 3)).Honoured (.complete 0) (after_events finalized_once) := by
  have hmeets : (finalizing sample_server).Meets Timely empty finalized_once := by
    refine ⟨⟨fun f hf => absurd hf List.not_mem_nil, Or.inl ⟨rfl, fun c hc => absurd hc List.not_mem_nil⟩⟩, ?_⟩
    exact fun _ _ => ⟨trivial, fun _ _ => ⟨trivial, fun _ _ => ⟨trivial, fun _ _ => trivial⟩⟩⟩
  have hrun : (finalizing sample_server).run empty finalized_once = some (after_events finalized_once) := rfl
  have hbefore : (finalizing sample_server).run empty (finalized_once.take 3) = some (after_events (finalized_once.take 3)) :=
    rfl
  exact honoured_of_timely hrun hmeets hbefore rfl rfl

/-- A third file, sent with the snapshot of the first batch. -/
def one_more : IngestBatch := { sample_batch .metadata [sample_entry "c" 9 1 10] [] with snapshot_id := some 1 }

/-- The file comes after the finalisation; the next one does not see it. -/
def reused : List Event := finalized_once ++ [.batch ⟨one_more, "fp", 2⟩ 2, .select "fp"]

/-- The batch that reuses a snapshot is not counted when the volume is finalised again. -/
theorem finalized_without_reused :
    ¬ ∀ (server : Server) (events : List Event) (s : Core), (finalizing server).run empty events = some s →
      ∀ (n : ℕ) (u t : Core) (e : Event), (finalizing server).run empty (events.take n) = some u →
        events[n]? = some e → (finalizing server).step u e = some t → u.Honoured e t := by
  intro hall
  have hhonoured := hall sample_server (reused ++ [.complete 0]) _ rfl 6 (after_events reused)
    (after_events (reused ++ [.complete 0])) (.complete 0) rfl rfl rfl
  have hfresh := hhonoured ⟨1, [], []⟩ rfl _ (List.mem_cons_self (a := (after_events reused).cat.volumes.rows.head (by decide)))
    rfl (by decide) 0 "/m"
  revert hfresh
  decide

end Core

end Fathom.Read
