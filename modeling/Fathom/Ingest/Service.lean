/-
**The ingest service** (`core/ingest.py`): a batch is vetted, upserted and
reconciled in one transaction.

`ingest` refuses or returns the catalogue the transaction commits. What happens to
the entries once host, volume and snapshot are known is `apply_batch`; everything
the claims of this directory say about rows and churn is proved about it.
-/
import Fathom.Ingest.Reconcile

set_option autoImplicit false

namespace Fathom.Ingest

open Fathom.Security (PurePath validate_agent_path path_depth)

/-- The dialect of the bound session. -/
inductive Dialect where
  | postgresql
  | sqlite
  deriving DecidableEq

/-- What a running core fixes: `ingest_max_batch`, the database, and the
interpreter's `str.lower`. -/
structure Server where
  max_batch : ℕ
  dialect : Dialect
  lower : String → String

/-- Why a batch is not ingested. The last two are errors of the database, not
`IngestError`s; they end the request just the same. -/
inductive IngestError where
  /-- `batch of … exceeds max …` -/
  | entries (count max_batch : ℕ)
  /-- `removals of … exceeds max …` -/
  | removals (count max_batch : ℕ)
  /-- `unsafe volume mountpoint: …` -/
  | unsafe_mountpoint (mountpoint : String)
  /-- `non-canonical volume mountpoint … (normalises to …) — refused (AR-0012/ADR-029)` -/
  | non_canonical (mountpoint canonical : String)
  /-- `snapshot_id does not belong to this host/volume` -/
  | foreign_snapshot
  /-- another host has the name already -/
  | integrity
  /-- one statement would write a row twice -/
  | cardinality
  deriving DecidableEq

/-! ## Vetting -/

/-- One entry through `_vet_entries`: re-validated, and kept when it is the mount
or below it. -/
def vet_entry (lower : String → String) (mount : PurePath) (mode : Mode) (hashed_at : Instant)
    (e : EntryFrame) : Option VettedRow :=
  match validate_agent_path e.path with
  | .error _ => none
  | .ok candidate =>
    if PurePath.within lower mount candidate then
      some
        { name := e.name
          path := candidate.str
          depth := path_depth mount candidate
          is_dir := e.is_dir
          is_symlink := e.is_symlink
          size_logical := e.size_logical
          size_on_disk := e.size_on_disk
          mtime := e.mtime
          ctime := e.ctime
          uid := e.uid
          gid := e.gid
          inode := e.inode
          dev := e.dev
          flags := e.flags
          provider_hash := e.provider_hash
          provider_hash_algo := e.provider_hash_algo
          -- hashes are trusted on a full-bit batch only
          partial_hash := if mode = .fullbit then e.partial_hash else none
          full_hash := if mode = .fullbit then e.full_hash else none
          hashed_at := if mode = .fullbit then some hashed_at else none }
    else none

/-- `_vet_entries`: the rows kept. -/
def vet_entries (lower : String → String) (mount : PurePath) (mode : Mode) (hashed_at : Instant)
    (entries : List EntryFrame) : List VettedRow :=
  entries.filterMap (vet_entry lower mount mode hashed_at)

/-- The removal keys of a batch: `removed` wins over `removed_inodes`. -/
def IngestBatch.removed_keys (batch : IngestBatch) : List RemovedKey :=
  if batch.removed = [] then batch.removed_inodes.map fun i => ⟨none, i⟩
  else batch.removed.map fun r => ⟨some r.dev, r.inode⟩

/-- What a batch is refused for before anything is written; else the validated
mountpoint. -/
def check_batch (server : Server) (batch : IngestBatch) : Except IngestError PurePath :=
  let removed_count := max batch.removed.length batch.removed_inodes.length
  if batch.entries.length > server.max_batch then
    .error (.entries batch.entries.length server.max_batch)
  else if removed_count > server.max_batch then .error (.removals removed_count server.max_batch)
  else
    match validate_agent_path batch.volume.mountpoint with
    | .error _ => .error (.unsafe_mountpoint batch.volume.mountpoint)
    | .ok mount =>
      if mount.str ≠ batch.volume.mountpoint then
        .error (.non_canonical batch.volume.mountpoint mount.str)
      else .ok mount

/-! ## Host, volume and snapshot -/

/-- The row `_upsert_host` leaves. -/
def host_row (hosts : Table Host.cert_fingerprint) (frame : HostFrame) (cert_fingerprint : String)
    (now : Instant) : Host :=
  match hosts.find cert_fingerprint with
  | some existing =>
    { existing with
      os := frame.os
      agent_version := frame.agent_version
      -- facts are never overwritten with nothing
      facts := frame.facts <|> existing.facts
      last_seen := some now }
  | none =>
    { id := next_id (hosts.rows.map Host.id)
      name := frame.name
      os := frame.os
      agent_version := frame.agent_version
      cert_fingerprint
      last_seen := some now
      facts := frame.facts }

/-- `_upsert_host`: a new host must not take the name of another. -/
def upsert_host (hosts : Table Host.cert_fingerprint) (frame : HostFrame) (cert_fingerprint : String)
    (now : Instant) : Except IngestError Host :=
  if hosts.find cert_fingerprint = none ∧ frame.name ∈ hosts.rows.map Host.name then .error .integrity
  else .ok (host_row hosts frame cert_fingerprint now)

/-- `_upsert_volume`. -/
def upsert_volume (volumes : Table Volume.location) (host_id : ℕ) (v : VolumeFrame) (now : Instant) :
    Volume :=
  let existing := volumes.find ⟨host_id, v.mountpoint⟩
  { id := (existing.map Volume.id).getD (next_id (volumes.rows.map Volume.id))
    host_id
    mountpoint := v.mountpoint
    display_name := v.display_name
    kind := (existing.map Volume.kind).getD "data"
    fs_type := v.fs_type
    device := v.device
    transport := v.transport
    raid_role := v.raid_role
    pool := v.pool
    dataset := v.dataset
    total := v.total
    used := v.used
    free := v.free
    change_log_enabled := (existing.map Volume.change_log_enabled).getD true
    updated_at := now }

/-- `_resolve_snapshot`. -/
def resolve_snapshot (snapshots : Table Snapshot.id) (host_id volume_id : ℕ) (batch : IngestBatch) :
    Except IngestError Snapshot :=
  match batch.snapshot_id with
  | some id =>
    match snapshots.find id with
    | none => .error .foreign_snapshot
    | some snap =>
      if snap.host_id ≠ host_id ∨ snap.volume_id ≠ volume_id then .error .foreign_snapshot
      else .ok snap
  | none => .ok ⟨next_id (snapshots.rows.map Snapshot.id), host_id, volume_id, batch.mode⟩

/-! ## Entries -/

/-- The row a vetted entry proposes. A metadata batch says it is present; on a
full-bit batch the columns are left to their defaults, which say the same. -/
def entry_row (host_id volume_id snapshot_id : ℕ) (v : VettedRow) : FsEntryRow where
  host_id := host_id
  volume_id := volume_id
  parent_id := none
  name := v.name
  path := v.path
  depth := v.depth
  is_dir := v.is_dir
  is_symlink := v.is_symlink
  size_logical := v.size_logical
  size_on_disk := v.size_on_disk
  mtime := v.mtime
  ctime := v.ctime
  uid := v.uid
  gid := v.gid
  inode := v.inode
  dev := v.dev
  flags := v.flags
  last_seen_snapshot_id := some snapshot_id
  present := true
  removed_at := none
  partial_hash := v.partial_hash
  full_hash := v.full_hash
  hashed_at := v.hashed_at
  provider_hash := v.provider_hash
  provider_hash_algo := v.provider_hash_algo

/-- The `WHERE` of `_upsert_entries`. -/
def entry_guard (mode : Mode) (row excluded : FsEntryRow) : Bool :=
  match mode with
  | .fullbit => true
  | .metadata =>
    excluded.mtime ≠ row.mtime ∨ excluded.size_logical ≠ row.size_logical ∨ row.present = false

theorem entry_guard_iff {row excluded : FsEntryRow} :
    entry_guard .metadata row excluded = true ↔
      excluded.mtime ≠ row.mtime ∨ excluded.size_logical ≠ row.size_logical ∨ row.present = false :=
  decide_eq_true_iff

/-- The `SET` of `_upsert_entries`. -/
def entry_set (mode : Mode) (row excluded : FsEntryRow) : FsEntryRow :=
  let written : FsEntryRow :=
    { row with
      path := excluded.path
      name := excluded.name
      depth := excluded.depth
      is_dir := excluded.is_dir
      is_symlink := excluded.is_symlink
      size_logical := excluded.size_logical
      size_on_disk := excluded.size_on_disk
      mtime := excluded.mtime
      ctime := excluded.ctime
      uid := excluded.uid
      gid := excluded.gid
      flags := excluded.flags
      last_seen_snapshot_id := excluded.last_seen_snapshot_id
      provider_hash := excluded.provider_hash
      provider_hash_algo := excluded.provider_hash_algo }
  match mode with
  | .fullbit =>
    { written with
      partial_hash := excluded.partial_hash
      full_hash := excluded.full_hash
      hashed_at := excluded.hashed_at }
  | .metadata => { written with present := excluded.present, removed_at := excluded.removed_at }

/-- `on_conflict_do_update` of `_upsert_entries`. -/
def entry_conflict (mode : Mode) : Conflict FsEntryRow.key where
  guard := entry_guard mode
  set := entry_set mode
  set_key := by
    intro row excluded
    cases mode <;> rfl

/-- The table after `_upsert_entries`. -/
def upsert_entries (t : Table FsEntryRow.key) (host_id volume_id snapshot_id : ℕ) (mode : Mode)
    (rows : List VettedRow) : Table FsEntryRow.key :=
  t.upsert_many (entry_conflict mode) (rows.map (entry_row host_id volume_id snapshot_id))

/-- The upsert of a batch and its reconciliation, which a full-bit batch has
none of. -/
def apply_batch (t : Table FsEntryRow.key) (host_id volume_id snapshot_id : ℕ) (mode : Mode)
    (rows : List VettedRow) (removed_keys : List RemovedKey) (log_changes : Bool) (now : Instant) :
    Reconciled :=
  let written := upsert_entries t host_id volume_id snapshot_id mode rows
  match mode with
  | .fullbit => ⟨written, [], 0⟩
  | .metadata =>
    reconcile written host_id volume_id rows
      (snapshot_prior t host_id volume_id (rows.map VettedRow.inode)) removed_keys log_changes now

/-- Whether the database refuses the upsert: PostgreSQL does when a statement
comes to a row it has written. -/
def upsert_refused (server : Server) (t : Table FsEntryRow.key) (host_id volume_id snapshot_id : ℕ)
    (mode : Mode) (rows : List VettedRow) : Bool :=
  server.dialect = .postgresql ∧
    Table.affects_twice (entry_conflict mode) t [] (rows.map (entry_row host_id volume_id snapshot_id)) =
      true

/-! ## Where rows come from -/

@[simp] theorem entry_row_key (host_id volume_id snapshot_id : ℕ) (v : VettedRow) :
    (entry_row host_id volume_id snapshot_id v).key = ⟨host_id, volume_id, v.identity⟩ := rfl

theorem map_entry_row_key (host_id volume_id snapshot_id : ℕ) (rows : List VettedRow) :
    (rows.map (entry_row host_id volume_id snapshot_id)).map FsEntryRow.key
      = rows.map fun v => ⟨host_id, volume_id, v.identity⟩ := by
  rw [List.map_map]
  rfl

variable {now : Instant} {cert_fingerprint : String} {server : Server} {batch : IngestBatch}

/-- A row after a batch was there before it, or is one of the batch's. -/
theorem key_apply_batch {t : Table FsEntryRow.key} {host_id volume_id snapshot_id : ℕ} {mode : Mode}
    {rows : List VettedRow} {removed_keys : List RemovedKey} {log_changes : Bool} {r : FsEntryRow}
    (h : r ∈ (apply_batch t host_id volume_id snapshot_id mode rows removed_keys log_changes now).fs_entry.rows) :
    r.key ∈ t.rows.map FsEntryRow.key ∨ (r.host_id = host_id ∧ r.volume_id = volume_id) := by
  have hwritten : r.key ∈
      (upsert_entries t host_id volume_id snapshot_id mode rows).rows.map FsEntryRow.key := by
    rcases mode with _ | _
    · -- marking the removed keeps every key
      obtain ⟨r', hr', heq⟩ := List.mem_map.mp h
      refine List.mem_map.mpr ⟨r', hr', ?_⟩
      rw [← heq]
      split <;> rfl
    · exact List.mem_map_of_mem h
  obtain ⟨r', hr', heq⟩ := List.mem_map.mp hwritten
  rcases Table.key_upsert_many _ hr' with hold | hnew
  · left
    rw [← heq]
    exact hold
  · right
    rw [map_entry_row_key, List.mem_map] at hnew
    obtain ⟨v, -, hv⟩ := hnew
    rw [heq, FsEntryRow.key, EntryKey.mk.injEq] at hv
    exact ⟨hv.1.symm, hv.2.1.symm⟩

theorem host_row_fingerprint (hosts : Table Host.cert_fingerprint) (frame : HostFrame)
    (cert_fingerprint : String) (now : Instant) :
    (host_row hosts frame cert_fingerprint now).cert_fingerprint = cert_fingerprint := by
  rw [host_row]
  split
  · rename_i existing hfind
    show existing.cert_fingerprint = cert_fingerprint
    exact Table.key_of_find hfind
  · rfl

theorem host_row_id {hosts : Table Host.cert_fingerprint} {frame : HostFrame} {existing : Host}
    (h : hosts.find cert_fingerprint = some existing) :
    (host_row hosts frame cert_fingerprint now).id = existing.id := by
  rw [host_row, h]

/-- A host keeps its id. -/
theorem host_ids {hosts : Table Host.cert_fingerprint} {frame : HostFrame} {id : ℕ} (h : id ∈ hosts.rows.map Host.id) :
    id ∈ (hosts.put (host_row hosts frame cert_fingerprint now)).rows.map Host.id := by
  refine Table.column_put ?_ h
  intro row hrow
  rw [host_row_fingerprint] at hrow
  exact (host_row_id hrow).symm

/-- A volume keeps its id. -/
theorem volume_ids {volumes : Table Volume.location} {host_id : ℕ} {v : VolumeFrame} {id : ℕ}
    (h : id ∈ volumes.rows.map Volume.id) :
    id ∈ (volumes.put (upsert_volume volumes host_id v now)).rows.map Volume.id := by
  refine Table.column_put ?_ h
  intro row hrow
  have hfind : volumes.find ⟨host_id, v.mountpoint⟩ = some row := hrow
  show row.id = ((volumes.find ⟨host_id, v.mountpoint⟩).map Volume.id).getD _
  rw [hfind]
  rfl

/-! ## The service -/

/-- The host row a batch leaves. -/
def Catalogue.host_of (cat : Catalogue) (batch : IngestBatch) (cert_fingerprint : String)
    (now : Instant) : Host :=
  host_row cat.hosts batch.host cert_fingerprint now

/-- The volume row a batch leaves. -/
def Catalogue.volume_of (cat : Catalogue) (batch : IngestBatch) (cert_fingerprint : String)
    (now : Instant) : Volume :=
  upsert_volume cat.volumes (cat.host_of batch cert_fingerprint now).id batch.volume now

/-- What the transaction commits once nothing has been refused. -/
def commit_batch (server : Server) (cat : Catalogue) (batch : IngestBatch) (cert_fingerprint : String)
    (now : Instant) (mount : PurePath) (snapshot : Snapshot) : Catalogue × IngestResult :=
  let host := cat.host_of batch cert_fingerprint now
  let volume := cat.volume_of batch cert_fingerprint now
  let rows := vet_entries server.lower mount batch.mode now batch.entries
  let applied := apply_batch cat.fs_entry host.id volume.id snapshot.id batch.mode rows
    batch.removed_keys volume.change_log_enabled now
  ({ hosts := cat.hosts.put host
     volumes := cat.volumes.put volume
     snapshots := cat.snapshots.put snapshot
     fs_entry := applied.fs_entry
     change_log := cat.change_log ++ applied.churn
     entry_host := by
       intro r hr
       rcases key_apply_batch hr with hold | hnew
       · obtain ⟨r', hr', heq⟩ := List.mem_map.mp hold
         have hhost : r'.host_id = r.host_id := congrArg EntryKey.host_id heq
         rw [← hhost]
         exact host_ids (cat.entry_host r' hr')
       · rw [hnew.1]
         exact List.mem_map_of_mem (Table.mem_put_self _ _)
     entry_volume := by
       intro r hr
       rcases key_apply_batch hr with hold | hnew
       · obtain ⟨r', hr', heq⟩ := List.mem_map.mp hold
         have hvolume : r'.volume_id = r.volume_id := congrArg EntryKey.volume_id heq
         rw [← hvolume]
         exact volume_ids (cat.entry_volume r' hr')
       · rw [hnew.2]
         exact List.mem_map_of_mem (Table.mem_put_self _ _) },
   { snapshot_id := snapshot.id
     host_id := host.id
     volume_id := volume.id
     entries_received := rows.length
     entries_rejected := batch.entries.length - rows.length
     entries_removed := applied.removed
     changes_logged := applied.churn.length })

section

variable (server : Server) (cat : Catalogue) (batch : IngestBatch) (cert_fingerprint : String)
  (now : Instant) (mount : PurePath) (snapshot : Snapshot)

/-- What the batch does to the entries of its volume. -/
def Catalogue.apply_of : Reconciled :=
  apply_batch cat.fs_entry (cat.host_of batch cert_fingerprint now).id
    (cat.volume_of batch cert_fingerprint now).id snapshot.id batch.mode
    (vet_entries server.lower mount batch.mode now batch.entries) batch.removed_keys
    (cat.volume_of batch cert_fingerprint now).change_log_enabled now

theorem commit_batch_entries :
    (commit_batch server cat batch cert_fingerprint now mount snapshot).1.fs_entry
      = (cat.apply_of server batch cert_fingerprint now mount snapshot).fs_entry := rfl

theorem commit_batch_change_log :
    (commit_batch server cat batch cert_fingerprint now mount snapshot).1.change_log
      = cat.change_log ++ (cat.apply_of server batch cert_fingerprint now mount snapshot).churn := rfl

end

/-- `IngestService.ingest`. -/
def ingest (server : Server) (cat : Catalogue) (batch : IngestBatch) (cert_fingerprint : String)
    (now : Instant) : Except IngestError (Catalogue × IngestResult) :=
  match check_batch server batch with
  | .error e => .error e
  | .ok mount =>
  match upsert_host cat.hosts batch.host cert_fingerprint now with
  | .error e => .error e
  | .ok host =>
  let volume := upsert_volume cat.volumes host.id batch.volume now
  match resolve_snapshot cat.snapshots host.id volume.id batch with
  | .error e => .error e
  | .ok snapshot =>
  let rows := vet_entries server.lower mount batch.mode now batch.entries
  if upsert_refused server cat.fs_entry host.id volume.id snapshot.id batch.mode rows then
    .error .cardinality
  else .ok (commit_batch server cat batch cert_fingerprint now mount snapshot)

/-- What an accepted batch passes. -/
structure Accepted (server : Server) (cat : Catalogue) (batch : IngestBatch) (cert_fingerprint : String)
    (now : Instant) (mount : PurePath) (snapshot : Snapshot) : Prop where
  checked : check_batch server batch = .ok mount
  named : ¬ (cat.hosts.find cert_fingerprint = none ∧ batch.host.name ∈ cat.hosts.rows.map Host.name)
  resolved : resolve_snapshot cat.snapshots (cat.host_of batch cert_fingerprint now).id
    (cat.volume_of batch cert_fingerprint now).id batch = .ok snapshot
  written : upsert_refused server cat.fs_entry (cat.host_of batch cert_fingerprint now).id
    (cat.volume_of batch cert_fingerprint now).id snapshot.id batch.mode
    (vet_entries server.lower mount batch.mode now batch.entries) = false

theorem ingest_of_accepted {cat : Catalogue} {mount : PurePath} {snapshot : Snapshot}
    (h : Accepted server cat batch cert_fingerprint now mount snapshot) :
    ingest server cat batch cert_fingerprint now
      = .ok (commit_batch server cat batch cert_fingerprint now mount snapshot) := by
  obtain ⟨hchecked, hnamed, hresolved, hwritten⟩ := h
  rw [Catalogue.volume_of, Catalogue.host_of] at hresolved hwritten
  rw [ingest, hchecked, upsert_host, if_neg hnamed]
  dsimp only
  rw [hresolved]
  dsimp only
  rw [hwritten, if_neg Bool.false_ne_true]

/-- A batch that is ingested is accepted, and what it leaves is what it commits. -/
theorem ingest_ok {cat cat' : Catalogue} {result : IngestResult}
    (h : ingest server cat batch cert_fingerprint now = .ok (cat', result)) :
    ∃ mount snapshot, Accepted server cat batch cert_fingerprint now mount snapshot ∧
      commit_batch server cat batch cert_fingerprint now mount snapshot = (cat', result) := by
  rw [ingest] at h
  split at h
  · exact absurd h (by simp)
  rename_i mount hchecked
  rw [upsert_host] at h
  split at h
  · exact absurd h (by simp)
  rename_i host hhost
  split at hhost
  · exact absurd hhost (by simp)
  rename_i hnamed
  obtain rfl := Except.ok.inj hhost
  dsimp only at h
  split at h
  · exact absurd h (by simp)
  rename_i snapshot hresolved
  split at h
  · exact absurd h (by simp)
  rename_i hwritten
  exact ⟨mount, snapshot, ⟨hchecked, hnamed, hresolved, Bool.eq_false_iff.mpr hwritten⟩,
    Except.ok.inj h⟩

theorem check_batch_ok {mount : PurePath} (h : check_batch server batch = .ok mount) :
    validate_agent_path batch.volume.mountpoint = .ok mount ∧ mount.str = batch.volume.mountpoint := by
  rw [check_batch] at h
  split at h
  · exact absurd h (by simp)
  split at h
  · exact absurd h (by simp)
  split at h
  · exact absurd h (by simp)
  rename_i mount' hvalid
  split at h
  · exact absurd h (by simp)
  rename_i hcanonical
  rw [← Except.ok.inj h]
  exact ⟨hvalid, not_not.mp hcanonical⟩

/-! ## Host and volume of a batch -/

/-- The row a file of the host's volume has. -/
def Catalogue.row_of (cat : Catalogue) (cert_fingerprint mountpoint : String) (identity : Identity) :
    Option FsEntryRow :=
  (cat.hosts.find cert_fingerprint).bind fun host =>
    (cat.volumes.find ⟨host.id, mountpoint⟩).bind fun volume => cat.entry host.id volume.id identity

theorem upsert_volume_id {volumes : Table Volume.location} {host_id : ℕ} {v : VolumeFrame} {existing : Volume}
    (h : volumes.find ⟨host_id, v.mountpoint⟩ = some existing) :
    (upsert_volume volumes host_id v now).id = existing.id := by
  show ((volumes.find ⟨host_id, v.mountpoint⟩).map Volume.id).getD _ = _
  rw [h]
  rfl

/-- The ids ingest works with lead to the rows the host's volume has: a new host
or volume has none. -/
theorem entry_of_commit (cat : Catalogue) (batch : IngestBatch) (cert_fingerprint : String)
    (now : Instant) (identity : Identity) :
    cat.entry (cat.host_of batch cert_fingerprint now).id (cat.volume_of batch cert_fingerprint now).id identity
      = cat.row_of cert_fingerprint batch.volume.mountpoint identity := by
  rw [Catalogue.row_of, Catalogue.volume_of, Catalogue.host_of]
  rcases hhost : cat.hosts.find cert_fingerprint with _ | host
  · -- the id of a new host is no row's
    have hid : (host_row cat.hosts batch.host cert_fingerprint now).id
        = next_id (cat.hosts.rows.map Host.id) := by
      rw [host_row, hhost]
    rw [Option.bind_none, Catalogue.entry, Table.find_none_iff]
    intro hmem
    obtain ⟨r, hr, hkey⟩ := List.mem_map.mp hmem
    have hrow := cat.entry_host r hr
    rw [show r.host_id = _ from congrArg EntryKey.host_id hkey, hid] at hrow
    exact next_id_fresh _ hrow
  · rw [Option.bind_some, host_row_id hhost]
    rcases hvolume : cat.volumes.find ⟨host.id, batch.volume.mountpoint⟩ with _ | volume
    · -- nor is that of a new volume
      have hid : (upsert_volume cat.volumes host.id batch.volume now).id
          = next_id (cat.volumes.rows.map Volume.id) := by
        show ((cat.volumes.find ⟨host.id, batch.volume.mountpoint⟩).map Volume.id).getD _ = _
        rw [hvolume]
        rfl
      rw [Option.bind_none, Catalogue.entry, Table.find_none_iff]
      intro hmem
      obtain ⟨r, hr, hkey⟩ := List.mem_map.mp hmem
      have hrow := cat.entry_volume r hr
      rw [show r.volume_id = _ from congrArg EntryKey.volume_id hkey, hid] at hrow
      exact next_id_fresh _ hrow
    · rw [Option.bind_some, upsert_volume_id hvolume]

/-! ## A small volume -/

/-- A core on PostgreSQL with the default batch size; its paths are POSIX, so it
lowers none. -/
def sample_server : Server := ⟨5000, .postgresql, id⟩

/-- A file directly below `/m`, of device 1. -/
def sample_entry (name : String) (inode : Int) (mtime : ℚ) (size : ℕ) : EntryFrame where
  path := "/m/" ++ name
  name := name
  is_dir := false
  is_symlink := false
  size_logical := size
  size_on_disk := size
  mtime := mtime
  ctime := mtime
  uid := 0
  gid := 0
  inode := inode
  dev := 1
  flags := []
  partial_hash := none
  full_hash := none
  provider_hash := none
  provider_hash_algo := none

/-- A batch for the volume at `/m`. -/
def sample_batch (mode : Mode) (entries : List EntryFrame) (removed : List Identity) : IngestBatch where
  host := ⟨"h", none, none, none⟩
  volume := ⟨"/m", "ext4", "sda", "sata", none, none, none, 0, 0, 0, none⟩
  mode := mode
  snapshot_id := none
  entries := entries
  removed := removed
  removed_inodes := removed.map Identity.inode

/-- What a core has after ingesting a batch, when it accepts it. -/
def after (cat : Catalogue) (batch : IngestBatch) (now : Instant) : Catalogue :=
  match ingest sample_server cat batch "fp" now with
  | .ok (cat', _) => cat'
  | .error _ => cat

end Fathom.Ingest
