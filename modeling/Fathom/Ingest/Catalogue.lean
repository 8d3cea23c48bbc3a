/-
**The catalogue an agent's batches are written to** (`core/catalogue/models.py`)
and **the batches** (`api/schemas.py`).

Each table is keyed by what the source looks its rows up by and the database
keeps unique: a host by its certificate, a volume by host and mountpoint, an
entry by `(host_id, volume_id, dev, inode)`. A surrogate id is one above those in
use; an entry has none here, for no modelled function reads it.

A finite `mtime` is a dyadic rational, and the code only compares it for
equality. An instant of the database is a number of microseconds in UTC.
-/
import Fathom.Lib.Table
import Fathom.Security.Paths
import Mathlib.Data.Rat.Defs

set_option autoImplicit false

namespace Fathom.Ingest

/-- A `timestamptz`. -/
abbrev Instant := Int

/-- `mode`: the field accepts `metadata` and `fullbit`. -/
inductive Mode where
  | metadata
  | fullbit
  deriving DecidableEq, Repr

/-- A file's identity within a volume: `(st_dev, st_ino)`. -/
structure Identity where
  dev : Int
  inode : Int
  deriving DecidableEq, Repr

/-! ## Frames -/

/-- `HostFactsFrame`. -/
structure HostFacts where
  cpu_cores : Option ℕ
  cpu_model : Option String
  ram_bytes : Option ℕ
  gpu_name : Option String
  gpu_vram_bytes : Option ℕ
  arch : Option String
  deriving DecidableEq

/-- `HostFrame`. -/
structure HostFrame where
  name : String
  os : Option String
  agent_version : Option String
  facts : Option HostFacts
  deriving DecidableEq

/-- `VolumeFrame`. -/
structure VolumeFrame where
  mountpoint : String
  fs_type : String
  device : String
  transport : String
  raid_role : Option String
  pool : Option String
  dataset : Option String
  total : ℕ
  used : ℕ
  free : ℕ
  display_name : Option String
  deriving DecidableEq

/-- `EntryFrame`: one entry of a batch. -/
structure EntryFrame where
  path : String
  name : String
  is_dir : Bool
  is_symlink : Bool
  size_logical : ℕ
  size_on_disk : ℕ
  mtime : ℚ
  ctime : ℚ
  uid : Int
  gid : Int
  inode : Int
  dev : Int
  flags : List (String × Bool)
  partial_hash : Option String
  full_hash : Option String
  provider_hash : Option String
  provider_hash_algo : Option String
  deriving DecidableEq

/-- The identity an entry is upserted under. -/
def EntryFrame.identity (e : EntryFrame) : Identity := ⟨e.dev, e.inode⟩

/-- `IngestBatch`. `removed_inodes` is what agents sent before removals named the
device. -/
structure IngestBatch where
  host : HostFrame
  volume : VolumeFrame
  mode : Mode
  snapshot_id : Option ℕ
  entries : List EntryFrame
  removed : List Identity
  removed_inodes : List Int

/-- `IngestResult`. -/
structure IngestResult where
  snapshot_id : ℕ
  host_id : ℕ
  volume_id : ℕ
  entries_received : ℕ
  entries_rejected : ℕ
  entries_removed : ℕ
  changes_logged : ℕ
  deriving DecidableEq, Repr

/-! ## Rows -/

/-- `Host`. -/
structure Host where
  id : ℕ
  name : String
  os : Option String
  agent_version : Option String
  cert_fingerprint : String
  last_seen : Option Instant
  facts : Option HostFacts
  deriving DecidableEq

/-- The unique `(host_id, mountpoint)` of a volume. -/
structure Location where
  host_id : ℕ
  mountpoint : String
  deriving DecidableEq

/-- `Volume`. -/
structure Volume where
  id : ℕ
  host_id : ℕ
  mountpoint : String
  display_name : Option String
  kind : String
  fs_type : String
  device : String
  transport : String
  raid_role : Option String
  pool : Option String
  dataset : Option String
  total : ℕ
  used : ℕ
  free : ℕ
  change_log_enabled : Bool
  updated_at : Instant
  deriving DecidableEq

def Volume.location (v : Volume) : Location := ⟨v.host_id, v.mountpoint⟩

/-- `Snapshot`. -/
structure Snapshot where
  id : ℕ
  host_id : ℕ
  volume_id : ℕ
  mode : Mode
  deriving DecidableEq

/-- The identity of a row: `uq_fs_entry_identity`. -/
structure EntryKey where
  host_id : ℕ
  volume_id : ℕ
  identity : Identity
  deriving DecidableEq, Repr

/-- `FsEntryRow`: one catalogued filesystem entry. -/
structure FsEntryRow where
  host_id : ℕ
  volume_id : ℕ
  parent_id : Option ℕ
  name : String
  path : String
  depth : Int
  is_dir : Bool
  is_symlink : Bool
  size_logical : ℕ
  size_on_disk : ℕ
  mtime : ℚ
  ctime : ℚ
  uid : Int
  gid : Int
  inode : Int
  dev : Int
  flags : List (String × Bool)
  last_seen_snapshot_id : Option ℕ
  present : Bool
  removed_at : Option Instant
  partial_hash : Option String
  full_hash : Option String
  hashed_at : Option Instant
  provider_hash : Option String
  provider_hash_algo : Option String
  deriving DecidableEq

def FsEntryRow.identity (r : FsEntryRow) : Identity := ⟨r.dev, r.inode⟩

def FsEntryRow.key (r : FsEntryRow) : EntryKey := ⟨r.host_id, r.volume_id, r.identity⟩

/-- `ChangeType`. -/
inductive ChangeType where
  | create
  | modify
  | delete
  deriving DecidableEq, Repr

/-- `ChangeLog`: one churn row. -/
structure ChangeLog where
  volume_id : ℕ
  path : String
  change_type : ChangeType
  size_delta : Int
  ts : Instant
  deriving DecidableEq

/-- The tables ingest reads and writes, and the foreign keys of an entry. -/
structure Catalogue where
  hosts : Table Host.cert_fingerprint
  volumes : Table Volume.location
  snapshots : Table Snapshot.id
  fs_entry : Table FsEntryRow.key
  change_log : List ChangeLog
  entry_host : ∀ r ∈ fs_entry.rows, r.host_id ∈ hosts.rows.map Host.id
  entry_volume : ∀ r ∈ fs_entry.rows, r.volume_id ∈ volumes.rows.map Volume.id

/-- A database in which nothing has been stored. -/
def Catalogue.empty : Catalogue where
  hosts := .empty _
  volumes := .empty _
  snapshots := .empty _
  fs_entry := .empty _
  change_log := []
  entry_host := fun _ h => absurd h List.not_mem_nil
  entry_volume := fun _ h => absurd h List.not_mem_nil

/-- The next surrogate id. -/
def next_id (ids : List ℕ) : ℕ := ids.foldr max 0 + 1

/-- The row of a file in a volume. -/
def Catalogue.entry (cat : Catalogue) (host_id volume_id : ℕ) (identity : Identity) :
    Option FsEntryRow :=
  cat.fs_entry.find ⟨host_id, volume_id, identity⟩

theorem le_foldr_max {ids : List ℕ} {id : ℕ} (h : id ∈ ids) : id ≤ ids.foldr max 0 := by
  induction ids with
  | nil => exact absurd h List.not_mem_nil
  | cons a ids ih =>
      rw [List.foldr_cons]
      rcases List.mem_cons.mp h with heq | hmem
      · rw [heq]
        exact le_max_left _ _
      · exact (ih hmem).trans (le_max_right _ _)

/-- The next id is not in use. -/
theorem next_id_fresh (ids : List ℕ) : next_id ids ∉ ids := by
  intro h
  have hle := le_foldr_max h
  rw [next_id] at hle
  omega

end Fathom.Ingest
