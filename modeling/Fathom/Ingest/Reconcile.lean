/-
**Incremental reconciliation** (`core/incremental.py`): presence markers and the
churn feed of a metadata batch.

`reconcile` runs after the upsert, but it classifies the batch against the state
`snapshot_prior` read before it. Its two halves do not meet: a created or modified
entry is classified from the batch and the prior state alone, a removal is read
back from the rows.
-/
import Fathom.Ingest.Catalogue

set_option autoImplicit false

namespace Fathom.Ingest

/-! ## The batch as rows -/

/-- One vetted entry: the `row` of `_vet_entries`. On a metadata batch it has no
hash columns, and what stands here is what an insert then defaults to. -/
structure VettedRow where
  name : String
  path : String
  depth : Int
  is_dir : Bool
  is_symlink : Bool
  size_logical : ℕ
  size_on_disk : ℕ
  mtime : ℚ
  ctime : ℚ
  uid : Int
  gid : Int
  inode : Int
  dev : Int
  flags : List (String × Bool)
  provider_hash : Option String
  provider_hash_algo : Option String
  partial_hash : Option String
  full_hash : Option String
  hashed_at : Option Instant
  deriving DecidableEq

def VettedRow.identity (v : VettedRow) : Identity := ⟨v.dev, v.inode⟩

/-! ## Prior state -/

/-- `PriorState`: what a row said before the upsert. -/
structure PriorState where
  present : Bool
  mtime : ℚ
  size_logical : ℕ
  path : String
  deriving DecidableEq

def PriorState.of (r : FsEntryRow) : PriorState := ⟨r.present, r.mtime, r.size_logical, r.path⟩

/-- `ChangeReconciler.snapshot_prior`. -/
def snapshot_prior (t : Table FsEntryRow.key) (host_id volume_id : ℕ) (inodes : List Int) :
    List (Identity × PriorState) :=
  (t.rows.filter fun r => r.host_id = host_id ∧ r.volume_id = volume_id ∧ r.inode ∈ inodes).map
    fun r => (r.identity, PriorState.of r)

/-- `prior.get((dev, inode))`. -/
def prior_of (prior : List (Identity × PriorState)) (identity : Identity) : Option PriorState :=
  (prior.find? fun p => p.1 = identity).map Prod.snd

/-- `ChangeReconciler._classify`. -/
def classify (before : Option PriorState) (new_size : ℕ) (new_mtime : ℚ) : Option ChangeType :=
  match before with
  | none => some .create
  | some b =>
      if b.present = false then some .create
      else if b.size_logical ≠ new_size ∨ b.mtime ≠ new_mtime then some .modify
      else none

/-- The size a churn row counts from. -/
def old_size (before : Option PriorState) : ℕ :=
  match before with
  | none => 0
  | some b => b.size_logical

/-- The churn row of one upserted row, when it has one. -/
def entry_churn (volume_id : ℕ) (now : Instant) (prior : List (Identity × PriorState))
    (v : VettedRow) : Option ChangeLog :=
  let before := prior_of prior v.identity
  (classify before v.size_logical v.mtime).map fun change =>
    { volume_id, path := v.path, change_type := change,
      size_delta := v.size_logical - old_size before, ts := now }

/-! ## Removals -/

/-- A removal: `(dev, inode)`, or `(None, inode)` from an agent that sends inodes
only. -/
structure RemovedKey where
  dev : Option Int
  inode : Int
  deriving DecidableEq

/-- Whether a removal names a file. -/
def RemovedKey.names (k : RemovedKey) (identity : Identity) : Bool :=
  k.inode = identity.inode ∧ (k.dev = none ∨ k.dev = some identity.dev)

/-- `_removal_filter`. -/
def removal_filter (removed_keys : List RemovedKey) (identity : Identity) : Bool :=
  removed_keys.any fun k => k.names identity

/-- The rows `_mark_removed` flips. -/
def to_remove (host_id volume_id : ℕ) (removed_keys : List RemovedKey) (r : FsEntryRow) : Bool :=
  r.host_id = host_id ∧ r.volume_id = volume_id ∧ removal_filter removed_keys r.identity = true ∧
    r.present = true

/-- `.values(present=False, removed_at=when)`. -/
def FsEntryRow.remove (when_ : Instant) (r : FsEntryRow) : FsEntryRow :=
  { r with present := false, removed_at := some when_ }

@[simp] theorem FsEntryRow.remove_key (when_ : Instant) (r : FsEntryRow) :
    (r.remove when_).key = r.key := rfl

/-- `ChangeReconciler._mark_removed`. -/
def mark_removed (t : Table FsEntryRow.key) (host_id volume_id : ℕ) (removed_keys : List RemovedKey)
    (when_ : Instant) : Table FsEntryRow.key :=
  t.update (to_remove host_id volume_id removed_keys) (FsEntryRow.remove when_)
    (FsEntryRow.remove_key when_)

/-- The rows `_removal_churn` reads back. -/
def removed_now (host_id volume_id : ℕ) (removed_keys : List RemovedKey) (when_ : Instant)
    (r : FsEntryRow) : Bool :=
  r.host_id = host_id ∧ r.volume_id = volume_id ∧ removal_filter removed_keys r.identity = true ∧
    r.removed_at = some when_

/-- The churn row of a removed row. -/
def delete_churn (volume_id : ℕ) (now : Instant) (r : FsEntryRow) : ChangeLog :=
  { volume_id, path := r.path, change_type := .delete, size_delta := -r.size_logical, ts := now }

/-- `ChangeReconciler._removal_churn`. -/
def removal_churn (t : Table FsEntryRow.key) (host_id volume_id : ℕ) (removed_keys : List RemovedKey)
    (when_ : Instant) : List ChangeLog :=
  (t.rows.filter (removed_now host_id volume_id removed_keys when_)).map (delete_churn volume_id when_)

/-! ## The reconciliation -/

/-- What `reconcile` leaves: the table, the churn rows it adds, and the rows it
flipped. -/
structure Reconciled where
  fs_entry : Table FsEntryRow.key
  churn : List ChangeLog
  removed : ℕ

/-- `ChangeReconciler.reconcile`, on the table the upsert has written. -/
def reconcile (t : Table FsEntryRow.key) (host_id volume_id : ℕ) (rows : List VettedRow)
    (prior : List (Identity × PriorState)) (removed_keys : List RemovedKey) (log_changes : Bool)
    (now : Instant) : Reconciled :=
  let churn := rows.filterMap (entry_churn volume_id now prior)
  let marked := mark_removed t host_id volume_id removed_keys now
  { fs_entry := marked
    churn := if log_changes then churn ++ removal_churn marked host_id volume_id removed_keys now else []
    removed := (t.rows.filter (to_remove host_id volume_id removed_keys)).length }

/-! ## What it reads and writes -/

/-- The prior state of a file of the batch is that of its row. -/
theorem prior_of_snapshot {t : Table FsEntryRow.key} {host_id volume_id : ℕ} {inodes : List Int}
    {identity : Identity} (h : identity.inode ∈ inodes) : prior_of (snapshot_prior t host_id volume_id inodes) identity
      = (t.find ⟨host_id, volume_id, identity⟩).map PriorState.of := by
  rw [prior_of, snapshot_prior, List.find?_map, List.find?_filter, Option.map_map, Table.find]
  congr 1
  refine congrArg (t.rows.find? ·) ?_
  funext r
  rw [decide_eq_decide, decide_eq_true_iff, FsEntryRow.key, EntryKey.mk.injEq]
  constructor
  · rintro ⟨⟨hhost, hvolume, -⟩, hid⟩
    exact ⟨hhost, hvolume, of_decide_eq_true hid⟩
  · rintro ⟨hhost, hvolume, hid⟩
    refine ⟨⟨hhost, hvolume, ?_⟩, decide_eq_true hid⟩
    rw [← hid] at h
    exact h

theorem find_mark_removed (t : Table FsEntryRow.key) (host_id volume_id : ℕ)
    (removed_keys : List RemovedKey) (when_ : Instant) (k : EntryKey) :
    (mark_removed t host_id volume_id removed_keys when_).find k
      = (t.find k).map fun r =>
          if to_remove host_id volume_id removed_keys r then r.remove when_ else r :=
  Table.find_update t _ _ _ k

end Fathom.Ingest
