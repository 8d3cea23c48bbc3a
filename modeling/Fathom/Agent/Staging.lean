/-
**The agent's staging store** (`agent/staging/store.py`, `agent/staging/schema.sql`):
what a scan has seen waits here until the core has acknowledged it.

A row is never deleted, only marked pushed, and a later scan writes it in place.
So the store has three uses at once: it is the queue a drain empties, the baseline
the next incremental cycle compares the disk with, and the candidate list of a
full-bit pass.

The columns of a row that come from the filesystem are kept together as the
`FsEntry` they were taken from. Each statement runs in a transaction of its own; a
row that names no scan run is refused by the foreign key, and nothing is written.
-/
import Fathom.Ingest.Catalogue
import Fathom.Lib.Outbox

set_option autoImplicit false

namespace Fathom.Agent

open Fathom.Ingest (Identity Mode VolumeFrame next_id le_foldr_max)

/-- `FsEntry`: one filesystem entry as a metadata walk captures it. -/
structure FsEntry where
  path : String
  name : String
  is_dir : Bool
  is_symlink : Bool
  size_logical : ℕ
  size_on_disk : ℕ
  mtime : ℚ
  ctime : ℚ
  uid : Int
  gid : Int
  inode : Int
  dev : Int
  flags : List (String × Bool)
  deriving DecidableEq

def FsEntry.identity (e : FsEntry) : Identity := ⟨e.dev, e.inode⟩

/-! ## Rows -/

/-- The primary key of both staged tables: `(host_id, volume_id, dev, inode)`. -/
structure StagedKey where
  host_id : String
  volume_id : String
  identity : Identity
  deriving DecidableEq

/-- `scan_run`. -/
structure ScanRun where
  id : ℕ
  host_id : String
  volume_id : String
  mode : Mode
  finished_at : Option ℚ
  volume_json : Option VolumeFrame
  deriving DecidableEq

/-- `staged_entry`. -/
structure StagedEntry where
  host_id : String
  volume_id : String
  entry : FsEntry
  partial_hash : Option String
  full_hash : Option String
  scan_run_id : ℕ
  pushed : Bool
  deriving DecidableEq

def StagedEntry.key (r : StagedEntry) : StagedKey := ⟨r.host_id, r.volume_id, r.entry.identity⟩

/-- `staged_removal`. -/
structure StagedRemoval where
  host_id : String
  volume_id : String
  identity : Identity
  path : String
  scan_run_id : ℕ
  pushed : Bool
  deriving DecidableEq

def StagedRemoval.key (r : StagedRemoval) : StagedKey := ⟨r.host_id, r.volume_id, r.identity⟩

/-- The ids of the scan runs. -/
def run_ids (runs : Table ScanRun.id) : List ℕ := runs.rows.map ScanRun.id

/-- The staging database. Runs stand in the order of their ids, which
`AUTOINCREMENT` hands out upwards, and every staged row names one of them. -/
structure Staging where
  scan_run : Table ScanRun.id
  staged_entry : Table StagedEntry.key
  staged_removal : Table StagedRemoval.key
  ordered : (run_ids scan_run).Pairwise (· < ·)
  entry_run : ∀ r ∈ staged_entry.rows, r.scan_run_id ∈ run_ids scan_run
  removal_run : ∀ r ∈ staged_removal.rows, r.scan_run_id ∈ run_ids scan_run

namespace Staging

/-- A database just created. -/
def empty : Staging where
  scan_run := .empty _
  staged_entry := .empty _
  staged_removal := .empty _
  ordered := List.Pairwise.nil
  entry_run := fun _ h => absurd h List.not_mem_nil
  removal_run := fun _ h => absurd h List.not_mem_nil

theorem ext_tables {s u : Staging} (hrun : s.scan_run = u.scan_run)
    (hentry : s.staged_entry = u.staged_entry) (hremoval : s.staged_removal = u.staged_removal) : s = u := by
  cases s
  cases u
  congr

/-! ## Scan runs -/

/-- The id the next run gets. -/
def next_run (s : Staging) : ℕ := next_id (run_ids s.scan_run)

variable {s : Staging} {run_id : ℕ}

theorem lt_next_run {id : ℕ} (h : id ∈ run_ids s.scan_run) : id < s.next_run :=
  Nat.lt_succ_of_le (le_foldr_max h)

theorem next_run_new (s : Staging) : s.scan_run.find s.next_run = none := by
  rw [Table.find_none_iff]
  intro h
  exact absurd (lt_next_run h) (lt_irrefl _)

/-- The row `start_run` inserts. -/
def new_run (s : Staging) (host_id volume_id : String) (mode : Mode) (volume : Option VolumeFrame) :
    ScanRun :=
  ⟨s.next_run, host_id, volume_id, mode, none, volume⟩

theorem run_ids_start (s : Staging) (host_id volume_id : String) (mode : Mode) (volume : Option VolumeFrame) :
    run_ids (s.scan_run.put (s.new_run host_id volume_id mode volume)) = run_ids s.scan_run ++ [s.next_run] := by
  have hnew : s.scan_run.find (s.new_run host_id volume_id mode volume).id = none := next_run_new s
  rw [run_ids, Table.put, Table.rows_upsert_of_new hnew, List.map_append]
  rfl

/-- `StagingStore.start_run`; the id it returns is `next_run`. -/
def start_run (s : Staging) (host_id volume_id : String) (mode : Mode) (volume : Option VolumeFrame) :
    Staging where
  scan_run := s.scan_run.put (s.new_run host_id volume_id mode volume)
  staged_entry := s.staged_entry
  staged_removal := s.staged_removal
  ordered := by
    rw [run_ids_start, List.pairwise_append]
    refine ⟨s.ordered, List.pairwise_singleton _ _, ?_⟩
    intro id hid id' hid'
    rw [List.mem_singleton.mp hid']
    exact lt_next_run hid
  entry_run := by
    intro r hr
    rw [run_ids_start]
    exact List.mem_append_left _ (s.entry_run r hr)
  removal_run := by
    intro r hr
    rw [run_ids_start]
    exact List.mem_append_left _ (s.removal_run r hr)

/-- A run that has ended. -/
def finish (finished_at : ℚ) (run : ScanRun) : ScanRun := { run with finished_at := some finished_at }

theorem run_ids_finish (runs : Table ScanRun.id) (run_id : ℕ) (finished_at : ℚ) :
    run_ids (runs.update (fun run => run.id = run_id) (finish finished_at) (fun _ => rfl))
      = run_ids runs := by
  refine Table.map_key ?_ runs.rows
  intro run
  split <;> rfl

/-- `StagingStore.finish_run`. -/
def finish_run (s : Staging) (run_id : ℕ) (finished_at : ℚ) : Staging where
  scan_run := s.scan_run.update (fun run => run.id = run_id) (finish finished_at) (fun _ => rfl)
  staged_entry := s.staged_entry
  staged_removal := s.staged_removal
  ordered := by
    rw [run_ids_finish]
    exact s.ordered
  entry_run := by
    rw [run_ids_finish]
    exact s.entry_run
  removal_run := by
    rw [run_ids_finish]
    exact s.removal_run

/-- `StagingStore.has_baseline_run`: a metadata run of the volume has finished. -/
def has_baseline_run (s : Staging) (host_id volume_id : String) : Bool :=
  s.scan_run.rows.any fun run =>
    run.host_id = host_id ∧ run.volume_id = volume_id ∧ run.mode = .metadata ∧ run.finished_at.isSome

/-! ## Staging -/

/-- Write the entry table, unless a row of it names no run. -/
def set_entries (s : Staging) (t : Table StagedEntry.key) : Option Staging :=
  if h : ∀ r ∈ t.rows, r.scan_run_id ∈ run_ids s.scan_run then
    some { s with staged_entry := t, entry_run := h }
  else none

/-- Write the removal table, unless a row of it names no run. -/
def set_removals (s : Staging) (t : Table StagedRemoval.key) : Option Staging :=
  if h : ∀ r ∈ t.rows, r.scan_run_id ∈ run_ids s.scan_run then
    some { s with staged_removal := t, removal_run := h }
  else none

/-- The row `stage_batch` proposes for an entry. -/
def staged_row (run_id : ℕ) (host_id volume_id : String) (e : FsEntry) : StagedEntry :=
  ⟨host_id, volume_id, e, none, none, run_id, false⟩

/-- The conflict branch of `_UPSERT`: an entry whose `mtime` and size are as
staged is left alone, and the hashes are left alone anyway. -/
def staged_conflict : Conflict StagedEntry.key where
  guard := fun row excluded =>
    excluded.entry.mtime ≠ row.entry.mtime ∨ excluded.entry.size_logical ≠ row.entry.size_logical
  set := fun row excluded =>
    { row with
      entry := { excluded.entry with dev := row.entry.dev, inode := row.entry.inode }
      scan_run_id := excluded.scan_run_id
      pushed := false }
  set_key := fun _ _ => rfl

theorem staged_guard_iff {row excluded : StagedEntry} :
    staged_conflict.guard row excluded = true ↔
      excluded.entry.mtime ≠ row.entry.mtime ∨
        excluded.entry.size_logical ≠ row.entry.size_logical :=
  decide_eq_true_iff

/-- `StagingStore.stage_batch`. -/
def stage_batch (s : Staging) (run_id : ℕ) (host_id volume_id : String) (entries : List FsEntry) :
    Option Staging :=
  s.set_entries
    (s.staged_entry.upsert_many staged_conflict (entries.map (staged_row run_id host_id volume_id)))

/-- The row `stage_hash` leaves. -/
def set_hash (partial_hash full_hash : String) (run_id : ℕ) (r : StagedEntry) : StagedEntry :=
  { r with
    partial_hash := some partial_hash
    full_hash := some full_hash
    scan_run_id := run_id
    pushed := false }

@[simp] theorem set_hash_key (partial_hash full_hash : String) (run_id : ℕ) (r : StagedEntry) :
    (set_hash partial_hash full_hash run_id r).key = r.key := rfl

/-- `StagingStore.stage_hash`. -/
def stage_hash (s : Staging) (key : StagedKey) (partial_hash full_hash : String) (run_id : ℕ) :
    Option Staging :=
  s.set_entries
    (s.staged_entry.update (fun r => r.key = key) (set_hash partial_hash full_hash run_id)
      (set_hash_key partial_hash full_hash run_id))

/-- What a feed saw removed: `(dev, inode, path)`. -/
structure Removal where
  identity : Identity
  path : String
  deriving DecidableEq

/-- The row `stage_removals` proposes for a removal. -/
def removal_row (run_id : ℕ) (host_id volume_id : String) (r : Removal) : StagedRemoval :=
  ⟨host_id, volume_id, r.identity, r.path, run_id, false⟩

/-- The conflict branch of `stage_removals`, which is not guarded. -/
def removal_conflict : Conflict StagedRemoval.key where
  guard := fun _ _ => true
  set := fun row excluded =>
    { row with path := excluded.path, scan_run_id := excluded.scan_run_id, pushed := false }
  set_key := fun _ _ => rfl

/-- `StagingStore.stage_removals`. -/
def stage_removals (s : Staging) (run_id : ℕ) (host_id volume_id : String) (removals : List Removal) :
    Option Staging :=
  s.set_removals
    (s.staged_removal.upsert_many removal_conflict (removals.map (removal_row run_id host_id volume_id)))

/-! ## The baseline -/

/-- What the baseline keeps of a row. -/
structure Prior where
  mtime : ℚ
  path : String
  deriving DecidableEq

def Prior.of (r : StagedEntry) : Prior := ⟨r.entry.mtime, r.entry.path⟩

/-- The rows of a volume. -/
def rows_of (s : Staging) (host_id volume_id : String) : List StagedEntry :=
  s.staged_entry.rows.filter fun r => r.host_id = host_id ∧ r.volume_id = volume_id

/-- `StagingStore.load_baseline`. -/
def load_baseline (s : Staging) (host_id volume_id : String) : List (Identity × Prior) :=
  (s.rows_of host_id volume_id).map fun r => (r.entry.identity, Prior.of r)

/-- The row of a file. -/
def entry_of (s : Staging) (host_id volume_id : String) (identity : Identity) : Option StagedEntry :=
  s.staged_entry.find ⟨host_id, volume_id, identity⟩

/-! ## The push queue -/

/-- An acknowledged entry. -/
def push_entry (r : StagedEntry) : StagedEntry := { r with pushed := true }

/-- An acknowledged removal. -/
def push_removal (r : StagedRemoval) : StagedRemoval := { r with pushed := true }

/-- The queue of entries: a row waits in its scan run until it is pushed. -/
def entry_outbox : Outbox StagedEntry.key ℕ where
  group := StagedEntry.scan_run_id
  pushed := StagedEntry.pushed
  push := push_entry
  key_push := fun _ => rfl
  group_push := fun _ => rfl
  pushed_push := fun _ => rfl
  push_push := fun _ => rfl

/-- The queue of removals. -/
def removal_outbox : Outbox StagedRemoval.key ℕ where
  group := StagedRemoval.scan_run_id
  pushed := StagedRemoval.pushed
  push := push_removal
  key_push := fun _ => rfl
  group_push := fun _ => rfl
  pushed_push := fun _ => rfl
  push_push := fun _ => rfl

/-- `StagingStore.pending_runs`, oldest first. -/
def pending_runs (s : Staging) : List ScanRun :=
  s.scan_run.rows.filter fun run =>
    s.staged_entry.rows.any (entry_outbox.waits run.id) ||
      s.staged_removal.rows.any (removal_outbox.waits run.id)

/-- `StagingStore.unpushed_for_run`. -/
def unpushed_for_run (s : Staging) (run_id limit : ℕ) : List StagedEntry :=
  entry_outbox.read s.staged_entry run_id limit

/-- `StagingStore.unpushed_removals_for_run`. -/
def unpushed_removals_for_run (s : Staging) (run_id limit : ℕ) : List StagedRemoval :=
  removal_outbox.read s.staged_removal run_id limit

/-- `StagingStore.mark_pushed`: by key alone. -/
def mark_pushed (s : Staging) (keys : List StagedKey) : Staging where
  scan_run := s.scan_run
  staged_entry := entry_outbox.mark s.staged_entry keys
  staged_removal := s.staged_removal
  ordered := s.ordered
  entry_run := by
    intro r hr
    rcases Outbox.mem_mark hr with ⟨row, hrow, -, rfl⟩ | ⟨hmem, -⟩
    · exact s.entry_run row hrow
    · exact s.entry_run r hmem
  removal_run := s.removal_run

/-- `StagingStore.mark_removals_pushed`: by key alone. -/
def mark_removals_pushed (s : Staging) (keys : List StagedKey) : Staging where
  scan_run := s.scan_run
  staged_entry := s.staged_entry
  staged_removal := removal_outbox.mark s.staged_removal keys
  ordered := s.ordered
  entry_run := s.entry_run
  removal_run := by
    intro r hr
    rcases Outbox.mem_mark hr with ⟨row, hrow, -, rfl⟩ | ⟨hmem, -⟩
    · exact s.removal_run row hrow
    · exact s.removal_run r hmem

/-! ## What the statements leave -/

theorem set_entries_spec {u : Staging} {t : Table StagedEntry.key} (h : s.set_entries t = some u) :
    u.scan_run = s.scan_run ∧ u.staged_entry = t ∧ u.staged_removal = s.staged_removal := by
  rw [set_entries] at h
  split at h
  · rw [← Option.some.inj h]
    exact ⟨rfl, rfl, rfl⟩
  · exact absurd h (by simp)

theorem set_removals_spec {u : Staging} {t : Table StagedRemoval.key} (h : s.set_removals t = some u) :
    u.scan_run = s.scan_run ∧ u.staged_entry = s.staged_entry ∧ u.staged_removal = t := by
  rw [set_removals] at h
  split at h
  · rw [← Option.some.inj h]
    exact ⟨rfl, rfl, rfl⟩
  · exact absurd h (by simp)

/-- Entries can be staged in any run there is. -/
theorem stage_batch_some (hrun : run_id ∈ run_ids s.scan_run) (host_id volume_id : String) (entries : List FsEntry) :
    ∃ u, s.stage_batch run_id host_id volume_id entries = some u := by
  have hrows : ∀ r ∈ (s.staged_entry.upsert_many staged_conflict
      (entries.map (staged_row run_id host_id volume_id))).rows, r.scan_run_id ∈ run_ids s.scan_run := by
    apply Table.forall_upsert_many s.entry_run
    · intro x hx
      obtain ⟨e, -, rfl⟩ := List.mem_map.mp hx
      exact hrun
    · intro r x _ hx
      exact hx
  rw [stage_batch, set_entries, dif_pos hrows]
  exact ⟨_, rfl⟩

/-- Removals can be staged in any run there is. -/
theorem stage_removals_some (hrun : run_id ∈ run_ids s.scan_run) (host_id volume_id : String) (removals : List Removal) :
    ∃ u, s.stage_removals run_id host_id volume_id removals = some u := by
  have hrows : ∀ r ∈ (s.staged_removal.upsert_many removal_conflict
      (removals.map (removal_row run_id host_id volume_id))).rows, r.scan_run_id ∈ run_ids s.scan_run := by
    apply Table.forall_upsert_many s.removal_run
    · intro x hx
      obtain ⟨r, -, rfl⟩ := List.mem_map.mp hx
      exact hrun
    · intro r x _ hx
      exact hx
  rw [stage_removals, set_removals, dif_pos hrows]
  exact ⟨_, rfl⟩

/-- An entry waits in one of the runs. -/
theorem run_of_entry (h : entry_outbox.Waiting s.staged_entry run_id) : ∃ run ∈ s.scan_run.rows, run.id = run_id := by
  obtain ⟨r, hr, hwaits⟩ := h
  have hrun := s.entry_run r hr
  rw [show r.scan_run_id = run_id from (Outbox.waits_iff.mp hwaits).1] at hrun
  exact List.mem_map.mp hrun

/-- A removal waits in one of the runs. -/
theorem run_of_removal (h : removal_outbox.Waiting s.staged_removal run_id) :
    ∃ run ∈ s.scan_run.rows, run.id = run_id := by
  obtain ⟨r, hr, hwaits⟩ := h
  have hrun := s.removal_run r hr
  rw [show r.scan_run_id = run_id from (Outbox.waits_iff.mp hwaits).1] at hrun
  exact List.mem_map.mp hrun

theorem mem_pending_runs {run : ScanRun} : run ∈ s.pending_runs ↔ run ∈ s.scan_run.rows ∧
      (entry_outbox.Waiting s.staged_entry run.id ∨ removal_outbox.Waiting s.staged_removal run.id) := by
  rw [pending_runs, List.mem_filter, Bool.or_eq_true, List.any_eq_true, List.any_eq_true]
  rfl

theorem pending_runs_ordered (s : Staging) : (s.pending_runs.map ScanRun.id).Pairwise (· < ·) :=
  s.ordered.sublist (List.filter_sublist.map _)

end Staging

end Fathom.Agent
