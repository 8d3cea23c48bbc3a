/-
**A scan of one scope** (`agent/runner.py`, `agent/reader/`): the first time a full
walk, later the re-stat feed.

* `MetadataScanner.scan` stages what a walk reports, in batches. It stages no
  removals.
* `RestatFeed` walks again, with a walk of its own, and compares with the baseline:
  a file the baseline does not have is created, one with another `mtime` or path is
  modified, and one the walk does not report is deleted. `collect_delta` boils the
  events down to one per file, and `IncrementalScanner.scan` stages them.

Both work on a tree that holds still. The order in which a walk reports its entries
is up to the worker pool, so a scan is given it.
-/
import Fathom.Agent.Walk
import Mathlib.Data.List.Perm.Basic

set_option autoImplicit false

namespace Fathom.Agent

open Fathom.Ingest (Identity VolumeFrame)
open Staging (Prior Removal staged_row staged_conflict removal_row removal_conflict)

/-! ## The feed -/

/-- `ChangeEvent`. -/
inductive ChangeEvent where
  | create (entry : FsEntry)
  | modify (entry : FsEntry)
  | delete (identity : Identity) (path : String)

/-- `baseline.get(key)`. -/
def baseline_get (baseline : List (Identity × Prior)) (identity : Identity) : Option Prior :=
  (baseline.find? fun p => p.1 = identity).map Prod.snd

/-- The event of an entry the re-stat walk reports, if it is one. -/
def change_of (baseline : List (Identity × Prior)) (e : FsEntry) : Option ChangeEvent :=
  match baseline_get baseline e.identity with
  | none => some (.create e)
  | some prior =>
    if prior.mtime ≠ e.mtime ∨ prior.path ≠ e.path then some (.modify e) else none

/-- The baseline entries a walk has not seen. -/
def unseen (baseline : List (Identity × Prior)) (walked : List FsEntry) : List (Identity × Prior) :=
  baseline.filter fun p => p.1 ∉ walked.map FsEntry.identity

/-- `RestatFeed.changes`, given what its walk reports. -/
def restat_changes (baseline : List (Identity × Prior)) (walked : List FsEntry) : List ChangeEvent :=
  walked.filterMap (change_of baseline) ++
    (unseen baseline walked).map fun p => .delete p.1 p.2.path

/-! ## The delta -/

/-- `ChangeDelta`. -/
structure ChangeDelta where
  upserts : List FsEntry
  removals : List Removal

def ChangeDelta.is_empty (delta : ChangeDelta) : Bool := delta.upserts = [] ∧ delta.removals = []

/-- The dictionaries of `collect_delta`. -/
structure Collecting where
  upserts : Table FsEntry.identity
  removed : Table Removal.identity
  created : List Identity

/-- One turn of the loop of `collect_delta`. -/
def Collecting.take (c : Collecting) : ChangeEvent → Collecting
  | .delete identity path =>
    let had_pending := c.upserts.find identity ≠ none
    let c' := { c with upserts := c.upserts.erase identity }
    -- created and deleted within the cycle: nothing is left of it
    if had_pending ∧ identity ∈ c.created then
      { c' with created := c.created.filter fun i => i ≠ identity }
    else { c' with removed := c.removed.put ⟨identity, path⟩ }
  | .create entry =>
    { upserts := c.upserts.put entry
      removed := c.removed.erase entry.identity
      created := entry.identity :: c.created }
  | .modify entry =>
    { c with
      upserts := c.upserts.put entry
      removed := c.removed.erase entry.identity }

/-- The order of `sorted(removed.items())`: by device, then inode. -/
def Removal.le (a b : Removal) : Bool :=
  a.identity.dev < b.identity.dev ∨
    (a.identity.dev = b.identity.dev ∧ a.identity.inode ≤ b.identity.inode)

/-- `collect_delta`. -/
def collect_delta (events : List ChangeEvent) : ChangeDelta :=
  let c := events.foldl Collecting.take ⟨.empty _, .empty _, []⟩
  { upserts := c.upserts.rows, removals := c.removed.rows.mergeSort Removal.le }

/-- The delta of the re-stat feed. -/
def restat_delta (baseline : List (Identity × Prior)) (walked : List FsEntry) : ChangeDelta :=
  collect_delta (restat_changes baseline walked)

/-! ## The scanners -/

/-- What the agent's configuration says of a scan. -/
structure AgentConfig where
  host_id : String
  cross_mounts : Bool
  exclude_scope : List String
  batch_size : ℕ

/-- The scope of a full walk (`_scanner_for`). -/
def AgentConfig.walk_scope (config : AgentConfig) : Scope :=
  ⟨!config.cross_mounts, normalise_excludes config.exclude_scope⟩

/-- The scope of the re-stat walk, which never leaves the filesystem. -/
def AgentConfig.restat_scope (config : AgentConfig) : Scope :=
  ⟨true, normalise_excludes config.exclude_scope⟩

/-- The loop of `MetadataScanner.scan`: entries are staged whenever a batch is full,
and at the end. -/
def stage_walk (config : AgentConfig) (volume_id : String) (run_id : ℕ) :
    List FsEntry → List FsEntry → Staging → Option Staging
  | [], batch, s =>
    if batch = [] then some s else s.stage_batch run_id config.host_id volume_id batch
  | e :: walked, batch, s =>
    if (batch ++ [e]).length ≥ config.batch_size then
      (s.stage_batch run_id config.host_id volume_id (batch ++ [e])).bind
        (stage_walk config volume_id run_id walked [])
    else stage_walk config volume_id run_id walked (batch ++ [e]) s

/-- `MetadataScanner.scan`, given what its walk reports. -/
def metadata_scan (config : AgentConfig) (volume : VolumeFrame) (walked : List FsEntry)
    (finished_at : ℚ) (s : Staging) : Option Staging :=
  let run_id := s.next_run
  let opened := s.start_run config.host_id volume.mountpoint .metadata (some volume)
  (stage_walk config volume.mountpoint run_id walked [] opened).map fun staged =>
    staged.finish_run run_id finished_at

/-- `IncrementalScanner.scan`, given its feed's delta. -/
def incremental_scan (config : AgentConfig) (volume : VolumeFrame) (delta : ChangeDelta)
    (finished_at : ℚ) (s : Staging) : Option Staging :=
  let run_id := s.next_run
  let opened := s.start_run config.host_id volume.mountpoint .metadata (some volume)
  let upserted :=
    if delta.upserts = [] then some opened
    else opened.stage_batch run_id config.host_id volume.mountpoint delta.upserts
  let removed := upserted.bind fun staged =>
    if delta.removals = [] then some staged
    else staged.stage_removals run_id config.host_id volume.mountpoint delta.removals
  removed.map fun staged => staged.finish_run run_id finished_at

/-- What one scan is given: whether a full walk is forced, what `volume_info` says
of the volume, the order in which its walk reports, and the time at its end. -/
structure Scan where
  forced : Bool
  volume : VolumeFrame
  walked : List FsEntry
  finished_at : ℚ

/-- `volume_info`: a volume is identified by the real path of the scan root. -/
def Scan.volume_info (scan : Scan) (root : List FileName) : VolumeFrame :=
  { scan.volume with mountpoint := path_text root }

/-- Whether a scan is incremental: a baseline has been finished, and
`_default_feed_for` has a feed, which it has for everything but ZFS. -/
def Scan.incremental (scan : Scan) (config : AgentConfig) (root : List FileName) (s : Staging) : Bool :=
  scan.forced = false ∧ s.has_baseline_run config.host_id (path_text root) = true ∧
    scan.volume.fs_type ≠ "zfs"

/-- The scope of the walk a scan makes. -/
def Scan.scope (scan : Scan) (config : AgentConfig) (root : List FileName) (s : Staging) : Scope :=
  if scan.incremental config root s then config.restat_scope else config.walk_scope

/-- The delta of an incremental scan. -/
def Scan.delta (scan : Scan) (config : AgentConfig) (root : List FileName) (s : Staging) : ChangeDelta :=
  restat_delta (s.load_baseline config.host_id (path_text root)) scan.walked

/-- `_scan_one_scope`. The walk reports what the tree holds, in some order. -/
def scan_one_scope (config : AgentConfig) (root : List FileName) (tree : Tree) (scan : Scan)
    (s : Staging) : Option Staging :=
  if scan.walked.Perm (tree.walk (scan.scope config root s) root) then
    if scan.incremental config root s then
      incremental_scan config (scan.volume_info root) (scan.delta config root s) scan.finished_at s
    else metadata_scan config (scan.volume_info root) scan.walked scan.finished_at s
  else none

/-! ## What the delta holds -/

section

variable {baseline : List (Identity × Prior)}

/-- The entries the feed reports as created or modified. -/
def changed_entries (baseline : List (Identity × Prior)) (walked : List FsEntry) : List FsEntry :=
  walked.filter fun e => (change_of baseline e).isSome

/-- Creations and modifications fill the upserts; there is nothing to cancel. -/
theorem collect_walked (walked : List FsEntry) (upserts : Table FsEntry.identity) (created : List Identity) :
    ∃ created', (walked.filterMap (change_of baseline)).foldl Collecting.take ⟨upserts, .empty _, created⟩
      = ⟨upserts.upsert_many (Conflict.replace _) (changed_entries baseline walked), .empty _, created'⟩ := by
  induction walked generalizing upserts created with
  | nil => exact ⟨created, rfl⟩
  | cons e walked ih =>
      rw [changed_entries]
      rcases hchange : change_of baseline e with _ | event
      · rw [List.filterMap_cons_none hchange, List.filter_cons_of_neg (by rw [hchange]; simp)]
        exact ih upserts created
      · rw [List.filterMap_cons_some hchange, List.filter_cons_of_pos (by rw [hchange]; rfl),
          Table.upsert_many_cons, List.foldl_cons]
        have hevent : event = .create e ∨ event = .modify e := by
          rw [change_of] at hchange
          split at hchange
          · exact Or.inl (Option.some.inj hchange).symm
          · split at hchange
            · exact Or.inr (Option.some.inj hchange).symm
            · exact absurd hchange (by simp)
        rcases hevent with rfl | rfl
        · exact ih (upserts.put e) (e.identity :: created)
        · exact ih (upserts.put e) created

/-- Deletions of files that are not upserted fill the removals. -/
theorem collect_deletes (dels : List (Identity × Prior)) (c : Collecting)
    (h : ∀ p ∈ dels, c.upserts.find p.1 = none) :
    (dels.map fun p => ChangeEvent.delete p.1 p.2.path).foldl Collecting.take c
      = { c with
          removed := c.removed.upsert_many (Conflict.replace _)
            (dels.map fun p => ⟨p.1, p.2.path⟩) } := by
  induction dels generalizing c with
  | nil => rfl
  | cons p dels ih =>
      have hp := h p List.mem_cons_self
      have hstep : c.take (.delete p.1 p.2.path) = { c with removed := c.removed.put ⟨p.1, p.2.path⟩ } := by
        unfold Collecting.take
        dsimp only
        rw [if_neg (fun hpending => hpending.1 hp), Table.erase_of_find hp]
      rw [List.map_cons, List.foldl_cons, hstep, ih { c with removed := c.removed.put ⟨p.1, p.2.path⟩ }
        fun q hq => h q (List.mem_cons_of_mem _ hq)]
      rfl

/-- **The delta of the re-stat feed**: the changed entries, the last one of each
file, and the files not seen. -/
theorem restat_delta_eq (baseline : List (Identity × Prior)) (walked : List FsEntry) :
    restat_delta baseline walked =
      { upserts := ((Table.empty FsEntry.identity).upsert_many (Conflict.replace _)
          (changed_entries baseline walked)).rows
        removals := ((Table.empty Removal.identity).upsert_many (Conflict.replace _)
          ((unseen baseline walked).map fun p => ⟨p.1, p.2.path⟩)).rows.mergeSort Removal.le } := by
  obtain ⟨created, hwalked⟩ := @collect_walked baseline walked (.empty _) []
  rw [restat_delta, collect_delta, restat_changes, List.foldl_append, hwalked, collect_deletes]
  intro p hp
  -- a file that was not seen is not among the walked ones
  rw [Table.find_none_iff, Table.keys_upsert_many]
  rintro (habs | hmem)
  · exact absurd habs List.not_mem_nil
  · obtain ⟨e, he, heq⟩ := List.mem_map.mp hmem
    have hunseen := of_decide_eq_true (List.mem_filter.mp hp).2
    rw [← heq] at hunseen
    exact hunseen (List.mem_map_of_mem (List.mem_of_mem_filter he))

variable {walked : List FsEntry}

theorem mem_upserts {e : FsEntry} (h : e ∈ (restat_delta baseline walked).upserts) :
    e ∈ walked ∧ (change_of baseline e).isSome = true := by
  rw [restat_delta_eq] at h
  refine List.mem_filter.mp (Table.forall_upsert_many (P := fun e => e ∈ changed_entries baseline walked)
    (fun r hr => absurd hr List.not_mem_nil) (fun x hx => hx) ?_ e h)
  intro r x hr hx
  show (if x.identity = r.identity then x else r) ∈ _
  split
  · exact hx
  · exact hr

/-- A file is upserted when one of its entries has changed. -/
theorem upserts_identity {identity : Identity} :
    identity ∈ (restat_delta baseline walked).upserts.map FsEntry.identity ↔
      ∃ e ∈ walked, e.identity = identity ∧ (change_of baseline e).isSome = true := by
  rw [restat_delta_eq]
  dsimp only
  rw [Table.keys_upsert_many]
  constructor
  · rintro (habs | hmem)
    · exact absurd habs List.not_mem_nil
    · obtain ⟨e, he, heq⟩ := List.mem_map.mp hmem
      have he := List.mem_filter.mp he
      exact ⟨e, he.1, heq, he.2⟩
  · rintro ⟨e, he, heq, hchange⟩
    right
    rw [← heq]
    exact List.mem_map_of_mem (List.mem_filter.mpr ⟨he, hchange⟩)

/-- **The removals are the baseline entries not seen.** -/
theorem mem_removals (hnd : (baseline.map Prod.fst).Nodup) {r : Removal} :
    r ∈ (restat_delta baseline walked).removals ↔ (∃ prior, (r.identity, prior) ∈ baseline ∧ r.path = prior.path) ∧
        r.identity ∉ walked.map FsEntry.identity := by
  have hunseen : ((unseen baseline walked).map fun p => (⟨p.1, p.2.path⟩ : Removal)).map Removal.identity
      |>.Nodup := by
    rw [List.map_map]
    exact hnd.sublist (List.filter_sublist.map _)
  rw [restat_delta_eq]
  dsimp only
  rw [List.mem_mergeSort, Table.mem_upsert_many_empty _ hunseen, List.mem_map]
  constructor
  · rintro ⟨p, hp, rfl⟩
    have hp := List.mem_filter.mp hp
    exact ⟨⟨p.2, hp.1, rfl⟩, of_decide_eq_true hp.2⟩
  · rintro ⟨⟨prior, hprior, hpath⟩, hseen⟩
    refine ⟨(r.identity, prior), List.mem_filter.mpr ⟨hprior, decide_eq_true hseen⟩, ?_⟩
    cases r
    rw [Removal.mk.injEq]
    exact ⟨rfl, hpath.symm⟩

theorem removals_nodup (walked : List FsEntry) :
    ((restat_delta baseline walked).removals.map Removal.identity).Nodup := by
  rw [restat_delta_eq]
  dsimp only
  have hperm := (List.mergeSort_perm ((Table.empty Removal.identity).upsert_many (Conflict.replace _)
    ((unseen baseline walked).map fun p => ⟨p.1, p.2.path⟩)).rows Removal.le).map Removal.identity
  exact hperm.nodup_iff.mpr (Table.unique _)

end

/-! ## What a scan stages -/

/-- The entries a scan stages. -/
def Scan.staged (scan : Scan) (config : AgentConfig) (root : List FileName) (s : Staging) : List FsEntry :=
  if scan.incremental config root s then (scan.delta config root s).upserts else scan.walked

/-- The removals a scan stages: a full walk stages none. -/
def Scan.removed (scan : Scan) (config : AgentConfig) (root : List FileName) (s : Staging) : List Removal :=
  if scan.incremental config root s then (scan.delta config root s).removals else []

/-- What a scan leaves of a staging database. -/
structure Scanned (config : AgentConfig) (root : List FileName) (scan : Scan) (s s' : Staging) : Prop where
  entries : s'.staged_entry = s.staged_entry.upsert_many staged_conflict
    ((scan.staged config root s).map (staged_row s.next_run config.host_id (path_text root)))
  removals : s'.staged_removal = s.staged_removal.upsert_many removal_conflict
    ((scan.removed config root s).map (removal_row s.next_run config.host_id (path_text root)))
  runs : s'.scan_run
    = ((s.start_run config.host_id (path_text root) .metadata (some (scan.volume_info root))).finish_run
        s.next_run scan.finished_at).scan_run

variable {config : AgentConfig} {run_id : ℕ} {root : List FileName} {scan : Scan} {tree : Tree} {s : Staging}

/-- However a walk is cut into batches, all of it is staged, in order. -/
theorem stage_walk_spec {volume_id : String} {walked batch : List FsEntry} {s' : Staging}
    (h : stage_walk config volume_id run_id walked batch s = some s') :
    s'.scan_run = s.scan_run ∧ s'.staged_entry = s.staged_entry.upsert_many staged_conflict
        ((batch ++ walked).map (staged_row run_id config.host_id volume_id)) ∧
      s'.staged_removal = s.staged_removal := by
  induction walked generalizing batch s with
  | nil =>
      rw [stage_walk] at h
      rw [List.append_nil]
      split at h
      · rename_i hnil
        rw [← Option.some.inj h, hnil]
        exact ⟨rfl, rfl, rfl⟩
      · exact Staging.set_entries_spec h
  | cons e walked ih =>
      rw [stage_walk] at h
      have hbatch : batch ++ e :: walked = (batch ++ [e]) ++ walked := by
        rw [List.append_assoc, List.singleton_append]
      rw [hbatch]
      split at h
      · obtain ⟨u, hu, hrest⟩ := Option.bind_eq_some_iff.mp h
        obtain ⟨hruns, hentries, hremovals⟩ := Staging.set_entries_spec hu
        obtain ⟨hruns', hentries', hremovals'⟩ := ih hrest
        refine ⟨hruns'.trans hruns, ?_, hremovals'.trans hremovals⟩
        rw [hentries', hentries, List.nil_append, ← Table.upsert_many_append, ← List.map_append]
      · exact ih h

theorem finish_run_congr {u v : Staging} {finished_at : ℚ} (h : u.scan_run = v.scan_run) :
    (u.finish_run run_id finished_at).scan_run = (v.finish_run run_id finished_at).scan_run := by
  exact congrArg (fun t : Table ScanRun.id => t.update (fun run => run.id = run_id)
    (Staging.finish finished_at) (fun _ => rfl)) h

theorem metadata_scan_spec {s' : Staging} (hfull : scan.incremental config root s = false)
    (h : metadata_scan config (scan.volume_info root) scan.walked scan.finished_at s = some s') :
    Scanned config root scan s s' := by
  obtain ⟨u, hu, rfl⟩ := Option.map_eq_some_iff.mp h
  obtain ⟨hruns, hentries, hremovals⟩ := stage_walk_spec hu
  rw [List.nil_append] at hentries
  refine ⟨?_, ?_, ?_⟩
  · rw [Scan.staged, hfull, if_neg Bool.false_ne_true]
    exact hentries
  · rw [Scan.removed, hfull, if_neg Bool.false_ne_true]
    exact hremovals
  · exact finish_run_congr hruns

theorem incremental_scan_spec {s' : Staging} (hincremental : scan.incremental config root s = true)
    (h : incremental_scan config (scan.volume_info root) (scan.delta config root s) scan.finished_at s
      = some s') : Scanned config root scan s s' := by
  obtain ⟨u, hu, rfl⟩ := Option.map_eq_some_iff.mp h
  obtain ⟨v, hv, hu⟩ := Option.bind_eq_some_iff.mp hu
  -- nothing to upsert and nothing to remove are calls that are not made
  have hupserted : v.scan_run = (s.start_run config.host_id (path_text root) .metadata
        (some (scan.volume_info root))).scan_run ∧
      v.staged_entry = s.staged_entry.upsert_many staged_conflict
        ((scan.delta config root s).upserts.map (staged_row s.next_run config.host_id (path_text root))) ∧
      v.staged_removal = s.staged_removal := by
    split at hv
    · rename_i hnil
      rw [← Option.some.inj hv, hnil]
      exact ⟨rfl, rfl, rfl⟩
    · exact Staging.set_entries_spec hv
  obtain ⟨hruns, hentries, hremovals⟩ := hupserted
  have hremoved : u.scan_run = v.scan_run ∧ u.staged_entry = v.staged_entry ∧
      u.staged_removal = v.staged_removal.upsert_many removal_conflict
        ((scan.delta config root s).removals.map (removal_row s.next_run config.host_id (path_text root))) := by
    split at hu
    · rename_i hnil
      rw [← Option.some.inj hu, hnil]
      exact ⟨rfl, rfl, rfl⟩
    · exact Staging.set_removals_spec hu
  obtain ⟨hruns', hentries', hremovals'⟩ := hremoved
  refine ⟨?_, ?_, ?_⟩
  · rw [Scan.staged, hincremental, if_pos rfl, ← hentries, ← hentries']
    rfl
  · rw [Scan.removed, hincremental, if_pos rfl, ← hremovals, ← hremovals']
    rfl
  · exact finish_run_congr (hruns'.trans hruns)

/-- **What a scan does**, of either kind: the walk it made, and what it staged. -/
theorem scan_one_scope_spec {s' : Staging} (h : scan_one_scope config root tree scan s = some s') :
    scan.walked.Perm (tree.walk (scan.scope config root s) root) ∧ Scanned config root scan s s' := by
  rw [scan_one_scope] at h
  split at h
  · rename_i hperm
    refine ⟨hperm, ?_⟩
    split at h
    · rename_i hincremental
      exact incremental_scan_spec hincremental h
    · rename_i hfull
      exact metadata_scan_spec (Bool.eq_false_iff.mpr hfull) h
  · exact absurd h (by simp)

/-- A walk can be staged in any run there is. -/
theorem stage_walk_some {volume_id : String} {walked batch : List FsEntry} (hrun : run_id ∈ run_ids s.scan_run) :
    ∃ s', stage_walk config volume_id run_id walked batch s = some s' := by
  induction walked generalizing batch s with
  | nil =>
      rw [stage_walk]
      split
      · exact ⟨s, rfl⟩
      · exact Staging.stage_batch_some hrun _ _ batch
  | cons e walked ih =>
      rw [stage_walk]
      split
      · obtain ⟨u, hu⟩ := Staging.stage_batch_some hrun config.host_id volume_id (batch ++ [e])
        obtain ⟨hruns, -, -⟩ := Staging.set_entries_spec hu
        rw [hu, Option.bind_some]
        apply ih
        rw [hruns]
        exact hrun
      · exact ih hrun

/-- **A scan that reports what its walk finds succeeds.** -/
theorem scan_one_scope_some (hperm : scan.walked.Perm (tree.walk (scan.scope config root s) root)) :
    ∃ s', scan_one_scope config root tree scan s = some s' := by
  have hrun : ∀ volume_id volume, s.next_run ∈
      run_ids (s.start_run config.host_id volume_id .metadata volume).scan_run := by
    intro volume_id volume
    show s.next_run ∈ run_ids (s.scan_run.put _)
    rw [Staging.run_ids_start]
    exact List.mem_append_right _ (List.mem_singleton.mpr rfl)
  rw [scan_one_scope, if_pos hperm]
  split
  · -- an incremental scan: the upserts, then the removals
    have hupserted : ∃ v, (if (scan.delta config root s).upserts = []
          then some (s.start_run config.host_id (path_text root) .metadata (some (scan.volume_info root)))
          else (s.start_run config.host_id (path_text root) .metadata
            (some (scan.volume_info root))).stage_batch s.next_run config.host_id (path_text root)
              (scan.delta config root s).upserts) = some v ∧
        s.next_run ∈ run_ids v.scan_run := by
      split
      · exact ⟨_, rfl, hrun _ _⟩
      · obtain ⟨v, hv⟩ := Staging.stage_batch_some (hrun (path_text root) (some (scan.volume_info root)))
          config.host_id (path_text root) (scan.delta config root s).upserts
        refine ⟨v, hv, ?_⟩
        rw [(Staging.set_entries_spec hv).1]
        exact hrun _ _
    obtain ⟨v, hv, hvrun⟩ := hupserted
    have hremoved : ∃ u, (if (scan.delta config root s).removals = [] then some v
        else v.stage_removals s.next_run config.host_id (path_text root)
          (scan.delta config root s).removals) = some u := by
      split
      · exact ⟨v, rfl⟩
      · exact Staging.stage_removals_some hvrun _ _ _
    obtain ⟨u, hu⟩ := hremoved
    refine ⟨u.finish_run s.next_run scan.finished_at, ?_⟩
    refine Option.map_eq_some_iff.mpr ⟨u, ?_, rfl⟩
    exact Option.bind_eq_some_iff.mpr ⟨v, hv, hu⟩
  · have hstaged : ∃ u, stage_walk config (path_text root) s.next_run scan.walked []
        (s.start_run config.host_id (path_text root) .metadata (some (scan.volume_info root))) = some u :=
      stage_walk_some (hrun _ _)
    obtain ⟨u, hu⟩ := hstaged
    exact ⟨u.finish_run s.next_run scan.finished_at, Option.map_eq_some_iff.mpr ⟨u, hu, rfl⟩⟩

/-! ## The baseline -/

section

variable {s : Staging} {host_id volume_id : String}

theorem mem_rows_of {r : StagedEntry} : r ∈ s.rows_of host_id volume_id ↔
      r ∈ s.staged_entry.rows ∧ r.host_id = host_id ∧ r.volume_id = volume_id := by
  rw [Staging.rows_of, List.mem_filter, decide_eq_true_iff]

theorem entry_of_iff {identity : Identity} {r : StagedEntry} : s.entry_of host_id volume_id identity = some r ↔
      r ∈ s.rows_of host_id volume_id ∧ r.entry.identity = identity := by
  rw [Staging.entry_of, Table.find_some_iff, mem_rows_of, StagedEntry.key, StagedKey.mk.injEq]
  tauto

theorem baseline_nodup : ((s.load_baseline host_id volume_id).map Prod.fst).Nodup := by
  have hkeys : ((s.rows_of host_id volume_id).map StagedEntry.key).Nodup :=
    s.staged_entry.unique.sublist (List.filter_sublist.map _)
  rw [Staging.load_baseline, List.map_map]
  refine (List.nodup_map_iff_inj_on ?_).mpr ?_
  · exact hkeys.of_map _
  · intro r hr r' hr' heq
    have hmem := mem_rows_of.mp hr
    have hmem' := mem_rows_of.mp hr'
    refine Table.eq_of_key hmem.1 hmem'.1 ?_
    rw [StagedEntry.key, StagedEntry.key, hmem.2.1, hmem.2.2, hmem'.2.1, hmem'.2.2,
      show r.entry.identity = r'.entry.identity from heq]

/-- The baseline says of a file what its staged row says. -/
theorem mem_load_baseline {identity : Identity} {prior : Prior} :
    (identity, prior) ∈ s.load_baseline host_id volume_id ↔
      ∃ r, s.entry_of host_id volume_id identity = some r ∧ prior = Prior.of r := by
  rw [Staging.load_baseline, List.mem_map]
  constructor
  · rintro ⟨r, hr, heq⟩
    rw [Prod.mk.injEq] at heq
    exact ⟨r, entry_of_iff.mpr ⟨hr, heq.1⟩, heq.2.symm⟩
  · rintro ⟨r, hr, rfl⟩
    have hr := entry_of_iff.mp hr
    exact ⟨r, hr.1, by rw [hr.2]⟩

theorem baseline_get_load (identity : Identity) : baseline_get (s.load_baseline host_id volume_id) identity
      = (s.entry_of host_id volume_id identity).map Prior.of := by
  rw [baseline_get]
  rcases hfind : (s.load_baseline host_id volume_id).find? (fun p => p.1 = identity) with _ | p
  · rcases hentry : s.entry_of host_id volume_id identity with _ | r
    · rw [hfind]
      rfl
    · rw [List.find?_eq_none] at hfind
      exact absurd (decide_eq_true rfl) (hfind _ (mem_load_baseline.mpr ⟨r, hentry, rfl⟩))
  · have hmem := List.mem_of_find?_eq_some hfind
    have hdecide := List.find?_some hfind
    have hp : p.1 = identity := of_decide_eq_true hdecide
    rw [hfind]
    obtain ⟨r, hr, hprior⟩ := mem_load_baseline.mp (show (p.1, p.2) ∈ _ from hmem)
    rw [hp] at hr
    rw [hr, Option.map_some, Option.map_some, hprior]

/-- An entry is no change when its staged row has its `mtime` and its path. -/
theorem change_of_none_iff {e : FsEntry} : change_of (s.load_baseline host_id volume_id) e = none ↔
      ∃ r, s.entry_of host_id volume_id e.identity = some r ∧ r.entry.mtime = e.mtime ∧ r.entry.path = e.path := by
  rw [change_of, baseline_get_load]
  rcases hentry : s.entry_of host_id volume_id e.identity with _ | r
  · simp
  · rw [Option.map_some]
    dsimp only
    by_cases hchanged : (Prior.of r).mtime ≠ e.mtime ∨ (Prior.of r).path ≠ e.path
    · rw [if_pos hchanged]
      constructor
      · intro habs
        exact absurd habs (by simp)
      · rintro ⟨r', hr', hmtime, hpath⟩
        rw [← Option.some.inj hr'] at hmtime hpath
        rcases hchanged with hne | hne
        · exact absurd hmtime hne
        · exact absurd hpath hne
    · rw [if_neg hchanged]
      rw [not_or, not_not, not_not] at hchanged
      exact ⟨fun _ => ⟨r, rfl, hchanged.1, hchanged.2⟩, fun _ => rfl⟩

end

/-! ## Row by row -/

/-- Entries that report one file agree on its `mtime` and size. -/
def Alike (entries : List FsEntry) : Prop :=
  ∀ e ∈ entries, ∀ e' ∈ entries, e.identity = e'.identity →
    e.mtime = e'.mtime ∧ e.size_logical = e'.size_logical

/-- What a walk reports is alike. -/
theorem alike_of_walk {scope : Scope} {walked : List FsEntry} (hperm : walked.Perm (tree.walk scope root)) :
    Alike walked := fun _ he _ he' h =>
  Tree.walk_agree (hperm.mem_iff.mp he) (hperm.mem_iff.mp he') h

/-- What a scan stages it has walked. -/
theorem mem_walked_of_staged {e : FsEntry} (h : e ∈ scan.staged config root s) : e ∈ scan.walked := by
  rw [Scan.staged] at h
  split at h
  · exact (mem_upserts h).1
  · exact h

/-- The first of the entries that report a file. -/
def first_entry (entries : List FsEntry) (identity : Identity) : Option FsEntry :=
  entries.find? fun e => e.identity = identity

theorem first_entry_some {entries : List FsEntry} {identity : Identity} {e : FsEntry}
    (h : first_entry entries identity = some e) : e ∈ entries ∧ e.identity = identity :=
  have hdecide := List.find?_some h
  ⟨List.mem_of_find?_eq_some h, of_decide_eq_true hdecide⟩

theorem first_entry_none {entries : List FsEntry} {identity : Identity} :
    first_entry entries identity = none ↔ ∀ e ∈ entries, e.identity ≠ identity := by
  rw [first_entry, List.find?_eq_none]
  exact forall₂_congr fun e _ => by simp

/-- What is staged of an entry is settled against the entries that agree with it. -/
theorem staged_settled (before : Option StagedEntry) {host_id volume_id : String} {e e' : FsEntry}
    (hmtime : e'.mtime = e.mtime) (hsize : e'.size_logical = e.size_logical) :
    staged_conflict.guard (Table.stored staged_conflict before (staged_row run_id host_id volume_id e))
      (staged_row run_id host_id volume_id e') = false := by
  rw [Bool.eq_false_iff]
  intro hguard
  rw [Staging.staged_guard_iff] at hguard
  have hstored : (Table.stored staged_conflict before (staged_row run_id host_id volume_id e)).entry.mtime
        = e.mtime ∧
      (Table.stored staged_conflict before (staged_row run_id host_id volume_id e)).entry.size_logical
        = e.size_logical := by
    rcases before with _ | r
    · exact ⟨rfl, rfl⟩
    · show (if staged_conflict.guard r _ then staged_conflict.set r _ else r).entry.mtime = _ ∧
        (if staged_conflict.guard r _ then staged_conflict.set r _ else r).entry.size_logical = _
      split
      · exact ⟨rfl, rfl⟩
      · rename_i hkept
        rw [Staging.staged_guard_iff, not_or, not_not, not_not] at hkept
        exact ⟨hkept.1.symm, hkept.2.symm⟩
  rw [hstored.1, hstored.2] at hguard
  rcases hguard with hne | hne
  · exact hne hmtime
  · exact hne hsize

section

variable {config : AgentConfig} {root : List FileName} {tree : Tree} {scan : Scan} {s s' : Staging}

/-- **The row of a file after a scan**: what is stored of the first entry staged for
it, if one is. -/
theorem entry_of_scanned (hperm : scan.walked.Perm (tree.walk (scan.scope config root s) root))
    (h : Scanned config root scan s s') (identity : Identity) :
    s'.entry_of config.host_id (path_text root) identity =
      match first_entry (scan.staged config root s) identity with
      | none => s.entry_of config.host_id (path_text root) identity
      | some e => some (Table.stored staged_conflict (s.entry_of config.host_id (path_text root) identity)
          (staged_row s.next_run config.host_id (path_text root) e)) := by
  have halike := alike_of_walk hperm
  rw [Staging.entry_of, h.entries]
  rcases hfirst : first_entry (scan.staged config root s) identity with _ | e
  · refine Table.find_upsert_many_other staged_conflict ?_
    rw [List.map_map, List.mem_map]
    rintro ⟨e, he, heq⟩
    exact first_entry_none.mp hfirst e he (StagedKey.mk.inj heq).2.2
  · obtain ⟨he, hid⟩ := first_entry_some hfirst
    refine Table.find_upsert_many_first ?_ ?_
    · rw [List.find?_map]
      have hsame : (fun e => decide ((staged_row s.next_run config.host_id (path_text root) e).key
            = ⟨config.host_id, path_text root, identity⟩))
          = fun e : FsEntry => decide (e.identity = identity) := by
        funext e
        rw [decide_eq_decide]
        exact ⟨fun heq => (StagedKey.mk.inj heq).2.2, fun heq => by rw [← heq]; rfl⟩
      rw [show (fun y => decide (StagedEntry.key y = _)) ∘ staged_row s.next_run config.host_id
        (path_text root) = _ from hsame]
      rw [show List.find? _ _ = some e from hfirst]
      rfl
    · intro r hr hkey
      obtain ⟨e', he', rfl⟩ := List.mem_map.mp hr
      have hid' : e'.identity = identity := (StagedKey.mk.inj hkey).2.2
      obtain ⟨hmtime, hsize⟩ := halike e' (mem_walked_of_staged he') e (mem_walked_of_staged he)
        (hid'.trans hid.symm)
      exact staged_settled _ hmtime hsize

end

end Fathom.Agent
