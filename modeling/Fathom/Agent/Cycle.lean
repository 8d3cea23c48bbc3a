/-
**A scan cycle and the histories of a volume** (`agent/runner.py`).

A cycle scans one scope and, after a full walk that the operator has asked to hash
as well, makes a full-bit pass over what is staged (`_run_fullbit`,
`FullBitScanner.scan_grouped`). Neither is one transaction. A cycle is a sequence of
calls on the staging store, the disk changes meanwhile, a drain may be under way, and
the process may be stopped between any two calls.

So a history of a volume is one of changes of its tree, of single calls and of
single steps of the drain. What a call stages it has read from the tree as it was at
some time. `scan_cycle_calls` says that a cycle is a run of such calls.
-/
import Fathom.Agent.Scan
import Fathom.Agent.Drain

set_option autoImplicit false

namespace Fathom.Agent

open Fathom.Ingest (Identity Mode VolumeFrame)
open Staging (staged_row staged_conflict removal_row removal_conflict set_hash)

/-! ## A cycle -/

/-- What a full-bit pass has hashed, in the order in which it stages it, and the time
at its end. -/
structure HashPass where
  hashes : List (Identity × String × String)
  finished_at : ℚ

/-- A scan, and the full-bit pass that follows a full walk if there is one. -/
structure Cycle where
  scan : Scan
  pass : Option HashPass

/-- The calls of `_stage`, one for each file hashed. -/
def stage_hashes (config : AgentConfig) (volume_id : String) (run_id : ℕ) :
    List (Identity × String × String) → Staging → Option Staging
  | [], s => some s
  | (identity, partial_hash, full_hash) :: hashes, s =>
    (s.stage_hash ⟨config.host_id, volume_id, identity⟩ partial_hash full_hash run_id).bind
      (stage_hashes config volume_id run_id hashes)

/-- `FullBitScanner.scan_grouped`, given what it hashes. -/
def fullbit_scan (config : AgentConfig) (volume : VolumeFrame) (pass : HashPass) (s : Staging) :
    Option Staging :=
  let run_id := s.next_run
  let opened := s.start_run config.host_id volume.mountpoint .fullbit (some volume)
  (stage_hashes config volume.mountpoint run_id pass.hashes opened).map fun staged =>
    staged.finish_run run_id pass.finished_at

/-- One scope of `run_agent`. An incremental cycle defers the full-bit pass. -/
def scan_cycle (config : AgentConfig) (root : List FileName) (tree : Tree) (cycle : Cycle)
    (s : Staging) : Option Staging :=
  (scan_one_scope config root tree cycle.scan s).bind fun scanned =>
    if cycle.scan.incremental config root s then some scanned
    else
      match cycle.pass with
      | none => some scanned
      | some pass => fullbit_scan config (cycle.scan.volume_info root) pass scanned

/-! ## Calls for a volume -/

/-- An entry that a walk of one of the trees has reported. -/
def walked_from (config : AgentConfig) (root : List FileName) (trees : List Tree) (e : FsEntry) : Bool :=
  trees.any fun tree =>
    e ∈ tree.walk config.walk_scope root ∨ e ∈ tree.walk config.restat_scope root

/-- The calls an agent makes for one volume, once it has read these trees. -/
def Write.of_volume (config : AgentConfig) (root : List FileName) (trees : List Tree) : Write → Bool
  | .start_run host_id volume_id _ volume =>
    host_id = config.host_id ∧ volume_id = path_text root ∧
      ∀ frame ∈ volume, frame.mountpoint = path_text root
  | .finish_run _ _ => true
  | .stage_batch _ host_id volume_id entries =>
    host_id = config.host_id ∧ volume_id = path_text root ∧ entries.all (walked_from config root trees)
  | .stage_hash _ _ _ _ => true
  | .stage_removals _ host_id volume_id _ => host_id = config.host_id ∧ volume_id = path_text root

/-- The runs of calls for one volume. -/
def calls_of (config : AgentConfig) (root : List FileName) (trees : List Tree) : System Staging Write where
  init := fun s => s = .empty
  step := fun s call => if call.of_volume config root trees then s.write call else none

/-! ## Histories -/

/-- A volume, as it is and as it was before, and the agent that scans it. -/
structure World where
  tree : Tree
  past : List Tree
  station : Station

/-- What happens next. -/
inductive Happening where
  /-- the filesystem changes -/
  | change (tree : Tree)
  /-- a call of a scan or of a full-bit pass -/
  | write (call : Write)
  /-- a step of the drain -/
  | move (move : Move)

/-- One step of a history. -/
def World.step (config : AgentConfig) (root : List FileName) (link : Uplink) (w : World) :
    Happening → Option World
  | .change tree => some ⟨tree, w.tree :: w.past, w.station⟩
  | .write call =>
    if call.of_volume config root (w.tree :: w.past) then
      (w.station.write call).map fun station => { w with station := station }
    else none
  | .move m => (w.station.move link m).map fun station => { w with station := station }

/-- **The histories of one volume**: its tree, the scans of it and the drain, in any
order and with any interleaving. The core may hold anything to begin with. -/
def volume_history (config : AgentConfig) (root : List FileName) (link : Uplink) :
    System World Happening where
  init := fun w => w.station.staging = .empty ∧ w.station.pc = .idle .fresh
  step := World.step config root link

/-! ## A cycle is a run of calls -/

section

variable {config : AgentConfig} {root : List FileName} {tree : Tree} {s s' : Staging}

theorem calls_step {trees : List Tree} {call : Write} (hcall : call.of_volume config root trees = true)
    (h : s.write call = some s') : (calls_of config root trees).run s [call] = some s' := by
  rw [System.run_singleton]
  show (if call.of_volume config root trees then s.write call else none) = some s'
  rw [if_pos hcall, h]

theorem calls_trans {trees : List Tree} {u : Staging} {calls calls' : List Write}
    (h : (calls_of config root trees).run s calls = some u) (h' : (calls_of config root trees).run u calls' = some s') :
    (calls_of config root trees).run s (calls ++ calls') = some s' := by
  rw [System.run_append, h, Option.bind_some, h']

/-- A walk is staged in calls, batch by batch. -/
theorem stage_walk_calls {run_id : ℕ} {walked batch : List FsEntry}
    (hwalked : ∀ e ∈ batch ++ walked, walked_from config root [tree] e = true)
    (h : stage_walk config (path_text root) run_id walked batch s = some s') :
    ∃ calls, (calls_of config root [tree]).run s calls = some s' := by
  have hcall : ∀ entries : List FsEntry, (∀ e ∈ entries, walked_from config root [tree] e = true) →
      (Write.stage_batch run_id config.host_id (path_text root) entries).of_volume config root [tree]
        = true := by
    intro entries hentries
    exact decide_eq_true ⟨rfl, rfl, List.all_eq_true.mpr hentries⟩
  induction walked generalizing batch s with
  | nil =>
      rw [stage_walk] at h
      rw [List.append_nil] at hwalked
      split at h
      · exact ⟨[], h⟩
      · exact ⟨_, calls_step (hcall batch hwalked) h⟩
  | cons e walked ih =>
      have hsplit : batch ++ e :: walked = (batch ++ [e]) ++ walked := List.append_cons _ _ _
      rw [hsplit] at hwalked
      rw [stage_walk] at h
      split at h
      · obtain ⟨u, hu, hrest⟩ := Option.bind_eq_some_iff.mp h
        have hfirst := calls_step
          (hcall (batch ++ [e]) fun x hx => hwalked x (List.mem_append_left _ hx)) hu
        obtain ⟨calls, hcalls⟩ := ih (fun x hx => hwalked x (List.mem_append_right _ hx)) hrest
        exact ⟨_, calls_trans hfirst hcalls⟩
      · exact ih hwalked h

/-- The call that opens a run of the volume. -/
theorem start_run_calls (s : Staging) (mode : Mode) {volume : VolumeFrame}
    (hvolume : volume.mountpoint = path_text root) (trees : List Tree) : (calls_of config root trees).run s
        [.start_run config.host_id (path_text root) mode (some volume)]
      = some (s.start_run config.host_id (path_text root) mode (some volume)) := by
  refine calls_step (decide_eq_true ⟨rfl, rfl, ?_⟩) rfl
  intro frame hframe
  rw [← Option.some.inj hframe]
  exact hvolume

/-- The call that closes a run. -/
theorem finish_run_calls (s : Staging) (run_id : ℕ) (finished_at : ℚ) (trees : List Tree) :
    (calls_of config root trees).run s [.finish_run run_id finished_at]
      = some (s.finish_run run_id finished_at) := calls_step rfl rfl

theorem stage_hashes_calls {run_id : ℕ} {hashes : List (Identity × String × String)} {trees : List Tree}
    (h : stage_hashes config (path_text root) run_id hashes s = some s') :
    ∃ calls, (calls_of config root trees).run s calls = some s' := by
  induction hashes generalizing s with
  | nil => exact ⟨[], h⟩
  | cons hash hashes ih =>
      obtain ⟨identity, partial_hash, full_hash⟩ := hash
      obtain ⟨u, hu, hrest⟩ := Option.bind_eq_some_iff.mp h
      obtain ⟨calls, hcalls⟩ := ih hrest
      have hfirst : (calls_of config root trees).run s
          [.stage_hash ⟨config.host_id, path_text root, identity⟩ partial_hash full_hash run_id] = some u :=
        calls_step rfl hu
      exact ⟨_, calls_trans hfirst hcalls⟩

/-- What a scan stages, a walk of the tree has reported. -/
theorem walked_from_scan {scan : Scan}
    (hperm : scan.walked.Perm (tree.walk (scan.scope config root s) root)) {e : FsEntry}
    (he : e ∈ scan.walked) : walked_from config root [tree] e = true := by
  refine List.any_eq_true.mpr ⟨tree, List.mem_singleton.mpr rfl, decide_eq_true ?_⟩
  have hwalk := hperm.mem_iff.mp he
  rw [Scan.scope] at hwalk
  split at hwalk
  · exact Or.inr hwalk
  · exact Or.inl hwalk

theorem scan_one_scope_calls {scan : Scan} (h : scan_one_scope config root tree scan s = some s') :
    ∃ calls, (calls_of config root [tree]).run s calls = some s' := by
  have hperm := (scan_one_scope_spec h).1
  have hopened := @start_run_calls config root s .metadata (scan.volume_info root) rfl [tree]
  rw [scan_one_scope, if_pos hperm] at h
  split at h
  · -- upserts, removals, and the end of the run
    rename_i hincremental
    obtain ⟨u, hu, rfl⟩ := Option.map_eq_some_iff.mp h
    obtain ⟨v, hv, hu⟩ := Option.bind_eq_some_iff.mp hu
    have hupserted : ∃ calls, (calls_of config root [tree]).run
        (s.start_run config.host_id (path_text root) .metadata (some (scan.volume_info root))) calls
          = some v := by
      split at hv
      · exact ⟨[], hv⟩
      · refine ⟨[.stage_batch s.next_run config.host_id (path_text root)
          (scan.delta config root s).upserts], calls_step (decide_eq_true ⟨rfl, rfl, ?_⟩) hv⟩
        exact List.all_eq_true.mpr fun e he => walked_from_scan hperm (mem_upserts he).1
    have hremoved : ∃ calls, (calls_of config root [tree]).run v calls = some u := by
      split at hu
      · exact ⟨[], hu⟩
      · exact ⟨[.stage_removals s.next_run config.host_id (path_text root)
          (scan.delta config root s).removals], calls_step (decide_eq_true ⟨rfl, rfl⟩) hu⟩
    obtain ⟨upserts, hupserts⟩ := hupserted
    obtain ⟨removals, hremovals⟩ := hremoved
    exact ⟨_, calls_trans hopened
      (calls_trans hupserts (calls_trans hremovals (finish_run_calls u _ _ _)))⟩
  · obtain ⟨u, hu, rfl⟩ := Option.map_eq_some_iff.mp h
    have hwalked : ∀ e ∈ ([] : List FsEntry) ++ scan.walked, walked_from config root [tree] e = true :=
      fun e he => walked_from_scan hperm he
    obtain ⟨calls, hcalls⟩ := stage_walk_calls hwalked hu
    exact ⟨_, calls_trans hopened (calls_trans hcalls (finish_run_calls u _ _ _))⟩

/-- **A cycle is a run of calls for its volume.** -/
theorem scan_cycle_calls {cycle : Cycle} (h : scan_cycle config root tree cycle s = some s') :
    ∃ calls, (calls_of config root [tree]).run s calls = some s' := by
  obtain ⟨u, hscan, h⟩ := Option.bind_eq_some_iff.mp h
  obtain ⟨scanning, hscanning⟩ := scan_one_scope_calls hscan
  split at h
  · rw [← Option.some.inj h]
    exact ⟨scanning, hscanning⟩
  split at h
  · rw [← Option.some.inj h]
    exact ⟨scanning, hscanning⟩
  · rename_i pass hpass
    obtain ⟨v, hv, rfl⟩ := Option.map_eq_some_iff.mp h
    have hopened := @start_run_calls config root u .fullbit (cycle.scan.volume_info root) rfl [tree]
    have hhashed : ∃ calls, (calls_of config root [tree]).run
        (u.start_run config.host_id (path_text root) .fullbit (some (cycle.scan.volume_info root))) calls
          = some v := stage_hashes_calls hv
    obtain ⟨hashing, hhashing⟩ := hhashed
    exact ⟨_, calls_trans hscanning
      (calls_trans hopened (calls_trans hhashing (finish_run_calls v _ _ _)))⟩

end

end Fathom.Agent
