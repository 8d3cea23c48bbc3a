/-
**The drain** (`agent/transport/push.py`): waiting rows go to the core in chunks,
run by run, and are marked pushed when a chunk has been acknowledged.

`PushClient.drain` awaits the network between the read of a chunk and its mark, and
the staging database is shared: a scan requested by the core writes to it at any
time (`actor/listen.py`). So the drain is a process with a program counter, its
steps interleave with the writers', and a read, a write and a mark are each one
step, as each is one transaction. The core works on a request in one step, and the
answer to a request may be lost after it has.
-/
import Fathom.Agent.Staging
import Fathom.Ingest.Service
import Fathom.Lib.System

set_option autoImplicit false

namespace Fathom.Agent

open Fathom.Ingest (Identity Mode VolumeFrame HostFacts EntryFrame IngestBatch Instant Server Catalogue
  ingest)
open Staging (entry_outbox removal_outbox)

/-! ## Requests -/

/-- `_row_to_entry`. -/
def row_to_entry (r : StagedEntry) : EntryFrame where
  path := r.entry.path
  name := r.entry.name
  is_dir := r.entry.is_dir
  is_symlink := r.entry.is_symlink
  size_logical := r.entry.size_logical
  size_on_disk := r.entry.size_on_disk
  mtime := r.entry.mtime
  ctime := r.entry.ctime
  uid := r.entry.uid
  gid := r.entry.gid
  inode := r.entry.inode
  dev := r.entry.dev
  flags := r.entry.flags
  partial_hash := r.partial_hash
  full_hash := r.full_hash
  provider_hash := none
  provider_hash_algo := none

/-- `PushClient._volume_frame`. -/
def volume_frame (run : ScanRun) : VolumeFrame :=
  match run.volume_json with
  | some frame => frame
  | none =>
    { mountpoint := run.volume_id, fs_type := "unknown", device := "unknown", transport := "unknown"
      raid_role := none, pool := none, dataset := none, total := 0, used := 0, free := 0
      display_name := none }

/-- What a drain goes through in each run, in this order. -/
inductive Kind where
  | entries
  | removals
  deriving DecidableEq

/-- The rows of one request. -/
inductive Chunk where
  | entries (rows : List StagedEntry)
  | removals (rows : List StagedRemoval)

/-- The run a drain is at: its snapshot once the core has named one, what the host
probe found, and the runs still to come. -/
structure Visit where
  run : ScanRun
  snapshot_id : Option ℕ
  facts : Option HostFacts
  rest : List ScanRun

namespace Chunk

def kind : Chunk → Kind
  | .entries _ => .entries
  | .removals _ => .removals

/-- The keys a chunk is marked by. -/
def keys : Chunk → List StagedKey
  | .entries rows => rows.map StagedEntry.key
  | .removals rows => rows.map StagedRemoval.key

def entry_rows : Chunk → List StagedEntry
  | .entries rows => rows
  | .removals _ => []

def removal_rows : Chunk → List StagedRemoval
  | .entries _ => []
  | .removals rows => rows

/-- The next chunk of a run. -/
def read (s : Staging) (kind : Kind) (run_id limit : ℕ) : Chunk :=
  match kind with
  | .entries => .entries (s.unpushed_for_run run_id limit)
  | .removals => .removals (s.unpushed_removals_for_run run_id limit)

/-- The chunk is marked pushed. -/
def mark (s : Staging) : Chunk → Staging
  | .entries rows => s.mark_pushed (rows.map StagedEntry.key)
  | .removals rows => s.mark_removals_pushed (rows.map StagedRemoval.key)

/-- The batch a chunk is sent as. Removals are always a metadata batch, and it is
sent without the facts. -/
def batch (visit : Visit) : Chunk → IngestBatch
  | .entries rows =>
    { host := ⟨visit.run.host_id, none, none, visit.facts⟩
      volume := volume_frame visit.run
      mode := visit.run.mode
      snapshot_id := visit.snapshot_id
      entries := rows.map row_to_entry
      removed := []
      removed_inodes := [] }
  | .removals rows =>
    { host := ⟨visit.run.host_id, none, none, none⟩
      volume := volume_frame visit.run
      mode := .metadata
      snapshot_id := visit.snapshot_id
      entries := []
      removed := rows.map StagedRemoval.identity
      removed_inodes := rows.map fun r => r.identity.inode }

/-- The visit once a chunk has been acknowledged: all chunks of entries share a
snapshot. -/
def acknowledged (visit : Visit) (snapshot_id : ℕ) : Chunk → Visit
  | .entries _ => { visit with snapshot_id := some snapshot_id }
  | .removals _ => visit

end Chunk

/-! ## The process -/

/-- How the last drain ended. -/
inductive Ending where
  /-- there has been none -/
  | fresh
  | complete
  /-- `PushError` -/
  | failed
  deriving DecidableEq

/-- Where a drain stands. -/
inductive Pc where
  | idle (ending : Ending)
  /-- about to read a chunk of the run -/
  | reading (kind : Kind) (visit : Visit)
  /-- about to make an attempt at sending a chunk -/
  | sending (visit : Visit) (chunk : Chunk) (attempt : ℕ)
  /-- the chunk is acknowledged and not yet marked -/
  | marking (visit : Visit) (chunk : Chunk)

/-- At the first run of a list, or done. -/
def Pc.visit_runs (facts : Option HostFacts) : List ScanRun → Pc
  | [] => .idle .complete
  | run :: rest => .reading .entries ⟨run, none, facts, rest⟩

/-- What an agent pushes to and how: the core, the agent's certificate, the chunk
size and the retry budget. -/
structure Uplink where
  server : Server
  cert_fingerprint : String
  chunk_size : ℕ
  max_attempts : ℕ
  chunk_pos : 0 < chunk_size
  attempts_pos : 0 < max_attempts

/-- An agent, its staging database and the core. The last two components are
history: the chunks the core has acknowledged, and the keys of the rows a writer
has rewritten since the last read. No step of the code reads them. -/
structure Station where
  staging : Staging
  pc : Pc
  core : Catalogue
  acknowledged : List Chunk
  rewritten : List (Kind × StagedKey)

/-- What happens to one attempt. -/
inductive Answer where
  /-- the core answers at an instant -/
  | reply (now : Instant)
  /-- the core works on the request at an instant, and its answer does not arrive -/
  | lost (now : Instant)
  /-- the request does not reach the core -/
  | unreached

/-- The steps of the drain. -/
inductive Move where
  /-- `drain` is called; the host probe found these facts -/
  | start (facts : Option HostFacts)
  | read
  | post (answer : Answer)
  | mark

/-- The calls of a writer. -/
inductive Write where
  | start_run (host_id volume_id : String) (mode : Mode) (volume : Option VolumeFrame)
  | finish_run (run_id : ℕ) (finished_at : ℚ)
  | stage_batch (run_id : ℕ) (host_id volume_id : String) (entries : List FsEntry)
  | stage_hash (key : StagedKey) (partial_hash full_hash : String) (run_id : ℕ)
  | stage_removals (run_id : ℕ) (host_id volume_id : String) (removals : List Staging.Removal)

inductive Action where
  | write (call : Write)
  | move (move : Move)

/-- What a call leaves, unless it is refused. -/
def Staging.write (s : Staging) : Write → Option Staging
  | .start_run host_id volume_id mode volume => some (s.start_run host_id volume_id mode volume)
  | .finish_run run_id finished_at => some (s.finish_run run_id finished_at)
  | .stage_batch run_id host_id volume_id entries => s.stage_batch run_id host_id volume_id entries
  | .stage_hash key partial_hash full_hash run_id => s.stage_hash key partial_hash full_hash run_id
  | .stage_removals run_id host_id volume_id removals =>
    s.stage_removals run_id host_id volume_id removals

/-- The keys of the rows that a call has rewritten. -/
def rewritten_keys (s u : Staging) : List (Kind × StagedKey) :=
  (Outbox.changed s.staged_entry u.staged_entry).map (fun k => (Kind.entries, k)) ++
    (Outbox.changed s.staged_removal u.staged_removal).map fun k => (Kind.removals, k)

/-- An attempt that fails: the next one, or `PushError` after the last. -/
def Station.fail (link : Uplink) (st : Station) (visit : Visit) (chunk : Chunk) (attempt : ℕ) : Station :=
  { st with
    pc := if attempt ≥ link.max_attempts then .idle .failed else .sending visit chunk (attempt + 1) }

/-- One attempt at sending a chunk. -/
def Station.post (link : Uplink) (st : Station) (visit : Visit) (chunk : Chunk) (attempt : ℕ) :
    Answer → Station
  | .unreached => st.fail link visit chunk attempt
  | .lost now =>
    match ingest link.server st.core (chunk.batch visit) link.cert_fingerprint now with
    | .ok (core, _) => { st.fail link visit chunk attempt with core := core }
    | .error _ => st.fail link visit chunk attempt
  | .reply now =>
    match ingest link.server st.core (chunk.batch visit) link.cert_fingerprint now with
    | .ok (core, result) =>
      { st with
        core := core
        pc := .marking (chunk.acknowledged visit result.snapshot_id) chunk
        acknowledged := st.acknowledged ++ [chunk] }
    -- an error status is retried like a failure of the transport
    | .error _ => st.fail link visit chunk attempt

/-- One read: a chunk to send, or, when the run has no more, what comes next. -/
def Station.read (link : Uplink) (st : Station) (kind : Kind) (visit : Visit) : Station :=
  let chunk := Chunk.read st.staging kind visit.run.id link.chunk_size
  if chunk.keys = [] then
    match kind with
    | .entries => { st with pc := .reading .removals visit }
    | .removals => { st with pc := .visit_runs visit.facts visit.rest }
  else { st with pc := .sending visit chunk 1, rewritten := [] }

/-- One step of the drain. -/
def Station.move (link : Uplink) (st : Station) : Move → Option Station
  | .start facts =>
    match st.pc with
    | .idle _ => some { st with pc := .visit_runs facts st.staging.pending_runs }
    | _ => none
  | .read =>
    match st.pc with
    | .reading kind visit => some (st.read link kind visit)
    | _ => none
  | .post answer =>
    match st.pc with
    | .sending visit chunk attempt => some (st.post link visit chunk attempt answer)
    | _ => none
  | .mark =>
    match st.pc with
    | .marking visit chunk =>
      some { st with staging := chunk.mark st.staging, pc := .reading chunk.kind visit }
    | _ => none

/-- A writer's call. -/
def Station.write (st : Station) (call : Write) : Option Station :=
  (st.staging.write call).map fun staging =>
    { st with staging, rewritten := st.rewritten ++ rewritten_keys st.staging staging }

/-- One step of the agent. -/
def Station.act (link : Uplink) (st : Station) : Action → Option Station
  | .write call => st.write call
  | .move m => st.move link m

/-- **Writers and one drain**, interleaved in any way. -/
def transfer (link : Uplink) : System Station Action where
  init := fun st => st.staging = .empty ∧ st.pc = .idle .fresh ∧ st.acknowledged = [] ∧
    st.rewritten = []
  step := fun st a => st.act link a

/-! ## What a step does -/

variable {link : Uplink} {s : Staging} {visit : Visit}

/-- A step of the drain: which one, from where, and what it leaves. -/
theorem move_spec {st st' : Station} {m : Move} (h : st.move link m = some st') :
    (∃ facts ending, m = .start facts ∧ st.pc = .idle ending ∧
        st' = { st with pc := .visit_runs facts st.staging.pending_runs }) ∨
      (∃ kind visit, m = .read ∧ st.pc = .reading kind visit ∧ st' = st.read link kind visit) ∨
      (∃ answer visit chunk attempt, m = .post answer ∧ st.pc = .sending visit chunk attempt ∧
        st' = st.post link visit chunk attempt answer) ∨
      (∃ visit chunk, m = .mark ∧ st.pc = .marking visit chunk ∧
        st' = { st with staging := chunk.mark st.staging, pc := .reading chunk.kind visit }) := by
  cases m with
  | start facts =>
      rw [Station.move] at h
      split at h
      · rename_i ending hpc
        exact Or.inl ⟨facts, ending, rfl, hpc, (Option.some.inj h).symm⟩
      · exact absurd h (by simp)
  | read =>
      rw [Station.move] at h
      split at h
      · rename_i kind visit hpc
        exact Or.inr (Or.inl ⟨kind, visit, rfl, hpc, (Option.some.inj h).symm⟩)
      · exact absurd h (by simp)
  | post answer =>
      rw [Station.move] at h
      split at h
      · rename_i visit chunk attempt hpc
        exact Or.inr (Or.inr (Or.inl ⟨answer, visit, chunk, attempt, rfl, hpc, (Option.some.inj h).symm⟩))
      · exact absurd h (by simp)
  | mark =>
      rw [Station.move] at h
      split at h
      · rename_i visit chunk hpc
        exact Or.inr (Or.inr (Or.inr ⟨visit, chunk, rfl, hpc, (Option.some.inj h).symm⟩))
      · exact absurd h (by simp)

/-- A read either finds rows, and they are in flight, or it moves on. -/
theorem read_spec (link : Uplink) (st : Station) (kind : Kind) (visit : Visit) :
    ((Chunk.read st.staging kind visit.run.id link.chunk_size).keys ≠ [] ∧
        st.read link kind visit
          = { st with
              pc := .sending visit (Chunk.read st.staging kind visit.run.id link.chunk_size) 1
              rewritten := [] }) ∨
      ((Chunk.read st.staging kind visit.run.id link.chunk_size).keys = [] ∧
        st.read link kind visit
          = { st with
              pc :=
                match kind with
                | .entries => .reading .removals visit
                | .removals => .visit_runs visit.facts visit.rest }) := by
  unfold Station.read
  by_cases hnone : (Chunk.read st.staging kind visit.run.id link.chunk_size).keys = []
  · right
    refine ⟨hnone, ?_⟩
    dsimp only
    rw [if_pos hnone]
    cases kind <;> rfl
  · left
    refine ⟨hnone, ?_⟩
    dsimp only
    rw [if_neg hnone]

/-- The core is as it was, or it has worked on the chunk. -/
def Worked (link : Uplink) (core core' : Catalogue) (batch : IngestBatch) : Prop :=
  core' = core ∨ ∃ now result, ingest link.server core batch link.cert_fingerprint now = .ok (core', result)

/-- An attempt leaves the staging database alone. It fails, whatever the core has
done with the chunk, or the chunk is acknowledged. -/
theorem post_spec (link : Uplink) (st : Station) (visit : Visit) (chunk : Chunk) (attempt : ℕ)
    (answer : Answer) :
    ∃ core pc acknowledged,
      st.post link visit chunk attempt answer = { st with core, pc, acknowledged } ∧
      Worked link st.core core (chunk.batch visit) ∧
      ((acknowledged = st.acknowledged ∧ (pc = .idle .failed ∨ pc = .sending visit chunk (attempt + 1))) ∨
        (acknowledged = st.acknowledged ++ [chunk] ∧ ∃ now result,
          ingest link.server st.core (chunk.batch visit) link.cert_fingerprint now = .ok (core, result) ∧
          pc = .marking (chunk.acknowledged visit result.snapshot_id) chunk)) := by
  have hfail : (st.fail link visit chunk attempt).pc = .idle .failed ∨
      (st.fail link visit chunk attempt).pc = .sending visit chunk (attempt + 1) := by
    rw [Station.fail]
    dsimp only
    split
    · exact Or.inl rfl
    · exact Or.inr rfl
  cases answer with
  | unreached => exact ⟨st.core, _, st.acknowledged, rfl, Or.inl rfl, Or.inl ⟨rfl, hfail⟩⟩
  | lost now =>
      rw [Station.post]
      rcases hingest : ingest link.server st.core (chunk.batch visit) link.cert_fingerprint now with
        error | ⟨core, result⟩
      · exact ⟨st.core, _, st.acknowledged, rfl, Or.inl rfl, Or.inl ⟨rfl, hfail⟩⟩
      · exact ⟨core, _, st.acknowledged, rfl, Or.inr ⟨now, result, hingest⟩, Or.inl ⟨rfl, hfail⟩⟩
  | reply now =>
      rw [Station.post]
      rcases hingest : ingest link.server st.core (chunk.batch visit) link.cert_fingerprint now with
        error | ⟨core, result⟩
      · exact ⟨st.core, _, st.acknowledged, rfl, Or.inl rfl, Or.inl ⟨rfl, hfail⟩⟩
      · exact ⟨core, _, _, rfl, Or.inr ⟨now, result, hingest⟩,
          Or.inr ⟨rfl, now, result, hingest, rfl⟩⟩

/-! ## The order of a drain

A drain takes its runs once, oldest first. As long as nobody writes, what still
waits is in the run it is at or in a later one, and once it is at the removals of a
run that run has no entries left. -/

/-- Nothing waits to be pushed. -/
structure Staging.Settled (s : Staging) : Prop where
  entries : ∀ id, ¬ entry_outbox.Waiting s.staged_entry id
  removals : ∀ id, ¬ removal_outbox.Waiting s.staged_removal id

/-- What waits while a drain is at a run. -/
structure Covers (s : Staging) (kind : Kind) (visit : Visit) : Prop where
  ordered : ((visit.run :: visit.rest).map ScanRun.id).Pairwise (· < ·)
  entries : ∀ id, entry_outbox.Waiting s.staged_entry id →
    (kind = .entries ∧ id = visit.run.id) ∨ id ∈ visit.rest.map ScanRun.id
  removals : ∀ id, removal_outbox.Waiting s.staged_removal id →
    id = visit.run.id ∨ id ∈ visit.rest.map ScanRun.id

/-- What waits while a drain stands somewhere. -/
def Orderly (s : Staging) : Pc → Prop
  | .idle .complete => s.Settled
  | .idle _ => True
  | .reading kind visit => Covers s kind visit
  | .sending visit chunk _ => Covers s chunk.kind visit
  | .marking visit chunk => Covers s chunk.kind visit

/-- The steps of the drain alone. -/
def drain (link : Uplink) : System Station Move where
  init := fun st => st.pc = .idle .fresh
  step := fun st m => st.move link m

/-- **A complete drain**: one that is started, is disturbed by no writer and runs to
its end. Attempts may fail on the way, and a drain that fails may be started
again. -/
def Drained (link : Uplink) (st st' : Station) : Prop :=
  ∃ facts moves, (drain link).run st (.start facts :: moves) = some st' ∧ st'.pc = .idle .complete

theorem Orderly.visit_runs {runs : List ScanRun} (facts : Option HostFacts)
    (hordered : (runs.map ScanRun.id).Pairwise (· < ·))
    (hentries : ∀ id, entry_outbox.Waiting s.staged_entry id → id ∈ runs.map ScanRun.id)
    (hremovals : ∀ id, removal_outbox.Waiting s.staged_removal id → id ∈ runs.map ScanRun.id) :
    Orderly s (.visit_runs facts runs) := by
  cases runs with
  | nil =>
      refine ⟨?_, ?_⟩
      · exact fun id hid => absurd (hentries id hid) List.not_mem_nil
      · exact fun id hid => absurd (hremovals id hid) List.not_mem_nil
  | cons run rest =>
      refine ⟨hordered, ?_, ?_⟩
      · intro id hid
        rcases List.mem_cons.mp (hentries id hid) with hrun | hrest
        · exact Or.inl ⟨rfl, hrun⟩
        · exact Or.inr hrest
      · intro id hid
        exact List.mem_cons.mp (hremovals id hid)

/-- All that waits is in a pending run. -/
theorem Orderly.start (s : Staging) (facts : Option HostFacts) : Orderly s (.visit_runs facts s.pending_runs) := by
  refine Orderly.visit_runs facts s.pending_runs_ordered ?_ ?_
  · intro id hid
    obtain ⟨run, hrun, rfl⟩ := Staging.run_of_entry hid
    exact List.mem_map_of_mem (Staging.mem_pending_runs.mpr ⟨hrun, Or.inl hid⟩)
  · intro id hid
    obtain ⟨run, hrun, rfl⟩ := Staging.run_of_removal hid
    exact List.mem_map_of_mem (Staging.mem_pending_runs.mpr ⟨hrun, Or.inr hid⟩)

/-- Marking makes nothing wait. -/
theorem Covers.mark {kind : Kind} (h : Covers s kind visit) (chunk : Chunk) : Covers (chunk.mark s) kind visit := by
  cases chunk with
  | entries rows => exact ⟨h.ordered, fun id hid => h.entries id hid.of_mark, h.removals⟩
  | removals rows => exact ⟨h.ordered, h.entries, fun id hid => h.removals id hid.of_mark⟩

theorem Covers.of_eq {kind : Kind} {visit' : Visit} (h : Covers s kind visit) (hrun : visit'.run = visit.run)
    (hrest : visit'.rest = visit.rest) : Covers s kind visit' := by
  obtain ⟨hordered, hentries, hremovals⟩ := h
  refine ⟨?_, ?_, ?_⟩
  · rw [hrun, hrest]
    exact hordered
  · rw [hrun, hrest]
    exact hentries
  · rw [hrun, hrest]
    exact hremovals

/-- When a read of entries finds none, the removals of the run are next. -/
theorem Covers.removals_next {limit : ℕ} (h : Covers s .entries visit) (hlimit : 0 < limit)
    (hnone : (Chunk.read s .entries visit.run.id limit).keys = []) : Covers s .removals visit := by
  have hempty := Outbox.not_waiting_of_read hlimit (List.map_eq_nil_iff.mp hnone)
  refine ⟨h.ordered, ?_, h.removals⟩
  intro id hid
  rcases h.entries id hid with ⟨-, hrun⟩ | hrest
  · rw [hrun] at hid
    exact absurd hid hempty
  · exact Or.inr hrest

/-- When a read of removals finds none, the run is done. -/
theorem Covers.run_next {limit : ℕ} (h : Covers s .removals visit) (hlimit : 0 < limit)
    (hnone : (Chunk.read s .removals visit.run.id limit).keys = []) :
    Orderly s (.visit_runs visit.facts visit.rest) := by
  have hempty := Outbox.not_waiting_of_read hlimit (List.map_eq_nil_iff.mp hnone)
  have hordered := h.ordered
  rw [List.map_cons, List.pairwise_cons] at hordered
  refine Orderly.visit_runs visit.facts hordered.2 ?_ ?_
  · intro id hid
    rcases h.entries id hid with ⟨hkind, -⟩ | hrest
    · exact absurd hkind (by decide)
    · exact hrest
  · intro id hid
    rcases h.removals id hid with hrun | hrest
    · rw [hrun] at hid
      exact absurd hid hempty
    · exact hrest

/-- **A drain is orderly** at every step. -/
theorem Orderly.move {st st' : Station} {m : Move} (h : Orderly st.staging st.pc) (hstep : st.move link m = some st') :
    Orderly st'.staging st'.pc := by
  rcases move_spec hstep with ⟨facts, ending, rfl, hpc, rfl⟩ | ⟨kind, visit, rfl, hpc, rfl⟩ |
    ⟨answer, visit, chunk, attempt, rfl, hpc, rfl⟩ | ⟨visit, chunk, rfl, hpc, rfl⟩
  · exact Orderly.start st.staging facts
  · rw [hpc] at h
    rcases read_spec link st kind visit with ⟨-, heq⟩ | ⟨hnone, heq⟩
    · rw [heq]
      cases kind with
      | entries => exact h
      | removals => exact h
    · rw [heq]
      cases kind with
      | entries => exact Covers.removals_next h link.chunk_pos hnone
      | removals => exact Covers.run_next h link.chunk_pos hnone
  · rw [hpc] at h
    obtain ⟨core, pc, acknowledged, heq, -, hcases⟩ := post_spec link st visit chunk attempt answer
    rw [heq]
    rcases hcases with ⟨-, rfl | rfl⟩ | ⟨-, now, result, -, rfl⟩
    · trivial
    · exact h
    · refine Covers.of_eq h ?_ ?_
      · cases chunk <;> rfl
      · cases chunk <;> rfl
  · rw [hpc] at h
    exact Covers.mark h chunk

/-- **The rule of a complete drain**: what holds once it has been started and is
kept by each of its steps holds at its end. -/
theorem Drained.keeps {st st' : Station} {I : Station → Prop} (h : Drained link st st')
    (hstart : ∀ facts, I { st with pc := .visit_runs facts st.staging.pending_runs })
    (hmove : ∀ u m v, I u → u.move link m = some v → I v) : I st' ∧ st'.pc = .idle .complete := by
  obtain ⟨facts, moves, hrun, hpc⟩ := h
  rw [System.run_cons, Option.bind_eq_some_iff] at hrun
  obtain ⟨u, hfirst, hrun⟩ := hrun
  have hu : u = { st with pc := .visit_runs facts st.staging.pending_runs } := by
    have hfirst : st.move link (.start facts) = some u := hfirst
    rw [Station.move] at hfirst
    split at hfirst
    · exact (Option.some.inj hfirst).symm
    · exact absurd hfirst (by simp)
  refine ⟨System.run_keeps hmove ?_ hrun, hpc⟩
  rw [hu]
  exact hstart facts

/-- After a complete drain nothing waits. -/
theorem Drained.settled {st st' : Station} (h : Drained link st st') : st'.staging.Settled := by
  obtain ⟨horderly, hpc⟩ := h.keeps (I := fun st => Orderly st.staging st.pc)
    (fun facts => Orderly.start st.staging facts) (fun u m v hu hstep => Orderly.move hu hstep)
  rw [hpc] at horderly
  exact horderly

/-! ## A small agent -/

/-- An agent of a small core, with the default chunk size and retry budget. -/
def sample_link : Uplink := ⟨Ingest.sample_server, "fp", 1000, 5, by decide, by decide⟩

/-- A file directly below `/m`, of device 1. -/
def sample_file (name : String) (inode : Int) (mtime : ℚ) (size : ℕ) : FsEntry where
  path := "/m/" ++ name
  name := name
  is_dir := false
  is_symlink := false
  size_logical := size
  size_on_disk := size
  mtime := mtime
  ctime := mtime
  uid := 0
  gid := 0
  inode := inode
  dev := 1
  flags := []

/-- An agent that has seen nothing yet. -/
def Station.fresh (core : Catalogue) : Station := ⟨.empty, .idle .fresh, core, [], []⟩

/-- A metadata run of the volume at `/m`. -/
def sample_run : Action := .write (.start_run "h" "/m" .metadata none)

/-- What an agent has come to after some steps, when they are possible. -/
def Station.after (st : Station) (tr : List Action) : Station :=
  match (transfer sample_link).run st tr with
  | some st' => st'
  | none => st

end Fathom.Agent
