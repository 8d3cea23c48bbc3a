/-
**Metadata and hashes** (`StagingStore.stage_hash` against `StagingStore.stage_batch`).

A file has one row in the staging database, for what a walk has seen of it and for
its hashes, and the row waits in one run. `stage_hash` moves it to the run of the
full-bit pass, whichever run it waits in. If that is the run of a walk, the row goes
to the core in a full-bit batch only, which logs no churn and leaves presence alone.

The histories here are those of an agent that walks, hashes and drains one after
another, as `run_agent` does; a drain may fail and be begun again. What a walk has
staged is owed until the core has had it in a metadata batch.
-/
import Fathom.Agent.Commute
import Fathom.Agent.Quiet

set_option autoImplicit false

namespace Fathom.Agent

open Fathom.Ingest (Identity Mode Catalogue VolumeFrame HostFacts Instant ingest)
open Staging (entry_outbox removal_outbox staged_row staged_conflict)

/-! ## What waits for a metadata batch -/

/-- The row of a key waits in the run of a walk. -/
def Staging.OnItsWay (s : Staging) (k : StagedKey) : Prop :=
  ∃ r, s.staged_entry.find k = some r ∧ r.pushed = false ∧ s.run_mode r.scan_run_id = some .metadata

/-! ## Histories -/

/-- The calls of a metadata walk: it stages in a run of its mode. -/
def Write.of_walk (s : Staging) : Write → Bool
  | .start_run _ _ mode _ => mode = .metadata
  | .finish_run _ _ => true
  | .stage_batch run_id _ _ _ => s.run_mode run_id = some .metadata
  | .stage_hash _ _ _ _ => false
  | .stage_removals run_id _ _ _ => s.run_mode run_id = some .metadata

/-- The instant at which the core works on an attempt, if it reaches it. -/
def Answer.instant : Answer → Option Instant
  | .reply now => some now
  | .lost now => some now
  | .unreached => none

/-- The keys of the rows that the core ingests in a metadata batch at a step. -/
def Station.delivers (link : Uplink) (st : Station) : Move → List StagedKey
  | .post answer =>
    match st.pc with
    | .sending visit (.entries rows) _ =>
      if visit.run.mode = .metadata ∧ answer.instant.any (fun now =>
          (ingest link.server st.core ((Chunk.entries rows).batch visit) link.cert_fingerprint now).isOk) then
        rows.map StagedEntry.key
      else []
    | _ => []
  | _ => []

/-- An agent, and the keys of the rows that walks have staged and the core has not had
in a metadata batch since. No step of the code reads them. -/
structure Dispatch where
  station : Station
  owed : List StagedKey

/-- What an agent does next. -/
inductive Doing where
  | walk (call : Write)
  | hash (volume : VolumeFrame) (pass : HashPass)
  | drain (move : Move)

/-- One step. What a call has inserted or rewritten is owed. -/
def Dispatch.step (config : AgentConfig) (link : Uplink) (d : Dispatch) : Doing → Option Dispatch
  | .walk call =>
    if d.station.pc.at_rest ∧ call.of_walk d.station.staging then
      (d.station.write call).map fun station =>
        ⟨station, d.owed ++ Outbox.changed station.staging.staged_entry d.station.staging.staged_entry⟩
    else none
  | .hash volume pass =>
    if d.station.pc.at_rest then
      (fullbit_scan config volume pass d.station.staging).map fun staging =>
        ⟨{ d.station with staging := staging }, d.owed⟩
    else none
  | .drain m =>
    (d.station.move link m).map fun station =>
      ⟨station, d.owed.filter (· ∉ d.station.delivers link m)⟩

/-- **Walks, full-bit passes and drains**, one after another. -/
def dispatching (config : AgentConfig) (link : Uplink) : System Dispatch Doing where
  init := fun d => d.station.staging = .empty ∧ d.station.pc = .idle .fresh ∧ d.owed = []
  step := Dispatch.step config link

/-- All that is owed is on its way. -/
def Dispatch.Kept (d : Dispatch) : Prop := ∀ k ∈ d.owed, d.station.staging.OnItsWay k

section

variable (config : AgentConfig) (link : Uplink)

/-- What independence of hashing says of a state, and of the step that is next. -/
structure Dispatch.Independent (d : Dispatch) (next : Option Doing) : Prop where
  kept : d.Kept
  delivered : d.station.staging.Settled → d.owed = []
  alike : ∀ volume pass, next = some (.hash volume pass) → d.station.AsIfDrained config link volume pass

/-- A pass hashes nothing that is owed. -/
def Dispatch.PaysFirst (d : Dispatch) : Doing → Prop
  | .hash volume pass => ∀ k ∈ hashed_keys config volume.mountpoint pass.hashes, k ∉ d.owed
  | _ => True

/-- What a pass hashes is pushed, or waits in a run after those in which metadata
waits. -/
def Dispatch.Spares (d : Dispatch) : Doing → Prop
  | .hash volume pass =>
    ∀ k ∈ hashed_keys config volume.mountpoint pass.hashes, ∀ run_id,
      entry_outbox.awaiting d.station.staging.staged_entry k = some run_id →
        ∀ metadata_run, d.station.staging.MetadataWaits metadata_run → metadata_run < run_id
  | _ => True

end

/-! ## What keeps a row on its way -/

section

variable {s u : Staging} {k : StagedKey}

/-- A run that is still there, with its mode. -/
theorem run_mode_of_rows {run_id : ℕ} {mode : Mode}
    (hruns : ∀ run ∈ s.scan_run.rows, ∃ run' ∈ u.scan_run.rows, run'.id = run.id ∧ run'.mode = run.mode)
    (h : s.run_mode run_id = some mode) : u.run_mode run_id = some mode := by
  obtain ⟨run, hfind, rfl⟩ := Option.map_eq_some_iff.mp h
  obtain ⟨run', hrun', hid, hmode⟩ := hruns run (Table.mem_of_find hfind)
  have hfind' := Table.find_of_mem hrun'
  rw [hid, Table.key_of_find hfind] at hfind'
  rw [Staging.run_mode, hfind', Option.map_some, hmode]

/-- A row that is left alone goes on as it was. -/
theorem Staging.OnItsWay.of_find (h : s.OnItsWay k) (hfind : u.staged_entry.find k = s.staged_entry.find k)
    (hmode : ∀ run_id mode, s.run_mode run_id = some mode → u.run_mode run_id = some mode) : u.OnItsWay k := by
  obtain ⟨r, hr, hwaits, hwalk⟩ := h
  exact ⟨r, hfind.trans hr, hwaits, hmode _ _ hwalk⟩

/-- A row after `stage_batch` is an old one, or waits in the run staged in. -/
theorem stage_batch_row {run_id : ℕ} {host_id volume_id : String} {entries : List FsEntry}
    (h : s.stage_batch run_id host_id volume_id entries = some u) {r : StagedEntry} (hr : r ∈ u.staged_entry.rows) :
    r ∈ s.staged_entry.rows ∨ (r.scan_run_id = run_id ∧ r.pushed = false) := by
  have hentry := (Staging.set_entries_spec h).2.1
  rw [hentry] at hr
  refine @Table.forall_upsert_many_of _ _ StagedEntry.key _ s.staged_entry staged_conflict
    (entries.map (staged_row run_id host_id volume_id))
    (fun r => r ∈ s.staged_entry.rows ∨ (r.scan_run_id = run_id ∧ r.pushed = false))
    (fun x => x.scan_run_id = run_id ∧ x.pushed = false) (fun r hr => Or.inl hr) ?_
    (fun x hx => Or.inr hx) (fun r x _ hx => Or.inr ⟨hx.1, rfl⟩) r hr
  intro x hx
  obtain ⟨e, -, rfl⟩ := List.mem_map.mp hx
  exact ⟨rfl, rfl⟩

/-- A call leaves the runs there are with their modes. -/
theorem run_mode_of_write {call : Write} (hwrite : s.write call = some u) {run_id : ℕ} {mode : Mode}
    (h : s.run_mode run_id = some mode) : u.run_mode run_id = some mode := by
  cases call with
  | start_run host_id volume_id opened volume =>
      rw [← Option.some.inj hwrite]
      refine run_mode_of_rows (fun run hrun => ⟨run, ?_, rfl, rfl⟩) h
      have hnew : s.scan_run.find (s.new_run host_id volume_id opened volume).id = none :=
        Staging.next_run_new s
      show run ∈ (s.scan_run.put _).rows
      rw [Table.put, Table.rows_upsert_of_new hnew]
      exact List.mem_append_left _ hrun
  | finish_run finished finished_at =>
      rw [← Option.some.inj hwrite]
      refine run_mode_of_rows (fun run hrun => ⟨_, List.mem_map_of_mem hrun, ?_⟩) h
      split
      · exact ⟨rfl, rfl⟩
      · exact ⟨rfl, rfl⟩
  | stage_batch staged host_id volume_id entries =>
      rw [Staging.run_mode, (Staging.set_entries_spec hwrite).1]
      exact h
  | stage_hash key partial_hash full_hash hashed =>
      rw [Staging.run_mode, (Staging.set_entries_spec hwrite).1]
      exact h
  | stage_removals staged host_id volume_id removals =>
      rw [Staging.run_mode, (Staging.set_removals_spec hwrite).1]
      exact h

/-- **What a walk stages is on its way**, and what was on its way still is. -/
theorem on_its_way_of_walk {call : Write} (hcall : call.of_walk s = true) (hwrite : s.write call = some u)
    (h : s.OnItsWay k ∨ k ∈ Outbox.changed u.staged_entry s.staged_entry) : u.OnItsWay k := by
  have hmode : ∀ run_id mode, s.run_mode run_id = some mode → u.run_mode run_id = some mode :=
    fun run_id mode => run_mode_of_write hwrite
  -- a call that stages no entry
  have hsame : u.staged_entry = s.staged_entry → u.OnItsWay k := by
    intro hentry
    rcases h with h | hchanged
    · exact h.of_find (by rw [hentry]) hmode
    · obtain ⟨r, hr, -⟩ := List.mem_map.mp hchanged
      obtain ⟨hmem, hne⟩ := List.mem_filter.mp hr
      rw [hentry] at hmem
      exact absurd (Table.find_of_mem hmem) (of_decide_eq_true hne)
  cases call with
  | start_run host_id volume_id mode volume =>
      exact hsame (by rw [← Option.some.inj hwrite]; rfl)
  | finish_run run_id finished_at =>
      exact hsame (by rw [← Option.some.inj hwrite]; rfl)
  | stage_hash key partial_hash full_hash run_id => exact absurd hcall (by simp [Write.of_walk])
  | stage_removals run_id host_id volume_id removals => exact hsame (Staging.set_removals_spec hwrite).2.1
  | stage_batch run_id host_id volume_id entries =>
      have hwalk : s.run_mode run_id = some .metadata := of_decide_eq_true hcall
      have hrow := fun r => @stage_batch_row s u run_id host_id volume_id entries hwrite r
      have hstaged : ∀ r, u.staged_entry.find k = some r → r.scan_run_id = run_id ∧ r.pushed = false →
          u.OnItsWay k := by
        rintro r hfind ⟨hrun, hwaits⟩
        refine ⟨r, hfind, hwaits, ?_⟩
        rw [hrun]
        exact hmode _ _ hwalk
      rcases h with h | hchanged
      · obtain ⟨r₀, hr₀, -⟩ := id h
        have hkey : k ∈ u.staged_entry.rows.map StagedEntry.key := by
          rw [(Staging.set_entries_spec hwrite).2.1, Table.keys_upsert_many]
          exact Or.inl (by rw [Table.mem_keys_iff, hr₀]; rfl)
        obtain ⟨r, hr, rfl⟩ := List.mem_map.mp hkey
        rcases hrow r hr with hold | hnew
        · -- the row is the one that was there
          exact h.of_find (by rw [Table.find_of_mem hr, Table.find_of_mem hold]) hmode
        · exact hstaged r (Table.find_of_mem hr) hnew
      · obtain ⟨r, hr, rfl⟩ := List.mem_map.mp hchanged
        obtain ⟨hmem, hne⟩ := List.mem_filter.mp hr
        rcases hrow r hmem with hold | hnew
        · exact absurd (Table.find_of_mem hold) (of_decide_eq_true hne)
        · exact hstaged r (Table.find_of_mem hmem) hnew

section

variable {config : AgentConfig} {volume : VolumeFrame} {pass : HashPass}

theorem HashedFrom.run_mode (h : HashedFrom config volume pass s u) {run_id : ℕ} {mode : Mode}
    (hmode : s.run_mode run_id = some mode) : u.run_mode run_id = some mode := by
  refine run_mode_of_rows (fun run hrun => ⟨run, ?_, rfl, rfl⟩) hmode
  rw [h.runs]
  exact List.mem_append_left _ hrun

theorem HashedFrom.run_mode_new (h : HashedFrom config volume pass s u) : u.run_mode s.next_run = some .fullbit := by
  have hrun : pass_run config volume pass s ∈ u.scan_run.rows := by
    rw [h.runs]
    exact List.mem_append_right _ (List.mem_singleton.mpr rfl)
  rw [Staging.run_mode]
  exact congrArg (Option.map ScanRun.mode) (Table.find_of_mem hrun)

/-- **A pass takes a row off its way exactly when it hashes it.** -/
theorem on_its_way_hashed_iff (h : HashedFrom config volume pass s u) (hway : s.OnItsWay k) :
    u.OnItsWay k ↔ k ∉ hashed_keys config volume.mountpoint pass.hashes := by
  constructor
  · rintro ⟨r, hfind, -, hwalk⟩ hhashed
    -- the row waits in the run of the pass now
    have hmem := Table.mem_of_find hfind
    rw [h.entries] at hmem
    rcases mem_hash_rows hmem with ⟨-, hother⟩ | ⟨hwaits, -⟩
    · rw [Table.key_of_find hfind] at hother
      exact hother hhashed
    · have hrun : r.scan_run_id = s.next_run := (Outbox.waits_iff.mp hwaits).1
      rw [hrun, h.run_mode_new] at hwalk
      exact absurd hwalk (by decide)
  · intro hother
    refine hway.of_find ?_ fun run_id mode hmode => h.run_mode hmode
    rw [h.entries]
    exact find_hash_rows_other hother _

end

/-- A row that is not marked is where it was. -/
theorem Staging.OnItsWay.mark (h : s.OnItsWay k) {chunk : Chunk}
    (hother : ∀ rows, chunk = .entries rows → k ∉ rows.map StagedEntry.key) : (chunk.mark s).OnItsWay k := by
  cases chunk with
  | entries rows =>
      refine h.of_find ?_ fun _ _ hmode => hmode
      show (entry_outbox.mark s.staged_entry _).find k = _
      rw [Outbox.find_mark]
      rcases hfind : s.staged_entry.find k with _ | r
      · rfl
      · have hkey := Table.key_of_find hfind
        rw [Option.map_some, if_neg]
        rw [hkey]
        exact hother rows rfl
  | removals rows => exact h.of_find rfl fun _ _ hmode => hmode

/-- What is on its way is metadata that waits. -/
theorem Staging.OnItsWay.waits (h : s.OnItsWay k) :
    ∃ run_id, entry_outbox.awaiting s.staged_entry k = some run_id ∧ s.MetadataWaits run_id := by
  obtain ⟨r, hfind, hwaits, hwalk⟩ := h
  have hawaiting : entry_outbox.awaiting s.staged_entry k = some r.scan_run_id :=
    Outbox.awaiting_some_iff.mpr ⟨r, hfind, rfl, hwaits⟩
  exact ⟨r.scan_run_id, hawaiting, Or.inl ⟨Outbox.Waiting.of_awaiting hawaiting, hwalk⟩⟩

end

/-! ## What is owed, step by step -/

/-- What a drain is about to mark as delivered by a walk's run is not owed any more. -/
structure Dispatch.Inv (d : Dispatch) : Prop where
  visits : d.station.pc.Visits d.station.staging
  marked : ∀ visit rows, d.station.pc = .marking visit (.entries rows) → visit.run.mode = .metadata →
    ∀ k ∈ rows.map StagedEntry.key, k ∉ d.owed

section

variable {config : AgentConfig} {link : Uplink} {d d' : Dispatch}

theorem visit_runs_ne_marking (facts : Option HostFacts) (runs : List ScanRun) (visit : Visit)
    (chunk : Chunk) : Pc.visit_runs facts runs ≠ .marking visit chunk := by
  cases runs <;> simp [Pc.visit_runs]

/-- An attempt that is acknowledged has delivered its chunk. -/
theorem delivers_of_marking {st : Station} {visit visit' : Visit} {chunk : Chunk} {rows : List StagedEntry}
    {attempt : ℕ} {answer : Answer} (hpc : st.pc = .sending visit chunk attempt)
    (hpost : (st.post link visit chunk attempt answer).pc = .marking visit' (.entries rows))
    (hmode : visit'.run.mode = .metadata) : st.delivers link (.post answer) = rows.map StagedEntry.key := by
  have hfail : (st.fail link visit chunk attempt).pc ≠ .marking visit' (.entries rows) := by
    rw [Station.fail]
    dsimp only
    split <;> simp
  cases answer with
  | unreached => exact absurd hpost hfail
  | lost now =>
      rw [Station.post] at hpost
      split at hpost
      · exact absurd hpost hfail
      · exact absurd hpost hfail
  | reply now =>
      rw [Station.post] at hpost
      split at hpost
      · rename_i core result hingest
        obtain ⟨rfl, rfl⟩ := Pc.marking.inj hpost
        rw [Station.delivers, hpc]
        dsimp only
        rw [if_pos]
        refine ⟨hmode, ?_⟩
        rw [Answer.instant, Option.any_some, hingest]
        rfl
      · exact absurd hpost hfail

theorem Dispatch.Inv.step {doing : Doing} (h : d.Inv) (hstep : d.step config link doing = some d') : d'.Inv := by
  cases doing with
  | walk call =>
      rw [Dispatch.step] at hstep
      split at hstep
      · rename_i hcall
        obtain ⟨ending, hpc⟩ := at_rest_iff.mp hcall.1
        obtain ⟨station, hwrite, rfl⟩ := Option.map_eq_some_iff.mp hstep
        obtain ⟨staging, -, rfl⟩ := Option.map_eq_some_iff.mp hwrite
        refine ⟨?_, ?_⟩
        · show d.station.pc.Visits staging
          rw [hpc]
          trivial
        · intro visit rows hmarking
          exact absurd (hpc.symm.trans hmarking) (by simp)
      · exact absurd hstep (by simp)
  | hash volume pass =>
      rw [Dispatch.step] at hstep
      split at hstep
      · rename_i hrest
        obtain ⟨ending, hpc⟩ := at_rest_iff.mp hrest
        obtain ⟨staging, -, rfl⟩ := Option.map_eq_some_iff.mp hstep
        refine ⟨?_, ?_⟩
        · show d.station.pc.Visits staging
          rw [hpc]
          trivial
        · intro visit rows hmarking
          exact absurd (hpc.symm.trans hmarking) (by simp)
      · exact absurd hstep (by simp)
  | drain m =>
      obtain ⟨station, hmove, rfl⟩ := Option.map_eq_some_iff.mp hstep
      refine ⟨h.visits.move hmove, ?_⟩
      intro visit rows hmarking hmode k hk
      have hdelivers : d.station.delivers link m = rows.map StagedEntry.key := by
        rcases move_spec hmove with ⟨facts, ending, rfl, -, rfl⟩ | ⟨kind, visit', rfl, -, rfl⟩ |
          ⟨answer, visit', chunk, attempt, rfl, hpc, rfl⟩ | ⟨visit', chunk, rfl, -, rfl⟩
        · exact absurd hmarking (visit_runs_ne_marking _ _ _ _)
        · rcases read_spec link d.station kind visit' with ⟨-, heq⟩ | ⟨-, heq⟩
          · rw [heq] at hmarking
            exact absurd hmarking (by simp)
          · rw [heq] at hmarking
            cases kind with
            | entries => exact absurd hmarking (by simp)
            | removals => exact absurd hmarking (visit_runs_ne_marking _ _ _ _)
        · exact delivers_of_marking hpc hmarking hmode
        · exact absurd hmarking (by simp)
      show k ∉ d.owed.filter _
      rw [List.mem_filter, hdelivers]
      exact fun hmem => of_decide_eq_true hmem.2 hk

/-- A step of a drain keeps what is owed on its way. -/
theorem Dispatch.Kept.drain {m : Move} (h : d.Inv) (hkept : d.Kept)
    (hstep : d.step config link (.drain m) = some d') : d'.Kept := by
  obtain ⟨station, hmove, rfl⟩ := Option.map_eq_some_iff.mp hstep
  intro k hk
  have hway := hkept k (List.mem_filter.mp hk).1
  rcases move_spec hmove with ⟨facts, ending, rfl, -, rfl⟩ | ⟨kind, visit, rfl, -, rfl⟩ |
    ⟨answer, visit, chunk, attempt, rfl, -, rfl⟩ | ⟨visit, chunk, rfl, hpc, rfl⟩
  · exact hway
  · rcases read_spec link d.station kind visit with ⟨-, heq⟩ | ⟨-, heq⟩
    · rw [heq]
      exact hway
    · rw [heq]
      exact hway
  · obtain ⟨core, pc, acknowledged, heq, -⟩ := post_spec link d.station visit chunk attempt answer
    rw [heq]
    exact hway
  · refine hway.mark ?_
    rintro rows rfl hmem
    have hvisits := h.visits
    rw [hpc] at hvisits
    cases hmode : visit.run.mode with
    | metadata => exact h.marked visit rows hpc hmode k hmem (List.mem_filter.mp hk).1
    | fullbit =>
        -- the row waits in the run of the chunk, which is not a walk's
        obtain ⟨r, hr, rfl⟩ := List.mem_map.mp hmem
        obtain ⟨hrow, hrun, -⟩ := hvisits.2.2 r hr
        obtain ⟨r', hfind, -, hwalk⟩ := hway
        rw [Table.find_of_mem hrow, Option.some.injEq] at hfind
        have hfullbit : d.station.staging.run_mode visit.run.id = some .fullbit := by
          rw [Staging.run_mode, Table.find_of_mem (hvisits.1 visit.run List.mem_cons_self),
            Option.map_some, hmode]
        rw [← hfind, hrun, hfullbit] at hwalk
        exact absurd hwalk (by decide)

/-- **The steps that keep what is owed on its way** are all but the passes that hash
some of it. -/
theorem kept_step_iff {doing : Doing} (h : d.Inv) (hkept : d.Kept)
    (hstep : d.step config link doing = some d') : d'.Kept ↔ d.PaysFirst config doing := by
  cases doing with
  | drain m => exact iff_of_true (hkept.drain h hstep) trivial
  | walk call =>
      refine iff_of_true ?_ trivial
      rw [Dispatch.step] at hstep
      split at hstep
      · rename_i hcall
        obtain ⟨station, hwrite, rfl⟩ := Option.map_eq_some_iff.mp hstep
        obtain ⟨staging, hstaging, rfl⟩ := Option.map_eq_some_iff.mp hwrite
        intro k hk
        exact on_its_way_of_walk hcall.2 hstaging ((List.mem_append.mp hk).imp_left (hkept k))
      · exact absurd hstep (by simp)
  | hash volume pass =>
      rw [Dispatch.step] at hstep
      split at hstep
      · obtain ⟨staging, hpass, rfl⟩ := Option.map_eq_some_iff.mp hstep
        have hhashed := fullbit_scan_iff.mp hpass
        constructor
        · intro hall k hk howed
          exact (on_its_way_hashed_iff hhashed (hkept k howed)).mp (hall k howed) hk
        · intro hpays k howed
          exact (on_its_way_hashed_iff hhashed (hkept k howed)).mpr fun hk => hpays k hk howed
      · exact absurd hstep (by simp)

/-- A pass that spares what waits hashes nothing that is owed. -/
theorem Dispatch.Spares.pays_first {doing : Doing} (h : d.Spares config doing) (hkept : d.Kept) :
    d.PaysFirst config doing := by
  cases doing with
  | walk call => trivial
  | drain m => trivial
  | hash volume pass =>
      intro k hk howed
      obtain ⟨run_id, hawaiting, hmetadata⟩ := (hkept k howed).waits
      exact absurd (h k hk run_id hawaiting run_id hmetadata) (lt_irrefl _)

/-- **Metadata delivery and hashing.** All that walks have staged stays on its way
until it is delivered exactly when no pass hashes a row that is owed. When what each
pass hashes is pushed, or waits after all metadata that waits, metadata delivery is
independent of hashing throughout. -/
theorem metadata_independent_of_hashing {d₀ : Dispatch} {doings : List Doing}
    (hinit : (dispatching config link).init d₀)
    (hrun : (dispatching config link).run d₀ doings = some d) :
    ((∀ n u, (dispatching config link).run d₀ (doings.take n) = some u → u.Kept) ↔
        (dispatching config link).Meets (Dispatch.PaysFirst config) d₀ doings) ∧
      ((dispatching config link).Meets (Dispatch.Spares config) d₀ doings →
        ∀ n u, (dispatching config link).run d₀ (doings.take n) = some u →
          u.Independent config link doings[n]?) := by
  obtain ⟨hstaging, hpc, howed⟩ := hinit
  have hinv : d₀.Inv := by
    refine ⟨by rw [hpc]; trivial, ?_⟩
    intro visit rows hmarking
    exact absurd (hpc.symm.trans hmarking) (by simp)
  have hkept : d₀.Kept := by
    intro k hk
    rw [howed] at hk
    exact absurd hk List.not_mem_nil
  refine ⟨?_, ?_⟩
  · exact @System.run_good_iff_meets _ _ (dispatching config link) Dispatch.Inv Dispatch.Kept
      (Dispatch.PaysFirst config) (fun s doing t hs hstep => hs.step hstep)
      (fun s doing t hs hgood hstep => kept_step_iff hs hgood hstep) d₀ d doings hinv hkept hrun
  · intro hmeets n u hu
    obtain ⟨⟨hinv', hkept'⟩, hnext⟩ := hmeets.keeps (I := fun s => s.Inv ∧ s.Kept)
      (fun s doing t hs hok hstep =>
        ⟨hs.1.step hstep, (kept_step_iff hs.1 hs.2 hstep).mpr (hok.pays_first hs.2)⟩)
      ⟨hinv, hkept⟩ hrun hu
    refine ⟨hkept', ?_, ?_⟩
    · intro hsettled
      rw [List.eq_nil_iff_forall_not_mem]
      intro k hk
      obtain ⟨run_id, hawaiting, -⟩ := (hkept' k hk).waits
      exact hsettled.entries run_id (Outbox.Waiting.of_awaiting hawaiting)
    · intro volume pass heq
      obtain ⟨hok, t, hstep⟩ := hnext _ heq
      have hstep : u.step config link (.hash volume pass) = some t := hstep
      rw [Dispatch.step] at hstep
      split at hstep
      · rename_i hrest
        exact as_if_drained hrest hok
      · exact absurd hstep (by simp)

end

/-! ## Samples -/

/-- An agent that has seen nothing, and a core that knows nothing. -/
def Dispatch.fresh : Dispatch := ⟨.fresh .empty, []⟩

/-- What a history has come to, when it is possible. -/
def Dispatch.after (d : Dispatch) (doings : List Doing) : Dispatch :=
  match (dispatching (sample_config false) sample_link).run d doings with
  | some d' => d'
  | none => d

/-- A walk finds two files of one size. -/
def two_walked : List Doing :=
  [.walk (.start_run "h" "/m" .metadata none),
    .walk (.stage_batch 1 "h" "/m" [sample_file "a" 7 1 10, sample_file "b" 8 1 10]),
    .walk (.finish_run 1 0)]

/-- A full-bit pass over the two. -/
def two_hashed : List Doing :=
  [.hash ⟨"/m", "ext4", "sda", "sata", none, none, none, 0, 0, 0, none⟩
    ⟨[(⟨1, 7⟩, "p", "f"), (⟨1, 8⟩, "p", "f")], 0⟩]

/-- A drain of one chunk of entries. -/
def chunk_drained : List Doing :=
  [.drain (.start none), .drain .read, .drain (.post (.reply 0)), .drain .mark, .drain .read, .drain .read]

/-- A pass after the drain. -/
theorem metadata_independent_of_hashing_drained :
    ((∀ n u, (dispatching (sample_config false) sample_link).run .fresh
          ((two_walked ++ chunk_drained ++ two_hashed).take n) = some u → u.Kept) ↔
        (dispatching (sample_config false) sample_link).Meets (Dispatch.PaysFirst (sample_config false)) .fresh
          (two_walked ++ chunk_drained ++ two_hashed)) ∧
      ((dispatching (sample_config false) sample_link).Meets (Dispatch.Spares (sample_config false)) .fresh
          (two_walked ++ chunk_drained ++ two_hashed) →
        ∀ n u, (dispatching (sample_config false) sample_link).run .fresh
            ((two_walked ++ chunk_drained ++ two_hashed).take n) = some u →
          u.Independent (sample_config false) sample_link (two_walked ++ chunk_drained ++ two_hashed)[n]?) :=
  @metadata_independent_of_hashing (sample_config false) sample_link
    (Dispatch.fresh.after (two_walked ++ chunk_drained ++ two_hashed)) .fresh
    (two_walked ++ chunk_drained ++ two_hashed) ⟨rfl, rfl, rfl⟩ rfl

/-- A pass before the drain takes new files off their way: the core has them in a
full-bit batch only, and logs none of the churn it logs when the drain comes first. -/
theorem pass_overtakes_metadata :
    (¬ ∀ (config : AgentConfig) (link : Uplink) (d₀ d : Dispatch) (doings : List Doing),
      (dispatching config link).init d₀ → (dispatching config link).run d₀ doings = some d →
        ∀ n u, (dispatching config link).run d₀ (doings.take n) = some u →
          u.Independent config link doings[n]?) ∧
      (Dispatch.fresh.after (two_walked ++ two_hashed ++ chunk_drained)).station.core.change_log = [] ∧
      (Dispatch.fresh.after (two_walked ++ chunk_drained ++ two_hashed ++ chunk_drained)).station.core.change_log.map
        Ingest.ChangeLog.change_type = [.create, .create] := by
  refine ⟨?_, by decide +kernel, by decide +kernel⟩
  intro hall
  have hindependent := hall (sample_config false) sample_link .fresh
    (Dispatch.fresh.after (two_walked ++ two_hashed)) (two_walked ++ two_hashed) ⟨rfl, rfl, rfl⟩ rfl 4
    (Dispatch.fresh.after (two_walked ++ two_hashed)) rfl
  obtain ⟨r, hfind, -, hwalk⟩ := hindependent.kept ⟨"h", "/m", ⟨1, 7⟩⟩ List.mem_cons_self
  -- the row waits in the run of the pass
  have hrow : (Dispatch.fresh.after (two_walked ++ two_hashed)).station.staging.staged_entry.find
      ⟨"h", "/m", ⟨1, 7⟩⟩ = some ⟨"h", "/m", sample_file "a" 7 1 10, some "p", some "f", 2, false⟩ := rfl
  rw [← Option.some.inj (hrow.symm.trans hfind)] at hwalk
  exact absurd hwalk (by decide)

end Fathom.Agent
