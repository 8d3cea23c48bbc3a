/-
**What a drain marks** (`StagingStore.mark_pushed` under `PushClient.drain`).

A mark goes by key. Between the read of a chunk and its mark the rows of the chunk
may be written again -- a scan on demand stages a newer entry, a full-bit pass a
hash -- and the mark then declares pushed what the core has not seen. The store
promises the opposite: `stage_hash` "re-marks it unpushed so the next drain carries
the hashes", and `drain` marks "only after acknowledgement".

Where no row of a chunk has been rewritten since its read, a pushed row is always
what was acknowledged, and a drain that runs to its end leaves nothing behind.
-/
import Fathom.Agent.Drain

set_option autoImplicit false

namespace Fathom.Agent

open Fathom.Ingest (Identity Mode Catalogue)
open Staging (entry_outbox removal_outbox staged_conflict removal_conflict push_entry push_removal)

/-! ## Writers -/

variable {call : Write} {s : Staging} {link : Uplink}

/-- No call of a writer pushes an entry. -/
theorem pushed_entry_of_write {u : Staging} (h : s.write call = some u) {r : StagedEntry} (hr : r ∈ u.staged_entry.rows)
    (hpushed : r.pushed = true) : r ∈ s.staged_entry.rows := by
  cases call with
  | start_run host_id volume_id mode volume =>
      rw [← Option.some.inj h] at hr
      exact hr
  | finish_run run_id finished_at =>
      rw [← Option.some.inj h] at hr
      exact hr
  | stage_batch run_id host_id volume_id entries =>
      rw [(Staging.set_entries_spec h).2.1] at hr
      -- what an upsert writes is not pushed
      have hrows := @Table.forall_upsert_many _ _ StagedEntry.key _
        s.staged_entry staged_conflict
        (entries.map (Staging.staged_row run_id host_id volume_id))
        (fun r => r.pushed = true → r ∈ s.staged_entry.rows) (fun r hr _ => hr) ?_ ?_ r hr
      · exact hrows hpushed
      · intro x hx hp
        obtain ⟨e, -, rfl⟩ := List.mem_map.mp hx
        exact absurd hp (by simp [Staging.staged_row])
      · intro row x _ _ hp
        exact absurd hp (by simp [staged_conflict])
  | stage_hash key partial_hash full_hash run_id =>
      rw [(Staging.set_entries_spec h).2.1] at hr
      obtain ⟨row, hrow, heq⟩ := List.mem_map.mp hr
      split at heq
      · rw [← heq] at hpushed
        exact absurd hpushed (by simp [Staging.set_hash])
      · rw [← heq]
        exact hrow
  | stage_removals run_id host_id volume_id removals =>
      rw [(Staging.set_removals_spec h).2.1] at hr
      exact hr

/-- No call of a writer pushes a removal. -/
theorem pushed_removal_of_write {u : Staging} (h : s.write call = some u) {r : StagedRemoval}
    (hr : r ∈ u.staged_removal.rows) (hpushed : r.pushed = true) : r ∈ s.staged_removal.rows := by
  cases call with
  | start_run host_id volume_id mode volume =>
      rw [← Option.some.inj h] at hr
      exact hr
  | finish_run run_id finished_at =>
      rw [← Option.some.inj h] at hr
      exact hr
  | stage_batch run_id host_id volume_id entries =>
      rw [(Staging.set_entries_spec h).2.2] at hr
      exact hr
  | stage_hash key partial_hash full_hash run_id =>
      rw [(Staging.set_entries_spec h).2.2] at hr
      exact hr
  | stage_removals run_id host_id volume_id removals =>
      rw [(Staging.set_removals_spec h).2.2] at hr
      have hrows := @Table.forall_upsert_many _ _ StagedRemoval.key _
        s.staged_removal removal_conflict
        (removals.map (Staging.removal_row run_id host_id volume_id))
        (fun r => r.pushed = true → r ∈ s.staged_removal.rows) (fun r hr _ => hr) ?_ ?_ r hr
      · exact hrows hpushed
      · intro x hx hp
        obtain ⟨e, -, rfl⟩ := List.mem_map.mp hx
        exact absurd hp (by simp [Staging.removal_row])
      · intro row x _ _ hp
        exact absurd hp (by simp [removal_conflict])

/-! ## Chunks in flight -/

/-- The rows of a chunk that nobody has rewritten stand as they were read. -/
def Chunk.Stands (s : Staging) (rewritten : List (Kind × StagedKey)) : Chunk → Prop
  | .entries rows =>
    ∀ r ∈ rows, (Kind.entries, r.key) ∉ rewritten → s.staged_entry.find r.key = some r
  | .removals rows =>
    ∀ r ∈ rows, (Kind.removals, r.key) ∉ rewritten → s.staged_removal.find r.key = some r

/-- A chunk just read stands. -/
theorem Chunk.Stands.read (s : Staging) (kind : Kind) (run_id limit : ℕ) :
    (Chunk.read s kind run_id limit).Stands s [] := by
  cases kind with
  | entries => exact fun r hr _ => Table.find_of_mem (Outbox.mem_read hr).1
  | removals => exact fun r hr _ => Table.find_of_mem (Outbox.mem_read hr).1

/-- A writer is recorded where it rewrites a row. -/
theorem Chunk.Stands.write {rewritten : List (Kind × StagedKey)} {chunk : Chunk} (h : chunk.Stands s rewritten)
    (u : Staging) : chunk.Stands u (rewritten ++ rewritten_keys s u) := by
  cases chunk with
  | entries rows =>
      intro r hr hkey
      rw [rewritten_keys, List.mem_append, List.mem_append, not_or, not_or] at hkey
      refine Outbox.find_of_not_changed (h r hr hkey.1) fun hchanged => ?_
      exact hkey.2.1 (List.mem_map_of_mem hchanged)
  | removals rows =>
      intro r hr hkey
      rw [rewritten_keys, List.mem_append, List.mem_append, not_or, not_or] at hkey
      refine Outbox.find_of_not_changed (h r hr hkey.1) fun hchanged => ?_
      exact hkey.2.2 (List.mem_map_of_mem hchanged)

/-- The chunk a drain has in flight. -/
def Pc.chunk : Pc → Option Chunk
  | .idle _ => none
  | .reading _ _ => none
  | .sending _ chunk _ => some chunk
  | .marking _ chunk => some chunk

theorem Pc.chunk_visit_runs (facts : Option Ingest.HostFacts) (runs : List ScanRun) :
    (Pc.visit_runs facts runs).chunk = none := by
  cases runs <;> rfl

/-! ## What has been pushed -/

/-- **Every row marked pushed is, column by column, a row the core has
acknowledged.** -/
structure Delivered (s : Staging) (acknowledged : List Chunk) : Prop where
  entries : entry_outbox.Confirmed (acknowledged.flatMap Chunk.entry_rows) s.staged_entry
  removals : removal_outbox.Confirmed (acknowledged.flatMap Chunk.removal_rows) s.staged_removal

/-- What holds between the steps of a drain and its writers. -/
structure DrainInv (st : Station) : Prop where
  delivered : Delivered st.staging st.acknowledged
  flight : ∀ chunk, st.pc.chunk = some chunk → chunk.Stands st.staging st.rewritten
  answered : ∀ visit chunk, st.pc = .marking visit chunk → chunk ∈ st.acknowledged

/-- The mark of a chunk none of whose rows has been rewritten since it was read. -/
def marks_as_read (st : Station) : Action → Bool
  | .move .mark =>
    match st.pc with
    | .marking _ chunk => chunk.keys.all fun k => (chunk.kind, k) ∉ st.rewritten
    | _ => true
  | _ => true

theorem Delivered.mono {acknowledged : List Chunk} (h : Delivered s acknowledged) (chunk : Chunk) :
    Delivered s (acknowledged ++ [chunk]) := by
  constructor
  · rw [List.flatMap_append]
    exact h.entries.mono
  · rw [List.flatMap_append]
    exact h.removals.mono

/-- **The step that matters**: the mark of an acknowledged chunk that stands. -/
theorem Delivered.mark {acknowledged : List Chunk} {rewritten : List (Kind × StagedKey)} {chunk : Chunk}
    (h : Delivered s acknowledged) (hanswered : chunk ∈ acknowledged) (hstands : chunk.Stands s rewritten)
    (hkeys : ∀ k ∈ chunk.keys, (chunk.kind, k) ∉ rewritten) : Delivered (chunk.mark s) acknowledged := by
  cases chunk with
  | entries rows =>
      refine ⟨h.entries.mark ?_ ?_, h.removals⟩
      · intro x hx
        exact List.mem_flatMap.mpr ⟨_, hanswered, hx⟩
      · intro x hx
        exact hstands x hx (hkeys _ (List.mem_map_of_mem hx))
  | removals rows =>
      refine ⟨h.entries, h.removals.mark ?_ ?_⟩
      · intro x hx
        exact List.mem_flatMap.mpr ⟨_, hanswered, hx⟩
      · intro x hx
        exact hstands x hx (hkeys _ (List.mem_map_of_mem hx))

/-- A drain with nothing in flight may stand anywhere. -/
theorem DrainInv.grounded {st : Station} {pc : Pc} (h : DrainInv st) (hpc : pc.chunk = none) :
    DrainInv { st with pc := pc } := by
  refine ⟨h.delivered, ?_, ?_⟩
  · intro chunk hchunk
    exact absurd (hpc.symm.trans hchunk) (by simp)
  · intro visit chunk hmarking
    have hsome := congrArg Pc.chunk hmarking
    exact absurd (hpc.symm.trans hsome) (by simp [Pc.chunk])

theorem DrainInv.write {st st' : Station} (h : DrainInv st) (hstep : st.write call = some st') : DrainInv st' := by
  obtain ⟨staging, hwrite, rfl⟩ := Option.map_eq_some_iff.mp hstep
  refine ⟨⟨?_, ?_⟩, ?_, h.answered⟩
  · exact h.delivered.entries.of_rows fun r hr hp => pushed_entry_of_write hwrite hr hp
  · exact h.delivered.removals.of_rows fun r hr hp => pushed_removal_of_write hwrite hr hp
  · intro chunk hchunk
    exact (h.flight chunk hchunk).write staging

theorem DrainInv.move {st st' : Station} {m : Move} (h : DrainInv st) (hok : marks_as_read st (.move m) = true)
    (hstep : st.move link m = some st') : DrainInv st' := by
  rcases move_spec hstep with ⟨facts, ending, rfl, hpc, rfl⟩ | ⟨kind, visit, rfl, hpc, rfl⟩ |
    ⟨answer, visit, chunk, attempt, rfl, hpc, rfl⟩ | ⟨visit, chunk, rfl, hpc, rfl⟩
  · exact h.grounded (Pc.chunk_visit_runs _ _)
  · rcases read_spec link st kind visit with ⟨-, heq⟩ | ⟨-, heq⟩
    · -- the rows read stand, and nobody has rewritten them yet
      rw [heq]
      refine ⟨h.delivered, ?_, fun visit' chunk hmarking => absurd hmarking (by simp)⟩
      intro chunk hchunk
      rw [← Option.some.inj hchunk]
      exact Chunk.Stands.read _ _ _ _
    · rw [heq]
      refine h.grounded ?_
      cases kind with
      | entries => rfl
      | removals => exact Pc.chunk_visit_runs _ _
  · have hstands := h.flight chunk (by rw [hpc]; rfl)
    obtain ⟨core, pc, acknowledged, heq, -, hcases⟩ := post_spec link st visit chunk attempt answer
    rw [heq]
    rcases hcases with ⟨rfl, hpc'⟩ | ⟨rfl, now, result, -, rfl⟩
    · refine ⟨h.delivered, ?_, ?_⟩
      · intro chunk' hchunk'
        rcases hpc' with rfl | rfl
        · exact absurd hchunk' (by simp [Pc.chunk])
        · rw [← Option.some.inj hchunk']
          exact hstands
      · intro visit' chunk' hmarking
        rcases hpc' with rfl | rfl
        · exact absurd hmarking (by simp)
        · exact absurd hmarking (by simp)
    · refine ⟨h.delivered.mono chunk, ?_, ?_⟩
      · intro chunk' hchunk'
        rw [← Option.some.inj hchunk']
        exact hstands
      · intro visit' chunk' hmarking
        rw [← (Pc.marking.inj hmarking).2]
        exact List.mem_append_right _ (List.mem_singleton.mpr rfl)
  · have hkeys : ∀ k ∈ chunk.keys, (chunk.kind, k) ∉ st.rewritten := by
      rw [marks_as_read, hpc] at hok
      intro k hk
      exact of_decide_eq_true (List.all_eq_true.mp hok k hk)
    have hstands := h.flight chunk (by rw [hpc]; rfl)
    refine ⟨h.delivered.mark (h.answered visit chunk hpc) hstands hkeys, ?_, ?_⟩
    · exact fun chunk' hchunk' => absurd hchunk' (by simp [Pc.chunk])
    · exact fun visit' chunk' hmarking => absurd hmarking (by simp)

/-- A complete drain keeps what was pushed confirmed: with no writer about, nothing
is rewritten while a chunk is in flight. -/
theorem DrainInv.drained {st st' : Station} (h : DrainInv st) (hdrain : Drained link st st') : DrainInv st' := by
  refine (hdrain.keeps (I := fun u => DrainInv u ∧ (u.pc.chunk ≠ none → u.rewritten = [])) ?_ ?_).1.1
  · intro facts
    have hnone := Pc.chunk_visit_runs facts st.staging.pending_runs
    exact ⟨h.grounded hnone, fun hne => absurd hnone hne⟩
  · rintro u m v ⟨hu, hclean⟩ hstep
    have hok : marks_as_read u (.move m) = true := by
      cases m with
      | mark =>
          rw [marks_as_read]
          split
          · rename_i visit chunk hpc
            rw [hclean (by rw [hpc]; simp [Pc.chunk])]
            exact List.all_eq_true.mpr fun k _ => decide_eq_true List.not_mem_nil
          · rfl
      | start facts => rfl
      | read => rfl
      | post answer => rfl
    refine ⟨hu.move hok hstep, ?_⟩
    rcases move_spec hstep with ⟨facts, ending, -, -, rfl⟩ | ⟨kind, visit, -, hpc, rfl⟩ |
      ⟨answer, visit, chunk, attempt, -, hpc, rfl⟩ | ⟨visit, chunk, -, -, rfl⟩
    · exact fun hne => absurd (Pc.chunk_visit_runs _ _) hne
    · rcases read_spec link u kind visit with ⟨-, heq⟩ | ⟨-, heq⟩
      · rw [heq]
        exact fun _ => rfl
      · rw [heq]
        cases kind with
        | entries => exact fun hne => absurd rfl hne
        | removals => exact fun hne => absurd (Pc.chunk_visit_runs _ _) hne
    · obtain ⟨core, pc, acknowledged, heq, -, -⟩ := post_spec link u visit chunk attempt answer
      rw [heq]
      exact fun _ => hclean (by rw [hpc]; simp [Pc.chunk])
    · exact fun hne => absurd rfl hne

/-- The rows of `s` are in `u`, but for their being pushed. -/
structure KeepsRows (s u : Staging) : Prop where
  entries : ∀ r ∈ s.staged_entry.rows, ∃ row ∈ u.staged_entry.rows, push_entry row = push_entry r
  removals : ∀ r ∈ s.staged_removal.rows, ∃ row ∈ u.staged_removal.rows,
    push_removal row = push_removal r

theorem KeepsRows.refl (s : Staging) : KeepsRows s s :=
  ⟨fun r hr => ⟨r, hr, rfl⟩, fun r hr => ⟨r, hr, rfl⟩⟩

theorem KeepsRows.mark {u : Staging} (h : KeepsRows s u) (chunk : Chunk) : KeepsRows s (chunk.mark u) := by
  cases chunk with
  | entries rows =>
      refine ⟨fun r hr => ?_, h.removals⟩
      obtain ⟨row, hrow, heq⟩ := h.entries r hr
      have hmark : ∃ row' ∈ (entry_outbox.mark u.staged_entry (rows.map StagedEntry.key)).rows,
          push_entry row' = push_entry row := Outbox.push_mem_mark _ hrow
      obtain ⟨row', hrow', heq'⟩ := hmark
      exact ⟨row', hrow', heq'.trans heq⟩
  | removals rows =>
      refine ⟨h.entries, fun r hr => ?_⟩
      obtain ⟨row, hrow, heq⟩ := h.removals r hr
      have hmark : ∃ row' ∈ (removal_outbox.mark u.staged_removal (rows.map StagedRemoval.key)).rows,
          push_removal row' = push_removal row := Outbox.push_mem_mark _ hrow
      obtain ⟨row', hrow', heq'⟩ := hmark
      exact ⟨row', hrow', heq'.trans heq⟩

/-- A drain keeps every row. -/
theorem Drained.keeps_rows {st st' : Station} (h : Drained link st st') : KeepsRows st.staging st'.staging := by
  refine (h.keeps (I := fun u => KeepsRows st.staging u.staging) (fun _ => KeepsRows.refl _) ?_).1
  intro u m v hu hstep
  rcases move_spec hstep with ⟨facts, ending, -, -, rfl⟩ | ⟨kind, visit, -, -, rfl⟩ |
    ⟨answer, visit, chunk, attempt, -, -, rfl⟩ | ⟨visit, chunk, -, -, rfl⟩
  · exact hu
  · rcases read_spec link u kind visit with ⟨-, heq⟩ | ⟨-, heq⟩
    · rw [heq]
      exact hu
    · rw [heq]
      exact hu
  · obtain ⟨core, pc, acknowledged, heq, -, -⟩ := post_spec link u visit chunk attempt answer
    rw [heq]
    exact hu
  · exact hu.mark chunk

/-! ## Histories -/

/-- Every row the database has, as it stands, is in some chunk the core has
acknowledged. -/
structure Contained (s : Staging) (acknowledged : List Chunk) : Prop where
  entries : ∀ r ∈ s.staged_entry.rows, ∃ x ∈ acknowledged.flatMap Chunk.entry_rows,
    push_entry x = push_entry r
  removals : ∀ r ∈ s.staged_removal.rows, ∃ x ∈ acknowledged.flatMap Chunk.removal_rows,
    push_removal x = push_removal r

theorem drain_inv {tr : List Action} {st : Station} (htr : ((transfer link).guard marks_as_read).Trace tr st) :
    DrainInv st := by
  refine htr.invariant ?_ ?_
  · rintro s ⟨hstaging, hpc, hacknowledged, -⟩
    refine ⟨?_, ?_, ?_⟩
    · rw [hstaging, hacknowledged]
      exact ⟨fun r hr => absurd hr List.not_mem_nil, fun r hr => absurd hr List.not_mem_nil⟩
    · rw [hpc]
      exact fun chunk hchunk => absurd hchunk (by simp [Pc.chunk])
    · rw [hpc]
      exact fun visit chunk hmarking => absurd hmarking (by simp)
  · intro s a t hs hstep
    obtain ⟨hok, hstep⟩ := System.guard_step.mp hstep
    cases a with
    | write call => exact hs.write hstep
    | move m => exact hs.move hok hstep

/-- **The drain loses no update** in a history in which no chunk is marked after one
of its rows has been rewritten: a pushed row is what the core acknowledged, and
after a complete drain every row has been acknowledged as it stands. -/
theorem drain_loses_nothing {link : Uplink} {tr : List Action} {st : Station}
    (htr : ((transfer link).guard marks_as_read).Trace tr st) :
    Delivered st.staging st.acknowledged ∧
      ∀ st', Drained link st st' → Contained st.staging st'.acknowledged := by
  have hinv := drain_inv htr
  refine ⟨hinv.delivered, fun st' hdrain => ?_⟩
  have hdelivered := (hinv.drained hdrain).delivered
  have hsettled := hdrain.settled
  have hkeeps := hdrain.keeps_rows
  constructor
  · intro r hr
    obtain ⟨row, hrow, heq⟩ := hkeeps.entries r hr
    obtain ⟨x, hx, hpush⟩ := hdelivered.entries.all hsettled.entries hrow
    have hpush : push_entry x = row := hpush
    refine ⟨x, hx, ?_⟩
    rw [← heq, ← hpush]
    rfl
  · intro r hr
    obtain ⟨row, hrow, heq⟩ := hkeeps.removals r hr
    obtain ⟨x, hx, hpush⟩ := hdelivered.removals.all hsettled.removals hrow
    have hpush : push_removal x = row := hpush
    refine ⟨x, hx, ?_⟩
    rw [← heq, ← hpush]
    rfl

/-- A file is staged, sent and marked. -/
def sample_delivery : List Action :=
  [sample_run, .write (.stage_batch 1 "h" "/m" [sample_file "a" 7 1 10]), .move (.start none), .move .read,
    .move (.post (.reply 0)), .move .mark]

/-- A file staged, sent and marked is confirmed, and so is one staged later once it
has been drained. -/
theorem drain_loses_nothing_delivery :
    Delivered ((Station.fresh .empty).after sample_delivery).staging
        ((Station.fresh .empty).after sample_delivery).acknowledged ∧
      ∀ st', Drained sample_link ((Station.fresh .empty).after sample_delivery) st' →
        Contained ((Station.fresh .empty).after sample_delivery).staging st'.acknowledged :=
  @drain_loses_nothing sample_link sample_delivery _
    ⟨Station.fresh .empty, ⟨rfl, rfl, rfl, rfl⟩, rfl⟩

/-- A drain may lose answers and requests and still run to its end. -/
example : ∃ st', Drained sample_link ((Station.fresh .empty).after (sample_delivery.take 2)) st' :=
  ⟨_, none, [.read, .post .unreached, .post (.lost 0), .post (.reply 0), .mark, .read, .read], rfl, rfl⟩

/-- A scan on demand stages a newer version of the file while the older one is being
sent; the mark then hits the newer one. -/
def sample_race : List Action :=
  [sample_run, .write (.stage_batch 1 "h" "/m" [sample_file "a" 7 1 10]), .move (.start none), .move .read,
    .move (.post (.reply 0)), sample_run, .write (.stage_batch 2 "h" "/m" [sample_file "a" 7 2 20]),
    .move .mark]

/-- A row is marked pushed with content the core has not seen. -/
theorem drain_marks_unseen :
    ¬ ∀ (link : Uplink) (tr : List Action) (st : Station), (transfer link).Trace tr st →
      Delivered st.staging st.acknowledged := by
  intro hall
  have hdelivered := hall sample_link sample_race ((Station.fresh .empty).after sample_race)
    ⟨Station.fresh .empty, ⟨rfl, rfl, rfl, rfl⟩, rfl⟩
  obtain ⟨x, hx, hpush⟩ := hdelivered.entries
    ⟨"h", "/m", sample_file "a" 7 2 20, none, none, 2, true⟩ (List.mem_singleton.mpr rfl) rfl
  -- the one row acknowledged is the older one
  rw [List.mem_singleton.mp hx] at hpush
  exact absurd (congrArg (fun r => r.entry.size_logical) hpush) (by decide)

end Fathom.Agent
