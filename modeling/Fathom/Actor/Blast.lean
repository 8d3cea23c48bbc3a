/-
**The blast cap on both sides** (`core/remediation/orchestrator.py`, `agent/actor/executor.py`,
`listen.py`).

The orchestrator dispatches an execute job when its live items are within the cap the server
is configured with, or the operator has confirmed. The agent's executor has a cap of its own,
the default, since `build_listener_from_config` passes none; and nothing carries a confirmation
to it, since the job has no field for one and `run_listen` passes none to `handle_one`. So the
agent may refuse what the server has dispatched.

Whether it can is a question about the items of the job only: a run comes to the cap with the
items that its dry runs found clean, other processes decide which those are, and an item can be
found clean when some filesystem would show it so (`CanPass`). An item goes with any other of
its id. `never_refused_iff` counts them.
-/
import Fathom.Actor.Identity
import Fathom.Actor.Results

set_option autoImplicit false

namespace Fathom.Actor

open Fathom.Datetime (Timestamp)
open Fathom.Audit (AuditChain)
open Fathom.Filesystem
open Fathom.Remediation

/-! ## The agent's cap -/

/-- `DEFAULT_BLAST_CAP`. -/
def DEFAULT_BLAST_CAP : ℕ := 100

/-- The dispatcher of `build_listener_from_config` with a write path, as `handle_one` calls it
from `run_listen`. -/
def build_listener (quarantine_dir : String) (process : Process) : Dispatcher where
  executor := ⟨quarantine_dir, true, DEFAULT_BLAST_CAP, false, "strata-actor"⟩
  hasher := true
  process
  confirm_blast := false

/-- A job has been refused on blast radius. -/
def Refused (s : Run) : Prop := ∃ items cap, s.pc = .raised (.blast_radius items cap)

/-! ## Items that can be found clean -/

section

variable (blake3 : ByteArray → String) (d : Dispatcher)

/-- Some filesystem shows the item as it was planned to the `lstat` of a dry run, and some
filesystem to its hash. -/
structure CanPass (item : PlanItem) : Prop where
  stat : ∃ fs, verify_stat d.process fs none item = .ok none
  hash : ∀ hash, (item.prior_hash.filter fun _ => d.hasher) = some hash →
    ∃ fs, verify_hash blake3 d.process fs none item hash = .ok none

/-- An item goes with the others of its id. -/
def AllPass (job : ActionJob) (item : PlanItem) : Prop :=
  ∀ other ∈ job.items, other.entry_id.to_str = item.entry_id.to_str → CanPass blake3 d other

open Classical in
/-- The items of a job that its dry runs can leave. -/
noncomputable def can_stay (job : ActionJob) : List PlanItem :=
  job.items.filter fun item => AllPass blake3 d job item

end

variable {blake3 : ByteArray → String} {d : Dispatcher} {job : ActionJob}

variable {s t : Run} {item : PlanItem} {fs : FileSystem} {fault : Option Errno}

theorem CanPass.nul_free (h : CanPass blake3 d item) : has_nul item.path = false := by
  obtain ⟨fs, hstat⟩ := h.stat
  exact verify_stat_ok hstat

/-- A call that fails says less than one that does not. -/
theorem verify_stat_pass (h : verify_stat d.process fs fault item = .ok none) :
    verify_stat d.process fs none item = .ok none := by
  cases fault with
  | none => exact h
  | some e =>
      rw [verify_stat, attempt] at h
      split_ifs at h
      exact absurd h (by simp)

theorem verify_hash_pass {hash : String} (h : verify_hash blake3 d.process fs fault item hash = .ok none) :
    verify_hash blake3 d.process fs none item hash = .ok none := by
  cases fault with
  | none => exact h
  | some e =>
      rw [verify_hash, attempt] at h
      exact absurd h (by simp)

/-! ## What a run has passed -/

/-- What is left of the job's items after a report. -/
def Left (job : ActionJob) (plan : RemediationPlan) : Prop :=
  plan.items = job.items ∨
    ∃ report : VerifyReport, plan.items = job.items.filter fun item => !report.has_drifted item

/-- Of the items of a plan, those not to come have passed or something is reported; none of them
has a NUL. -/
structure PassedSoFar (blake3 : ByteArray → String) (d : Dispatcher) (job : ActionJob) (clean : Bool)
    (plan : RemediationPlan) (todo : List PlanItem) (report : VerifyReport) : Prop where
  left : Left job plan
  first : clean = false → plan.items = job.items
  passed : ∀ item ∈ plan.items, item ∈ todo ∨ CanPass blake3 d item ∨ report.drifted ≠ []
  nul_free : ∀ item ∈ job.items, (clean = false ∧ item ∈ todo) ∨ has_nul item.path = false

/-- What holds wherever a run is. -/
def Passing (blake3 : ByteArray → String) (d : Dispatcher) (job : ActionJob) (s : Run) : Prop :=
  match s.pc with
  | .verifying clean plan todo report => PassedSoFar blake3 d job clean plan todo report
  | .hashing clean plan item hash todo report =>
    PassedSoFar blake3 d job clean plan (item :: todo) report ∧ has_nul item.path = false ∧
      (item.prior_hash.filter fun _ => d.hasher) = some hash ∧
      ∃ fs, verify_stat d.process fs none item = .ok none
  | .execute plan report => PassedSoFar blake3 d job true plan [] report
  | .raised (.blast_radius items cap) =>
    (∀ item ∈ job.items, has_nul item.path = false) ∧ cap = d.executor.blast_cap ∧ cap < items ∧
      items ≤ (can_stay blake3 d job).length
  | _ => True

variable {clean : Bool} {plan : RemediationPlan} {todo : List PlanItem} {report : VerifyReport}

/-- An item that has passed, or of which something is noted. -/
theorem PassedSoFar.next (h : PassedSoFar blake3 d job clean plan (item :: todo) report)
    (hnul : has_nul item.path = false) {reason : Option String} (hreason : reason = none → CanPass blake3 d item) :
    PassedSoFar blake3 d job clean plan todo (note report item reason) := by
  have hkept : report.drifted ≠ [] → (note report item reason).drifted ≠ [] := by
    cases reason with
    | none => exact id
    | some reason => exact fun _ => note_some_ne_nil report item reason
  have hitem : CanPass blake3 d item ∨ (note report item reason).drifted ≠ [] := by
    cases reason with
    | none => exact Or.inl (hreason rfl)
    | some reason => exact Or.inr (note_some_ne_nil report item reason)
  refine ⟨h.left, h.first, fun other hother => ?_, fun other hother => ?_⟩
  · obtain hcome | hpass | hne := h.passed other hother
    · obtain rfl | htodo := List.mem_cons.mp hcome
      · exact Or.inr hitem
      · exact Or.inl htodo
    · exact Or.inr (Or.inl hpass)
    · exact Or.inr (Or.inr (hkept hne))
  · obtain ⟨hclean, hcome⟩ | hfree := h.nul_free other hother
    · obtain rfl | htodo := List.mem_cons.mp hcome
      · exact Or.inr hnul
      · exact Or.inl ⟨hclean, htodo⟩
    · exact Or.inr hfree

/-- A clean report leaves no more than can stay. -/
theorem PassedSoFar.length_le (h : PassedSoFar blake3 d job clean plan [] report) (hok : report.ok = true) :
    plan.items.length ≤ (can_stay blake3 d job).length := by
  have hpass : ∀ item ∈ plan.items, CanPass blake3 d item := by
    intro item hitem
    obtain hcome | hpass | hne := h.passed item hitem
    · exact absurd hcome List.not_mem_nil
    · exact hpass
    · exact absurd (List.isEmpty_iff.mp hok) hne
  apply List.Sublist.length_le
  obtain hall | ⟨before, hall⟩ := h.left
  · -- nothing has been dropped
    rw [hall] at hpass ⊢
    have hself : can_stay blake3 d job = job.items := by
      rw [can_stay, List.filter_eq_self]
      intro item _
      simp only [decide_eq_true_eq]
      exact fun other hother _ => hpass other hother
    rw [hself]
  · rw [hall] at hpass ⊢
    rw [can_stay]
    apply List.monotone_filter_right
    intro item hlive
    simp only [decide_eq_true_eq]
    intro other hother hid
    refine hpass other (List.mem_filter.mpr ⟨hother, ?_⟩)
    rw [VerifyReport.has_drifted, hid]
    exact hlive

theorem passing_start (hinit : (executing blake3 d job).init s) : Passing blake3 d job s := by
  obtain ⟨-, hpc⟩ := hinit
  unfold Passing
  rw [hpc]
  exact ⟨Or.inl rfl, fun _ => rfl, fun item hitem => Or.inl hitem, fun item hitem =>
    Or.inl ⟨rfl, hitem⟩⟩

theorem verify_passing (h : Passing blake3 d job s)
    (hstep : run_step blake3 d s (.verify fault) = some t) : Passing blake3 d job t := by
  unfold Passing at h
  simp only [run_step] at hstep
  split at hstep
  · rename_i clean plan item todo report hpc
    rw [hpc] at h
    split at hstep
    · rename_i e hraised
      rw [← Option.some.inj hstep]
      rw [(verify_stat_error hraised).1]
      exact trivial
    · rename_i reason hdrift
      rw [← Option.some.inj hstep]
      exact h.next (verify_stat_ok hdrift) (by simp)
    · rename_i hsame
      split at hstep
      · rename_i hash hhash
        rw [← Option.some.inj hstep]
        exact ⟨h, verify_stat_ok hsame, hhash, s.fs, verify_stat_pass hsame⟩
      · rename_i hhash
        rw [← Option.some.inj hstep]
        have hpass : CanPass blake3 d item := by
          refine ⟨⟨s.fs, verify_stat_pass hsame⟩, fun hash hsome => ?_⟩
          rw [hhash] at hsome
          exact absurd hsome (by simp)
        have hnext : PassedSoFar blake3 d job clean plan todo (note report item none) :=
          h.next (verify_stat_ok hsame) fun _ => hpass
        exact hnext
  · exact absurd hstep (by simp)

theorem read_passing (h : Passing blake3 d job s)
    (hstep : run_step blake3 d s (.read fault) = some t) : Passing blake3 d job t := by
  unfold Passing at h
  simp only [run_step] at hstep
  split at hstep
  · rename_i clean plan item hash todo report hpc
    rw [hpc] at h
    obtain ⟨hpassed, hnul, hhash, hstat⟩ := h
    split at hstep
    · rename_i e hraised
      rw [← Option.some.inj hstep]
      have hos : ∃ errno, e = .os errno := by
        unfold verify_hash at hraised
        split at hraised
        · exact ⟨_, (Except.error.inj hraised).symm⟩
        · split at hraised
          · exact ⟨_, (Except.error.inj hraised).symm⟩
          · exact absurd hraised (by simp)
      obtain ⟨errno, rfl⟩ := hos
      exact trivial
    · rename_i reason hread
      rw [← Option.some.inj hstep]
      refine hpassed.next hnul fun hnone => ⟨hstat, fun hash' hsome => ⟨s.fs, ?_⟩⟩
      rw [hhash, Option.some.injEq] at hsome
      rw [hnone] at hread
      rw [← hsome]
      exact verify_hash_pass hread
  · exact absurd hstep (by simp)

theorem report_passing (h : Passing blake3 d job s) (hstep : run_step blake3 d s .report = some t) :
    Passing blake3 d job t := by
  unfold Passing at h
  simp only [run_step] at hstep
  split at hstep
  · rename_i clean plan report hpc
    rw [hpc] at h
    have hfree : ∀ item ∈ job.items, has_nul item.path = false := by
      intro item hitem
      obtain ⟨-, hcome⟩ | hfree := h.nul_free item hitem
      · exact absurd hcome List.not_mem_nil
      · exact hfree
    rw [← Option.some.inj hstep]
    unfold after_report
    by_cases hgo : report.ok = true ∨ clean = true
    · rw [if_pos hgo]
      exact ⟨h.left, by simp, h.passed, fun item hitem => Or.inr (hfree item hitem)⟩
    · rw [if_neg hgo]
      split
      · exact trivial
      · have hclean : clean = false := by
          rw [not_or] at hgo
          simpa using hgo.2
        refine ⟨Or.inr ⟨report, ?_⟩, by simp, fun item hitem => Or.inl hitem, fun item hitem =>
          Or.inr (hfree item hitem)⟩
        rw [← h.first hclean]
        rfl
  · exact absurd hstep (by simp)

/-- Making a directory raises errors of the kernel only. -/
theorem make_directories_error {p : Process} {fault : ℕ → Option Errno} {start : Dir}
    {names : List String} {e : ActorError}
    (h : (make_directories p fault start fs names).result = .error e) : ∃ errno, e = .os errno := by
  induction names generalizing fs with
  | nil => exact absurd h (by simp [make_directories])
  | cons name parents ih =>
      rw [make_directories] at h
      split at h
      · exact absurd h (by simp)
      · split at h
        · dsimp only at h
          split at h
          · rename_i e' habove
            rw [Except.error.inj h] at habove
            exact ih habove
          · split at h
            · exact absurd h (by simp)
            · dsimp only at h
              split_ifs at h
              exact ⟨_, (Except.error.inj h).symm⟩
        · dsimp only at h
          split_ifs at h
          exact ⟨_, (Except.error.inj h).symm⟩

/-- **The cap.** What is refused on blast radius. -/
theorem prepare_refuses {faults : PrepareFaults} {items cap : ℕ} :
    (prepare d fs faults plan report).result = .error (.blast_radius items cap) ↔
      d.executor.write_enabled = true ∧ report.ok = true ∧ d.confirm_blast = false ∧
        d.executor.blast_cap < plan.items.length ∧ items = plan.items.length ∧ cap = d.executor.blast_cap := by
  unfold prepare
  by_cases hwrite : d.executor.write_enabled = true
  · rw [if_neg (by simp [hwrite]), and_iff_right hwrite]
    by_cases hok : report.ok = true
    · rw [if_neg (by simp [hok]), and_iff_right hok]
      by_cases hblast : d.executor.blast_cap < plan.items.length ∧ ¬d.confirm_blast
      · rw [if_pos hblast]
        constructor
        · intro h
          obtain ⟨rfl, rfl⟩ := ActorError.blast_radius.inj (Except.error.inj h)
          exact ⟨by simpa using hblast.2, hblast.1, rfl, rfl⟩
        · rintro ⟨-, -, rfl, rfl⟩
          rfl
      · rw [if_neg hblast]
        refine iff_of_false (fun h => ?_) fun h => hblast ⟨h.2.1, by simp [h.1]⟩
        dsimp only at h
        split at h
        · exact absurd (Except.error.inj h) (by simp)
        · obtain ⟨errno, herrno⟩ := make_directories_error h
          exact absurd herrno (by simp)
    · rw [if_pos (by simpa using hok)]
      exact iff_of_false (by simp) fun h => hok h.1
  · rw [if_pos hwrite]
    exact iff_of_false (by simp) fun h => hwrite h.1

theorem prepare_passing {faults : PrepareFaults} (h : Passing blake3 d job s)
    (hstep : run_step blake3 d s (.prepare faults) = some t) : Passing blake3 d job t := by
  unfold Passing at h
  simp only [run_step] at hstep
  split at hstep
  · rename_i plan report hpc
    rw [hpc] at h
    rw [← Option.some.inj hstep]
    have hfree : ∀ item ∈ job.items, has_nul item.path = false := by
      intro item hitem
      obtain ⟨hfalse, -⟩ | hfree := h.nul_free item hitem
      · exact absurd hfalse (by simp)
      · exact hfree
    unfold Passing
    cases hprepare : (prepare d s.fs faults plan report).result with
    | ok _ => exact trivial
    | error e =>
        cases e with
        | blast_radius items cap =>
            obtain ⟨-, hok, -, hlt, rfl, rfl⟩ := prepare_refuses.mp hprepare
            exact ⟨hfree, rfl, hlt, h.length_le hok⟩
        | _ => exact trivial
  · exact absurd hstep (by simp)

theorem mutate_error {executor : Executor} {p : Process} {faults : Faults} {dir : Dir} {name : String} {e : ActorError}
    (h : (mutate executor p fs faults dir name plan item).result = .error e) : e = .nul ∨ ∃ errno, e = .os errno := by
  unfold mutate at h
  split at h
  · unfold quarantine at h
    dsimp only at h
    split at h
    · exact Or.inr ⟨_, (Except.error.inj h).symm⟩
    · split at h
      · exact Or.inl (Except.error.inj h).symm
      · split at h
        · exact absurd h (by simp)
        · exact absurd h (by simp)
  · unfold hard_delete at h
    split at h
    · exact absurd h (by simp)
    · split at h
      · exact absurd h (by simp)
      · exact absurd h (by simp)
  · exact Or.inl (move_error h)
  · exact absurd h (by simp)

/-- An act raises errors of the kernel, of a NUL and of the audit sink only. -/
theorem act_error {executor : Executor} {p : Process} {chain : AuditChain} {faults : Faults}
    {now now' : Timestamp} {e : ActorError}
    (h : (act blake3 executor p fs chain faults now now' plan item).result = .error e) :
    e = .nul ∨ e = .audit ∨ ∃ errno, e = .os errno := by
  have hexit := @act_exit blake3 executor p fs chain faults now now' plan item
  generalize act blake3 executor p fs chain faults now now' plan item = acted at hexit h
  cases hexit with
  | stopped e' he =>
      rw [← Except.error.inj h]
      exact he
  | drifted dir drift hopen hdrift => exact absurd h (by simp)
  | raised dir e' hopen hrecheck hmutate =>
      rw [Except.error.inj h] at hmutate
      obtain hnul | hos := mutate_error hmutate
      · exact Or.inl hnul
      · exact Or.inr (Or.inr hos)
  | unrecorded dir status detail hopen hrecheck hmutate =>
      exact Or.inr (Or.inl (Except.error.inj h).symm)
  | done dir status detail hopen hrecheck hmutate => exact absurd h (by simp)

theorem passing_step {label : RunLabel} (h : Passing blake3 d job s)
    (hstep : run_step blake3 d s label = some t) : Passing blake3 d job t := by
  cases label with
  | other fs =>
      rw [← Option.some.inj hstep]
      exact h
  | verify fault => exact verify_passing h hstep
  | read fault => exact read_passing h hstep
  | report => exact report_passing h hstep
  | prepare faults => exact prepare_passing h hstep
  | act faults now now' =>
      simp only [run_step] at hstep
      split at hstep
      · rename_i plan item todo results audit hpc
        rw [← Option.some.inj hstep]
        unfold Passing
        dsimp only
        cases hact :
            (act blake3 d.executor d.process s.fs s.chain faults now now' plan item).result with
        | ok _ => exact trivial
        | error e =>
            obtain rfl | rfl | ⟨errno, rfl⟩ := act_error hact
            · exact trivial
            · exact trivial
            · exact trivial
      · exact absurd hstep (by simp)
  | finish =>
      simp only [run_step] at hstep
      split at hstep
      · rw [← Option.some.inj hstep]
        exact trivial
      · exact absurd hstep (by simp)

/-! ## A run to the cap -/

open Classical in
/-- What a dry run reports when every item that can pass does, and no other. -/
noncomputable def notes (blake3 : ByteArray → String) (d : Dispatcher) :
    List PlanItem → VerifyReport → VerifyReport
  | [], report => report
  | item :: todo, report =>
    notes blake3 d todo (if CanPass blake3 d item then report else note report item (some "missing"))

theorem note_has_drifted {other : PlanItem} {reason : String} :
    (note report item (some reason)).has_drifted other = true ↔
      report.has_drifted other = true ∨ other.entry_id.to_str = item.entry_id.to_str := by
  rw [has_drifted_iff, has_drifted_iff]
  constructor
  · rintro ⟨r, hr⟩
    obtain hold | hnew := note_reported hr
    · exact Or.inl ⟨r, hold⟩
    · exact Or.inr hnew
  · rw [note]
    dsimp only
    by_cases hdrifted : report.has_drifted item = true
    · rw [if_pos hdrifted]
      have hself : ∀ {r : String}, other.entry_id.to_str = item.entry_id.to_str →
          (other.entry_id.to_str, r) ∈ report.drifted → (other.entry_id.to_str, reason) ∈
            report.drifted.map fun d => if d.1 = item.entry_id.to_str then
              (item.entry_id.to_str, reason) else d := by
        intro r hid hr
        refine List.mem_map.mpr ⟨_, hr, ?_⟩
        rw [if_pos hid, hid]
      rintro (⟨r, hr⟩ | hid)
      · by_cases hid : other.entry_id.to_str = item.entry_id.to_str
        · exact ⟨reason, hself hid hr⟩
        · refine ⟨r, List.mem_map.mpr ⟨_, hr, ?_⟩⟩
          rw [if_neg hid]
      · obtain ⟨r, hr⟩ := has_drifted_iff.mp hdrifted
        rw [← hid] at hr
        exact ⟨reason, hself hid hr⟩
    · rw [if_neg hdrifted]
      rintro (⟨r, hr⟩ | hid)
      · exact ⟨r, List.mem_append_left _ hr⟩
      · rw [hid]
        exact ⟨reason, List.mem_append_right _ List.mem_cons_self⟩

theorem notes_has_drifted :
    (notes blake3 d todo report).has_drifted item = true ↔ report.has_drifted item = true ∨
      ∃ other ∈ todo, ¬CanPass blake3 d other ∧ item.entry_id.to_str = other.entry_id.to_str := by
  induction todo generalizing report with
  | nil => simp [notes]
  | cons first todo ih =>
      rw [notes, ih]
      by_cases hpass : CanPass blake3 d first
      · simp [hpass]
      · simp [hpass, note_has_drifted, or_assoc]

/-- **A dry run** in which every item that can pass does, and no other. -/
theorem dry_run_to (hpc : s.pc = .verifying clean plan todo report) (hnul : ∀ item ∈ todo, has_nul item.path = false) :
    ∃ tr fs, (executing blake3 d job).run s tr =
      some { s with fs, pc := .verifying clean plan [] (notes blake3 d todo report) } := by
  induction todo generalizing s report with
  | nil =>
      refine ⟨[], s.fs, ?_⟩
      rw [System.run_nil, notes, ← hpc]
  | cons item todo ih =>
      obtain ⟨hitem, hrest⟩ := List.forall_mem_cons.mp hnul
      rw [notes]
      by_cases hpass : CanPass blake3 d item
      · rw [if_pos hpass]
        obtain ⟨fs, hstat⟩ := hpass.stat
        cases hhash : item.prior_hash.filter fun _ => d.hasher with
        | none =>
            obtain ⟨tr, fs', htr⟩ := ih (s := { s with
              fs, pc := .verifying clean plan todo report }) rfl hrest
            refine ⟨.other fs :: .verify none :: tr, fs', ?_⟩
            rw [System.run_cons, executing]
            simp only [run_step, Option.bind_some]
            rw [System.run_cons]
            simp only [run_step]
            rw [hpc]
            dsimp only
            rw [hstat]
            dsimp only
            rw [hhash]
            exact htr
        | some hash =>
            obtain ⟨fs', hread⟩ := hpass.hash hash hhash
            obtain ⟨tr, fs'', htr⟩ := ih (s := { s with
              fs := fs', pc := .verifying clean plan todo report }) rfl hrest
            refine ⟨.other fs :: .verify none :: .other fs' :: .read none :: tr, fs'', ?_⟩
            rw [System.run_cons, executing]
            simp only [run_step, Option.bind_some]
            rw [System.run_cons]
            simp only [run_step]
            rw [hpc]
            dsimp only
            rw [hstat]
            dsimp only
            rw [hhash, Option.bind_some, System.run_cons]
            simp only [run_step, Option.bind_some]
            rw [System.run_cons]
            simp only [run_step]
            rw [hread]
            exact htr
      · rw [if_neg hpass]
        -- the `lstat` fails, for whatever reason
        have hmissing : verify_stat d.process s.fs (some ENOENT) item = .ok (some "missing") := by
          rw [verify_stat, if_neg (by simp [hitem])]
          rfl
        obtain ⟨tr, fs', htr⟩ := ih (s := { s with
          pc := .verifying clean plan todo (note report item (some "missing")) }) rfl hrest
        refine ⟨.verify (some ENOENT) :: tr, fs', ?_⟩
        rw [System.run_cons, executing]
        simp only [run_step]
        rw [hpc]
        dsimp only
        rw [hmissing]
        exact htr

/-- What all pass is reported as nothing. -/
theorem notes_of_pass (h : ∀ item ∈ todo, CanPass blake3 d item)
    (report : VerifyReport) : notes blake3 d todo report = report := by
  induction todo generalizing report with
  | nil => rfl
  | cons item todo ih =>
      obtain ⟨hitem, hrest⟩ := List.forall_mem_cons.mp h
      rw [notes, if_pos hitem, ih hrest]

theorem mem_can_stay : item ∈ can_stay blake3 d job ↔ item ∈ job.items ∧ AllPass blake3 d job item := by
  rw [can_stay, List.mem_filter]
  simp only [decide_eq_true_eq]

/-- What the first dry run leaves is what can stay. -/
theorem live_notes : live_items (plan_from_job job) (notes blake3 d job.items ⟨[]⟩) = can_stay blake3 d job := by
  rw [live_items, can_stay, plan_from_job]
  apply List.filter_congr
  intro item _
  have hdrifted := @notes_has_drifted blake3 d item job.items ⟨[]⟩
  by_cases hall : AllPass blake3 d job item
  · have hnot : ¬(notes blake3 d job.items ⟨[]⟩).has_drifted item = true := by
      rw [hdrifted]
      rintro (hold | ⟨other, hother, hfail, hid⟩)
      · exact absurd hold (by simp [VerifyReport.has_drifted])
      · exact hfail (hall other hother hid.symm)
    simp [hall, hnot]
  · have hyes : (notes blake3 d job.items ⟨[]⟩).has_drifted item = true := by
      rw [hdrifted]
      by_contra hnone
      refine hall fun other hother hid => ?_
      by_contra hfail
      exact hnone (Or.inr ⟨other, hother, hfail, hid.symm⟩)
    simp [hall, hyes]

/-- The start of a job, on an empty filesystem. -/
def job_start (job : ActionJob) : Run where
  fs := .of_tables [] []
  chain := ⟨[], Fathom.Audit.GENESIS_HASH⟩
  log := []
  pc := .verifying false (plan_from_job job) job.items ⟨[]⟩

/-- What is found clean comes to the cap. -/
theorem clean_refused {plan : RemediationPlan} {clean : Bool}
    (hwrite : d.executor.write_enabled = true) (hconfirm : d.confirm_blast = false)
    (hpc : s.pc = .verifying clean plan [] ⟨[]⟩) (hlt : d.executor.blast_cap < plan.items.length) :
    ∃ t, (executing blake3 d job).run s [.report, .prepare ⟨fun _ => none, none⟩] = some t ∧
      Refused t := by
  have hrefuses : (prepare d s.fs ⟨fun _ => none, none⟩ plan ⟨[]⟩).result =
      .error (.blast_radius plan.items.length d.executor.blast_cap) :=
    prepare_refuses.mpr ⟨hwrite, rfl, hconfirm, hlt, rfl, rfl⟩
  have hgo : (⟨[]⟩ : VerifyReport).ok = true ∨ clean = true := Or.inl rfl
  rw [System.run_cons, executing]
  simp only [run_step]
  rw [hpc]
  dsimp only
  rw [after_report, if_pos hgo, Option.bind_some, System.run_singleton]
  simp only [run_step]
  rw [hrefuses]
  exact ⟨_, rfl, _, _, rfl⟩

/-- **A run to the cap**: with more items that can stay than the cap, and no NUL in the way, the
agent may refuse. -/
theorem run_to_cap (hwrite : d.executor.write_enabled = true) (hconfirm : d.confirm_blast = false)
    (hnul : ∀ item ∈ job.items, has_nul item.path = false)
    (hlt : d.executor.blast_cap < (can_stay blake3 d job).length) :
    ∃ tr s, (executing blake3 d job).Trace tr s ∧ Refused s := by
  obtain ⟨tr, fs, htr⟩ := @dry_run_to blake3 d job (job_start job) false (plan_from_job job)
    job.items ⟨[]⟩ rfl hnul
  have hlive := @live_notes blake3 d job
  generalize hreport : notes blake3 d job.items ⟨[]⟩ = report at htr hlive
  by_cases hok : report.ok = true
  · -- all items pass, and all come to the cap
    have hnil : report = ⟨[]⟩ := by
      cases report
      rw [VerifyReport.mk.injEq]
      exact List.isEmpty_iff.mp hok
    rw [hnil] at htr hlive
    have hall : (plan_from_job job).items = can_stay blake3 d job := by
      rw [← hlive, live_items, List.filter_eq_self.mpr]
      intro item _
      rfl
    obtain ⟨t, ht, hrefused⟩ := @clean_refused blake3 d job
      { job_start job with fs, pc := .verifying false (plan_from_job job) [] ⟨[]⟩ }
      (plan_from_job job) false hwrite hconfirm rfl (by rw [hall]; exact hlt)
    refine ⟨tr ++ [.report, .prepare ⟨fun _ => none, none⟩], t,
      ⟨job_start job, ⟨rfl, rfl⟩, ?_⟩, hrefused⟩
    rw [System.run_append, htr]
    exact ht
  · have hne : live_items (plan_from_job job) report ≠ [] := by
      rw [hlive]
      intro hnil
      rw [hnil, List.length_nil] at hlt
      omega
    have hpass : ∀ item ∈ live_items (plan_from_job job) report, CanPass blake3 d item := by
      intro item hitem
      rw [hlive, mem_can_stay] at hitem
      exact hitem.2 item hitem.1 rfl
    -- the second dry run, of what the first has left
    let plan' : RemediationPlan := { plan_from_job job with
      items := live_items (plan_from_job job) report, items_ne := hne }
    obtain ⟨tr', fs', htr'⟩ := @dry_run_to blake3 d job
      { job_start job with fs, pc := .verifying true plan' plan'.items ⟨[]⟩ } true plan' plan'.items
      ⟨[]⟩ rfl fun item hitem => (hpass item hitem).nul_free
    rw [notes_of_pass hpass] at htr'
    obtain ⟨t, ht, hrefused⟩ := @clean_refused blake3 d job
      { job_start job with fs := fs', pc := .verifying true plan' [] ⟨[]⟩ } plan' true hwrite hconfirm
      rfl (by rw [show plan'.items = can_stay blake3 d job from hlive]; exact hlt)
    refine ⟨tr ++ .report :: (tr' ++ [.report, .prepare ⟨fun _ => none, none⟩]), t,
      ⟨job_start job, ⟨rfl, rfl⟩, ?_⟩, hrefused⟩
    rw [System.run_append, htr, Option.bind_some, System.run_cons, executing]
    simp only [run_step]
    rw [after_report, if_neg (by simp [hok]), dif_neg hne, Option.bind_some]
    have hrest := System.run_append (S := executing blake3 d job)
      { job_start job with fs, pc := .verifying true plan' plan'.items ⟨[]⟩ } tr'
      [.report, .prepare ⟨fun _ => none, none⟩]
    rw [htr', Option.bind_some, ht] at hrest
    exact hrest

/-- **The agent never refuses a job on blast radius** exactly when a NUL keeps its dry run from
ending, or no more of its items can be found clean than the cap. -/
theorem never_refused_iff (hwrite : d.executor.write_enabled = true) (hconfirm : d.confirm_blast = false) :
    (∀ tr s, (executing blake3 d job).Trace tr s → ¬Refused s) ↔ (∃ item ∈ job.items, has_nul item.path = true) ∨
        (can_stay blake3 d job).length ≤ d.executor.blast_cap := by
  constructor
  · intro hnever
    by_contra hboth
    rw [not_or, not_exists] at hboth
    obtain ⟨tr, s, htr, hrefused⟩ := @run_to_cap blake3 d job hwrite hconfirm
      (fun item hitem => by simpa [hitem] using hboth.1 item) (Nat.lt_of_not_le hboth.2)
    exact hnever tr s htr hrefused
  · rintro hcond tr s htr ⟨items, cap, hpc⟩
    have hpassing := htr.invariant (I := Passing blake3 d job) (fun _ h => passing_start h)
      fun _ _ _ h hstep => passing_step h hstep
    unfold Passing at hpassing
    rw [hpc] at hpassing
    obtain ⟨hfree, rfl, hlt, hle⟩ := hpassing
    obtain ⟨item, hitem, hnul⟩ | hcap := hcond
    · rw [hfree item hitem] at hnul
      exact absurd hnul (by simp)
    · omega

/-! ## What the orchestrator dispatches -/

/-- **The two sides agree** on a job the orchestrator dispatches exactly when no more of its live
items than the agent's default cap can be found clean (or a path with a NUL keeps the agent from
getting there), whatever the server's cap is and whether or not the operator has confirmed. -/
theorem blast_agreement_iff {orch : Orchestrator} {chain chain' : AuditChain} {now : Timestamp}
    {plan : RemediationPlan} {verify : VerifyReport} {confirm_blast : Bool}
    {host_id nonce : String} {window : Window orch.job_ttl} {signed : SignedJob} {job : ActionJob}
    (h : execute_begin blake3 orch chain now plan verify confirm_blast host_id nonce window =
      .dispatch signed chain') (hjob : signed.job = .action job) (quarantine_dir : String)
    (process : Process) :
    (∀ tr s, (executing blake3 (build_listener quarantine_dir process) job).Trace tr s →
        ¬Refused s) ↔
      (∃ item ∈ live_items plan verify, has_nul item.path = true) ∨
        (can_stay blake3 (build_listener quarantine_dir process) job).length ≤
          DEFAULT_BLAST_CAP := by
  obtain ⟨job', rfl, -, -, -, -, hitems, -⟩ := execute_begin_dispatch h
  have hsame : job' = job := DispatchJob.action.inj hjob
  rw [hsame] at hitems
  rw [← hitems]
  exact never_refused_iff rfl rfl

/-- What the orchestrator dispatches. -/
theorem execute_begin_ok {orch : Orchestrator} {chain : AuditChain} {now : Timestamp}
    {plan : RemediationPlan} {verify : VerifyReport} {confirm_blast : Bool}
    {host_id nonce : String} (window : Window orch.job_ttl) (hlive : live_items plan verify ≠ [])
    (hcap : (live_items plan verify).length ≤ orch.blast_cap ∨ confirm_blast = true)
    (hnonce : 16 ≤ nonce.length) (hhost : host_id ≠ "") (hkeeper : plan.keeper_path ≠ "") : ∃ signed chain' job,
      execute_begin blake3 orch chain now plan verify confirm_blast host_id nonce window =
        .dispatch signed chain' ∧ signed.job = .action job ∧ job.items = live_items plan verify := by
  obtain ⟨job, hjob⟩ := @make_job_ok orch.job_ttl
    { plan with items := live_items plan verify, items_ne := hlive } .execute host_id nonce window
    hnonce hhost hkeeper
  have hnot : ¬(orch.blast_cap < (live_items plan verify).length ∧ ¬confirm_blast = true) := by
    rintro ⟨hlt, hno⟩
    obtain hle | hyes := hcap
    · omega
    · exact hno hyes
  have hbegin : ∃ chain', execute_begin blake3 orch chain now plan verify confirm_blast host_id nonce
      window = .dispatch (sign_job (.action job) orch.signer) chain' := by
    rw [execute_begin, dif_neg hlive, if_neg hnot, hjob]
    exact ⟨_, rfl⟩
  obtain ⟨chain', hbegin⟩ := hbegin
  exact ⟨sign_job (.action job) orch.signer, chain', job, hbegin, rfl,
    (make_job_spec hjob).2.2.2.2.2.1⟩

/-! ### A confirmed plan of a hundred and one files -/

/-- The name of a file. -/
def letters (n : ℕ) : String := String.ofList (List.replicate (n + 1) 'a')

/-- A copy to quarantine. -/
def copy_item (n : ℕ) : PlanItem where
  entry_id := .int n
  path := "/" ++ letters n
  prior_inode := (1000 + n : ℕ)
  prior_size := 3
  prior_hash := some "9f"
  action := .quarantine
  dest_rel := none

/-- A plan of a hundred and one copies. -/
def copies_plan : RemediationPlan where
  plan_id := "plan-1"
  created_by := "operator"
  keeper_path := "/data/k"
  items := (List.range 101).map copy_item
  move_root := none
  plan_id_ne := second_copy_job.plan_id_ne
  created_by_ne := by decide
  items_ne := by simp

/-- An orchestrator with the default TTL. -/
def cap_orchestrator : Orchestrator where
  signer := {
    key_id := "orchestrator", algorithm := "ed25519", signature := fun _ => "c2ln"
    key_id_ne := orchestrator_ne, algorithm_mem := sample_signed.algorithm_mem
    signature_ne := fun _ => sample_signed.signature_ne }
  blast_cap := 100
  job_ttl := 300

/-- Five minutes. -/
def cap_window : Window cap_orchestrator.job_ttl where
  issued_at := sample_time
  expires_at := sample_expiry
  ttl := sample_expiry_instant

/-- A filesystem that holds a copy. -/
def holds_copy (n : ℕ) : FileSystem :=
  .of_tables [(⟨1, 2⟩, .directory 4096), (⟨1, 1000 + n⟩, .file ⟨#[1, 2, 3]⟩)]
    [(⟨1, 2⟩, [(letters n, ⟨1, 1000 + n⟩)])]

theorem letters_name (n : ℕ) : '/' ∉ (letters n).toList ∧ Char.ofNat 0 ∉ (letters n).toList ∧ letters n ≠ "" ∧
      letters n ≠ "." ∧ letters n ≠ ".." := by
  have hchars : ∀ c ∈ (letters n).toList, c = 'a' := by
    intro c hc
    rw [letters, String.toList_ofList] at hc
    exact (List.mem_replicate.mp hc).2
  have hfirst : 'a' ∈ (letters n).toList := by
    rw [letters, String.toList_ofList]
    exact List.mem_replicate.mpr ⟨by omega, rfl⟩
  refine ⟨fun h => absurd (hchars _ h) (by decide), fun h => absurd (hchars _ h) (by decide), ?_, ?_,
    ?_⟩
  · intro h
    rw [h] at hfirst
    exact absurd hfirst (by decide)
  · intro h
    rw [h] at hfirst
    exact absurd hfirst (by decide)
  · intro h
    rw [h] at hfirst
    exact absurd hfirst (by decide)

theorem copy_there (n : ℕ) : lstat (holds_copy n) sample_dispatcher.process (copy_item n).path =
      .ok (⟨1, 1000 + n⟩, .file ⟨#[1, 2, 3]⟩) := by
  obtain ⟨hslash, -, hempty, hdot, hup⟩ := letters_name n
  have hsplit : split_path (copy_item n).path = [letters n] := by
    rw [copy_item, split_path_slash, split_path_single hslash hempty hdot]
  have hdir : names_directory (copy_item n).path = false := by
    have hlist : (letters n).toList ≠ [] ∧ (letters n).toList ≠ ['.'] :=
      ⟨fun h => hempty (String.toList_inj.mp h), fun h => hdot (String.toList_inj.mp h)⟩
    rw [copy_item, names_directory_slash, names_directory, List.splitOn_eq_singleton hslash]
    simp [hlist]
  have hentry : (holds_copy n).entry ⟨1, 2⟩ (letters n) = some ⟨1, 1000 + n⟩ := by
    simp [FileSystem.entry, holds_copy, FileSystem.of_tables]
  have hnode : (holds_copy n).node ⟨1, 1000 + n⟩ = some (.file ⟨#[1, 2, 3]⟩) := by
    have hne : ((⟨1, 1000 + n⟩ : Inode) == ⟨1, 2⟩) = false := by
      rw [beq_eq_false_iff_ne]
      intro h
      have hino := congrArg Inode.ino h
      dsimp only at hino
      omega
    simp [holds_copy, FileSystem.of_tables, List.lookup_cons, hne]
  have hstart : sample_dispatcher.process.start sample_dispatcher.process.cwd (copy_item n).path =
      ⟨⟨1, 2⟩, []⟩ := by
    rw [Process.start]
    split <;> rfl
  rw [lstat, if_neg (by simp [hdir]), locate, locate_at, hsplit, List.getLast?_singleton,
    List.dropLast_singleton, hstart, walk_nil]
  refine lstat_at_ok.mpr ⟨?_, hnode⟩
  rw [lookup, if_neg hempty, if_neg hdot, if_neg hup]
  exact hentry

/-- A copy can be found clean. -/
theorem copy_passes (n : ℕ) :
    CanPass (fun _ => "9f") (build_listener "/q" sample_dispatcher.process) (copy_item n) := by
  have hnul : has_nul (copy_item n).path = false := by
    rw [has_nul, copy_item, String.toList_append, ← Bool.not_eq_true, List.contains_iff_mem,
      List.mem_append, not_or]
    exact ⟨by decide, (letters_name n).2.1⟩
  have hsame : stat_drift (copy_item n) ⟨1, 1000 + n⟩ (.file ⟨#[1, 2, 3]⟩) = none := by
    have hsize : ¬(Node.file ⟨#[1, 2, 3]⟩).size ≠ (copy_item n).prior_size := not_not.mpr rfl
    rw [stat_drift, if_neg (by simp [copy_item]), if_neg hsize]
    rintro target ⟨⟩
  have hthere : attempt none (lstat (holds_copy n) sample_dispatcher.process (copy_item n).path) =
      .ok (⟨1, 1000 + n⟩, .file ⟨#[1, 2, 3]⟩) := copy_there n
  refine ⟨⟨holds_copy n, ?_⟩, fun hash hhash => ⟨holds_copy n, ?_⟩⟩
  · show verify_stat sample_dispatcher.process (holds_copy n) none (copy_item n) = .ok none
    rw [verify_stat, if_neg (by simp [hnul]), hthere]
    dsimp only
    rw [hsame]
  · show verify_hash (fun _ => "9f") sample_dispatcher.process (holds_copy n) none (copy_item n) hash = .ok none
    have hhash' : hash = "9f" := (Option.some.inj hhash).symm
    rw [verify_hash, hthere, hhash']
    rfl

/-- The operator has confirmed, the job is dispatched, and the agent may refuse it. -/
theorem confirmed_job_refused :
    ∃ signed chain' job,
      execute_begin (fun _ => "9f") cap_orchestrator ⟨[], Fathom.Audit.GENESIS_HASH⟩ sample_time
          copies_plan ⟨[]⟩ true "nas" "0123456789abcdef" cap_window = .dispatch signed chain' ∧
      signed.job = .action job ∧
      ∃ tr s, (executing (fun _ => "9f") (build_listener "/q" sample_dispatcher.process) job).Trace
        tr s ∧ Refused s := by
  have hlive : live_items copies_plan ⟨[]⟩ = (List.range 101).map copy_item := by
    exact List.filter_eq_self.mpr fun _ _ => rfl
  obtain ⟨signed, chain', job, hbegin, hjob, hitems⟩ := @execute_begin_ok (fun _ => "9f")
    cap_orchestrator ⟨[], Fathom.Audit.GENESIS_HASH⟩ sample_time copies_plan ⟨[]⟩ true "nas"
    "0123456789abcdef" cap_window (by rw [hlive]; simp) (Or.inr rfl) (by decide) (by decide)
    (by decide)
  rw [hlive] at hitems
  have hpass : ∀ item ∈ job.items,
      CanPass (fun _ => "9f") (build_listener "/q" sample_dispatcher.process) item := by
    intro item hitem
    rw [hitems] at hitem
    obtain ⟨n, -, rfl⟩ := List.mem_map.mp hitem
    exact copy_passes n
  refine ⟨signed, chain', job, hbegin, hjob,
    run_to_cap rfl rfl (fun item hitem => (hpass item hitem).nul_free) ?_⟩
  have hstay : job.items ⊆ can_stay (fun _ => "9f") (build_listener "/q" sample_dispatcher.process)
      job := fun item hitem => mem_can_stay.mpr ⟨hitem, fun other hother _ => hpass other hother⟩
  have hall : can_stay (fun _ => "9f") (build_listener "/q" sample_dispatcher.process) job =
      job.items := by
    rw [can_stay, List.filter_eq_self]
    intro item hitem
    simp only [decide_eq_true_eq]
    exact (mem_can_stay.mp (hstay hitem)).2
  rw [hall, hitems, List.length_map, List.length_range]
  decide

/-- A job within both caps. -/
theorem blast_agreement_copy :
    ∃ signed chain' job,
      execute_begin (fun _ => "9f") cap_orchestrator ⟨[], Fathom.Audit.GENESIS_HASH⟩ sample_time
          (plan_from_job second_copy_job) ⟨[]⟩ false "nas" "0123456789abcdef" cap_window =
        .dispatch signed chain' ∧ signed.job = .action job ∧
      ((∀ tr s, (executing (fun _ => "9f") (build_listener "/q" sample_dispatcher.process)
            job).Trace tr s → ¬Refused s) ↔
        (∃ item ∈ live_items (plan_from_job second_copy_job) ⟨[]⟩, has_nul item.path = true) ∨
          (can_stay (fun _ => "9f") (build_listener "/q" sample_dispatcher.process) job).length ≤
            DEFAULT_BLAST_CAP) := by
  obtain ⟨signed, chain', job, hbegin, hjob, -⟩ := @execute_begin_ok (fun _ => "9f")
    cap_orchestrator ⟨[], Fathom.Audit.GENESIS_HASH⟩ sample_time (plan_from_job second_copy_job)
    ⟨[]⟩ false "nas" "0123456789abcdef" cap_window (by decide) (Or.inl (by decide)) (by decide)
    (by decide) (by decide)
  exact ⟨signed, chain', job, hbegin, hjob,
    blast_agreement_iff hbegin hjob "/q" sample_dispatcher.process⟩

end Fathom.Actor
