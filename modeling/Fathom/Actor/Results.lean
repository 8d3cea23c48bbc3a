/-
**What a job returns** (`dispatch_execute`): one result for every signed item, and the
record of everything that was done.

A run loses results in two ways. A dry run that finds some items drifted and others not
goes on with the others, and nothing is said of the drifted ones again; and a call that
raises -- in a dry run, before the acts, or in the middle of them -- takes with it what
the items before it returned, their records included. Whatever else happens to an item
(drift at its re-check, a rename, an unlink or a link that is refused) becomes its
result.

A run is on course while it has dropped no item and raised nothing. A step leads on
course exactly from on course and with its condition (`on_course_step`), so a run that
has ended has a result for each item exactly when all its steps met theirs
(`one_result_each_iff`).
-/
import Fathom.Actor.Move

set_option autoImplicit false

namespace Fathom.Actor

open Fathom.Datetime (Timestamp)
open Fathom.Json (Value)
open Fathom.Audit (AuditChain AuditRecord)
open Fathom.Filesystem
open Fathom.Remediation

/-! ## One result each -/

/-- The audit records among what an agent has done. -/
def audit_of : Event → Option AuditRecord
  | .audit record => some record
  | .op _ => none

/-- Every item has one result under its id, there are no others, and the audit is all that was
recorded. -/
structure Accounted (job : ActionJob) (log : List Event) (outcome : ExecOutcome) : Prop where
  one : ∀ item ∈ job.items,
    (outcome.results.map ExecResult.entry_id).count item.entry_id.to_str = 1
  only : outcome.results.length = job.items.length
  audit : outcome.audit = log.filterMap audit_of

/-- `dispatch_execute` has returned or raised. -/
def Ended (s : Run) : Prop := (∃ outcome, s.pc = .finished outcome) ∨ ∃ e, s.pc = .raised e

/-! ## The condition of a step -/

/-- The mutation of an item does not raise: the quarantine opens, and no name has a NUL. -/
def mutate_returns (executor : Executor) (p : Process) (fs : FileSystem) (faults : Faults)
    (dir : Dir) (name : String) (plan : RemediationPlan) (item : PlanItem) : Prop :=
  match item.action with
  | .quarantine =>
    (∃ q, attempt faults.open_quarantine (open_directory fs p executor.quarantine_dir) = .ok q) ∧
      has_nul (quarantine_name plan.plan_id item name) = false
  | .move => (move p fs faults dir name plan.move_root item.dest_rel).result ≠ .error .nul
  | _ => True

section

variable (blake3 : ByteArray → String)

/-- The act on an item does not raise: its path has no NUL, the parent directory opens, and
-- when the item has not drifted -- the audit sink takes both records and the mutation does not
raise. -/
def act_returns (executor : Executor) (p : Process) (fs : FileSystem) (faults : Faults)
    (plan : RemediationPlan) (item : PlanItem) : Prop :=
  (split_path item.path).dropLast.any has_nul = false ∧ has_nul (path_name item.path) = false ∧
    ∃ dir, attempt faults.open_parent (open_parent fs p item.path) = .ok dir ∧
      (recheck blake3 fs faults dir (path_name item.path) item = none →
        faults.pending = false ∧ faults.result = false ∧
          mutate_returns executor p fs faults dir (path_name item.path) plan item)

/-- The condition of a step. -/
def step_returns (d : Dispatcher) (s : Run) : RunLabel → Prop
  | .verify _ =>
    match s.pc with
    | .verifying _ _ (item :: _) _ => has_nul item.path = false
    | _ => True
  | .read fault =>
    match s.pc with
    | .hashing _ _ item _ _ _ =>
      -- the hasher finds the file again and can read it
      ∃ i node content, attempt fault (lstat s.fs d.process item.path) = .ok (i, node) ∧
        read_node node = .ok content
    | _ => True
  | .report =>
    match s.pc with
    | .verifying _ plan _ report => report.ok = true ∨ live_items plan report = []
    | _ => True
  | .prepare faults =>
    match s.pc with
    | .execute plan _ =>
      d.executor.write_enabled = true ∧
        (plan.items.length ≤ d.executor.blast_cap ∨ d.confirm_blast = true) ∧
        (make_directories d.process faults.mkdir
          (d.process.start d.process.cwd d.executor.quarantine_dir) s.fs
          (split_path d.executor.quarantine_dir).reverse).result = .ok () ∧
        faults.chmod = none
    | _ => True
  | .act faults _ _ =>
    match s.pc with
    | .acting plan (item :: _) _ _ =>
      act_returns blake3 d.executor d.process s.fs faults plan item
    | _ => True
  | _ => True

end

/-! ## What raises -/

variable {blake3 : ByteArray → String}

variable {executor : Executor} {p : Process} {fs : FileSystem} {faults : Faults}
  {plan : RemediationPlan} {item : PlanItem} {report : VerifyReport} {fault : Option Errno}
  {e : ActorError}

theorem make_component_error {cur : Dir} {name : String} (h : (make_component fs fault cur name).result = .error e) :
    e = .nul ∨ ∃ errno, e = .os errno := by
  unfold make_component at h
  split_ifs at h
  · exact Or.inl (Except.error.inj h).symm
  · split at h
    · rename_i errno _
      dsimp only at h
      split_ifs at h
      exact Or.inr ⟨errno, (Except.error.inj h).symm⟩
    · exact absurd h (by simp)

theorem descend_error {cur : Dir} {k : ℕ} {names : List String}
    (h : (descend faults fs cur k names).result = .error e) : e = .nul ∨ ∃ errno, e = .os errno := by
  induction names generalizing fs cur k with
  | nil => exact absurd h (by simp [descend])
  | cons name names ih =>
      rw [descend] at h
      dsimp only at h
      split at h
      · rename_i e' hmade
        rw [Except.error.inj h] at hmade
        exact make_component_error hmade
      · split at h
        · rename_i errno _
          exact Or.inr ⟨errno, (Except.error.inj h).symm⟩
        · exact ih h

theorem link_and_unlink_returns (fs : FileSystem) (faults : Faults) (src dst : Dir) (name leaf moved : String) :
    ∃ done, (link_and_unlink fs faults src name dst leaf moved).result = .ok done := by
  unfold link_and_unlink
  split
  · exact ⟨_, rfl⟩
  · split
    · exact ⟨_, rfl⟩
    · dsimp only
      split
      · exact ⟨_, rfl⟩
      · exact ⟨_, rfl⟩

/-- A move raises for a NUL and for nothing else. -/
theorem move_error {src : Dir} {name : String} {move_root dest_rel : Option String}
    (h : (move p fs faults src name move_root dest_rel).result = .error e) : e = .nul := by
  unfold move at h
  split at h
  · dsimp only at h
    split at h
    · exact absurd h (by simp)
    · split at h
      · exact absurd h (by simp)
      · split at h
        · exact (Except.error.inj h).symm
        · split at h
          · exact absurd h (by simp)
          · split at h
            · exact absurd h (by simp)
            · rename_i e' hnot hdescend
              obtain rfl | ⟨errno, rfl⟩ := descend_error hdescend
              · exact (Except.error.inj h).symm
              · exact absurd rfl (hnot errno)
            · split at h
              · exact (Except.error.inj h).symm
              · obtain ⟨done, hdone⟩ := link_and_unlink_returns _ faults src _ name _ _
                rw [hdone] at h
                exact absurd h (by simp)
  · exact absurd h (by simp)

/-- **A mutation raises** exactly when its condition fails. -/
theorem mutate_returns_iff {dir : Dir} {name : String} : mutate_returns executor p fs faults dir name plan item ↔
      ∃ done, (mutate executor p fs faults dir name plan item).result = .ok done := by
  unfold mutate_returns mutate
  cases item.action with
  | quarantine =>
      dsimp only
      unfold quarantine
      dsimp only
      split
      · rename_i e hopen
        rw [hopen]
        exact iff_of_false (by simp) (by simp)
      · rename_i q hopen
        rw [hopen]
        split
        · rename_i hnul
          exact iff_of_false (by simp [hnul]) (by simp)
        · rename_i hnul
          refine iff_of_true ⟨⟨q, rfl⟩, by simpa using hnul⟩ ?_
          split
          · exact ⟨_, rfl⟩
          · exact ⟨_, rfl⟩
  | hard_delete =>
      refine iff_of_true trivial ?_
      dsimp only
      unfold hard_delete
      split
      · exact ⟨_, rfl⟩
      · split
        · exact ⟨_, rfl⟩
        · exact ⟨_, rfl⟩
  | move =>
      dsimp only
      cases hmove : (move p fs faults dir name plan.move_root item.dest_rel).result with
      | ok done => exact iff_of_true (by simp) ⟨done, rfl⟩
      | error e => exact iff_of_false (by simp [move_error hmove]) (by simp)
  | hardlink => exact iff_of_true trivial ⟨_, rfl⟩

/-- What an act returns is of its item and has all it has recorded. -/
theorem act_ok {chain : AuditChain} {now now' : Timestamp} {result : ExecResult} {records : List AuditRecord}
    (h : (act blake3 executor p fs chain faults now now' plan item).result = .ok (result, records)) :
    result.entry_id = item.entry_id.to_str ∧
      (act blake3 executor p fs chain faults now now' plan item).events.filterMap audit_of = records := by
  have hops : ∀ ops : List Op, (ops.map Event.op).filterMap audit_of = [] := by
    intro ops
    rw [List.filterMap_map]
    exact List.filterMap_eq_nil_iff.mpr fun op _ => rfl
  have hexit := @act_exit blake3 executor p fs chain faults now now' plan item
  generalize act blake3 executor p fs chain faults now now' plan item = acted at hexit h ⊢
  cases hexit with
  | stopped e he => exact absurd h (by simp)
  | drifted dir drift hopen hdrift =>
      obtain ⟨rfl, rfl⟩ := Prod.mk.inj (Except.ok.inj h)
      exact ⟨rfl, rfl⟩
  | raised dir e hopen hrecheck hmutate => exact absurd h (by simp)
  | unrecorded dir status detail hopen hrecheck hmutate => exact absurd h (by simp)
  | done dir status detail hopen hrecheck hmutate =>
      obtain ⟨rfl, rfl⟩ := Prod.mk.inj (Except.ok.inj h)
      have hpair : ∀ (r r' : AuditRecord) (ops : List Op),
          (Event.audit r :: ops.map Event.op ++ [Event.audit r']).filterMap audit_of = [r, r'] := by
        intro r r' ops
        simp [audit_of, hops]
      exact ⟨rfl, hpair _ _ _⟩

/-- **An act raises** exactly when its condition fails. -/
theorem act_returns_iff (chain : AuditChain) (now now' : Timestamp) :
    act_returns blake3 executor p fs faults plan item ↔
      ∃ returned, (act blake3 executor p fs chain faults now now' plan item).result = .ok returned := by
  unfold act_returns act
  dsimp only
  by_cases hdirs : (split_path item.path).dropLast.any has_nul = true
  · rw [if_pos hdirs]
    exact iff_of_false (by simp [hdirs]) (by simp)
  · rw [if_neg hdirs]
    rw [Bool.not_eq_true] at hdirs
    cases hopen : attempt faults.open_parent (open_parent fs p item.path) with
    | error e => exact iff_of_false (by simp) (by simp)
    | ok dir =>
        dsimp only
        by_cases hname : has_nul (path_name item.path) = true
        · rw [if_pos hname]
          exact iff_of_false (by simp [hname]) (by simp)
        · rw [if_neg hname]
          rw [Bool.not_eq_true] at hname
          have hdir : (∃ dir', (Except.ok dir : Except Errno Dir) = .ok dir' ∧
              (recheck blake3 fs faults dir' (path_name item.path) item = none →
                faults.pending = false ∧ faults.result = false ∧
                  mutate_returns executor p fs faults dir' (path_name item.path) plan item)) ↔
              (recheck blake3 fs faults dir (path_name item.path) item = none →
                faults.pending = false ∧ faults.result = false ∧
                  mutate_returns executor p fs faults dir (path_name item.path) plan item) := by
            constructor
            · rintro ⟨dir', heq, h⟩
              rw [← Except.ok.inj heq] at h
              exact h
            · intro h
              exact ⟨dir, rfl, h⟩
          rw [and_iff_right hdirs, and_iff_right hname, hdir]
          cases hrecheck : recheck blake3 fs faults dir (path_name item.path) item with
          | some drift => exact iff_of_true (by simp) ⟨_, rfl⟩
          | none =>
              dsimp only
              rw [mutate_returns_iff]
              cases hpending : faults.pending with
              | true => exact iff_of_false (by simp) (by simp)
              | false =>
                  rw [if_neg (by simp)]
                  cases hmutate :
                      (mutate executor p fs faults dir (path_name item.path) plan item).result with
                  | error e => exact iff_of_false (by simp) (by simp)
                  | ok done =>
                      cases hresult : faults.result with
                      | true => exact iff_of_false (by simp) (by simp)
                      | false => exact iff_of_true (by simp) (by simp)

/-! ## What a run keeps -/

/-- A plan has all the items of the job, or fewer. -/
def Whole (job : ActionJob) (plan : RemediationPlan) : Prop := plan.items = job.items

def Short (job : ActionJob) (plan : RemediationPlan) : Prop :=
  plan.items.length < job.items.length

/-- In a dry run: the first is over the whole plan, the second over what the first has left, and
what is reported is reported of items of the plan. -/
structure InPass (job : ActionJob) (clean : Bool) (plan : RemediationPlan) (todo : List PlanItem)
    (report : VerifyReport) : Prop where
  first : clean = false → Whole job plan
  second : clean = true → Short job plan
  todo : ∀ item ∈ todo, item ∈ plan.items
  reported : ∀ d ∈ report.drifted, ∃ item ∈ plan.items, d.1 = item.entry_id.to_str

/-- What holds wherever a run is. -/
def Tracked (job : ActionJob) (s : Run) : Prop :=
  match s.pc with
  | .verifying clean plan todo report =>
    InPass job clean plan todo report ∧ s.log = []
  | .hashing clean plan item _ todo report =>
    InPass job clean plan (item :: todo) report ∧ s.log = []
  | .execute plan report =>
    ((Whole job plan ∧ report.ok = true) ∨ Short job plan) ∧ s.log = []
  | .acting plan todo results audit =>
    (Whole job plan ∨ Short job plan) ∧
      results.map ExecResult.entry_id ++ todo.map (fun item => item.entry_id.to_str) =
        plan.items.map (fun item => item.entry_id.to_str) ∧
      audit = s.log.filterMap audit_of
  | .finished outcome =>
    (outcome.results.map ExecResult.entry_id = job.items.map (fun item => item.entry_id.to_str) ∨
      outcome.results.length < job.items.length) ∧ outcome.audit = s.log.filterMap audit_of
  | .raised _ => True

/-- A run that has dropped no item and raised nothing. -/
def OnCourse (job : ActionJob) (s : Run) : Prop :=
  match s.pc with
  | .verifying clean _ _ _ => clean = false
  | .hashing clean _ _ _ _ _ => clean = false
  | .execute plan _ => Whole job plan
  | .acting plan _ _ _ => Whole job plan
  | .finished outcome => outcome.results.length = job.items.length
  | .raised _ => False

theorem has_drifted_iff :
    report.has_drifted item = true ↔ ∃ reason, (item.entry_id.to_str, reason) ∈ report.drifted := by
  rw [VerifyReport.has_drifted, List.contains_iff_mem, List.mem_map]
  constructor
  · rintro ⟨⟨id, reason⟩, hmem, rfl⟩
    exact ⟨reason, hmem⟩
  · rintro ⟨reason, hmem⟩
    exact ⟨_, hmem, rfl⟩

/-- What is noted of an item is noted under its id. -/
theorem note_reported {reason : Option String} {d : String × String} (h : d ∈ (note report item reason).drifted) :
    d ∈ report.drifted ∨ d.1 = item.entry_id.to_str := by
  cases reason with
  | none => exact Or.inl h
  | some reason =>
      rw [note] at h
      dsimp only at h
      split_ifs at h
      · obtain ⟨d', hd', rfl⟩ := List.mem_map.mp h
        split_ifs
        · exact Or.inr rfl
        · exact Or.inl hd'
      · obtain hold | hnew := List.mem_append.mp h
        · exact Or.inl hold
        · rw [List.mem_singleton.mp hnew]
          exact Or.inr rfl

theorem InPass.note {job : ActionJob} {clean : Bool} {todo : List PlanItem}
    (h : InPass job clean plan (item :: todo) report) (reason : Option String) :
    InPass job clean plan todo (note report item reason) := by
  refine ⟨h.first, h.second, fun i hi => h.todo i (List.mem_cons_of_mem _ hi), ?_⟩
  intro d hd
  obtain hold | hnew := note_reported hd
  · exact h.reported d hold
  · exact ⟨item, h.todo item List.mem_cons_self, hnew⟩

/-- A report that is not empty leaves fewer items. -/
theorem InPass.live_lt {job : ActionJob} {clean : Bool} {todo : List PlanItem}
    (h : InPass job clean plan todo report) (hdrift : report.ok = false) :
    (live_items plan report).length < plan.items.length := by
  have hne : report.drifted ≠ [] := by
    rw [VerifyReport.ok] at hdrift
    rintro hnil
    rw [hnil] at hdrift
    exact absurd hdrift (by simp)
  obtain ⟨d, hd⟩ := List.exists_mem_of_ne_nil _ hne
  obtain ⟨item, hitem, hid⟩ := h.reported d hd
  rw [live_items]
  apply List.length_filter_lt_length_iff_exists.mpr
  refine ⟨item, hitem, ?_⟩
  have hdrifted : report.has_drifted item = true :=
    has_drifted_iff.mpr ⟨d.2, by rw [← hid]; exact hd⟩
  simp [hdrifted]

/-- When all items have drifted, each has a result. -/
theorem aborted_results_ids (h : live_items plan report = []) :
    (aborted_results plan report).map ExecResult.entry_id =
      plan.items.map fun item => item.entry_id.to_str := by
  have hall : ∀ item ∈ plan.items, report.has_drifted item = true := by
    intro item hitem
    rw [live_items, List.filter_eq_nil_iff] at h
    simpa using h item hitem
  rw [aborted_results]
  generalize plan.items = items at hall ⊢
  induction items with
  | nil => rfl
  | cons item items ih =>
      obtain ⟨hitem, hrest⟩ := List.forall_mem_cons.mp hall
      obtain ⟨reason, hreason⟩ := has_drifted_iff.mp hitem
      have hsome : ∃ found, report.drifted.lookup item.entry_id.to_str = some found := by
        rw [← Option.isSome_iff_exists, Option.isSome_iff_ne_none, ne_eq, List.lookup_eq_none_iff]
        intro hnone
        exact absurd (hnone _ hreason) (by simp)
      obtain ⟨found, hfound⟩ := hsome
      rw [List.filterMap_cons, hfound, Option.map_some, List.map_cons, List.map_cons, ih hrest]

/-! ## The steps -/

variable {d : Dispatcher} {job : ActionJob} {s t : Run}

theorem verify_stat_ok {result : Option String} (h : verify_stat p fs fault item = .ok result) :
    has_nul item.path = false := by
  rw [verify_stat] at h
  split_ifs at h with hnul
  simpa using hnul

theorem verify_stat_error (h : verify_stat p fs fault item = .error e) : e = .nul ∧ has_nul item.path = true := by
  rw [verify_stat] at h
  split_ifs at h with hnul
  · exact ⟨(Except.error.inj h).symm, hnul⟩
  · split at h
    · exact absurd h (by simp)
    · exact absurd h (by simp)

theorem verify_on_course (h : Tracked job s) (hstep : run_step blake3 d s (.verify fault) = some t) :
    Tracked job t ∧ (OnCourse job t ↔ OnCourse job s ∧ step_returns blake3 d s (.verify fault)) := by
  unfold Tracked at h
  unfold OnCourse step_returns
  simp only [run_step] at hstep
  split at hstep
  · rename_i clean plan item todo report hpc
    rw [hpc] at h ⊢
    obtain ⟨hpass, hlog⟩ := h
    split at hstep
    · rename_i e hraised
      rw [← Option.some.inj hstep]
      refine ⟨trivial, iff_of_false id fun hcourse => ?_⟩
      exact absurd (verify_stat_error hraised).2 (by simp [hcourse.2])
    · rename_i reason hdrift
      rw [← Option.some.inj hstep]
      exact ⟨⟨hpass.note (some reason), hlog⟩, (and_iff_left (verify_stat_ok hdrift)).symm⟩
    · rename_i hsame
      split at hstep
      · rw [← Option.some.inj hstep]
        exact ⟨⟨hpass, hlog⟩, (and_iff_left (verify_stat_ok hsame)).symm⟩
      · rw [← Option.some.inj hstep]
        exact ⟨⟨hpass.note none, hlog⟩, (and_iff_left (verify_stat_ok hsame)).symm⟩
  · exact absurd hstep (by simp)

theorem read_on_course (h : Tracked job s) (hstep : run_step blake3 d s (.read fault) = some t) :
    Tracked job t ∧ (OnCourse job t ↔ OnCourse job s ∧ step_returns blake3 d s (.read fault)) := by
  unfold Tracked at h
  unfold OnCourse step_returns
  simp only [run_step] at hstep
  split at hstep
  · rename_i clean plan item hash todo report hpc
    rw [hpc] at h ⊢
    obtain ⟨hpass, hlog⟩ := h
    dsimp only
    unfold verify_hash at hstep
    split at hstep
    · rename_i e hraised
      rw [← Option.some.inj hstep]
      refine ⟨trivial, iff_of_false id ?_⟩
      rintro ⟨-, i, node, content, hlstat, hread⟩
      rw [hlstat] at hraised
      dsimp only at hraised
      rw [hread] at hraised
      exact absurd hraised (by simp)
    · rename_i reason hdrift
      rw [← Option.some.inj hstep]
      refine ⟨⟨hpass.note reason, hlog⟩, (and_iff_left ?_).symm⟩
      split at hdrift
      · exact absurd hdrift (by simp)
      · rename_i i node hlstat
        split at hdrift
        · exact absurd hdrift (by simp)
        · rename_i content hread
          exact ⟨i, node, content, hlstat, hread⟩
  · exact absurd hstep (by simp)

theorem report_on_course (h : Tracked job s) (hstep : run_step blake3 d s .report = some t) :
    Tracked job t ∧ (OnCourse job t ↔ OnCourse job s ∧ step_returns blake3 d s .report) := by
  unfold Tracked at h
  unfold OnCourse step_returns
  simp only [run_step] at hstep
  split at hstep
  · rename_i clean plan report hpc
    rw [hpc] at h ⊢
    obtain ⟨hpass, hlog⟩ := h
    rw [← Option.some.inj hstep]
    dsimp only
    unfold Tracked after_report
    have hnot : ∀ {plan' : RemediationPlan}, Short job plan' → ¬Whole job plan' := by
      intro plan' hshort hwhole
      rw [Short, hwhole] at hshort
      omega
    by_cases hok : report.ok = true
    · rw [if_pos (Or.inl hok)]
      dsimp only
      cases clean with
      | false =>
          have hwhole := hpass.first rfl
          exact ⟨⟨Or.inl ⟨hwhole, hok⟩, hlog⟩, iff_of_true hwhole ⟨rfl, Or.inl hok⟩⟩
      | true =>
          have hshort := hpass.second rfl
          exact ⟨⟨Or.inr hshort, hlog⟩, iff_of_false (hnot hshort) (by simp)⟩
    · cases clean with
      | true =>
          rw [if_pos (Or.inr rfl)]
          have hshort := hpass.second rfl
          exact ⟨⟨Or.inr hshort, hlog⟩, iff_of_false (hnot hshort) (by simp)⟩
      | false =>
          rw [if_neg (by simp [hok])]
          have hwhole := hpass.first rfl
          by_cases hlive : live_items plan report = []
          · rw [dif_pos hlive]
            dsimp only
            have hids := aborted_results_ids hlive
            rw [hwhole] at hids
            have hlength := congrArg List.length hids
            rw [List.length_map, List.length_map] at hlength
            exact ⟨⟨Or.inl hids, by rw [hlog]; rfl⟩, iff_of_true hlength ⟨rfl, Or.inr hlive⟩⟩
          · rw [dif_neg hlive]
            dsimp only
            have hlt := hpass.live_lt (by simpa using hok)
            rw [hwhole] at hlt
            refine ⟨⟨⟨by simp, fun _ => hlt, fun item hitem => hitem, by simp⟩, hlog⟩,
              iff_of_false (by simp) ?_⟩
            rintro ⟨-, hgood⟩
            exact hgood.elim hok hlive
  · exact absurd hstep (by simp)

/-- What `execute_with_audit` raises before its loop. -/
theorem prepare_ok {faults : PrepareFaults} : (prepare d fs faults plan report).result = .ok () ↔
      d.executor.write_enabled = true ∧ report.ok = true ∧
        (plan.items.length ≤ d.executor.blast_cap ∨ d.confirm_blast = true) ∧ (make_directories d.process faults.mkdir
          (d.process.start d.process.cwd d.executor.quarantine_dir) fs
          (split_path d.executor.quarantine_dir).reverse).result = .ok () ∧ faults.chmod = none := by
  unfold prepare
  by_cases hwrite : d.executor.write_enabled = true
  · rw [if_neg (by simp [hwrite]), and_iff_right hwrite]
    by_cases hok : report.ok = true
    · rw [if_neg (by simp [hok]), and_iff_right hok]
      by_cases hblast : d.executor.blast_cap < plan.items.length ∧ ¬d.confirm_blast
      · rw [if_pos hblast]
        refine iff_of_false (by simp) ?_
        rintro ⟨hle | hconfirm, -⟩
        · omega
        · exact hblast.2 hconfirm
      · rw [if_neg hblast, and_iff_right]
        · dsimp only
          split
          · rename_i hmade hchmod
            exact iff_of_false (by simp) (by simp [hchmod])
          · rename_i hother
            dsimp only
            constructor
            · intro hmade
              refine ⟨hmade, ?_⟩
              cases hchmod : faults.chmod with
              | none => rfl
              | some e => exact absurd hchmod (hother () e hmade)
            · exact fun h => h.1
        · by_cases hle : plan.items.length ≤ d.executor.blast_cap
          · exact Or.inl hle
          · refine Or.inr ?_
            by_contra hconfirm
            exact hblast ⟨by omega, hconfirm⟩
    · rw [if_pos (by simpa using hok)]
      exact iff_of_false (by simp) (fun h => hok h.1)
  · rw [if_pos hwrite]
    exact iff_of_false (by simp) (fun h => hwrite h.1)

theorem prepare_on_course {faults : PrepareFaults} (h : Tracked job s)
    (hstep : run_step blake3 d s (.prepare faults) = some t) : Tracked job t ∧
      (OnCourse job t ↔ OnCourse job s ∧ step_returns blake3 d s (.prepare faults)) := by
  unfold Tracked at h
  unfold OnCourse step_returns
  simp only [run_step] at hstep
  split at hstep
  · rename_i plan report hpc
    rw [hpc] at h ⊢
    obtain ⟨hitems, hlog⟩ := h
    have hok : Whole job plan → report.ok = true := by
      intro hwhole
      obtain hboth | hshort := hitems
      · exact hboth.2
      · rw [Short, hwhole] at hshort
        omega
    rw [← Option.some.inj hstep]
    cases hprepare : (prepare d s.fs faults plan report).result with
    | error e =>
        refine ⟨trivial, iff_of_false id ?_⟩
        rintro ⟨hwhole, hwrite, hblast, hmade, hchmod⟩
        have hfine := prepare_ok.mpr ⟨hwrite, hok hwhole, hblast, hmade, hchmod⟩
        rw [hprepare] at hfine
        exact absurd hfine (by simp)
    | ok _ =>
        obtain ⟨hwrite, -, hblast, hmade, hchmod⟩ := prepare_ok.mp hprepare
        refine ⟨⟨hitems.imp_left And.left, rfl, ?_⟩, ?_⟩
        · -- the directories that were made are no records
          dsimp only
          rw [hlog, List.nil_append, List.filterMap_map]
          exact (List.filterMap_eq_nil_iff.mpr fun op _ => rfl).symm
        · exact (and_iff_left ⟨hwrite, hblast, hmade, hchmod⟩).symm
  · exact absurd hstep (by simp)

theorem act_on_course {now now' : Timestamp} (h : Tracked job s)
    (hstep : run_step blake3 d s (.act faults now now') = some t) : Tracked job t ∧
      (OnCourse job t ↔ OnCourse job s ∧ step_returns blake3 d s (.act faults now now')) := by
  unfold Tracked at h
  unfold OnCourse step_returns
  simp only [run_step] at hstep
  split at hstep
  · rename_i plan item todo results audit hpc
    rw [hpc] at h ⊢
    obtain ⟨hitems, hids, haudit⟩ := h
    rw [← Option.some.inj hstep]
    dsimp only
    rw [act_returns_iff s.chain now now']
    cases hact :
        (act blake3 d.executor d.process s.fs s.chain faults now now' plan item).result with
    | error e => exact ⟨trivial, iff_of_false id (by simp)⟩
    | ok returned =>
        obtain ⟨result, records⟩ := returned
        obtain ⟨hid, hrecords⟩ := act_ok hact
        refine ⟨⟨hitems, ?_, ?_⟩, (and_iff_left ⟨_, rfl⟩).symm⟩
        · rw [List.map_append, List.map_singleton, hid, List.append_assoc, List.singleton_append]
          exact hids
        · dsimp only
          rw [List.filterMap_append, hrecords, ← haudit]
  · exact absurd hstep (by simp)

theorem finish_on_course (h : Tracked job s) (hstep : run_step blake3 d s .finish = some t) :
    Tracked job t ∧ (OnCourse job t ↔ OnCourse job s ∧ step_returns blake3 d s .finish) := by
  unfold Tracked at h
  unfold OnCourse step_returns
  simp only [run_step] at hstep
  split at hstep
  · rename_i plan results audit hpc
    rw [hpc] at h ⊢
    obtain ⟨hitems, hids, haudit⟩ := h
    rw [List.map_nil, List.append_nil] at hids
    have hlength := congrArg List.length hids
    rw [List.length_map, List.length_map] at hlength
    rw [← Option.some.inj hstep]
    dsimp only
    unfold Tracked
    refine ⟨⟨?_, haudit⟩, ?_⟩
    · obtain hwhole | hshort := hitems
      · rw [hwhole] at hids
        exact Or.inl hids
      · exact Or.inr (by rw [hlength]; exact hshort)
    · rw [and_true]
      constructor
      · intro hsame
        obtain hwhole | hshort := hitems
        · exact hwhole
        · rw [Short, ← hlength] at hshort
          omega
      · intro hwhole
        rw [hlength, hwhole]
  · exact absurd hstep (by simp)

/-- **A step leads on course** exactly from on course and with its condition. -/
theorem on_course_step {label : RunLabel} (h : Tracked job s) (hstep : run_step blake3 d s label = some t) :
    Tracked job t ∧ (OnCourse job t ↔ OnCourse job s ∧ step_returns blake3 d s label) := by
  cases label with
  | other fs =>
      rw [← Option.some.inj hstep]
      exact ⟨h, (and_iff_left trivial).symm⟩
  | verify fault => exact verify_on_course h hstep
  | read fault => exact read_on_course h hstep
  | report => exact report_on_course h hstep
  | prepare faults => exact prepare_on_course h hstep
  | act faults now now' => exact act_on_course h hstep
  | finish => exact finish_on_course h hstep

/-! ## One result for each item -/

/-- A result under the id of each item is one result each when the ids are distinct, and only
then. -/
theorem accounted_iff {log : List Event} {outcome : ExecOutcome}
    (hids : outcome.results.map ExecResult.entry_id =
        job.items.map (fun item => item.entry_id.to_str) ∨
      outcome.results.length < job.items.length)
    (haudit : outcome.audit = log.filterMap audit_of) :
    Accounted job log outcome ↔
      (job.items.map fun item => item.entry_id.to_str).Nodup ∧
        outcome.results.length = job.items.length := by
  constructor
  · intro h
    refine ⟨?_, h.only⟩
    obtain hsame | hlt := hids
    · rw [List.nodup_iff_count_eq_one]
      intro id hid
      obtain ⟨item, hitem, rfl⟩ := List.mem_map.mp hid
      rw [← hsame]
      exact h.one item hitem
    · have hlength := h.only
      omega
  · rintro ⟨hnodup, hlength⟩
    obtain hsame | hlt := hids
    · refine ⟨fun item hitem => ?_, hlength, haudit⟩
      rw [hsame]
      exact List.nodup_iff_count_eq_one.mp hnodup _ (List.mem_map.mpr ⟨item, hitem, rfl⟩)
    · omega

/-- **One result for each item.** A run of a job that has ended has returned one result for each
signed item, with the record of all that was done, exactly when the ids of the items are
distinct and each of its steps met its condition: the first dry run found all items drifted or
none, and no call that would raise has failed. -/
theorem one_result_each_iff {s₀ : Run} {tr : List RunLabel}
    (hinit : (executing blake3 d job).init s₀)
    (hrun : (executing blake3 d job).run s₀ tr = some s) (hended : Ended s) :
    (∃ outcome, s.pc = .finished outcome ∧ Accounted job s.log outcome) ↔
      (job.items.map fun item => item.entry_id.to_str).Nodup ∧
        (executing blake3 d job).Meets (step_returns blake3 d) s₀ tr := by
  obtain ⟨hlog, hpc⟩ := hinit
  have hstart : Tracked job s₀ ∧ OnCourse job s₀ := by
    unfold Tracked OnCourse
    rw [hpc]
    refine ⟨⟨⟨fun _ => rfl, by simp, fun item hitem => hitem, by simp⟩, hlog⟩, rfl⟩
  have hcourse : OnCourse job s ↔
      OnCourse job s₀ ∧ (executing blake3 d job).Meets (step_returns blake3 d) s₀ tr :=
    System.good_iff_meets (I := Tracked job) (fun _ _ _ h hstep => (on_course_step h hstep).1)
      (fun _ _ _ h hstep => (on_course_step h hstep).2) hstart.1 hrun
  rw [and_iff_right hstart.2] at hcourse
  have htracked : Tracked job s := System.run_keeps (I := Tracked job)
    (fun _ _ _ h hstep => (on_course_step h hstep).1) hstart.1 hrun
  rw [← hcourse]
  unfold Tracked at htracked
  unfold OnCourse
  obtain ⟨outcome, hfinished⟩ | ⟨e, hraised⟩ := hended
  · rw [hfinished] at htracked ⊢
    rw [← accounted_iff htracked.1 htracked.2]
    constructor
    · rintro ⟨outcome', heq, h⟩
      rw [RunPc.finished.inj heq]
      exact h
    · intro h
      exact ⟨outcome, rfl, h⟩
  · rw [hraised]
    exact iff_of_false (by simp) (by simp)

/-! ### A job for two copies -/

/-- The items of the two copies. -/
def both_items : List PlanItem :=
  [{ entry_id := .int 11, path := "/data/k", prior_inode := 10, prior_size := 3
     prior_hash := some "9f", action := .quarantine, dest_rel := none },
    { entry_id := .int 12, path := "/data/a", prior_inode := 11, prior_size := 3
      prior_hash := some "9f", action := .quarantine, dest_rel := none }]

/-- The job for them. -/
def both_job : ActionJob :=
  { second_copy_job with items := both_items, items_ne := by decide }

/-- The start of it. -/
def both_start (fs : FileSystem) : Run where
  fs
  chain := ⟨[], Fathom.Audit.GENESIS_HASH⟩
  log := []
  pc := .verifying false (plan_from_job both_job) both_job.items ⟨[]⟩

/-- The first item is quarantined; then the directory of both goes. -/
def directory_gone : List RunLabel :=
  [.verify none, .read none, .verify none, .read none, .report, .prepare ⟨fun _ => none, none⟩,
    .act no_faults sample_time sample_time, .other (two_copies.remove_entry ⟨1, 2⟩ "data"),
    .act no_faults sample_time sample_time]

/-- What a run has raised. -/
def raised (s : Run) : Option ActorError :=
  match s.pc with
  | .raised e => some e
  | _ => none

/-- The first copy is in the quarantine and the run has raised. -/
def moved_and_raised (s : Run) : Bool :=
  raised s = some (.os ENOENT) ∧
    .op (.rename ⟨1, 3⟩ "k" ⟨1, 4⟩ "plan-1__10__k") ∈ s.log

/-- A file has been moved and the job returns nothing. -/
theorem vanished_parent_loses_results :
    ∃ s, (executing (fun _ => "9f") sample_dispatcher both_job).run (both_start two_copies)
        directory_gone = some s ∧ Ended s ∧
      .op (.rename ⟨1, 3⟩ "k" ⟨1, 4⟩ "plan-1__10__k") ∈ s.log ∧
      ¬∃ outcome, s.pc = .finished outcome ∧ Accounted both_job s.log outcome := by
  have hrun : ((executing (fun _ => "9f") sample_dispatcher both_job).run (both_start two_copies)
      directory_gone).map moved_and_raised = some true := by decide +kernel
  obtain ⟨s, hs, hmoved⟩ := Option.map_eq_some_iff.mp hrun
  obtain ⟨hraised, hlog⟩ := of_decide_eq_true hmoved
  unfold raised at hraised
  split at hraised
  · rename_i e hpc
    refine ⟨s, hs, Or.inr ⟨e, hpc⟩, hlog, ?_⟩
    rintro ⟨outcome, hfinished, -⟩
    rw [hpc] at hfinished
    exact absurd hfinished (by simp)
  · exact absurd hraised (by simp)

/-- The job with nothing in its way. -/
def both_acts : List RunLabel :=
  [.verify none, .read none, .verify none, .read none, .report, .prepare ⟨fun _ => none, none⟩,
    .act no_faults sample_time sample_time, .act no_faults sample_time sample_time, .finish]

/-- What a run has returned. -/
def returned (s : Run) : Option ExecOutcome :=
  match s.pc with
  | .finished outcome => some outcome
  | _ => none

/-- Without the other process both items have their result. -/
theorem one_result_each_both :
    ∃ s, (executing (fun _ => "9f") sample_dispatcher both_job).run (both_start two_copies)
        both_acts = some s ∧
      ((∃ outcome, s.pc = .finished outcome ∧ Accounted both_job s.log outcome) ↔
        (both_job.items.map fun item => item.entry_id.to_str).Nodup ∧
          (executing (fun _ => "9f") sample_dispatcher both_job).Meets
            (step_returns (fun _ => "9f") sample_dispatcher) (both_start two_copies)
            both_acts) := by
  have hrun : ((executing (fun _ => "9f") sample_dispatcher both_job).run (both_start two_copies)
      both_acts).map (fun s => (returned s).isSome) = some true := by decide +kernel
  obtain ⟨s, hs, hreturned⟩ := Option.map_eq_some_iff.mp hrun
  have hended : Ended s := by
    unfold returned at hreturned
    split at hreturned
    · rename_i outcome hpc
      exact Or.inl ⟨outcome, hpc⟩
    · exact absurd hreturned (by simp)
  exact ⟨s, hs, one_result_each_iff ⟨rfl, rfl⟩ hs hended⟩

end Fathom.Actor
