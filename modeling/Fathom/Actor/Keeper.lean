/-
**The keeper during a run** (`Executor.execute_with_audit`, with `plan_from_job` and
`build_plan`): the copy that a dedup plan leaves in place, followed through the acts on
the others.

The keeper is no item. A job carries its path, and neither the dry run nor the re-check
of an item looks at it; verifying it before an act is written down as a part of the
design of a later action (`docs/decisions/ADR-030`). So a keeper that another process
takes away does not stop the acts (`last_copy_quarantined`). What the executor itself
does leaves the keeper alone, as long as no item leads to the keeper's own entry
(`last_copy_kept`).

The keeper's host need not be the agent's: its paths start at a process of its own, in
the same graph of inodes.
-/
import Fathom.Actor.Executor

set_option autoImplicit false

namespace Fathom.Actor

open Fathom.Filesystem
open Fathom.Remediation

/-! ## The keeper -/

section

variable (blake3 : ByteArray → String)

/-- The keeper is a regular file with the content of its group. -/
def keeper_intact (k : Process) (fs : FileSystem) (keeper_path full_hash : String) : Bool :=
  match lstat fs k keeper_path with
  | .ok (_, .file content) => blake3 content = full_hash
  | _ => false

/-- A path leads to an entry. -/
def leads_to (fs : FileSystem) (p : Process) (path : String) (d : Inode) (n : String) : Bool :=
  match open_parent fs p path with
  | .ok dir => dir.inode = d ∧ path_name path = n
  | .error _ => false

/-- The directory and the name an item is quarantined to. -/
def quarantine_target (executor : Executor) (p : Process) (fs : FileSystem) (plan_id : String)
    (item : PlanItem) : Option (Dir × String) :=
  match open_directory fs p executor.quarantine_dir with
  | .ok q => (locate_at fs p q (quarantine_name plan_id item (path_name item.path))).toOption
  | .error _ => none

/-- An entry is a symbolic link. -/
def symlink_at (fs : FileSystem) (d : Inode) (n : String) : Bool :=
  match (fs.entry d n).bind fs.node with
  | some (.symlink _) => true
  | _ => false

/-- An item is quarantined to an entry. -/
def quarantined_to (executor : Executor) (p : Process) (fs : FileSystem) (plan_id : String)
    (item : PlanItem) (d : Inode) (n : String) : Bool :=
  match quarantine_target executor p fs plan_id item with
  | some (dst, n') => item.action = .quarantine ∧ dst.inode = d ∧ n' = n
  | none => false

/-- An item is quarantined over a symbolic link. -/
def quarantined_over_link (executor : Executor) (p : Process) (fs : FileSystem)
    (plan_id : String) (item : PlanItem) : Bool :=
  match quarantine_target executor p fs plan_id item with
  | some (dst, n) => item.action = .quarantine ∧ symlink_at fs dst.inode n
  | none => false

/-- The act on an item is not about the keeper: the item does not lead to the keeper's
entry, and what it is quarantined over is neither that entry nor a symbolic link. -/
def spares (executor : Executor) (p k : Process) (fs : FileSystem)
    (plan_id keeper_path : String) (item : PlanItem) : Bool :=
  !quarantined_over_link executor p fs plan_id item &&
    match locate fs k keeper_path with
    | .ok (kdir, kname) =>
      !leads_to fs p item.path kdir.inode kname &&
        !quarantined_to executor p fs plan_id item kdir.inode kname
    | .error _ => true

/-- The steps that are not about the keeper: other processes leave it in place, and the
agent acts on others. -/
def keeps_off (d : Dispatcher) (k : Process) (job : ActionJob) (full_hash : String) (s : Run) :
    RunLabel → Bool
  | .other fs => keeper_intact blake3 k fs job.keeper_path full_hash
  | .act _ _ _ =>
    match s.pc with
    | .acting plan (item :: _) _ _ =>
      spares d.executor d.process k s.fs plan.plan_id job.keeper_path item
    | _ => true
  | _ => true

end

variable {blake3 : ByteArray → String}

theorem keeper_intact_iff {k : Process} {fs : FileSystem} {keeper_path full_hash : String} :
    keeper_intact blake3 k fs keeper_path full_hash = true ↔
      ∃ i content, lstat fs k keeper_path = .ok (i, .file content) ∧ blake3 content = full_hash := by
  unfold keeper_intact
  constructor
  · intro h
    split at h
    · rename_i i content hlstat
      exact ⟨i, content, hlstat, of_decide_eq_true h⟩
    · exact absurd h (by simp)
  · rintro ⟨i, content, hlstat, hhash⟩
    rw [hlstat]
    exact decide_eq_true hhash

theorem quarantine_entry_target {executor : Executor} {p : Process} {fs : FileSystem}
    {plan_id : String} {item : PlanItem} {dir : Dir} {d : Inode} {n : String}
    (h : quarantine_entry executor p fs plan_id item dir (path_name item.path) d n) :
    ∃ dst, quarantine_target executor p fs plan_id item = some (dst, n) ∧ d = dst.inode := by
  obtain ⟨q, dst, i, hq, hlocate, rfl, -⟩ := h
  refine ⟨dst, ?_, rfl⟩
  unfold quarantine_target
  rw [hq]
  dsimp only
  rw [hlocate]
  rfl

section

variable {executor : Executor} {p k : Process} {fs : FileSystem} {plan_id keeper_path : String}
  {item : PlanItem} {dir : Dir} {d : Inode} {n : String}

/-- What an act on an item may take away. -/
def may_take (executor : Executor) (p : Process) (fs : FileSystem) (plan_id : String)
    (item : PlanItem) (dir : Dir) (d : Inode) (n : String) : Prop :=
  item_entry dir (path_name item.path) d n ∨ (item.action = .quarantine ∧
    quarantine_entry executor p fs plan_id item dir (path_name item.path) d n)

/-- An act that spares the keeper does not take its entry. -/
theorem spares_entry (h : spares executor p k fs plan_id keeper_path item = true) {kdir : Dir}
    {kname : String} (hkeeper : locate fs k keeper_path = .ok (kdir, kname))
    (hopen : open_parent fs p item.path = .ok dir)
    (hgone : may_take executor p fs plan_id item dir d n) : ¬(d = kdir.inode ∧ n = kname) := by
  unfold spares at h
  rw [hkeeper] at h
  simp only [Bool.and_eq_true, Bool.not_eq_true'] at h
  obtain ⟨-, hitem, hquarantine⟩ := h
  rcases hgone with ⟨rfl, rfl, -⟩ | ⟨hact, hentry⟩
  · unfold leads_to at hitem
    rw [hopen] at hitem
    exact of_decide_eq_false hitem
  · obtain ⟨dst, htarget, rfl⟩ := quarantine_entry_target hentry
    unfold quarantined_to at hquarantine
    rw [htarget] at hquarantine
    rintro ⟨hdir, hname⟩
    exact of_decide_eq_false hquarantine ⟨hact, hdir, hname⟩

/-- Nor a directory or a symbolic link, when the item has a signed hash. -/
theorem spares_leaf (h : quarantined_over_link executor p fs plan_id item = false) {i : Inode}
    {node : Node} (hfound : Rechecked blake3 fs dir (path_name item.path) item i node)
    {hash : String} (hhash : item.prior_hash = some hash)
    (hgone : may_take executor p fs plan_id item dir d n) {j : Inode} {taken : Node}
    (hj : fs.entry d n = some j) (htaken : fs.node j = some taken) : taken.is_branch = false := by
  have hleaf := hfound.leaf hhash
  rcases hgone with ⟨rfl, rfl, hreserved⟩ | ⟨hact, hentry⟩
  · -- the item's own entry, which leads to what was re-checked
    have hlook := hfound.looked_up
    rw [lookup_eq_entry hreserved, hj, Option.some.injEq] at hlook
    rw [hlook, hfound.found, Option.some.injEq] at htaken
    rw [← htaken]
    exact hleaf
  · obtain ⟨dst, htarget, hd⟩ := quarantine_entry_target hentry
    obtain ⟨-, -, moved, -, -, -, hreserved, hmoved, hreplace⟩ := hentry
    have hlook := hfound.looked_up
    rw [lookup_eq_entry hreserved, hmoved, Option.some.injEq] at hlook
    have hfile : fs.node moved = some node := by
      rw [hlook]
      exact hfound.found
    cases taken with
    | file _ => rfl
    | special _ _ => rfl
    | directory size =>
        -- a file is not renamed over a directory
        exact absurd htaken (replaceable_leaf hfile hleaf (hreplace j hj) size)
    | symlink target =>
        unfold quarantined_over_link symlink_at at h
        rw [htarget] at h
        dsimp only at h
        rw [← hd, hj, Option.bind_some, htaken] at h
        exact absurd ⟨hact, rfl⟩ (of_decide_eq_false h)

/-- **One act.** An act that spares the keeper leaves it intact. -/
theorem act_keeps_keeper {chain : Fathom.Audit.AuditChain} {faults : Faults}
    {now now' : Fathom.Datetime.Timestamp} {plan : RemediationPlan} {full_hash : String}
    (hkeeper : keeper_intact blake3 k fs keeper_path full_hash = true) (hhash : item.prior_hash ≠ none)
    (h : spares executor p k fs plan.plan_id keeper_path item = true) : keeper_intact blake3 k
      (act blake3 executor p fs chain faults now now' plan item).fs keeper_path full_hash = true := by
  obtain ⟨hsame, -⟩ | ⟨dir, i, node, rest, hopen, hfound, hmutate, -⟩ :=
    @act_spec blake3 executor p fs faults plan item chain now now'
  · rw [hsame]
    exact hkeeper
  · obtain ⟨hash, hhash'⟩ := Option.ne_none_iff_exists'.mp hhash
    obtain ⟨j, content, hlstat, hcontent⟩ := keeper_intact_iff.mp hkeeper
    rw [hmutate]
    apply keeper_intact_iff.mpr
    refine ⟨j, content, ?_, hcontent⟩
    have hlink : quarantined_over_link executor p fs plan.plan_id item = false := by
      unfold spares at h
      rw [Bool.and_eq_true, Bool.not_eq_true'] at h
      exact h.1
    refine lstat_keeps mutate_keeps ?_ ?_ hlstat
    · intro d n i' node' hgone hi' hnode'
      exact spares_leaf hlink hfound hhash' hgone hi' hnode'
    · intro kdir kname hlocate hgone
      exact spares_entry h hlocate hopen hgone ⟨rfl, rfl⟩

end

/-! ## Whole runs -/

/-- A job that carries out a plan, or the part of it that has not drifted. -/
structure JobOf (plan : RemediationPlan) (job : ActionJob) : Prop where
  plan_id : job.plan_id = plan.plan_id
  keeper_path : job.keeper_path = plan.keeper_path
  move_root : job.move_root = plan.move_root
  items : ∀ item ∈ job.items, item ∈ plan.items

/-- Such are the jobs that `execute` dispatches. -/
theorem job_of_execute {orch : Orchestrator} {chain chain' : Fathom.Audit.AuditChain}
    {now : Fathom.Datetime.Timestamp} {plan : RemediationPlan} {verify : VerifyReport}
    {confirm_blast : Bool} {host_id nonce : String} {window : Window orch.job_ttl} {signed : SignedJob}
    (h : execute_begin blake3 orch chain now plan verify confirm_blast host_id nonce window =
      .dispatch signed chain') : ∃ job, signed.job = .action job ∧ JobOf plan job := by
  obtain ⟨job, rfl, -, -, -, hkeeper, hitems, hroot, -, hplan⟩ := execute_begin_dispatch h
  refine ⟨job, rfl, hplan, hkeeper, hroot, ?_⟩
  intro item hitem
  rw [hitems, live_items] at hitem
  exact (List.mem_filter.mp hitem).1

/-- The items of a dedup plan have a signed hash. -/
theorem build_plan_hash {plan_id created_by full_hash : String} {members : List Member}
    {keep_id : EntryId} {action : PlanAction} {plan : RemediationPlan}
    (h : build_plan plan_id created_by members keep_id full_hash action = .ok plan)
    {item : PlanItem} (hitem : item ∈ plan.items) : item.prior_hash = some full_hash := by
  obtain ⟨m, -, -, rfl⟩ := (build_plan_mem h).mp hitem
  rfl

/-- **The step lemma.** A step that keeps off the keeper leaves it intact. -/
theorem keeper_step {d : Dispatcher} {k : Process} {job : ActionJob} {full_hash : String} {s t : Run} {label : RunLabel}
    (hhash : ∀ item ∈ job.items, item.prior_hash = some full_hash) (hjob : FromJob job s.pc)
    (hkeeper : keeper_intact blake3 k s.fs job.keeper_path full_hash = true)
    (hoff : keeps_off blake3 d k job full_hash s label = true) (hstep : run_step blake3 d s label = some t) :
    keeper_intact blake3 k t.fs job.keeper_path full_hash = true := by
  by_cases hother : ∃ fs, label = .other fs
  · obtain ⟨fs, rfl⟩ := hother
    rw [← Option.some.inj hstep]
    exact hoff
  · by_cases hact : ∃ faults now now', label = .act faults now now'
    · obtain ⟨faults, now, now', rfl⟩ := hact
      obtain ⟨plan, item, todo, _, _, acted, _, hpc, rfl, rfl, -⟩ := act_step_spec hstep
      unfold keeps_off at hoff
      rw [hpc] at hjob hoff
      apply act_keeps_keeper hkeeper _ hoff
      rw [hhash item (hjob.2 item List.mem_cons_self)]
      simp
    · -- directories are made, and nothing is taken away
      rw [not_exists] at hother
      obtain ⟨hkeeps, -⟩ := quiet_step hstep hother fun faults now now' heq =>
        hact ⟨faults, now, now', heq⟩
      obtain ⟨i, content, hlstat, hcontent⟩ := keeper_intact_iff.mp hkeeper
      apply keeper_intact_iff.mpr
      refine ⟨i, content, ?_, hcontent⟩
      apply lstat_keeps hkeeps _ _ hlstat
      · intro _ _ _ _ hgone
        exact hgone.elim
      · intro _ _ _ hgone
        exact hgone

/-- **The keeper is kept.** In a run of a dedup job in which other processes leave the
keeper in place and no act is about the keeper's own entry, the keeper is intact in
every state: before each act and after it. -/
theorem last_copy_kept {d : Dispatcher} {k : Process} {job : ActionJob}
    {plan_id created_by full_hash : String} {members : List Member} {keep_id : EntryId}
    {action : PlanAction} {plan : RemediationPlan} {tr : List RunLabel} {s₀ s : Run}
    (hbuild : build_plan plan_id created_by members keep_id full_hash action = .ok plan)
    (hjob : JobOf plan job) (hinit : (executing blake3 d job).init s₀)
    (hstart : keeper_intact blake3 k s₀.fs plan.keeper_path full_hash = true)
    (hrun : ((executing blake3 d job).guard (keeps_off blake3 d k job full_hash)).run s₀ tr =
      some s) : keeper_intact blake3 k s.fs plan.keeper_path full_hash = true := by
  have hhash : ∀ item ∈ job.items, item.prior_hash = some full_hash := fun item hitem =>
    build_plan_hash hbuild (hjob.items item hitem)
  rw [← hjob.keeper_path] at hstart ⊢
  have hfrom : FromJob job s₀.pc := by
    rw [hinit.2]
    exact ⟨rfl, rfl, fun item hitem => hitem⟩
  have hboth : FromJob job s₀.pc ∧
      keeper_intact blake3 k s₀.fs job.keeper_path full_hash = true := ⟨hfrom, hstart⟩
  have hrun' : FromJob job s.pc ∧
      keeper_intact blake3 k s.fs job.keeper_path full_hash = true := by
    refine System.run_keeps (I := fun s => FromJob job s.pc ∧
      keeper_intact blake3 k s.fs job.keeper_path full_hash = true) ?_ hboth hrun
    rintro u label v ⟨hu, hkeeper⟩ hstep
    obtain ⟨hoff, hstep'⟩ := System.guard_step.mp hstep
    exact ⟨hu.step hstep', keeper_step hhash hu hkeeper hoff hstep'⟩
  exact hrun'.2

variable {executor : Executor} {p : Process} {fs : FileSystem} {faults : Faults}
  {plan : RemediationPlan} {item : PlanItem}

/-! ## No new ways -/

/-- A mutation of a file, other than a move, opens no way. -/
theorem mutate_back {dir : Dir} {i : Inode} {node : Node} {hash : String}
    (hfound : Rechecked blake3 fs dir (path_name item.path) item i node)
    (hhash : item.prior_hash = some hash) (hroot : plan.move_root = none) :
    KeepsBranches (mutate executor p fs faults dir (path_name item.path) plan item).fs fs := by
  have hleaf := hfound.leaf hhash
  unfold mutate
  split
  · obtain ⟨hsame, -⟩ | ⟨q, dst, name', -, -, hrename, -⟩ :=
      @quarantine_spec executor p fs faults dir (path_name item.path) item plan.plan_id
    · rw [hsame]
      exact KeepsBranches.refl fs
    · obtain ⟨moved, hreserved, hmoved, ⟨-, hsame⟩ | ⟨-, hset⟩⟩ := rename_spec hrename
      · rw [hsame]
        exact KeepsBranches.refl fs
      · have hlook := hfound.looked_up
        rw [lookup_eq_entry hreserved, hmoved, Option.some.injEq] at hlook
        have hfile : (fs.remove_entry dir.inode (path_name item.path)).node moved = some node := by
          rw [FileSystem.node_remove_entry, hlook]
          exact hfound.found
        rw [hset]
        exact (FileSystem.set_entry_back hfile hleaf).trans (fs.remove_entry_back _ _)
  · obtain ⟨hsame, -⟩ | ⟨hunlink, -⟩ :=
      @hard_delete_spec executor fs faults dir (path_name item.path)
    · rw [hsame]
      exact KeepsBranches.refl fs
    · obtain ⟨_, -, -, -, hremove⟩ := unlink_spec hunlink
      rw [hremove]
      exact fs.remove_entry_back _ _
  · rw [hroot, move]
    exact KeepsBranches.refl fs
  · exact KeepsBranches.refl fs

theorem act_back {chain : Fathom.Audit.AuditChain} {now now' : Fathom.Datetime.Timestamp}
    {hash : String} (hhash : item.prior_hash = some hash) (hroot : plan.move_root = none) :
    KeepsBranches (act blake3 executor p fs chain faults now now' plan item).fs fs := by
  obtain ⟨hsame, -⟩ | ⟨dir, i, node, rest, -, hfound, hmutate, -⟩ :=
    @act_spec blake3 executor p fs faults plan item chain now now'
  · rw [hsame]
    exact KeepsBranches.refl fs
  · rw [hmutate]
    exact mutate_back hfound hhash hroot

/-- An act that replaces no symbolic link keeps every way. -/
theorem act_forth {chain : Fathom.Audit.AuditChain} {now now' : Fathom.Datetime.Timestamp}
    {hash : String} (hhash : item.prior_hash = some hash)
    (hlink : quarantined_over_link executor p fs plan.plan_id item = false) :
    KeepsBranches fs (act blake3 executor p fs chain faults now now' plan item).fs := by
  obtain ⟨hsame, -⟩ | ⟨dir, i, node, rest, -, hfound, hmutate, -⟩ :=
    @act_spec blake3 executor p fs faults plan item chain now now'
  · rw [hsame]
    exact KeepsBranches.refl fs
  · rw [hmutate]
    apply mutate_keeps.branches
    intro d n j taken hgone hj htaken
    exact spares_leaf hlink hfound hhash hgone hj htaken

/-- A directory that is there is not made. -/
theorem make_directories_there {fault : ℕ → Option Errno} {start dir : Dir} {names : List String}
    (h : walk fs p.root max_links start names.reverse = .ok dir) :
    (make_directories p fault start fs names).fs = fs := by
  induction names generalizing dir with
  | nil => rfl
  | cons name parents ih =>
      rw [List.reverse_cons] at h
      obtain ⟨parent, hparent, hthere⟩ := walk_last h
      obtain ⟨errno, herrno⟩ := mkdir_there hthere
      have hfails : ∀ fault : Option Errno, ∃ e,
          attempt fault (mkdir_in fs p start parents.reverse name) = .error e := by
        intro fault
        cases fault with
        | some e => exact ⟨e, rfl⟩
        | none =>
            refine ⟨errno, ?_⟩
            rw [attempt, mkdir_in, hparent]
            dsimp only
            rw [herrno]
      obtain ⟨e, he⟩ := hfails (fault (2 * parents.length))
      obtain ⟨e', he'⟩ := hfails (fault (2 * parents.length + 1))
      rw [make_directories, he]
      dsimp only
      split
      · split
        · exact ih hparent
        · rw [ih hparent, he']
      · rfl

theorem prepare_there {d : Dispatcher} {faults : PrepareFaults} {report : VerifyReport} {q : Dir}
    (h : open_directory fs d.process d.executor.quarantine_dir = .ok q) :
    (prepare d fs faults plan report).fs = fs := by
  unfold open_directory at h
  split at h
  · exact absurd h (by simp)
  · have hmade : (make_directories d.process faults.mkdir
        (d.process.start d.process.cwd d.executor.quarantine_dir) fs
        (split_path d.executor.quarantine_dir).reverse).fs = fs := by
      apply make_directories_there
      rw [List.reverse_reverse]
      exact h
    unfold prepare
    split
    · rfl
    · split
      · rfl
      · split
        · rfl
        · dsimp only
          split
          · exact hmade
          · exact hmade

/-! ### A keeper that goes -/

/-- The two copies, the first to be kept. -/
def two_members : List Member :=
  [⟨.int 11, "/data/k", 10, 3⟩, ⟨.int 12, "/data/a", 11, 3⟩]

theorem two_members_plan :
    ∃ plan, build_plan "plan-1" "ops" two_members (.int 11) "9f" .quarantine = .ok plan ∧
      plan.keeper_path = "/data/k" ∧ JobOf plan second_copy_job :=
  ⟨_, rfl, rfl, rfl, rfl, rfl, fun _ hitem => hitem⟩

/-- Another process removes the keeper after the dry run. -/
def keeper_removed : List RunLabel :=
  before_act ++ [.other (two_copies.remove_entry ⟨1, 3⟩ "k")]

/-- The last copy is quarantined: the act looks at its item, and not at the keeper. -/
theorem last_copy_quarantined :
    ¬ ∀ (blake3 : ByteArray → String) (d : Dispatcher) (k : Process) (job : ActionJob)
      (plan_id created_by full_hash : String) (members : List Member) (keep_id : EntryId)
      (action : PlanAction) (plan : RemediationPlan) (tr : List RunLabel) (s₀ s t : Run)
      (faults : Faults) (now now' : Fathom.Datetime.Timestamp) (dir : Inode) (name : String),
      build_plan plan_id created_by members keep_id full_hash action = .ok plan →
      JobOf plan job → (executing blake3 d job).init s₀ →
      keeper_intact blake3 k s₀.fs plan.keeper_path full_hash = true →
      (∀ item ∈ job.items, spares d.executor d.process k s₀.fs plan_id plan.keeper_path item =
        true) →
      (executing blake3 d job).run s₀ tr = some s →
      (executing blake3 d job).step s (.act faults now now') = some t →
      s.fs.entry dir name ≠ none → t.fs.entry dir name = none →
        keeper_intact blake3 k s.fs plan.keeper_path full_hash = true := by
  intro h
  obtain ⟨plan, hbuild, hkeeper, hjob⟩ := two_members_plan
  have hrun : ∃ s t, (executing (fun _ => "9f") sample_dispatcher second_copy_job).run
        (run_start two_copies) keeper_removed = some s ∧
      (executing (fun _ => "9f") sample_dispatcher second_copy_job).step s
        (.act no_faults sample_time sample_time) = some t ∧
      s.fs.entry ⟨1, 3⟩ "a" = some ⟨1, 11⟩ ∧ t.fs.entry ⟨1, 3⟩ "a" = none ∧
      keeper_intact (fun _ => "9f") sample_dispatcher.process s.fs "/data/k" "9f" = false :=
    ⟨_, _, rfl, rfl, rfl, rfl, rfl⟩
  obtain ⟨s, t, hs, ht, hbefore, hafter, hgone⟩ := hrun
  have hintact := h _ _ sample_dispatcher.process _ _ _ _ _ _ _ plan _ _ s t no_faults sample_time
    sample_time ⟨1, 3⟩ "a" hbuild hjob ⟨rfl, rfl⟩ (by rw [hkeeper]; rfl)
    (by rw [hkeeper]; decide +kernel) hs ht (by rw [hbefore]; simp) hafter
  rw [hkeeper, hgone] at hintact
  exact absurd hintact (by simp)

/-- A run in which other processes only come and go. -/
theorem last_copy_kept_second_copy :
    ∃ plan s, build_plan "plan-1" "ops" two_members (.int 11) "9f" .quarantine = .ok plan ∧
      ((executing (fun _ => "9f") sample_dispatcher second_copy_job).guard
        (keeps_off (fun _ => "9f") sample_dispatcher sample_dispatcher.process second_copy_job
          "9f")).run (run_start two_copies)
        (before_act ++ [.other two_copies, .act no_faults sample_time sample_time]) = some s ∧
      keeper_intact (fun _ => "9f") sample_dispatcher.process s.fs plan.keeper_path "9f" =
        true := by
  obtain ⟨plan, hbuild, hkeeper, hjob⟩ := two_members_plan
  have hrun : ∃ s, ((executing (fun _ => "9f") sample_dispatcher second_copy_job).guard
      (keeps_off (fun _ => "9f") sample_dispatcher sample_dispatcher.process second_copy_job
        "9f")).run (run_start two_copies)
      (before_act ++ [.other two_copies, .act no_faults sample_time sample_time]) = some s :=
    ⟨_, rfl⟩
  obtain ⟨s, hs⟩ := hrun
  exact ⟨plan, s, hbuild, hs,
    last_copy_kept hbuild hjob ⟨rfl, rfl⟩ (by rw [hkeeper]; rfl) hs⟩

end Fathom.Actor
