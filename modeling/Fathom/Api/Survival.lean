/-
**The survival of the keeper** (`_load_group_members`, `RemediationOrchestrator.build`,
`build_plan`, and `Executor.execute_with_audit`): a catalogue, a filesystem it is true
of, a plan over one of its groups, and every run of every job of that plan.

`build_plan` takes the keeper out of its items by the entry id, and one file can be
catalogued under several: nested scan roots, a scan of a directory below a root, a
network mount of another host. A rebuild keeps them apart only in what it says can be
reclaimed. `keeper_survives` is the exact condition; `keeper_quarantined` is a
catalogue that does not meet it, of one file in two volumes.

A name of the kept file is a path that leads to the directory entry the keeper's path
leads to. Another entry of the same inode is a hard link, and is not one.
-/
import Fathom.Actor.Keeper
import Fathom.Api.Remediation

set_option autoImplicit false

namespace Fathom.Api

open Fathom.Filesystem
open Fathom.Catalogue (Tables FsEntryRow DupGroup DupMember DedupScope KeeperRule
  hashed_in_scope build_groups rebuild)
open Fathom.Actor
open Fathom.Remediation

/-! ## A catalogue and what it is about -/

/-- One graph of inodes, and where the paths of each host start in it. -/
structure World where
  fs : FileSystem
  host : ℕ → Process

section

variable (blake3 : ByteArray → String)

/-- What the catalogue says of its hashed files is so. -/
def Consistent (db : Tables) (w : World) : Prop :=
  ∀ e ∈ db.entries, e.present = true → e.is_dir = false → ∀ hash, e.full_hash = some hash →
    names_directory e.path = false ∧ ∃ i content,
      lstat w.fs (w.host e.host_id) e.path = .ok (i, .file content) ∧
        (i.ino : Int) = e.inode ∧ content.size = e.size_logical ∧ blake3 content = hash

/-- Two paths lead to one entry of one directory. -/
def same_entry (fs : FileSystem) (k : Process) (keeper_path : String) (p : Process)
    (path : String) : Bool :=
  match locate fs k keeper_path with
  | .ok (dir, name) => leads_to fs p path dir.inode name
  | .error _ => false

/-- The path of a row names the kept file: on its own host, or on the host of the plan. -/
def names_kept (w : World) (keeper : FsEntryRow) (target : ℕ) (e : FsEntryRow) : Bool :=
  same_entry w.fs (w.host keeper.host_id) keeper.path (w.host e.host_id) e.path ||
    same_entry w.fs (w.host keeper.host_id) keeper.path (w.host target) e.path

/-- A plan id that no name begins with. -/
structure FreshPlanId (fs : FileSystem) (plan_id : String) : Prop where
  no_slash : '/' ∉ plan_id.toList
  unused : ∀ dir name i, fs.entry dir name = some i →
    ¬(plan_id ++ "__").toList <+: name.toList

/-- No other process changes the filesystem. -/
def alone (_ : Run) : RunLabel → Bool
  | .other _ => false
  | _ => true

/-- What a plan promises its keeper: no item names the kept file, and every run of
every job of the plan leaves it in place. -/
structure Survives (db : Tables) (w : World) (keeper : FsEntryRow) (full_hash : String)
    (target : ℕ) (plan : RemediationPlan) : Prop where
  not_named : ∀ item ∈ plan.items, ∀ e ∈ db.entries, item.entry_id = .int e.id →
    names_kept w keeper target e = false
  kept : ∀ (d : Dispatcher) (job : ActionJob) (q : Dir) (tr : List RunLabel) (s₀ s : Run),
    d.process = w.host target →
    open_directory w.fs d.process d.executor.quarantine_dir = .ok q →
    JobOf plan job → (executing blake3 d job).init s₀ → s₀.fs = w.fs →
    ((executing blake3 d job).guard alone).run s₀ tr = some s →
    keeper_intact blake3 (w.host keeper.host_id) s.fs plan.keeper_path full_hash = true

/-- **The condition.** No other row that a rebuild puts in the keeper's group names the
kept file. -/
def Unaliased (db : Tables) (scope : DedupScope) (w : World) (keeper : FsEntryRow)
    (target : ℕ) : Prop :=
  ∀ e ∈ db.entries, hashed_in_scope scope e = true → e.size_logical = keeper.size_logical →
    e.full_hash = keeper.full_hash → e.id ≠ keeper.id → names_kept w keeper target e = false

end

variable {blake3 : ByteArray → String}

/-! ## What a plan is about -/

section

variable {db : Tables} {scope : DedupScope} {rule : KeeperRule} {group : DupGroup}
  {group_id : ℕ} {rows : List DupMember} {filter : ScopeFilter} {members : List GroupMember}

/-- The members of a loaded group are its rows in the catalogue. -/
theorem loaded_members (hgroup : group ∈ build_groups db scope rule) (hselect : rows.Perm group.members)
    (hload : load_group_members (rebuild db scope rule) group_id rows filter =
      .ok (group, members)) {id : ℕ} {path : String} : (∃ m ∈ members, m.entry_id = id ∧ m.path = path) ↔
      ∃ e ∈ db.entries, hashed_in_scope scope e = true ∧ e.size_logical = group.size ∧
        e.full_hash = some group.full_hash ∧ e.id = id ∧ e.path = path := by
  have hloaded := forall₂_mem (load_group_members_spec hload).2
  constructor
  · rintro ⟨m, hm, rfl, rfl⟩
    obtain ⟨row, hrow, hmember⟩ := hloaded.2 m hm
    obtain ⟨e, he, hscope, hsize, hhash, rfl⟩ :=
      (Catalogue.mem_build_groups hgroup).mp (hselect.mem_iff.mp hrow)
    obtain ⟨entry, hentry, hid, -, -, hpath, -⟩ := load_group_member_spec hmember
    obtain ⟨hmem, heid⟩ := Catalogue.get_entry_iff.mp hentry
    -- ids are unique, so the entry looked up is the one the row was made of
    have hsame : entry = e := List.inj_on_of_nodup_map db.entries_key hmem he heid
    rw [hid, hpath, hsame]
    exact ⟨e, he, hscope, hsize, hhash, rfl, rfl⟩
  · rintro ⟨e, he, hscope, hsize, hhash, rfl, rfl⟩
    have hrow := (Catalogue.mem_build_groups hgroup).mpr ⟨e, he, hscope, hsize, hhash, rfl⟩
    obtain ⟨m, hm, hmember⟩ := hloaded.1 _ (hselect.mem_iff.mpr hrow)
    obtain ⟨entry, hentry, hid, -, -, hpath, -⟩ := load_group_member_spec hmember
    obtain ⟨hmem, heid⟩ := Catalogue.get_entry_iff.mp hentry
    have hsame : entry = e := List.inj_on_of_nodup_map db.entries_key hmem he heid
    refine ⟨m, hm, hid, ?_⟩
    rw [hpath, hsame]

end

/-- A plan over a rebuilt group, and the row of its keeper. -/
structure PlanOver (blake3 : ByteArray → String) (db : Tables) (scope : DedupScope)
    (group : DupGroup) (keeper : FsEntryRow) (plan_id : String) (plan : RemediationPlan) :
    Prop where
  entry : keeper ∈ db.entries
  in_scope : hashed_in_scope scope keeper = true
  size : keeper.size_logical = group.size
  full_hash : keeper.full_hash = some group.full_hash
  keeper_path : plan.keeper_path = keeper.path
  plan_id_eq : plan.plan_id = plan_id
  move_root : plan.move_root = none
  item_hash : ∀ item ∈ plan.items, item.prior_hash = some group.full_hash
  item_row : ∀ item ∈ plan.items, ∃ e ∈ db.entries, hashed_in_scope scope e = true ∧
    e.size_logical = group.size ∧ e.full_hash = some group.full_hash ∧ e.id ≠ keeper.id ∧
    item.entry_id = .int e.id ∧ item.path = e.path
  row_item : ∀ e ∈ db.entries, hashed_in_scope scope e = true → e.size_logical = group.size →
    e.full_hash = some group.full_hash → e.id ≠ keeper.id →
    ∃ item ∈ plan.items, item.entry_id = .int e.id

theorem plan_over {db : Tables} {scope : DedupScope} {rule : KeeperRule} {group : DupGroup}
    {group_id : ℕ} {rows : List DupMember} {filter : ScopeFilter} {members : List GroupMember}
    {chain chain' : Fathom.Audit.AuditChain} {now : Fathom.Datetime.Timestamp}
    {plan_id subject : String} {keep_id : ℕ} {action : PlanAction} {plan : RemediationPlan}
    {keeper : FsEntryRow} (hgroup : group ∈ build_groups db scope rule) (hselect : rows.Perm group.members)
    (hload : load_group_members (rebuild db scope rule) group_id rows filter = .ok (group, members))
    (hbuild : orchestrator_build blake3 chain now plan_id members keep_id group.full_hash subject
      action = .ok (plan, chain')) (hkeeper : db.get_entry keep_id = some keeper) :
    PlanOver blake3 db scope group keeper plan_id plan := by
  have hplan := (orchestrator_build_spec hbuild).2
  obtain ⟨hid, -, hroot, -, -⟩ := build_plan_spec hplan
  obtain ⟨hmem, rfl⟩ := Catalogue.get_entry_iff.mp hkeeper
  -- the member the operator keeps is the row with that id
  obtain ⟨kept, hkept, hkeptid, hpath, -⟩ := orchestrator_build_keeper hbuild
  obtain ⟨e, he, hscope, hsize, hhash, heid, hepath⟩ :=
    (loaded_members hgroup hselect hload).mp ⟨kept, hkept, hkeptid, rfl⟩
  have hsame : e = keeper := List.inj_on_of_nodup_map db.entries_key he hmem heid
  subst hsame
  refine ⟨he, hscope, hsize, hhash, ?_, hid, hroot, fun item => build_plan_hash hplan, ?_, ?_⟩
  · rw [hpath, hepath]
  · intro item hitem
    obtain ⟨m, hm, hne, rfl⟩ := (orchestrator_build_mem hbuild).mp hitem
    obtain ⟨e', he', hscope', hsize', hhash', hid', hpath'⟩ :=
      (loaded_members hgroup hselect hload).mp ⟨m, hm, rfl, rfl⟩
    refine ⟨e', he', hscope', hsize', hhash', ?_, ?_, hpath'.symm⟩
    · rw [hid']
      exact hne
    · rw [hid']
      rfl
  · intro e' he' hscope' hsize' hhash' hne
    obtain ⟨m, hm, hmid, -⟩ := (loaded_members hgroup hselect hload).mpr
      ⟨e', he', hscope', hsize', hhash', rfl, rfl⟩
    refine ⟨_, (orchestrator_build_mem hbuild).mpr ⟨m, hm, ?_, rfl⟩, ?_⟩
    · rw [hmid]
      exact hne
    · rw [← hmid]
      rfl

/-! ## Names of the quarantine -/

theorem render_int_no_slash (n : Int) : '/' ∉ Json.render_int n := by
  obtain ⟨c, t, heq, -, hall⟩ := Json.render_int_shape n
  rw [heq]
  intro hmem
  exact absurd (List.all_eq_true.mp hall '/' hmem) (by decide)

theorem path_name_no_slash (path : String) : '/' ∉ (path_name path).toList := by
  unfold path_name
  rcases hlast : (split_path path).getLast? with _ | name
  · simp
  · rw [Option.getD_some]
    exact slash_not_mem_split_path (List.mem_of_getLast? hlast)

theorem quarantine_name_prefix (plan_id : String) (item : PlanItem) (name : String) :
    (plan_id ++ "__").toList <+: (quarantine_name plan_id item name).toList := by
  unfold quarantine_name
  simp only [String.toList_append, List.append_assoc]
  rw [← List.append_assoc]
  exact List.prefix_append _ _

theorem quarantine_name_no_slash {plan_id : String} (h : '/' ∉ plan_id.toList) (item : PlanItem) :
    '/' ∉ (quarantine_name plan_id item (path_name item.path)).toList := by
  unfold quarantine_name
  simp only [String.toList_append, String.toList_ofList, List.mem_append, not_or]
  exact ⟨⟨⟨⟨h, by decide⟩, render_int_no_slash _⟩, by decide⟩, path_name_no_slash _⟩

/-- A name that begins with a plan id and its separator is none of the reserved ones. -/
theorem quarantined_not_reserved {plan_id name : String}
    (h : (plan_id ++ "__").toList <+: name.toList) : reserved name = false := by
  have hmem : '_' ∈ name.toList := by
    apply h.subset
    rw [String.toList_append]
    exact List.mem_append_right _ (by decide)
  rw [reserved, decide_eq_false_iff_not]
  rintro (rfl | rfl | rfl)
  · exact absurd hmem (by decide)
  · exact absurd hmem (by decide)
  · exact absurd hmem (by decide)

/-- An item is quarantined under its own name in the quarantine. -/
theorem quarantine_target_name {executor : Executor} {p : Process} {fs : FileSystem}
    {plan_id : String} {item : PlanItem} {dst : Dir} {n : String} (hslash : '/' ∉ plan_id.toList)
    (h : quarantine_target executor p fs plan_id item = some (dst, n)) :
    n = quarantine_name plan_id item (path_name item.path) := by
  have hprefix := quarantine_name_prefix plan_id item (path_name item.path)
  have hreserved := quarantined_not_reserved hprefix
  rw [reserved, decide_eq_false_iff_not, not_or, not_or] at hreserved
  unfold quarantine_target at h
  split at h
  · rename_i q _
    unfold locate_at at h
    rw [split_path_single (quarantine_name_no_slash hslash item) hreserved.1 hreserved.2.1,
      List.getLast?_singleton] at h
    dsimp only at h
    split at h
    · obtain ⟨-, rfl⟩ := Prod.mk.inj (Option.some.inj h)
      rfl
    · exact absurd h (by simp [Except.toOption])
  · exact absurd h (by simp)

/-! ## The acts spare the keeper -/

section

variable {executor : Executor} {p k : Process} {fs₀ fs : FileSystem}
  {plan_id keeper_path : String} {item : PlanItem}

/-- With a fresh plan id, nothing is quarantined over a link. -/
theorem fresh_over_link (hfresh : FreshPlanId fs₀ plan_id) (hback : KeepsBranches fs fs₀) :
    quarantined_over_link executor p fs plan_id item = false := by
  unfold quarantined_over_link
  split
  · rename_i dst n htarget
    rw [decide_eq_false_iff_not]
    rintro ⟨-, hlink⟩
    unfold symlink_at at hlink
    split at hlink
    · rename_i target hnode
      obtain ⟨i, hi, hnode⟩ := Option.bind_eq_some_iff.mp hnode
      -- a link of that name was there before the job
      obtain ⟨hi₀, -⟩ := hback dst.inode n i _ hi hnode rfl
      apply hfresh.unused dst.inode n i hi₀
      rw [quarantine_target_name hfresh.no_slash htarget]
      exact quarantine_name_prefix _ _ _
    · exact absurd hlink (by simp)
  · rfl

/-- **An act spares the keeper**, when its item did not name it before the job. -/
theorem fresh_spares (hfresh : FreshPlanId fs₀ plan_id) (hforth : KeepsBranches fs₀ fs)
    (hback : KeepsBranches fs fs₀) (hfile : names_directory keeper_path = false) {i : Inode}
    {node : Node} (hkeeper : lstat fs₀ k keeper_path = .ok (i, node))
    (hnot : same_entry fs₀ k keeper_path p item.path = false) :
    spares executor p k fs plan_id keeper_path item = true := by
  unfold lstat at hkeeper
  rw [hfile, if_neg (by simp)] at hkeeper
  split at hkeeper
  · rename_i dir name hlocate
    have hthere : locate fs k keeper_path = .ok (dir, name) := locate_keeps hforth hlocate
    unfold spares
    rw [fresh_over_link hfresh hback, hthere]
    simp only [Bool.not_false, Bool.true_and, Bool.and_eq_true, Bool.not_eq_true']
    constructor
    · -- a way that is there now was there before the job
      unfold same_entry at hnot
      rw [hlocate] at hnot
      unfold leads_to at hnot ⊢
      split
      · rename_i dir' hopen
        have hopen₀ : open_parent fs₀ p item.path = .ok dir' := walk_keeps hback hopen
        rw [hopen₀] at hnot
        exact hnot
      · rfl
    · unfold quarantined_to
      split
      · rename_i dst n htarget
        rw [decide_eq_false_iff_not]
        rintro ⟨-, -, rfl⟩
        have hprefix := quarantine_name_prefix plan_id item (path_name item.path)
        rw [← quarantine_target_name hfresh.no_slash htarget] at hprefix
        obtain ⟨hlook, -⟩ := lstat_at_ok.mp hkeeper
        rw [lookup_eq_entry (quarantined_not_reserved hprefix)] at hlook
        exact hfresh.unused dir.inode n i hlook hprefix
      · rfl
  · exact absurd hkeeper (by simp)

end

/-! ## Whole runs -/

/-- What every step of a run keeps: the ways of the start, and the keeper. -/
structure Kept (blake3 : ByteArray → String) (w : World) (keeper : FsEntryRow)
    (full_hash : String) (job : ActionJob) (s : Run) : Prop where
  from_job : FromJob job s.pc
  forth : KeepsBranches w.fs s.fs
  back : KeepsBranches s.fs w.fs
  intact : keeper_intact blake3 (w.host keeper.host_id) s.fs keeper.path full_hash = true

/-- **The step lemma.** -/
theorem Kept.step {db : Tables} {scope : DedupScope} {w : World} {group : DupGroup}
    {keeper : FsEntryRow} {plan_id : String} {plan : RemediationPlan} {target : ℕ}
    {d : Dispatcher} {job : ActionJob} {q : Dir} {s t : Run} {label : RunLabel}
    (hover : PlanOver blake3 db scope group keeper plan_id plan)
    (hconsistent : Consistent blake3 db w) (hfresh : FreshPlanId w.fs plan_id)
    (halias : Unaliased db scope w keeper target) (hhost : d.process = w.host target)
    (hq : open_directory w.fs d.process d.executor.quarantine_dir = .ok q)
    (hjob : JobOf plan job) (h : Kept blake3 w keeper group.full_hash job s)
    (halone : alone s label = true) (hstep : run_step blake3 d s label = some t) :
    Kept blake3 w keeper group.full_hash job t := by
  have hfrom := h.from_job.step hstep
  cases label with
  | other fs => exact absurd halone (by simp [alone])
  | prepare faults =>
      obtain ⟨plan', report, pc, -, rfl, -⟩ := prepare_step hstep
      have hsame := @prepare_there s.fs plan' d faults report q (open_directory_keeps h.forth hq)
      refine ⟨hfrom, ?_, ?_, ?_⟩
      · rw [hsame]
        exact h.forth
      · rw [hsame]
        exact h.back
      · rw [hsame]
        exact h.intact
  | act faults now now' =>
      obtain ⟨plan', item, todo, _, _, acted, pc, hpc, rfl, rfl, -⟩ := act_step_spec hstep
      have hjobpc := h.from_job
      rw [hpc] at hjobpc
      obtain ⟨hplan', htodo⟩ := hjobpc
      have hitem : item ∈ plan.items := hjob.items item (htodo item List.mem_cons_self)
      have hhash := hover.item_hash item hitem
      have hid : plan'.plan_id = plan_id := by rw [hplan'.plan_id, hjob.plan_id, hover.plan_id_eq]
      have hroot : plan'.move_root = none := by
        rw [hplan'.move_root, hjob.move_root, hover.move_root]
      rw [← hid] at hfresh
      -- the row of the item does not name the kept file
      obtain ⟨e, he, hscope, hsize, hehash, hne, -, hpath⟩ := hover.item_row item hitem
      have hnames : names_kept w keeper target e = false := by
        apply halias e he hscope _ _ hne
        · rw [hsize, hover.size]
        · rw [hehash, hover.full_hash]
      have hnot : same_entry w.fs (w.host keeper.host_id) keeper.path d.process item.path =
          false := by
        rw [hhost, hpath]
        exact (Bool.or_eq_false_iff.mp hnames).2
      obtain ⟨hpresent, hisfile, -⟩ := Catalogue.hashed_in_scope_spec hover.in_scope
      obtain ⟨hfile, i, content, hlstat, -⟩ :=
        hconsistent keeper hover.entry hpresent hisfile _ hover.full_hash
      have hspares : spares d.executor d.process (w.host keeper.host_id) s.fs plan'.plan_id
          keeper.path item = true := fresh_spares hfresh h.forth h.back hfile hlstat hnot
      refine ⟨hfrom, ?_, ?_, ?_⟩
      · exact h.forth.trans (act_forth hhash (fresh_over_link hfresh h.back))
      · exact (act_back hhash hroot).trans h.back
      · exact act_keeps_keeper h.intact (by rw [hhash]; simp) hspares
  | _ =>
      obtain ⟨pc, rfl, -⟩ := reading_step hstep rfl
      exact ⟨hfrom, h.forth, h.back, h.intact⟩

/-- **When the keeper survives.** A plan over a rebuilt group promises its keeper that no
item names the kept file and that every run leaves it in place, exactly when no other row
of the group names the kept file. -/
theorem keeper_survives {db : Tables} {scope : DedupScope} {rule : KeeperRule} {w : World}
    {group : DupGroup} {group_id : ℕ} {rows : List DupMember} {filter : ScopeFilter}
    {first : GroupMember} {rest : List GroupMember} {chain chain' : Fathom.Audit.AuditChain}
    {now : Fathom.Datetime.Timestamp} {plan_id subject : String} {keep_id : ℕ}
    {action : PlanAction} {plan : RemediationPlan} {keeper : FsEntryRow}
    (hgroup : group ∈ build_groups db scope rule) (hselect : rows.Perm group.members)
    (hload : load_group_members (rebuild db scope rule) group_id rows filter =
      .ok (group, first :: rest))
    (hbuild : orchestrator_build blake3 chain now plan_id (first :: rest) keep_id group.full_hash
      subject action = .ok (plan, chain'))
    (hkeeper : db.get_entry keep_id = some keeper) (hconsistent : Consistent blake3 db w)
    (hfresh : FreshPlanId w.fs plan_id) :
    Survives blake3 db w keeper group.full_hash first.host_id plan ↔
      Unaliased db scope w keeper first.host_id := by
  have hover := plan_over hgroup hselect hload hbuild hkeeper
  constructor
  · intro hsurvives e he hscope hsize hhash hne
    rw [hover.size] at hsize
    rw [hover.full_hash] at hhash
    obtain ⟨item, hitem, hid⟩ := hover.row_item e he hscope hsize hhash hne
    exact hsurvives.not_named item hitem e he hid
  · intro halias
    refine ⟨?_, ?_⟩
    · intro item hitem e he hid
      obtain ⟨e', he', hscope, hsize, hhash, hne, hid', -⟩ := hover.item_row item hitem
      have hsame : e = e' := by
        refine List.inj_on_of_nodup_map db.entries_key he he' ?_
        rw [hid] at hid'
        exact Int.ofNat.inj (EntryId.int.inj hid')
      rw [hsame]
      apply halias e' he' hscope _ _ hne
      · rw [hsize, hover.size]
      · rw [hhash, hover.full_hash]
    · intro d job q tr s₀ s hhost hq hjob hinit hstart hrun
      obtain ⟨hpresent, hisfile, -⟩ := Catalogue.hashed_in_scope_spec hover.in_scope
      obtain ⟨-, i, content, hlstat, -, -, hhash⟩ :=
        hconsistent keeper hover.entry hpresent hisfile _ hover.full_hash
      have hkept : Kept blake3 w keeper group.full_hash job s := by
        refine System.run_keeps (I := Kept blake3 w keeper group.full_hash job) ?_ ?_ hrun
        · intro u label v hu hstep
          obtain ⟨halone, hstep'⟩ := System.guard_step.mp hstep
          exact hu.step hover hconsistent hfresh halias hhost hq hjob halone hstep'
        · refine ⟨?_, ?_, ?_, ?_⟩
          · rw [hinit.2]
            exact ⟨rfl, rfl, fun item hitem => hitem⟩
          · rw [hstart]
            exact KeepsBranches.refl w.fs
          · rw [hstart]
            exact KeepsBranches.refl w.fs
          · rw [hstart]
            exact keeper_intact_iff.mpr ⟨i, content, hlstat, hhash⟩
      rw [hover.keeper_path]
      exact hkept.intact

/-! ### Two rows of one host -/

/-- A file on a host, and a second row of the same content in another volume. -/
def two_rows (path : String) (inode : Int) : Tables where
  hosts := [⟨1, "nas", sample_action.host_id_ne⟩]
  volumes := [⟨1, "ext4"⟩, ⟨2, "ext4"⟩]
  entries := [
    { id := 11, host_id := 1, volume_id := 1, path := "/data/k", is_dir := false, present := true
      size_logical := 3, inode := 10, full_hash := some "9f" },
    { id := 12, host_id := 1, volume_id := 2, path, is_dir := false, present := true
      size_logical := 3, inode, full_hash := some "9f" }]
  groups := []
  next_group_id := 1
  hosts_key := by decide
  entries_key := by simp
  groups_key := two_host_tables.groups_key
  groups_below := two_host_tables.groups_below
  entry_host := by simp
  member_entry := by simp

/-- The rebuild suggests the first row. -/
def first_row : KeeperRule := fun _ _ => ⟨11, "oldest copy"⟩

def two_row_members (path : String) : List DupMember :=
  [⟨11, 1, 1, "/data/k", false⟩, ⟨12, 1, 2, path, false⟩]

/-- The host of `two_copies`. -/
def one_host : World := ⟨two_copies, fun _ => sample_dispatcher.process⟩

/-- The group of both. -/
def two_row_group (path : String) : DupGroup :=
  Catalogue.make_group {} first_row 1
    ((3, "9f"), [⟨11, 1, 1, "/data/k", 3, "9f", "ext4"⟩, ⟨12, 1, 2, path, 3, "9f", "ext4"⟩])

theorem two_row_group_mem (path : String) (inode : Int) :
    two_row_group path ∈ build_groups (two_rows path inode) {} first_row := by
  have hgroups : build_groups (two_rows path inode) {} first_row = [two_row_group path] := rfl
  rw [hgroups]
  exact List.mem_singleton.mpr rfl

theorem two_row_group_select (path : String) : (two_row_members path).Perm (two_row_group path).members := by
  have hnative : Catalogue.is_network_fs "ext4" = false := by decide
  rw [two_row_group, Catalogue.make_group]
  simp only [two_row_members, List.map_cons, List.map_nil, Catalogue.dup_member, hnative,
    List.Perm.refl]

theorem two_rows_load (path : String) (inode : Int) :
    load_group_members (rebuild (two_rows path inode) {} first_row) 1 (two_row_members path)
      ⟨true, [], []⟩ = .ok (two_row_group path,
        [⟨11, 1, 1, "/data/k", 10, 3⟩, ⟨12, 1, 2, path, inode, 3⟩]) := rfl

/-- A plan that keeps the first row. -/
theorem two_rows_build {path : String} {inode : Int} (h : validate_config_path path = .ok ()) :
    ∃ plan chain', orchestrator_build (fun _ => "9f") ⟨[], Fathom.Audit.GENESIS_HASH⟩
        sample_time "plan-1" [⟨11, 1, 1, "/data/k", 10, 3⟩, ⟨12, 1, 2, path, inode, 3⟩] 11
        (two_row_group path).full_hash "ops" .quarantine = .ok (plan, chain') ∧
      plan.plan_id = "plan-1" ∧ plan.keeper_path = "/data/k" ∧ plan.move_root = none ∧
      plan.items = [item_of_member "9f" .quarantine ⟨.int 12, path, inode, 3⟩] := by
  have hsafe : unsafe_member [⟨11, 1, 1, "/data/k", 10, 3⟩, ⟨12, 1, 2, path, inode, 3⟩] =
      none := by
    rw [unsafe_member, List.find?_eq_none]
    intro m hm
    rcases List.mem_cons.mp hm with rfl | hm
    · decide
    · rw [List.mem_singleton.mp hm, h]
      simp
  rw [orchestrator_build, hsafe]
  exact ⟨_, _, rfl, rfl, rfl, rfl, rfl⟩

/-- Both rows are true of the host when the second one's file is there. -/
theorem two_rows_consistent {path : String} {i : Inode} (hfile : names_directory path = false)
    (h : lstat two_copies sample_dispatcher.process path = .ok (i, .file ⟨#[1, 2, 3]⟩)) :
    Consistent (fun _ => "9f") (two_rows path i.ino) one_host := by
  intro e he _ _ hash hhash
  rcases List.mem_cons.mp he with rfl | he
  · exact ⟨by decide, ⟨1, 10⟩, _, rfl, rfl, rfl, Option.some.inj hhash⟩
  · rw [List.mem_singleton.mp he] at hhash ⊢
    exact ⟨hfile, i, _, h, rfl, rfl, Option.some.inj hhash⟩

theorem plan_one_fresh : FreshPlanId two_copies "plan-1" := by
  refine ⟨by decide, ?_⟩
  intro dir name i hi
  obtain ⟨entries, hdir, hname⟩ := FileSystem.entry_of_tables hi
  -- four names, of which none begins so
  have hnames : ∀ d ∈ [((⟨1, 2⟩ : Inode), [("data", (⟨1, 3⟩ : Inode)), ("q", ⟨1, 4⟩)]),
      (⟨1, 3⟩, [("k", ⟨1, 10⟩), ("a", ⟨1, 11⟩)])],
      ∀ e ∈ d.2, ¬("plan-1" ++ "__").toList <+: e.1.toList := by
    decide
  exact hnames _ hdir _ hname

/-! ### A copy in two volumes -/

/-- The job of the plan that keeps the first of two rows of `/data/k`. -/
def kept_file_job : ActionJob :=
  { second_copy_job with
    items := [item_of_member "9f" .quarantine ⟨.int 12, "/data/k", 10, 3⟩]
    items_ne := by decide }

def kept_file_start : Run where
  fs := two_copies
  chain := ⟨[], Fathom.Audit.GENESIS_HASH⟩
  log := []
  pc := .verifying false (plan_from_job kept_file_job) kept_file_job.items ⟨[]⟩

/-- The kept file is quarantined. -/
theorem kept_file_act :
    ∃ s, ((executing (fun _ => "9f") sample_dispatcher kept_file_job).guard alone).run
        kept_file_start (before_act ++ [.act no_faults sample_time sample_time]) = some s ∧
      keeper_intact (fun _ => "9f") sample_dispatcher.process s.fs "/data/k" "9f" = false :=
  ⟨_, rfl, rfl⟩

/-- A keeper that does not survive: its file is catalogued in two volumes. -/
theorem keeper_quarantined :
    ¬ ∀ (blake3 : ByteArray → String) (db : Tables) (scope : DedupScope) (rule : KeeperRule)
      (w : World) (group : DupGroup) (group_id : ℕ) (rows : List DupMember)
      (filter : ScopeFilter) (first : GroupMember) (rest : List GroupMember)
      (chain chain' : Fathom.Audit.AuditChain) (now : Fathom.Datetime.Timestamp)
      (plan_id subject : String) (keep_id : ℕ) (action : PlanAction) (plan : RemediationPlan)
      (keeper : FsEntryRow),
      group ∈ build_groups db scope rule → rows.Perm group.members →
      load_group_members (rebuild db scope rule) group_id rows filter =
        .ok (group, first :: rest) →
      orchestrator_build blake3 chain now plan_id (first :: rest) keep_id group.full_hash subject
        action = .ok (plan, chain') →
      db.get_entry keep_id = some keeper → Consistent blake3 db w →
      FreshPlanId w.fs plan_id →
      Survives blake3 db w keeper group.full_hash first.host_id plan := by
  intro h
  obtain ⟨plan, chain', hbuild, hid, hkeeper, hroot, hitems⟩ :=
    @two_rows_build "/data/k" 10 (by decide)
  have hsurvives := h _ _ _ _ one_host _ _ _ _ _ _ _ _ _ _ _ _ _ plan _
    (two_row_group_mem "/data/k" 10) (two_row_group_select "/data/k") (two_rows_load "/data/k" 10)
    hbuild rfl (@two_rows_consistent "/data/k" ⟨1, 10⟩ (by decide) rfl) plan_one_fresh
  obtain ⟨s, hrun, hgone⟩ := kept_file_act
  have hjob : JobOf plan kept_file_job := by
    refine ⟨hid.symm, hkeeper.symm, hroot.symm, ?_⟩
    rw [hitems]
    exact fun item hitem => hitem
  have hintact := hsurvives.kept sample_dispatcher kept_file_job ⟨⟨1, 4⟩, [⟨1, 2⟩]⟩ _
    kept_file_start s rfl rfl hjob ⟨rfl, rfl⟩ rfl hrun
  rw [hkeeper] at hintact
  exact absurd (hgone.symm.trans hintact) (by simp)

/-- A keeper that does: the second row is another file. -/
theorem keeper_survives_second_copy :
    ∃ plan keeper, Survives (fun _ => "9f") (two_rows "/data/a" 11) one_host keeper "9f" 1 plan ∧
      plan.items ≠ [] := by
  obtain ⟨plan, chain', hbuild, -⟩ := @two_rows_build "/data/a" 11 (by decide)
  refine ⟨plan, _, (keeper_survives (two_row_group_mem "/data/a" 11)
    (two_row_group_select "/data/a") (two_rows_load "/data/a" 11) hbuild rfl
    (@two_rows_consistent "/data/a" ⟨1, 11⟩ (by decide) rfl) plan_one_fresh).mpr ?_,
    plan.items_ne⟩
  intro e he _ _ _ hne
  rcases List.mem_cons.mp he with rfl | he
  · exact absurd rfl hne
  · rw [List.mem_singleton.mp he]
    rfl

end Fathom.Api
