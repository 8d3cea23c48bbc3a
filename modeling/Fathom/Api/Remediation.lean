/-
**The remediation routes** (`api/routers/remediation.py`): from a duplicate group
to a persisted plan, and from the plan to the signed jobs an agent receives.

A route is split at its `await`s on the agent. What an unordered `SELECT` returns
is an argument (`rows`, `items`), constrained to be the table's rows in some
order. A plan has one host, the host of the first row the group's `SELECT`
returned, and its items are every other member: `plans_single_host` says exactly
for which groups the two agree, and `two_host_plan` is a group for which they do
not.
-/
import Fathom.Catalogue.Dedup
import Fathom.Remediation.Orchestrator

set_option autoImplicit false

namespace Fathom.Api

open Fathom.Json (Value)
open Fathom.Datetime (Timestamp)
open Fathom.Audit (AuditChain AuditRecord)
open Fathom.Catalogue (Tables Host FsEntryRow DupGroup DupMember)
open Fathom.Remediation

/-! ## Requests and rows -/

/-- What a route raises. -/
inductive HttpError where
  /-- `HTTPException` -/
  | http (status : ℕ) (detail : String)
  /-- 422 with the text of a `ValueError` of the builder -/
  | plan (error : PlanError)
  /-- an exception no handler names: 500 -/
  | unhandled
  deriving DecidableEq

/-- `ScopeFilter`. -/
structure ScopeFilter where
  is_global : Bool
  host_ids : List ℕ
  volume_ids : List ℕ

/-- `ScopeFilter.check_target`, without the volume kind no remediation route passes. -/
def ScopeFilter.check_target (scope : ScopeFilter) (host_id : ℕ) (volume_id : Option ℕ) :
    Except HttpError Unit :=
  if scope.is_global then .ok ()
  else if volume_id.any fun v => scope.volume_ids.contains v then .ok ()
  else if scope.host_ids.contains host_id then .ok ()
  else .error (.http 403 "target out of scope")

/-- `BuildPlanRequest`. -/
structure BuildPlanRequest where
  group_id : ℕ
  keep_entry_id : ℕ
  action : PlanAction
  idempotency_key : Option String

/-- `RemediationPlanItemRow`. -/
structure PlanItemRow where
  entry_id : Int
  path : String
  prior_inode : Int
  prior_size : ℕ
  prior_hash : Option String
  action : String
  dest_rel : Option String
  deriving DecidableEq

/-- `RemediationPlanRow`. The column `host_id` holds the decimal text of the number. -/
structure PlanRow where
  plan_id : String
  created_by : String
  host_id : ℕ
  volume_id : Option ℕ
  keeper_path : String
  status : String
  blast_count : ℕ
  reclaimable_bytes : ℕ
  idempotency_key : Option String
  move_root : Option String
  items : List PlanItemRow
  deriving DecidableEq

/-! ## `_load_group_members` -/

/-- One member, scope-checked, with its prior state from the catalogue. -/
def load_group_member (db : Tables) (scope : ScopeFilter) (m : DupMember) :
    Except HttpError GroupMember :=
  match scope.check_target m.host_id (some m.volume_id) with
  | .error e => .error e
  | .ok _ =>
    match db.get_entry m.entry_id with
    | none => .error (.http 409
        ("catalogue entry " ++ toString m.entry_id ++ " missing (rescan required)"))
    | some entry => .ok {
        entry_id := m.entry_id, host_id := m.host_id, volume_id := m.volume_id
        path := entry.path, inode := entry.inode, size := entry.size_logical }

/-- `_load_group_members`, on the rows the `SELECT` of the members returned. -/
def load_group_members (db : Tables) (group_id : ℕ) (rows : List DupMember) (scope : ScopeFilter) :
    Except HttpError (DupGroup × List GroupMember) :=
  match db.get_group group_id with
  | none => .error (.http 404 "duplicate group not found")
  | some group =>
    if rows = [] then .error (.http 404 "group has no members")
    else
      match rows.mapM (load_group_member db scope) with
      | .error e => .error e
      | .ok members => .ok (group, members)

/-! ## `build_plan_route` -/

/-- The row of an item. -/
def item_row (item : PlanItem) : PlanItemRow where
  entry_id := match item.entry_id with | .int n => n | .str _ => 0
  path := item.path
  prior_inode := item.prior_inode
  prior_size := item.prior_size
  prior_hash := item.prior_hash
  action := item.action.value
  dest_rel := none

/-- The row of a plan over a group. -/
def plan_row (group : DupGroup) (target_host : ℕ) (subject : String) (key : Option String)
    (plan : RemediationPlan) : PlanRow where
  plan_id := plan.plan_id
  created_by := subject
  host_id := target_host
  volume_id := none
  keeper_path := plan.keeper_path
  status := "built"
  blast_count := plan.items.length
  reclaimable_bytes := group.size * plan.items.length
  idempotency_key := key
  move_root := none
  items := plan.items.map item_row

/-- What a request meets: the settings, the persisted plans, the catalogue, the
runtime if it is provisioned. -/
structure Server where
  remediation_enabled : Bool
  runtime : Option Orchestrator
  plans : List PlanRow
  db : Tables

/-- The plan an idempotency key stands for, of the same principal. -/
def existing_plan (server : Server) (subject : String) (key : Option String) : Option PlanRow :=
  match key with
  | none => none
  | some key => server.plans.find? fun row => row.idempotency_key = some key ∧ row.created_by = subject

section

variable (blake3 : ByteArray → String)

/-- `build_plan_route`: the plan's row, and the chain it staged its audit on when
the plan is new. -/
def build_plan_route (server : Server) (scope : ScopeFilter) (subject : String)
    (body : BuildPlanRequest) (rows : List DupMember) (chain : AuditChain) (now : Timestamp)
    (plan_id : String) : Except HttpError (PlanRow × Option AuditChain) :=
  if ¬server.remediation_enabled then
    .error (.http 403 "remediation is disabled (remediation_enabled=False)")
  else
    match existing_plan server subject body.idempotency_key with
    | some row =>
      match scope.check_target row.host_id row.volume_id with
      | .error e => .error e
      | .ok _ => .ok (row, none)
    | none =>
      match load_group_members server.db body.group_id rows scope with
      | .error e => .error e
      | .ok (group, members) =>
        if ¬members.any (fun m => m.entry_id = body.keep_entry_id) then
          .error (.http 422 "keep_entry_id is not a member of the group")
        else
          match server.runtime, members with
          | none, _ => .error (.http 503
              "remediation runtime not provisioned (no signing key / dispatch channel)")
          | some _, [] => .error .unhandled
          | some _, first :: _ =>
            match orchestrator_build blake3 chain now plan_id members body.keep_entry_id
                group.full_hash subject body.action with
            | .error e => .error (.plan e)
            | .ok (plan, chain') =>
              -- the flush: the key is unique across principals
              if body.idempotency_key.isSome ∧
                  server.plans.any (fun row => row.idempotency_key = body.idempotency_key) then
                .error (.http 409 "idempotency_key already in use")
              else
                .ok (plan_row group first.host_id subject body.idempotency_key plan, some chain')

/-! ## Dispatch -/

/-- The item of a row; `none` where `PlanAction(…)` raises. -/
def row_item (row : PlanItemRow) : Option PlanItem :=
  (PlanAction.of_value row.action).map fun action =>
    { entry_id := .int row.entry_id, path := row.path, prior_inode := row.prior_inode
      prior_size := row.prior_size, prior_hash := row.prior_hash, action
      dest_rel := row.dest_rel }

/-- `_domain_plan`, on the item rows the `SELECT` returned. -/
def domain_plan (row : PlanRow) (items : List PlanItemRow) : Option RemediationPlan :=
  match items.mapM row_item with
  | none => none
  | some items =>
    if h : row.plan_id ≠ "" ∧ row.created_by ≠ "" ∧ items ≠ [] then
      some { plan_id := row.plan_id, created_by := row.created_by, keeper_path := row.keeper_path
             items, move_root := row.move_root
             plan_id_ne := h.1, created_by_ne := h.2.1, items_ne := h.2.2 }
    else none

/-- `dry_run_route` up to its dispatch. -/
def dry_run_route (server : Server) (orch : Orchestrator) (scope : ScopeFilter) (row : PlanRow)
    (items : List PlanItemRow) (chain : AuditChain) (now : Timestamp) (nonce : String)
    (window : Window orch.job_ttl) : Except HttpError (SignedJob × AuditChain) :=
  if ¬server.remediation_enabled then
    .error (.http 403 "remediation is disabled (remediation_enabled=False)")
  else
    match scope.check_target row.host_id row.volume_id with
    | .error e => .error e
    | .ok _ =>
      match domain_plan row items with
      | none => .error .unhandled
      | some plan =>
        match server.db.get_host row.host_id with
        | none => .error (.http 409 "target host missing")
        | some host =>
          match dry_run_begin blake3 orch chain now plan host.name nonce window with
          | none => .error .unhandled
          | some dispatched => .ok dispatched

/-- `ExecuteRequest`. -/
structure ExecuteRequest where
  confirm_blast : Bool
  confirm_host : String

/-- What `classify_paths` says of the paths of a plan. -/
structure RiskSummary where
  risk_classes : List (String × Value)
  high_risk : Bool

/-- What `execute_route` holds on to across its dispatches. -/
structure Execution where
  plan : RemediationPlan
  host : Host
  confirm_blast : Bool

/-- `execute_route` up to the dispatch of its dry run: the gates, the
acknowledgement, the dry-run job. `casefold` is Python's `str.casefold`. -/
def execute_route_begin (casefold : List Char → List Char) (server : Server) (orch : Orchestrator)
    (scope : ScopeFilter) (subject : String) (body : ExecuteRequest) (row : PlanRow)
    (items : List PlanItemRow) (risk : RiskSummary) (chain : AuditChain) (now : Timestamp)
    (nonce : String) (window : Window orch.job_ttl) :
    Except HttpError (Execution × SignedJob × AuditChain) :=
  if ¬server.remediation_enabled then
    .error (.http 403 "remediation is disabled (remediation_enabled=False)")
  else
    match scope.check_target row.host_id row.volume_id with
    | .error e => .error e
    | .ok _ =>
      match server.db.get_host row.host_id with
      | none => .error (.http 409 "target host missing")
      | some host =>
        if casefold (Catalogue.strip body.confirm_host.toList) ≠
            casefold (Catalogue.strip host.name.toList) then
          .error (.http 422 "host confirmation does not match")
        else
          match domain_plan row items with
          | none => .error .unhandled
          | some plan =>
            let acknowledged := chain.append blake3 now subject "remediation.acknowledged"
              row.plan_id
              [("confirm_host", .str host.name), ("host_id", .str (toString row.host_id)),
                ("risk_classes", .obj risk.risk_classes), ("high_risk", .bool risk.high_risk),
                ("blast", .int items.length)] "acknowledged"
            match dry_run_begin blake3 orch acknowledged now plan host.name nonce window with
            | none => .error .unhandled
            | some (signed, chain') => .ok (⟨plan, host, body.confirm_blast⟩, signed, chain')

/-- `execute_route` from the dry-run report to the dispatch of the execute job. -/
def execute_route_execute (orch : Orchestrator) (execution : Execution) (report : VerifyReport)
    (chain : AuditChain) (now : Timestamp) (nonce : String) (window : Window orch.job_ttl) :
    ExecuteStart :=
  execute_begin blake3 orch (dry_run_end blake3 chain now execution.plan report) now
    execution.plan report execution.confirm_blast execution.host.name nonce window

end

/-! ## What the routes keep -/

variable {blake3 : ByteArray → String}

variable {server : Server} {scope : ScopeFilter} {subject : String} {body : BuildPlanRequest}
  {row : PlanRow} {plan : RemediationPlan} {rows : List DupMember} {group : DupGroup}
  {chain chain' : AuditChain}

theorem check_target_global (host_id : ℕ) (volume_id : Option ℕ) :
    ScopeFilter.check_target ⟨true, [], []⟩ host_id volume_id = .ok () := rfl

variable {db : Tables} {now : Timestamp} {orch : Orchestrator} {window : Window orch.job_ttl} {signed : SignedJob}
  {first : GroupMember} {rest : List GroupMember}

theorem load_group_member_spec {m : DupMember} {out : GroupMember} (h : load_group_member db scope m = .ok out) :
    ∃ entry, db.get_entry m.entry_id = some entry ∧ out.entry_id = m.entry_id ∧
      out.host_id = m.host_id ∧ out.volume_id = m.volume_id ∧ out.path = entry.path ∧
      out.inode = entry.inode ∧ out.size = entry.size_logical := by
  unfold load_group_member at h
  split at h
  · exact absurd h (by simp)
  · split at h
    · exact absurd h (by simp)
    · rename_i entry hentry
      rw [← Except.ok.inj h]
      exact ⟨entry, hentry, rfl, rfl, rfl, rfl, rfl, rfl⟩

/-- A loop that may raise, when it does not. -/
theorem mapM_ok_iff {α β ε : Type} {f : α → Except ε β} {xs : List α} {ys : List β} :
    xs.mapM f = .ok ys ↔ List.Forall₂ (fun x y => f x = .ok y) xs ys := by
  induction xs generalizing ys with
  | nil =>
      rw [List.mapM_nil, List.forall₂_nil_left_iff]
      exact ⟨fun h => (Except.ok.inj h).symm, fun h => by rw [h]; rfl⟩
  | cons x xs ih =>
      rw [List.mapM_cons, List.forall₂_cons_left_iff]
      rcases hx : f x with e | y
      · refine ⟨fun h => absurd h (by simp [bind, Except.bind]), ?_⟩
        rintro ⟨y, ys', hy, -, -⟩
        exact absurd hy (by simp)
      · rcases hxs : xs.mapM f with e | ys'
        · refine ⟨fun h => absurd h (by simp [bind, Except.bind]), ?_⟩
          rintro ⟨y', ys', -, htail, -⟩
          rw [← ih, hxs] at htail
          exact absurd htail (by simp)
        · constructor
          · intro h
            exact ⟨y, ys', rfl, ih.mp hxs, (Except.ok.inj h).symm⟩
          · rintro ⟨y', ys'', hy, htail, rfl⟩
            rw [← ih, hxs] at htail
            rw [← Except.ok.inj hy, ← Except.ok.inj htail]
            rfl

theorem forall₂_mem {α β : Type} {R : α → β → Prop} {xs : List α} {ys : List β} (h : List.Forall₂ R xs ys) :
    (∀ x ∈ xs, ∃ y ∈ ys, R x y) ∧ ∀ y ∈ ys, ∃ x ∈ xs, R x y := by
  induction h with
  | nil => exact ⟨by simp, by simp⟩
  | @cons x y xs ys hxy _ ih =>
      constructor
      · intro a ha
        rcases List.mem_cons.mp ha with rfl | hin
        · exact ⟨y, List.mem_cons_self .., hxy⟩
        · rcases ih.1 a hin with ⟨b, hb, hab⟩
          exact ⟨b, List.mem_cons_of_mem _ hb, hab⟩
      · intro b hb
        rcases List.mem_cons.mp hb with rfl | hin
        · exact ⟨x, List.mem_cons_self .., hxy⟩
        · rcases ih.2 b hin with ⟨a, ha, hab⟩
          exact ⟨a, List.mem_cons_of_mem _ ha, hab⟩

theorem load_group_members_spec {group_id : ℕ} {members : List GroupMember}
    (h : load_group_members db group_id rows scope = .ok (group, members)) :
    db.get_group group_id = some group ∧
      List.Forall₂ (fun m out => load_group_member db scope m = .ok out) rows members := by
  unfold load_group_members at h
  split at h
  · exact absurd h (by simp)
  · rename_i group' hgroup
    split_ifs at h
    split at h
    · exact absurd h (by simp)
    · rename_i members' hmap
      rcases Prod.mk.inj (Except.ok.inj h) with ⟨rfl, rfl⟩
      exact ⟨hgroup, mapM_ok_iff.mp hmap⟩

/-- A new plan: the group it was built over, its members and its row. -/
structure BuiltFrom (blake3 : ByteArray → String) (server : Server) (scope : ScopeFilter)
    (subject : String) (body : BuildPlanRequest) (rows : List DupMember) (row : PlanRow)
    (group : DupGroup) (first : GroupMember) (rest : List GroupMember) (plan : RemediationPlan) :
    Prop where
  runtime : ∃ orch, server.runtime = some orch
  enabled : server.remediation_enabled = true
  group_eq : server.db.get_group body.group_id = some group
  loaded : List.Forall₂ (fun m out => load_group_member server.db scope m = .ok out) rows
    (first :: rest)
  built : ∃ chain now plan_id chain', orchestrator_build blake3 chain now plan_id (first :: rest)
    body.keep_entry_id group.full_hash subject body.action = .ok (plan, chain')
  row_eq : row = plan_row group first.host_id subject body.idempotency_key plan

theorem build_plan_route_spec {plan_id : String}
    (h : build_plan_route blake3 server scope subject body rows chain now plan_id = .ok (row, some chain')) :
    ∃ group first rest plan, BuiltFrom blake3 server scope subject body rows row group first rest plan := by
  unfold build_plan_route at h
  by_cases henabled : ¬server.remediation_enabled = true
  · rw [if_pos henabled] at h
    exact absurd h (by simp)
  rw [if_neg henabled] at h
  split at h
  · -- a replayed key returns the plan built before
    split at h
    · exact absurd h (by simp)
    · exact absurd h (by simp)
  · split at h
    · exact absurd h (by simp)
    · rename_i group members hload
      rcases load_group_members_spec hload with ⟨hgroup, hloaded⟩
      split at h
      · exact absurd h (by simp)
      · split at h
        · exact absurd h (by simp)
        · exact absurd h (by simp)
        · rename_i orch first rest hruntime _
          split at h
          · exact absurd h (by simp)
          · rename_i plan chain'' hbuild
            split at h
            · exact absurd h (by simp)
            · rcases Prod.mk.inj (Except.ok.inj h) with ⟨hrow, -⟩
              exact ⟨group, first, rest, plan, ⟨orch, hruntime⟩, by simpa using henabled, hgroup,
                hloaded, ⟨_, _, _, _, hbuild⟩, hrow.symm⟩

/-- The items of a dedup plan survive the database. -/
theorem row_item_item_row {full_hash : String} {action : PlanAction} {m : GroupMember} :
    row_item (item_row (item_of_member full_hash action m.member)) =
      some (item_of_member full_hash action m.member) := by
  unfold row_item item_row item_of_member
  dsimp only
  rw [PlanAction.of_value_value]
  rfl

theorem domain_plan_spec {items : List PlanItemRow} (h : domain_plan row items = some plan) :
    items.mapM row_item = some plan.items ∧ plan.keeper_path = row.keeper_path ∧
      plan.plan_id = row.plan_id ∧ plan.move_root = row.move_root := by
  unfold domain_plan at h
  split at h
  · exact absurd h (by simp)
  · rename_i loaded hmap
    split_ifs at h
    rw [← Option.some.inj h]
    exact ⟨hmap, rfl, rfl, rfl⟩

/-- Rows loaded back are the items they were made of, whatever their order. -/
theorem mem_items_of_mapM {rows : List PlanItemRow} {items : List PlanItem}
    (h : rows.mapM row_item = some items) {item : PlanItem} : item ∈ items ↔ ∃ r ∈ rows, row_item r = some item := by
  induction rows generalizing items with
  | nil =>
      rw [List.mapM_nil] at h
      rw [← Option.some.inj h]
      simp
  | cons r rs ih =>
      rw [List.mapM_cons] at h
      rcases hr : row_item r with _ | x
      · rw [hr] at h
        exact absurd h (by simp)
      · rcases hrs : rs.mapM row_item with _ | xs
        · rw [hr, hrs] at h
          exact absurd h (by simp)
        · rw [hr, hrs] at h
          rw [← Option.some.inj h, List.mem_cons, ih hrs]
          constructor
          · rintro (rfl | ⟨r', hr', hitem⟩)
            · exact ⟨r, List.mem_cons_self .., hr⟩
            · exact ⟨r', List.mem_cons_of_mem _ hr', hitem⟩
          · rintro ⟨r', hmem, hitem⟩
            rcases List.mem_cons.mp hmem with rfl | hin
            · rw [hr, Option.some.injEq] at hitem
              exact Or.inl hitem.symm
            · exact Or.inr ⟨r', hin, hitem⟩

/-! ## One plan, one host -/

/-- The catalogue has the item's file on this host. -/
def AttributedTo (db : Tables) (item : PlanItem) (host_id : ℕ) : Prop :=
  ∃ entry ∈ db.entries, item.entry_id = .int entry.id ∧ item.path = entry.path ∧
    entry.host_id = host_id

/-- A job that some server state dispatches from a plan's row: by the dry-run
route, or by the execute route, which dispatches a dry run and then the act. The
server is whatever it has become since the plan was built. -/
inductive Dispatched (blake3 : ByteArray → String) (server : Server) (row : PlanRow) :
    SignedJob → Prop where
  | dry_run {orch : Orchestrator} {scope : ScopeFilter} {items : List PlanItemRow}
      {chain chain' : AuditChain} {now : Timestamp} {nonce : String}
      {window : Window orch.job_ttl} {signed : SignedJob}
      (hruntime : server.runtime = some orch) (hitems : items.Perm row.items)
      (hroute : dry_run_route blake3 server orch scope row items chain now nonce window =
        .ok (signed, chain')) : Dispatched blake3 server row signed
  | execute_dry_run {casefold : List Char → List Char} {orch : Orchestrator}
      {scope : ScopeFilter} {subject : String} {body : ExecuteRequest} {items : List PlanItemRow}
      {risk : RiskSummary} {chain chain' : AuditChain} {now : Timestamp} {nonce : String}
      {window : Window orch.job_ttl} {execution : Execution} {signed : SignedJob}
      (hruntime : server.runtime = some orch) (hitems : items.Perm row.items)
      (hroute : execute_route_begin blake3 casefold server orch scope subject body row items risk
        chain now nonce window = .ok (execution, signed, chain')) :
      Dispatched blake3 server row signed
  | execute {casefold : List Char → List Char} {orch : Orchestrator} {scope : ScopeFilter}
      {subject : String} {body : ExecuteRequest} {items : List PlanItemRow} {risk : RiskSummary}
      {chain chain' chain'' : AuditChain} {now now' : Timestamp} {nonce nonce' : String}
      {window window' : Window orch.job_ttl} {execution : Execution} {report : VerifyReport}
      {first signed : SignedJob}
      (hruntime : server.runtime = some orch) (hitems : items.Perm row.items)
      (hroute : execute_route_begin blake3 casefold server orch scope subject body row items risk
        chain now nonce window = .ok (execution, first, chain'))
      (hexecute : execute_route_execute blake3 orch execution report chain' now' nonce' window' =
        .dispatch signed chain'') : Dispatched blake3 server row signed

/-- What `dry_run_begin` signs is the whole plan. -/
theorem dry_run_begin_spec {host_id nonce : String}
    (h : dry_run_begin blake3 orch chain now plan host_id nonce window = some (signed, chain')) :
    ∃ job, signed = sign_job (.action job) orch.signer ∧ job.mode = .dry_run ∧
      job.host_id = host_id ∧ job.items = plan.items ∧
      chain' = chain.append blake3 now plan.created_by "remediation.dry_run.dispatch" plan.plan_id
        [("nonce", .str nonce), ("items", .int plan.items.length)] "dispatched" := by
  rcases Option.map_eq_some_iff.mp h with ⟨job, hjob, heq⟩
  rcases Prod.mk.inj heq with ⟨rfl, rfl⟩
  rcases make_job_spec hjob with ⟨-, hmode, hhost, -, -, hitems, -⟩
  exact ⟨job, rfl, hmode, hhost, hitems, rfl⟩

theorem dry_run_route_spec {items : List PlanItemRow} {nonce : String}
    (h : dry_run_route blake3 server orch scope row items chain now nonce window = .ok (signed, chain')) :
    ∃ plan host, domain_plan row items = some plan ∧ server.db.get_host row.host_id = some host ∧
      dry_run_begin blake3 orch chain now plan host.name nonce window = some (signed, chain') := by
  unfold dry_run_route at h
  split at h
  · exact absurd h (by simp)
  · split at h
    · exact absurd h (by simp)
    · split at h
      · exact absurd h (by simp)
      · rename_i plan hplan
        split at h
        · exact absurd h (by simp)
        · rename_i host hhost
          split at h
          · exact absurd h (by simp)
          · rename_i dispatched hbegin
            rw [Except.ok.injEq] at h
            rw [h] at hbegin
            exact ⟨plan, host, hplan, hhost, hbegin⟩

theorem execute_route_begin_spec {casefold : List Char → List Char} {body : ExecuteRequest} {items : List PlanItemRow}
    {risk : RiskSummary} {nonce : String} {execution : Execution}
    (h : execute_route_begin blake3 casefold server orch scope subject body row items risk chain
      now nonce window = .ok (execution, signed, chain')) : domain_plan row items = some execution.plan ∧
      server.db.get_host row.host_id = some execution.host ∧
      ∃ acknowledged, dry_run_begin blake3 orch acknowledged now execution.plan execution.host.name
        nonce window = some (signed, chain') := by
  unfold execute_route_begin at h
  split at h
  · exact absurd h (by simp)
  · split at h
    · exact absurd h (by simp)
    · split at h
      · exact absurd h (by simp)
      · rename_i host hhost
        split at h
        · exact absurd h (by simp)
        · split at h
          · exact absurd h (by simp)
          · rename_i plan hplan
            dsimp only at h
            split at h
            · exact absurd h (by simp)
            · rename_i signed' chain'' hbegin
              rcases Prod.mk.inj (Except.ok.inj h) with ⟨rfl, hrest⟩
              rcases Prod.mk.inj hrest with ⟨rfl, rfl⟩
              exact ⟨hplan, hhost, _, hbegin⟩

/-- Whatever is dispatched from a row goes to the row's host, with items of the
row. -/
theorem Dispatched.items (h : Dispatched blake3 server row signed) :
    ∃ job host, signed.job = .action job ∧ server.db.get_host row.host_id = some host ∧ job.host_id = host.name ∧
      ∀ item ∈ job.items, ∃ r ∈ row.items, row_item r = some item := by
  cases h with
  | dry_run hruntime hitems hroute =>
      rcases dry_run_route_spec hroute with ⟨plan, host, hplan, hhost, hbegin⟩
      rcases dry_run_begin_spec hbegin with ⟨job, rfl, -, hname, hjob, -⟩
      refine ⟨job, host, rfl, hhost, hname, fun item hitem => ?_⟩
      rw [hjob, mem_items_of_mapM (domain_plan_spec hplan).1] at hitem
      rcases hitem with ⟨r, hr, hri⟩
      exact ⟨r, hitems.mem_iff.mp hr, hri⟩
  | execute_dry_run hruntime hitems hroute =>
      rcases execute_route_begin_spec hroute with ⟨hplan, hhost, _, hbegin⟩
      rcases dry_run_begin_spec hbegin with ⟨job, rfl, -, hname, hjob, -⟩
      refine ⟨job, _, rfl, hhost, hname, fun item hitem => ?_⟩
      rw [hjob, mem_items_of_mapM (domain_plan_spec hplan).1] at hitem
      rcases hitem with ⟨r, hr, hri⟩
      exact ⟨r, hitems.mem_iff.mp hr, hri⟩
  | execute hruntime hitems hroute hexecute =>
      rcases execute_route_begin_spec hroute with ⟨hplan, hhost, -⟩
      rcases execute_begin_dispatch hexecute with ⟨job, rfl, -, hname, -, -, hjob, -⟩
      refine ⟨job, _, rfl, hhost, hname, fun item hitem => ?_⟩
      -- the act is on a part of what the dry run was on
      rw [hjob, live_items] at hitem
      have hin := (List.mem_filter.mp hitem).1
      rw [mem_items_of_mapM (domain_plan_spec hplan).1] at hin
      rcases hin with ⟨r, hr, hri⟩
      exact ⟨r, hitems.mem_iff.mp hr, hri⟩

/-- The items of a new plan are the members other than the keeper. -/
theorem BuiltFrom.items (h : BuiltFrom blake3 server scope subject body rows row group first rest plan)
    {item : PlanItem} :
    (∃ r ∈ row.items, row_item r = some item) ↔ ∃ m ∈ rows, ∃ out, load_group_member server.db scope m = .ok out ∧
        m.entry_id ≠ body.keep_entry_id ∧ item_of_member group.full_hash body.action out.member = item := by
  rcases h.built with ⟨_, _, _, _, hbuild⟩
  rw [h.row_eq, plan_row]
  constructor
  · rintro ⟨r, hr, hitem⟩
    rcases List.mem_map.mp hr with ⟨item', hitem', rfl⟩
    rcases (orchestrator_build_mem hbuild).mp hitem' with ⟨out, hout, hne, rfl⟩
    rw [row_item_item_row, Option.some.injEq] at hitem
    rcases (forall₂_mem h.loaded).2 out hout with ⟨m, hm, hload⟩
    refine ⟨m, hm, out, hload, ?_, hitem⟩
    rcases load_group_member_spec hload with ⟨_, -, hid, -⟩
    rw [← hid]
    exact hne
  · rintro ⟨m, hm, out, hload, hne, rfl⟩
    rcases (forall₂_mem h.loaded).1 m hm with ⟨out', hout', hload'⟩
    have hsame : out' = out := Except.ok.inj (hload'.symm.trans hload)
    rcases load_group_member_spec hload with ⟨_, -, hid, -⟩
    refine ⟨_, List.mem_map_of_mem ((orchestrator_build_mem hbuild).mpr
      ⟨out, by rw [← hsame]; exact hout', by rw [hid]; exact hne, rfl⟩), row_item_item_row⟩

/-- The catalogue has the file of a member on the member's host and on no other. -/
theorem attributed_iff {m : DupMember} {out : GroupMember} {full_hash : String} {action : PlanAction} {host_id : ℕ}
    (hgroup : group ∈ db.groups) (hm : m ∈ group.members) (hload : load_group_member db scope m = .ok out) :
    AttributedTo db (item_of_member full_hash action out.member) host_id ↔ m.host_id = host_id := by
  rcases load_group_member_spec hload with ⟨entry, hentry, hid, -, -, hpath, -⟩
  rcases Catalogue.get_entry_iff.mp hentry with ⟨hmem, heid⟩
  have hhost := (db.member_entry group hgroup m hm entry hmem heid).1
  constructor
  · rintro ⟨e, he, hei, -, rfl⟩
    have heq : out.entry_id = e.id := Int.ofNat.inj (EntryId.int.inj hei)
    have hsame : e = entry := by
      refine List.inj_on_of_nodup_map db.entries_key he hmem ?_
      rw [heid, ← hid, heq]
    rw [hsame, hhost]
  · intro hhid
    refine ⟨entry, hmem, ?_, hpath, by rw [← hhost, hhid]⟩
    rw [item_of_member, GroupMember.member, hid, heid]

/-- Rows made of items load back as these items. -/
theorem mapM_item_row {items : List PlanItem} (h : ∀ item ∈ items, row_item (item_row item) = some item) :
    (items.map item_row).mapM row_item = some items := by
  induction items with
  | nil => rfl
  | cons item items ih =>
      rw [List.map_cons, List.mapM_cons, h item (List.mem_cons_self ..),
        ih fun item hitem => h item (List.mem_cons_of_mem _ hitem)]
      rfl

/-- A new row is loaded back as the plan it was made of. -/
theorem BuiltFrom.domain_plan (h : BuiltFrom blake3 server scope subject body rows row group first rest plan) :
    domain_plan row row.items = some plan := by
  rcases h.built with ⟨_, _, _, _, hbuild⟩
  obtain ⟨-, hby, hroot, -⟩ := build_plan_spec (orchestrator_build_spec hbuild).2
  have hmap : (plan.items.map item_row).mapM row_item = some plan.items := by
    refine mapM_item_row fun item hitem => ?_
    rcases (orchestrator_build_mem hbuild).mp hitem with ⟨m, -, -, rfl⟩
    exact row_item_item_row
  rw [h.row_eq, plan_row, Api.domain_plan, hmap]
  dsimp only
  rw [dif_pos ⟨plan.plan_id_ne, by rw [← hby]; exact plan.created_by_ne, plan.items_ne⟩]
  rcases plan with ⟨plan_id, created_by, keeper_path, items, move_root, _, _, _⟩
  dsimp only at hby hroot
  subst hby hroot
  rfl

/-! ## The condition -/

/-- An orchestrator with the default TTL. -/
def sample_orchestrator : Orchestrator where
  signer := {
    key_id := "orchestrator", algorithm := "ed25519", signature := fun _ => "c2ln"
    key_id_ne := orchestrator_ne, algorithm_mem := sample_signed.algorithm_mem
    signature_ne := fun _ => sample_signed.signature_ne }
  blast_cap := 100
  job_ttl := 300

/-- Five minutes. -/
def sample_window : Window sample_orchestrator.job_ttl where
  issued_at := sample_time
  expires_at := sample_expiry
  ttl := sample_expiry_instant

/-- A new plan can be dispatched in full, as soon as its host is there. -/
theorem BuiltFrom.dispatched (h : BuiltFrom blake3 server scope subject body rows row group first rest plan)
    {host : Host} (hhost : server.db.get_host row.host_id = some host) : ∃ server' job, Dispatched blake3 server' row
      (sign_job (.action job) sample_orchestrator.signer) ∧ job.items = plan.items := by
  rcases h.built with ⟨chain, now, _, _, hbuild⟩
  rcases orchestrator_build_keeper hbuild with ⟨_, -, -, -, hkeeper⟩
  rcases make_job_ok .dry_run sample_window (by decide : 16 ≤ "0123456789abcdef".length)
    host.name_ne hkeeper with ⟨job, hjob⟩
  -- a principal with global scope asks for a dry run
  have hroute : dry_run_route blake3
      { server with runtime := some sample_orchestrator, remediation_enabled := true }
      sample_orchestrator ⟨true, [], []⟩ row row.items chain now "0123456789abcdef" sample_window =
      .ok (sign_job (.action job) sample_orchestrator.signer,
        chain.append blake3 now plan.created_by "remediation.dry_run.dispatch" plan.plan_id
          [("nonce", .str "0123456789abcdef"), ("items", .int plan.items.length)] "dispatched") := by
    rw [dry_run_route, if_neg (by simp), check_target_global]
    dsimp only
    rw [h.domain_plan, hhost]
    dsimp only
    rw [dry_run_begin, hjob]
    rfl
  exact ⟨{ server with runtime := some sample_orchestrator, remediation_enabled := true }, job,
    Dispatched.dry_run rfl (List.Perm.refl _) hroute, (make_job_spec hjob).2.2.2.2.2.1⟩

/-- Every job dispatched from the row acts on files the catalogue has on the row's
host, which is the host the job goes to. -/
def SingleHost (blake3 : ByteArray → String) (db : Tables) (row : PlanRow) : Prop :=
  ∀ server signed, Dispatched blake3 server row signed →
    ∃ job host, signed.job = .action job ∧ server.db.get_host row.host_id = some host ∧
      job.host_id = host.name ∧ ∀ item ∈ job.items, AttributedTo db item row.host_id

section

variable {server : Server} {scope : ScopeFilter} {subject : String} {body : BuildPlanRequest}
  {rows : List DupMember} {row : PlanRow} {group : DupGroup} {first : GroupMember}
  {rest : List GroupMember} {plan : RemediationPlan}

/-- The plan's host is the host of the first row. -/
theorem BuiltFrom.host_id (h : BuiltFrom blake3 server scope subject body rows row group first rest plan) :
    rows.head?.map DupMember.host_id = some row.host_id := by
  rw [h.row_eq]
  rcases rows with _ | ⟨m, ms⟩
  · exact absurd h.loaded (by simp)
  · rcases load_group_member_spec (List.forall₂_cons.mp h.loaded).1 with ⟨_, -, -, hhid, -⟩
    rw [plan_row, hhid]
    rfl

/-- The host of a new plan is in the catalogue. -/
theorem BuiltFrom.get_host (hselect : rows.Perm group.members)
    (h : BuiltFrom blake3 server scope subject body rows row group first rest plan) :
    ∃ host, server.db.get_host row.host_id = some host := by
  have hgroup := (Catalogue.get_group_iff.mp h.group_eq).1
  have hhead := h.host_id
  rcases rows with _ | ⟨m, ms⟩
  · exact absurd hhead (by simp)
  · have hm : m ∈ group.members := hselect.mem_iff.mp (List.mem_cons_self ..)
    rcases load_group_member_spec (List.forall₂_cons.mp h.loaded).1 with ⟨entry, hget, -⟩
    rcases Catalogue.get_entry_iff.mp hget with ⟨hentry, heid⟩
    rcases server.db.entry_host entry hentry with ⟨host, hhost, hid⟩
    refine ⟨host, Catalogue.get_host_iff.mpr ⟨hhost, ?_⟩⟩
    rw [hid, ← (server.db.member_entry group hgroup m hm entry hentry heid).1]
    exact Option.some.inj hhead

/-- The full dry run acts for every member, so it shows every member's host. -/
theorem BuiltFrom.hosts_eq (hselect : rows.Perm group.members)
    (h : BuiltFrom blake3 server scope subject body rows row group first rest plan)
    (hsingle : SingleHost blake3 server.db row) {m : DupMember} (hm : m ∈ rows)
    (hne : m.entry_id ≠ body.keep_entry_id) : m.host_id = row.host_id := by
  have hgroup := (Catalogue.get_group_iff.mp h.group_eq).1
  rcases (forall₂_mem h.loaded).1 m hm with ⟨out, hout, hload⟩
  rcases h.get_host hselect with ⟨host, hhost⟩
  rcases h.dispatched hhost with ⟨server', job, hdispatched, hitems⟩
  rcases hsingle server' _ hdispatched with ⟨job', host', hjob, -, -, hattr⟩
  rw [← DispatchJob.action.inj hjob, hitems] at hattr
  rcases h.built with ⟨_, _, _, _, hplan⟩
  have hitem : item_of_member group.full_hash body.action out.member ∈ plan.items := by
    refine (orchestrator_build_mem hplan).mpr ⟨out, hout, ?_, rfl⟩
    rcases load_group_member_spec hload with ⟨_, -, hid, -⟩
    rw [hid]
    exact hne
  exact (attributed_iff hgroup (hselect.mem_iff.mp hm) hload).mp (hattr _ hitem)

end

/-- **When a plan is single-host.** Every item of every job dispatched from a new
plan is a file the catalogue has on the plan's host, exactly when every member
other than the keeper lies on the host of the first row. -/
theorem plans_single_host {server : Server} {scope : ScopeFilter} {subject : String}
    {body : BuildPlanRequest} {rows : List DupMember} {chain chain' : AuditChain}
    {now : Timestamp} {plan_id : String} {row : PlanRow}
    (hselect : ∀ group, server.db.get_group body.group_id = some group →
      rows.Perm group.members)
    (hbuild : build_plan_route blake3 server scope subject body rows chain now plan_id =
      .ok (row, some chain')) :
    SingleHost blake3 server.db row ↔
      ∀ m ∈ rows, m.entry_id ≠ body.keep_entry_id →
        rows.head?.map DupMember.host_id = some m.host_id := by
  rcases build_plan_route_spec hbuild with ⟨group, first, rest, plan, hfrom⟩
  have hgroup := (Catalogue.get_group_iff.mp hfrom.group_eq).1
  have hperm := hselect group hfrom.group_eq
  have hhead := hfrom.host_id
  constructor
  · intro hsingle m hm hne
    rw [hhead, hfrom.hosts_eq hperm hsingle hm hne]
  · intro hall server' signed hdispatched
    rcases hdispatched.items with ⟨job, host, hjob, hhost, hname, hitems⟩
    refine ⟨job, host, hjob, hhost, hname, fun item hitem => ?_⟩
    rcases hfrom.items.mp (hitems item hitem) with ⟨m, hm, out, hload, hne, rfl⟩
    apply (attributed_iff hgroup (hperm.mem_iff.mp hm) hload).mpr
    have hmhost := hall m hm hne
    rw [hhead] at hmhost
    exact (Option.some.inj hmhost).symm

/-! ### A group on two hosts -/

/-- The same file on two hosts, under the same path. -/
def two_host_tables : Tables where
  hosts := [⟨1, "nas", sample_action.host_id_ne⟩, ⟨2, "web", by decide⟩]
  volumes := [⟨1, "ext4"⟩, ⟨2, "ext4"⟩]
  entries := [
    { id := 11, host_id := 1, volume_id := 1, path := "/data/a", is_dir := false, present := true
      size_logical := 3, inode := 42, full_hash := some "9f" },
    { id := 12, host_id := 2, volume_id := 2, path := "/data/a", is_dir := false, present := true
      size_logical := 3, inode := 77, full_hash := some "9f" }]
  groups := []
  next_group_id := 1
  hosts_key := by decide
  entries_key := by decide
  groups_key := by decide
  groups_below := by simp
  entry_host := by decide
  member_entry := by simp

/-- Core after a rebuild, ready to remediate. -/
def two_host_server : Server where
  remediation_enabled := true
  runtime := some sample_orchestrator
  plans := []
  db := Catalogue.rebuild two_host_tables {} fun _ _ => ⟨11, "oldest copy"⟩

def two_host_rows : List DupMember :=
  [⟨11, 1, 1, "/data/a", false⟩, ⟨12, 2, 2, "/data/a", false⟩]

/-- Keep the copy on the first host. -/
def keep_first : BuildPlanRequest := ⟨1, 11, .quarantine, none⟩

/-- Keep the copy on the second host. -/
def keep_second : BuildPlanRequest := ⟨1, 12, .quarantine, none⟩

/-- A plan on the first host, for this file. -/
def two_host_row (item : PlanItemRow) : PlanRow where
  plan_id := "plan-1"
  created_by := "ops"
  host_id := 1
  volume_id := none
  keeper_path := "/data/a"
  status := "built"
  blast_count := 1
  reclaimable_bytes := 3
  idempotency_key := none
  move_root := none
  items := [item]

/-- Keeping the first copy asks the first host for the path of the second. -/
theorem keep_first_build :
    ∃ chain', build_plan_route (fun _ => "") two_host_server ⟨true, [], []⟩ "ops" keep_first
      two_host_rows ⟨[], ""⟩ sample_time "plan-1" =
      .ok (two_host_row ⟨12, "/data/a", 77, 3, some "9f", "quarantine", none⟩, some chain') :=
  ⟨_, rfl⟩

theorem keep_second_build :
    ∃ chain', build_plan_route (fun _ => "") two_host_server ⟨true, [], []⟩ "ops" keep_second
      two_host_rows ⟨[], ""⟩ sample_time "plan-1" =
      .ok (two_host_row ⟨11, "/data/a", 42, 3, some "9f", "quarantine", none⟩, some chain') :=
  ⟨_, rfl⟩

/-- The rebuild made one group, of these two members. -/
theorem two_host_select (h : two_host_server.db.get_group 1 = some group) :
    two_host_rows.Perm group.members := by
  have hrows : (two_host_server.db.get_group 1).map DupGroup.members = some two_host_rows := rfl
  rw [h, Option.map_some, Option.some.injEq] at hrows
  rw [hrows]

/-- A plan that is not single-host: it keeps the first copy. -/
theorem two_host_plan :
    ¬∀ (server : Server) (scope : ScopeFilter) (subject : String) (body : BuildPlanRequest)
      (rows : List DupMember) (chain chain' : AuditChain) (now : Timestamp) (plan_id : String)
      (row : PlanRow),
      (∀ group, server.db.get_group body.group_id = some group → rows.Perm group.members) →
      build_plan_route (fun _ => "") server scope subject body rows chain now plan_id =
        .ok (row, some chain') → SingleHost (fun _ => "") server.db row := by
  intro h
  rcases keep_first_build with ⟨chain', hbuild⟩
  have hsingle := h _ _ _ _ _ _ _ _ _ _ (fun _ hgroup => two_host_select hgroup) hbuild
  rcases build_plan_route_spec hbuild with ⟨group, first, rest, plan, hfrom⟩
  have hhost := hfrom.hosts_eq (two_host_select hfrom.group_eq) hsingle
    (List.mem_cons_of_mem _ (List.mem_singleton.mpr rfl)) (by decide)
  exact absurd hhost (by decide)

/-- A plan that is: it keeps the second copy. -/
theorem plans_single_host_sample :
    SingleHost (fun _ => "") two_host_server.db
      (two_host_row ⟨11, "/data/a", 42, 3, some "9f", "quarantine", none⟩) := by
  rcases keep_second_build with ⟨chain', hbuild⟩
  exact (plans_single_host (fun _ hgroup => two_host_select hgroup) hbuild).mpr (by decide)

end Fathom.Api
