/-
**Plan builds under one key** (`api/routers/remediation.py`, `api/routers/organize.py`): the two
routes that build a plan, as transactions that run beside one another and beside other writers of
the audit table.

A build looks its key up among the plans that are committed, its own principal's only; finds
nothing, reads what its plan is made of and the head of the audit chain; and inserts the plan and
an audit row in one flush. The flush is refused when any unique column of either table is taken:
the key, the plan's id, the audit row's `prev_hash`. The handler around it answers every refusal
with the key.

The key space is one and the lookup does not ask which route built the plan, so the routes answer
with each other's plans. `idempotent_iff` says in which runs neither happens; that a key has one
plan, and a principal only its own, holds in every run.
-/
import Fathom.Api.Remediation
import Fathom.Audit.Store
import Fathom.Organize.Service
import Mathlib.Data.List.Pairwise

set_option autoImplicit false

namespace Fathom.Api

open Fathom.Datetime (Timestamp)
open Fathom.Audit (AuditChain AuditRecord AuditRow GENESIS_HASH clash last_row others owned
  row_from_record)
open Fathom.Catalogue (Tables DupMember)
open Fathom.Ingest (Volume)
open Fathom.Organize (ApprovedMove Joined MovePlanBuild OrganizePlanError build_move_plan)
open Fathom.Read (check_volume_in_scope rstrip)
open Fathom.Remediation
open Fathom.Security (normpath)

/-! ## Requests -/

/-- `OrganizePlanRequest`. -/
structure OrganizePlanRequest where
  volume_id : ℕ
  path : String
  moves : List ApprovedMove
  idempotency_key : Option String

/-- The routes that build a plan. -/
inductive Route where
  | dedup
  | organize
  deriving DecidableEq

/-- The body of a request. -/
inductive BuildBody where
  | dedup (body : BuildPlanRequest)
  | organize (body : OrganizePlanRequest)

/-- A request: the principal's subject and scope, and the body. -/
structure BuildCall where
  subject : String
  scope : Fathom.Auth.ScopeFilter
  body : BuildBody

def BuildCall.route (call : BuildCall) : Route :=
  match call.body with
  | .dedup _ => .dedup
  | .organize _ => .organize

def BuildCall.key (call : BuildCall) : Option String :=
  match call.body with
  | .dedup body => body.idempotency_key
  | .organize body => body.idempotency_key

/-- The scope, as the remediation routes use it. -/
def BuildCall.plan_scope (call : BuildCall) : ScopeFilter :=
  ⟨call.scope.is_global, call.scope.host_ids, call.scope.volume_ids⟩

/-- The route a plan was built by: `move_root` is NULL for dedup plans. -/
def PlanRow.route (row : PlanRow) : Route := if row.move_root.isSome then .organize else .dedup

/-- What a build is answered with instead of a plan. -/
inductive BuildError where
  | http (e : HttpError)
  /-- the exception of a scope filter -/
  | read (e : Fathom.Read.ReadError)
  /-- 422 with the text of an `OrganizePlanError` -/
  | organize (e : OrganizePlanError)
  /-- 409 `idempotency_key already in use` -/
  | key_in_use
  deriving DecidableEq

/-- What the routes are configured with. -/
structure Gates where
  organize_enabled : Bool
  remediation_enabled : Bool
  runtime : Option Orchestrator

/-- `_require_root_in_volume`. -/
def require_root_in_volume (path mountpoint : String) : Except BuildError String :=
  match Fathom.Security.validate_config_path path with
  | .error _ => .error (.http (.http 422 "folder path is not a safe absolute path"))
  | .ok normalised =>
    let root := normalised.chars
    let mount := normpath mountpoint.toList
    if root ≠ mount ∧ ¬rstrip mount ++ ['/'] <+: root then
      .error (.http (.http 422 "folder path is not within the selected volume"))
    else .ok (String.ofList root)

/-- A route up to its lookup; the volume is what the database has under the id, and the root of a
dedup build is none. -/
def begin_build (gates : Gates) (call : BuildCall) (volume : Option Volume) :
    Except BuildError String :=
  match call.body with
  | .dedup _ =>
    if ¬gates.remediation_enabled then
      .error (.http (.http 403 "remediation is disabled (remediation_enabled=False)"))
    else .ok ""
  | .organize body =>
    if ¬gates.organize_enabled then
      .error (.http (.http 403 "organize is disabled (organize_enabled=False)"))
    else if ¬gates.remediation_enabled then
      .error (.http (.http 403 "remediation is disabled (remediation_enabled=False)"))
    else if gates.runtime.isNone then
      .error (.http (.http 503
        "remediation runtime not provisioned (no signing key / dispatch channel)"))
    else
      match volume with
      | none => .error (.http (.http 404 "unknown volume"))
      | some volume =>
        match check_volume_in_scope volume (some call.scope) with
        | .error e => .error (.read e)
        | .ok _ => require_root_in_volume body.path volume.mountpoint

/-- The plan an idempotency key stands for, of the same principal. -/
def cached_plan (plans : List PlanRow) (call : BuildCall) : Option PlanRow :=
  call.key.bind fun key =>
    plans.find? fun row => row.idempotency_key = some key ∧ row.created_by = call.subject

/-- What a build reads of the catalogue: the group and the rows of its members, or the entries. -/
structure BuildReads where
  db : Tables
  members : List DupMember
  entries : List Joined

/-- The row of a plan of moves. -/
def organize_row (call : BuildCall) (volume_id : ℕ) (build : MovePlanBuild) : PlanRow where
  plan_id := build.plan.plan_id
  created_by := call.subject
  host_id := build.host_id
  volume_id := some volume_id
  keeper_path := build.plan.keeper_path
  status := "built"
  blast_count := build.plan.items.length
  reclaimable_bytes := build.total_bytes
  idempotency_key := call.key
  move_root := build.plan.move_root
  items := build.plan.items.map fun item => { item_row item with dest_rel := item.dest_rel }

section

variable (blake3 : ByteArray → String) (gates : Gates)

/-- A route from its lookup to its flush: the plan's row, and the records staged before it. -/
def build_row (call : BuildCall) (root : String) (reads : BuildReads) (head : String)
    (now : Timestamp) (plan_id : String) : Except BuildError (PlanRow × List AuditRecord) :=
  match call.body with
  | .dedup body =>
    match build_plan_route blake3 ⟨gates.remediation_enabled, gates.runtime, [], reads.db⟩
        call.plan_scope call.subject body reads.members ⟨[], head⟩ now plan_id with
    | .error e => .error (.http e)
    | .ok (row, chain) => .ok (row, chain.elim [] AuditChain.sink)
  | .organize body =>
    match build_move_plan reads.entries plan_id call.subject body.volume_id root body.moves
        (some call.scope) with
    | .error e => .error (.organize e)
    | .ok build =>
      let chain := AuditChain.append blake3 ⟨[], head⟩ now call.subject "organize.plan.build" plan_id
        [("root", (build.plan.move_root.map Json.Value.str).getD .null),
          ("blast", .int build.plan.items.length)] "built"
      .ok (organize_row call body.volume_id build, chain.sink)

/-! ## Transactions -/

/-- Where a request stands. -/
inductive BuildStage where
  | asked (root : String)
  | missed (root : String)
  /-- `session.add` -/
  | staged (row : PlanRow) (records : List AuditRecord)
  | flushed (row : PlanRow)

/-- An answer, and whether a plan held the key when it was given. -/
structure Answered where
  call : BuildCall
  response : Except BuildError PlanRow
  key_held : Bool

/-- The tables with the rows of open transactions, the requests, and the answers so far. -/
structure PlanStore where
  plans : List PlanRow
  pending_plans : List (ℕ × PlanRow)
  audits : List AuditRow
  pending_audits : List (ℕ × AuditRow)
  requests : ℕ → Option (BuildCall × BuildStage)
  answers : List Answered

/-- What can happen. Transactions are numbered; those that are no request's write audit rows. -/
inductive PlanLabel where
  /-- a request arrives; the volume its id stands for is read -/
  | start (tx : ℕ) (call : BuildCall) (volume : Option Volume)
  /-- the lookup of its key -/
  | lookup (tx : ℕ)
  /-- the reads, and the plan -/
  | build (tx : ℕ) (reads : BuildReads) (now : Timestamp) (plan_id : String)
  /-- the flush, with the sequence number its audit rows draw -/
  | flush (tx : ℕ) (seq : ℕ)
  /-- `IntegrityError` -/
  | conflict (tx : ℕ) (seq : ℕ)
  | commit (tx : ℕ)
  /-- any other failure -/
  | abort (tx : ℕ)
  /-- another writer inserts an audit row -/
  | audit (tx : ℕ) (row : AuditRow)

/-- Two plans that a constraint keeps apart. -/
def plan_clash (a b : PlanRow) : Bool :=
  a.plan_id = b.plan_id ∨ (a.idempotency_key.isSome ∧ a.idempotency_key = b.idempotency_key)

/-- A committed plan holds the key of a request. -/
def key_held (s : PlanStore) (call : BuildCall) : Bool :=
  call.key.isSome && s.plans.any fun row => row.idempotency_key = call.key

/-- The head `load_head` reads. -/
def PlanStore.load_head (s : PlanStore) (tx : ℕ) : String :=
  ((last_row (s.audits ++ owned tx s.pending_audits)).map AuditRow.row_hash).getD GENESIS_HASH

/-- The rows of some records, from a sequence number on. -/
def audit_rows (seq : ℕ) (records : List AuditRecord) : List AuditRow :=
  records.mapIdx fun k record => row_from_record (seq + k) record

/-- An insert of a plan and audit rows is refused by some rows of the tables. -/
def refused (plans : List PlanRow) (audits : List AuditRow) (row : PlanRow) (rows : List AuditRow) :
    Bool :=
  plans.any (plan_clash row) || rows.any fun new => audits.any (clash new)

def set_request (s : PlanStore) (tx : ℕ) (request : Option (BuildCall × BuildStage)) : PlanStore :=
  { s with requests := fun i => if i = tx then request else s.requests i }

/-- The end of a request that leaves nothing behind, with its answer. -/
def answer (s : PlanStore) (tx : ℕ) (call : BuildCall) (response : Except BuildError PlanRow) :
    PlanStore :=
  { set_request s tx none with
    pending_plans := others tx s.pending_plans
    pending_audits := others tx s.pending_audits
    answers := s.answers ++ [⟨call, response, key_held s call⟩] }

/-- A commit. -/
def commit_rows (s : PlanStore) (tx : ℕ) : PlanStore :=
  { s with
    plans := s.plans ++ owned tx s.pending_plans
    pending_plans := others tx s.pending_plans
    audits := s.audits ++ owned tx s.pending_audits
    pending_audits := others tx s.pending_audits }

/-- One step. -/
def plan_step (s : PlanStore) : PlanLabel → Option PlanStore
  | .start tx call volume =>
    match s.requests tx with
    | some _ => none
    | none =>
      match begin_build gates call volume with
      | .error e => some (answer s tx call (.error e))
      | .ok root => some (set_request s tx (some (call, .asked root)))
  | .lookup tx =>
    match s.requests tx with
    | some (call, .asked root) =>
      match cached_plan s.plans call with
      | none => some (set_request s tx (some (call, .missed root)))
      | some row =>
        match call.plan_scope.check_target row.host_id row.volume_id with
        | .error e => some (answer s tx call (.error (.http e)))
        | .ok _ => some (answer s tx call (.ok row))
    | _ => none
  | .build tx reads now plan_id =>
    match s.requests tx with
    | some (call, .missed root) =>
      match build_row blake3 gates call root reads (s.load_head tx) now plan_id with
      | .error e => some (answer s tx call (.error e))
      | .ok (row, records) => some (set_request s tx (some (call, .staged row records)))
    | _ => none
  | .flush tx seq =>
    match s.requests tx with
    | some (call, .staged row records) =>
      let rows := audit_rows seq records
      if refused (s.plans ++ s.pending_plans.map Prod.snd)
          (s.audits ++ s.pending_audits.map Prod.snd) row rows then none
      else
        some { set_request s tx (some (call, .flushed row)) with
          pending_plans := s.pending_plans ++ [(tx, row)]
          pending_audits := s.pending_audits ++ rows.map fun new => (tx, new) }
    | _ => none
  | .conflict tx seq =>
    match s.requests tx with
    | some (call, .staged row records) =>
      -- a row of another open transaction only makes the insert wait
      if refused s.plans s.audits row (audit_rows seq records) then
        some (answer s tx call (.error .key_in_use))
      else none
    | _ => none
  | .commit tx =>
    match s.requests tx with
    | some (call, .flushed row) =>
      some { commit_rows (set_request s tx none) tx with
        answers := s.answers ++ [⟨call, .ok row, key_held s call⟩] }
    | some _ => none
    | none => some (commit_rows s tx)
  | .abort tx =>
    match s.requests tx with
    | some (call, _) => some (answer s tx call (.error (.http .unhandled)))
    | none => some {
        s with
        pending_plans := others tx s.pending_plans
        pending_audits := others tx s.pending_audits }
  | .audit tx row =>
    if (s.requests tx).isSome ∨
        (s.audits ++ s.pending_audits.map Prod.snd).any (clash row) then none
    else some { s with pending_audits := s.pending_audits ++ [(tx, row)] }

/-- No plans, no records, no requests. -/
def no_plans : PlanStore := ⟨[], [], [], [], fun _ => none, []⟩

/-- Builds and audit writers, from the empty tables on. -/
def plan_builds : System PlanStore PlanLabel where
  init := fun s => s = no_plans
  step := plan_step blake3 gates

end

/-! ## Idempotence -/

/-- What the answers so far and the plans are promised to be. -/
structure IdempotentBuilds (s : PlanStore) : Prop where
  same_plan : ∀ a ∈ s.answers, ∀ b ∈ s.answers, ∀ row row' key, a.response = .ok row →
    b.response = .ok row' → a.call.route = b.call.route → a.call.subject = b.call.subject →
    a.call.key = some key → b.call.key = some key → row.plan_id = row'.plan_id
  one_plan : (s.plans.filterMap PlanRow.idempotency_key).Nodup
  own_plan : ∀ a ∈ s.answers, ∀ row, a.response = .ok row → row.created_by = a.call.subject
  own_route : ∀ a ∈ s.answers, ∀ row, a.response = .ok row → row.route = a.call.route
  key_in_use : ∀ a ∈ s.answers, a.response = .error .key_in_use → a.key_held = true

/-- The step does not go wrong: a lookup that finds a plan it may show finds one of its own route,
and a flush that meets a record on the head it has read, or a plan with its id, meets its key as
well. -/
def keeps_to_key (s : PlanStore) : PlanLabel → Prop
  | .lookup tx => ∀ call root row, s.requests tx = some (call, .asked root) →
      cached_plan s.plans call = some row →
      call.plan_scope.check_target row.host_id row.volume_id = .ok () → row.route = call.route
  | .conflict tx seq => ∀ call row records, s.requests tx = some (call, .staged row records) →
      (s.plans.any (fun plan => row.plan_id = plan.plan_id) = true ∨
        ((audit_rows seq records).any fun new => s.audits.any (clash new)) = true) →
      key_held s call = true
  | _ => True

variable {blake3 : ByteArray → String} {gates : Gates}

/-! ## What a build makes -/

/-- A plan is the one a request asks for. -/
structure Fits (call : BuildCall) (row : PlanRow) : Prop where
  created_by : row.created_by = call.subject
  key : row.idempotency_key = call.key
  route : row.route = call.route

variable {call : BuildCall} {row : PlanRow} {e : BuildError} {s : PlanStore} {label : PlanLabel}

theorem cached_plan_spec {plans : List PlanRow} (h : cached_plan plans call = some row) :
    row ∈ plans ∧ row.created_by = call.subject ∧ row.idempotency_key = call.key := by
  obtain ⟨key, hkey, hfind⟩ := Option.bind_eq_some_iff.mp h
  have hfound := List.find?_some hfind
  rw [decide_eq_true_eq] at hfound
  exact ⟨List.mem_of_find?_eq_some hfind, hfound.2, by rw [hfound.1, hkey]⟩

theorem build_row_fits {root : String} {reads : BuildReads} {head : String} {now : Timestamp} {plan_id : String}
    {records : List AuditRecord} (h : build_row blake3 gates call root reads head now plan_id = .ok (row, records)) :
    Fits call row := by
  unfold build_row at h
  split at h
  · rename_i body hbody
    have hkey : call.key = body.idempotency_key := by rw [BuildCall.key, hbody]
    have hroute : call.route = .dedup := by rw [BuildCall.route, hbody]
    split at h
    · exact absurd h (by simp)
    · rename_i row' chain hbuilt
      obtain ⟨rfl, -⟩ := Prod.mk.inj (Except.ok.inj h)
      cases chain with
      | none =>
          -- with no plans there is none to replay
          have hnone : ∀ key, existing_plan ⟨gates.remediation_enabled, gates.runtime, [], reads.db⟩
              call.subject key = none := by
            intro key
            cases key with
            | none => rfl
            | some key => rfl
          unfold build_plan_route at hbuilt
          rw [hnone] at hbuilt
          dsimp only at hbuilt
          split at hbuilt
          · exact absurd hbuilt (by simp)
          · split at hbuilt
            · exact absurd hbuilt (by simp)
            · split at hbuilt
              · exact absurd hbuilt (by simp)
              · split at hbuilt
                · exact absurd hbuilt (by simp)
                · exact absurd hbuilt (by simp)
                · split at hbuilt
                  · exact absurd hbuilt (by simp)
                  · split at hbuilt
                    · exact absurd hbuilt (by simp)
                    · exact absurd hbuilt (by simp)
      | some chain =>
          obtain ⟨group, first, rest, plan, hfrom⟩ := build_plan_route_spec hbuilt
          rw [hfrom.row_eq]
          exact ⟨rfl, hkey.symm, hroute.symm⟩
  · rename_i body hbody
    have hroute : call.route = .organize := by rw [BuildCall.route, hbody]
    split at h
    · exact absurd h (by simp)
    · rename_i build hbuild
      obtain ⟨rfl, -⟩ := Prod.mk.inj (Except.ok.inj h)
      obtain ⟨hmove, -⟩ := Fathom.Organize.build_move_plan_spec hbuild
      refine ⟨rfl, rfl, ?_⟩
      rw [hroute, PlanRow.route, organize_row, hmove]
      rfl

theorem build_row_error {root : String} {reads : BuildReads} {head : String} {now : Timestamp} {plan_id : String}
    (h : build_row blake3 gates call root reads head now plan_id = .error e) : e ≠ .key_in_use := by
  unfold build_row at h
  split at h
  · split at h
    · rw [← Except.error.inj h]
      simp
    · exact absurd h (by simp)
  · split at h
    · rw [← Except.error.inj h]
      simp
    · exact absurd h (by simp)

theorem begin_build_error {volume : Option Volume} (h : begin_build gates call volume = .error e) :
    e ≠ .key_in_use := by
  have hroot : ∀ {path mountpoint e}, require_root_in_volume path mountpoint = .error e →
      e ≠ .key_in_use := by
    intro path mountpoint e hroot
    unfold require_root_in_volume at hroot
    split at hroot
    · rw [← Except.error.inj hroot]
      simp
    · dsimp only at hroot
      split at hroot
      · rw [← Except.error.inj hroot]
        simp
      · exact absurd hroot (by simp)
  unfold begin_build at h
  split at h
  · split at h
    · rw [← Except.error.inj h]
      simp
    · exact absurd h (by simp)
  · split at h
    · rw [← Except.error.inj h]
      simp
    · split at h
      · rw [← Except.error.inj h]
        simp
      · split at h
        · rw [← Except.error.inj h]
          simp
        · split at h
          · rw [← Except.error.inj h]
            simp
          · split at h
            · rw [← Except.error.inj h]
              simp
            · exact hroot h

/-! ## What holds in every run -/

/-- The tables keep their constraints, and every plan that is staged, flushed or answered with is
one its request asks for. -/
structure PlanInv (s : PlanStore) : Prop where
  apart : (s.plans ++ s.pending_plans.map Prod.snd).Pairwise fun a b => plan_clash a b = false
  answered : ∀ a ∈ s.answers, ∀ row, a.response = .ok row →
    row ∈ s.plans ∧ row.created_by = a.call.subject ∧ row.idempotency_key = a.call.key
  staged : ∀ tx call row records, s.requests tx = some (call, .staged row records) → Fits call row
  flushed : ∀ tx call row, s.requests tx = some (call, .flushed row) →
    (tx, row) ∈ s.pending_plans ∧ Fits call row

theorem plan_clash_symm {a b : PlanRow} (h : plan_clash a b = false) : plan_clash b a = false := by
  rw [plan_clash, decide_eq_false_iff_not, not_or] at h ⊢
  refine ⟨fun heq => h.1 heq.symm, ?_⟩
  rintro ⟨hsome, heq⟩
  rw [heq] at hsome
  exact h.2 ⟨hsome, heq.symm⟩

theorem requests_set (s : PlanStore) (tx tx' : ℕ) (r : Option (BuildCall × BuildStage)) :
    (set_request s tx r).requests tx' = if tx' = tx then r else s.requests tx' := rfl

/-- A request whose stage is neither of the two that carry a plan. -/
theorem PlanInv.set_request (h : PlanInv s) (tx : ℕ) {r : Option (BuildCall × BuildStage)}
    (hstaged : ∀ call row records, r = some (call, .staged row records) → Fits call row)
    (hflushed : ∀ call row, r ≠ some (call, .flushed row)) : PlanInv (set_request s tx r) := by
  refine ⟨h.apart, h.answered, fun tx' call row records hreq => ?_, fun tx' call row hreq => ?_⟩
  · rw [requests_set] at hreq
    split_ifs at hreq
    · exact hstaged call row records hreq
    · exact h.staged tx' call row records hreq
  · rw [requests_set] at hreq
    split_ifs at hreq
    · exact absurd hreq (hflushed call row)
    · exact h.flushed tx' call row hreq

theorem others_sublist {α : Type} (tx : ℕ) (rows : List (ℕ × α)) :
    List.Sublist (others tx rows) rows := List.filter_sublist

theorem mem_others {α : Type} {tx tx' : ℕ} {rows : List (ℕ × α)} {row : α} (hne : tx' ≠ tx) :
    (tx', row) ∈ others tx rows ↔ (tx', row) ∈ rows := by
  rw [others, List.mem_filter]
  simp [hne]

/-- What a request has put in the table is not of a transaction that has none. -/
theorem PlanInv.flushed_other (h : PlanInv s) {tx tx' : ℕ} (hnone : s.requests tx = none)
    (hreq : s.requests tx' = some (call, .flushed row)) : (tx', row) ∈ others tx s.pending_plans ∧ Fits call row := by
  obtain ⟨hmem, hfits⟩ := h.flushed tx' call row hreq
  refine ⟨(mem_others ?_).mpr hmem, hfits⟩
  rintro rfl
  rw [hnone] at hreq
  exact absurd hreq (by simp)

/-- A request that ends and leaves nothing. -/
theorem PlanInv.answer (h : PlanInv s) (tx : ℕ) (call : BuildCall) {response : Except BuildError PlanRow}
    (hresponse : ∀ row, response = .ok row →
      row ∈ s.plans ∧ row.created_by = call.subject ∧ row.idempotency_key = call.key) :
    PlanInv (answer s tx call response) := by
  have hset := h.set_request tx (r := none) (by simp) (by simp)
  refine ⟨?_, ?_, hset.staged, fun tx' call' row hreq => ?_⟩
  · exact h.apart.sublist ((List.Sublist.refl _).append ((others_sublist tx _).map Prod.snd))
  · intro a ha row hrow
    obtain hold | hnew := List.mem_append.mp ha
    · exact h.answered a hold row hrow
    · rw [List.mem_singleton.mp hnew] at hrow ⊢
      exact hresponse row hrow
  · have hreq' : (Api.set_request s tx none).requests tx' = some (call', .flushed row) := hreq
    obtain ⟨hmem, hfits⟩ := hset.flushed tx' call' row hreq'
    rw [requests_set] at hreq'
    split_ifs at hreq' with heq
    exact ⟨(mem_others heq).mpr hmem, hfits⟩

/-- A commit moves rows from the open to the committed. -/
theorem commit_perm {α : Type} (tx : ℕ) (plans : List α) (pending : List (ℕ × α)) :
    (plans ++ owned tx pending ++ (others tx pending).map Prod.snd).Perm (plans ++ pending.map Prod.snd) := by
  rw [List.append_assoc]
  refine List.Perm.append_left plans ?_
  rw [owned, others, ← List.map_append]
  refine List.Perm.map Prod.snd ?_
  have hperm := List.filter_append_perm (fun p : ℕ × α => decide (p.1 = tx)) pending
  have hother : pending.filter (fun p => decide (p.1 ≠ tx)) =
      pending.filter (fun p => !decide (p.1 = tx)) := by
    apply List.filter_congr
    intro p _
    simp
  rw [hother]
  exact hperm

theorem commit_apart {plans : List PlanRow} {pending : List (ℕ × PlanRow)} (tx : ℕ)
    (h : (plans ++ pending.map Prod.snd).Pairwise fun a b => plan_clash a b = false) :
    (plans ++ owned tx pending ++ (others tx pending).map Prod.snd).Pairwise
      fun a b => plan_clash a b = false :=
  (List.Perm.pairwise_iff (fun hab => plan_clash_symm hab) (commit_perm tx plans pending)).mpr h

theorem plan_inv_step {t : PlanStore} (h : PlanInv s) (hstep : plan_step blake3 gates s label = some t) :
    PlanInv t := by
  cases label with
  | start tx call volume =>
      simp only [plan_step] at hstep
      split at hstep
      · exact absurd hstep (by simp)
      · split at hstep
        · rw [← Option.some.inj hstep]
          exact h.answer tx call (by simp)
        · rw [← Option.some.inj hstep]
          exact h.set_request tx (by simp) (by simp)
  | lookup tx =>
      simp only [plan_step] at hstep
      split at hstep
      · rename_i call root hreq
        split at hstep
        · rw [← Option.some.inj hstep]
          exact h.set_request tx (by simp) (by simp)
        · rename_i row hcached
          split at hstep
          · rw [← Option.some.inj hstep]
            exact h.answer tx call (by simp)
          · rw [← Option.some.inj hstep]
            refine h.answer tx call fun row' hrow' => ?_
            rw [← Except.ok.inj hrow']
            exact cached_plan_spec hcached
      · exact absurd hstep (by simp)
  | build tx reads now plan_id =>
      simp only [plan_step] at hstep
      split at hstep
      · rename_i call root hreq
        split at hstep
        · rw [← Option.some.inj hstep]
          exact h.answer tx call (by simp)
        · rename_i row records hbuild
          rw [← Option.some.inj hstep]
          refine h.set_request tx (fun call' row' records' heq => ?_) (by simp)
          obtain ⟨rfl, hstage⟩ := Prod.mk.inj (Option.some.inj heq)
          obtain ⟨rfl, -⟩ := BuildStage.staged.inj hstage
          exact build_row_fits hbuild
      · exact absurd hstep (by simp)
  | flush tx seq =>
      simp only [plan_step] at hstep
      split at hstep
      · rename_i call row records hreq
        split at hstep
        · exact absurd hstep (by simp)
        · rename_i hfree
          rw [← Option.some.inj hstep]
          have hfits := h.staged tx call row records hreq
          rw [Bool.not_eq_true, refused, Bool.or_eq_false_iff, List.any_eq_false] at hfree
          refine ⟨?_, h.answered, fun tx' call' row' records' hreq' => ?_, fun tx' call' row' hreq' => ?_⟩
          · have hnew : ∀ a ∈ s.plans ++ s.pending_plans.map Prod.snd, plan_clash a row = false := by
              intro a ha
              exact plan_clash_symm (by simpa using hfree.1 a ha)
            dsimp only
            rw [List.map_append, ← List.append_assoc, List.pairwise_append]
            refine ⟨h.apart, List.pairwise_singleton _ _, fun a ha b hb => ?_⟩
            rw [List.map_singleton, List.mem_singleton] at hb
            rw [hb]
            exact hnew a ha
          · have hset : (set_request s tx (some (call, .flushed row))).requests tx' =
                some (call', .staged row' records') := hreq'
            rw [requests_set] at hset
            split_ifs at hset
            · exact absurd (Prod.mk.inj (Option.some.inj hset)).2 (by simp)
            · exact h.staged tx' call' row' records' hset
          · have hset : (set_request s tx (some (call, .flushed row))).requests tx' =
                some (call', .flushed row') := hreq'
            rw [requests_set] at hset
            split_ifs at hset with heq
            · obtain ⟨rfl, hstage⟩ := Prod.mk.inj (Option.some.inj hset)
              obtain rfl := BuildStage.flushed.inj hstage
              rw [heq]
              exact ⟨List.mem_append_right _ List.mem_cons_self, hfits⟩
            · obtain ⟨hmem, hfits'⟩ := h.flushed tx' call' row' hset
              exact ⟨List.mem_append_left _ hmem, hfits'⟩
      · exact absurd hstep (by simp)
  | conflict tx seq =>
      simp only [plan_step] at hstep
      split at hstep
      · rename_i call row records hreq
        split at hstep
        · rw [← Option.some.inj hstep]
          exact h.answer tx call (by simp)
        · exact absurd hstep (by simp)
      · exact absurd hstep (by simp)
  | commit tx =>
      have hplans : ∀ row ∈ s.plans, row ∈ s.plans ++ owned tx s.pending_plans :=
        fun row hrow => List.mem_append_left _ hrow
      simp only [plan_step] at hstep
      split at hstep
      · rename_i call row hreq
        obtain ⟨hmem, hfits⟩ := h.flushed tx call row hreq
        have hset := h.set_request tx (r := none) (by simp) (by simp)
        rw [← Option.some.inj hstep]
        refine ⟨commit_apart tx h.apart, fun a ha row' hrow' => ?_, hset.staged,
          fun tx' call' row' hreq' => ?_⟩
        · obtain hold | hnew := List.mem_append.mp ha
          · obtain ⟨hin, hrest⟩ := h.answered a hold row' hrow'
            exact ⟨hplans row' hin, hrest⟩
          · rw [List.mem_singleton.mp hnew] at hrow' ⊢
            obtain rfl := Except.ok.inj hrow'
            refine ⟨List.mem_append_right _ ?_, hfits.created_by, hfits.key⟩
            exact List.mem_map.mpr ⟨(tx, row), List.mem_filter.mpr ⟨hmem, by simp⟩, rfl⟩
        · have hreq'' : (set_request s tx none).requests tx' = some (call', .flushed row') := hreq'
          obtain ⟨hmem', hfits'⟩ := hset.flushed tx' call' row' hreq''
          rw [requests_set] at hreq''
          split_ifs at hreq'' with heq
          exact ⟨(mem_others heq).mpr hmem', hfits'⟩
      · exact absurd hstep (by simp)
      · rename_i hreq
        rw [← Option.some.inj hstep]
        refine ⟨commit_apart tx h.apart, fun a ha row' hrow' => ?_, h.staged,
          fun tx' call' row' hreq' => ?_⟩
        · obtain ⟨hin, hrest⟩ := h.answered a ha row' hrow'
          exact ⟨hplans row' hin, hrest⟩
        · exact h.flushed_other hreq hreq'
  | abort tx =>
      simp only [plan_step] at hstep
      split at hstep
      · rename_i call stage hreq
        rw [← Option.some.inj hstep]
        exact h.answer tx call (by simp)
      · rename_i hreq
        rw [← Option.some.inj hstep]
        refine ⟨?_, h.answered, h.staged, fun tx' call' row' hreq' => ?_⟩
        · exact h.apart.sublist ((List.Sublist.refl _).append ((others_sublist tx _).map Prod.snd))
        · exact h.flushed_other hreq hreq'
  | audit tx row =>
      simp only [plan_step] at hstep
      split at hstep
      · exact absurd hstep (by simp)
      · rw [← Option.some.inj hstep]
        exact ⟨h.apart, h.answered, h.staged, h.flushed⟩

theorem no_plans_inv : PlanInv no_plans where
  apart := List.Pairwise.nil
  answered := fun a ha => absurd ha List.not_mem_nil
  staged := fun tx call row records h => absurd h (by simp [no_plans])
  flushed := fun tx call row h => absurd h (by simp [no_plans])

/-! ## What can go wrong -/

/-- An answer is of its own route, or speaks of a key that is held. -/
def AnsweredWell (a : Answered) : Prop :=
  (∀ row, a.response = .ok row → row.route = a.call.route) ∧
    (a.response = .error .key_in_use → a.key_held = true)

theorem answered_error {held : Bool} (h : e ≠ .key_in_use) : AnsweredWell ⟨call, .error e, held⟩ :=
  ⟨fun row hrow => absurd hrow (by simp), fun heq => absurd (Except.error.inj heq) h⟩

/-- A key stands for one of the plans. -/
theorem PlanInv.key_unique (h : PlanInv s) {row' : PlanRow} {key : String} (hrow : row ∈ s.plans)
    (hrow' : row' ∈ s.plans) (hkey : row.idempotency_key = some key) (hkey' : row'.idempotency_key = some key) :
    row = row' := by
  have hsymm : Std.Symm fun a b : PlanRow => plan_clash a b = false :=
    ⟨fun _ _ hab => plan_clash_symm hab⟩
  have hplans := h.apart.sublist (List.sublist_append_left s.plans _)
  by_contra hne
  have hclash := hplans.forall hrow hrow' hne
  rw [plan_clash, decide_eq_false_iff_not, not_or] at hclash
  exact hclash.2 ⟨by rw [hkey]; rfl, by rw [hkey, hkey']⟩

theorem PlanInv.one_plan (h : PlanInv s) : (s.plans.filterMap PlanRow.idempotency_key).Nodup := by
  have hplans := h.apart.sublist (List.sublist_append_left s.plans _)
  rw [List.Nodup, List.pairwise_filterMap]
  refine hplans.imp fun {row row'} hclash => ?_
  rintro key hkey key' hkey' rfl
  rw [plan_clash, decide_eq_false_iff_not, not_or] at hclash
  exact hclash.2 ⟨by rw [hkey]; rfl, by rw [hkey, hkey']⟩

/-- One plan for a key and one principal for a plan hold anyhow. -/
theorem PlanInv.good_iff (h : PlanInv s) : IdempotentBuilds s ↔ ∀ a ∈ s.answers, AnsweredWell a := by
  constructor
  · intro hgood a ha
    exact ⟨hgood.own_route a ha, hgood.key_in_use a ha⟩
  · intro hwell
    refine ⟨?_, h.one_plan, fun a ha row hrow => (h.answered a ha row hrow).2.1,
      fun a ha => (hwell a ha).1, fun a ha => (hwell a ha).2⟩
    intro a ha b hb row row' key hrow hrow' _ _ hkey hkey'
    obtain ⟨hin, -, hsame⟩ := h.answered a ha row hrow
    obtain ⟨hin', -, hsame'⟩ := h.answered b hb row' hrow'
    rw [h.key_unique hin hin' (hsame.trans hkey) (hsame'.trans hkey')]

/-- What a step adds to the answers: nothing, or an answer that is as it should be exactly when the
step keeps to the key. -/
theorem answers_step {t : PlanStore} (h : PlanInv s) (hstep : plan_step blake3 gates s label = some t) :
    (t.answers = s.answers ∧ keeps_to_key s label) ∨
      ∃ a, t.answers = s.answers ++ [a] ∧ (AnsweredWell a ↔ keeps_to_key s label) := by
  cases label with
  | start tx call volume =>
      simp only [plan_step] at hstep
      split at hstep
      · exact absurd hstep (by simp)
      · split at hstep
        · rename_i e hbegin
          rw [← Option.some.inj hstep]
          exact Or.inr ⟨_, rfl, iff_of_true (answered_error (begin_build_error hbegin)) trivial⟩
        · rw [← Option.some.inj hstep]
          exact Or.inl ⟨rfl, trivial⟩
  | lookup tx =>
      simp only [plan_step] at hstep
      split at hstep
      · rename_i call root hreq
        -- the request the step is about is this one
        have hkeeps : keeps_to_key s (.lookup tx) ↔ ∀ row, cached_plan s.plans call = some row →
            call.plan_scope.check_target row.host_id row.volume_id = .ok () →
            row.route = call.route := by
          constructor
          · intro hall row hcached
            exact hall call root row hreq hcached
          · intro hall call' root' row hreq' hcached
            rw [hreq, Option.some.injEq] at hreq'
            obtain rfl := (Prod.mk.inj hreq').1
            exact hall row hcached
        rw [hkeeps]
        split at hstep
        · rename_i hnone
          rw [← Option.some.inj hstep]
          refine Or.inl ⟨rfl, fun row hcached => ?_⟩
          rw [hnone] at hcached
          exact absurd hcached (by simp)
        · rename_i row hcached
          split at hstep
          · rename_i e hscope
            rw [← Option.some.inj hstep]
            refine Or.inr ⟨_, rfl, iff_of_true (answered_error (by simp)) fun row' hcached' hok => ?_⟩
            rw [hcached, Option.some.injEq] at hcached'
            rw [← hcached', hscope] at hok
            exact absurd hok (by simp)
          · rename_i hscope
            rw [← Option.some.inj hstep]
            refine Or.inr ⟨_, rfl, ?_⟩
            constructor
            · intro hwell row' hcached' _
              rw [hcached, Option.some.injEq] at hcached'
              rw [← hcached']
              exact hwell.1 row rfl
            · intro hall
              refine ⟨fun row' hrow' => ?_, fun heq => absurd heq (by simp)⟩
              rw [← Except.ok.inj hrow']
              exact hall row hcached hscope
      · exact absurd hstep (by simp)
  | build tx reads now plan_id =>
      simp only [plan_step] at hstep
      split at hstep
      · split at hstep
        · rename_i e hbuild
          rw [← Option.some.inj hstep]
          exact Or.inr ⟨_, rfl, iff_of_true (answered_error (build_row_error hbuild)) trivial⟩
        · rw [← Option.some.inj hstep]
          exact Or.inl ⟨rfl, trivial⟩
      · exact absurd hstep (by simp)
  | flush tx seq =>
      simp only [plan_step] at hstep
      split at hstep
      · split at hstep
        · exact absurd hstep (by simp)
        · rw [← Option.some.inj hstep]
          exact Or.inl ⟨rfl, trivial⟩
      · exact absurd hstep (by simp)
  | conflict tx seq =>
      simp only [plan_step] at hstep
      split at hstep
      · rename_i call row records hreq
        have hfits := h.staged tx call row records hreq
        split at hstep
        · rename_i hrefused
          rw [← Option.some.inj hstep]
          refine Or.inr ⟨_, rfl, ?_⟩
          constructor
          · intro hwell call' row' records' hreq' _
            rw [hreq, Option.some.injEq] at hreq'
            obtain rfl := (Prod.mk.inj hreq').1
            exact hwell.2 rfl
          · intro hkeeps
            refine ⟨fun row' hrow' => absurd hrow' (by simp), fun _ => ?_⟩
            -- what is taken is the key, or what the step is about
            rw [refused, Bool.or_eq_true] at hrefused
            obtain hplan | haudit := hrefused
            · obtain ⟨plan, hplan, hclash⟩ := List.any_eq_true.mp hplan
              rw [plan_clash, decide_eq_true_eq] at hclash
              obtain hid | ⟨hsome, hsame⟩ := hclash
              · refine hkeeps call row records hreq (Or.inl ?_)
                exact List.any_eq_true.mpr ⟨plan, hplan, by simpa using hid⟩
              · rw [hfits.key] at hsome hsame
                dsimp only
                rw [key_held, hsome, Bool.true_and]
                exact List.any_eq_true.mpr ⟨plan, hplan, by simpa using hsame.symm⟩
            · exact hkeeps call row records hreq (Or.inr haudit)
        · exact absurd hstep (by simp)
      · exact absurd hstep (by simp)
  | commit tx =>
      simp only [plan_step] at hstep
      split at hstep
      · rename_i call row hreq
        have hfits := (h.flushed tx call row hreq).2
        rw [← Option.some.inj hstep]
        refine Or.inr ⟨_, rfl, iff_of_true ⟨fun row' hrow' => ?_, by simp⟩ trivial⟩
        rw [← Except.ok.inj hrow']
        exact hfits.route
      · exact absurd hstep (by simp)
      · rw [← Option.some.inj hstep]
        exact Or.inl ⟨rfl, trivial⟩
  | abort tx =>
      simp only [plan_step] at hstep
      split at hstep
      · rw [← Option.some.inj hstep]
        exact Or.inr ⟨_, rfl, iff_of_true (answered_error (by simp)) trivial⟩
      · rw [← Option.some.inj hstep]
        exact Or.inl ⟨rfl, trivial⟩
  | audit tx row =>
      simp only [plan_step] at hstep
      split at hstep
      · exact absurd hstep (by simp)
      · rw [← Option.some.inj hstep]
        exact Or.inl ⟨rfl, trivial⟩

theorem answers_well_step {t : PlanStore} (h : PlanInv s) (hstep : plan_step blake3 gates s label = some t) :
    (∀ a ∈ t.answers, AnsweredWell a) ↔
      (∀ a ∈ s.answers, AnsweredWell a) ∧ keeps_to_key s label := by
  obtain ⟨hsame, hkeeps⟩ | ⟨a, hnew, hwell⟩ := answers_step h hstep
  · rw [hsame]
    exact ⟨fun hall => ⟨hall, hkeeps⟩, fun hall => hall.1⟩
  · rw [hnew, List.forall_mem_append, List.forall_mem_singleton, hwell]

/-- **Idempotent builds.** All successful answers of a route to a principal under a key name one
plan, a key has at most one plan, no principal receives another's plan, no route answers with the
other's plan, and a key is said to be in use only when a plan holds it, exactly in the runs of which
every lookup finds plans of its own route only, and every flush that is too late for the audit chain
or draws the id of another plan is too late for its key as well. -/
theorem idempotent_iff {tr : List PlanLabel} {s : PlanStore}
    (hrun : (plan_builds blake3 gates).run no_plans tr = some s) :
    IdempotentBuilds s ↔ (plan_builds blake3 gates).Meets keeps_to_key no_plans tr := by
  have hinv : PlanInv s :=
    System.run_keeps (S := plan_builds blake3 gates) (fun _ _ _ h hstep => plan_inv_step h hstep)
      no_plans_inv hrun
  have hwell := @System.good_iff_meets _ _ (plan_builds blake3 gates) PlanInv
    (fun s => ∀ a ∈ s.answers, AnsweredWell a) keeps_to_key
    (fun _ _ _ h hstep => plan_inv_step h hstep) (fun _ _ _ h hstep => answers_well_step h hstep)
    _ _ _ no_plans_inv hrun
  rw [hinv.good_iff, hwell]
  exact and_iff_right fun a ha => absurd ha List.not_mem_nil

/-- Both routes, on a server that can remediate. -/
def both_routes : Gates := ⟨true, true, some sample_orchestrator⟩

/-- A volume of the first host. -/
def data_volume : Volume where
  id := 3
  host_id := 1
  mountpoint := "/data"
  display_name := none
  kind := "local"
  fs_type := "ext4"
  device := "sda"
  transport := "sata"
  raid_role := none
  pool := none
  dataset := none
  total := 9
  used := 6
  free := 3
  change_log_enabled := false
  updated_at := 0

/-- Keep the copy on the first host, under a key or none. -/
def keep_under (key : Option String) : BuildCall :=
  ⟨"ops", { is_global := true }, .dedup { keep_first with idempotency_key := key }⟩

/-- Organise the volume, under a key. -/
def organize_under (key : String) : BuildCall :=
  ⟨"ops", { is_global := true }, .organize ⟨3, "/data", [⟨7, "b/r.txt"⟩], some key⟩⟩

def two_host_reads : BuildReads := ⟨two_host_server.db, two_host_rows, []⟩

/-- A dedup build under a key, asked for again. -/
def asked_twice : List PlanLabel :=
  [.start 1 (keep_under (some "k")) none, .lookup 1, .build 1 two_host_reads sample_time "plan-1",
    .flush 1 1, .commit 1, .start 2 (keep_under (some "k")) none, .lookup 2]

/-- Asked twice, a build is answered twice. -/
theorem idempotent_iff_asked_twice :
    ∃ s, (plan_builds (fun _ => "0") both_routes).run no_plans asked_twice = some s ∧
      s.answers.length = 2 ∧
      (IdempotentBuilds s ↔
        (plan_builds (fun _ => "0") both_routes).Meets keeps_to_key no_plans asked_twice) := by
  have hends : ((plan_builds (fun _ => "0") both_routes).run no_plans asked_twice).map
      (fun s => s.answers.length) = some 2 := by decide +kernel
  obtain ⟨s, hrun, htwo⟩ := Option.map_eq_some_iff.mp hends
  exact ⟨s, hrun, htwo, idempotent_iff hrun⟩

/-- The key of a dedup plan, used for the volume; then a build with no key, while another writer
appends to the audit chain. -/
def key_again : List PlanLabel :=
  asked_twice ++ [.start 3 (organize_under "k") (some data_volume), .lookup 3,
    .start 4 (keep_under none) none, .lookup 4, .build 4 two_host_reads sample_time "plan-2",
    .audit 5 ⟨2, "", "ops", "login", "", [], "ok", "0", "1"⟩, .commit 5, .conflict 4 3]

/-- The volume is answered with the dedup plan, and the build with no key with a key in use. -/
theorem key_again_answers :
    ∃ s, (plan_builds (fun _ => "0") both_routes).run no_plans key_again = some s ∧
      (∃ a ∈ s.answers, ∃ row, a.response = .ok row ∧ row.route = .dedup ∧
        a.call.route = .organize) ∧
      (∃ a ∈ s.answers, a.response = .error .key_in_use ∧ a.call.key = none ∧ a.key_held = false) ∧
      ¬IdempotentBuilds s := by
  have hends : ((plan_builds (fun _ => "0") both_routes).run no_plans key_again).map (fun s =>
      (s.answers.any fun a => decide (a.call.route = .organize) &&
          (a.response.toOption.map PlanRow.route == some Route.dedup)) &&
        (s.answers.any fun a => a.call.key.isNone && !a.key_held &&
          match a.response with
          | .error e => decide (e = .key_in_use)
          | .ok _ => false)) = some true := by decide +kernel
  obtain ⟨s, hrun, hboth⟩ := Option.map_eq_some_iff.mp hends
  rw [Bool.and_eq_true, List.any_eq_true, List.any_eq_true] at hboth
  obtain ⟨⟨a, ha, hroute⟩, ⟨b, hb, hkey⟩⟩ := hboth
  rw [Bool.and_eq_true, decide_eq_true_eq, beq_iff_eq, Option.map_eq_some_iff] at hroute
  obtain ⟨hcall, row, hresponse, hrow⟩ := hroute
  have hok : a.response = .ok row := by
    cases h : a.response with
    | ok row' => rw [h] at hresponse; rw [← Option.some.inj hresponse]
    | error e => rw [h] at hresponse; exact absurd hresponse (by simp [Except.toOption])
  rw [Bool.and_eq_true, Bool.and_eq_true, Option.isNone_iff_eq_none, Bool.not_eq_true'] at hkey
  obtain ⟨⟨hnone, hheld⟩, herror⟩ := hkey
  have hin_use : b.response = .error .key_in_use := by
    cases h : b.response with
    | error e => rw [h] at herror; rw [of_decide_eq_true herror]
    | ok row' => rw [h] at herror; exact absurd herror (by simp)
  refine ⟨s, hrun, ⟨a, ha, row, hok, hrow, hcall⟩, ⟨b, hb, hin_use, hnone, hheld⟩, fun hgood => ?_⟩
  have hsame := hgood.own_route a ha row hok
  rw [hrow, hcall] at hsame
  exact absurd hsame (by decide)

end Fathom.Api
