/-
**Grants and revocations** (`api/routers/admin_users.py`).

A request is a transaction that reads what is committed, changes the assignments, and appends
to the audit chain; its row goes to the table when it commits, under the head it read before.
The audit table is the store of `Audit.Store`, so of two transactions that have read one head
one commits.

A revocation counts the other global admins first and reads the head last. What commits in
between it has not counted and does not clash with. `last_admin_iff` says what that takes: in
a run the last global admin grant is lost exactly where a revocation commits whose grant was
the only one left when it read the head.
-/
import Fathom.Audit.Store
import Fathom.Auth.Store

set_option autoImplicit false

namespace Fathom.Api.AdminUsers

open Fathom.Audit
open Fathom.Auth (RoleAssignment)
open Fathom.Auth.ScopeFilter (HTTPException)
open Fathom.Datetime (Timestamp)
open Fathom.Json (Value)

/-! ## Requests -/

/-- `CreateAssignmentRequest`. -/
structure CreateAssignmentRequest where
  role : String
  scope_kind : String
  host_id : Option ℕ := none
  volume_id : Option ℕ := none
  deriving DecidableEq

/-- `_VALID_ROLES`. -/
def VALID_ROLES : List String := ["viewer", "operator", "remediator", "auditor", "admin"]

/-- `_VALID_SCOPE_KINDS`. -/
def VALID_SCOPE_KINDS : List String := ["global", "host", "volume"]

/-- `_ADMIN`. -/
def ADMIN : String := "admin"

/-- `_validate_assignment`. -/
def validate_assignment (body : CreateAssignmentRequest) : Except HTTPException Unit :=
  if body.role ∉ VALID_ROLES then .error ⟨422, "unknown role"⟩
  else if body.scope_kind ∉ VALID_SCOPE_KINDS then .error ⟨422, "unknown scope_kind"⟩
  else if body.scope_kind = "host" ∧ body.host_id = none then .error ⟨422, "host scope needs host_id"⟩
  else if body.scope_kind = "volume" ∧ body.volume_id = none then .error ⟨422, "volume scope needs volume_id"⟩
  else .ok ()

/-- A global admin grant. -/
def is_global_admin (row : RoleAssignment) : Bool := decide (row.role = ADMIN) && decide (row.scope_kind = "global")

/-- The count of the guard: the other global admin grants. -/
def other_admins (rows : List RoleAssignment) (assignment_id : ℕ) : ℕ :=
  rows.countP fun row => is_global_admin row && decide (row.id ≠ assignment_id)

/-- A column of the snapshot that a revocation records. -/
def id_value : Option ℕ → Value
  | none => .null
  | some id => .int id

/-- What `create_assignment` audits. -/
def grant_event (principal : String) (user_id : ℕ) (body : CreateAssignmentRequest) : Append :=
  .durable principal "users.grant" ("user:" ++ toString user_id ++ ":" ++ body.role ++ ":" ++ body.scope_kind) [] "granted"

/-- What `delete_assignment` audits. -/
def revoke_event (principal : String) (row : RoleAssignment) : Append :=
  .durable principal "users.revoke" ("user:" ++ toString row.user_id ++ ":assignment:" ++ toString row.id)
    [("role", .str row.role), ("scope_kind", .str row.scope_kind), ("host_id", id_value row.host_id),
      ("volume_id", id_value row.volume_id)] "granted"

/-! ## Transactions -/

/-- What a transaction does to the assignments. -/
inductive Change where
  | grant (row : RoleAssignment)
  | revoke (assignment_id : ℕ)

/-- What its commit makes of them. A row that is gone is not found by the `DELETE`. -/
def Change.apply : Change → List RoleAssignment → List RoleAssignment
  | .grant row, rows => rows ++ [row]
  | .revoke assignment_id, rows => rows.filter fun row => decide (row.id ≠ assignment_id)

/-- It revokes the only global admin grant there is. -/
def Change.alone : Change → List RoleAssignment → Bool
  | .grant _, _ => false
  | .revoke assignment_id, rows => rows.any is_global_admin && decide (other_admins rows assignment_id = 0)

/-- Where a transaction stands. -/
inductive Tx where
  | idle
  /-- The assignment to revoke was found. -/
  | fetched (row : RoleAssignment) (principal : String)
  /-- The guard let it pass. -/
  | guarded (row : RoleAssignment) (principal : String)
  /-- The change is flushed, and is to be audited. -/
  | flushed (change : Change) (event : Append)
  /-- The head was read, when the change was that of the only global admin grant or not. -/
  | chained (change : Change) (alone : Bool)
  /-- The audit row is in the table. -/
  | recorded (change : Change) (alone : Bool)

/-- The users, the assignments with their sequence and their locks (a row and the
transaction that deletes it), the audit table, the transactions. -/
structure Estate where
  users : List ℕ
  assignments : List RoleAssignment
  next_id : ℕ
  locks : List (ℕ × ℕ) := []
  audit : Store
  tx : ℕ → Tx := fun _ => .idle

inductive Label where
  /-- `delete_assignment` begins: the assignment is got. -/
  | delete (tx user_id assignment_id : ℕ) (principal : String)
  /-- The guard. -/
  | count (tx : ℕ)
  /-- The `DELETE`. -/
  | flush (tx : ℕ)
  /-- `create_assignment`, up to its `INSERT`. -/
  | create (tx user_id : ℕ) (body : CreateAssignmentRequest) (principal : String)
  /-- `build_persistent_chain` reads the head. -/
  | head (tx : ℕ)
  /-- The `INSERT` of the audit row, which the commit flushes, starts. -/
  | insert (tx : ℕ) (now : Timestamp)
  | inserted (tx : ℕ)
  | commit (tx : ℕ)
  /-- Any exception, a clash of the audit row among them. -/
  | rollback (tx : ℕ)

/-- The transactions with one entry changed. -/
def set_tx (tx : ℕ → Tx) (i : ℕ) (now : Tx) : ℕ → Tx := fun j => if j = i then now else tx j

/-- `session.get`; what is not found raises a 404 and nothing was done. -/
def fetch (s : Estate) (tx user_id assignment_id : ℕ) (principal : String) : Option Estate :=
  match s.tx tx with
  | .idle =>
    match s.assignments.find? fun row => row.id = assignment_id with
    | none => some s
    | some row => if row.user_id ≠ user_id then some s else some { s with tx := set_tx s.tx tx (.fetched row principal) }
  | _ => none

/-- The lockout guard, and the 409 it raises. -/
def guard (s : Estate) (tx : ℕ) : Option Estate :=
  match s.tx tx with
  | .fetched row principal =>
    if is_global_admin row ∧ other_admins s.assignments row.id = 0 then some { s with tx := set_tx s.tx tx .idle }
    else some { s with tx := set_tx s.tx tx (.guarded row principal) }
  | _ => none

/-- The row is deleted, once no other transaction is deleting it. -/
def flush (s : Estate) (tx : ℕ) : Option Estate :=
  match s.tx tx with
  | .guarded row principal =>
    if s.locks.any fun lock => lock.1 = row.id && lock.2 != tx then none
    else some { s with
      locks := (row.id, tx) :: s.locks
      tx := set_tx s.tx tx (.flushed (.revoke row.id) (revoke_event principal row)) }
  | _ => none

/-- A body that is not valid and a user that is unknown raise. -/
def create (s : Estate) (tx user_id : ℕ) (body : CreateAssignmentRequest) (principal : String) : Option Estate :=
  match s.tx tx, validate_assignment body with
  | .idle, .error _ => some s
  | .idle, .ok () =>
    if user_id ∉ s.users then some s
    else
      let row : RoleAssignment :=
        { id := s.next_id, user_id, role := body.role, scope_kind := body.scope_kind, host_id := body.host_id,
          volume_id := body.volume_id }
      some { s with next_id := s.next_id + 1, tx := set_tx s.tx tx (.flushed (.grant row) (grant_event principal user_id body)) }
  | _, _ => none

section

variable (blake3 : ByteArray → String) (signer : CheckpointSigner)

/-- A step of the audit table. -/
def audit_step (s : Estate) (label : StoreLabel) : Option Estate :=
  (store_step blake3 signer .postgresql s.audit label).map fun audit => { s with audit }

/-- `_audit`: the head is read, and the record is made on it. -/
def read_head (s : Estate) (tx : ℕ) : Option Estate :=
  match s.tx tx with
  | .flushed change event =>
    (audit_step blake3 signer s (.call tx event)).bind fun s =>
      (audit_step blake3 signer s (.load tx)).map fun s =>
        { s with tx := set_tx s.tx tx (.chained change (change.alone s.assignments)) }
  | _ => none

def insert (s : Estate) (tx : ℕ) (now : Timestamp) : Option Estate :=
  match s.tx tx with
  | .chained _ _ => audit_step blake3 signer s (.insert tx now)
  | _ => none

def inserted (s : Estate) (tx : ℕ) : Option Estate :=
  match s.tx tx, s.audit.writer tx with
  | .chained change alone, .inserting event _ row =>
    (audit_step blake3 signer s (.inserted tx event row)).map fun s =>
      { s with tx := set_tx s.tx tx (.recorded change alone) }
  | _, _ => none

/-- The end of a transaction for the assignments. -/
def Estate.release (s : Estate) (tx : ℕ) : Estate :=
  { s with locks := s.locks.filter fun lock => lock.2 ≠ tx, tx := set_tx s.tx tx .idle }

def commit (s : Estate) (tx : ℕ) : Option Estate :=
  match s.tx tx with
  | .recorded change _ =>
    (audit_step blake3 signer s (.commit tx)).map fun s =>
      { s.release tx with assignments := change.apply s.assignments }
  | _ => none

def rollback (s : Estate) (tx : ℕ) : Option Estate :=
  (audit_step blake3 signer s (.rollback tx)).map fun s => s.release tx

def estate_step (s : Estate) : Label → Option Estate
  | .delete tx user_id assignment_id principal => fetch s tx user_id assignment_id principal
  | .count tx => guard s tx
  | .flush tx => flush s tx
  | .create tx user_id body principal => create s tx user_id body principal
  | .head tx => read_head blake3 signer s tx
  | .insert tx now => insert blake3 signer s tx now
  | .inserted tx => inserted blake3 signer s tx
  | .commit tx => commit blake3 signer s tx
  | .rollback tx => rollback blake3 signer s tx

/-- The estate, from any assignments and any audit table that the store has come to, with no
transaction open. -/
def admin_users : System Estate Label where
  init := fun s => (∃ tr, (store blake3 signer .postgresql).Trace tr s.audit) ∧ s.audit.pending = [] ∧ ∀ tx, s.tx tx = .idle
  step := estate_step blake3 signer

/-- A global admin grant is committed. -/
def HasAdmin (s : Estate) : Prop := s.assignments.any is_global_admin = true

/-- **What it takes** of a commit: when the transaction read the head of the audit chain, the
grant it revokes was not the only global admin grant left. -/
def Accompanied (s : Estate) : Label → Prop
  | .commit tx => ∀ change, s.tx tx ≠ .recorded change true
  | _ => True

/-! ## The audit table under a transaction -/

/-- The head that a writer has read. -/
def read_by : Writer → Option String
  | .loaded _ _ head => some head
  | .inserting _ _ row => some row.prev_hash
  | _ => none

/-- What a step of one transaction leaves of the table for the others, short of a commit. -/
structure Apart (s t : Store) (tx : ℕ) : Prop where
  committed : t.committed = s.committed
  writer : ∀ tx', tx' ≠ tx → t.writer tx' = s.writer tx'
  owned : ∀ tx', tx' ≠ tx → owned tx' t.pending = owned tx' s.pending

variable {tx : ℕ}

theorem Apart.trans {s t u : Store} (h : Apart s t tx) (h' : Apart t u tx) : Apart s u tx :=
  ⟨h'.committed.trans h.committed, fun tx' hne => (h'.writer tx' hne).trans (h.writer tx' hne),
    fun tx' hne => (h'.owned tx' hne).trans (h.owned tx' hne)⟩

/-- A step that only moves its own writer. -/
theorem apart_move {s t : Store} {w : Writer} (hcommitted : t.committed = s.committed)
    (hwriter : t.writer = set_writer s.writer tx w) (hpending : t.pending = s.pending) : Apart s t tx :=
  ⟨hcommitted, fun _ hne => by rw [hwriter, set_writer_other _ _ hne], fun _ _ => by rw [hpending]⟩

/-- No committed row names a head that a row is inserted under. -/
theorem not_stale_of_inserted {s : Store} {row : AuditRow} (h : ¬s.rows.any (clash row) = true) : ¬Stale s row.prev_hash := by
  rintro ⟨r, hr, hprev⟩
  refine h (List.any_eq_true.mpr ⟨r, List.mem_append_left _ hr, ?_⟩)
  rw [clash, decide_eq_true_eq]
  exact Or.inr (Or.inl hprev.symm)

variable {blake3 signer}

/-- The head is read: the transaction has it, and nothing else has changed. -/
theorem head_audit {s t u : Store} {event : Append}
    (hcall : store_step blake3 signer .postgresql s (.call tx event) = some t)
    (hload : store_step blake3 signer .postgresql t (.load tx) = some u) :
    Apart s u tx ∧ u.pending = s.pending ∧ (read_by (u.writer tx)).isSome = true := by
  have hfirst : Apart s t tx ∧ t.pending = s.pending := by
    rw [store_step] at hcall
    split_ifs at hcall
    rw [← Option.some.inj hcall]
    exact ⟨apart_move rfl rfl rfl, rfl⟩
  rw [store_step] at hload
  split at hload
  · have hsecond : Apart t u tx := by
      rw [← Option.some.inj hload]
      exact apart_move rfl rfl rfl
    rw [← Option.some.inj hload] at hsecond ⊢
    refine ⟨hfirst.1.trans hsecond, hfirst.2, ?_⟩
    dsimp only
    rw [set_writer_same]
    rfl
  · cases hload

/-- The row to insert is made on the head that was read. -/
theorem insert_audit {s t : Store} {now : Timestamp}
    (h : store_step blake3 signer .postgresql s (.insert tx now) = some t) :
    Apart s t tx ∧ t.pending = s.pending ∧ read_by (t.writer tx) = read_by (s.writer tx) := by
  rw [store_step, insert_step] at h
  split at h
  · rename_i event tries head hw
    rw [if_neg (by simp)] at h
    obtain rfl := Option.some.inj h
    refine ⟨apart_move rfl rfl rfl, rfl, ?_⟩
    dsimp only
    rw [set_writer_same, hw]
    cases event <;> rfl
  · cases h

/-- The row is in the table, and the head it names is not stale. -/
theorem inserted_audit {s t : Store} {event : Append} {row : AuditRow}
    (h : store_step blake3 signer .postgresql s (.inserted tx event row) = some t) :
    Apart s t tx ∧ owned tx t.pending ≠ [] ∧ ¬Stale s row.prev_hash := by
  rw [store_step, inserted_step] at h
  split at h
  · split_ifs at h with hclash
    obtain rfl := Option.some.inj h
    refine ⟨⟨rfl, fun tx' hne => ?_, fun tx' hne => ?_⟩, ?_, not_stale_of_inserted hclash.2.2⟩
    · exact set_writer_other _ _ hne
    · exact owned_snoc_other _ _ hne
    · dsimp only
      rw [owned, List.filter_append]
      simp
  · cases h

theorem rollback_audit {s t : Store} (h : store_step blake3 signer .postgresql s (.rollback tx) = some t) :
    Apart s t tx ∧ owned tx t.pending = [] := by
  rw [store_step] at h
  obtain rfl := Option.some.inj h
  refine ⟨⟨rfl, fun tx' hne => set_writer_other _ _ hne, fun tx' hne => owned_others _ hne⟩, ?_⟩
  rw [end_transaction, owned, others, List.filter_filter]
  simp

theorem commit_audit {s t : Store} (h : store_step blake3 signer .postgresql s (.commit tx) = some t) :
    t = end_transaction s tx true := by
  rw [store_step] at h
  split_ifs at h
  exact (Option.some.inj h).symm

variable {s t : Estate} {tx : ℕ}

/-! ## What holds between two steps -/

/-- A transaction that has read the head has the assignments it read it with, or will clash;
one whose row is in the table has them. -/
def TxInv (s : Estate) (tx : ℕ) : Tx → Prop
  | .chained change alone => owned tx s.audit.pending = [] ∧
      ∃ head, read_by (s.audit.writer tx) = some head ∧ (Stale s.audit head ∨ alone = change.alone s.assignments)
  | .recorded change alone => owned tx s.audit.pending ≠ [] ∧ alone = change.alone s.assignments
  | _ => owned tx s.audit.pending = []

structure Inv (blake3 : ByteArray → String) (s : Estate) : Prop where
  audit : StoreInv blake3 .postgresql s.audit
  tx : ∀ tx, TxInv s tx (s.tx tx)

theorem set_tx_same (tx : ℕ → Tx) (i : ℕ) (now : Tx) : set_tx tx i now i = now := if_pos rfl

theorem set_tx_other (tx : ℕ → Tx) {i j : ℕ} (now : Tx) (h : j ≠ i) : set_tx tx i now j = tx j := if_neg h

/-- A transaction that another leaves alone. -/
theorem TxInv.apart {tx' : ℕ} {now : Tx} (h : TxInv s tx' now) (haudit : Apart s.audit t.audit tx) (hne : tx' ≠ tx)
    (hassignments : t.assignments = s.assignments) : TxInv t tx' now := by
  have hstale : ∀ head, Stale s.audit head → Stale t.audit head := by
    rintro head ⟨r, hr, hprev⟩
    exact ⟨r, haudit.committed ▸ hr, hprev⟩
  cases now with
  | chained change alone =>
    obtain ⟨howned, head, hread, hhead⟩ := h
    refine ⟨(haudit.owned tx' hne).trans howned, head, ?_, ?_⟩
    · rw [haudit.writer tx' hne]
      exact hread
    · rw [hassignments]
      exact hhead.imp_left (hstale head)
  | recorded change alone =>
    refine ⟨fun hnil => h.1 ((haudit.owned tx' hne).symm.trans hnil), ?_⟩
    rw [hassignments]
    exact h.2
  | idle => exact (haudit.owned tx' hne).trans h
  | fetched row principal => exact (haudit.owned tx' hne).trans h
  | guarded row principal => exact (haudit.owned tx' hne).trans h
  | flushed change event => exact (haudit.owned tx' hne).trans h

/-- A step of one transaction that commits nothing. -/
theorem Inv.move {now : Tx} (h : Inv blake3 s) (haudit : StoreInv blake3 .postgresql t.audit)
    (hapart : Apart s.audit t.audit tx) (hassignments : t.assignments = s.assignments) (htx : t.tx = set_tx s.tx tx now)
    (hnow : TxInv t tx now) : Inv blake3 t := by
  refine ⟨haudit, fun tx' => ?_⟩
  rw [htx]
  by_cases hne : tx' = tx
  · rw [hne, set_tx_same]
    exact hnow
  · rw [set_tx_other _ _ hne]
    exact (h.tx tx').apart hapart hne hassignments

/-- A step that touches neither the audit table nor the assignments. -/
theorem Inv.local_step {now : Tx} (h : Inv blake3 s) (haudit : t.audit = s.audit)
    (hassignments : t.assignments = s.assignments) (htx : t.tx = set_tx s.tx tx now)
    (howned : owned tx s.audit.pending = []) (hnow : owned tx t.audit.pending = [] → TxInv t tx now) :
    Inv blake3 t := by
  refine h.move (haudit ▸ h.audit) ?_ hassignments htx (hnow (haudit ▸ howned))
  rw [haudit]
  exact ⟨rfl, fun _ _ => rfl, fun _ _ => rfl⟩

/-! ## One step -/

/-- What the last global admin grant is. -/
theorem alone_iff (change : Change) (rows : List RoleAssignment) :
    (rows.any is_global_admin = true → (change.apply rows).any is_global_admin = true) ↔ change.alone rows = false := by
  cases change with
  | grant row =>
    refine ⟨fun _ => rfl, fun _ h => ?_⟩
    rw [Change.apply, List.any_append, h, Bool.true_or]
  | revoke assignment_id =>
    rw [Change.alone, Bool.and_eq_false_iff, Change.apply]
    -- a row that is left counts as another
    have hleft : (rows.filter fun row => decide (row.id ≠ assignment_id)).any is_global_admin = true ↔
        other_admins rows assignment_id ≠ 0 := by
      rw [Nat.ne_zero_iff_zero_lt, other_admins, List.countP_pos_iff, List.any_eq_true]
      constructor
      · rintro ⟨row, hrow, hadmin⟩
        obtain ⟨hmem, hne⟩ := List.mem_filter.mp hrow
        exact ⟨row, hmem, Bool.and_eq_true_iff.mpr ⟨hadmin, hne⟩⟩
      · rintro ⟨row, hmem, hboth⟩
        obtain ⟨hadmin, hne⟩ := Bool.and_eq_true_iff.mp hboth
        exact ⟨row, List.mem_filter.mpr ⟨hmem, hne⟩, hadmin⟩
    rw [hleft, decide_eq_false_iff_not, ← Bool.not_eq_true, ← imp_iff_not_or]

theorem fetch_inv {user_id assignment_id : ℕ} {principal : String} (h : Inv blake3 s)
    (hstep : fetch s tx user_id assignment_id principal = some t) : Inv blake3 t ∧ t.assignments = s.assignments := by
  rw [fetch] at hstep
  split at hstep
  · rename_i htx
    have howned := h.tx tx
    rw [htx] at howned
    split at hstep
    · obtain rfl := Option.some.inj hstep
      exact ⟨h, rfl⟩
    · split_ifs at hstep
      · obtain rfl := Option.some.inj hstep
        exact ⟨h, rfl⟩
      · obtain rfl := Option.some.inj hstep
        exact ⟨h.local_step rfl rfl rfl howned fun ho => ho, rfl⟩
  · cases hstep

theorem guard_inv (h : Inv blake3 s) (hstep : guard s tx = some t) : Inv blake3 t ∧ t.assignments = s.assignments := by
  rw [guard] at hstep
  split at hstep
  · rename_i htx
    have howned := h.tx tx
    rw [htx] at howned
    split_ifs at hstep <;> obtain rfl := Option.some.inj hstep <;>
      exact ⟨h.local_step rfl rfl rfl howned fun ho => ho, rfl⟩
  · cases hstep

theorem flush_inv (h : Inv blake3 s) (hstep : flush s tx = some t) : Inv blake3 t ∧ t.assignments = s.assignments := by
  rw [flush] at hstep
  split at hstep
  · rename_i htx
    have howned := h.tx tx
    rw [htx] at howned
    split_ifs at hstep
    obtain rfl := Option.some.inj hstep
    exact ⟨h.local_step rfl rfl rfl howned fun ho => ho, rfl⟩
  · cases hstep

theorem create_inv {user_id : ℕ} {body : CreateAssignmentRequest} {principal : String} (h : Inv blake3 s)
    (hstep : create s tx user_id body principal = some t) : Inv blake3 t ∧ t.assignments = s.assignments := by
  rw [create] at hstep
  split at hstep
  · obtain rfl := Option.some.inj hstep
    exact ⟨h, rfl⟩
  · rename_i htx _
    have howned := h.tx tx
    rw [htx] at howned
    split_ifs at hstep
    · obtain rfl := Option.some.inj hstep
      exact ⟨h.local_step rfl rfl rfl howned fun ho => ho, rfl⟩
    · obtain rfl := Option.some.inj hstep
      exact ⟨h, rfl⟩
  · cases hstep

theorem audit_step_some {label : StoreLabel} (h : audit_step blake3 signer s label = some t) :
    ∃ audit, store_step blake3 signer .postgresql s.audit label = some audit ∧ t = { s with audit } := by
  obtain ⟨audit, haudit, heq⟩ := Option.map_eq_some_iff.mp h
  exact ⟨audit, haudit, heq.symm⟩

/-- The head is read with the assignments there are. -/
theorem read_head_inv (h : Inv blake3 s) (hstep : read_head blake3 signer s tx = some t) :
    Inv blake3 t ∧ t.assignments = s.assignments := by
  rw [read_head] at hstep
  split at hstep
  · rename_i change event htx
    have howned := h.tx tx
    rw [htx] at howned
    obtain ⟨s', hfirst, hsecond⟩ := Option.bind_eq_some_iff.mp hstep
    obtain ⟨audit, hcall, rfl⟩ := audit_step_some hfirst
    obtain ⟨s'', hloaded, rfl⟩ := Option.map_eq_some_iff.mp hsecond
    obtain ⟨audit', hload, rfl⟩ := audit_step_some hloaded
    obtain ⟨hapart, hpending, hread⟩ := head_audit hcall hload
    obtain ⟨head, hread⟩ := Option.isSome_iff_exists.mp hread
    refine ⟨h.move ((h.audit.step hcall).step hload) hapart rfl rfl ⟨?_, head, hread, Or.inr rfl⟩, rfl⟩
    dsimp only
    rw [hpending]
    exact howned
  · cases hstep

theorem set_tx_self (tx : ℕ → Tx) (i : ℕ) : tx = set_tx tx i (tx i) := by
  funext j
  rw [set_tx]
  split_ifs with hj
  · rw [hj]
  · rfl

theorem insert_inv {now : Timestamp} (h : Inv blake3 s) (hstep : insert blake3 signer s tx now = some t) :
    Inv blake3 t ∧ t.assignments = s.assignments := by
  rw [insert] at hstep
  split at hstep
  · rename_i change alone htx
    have hinv := h.tx tx
    rw [htx] at hinv
    obtain ⟨howned, head, hread, hhead⟩ := hinv
    obtain ⟨audit, haudit, rfl⟩ := audit_step_some hstep
    obtain ⟨hapart, hpending, hsame⟩ := insert_audit haudit
    have hkeep : s.tx = set_tx s.tx tx (.chained change alone) := htx ▸ set_tx_self s.tx tx
    refine ⟨h.move (h.audit.step haudit) hapart rfl hkeep ⟨?_, head, hsame.trans hread, ?_⟩, rfl⟩
    · dsimp only
      rw [hpending]
      exact howned
    · refine hhead.imp_left ?_
      rintro ⟨r, hr, hprev⟩
      exact ⟨r, hapart.committed ▸ hr, hprev⟩
  · cases hstep

/-- A row that got into the table was made on a head that nothing has followed. -/
theorem inserted_inv (h : Inv blake3 s) (hstep : inserted blake3 signer s tx = some t) :
    Inv blake3 t ∧ t.assignments = s.assignments := by
  rw [inserted] at hstep
  split at hstep
  · rename_i change alone event tries row htx hwriter
    have hinv := h.tx tx
    rw [htx] at hinv
    obtain ⟨-, head, hread, hhead⟩ := hinv
    obtain ⟨s', hmoved, rfl⟩ := Option.map_eq_some_iff.mp hstep
    obtain ⟨audit, haudit, rfl⟩ := audit_step_some hmoved
    obtain ⟨hapart, howned, hstale⟩ := inserted_audit haudit
    rw [hwriter, read_by, Option.some.injEq] at hread
    rw [← hread] at hhead
    exact ⟨h.move (h.audit.step haudit) hapart rfl rfl ⟨howned, hhead.resolve_left hstale⟩, rfl⟩
  · cases hstep

theorem rollback_inv (h : Inv blake3 s) (hstep : rollback blake3 signer s tx = some t) :
    Inv blake3 t ∧ t.assignments = s.assignments := by
  rw [rollback] at hstep
  obtain ⟨s', hmoved, rfl⟩ := Option.map_eq_some_iff.mp hstep
  obtain ⟨audit, haudit, rfl⟩ := audit_step_some hmoved
  obtain ⟨hapart, howned⟩ := rollback_audit haudit
  exact ⟨h.move (h.audit.step haudit) hapart rfl rfl howned, rfl⟩

/-- **A commit.** Its transaction has the assignments there are, and every other that has
read a head has one that is followed now. -/
theorem commit_inv (h : Inv blake3 s) (hstep : commit blake3 signer s tx = some t) :
    Inv blake3 t ∧ ∃ change, s.tx tx = .recorded change (change.alone s.assignments) ∧ t.assignments = change.apply s.assignments := by
  rw [commit] at hstep
  split at hstep
  · rename_i change alone htx
    have hinv := h.tx tx
    rw [htx] at hinv
    obtain ⟨howned, halone⟩ := hinv
    obtain ⟨s', hmoved, rfl⟩ := Option.map_eq_some_iff.mp hstep
    obtain ⟨audit, haudit, rfl⟩ := audit_step_some hmoved
    have hended := commit_audit haudit
    refine ⟨⟨h.audit.step haudit, fun tx' => ?_⟩, change, by rw [htx, halone], rfl⟩
    dsimp only [Estate.release]
    by_cases hne : tx' = tx
    · rw [hne, set_tx_same, hended]
      change owned tx (others tx s.audit.pending) = []
      rw [owned, others, List.filter_filter]
      simp
    · rw [set_tx_other _ _ hne, hended]
      have hother := h.tx tx'
      have hsame : owned tx' (end_transaction s.audit tx true).pending = owned tx' s.audit.pending := owned_others _ hne
      cases hnow : s.tx tx' with
      | chained change' alone' =>
        rw [hnow] at hother
        obtain ⟨hnone, head, hread, -⟩ := hother
        refine ⟨hsame.trans hnone, head, ?_, Or.inl ?_⟩
        · dsimp only [end_transaction]
          rw [set_writer_other _ _ hne]
          exact hread
        · -- it was the head, or it was stale before
          have hstale : ∀ hash, Stale s.audit hash → Stale (end_transaction s.audit tx true) hash := by
            rintro hash ⟨r, hr, hprev⟩
            exact ⟨r, List.mem_append_left _ hr, hprev⟩
          have hwriter := h.audit.writers tx'
          cases hw : s.audit.writer tx' with
          | idle =>
            rw [hw] at hread
            cases hread
          | loading event tries =>
            rw [hw] at hread
            cases hread
          | loaded event tries head' =>
            rw [hw] at hread hwriter
            obtain rfl := Option.some.inj hread
            rcases hwriter with hhead | hold
            · rw [hhead]
              exact h.audit.table.commit_stale hne howned
            · exact hstale _ hold
          | inserting event tries row =>
            rw [hw] at hread hwriter
            obtain rfl := Option.some.inj hread
            rcases hwriter.2.2.2 with ⟨hhead, -, -⟩ | hold
            · rw [hhead]
              exact h.audit.table.commit_stale hne howned
            · exact hstale _ hold
      | recorded change' alone' =>
        -- all open rows are of one transaction
        rw [hnow] at hother
        obtain ⟨r, hr⟩ := List.exists_mem_of_ne_nil _ howned
        obtain ⟨r', hr'⟩ := List.exists_mem_of_ne_nil _ hother.1
        obtain ⟨p, hp, -⟩ := List.mem_map.mp hr
        obtain ⟨p', hp', -⟩ := List.mem_map.mp hr'
        obtain ⟨hp, htx⟩ := List.mem_filter.mp hp
        obtain ⟨hp', htx'⟩ := List.mem_filter.mp hp'
        have hone := h.audit.table.one_owner p hp p' hp'
        rw [of_decide_eq_true htx, of_decide_eq_true htx'] at hone
        exact absurd hone.symm hne
      | idle =>
        rw [hnow] at hother
        exact hsame.trans hother
      | fetched row principal =>
        rw [hnow] at hother
        exact hsame.trans hother
      | guarded row principal =>
        rw [hnow] at hother
        exact hsame.trans hother
      | flushed change' event =>
        rw [hnow] at hother
        exact hsame.trans hother
  · cases hstep

/-- **One step** keeps the invariant, and keeps a global admin grant exactly when it is no
commit of a transaction that had read the head with its grant alone. -/
theorem estate_step_inv {label : Label} (h : Inv blake3 s) (hstep : estate_step blake3 signer s label = some t) :
    Inv blake3 t ∧ ((HasAdmin s → HasAdmin t) ↔ Accompanied s label) := by
  have hsame : Inv blake3 t ∧ t.assignments = s.assignments → (∀ tx, label ≠ .commit tx) →
      Inv blake3 t ∧ ((HasAdmin s → HasAdmin t) ↔ Accompanied s label) := by
    intro hinv hlabel
    refine ⟨hinv.1, ?_⟩
    rw [HasAdmin, HasAdmin, hinv.2]
    refine ⟨fun _ => ?_, fun _ hadmin => hadmin⟩
    cases label with
    | commit tx => exact absurd rfl (hlabel tx)
    | _ => trivial
  cases label with
  | delete tx user_id assignment_id principal => exact hsame (fetch_inv h hstep) fun _ heq => nomatch heq
  | count tx => exact hsame (guard_inv h hstep) fun _ heq => nomatch heq
  | flush tx => exact hsame (flush_inv h hstep) fun _ heq => nomatch heq
  | create tx user_id body principal => exact hsame (create_inv h hstep) fun _ heq => nomatch heq
  | head tx => exact hsame (read_head_inv h hstep) fun _ heq => nomatch heq
  | insert tx now => exact hsame (insert_inv h hstep) fun _ heq => nomatch heq
  | inserted tx => exact hsame (inserted_inv h hstep) fun _ heq => nomatch heq
  | rollback tx => exact hsame (rollback_inv h hstep) fun _ heq => nomatch heq
  | commit tx =>
    obtain ⟨hinv, change, htx, hassignments⟩ := commit_inv h hstep
    refine ⟨hinv, ?_⟩
    rw [HasAdmin, HasAdmin, hassignments, alone_iff, Accompanied, htx]
    constructor
    · intro halone change' heq
      rw [halone] at heq
      cases heq
    · intro hnot
      by_contra halone
      rw [Bool.not_eq_false] at halone
      exact hnot change (by rw [halone])

/-! ## Runs -/

theorem inv_init (h : (admin_users blake3 signer).init s) : Inv blake3 s := by
  obtain ⟨⟨tr, htrace⟩, hpending, hidle⟩ := h
  refine ⟨store_inv htrace, fun tx => ?_⟩
  rw [hidle tx]
  change owned tx s.audit.pending = []
  rw [hpending]
  rfl

/-- **The last global admin.** Along a run of grants and revocations, interleaved in any way,
a global admin grant that is there once leaves one at every later point -- exactly when no
revocation commits whose grant was the only one left when it read the head of the chain. -/
theorem last_admin_iff {s₀ s : Estate} {labels : List Label} (hinit : (admin_users blake3 signer).init s₀)
    (hrun : (admin_users blake3 signer).run s₀ labels = some s) :
    (admin_users blake3 signer).Lasts HasAdmin s₀ labels ↔ (admin_users blake3 signer).Meets Accompanied s₀ labels :=
  System.lasts_iff_meets (I := Inv blake3) (fun _ _ _ hI hstep => (estate_step_inv hI hstep).1)
    (fun _ _ _ hI hstep => (estate_step_inv hI hstep).2) (inv_init hinit) hrun

end

/-! ## Two revocations -/

/-- Two users, each with a global admin grant, and nothing audited yet. -/
def two_admins : Estate where
  users := [1, 2]
  assignments := [⟨1, 1, "admin", "global", none, none⟩, ⟨2, 2, "admin", "global", none, none⟩]
  next_id := 3
  audit := ⟨[], [], [], [], 1, 1, none, fun _ => .idle⟩

theorem two_admins_init : (admin_users size_digest null_signer).init two_admins :=
  ⟨⟨[], _, rfl, rfl⟩, rfl, fun _ => rfl⟩

/-- A revocation from its first step to its commit. -/
def revocation (tx user_id assignment_id : ℕ) : List Label :=
  [.delete tx user_id assignment_id "op", .count tx, .flush tx, .head tx, .insert tx sample_now, .inserted tx, .commit tx]

/-- One of the two is revoked, and the other stays. -/
theorem one_revoked : ∃ s, (admin_users size_digest null_signer).run two_admins (revocation 1 1 1) = some s ∧
    s.assignments = [⟨2, 2, "admin", "global", none, none⟩] ∧
    ((admin_users size_digest null_signer).Lasts HasAdmin two_admins (revocation 1 1 1) ↔
      (admin_users size_digest null_signer).Meets Accompanied two_admins (revocation 1 1 1)) := by
  have hone : ((admin_users size_digest null_signer).run two_admins (revocation 1 1 1)).map Estate.assignments =
      some [⟨2, 2, "admin", "global", none, none⟩] := by
    decide +kernel
  obtain ⟨s, hrun, hone⟩ := Option.map_eq_some_iff.mp hone
  exact ⟨s, hrun, hone, last_admin_iff two_admins_init hrun⟩

/-- Both are: the second has counted the first, and reads the head when the first has committed. -/
def both_revoked : List Label :=
  [.delete 1 1 1 "op", .count 1, .delete 2 2 2 "op", .count 2, .flush 2, .flush 1, .head 1, .insert 1 sample_now, .inserted 1,
    .commit 1, .head 2, .insert 2 sample_now, .inserted 2, .commit 2]

theorem last_admin_revoked : ¬ ∀ (blake3 : ByteArray → String) (signer : CheckpointSigner) (s₀ s : Estate) (labels : List Label),
    (admin_users blake3 signer).init s₀ → (admin_users blake3 signer).run s₀ labels = some s →
    (admin_users blake3 signer).Lasts HasAdmin s₀ labels := by
  intro hall
  have hnone : ((admin_users size_digest null_signer).run two_admins both_revoked).map Estate.assignments = some [] := by
    decide +kernel
  obtain ⟨s, hrun, hnone⟩ := Option.map_eq_some_iff.mp hnone
  have hlasts := hall size_digest null_signer two_admins s both_revoked two_admins_init hrun
  have hadmin := hlasts 0 both_revoked.length two_admins s (Nat.zero_le _) rfl (by rw [List.take_length]; exact hrun) rfl
  rw [HasAdmin, hnone] at hadmin
  exact absurd hadmin Bool.false_ne_true

end Fathom.Api.AdminUsers
