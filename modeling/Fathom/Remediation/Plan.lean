/-
**Remediation plans** (`core/remediation/plan.py`): the actions, the items with
the prior state they are re-verified against, and the builder.

`build_plan` is the one place where a plan over a duplicate group is made. It
excludes the keeper *by its entry id* and by nothing else; what that leaves in
the plan is `build_plan_items`, and every later statement about dedup plans is
read off that equation.

Sizes are natural numbers: the catalogue rows a `Member` is filled from are
checked with `ge=0` when they are ingested, and `PlanItem` checks it again.
-/
import Fathom.Lib.Json

set_option autoImplicit false

namespace Fathom.Remediation

/-! ## The shapes -/

/-- `PlanAction`. -/
inductive PlanAction where
  | quarantine
  | hardlink
  | hard_delete
  | move
  deriving DecidableEq

/-- The string value of a `PlanAction`. -/
def PlanAction.value : PlanAction → String
  | .quarantine => "quarantine"
  | .hardlink => "hardlink"
  | .hard_delete => "hard_delete"
  | .move => "move"

theorem PlanAction.value_injective {a b : PlanAction} (h : a.value = b.value) : a = b := by
  cases a <;> cases b <;> first | rfl | exact absurd h (by decide)

/-- `PlanAction(value)`. -/
def PlanAction.of_value (s : String) : Option PlanAction :=
  [PlanAction.quarantine, .hardlink, .hard_delete, .move].find? fun a => a.value = s

theorem PlanAction.of_value_value (a : PlanAction) : of_value a.value = some a := by
  cases a <;> decide

/-- `int | str`, the type of an entry id. -/
inductive EntryId where
  | int (n : Int)
  | str (s : String)
  deriving DecidableEq

/-- `str(entry_id)`. -/
def EntryId.to_str : EntryId → String
  | .int n => String.ofList (Json.render_int n)
  | .str s => s

/-- `Member`: a dedup-group member as known to the planner. -/
structure Member where
  entry_id : EntryId
  path : String
  inode : Int
  size : ℕ
  deriving DecidableEq

/-- `PlanItem`: one file to act on, with the prior state to re-verify against. -/
structure PlanItem where
  entry_id : EntryId
  path : String
  prior_inode : Int
  prior_size : ℕ
  prior_hash : Option String
  action : PlanAction
  dest_rel : Option String
  deriving DecidableEq

/-- `RemediationPlan`, with the minimal lengths its fields are declared with. -/
@[ext]
structure RemediationPlan where
  plan_id : String
  created_by : String
  keeper_path : String
  items : List PlanItem
  move_root : Option String
  plan_id_ne : plan_id ≠ ""
  created_by_ne : created_by ≠ ""
  items_ne : items ≠ []

instance : DecidableEq RemediationPlan := fun _ _ => decidable_of_iff _ RemediationPlan.ext_iff.symm

/-- The author of a plan that is read off a job. -/
theorem orchestrator_ne : "orchestrator" ≠ "" := by decide

/-! ## The builder -/

/-- Why a plan was not built; each is a `ValueError` of the source. -/
inductive PlanError where
  /-- `keep_id … is not a member of the group` -/
  | not_a_member (keep_id : EntryId)
  /-- `plan has no actionable items (keeper is the only member)` -/
  | no_actionable_items
  /-- the model's own validation of `plan_id` and `created_by` -/
  | validation
  /-- `member path … failed path safety` -/
  | path_safety (path : String)
  deriving DecidableEq

/-- The item `build_plan` makes of a member. -/
def item_of_member (full_hash : String) (action : PlanAction) (m : Member) : PlanItem where
  entry_id := m.entry_id
  path := m.path
  prior_inode := m.inode
  prior_size := m.size
  prior_hash := some full_hash
  action := action
  dest_rel := none

/-- `build_plan`. -/
def build_plan (plan_id created_by : String) (members : List Member) (keep_id : EntryId)
    (full_hash : String) (action : PlanAction) : Except PlanError RemediationPlan :=
  match members.find? fun m => m.entry_id = keep_id with
  | none => .error (.not_a_member keep_id)
  | some keeper =>
    let items := (members.filter fun m => m.entry_id ≠ keep_id).map
      (item_of_member full_hash action)
    if hi : items = [] then .error .no_actionable_items
    else if hv : plan_id ≠ "" ∧ created_by ≠ "" then
      .ok { plan_id, created_by, keeper_path := keeper.path, items, move_root := none
            plan_id_ne := hv.1, created_by_ne := hv.2, items_ne := hi }
    else .error .validation

/-- What a built plan is: its keeper is the first member with the operator's id,
and its items are all the members with another id. -/
theorem build_plan_spec {plan_id created_by : String} {members : List Member}
    {keep_id : EntryId} {full_hash : String} {action : PlanAction} {plan : RemediationPlan}
    (h : build_plan plan_id created_by members keep_id full_hash action = .ok plan) :
    plan.plan_id = plan_id ∧ plan.created_by = created_by ∧ plan.move_root = none ∧
      (∃ keeper, members.find? (fun m => m.entry_id = keep_id) = some keeper ∧
        plan.keeper_path = keeper.path) ∧
      plan.items = (members.filter fun m => m.entry_id ≠ keep_id).map
        (item_of_member full_hash action) := by
  unfold build_plan at h
  split at h
  · exact absurd h (by simp)
  · rename_i keeper hk
    dsimp only at h
    split_ifs at h with hi hv
    obtain rfl := Except.ok.inj h
    exact ⟨rfl, rfl, rfl, ⟨keeper, hk, rfl⟩, rfl⟩

/-- An item of a built plan is the item of a member other than the keeper. -/
theorem build_plan_mem {plan_id created_by : String} {members : List Member}
    {keep_id : EntryId} {full_hash : String} {action : PlanAction} {plan : RemediationPlan}
    (h : build_plan plan_id created_by members keep_id full_hash action = .ok plan)
    {item : PlanItem} :
    item ∈ plan.items ↔
      ∃ m ∈ members, m.entry_id ≠ keep_id ∧ item_of_member full_hash action m = item := by
  obtain ⟨-, -, -, -, hitems⟩ := build_plan_spec h
  rw [hitems]
  simp only [List.mem_map, List.mem_filter, decide_eq_true_eq, and_assoc]

end Fathom.Remediation
