/-
**Who may see what** (`auth/principal.py`, `auth/scope.py`): roles and their capabilities,
grants, and the filter that is built from them.

A filter decides in two places, over the rows of a query (`ScopeFilter.apply`) and on one
target (`ScopeFilter.check_target`). It keeps sets of ids and not the grants they came
from; that no id is read under the role of another grant is `scope_agreement`: both say
what some one grant says.

A frozen set of ids is the list of its elements, which nothing but membership and emptiness
is asked of.
-/
import Mathlib.Data.List.Basic

set_option autoImplicit false

namespace Fathom.Auth

/-! ## Roles and capabilities -/

/-- `Role`. -/
inductive Role where
  | viewer
  | operator
  | remediator
  | auditor
  | admin
  deriving DecidableEq, Repr

/-- `Capability`. -/
inductive Capability where
  | view_metadata
  | preview
  | view_dedup
  | trigger_metadata_scan
  | trigger_fullbit_scan
  | build_remediation
  | execute_remediation
  | quarantine_manage
  | read_audit
  | read_config
  | manage_users
  | manage_agents
  | deploy_agent
  | manage_settings
  deriving DecidableEq, Repr

/-- `_VIEWER`. -/
def viewer_caps : List Capability := [.view_metadata, .preview, .view_dedup]

/-- `_OPERATOR`. -/
def operator_caps : List Capability := viewer_caps ++ [.trigger_metadata_scan, .trigger_fullbit_scan]

/-- `_REMEDIATOR`. -/
def remediator_caps : List Capability :=
  operator_caps ++ [.build_remediation, .execute_remediation, .quarantine_manage]

/-- `_AUDITOR`. -/
def auditor_caps : List Capability := [.view_metadata, .preview, .view_dedup, .read_audit, .read_config]

/-- `role_has`: `_ADMIN` holds every capability there is. -/
def role_has (role : Role) (cap : Capability) : Bool :=
  match role with
  | .viewer => viewer_caps.contains cap
  | .operator => operator_caps.contains cap
  | .remediator => remediator_caps.contains cap
  | .auditor => auditor_caps.contains cap
  | .admin => true

/-! ## Grants -/

/-- `scope_kind`. -/
inductive ScopeKind where
  | global
  | host
  | volume
  deriving DecidableEq, Repr

/-- `Grant`: a role and what it is held for. -/
structure Grant where
  role : Role
  scope_kind : ScopeKind
  host_id : Option ℕ := none
  volume_id : Option ℕ := none
  deriving DecidableEq

def SYSTEM_VOLUME_KIND : String := "system"

def DATA_VOLUME_KIND : String := "data"

/-! ## The filter -/

/-- `ScopeFilter`. -/
structure ScopeFilter where
  is_global : Bool := false
  host_ids : List ℕ := []
  volume_ids : List ℕ := []
  deriving DecidableEq

namespace ScopeFilter

/-- The id a grant of one kind names. -/
def id_of (kind : ScopeKind) (column : Grant → Option ℕ) (g : Grant) : Option ℕ :=
  if g.scope_kind = kind then column g else none

/-- `ScopeFilter.from_grants`. -/
def from_grants (grants : List Grant) (capability : Capability) : ScopeFilter :=
  let relevant := grants.filter fun g => role_has g.role capability
  if relevant = [] then { is_global := false }
  else if relevant.any fun g => g.scope_kind = .global then { is_global := true }
  else
    { is_global := false
      host_ids := relevant.filterMap (id_of .host Grant.host_id)
      volume_ids := relevant.filterMap (id_of .volume Grant.volume_id) }

/-- `is_empty`. -/
def is_empty (f : ScopeFilter) : Bool := !f.is_global && f.host_ids.isEmpty && f.volume_ids.isEmpty

/-- `covers_system_volume`. -/
def covers_system_volume (f : ScopeFilter) (volume_id : Option ℕ) : Bool :=
  if f.is_global then true else volume_id.any f.volume_ids.contains

/-- The columns of a statement a filter may constrain. -/
structure Columns (ρ : Type) where
  host_col : Option (ρ → ℕ) := none
  volume_col : Option (ρ → ℕ) := none
  kind_col : Option (ρ → String) := none

/-- `column.in_(ids)`, for a column that is there and a set that is not empty. -/
def in_ids {ρ : Type} (column : Option (ρ → ℕ)) (ids : List ℕ) : Option (ρ → Bool) :=
  if ids = [] then none else column.map fun col r => ids.contains (col r)

/-- The gate of the system volumes. -/
def system_ok {ρ : Type} (f : ScopeFilter) (columns : Columns ρ) (r : ρ) : Bool :=
  match columns.kind_col with
  | none => true
  | some kind_col =>
    -- a system volume, when its id is among those of the volume grants
    kind_col r ≠ SYSTEM_VOLUME_KIND || (in_ids columns.volume_col f.volume_ids).any fun p => p r

/-- `ScopeFilter.apply`: what is asked of a row besides the statement's own conditions. -/
def apply {ρ : Type} (f : ScopeFilter) (columns : Columns ρ) (r : ρ) : Bool :=
  if f.is_global then true
  else
    let predicates := (in_ids columns.host_col f.host_ids).toList ++ (in_ids columns.volume_col f.volume_ids).toList
    -- no predicate is `false()`
    predicates.any (fun p => p r) && f.system_ok columns r

/-- `HTTPException`. -/
structure HTTPException where
  status_code : ℕ
  detail : String
  deriving DecidableEq

/-- `ScopeFilter.check_target`. -/
def check_target (f : ScopeFilter) (host_id : ℕ) (volume_id : Option ℕ) (volume_kind : Option String) :
    Except HTTPException Unit :=
  if f.is_global then .ok ()
  else if volume_kind = some SYSTEM_VOLUME_KIND ∧ f.covers_system_volume volume_id = false then
    .error ⟨403, "system volume out of scope"⟩
  else if volume_id.any f.volume_ids.contains then .ok ()
  else if f.host_ids.contains host_id then .ok ()
  else .error ⟨403, "target out of scope"⟩

end ScopeFilter

/-! ## What one grant covers -/

/-- A row of the estate: a host, a volume and the volume's kind. -/
structure Target where
  host_id : ℕ
  volume_id : ℕ
  kind : String
  deriving DecidableEq

/-- The columns of a target, all of them. -/
def Target.columns : ScopeFilter.Columns Target where
  host_col := some Target.host_id
  volume_col := some Target.volume_id
  kind_col := some Target.kind

/-- **A grant covers a row**: everything, the volume it names, or what is not a system
volume of the host it names. -/
inductive Grant.Covers (g : Grant) (t : Target) : Prop
  | global (h : g.scope_kind = .global)
  | volume (h : g.scope_kind = .volume) (hid : g.volume_id = some t.volume_id)
  | host (h : g.scope_kind = .host) (hid : g.host_id = some t.host_id) (hkind : t.kind ≠ SYSTEM_VOLUME_KIND)

namespace ScopeFilter

section

variable {grants : List Grant} {capability : Capability} {f : ScopeFilter} {t : Target}

theorem in_ids_any {ρ : Type} {column : ρ → ℕ} {ids : List ℕ} {r : ρ} :
    (in_ids (some column) ids).any (fun p => p r) = true ↔ column r ∈ ids := by
  rw [in_ids]
  split
  · rename_i hnil
    rw [hnil]
    simp
  · simp

theorem any_toList {α : Type} (o : Option α) (p : α → Bool) : o.toList.any p = o.any p := by
  cases o with
  | none => rfl
  | some a => rw [Option.toList_some, List.any_cons, List.any_nil, Bool.or_false, Option.any_some]

/-- A filter admits a row by its sets of ids. -/
structure Admits (f : ScopeFilter) (t : Target) : Prop where
  member : t.host_id ∈ f.host_ids ∨ t.volume_id ∈ f.volume_ids
  system : t.kind = SYSTEM_VOLUME_KIND → t.volume_id ∈ f.volume_ids

/-- The ids of a statement's columns, in the sets. -/
theorem predicates_any {ρ : Type} {host volume : ρ → ℕ} {r : ρ} :
    ((in_ids (some host) f.host_ids).toList ++ (in_ids (some volume) f.volume_ids).toList).any (fun p => p r) = true ↔
      host r ∈ f.host_ids ∨ volume r ∈ f.volume_ids := by
  rw [List.any_append, Bool.or_eq_true, any_toList, any_toList, in_ids_any, in_ids_any]

/-- What a statement with all three columns asks of a row. -/
theorem apply_columns_iff {ρ : Type} {host volume : ρ → ℕ} {kind : ρ → String} {r : ρ} :
    f.apply ⟨some host, some volume, some kind⟩ r = true ↔
      f.is_global = true ∨ f.Admits ⟨host r, volume r, kind r⟩ := by
  rw [apply]
  split
  · rename_i hglobal
    simp [hglobal]
  · rename_i hglobal
    have hsystem : f.system_ok ⟨some host, some volume, some kind⟩ r = true ↔
        (kind r = SYSTEM_VOLUME_KIND → volume r ∈ f.volume_ids) := by
      show (decide (kind r ≠ SYSTEM_VOLUME_KIND) || (in_ids (some volume) f.volume_ids).any fun p => p r) = true ↔ _
      rw [Bool.or_eq_true, decide_eq_true_eq, in_ids_any, imp_iff_not_or]
    have hmember := @predicates_any f ρ host volume r
    show (_ && _) = true ↔ _
    rw [Bool.and_eq_true, hsystem]
    constructor
    · rintro ⟨hm, hs⟩
      exact Or.inr ⟨hmember.mp hm, hs⟩
    · rintro (hg | hadmits)
      · exact absurd hg hglobal
      · exact ⟨hmember.mpr hadmits.member, hadmits.system⟩

theorem apply_iff : f.apply Target.columns t = true ↔ f.is_global = true ∨ f.Admits t := apply_columns_iff

/-- **What is left without the kind**: a host or a volume of the sets. -/
theorem apply_members_iff {ρ : Type} {host volume : ρ → ℕ} {r : ρ} :
    f.apply ⟨some host, some volume, none⟩ r = true ↔
      f.is_global = true ∨ host r ∈ f.host_ids ∨ volume r ∈ f.volume_ids := by
  rw [apply]
  split
  · rename_i hglobal
    simp [hglobal]
  · rename_i hglobal
    show (_ && true) = true ↔ _
    rw [Bool.and_true, predicates_any]
    exact (or_iff_right hglobal).symm

theorem check_target_iff :
    f.check_target t.host_id (some t.volume_id) (some t.kind) = .ok () ↔ f.is_global = true ∨ f.Admits t := by
  rw [check_target]
  split
  · rename_i hglobal
    simp [hglobal]
  · rename_i hglobal
    have hcovers : f.covers_system_volume (some t.volume_id) = false ↔ t.volume_id ∉ f.volume_ids := by
      rw [covers_system_volume, if_neg hglobal]
      simp
    split
    · rename_i hsystem
      rw [Option.some.injEq, hcovers] at hsystem
      refine iff_of_false (by simp) ?_
      rintro (hg | hadmits)
      · exact hglobal hg
      · exact hsystem.2 (hadmits.system hsystem.1)
    · rename_i hsystem
      rw [Option.some.injEq, hcovers, not_and, not_not] at hsystem
      split
      · rename_i hvolume
        have hvolume : t.volume_id ∈ f.volume_ids := by simpa using hvolume
        exact iff_of_true rfl (Or.inr ⟨Or.inr hvolume, hsystem⟩)
      · rename_i hvolume
        split
        · rename_i hhost
          exact iff_of_true rfl (Or.inr ⟨Or.inl (by simpa using hhost), hsystem⟩)
        · rename_i hhost
          refine iff_of_false (by simp) ?_
          rintro (hg | hadmits)
          · exact hglobal hg
          · rcases hadmits.member with hmem | hmem
            · exact hhost (by simpa using hmem)
            · exact hvolume (by simpa using hmem)

/-- The ids of the grants of one kind that confer the capability. -/
theorem mem_ids {kind : ScopeKind} {column : Grant → Option ℕ} {id : ℕ} :
    id ∈ (grants.filter fun g => role_has g.role capability).filterMap (id_of kind column) ↔
      ∃ g ∈ grants, role_has g.role capability = true ∧ g.scope_kind = kind ∧ column g = some id := by
  rw [List.mem_filterMap]
  constructor
  · rintro ⟨g, hg, hid⟩
    obtain ⟨hmem, hrole⟩ := List.mem_filter.mp hg
    rw [id_of] at hid
    split at hid
    · rename_i hkind
      exact ⟨g, hmem, hrole, hkind, hid⟩
    · exact absurd hid (by simp)
  · rintro ⟨g, hg, hrole, hkind, hid⟩
    exact ⟨g, List.mem_filter.mpr ⟨hg, hrole⟩, by rw [id_of, if_pos hkind, hid]⟩

/-- **What is in the sets of a filter is what some grant covers**: an id of a system
volume is there by a grant on the volume itself. -/
theorem from_grants_covers :
    ((from_grants grants capability).is_global = true ∨ (from_grants grants capability).Admits t) ↔
      ∃ g ∈ grants, role_has g.role capability = true ∧ g.Covers t := by
  rw [from_grants]
  split
  · rename_i hnone
    refine iff_of_false ?_ ?_
    · rintro (hg | hadmits)
      · exact absurd hg (by simp)
      · rcases hadmits.member with hmem | hmem
        · exact absurd hmem List.not_mem_nil
        · exact absurd hmem List.not_mem_nil
    · rintro ⟨g, hg, hrole, -⟩
      exact absurd (List.mem_filter.mpr ⟨hg, hrole⟩) (by rw [hnone]; exact List.not_mem_nil)
  split
  · rename_i hglobal
    obtain ⟨g, hg, hkind⟩ := List.any_eq_true.mp hglobal
    obtain ⟨hmem, hrole⟩ := List.mem_filter.mp hg
    exact iff_of_true (Or.inl rfl) ⟨g, hmem, hrole, .global (of_decide_eq_true hkind)⟩
  · rename_i hglobal
    constructor
    · rintro (hg | hadmits)
      · exact absurd hg (by simp)
      · by_cases hvolume : t.volume_id ∈ (grants.filter fun g => role_has g.role capability).filterMap
            (id_of .volume Grant.volume_id)
        · obtain ⟨g, hg, hrole, hkind, hid⟩ := mem_ids.mp hvolume
          exact ⟨g, hg, hrole, .volume hkind hid⟩
        · rcases hadmits.member with hmem | hmem
          · obtain ⟨g, hg, hrole, hkind, hid⟩ := mem_ids.mp hmem
            exact ⟨g, hg, hrole, .host hkind hid fun hsystem => hvolume (hadmits.system hsystem)⟩
          · exact absurd hmem hvolume
    · rintro ⟨g, hg, hrole, hcovers⟩
      right
      rcases hcovers with hkind | ⟨hkind, hid⟩ | ⟨hkind, hid, hdata⟩
      · refine absurd (List.any_eq_true.mpr ⟨g, List.mem_filter.mpr ⟨hg, hrole⟩, decide_eq_true hkind⟩) hglobal
      · have hmem := mem_ids.mpr ⟨g, hg, hrole, hkind, hid⟩
        exact ⟨Or.inr hmem, fun _ => hmem⟩
      · exact ⟨Or.inl (mem_ids.mpr ⟨g, hg, hrole, hkind, hid⟩), fun hsystem => absurd hsystem hdata⟩

theorem global_of_from_grants (h : (from_grants grants capability).is_global = true) :
    ∃ g ∈ grants, g.scope_kind = .global := by
  rw [from_grants] at h
  split at h
  · exact absurd h (by simp)
  · split at h
    · rename_i hglobal
      obtain ⟨g, hg, hkind⟩ := List.any_eq_true.mp hglobal
      exact ⟨g, (List.mem_filter.mp hg).1, of_decide_eq_true hkind⟩
    · exact absurd h (by simp)

theorem mem_volume_ids {id : ℕ} (h : id ∈ (from_grants grants capability).volume_ids) :
    ∃ g ∈ grants, g.scope_kind = .volume ∧ g.volume_id = some id := by
  rw [from_grants] at h
  split at h
  · exact absurd h List.not_mem_nil
  · split at h
    · exact absurd h List.not_mem_nil
    · obtain ⟨g, hg, -, hkind, hid⟩ := mem_ids.mp h
      exact ⟨g, hg, hkind, hid⟩

theorem mem_host_ids {id : ℕ} (h : id ∈ (from_grants grants capability).host_ids) :
    ∃ g ∈ grants, g.scope_kind = .host ∧ g.host_id = some id := by
  rw [from_grants] at h
  split at h
  · exact absurd h List.not_mem_nil
  · split at h
    · exact absurd h List.not_mem_nil
    · obtain ⟨g, hg, -, hkind, hid⟩ := mem_ids.mp h
      exact ⟨g, hg, hkind, hid⟩

/-- The sets of a principal without a global grant hold what its grants name, under the
roles that confer the capability. -/
theorem from_grants_ids (hno : ∀ g ∈ grants, g.scope_kind ≠ .global) {g : Grant} (hg : g ∈ grants)
    (hrole : role_has g.role capability = true) :
    (∀ id, g.scope_kind = .host → g.host_id = some id → id ∈ (from_grants grants capability).host_ids) ∧
      ∀ id, g.scope_kind = .volume → g.volume_id = some id → id ∈ (from_grants grants capability).volume_ids := by
  have hrelevant : (grants.filter fun g => role_has g.role capability) ≠ [] :=
    List.ne_nil_of_mem (List.mem_filter.mpr ⟨hg, hrole⟩)
  have hglobal : ¬ ((grants.filter fun g => role_has g.role capability).any fun g => g.scope_kind = .global) = true := by
    intro hany
    obtain ⟨g', hg', hkind⟩ := List.any_eq_true.mp hany
    exact hno g' (List.mem_filter.mp hg').1 (of_decide_eq_true hkind)
  rw [from_grants, if_neg hrelevant, if_neg hglobal]
  exact ⟨fun id hkind hid => mem_ids.mpr ⟨g, hg, hrole, hkind, hid⟩,
    fun id hkind hid => mem_ids.mpr ⟨g, hg, hrole, hkind, hid⟩⟩

end

end ScopeFilter

/-- **The query filter and the target check are one decision**, that of some one grant
that confers the capability. -/
theorem scope_agreement (grants : List Grant) (capability : Capability) (t : Target) :
    ((ScopeFilter.from_grants grants capability).apply Target.columns t = true ↔
      (ScopeFilter.from_grants grants capability).check_target t.host_id (some t.volume_id) (some t.kind) = .ok ()) ∧
    ((ScopeFilter.from_grants grants capability).apply Target.columns t = true ↔
      ∃ g ∈ grants, role_has g.role capability = true ∧ g.Covers t) :=
  ⟨ScopeFilter.apply_iff.trans ScopeFilter.check_target_iff.symm,
    ScopeFilter.apply_iff.trans ScopeFilter.from_grants_covers⟩

end Fathom.Auth
