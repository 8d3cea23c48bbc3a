/-
**Organise** (`core/organize/service.py`): where a file of a folder may be moved to, and the
plan that is made of the moves an operator has approved.

Every target is proposed as a path relative to the folder and put through `clamp_to_root`,
which joins it to the folder, normalises it and keeps it when it is the folder or below it.
`clamp_to_root_spec` is what that leaves: behind the folder a target has components only, none
of them empty and none a dot -- and it may have a `..` among them, when the folder itself starts
with one.
-/
import Fathom.Actor.Move
import Fathom.Auth.Store
import Fathom.Catalogue.Dedup
import Fathom.Read.Search
import Fathom.Security.Canonical

set_option autoImplicit false

namespace Fathom.Organize

open Fathom.Auth (ScopeFilter strip)
open Fathom.Catalogue (FsEntryRow)
open Fathom.Read (LIKE_ESCAPE escape_like in_scope rstrip)
open Fathom.Remediation (PlanItem RemediationPlan)
open Fathom.Security

attribute [local instance] lawful_text

/-! ## Clamping -/

/-- `posixpath.join(a, b)`. -/
def path_join (a b : List Char) : List Char :=
  if b.head? = some '/' then b
  else if a = [] ∨ a.getLast? = some '/' then a ++ b
  else a ++ '/' :: b

/-- `posixpath.basename`. -/
def basename (path : List Char) : List Char := ((path.splitOn '/').getLast?).getD []

/-- `clamp_to_root`. -/
def clamp_to_root (root rel : List Char) : Option (List Char) :=
  if rel = [] ∨ Char.ofNat 0 ∈ rel ∨ rel.head? = some '/' then none
  else
    let base := rstrip root
    let candidate := normpath (path_join base rel)
    if candidate = base ∨ base ++ ['/'] <+: candidate then some candidate else none

/-- `_safe_leaf`. -/
def safe_leaf (name : List Char) : Option (List Char) :=
  let n := strip name
  if n = [] ∨ n = ['.'] ∨ n = ['.', '.'] ∨ '/' ∈ n ∨ Char.ofNat 0 ∈ n then none else some n

/-- `_clamp_move_target`. -/
def clamp_move_target (root dest_rel : List Char) : Option (List Char) :=
  match clamp_to_root root dest_rel with
  | none => none
  | some absolute =>
    if absolute = rstrip root then none
    else if safe_leaf (basename absolute) = none then none
    else some absolute

/-! ## A plan of moves -/

/-- `MAX_FILES_HARD_CAP`. -/
def MAX_FILES_HARD_CAP : ℕ := 200

/-- `ApprovedMove`. -/
structure ApprovedMove where
  entry_id : ℕ
  dest_rel : String
  deriving DecidableEq

/-- `OrganizePlanError`. -/
inductive OrganizePlanError where
  /-- `no moves selected` -/
  | no_moves
  /-- `too many moves` -/
  | too_many
  /-- `entry … listed twice` -/
  | listed_twice (entry_id : ℕ)
  /-- `entry … not found under root (rescan?)` -/
  | not_found (entry_id : ℕ)
  /-- `target for entry … is out of root` -/
  | out_of_root (entry_id : ℕ)
  /-- `entry … target equals its current path` -/
  | same_path (entry_id : ℕ)
  /-- `two entries target …` -/
  | two_entries (absolute : String)
  /-- `source path failed safety: …` -/
  | path_safety (exc : PathSafetyError)
  /-- `entry … has no content hash — run a full-bit scan before moving` -/
  | no_hash (entry_id : ℕ)
  /-- the plan's own validation of `plan_id` and `created_by` -/
  | validation
  deriving DecidableEq

/-- An entry, and the kind of the volume it is joined with. -/
abbrev Joined := FsEntryRow × String

/-- The columns of an entry and of its volume. -/
def joined_columns : ScopeFilter.Columns Joined where
  host_col := some fun j => j.1.host_id
  volume_col := some fun j => j.1.volume_id
  kind_col := some fun j => j.2

/-- The conditions of `_entries_by_id`. -/
def under_root (volume_id : ℕ) (entry_ids : List ℕ) (base : List Char) (scope : Option ScopeFilter)
    (j : Joined) : Bool :=
  let like := escape_like base ++ "/%".toList
  entry_ids.contains j.1.id && j.1.volume_id = volume_id && !j.1.is_dir && j.1.present &&
    Like.like LIKE_ESCAPE like j.1.path.toList && in_scope scope joined_columns j

/-- `_entries_by_id`: of two rows with one id, which a primary key does not let be, the last. -/
def entries_by_id (rows : List Joined) (volume_id : ℕ) (entry_ids : List ℕ) (base : List Char)
    (scope : Option ScopeFilter) (id : ℕ) : Option FsEntryRow :=
  let found := rows.filter (under_root volume_id entry_ids base scope)
  (found.reverse.find? fun j => j.1.id = id).map Prod.fst

/-- What the loop of `build_move_plan` keeps; of `taken` only the keys are read. -/
structure Building where
  items : List PlanItem
  taken : List (List Char)
  seen_ids : List ℕ
  total_bytes : ℕ
  host_id : Option ℕ

/-- The item of a move. -/
def move_item (base absolute : List Char) (entry : FsEntryRow) (full_hash : String) : PlanItem where
  entry_id := .int entry.id
  path := entry.path
  prior_inode := entry.inode
  prior_size := entry.size_logical
  prior_hash := some full_hash
  action := .move
  dest_rel := some (String.ofList (absolute.drop (base.length + 1)))

/-- One round of the loop of `build_move_plan`. -/
def add_move (root : List Char) (by_id : ℕ → Option FsEntryRow) (build : Building)
    (move : ApprovedMove) : Except OrganizePlanError Building :=
  if move.entry_id ∈ build.seen_ids then .error (.listed_twice move.entry_id)
  else
    match by_id move.entry_id with
    | none => .error (.not_found move.entry_id)
    | some entry =>
      match clamp_move_target root move.dest_rel.toList with
      | none => .error (.out_of_root move.entry_id)
      | some absolute =>
        if absolute = entry.path.toList then .error (.same_path move.entry_id)
        else if absolute ∈ build.taken then .error (.two_entries (String.ofList absolute))
        else
          match validate_config_path entry.path with
          | .error exc => .error (.path_safety exc)
          | .ok _ =>
            match entry.full_hash with
            | none => .error (.no_hash move.entry_id)
            | some hash =>
              .ok {
                items := build.items ++ [move_item (rstrip root) absolute entry hash]
                taken := build.taken ++ [absolute]
                seen_ids := build.seen_ids ++ [move.entry_id]
                total_bytes := build.total_bytes + entry.size_logical
                host_id := some entry.host_id }

/-- The loop of `build_move_plan`. -/
def add_moves (root : List Char) (by_id : ℕ → Option FsEntryRow) :
    Building → List ApprovedMove → Except OrganizePlanError Building
  | build, [] => .ok build
  | build, move :: moves =>
    match add_move root by_id build move with
    | .error e => .error e
    | .ok build' => add_moves root by_id build' moves

/-- `MovePlanBuild`; `host_id` is the decimal text of the number. -/
structure MovePlanBuild where
  plan : RemediationPlan
  host_id : ℕ
  total_bytes : ℕ

/-- `build_move_plan`. -/
def build_move_plan (rows : List Joined) (plan_id created_by : String) (volume_id : ℕ)
    (root : String) (moves : List ApprovedMove) (scope : Option ScopeFilter) :
    Except OrganizePlanError MovePlanBuild :=
  if moves = [] then .error .no_moves
  else if MAX_FILES_HARD_CAP < moves.length then .error .too_many
  else
    let base := rstrip root.toList
    let by_id := entries_by_id rows volume_id (moves.map ApprovedMove.entry_id) base scope
    match add_moves root.toList by_id ⟨[], [], [], 0, none⟩ moves with
    | .error e => .error e
    | .ok build =>
      if h : plan_id ≠ "" ∧ created_by ≠ "" ∧ build.items ≠ [] then
        .ok {
          plan := {
            plan_id, created_by
            keeper_path := String.ofList base
            items := build.items
            move_root := some (String.ofList base)
            plan_id_ne := h.1, created_by_ne := h.2.1, items_ne := h.2.2 }
          host_id := build.host_id.getD 0
          total_bytes := build.total_bytes }
      else .error .validation

/-! ## What a clamp leaves -/

/-- A component a normalised path can have. -/
structure Plain (comp : Name) : Prop where
  ne_nil : comp ≠ []
  ne_dot : comp ≠ ['.']
  no_slash : '/' ∉ comp

theorem norm_step_plain {rooted : Bool} {comps : List Name} {comp : Name}
    (h : ∀ c ∈ comps, Plain c) (hcomp : '/' ∉ comp) : ∀ c ∈ norm_step rooted comps comp, Plain c := by
  rw [norm_step]
  split
  · exact h
  · rename_i hplain
    rw [not_or] at hplain
    split
    · intro c hc
      obtain hold | hnew := List.mem_append.mp hc
      · exact h c hold
      · rw [List.mem_singleton.mp hnew]
        exact ⟨hplain.1, hplain.2, hcomp⟩
    · exact fun c hc => h c (List.mem_of_mem_dropLast hc)

/-- **The components of a normalised path** are plain. -/
theorem norm_components_plain (rooted : Bool) (path : List Char) : ∀ c ∈ norm_components '/' rooted path, Plain c := by
  have hfold : ∀ (names comps : List Name), (∀ n ∈ names, '/' ∉ n) → (∀ c ∈ comps, Plain c) →
      ∀ c ∈ names.foldl (norm_step rooted) comps, Plain c := by
    intro names
    induction names with
    | nil => exact fun comps _ h => h
    | cons name names ih =>
        intro comps hnames h
        exact ih _ (fun n hn => hnames n (List.mem_cons_of_mem _ hn))
          (norm_step_plain h (hnames name List.mem_cons_self))
  exact hfold _ [] (fun n hn => Security.not_mem_of_mem_splitOn hn) fun c hc => absurd hc List.not_mem_nil

theorem splitOn_slashes (k : ℕ) (text : List Char) :
    (List.replicate k '/' ++ text).splitOn '/' = List.replicate k [] ++ text.splitOn '/' := by
  induction k with
  | zero => rfl
  | succ k ih =>
      have hsplit := List.splitOn_append_cons_self_of_not_mem (List.not_mem_nil (a := '/'))
        (List.replicate k '/' ++ text)
      rw [List.nil_append, ih] at hsplit
      rw [List.replicate_succ, List.cons_append, hsplit, List.replicate_succ, List.cons_append]

theorem initial_slashes_replicate (path : List Char) : ∃ k, initial_slashes path = List.replicate k '/' := by
  unfold initial_slashes
  split
  · exact ⟨1, rfl⟩
  · exact ⟨2, rfl⟩
  · exact ⟨1, rfl⟩
  · exact ⟨0, rfl⟩

/-- A normalised path is a dot, or slashes and its components. -/
theorem normpath_splitOn (path : List Char) : normpath path = ['.'] ∨
      ∃ k names, (normpath path).splitOn '/' = List.replicate k [] ++ names ∧ ∀ c ∈ names, Plain c := by
  obtain ⟨k, hk⟩ := initial_slashes_replicate path
  have hplain := norm_components_plain (decide (initial_slashes path ≠ [])) path
  unfold normpath
  dsimp only
  generalize norm_components '/' (decide (initial_slashes path ≠ [])) path = names at hplain ⊢
  split
  · exact Or.inl rfl
  · refine Or.inr ?_
    rw [hk, splitOn_slashes]
    by_cases hnil : names = []
    · refine ⟨k + 1, [], ?_, fun c hc => absurd hc List.not_mem_nil⟩
      rw [hnil, join_nil, List.splitOn_nil, List.replicate_succ', List.append_nil]
    · exact ⟨k, names, by rw [splitOn_join (fun n hn => (hplain n hn).no_slash) hnil], hplain⟩

/-- Behind a component that is not empty there are only plain ones. -/
theorem plain_behind {k : ℕ} {names before behind : List Name} {last : Name}
    (h : List.replicate k [] ++ names = before ++ [last] ++ behind) (hlast : last ≠ [])
    (hnames : ∀ c ∈ names, Plain c) : ∀ c ∈ behind, Plain c := by
  induction k generalizing before with
  | zero =>
      intro c hc
      rw [List.replicate_zero, List.nil_append] at h
      apply hnames
      rw [h]
      exact List.mem_append_right _ hc
  | succ k ih =>
      rw [List.replicate_succ, List.cons_append] at h
      cases before with
      | nil =>
          rw [List.nil_append, List.singleton_append, List.cons.injEq] at h
          exact absurd h.1.symm hlast
      | cons first before =>
          rw [List.cons_append, List.cons_append, List.cons.injEq] at h
          exact ih h.2

theorem join_concat_nil (first : Name) (before : List Name) :
    (join '/' (first :: before ++ [[]])).getLast? = some '/' := by
  induction before generalizing first with
  | nil =>
      rw [List.singleton_append, join_cons_cons, join_singleton]
      exact List.getLast?_concat
  | cons second before ih =>
      rw [List.cons_append, List.cons_append, join_cons_cons, List.getLast?_append_of_ne_nil _
        (List.cons_ne_nil _ _)]
      have hrest := ih second
      rw [List.cons_append] at hrest
      rw [List.getLast?_cons, hrest]
      rfl

/-- What is stripped of slashes does not end in one. -/
theorem rstrip_last {text : List Char} (h : rstrip text ≠ []) :
    ∃ before last, (rstrip text).splitOn '/' = before ++ [last] ∧ last ≠ [] := by
  obtain ⟨before, last, hsplit⟩ : ∃ before last, (rstrip text).splitOn '/' = before ++ [last] :=
    ⟨_, _, (List.dropLast_append_getLast (List.splitOn_ne_nil '/' _)).symm⟩
  refine ⟨before, last, hsplit, ?_⟩
  rintro rfl
  have hjoin : join '/' (before ++ [[]]) = rstrip text := by
    rw [← hsplit]
    exact List.intercalate_splitOn '/'
  have hslash : (rstrip text).getLast? = some '/' := by
    rw [← hjoin]
    cases before with
    | nil => exact absurd hjoin.symm h
    | cons first before => exact join_concat_nil first before
  rw [List.getLast?_eq_getLast_of_ne_nil h, Option.some.injEq] at hslash
  have hno := List.rdropWhile_last_not (fun c => decide (c = '/')) text h
  exact hno (by simpa [rstrip] using hslash)

theorem path_join_head {base rel : List Char} (hrel : rel.head? ≠ some '/') :
    path_join base rel = if base = [] ∨ base.getLast? = some '/' then base ++ rel else base ++ '/' :: rel := by
  rw [path_join, if_neg hrel]

/-- A relative path is normalised to one. -/
theorem normpath_relative {path : List Char} (h : path.head? ≠ some '/') : (normpath path).head? ≠ some '/' := by
  have hslashes : initial_slashes path = [] := by
    unfold initial_slashes
    split
    · exact absurd rfl h
    · exact absurd rfl h
    · exact absurd rfl h
    · rfl
  unfold normpath
  dsimp only
  rw [hslashes, List.nil_append]
  have hplain := norm_components_plain (decide (([] : List Char) ≠ [])) path
  generalize norm_components '/' (decide (([] : List Char) ≠ [])) path = names at hplain ⊢
  split
  · decide
  · cases names with
    | nil => simp
    | cons first rest =>
        have hfirst := hplain first List.mem_cons_self
        cases first with
        | nil => exact absurd rfl hfirst.ne_nil
        | cons c cs =>
            have hc : c ≠ '/' := by
              rintro rfl
              exact hfirst.no_slash List.mem_cons_self
            cases rest with
            | nil =>
                rw [join_singleton]
                simpa using hc
            | cons second rest =>
                rw [join_cons_cons]
                simpa using hc

/-- **What a clamp leaves**: the folder, or the folder, a slash and plain components. -/
theorem clamp_to_root_spec {root rel absolute : List Char} (h : clamp_to_root root rel = some absolute) :
    rstrip root ≠ [] ∧ Char.ofNat 0 ∉ rel ∧ (absolute = rstrip root ∨
        ∃ rest, absolute = rstrip root ++ '/' :: rest ∧ ∀ c ∈ rest.splitOn '/', Plain c) := by
  unfold clamp_to_root at h
  dsimp only at h
  split_ifs at h with hrel hkeep
  rw [not_or, not_or] at hrel
  obtain ⟨hne, hnul, hhead⟩ := hrel
  rw [Option.some.injEq] at h
  rw [h] at hkeep
  have hbase : rstrip root ≠ [] := by
    intro hnil
    rw [hnil, path_join_head hhead, if_pos (Or.inl rfl), List.nil_append] at h
    obtain hroot | ⟨rest, hrest⟩ := hkeep
    · -- a normalised path is not empty
      rw [hnil, ← h] at hroot
      unfold normpath at hroot
      dsimp only at hroot
      split at hroot
      · exact absurd hroot (by simp)
      · rename_i hsome
        exact hsome hroot
    · rw [hnil] at hrest
      apply normpath_relative hhead
      rw [h, ← hrest]
      rfl
  refine ⟨hbase, hnul, ?_⟩
  obtain hroot | ⟨rest, hrest⟩ := hkeep
  · exact Or.inl hroot
  · refine Or.inr ⟨rest, ?_, ?_⟩
    · rw [← hrest, List.append_assoc, List.singleton_append]
    · obtain ⟨before, last, hsplit, hlast⟩ := rstrip_last hbase
      obtain hdot | ⟨k, names, hcomps, hplain⟩ := normpath_splitOn (path_join (rstrip root) rel)
      · have hslash : '/' ∈ normpath (path_join (rstrip root) rel) := by
          rw [h, ← hrest]
          simp
        rw [hdot] at hslash
        exact absurd hslash (by decide)
      · rw [h, ← hrest, List.append_assoc, List.singleton_append, List.splitOn_append_cons_self,
          hsplit] at hcomps
        exact plain_behind hcomps.symm hlast hplain

/-- So it is with the target of a move, which is not the folder itself. -/
theorem clamp_move_target_spec {root dest_rel absolute : List Char}
    (h : clamp_move_target root dest_rel = some absolute) :
    rstrip root ≠ [] ∧ ∃ rest, absolute = rstrip root ++ '/' :: rest ∧ ∀ c ∈ rest.splitOn '/', Plain c := by
  unfold clamp_move_target at h
  split at h
  · exact absurd h (by simp)
  · rename_i clamped hclamp
    split_ifs at h with hroot hleaf
    obtain rfl := Option.some.inj h
    obtain ⟨hbase, -, hself | hbelow⟩ := clamp_to_root_spec hclamp
    · exact absurd hself hroot
    · exact ⟨hbase, hbelow⟩

/-! ## What a plan is made of -/

/-- An item of a plan is the item of an approved move, to the target it is clamped to. -/
def Approved (root : List Char) (by_id : ℕ → Option FsEntryRow) (moves : List ApprovedMove)
    (item : PlanItem) (absolute : List Char) : Prop :=
  ∃ move ∈ moves, ∃ entry hash, by_id move.entry_id = some entry ∧
    clamp_move_target root move.dest_rel.toList = some absolute ∧
    item = move_item (rstrip root) absolute entry hash

/-- What the loop keeps: the targets of the items, no two of them the same. -/
structure Collected (root : List Char) (by_id : ℕ → Option FsEntryRow) (moves : List ApprovedMove)
    (build : Building) : Prop where
  items : List.Forall₂ (Approved root by_id moves) build.items build.taken
  distinct : build.taken.Nodup

theorem add_move_collected {root : List Char} {by_id : ℕ → Option FsEntryRow}
    {all : List ApprovedMove} {build build' : Building} {move : ApprovedMove} (hmove : move ∈ all)
    (h : Collected root by_id all build) (hadd : add_move root by_id build move = .ok build') :
    Collected root by_id all build' := by
  unfold add_move at hadd
  split_ifs at hadd with hseen
  split at hadd
  · exact absurd hadd (by simp)
  · rename_i entry hentry
    split at hadd
    · exact absurd hadd (by simp)
    · rename_i absolute hclamp
      split_ifs at hadd with hsame htaken
      split at hadd
      · exact absurd hadd (by simp)
      · split at hadd
        · exact absurd hadd (by simp)
        · rename_i hash _
          obtain rfl := Except.ok.inj hadd
          refine ⟨?_, ?_⟩
          · apply List.rel_append h.items
            exact List.Forall₂.cons ⟨move, hmove, entry, hash, hentry, hclamp, rfl⟩ .nil
          · rw [List.nodup_append]
            refine ⟨h.distinct, List.nodup_singleton _, ?_⟩
            rintro a ha b hb rfl
            rw [List.mem_singleton.mp hb] at ha
            exact htaken ha

theorem add_moves_collected {root : List Char} {by_id : ℕ → Option FsEntryRow}
    {all moves : List ApprovedMove} {build build' : Building} (hmoves : ∀ move ∈ moves, move ∈ all)
    (h : Collected root by_id all build) (hadd : add_moves root by_id build moves = .ok build') :
    Collected root by_id all build' := by
  induction moves generalizing build with
  | nil =>
      rw [add_moves, Except.ok.injEq] at hadd
      rw [← hadd]
      exact h
  | cons move moves ih =>
      obtain ⟨hmove, hrest⟩ := List.forall_mem_cons.mp hmoves
      rw [add_moves] at hadd
      split at hadd
      · exact absurd hadd (by simp)
      · rename_i next hnext
        exact ih hrest (add_move_collected hmove h hnext) hadd

/-- **What a plan of moves is**: under the folder, of the approved moves, to targets of which no
two are the same. -/
theorem build_move_plan_spec {rows : List Joined} {plan_id created_by root : String}
    {volume_id : ℕ} {moves : List ApprovedMove} {scope : Option ScopeFilter} {build : MovePlanBuild}
    (h : build_move_plan rows plan_id created_by volume_id root moves scope = .ok build) :
    build.plan.move_root = some (String.ofList (rstrip root.toList)) ∧
      ∃ targets : List (List Char), targets.Nodup ∧
        List.Forall₂ (Approved root.toList (entries_by_id rows volume_id
          (moves.map ApprovedMove.entry_id) (rstrip root.toList) scope) moves)
          build.plan.items targets := by
  unfold build_move_plan at h
  split_ifs at h
  dsimp only at h
  split at h
  · exact absurd h (by simp)
  · rename_i collected hcollected
    split_ifs at h
    obtain rfl := Except.ok.inj h
    have hall := add_moves_collected (fun _ hmove => hmove) ⟨.nil, List.nodup_nil⟩ hcollected
    exact ⟨rfl, collected.taken, hall.distinct, hall.items⟩

end Fathom.Organize
