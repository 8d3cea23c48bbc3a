/-
**The bell** (`core/notifications.py`): `emit`, `mark_read` and `mark_all_read`, each in a
transaction of its own, in any interleaving.

`emit` looks for the unread row of its key, and refreshes it or inserts one. The two are
statements of one transaction and nothing in the table keeps a second emit from looking in
between, so both insert; and the lookup of every emit after that finds two rows where it
takes one. What goes wrong is always the same commit: of a row that was inserted because there
was none, when by now there is one (`UpToDate`).
-/
import Fathom.Auth.Scope
import Fathom.Lib.RowLocks
import Fathom.Lib.System
import Mathlib.Data.Int.Notation

set_option autoImplicit false

namespace Fathom.Notify

open Fathom.Auth (ScopeFilter)

/-- A row of `notification`. The primary key is the key of the table. -/
structure Notification where
  category : String
  severity : String
  title : String
  body : String
  source : String
  host_id : Option ℕ
  volume_id : Option ℕ
  dedup_key : Option String
  created_at : ℤ
  read_at : Option ℤ
  deriving DecidableEq

/-- `CATEGORIES`. -/
def CATEGORIES : List String := ["recommendation", "problem", "activity", "security"]

/-- `SEVERITIES`. -/
def SEVERITIES : List String := ["info", "warning", "critical"]

/-- `_visible`, as what a row must meet. -/
def visible (scope : Option ScopeFilter) (note : Notification) : Bool :=
  match scope with
  | none => true
  | some scope => scope.is_global || note.host_id.isNone || note.host_id.any fun host_id => scope.host_ids.contains host_id

/-- The arguments of `emit`. `moment` is what `_now` comes to. -/
structure Emit where
  category : String
  title : String
  source : String
  body : String := ""
  severity : String := "info"
  host_id : Option ℕ := none
  volume_id : Option ℕ := none
  dedup_key : Option String := none
  moment : ℤ
  deriving DecidableEq

/-- The arguments of `mark_read`, and without ids of `mark_all_read`. -/
structure Mark where
  ids : Option (List ℕ)
  scope : Option ScopeFilter
  moment : ℤ
  deriving DecidableEq

/-- The `WHERE` of the lookup of `emit`. -/
def unread_under (dedup_key : String) (note : Notification) : Bool :=
  note.dedup_key == some dedup_key && note.read_at.isNone

/-- The row `emit` inserts. -/
def Emit.note (e : Emit) : Notification :=
  { category := e.category, severity := e.severity, title := e.title, body := e.body, source := e.source
    host_id := e.host_id, volume_id := e.volume_id, dedup_key := e.dedup_key, created_at := e.moment
    read_at := none }

/-- What `emit` writes into the row it has found. -/
def Emit.refresh (e : Emit) (note : Notification) : Notification :=
  { note with title := e.title, body := e.body, severity := e.severity, created_at := e.moment }

/-- The `WHERE` of the two marks, but for the ids. -/
def Mark.where_ (m : Mark) (note : Notification) : Bool := note.read_at.isNone && visible m.scope note

/-- The `SET` of the two marks. -/
def Mark.set (m : Mark) (note : Notification) : Notification := { note with read_at := some m.moment }

/-- What ends a call without a result. -/
inductive Raised where
  /-- `ValueError`: `unknown notification category …` -/
  | unknown_category (category : String)
  /-- `ValueError`: `unknown notification severity …` -/
  | unknown_severity (severity : String)
  /-- `MultipleResultsFound`, of `scalar_one_or_none` -/
  | multiple_results
  deriving DecidableEq

/-- Where a transaction stands. -/
inductive Stage where
  | to_look (e : Emit) (dedup_key : String)
  | to_refresh (e : Emit) (id : ℕ)
  | to_insert (e : Emit)
  | to_find (m : Mark)
  | marking (m : Mark) (found : List ℕ)
  /-- the call has returned the row, or how many rows it has marked -/
  | done (returned : ℕ)
  | raised (error : Raised)
  deriving DecidableEq

/-- `emit`, to its first statement. -/
def Emit.begin (e : Emit) : Stage :=
  if !CATEGORIES.contains e.category then .raised (.unknown_category e.category)
  else if !SEVERITIES.contains e.severity then .raised (.unknown_severity e.severity)
  else
    match e.dedup_key with
    | some dedup_key => .to_look e dedup_key
    | none => .to_insert e

/-- `mark_read` and `mark_all_read`, to their first statement. -/
def Mark.begin (m : Mark) : Stage := if m.ids = some [] then .done 0 else .to_find m

/-- The table, and the open transactions. -/
structure Bell where
  table : RowLocks Notification := {}
  transactions : ℕ → Option Stage := fun _ => none

/-- Transaction `a` goes on to a stage, or ends. -/
def Bell.at (s : Bell) (a : ℕ) (stage : Option Stage) : ℕ → Option Stage :=
  fun b => if b = a then stage else s.transactions b

/-- The next statement of a transaction, when it does not wait. -/
def advance (s : Bell) (a : ℕ) : Stage → Option Bell
  | .to_look e dedup_key =>
    match (s.table.view a).filter fun row => unread_under dedup_key row.2 with
    | [] => some { s with transactions := s.at a (some (.to_insert e)) }
    | [existing] => some { s with transactions := s.at a (some (.to_refresh e existing.1)) }
    | _ => some { s with transactions := s.at a (some (.raised .multiple_results)) }
  | .to_refresh e id =>
    (s.table.update a [id] (fun _ => true) e.refresh).map fun table =>
      { table, transactions := s.at a (some (.done id)) }
  | .to_insert e => some { table := s.table.insert a e.note, transactions := s.at a (some (.done s.table.next)) }
  | .to_find m =>
    let found := (s.table.found a m.where_).filter fun id => m.ids.all fun ids => ids.contains id
    some { s with transactions := s.at a (some (.marking m found)) }
  | .marking m found =>
    (s.table.update a found m.where_ m.set).map fun table =>
      let marked := (s.table.view a).filter fun row => found.contains row.1 && m.where_ row.2
      { table, transactions := s.at a (some (.done marked.length)) }
  | .done _ => none
  | .raised _ => none

/-- What may happen. -/
inductive Label where
  | emit (a : ℕ) (e : Emit)
  | mark (a : ℕ) (m : Mark)
  | next (a : ℕ)
  | commit (a : ℕ)
  | rollback (a : ℕ)
  deriving DecidableEq

/-- One step. A call that raised is rolled back. -/
def step (s : Bell) : Label → Option Bell
  | .emit a e =>
    match s.transactions a with
    | none => some { s with transactions := s.at a (some e.begin) }
    | some _ => none
  | .mark a m =>
    match s.transactions a with
    | none => some { s with transactions := s.at a (some m.begin) }
    | some _ => none
  | .next a => (s.transactions a).bind (advance s a)
  | .commit a =>
    match s.transactions a with
    | some (.done _) => some { table := s.table.commit a, transactions := s.at a none }
    | _ => none
  | .rollback a =>
    match s.transactions a with
    | some _ => some { table := s.table.rollback a, transactions := s.at a none }
    | none => none

/-- The bell, from an empty table. -/
def bell : System Bell Label where
  init := fun s => ∃ next, s = { table := { next } }
  step := step

/-- At most one unread notification a key, and no `emit` that failed on more. -/
def Coalesced (s : Bell) : Prop :=
  (∀ dedup_key, Writes.count (unread_under dedup_key) s.table.rows ≤ 1) ∧
  ∀ a, s.transactions a ≠ some (.raised .multiple_results)

/-- When a row is committed that `emit` has inserted, no row is unread under its key. -/
def UpToDate (s : Bell) (label : Label) : Prop :=
  ∀ a, label = .commit a → ∀ row ∈ (s.table.writes a).inserts, ∀ dedup_key, unread_under dedup_key row.2 = true →
    ∀ other ∈ s.table.rows, unread_under dedup_key other.2 = false

/-! ## What the writes keep -/

/-- Nothing is unread in the new version that was not in the old. -/
def NotRevived (old new : Notification) : Prop :=
  ∀ dedup_key, unread_under dedup_key new = true → unread_under dedup_key old = true

theorem not_revived_refl (note : Notification) : NotRevived note note := fun _ h => h

theorem not_revived_trans (x y z : Notification) (hxy : NotRevived x y) (hyz : NotRevived y z) : NotRevived x z :=
  fun dedup_key h => hxy dedup_key (hyz dedup_key h)

theorem not_revived_refresh (e : Emit) (note : Notification) : NotRevived note (e.refresh note) := fun _ h => h

theorem not_revived_set (m : Mark) (note : Notification) : NotRevived note (m.set note) := by
  intro dedup_key h
  rw [unread_under, Mark.set] at h
  exact absurd h (by simp)

/-! ## The invariant -/

/-- What every step keeps: a transaction has written nothing before its call returns, and an
`emit` that inserted one row has updated none. -/
structure Inv (s : Bell) : Prop where
  sound : s.table.Sound NotRevived
  idle : ∀ a, (∀ returned, s.transactions a ≠ some (.done returned)) → s.table.writes a = {}
  single : ∀ a, (s.table.writes a).inserts = [] ∨
    ∃ row, (s.table.writes a).inserts = [row] ∧ (s.table.writes a).updates = []

theorem inv_init (next : ℕ) : Inv { table := { next } } where
  sound := RowLocks.sound_empty _ next
  idle := fun _ _ => rfl
  single := fun _ => .inl rfl

variable {s t : Bell} {a : ℕ}

@[simp] theorem at_self (s : Bell) (a : ℕ) (stage : Option Stage) : s.at a stage a = stage := if_pos rfl

theorem at_ne (s : Bell) {a b : ℕ} (stage : Option Stage) (h : b ≠ a) : s.at a stage b = s.transactions b := if_neg h

/-- A transaction that has written nothing sees what is committed. -/
theorem view_idle (h : s.table.writes a = {}) : s.table.view a = s.table.rows := by
  rw [RowLocks.view, h, Writes.view, List.append_nil]
  exact List.map_id _

/-- A step within a call that writes nothing. -/
theorem Inv.stay (h : Inv s) {stage : Stage} (hidle : s.table.writes a = {}) :
    Inv { s with transactions := s.at a (some stage) } where
  sound := h.sound
  idle := by
    intro b hb
    by_cases hba : b = a
    · rw [hba]
      exact hidle
    · exact h.idle b fun returned => by rw [← at_ne s (some stage) hba]; exact hb returned
  single := h.single

/-- The statement that ends a call: an insert or an update. -/
theorem Inv.write (h : Inv s) {table : RowLocks Notification} {w : Writes Notification} {returned : ℕ}
    (hsound : table.Sound NotRevived) (hwrites : table.writes = s.table.with_writes a w)
    (hsingle : w.inserts = [] ∨ ∃ row, w.inserts = [row] ∧ w.updates = []) :
    Inv { table, transactions := s.at a (some (.done returned)) } where
  sound := hsound
  idle := by
    intro b hb
    by_cases hba : b = a
    · rw [hba] at hb
      exact absurd (at_self s a _) (hb returned)
    · dsimp only at hb ⊢
      rw [hwrites, s.table.with_writes_ne w hba]
      refine h.idle b fun r => ?_
      rw [← at_ne s (some (.done returned)) hba]
      exact hb r
  single := by
    intro b
    dsimp only
    rw [hwrites]
    by_cases hba : b = a
    · rw [hba, s.table.with_writes_self]
      exact hsingle
    · rw [s.table.with_writes_ne w hba]
      exact h.single b

/-- The end of a transaction. -/
theorem Inv.finish (h : Inv s) {table : RowLocks Notification} (hsound : table.Sound NotRevived)
    (hwrites : table.writes = s.table.with_writes a {}) : Inv { table, transactions := s.at a none } where
  sound := hsound
  idle := by
    intro b hb
    dsimp only at hb ⊢
    rw [hwrites]
    by_cases hba : b = a
    · rw [hba, s.table.with_writes_self]
    · rw [s.table.with_writes_ne _ hba]
      refine h.idle b fun r => ?_
      rw [← at_ne s none hba]
      exact hb r
  single := by
    intro b
    dsimp only
    rw [hwrites]
    by_cases hba : b = a
    · rw [hba, s.table.with_writes_self]
      exact .inl rfl
    · rw [s.table.with_writes_ne _ hba]
      exact h.single b

/-! ## What a step can do -/

/-- The steps: one that writes nothing yet, one that ends a call, and the ends of a
transaction. -/
inductive Steps (s : Bell) : Label → Bell → Prop where
  | stay {a : ℕ} {label : Label} {stage : Stage} (hlabel : ∀ b, label ≠ .commit b)
      (hidle : ∀ returned, s.transactions a ≠ some (.done returned))
      (hraised : stage = .raised .multiple_results → ∃ dedup_key,
        2 ≤ Writes.count (unread_under dedup_key) (s.table.view a)) :
      Steps s label { s with transactions := s.at a (some stage) }
  | insert {a : ℕ} {e : Emit} (hstage : s.transactions a = some (.to_insert e)) :
      Steps s (.next a) { table := s.table.insert a e.note, transactions := s.at a (some (.done s.table.next)) }
  | update {a returned : ℕ} {found : List ℕ} {p : Notification → Bool} {set : Notification → Notification}
      {table : RowLocks Notification} (hidle : ∀ returned, s.transactions a ≠ some (.done returned))
      (hset : ∀ note, NotRevived note (set note)) (hupdate : s.table.update a found p set = some table) :
      Steps s (.next a) { table, transactions := s.at a (some (.done returned)) }
  | commit {a returned : ℕ} (hstage : s.transactions a = some (.done returned)) :
      Steps s (.commit a) { table := s.table.commit a, transactions := s.at a none }
  | rollback {a : ℕ} : Steps s (.rollback a) { table := s.table.rollback a, transactions := s.at a none }

theorem begin_not_multiple (e : Emit) : e.begin ≠ .raised .multiple_results := by
  unfold Emit.begin
  split_ifs
  · simp
  · simp
  · split <;> simp

theorem mark_begin_not_multiple (m : Mark) : m.begin ≠ .raised .multiple_results := by
  unfold Mark.begin
  split_ifs <;> simp

theorem steps_of_step {label : Label} (h : step s label = some t) : Steps s label t := by
  cases label with
  | emit a e =>
      rw [step] at h
      cases hstage : s.transactions a with
      | some stage => rw [hstage] at h; exact absurd h (by simp)
      | none =>
          rw [hstage] at h
          rw [← Option.some.inj h]
          exact .stay (fun _ => by simp) (fun _ => by rw [hstage]; simp) fun heq => absurd heq (begin_not_multiple e)
  | mark a m =>
      rw [step] at h
      cases hstage : s.transactions a with
      | some stage => rw [hstage] at h; exact absurd h (by simp)
      | none =>
          rw [hstage] at h
          rw [← Option.some.inj h]
          exact .stay (fun _ => by simp) (fun _ => by rw [hstage]; simp) fun heq => absurd heq (mark_begin_not_multiple m)
  | next a =>
      rw [step, Option.bind_eq_some_iff] at h
      obtain ⟨stage, hstage, hadvance⟩ := h
      have hstay : ∀ {new : Stage}, (∀ returned, stage ≠ .done returned) → (new = .raised .multiple_results →
          ∃ dedup_key, 2 ≤ Writes.count (unread_under dedup_key) (s.table.view a)) →
          Steps s (.next a) { s with transactions := s.at a (some new) } := fun hne hmany =>
        .stay (fun _ => by simp) (fun r => by rw [hstage]; exact fun heq => hne r (Option.some.inj heq)) hmany
      cases stage with
      | to_look e dedup_key =>
          rw [advance] at hadvance
          split at hadvance
          · rw [← Option.some.inj hadvance]
            exact hstay (by simp) (by simp)
          · rw [← Option.some.inj hadvance]
            exact hstay (by simp) (by simp)
          · next hnil hone =>
              rw [← Option.some.inj hadvance]
              refine hstay (by simp) fun _ => ⟨dedup_key, ?_⟩
              rw [Writes.count, List.countP_eq_length_filter]
              cases hrows : (s.table.view a).filter fun row => unread_under dedup_key row.2 with
              | nil => exact absurd hrows hnil
              | cons first rest =>
                  cases rest with
                  | nil => exact absurd hrows (hone first)
                  | cons second rest => simp
      | to_refresh e id =>
          rw [advance, Option.map_eq_some_iff] at hadvance
          obtain ⟨table, hupdate, rfl⟩ := hadvance
          exact .update (fun _ => by rw [hstage]; simp) (not_revived_refresh e) hupdate
      | to_insert e =>
          rw [advance, Option.some.injEq] at hadvance
          rw [← hadvance]
          exact .insert hstage
      | to_find m =>
          rw [advance, Option.some.injEq] at hadvance
          rw [← hadvance]
          exact hstay (by simp) (by simp)
      | marking m found =>
          rw [advance, Option.map_eq_some_iff] at hadvance
          obtain ⟨table, hupdate, rfl⟩ := hadvance
          exact .update (fun _ => by rw [hstage]; simp) (not_revived_set m) hupdate
      | done returned => exact absurd hadvance (by simp [advance])
      | raised error => exact absurd hadvance (by simp [advance])
  | commit a =>
      rw [step] at h
      split at h
      · next returned hstage =>
          rw [← Option.some.inj h]
          exact .commit hstage
      · exact absurd h (by simp)
  | rollback a =>
      rw [step] at h
      split at h
      · rw [← Option.some.inj h]
        exact .rollback
      · exact absurd h (by simp)

theorem inv_step {label : Label} (h : Inv s) (hstep : Steps s label t) : Inv t := by
  cases hstep with
  | stay _ hidle _ => exact h.stay (h.idle _ hidle)
  | @insert a e hstage =>
      have hidle := h.idle a (by rw [hstage]; simp)
      refine h.write (h.sound.insert not_revived_refl a _) rfl (.inr ?_)
      rw [hidle]
      exact ⟨_, rfl, rfl⟩
  | @update a returned found p set table hidle hset hupdate =>
      obtain ⟨hsound, -, -, hwrites⟩ := h.sound.update not_revived_trans hset hupdate
      refine h.write hsound hwrites (.inl ?_)
      rw [h.idle a hidle]
      rfl
  | commit hstage => exact h.finish (h.sound.commit not_revived_refl _) rfl
  | rollback => exact h.finish (h.sound.rollback not_revived_refl _) rfl

/-! ## Coalescing -/

theorem at_not_multiple {stage : Option Stage} (h : ∀ b, s.transactions b ≠ some (.raised .multiple_results))
    (hstage : stage ≠ some (.raised .multiple_results)) (b : ℕ) : s.at a stage b ≠ some (.raised .multiple_results) := by
  by_cases hb : b = a
  · rw [hb, at_self]
    exact hstage
  · rw [at_ne s stage hb]
    exact h b

/-- A commit adds the row its `emit` has inserted, and revives none. -/
theorem coalesced_commit_iff (h : Inv s) (hgood : ∀ dedup_key, Writes.count (unread_under dedup_key) s.table.rows ≤ 1)
    (a : ℕ) : (∀ dedup_key, Writes.count (unread_under dedup_key) (s.table.view a) ≤ 1) ↔
    ∀ row ∈ (s.table.writes a).inserts, ∀ dedup_key, unread_under dedup_key row.2 = true →
      ∀ other ∈ s.table.rows, unread_under dedup_key other.2 = false := by
  constructor
  · intro hview row hrow dedup_key hunread other hother
    rcases h.single a with hnone | ⟨row', hinserts, hupdates⟩
    · rw [hnone] at hrow
      exact absurd hrow List.not_mem_nil
    rw [hinserts, List.mem_singleton] at hrow
    -- without updates the rows are those committed and the new one
    have hsame : s.table.view a = s.table.rows ++ [row] := by
      have hversion : (s.table.writes a).version = id := by
        funext r
        rw [Writes.version, hupdates]
        rfl
      rw [RowLocks.view, Writes.view, hversion, List.map_id, hinserts, hrow]
    have hcount := hview dedup_key
    rw [hsame, Writes.count_append, Writes.count, Writes.count, List.countP_singleton, if_pos hunread] at hcount
    have hzero : s.table.rows.countP (fun row => unread_under dedup_key row.2) = 0 := by omega
    simpa using List.countP_eq_zero.mp hzero other hother
  · intro hfresh dedup_key
    have hle := h.sound.count_view (fun x y hxy hy => hxy dedup_key hy) a
    have hold := hgood dedup_key
    rcases h.single a with hnone | ⟨row, hinserts, -⟩
    · rw [hnone] at hle
      exact Nat.le_trans hle hold
    · have hone : Writes.count (unread_under dedup_key) [row] = if unread_under dedup_key row.2 = true then 1 else 0 :=
        List.countP_singleton
      rw [hinserts, hone] at hle
      by_cases hunread : unread_under dedup_key row.2 = true
      · have hzero : Writes.count (unread_under dedup_key) s.table.rows = 0 := by
          refine List.countP_eq_zero.mpr fun other hother => ?_
          rw [hfresh row (hinserts ▸ List.mem_singleton_self row) dedup_key hunread other hother]
          simp
        rw [hzero, if_pos hunread] at hle
        exact hle
      · rw [if_neg hunread] at hle
        exact Nat.le_trans hle hold

theorem coalesced_step_iff {label : Label} (h : Inv s) (hgood : Coalesced s) (hstep : Steps s label t) :
    Coalesced t ↔ UpToDate s label := by
  obtain ⟨hcount, hraised⟩ := hgood
  cases hstep with
  | @stay a label stage hlabel hidle hmany =>
      refine ⟨fun _ b hb => absurd hb (hlabel b), fun _ => ⟨hcount, at_not_multiple hraised fun heq => ?_⟩⟩
      -- the lookup sees what is committed
      obtain ⟨dedup_key, htwo⟩ := hmany (Option.some.inj heq)
      rw [view_idle (h.idle a hidle)] at htwo
      have hone := hcount dedup_key
      omega
  | insert _ => exact ⟨fun _ b hb => absurd hb (by simp), fun _ => ⟨hcount, at_not_multiple hraised (by simp)⟩⟩
  | update _ _ hupdate =>
      refine ⟨fun _ b hb => absurd hb (by simp), fun _ => ⟨?_, at_not_multiple hraised (by simp)⟩⟩
      dsimp only
      rw [(h.sound.update not_revived_trans (by assumption) hupdate).2.1]
      exact hcount
  | @commit a returned _ =>
      have hiff := coalesced_commit_iff h hcount a
      constructor
      · rintro ⟨hview, -⟩ b hb
        rw [← Label.commit.inj hb]
        exact hiff.mp hview
      · intro hfresh
        exact ⟨hiff.mpr (hfresh a rfl), at_not_multiple hraised (by simp)⟩
  | rollback => exact ⟨fun _ b hb => absurd hb (by simp), fun _ => ⟨hcount, at_not_multiple hraised (by simp)⟩⟩

theorem coalesced_init (next : ℕ) : Coalesced { table := { next } } := ⟨fun _ => Nat.zero_le 1, fun _ => by simp⟩

/-- **When the bell coalesces.** In every state of a run there is at most one unread notification
a key and no `emit` has failed on more, exactly when every row that an `emit` has inserted is
committed while no row is unread under its key. -/
theorem coalesced_iff (next : ℕ) (labels : List Label) (s : Bell)
    (hrun : bell.run { table := { next } } labels = some s) :
    (∀ n u, bell.run { table := { next } } (labels.take n) = some u → Coalesced u) ↔
    bell.Meets UpToDate { table := { next } } labels :=
  System.run_good_iff_meets (fun _ _ _ h hstep => inv_step h (steps_of_step hstep))
    (fun _ _ _ h hgood hstep => coalesced_step_iff h hgood (steps_of_step hstep)) (inv_init next) (coalesced_init next)
    hrun

/-! A disk is nearly full, and two workers say so at once. -/

/-- The alert. -/
def disk_full (moment : ℤ) : Emit :=
  { category := "problem", title := "Disk 95% full", source := "capacity", severity := "warning"
    dedup_key := some "capacity:host=3:vol=7", moment }

/-- One after the other, the second refreshes the row of the first. -/
def alerts_in_turn : List Label :=
  [.emit 0 (disk_full 0), .next 0, .next 0, .commit 0, .emit 1 (disk_full 1), .next 1, .next 1, .commit 1]

theorem coalesced_iff_in_turn : ∃ s, bell.run { table := {} } alerts_in_turn = some s ∧
    s.table.rows = [(0, (disk_full 1).note)] ∧
    ((∀ n u, bell.run { table := {} } (alerts_in_turn.take n) = some u → Coalesced u) ↔
      bell.Meets UpToDate { table := {} } alerts_in_turn) := by
  have hsome : (bell.run { table := {} } alerts_in_turn).map (fun s => s.table.rows) =
      some [(0, (disk_full 1).note)] := by
    decide +kernel
  obtain ⟨s, hrun, hrows⟩ := Option.map_eq_some_iff.mp hsome
  exact ⟨s, hrun, hrows, coalesced_iff 0 alerts_in_turn s hrun⟩

/-- Both look before either inserts, and a third comes later. -/
def alerts_at_once : List Label :=
  [.emit 0 (disk_full 0), .emit 1 (disk_full 0), .next 0, .next 1, .next 0, .next 1, .commit 0, .commit 1,
    .emit 2 (disk_full 60), .next 2]

/-- Two rows are unread, and the third alert fails on them. -/
theorem alerts_at_once_not_coalesced :
    ¬ ∀ (next : ℕ) (labels : List Label) (s : Bell), bell.run { table := { next } } labels = some s →
      ∀ n u, bell.run { table := { next } } (labels.take n) = some u → Coalesced u := by
  intro h
  have hsome : (bell.run { table := {} } alerts_at_once).map (fun s => (s.table.rows.length, s.transactions 2)) =
      some (2, some (.raised .multiple_results)) := by
    decide +kernel
  obtain ⟨s, hrun, hend⟩ := Option.map_eq_some_iff.mp hsome
  rw [Prod.mk.injEq] at hend
  exact (h 0 alerts_at_once s hrun 10 s hrun).2 2 hend.2

end Fathom.Notify
