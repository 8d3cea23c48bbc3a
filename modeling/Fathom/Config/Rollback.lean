/-
**Settings and rollbacks** (`core/settings_store.py`, `api/deps.py`): the store in memory beside
transactions that end either way.

A write reads everything back into memory at once, with the session that wrote it, so memory
shows the open transaction. `db_session` decides later: a commit makes that the truth, and a
rollback leaves memory with what never was. The transactions follow one another, and a call
that raises before it has written leaves everything alone.
-/
import Fathom.Config.Overlay

set_option autoImplicit false

namespace Fathom.Config

variable {c : Coercions}

/-- The process: what is committed, what the open transaction sees, and the store. -/
structure Process (c : Coercions) where
  committed : Database
  working : Option Database
  store : Store c

/-- A request with a `db_session`: it begins, calls the store, and commits or rolls back. -/
inductive Label where
  | begin
  | call (call : Call)
  | commit
  | rollback

section

variable (fernet : Fernet) (lower : String → String) (base : Base c)

/-- A call on what a session sees. One that raises changes nothing. -/
def State.perform (s : State c) : Call → State c
  | .set_override key value updated_by nonce =>
    match s.set_override fernet lower base key value updated_by nonce with
    | .ok s' => s'
    | .error _ => s
  | .set_secret ref value updated_by nonce =>
    match s.set_secret fernet ref value updated_by nonce with
    | .ok s' => s'
    | .error _ => s
  | .clear_override key => (s.clear_override fernet key).1
  | .effective => { s with store := (s.store.effective base).2 }
  | .refresh => { s with store := .refresh fernet s.db }

/-- One step. -/
def Process.step (p : Process c) : Label → Option (Process c)
  | .begin =>
    match p.working with
    | none => some { p with working := some p.committed }
    | some _ => none
  | .call call =>
    match p.working, call with
    | some db, call =>
      let s := State.perform fernet lower base ⟨db, p.store⟩ call
      some { p with working := some s.db, store := s.store }
    | none, .effective => some { p with store := (p.store.effective base).2 }
    | none, _ => none
  | .commit =>
    match p.working with
    | some db => some { p with committed := db, working := none }
    | none => none
  | .rollback =>
    match p.working with
    | some _ => some { p with working := none }
    | none => none

/-- A process that has loaded its settings. -/
def loaded (db : Database) : Process c := ⟨db, none, .refresh fernet db⟩

/-- The process from its start. -/
def process : System (Process c) Label where
  init := fun p => ∃ db, p = loaded fernet db
  step := Process.step fernet lower base

/-- The store in memory is what is committed, and so are the effective settings. -/
structure Consistent (p : Process c) : Prop where
  overrides : p.store.overrides = decoded fernet p.committed
  version : p.store.version = (p.committed.version.getD 0 : ℕ)
  effective : (p.store.effective base).1 = overlaid base.settings (decoded fernet p.committed)

end

/-- A transaction that is rolled back has written nothing. -/
def WroteNothing (p : Process c) (label : Label) : Prop :=
  label = .rollback → p.working = some p.committed

variable {fernet : Fernet} {lower : String → String} {base : Base c}

/-! ## What a call does -/

/-- A write has raised the version, and memory shows it. -/
def Written (fernet : Fernet) (s s' : State c) : Prop :=
  ∃ db, db.version = s.db.version ∧ s' = State.written fernet db

theorem written_of {s s' : State c} {db : Database} (h : s' = State.written fernet db)
    (hversion : db.version = s.db.version) : Written fernet s s' :=
  ⟨db, hversion, h⟩

theorem perform_cases (fernet : Fernet) (lower : String → String) (base : Base c) (s : State c) (call : Call) :
    Written fernet s (s.perform fernet lower base call) ∨
    ((s.perform fernet lower base call).db = s.db ∧
      ((s.perform fernet lower base call).store = s.store ∨
        (s.perform fernet lower base call).store = (s.store.effective base).2 ∨
        (s.perform fernet lower base call).store = .refresh fernet s.db)) := by
  cases call with
  | set_override key value updated_by nonce =>
      rw [State.perform, State.set_override]
      cases check_override base.settings key value with
      | error e => exact .inr ⟨rfl, .inl rfl⟩
      | ok checked =>
          dsimp only
          cases reset_model lower _ checked.1 value with
          | none => exact .inl (written_of rfl rfl)
          | some model => exact .inl (written_of rfl rfl)
  | set_secret ref value updated_by nonce =>
      rw [State.perform]
      cases ref with
      | field f => exact .inr ⟨rfl, .inl rfl⟩
      | other text free =>
          rw [State.set_secret]
          split_ifs with hlength
          · exact .inr ⟨rfl, .inl rfl⟩
          · exact .inl (written_of rfl rfl)
  | clear_override key => exact .inl (written_of rfl rfl)
  | effective => exact .inr ⟨rfl, .inr (.inl rfl)⟩
  | refresh => exact .inr ⟨rfl, .inr (.inr rfl)⟩

/-! ## What memory shows -/

/-- Memory shows a database. -/
def Shows (fernet : Fernet) (store : Store c) (db : Database) : Prop :=
  store.overrides = decoded fernet db ∧ store.version = (db.version.getD 0 : ℕ)

/-- The settings that are kept are those of the overrides in memory. -/
def Cached (base : Base c) (store : Store c) : Prop :=
  ∀ id version settings, store.cache = some (id, version, settings) →
    settings = overlaid base.settings store.overrides

/-- What `effective` keeps is what it returns. -/
theorem effective_store (store : Store c) (base : Base c) :
    (store.effective base).2.overrides = store.overrides ∧ (store.effective base).2.version = store.version ∧
    (Cached base store → Cached base (store.effective base).2) := by
  unfold Store.effective
  have hbuilt : Cached base { store with
      cache := some (base.id, store.version, overlaid base.settings store.overrides) } := by
    intro id version settings h
    rw [Option.some.injEq, Prod.mk.injEq, Prod.mk.injEq] at h
    exact h.2.2.symm
  cases store.cache with
  | none => exact ⟨rfl, rfl, fun _ => hbuilt⟩
  | some entry =>
      dsimp only
      split_ifs
      · exact ⟨rfl, rfl, fun h => h⟩
      · exact ⟨rfl, rfl, fun _ => hbuilt⟩

theorem shows_refresh (db : Database) : Shows fernet (Store.refresh fernet db : Store c) db := ⟨rfl, rfl⟩

theorem cached_refresh (base : Base c) (db : Database) : Cached base (Store.refresh fernet db) :=
  fun _ _ _ h => absurd h (by simp [Store.refresh])

/-- A call leaves memory showing what its session sees, and a write is seen by the version. -/
theorem perform_shows (fernet : Fernet) (lower : String → String) (base : Base c) (s : State c) (call : Call) :
    (Shows fernet s.store s.db →
      Shows fernet (s.perform fernet lower base call).store (s.perform fernet lower base call).db) ∧
    (Cached base s.store → Cached base (s.perform fernet lower base call).store) ∧
    ((s.perform fernet lower base call).db = s.db ∨
      s.db.version.getD 0 < (s.perform fernet lower base call).db.version.getD 0) := by
  rcases perform_cases fernet lower base s call with
    ⟨db, hversion, hwritten⟩ | ⟨hdb, hsame | heffective | hrefresh⟩
  · rw [hwritten]
    refine ⟨fun _ => shows_refresh _, fun _ => cached_refresh base _, .inr ?_⟩
    rw [State.written, Database.bump_version, hversion, Option.getD_some]
    exact Nat.lt_succ_self _
  · rw [hdb, hsame]
    exact ⟨fun h => h, fun h => h, .inl rfl⟩
  · obtain ⟨hoverrides, hversion, hcached⟩ := effective_store s.store base
    rw [hdb, heffective]
    exact ⟨fun h => ⟨hoverrides.trans h.1, hversion.trans h.2⟩, hcached, .inl rfl⟩
  · rw [hdb, hrefresh]
    exact ⟨fun _ => shows_refresh _, fun _ => cached_refresh base _, .inl rfl⟩

/-! ## Runs -/

/-- What the open transaction sees, or what is committed. -/
def Process.seen (p : Process c) : Database := p.working.getD p.committed

/-- What every step keeps: the kept settings are right, and a transaction that has written
sees a later version. -/
structure Sound (base : Base c) (p : Process c) : Prop where
  cached : Cached base p.store
  version : ∀ db, p.working = some db → db = p.committed ∨ p.committed.version.getD 0 < db.version.getD 0

variable {p q : Process c} {label : Label}

/-- Between two transactions, to show what is committed is to be consistent with it. -/
theorem consistent_iff (h : Sound base p) (hclosed : p.working = none) :
    Consistent fernet base p ↔ Shows fernet p.store p.seen := by
  rw [Process.seen, hclosed, Option.getD_none]
  refine ⟨fun hc => ⟨hc.overrides, hc.version⟩, fun hs => ⟨hs.1, hs.2, ?_⟩⟩
  rw [effective_of_cached h.cached, hs.1]

theorem sound_loaded (db : Database) : Sound base (loaded fernet db) where
  cached := cached_refresh base db
  version := fun _ h => absurd h (by simp [loaded])

theorem shows_loaded (db : Database) : Shows fernet (loaded fernet db : Process c).store (loaded fernet db : Process c).seen :=
  shows_refresh db

/-- What a step can do. -/
inductive Steps (fernet : Fernet) (lower : String → String) (base : Base c) (p : Process c) :
    Label → Process c → Prop where
  | begin (hworking : p.working = none) : Steps fernet lower base p .begin { p with working := some p.committed }
  | call (call : Call) {db : Database} (hworking : p.working = some db) :
      Steps fernet lower base p (.call call)
        { p with
          working := some (State.perform fernet lower base ⟨db, p.store⟩ call).db
          store := (State.perform fernet lower base ⟨db, p.store⟩ call).store }
  | read (hworking : p.working = none) :
      Steps fernet lower base p (.call .effective) { p with store := (p.store.effective base).2 }
  | commit {db : Database} (hworking : p.working = some db) :
      Steps fernet lower base p .commit { p with committed := db, working := none }
  | rollback {db : Database} (hworking : p.working = some db) :
      Steps fernet lower base p .rollback { p with working := none }

theorem steps_of_step (hstep : p.step fernet lower base label = some q) : Steps fernet lower base p label q := by
  obtain ⟨committed, working, store⟩ := p
  unfold Process.step at hstep
  cases working with
  | none =>
      cases label with
      | begin => exact Option.some.inj hstep ▸ .begin rfl
      | call call =>
          cases call with
          | effective => exact Option.some.inj hstep ▸ .read rfl
          | _ => exact absurd hstep (by simp)
      | commit => exact absurd hstep (by simp)
      | rollback => exact absurd hstep (by simp)
  | some db =>
      cases label with
      | begin => exact absurd hstep (by simp)
      | call call => exact Option.some.inj hstep ▸ .call call rfl
      | commit => exact Option.some.inj hstep ▸ .commit rfl
      | rollback => exact Option.some.inj hstep ▸ .rollback rfl

theorem sound_step (h : Sound base p) (hstep : Steps fernet lower base p label q) : Sound base q := by
  cases hstep with
  | begin hworking =>
      refine ⟨h.cached, fun db hdb => .inl ?_⟩
      exact (Option.some.inj hdb).symm
  | @call call db hworking =>
      obtain ⟨-, hcached, hversion⟩ := perform_shows fernet lower base ⟨db, p.store⟩ call
      refine ⟨hcached h.cached, fun db' hdb' => ?_⟩
      rw [← Option.some.inj hdb']
      rcases hversion with hsame | hlater
      · rw [hsame]
        exact h.version db hworking
      · rcases h.version db hworking with hcommitted | hbefore
        · exact .inr (hcommitted ▸ hlater)
        · exact .inr (hbefore.trans hlater)
  | read hworking => exact ⟨(effective_store p.store base).2.2 h.cached, h.version⟩
  | commit hworking => exact ⟨h.cached, fun _ hdb => absurd hdb (by simp)⟩
  | rollback hworking => exact ⟨h.cached, fun _ hdb => absurd hdb (by simp)⟩

/-- Memory goes on showing what is seen, until a rollback. -/
theorem shows_step (h : Shows fernet p.store p.seen) (hstep : Steps fernet lower base p label q)
    (hlabel : label ≠ .rollback) : Shows fernet q.store q.seen := by
  cases hstep with
  | begin hworking =>
      rw [Process.seen, hworking] at h
      exact h
  | @call call db hworking =>
      rw [Process.seen, hworking] at h
      exact (perform_shows fernet lower base ⟨db, p.store⟩ call).1 h
  | read hworking =>
      obtain ⟨hoverrides, hversion, -⟩ := effective_store p.store base
      exact ⟨hoverrides.trans h.1, hversion.trans h.2⟩
  | commit hworking =>
      rw [Process.seen, hworking] at h
      exact h
  | rollback hworking => exact absurd rfl hlabel

/-- After a rollback memory shows what is committed exactly when there was nothing to roll back. -/
theorem rollback_step (hsound : Sound base p) (h : Shows fernet p.store p.seen)
    (hstep : Steps fernet lower base p .rollback q) :
    q.working = none ∧ (Shows fernet q.store q.seen ↔ p.working = some p.committed) := by
  cases hstep with
  | @rollback db hworking =>
      refine ⟨rfl, ?_⟩
      rw [Process.seen, hworking, Option.getD_some] at h
      rw [Process.seen, Option.getD_none, hworking, Option.some.injEq]
      constructor
      · intro hshows
        rcases hsound.version db hworking with hsame | hlater
        · exact hsame
        · have hversion : (db.version.getD 0 : ℤ) = (p.committed.version.getD 0 : ℕ) := h.2.symm.trans hshows.2
          omega
      · rintro rfl
        exact h

/-- Where memory is right between transactions, it is right within them. -/
theorem shows_within {labels : List Label} (hshows : Shows fernet p.store p.seen)
    (hclosed : ∀ n q, (process fernet lower base).run p (labels.take n) = some q → q.working = none →
      Shows fernet q.store q.seen) {n : ℕ} (hrun : (process fernet lower base).run p (labels.take n) = some q)
    (hsound : Sound base p) : Shows fernet q.store q.seen := by
  induction labels generalizing p n with
  | nil =>
      rw [List.take_nil, System.run_nil, Option.some.injEq] at hrun
      rw [← hrun]
      exact hshows
  | cons label labels ih =>
      cases n with
      | zero =>
          rw [List.take_zero, System.run_nil, Option.some.injEq] at hrun
          rw [← hrun]
          exact hshows
      | succ n =>
          rw [List.take_succ_cons, System.run_cons, Option.bind_eq_some_iff] at hrun
          obtain ⟨t, hstep, hrun⟩ := hrun
          have hsteps : Steps fernet lower base p label t := steps_of_step hstep
          have hnext : ∀ m u, (process fernet lower base).run t (labels.take m) = some u →
              (process fernet lower base).run p ((label :: labels).take (m + 1)) = some u := by
            intro m u hu
            rw [List.take_succ_cons, System.run_cons, hstep, Option.bind_some, hu]
          have ht : Shows fernet t.store t.seen := by
            by_cases hlabel : label = .rollback
            · rw [hlabel] at hsteps
              exact hclosed 1 t (hnext 0 t rfl) (rollback_step hsound hshows hsteps).1
            · exact shows_step hshows hsteps hlabel
          exact ih ht (fun m u hu => hclosed (m + 1) u (hnext m u hu)) hrun (sound_step hsound hsteps)

/-- **When rollbacks are consistent.** In every state of a run between two transactions memory is
what is committed, exactly when every transaction that is rolled back has written nothing. -/
theorem settings_consistent_iff {c : Coercions} (fernet : Fernet) (lower : String → String) (base : Base c)
    (db : Database) (labels : List Label) (p : Process c)
    (hrun : (process fernet lower base).run (loaded fernet db) labels = some p) :
    (∀ n q, (process fernet lower base).run (loaded fernet db) (labels.take n) = some q → q.working = none →
      Consistent fernet base q) ↔
    (process fernet lower base).Meets WroteNothing (loaded fernet db) labels := by
  have hsounds : ∀ n q, (process fernet lower base).run (loaded fernet db) (labels.take n) = some q → Sound base q := by
    intro n q hq
    have hkeep : ∀ s a t, Sound base s → (process fernet lower base).step s a = some t → Sound base t :=
      fun s a t hs ht => sound_step hs (steps_of_step ht)
    exact System.run_keeps hkeep (sound_loaded db) hq
  have hmeets := @System.run_good_iff_meets _ _ (process fernet lower base) (Sound base)
    (fun q => Shows fernet q.store q.seen) WroteNothing (fun s a t hs ht => sound_step hs (steps_of_step ht)) ?_
    (loaded fernet db) p labels (sound_loaded db) (shows_loaded db) hrun
  · rw [← hmeets]
    constructor
    · intro hall n q hq
      refine shows_within (shows_loaded db) (fun m u hu hclosed => ?_) hq (sound_loaded db)
      exact (consistent_iff (hsounds m u hu) hclosed).mp (hall m u hu hclosed)
    · intro hall n q hq hclosed
      exact (consistent_iff (hsounds n q hq) hclosed).mpr (hall n q hq)
  · intro s a t hs hgood hstep
    by_cases ha : a = .rollback
    · rw [ha] at hstep
      have hsteps : Steps fernet lower base s .rollback t := steps_of_step hstep
      rw [(rollback_step hs hgood hsteps).2, WroteNothing, ha]
      exact ⟨fun h _ => h, fun h => h rfl⟩
    · exact ⟨fun _ h => absurd h ha, fun _ => shows_step hgood (steps_of_step hstep) ha⟩

/-! A request sets a number and fails afterwards. -/

/-- A database without overrides. -/
def no_overrides : Database := ⟨.empty _, none⟩

/-- The write is accepted, and the request's transaction is rolled back. -/
def failed_request : List Label :=
  [.begin, .call (.set_override (.field .treemap_max_nodes) (.int 300) none 0), .rollback]

theorem settings_consistent_iff_failed :
    ∃ p, (process prefix_cipher (fun s => s) default_base).run (loaded prefix_cipher no_overrides) failed_request =
        some p ∧
      ((∀ n q, (process prefix_cipher (fun s => s) default_base).run (loaded prefix_cipher no_overrides)
          (failed_request.take n) = some q → q.working = none → Consistent prefix_cipher default_base q) ↔
        (process prefix_cipher (fun s => s) default_base).Meets WroteNothing (loaded prefix_cipher no_overrides)
          failed_request) := by
  have hsome : ((process prefix_cipher (fun s => s) default_base).run (loaded prefix_cipher no_overrides)
      failed_request).isSome = true := by
    decide +kernel
  obtain ⟨p, hrun⟩ := Option.isSome_iff_exists.mp hsome
  exact ⟨p, hrun, settings_consistent_iff prefix_cipher (fun s => s) default_base no_overrides failed_request p hrun⟩

/-- The process goes on with the new number. -/
theorem failed_request_not_consistent :
    ¬ ∀ (c : Coercions) (fernet : Fernet) (lower : String → String) (base : Base c) (db : Database)
      (labels : List Label) (p : Process c),
      (process fernet lower base).run (loaded fernet db) labels = some p →
      ∀ n q, (process fernet lower base).run (loaded fernet db) (labels.take n) = some q → q.working = none →
        Consistent fernet base q := by
  intro h
  have hsome : ((process prefix_cipher (fun s => s) default_base).run (loaded prefix_cipher no_overrides)
      failed_request).map (fun p => (p.store.version, p.committed.version, p.working.isNone)) = some (1, none, true) := by
    decide +kernel
  obtain ⟨p, hrun, hvalues⟩ := Option.map_eq_some_iff.mp hsome
  rw [Prod.mk.injEq, Prod.mk.injEq] at hvalues
  obtain ⟨hversion, hcommitted, hclosed⟩ := hvalues
  have hconsistent := (h _ _ _ _ _ _ p hrun 3 p hrun (Option.isNone_iff_eq_none.mp hclosed)).version
  rw [hversion, hcommitted] at hconsistent
  exact absurd hconsistent (by decide)

end Fathom.Config
