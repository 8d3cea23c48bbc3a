/-
**Step-up** (`auth/mfa.py`, the `/mfa` routes of `api/routers/auth.py` and
`require_step_up_mfa`): enrolling a second factor, verifying it, and the stamp a
verification leaves on a session.

The requests follow one another. Beside the tables a state keeps what was done with them:
the secret of the enrolment each user confirmed last, the codes presented in each session,
and the step-ups. An enrolment replaces the one before it, confirmed or not, for any
session of the user; so the stamp of a session says that a code of the confirmed secret
was presented in it exactly as long as no session confirms an enrolment that has replaced
a confirmed one without having presented such a code (`step_up_sound_iff`).

The secret of an enrolment is what its reference resolves to. That no request changes it
before the enrolment itself is replaced is part of the invariant (`Inv.confirmed`): other
users enrol in between, and their secrets are kept in the same store.
-/
import Fathom.Auth.Authenticate
import Fathom.Config.Overlay
import Fathom.Config.Secrets

set_option autoImplicit false

namespace Fathom.Auth

open Fathom.Config (Coercions Fernet Name Field Synced)

/-! ## Codes -/

/-- `str.isdigit`, and `pyotp.TOTP(secret).verify(code, valid_window=1)` at a time, which may
raise. -/
structure Totp where
  isdigit : String → Bool
  verify : String → String → ℤ → Option Bool

/-- `verify_totp`. -/
def verify_totp (totp : Totp) (secret code : String) (now : ℤ) : Option Bool :=
  if code = "" ∨ ¬totp.isdigit code then some false else totp.verify secret code now

/-- `is_step_up_fresh`. -/
def is_step_up_fresh (mfa_authenticated_at : Option ℤ) (freshness_seconds : ℕ) (now : ℤ) : Bool :=
  match mfa_authenticated_at with
  | none => false
  | some stamped => now - stamped ≤ freshness_seconds * 1000000

/-- `secret_ref_for`. -/
def secret_ref_for (enrollment_id : ℕ) : String :=
  "mfa:" ++ String.ofList (Json.render_int enrollment_id)

theorem secret_ref_inj {id id' : ℕ} (h : secret_ref_for id = secret_ref_for id') : id = id' := by
  have hchars := congrArg String.toList h
  unfold secret_ref_for at hchars
  rw [String.toList_append, String.toList_append] at hchars
  have hdigits := List.append_cancel_left hchars
  rw [String.toList_ofList, String.toList_ofList] at hdigits
  -- a number is read back from its digits
  have hread := Json.read_number_int id
  rw [hdigits, Json.read_number_int id', Option.some.injEq, Json.Value.int.injEq] at hread
  omega

/-! ## The state -/

/-- `MfaEnrollment`. -/
structure MfaEnrollment where
  id : ℕ
  user_id : ℕ
  secret_ref : String
  confirmed_at : Option ℤ
  deriving DecidableEq

/-- A code presented in a session. -/
structure Presented where
  session_id : ℕ
  code : String
  at_time : ℤ
  deriving DecidableEq

/-- A session became fresh: the secret its user had confirmed before, and the codes
presented in it, the last one included. -/
structure SteppedUp where
  session_id : ℕ
  confirmed : Option String
  presented : List Presented
  deriving DecidableEq

/-- The tables and the secret store, and what was done with them. -/
structure MfaState (c : Coercions) where
  db : Db
  now : ℤ
  enrollments : Table MfaEnrollment.id
  /-- `None` on a degraded boot -/
  settings_store : Option (Config.State c)
  confirmed : ℕ → Option String
  presented : List Presented
  stepped_up : List SteppedUp

variable {c : Coercions}

/-- `resolve_enrollment_secret`: a reference that does not resolve is the secret itself. -/
def resolve_enrollment_secret (settings_store : Option (Config.State c)) (secret_ref : String) : String :=
  (settings_store.bind fun s => s.store.resolve_secret secret_ref).getD secret_ref

/-- `select(MfaEnrollment).where(user_id)`, the first. -/
def MfaState.enrollment (s : MfaState c) (user_id : ℕ) : Option MfaEnrollment :=
  s.enrollments.rows.find? fun row => row.user_id = user_id

/-- The secret of an enrolment. -/
def MfaState.secret (s : MfaState c) (row : MfaEnrollment) : String :=
  resolve_enrollment_secret s.settings_store row.secret_ref

/-- The codes presented in a session so far, and one now. -/
def MfaState.codes (s : MfaState c) (session_id : ℕ) (code : String) : List Presented :=
  (s.presented.filter fun p => p.session_id = session_id) ++ [⟨session_id, code, s.now⟩]

/-- A code of these is valid for a secret. -/
def any_valid (totp : Totp) (secret : String) (codes : List Presented) : Bool :=
  codes.any fun p => verify_totp totp secret p.code p.at_time = some true

/-! ## The routes -/

/-- What the routes are built with. -/
structure MfaConfig where
  crypto : Crypto
  settings : AuthSettings
  totp : Totp
  fernet : Fernet

/-- The requests. -/
inductive MfaRequest where
  | login (username password : String) (salt : ℕ) (token : String) (session_id : ℕ)
  /-- enrolment `enrollment_id` with the secret `generate_secret` drew -/
  | enroll (req : Request) (new_id enrollment_id : ℕ) (secret : String) (nonce : ℕ)
  | verify (req : Request) (new_id : ℕ) (code : String)
  | logout (req : Request) (new_id : ℕ)
  /-- time passes -/
  | tick (microseconds : ℕ)

/-- The prior secrets of a user, cleared from the store where they resolve. -/
def clear_prior (fernet : Fernet) (s : Config.State c) : List MfaEnrollment → Config.State c
  | [] => s
  | row :: rows =>
    clear_prior fernet
      (match s.store.resolve_secret row.secret_ref with
      | some _ => (s.clear_override fernet (Name.of row.secret_ref)).1
      | none => s) rows

/-- `post_mfa_enroll` after its principal. -/
def enroll (fernet : Fernet) (s : MfaState c) (principal : Principal) (enrollment_id : ℕ)
    (secret : String) (nonce : ℕ) : Option (MfaState c) :=
  let prior := s.enrollments.rows.filter fun row => row.user_id = principal.user_id
  let kept : Table MfaEnrollment.id :=
    ⟨s.enrollments.rows.filter fun row => row.user_id ≠ principal.user_id,
      s.enrollments.unique.sublist (List.filter_sublist.map MfaEnrollment.id)⟩
  if (kept.find enrollment_id).isSome then none
  else
    match s.settings_store with
    | none =>
      some { s with enrollments := kept.put ⟨enrollment_id, principal.user_id, secret, none⟩ }
    | some store =>
      match (clear_prior fernet store prior).set_secret fernet (Name.of (secret_ref_for enrollment_id)) secret
        (some principal.subject) nonce with
      | .error _ => none
      | .ok store =>
        some { s with
          settings_store := some store
          enrollments := kept.put ⟨enrollment_id, principal.user_id, secret_ref_for enrollment_id, none⟩ }

/-- `post_mfa_verify` on a code that is valid for the enrolment `row`. -/
def grant_step_up (s : MfaState c) (principal : Principal) (row : MfaEnrollment) (code : String) :
    MfaState c :=
  let confirmed := { row with confirmed_at := some (row.confirmed_at.getD s.now) }
  { s with
    enrollments := s.enrollments.put confirmed
    confirmed := fun u => if u = row.user_id then some (s.secret row) else s.confirmed u
    db :=
      match principal.session_id.bind s.db.sessions.find with
      | none => s.db
      | some session => mark_step_up s.db s.now session
    stepped_up :=
      match principal.session_id with
      | none => s.stepped_up
      | some id => s.stepped_up ++ [⟨id, s.confirmed row.user_id, s.codes id code⟩] }

/-- The code is noted as presented in the session of the principal. -/
def MfaState.note (s : MfaState c) (principal : Principal) (code : String) : MfaState c :=
  match principal.session_id with
  | none => s
  | some id => { s with presented := s.presented ++ [⟨id, code, s.now⟩] }

/-- `post_mfa_verify` after its principal. An exception of the verification undoes the
request; a code of another length is not presented. -/
def verify (totp : Totp) (s : MfaState c) (principal : Principal) (code : String) : MfaState c :=
  if code.length < 6 ∨ 8 < code.length then s
  else
    match s.enrollment principal.user_id with
    | none => s.note principal code
    | some row =>
      if verify_totp totp (s.secret row) code s.now = some true then
        (grant_step_up s principal row code).note principal code
      else s.note principal code

/-- One request. -/
def mfa_step (cfg : MfaConfig) (s : MfaState c) : MfaRequest → Option (MfaState c)
  | .login username password salt token session_id =>
    match login cfg.crypto cfg.settings s.db s.now username password salt token session_id with
    | none => none
    | some (_, db) => some { s with db }
  | .enroll req new_id enrollment_id secret nonce =>
    match current_principal cfg.crypto cfg.settings s.db s.now req new_id with
    | none => none
    | some (principal, db) => enroll cfg.fernet { s with db } principal enrollment_id secret nonce
  | .verify req new_id code =>
    match current_principal cfg.crypto cfg.settings s.db s.now req new_id with
    | none => none
    | some (principal, db) => some (verify cfg.totp { s with db } principal code)
  | .logout req new_id =>
    match current_principal cfg.crypto cfg.settings s.db s.now req new_id with
    | none => none
    | some (principal, db) => some { s with db := logout db s.now principal }
  | .tick microseconds => some { s with now := s.now + microseconds }

/-- The requests to a deployment in which nobody is enrolled or logged in. -/
def step_up_system (cfg : MfaConfig) : System (MfaState c) MfaRequest where
  init := fun s => s.db.sessions.rows = [] ∧ s.enrollments.rows = [] ∧
    (∀ store, s.settings_store = some store → Synced cfg.fernet store) ∧
    (∀ user_id, s.confirmed user_id = none) ∧ s.presented = [] ∧ s.stepped_up = []
  step := mfa_step cfg

/-- A request passes `require_step_up_mfa`. -/
def passes_gate (cfg : MfaConfig) (s : MfaState c) (req : Request) (new_id : ℕ) : Bool :=
  match current_principal cfg.crypto cfg.settings s.db s.now req new_id with
  | none => false
  | some (principal, _) =>
    is_step_up_fresh principal.mfa_authenticated_at cfg.settings.mfa_freshness_seconds s.now

/-! ## Soundness -/

/-- A session that became fresh after its user had confirmed a secret had presented a
valid code of it. -/
def StepUpSound (totp : Totp) (up : SteppedUp) : Prop :=
  ∀ secret, up.confirmed = some secret → any_valid totp secret up.presented = true

/-- A session that confirms an enrolment which has replaced a confirmed one has presented a
valid code of the replaced one. -/
def replaced_by_owner (cfg : MfaConfig) (s : MfaState c) : MfaRequest → Bool
  | .verify req new_id code =>
    match current_principal cfg.crypto cfg.settings s.db s.now req new_id with
    | none => true
    | some (principal, _) =>
      match principal.session_id, s.enrollment principal.user_id, s.confirmed principal.user_id with
      | some session_id, some row, some replaced =>
        if row.confirmed_at = none ∧ ¬(code.length < 6 ∨ 8 < code.length) ∧
            verify_totp cfg.totp (s.secret row) code s.now = some true then
          any_valid cfg.totp replaced (s.codes session_id code)
        else true
      | _, _, _ => true
  | _ => true

variable {fernet : Fernet} {s s' : MfaState c} {principal : Principal}

/-! ## What the routes do -/

/-- Clearing the secrets of some enrolments changes no other one's. -/
theorem clear_prior_spec {s : Config.State c} {prior : List MfaEnrollment}
    (hsynced : Synced fernet s) (hrefs : ∀ row ∈ prior, row.secret_ref = secret_ref_for row.id) :
    Synced fernet (clear_prior fernet s prior) ∧ ∀ id, (∀ row ∈ prior, row.id ≠ id) →
        (clear_prior fernet s prior).store.resolve_secret (secret_ref_for id) =
          s.store.resolve_secret (secret_ref_for id) := by
  induction prior generalizing s with
  | nil => exact ⟨hsynced, fun _ _ => rfl⟩
  | cons row rows ih =>
      have hrows : ∀ r ∈ rows, r.secret_ref = secret_ref_for r.id :=
        fun r hr => hrefs r (List.mem_cons_of_mem _ hr)
      unfold clear_prior
      split
      · obtain ⟨hcleared, hother⟩ := Config.clear_override_spec hsynced row.secret_ref
        obtain ⟨hsynced', hsame⟩ := ih hcleared hrows
        refine ⟨hsynced', fun id hid => ?_⟩
        rw [hsame id fun r hr => hid r (List.mem_cons_of_mem _ hr)]
        apply hother
        rw [hrefs row List.mem_cons_self]
        intro heq
        exact hid row List.mem_cons_self (secret_ref_inj heq).symm
      · obtain ⟨hsynced', hsame⟩ := ih hsynced hrows
        exact ⟨hsynced', fun id hid => hsame id fun r hr => hid r (List.mem_cons_of_mem _ hr)⟩

/-- The references of a stored enrolment: its own, and the store is synced. -/
def RefsOk (fernet : Fernet) (s : MfaState c) : Prop :=
  ∀ store, s.settings_store = some store →
    Synced fernet store ∧ ∀ row ∈ s.enrollments.rows, row.secret_ref = secret_ref_for row.id

/-- An enrolment leaves one row of its user, unconfirmed and with the secret that was
issued, and the rows of the others with their secrets. -/
theorem enroll_spec {enrollment_id : ℕ} {secret : String} {nonce : ℕ} (hrefs : RefsOk fernet s)
    (h : enroll fernet s principal enrollment_id secret nonce = some s') :
    (s'.db = s.db ∧ s'.confirmed = s.confirmed ∧ s'.stepped_up = s.stepped_up) ∧ RefsOk fernet s' ∧
    (∀ row ∈ s'.enrollments.rows,
      (row ∈ s.enrollments.rows ∧ row.user_id ≠ principal.user_id ∧ s'.secret row = s.secret row) ∨
      (row.id = enrollment_id ∧ row.user_id = principal.user_id ∧ row.confirmed_at = none ∧
        s'.secret row = secret)) := by
  unfold enroll at h
  dsimp only at h
  split_ifs at h with htaken
  cases hstore : s.settings_store with
  | none =>
      rw [hstore] at h
      dsimp only at h
      rw [Option.some.injEq] at h
      rw [← h]
      refine ⟨⟨rfl, rfl, rfl⟩, fun store hsome => absurd hsome (by simp), ?_⟩
      intro row hrow
      rcases Table.mem_put hrow with hnew | ⟨hold, -⟩
      · rw [hnew]
        refine .inr ⟨rfl, rfl, rfl, ?_⟩
        simp only [MfaState.secret, resolve_enrollment_secret, Option.bind_none, Option.getD_none]
      · obtain ⟨hmem, huser⟩ := List.mem_filter.mp hold
        refine .inl ⟨hmem, of_decide_eq_true huser, ?_⟩
        simp only [MfaState.secret, hstore]
  | some store =>
      obtain ⟨hsynced, hown⟩ := hrefs store hstore
      have hprior : ∀ row ∈ s.enrollments.rows.filter fun row => row.user_id = principal.user_id,
          row.secret_ref = secret_ref_for row.id := fun row hrow => hown row (List.mem_filter.mp hrow).1
      obtain ⟨hcleared, hkept⟩ := clear_prior_spec hsynced hprior
      rw [hstore] at h
      dsimp only at h
      split at h
      · exact absurd h (by simp)
      · next store' hset =>
          rw [Option.some.injEq] at h
          obtain ⟨hsynced', hresolves, hothers⟩ :=
            Config.set_secret_spec hcleared hset
          rw [← h]
          refine ⟨⟨rfl, rfl, rfl⟩, ?_, ?_⟩
          · intro st hst
            rw [Option.some.injEq] at hst
            rw [← hst]
            refine ⟨hsynced', fun row hrow => ?_⟩
            rcases Table.mem_put hrow with hnew | ⟨hold, -⟩
            · rw [hnew]
            · exact hown row (List.mem_filter.mp hold).1
          · intro row hrow
            rcases Table.mem_put hrow with hnew | ⟨hold, hne⟩
            · rw [hnew]
              refine .inr ⟨rfl, rfl, rfl, ?_⟩
              simp only [MfaState.secret, resolve_enrollment_secret, Option.bind_some, hresolves,
                Option.getD_some]
            · obtain ⟨hmem, huser⟩ := List.mem_filter.mp hold
              have huser' : row.user_id ≠ principal.user_id := of_decide_eq_true huser
              refine .inl ⟨hmem, huser', ?_⟩
              have href := hown row hmem
              -- neither the cleared references nor the new one is this row's
              have hsame : store'.store.resolve_secret row.secret_ref =
                  store.store.resolve_secret row.secret_ref := by
                rw [href, hothers (secret_ref_for row.id) fun heq => hne (secret_ref_inj heq)]
                apply hkept
                intro r hr heq
                obtain ⟨hrmem, hruser⟩ := List.mem_filter.mp hr
                rw [Table.eq_of_key hrmem hmem heq] at hruser
                exact huser' (of_decide_eq_true hruser)
              simp only [MfaState.secret, resolve_enrollment_secret, hstore, Option.bind_some, hsame]

/-! ## The invariant -/

/-- The invariant. -/
structure MfaInv (fernet : Fernet) (s : MfaState c) : Prop where
  refs : RefsOk fernet s
  one : ∀ row ∈ s.enrollments.rows, ∀ row' ∈ s.enrollments.rows, row.user_id = row'.user_id → row = row'
  confirmed : ∀ row ∈ s.enrollments.rows, row.confirmed_at ≠ none →
    s.confirmed row.user_id = some (s.secret row)
  stamped : ∀ row ∈ s.db.sessions.rows, row.mfa_authenticated_at ≠ none →
    ∃ up ∈ s.stepped_up, up.session_id = row.id

/-- Other tables, with the stamps as they were. -/
theorem MfaInv.with_db (h : MfaInv fernet s) {db : Db}
    (hstamped : ∀ row ∈ db.sessions.rows, row.mfa_authenticated_at ≠ none →
      ∃ up ∈ s.stepped_up, up.session_id = row.id) : MfaInv fernet { s with db } :=
  ⟨h.refs, h.one, h.confirmed, hstamped⟩

theorem MfaInv.note (h : MfaInv fernet s) (principal : Principal) (code : String) :
    MfaInv fernet (s.note principal code) := by
  unfold MfaState.note
  split
  · exact h
  · exact ⟨h.refs, h.one, h.confirmed, h.stamped⟩

theorem note_stepped_up (s : MfaState c) (principal : Principal) (code : String) :
    (s.note principal code).stepped_up = s.stepped_up := by
  unfold MfaState.note
  split <;> rfl

theorem MfaInv.enroll (h : MfaInv fernet s) {enrollment_id : ℕ} {secret : String} {nonce : ℕ}
    (henroll : Auth.enroll fernet s principal enrollment_id secret nonce = some s') : MfaInv fernet s' := by
  obtain ⟨⟨hdb, hconfirmed, hups⟩, hrefs, hrows⟩ := enroll_spec h.refs henroll
  refine ⟨hrefs, ?_, ?_, ?_⟩
  · intro row hrow row' hrow' huser
    rcases hrows row hrow with ⟨hold, hother, -⟩ | ⟨hid, hself, -⟩
    · rcases hrows row' hrow' with ⟨hold', -⟩ | ⟨-, hself', -⟩
      · exact h.one row hold row' hold' huser
      · exact absurd (huser.trans hself') hother
    · rcases hrows row' hrow' with ⟨-, hother', -⟩ | ⟨hid', -⟩
      · exact absurd (huser.symm.trans hself) hother'
      · exact Table.eq_of_key hrow hrow' (hid.trans hid'.symm)
  · intro row hrow hset
    rcases hrows row hrow with ⟨hold, -, hsecret⟩ | ⟨-, -, hnone, -⟩
    · rw [hconfirmed, hsecret]
      exact h.confirmed row hold hset
    · exact absurd hnone hset
  · rw [hdb, hups]
    exact h.stamped

theorem enrollment_spec {user_id : ℕ} {row : MfaEnrollment} (h : s.enrollment user_id = some row) :
    row ∈ s.enrollments.rows ∧ row.user_id = user_id := by
  unfold MfaState.enrollment at h
  have huser := List.find?_some h
  rw [decide_eq_true_eq] at huser
  exact ⟨List.mem_of_find?_eq_some h, huser⟩

theorem MfaInv.grant (h : MfaInv fernet s) {row : MfaEnrollment} (hrow : row ∈ s.enrollments.rows)
    (code : String) : MfaInv fernet (grant_step_up s principal row code) := by
  have hkey : ∀ r ∈ (grant_step_up s principal row code).enrollments.rows,
      (r = { row with confirmed_at := some (row.confirmed_at.getD s.now) }) ∨
        (r ∈ s.enrollments.rows ∧ r.id ≠ row.id) := fun r hr => Table.mem_put hr
  refine ⟨?_, ?_, ?_, ?_⟩
  · intro store hstore
    obtain ⟨hsynced, hown⟩ := h.refs store hstore
    refine ⟨hsynced, fun r hr => ?_⟩
    rcases hkey r hr with hnew | ⟨hold, -⟩
    · rw [hnew]
      exact hown row hrow
    · exact hown r hold
  · intro r hr r' hr' huser
    rcases hkey r hr with hnew | ⟨hold, hne⟩
    · rcases hkey r' hr' with hnew' | ⟨hold', hne'⟩
      · rw [hnew, hnew']
      · rw [hnew] at huser
        rw [h.one r' hold' row hrow huser.symm] at hne'
        exact absurd rfl hne'
    · rcases hkey r' hr' with hnew' | ⟨hold', -⟩
      · rw [hnew'] at huser
        rw [h.one r hold row hrow huser] at hne
        exact absurd rfl hne
      · exact h.one r hold r' hold' huser
  · intro r hr hset
    dsimp only [grant_step_up]
    rcases hkey r hr with hnew | ⟨hold, hne⟩
    · rw [hnew, if_pos rfl]
      rfl
    · have hother : r.user_id ≠ row.user_id := by
        intro huser
        rw [h.one r hold row hrow huser] at hne
        exact hne rfl
      rw [if_neg hother]
      exact h.confirmed r hold hset
  · dsimp only [grant_step_up]
    cases hid : principal.session_id with
    | none => exact h.stamped
    | some id =>
        intro session hsession hmfa
        rw [Option.bind_some] at hsession
        cases hfind : s.db.sessions.find id with
        | none =>
            rw [hfind] at hsession
            obtain ⟨up, hup, heq⟩ := h.stamped session hsession hmfa
            exact ⟨up, List.mem_append_left _ hup, heq⟩
        | some stored =>
            rw [hfind] at hsession
            rcases Table.mem_put hsession with hnew | ⟨hold, -⟩
            · refine ⟨_, List.mem_append_right _ (List.mem_singleton_self _), ?_⟩
              rw [hnew]
              exact (Table.key_of_find hfind).symm
            · obtain ⟨up, hup, heq⟩ := h.stamped session hold hmfa
              exact ⟨up, List.mem_append_left _ hup, heq⟩

/-! ## Steps -/

/-- A verification steps nothing up, or its session up, with the codes presented in it. -/
theorem verify_cases (totp : Totp) (h : MfaInv fernet s) (principal : Principal) (code : String) :
    MfaInv fernet (verify totp s principal code) ∧ ((verify totp s principal code).stepped_up = s.stepped_up ∧
        (principal.session_id = none ∨ s.enrollment principal.user_id = none ∨ code.length < 6 ∨ 8 < code.length ∨
          ∃ row, s.enrollment principal.user_id = some row ∧ verify_totp totp (s.secret row) code s.now ≠ some true) ∨
      ∃ session_id row, principal.session_id = some session_id ∧
        s.enrollment principal.user_id = some row ∧ ¬(code.length < 6 ∨ 8 < code.length) ∧
        verify_totp totp (s.secret row) code s.now = some true ∧ (verify totp s principal code).stepped_up =
          s.stepped_up ++ [⟨session_id, s.confirmed principal.user_id, s.codes session_id code⟩]) := by
  unfold verify
  by_cases hlength : code.length < 6 ∨ 8 < code.length
  · rw [if_pos hlength]
    refine ⟨h, .inl ⟨rfl, .inr (.inr ?_)⟩⟩
    rcases hlength with hshort | hlong
    · exact .inl hshort
    · exact .inr (.inl hlong)
  · rw [if_neg hlength]
    cases hrow : s.enrollment principal.user_id with
    | none => exact ⟨h.note principal code, .inl ⟨note_stepped_up s principal code, .inr (.inl rfl)⟩⟩
    | some row =>
        dsimp only
        by_cases hvalid : verify_totp totp (s.secret row) code s.now = some true
        · rw [if_pos hvalid]
          obtain ⟨hmem, huser⟩ := enrollment_spec hrow
          refine ⟨(h.grant hmem code).note principal code, ?_⟩
          rw [note_stepped_up]
          dsimp only [grant_step_up]
          cases hid : principal.session_id with
          | none => exact .inl ⟨rfl, .inl rfl⟩
          | some session_id =>
              rw [huser]
              exact .inr ⟨session_id, row, rfl, rfl, hlength, hvalid, rfl⟩
        · rw [if_neg hvalid]
          refine ⟨h.note principal code, .inl ⟨note_stepped_up s principal code, ?_⟩⟩
          exact .inr (.inr (.inr (.inr ⟨row, rfl, hvalid⟩)))

/-- The stamps of a login, and of a logout, are stamps there were. -/
theorem login_stamped {crypto : Crypto} {settings : AuthSettings} {db db' : Db} {now : ℤ}
    {username password token : String} {salt session_id : ℕ} {row : UserSession}
    (hlogin : login crypto settings db now username password salt token session_id = some (row, db'))
    {session : UserSession} (hsession : session ∈ db'.sessions.rows)
    (hmfa : session.mfa_authenticated_at ≠ none) : session ∈ db.sessions.rows := by
  obtain ⟨-, hput, -, -, -, hnone⟩ := login_spec hlogin
  rw [hput] at hsession
  rcases Table.mem_put hsession with hnew | ⟨hold, -⟩
  · rw [hnew] at hmfa
    exact absurd hnone hmfa
  · exact hold

theorem logout_stamped {db : Db} {now : ℤ} {session : UserSession}
    (hsession : session ∈ (logout db now principal).sessions.rows) (hmfa : session.mfa_authenticated_at ≠ none) :
    ∃ before ∈ db.sessions.rows, before.id = session.id ∧ before.mfa_authenticated_at ≠ none := by
  unfold logout at hsession
  cases hfind : principal.session_id.bind db.sessions.find with
  | none =>
      rw [hfind] at hsession
      exact ⟨session, hsession, rfl, hmfa⟩
  | some row =>
      rw [hfind] at hsession
      rcases Table.mem_put hsession with hnew | ⟨hold, -⟩
      · rw [hnew] at hmfa ⊢
        obtain ⟨id, -, hrow⟩ := Option.bind_eq_some_iff.mp hfind
        exact ⟨row, Table.mem_of_find hrow, rfl, hmfa⟩
      · exact ⟨session, hold, rfl, hmfa⟩

variable {cfg : MfaConfig}

/-- A request keeps the invariant, and steps nothing up or one session, soundly exactly when
it meets the condition. -/
theorem mfa_step_cases {request : MfaRequest} (hinv : MfaInv cfg.fernet s) (h : mfa_step cfg s request = some s') :
    MfaInv cfg.fernet s' ∧
      ((s'.stepped_up = s.stepped_up ∧ replaced_by_owner cfg s request = true) ∨
        ∃ up, s'.stepped_up = s.stepped_up ++ [up] ∧
          (StepUpSound cfg.totp up ↔ replaced_by_owner cfg s request = true)) := by
  cases request with
  | login username password salt token session_id =>
      simp only [mfa_step] at h
      split at h
      · exact absurd h (by simp)
      · next row db hlogin =>
          rw [Option.some.injEq] at h
          rw [← h]
          refine ⟨hinv.with_db fun session hsession hmfa => ?_, .inl ⟨rfl, rfl⟩⟩
          exact hinv.stamped session (login_stamped hlogin hsession hmfa) hmfa
  | enroll req new_id enrollment_id secret nonce =>
      simp only [mfa_step] at h
      split at h
      · exact absurd h (by simp)
      · next principal db hprincipal =>
          have hdb : MfaInv cfg.fernet { s with db } := hinv.with_db fun session hsession hmfa =>
            hinv.stamped session (by rwa [← current_principal_sessions hprincipal]) hmfa
          obtain ⟨⟨-, -, hups⟩, -⟩ := enroll_spec hdb.refs h
          exact ⟨hdb.enroll h, .inl ⟨hups, rfl⟩⟩
  | verify req new_id code =>
      simp only [mfa_step] at h
      cases hprincipal : current_principal cfg.crypto cfg.settings s.db s.now req new_id with
      | none => simp [hprincipal] at h
      | some answer =>
          obtain ⟨principal, db⟩ := answer
          rw [hprincipal] at h
          dsimp only at h
          rw [Option.some.injEq] at h
          have hdb : MfaInv cfg.fernet { s with db } := hinv.with_db fun session hsession hmfa =>
            hinv.stamped session (by rwa [← current_principal_sessions hprincipal]) hmfa
          obtain ⟨hkept, hcases⟩ := verify_cases cfg.totp hdb principal code
          rw [h] at hkept hcases
          refine ⟨hkept, ?_⟩
          rcases hcases with ⟨hsame, hwhy⟩ | ⟨session_id, row, hid, hrow, hlength, hvalid, hups⟩
          · refine .inl ⟨hsame, ?_⟩
            -- a verification that steps nothing up meets the condition
            simp only [replaced_by_owner, hprincipal]
            split
            · next id row replaced hid hrow hreplaced =>
                rcases hwhy with hno | hno | hno | hno | ⟨row', hrow', hno⟩
                · exact absurd (hid.symm.trans hno) (by simp)
                · exact absurd (hrow.symm.trans hno) (by simp)
                · rw [if_neg fun hall => hall.2.1 (.inl hno)]
                · rw [if_neg fun hall => hall.2.1 (.inr hno)]
                · have heq : row' = row := Option.some.inj (hrow'.symm.trans hrow)
                  rw [heq] at hno
                  rw [if_neg fun hall => hno hall.2.2]
            · rfl
          · refine .inr ⟨_, hups, ?_⟩
            have hrow' : s.enrollment principal.user_id = some row := hrow
            simp only [replaced_by_owner, hprincipal, hid, hrow', StepUpSound]
            cases hconfirmed : s.confirmed principal.user_id with
            | none => simp
            | some replaced =>
                dsimp only
                by_cases hpending : row.confirmed_at = none
                · rw [if_pos ⟨hpending, hlength, hvalid⟩]
                  constructor
                  · intro hsound
                    exact hsound replaced rfl
                  · intro hany secret hsecret
                    rw [Option.some.injEq] at hsecret
                    rw [← hsecret]
                    exact hany
                · rw [if_neg fun hall => hpending hall.1]
                  -- the enrolment is the confirmed one, and its code was presented just now
                  obtain ⟨hmem, huser⟩ := enrollment_spec hrow'
                  have hown := hinv.confirmed row hmem hpending
                  rw [huser, hconfirmed] at hown
                  refine ⟨fun _ => rfl, fun _ secret hsecret => ?_⟩
                  rw [hsecret, Option.some.injEq] at hown
                  refine List.any_eq_true.mpr ⟨⟨session_id, code, s.now⟩, ?_, ?_⟩
                  · exact List.mem_append_right _ (List.mem_singleton_self _)
                  · rw [hown]
                    exact decide_eq_true hvalid
  | logout req new_id =>
      simp only [mfa_step] at h
      split at h
      · exact absurd h (by simp)
      · next principal db hprincipal =>
          rw [Option.some.injEq] at h
          rw [← h]
          refine ⟨hinv.with_db fun session hsession hmfa => ?_, .inl ⟨rfl, rfl⟩⟩
          obtain ⟨before, hbefore, hid, hset⟩ := logout_stamped hsession hmfa
          rw [current_principal_sessions hprincipal] at hbefore
          rw [← hid]
          exact hinv.stamped before hbefore hset
  | tick microseconds =>
      rw [← Option.some.inj h]
      exact ⟨⟨hinv.refs, hinv.one, hinv.confirmed, hinv.stamped⟩, .inl ⟨rfl, rfl⟩⟩

/-! ## Runs -/

theorem mfa_inv_init (h : (step_up_system cfg).init s) : MfaInv cfg.fernet s := by
  obtain ⟨hsessions, henrollments, hsynced, -⟩ := h
  refine ⟨fun store hstore => ⟨hsynced store hstore, fun row hrow => ?_⟩, fun row hrow => ?_,
    fun row hrow => ?_, fun row hrow => ?_⟩
  · rw [henrollments] at hrow
    exact absurd hrow List.not_mem_nil
  · rw [henrollments] at hrow
    exact absurd hrow List.not_mem_nil
  · rw [henrollments] at hrow
    exact absurd hrow List.not_mem_nil
  · rw [hsessions] at hrow
    exact absurd hrow List.not_mem_nil

theorem forward_unstamped {db db' : Db} {req : Request} {new_id : ℕ} {p : Principal} {cidrs : List String}
    (h : forward_authenticate cidrs db req new_id = some (some (p, db'))) : p.mfa_authenticated_at = none := by
  unfold forward_authenticate at h
  split at h
  · exact absurd h (by simp)
  · split at h
    · exact absurd h (by simp)
    · simp only [Option.some.injEq, Prod.mk.injEq] at h
      rw [← h.1]

/-- A session that passes the gate has been stepped up. -/
theorem gate_stepped_up (hinv : MfaInv cfg.fernet s) {req : Request} {new_id : ℕ}
    (hgate : passes_gate cfg s req new_id = true) :
    ∃ principal db, current_principal cfg.crypto cfg.settings s.db s.now req new_id = some (principal, db) ∧
      ∃ up ∈ s.stepped_up, principal.session_id = some up.session_id := by
  unfold passes_gate at hgate
  cases hprincipal : current_principal cfg.crypto cfg.settings s.db s.now req new_id with
  | none => simp [hprincipal] at hgate
  | some answer =>
      obtain ⟨principal, db⟩ := answer
      rw [hprincipal] at hgate
      refine ⟨principal, db, rfl, ?_⟩
      have hset : principal.mfa_authenticated_at ≠ none := by
        intro hnone
        simp [hnone, is_step_up_fresh] at hgate
      rcases current_principal_cases hprincipal with ⟨hlocal, -⟩ | ⟨-, hforward⟩
      · obtain ⟨-, row, -, -, hrow, -, -, -, -, -, -, -, hsession, -, hstamp⟩ := local_authenticate_spec hlocal
        rw [hstamp] at hset
        obtain ⟨up, hup, hid⟩ := hinv.stamped row hrow hset
        exact ⟨up, hup, by rw [hsession, hid]⟩
      · exact absurd (forward_unstamped hforward) hset

/-- What was stepped up stays on record. -/
theorem stepped_up_run {requests : List MfaRequest} (hinv : MfaInv cfg.fernet s)
    (hrun : (step_up_system cfg).run s requests = some s') {up : SteppedUp} (hup : up ∈ s.stepped_up) :
    up ∈ s'.stepped_up := by
  have hkept := System.run_keeps (S := step_up_system cfg)
    (I := fun w => MfaInv cfg.fernet w ∧ up ∈ w.stepped_up) ?_ ⟨hinv, hup⟩ hrun
  · exact hkept.2
  · rintro w a v ⟨hw, hin⟩ hstep
    obtain ⟨hv, ⟨hsame, -⟩ | ⟨more, hmore, -⟩⟩ := mfa_step_cases hw hstep
    · exact ⟨hv, by rwa [hsame]⟩
    · rw [hmore]
      exact ⟨hv, List.mem_append_left _ hin⟩

/-- **Step-up is sound**, in every run, exactly when no session confirms an enrolment that
has replaced a confirmed one without having presented a valid code of the replaced one; and
what passes the gate is a session that was stepped up. -/
theorem step_up_sound_iff (cfg : MfaConfig) {s₀ s : MfaState c} {requests : List MfaRequest}
    (hinit : (step_up_system cfg).init s₀) (hrun : (step_up_system cfg).run s₀ requests = some s) :
    ((∀ up ∈ s.stepped_up, StepUpSound cfg.totp up) ↔
        ((step_up_system cfg).guard (replaced_by_owner cfg)).run s₀ requests = some s) ∧
      ∀ req new_id, passes_gate cfg s req new_id = true →
        ∃ principal db,
          current_principal cfg.crypto cfg.settings s.db s.now req new_id = some (principal, db) ∧
          ∃ up ∈ s.stepped_up, principal.session_id = some up.session_id := by
  have hinv₀ := mfa_inv_init hinit
  have hnone : s₀.stepped_up = [] := hinit.2.2.2.2.2
  have hiff : (∀ n u, (step_up_system cfg).run s₀ (requests.take n) = some u →
      ∀ up ∈ u.stepped_up, StepUpSound cfg.totp up) ↔
        ((step_up_system cfg).guard (replaced_by_owner cfg)).run s₀ requests = some s := by
    refine System.run_good_iff_guard (S := step_up_system cfg) (I := MfaInv cfg.fernet) ?_ ?_ hinv₀ ?_ hrun
    · intro u a w hu hstep
      exact (mfa_step_cases hu hstep).1
    · intro u a w hu hgood hstep
      obtain ⟨-, ⟨hsame, hok⟩ | ⟨up, hups, hiff⟩⟩ := mfa_step_cases hu hstep
      · rw [hsame]
        exact ⟨fun _ => hok, fun _ => hgood⟩
      · rw [hups, List.forall_mem_append, List.forall_mem_singleton, ← hiff]
        exact ⟨fun hall => hall.2, fun hsound => ⟨hgood, hsound⟩⟩
    · intro up hup
      rw [hnone] at hup
      exact absurd hup List.not_mem_nil
  refine ⟨?_, fun req new_id hgate => ?_⟩
  · rw [← hiff]
    constructor
    · intro hall n u hu up hup
      -- what a part of the run has stepped up, the whole run has
      have hsplit : (step_up_system cfg).run u (requests.drop n) = some s := by
        rw [← List.take_append_drop n requests, System.run_append, hu, Option.bind_some] at hrun
        exact hrun
      have hinv : MfaInv cfg.fernet u := System.run_keeps (S := step_up_system cfg)
        (fun u a w hu hstep => (mfa_step_cases hu hstep).1) hinv₀ hu
      exact hall up (stepped_up_run hinv hsplit hup)
    · intro hall up hup
      exact hall requests.length s (by rw [List.take_length]; exact hrun) up hup
  · exact gate_stepped_up (System.run_keeps (S := step_up_system cfg)
      (fun u a w hu hstep => (mfa_step_cases hu hstep).1) hinv₀ hrun) hgate

/-! Alice confirms a second factor in one session. Another session of hers, that of a stolen
cookie, enrols anew and steps up with what it was issued. -/

/-- A code is valid for the secret of its own text. -/
def plain_totp : Totp where
  isdigit := fun code => code.toList.all Char.isDigit
  verify := fun secret code _ => some (secret = code)

def plain_mfa : MfaConfig := ⟨plain_crypto, proxied, plain_totp, Config.prefix_cipher⟩

/-- Alice, who has not logged in. -/
def alice_only : MfaState Config.plain_coercions where
  db :=
    { users := ⟨[⟨7, "alice", "local", none, some "secret", true⟩], List.nodup_singleton _⟩
      assignments := Table.empty _, sessions := Table.empty _, bindings := Table.empty _ }
  now := 0
  enrollments := Table.empty _
  settings_store := some ⟨⟨Table.empty _, none⟩, {}⟩
  confirmed := fun _ => none
  presented := []
  stepped_up := []

theorem alice_only_init : (step_up_system plain_mfa).init alice_only := by
  refine ⟨rfl, rfl, fun store hstore => ?_, fun _ => rfl, rfl, rfl⟩
  rw [← Option.some.inj hstore]
  rfl

/-- A request with a session cookie. -/
def with_cookie (token : String) : Request := ⟨some token, none, none, none, none⟩

/-- A login, an enrolment and its confirmation in one session. -/
def enrolled_by (token : String) (session_id : ℕ) (secret : String) : List MfaRequest :=
  [.login "alice" "secret" 0 token session_id, .enroll (with_cookie token) 9 session_id secret 0,
    .verify (with_cookie token) 9 secret]

theorem replaced_secret_steps_up :
    ∃ s, (step_up_system plain_mfa).run alice_only
        (enrolled_by "first" 1 "111111" ++ enrolled_by "second" 2 "222222") = some s ∧
      passes_gate plain_mfa s (with_cookie "second") 9 = true ∧
      ∃ up ∈ s.stepped_up, up.session_id = 2 ∧ up.confirmed = some "111111" ∧
        ¬ StepUpSound plain_mfa.totp up := by
  have hrun : ((step_up_system plain_mfa).run alice_only
      (enrolled_by "first" 1 "111111" ++ enrolled_by "second" 2 "222222")).map (fun s =>
        (passes_gate plain_mfa s (with_cookie "second") 9, s.stepped_up)) =
      some (true, [⟨1, none, [⟨1, "111111", 0⟩]⟩, ⟨2, some "111111", [⟨2, "222222", 0⟩]⟩]) := by
    decide +kernel
  obtain ⟨s, hs, hvalues⟩ := Option.map_eq_some_iff.mp hrun
  rw [Prod.mk.injEq] at hvalues
  refine ⟨s, hs, hvalues.1, ⟨2, some "111111", [⟨2, "222222", 0⟩]⟩, ?_, rfl, rfl, ?_⟩
  · rw [hvalues.2]
    exact List.mem_cons_of_mem _ (List.mem_singleton_self _)
  · intro hsound
    exact absurd (hsound "111111" rfl) (by decide +kernel)

theorem step_up_sound_iff_alice :
    ∃ s, (step_up_system plain_mfa).run alice_only (enrolled_by "first" 1 "111111") = some s ∧
      ((∀ up ∈ s.stepped_up, StepUpSound plain_mfa.totp up) ↔
        ((step_up_system plain_mfa).guard (replaced_by_owner plain_mfa)).run alice_only
          (enrolled_by "first" 1 "111111") = some s) := by
  have hrun : ((step_up_system plain_mfa).run alice_only (enrolled_by "first" 1 "111111")).isSome = true := by
    decide +kernel
  obtain ⟨s, hs⟩ := Option.isSome_iff_exists.mp hrun
  exact ⟨s, hs, (step_up_sound_iff plain_mfa alice_only_init hs).1⟩

end Fathom.Auth
