/-
**Who a request is.** What `current_principal` may return, over every history of logins,
logouts, expiry, deactivations and changes of the assignments and bindings.

A history also keeps what it did: the tokens it minted, for whom and until when, and the
sessions it revoked. `Inv` ties the session rows to that, and the rows of a request are
then read back as what happened (`local_sound`). The trusted proxy is the other way in,
and it looks a user up without asking whether the user is active: so authentication is
sound for a request exactly when the request does not come to the proxy's provider with
the name of a deactivated user (`authentication_sound_iff`).
-/
import Fathom.Auth.Store

set_option autoImplicit false

namespace Fathom.Auth

variable {crypto : Crypto} {settings : AuthSettings}

/-! ## Histories -/

/-- A session that was minted: its token, its user and its end. -/
structure Minted where
  token : String
  session_id : ℕ
  user_id : ℕ
  expires_at : ℤ

/-- The tables, the clock, and what was minted and revoked. -/
structure History where
  db : Db
  now : ℤ
  minted : List Minted
  revoked : List ℕ

/-- What happens. -/
inductive Event where
  | login (username password : String) (salt : ℕ) (token : String) (session_id : ℕ)
  /-- a request that is authenticated, whatever it does next -/
  | request (req : Request) (new_id : ℕ)
  | logout (req : Request) (new_id : ℕ)
  /-- a verified second factor stamps the session -/
  | stamp (session_id : ℕ)
  | tick (microseconds : ℕ)
  | create_user (user : User)
  | set_active (user_id : ℕ) (is_active : Bool)
  | assign (row : RoleAssignment)
  | unassign (id : ℕ)
  | bind (row : IdentityBinding)
  | unbind (group_claim : String)

/-- A row of a user, activated or deactivated. -/
def set_active (db : Db) (user_id : ℕ) (is_active : Bool) : Db :=
  { db with users :=
      db.users.update (fun user => user.id = user_id) (fun user => { user with is_active }) fun _ => rfl }

/-- One event; an event that raises is none. -/
def happen (crypto : Crypto) (settings : AuthSettings) (h : History) : Event → Option History
  | .login username password salt token session_id =>
    match login crypto settings h.db h.now username password salt token session_id with
    | none => none
    | some (row, db) =>
      some { h with db, minted := h.minted ++ [⟨token, row.id, row.user_id, row.expires_at⟩] }
  | .request req new_id =>
    match current_principal crypto settings h.db h.now req new_id with
    | none => none
    | some (_, db) => some { h with db }
  | .logout req new_id =>
    match current_principal crypto settings h.db h.now req new_id with
    | none => none
    | some (principal, db) =>
      some { h with db := logout db h.now principal, revoked := h.revoked ++ principal.session_id.toList }
  | .stamp session_id =>
    match h.db.sessions.find session_id with
    | none => none
    | some row => some { h with db := mark_step_up h.db h.now row }
  | .tick microseconds => some { h with now := h.now + microseconds }
  | .create_user user =>
    if (h.db.users.find user.id).isSome ∨ (h.db.user_named user.source user.subject).isSome then none
    else some { h with db := { h.db with users := h.db.users.put user } }
  | .set_active user_id is_active => some { h with db := set_active h.db user_id is_active }
  | .assign row => some { h with db := { h.db with assignments := h.db.assignments.put row } }
  | .unassign id => some { h with db := { h.db with assignments := h.db.assignments.erase id } }
  | .bind row => some { h with db := { h.db with bindings := h.db.bindings.put row } }
  | .unbind group_claim =>
    some { h with db := { h.db with bindings := h.db.bindings.erase group_claim } }

/-- The histories: any users, assignments and bindings to begin with, and no session. -/
def histories (crypto : Crypto) (settings : AuthSettings) : System History Event where
  init := fun h => h.db.sessions.rows = [] ∧ h.minted = [] ∧ h.revoked = []
  step := happen crypto settings

/-! ## Soundness -/

/-- A user is active. -/
def ActiveUser (db : Db) (user_id : ℕ) (subject : String) : Prop :=
  ∃ user ∈ db.users.rows, user.id = user_id ∧ user.subject = subject ∧ user.is_active = true

/-- The presented token is that of a session minted for the user, unexpired and unrevoked,
and the grants are the user's valid assignments. -/
def BySession (h : History) (req : Request) (p : Principal) : Prop :=
  (∃ m ∈ h.minted, extract_session_token req = some m.token ∧ m.user_id = p.user_id ∧
    h.now < m.expires_at ∧ m.session_id ∉ h.revoked ∧ p.session_id = some m.session_id) ∧
  ∀ g, g ∈ p.grants ↔ ∃ row ∈ h.db.assignments.rows, row.user_id = p.user_id ∧ row.grant = some g

/-- The peer lies in a trusted range and the header names the user, and the grants are the
global ones of the roles bound to the groups. -/
def ByProxy (settings : AuthSettings) (h : History) (db' : Db) (req : Request) (p : Principal) : Prop :=
  (∃ addr cidr net, req.client.bind Ip.ip_address = some addr ∧
    cidr ∈ settings.trusted_forward_proxy_cidrs ∧ Ip.ip_network cidr = some net ∧
    addr.family = net.family ∧ net.network_address ≤ addr.value ∧ addr.value ≤ net.broadcast_address) ∧
  req.remote_user = some p.subject ∧
  (∃ user ∈ db'.users.rows, user.id = p.user_id ∧ user.source = "forward" ∧ user.subject = p.subject) ∧
  ∀ g, g ∈ p.grants ↔ ∃ row ∈ h.db.bindings.rows, row.group_claim ∈ presented_groups req ∧
    ∃ role, coerce_role row.role = some role ∧ g = ⟨role, .global, none, none⟩

/-- What authentication owes a request. -/
def Sound (crypto : Crypto) (settings : AuthSettings) (h : History) (req : Request) (new_id : ℕ) : Prop :=
  ∀ p db', current_principal crypto settings h.db h.now req new_id = some (p, db') →
    ActiveUser db' p.user_id p.subject ∧ (BySession h req p ∨ ByProxy settings h db' req p)

/-- Whether a chain comes to its forward provider, when the local one answers or does not. -/
def reaches_forward (answered : Bool) : List Provider → Bool
  | [] => false
  | .forward :: _ => true
  | .local :: providers => !answered && reaches_forward answered providers

/-- A trusted proxy names a deactivated user, and no provider before it answers. -/
def NamesDeactivated (crypto : Crypto) (settings : AuthSettings) (h : History) (req : Request) : Prop :=
  reaches_forward (local_authenticate crypto h.db h.now req).isSome (build_provider_chain settings) = true ∧
  ∃ name user, forwarded_user settings.trusted_forward_proxy_cidrs req = some name ∧
    h.db.user_named "forward" name = some user ∧ user.is_active = false

variable {req : Request} {p : Principal} {db db' : Db} {new_id : ℕ} {now : ℤ}

/-! ## What an authentication does -/

theorem user_named_spec {source subject : String} {user : User} (h : db.user_named source subject = some user) :
    user ∈ db.users.rows ∧ user.source = source ∧ user.subject = subject := by
  unfold Db.user_named at h
  have hnamed := List.find?_some h
  rw [decide_eq_true_eq] at hnamed
  exact ⟨List.mem_of_find?_eq_some h, hnamed⟩

/-- The user of an upsert is the one of that name, or new and active; nothing else changes. -/
theorem upsert_federated_user_spec {source subject : String} {display_name : Option String} {user : User}
    (h : upsert_federated_user db source subject display_name new_id = some (user, db')) :
    user ∈ db'.users.rows ∧ user.source = source ∧ user.subject = subject ∧ (db.user_named source subject = some user ∨
        db.user_named source subject = none ∧ user.is_active = true) ∧
      db'.sessions = db.sessions ∧ db'.assignments = db.assignments ∧ db'.bindings = db.bindings := by
  unfold upsert_federated_user at h
  cases hnamed : db.user_named source subject with
  | some found =>
      rw [hnamed] at h
      simp only [Option.some.injEq, Prod.mk.injEq] at h
      obtain ⟨hmem, hsource, hsubject⟩ := user_named_spec hnamed
      rw [← h.1, ← h.2]
      exact ⟨hmem, hsource, hsubject, .inl rfl, rfl, rfl, rfl⟩
  | none =>
      rw [hnamed] at h
      cases hfree : db.users.find new_id with
      | some other => simp [hfree] at h
      | none =>
          simp only [hfree, Option.some.injEq, Prod.mk.injEq] at h
          rw [← h.1, ← h.2]
          exact ⟨Table.mem_put_self _ _, rfl, rfl, .inr ⟨rfl, rfl⟩, rfl, rfl, rfl⟩

variable {cidrs : List String} {h : History}

theorem forwarded_user_spec {name : String} (h : forwarded_user cidrs req = some name) :
    req.remote_user = some name ∧ is_trusted_source req.client cidrs = true := by
  unfold forwarded_user at h
  cases hname : req.remote_user.filter fun name => name ≠ "" with
  | none =>
      rw [hname] at h
      exact absurd h (by simp)
  | some found =>
      rw [hname] at h
      dsimp only at h
      split_ifs at h with htrusted
      rw [Option.some.injEq] at h
      rw [← h]
      exact ⟨(Option.filter_eq_some_iff.mp hname).1, htrusted⟩

theorem is_trusted_source_spec {ip : Option String} (h : is_trusted_source ip cidrs = true) :
    ∃ addr cidr net, ip.bind Ip.ip_address = some addr ∧ cidr ∈ cidrs ∧ Ip.ip_network cidr = some net ∧
      addr.family = net.family ∧ net.network_address ≤ addr.value ∧ addr.value ≤ net.broadcast_address := by
  unfold is_trusted_source at h
  cases haddr : ip.bind Ip.ip_address with
  | none => simp [haddr] at h
  | some addr =>
      rw [haddr] at h
      obtain ⟨cidr, hcidr, hany⟩ := List.any_eq_true.mp h
      cases hnet : Ip.ip_network cidr with
      | none => simp [hnet] at hany
      | some net =>
          rw [hnet] at hany
          exact ⟨addr, cidr, net, rfl, hcidr, hnet, (net.contains_iff addr).mp hany⟩

/-- A chain answers with the local provider, or it has come to the forward one and answers
with that. -/
theorem resolve_principal_cases {providers : List Provider}
    (h : resolve_principal crypto settings db now req new_id providers = some (some (p, db'))) :
    (local_authenticate crypto db now req = some p ∧ db' = db) ∨
      (reaches_forward (local_authenticate crypto db now req).isSome providers = true ∧
        forward_authenticate settings.trusted_forward_proxy_cidrs db req new_id = some (some (p, db'))) := by
  induction providers with
  | nil => simp [resolve_principal] at h
  | cons provider providers ih =>
      cases provider with
      | «local» =>
          rw [resolve_principal] at h
          cases hlocal : local_authenticate crypto db now req with
          | some q =>
              rw [hlocal] at h
              simp only [Option.some.injEq, Prod.mk.injEq] at h
              exact .inl ⟨by rw [h.1], h.2.symm⟩
          | none =>
              rw [hlocal] at h ih
              rcases ih h with ⟨hnone, -⟩ | ⟨hreaches, hforward⟩
              · exact absurd hnone (by simp)
              · exact .inr ⟨hreaches, hforward⟩
      | forward =>
          rw [resolve_principal] at h
          cases hforward : forward_authenticate settings.trusted_forward_proxy_cidrs db req new_id with
          | none => simp [hforward] at h
          | some answer =>
              cases answer with
              | some q =>
                  rw [hforward] at h
                  exact .inr ⟨rfl, h⟩
              | none =>
                  rw [hforward] at h
                  rcases ih h with hlocal | ⟨-, hlater⟩
                  · exact .inl hlocal
                  · exact absurd (hforward.symm.trans hlater) (by simp)

/-- A chain that comes to the forward provider answers what that answers. -/
theorem resolve_principal_forward {answer : Principal × Db} {providers : List Provider}
    (hreaches : reaches_forward (local_authenticate crypto db now req).isSome providers = true)
    (hforward : forward_authenticate settings.trusted_forward_proxy_cidrs db req new_id = some (some answer)) :
    resolve_principal crypto settings db now req new_id providers = some (some answer) := by
  induction providers with
  | nil => simp [reaches_forward] at hreaches
  | cons provider providers ih =>
      cases provider with
      | «local» =>
          simp only [reaches_forward, Bool.and_eq_true, Bool.not_eq_true'] at hreaches
          rw [resolve_principal, Option.isSome_eq_false_iff.mp hreaches.1 |> Option.isNone_iff_eq_none.mp]
          exact ih hreaches.2
      | forward => rw [resolve_principal, hforward]

theorem current_principal_cases
    (h : current_principal crypto settings db now req new_id = some (p, db')) :
    (local_authenticate crypto db now req = some p ∧ db' = db) ∨
      (reaches_forward (local_authenticate crypto db now req).isSome (build_provider_chain settings) = true ∧
        forward_authenticate settings.trusted_forward_proxy_cidrs db req new_id = some (some (p, db'))) :=
  resolve_principal_cases (Option.join_eq_some_iff.mp h)

/-- Authentication changes no session and no assignment. -/
theorem forward_authenticate_spec (h : forward_authenticate cidrs db req new_id = some (some (p, db'))) :
    ∃ name user, forwarded_user cidrs req = some name ∧
      upsert_federated_user db "forward" name (some name) new_id = some (user, db') ∧
      p.subject = user.subject ∧ p.user_id = user.id ∧ p.session_id = none ∧
      p.grants = (roles_for_groups db' (presented_groups req)).map fun role => ⟨role, .global, none, none⟩ := by
  unfold forward_authenticate at h
  cases hname : forwarded_user cidrs req with
  | none => simp [hname] at h
  | some name =>
      rw [hname] at h
      cases hupsert : upsert_federated_user db "forward" name (some name) new_id with
      | none => simp [hupsert] at h
      | some stored =>
          obtain ⟨user, db''⟩ := stored
          simp only [hupsert, Option.some.injEq, Prod.mk.injEq] at h
          rw [← h.1, ← h.2]
          exact ⟨name, user, rfl, hupsert, rfl, rfl, rfl, rfl⟩

theorem current_principal_sessions (h : current_principal crypto settings db now req new_id = some (p, db')) :
    db'.sessions = db.sessions := by
  rcases current_principal_cases h with ⟨-, hsame⟩ | ⟨-, hforward⟩
  · rw [hsame]
  · obtain ⟨name, user, -, hupsert, -⟩ := forward_authenticate_spec hforward
    exact (upsert_federated_user_spec hupsert).2.2.2.2.1

/-! ## The invariant -/

/-- Every session row was minted, for its user and until its end; and it is marked revoked
if it was revoked. -/
structure SessionOk (crypto : Crypto) (h : History) (row : UserSession) : Prop where
  minted : ∃ m ∈ h.minted, m.session_id = row.id ∧ m.user_id = row.user_id ∧
    m.expires_at = row.expires_at ∧ crypto.hash_token m.token = row.token_hash
  live : row.revoked_at = none → row.id ∉ h.revoked

/-- The invariant; a session that was revoked is there. -/
structure Inv (crypto : Crypto) (h : History) : Prop where
  rows : ∀ row ∈ h.db.sessions.rows, SessionOk crypto h row
  revoked : ∀ id ∈ h.revoked, (h.db.sessions.find id).isSome = true

theorem Inv.of_same {h' : History} (hinv : Inv crypto h) (hsessions : h'.db.sessions = h.db.sessions)
    (hminted : h'.minted = h.minted) (hrevoked : h'.revoked = h.revoked) : Inv crypto h' where
  rows := by
    intro row hrow
    rw [hsessions] at hrow
    obtain ⟨hm, hlive⟩ := hinv.rows row hrow
    exact ⟨by rwa [hminted], by rwa [hrevoked]⟩
  revoked := by
    rw [hsessions, hrevoked]
    exact hinv.revoked

/-- A session written in place keeps what the invariant says of it. -/
theorem Inv.put_session {h' : History} (hinv : Inv crypto h) (row row' : UserSession)
    (hfind : h.db.sessions.find row'.id = some row) (hsessions : h'.db.sessions = h.db.sessions.put row')
    (hminted : h'.minted = h.minted) (huser : row'.user_id = row.user_id) (hends : row'.expires_at = row.expires_at)
    (hhash : row'.token_hash = row.token_hash)
    (hrevoked : ∀ id ∈ h'.revoked, id ∈ h.revoked ∨ (id = row'.id ∧ row'.revoked_at ≠ none))
    (hlive : row'.revoked_at = none → row.revoked_at = none) : Inv crypto h' where
  rows := by
    intro r hr
    rw [hsessions] at hr
    rcases Table.mem_put hr with hnew | ⟨hold, hne⟩
    · obtain ⟨⟨m, hm, hid, hmuser, hmends, hmhash⟩, hok⟩ := hinv.rows row (Table.mem_of_find hfind)
      have hkey := Table.key_of_find hfind
      refine ⟨⟨m, by rwa [hminted], ?_, ?_, ?_, ?_⟩, ?_⟩
      · rw [hid, hkey, hnew]
      · rw [hmuser, hnew, huser]
      · rw [hmends, hnew, hends]
      · rw [hmhash, hnew, hhash]
      · intro hnone hin
        rw [hnew] at hnone hin
        rcases hrevoked _ hin with hbefore | ⟨-, hmarked⟩
        · rw [← hkey] at hbefore
          exact hok (hlive hnone) hbefore
        · exact hmarked hnone
    · obtain ⟨hm, hok⟩ := hinv.rows r hold
      refine ⟨by rwa [hminted], fun hnone hin => ?_⟩
      rcases hrevoked _ hin with hbefore | ⟨heq, -⟩
      · exact hok hnone hbefore
      · exact hne heq
  revoked := by
    intro id hid
    rw [hsessions]
    by_cases heq : id = row'.id
    · rw [heq, Table.find_put_self]
      rfl
    · rw [Table.find_put_ne _ heq]
      rcases hrevoked id hid with hbefore | ⟨hnow, -⟩
      · exact hinv.revoked id hbefore
      · exact absurd hnow heq

theorem create_session_spec {ttl : ℤ} {user_id session_id : ℕ} {token : String} {row : UserSession}
    (h : create_session crypto db now user_id ttl token session_id = some (row, db')) :
    db.sessions.find session_id = none ∧ db'.sessions = db.sessions.put row ∧
      row = ⟨session_id, user_id, crypto.hash_token token, now + ttl, none, none⟩ := by
  unfold create_session at h
  split_ifs at h with htaken
  rw [Option.some.injEq, Prod.mk.injEq] at h
  rw [not_or, Bool.not_eq_true, Option.isSome_eq_false_iff, Option.isNone_iff_eq_none] at htaken
  rw [← h.1, ← h.2]
  exact ⟨htaken.1, rfl, rfl⟩

/-- A login leaves the sessions as they were, with the one it mints. -/
theorem login_spec {username password token : String} {salt session_id : ℕ} {row : UserSession}
    (h : login crypto settings db now username password salt token session_id = some (row, db')) :
    db.sessions.find session_id = none ∧ db'.sessions = db.sessions.put row ∧ row.id = session_id ∧
      row.token_hash = crypto.hash_token token ∧ row.revoked_at = none ∧ row.mfa_authenticated_at = none := by
  unfold login at h
  cases huser : get_active_user db "local" username with
  | none => simp [huser] at h
  | some user =>
      cases hhash : user.password_hash with
      | none => simp [huser, hhash] at h
      | some password_hash =>
          simp only [huser, hhash] at h
          split_ifs at h with hwrong
          obtain ⟨hfree, hput, hrow⟩ := create_session_spec h
          -- a password that is hashed anew is in no session row
          have hsame : (rehash crypto db user password_hash password salt).sessions = db.sessions := by
            unfold rehash
            split <;> rfl
          rw [hsame] at hfree hput
          rw [hrow] at hput ⊢
          exact ⟨hfree, hput, rfl, rfl, rfl, rfl⟩

/-- A local principal is of a row that is live and of a user that is active. -/
theorem local_authenticate_spec (h : local_authenticate crypto db now req = some p) :
    ∃ token row user, extract_session_token req = some token ∧ row ∈ db.sessions.rows ∧
      row.token_hash = crypto.hash_token token ∧ row.revoked_at = none ∧ now < row.expires_at ∧
      db.users.find row.user_id = some user ∧ user.is_active = true ∧ p.subject = user.subject ∧
      p.user_id = user.id ∧ p.session_id = some row.id ∧ p.grants = grants_for_user db user.id ∧
      p.mfa_authenticated_at = row.mfa_authenticated_at := by
  unfold local_authenticate at h
  cases hrow : (extract_session_token req).bind (lookup_session crypto db now) with
  | none => simp [hrow] at h
  | some row =>
      rw [hrow] at h
      cases huser : db.users.find row.user_id with
      | none => simp [huser] at h
      | some user =>
          simp only [huser] at h
          split_ifs at h with hinactive
          rw [Option.some.injEq] at h
          obtain ⟨token, htoken, hlookup⟩ := Option.bind_eq_some_iff.mp hrow
          unfold lookup_session at hlookup
          cases hfound : db.sessions.rows.find? fun row => row.token_hash = crypto.hash_token token with
          | none => simp [hfound] at hlookup
          | some found =>
              rw [hfound] at hlookup
              dsimp only at hlookup
              split_ifs at hlookup with hrevoked hexpired
              rw [Option.some.injEq] at hlookup
              have hhash := List.find?_some hfound
              rw [decide_eq_true_eq] at hhash
              rw [hlookup] at hhash hrevoked hexpired
              rw [Bool.not_eq_true, Option.isSome_eq_false_iff, Option.isNone_iff_eq_none] at hrevoked
              refine ⟨token, row, user, htoken, ?_, hhash, hrevoked, by omega, huser, ?_, ?_⟩
              · rw [← hlookup]
                exact List.mem_of_find?_eq_some hfound
              · simpa using hinactive
              · rw [← h]
                exact ⟨rfl, rfl, rfl, rfl, rfl⟩

/-- What an event keeps. -/
theorem inv_step {h' : History} {event : Event} (hinv : Inv crypto h) (hstep : happen crypto settings h event = some h') :
    Inv crypto h' := by
  cases event with
  | login username password salt token session_id =>
      simp only [happen] at hstep
      split at hstep
      · exact absurd hstep (by simp)
      · next row db hlogin =>
          rw [Option.some.injEq] at hstep
          rw [← hstep]
          obtain ⟨hfree, hput, hid, hhash, hrevoked, -⟩ := login_spec hlogin
          refine ⟨fun r hr => ?_, fun id hin => ?_⟩
          · dsimp only at hr
            rw [hput] at hr
            rcases Table.mem_put hr with hnew | ⟨hold, -⟩
            · rw [hnew]
              refine ⟨⟨_, List.mem_append_right _ (List.mem_singleton_self _), rfl, rfl, rfl, hhash.symm⟩,
                fun _ hin => ?_⟩
              -- the id of a new session is that of no other, so none was revoked under it
              have hthere := hinv.revoked _ hin
              rw [hid, hfree] at hthere
              exact absurd hthere (by simp)
            · obtain ⟨⟨m, hm, hrest⟩, hlive⟩ := hinv.rows r hold
              exact ⟨⟨m, List.mem_append_left _ hm, hrest⟩, hlive⟩
          · dsimp only at hin ⊢
            rw [hput]
            by_cases heq : id = row.id
            · rw [heq, Table.find_put_self]
              rfl
            · rw [Table.find_put_ne _ heq]
              exact hinv.revoked id hin
  | request req new_id =>
      simp only [happen] at hstep
      split at hstep
      · exact absurd hstep (by simp)
      · next p db hprincipal =>
          rw [Option.some.injEq] at hstep
          rw [← hstep]
          exact hinv.of_same (current_principal_sessions hprincipal) rfl rfl
  | logout req new_id =>
      simp only [happen] at hstep
      split at hstep
      · exact absurd hstep (by simp)
      · next p db hprincipal =>
          rw [Option.some.injEq] at hstep
          rw [← hstep]
          have hsame := current_principal_sessions hprincipal
          unfold logout
          cases hid : p.session_id with
          | none =>
              dsimp only [Option.bind_none, Option.toList_none]
              rw [List.append_nil]
              exact hinv.of_same hsame rfl rfl
          | some id =>
              rw [Option.bind_some, hsame]
              cases hfind : h.db.sessions.find id with
              | none =>
                  -- a principal of a session has its row
                  rcases current_principal_cases hprincipal with ⟨hlocal, -⟩ | ⟨-, hforward⟩
                  · obtain ⟨-, row, -, -, hrow, -, -, -, -, -, -, -, hsession, -⟩ :=
                      local_authenticate_spec hlocal
                    rw [hid, Option.some.injEq] at hsession
                    rw [hsession, Table.find_of_mem hrow] at hfind
                    exact absurd hfind (by simp)
                  · obtain ⟨-, -, -, -, -, -, hnone, -⟩ := forward_authenticate_spec hforward
                    exact absurd (hid.symm.trans hnone) (by simp)
              | some row =>
                  have hkey := Table.key_of_find hfind
                  refine hinv.put_session row { row with revoked_at := some h.now }
                    (by rw [hkey]; exact hfind) (by dsimp only [revoke_session]; rw [hsame]) rfl rfl rfl rfl ?_
                    (fun hnone => absurd hnone (by simp))
                  intro id' hin
                  rcases List.mem_append.mp hin with hbefore | hnow
                  · exact .inl hbefore
                  · rw [Option.toList_some, List.mem_singleton] at hnow
                    exact .inr ⟨hnow.trans hkey.symm, by simp⟩
  | stamp session_id =>
      simp only [happen] at hstep
      split at hstep
      · exact absurd hstep (by simp)
      · next row hfind =>
          rw [Option.some.injEq] at hstep
          rw [← hstep]
          have hkey := Table.key_of_find hfind
          exact hinv.put_session row { row with mfa_authenticated_at := some h.now }
            (by rw [hkey]; exact hfind) rfl rfl rfl rfl rfl (fun id hin => .inl hin) fun hnone => hnone
  | create_user user =>
      simp only [happen] at hstep
      split_ifs at hstep with htaken
      rw [Option.some.injEq] at hstep
      rw [← hstep]
      exact hinv.of_same rfl rfl rfl
  | tick microseconds =>
      rw [← Option.some.inj hstep]
      exact hinv.of_same rfl rfl rfl
  | set_active user_id is_active =>
      rw [← Option.some.inj hstep]
      exact hinv.of_same rfl rfl rfl
  | assign row =>
      rw [← Option.some.inj hstep]
      exact hinv.of_same rfl rfl rfl
  | unassign id =>
      rw [← Option.some.inj hstep]
      exact hinv.of_same rfl rfl rfl
  | bind row =>
      rw [← Option.some.inj hstep]
      exact hinv.of_same rfl rfl rfl
  | unbind group_claim =>
      rw [← Option.some.inj hstep]
      exact hinv.of_same rfl rfl rfl

theorem inv_trace {events : List Event} (htr : (histories crypto settings).Trace events h) : Inv crypto h := by
  refine htr.invariant (I := Inv crypto) ?_ fun h event h' hinv hstep => inv_step hinv hstep
  rintro h ⟨hsessions, -, hrevoked⟩
  refine ⟨fun row hrow => ?_, fun id hid => ?_⟩
  · rw [hsessions] at hrow
    exact absurd hrow List.not_mem_nil
  · rw [hrevoked] at hid
    exact absurd hid List.not_mem_nil

/-! ## Authentication -/

/-- No two of the tokens that were minted and presented have one hash. -/
def Distinct (crypto : Crypto) (h : History) (req : Request) : Prop :=
  ∀ token, extract_session_token req = some token → ∀ m ∈ h.minted,
    crypto.hash_token m.token = crypto.hash_token token → m.token = token

/-- What the local provider answers is sound. -/
theorem local_sound (hinv : Inv crypto h) (hdistinct : Distinct crypto h req)
    (hlocal : local_authenticate crypto h.db h.now req = some p) :
    ActiveUser h.db p.user_id p.subject ∧ BySession h req p := by
  obtain ⟨token, row, user, htoken, hrow, hhash, hrevoked, hends, huser, hactive, hsubject, hid, hsession,
    hgrants, -⟩ := local_authenticate_spec hlocal
  obtain ⟨⟨m, hm, hmid, hmuser, hmends, hmhash⟩, hlive⟩ := hinv.rows row hrow
  refine ⟨⟨user, Table.mem_of_find huser, hid.symm, hsubject.symm, hactive⟩, ⟨m, hm, ?_, ?_, ?_, ?_, ?_⟩, ?_⟩
  · rw [htoken, hdistinct token htoken m hm (hmhash.trans hhash)]
  · rw [hmuser, hid, Table.key_of_find huser]
  · rw [hmends]
    exact hends
  · rw [hmid]
    exact hlive hrevoked
  · rw [hsession, hmid]
  · intro g
    rw [hgrants, mem_grants_for_user, hid]

/-- What the trusted proxy's provider answers is sound but for the activity of the user. -/
theorem forward_sound (hforward : forward_authenticate settings.trusted_forward_proxy_cidrs h.db req new_id =
      some (some (p, db'))) : ByProxy settings h db' req p := by
  obtain ⟨name, user, hname, hupsert, hsubject, hid, -, hgrants⟩ := forward_authenticate_spec hforward
  obtain ⟨hmem, hsource, hnamed, -, -, -, hbindings⟩ := upsert_federated_user_spec hupsert
  obtain ⟨hheader, htrusted⟩ := forwarded_user_spec hname
  refine ⟨is_trusted_source_spec htrusted, ?_, ⟨user, hmem, hid.symm, hsource, hsubject.symm⟩, ?_⟩
  · rw [hheader, hsubject, hnamed]
  · intro g
    rw [hgrants]
    simp only [List.mem_map, mem_roles_for_groups, hbindings]
    constructor
    · rintro ⟨role, ⟨row, hrow, hgroup, hrole⟩, hg⟩
      exact ⟨row, hrow, hgroup, role, hrole, hg.symm⟩
    · rintro ⟨row, hrow, hgroup, role, hrole, hg⟩
      exact ⟨role, ⟨row, hrow, hgroup, hrole⟩, hg.symm⟩

/-- **Authentication is sound** for a request, in every history, exactly when the request
does not come to the trusted proxy's provider with the name of a deactivated user. -/
theorem authentication_sound_iff (crypto : Crypto) (settings : AuthSettings) {events : List Event}
    {h : History} (htr : (histories crypto settings).Trace events h) (req : Request) (new_id : ℕ)
    (hdistinct : Distinct crypto h req) :
    Sound crypto settings h req new_id ↔ ¬ NamesDeactivated crypto settings h req := by
  have hinv := inv_trace htr
  constructor
  · rintro hsound ⟨hreaches, name, user, hname, hnamed, hinactive⟩
    -- the provider finds the user and returns a principal of it
    have hupsert : upsert_federated_user h.db "forward" name (some name) new_id = some (user, h.db) := by
      unfold upsert_federated_user
      rw [hnamed]
    obtain ⟨hmem, -⟩ := user_named_spec hnamed
    have hforward : ∃ p, forward_authenticate settings.trusted_forward_proxy_cidrs h.db req new_id =
        some (some (p, h.db)) ∧ p.user_id = user.id := by
      unfold forward_authenticate
      rw [hname]
      dsimp only
      rw [hupsert]
      exact ⟨_, rfl, rfl⟩
    obtain ⟨p, hanswer, hid⟩ := hforward
    have hprincipal : current_principal crypto settings h.db h.now req new_id = some (p, h.db) := by
      unfold current_principal
      rw [resolve_principal_forward hreaches hanswer]
      rfl
    obtain ⟨⟨active, hactive, haid, -, hisactive⟩, -⟩ := hsound p h.db hprincipal
    have hsame := Table.eq_of_key hactive hmem (haid.trans hid)
    rw [hsame, hinactive] at hisactive
    exact absurd hisactive (by simp)
  · intro hnot p db' hprincipal
    rcases current_principal_cases hprincipal with ⟨hlocal, hsame⟩ | ⟨hreaches, hforward⟩
    · rw [hsame]
      obtain ⟨hactive, hby⟩ := local_sound hinv hdistinct hlocal
      exact ⟨hactive, .inl hby⟩
    · refine ⟨?_, .inr (forward_sound hforward)⟩
      obtain ⟨name, user, hname, hupsert, hsubject, hid, -⟩ := forward_authenticate_spec hforward
      obtain ⟨hmem, -, -, hwho, -⟩ := upsert_federated_user_spec hupsert
      refine ⟨user, hmem, hid.symm, hsubject.symm, ?_⟩
      rcases hwho with hthere | ⟨-, hnew⟩
      · by_contra hinactive
        rw [Bool.not_eq_true] at hinactive
        exact hnot ⟨hreaches, name, user, hname, hthere, hinactive⟩
      · exact hnew

/-! A proxy at `10.1.2.3` brings a user in, who is deactivated afterwards. -/

/-- A crypto whose hashes are the texts. -/
def plain_crypto : Crypto where
  hash_token := fun token => token
  verify_password := fun password password_hash => password = password_hash
  needs_rehash := fun _ => false
  hash_password := fun _ password => password

/-- A deployment behind a proxy. -/
def proxied : AuthSettings := ⟨["local", "forward", "oidc"], ["10.0.0.0/8"], 43200, 300⟩

/-- Before anyone came. -/
def nobody : History :=
  ⟨⟨Table.empty _, Table.empty _, Table.empty _, Table.empty _⟩, 0, [], []⟩

theorem nobody_init : (histories plain_crypto proxied).init nobody := ⟨rfl, rfl, rfl⟩

/-- A request of the proxy for a user. -/
def proxy_request (name : String) : Request := ⟨none, none, some name, none, some "10.1.2.3"⟩

/-- The user comes, and is deactivated. -/
def deactivation : List Event := [.request (proxy_request "eve") 1, .set_active 1 false]

theorem deactivated_user_authenticates :
    ∃ h, (histories plain_crypto proxied).Trace deactivation h ∧
      Distinct plain_crypto h (proxy_request "eve") ∧
      ¬ Sound plain_crypto proxied h (proxy_request "eve") 2 := by
  have hrun : ((histories plain_crypto proxied).run nobody deactivation).bind (fun h =>
      (current_principal plain_crypto proxied h.db h.now (proxy_request "eve") 2).map fun answer =>
        (answer.1.user_id, answer.2.users.rows.map fun user => (user.id, user.is_active))) =
      some (1, [(1, false)]) := by decide +kernel
  obtain ⟨h, hh, hprincipal⟩ := Option.bind_eq_some_iff.mp hrun
  obtain ⟨⟨p, db'⟩, hprincipal, hvalues⟩ := Option.map_eq_some_iff.mp hprincipal
  rw [Prod.mk.injEq] at hvalues
  refine ⟨h, ⟨nobody, nobody_init, hh⟩, fun token htoken => absurd htoken (by simp [extract_session_token, proxy_request]), ?_⟩
  intro hsound
  obtain ⟨⟨user, huser, hid, -, hactive⟩, -⟩ := hsound p db' hprincipal
  have hmem : (user.id, user.is_active) ∈ db'.users.rows.map fun user => (user.id, user.is_active) :=
    List.mem_map_of_mem huser
  rw [hvalues.2, List.mem_singleton, Prod.mk.injEq, hactive] at hmem
  exact absurd hmem.2 (by simp)

/-- A local user logs in. -/
def local_login : List Event :=
  [.create_user ⟨7, "alice", "local", none, some "secret", true⟩, .login "alice" "secret" 0 "token" 1]

theorem authentication_sound_iff_login :
    ∃ h, (histories plain_crypto proxied).Trace local_login h ∧
      (Sound plain_crypto proxied h ⟨some "token", none, none, none, none⟩ 8 ↔
        ¬ NamesDeactivated plain_crypto proxied h ⟨some "token", none, none, none, none⟩) := by
  have hrun : ((histories plain_crypto proxied).run nobody local_login).isSome = true := by
    decide +kernel
  obtain ⟨h, hh⟩ := Option.isSome_iff_exists.mp hrun
  have htr : (histories plain_crypto proxied).Trace local_login h := ⟨nobody, nobody_init, hh⟩
  exact ⟨h, htr, authentication_sound_iff plain_crypto proxied htr _ 8 fun _ _ _ _ hsame => hsame⟩

end Fathom.Auth
