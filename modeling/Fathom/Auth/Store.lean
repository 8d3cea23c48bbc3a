/-
**Users, sessions and principals** (`auth/models.py`, `auth/sessions.py`,
`auth/store.py`, `auth/providers/`, and the chain of `api/auth_deps.py`).

The rows are what the tables hold and nothing is derived from a request but its token
and its headers. What hashes a token and what checks a password are parameters. Times
are in microseconds.

A request that inserts a user draws its id; where the id is taken, the insert raises and
there is no principal.
-/
import Fathom.Auth.Scope
import Fathom.Config.Store
import Fathom.Lib.Ip

set_option autoImplicit false

namespace Fathom.Auth

/-! ## Tables -/

/-- `User`. -/
structure User where
  id : ℕ
  subject : String
  source : String
  display_name : Option String
  password_hash : Option String
  is_active : Bool
  deriving DecidableEq

/-- `RoleAssignment`. -/
structure RoleAssignment where
  id : ℕ
  user_id : ℕ
  role : String
  scope_kind : String
  host_id : Option ℕ
  volume_id : Option ℕ
  deriving DecidableEq

/-- `UserSession`. -/
structure UserSession where
  id : ℕ
  user_id : ℕ
  token_hash : String
  expires_at : ℤ
  mfa_authenticated_at : Option ℤ
  revoked_at : Option ℤ
  deriving DecidableEq

/-- `IdentityBinding`. -/
structure IdentityBinding where
  group_claim : String
  role : String
  deriving DecidableEq

/-- The tables. -/
structure Db where
  users : Table User.id
  assignments : Table RoleAssignment.id
  sessions : Table UserSession.id
  bindings : Table IdentityBinding.group_claim

/-- `hash_token`, `verify_password`, `needs_rehash` and `hash_password`, which draws a salt. -/
structure Crypto where
  hash_token : String → String
  verify_password : String → String → Bool
  needs_rehash : String → Bool
  hash_password : ℕ → String → String

/-! ## Grants -/

/-- `_coerce_role`. -/
def coerce_role (value : String) : Option Role :=
  if value = "viewer" then some .viewer
  else if value = "operator" then some .operator
  else if value = "remediator" then some .remediator
  else if value = "auditor" then some .auditor
  else if value = "admin" then some .admin
  else none

/-- `_coerce_scope_kind`. -/
def coerce_scope_kind (value : String) : Option ScopeKind :=
  if value = "global" then some .global
  else if value = "host" then some .host
  else if value = "volume" then some .volume
  else none

/-- The grant an assignment stands for, unless it is malformed. -/
def RoleAssignment.grant (row : RoleAssignment) : Option Grant :=
  match coerce_role row.role, coerce_scope_kind row.scope_kind with
  | some role, some scope_kind => some ⟨role, scope_kind, row.host_id, row.volume_id⟩
  | _, _ => none

/-- The grants with one more, unless it is there. -/
def add_grant (grants : List Grant) (row : RoleAssignment) : List Grant :=
  match row.grant with
  | none => grants
  | some grant => if grant ∈ grants then grants else grants ++ [grant]

/-- `grants_for_user`. -/
def grants_for_user (db : Db) (user_id : ℕ) : List Grant :=
  (db.assignments.rows.filter fun row => row.user_id = user_id).foldl add_grant []

/-- `roles_for_groups`. -/
def roles_for_groups (db : Db) (groups : List String) : List Role :=
  if groups = [] then []
  else (db.bindings.rows.filter fun row => row.group_claim ∈ groups).filterMap fun row => coerce_role row.role

theorem mem_add_grant {grants : List Grant} {row : RoleAssignment} {g : Grant} :
    g ∈ add_grant grants row ↔ g ∈ grants ∨ row.grant = some g := by
  unfold add_grant
  cases hgrant : row.grant with
  | none => simp
  | some grant =>
      dsimp only
      split_ifs with hmem
      · constructor
        · exact Or.inl
        · rintro (hold | hnew)
          · exact hold
          · rw [Option.some.injEq] at hnew
            rwa [← hnew]
      · rw [List.mem_append, List.mem_singleton, Option.some.injEq, eq_comm (a := g)]

/-- The grants of a user are those of the valid assignments of this user. -/
theorem mem_grants_for_user {db : Db} {user_id : ℕ} {g : Grant} : g ∈ grants_for_user db user_id ↔
      ∃ row ∈ db.assignments.rows, row.user_id = user_id ∧ row.grant = some g := by
  have hfold : ∀ (rows : List RoleAssignment) (grants : List Grant),
      g ∈ rows.foldl add_grant grants ↔ g ∈ grants ∨ ∃ row ∈ rows, row.grant = some g := by
    intro rows
    induction rows with
    | nil => simp
    | cons row rows ih =>
        intro grants
        rw [List.foldl_cons, ih, mem_add_grant, or_assoc]
        simp only [List.exists_mem_cons_iff]
  rw [grants_for_user, hfold]
  simp only [List.not_mem_nil, false_or, List.mem_filter, decide_eq_true_eq]
  constructor
  · rintro ⟨row, ⟨hrow, huser⟩, hgrant⟩
    exact ⟨row, hrow, huser, hgrant⟩
  · rintro ⟨row, hrow, huser, hgrant⟩
    exact ⟨row, ⟨hrow, huser⟩, hgrant⟩

theorem mem_roles_for_groups {db : Db} {groups : List String} {role : Role} : role ∈ roles_for_groups db groups ↔
      ∃ row ∈ db.bindings.rows, row.group_claim ∈ groups ∧ coerce_role row.role = some role := by
  unfold roles_for_groups
  split_ifs with hempty
  · simp [hempty]
  · simp only [List.mem_filterMap, List.mem_filter, decide_eq_true_eq]
    constructor
    · rintro ⟨row, ⟨hrow, hgroup⟩, hrole⟩
      exact ⟨row, hrow, hgroup, hrole⟩
    · rintro ⟨row, hrow, hgroup, hrole⟩
      exact ⟨row, ⟨hrow, hgroup⟩, hrole⟩

/-! ## Users -/

/-- `select(User).where(source, subject)`. -/
def Db.user_named (db : Db) (source subject : String) : Option User :=
  db.users.rows.find? fun user => user.source = source ∧ user.subject = subject

/-- `get_active_user`. -/
def get_active_user (db : Db) (source subject : String) : Option User :=
  (db.user_named source subject).filter fun user => user.is_active

/-- `upsert_federated_user`, where a new row gets the id `new_id`. -/
def upsert_federated_user (db : Db) (source subject : String) (display_name : Option String)
    (new_id : ℕ) : Option (User × Db) :=
  match db.user_named source subject with
  | some user => some (user, db)
  | none =>
    match db.users.find new_id with
    | some _ => none
    | none =>
      let user : User := ⟨new_id, subject, source, display_name, none, true⟩
      some (user, { db with users := db.users.put user })

/-! ## Sessions -/

section

variable (crypto : Crypto)

/-- `create_session` with the token `mint_token` returned, unless a key is taken. -/
def create_session (db : Db) (now : ℤ) (user_id : ℕ) (ttl : ℤ) (token : String) (session_id : ℕ) :
    Option (UserSession × Db) :=
  if (db.sessions.find session_id).isSome ∨
      (db.sessions.rows.any fun row => row.token_hash = crypto.hash_token token) then none
  else
    let row : UserSession := ⟨session_id, user_id, crypto.hash_token token, now + ttl, none, none⟩
    some (row, { db with sessions := db.sessions.put row })

/-- `lookup_session`. -/
def lookup_session (db : Db) (now : ℤ) (raw_token : String) : Option UserSession :=
  match db.sessions.rows.find? fun row => row.token_hash = crypto.hash_token raw_token with
  | none => none
  | some row =>
    if row.revoked_at.isSome then none else if row.expires_at ≤ now then none else some row

end

/-- `revoke_session`. -/
def revoke_session (db : Db) (now : ℤ) (row : UserSession) : Db :=
  { db with sessions := db.sessions.put { row with revoked_at := some now } }

/-- `mark_step_up`. -/
def mark_step_up (db : Db) (now : ℤ) (row : UserSession) : Db :=
  { db with sessions := db.sessions.put { row with mfa_authenticated_at := some now } }

/-! ## Principals -/

/-- `PrincipalSource`. -/
inductive PrincipalSource where
  | local
  | forward
  | oidc
  deriving DecidableEq

/-- `coerce_source`. -/
def coerce_source (value : String) : PrincipalSource :=
  if value = "forward" then .forward else if value = "oidc" then .oidc else .local

/-- `Principal`. -/
structure Principal where
  subject : String
  source : PrincipalSource
  user_id : ℕ
  display_name : Option String
  groups : List String
  grants : List Grant
  mfa_authenticated_at : Option ℤ
  session_id : Option ℕ
  deriving DecidableEq

/-- What authentication reads of a request: the session cookie, three headers, and the
address of the peer. -/
structure Request where
  cookie : Option String
  authorization : Option String
  remote_user : Option String
  remote_groups : Option String
  client : Option String
  deriving DecidableEq

/-- `text.strip()`. -/
def strip (text : List Char) : List Char :=
  (text.dropWhile Config.is_space).rdropWhile Config.is_space

/-- `extract_session_token`. -/
def extract_session_token (req : Request) : Option String :=
  match req.cookie.filter fun cookie => cookie ≠ "" with
  | some cookie => some cookie
  | none =>
    match req.authorization with
    | none => none
    | some header =>
      if "Bearer ".toList.isPrefixOf header.toList then
        let token := strip (header.toList.drop "Bearer ".toList.length)
        if token = [] then none else some (String.ofList token)
      else none

/-- `LocalSessionProvider.authenticate`. -/
def local_authenticate (crypto : Crypto) (db : Db) (now : ℤ) (req : Request) : Option Principal :=
  match (extract_session_token req).bind (lookup_session crypto db now) with
  | none => none
  | some row =>
    match db.users.find row.user_id with
    | none => none
    | some user =>
      if ¬user.is_active then none
      else
        some {
          subject := user.subject, source := coerce_source user.source, user_id := user.id
          display_name := user.display_name, groups := [], grants := grants_for_user db user.id
          mfa_authenticated_at := row.mfa_authenticated_at, session_id := some row.id }

/-- `_is_trusted_source`: a range that cannot be read is passed over. -/
def is_trusted_source (ip : Option String) (trusted_cidrs : List String) : Bool :=
  match ip.bind Ip.ip_address with
  | none => false
  | some addr => trusted_cidrs.any fun cidr => (Ip.ip_network cidr).any fun net => net.contains addr

/-- The groups of a header. -/
def presented_groups (req : Request) : List String :=
  (((req.remote_groups.getD "").toList.splitOn ',').map strip |>.filter fun g => g ≠ []).map String.ofList

/-- The user the headers name, where the peer is a trusted proxy. -/
def forwarded_user (trusted_cidrs : List String) (req : Request) : Option String :=
  match req.remote_user.filter fun name => name ≠ "" with
  | none => none
  | some name => if is_trusted_source req.client trusted_cidrs then some name else none

/-- `ForwardAuthProvider.authenticate`: an identity, and the tables after it. -/
def forward_authenticate (trusted_cidrs : List String) (db : Db) (req : Request) (new_id : ℕ) :
    Option (Option (Principal × Db)) :=
  match forwarded_user trusted_cidrs req with
  | none => some none
  | some name =>
    match upsert_federated_user db "forward" name (some name) new_id with
    | none => none
    | some (user, db') =>
      some (some ({
        subject := user.subject, source := .forward, user_id := user.id
        display_name := user.display_name, groups := presented_groups req
        grants := (roles_for_groups db' (presented_groups req)).map fun role => ⟨role, .global, none, none⟩
        mfa_authenticated_at := none, session_id := none }, db'))

/-! ## The chain -/

/-- The providers of the chain. -/
inductive Provider where
  | local
  | forward
  deriving DecidableEq

/-- The fields `build_provider_chain` and the session routes read. -/
structure AuthSettings where
  auth_providers : List String
  trusted_forward_proxy_cidrs : List String
  session_ttl_seconds : ℕ
  mfa_freshness_seconds : ℕ

/-- `available.get(name)`. -/
def AuthSettings.available (settings : AuthSettings) (name : String) : Option Provider :=
  if name = "local" then some .local
  else if name = "forward" ∧ settings.trusted_forward_proxy_cidrs ≠ [] then some .forward
  else none

/-- `build_provider_chain`. -/
def build_provider_chain (settings : AuthSettings) : List Provider :=
  let chain := settings.auth_providers.filterMap settings.available
  if chain.any fun p => p = .local then chain else .local :: chain

/-- `resolve_principal`. `none` is an exception, `some none` that no provider answers. -/
def resolve_principal (crypto : Crypto) (settings : AuthSettings) (db : Db) (now : ℤ) (req : Request)
    (new_id : ℕ) : List Provider → Option (Option (Principal × Db))
  | [] => some none
  | .local :: providers =>
    match local_authenticate crypto db now req with
    | some principal => some (some (principal, db))
    | none => resolve_principal crypto settings db now req new_id providers
  | .forward :: providers =>
    match forward_authenticate settings.trusted_forward_proxy_cidrs db req new_id with
    | none => none
    | some (some answer) => some (some answer)
    | some none => resolve_principal crypto settings db now req new_id providers

/-- `current_principal`, and the tables after it; without a principal the request ends. -/
def current_principal (crypto : Crypto) (settings : AuthSettings) (db : Db) (now : ℤ) (req : Request)
    (new_id : ℕ) : Option (Principal × Db) :=
  (resolve_principal crypto settings db now req new_id (build_provider_chain settings)).join

/-! ## Logging in and out -/

/-- The tables with the password of a user hashed anew, where its hash is out of date. -/
def rehash (crypto : Crypto) (db : Db) (user : User) (password_hash password : String) (salt : ℕ) : Db :=
  if crypto.needs_rehash password_hash then
    { db with users :=
        db.users.put { user with password_hash := some (crypto.hash_password salt password) } }
  else db

/-- `login` of `auth/providers/local.py`, with the token and the id of the new session. -/
def login (crypto : Crypto) (settings : AuthSettings) (db : Db) (now : ℤ) (username password : String)
    (salt : ℕ) (token : String) (session_id : ℕ) : Option (UserSession × Db) :=
  match get_active_user db "local" username with
  | none => none
  | some user =>
    match user.password_hash with
    | none => none
    | some password_hash =>
      if ¬crypto.verify_password password password_hash then none
      else
        create_session crypto (rehash crypto db user password_hash password salt) now user.id
          (settings.session_ttl_seconds * 1000000) token session_id

/-- `post_logout` after its principal: the session of the principal is revoked. -/
def logout (db : Db) (now : ℤ) (principal : Principal) : Db :=
  match principal.session_id.bind db.sessions.find with
  | none => db
  | some row => revoke_session db now row

end Fathom.Auth
