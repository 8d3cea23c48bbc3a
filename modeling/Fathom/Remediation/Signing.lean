/-
**Signing and fail-closed verification** (`core/remediation/signing.py`,
`core/remediation/nonce_store.py`).

The primitives are parameters: what `cryptography` and `hmac` compute is not in
the source, and nothing here depends on it beyond the one law a signature scheme
is bought for, that a signature verifies over the message it was made for.

`verify_job` is split where the source has its one `await`. `verify_checks` is
everything before it -- signature, window, host scope, in this order -- and runs
without interruption; the nonce is consumed afterwards, atomically. The split is
what lets two `verify_job` calls interleave in `Actor/Listener.lean` exactly as
they can in the program.
-/
import Fathom.Lib.Ledger
import Fathom.Remediation.Job

set_option autoImplicit false

namespace Fathom.Remediation

scoped instance bytes_decidable_eq : DecidableEq ByteArray := ByteArray.instDecidableEq

/-! ## Signers and verifiers -/

/-- `Verifier.verify_signature`. -/
abbrev Verifier := SignedJob → Bool

section Primitives

variable (b64encode : ByteArray → String) (b64decode : String → Option ByteArray)

/-- `Ed25519Signer.sign`, with the private key's `sign`. -/
def ed25519_sign (sign : ByteArray → ByteArray) (key_id : String) (job : DispatchJob) :
    Option SignedJob :=
  make_signed job key_id "ed25519" (b64encode (sign job.canonical_bytes))

/-- `Ed25519Verifier.verify_signature`, with the public key's `verify`. -/
def ed25519_verify (verify : ByteArray → ByteArray → Bool) (key_id : String) : Verifier :=
  fun signed =>
    if signed.algorithm ≠ "ed25519" ∨ signed.key_id ≠ key_id then false
    else
      match b64decode signed.signature with
      | some signature => verify signature signed.job.canonical_bytes
      | none => false

/-- `HmacSigner.sign`, with `hmac.new(secret, ·, sha256).digest`. -/
def hmac_sign (mac : ByteArray → ByteArray) (key_id : String) (job : DispatchJob) :
    Option SignedJob :=
  make_signed job key_id "hmac-sha256" (b64encode (mac job.canonical_bytes))

/-- `HmacVerifier.verify_signature`. -/
def hmac_verify (mac : ByteArray → ByteArray) (key_id : String) : Verifier :=
  fun signed =>
    if signed.algorithm ≠ "hmac-sha256" ∨ signed.key_id ≠ key_id then false
    else
      match b64decode signed.signature with
      | some provided => mac signed.job.canonical_bytes = provided
      | none => false

variable {b64encode b64decode}

variable {job : DispatchJob} {signed : SignedJob}

theorem make_signed_spec {key_id algorithm signature : String}
    (h : make_signed job key_id algorithm signature = some signed) :
    signed.job = job ∧ signed.key_id = key_id ∧ signed.algorithm = algorithm ∧ signed.signature = signature := by
  unfold make_signed at h
  split_ifs at h
  rw [← Option.some.inj h]
  exact ⟨rfl, rfl, rfl, rfl⟩

/-- What the orchestrator signs, the agent that trusts its key accepts. -/
theorem ed25519_verify_sign (hb64 : ∀ b, b64decode (b64encode b) = some b) {sign : ByteArray → ByteArray}
    {verify : ByteArray → ByteArray → Bool} (hlaw : ∀ m, verify (sign m) m = true) {key_id : String}
    (h : ed25519_sign b64encode sign key_id job = some signed) :
    ed25519_verify b64decode verify key_id signed = true := by
  rcases make_signed_spec h with ⟨hjob, hkey, halg, hsig⟩
  rw [ed25519_verify, halg, hkey, if_neg (by simp), hsig, hb64, hjob]
  exact hlaw _

/-- The same for the symmetric fallback; no law is needed, both sides compute. -/
theorem hmac_verify_sign (hb64 : ∀ b, b64decode (b64encode b) = some b) {mac : ByteArray → ByteArray} {key_id : String}
    (h : hmac_sign b64encode mac key_id job = some signed) : hmac_verify b64decode mac key_id signed = true := by
  rcases make_signed_spec h with ⟨hjob, hkey, halg, hsig⟩
  rw [hmac_verify, halg, hkey, if_neg (by simp), hsig, hb64, hjob]
  exact decide_eq_true rfl

end Primitives

/-! ## `verify_job` -/

/-- What `verify_job` raises, with the data its message shows. -/
inductive JobVerificationError where
  /-- `signature verification failed` -/
  | signature
  /-- `job has expired` -/
  | expired
  /-- `job is not yet valid` -/
  | not_yet_valid
  /-- `job host scope … does not match this agent …` -/
  | host_scope (job_host expected_host : String)
  /-- `nonce already consumed (replay): …`, the subclass `NonceReuseError` -/
  | nonce_reuse (nonce : String)
  deriving DecidableEq

/-- `verify_job` up to the nonce, at the clock reading `now`. -/
def verify_checks (verifier : Verifier) (expected_host_id : String) (now : Int)
    (signed : SignedJob) : Except JobVerificationError DispatchJob :=
  if ¬verifier signed then .error .signature
  else if signed.job.expires_at.instant ≤ now then .error .expired
  else if now < signed.job.issued_at.instant then .error .not_yet_valid
  else if signed.job.host_id ≠ expected_host_id then
    .error (.host_scope signed.job.host_id expected_host_id)
  else .ok signed.job

/-- A signed job that passes every check before the nonce. -/
structure Verifies (verifier : Verifier) (expected_host_id : String) (now : Int)
    (signed : SignedJob) : Prop where
  signature : verifier signed = true
  not_expired : now < signed.job.expires_at.instant
  valid_yet : signed.job.issued_at.instant ≤ now
  in_scope : signed.job.host_id = expected_host_id

/-- The checks pass exactly on the jobs that meet all four conditions, and then
return the job itself. -/
theorem verify_checks_ok {verifier : Verifier} {expected_host_id : String} {now : Int}
    {signed : SignedJob} {job : DispatchJob} : verify_checks verifier expected_host_id now signed = .ok job ↔
      Verifies verifier expected_host_id now signed ∧ signed.job = job := by
  unfold verify_checks
  constructor
  · intro h
    split_ifs at h with hs he hv hh
    refine ⟨⟨by simpa using hs, by omega, by omega, by simpa using hh⟩, ?_⟩
    exact Except.ok.inj h
  · rintro ⟨hver, hjob⟩
    have hs := hver.signature
    have he := hver.not_expired
    have hv := hver.valid_yet
    have hh := hver.in_scope
    rw [if_neg (by simpa using hs), if_neg (by omega), if_neg (by omega), if_neg (by simpa using hh),
      hjob]

/-! ## The nonce ledger -/

/-- The table `used_nonce`: the nonce is its primary key. -/
abbrev NonceStore := Ledger String String

/-- What a `consume` can come to. -/
inductive Consumed where
  /-- the row was inserted -/
  | fresh
  /-- `IntegrityError`: the nonce is there -/
  | replay
  /-- `nonce ledger temporarily locked`: nothing was inserted -/
  | locked
  deriving DecidableEq

/-- `consume`: one `INSERT` against the primary key. -/
def consume (store : NonceStore) (job : DispatchJob) : Bool × NonceStore :=
  store.insert job.nonce job.ledger_ref

/-- `verify_job`, run without interruption. -/
def verify_job (verifier : Verifier) (store : NonceStore) (expected_host_id : String) (now : Int)
    (signed : SignedJob) : Except JobVerificationError DispatchJob × NonceStore :=
  match verify_checks verifier expected_host_id now signed with
  | .error e => (.error e, store)
  | .ok job =>
    match consume store job with
    | (true, store') => (.ok job, store')
    | (false, store') => (.error (.nonce_reuse job.nonce), store')

/-- A job `verify_job` lets through passed every check, and is the signed job. -/
theorem verify_job_ok {verifier : Verifier} {store : NonceStore} {expected_host_id : String}
    {now : Int} {signed : SignedJob} {job : DispatchJob}
    (h : (verify_job verifier store expected_host_id now signed).1 = .ok job) :
    Verifies verifier expected_host_id now signed ∧ signed.job = job := by
  unfold verify_job at h
  rcases hc : verify_checks verifier expected_host_id now signed with e | job'
  · rw [hc] at h
    exact absurd h (by simp)
  · rcases verify_checks_ok.mp hc with ⟨hver, hjob⟩
    rw [hc] at h
    dsimp only at h
    rcases hcons : consume store job' with ⟨fresh, store'⟩
    rw [hcons] at h
    rcases fresh with _ | _
    · exact absurd h (by simp)
    · exact ⟨hver, hjob.trans (Except.ok.inj h)⟩

end Fathom.Remediation
