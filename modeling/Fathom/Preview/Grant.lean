/-
**Signed file grants** (`preview/grant.py`): the authorisation to pull one file,
the bytes its signature is computed over, and the checks of the agent.

The signature covers every field of a grant (`FileGrant.canonical_bytes_injective`),
so what an agent accepts is what the core signed. As for the jobs, the primitives
are parameters.
-/
import Fathom.Lib.Rendezvous
import Fathom.Remediation.Job

set_option autoImplicit false

namespace Fathom.Preview

open Fathom.Datetime (Timestamp)
open Fathom.Json (Value)
open Fathom.Remediation (canonical_encoding canonical_encoding_eq_iff opt_str opt_str_injective
  sort_value_opt_str)

/-- `issued` and `issued + timedelta(seconds=ttl)`, where the sum is a date. -/
structure Window (ttl : ℕ) where
  issued : Timestamp
  expires : Timestamp
  spans : expires.instant = issued.instant + ttl * 1000000

/-- `FileGrant`: a scoped, time-boxed, single-use authorisation to pull one file. -/
structure FileGrant where
  grant_id : String
  entry_id : Int
  host_id : String
  volume_id : Int
  /-- an identity and not a magnitude: it can be negative -/
  inode : Int
  path : String
  content_hash : Option String
  nonce : String
  issued_at : Timestamp
  expires_at : Timestamp
  grant_id_len : 1 ≤ grant_id.length ∧ grant_id.length ≤ 64
  entry_id_pos : 1 ≤ entry_id
  host_id_len : 1 ≤ host_id.length ∧ host_id.length ≤ 255
  volume_id_pos : 1 ≤ volume_id
  path_len : 1 ≤ path.length ∧ path.length ≤ 4096
  content_hash_len : ∀ hash ∈ content_hash, hash.length ≤ 64
  nonce_len : 16 ≤ nonce.length ∧ nonce.length ≤ 128
  deriving DecidableEq

/-- The payload of `FileGrant.canonical_bytes`. -/
def FileGrant.payload (grant : FileGrant) : Value :=
  .obj [("grant_id", .str grant.grant_id), ("entry_id", .int grant.entry_id),
    ("host_id", .str grant.host_id), ("volume_id", .int grant.volume_id),
    ("inode", .int grant.inode), ("path", .str grant.path),
    ("content_hash", opt_str grant.content_hash), ("nonce", .str grant.nonce),
    ("issued_at", .str grant.issued_at.isoformat), ("expires_at", .str grant.expires_at.isoformat)]

/-- `FileGrant.canonical_bytes`. -/
def FileGrant.canonical_bytes (grant : FileGrant) : ByteArray := canonical_encoding grant.payload

theorem FileGrant.sort_payload (grant : FileGrant) : Json.sort_value grant.payload =
      .obj [("content_hash", opt_str grant.content_hash), ("entry_id", .int grant.entry_id),
        ("expires_at", .str grant.expires_at.isoformat), ("grant_id", .str grant.grant_id),
        ("host_id", .str grant.host_id), ("inode", .int grant.inode),
        ("issued_at", .str grant.issued_at.isoformat), ("nonce", .str grant.nonce),
        ("path", .str grant.path), ("volume_id", .int grant.volume_id)] := by
  simp [FileGrant.payload, Json.sort_value, Json.sort_fields, sort_value_opt_str,
    List.orderedInsert, Json.key_le]

/-- **The signed bytes determine the grant.** -/
theorem FileGrant.canonical_bytes_injective {a b : FileGrant} (h : a.canonical_bytes = b.canonical_bytes) : a = b := by
  rw [FileGrant.canonical_bytes, FileGrant.canonical_bytes, canonical_encoding_eq_iff,
    FileGrant.sort_payload, FileGrant.sort_payload] at h
  simp only [Value.obj.injEq, List.cons.injEq, Prod.mk.injEq, Value.str.injEq, Value.int.injEq,
    true_and, and_true] at h
  obtain ⟨hhash, hentry, hexp, hid, hhost, hinode, hiss, hnonce, hpath, hvolume⟩ := h
  cases a
  cases b
  simp only [FileGrant.mk.injEq]
  exact ⟨hid, hentry, hhost, hvolume, hinode, hpath, opt_str_injective hhash, hnonce,
    Datetime.isoformat_injective hiss, Datetime.isoformat_injective hexp⟩

/-- `SignedFileGrant`. -/
@[ext]
structure SignedFileGrant where
  grant : FileGrant
  key_id : String
  algorithm : String
  signature : String
  key_id_ne : key_id ≠ ""
  signature_ne : signature ≠ ""

instance : DecidableEq SignedFileGrant := fun _ _ => decidable_of_iff _ SignedFileGrant.ext_iff.symm

section Primitives

variable (b64encode : ByteArray → String) (b64decode : String → Option ByteArray)

/-- `GrantSigner.sign`, with the private key's `sign`; a key id or a signature that is
empty is refused. -/
def grant_sign (sign : ByteArray → ByteArray) (key_id : String) (grant : FileGrant) :
    Option SignedFileGrant :=
  let signature := b64encode (sign grant.canonical_bytes)
  if h : key_id ≠ "" ∧ signature ≠ "" then
    some ⟨grant, key_id, "ed25519", signature, h.1, h.2⟩
  else none

/-- `GrantVerifier.verify_signature`, with the public key's `verify`. -/
def grant_verify_signature (verify : ByteArray → ByteArray → Bool) (key_id : String)
    (signed : SignedFileGrant) : Bool :=
  if signed.algorithm ≠ "ed25519" ∨ signed.key_id ≠ key_id then false
  else
    match b64decode signed.signature with
    | some signature => verify signature signed.grant.canonical_bytes
    | none => false

variable {b64encode b64decode}

theorem grant_sign_grant {sign : ByteArray → ByteArray} {key_id : String} {grant : FileGrant}
    {signed : SignedFileGrant} (h : grant_sign b64encode sign key_id grant = some signed) : signed.grant = grant := by
  unfold grant_sign at h
  dsimp only at h
  split_ifs at h
  rw [← Option.some.inj h]

/-- What the core signs, the agent that trusts its key accepts. -/
theorem grant_verify_sign (hb64 : ∀ b, b64decode (b64encode b) = some b)
    {sign : ByteArray → ByteArray} {verify : ByteArray → ByteArray → Bool}
    (hlaw : ∀ m, verify (sign m) m = true) {key_id : String} {grant : FileGrant}
    {signed : SignedFileGrant} (h : grant_sign b64encode sign key_id grant = some signed) :
    grant_verify_signature b64decode verify key_id signed = true := by
  unfold grant_sign at h
  dsimp only at h
  split_ifs at h
  rw [← Option.some.inj h, grant_verify_signature]
  dsimp only
  rw [if_neg (by simp), hb64]
  exact hlaw _

end Primitives

end Fathom.Preview
