/-
**Live browse** (`core/browse.py`, with `browse_host_directory` and
`serve_browse_result` of `api/routers/agent_browse.py`): the core signs a request to
list one directory, queues it for the agent of the host, and waits for the listing.

The queue is the rendezvous of the file pull with another item and another reply: a
listing carries its own id and its own error, so there is a `deliver` and no `fail`.
-/
import Fathom.Preview.Grant

set_option autoImplicit false

namespace Fathom.Browse

open Fathom.Datetime (Timestamp)
open Fathom.Json (Value)
open Fathom.Preview (Window)
open Fathom.Remediation (canonical_encoding canonical_encoding_eq_iff)

/-! ## Requests -/

/-- `BrowseRequest`: a scoped, time-boxed, single-use authorisation to list one directory. -/
@[ext]
structure BrowseRequest where
  request_id : String
  host_id : String
  path : String
  max_entries : ℕ
  with_sizes : Bool
  size_max_entries : ℕ
  size_budget_ms : ℕ
  nonce : String
  issued_at : Timestamp
  expires_at : Timestamp
  request_id_len : 1 ≤ request_id.length ∧ request_id.length ≤ 64
  host_id_len : 1 ≤ host_id.length ∧ host_id.length ≤ 255
  path_len : 1 ≤ path.length ∧ path.length ≤ 4096
  max_entries_range : 1 ≤ max_entries ∧ max_entries ≤ 50000
  size_max_entries_le : size_max_entries ≤ 5000000
  size_budget_ms_le : size_budget_ms ≤ 30000
  nonce_len : 16 ≤ nonce.length ∧ nonce.length ≤ 128

instance : DecidableEq BrowseRequest := fun _ _ => decidable_of_iff _ BrowseRequest.ext_iff.symm

/-- The payload of `BrowseRequest.canonical_bytes`. -/
def BrowseRequest.payload (request : BrowseRequest) : Value :=
  .obj [("request_id", .str request.request_id), ("host_id", .str request.host_id),
    ("path", .str request.path), ("max_entries", .int request.max_entries),
    ("with_sizes", .bool request.with_sizes),
    ("size_max_entries", .int request.size_max_entries),
    ("size_budget_ms", .int request.size_budget_ms), ("nonce", .str request.nonce),
    ("issued_at", .str request.issued_at.isoformat),
    ("expires_at", .str request.expires_at.isoformat)]

/-- `BrowseRequest.canonical_bytes`. -/
def BrowseRequest.canonical_bytes (request : BrowseRequest) : ByteArray :=
  canonical_encoding request.payload

theorem BrowseRequest.sort_payload (request : BrowseRequest) : Json.sort_value request.payload =
      .obj [("expires_at", .str request.expires_at.isoformat), ("host_id", .str request.host_id),
        ("issued_at", .str request.issued_at.isoformat),
        ("max_entries", .int request.max_entries), ("nonce", .str request.nonce),
        ("path", .str request.path), ("request_id", .str request.request_id),
        ("size_budget_ms", .int request.size_budget_ms), ("size_max_entries", .int request.size_max_entries),
        ("with_sizes", .bool request.with_sizes)] := by
  simp [BrowseRequest.payload, Json.sort_value, Json.sort_fields, List.orderedInsert, Json.key_le]

/-- **The signed bytes determine the request.** -/
theorem BrowseRequest.canonical_bytes_injective {a b : BrowseRequest}
    (h : a.canonical_bytes = b.canonical_bytes) : a = b := by
  rw [BrowseRequest.canonical_bytes, BrowseRequest.canonical_bytes, canonical_encoding_eq_iff,
    BrowseRequest.sort_payload, BrowseRequest.sort_payload] at h
  simp only [Value.obj.injEq, List.cons.injEq, Prod.mk.injEq, Value.str.injEq, Value.int.injEq,
    Value.bool.injEq, Nat.cast_inj, true_and, and_true] at h
  obtain ⟨hexp, hhost, hiss, hmax, hnonce, hpath, hid, hbudget, hsize, hwith⟩ := h
  cases a
  cases b
  simp only [BrowseRequest.mk.injEq]
  exact ⟨hid, hhost, hpath, hmax, hwith, hsize, hbudget, hnonce,
    Datetime.isoformat_injective hiss, Datetime.isoformat_injective hexp⟩

/-- `SignedBrowseRequest`. -/
@[ext]
structure SignedBrowseRequest where
  request : BrowseRequest
  key_id : String
  algorithm : String
  signature : String
  key_id_ne : key_id ≠ ""
  signature_ne : signature ≠ ""

instance : DecidableEq SignedBrowseRequest := fun _ _ => decidable_of_iff _ SignedBrowseRequest.ext_iff.symm

section Primitives

variable (b64encode : ByteArray → String) (b64decode : String → Option ByteArray)

/-- `BrowseSigner.sign`, with the private key's `sign`. -/
def browse_sign (sign : ByteArray → ByteArray) (key_id : String) (request : BrowseRequest) :
    Option SignedBrowseRequest :=
  let signature := b64encode (sign request.canonical_bytes)
  if h : key_id ≠ "" ∧ signature ≠ "" then
    some ⟨request, key_id, "ed25519", signature, h.1, h.2⟩
  else none

/-- `BrowseVerifier.verify_signature`, with the public key's `verify`. -/
def browse_verify_signature (verify : ByteArray → ByteArray → Bool) (key_id : String)
    (signed : SignedBrowseRequest) : Bool :=
  if signed.algorithm ≠ "ed25519" ∨ signed.key_id ≠ key_id then false
  else
    match b64decode signed.signature with
    | some signature => verify signature signed.request.canonical_bytes
    | none => false

variable {b64encode b64decode}

theorem browse_sign_request {sign : ByteArray → ByteArray} {key_id : String}
    {request : BrowseRequest} {signed : SignedBrowseRequest}
    (h : browse_sign b64encode sign key_id request = some signed) : signed.request = request := by
  unfold browse_sign at h
  dsimp only at h
  split_ifs at h
  rw [← Option.some.inj h]

/-- What the core signs, the agent that trusts its key accepts. -/
theorem browse_verify_sign (hb64 : ∀ b, b64decode (b64encode b) = some b)
    {sign : ByteArray → ByteArray} {verify : ByteArray → ByteArray → Bool}
    (hlaw : ∀ m, verify (sign m) m = true) {key_id : String} {request : BrowseRequest}
    {signed : SignedBrowseRequest} (h : browse_sign b64encode sign key_id request = some signed) :
    browse_verify_signature b64decode verify key_id signed = true := by
  unfold browse_sign at h
  dsimp only at h
  split_ifs at h
  rw [← Option.some.inj h, browse_verify_signature]
  dsimp only
  rw [if_neg (by simp), hb64]
  exact hlaw _

end Primitives

/-! ## The queue -/

/-- `BrowseResult`, its entries as they are listed; `error` is why there is no listing. -/
structure BrowseResult (Entry : Type) where
  request_id : String
  path : String
  entries : List Entry
  truncated : Bool
  error : Option String

/-- `BrowsePullError`, with its text. -/
structure BrowsePullError where
  reason : String
  deriving DecidableEq

variable {Entry : Type}

/-- What a browse comes to. -/
abbrev BrowseOutcome (Entry : Type) := Except BrowsePullError (BrowseResult Entry)

/-- What the failed waiter of a request that expired in its queue is told. -/
def expired_in_queue : BrowseOutcome Entry := .error ⟨"request expired before being claimed"⟩

/-- The requests as a rendezvous takes them. -/
def browse_protocol (Entry : Type) (verifier : SignedBrowseRequest → Bool) :
    Rendezvous.Protocol String String String SignedBrowseRequest (BrowseResult Entry)
      (BrowseOutcome Entry) where
  id signed := signed.request.request_id
  scope signed := signed.request.host_id
  nonce signed := signed.request.nonce
  issued_at signed := signed.request.issued_at.instant
  expires_at signed := signed.request.expires_at.instant
  signature_ok := verifier
  expiry := expired_in_queue
  reply result := (result.request_id, .ok result)

abbrev BrowsePullQueue (Entry : Type) :=
  Rendezvous String String SignedBrowseRequest (BrowseOutcome Entry)

namespace BrowsePullQueue

/-- `enqueue_and_wait` up to its `await`. -/
def enqueue_and_wait (queue : BrowsePullQueue Entry) (signed : SignedBrowseRequest)
    (host_id : String) (loop_time timeout_seconds : ℕ) :
    Except CorrelationError (ℕ × BrowsePullQueue Entry) :=
  queue.enqueue signed.request.request_id host_id signed (loop_time + timeout_seconds)

/-- `_expired`. -/
def expired (now : Int) (signed : SignedBrowseRequest) : Bool :=
  signed.request.expires_at.instant ≤ now

/-- One turn of the loop of `poll`. -/
def poll (queue : BrowsePullQueue Entry) (now : Int) (host_id : String) :
    Option (Rendezvous.Turn SignedBrowseRequest × BrowsePullQueue Entry) :=
  queue.poll_turn (expired now) (fun signed => signed.request.request_id) expired_in_queue host_id

/-- `deliver`. -/
def deliver (queue : BrowsePullQueue Entry) (host_id : String) (result : BrowseResult Entry) :
    Except CorrelationError (ℕ × BrowsePullQueue Entry) :=
  queue.resolve result.request_id host_id (.ok result)

end BrowsePullQueue

/-! The limits of the core are ones a request may have. -/

theorem max_entries_default : 1 ≤ 2000 ∧ 2000 ≤ 50000 := by decide

theorem size_max_entries_default : 200000 ≤ 5000000 := by decide

theorem size_budget_ms_default : 1500 ≤ 30000 := by decide

/-- The listing of at most 2000 entries with sizes that `browse_host_directory` asks for, with
the id and the nonce it draws; `none` is a field that `BrowseRequest` refuses. -/
def browse_request {ttl : ℕ} (window : Window ttl) (host_name path request_id nonce : String) :
    Option BrowseRequest :=
  if h : (1 ≤ request_id.length ∧ request_id.length ≤ 64) ∧
      (1 ≤ host_name.length ∧ host_name.length ≤ 255) ∧
      (1 ≤ path.length ∧ path.length ≤ 4096) ∧ (16 ≤ nonce.length ∧ nonce.length ≤ 128) then
    some {
      request_id, host_id := host_name, path, max_entries := 2000, with_sizes := true
      size_max_entries := 200000, size_budget_ms := 1500, nonce
      issued_at := window.issued, expires_at := window.expires
      request_id_len := h.1, host_id_len := h.2.1, path_len := h.2.2.1
      max_entries_range := max_entries_default, size_max_entries_le := size_max_entries_default
      size_budget_ms_le := size_budget_ms_default, nonce_len := h.2.2.2 }
  else none

/-- `browse_host_directory` from the signing to its `await`. -/
def browse_host_directory (sign : BrowseRequest → Option SignedBrowseRequest) {ttl : ℕ}
    (queue : BrowsePullQueue Entry) (window : Window ttl) (loop_time : ℕ)
    (host_name path request_id nonce : String) :
    Option (Except CorrelationError (ℕ × BrowsePullQueue Entry)) :=
  ((browse_request window host_name path request_id nonce).bind sign).map fun signed =>
    queue.enqueue_and_wait signed host_name loop_time ttl

end Fathom.Browse
