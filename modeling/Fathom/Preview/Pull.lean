/-
**The distributed pull** (`preview/pull.py`, with `serve_preview_grant` of
`api/routers/preview_pull.py` and `agent/preview_serve.py`): the core mints a grant
for one file, queues it for the agent that has the file, and waits for the bytes.

The queue is a `Rendezvous` of signed grants, each with the number of bytes its
agent may read. The definitions below give it the names of the source; what it does
over all runs is proved of the rendezvous (`Rendezvous.faithful`).
-/
import Fathom.Preview.Grant
import Fathom.Preview.Service

set_option autoImplicit false

namespace Fathom.Preview

/-- `PreviewPullError`, with its text. -/
structure PreviewPullError where
  reason : String
  deriving DecidableEq

/-- What a pull comes to. -/
abbrev PullOutcome := Except PreviewPullError ByteArray

/-- `PolledGrant`: a signed grant and the bytes its agent may read up to. -/
abbrev PolledGrant := SignedFileGrant × ℕ

/-- `ServeRequest`, its base64 decoded: the bytes, or why there are none. -/
inductive ServeRequest where
  | data (grant_id : String) (data : ByteArray)
  | error (grant_id : String) (reason : String)
  deriving DecidableEq

def ServeRequest.grant_id : ServeRequest → String
  | .data grant_id _ => grant_id
  | .error grant_id _ => grant_id

/-- What a served request brings: `deliver` the bytes, `fail` with a `PreviewPullError`. -/
def ServeRequest.outcome : ServeRequest → PullOutcome
  | .data _ bytes => .ok bytes
  | .error _ reason => .error ⟨reason⟩

/-- What the failed waiter of a grant that expired in its queue is told. -/
def expired_in_queue : PullOutcome := .error ⟨"grant expired before an agent claimed it"⟩

/-- The grants as a rendezvous takes them. -/
def pull_protocol (verifier : SignedFileGrant → Bool) :
    Rendezvous.Protocol String String String PolledGrant ServeRequest PullOutcome where
  id polled := polled.1.grant.grant_id
  scope polled := polled.1.grant.host_id
  nonce polled := polled.1.grant.nonce
  issued_at polled := polled.1.grant.issued_at.instant
  expires_at polled := polled.1.grant.expires_at.instant
  signature_ok polled := verifier polled.1
  expiry := expired_in_queue
  reply served := (served.grant_id, served.outcome)

/-! ## `PreviewPullQueue` -/

abbrev PreviewPullQueue := Rendezvous String String PolledGrant PullOutcome

namespace PreviewPullQueue

/-- `enqueue_and_wait` up to its `await`. -/
def enqueue_and_wait (queue : PreviewPullQueue) (signed : SignedFileGrant) (host_id : String)
    (max_bytes loop_time timeout_seconds : ℕ) :
    Except CorrelationError (ℕ × PreviewPullQueue) :=
  queue.enqueue signed.grant.grant_id host_id (signed, max_bytes) (loop_time + timeout_seconds)

/-- `_expired`. -/
def expired (now : Int) (signed : SignedFileGrant) : Bool := signed.grant.expires_at.instant ≤ now

/-- One turn of the loop of `poll`. -/
def poll (queue : PreviewPullQueue) (now : Int) (host_id : String) :
    Option (Rendezvous.Turn PolledGrant × PreviewPullQueue) :=
  queue.poll_turn (fun polled => expired now polled.1) (fun polled => polled.1.grant.grant_id)
    expired_in_queue host_id

/-- `_resolve`. -/
def resolve (queue : PreviewPullQueue) (grant_id host_id : String) (outcome : PullOutcome) :
    Except CorrelationError (ℕ × PreviewPullQueue) :=
  Rendezvous.resolve queue grant_id host_id outcome

/-- `deliver`. -/
def deliver (queue : PreviewPullQueue) (grant_id host_id : String) (data : ByteArray) :
    Except CorrelationError (ℕ × PreviewPullQueue) :=
  queue.resolve grant_id host_id (.ok data)

/-- `fail`. -/
def fail (queue : PreviewPullQueue) (grant_id host_id reason : String) :
    Except CorrelationError (ℕ × PreviewPullQueue) :=
  queue.resolve grant_id host_id (.error ⟨reason⟩)

end PreviewPullQueue

/-- `serve_preview_grant`, for a host and a body that passed the caps. -/
def serve_preview_grant (queue : PreviewPullQueue) (host_name : String) :
    ServeRequest → Except CorrelationError (ℕ × PreviewPullQueue)
  | .error grant_id reason => queue.fail grant_id host_name reason
  | .data grant_id data => queue.deliver grant_id host_name data

/-- The route is the reply of the protocol. -/
theorem serve_preview_grant_eq (verifier : SignedFileGrant → Bool) (queue : PreviewPullQueue)
    (host_name : String) (served : ServeRequest) : serve_preview_grant queue host_name served =
      queue.resolve ((pull_protocol verifier).reply served).1 host_name ((pull_protocol verifier).reply served).2 := by
  cases served with
  | data grant_id data => rfl
  | error grant_id reason => rfl

/-! ## `GrantPullFetcher` -/

/-- `_host_id_for`: the agent a grant for the entry is scoped to. -/
def host_id_for (entry : ResolvedEntry) : String :=
  if entry.host_name ≠ "" then entry.host_name else toString entry.host_id

/-- The grant `fetch` mints, with the id and the nonce it draws; `none` is a field that
`FileGrant` refuses. -/
def fetch_grant {ttl : ℕ} (window : Window ttl) (entry : ResolvedEntry) (grant_id nonce : String) :
    Option FileGrant :=
  if h : (1 ≤ grant_id.length ∧ grant_id.length ≤ 64) ∧ 1 ≤ entry.entry_id ∧
      (1 ≤ (host_id_for entry).length ∧ (host_id_for entry).length ≤ 255) ∧
      1 ≤ entry.volume_id ∧ (1 ≤ entry.path.length ∧ entry.path.length ≤ 4096) ∧
      (∀ hash ∈ entry.content_hash, hash.length ≤ 64) ∧
      (16 ≤ nonce.length ∧ nonce.length ≤ 128) then
    some {
      grant_id, entry_id := entry.entry_id, host_id := host_id_for entry
      volume_id := entry.volume_id, inode := entry.inode, path := entry.path
      content_hash := entry.content_hash, nonce
      issued_at := window.issued, expires_at := window.expires
      grant_id_len := h.1, entry_id_pos := h.2.1, host_id_len := h.2.2.1
      volume_id_pos := h.2.2.2.1, path_len := h.2.2.2.2.1
      content_hash_len := h.2.2.2.2.2.1, nonce_len := h.2.2.2.2.2.2 }
  else none

/-- `fetch` up to its `await`: the grant is minted, signed, and queued for its host. -/
def fetch (sign : FileGrant → Option SignedFileGrant) {ttl : ℕ} (queue : PreviewPullQueue)
    (window : Window ttl) (loop_time : ℕ) (entry : ResolvedEntry) (max_bytes : ℕ)
    (grant_id nonce : String) : Option (Except CorrelationError (ℕ × PreviewPullQueue)) :=
  ((fetch_grant window entry grant_id nonce).bind sign).map fun signed =>
    queue.enqueue_and_wait signed (host_id_for entry) max_bytes loop_time ttl

end Fathom.Preview
