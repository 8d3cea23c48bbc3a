/-
**The two channels of single-use grants**: file grants and browse requests, each over
its own queue at the core and its own ledger of nonces at every agent.

Both are the same rendezvous, written twice in the source and once here. The ledgers
are two files (`.preview-nonce-ledger.sqlite`, `.browse-nonce-ledger.sqlite`) and the
queues two objects, so nothing of the one channel is seen by the other.
-/
import Fathom.Browse.Request
import Fathom.Preview.Pull

set_option autoImplicit false

namespace Fathom.Browse

open Fathom.Datetime (Timestamp)
open Fathom.Preview (FileGrant SignedFileGrant PolledGrant ServeRequest PullOutcome PreviewPullQueue
  pull_protocol grant_verify_signature serve_preview_grant serve_preview_grant_eq)
open Fathom.Remediation (ActionJob ScanJob canonical_encoding canonical_encoding_eq_iff sample_time)

/-- The nonce ledgers of the agents, by host. -/
abbrev Ledgers := String → Ledger String String

section Channels

variable (b64decode : String → Option ByteArray) (verify : ByteArray → ByteArray → Bool)
  (key_id : String)

/-- The channel of the file grants, whose agents trust one key. -/
def preview_channel (ledgers₀ : Ledgers) :
    System (Rendezvous.Channel String String String PolledGrant PullOutcome)
      (Rendezvous.Label String String PolledGrant ServeRequest) :=
  Rendezvous.channel (pull_protocol (grant_verify_signature b64decode verify key_id)) ledgers₀

/-- The channel of the browse requests, whose agents trust one key. -/
def browse_channel (Entry : Type) (ledgers₀ : Ledgers) :
    System (Rendezvous.Channel String String String SignedBrowseRequest (BrowseOutcome Entry))
      (Rendezvous.Label String String SignedBrowseRequest (BrowseResult Entry)) :=
  Rendezvous.channel (browse_protocol Entry (browse_verify_signature b64decode verify key_id))
    ledgers₀

variable {b64decode verify key_id}

variable {ledgers₀ : Ledgers} {host : String}

/-- A poll of the channel turns `PreviewPullQueue.poll`. -/
theorem preview_channel_poll {s t : Rendezvous.Channel String String String PolledGrant PullOutcome}
    {turn : Rendezvous.Turn PolledGrant} :
    (preview_channel b64decode verify key_id ledgers₀).step s (.poll host turn) = some t ↔
      ∃ core, t = { s with core } ∧
        PreviewPullQueue.poll s.core s.core_now host = some (turn, core) :=
  Rendezvous.poll_step_iff

/-- A reply that the channel accepts is one that `serve_preview_grant` accepts. -/
theorem preview_channel_post {s t : Rendezvous.Channel String String String PolledGrant PullOutcome}
    {served : ServeRequest} {n : ℕ} :
    (preview_channel b64decode verify key_id ledgers₀).step s (.post host served (.ok n)) = some t ↔
      ∃ core, t = { s with core } ∧ serve_preview_grant s.core host served = .ok (n, core) := by
  rw [serve_preview_grant_eq (grant_verify_signature b64decode verify key_id)]
  exact Rendezvous.post_step_ok

/-- A poll of the channel turns `BrowsePullQueue.poll`. -/
theorem browse_channel_poll {Entry : Type}
    {s t : Rendezvous.Channel String String String SignedBrowseRequest (BrowseOutcome Entry)}
    {turn : Rendezvous.Turn SignedBrowseRequest} :
    (browse_channel b64decode verify key_id Entry ledgers₀).step s (.poll host turn) = some t ↔
      ∃ core, t = { s with core } ∧
        BrowsePullQueue.poll s.core s.core_now host = some (turn, core) :=
  Rendezvous.poll_step_iff

/-- A result that the channel accepts is one that is delivered. -/
theorem browse_channel_post {Entry : Type}
    {s t : Rendezvous.Channel String String String SignedBrowseRequest (BrowseOutcome Entry)}
    {result : BrowseResult Entry} {n : ℕ} :
    (browse_channel b64decode verify key_id Entry ledgers₀).step s (.post host result (.ok n)) =
        some t ↔
      ∃ core, t = { s with core } ∧ BrowsePullQueue.deliver s.core host result = .ok (n, core) :=
  Rendezvous.post_step_ok

end Channels

/-- **Both channels are faithful** in every run: whatever the callers enqueue, whoever polls and
posts, and however the clocks move. -/
theorem channels_faithful (b64decode : String → Option ByteArray)
    (verify : ByteArray → ByteArray → Bool) (grant_key browse_key : String) (Entry : Type)
    (ledgers₀ : Ledgers) :
    (∀ tr s, (preview_channel b64decode verify grant_key ledgers₀).Trace tr s →
      Rendezvous.Faithful (pull_protocol (grant_verify_signature b64decode verify grant_key))
        ledgers₀ tr s) ∧
    (∀ tr s, (browse_channel b64decode verify browse_key Entry ledgers₀).Trace tr s →
      Rendezvous.Faithful (browse_protocol Entry (browse_verify_signature b64decode verify browse_key))
        ledgers₀ tr s) :=
  ⟨fun _ _ h => Rendezvous.faithful h, fun _ _ h => Rendezvous.faithful h⟩

/-! ## What is signed

The agents check four kinds of messages by an Ed25519 key. Nothing keeps an operator from
giving one key to all of them. -/

/-- What the core signs. -/
inductive Message where
  | action (job : ActionJob)
  | scan (job : ScanJob)
  | grant (grant : FileGrant)
  | browse (request : BrowseRequest)

/-- The payload of whichever it is. -/
def Message.payload : Message → Json.Value
  | .action m => m.payload
  | .scan m => m.payload
  | .grant m => m.payload
  | .browse m => m.payload

/-- `canonical_bytes`. -/
def Message.canonical_bytes (m : Message) : ByteArray := canonical_encoding m.payload

/-- What an agent reads of it: of the entry ids of an `ActionJob`, their texts. -/
def Message.read : Message → Message
  | .action m => .action m.with_entry_strings
  | m => m

/-- The keys of a payload, in the order they are signed in. -/
def signed_keys (payload : Json.Value) : List String :=
  match Json.sort_value payload with
  | .obj fields => fields.map Prod.fst
  | _ => []

/-- The kinds have different keys. -/
theorem Message.kind_of_keys {m m' : Message} (h : signed_keys m.payload = signed_keys m'.payload) :
    m.ctorIdx = m'.ctorIdx := by
  rcases m with a | a | a | a <;> rcases m' with b | b | b | b <;> first
    | rfl
    | simp only [signed_keys, Message.payload, ActionJob.sort_payload, ScanJob.sort_payload,
        FileGrant.sort_payload, BrowseRequest.sort_payload, List.map_cons, List.cons.injEq] at h
      exact absurd h (by decide)

theorem Message.read_kind (m : Message) : m.read.ctorIdx = m.ctorIdx := by cases m <;> rfl

section Minted

variable {b64encode : ByteArray → String} {b64decode : String → Option ByteArray}
variable {sign : ByteArray → ByteArray} {verify : ByteArray → ByteArray → Bool} {ttl : ℕ}

/-- **What the core mints, the agent accepts**: what is queued for a host passes the checks of
that host from when it is issued until it expires. -/
theorem minted_accepted (hb64 : ∀ b, b64decode (b64encode b) = some b) (hlaw : ∀ m, verify (sign m) m = true)
    (key_id id nonce : String) (window : Preview.Window ttl) (loop_time : ℕ) :
    (∀ (queue core : PreviewPullQueue) (entry : Preview.ResolvedEntry) (max_bytes n : ℕ),
      Preview.fetch (Preview.grant_sign b64encode sign key_id) queue window loop_time entry max_bytes id nonce =
        some (.ok (n, core)) → ∃ polled, (n, polled) ∈ core.queues (Preview.host_id_for entry) ∧
        ∀ now, window.issued.instant ≤ now → now < window.expires.instant →
          Rendezvous.verify_checks (pull_protocol (grant_verify_signature b64decode verify key_id))
            (Preview.host_id_for entry) now polled = .ok ()) ∧
    ∀ (Entry : Type) (queue core : BrowsePullQueue Entry) (host_name path : String) (n : ℕ),
      browse_host_directory (browse_sign b64encode sign key_id) queue window loop_time host_name path id nonce =
        some (.ok (n, core)) → ∃ signed, (n, signed) ∈ core.queues host_name ∧
        ∀ now, window.issued.instant ≤ now → now < window.expires.instant →
          Rendezvous.verify_checks (browse_protocol Entry (browse_verify_signature b64decode verify key_id))
            host_name now signed = .ok () := by
  refine ⟨fun queue core entry max_bytes n h => ?_, fun Entry queue core host_name path n h => ?_⟩
  · obtain ⟨signed, hsigned, hqueued⟩ := Option.map_eq_some_iff.mp h
    obtain ⟨grant, hgrant, hsign⟩ := Option.bind_eq_some_iff.mp hsigned
    obtain ⟨-, rfl, rfl⟩ := Rendezvous.enqueue_ok hqueued
    refine ⟨(signed, max_bytes), by simp, fun now hissued hexpires => Rendezvous.verify_checks_ok.mpr ?_⟩
    have hsame := Preview.grant_sign_grant hsign
    unfold Preview.fetch_grant at hgrant
    split_ifs at hgrant
    rw [← Option.some.inj hgrant] at hsame
    constructor <;> simp only [pull_protocol, hsame]
    · exact Preview.grant_verify_sign hb64 hlaw hsign
    · exact hexpires
    · exact hissued
  · obtain ⟨signed, hsigned, hqueued⟩ := Option.map_eq_some_iff.mp h
    obtain ⟨request, hrequest, hsign⟩ := Option.bind_eq_some_iff.mp hsigned
    obtain ⟨-, rfl, rfl⟩ := Rendezvous.enqueue_ok hqueued
    refine ⟨signed, by simp, fun now hissued hexpires => Rendezvous.verify_checks_ok.mpr ?_⟩
    have hsame := browse_sign_request hsign
    unfold browse_request at hrequest
    split_ifs at hrequest
    rw [← Option.some.inj hrequest] at hsame
    constructor <;> simp only [browse_protocol, hsame]
    · exact browse_verify_sign hb64 hlaw hsign
    · exact hexpires
    · exact hissued

end Minted

/-! ### A run of each -/

/-- A grant for one file of `nas`, valid for a minute. -/
def sample_grant : SignedFileGrant where
  grant := {
    grant_id := "g-1", entry_id := 7, host_id := "nas", volume_id := 1, inode := -42
    path := "/data/a", content_hash := some "9f", nonce := "0123456789abcdef"
    issued_at := sample_time
    expires_at := { sample_time with minute := 1, in_range := by decide }
    grant_id_len := by decide, entry_id_pos := by decide, host_id_len := by decide
    volume_id_pos := by decide, path_len := by decide, content_hash_len := by decide
    nonce_len := by decide }
  key_id := "preview"
  algorithm := "ed25519"
  signature := "c2ln"
  key_id_ne := by decide
  signature_ne := Remediation.sample_signed.signature_ne

/-- A request for one directory of `nas`, valid for a minute. -/
def sample_browse : SignedBrowseRequest where
  request := {
    request_id := "b-1", host_id := "nas", path := "/data", max_entries := 2000
    with_sizes := true, size_max_entries := 200000, size_budget_ms := 1500
    nonce := "0123456789abcdef", issued_at := sample_time
    expires_at := { sample_time with minute := 1, in_range := by decide }
    request_id_len := by decide, host_id_len := by decide, path_len := by decide
    max_entries_range := max_entries_default, size_max_entries_le := size_max_entries_default
    size_budget_ms_le := size_budget_ms_default, nonce_len := by decide }
  key_id := "browse"
  algorithm := "ed25519"
  signature := "c2ln"
  key_id_ne := by decide
  signature_ne := Remediation.sample_signed.signature_ne

/-- A channel at the time the samples are issued. -/
def channel_start {π ρ : Type} : Rendezvous.Channel String String String π ρ where
  core := Rendezvous.empty
  loop_time := 0
  core_now := sample_time.instant
  agent_now := fun _ => sample_time.instant
  ledgers := fun _ => Ledger.empty
  checked := fun _ => []

/-- The grant is claimed and served; another host answers for it in vain, and its agent cannot
use the nonce again. -/
def served_grant_run : List (Rendezvous.Label String String PolledGrant ServeRequest) :=
  [.enqueue (sample_grant, 100) 60 (.ok 0), .poll "nas" (.handed 0 (sample_grant, 100)),
    .check "nas" (sample_grant, 100) (.ok ()), .spend "nas" (sample_grant, 100) .fresh,
    .check "nas" (sample_grant, 100) (.ok ()), .spend "nas" (sample_grant, 100) .replay,
    .post "rogue" (.error "g-1" "no") (.error .host_mismatch),
    .post "nas" (.data "g-1" ByteArray.empty) (.ok 0), .finish "g-1" false]

/-- The request is claimed, times out at the core, and is answered too late. -/
def late_browse_run : List (Rendezvous.Label String String SignedBrowseRequest (BrowseResult Unit)) :=
  [.enqueue sample_browse 60 (.ok 0), .poll "nas" (.handed 0 sample_browse), .tick 60,
    .time_out "b-1", .post "nas" ⟨"b-1", "/data", [], false, none⟩ (.error .already_resolved),
    .finish "b-1" true, .post "nas" ⟨"b-1", "/data", [], false, none⟩ (.error .unknown)]

/-- Both runs are runs of their channels, and both are faithful. -/
theorem channels_faithful_runs :
    (∃ s, (preview_channel (fun _ => some ByteArray.empty) (fun _ _ => true) "preview"
        fun _ => Ledger.empty).Trace served_grant_run s ∧
      Rendezvous.Faithful (pull_protocol (grant_verify_signature (fun _ => some ByteArray.empty)
        (fun _ _ => true) "preview")) (fun _ => Ledger.empty) served_grant_run s) ∧
    ∃ s, (browse_channel (fun _ => some ByteArray.empty) (fun _ _ => true) "browse" Unit
        fun _ => Ledger.empty).Trace late_browse_run s ∧
      Rendezvous.Faithful (browse_protocol Unit (browse_verify_signature
        (fun _ => some ByteArray.empty) (fun _ _ => true) "browse")) (fun _ => Ledger.empty)
        late_browse_run s := by
  have hgrants : ∃ s, (preview_channel (fun _ => some ByteArray.empty) (fun _ _ => true) "preview"
      fun _ => Ledger.empty).Trace served_grant_run s :=
    ⟨_, channel_start, ⟨rfl, rfl, rfl⟩, rfl⟩
  have hbrowses : ∃ s, (browse_channel (fun _ => some ByteArray.empty) (fun _ _ => true) "browse"
      Unit fun _ => Ledger.empty).Trace late_browse_run s :=
    ⟨_, channel_start, ⟨rfl, rfl, rfl⟩, rfl⟩
  obtain ⟨s, hs⟩ := hgrants
  obtain ⟨t, ht⟩ := hbrowses
  have hfaithful := channels_faithful (fun _ => some ByteArray.empty) (fun _ _ => true) "preview"
    "browse" Unit fun _ => Ledger.empty
  exact ⟨⟨s, hs, hfaithful.1 _ s hs⟩, t, ht, hfaithful.2 _ t ht⟩

/-- A text for some bytes, a character for each. -/
def encode_bytes (b : ByteArray) : String := String.ofList (b.data.toList.map fun x => Char.ofNat x.toNat)

def decode_bytes (s : String) : Option ByteArray := some ⟨(s.toList.map fun c => c.toNat.toUInt8).toArray⟩

theorem decode_encode_bytes (b : ByteArray) : decode_bytes (encode_bytes b) = some b := by
  have hbyte : ∀ n < 256, (Char.ofNat n).toNat.toUInt8 = n.toUInt8 := by decide +kernel
  have hall : ∀ x : UInt8, (Char.ofNat x.toNat).toNat.toUInt8 = x := fun x =>
    (hbyte _ x.toNat_lt).trans UInt8.ofNat_toNat
  simp [decode_bytes, encode_bytes, Function.comp_def, hall]

/-- Every signature is one byte. -/
def one_byte (_ : ByteArray) : ByteArray := ⟨#[115]⟩

def is_byte (signature _ : ByteArray) : Bool := signature.size == 1

theorem is_byte_one_byte (m : ByteArray) : is_byte (one_byte m) m = true := rfl

def sample_minute : Preview.Window 60 :=
  ⟨sample_time, { sample_time with minute := 1, in_range := by decide }, by decide⟩

def minted_grant : Option (Except CorrelationError (ℕ × PreviewPullQueue)) :=
  Preview.fetch (Preview.grant_sign encode_bytes one_byte "preview") Rendezvous.empty sample_minute 0
    ⟨7, 1, 1, "/data/a", -42, some "9f", "nas"⟩ 100 "g-1" "0123456789abcdef"

theorem minted_accepted_grant : ∃ n core, minted_grant = some (.ok (n, core)) ∧ ∃ polled, (n, polled) ∈ core.queues "nas" ∧
    Rendezvous.verify_checks (pull_protocol (grant_verify_signature decode_bytes is_byte "preview")) "nas"
      sample_time.instant polled = .ok () := by
  have hminted : ∃ n core, minted_grant = some (.ok (n, core)) := ⟨_, _, rfl⟩
  obtain ⟨n, core, h⟩ := hminted
  obtain ⟨polled, hqueued, haccept⟩ := (minted_accepted decode_encode_bytes is_byte_one_byte "preview" "g-1"
    "0123456789abcdef" sample_minute 0).1 _ core _ 100 n h
  exact ⟨n, core, h, polled, hqueued, haccept _ (Int.le_refl _) (by decide)⟩

end Fathom.Browse
