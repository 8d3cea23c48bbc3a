/-
**Signed jobs** (`core/remediation/job.py`): the two jobs the channel carries,
the bytes a signature is computed over, and the wire.

`canonical_bytes` is a JSON text with sorted keys. The sorted text determines the
payload up to the order of its keys (`Json.dumps_sorted_eq_iff`), the payload's
keys are fixed, so the bytes determine every field that is in the payload. Two
things are *not* in it and both are accounted for below: an entry id is signed in
its string form, and `ActionJob.kind` is not signed at all -- what keeps the two
job types apart is that only a `ScanJob` has a key `"kind"`.

The wire is pydantic's: `model_dump` into plain values, a JSON text, `json.loads`,
`model_validate`. How pydantic writes and reads a `datetime` is not in the
source, so `dump` and `load` stand for it; the one fact used is `Lossless`.
-/
import Fathom.Lib.Datetime
import Fathom.Remediation.Plan
import Mathlib.Tactic.Common

set_option autoImplicit false

namespace Fathom.Remediation

open Fathom.Json (Value)
open Fathom.Datetime (Timestamp)

/-! ## The shapes -/

/-- `JobMode`. -/
inductive JobMode where
  | dry_run
  | execute
  deriving DecidableEq

/-- The literal of a `JobMode`. -/
def JobMode.value : JobMode → String
  | .dry_run => "dry_run"
  | .execute => "execute"

/-- A `JobMode` read from its literal. -/
def JobMode.of_value (s : String) : Option JobMode :=
  [JobMode.dry_run, .execute].find? fun m => m.value = s

theorem JobMode.of_value_value (m : JobMode) : of_value m.value = some m := by
  cases m <;> decide

/-- `ActionJob`: a scoped, time-boxed, single-use unit of remediation work. -/
@[ext]
structure ActionJob where
  plan_id : String
  mode : JobMode
  nonce : String
  issued_at : Timestamp
  expires_at : Timestamp
  host_id : String
  keeper_path : String
  items : List PlanItem
  move_root : Option String
  plan_id_ne : plan_id ≠ ""
  nonce_len : 16 ≤ nonce.length
  host_id_ne : host_id ≠ ""
  keeper_path_ne : keeper_path ≠ ""
  items_ne : items ≠ []

instance : DecidableEq ActionJob := fun _ _ => decidable_of_iff _ ActionJob.ext_iff.symm

/-- The two kinds of scan a `ScanJob` asks for. -/
inductive ScanMode where
  | metadata
  | fullbit
  deriving DecidableEq

/-- The literal of a `ScanMode`. -/
def ScanMode.value : ScanMode → String
  | .metadata => "metadata"
  | .fullbit => "fullbit"

/-- A `ScanMode` read from its literal. -/
def ScanMode.of_value (s : String) : Option ScanMode :=
  [ScanMode.metadata, .fullbit].find? fun m => m.value = s

theorem ScanMode.of_value_value (m : ScanMode) : of_value m.value = some m := by
  cases m <;> decide

/-- `ScanJob`: a scoped, time-boxed, single-use command to scan one root now. -/
@[ext]
structure ScanJob where
  nonce : String
  issued_at : Timestamp
  expires_at : Timestamp
  host_id : String
  root : String
  mode : ScanMode
  nonce_len : 16 ≤ nonce.length
  host_id_ne : host_id ≠ ""
  root_ne : root ≠ ""

instance : DecidableEq ScanJob := fun _ _ => decidable_of_iff _ ScanJob.ext_iff.symm

/-- `DispatchJob`: the signed-job union, told apart by `kind`. -/
inductive DispatchJob where
  | action (job : ActionJob)
  | scan (job : ScanJob)
  deriving DecidableEq

/-! ## The signed bytes -/

/-- `null` for `None`. -/
def opt_str : Option String → Value
  | none => .null
  | some s => .str s

/-- One item of the payload; the entry id is written as a string. -/
def PlanItem.payload (item : PlanItem) : Value :=
  .obj [("entry_id", .str item.entry_id.to_str), ("path", .str item.path),
    ("prior_inode", .int item.prior_inode), ("prior_size", .int item.prior_size),
    ("prior_hash", opt_str item.prior_hash), ("action", .str item.action.value),
    ("dest_rel", opt_str item.dest_rel)]

/-- The payload of `ActionJob.canonical_bytes`. -/
def ActionJob.payload (job : ActionJob) : Value :=
  .obj [("plan_id", .str job.plan_id), ("mode", .str job.mode.value), ("nonce", .str job.nonce),
    ("issued_at", .str job.issued_at.isoformat), ("expires_at", .str job.expires_at.isoformat),
    ("host_id", .str job.host_id), ("keeper_path", .str job.keeper_path),
    ("move_root", opt_str job.move_root), ("items", .arr (job.items.map PlanItem.payload))]

/-- The payload of `ScanJob.canonical_bytes`. -/
def ScanJob.payload (job : ScanJob) : Value :=
  .obj [("kind", .str "scan_now"), ("nonce", .str job.nonce),
    ("issued_at", .str job.issued_at.isoformat), ("expires_at", .str job.expires_at.isoformat),
    ("host_id", .str job.host_id), ("root", .str job.root), ("mode", .str job.mode.value)]

/-- `json.dumps(payload, sort_keys=True, separators=(",", ":")).encode("utf-8")`. -/
def canonical_encoding (payload : Value) : ByteArray :=
  (String.ofList (Json.dumps_sorted payload)).toUTF8

/-- `ActionJob.canonical_bytes`. -/
def ActionJob.canonical_bytes (job : ActionJob) : ByteArray := canonical_encoding job.payload

/-- `ScanJob.canonical_bytes`. -/
def ScanJob.canonical_bytes (job : ScanJob) : ByteArray := canonical_encoding job.payload

/-- `canonical_bytes` of whichever job the union holds. -/
def DispatchJob.canonical_bytes : DispatchJob → ByteArray
  | .action job => job.canonical_bytes
  | .scan job => job.canonical_bytes

/-- `ledger_ref`: the label of a job on the nonce ledger. -/
def DispatchJob.ledger_ref : DispatchJob → String
  | .action job => job.plan_id
  | .scan job => "scan:" ++ job.host_id ++ ":" ++ job.root

/-- The nonce of whichever job the union holds. -/
def DispatchJob.nonce : DispatchJob → String
  | .action job => job.nonce
  | .scan job => job.nonce

/-- The host scope of whichever job the union holds. -/
def DispatchJob.host_id : DispatchJob → String
  | .action job => job.host_id
  | .scan job => job.host_id

/-- When the job's window opens. -/
def DispatchJob.issued_at : DispatchJob → Timestamp
  | .action job => job.issued_at
  | .scan job => job.issued_at

/-- When the job's window closes. -/
def DispatchJob.expires_at : DispatchJob → Timestamp
  | .action job => job.expires_at
  | .scan job => job.expires_at

/-- `SignedJob`: a job with its detached signature (base64) and key id. -/
@[ext]
structure SignedJob where
  job : DispatchJob
  key_id : String
  algorithm : String
  signature : String
  key_id_ne : key_id ≠ ""
  algorithm_mem : algorithm ∈ ["ed25519", "hmac-sha256"]
  signature_ne : signature ≠ ""

instance : DecidableEq SignedJob := fun _ _ => decidable_of_iff _ SignedJob.ext_iff.symm

/-- `SignedJob(...)`, which refuses an empty key id or signature. -/
def make_signed (job : DispatchJob) (key_id algorithm signature : String) : Option SignedJob :=
  if h : key_id ≠ "" ∧ algorithm ∈ ["ed25519", "hmac-sha256"] ∧ signature ≠ "" then
    some { job, key_id, algorithm, signature
           key_id_ne := h.1, algorithm_mem := h.2.1, signature_ne := h.2.2 }
  else none

/-! ## What the bytes determine -/

/-- The item with its entry id in string form. -/
def PlanItem.with_entry_string (item : PlanItem) : PlanItem :=
  { item with entry_id := .str item.entry_id.to_str }

/-- The job with every entry id in string form: the executor and the result
payload read an entry id through `str` only, so two jobs with the same
`with_entry_strings` ask for the same acts. -/
def ActionJob.with_entry_strings (job : ActionJob) : ActionJob :=
  { job with
    items := job.items.map PlanItem.with_entry_string
    items_ne := fun h => job.items_ne (List.map_eq_nil_iff.mp h) }

theorem opt_str_injective {a b : Option String} (h : opt_str a = opt_str b) : a = b := by
  rcases a with _ | s <;> rcases b with _ | t
  · rfl
  · exact Value.noConfusion h
  · exact Value.noConfusion h
  · exact congrArg some (Value.str.inj h)

theorem sort_value_opt_str (s : Option String) : Json.sort_value (opt_str s) = opt_str s := by
  rcases s with _ | s <;> rfl

theorem JobMode.value_injective {a b : JobMode} (h : a.value = b.value) : a = b := by
  have hb := JobMode.of_value_value b
  rw [← h, JobMode.of_value_value a] at hb
  exact Option.some.inj hb

theorem ScanMode.value_injective {a b : ScanMode} (h : a.value = b.value) : a = b := by
  have hb := ScanMode.of_value_value b
  rw [← h, ScanMode.of_value_value a] at hb
  exact Option.some.inj hb

/-- The encoding loses the order of the keys and nothing else. -/
theorem canonical_encoding_eq_iff {v w : Value} :
    canonical_encoding v = canonical_encoding w ↔ Json.sort_value v = Json.sort_value w := by
  rw [← Json.dumps_sorted_eq_iff]
  refine ⟨fun h => ?_, fun h => by rw [canonical_encoding, h, canonical_encoding]⟩
  exact String.ofList_injective (String.toByteArray_inj.mp h)

theorem sort_items_map {α : Type} (f : α → Value) (xs : List α) :
    Json.sort_items (xs.map f) = xs.map fun x => Json.sort_value (f x) := by
  induction xs with
  | nil => rfl
  | cons x xs ih => rw [List.map_cons, Json.sort_items, ih, List.map_cons]

/-- The sorted payload of an item. -/
theorem PlanItem.sort_payload (item : PlanItem) : Json.sort_value item.payload =
      .obj [("action", .str item.action.value), ("dest_rel", opt_str item.dest_rel),
        ("entry_id", .str item.entry_id.to_str), ("path", .str item.path),
        ("prior_hash", opt_str item.prior_hash), ("prior_inode", .int item.prior_inode),
        ("prior_size", .int item.prior_size)] := by
  simp [PlanItem.payload, Json.sort_value, Json.sort_fields, sort_value_opt_str,
    List.orderedInsert, Json.key_le]

/-- The sorted payload of an `ActionJob`. -/
theorem ActionJob.sort_payload (job : ActionJob) :
    Json.sort_value job.payload =
      .obj [("expires_at", .str job.expires_at.isoformat), ("host_id", .str job.host_id),
        ("issued_at", .str job.issued_at.isoformat),
        ("items", .arr (job.items.map fun item => Json.sort_value item.payload)),
        ("keeper_path", .str job.keeper_path), ("mode", .str job.mode.value),
        ("move_root", opt_str job.move_root), ("nonce", .str job.nonce),
        ("plan_id", .str job.plan_id)] := by
  simp [ActionJob.payload, Json.sort_value, Json.sort_fields, sort_value_opt_str, sort_items_map,
    List.orderedInsert, Json.key_le]

/-- The sorted payload of a `ScanJob`. -/
theorem ScanJob.sort_payload (job : ScanJob) : Json.sort_value job.payload =
      .obj [("expires_at", .str job.expires_at.isoformat), ("host_id", .str job.host_id),
        ("issued_at", .str job.issued_at.isoformat), ("kind", .str "scan_now"),
        ("mode", .str job.mode.value), ("nonce", .str job.nonce), ("root", .str job.root)] := by
  simp [ScanJob.payload, Json.sort_value, Json.sort_fields, List.orderedInsert, Json.key_le]

/-- A signed item is determined up to the form of its entry id. -/
theorem PlanItem.sort_payload_eq_iff {a b : PlanItem} : Json.sort_value a.payload = Json.sort_value b.payload ↔
      a.with_entry_string = b.with_entry_string := by
  rw [PlanItem.sort_payload, PlanItem.sort_payload]
  constructor
  · intro h
    simp only [Value.obj.injEq, List.cons.injEq, Prod.mk.injEq, Value.str.injEq, Value.int.injEq,
      true_and, and_true, Nat.cast_inj] at h
    rcases h with ⟨haction, hdest, hentry, hpath, hhash, hinode, hsize⟩
    rcases a with ⟨_, _, _, _, _, _, _⟩
    rcases b with ⟨_, _, _, _, _, _, _⟩
    simp only [PlanItem.with_entry_string, PlanItem.mk.injEq, EntryId.str.injEq]
    exact ⟨hentry, hpath, hinode, hsize, opt_str_injective hhash,
      PlanAction.value_injective haction, opt_str_injective hdest⟩
  · intro h
    simp only [PlanItem.with_entry_string, PlanItem.mk.injEq, EntryId.str.injEq] at h
    rcases h with ⟨hentry, hpath, hinode, hsize, hhash, haction, hdest⟩
    rw [hentry, hpath, hinode, hsize, hhash, haction, hdest]

/-- The same, item by item and in order. -/
theorem sort_payloads_eq_iff {as bs : List PlanItem} :
    (as.map fun item => Json.sort_value item.payload) =
        (bs.map fun item => Json.sort_value item.payload) ↔
      as.map PlanItem.with_entry_string = bs.map PlanItem.with_entry_string := by
  induction as generalizing bs with
  | nil =>
      rcases bs with _ | ⟨b, bs⟩
      · simp only [List.map_nil]
      · simp only [List.map_cons, List.map_nil, reduceCtorEq]
  | cons a as ih =>
      rcases bs with _ | ⟨b, bs⟩
      · simp only [List.map_cons, List.map_nil, reduceCtorEq]
      · simp only [List.map_cons, List.cons.injEq, PlanItem.sort_payload_eq_iff, ih]

/-- **The bytes of an `ActionJob` determine it**, entry ids up to their string
form. -/
theorem ActionJob.canonical_bytes_eq_iff {a b : ActionJob} :
    a.canonical_bytes = b.canonical_bytes ↔ a.with_entry_strings = b.with_entry_strings := by
  rw [ActionJob.canonical_bytes, ActionJob.canonical_bytes, canonical_encoding_eq_iff,
    ActionJob.sort_payload, ActionJob.sort_payload]
  simp only [Value.obj.injEq, List.cons.injEq, Prod.mk.injEq, Value.str.injEq, Value.arr.injEq,
    true_and, and_true, sort_payloads_eq_iff, ActionJob.with_entry_strings, ActionJob.mk.injEq]
  constructor
  · rintro ⟨hexp, hhost, hiss, hitems, hkeeper, hmode, hroot, hnonce, hplan⟩
    exact ⟨hplan, JobMode.value_injective hmode, hnonce, Datetime.isoformat_injective hiss,
      Datetime.isoformat_injective hexp, hhost, hkeeper, hitems, opt_str_injective hroot⟩
  · rintro ⟨hplan, hmode, hnonce, hiss, hexp, hhost, hkeeper, hitems, hroot⟩
    rw [hplan, hmode, hnonce, hiss, hexp, hhost, hkeeper, hroot]
    exact ⟨rfl, rfl, rfl, hitems, rfl, rfl, rfl, rfl, rfl⟩

/-- The bytes of a `ScanJob` determine it. -/
theorem ScanJob.canonical_bytes_injective {a b : ScanJob} (h : a.canonical_bytes = b.canonical_bytes) : a = b := by
  rw [ScanJob.canonical_bytes, ScanJob.canonical_bytes, canonical_encoding_eq_iff,
    ScanJob.sort_payload, ScanJob.sort_payload] at h
  simp only [Value.obj.injEq, List.cons.injEq, Prod.mk.injEq, Value.str.injEq, true_and,
    and_true] at h
  rcases h with ⟨hexp, hhost, hiss, hmode, hnonce, hroot⟩
  rcases a with ⟨_, _, _, _, _, _, _, _, _⟩
  rcases b with ⟨_, _, _, _, _, _, _, _, _⟩
  simp only [ScanJob.mk.injEq]
  exact ⟨hnonce, Datetime.isoformat_injective hiss, Datetime.isoformat_injective hexp, hhost,
    hroot, ScanMode.value_injective hmode⟩

/-- The two payloads have different keys, so their bytes never meet. -/
theorem ActionJob.canonical_bytes_ne_scan (a : ActionJob) (s : ScanJob) : a.canonical_bytes ≠ s.canonical_bytes := by
  rw [ActionJob.canonical_bytes, ScanJob.canonical_bytes, Ne, canonical_encoding_eq_iff,
    ActionJob.sort_payload, ScanJob.sort_payload]
  intro h
  -- the fourth key is `items` in the one and `kind` in the other
  simp at h

/-! ## The wire

`model_validate` is read strictly: every field has the type the dump writes. The
coercions pydantic would also make (a numeral for an `int`) concern values that
`model_dump` never writes. -/

/-- The value under a key; of equal keys `json.loads` keeps the last. -/
def get (fields : List (String × Value)) (key : String) : Option Value :=
  fields.reverse.lookup key

/-- `extra="forbid"`. -/
def no_extra (fields : List (String × Value)) (names : List String) : Bool :=
  fields.all fun f => names.contains f.1

/-- A required string field. -/
def get_str (fields : List (String × Value)) (key : String) : Option String :=
  match get fields key with
  | some (.str s) => some s
  | _ => none

/-- A `str | None` with the default `None`. -/
def read_opt_str : Option Value → Option (Option String)
  | none => some none
  | some .null => some none
  | some (.str s) => some (some s)
  | some _ => none

/-- A `str | None` field with the default `None`. -/
def get_opt_str (fields : List (String × Value)) (key : String) : Option (Option String) :=
  read_opt_str (get fields key)

/-- A required integer field. -/
def get_int (fields : List (String × Value)) (key : String) : Option Int :=
  match get fields key with
  | some (.int n) => some n
  | _ => none

/-- A required integer field with `ge=0`. -/
def get_nat (fields : List (String × Value)) (key : String) : Option ℕ :=
  match get fields key with
  | some (.int (.ofNat n)) => some n
  | _ => none

/-- A required list field. -/
def get_arr (fields : List (String × Value)) (key : String) : Option (List Value) :=
  match get fields key with
  | some (.arr xs) => some xs
  | _ => none

/-- An entry id dumps as what it is. -/
def EntryId.model_dump : EntryId → Value
  | .int n => .int n
  | .str s => .str s

/-- A required `int | str`. -/
def read_entry_id : Option Value → Option EntryId
  | some (.int n) => some (.int n)
  | some (.str s) => some (.str s)
  | _ => none

/-- `PlanItem` dumped. -/
def PlanItem.model_dump (item : PlanItem) : Value :=
  .obj [("entry_id", item.entry_id.model_dump), ("path", .str item.path),
    ("prior_inode", .int item.prior_inode), ("prior_size", .int item.prior_size),
    ("prior_hash", opt_str item.prior_hash), ("action", .str item.action.value),
    ("dest_rel", opt_str item.dest_rel)]

/-- `PlanItem.model_validate`. -/
def PlanItem.model_validate : Value → Option PlanItem
  | .obj fields => do
    guard (no_extra fields ["entry_id", "path", "prior_inode", "prior_size", "prior_hash",
      "action", "dest_rel"])
    let entry_id ← read_entry_id (get fields "entry_id")
    let path ← get_str fields "path"
    let prior_inode ← get_int fields "prior_inode"
    let prior_size ← get_nat fields "prior_size"
    let prior_hash ← get_opt_str fields "prior_hash"
    let action ← (get_str fields "action").bind PlanAction.of_value
    let dest_rel ← get_opt_str fields "dest_rel"
    return { entry_id, path, prior_inode, prior_size, prior_hash, action, dest_rel }
  | _ => none

section Wire

variable (dump : Timestamp → String) (load : String → Option Timestamp)

/-- `ActionJob` dumped. -/
def ActionJob.model_dump (job : ActionJob) : Value :=
  .obj [("kind", .str "remediation"), ("plan_id", .str job.plan_id),
    ("mode", .str job.mode.value), ("nonce", .str job.nonce),
    ("issued_at", .str (dump job.issued_at)), ("expires_at", .str (dump job.expires_at)),
    ("host_id", .str job.host_id), ("keeper_path", .str job.keeper_path),
    ("items", .arr (job.items.map PlanItem.model_dump)), ("move_root", opt_str job.move_root)]

/-- `ActionJob.model_validate`. -/
def ActionJob.model_validate (fields : List (String × Value)) : Option ActionJob := do
  guard (no_extra fields ["kind", "plan_id", "mode", "nonce", "issued_at", "expires_at",
    "host_id", "keeper_path", "items", "move_root"])
  let plan_id ← get_str fields "plan_id"
  let mode ← (get_str fields "mode").bind JobMode.of_value
  let nonce ← get_str fields "nonce"
  let issued_at ← (get_str fields "issued_at").bind load
  let expires_at ← (get_str fields "expires_at").bind load
  let host_id ← get_str fields "host_id"
  let keeper_path ← get_str fields "keeper_path"
  let items ← (get_arr fields "items").bind fun xs => xs.mapM PlanItem.model_validate
  let move_root ← get_opt_str fields "move_root"
  if h : plan_id ≠ "" ∧ 16 ≤ nonce.length ∧ host_id ≠ "" ∧ keeper_path ≠ "" ∧ items ≠ [] then
    some { plan_id, mode, nonce, issued_at, expires_at, host_id, keeper_path, items, move_root
           plan_id_ne := h.1, nonce_len := h.2.1, host_id_ne := h.2.2.1
           keeper_path_ne := h.2.2.2.1, items_ne := h.2.2.2.2 }
  else none

/-- `ScanJob` dumped. -/
def ScanJob.model_dump (job : ScanJob) : Value :=
  .obj [("kind", .str "scan_now"), ("nonce", .str job.nonce),
    ("issued_at", .str (dump job.issued_at)), ("expires_at", .str (dump job.expires_at)),
    ("host_id", .str job.host_id), ("root", .str job.root), ("mode", .str job.mode.value)]

/-- `ScanJob.model_validate`. -/
def ScanJob.model_validate (fields : List (String × Value)) : Option ScanJob := do
  guard (no_extra fields ["kind", "nonce", "issued_at", "expires_at", "host_id", "root", "mode"])
  let nonce ← get_str fields "nonce"
  let issued_at ← (get_str fields "issued_at").bind load
  let expires_at ← (get_str fields "expires_at").bind load
  let host_id ← get_str fields "host_id"
  let root ← get_str fields "root"
  let mode ← (get_str fields "mode").bind ScanMode.of_value
  if h : 16 ≤ nonce.length ∧ host_id ≠ "" ∧ root ≠ "" then
    some { nonce, issued_at, expires_at, host_id, root, mode
           nonce_len := h.1, host_id_ne := h.2.1, root_ne := h.2.2 }
  else none

/-- `DispatchJob` dumped. -/
def DispatchJob.model_dump : DispatchJob → Value
  | .action job => job.model_dump dump
  | .scan job => job.model_dump dump

/-- `Field(discriminator="kind")`: the key `kind` selects the model. -/
def DispatchJob.model_validate : Value → Option DispatchJob
  | .obj fields =>
    match get_str fields "kind" with
    | some "remediation" => (ActionJob.model_validate load fields).map .action
    | some "scan_now" => (ScanJob.model_validate load fields).map .scan
    | _ => none
  | _ => none

/-- `SignedJob` dumped. -/
def SignedJob.model_dump (signed : SignedJob) : Value :=
  .obj [("job", signed.job.model_dump dump), ("key_id", .str signed.key_id),
    ("algorithm", .str signed.algorithm), ("signature", .str signed.signature)]

/-- `SignedJob.model_validate`. -/
def SignedJob.model_validate : Value → Option SignedJob
  | .obj fields => do
    guard (no_extra fields ["job", "key_id", "algorithm", "signature"])
    let job ← (get fields "job").bind (DispatchJob.model_validate load)
    let key_id ← get_str fields "key_id"
    let algorithm ← get_str fields "algorithm"
    let signature ← get_str fields "signature"
    if h : key_id ≠ "" ∧ algorithm ∈ ["ed25519", "hmac-sha256"] ∧ signature ≠ "" then
      some { job, key_id, algorithm, signature
             key_id_ne := h.1, algorithm_mem := h.2.1, signature_ne := h.2.2 }
    else none
  | _ => none

/-- What the agent makes of a received text: `json.loads`, then the model. -/
def SignedJob.of_text (text : List Char) : Option SignedJob :=
  (Json.loads text).bind (SignedJob.model_validate load)

/-- What is asked of the timestamp codec: a timestamp whose offset is none or of
whole minutes comes back. -/
def Lossless : Prop := ∀ t : Timestamp, t.WholeMinutes → load (dump t) = some t

/-- The timestamps of a job are ones the wire can carry. Every job the
orchestrator makes is stamped in UTC. -/
def DispatchJob.WholeMinutes (job : DispatchJob) : Prop :=
  job.issued_at.WholeMinutes ∧ job.expires_at.WholeMinutes

variable {dump load}

theorem read_opt_str_opt_str (s : Option String) : read_opt_str (some (opt_str s)) = some s := by
  rcases s with _ | s <;> rfl

theorem read_entry_id_dump (e : EntryId) : read_entry_id (some e.model_dump) = some e := by
  rcases e with n | s <;> rfl

theorem PlanItem.model_validate_dump (item : PlanItem) : PlanItem.model_validate item.model_dump = some item := by
  simp [PlanItem.model_dump, PlanItem.model_validate, no_extra, get_str, get_int, get_nat,
    get_opt_str, get, List.lookup_cons, read_opt_str_opt_str, read_entry_id_dump,
    PlanAction.of_value_value]

/-- Items come back one by one. -/
theorem model_validate_items (items : List PlanItem) :
    (items.map PlanItem.model_dump).mapM PlanItem.model_validate = some items := by
  induction items with
  | nil => rfl
  | cons item items ih =>
      rw [List.map_cons, List.mapM_cons, PlanItem.model_validate_dump, ih]
      rfl

/-- An `ActionJob` comes back: its `kind` selects the model, every field is read
under the key it was written under, and the invariants it carries are the checks
the reader makes. -/
theorem ActionJob.model_validate_dump (hcodec : Lossless dump load) (job : ActionJob)
    (hissued : job.issued_at.WholeMinutes) (hexpires : job.expires_at.WholeMinutes) :
    DispatchJob.model_validate load (job.model_dump dump) = some (.action job) := by
  have hinv : job.plan_id ≠ "" ∧ 16 ≤ job.nonce.length ∧ job.host_id ≠ "" ∧
      job.keeper_path ≠ "" ∧ job.items ≠ [] :=
    ⟨job.plan_id_ne, job.nonce_len, job.host_id_ne, job.keeper_path_ne, job.items_ne⟩
  simp [ActionJob.model_dump, DispatchJob.model_validate, ActionJob.model_validate, no_extra,
    get_str, get_arr, get_opt_str, get, List.lookup_cons, hcodec _ hissued, hcodec _ hexpires,
    JobMode.of_value_value, model_validate_items, read_opt_str_opt_str, hinv, -List.mapM_map]

/-- A `ScanJob` comes back. -/
theorem ScanJob.model_validate_dump (hcodec : Lossless dump load) (job : ScanJob)
    (hissued : job.issued_at.WholeMinutes) (hexpires : job.expires_at.WholeMinutes) :
    DispatchJob.model_validate load (job.model_dump dump) = some (.scan job) := by
  have hinv : 16 ≤ job.nonce.length ∧ job.host_id ≠ "" ∧ job.root ≠ "" :=
    ⟨job.nonce_len, job.host_id_ne, job.root_ne⟩
  simp [ScanJob.model_dump, DispatchJob.model_validate, ScanJob.model_validate, no_extra,
    get_str, get, List.lookup_cons, hcodec _ hissued, hcodec _ hexpires, ScanMode.of_value_value, hinv]

theorem DispatchJob.model_validate_dump (hcodec : Lossless dump load) (job : DispatchJob) (hjob : job.WholeMinutes) :
    DispatchJob.model_validate load (job.model_dump dump) = some job := by
  rcases job with job | job
  · exact ActionJob.model_validate_dump hcodec job hjob.1 hjob.2
  · exact ScanJob.model_validate_dump hcodec job hjob.1 hjob.2

theorem SignedJob.model_validate_dump (hcodec : Lossless dump load) (signed : SignedJob)
    (hjob : signed.job.WholeMinutes) : SignedJob.model_validate load (signed.model_dump dump) = some signed := by
  have hinv : signed.key_id ≠ "" ∧ signed.algorithm ∈ ["ed25519", "hmac-sha256"] ∧
      signed.signature ≠ "" := ⟨signed.key_id_ne, signed.algorithm_mem, signed.signature_ne⟩
  have hdump := DispatchJob.model_validate_dump hcodec signed.job hjob
  rcases signed with ⟨job, key_id, algorithm, signature, _, _, _⟩
  simp only [List.mem_cons, List.not_mem_nil, or_false] at hinv
  simp [SignedJob.model_dump, SignedJob.model_validate, no_extra, get_str, get, List.lookup_cons, hdump,
    hinv]

/-- The wire round trip: any text that reads as the dumped value -- however it is
spaced, and whether or not it escapes what is not ASCII -- gives the job back. -/
theorem SignedJob.of_text_dump (hcodec : Lossless dump load) (signed : SignedJob)
    (hjob : signed.job.WholeMinutes) {text : List Char} (htext : Json.loads text = some (signed.model_dump dump)) :
    SignedJob.of_text load text = some signed := by
  rw [SignedJob.of_text, htext, Option.bind_some, SignedJob.model_validate_dump hcodec signed hjob]

/-! ## What a signature binds -/

end Wire

/-- The RFC 3339 codec is one the wire can use. -/
theorem rfc3339_lossless : Lossless Timestamp.rfc3339 Datetime.of_rfc3339 := fun _ ht =>
  Datetime.of_rfc3339_rfc3339 ht

theorem sample_time_in_range : Datetime.InRange 2024 3 1 12 0 0 0 (some 0) := by decide

/-- Noon of the first of March 2024, UTC. -/
def sample_time : Timestamp where
  year := 2024
  month := 3
  day := 1
  hour := 12
  minute := 0
  second := 0
  microsecond := 0
  utcoffset := some 0
  in_range := sample_time_in_range

/-- Five minutes later, the default TTL. -/
def sample_expiry : Timestamp := { sample_time with minute := 5, in_range := by decide }

theorem sample_expiry_instant :
    sample_expiry.instant = sample_time.instant + 1000000 * (300 : ℕ) := by decide

/-- A job moving one file, with an integer entry id and no prior hash. -/
def sample_action : ActionJob where
  plan_id := "p-1"
  mode := .execute
  nonce := "0123456789abcdef"
  issued_at := sample_time
  expires_at := sample_time
  host_id := "nas"
  keeper_path := "/data/k"
  items := [{ entry_id := .int 7, path := "/data/a", prior_inode := 42, prior_size := 3
              prior_hash := none, action := .move, dest_rel := some "b/a" }]
  move_root := some "/data"
  plan_id_ne := by decide
  nonce_len := by decide
  host_id_ne := by decide
  keeper_path_ne := by decide
  items_ne := by decide

/-- The job, signed. -/
def sample_signed : SignedJob where
  job := .action sample_action
  key_id := "orchestrator"
  algorithm := "ed25519"
  signature := "c2ln"
  key_id_ne := orchestrator_ne
  algorithm_mem := by decide
  signature_ne := by decide

end Fathom.Remediation
