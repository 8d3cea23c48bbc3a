/-
**The audit chain in memory** (`core/audit.py`): records, their canonical
payload, and the builder that hands each record to a sink.

`blake3` is a parameter, as it is to the source. The payload of a record is a
JSON text with sorted keys; `before_state` is a `dict` of plain data, so the
`default=str` of the source never applies (what it would apply to, the JSON
column of the store refuses).
-/
import Fathom.Lib.Chain
import Fathom.Lib.Json
import Fathom.Lib.Datetime

set_option autoImplicit false

namespace Fathom.Audit

open Fathom.Json (Value)
open Fathom.Datetime (Timestamp)

/-- `GENESIS_HASH`. -/
def GENESIS_HASH : String := String.ofList (List.replicate 64 '0')

/-- A `dict[str, object]` of plain data. -/
abbrev Dict := List (String × Value)

/-- `AuditRecord`: one immutable audit entry in the chain. -/
structure AuditRecord where
  ts : String
  actor : String
  action : String
  target : String
  before_state : Dict
  result : String
  prev_hash : String
  row_hash : String
  deriving DecidableEq

/-- `_canonical`. -/
def canonical (ts actor action target : String) (before_state : Dict) (result : String) :
    String :=
  String.ofList (Json.dumps_sorted (.obj [("ts", .str ts), ("actor", .str actor),
    ("action", .str action), ("target", .str target), ("before_state", .obj before_state),
    ("result", .str result)]))

/-- `record_payload`. -/
def record_payload (record : AuditRecord) : String :=
  canonical record.ts record.actor record.action record.target record.before_state record.result

section

variable (blake3 : ByteArray → String)

/-- `compute_row_hash`: the prior head, a zero byte, the payload. -/
def compute_row_hash (prev_hash payload : String) : String :=
  blake3 (prev_hash.toUTF8 ++ ⟨#[0]⟩ ++ payload.toUTF8)

/-- `rechain`. -/
def rechain (record : AuditRecord) (prev_hash : String) : AuditRecord :=
  { record with prev_hash, row_hash := compute_row_hash blake3 prev_hash (record_payload record) }

/-- The record `AuditChain.append` makes on the given head. -/
def make_record (head ts actor action target : String) (before_state : Dict) (result : String) :
    AuditRecord where
  ts := ts
  actor := actor
  action := action
  target := target
  before_state := before_state
  result := result
  prev_hash := head
  row_hash := compute_row_hash blake3 head (canonical ts actor action target before_state result)

/-- `AuditChain`: the head, and what went to the sink. -/
structure AuditChain where
  sink : List AuditRecord
  head : String
  deriving DecidableEq

/-- `AuditChain.append`. -/
def AuditChain.append (chain : AuditChain) (now : Timestamp) (actor action target : String)
    (before_state : Dict) (result : String) : AuditChain :=
  let record := make_record blake3 chain.head now.isoformat actor action target before_state result
  { sink := chain.sink ++ [record], head := record.row_hash }

/-- `AuditChain.splice`. -/
def AuditChain.splice (chain : AuditChain) (record : AuditRecord) : AuditChain :=
  let rechained := rechain blake3 record chain.head
  { sink := chain.sink ++ [rechained], head := rechained.row_hash }

/-- `verify_chain`. -/
def verify_chain : List AuditRecord → String → Bool
  | [], _ => true
  | record :: records, prev =>
    if record.prev_hash ≠ prev then false
    else if compute_row_hash blake3 prev (record_payload record) ≠ record.row_hash then false
    else verify_chain records record.row_hash

/-- The records are a chain from `g` on. -/
abbrev LinkedRecords (g : String) (records : List AuditRecord) : Prop :=
  Chain.Linked AuditRecord.prev_hash AuditRecord.row_hash
    (fun g r => compute_row_hash blake3 g (record_payload r)) g records

variable {blake3}

/-- `verify_chain` decides linkage. -/
theorem verify_chain_iff {records : List AuditRecord} {g : String} :
    verify_chain blake3 records g = true ↔ LinkedRecords blake3 g records := by
  induction records generalizing g with
  | nil => simp only [verify_chain, LinkedRecords, Chain.Linked]
  | cons r rs ih =>
      rw [verify_chain, LinkedRecords, Chain.Linked]
      by_cases hprev : r.prev_hash = g
      · by_cases hrow : compute_row_hash blake3 g (record_payload r) = r.row_hash
        · rw [if_neg (by simpa using hprev), if_neg (by simpa using hrow), ih]
          exact ⟨fun h => ⟨hprev, hrow.symm, h⟩, fun h => h.2.2⟩
        · rw [if_neg (by simpa using hprev), if_pos hrow]
          exact ⟨fun h => absurd h (by simp), fun h => absurd h.2.1.symm hrow⟩
      · rw [if_pos hprev]
        exact ⟨fun h => absurd h (by simp), fun h => absurd h.1 hprev⟩

/-- A record made on a head is linked to it. -/
theorem make_record_linked (head ts actor action target : String) (before_state : Dict) (result : String) :
    LinkedRecords blake3 head [make_record blake3 head ts actor action target before_state result] :=
  ⟨rfl, rfl, trivial⟩

end

end Fathom.Audit
