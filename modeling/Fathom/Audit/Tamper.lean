/-
**Tamper evidence** (`core/audit.py`): what a verified audit chain commits to.

The hash is a parameter, and what is assumed of it is that the records at hand do not
collide: two of them that hash alike have hashed the same bytes. The bytes are the
previous hash, a zero byte and the canonical payload. A payload is a JSON text without
control characters, whatever its strings hold, so the last zero byte of the input is
the separator, and the bytes determine both parts (`hashed_injective`).

Records with one payload have the same fields, `before_state` up to the order of its
keys (`record_payload_eq_iff`).
-/
import Fathom.Audit.Chain

set_option autoImplicit false

namespace Fathom.Audit

open Fathom.Json (Value)

/-! ## The bytes of a record -/

/-- What `compute_row_hash` hashes. -/
def hashed (prev_hash payload : String) : ByteArray :=
  prev_hash.toUTF8 ++ ⟨#[0]⟩ ++ payload.toUTF8

/-- What the `row_hash` of a record is the hash of. -/
def AuditRecord.hashed (record : AuditRecord) : ByteArray :=
  Audit.hashed record.prev_hash (record_payload record)

/-- Two texts joined by a character that the second does not have. -/
theorem append_cons_injective {α : Type} {c : α} {xs xs' ys ys' : List α} (hys : c ∉ ys)
    (hys' : c ∉ ys') (h : xs ++ c :: ys = xs' ++ c :: ys') : xs = xs' ∧ ys = ys' := by
  obtain ⟨as, hxs, hcons⟩ | ⟨as, hxs, hcons⟩ := List.append_eq_append_iff.mp h
  · rcases as with _ | ⟨a, as⟩
    · rw [List.append_nil] at hxs
      exact ⟨hxs.symm, (List.cons.inj hcons).2⟩
    · -- the separator of the second would stand in the first's tail
      rw [(List.cons.inj hcons).2] at hys
      exact absurd (List.mem_append_right as List.mem_cons_self) hys
  · rcases as with _ | ⟨a, as⟩
    · rw [List.append_nil] at hxs
      exact ⟨hxs, (List.cons.inj hcons).2.symm⟩
    · rw [(List.cons.inj hcons).2] at hys'
      exact absurd (List.mem_append_right as List.mem_cons_self) hys'

/-- **The framing** is injective, for every previous hash, when the payloads have no
zero character. -/
theorem hashed_injective {prev prev' payload payload' : String}
    (hpayload : Char.ofNat 0 ∉ payload.toList) (hpayload' : Char.ofNat 0 ∉ payload'.toList)
    (h : hashed prev payload = hashed prev' payload') : prev = prev' ∧ payload = payload' := by
  have hframe : ∀ prev payload : String,
      hashed prev payload = (prev ++ String.singleton (Char.ofNat 0) ++ payload).toUTF8 := by
    intro prev payload
    rfl
  rw [hframe, hframe] at h
  have htext := congrArg String.toList (String.toByteArray_inj.mp h)
  simp only [String.toList_append, String.toList_singleton, List.append_assoc,
    List.singleton_append] at htext
  obtain ⟨hprev, hrest⟩ := append_cons_injective hpayload hpayload' htext
  exact ⟨String.toList_inj.mp hprev, String.toList_inj.mp hrest⟩

theorem canonical_no_zero (ts actor action target : String) (before_state : Dict) (result : String) :
    Char.ofNat 0 ∉ (canonical ts actor action target before_state result).toList := by
  intro hmem
  rw [canonical, String.toList_ofList] at hmem
  have hlow := Json.render_printable _ _ _ hmem
  exact absurd hlow (by decide)

/-! ## What a payload determines -/

theorem sort_canonical (ts actor action target : String) (before_state : Dict) (result : String) :
    Json.sort_value (.obj [("ts", .str ts), ("actor", .str actor), ("action", .str action),
        ("target", .str target), ("before_state", .obj before_state), ("result", .str result)]) =
      .obj [("action", .str action), ("actor", .str actor),
        ("before_state", Json.sort_value (.obj before_state)), ("result", .str result),
        ("target", .str target), ("ts", .str ts)] := by
  simp [Json.sort_value, Json.sort_fields, List.orderedInsert, Json.key_le]

/-- Two records say the same. -/
structure SameContent (r s : AuditRecord) : Prop where
  ts : r.ts = s.ts
  actor : r.actor = s.actor
  action : r.action = s.action
  target : r.target = s.target
  before_state : Json.sort_value (.obj r.before_state) = Json.sort_value (.obj s.before_state)
  result : r.result = s.result

/-- **The canonical payload** determines what a record says, and nothing else. -/
theorem record_payload_eq_iff {r s : AuditRecord} : record_payload r = record_payload s ↔ SameContent r s := by
  rw [record_payload, record_payload, canonical, canonical, String.ofList_inj,
    Json.dumps_sorted_eq_iff, sort_canonical, sort_canonical]
  simp only [Value.obj.injEq, List.cons.injEq, Prod.mk.injEq, Value.str.injEq, true_and, and_true]
  constructor
  · rintro ⟨haction, hactor, hbefore, hresult, htarget, hts⟩
    exact ⟨hts, hactor, haction, htarget, hbefore, hresult⟩
  · rintro ⟨hts, hactor, haction, htarget, hbefore, hresult⟩
    exact ⟨haction, hactor, hbefore, hresult, htarget, hts⟩

/-! ## What a chain commits to -/

section

variable (blake3 : ByteArray → String)

/-- No two of the records collide. -/
def CollisionFree (records : List AuditRecord) : Prop :=
  ∀ r ∈ records, ∀ s ∈ records, blake3 r.hashed = blake3 s.hashed → r.hashed = s.hashed

/-- The hash of the last record, or the genesis hash. -/
abbrev head_hash (genesis : String) (records : List AuditRecord) : String :=
  Chain.tip AuditRecord.row_hash genesis records

/-- Two records of two chains agree: in what they say, in the payload that is hashed,
and in their hashes. -/
structure SameRecord (r s : AuditRecord) : Prop where
  content : SameContent r s
  payload : record_payload r = record_payload s
  prev_hash : r.prev_hash = s.prev_hash
  row_hash : r.row_hash = s.row_hash

end

variable {blake3 : ByteArray → String}

theorem hashed_record_injective {r s : AuditRecord} (h : r.hashed = s.hashed) :
    r.prev_hash = s.prev_hash ∧ record_payload r = record_payload s := by
  apply hashed_injective _ _ h
  · exact canonical_no_zero _ _ _ _ _ _
  · exact canonical_no_zero _ _ _ _ _ _

/-- Verified chains with one head agree. -/
theorem verified_agree {genesis : String} {rs ss : List AuditRecord} (hfree : CollisionFree blake3 (rs ++ ss))
    (hroot : rs.length ≠ ss.length → ∀ r ∈ rs ++ ss, r.row_hash ≠ genesis)
    (hrs : verify_chain blake3 rs genesis = true) (hss : verify_chain blake3 ss genesis = true)
    (hhead : head_hash genesis rs = head_hash genesis ss) : List.Forall₂ SameRecord rs ss := by
  have hagree : List.Forall₂ (fun r s => r.prev_hash = s.prev_hash ∧ r.row_hash = s.row_hash ∧
      record_payload r = record_payload s) rs ss := by
    apply Chain.Linked.agree _ _ (verify_chain_iff.mp hrs) (verify_chain_iff.mp hss) hhead
    · intro r hr s hs hlink
      apply hashed_record_injective
      exact hfree r (List.mem_append_left _ hr) s (List.mem_append_right _ hs) hlink
    · intro hlen r hr
      exact hroot hlen r (List.mem_append.mpr hr)
  apply hagree.imp
  rintro r s ⟨hprev, hrow, hpayload⟩
  exact ⟨record_payload_eq_iff.mp hpayload, hpayload, hprev, hrow⟩

theorem verify_chain_take {genesis : String} {records : List AuditRecord}
    (h : verify_chain blake3 records genesis = true) (n : ℕ) :
    verify_chain blake3 (records.take n) genesis = true :=
  verify_chain_iff.mpr ((verify_chain_iff.mp h).take n)

theorem CollisionFree.take {rs ss : List AuditRecord} (h : CollisionFree blake3 (rs ++ ss))
    (n m : ℕ) : CollisionFree blake3 (rs.take n ++ ss.take m) := by
  have hsub : ∀ r ∈ rs.take n ++ ss.take m, r ∈ rs ++ ss := by
    intro r hr
    rw [List.mem_append] at hr ⊢
    exact hr.imp List.mem_of_mem_take List.mem_of_mem_take
  intro r hr s hs
  exact h r (hsub r hr) s (hsub s hs)

/-- **Tamper evidence.** Let two lists of records pass `verify_chain` from one genesis,
without a collision among them.

* Lists of equal length that end in the same `row_hash` agree in every record.
* A retained head at a place commits to the records up to it: if both lists carry it at
  the `n`-th place, their first `n` records agree. So no record at or before it can be
  edited, moved, left out or put in.
* When no record hashes to the genesis hash, the head alone commits to them, wherever
  the second list carries it. -/
theorem tamper_evident {genesis : String} {rs ss : List AuditRecord}
    (hfree : CollisionFree blake3 (rs ++ ss))
    (hrs : verify_chain blake3 rs genesis = true)
    (hss : verify_chain blake3 ss genesis = true) :
    (rs.length = ss.length → head_hash genesis rs = head_hash genesis ss →
      List.Forall₂ SameRecord rs ss) ∧
    (∀ n, n ≤ rs.length → n ≤ ss.length →
      head_hash genesis (rs.take n) = head_hash genesis (ss.take n) →
      List.Forall₂ SameRecord (rs.take n) (ss.take n)) ∧
    ((∀ r ∈ rs ++ ss, r.row_hash ≠ genesis) → ∀ n m, n ≤ rs.length → m ≤ ss.length →
      head_hash genesis (rs.take n) = head_hash genesis (ss.take m) →
      n = m ∧ List.Forall₂ SameRecord (rs.take n) (ss.take m)) := by
  refine ⟨?_, ?_, ?_⟩
  · intro hlen hhead
    exact verified_agree hfree (fun hne => absurd hlen hne) hrs hss hhead
  · intro n hn hm hhead
    apply verified_agree (hfree.take n n) _ (verify_chain_take hrs n) (verify_chain_take hss n)
      hhead
    intro hne
    rw [List.length_take, List.length_take] at hne
    omega
  · intro hroot n m hn hm hhead
    have hagree : List.Forall₂ SameRecord (rs.take n) (ss.take m) := by
      apply verified_agree (hfree.take n m) _ (verify_chain_take hrs n) (verify_chain_take hss m)
        hhead
      intro _ r hr
      apply hroot
      rw [List.mem_append] at hr ⊢
      exact hr.imp List.mem_of_mem_take List.mem_of_mem_take
    have hlen := hagree.length_eq
    rw [List.length_take, List.length_take] at hlen
    exact ⟨by omega, hagree⟩

/-! ### Two orders of one state -/

/-- The bytes themselves, in hexadecimal, as a hash without collisions. -/
def hex_of (bytes : ByteArray) : String :=
  String.ofList (bytes.data.toList.flatMap fun b =>
    [Json.hex_digit (b.toNat / 16), Json.hex_digit (b.toNat % 16)])

/-- One act, its state written in some order. -/
def sample_act (before_state : Dict) : AuditRecord :=
  make_record hex_of GENESIS_HASH "t" "ops" "move" "/a" before_state "ok"

theorem tamper_evident_sample :
    List.Forall₂ SameRecord [sample_act [("x", .int 1), ("y", .null)]]
      [sample_act [("y", .null), ("x", .int 1)]] := by
  have hpayload : record_payload (sample_act [("x", .int 1), ("y", .null)]) =
      record_payload (sample_act [("y", .null), ("x", .int 1)]) :=
    record_payload_eq_iff.mpr ⟨rfl, rfl, rfl, rfl, by decide, rfl⟩
  have hrow : (sample_act [("x", .int 1), ("y", .null)]).row_hash =
      (sample_act [("y", .null), ("x", .int 1)]).row_hash :=
    congrArg (compute_row_hash hex_of GENESIS_HASH) hpayload
  -- the two records have hashed the same bytes
  have hbytes : ∀ r ∈ [sample_act [("x", .int 1), ("y", .null)],
      sample_act [("y", .null), ("x", .int 1)]],
      r.hashed = (sample_act [("x", .int 1), ("y", .null)]).hashed := by
    intro r hr
    rcases List.mem_cons.mp hr with rfl | hr
    · rfl
    · rw [List.mem_singleton.mp hr]
      exact congrArg (hashed GENESIS_HASH) hpayload.symm
  apply (@tamper_evident hex_of GENESIS_HASH [sample_act [("x", .int 1), ("y", .null)]]
    [sample_act [("y", .null), ("x", .int 1)]]
    (fun r hr s hs _ => (hbytes r hr).trans (hbytes s hs).symm)
    (verify_chain_iff.mpr (make_record_linked ..))
    (verify_chain_iff.mpr (make_record_linked ..))).1
  · rfl
  · exact hrow

end Fathom.Audit
