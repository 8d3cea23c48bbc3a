/-
**Checkpoints** (`core/audit_store.py`): the signed anchor of the audit head and
the check that the live chain still extends it.

`verify_latest_checkpoint` uses the checkpoint's sequence number as a position:
it asks for that many rows and looks at the one in that place. The two agree
exactly when no number up to the checkpoint is missing from the table
(`NoGap`). PostgreSQL does not give a number back when an insert is rolled back,
so a gap needs no tampering; SQLite draws the next number from the table and
leaves none.
-/
import Fathom.Audit.Store

set_option autoImplicit false

namespace Fathom.Audit

open Fathom.Json (Value)

/-! ## Hexadecimal -/

/-- `bytes.fromhex`: pairs of digits, ASCII whitespace between them skipped. -/
def fromhex_chars : List Char → Option (List UInt8)
  | [] => some []
  | [c] => if c.isWhitespace then some [] else none
  | c :: d :: cs =>
    if c.isWhitespace then fromhex_chars (d :: cs)
    else do
      let hi ← Json.unhex c
      let lo ← Json.unhex d
      let rest ← fromhex_chars cs
      return UInt8.ofNat (16 * hi + lo) :: rest

/-- `bytes.fromhex`. -/
def fromhex (s : String) : Option ByteArray := (fromhex_chars s.toList).map fun bs => ⟨bs.toArray⟩

theorem hex_digit_not_whitespace : ∀ n < 16, (Json.hex_digit n).isWhitespace = false := by
  decide

theorem fromhex_hex (bytes : ByteArray) : fromhex (hex bytes) = some bytes := by
  have hlist : ∀ bs : List UInt8, fromhex_chars (bs.flatMap fun b =>
      [Json.hex_digit (b.toNat / 16), Json.hex_digit (b.toNat % 16)]) = some bs := by
    intro bs
    induction bs with
    | nil => rfl
    | cons b bs ih =>
        have hb := b.toNat_lt
        have hhi : b.toNat / 16 < 16 := by omega
        have hlo : b.toNat % 16 < 16 := Nat.mod_lt _ (by decide)
        have hval : UInt8.ofNat (16 * (b.toNat / 16) + b.toNat % 16) = b := by
          rw [Nat.div_add_mod, UInt8.ofNat_toNat]
        rw [List.flatMap_cons, List.cons_append, List.cons_append, List.nil_append, fromhex_chars,
          hex_digit_not_whitespace _ hhi, if_neg (by simp), Json.unhex_hex_digit hhi,
          Json.unhex_hex_digit hlo, ih]
        simp only [Option.bind_eq_bind, Option.bind_some, Option.pure_def, hval]
  rw [fromhex, hex, String.toList_ofList, hlist, Option.map_some]

/-! ## The check -/

/-- `CheckpointVerifier`. -/
structure CheckpointVerifier where
  verify : ByteArray → ByteArray → Bool

/-- `ORDER BY id`. -/
def id_le (a b : CheckpointRow) : Prop := a.id ≤ b.id

instance : DecidableRel id_le := fun a b => inferInstanceAs (Decidable (a.id ≤ b.id))

/-- `latest_checkpoint`, as a transaction reads it. -/
def latest_checkpoint (s : Store) (tx : ℕ) : Option CheckpointRow :=
  ((s.checkpoints ++ owned tx s.pending_checkpoints).insertionSort id_le).getLast?

/-- `verify_latest_checkpoint`, as a transaction runs it; `none` is an exception.
Sequence numbers start at one, so `cp.seq - 1` is never the index `-1`. -/
def verify_latest_checkpoint (blake3 : ByteArray → String) (verifier : CheckpointVerifier)
    (s : Store) (tx : ℕ) : Option Bool :=
  match latest_checkpoint s tx with
  | none => some true
  | some cp => do
    let signature ← fromhex cp.signature
    if !verifier.verify (checkpoint_message cp.seq cp.row_hash) signature then return false
    let records ← persisted_records (s.visible tx)
    if records.length < cp.seq then return false
    let anchored ← records[cp.seq - 1]?
    if anchored.row_hash ≠ cp.row_hash then return false
    return verify_chain blake3 (records.take cp.seq) GENESIS_HASH

/-- Every number from one to the checkpoint's is the number of a row. -/
def NoGap (rows : List AuditRow) (cp : CheckpointRow) : Prop :=
  ∀ n, 1 ≤ n → n ≤ cp.seq → ∃ r ∈ rows, r.seq = n

/-! ## What a checkpoint is tied to -/

section

variable {blake3 : ByteArray → String} {signer : CheckpointSigner} {db : Database}

/-- The row a checkpoint was written for is there, and the signature is over
it. -/
def Anchored (signer : CheckpointSigner) (rows : List AuditRow) (cp : CheckpointRow) : Prop :=
  (∃ r ∈ rows, r.seq = cp.seq ∧ r.row_hash = cp.row_hash) ∧
    cp.signature = hex (signer.sign (checkpoint_message cp.seq cp.row_hash))

variable {cp : CheckpointRow} {rows : List AuditRow} {s : Store}

theorem Anchored.mono {rows' : List AuditRow} (h : Anchored signer rows cp) (hsub : ∀ r ∈ rows, r ∈ rows') :
    Anchored signer rows' cp := by
  rcases h with ⟨⟨r, hr, hrow⟩, hsig⟩
  exact ⟨⟨r, hsub r hr, hrow⟩, hsig⟩

theorem last_row_mem {r : AuditRow} (h : last_row rows = some r) :
    r ∈ rows := (List.mem_insertionSort seq_le).mp (List.mem_of_getLast? h)

theorem write_checkpoint_anchored {id : ℕ} (h : write_checkpoint signer id rows = some cp) :
    Anchored signer rows cp := by
  rw [write_checkpoint, Option.map_eq_some_iff] at h
  rcases h with ⟨r, hr, rfl⟩
  exact ⟨⟨r, last_row_mem hr, rfl, rfl⟩, rfl⟩

/-- Every checkpoint is anchored in what its transaction sees. -/
structure CheckpointInv (signer : CheckpointSigner) (s : Store) : Prop where
  committed : ∀ cp ∈ s.checkpoints, Anchored signer s.committed cp
  pending : ∀ p ∈ s.pending_checkpoints, Anchored signer (s.visible p.1) p.2

theorem mem_owned {α : Type} {tx : ℕ} {rows : List (ℕ × α)} {a : α} (h : a ∈ owned tx rows) : (tx, a) ∈ rows := by
  rcases List.mem_map.mp h with ⟨⟨i, b⟩, hp, rfl⟩
  rw [List.mem_filter] at hp
  have hi : i = tx := by simpa using hp.2
  rw [← hi]
  exact hp.1

/-- A step that leaves the checkpoints alone and takes no row from a
transaction. -/
theorem CheckpointInv.keep {t : Store} (h : CheckpointInv signer s) (hc : t.checkpoints = s.checkpoints)
    (hp : t.pending_checkpoints = s.pending_checkpoints) (hrows : t.committed = s.committed)
    (hvis : ∀ tx, ∀ r ∈ s.visible tx, r ∈ t.visible tx) : CheckpointInv signer t := by
  refine ⟨?_, ?_⟩
  · rw [hc, hrows]
    exact h.committed
  · rw [hp]
    exact fun p hmem => (h.pending p hmem).mono (hvis p.1)

theorem CheckpointInv.ended (h : CheckpointInv signer s) (tx : ℕ) (keep : Bool) :
    CheckpointInv signer (end_transaction s tx keep) := by
  have hcommitted : ∀ r ∈ s.committed, r ∈ (end_transaction s tx keep).committed := by
    intro r hr
    rw [end_transaction]
    rcases keep with _ | _
    · exact hr
    · exact List.mem_append_left _ hr
  refine ⟨?_, ?_⟩
  · intro cp hcp
    rcases keep with _ | _
    · exact (h.committed cp hcp).mono hcommitted
    · rcases List.mem_append.mp hcp with hcp | hcp
      · exact (h.committed cp hcp).mono hcommitted
      · exact h.pending _ (mem_owned hcp)
  · intro p hp
    have hmem : p ∈ others tx s.pending_checkpoints := hp
    rw [others, List.mem_filter] at hmem
    have hne : p.1 ≠ tx := by simpa using hmem.2
    refine (h.pending p hmem.1).mono fun r hr => ?_
    rcases List.mem_append.mp hr with hr | hr
    · exact List.mem_append_left _ (hcommitted r hr)
    · apply List.mem_append_right
      rw [end_transaction, owned_others _ hne]
      exact hr

theorem CheckpointInv.step {t : Store} {label : StoreLabel} (h : CheckpointInv signer s)
    (hstep : store_step blake3 signer db s label = some t) : CheckpointInv signer t := by
  rcases label with ⟨tx, a⟩ | tx | ⟨tx, now⟩ | ⟨tx, a, row⟩ | tx | tx | tx | tx | tx
  · rw [store_step] at hstep
    split_ifs at hstep
    rw [← Option.some.inj hstep]
    exact h.keep rfl rfl rfl fun _ _ hr => hr
  · rw [store_step] at hstep
    split at hstep
    · rw [← Option.some.inj hstep]
      exact h.keep rfl rfl rfl fun _ _ hr => hr
    · exact absurd hstep (by simp)
  · rw [store_step, insert_step] at hstep
    split at hstep
    · by_cases hlock : db = .sqlite ∧ s.lock ≠ none ∧ s.lock ≠ some tx
      · rw [if_pos hlock] at hstep
        exact absurd hstep (by simp)
      · rw [if_neg hlock] at hstep
        rw [← Option.some.inj hstep]
        exact h.keep rfl rfl rfl fun _ _ hr => hr
    · exact absurd hstep (by simp)
  · rw [store_step, inserted_step] at hstep
    split at hstep
    · split_ifs at hstep
      rw [← Option.some.inj hstep]
      refine h.keep rfl rfl rfl fun tx' r hr => ?_
      rcases List.mem_append.mp hr with hr | hr
      · exact List.mem_append_left _ hr
      · apply List.mem_append_right
        rw [owned, List.filter_append, List.map_append]
        exact List.mem_append_left _ hr
    · exact absurd hstep (by simp)
  · rw [store_step, conflict_step] at hstep
    split at hstep
    · split_ifs at hstep
      rw [← Option.some.inj hstep]
      exact h.keep rfl rfl rfl fun _ _ hr => hr
    · exact absurd hstep (by simp)
  · rw [store_step] at hstep
    split_ifs at hstep
    rw [← Option.some.inj hstep]
    exact h.keep rfl rfl rfl fun _ _ hr => hr
  · rw [store_step] at hstep
    split_ifs at hstep
    split at hstep
    · rw [← Option.some.inj hstep]
      exact h
    · rename_i cp hcp
      rw [← Option.some.inj hstep]
      refine ⟨h.committed, fun p hp => ?_⟩
      rcases List.mem_append.mp hp with hp | hp
      · exact h.pending p hp
      · rw [List.mem_singleton.mp hp]
        exact write_checkpoint_anchored hcp
  · rw [store_step] at hstep
    split_ifs at hstep
    rw [← Option.some.inj hstep]
    exact h.ended tx true
  · rw [store_step] at hstep
    rw [← Option.some.inj hstep]
    exact h.ended tx false

theorem checkpoint_inv {tr : List StoreLabel} (h : (store blake3 signer db).Trace tr s) : CheckpointInv signer s := by
  refine h.invariant (I := CheckpointInv signer) ?_ fun s label t hinv hstep => hinv.step hstep
  intro s hs
  rw [show s = _ from hs]
  exact ⟨by simp, by simp⟩

/-- The checkpoint a transaction reads is anchored in the rows it reads. -/
theorem latest_checkpoint_anchored (h : CheckpointInv signer s) {tx : ℕ} (hcp : latest_checkpoint s tx = some cp) :
    Anchored signer (s.visible tx) cp := by
  have hmem := (List.mem_insertionSort id_le).mp (List.mem_of_getLast? hcp)
  rcases List.mem_append.mp hmem with hmem | hmem
  · exact (h.committed cp hmem).mono fun r hr => List.mem_append_left _ hr
  · exact h.pending _ (mem_owned hmem)

/-! ## Numbers and positions

In rows with increasing positive numbers the row in place `i`, counted from
zero, has a number above `i`. It is `i + 1` exactly when no number below it is
missing. -/

theorem SeqSorted.get_lt (h : SeqSorted rows) {i j : ℕ} (hij : i < j) (hi : i < rows.length) (hj : j < rows.length) :
    rows[i].seq < rows[j].seq :=
  List.pairwise_iff_getElem.mp h i j hi hj hij

/-- Numbers grow at least as fast as places. -/
theorem SeqSorted.add_le (h : SeqSorted rows) (i d : ℕ) (hi : i < rows.length) (hd : i + d < rows.length) :
    rows[i].seq + d ≤ rows[i + d].seq := by
  induction d with
  | zero => exact le_refl _
  | succ d ih =>
      have hlt := h.get_lt (by omega : i + d < i + d + 1) (by omega) hd
      have hle := ih (by omega)
      simp only [← Nat.add_assoc]
      omega

theorem SeqSorted.place_lt (h : SeqSorted rows) (hpos : ∀ r ∈ rows, 0 < r.seq) {i : ℕ} (hi : i < rows.length) :
    i < rows[i].seq := by
  have h0 := hpos _ (List.getElem_mem (by omega : 0 < rows.length))
  have hle := h.add_le 0 i (by omega) (by omega)
  simp only [Nat.zero_add] at hle
  omega

/-- Without a gap, numbers are places. -/
theorem SeqSorted.place_of_noGap (h : SeqSorted rows) (hpos : ∀ r ∈ rows, 0 < r.seq) {N : ℕ}
    (hgap : ∀ n, 1 ≤ n → n ≤ N → ∃ r ∈ rows, r.seq = n) :
    ∀ m, m + 1 ≤ N → ∃ hm : m < rows.length, rows[m].seq = m + 1 := by
  intro m
  induction m with
  | zero =>
      intro hN
      rcases hgap 1 (le_refl 1) hN with ⟨r, hr, hseq⟩
      rcases List.mem_iff_getElem.mp hr with ⟨k, hk, rfl⟩
      have hplace := h.place_lt hpos hk
      have hk0 : k = 0 := by omega
      subst hk0
      exact ⟨hk, hseq⟩
  | succ m ih =>
      intro hN
      rcases ih (by omega) with ⟨hm, hseqm⟩
      rcases hgap (m + 2) (by omega) hN with ⟨r, hr, hseq⟩
      rcases List.mem_iff_getElem.mp hr with ⟨k, hk, rfl⟩
      have hplace := h.place_lt hpos hk
      -- the row numbered `m + 2` is behind the one numbered `m + 1`
      have hmk : m < k := by
        by_contra hle
        rcases Nat.lt_or_eq_of_le (Nat.le_of_not_lt hle) with hlt | heq
        · have hlt' := h.get_lt hlt (by omega) hm
          omega
        · subst heq
          omega
      have hk1 : k = m + 1 := by omega
      subst hk1
      exact ⟨hk, hseq⟩

/-- A row's number is its place, counted from one, exactly when no number up to
it is missing. -/
theorem SeqSorted.noGap_iff (h : SeqSorted rows) (hpos : ∀ r ∈ rows, 0 < r.seq) {i : ℕ} (hi : i < rows.length) :
    rows[i].seq = i + 1 ↔
      ∀ n, 1 ≤ n → n ≤ rows[i].seq → ∃ r ∈ rows, r.seq = n := by
  constructor
  · intro hseq n hn hle
    have hlt : n - 1 < rows.length := by omega
    have hplace := h.place_lt hpos hlt
    have hadd := h.add_le (n - 1) (i - (n - 1)) hlt (by omega)
    have hidx : n - 1 + (i - (n - 1)) = i := by omega
    simp only [hidx] at hadd
    exact ⟨rows[n - 1], List.getElem_mem hlt, by omega⟩
  · intro hgap
    have hplace := h.place_lt hpos hi
    rcases h.place_of_noGap hpos hgap (rows[i].seq - 1) (by omega) with ⟨hm, hseq⟩
    rcases Nat.lt_trichotomy (rows[i].seq - 1) i with hlt | heq | hgt
    · omega
    · omega
    · have hlt := h.get_lt hgt hi hm
      omega

theorem mapM_reload_row_hash {records : List AuditRecord} (h : rows.mapM AuditRow.reload = some records) :
    records.map AuditRecord.row_hash = rows.map AuditRow.row_hash := by
  induction rows generalizing records with
  | nil =>
      rw [List.mapM_nil] at h
      rw [← Option.some.inj h]
      rfl
  | cons row rows ih =>
      rw [List.mapM_cons] at h
      rcases hrow : row.reload with _ | record
      · rw [hrow] at h
        exact absurd h (by simp)
      · rcases hrows : rows.mapM AuditRow.reload with _ | rest
        · rw [hrow, hrows] at h
          exact absurd h (by simp)
        · rw [hrow, hrows] at h
          rw [← Option.some.inj h, List.map_cons, List.map_cons, ih hrows]
          have hhash : record.row_hash = row.row_hash := by
            unfold AuditRow.reload at hrow
            split at hrow
            · rw [← Option.some.inj hrow]
            · exact absurd hrow (by simp)
          rw [hhash]

/-! ## When there is no false alarm -/

/-- What a transaction sees, as a table of its own. -/
theorem StoreInv.visible (h : StoreInv blake3 db s) (tx : ℕ) :
    SeqSorted (s.visible tx) ∧ (∀ r ∈ s.visible tx, 0 < r.seq) ∧ ((s.visible tx).map AuditRow.row_hash).Nodup ∧
      ∃ records, (s.visible tx).mapM AuditRow.reload = some records ∧ LinkedRecords blake3 GENESIS_HASH records := by
  have ht := h.table
  have hpre : s.visible tx <+: s.rows := by
    rcases ht.visible_cases tx with ⟨-, -, hv⟩ | ⟨-, -, hv⟩
    · exact hv ▸ List.prefix_refl _
    · exact hv ▸ List.prefix_append _ _
  refine ⟨ht.sorted.sublist hpre.sublist, fun r hr => ht.positive r (hpre.subset hr),
    ht.unique.sublist (hpre.sublist.map _), ?_⟩
  rcases hpre with ⟨rest, hrest⟩
  have hlinked := ht.linked
  rw [← hrest] at hlinked
  refine LinkedRows.reload (Chain.linked_append.mp hlinked).1 fun r hr => ht.loads r ?_
  rw [← hrest]
  exact List.mem_append_left _ hr

/-- The check on an anchored checkpoint comes down to the position of the
anchored row. -/
theorem verify_latest_checkpoint_iff {verifier : CheckpointVerifier} {tx : ℕ}
    (hlaw : ∀ m, verifier.verify m (signer.sign m) = true) (h : StoreInv blake3 db s) (hcps : CheckpointInv signer s) :
    verify_latest_checkpoint blake3 verifier s tx = some true ↔
      ∀ cp, latest_checkpoint s tx = some cp → NoGap (s.visible tx) cp := by
  rcases hcp : latest_checkpoint s tx with _ | cp
  · rw [verify_latest_checkpoint, hcp]
    exact ⟨fun _ cp hcp => absurd hcp (by simp), fun _ => rfl⟩
  rcases latest_checkpoint_anchored hcps hcp with ⟨⟨r, hr, hseq, hhash⟩, hsig⟩
  rcases h.visible tx with ⟨hsorted, hpos, hunique, records, hrec, hlinked⟩
  rcases List.mem_iff_getElem.mp hr with ⟨i, hi, rfl⟩
  have hhashes := mapM_reload_row_hash hrec
  have hlen : records.length = (s.visible tx).length := by
    have hl := congrArg List.length hhashes
    rw [List.length_map, List.length_map] at hl
    exact hl
  -- the record in a place carries the hash of the row in that place
  have hget : ∀ k (hk : k < records.length) (hk' : k < (s.visible tx).length),
      records[k].row_hash = (s.visible tx)[k].row_hash := by
    intro k hk hk'
    have hkth := congrArg (fun l => l[k]?) hhashes
    simp only [List.getElem?_map] at hkth
    rw [List.getElem?_eq_getElem hk, List.getElem?_eq_getElem hk', Option.map_some,
      Option.map_some, Option.some.injEq] at hkth
    exact hkth
  have hpersisted : persisted_records (s.visible tx) = some records := by
    rw [persisted_records, hsorted.sort_eq, hrec]
  have hplace := hsorted.place_lt hpos hi
  have hgap : NoGap (s.visible tx) cp ↔ cp.seq = i + 1 := by
    rw [NoGap, ← hseq]
    exact (hsorted.noGap_iff hpos hi).symm
  have hcheck : verify_latest_checkpoint blake3 verifier s tx = some true ↔ cp.seq = i + 1 := by
    rw [verify_latest_checkpoint, hcp]
    simp only [hsig, fromhex_hex, hlaw, hpersisted, Option.bind_eq_bind, Option.bind_some,
      Bool.not_true, Bool.false_eq_true, if_false]
    by_cases hshort : records.length < cp.seq
    · rw [if_pos hshort]
      refine ⟨fun hfalse => absurd hfalse (by simp), fun heq => ?_⟩
      omega
    · have hlt : cp.seq - 1 < records.length := by omega
      have hlt' : cp.seq - 1 < (s.visible tx).length := by omega
      rw [if_neg hshort, List.getElem?_eq_getElem hlt]
      simp only [Option.bind_some, hget _ hlt hlt']
      by_cases hat : cp.seq - 1 = i
      · have hsame : (s.visible tx)[cp.seq - 1].row_hash = cp.row_hash := by
          simp only [hat]
          exact hhash
        rw [if_neg (by simpa using hsame), verify_chain_iff.mpr (hlinked.take cp.seq)]
        exact ⟨fun _ => by omega, fun _ => rfl⟩
      · have hdiff : (s.visible tx)[cp.seq - 1].row_hash ≠ cp.row_hash := by
          rw [← hhash]
          intro heq
          apply hat
          -- no two rows share a hash
          have hlast : cp.seq - 1 < ((s.visible tx).map AuditRow.row_hash).length := by
            rw [List.length_map]
            exact hlt'
          have hith : i < ((s.visible tx).map AuditRow.row_hash).length := by
            rw [List.length_map]
            exact hi
          have hsame : ((s.visible tx).map AuditRow.row_hash)[cp.seq - 1] =
              ((s.visible tx).map AuditRow.row_hash)[i] := by
            rw [List.getElem_map, List.getElem_map]
            exact heq
          exact hunique.getElem_inj_iff.mp hsame
        rw [if_pos hdiff]
        exact ⟨fun hfalse => absurd hfalse (by simp), fun heq => absurd (by omega) hat⟩
  rw [hcheck, ← hgap]
  exact ⟨fun hng cp' hcp' => by rw [← Option.some.inj hcp']; exact hng, fun hall => hall cp rfl⟩

/-- **When a checkpoint raises no false alarm.** After any history, the check a
transaction runs succeeds exactly when no sequence number up to the latest
checkpoint's is missing from the rows it reads. -/
theorem checkpoint_no_false_alarm {verifier : CheckpointVerifier}
    (hlaw : ∀ m, verifier.verify m (signer.sign m) = true) {tr : List StoreLabel} {s : Store}
    (h : (store blake3 signer db).Trace tr s) (tx : ℕ) :
    verify_latest_checkpoint blake3 verifier s tx = some true ↔
      ∀ cp, latest_checkpoint s tx = some cp → NoGap (s.visible tx) cp :=
  verify_latest_checkpoint_iff hlaw (store_inv h) (checkpoint_inv h)

/-- SQLite numbers its rows without a gap, so there the check always succeeds. -/
theorem verify_latest_checkpoint_sqlite {verifier : CheckpointVerifier}
    (hlaw : ∀ m, verifier.verify m (signer.sign m) = true) {tr : List StoreLabel}
    (h : (store blake3 signer .sqlite).Trace tr s) (tx : ℕ) :
    verify_latest_checkpoint blake3 verifier s tx = some true := by
  have hinv := store_inv h
  apply (verify_latest_checkpoint_iff hlaw hinv (checkpoint_inv h)).mpr
  intro cp hcp n hn hle
  rcases latest_checkpoint_anchored (checkpoint_inv h) hcp with ⟨⟨r, hr, hseq, -⟩, -⟩
  -- what the transaction sees is numbered from one without a gap
  have hcontiguous : ∃ k, (s.visible tx).map AuditRow.seq = List.range' 1 k := by
    have hall := hinv.table.contiguous rfl
    rcases hinv.table.visible_cases tx with ⟨-, -, hv⟩ | ⟨-, -, hv⟩
    · exact ⟨_, by rw [hv, hall]⟩
    · refine ⟨s.committed.length, ?_⟩
      have htake := congrArg (List.take s.committed.length) hall
      rw [Store.rows, List.map_append, List.take_left' (by rw [List.length_map]),
        List.take_range'_of_length_ge (by rw [List.length_append]; omega)] at htake
      rw [hv, htake]
  rcases hcontiguous with ⟨k, hk⟩
  have hmem : r.seq ∈ List.range' 1 k := by
    rw [← hk]
    exact List.mem_map_of_mem hr
  have hn' : n ∈ (s.visible tx).map AuditRow.seq := by
    rw [List.mem_range'_1] at hmem
    rw [hk, List.mem_range'_1]
    omega
  rcases List.mem_map.mp hn' with ⟨r', hr', hseq'⟩
  exact ⟨r', hr', hseq'⟩

end

/-! ## A rolled-back insert -/

/-- A verifier that accepts every signature. -/
def trusting_verifier : CheckpointVerifier := ⟨fun _ _ => true⟩

/-- The first append takes number one and is rolled back; the second takes number
two and is committed, and a checkpoint is written. -/
def gap_run : List StoreLabel :=
  [.call 1 sample_append, .load 1, .insert 1 sample_now,
    .inserted 1 sample_append (sample_row 1 GENESIS_HASH), .rollback 1,
    .call 2 sample_append, .load 2, .insert 2 sample_now,
    .inserted 2 sample_append (sample_row 2 GENESIS_HASH), .commit 2,
    .checkpoint 3, .commit 3]

/-- The same without the roll-back: one row, numbered one. -/
def no_gap_run : List StoreLabel :=
  [.call 1 sample_append, .load 1, .insert 1 sample_now,
    .inserted 1 sample_append (sample_row 1 GENESIS_HASH), .commit 1,
    .checkpoint 3, .commit 3]

/-- What a fresh transaction's check returns after a run on PostgreSQL. -/
def check_after (tr : List StoreLabel) : Option (Option Bool) :=
  ((store size_digest null_signer .postgresql).run
    ⟨[], [], [], [], 1, 1, none, fun _ => .idle⟩ tr).map
    fun s => verify_latest_checkpoint size_digest trusting_verifier s 4

/-- A false alarm: the one row of an untampered chain is rejected. -/
theorem checkpoint_false_alarm :
    ¬∀ (tr : List StoreLabel) (s : Store),
      (store size_digest null_signer .postgresql).Trace tr s →
        verify_latest_checkpoint size_digest trusting_verifier s 4 = some true := by
  intro h
  have hrun : check_after gap_run = some (some false) := by decide +kernel
  rcases Option.map_eq_some_iff.mp hrun with ⟨s, hs, hfalse⟩
  rw [h gap_run s ⟨_, rfl, hs⟩] at hfalse
  exact absurd hfalse (by decide)

/-- Without the gap the check is exact. -/
theorem checkpoint_no_false_alarm_sample :
    ∃ s, (store size_digest null_signer .postgresql).Trace no_gap_run s ∧
      (verify_latest_checkpoint size_digest trusting_verifier s 4 = some true ↔
        ∀ cp, latest_checkpoint s 4 = some cp → NoGap (s.visible 4) cp) := by
  have hrun : check_after no_gap_run = some (some true) := by decide +kernel
  rcases Option.map_eq_some_iff.mp hrun with ⟨s, hs, -⟩
  have htrace : (store size_digest null_signer .postgresql).Trace no_gap_run s := ⟨_, rfl, hs⟩
  exact ⟨s, htrace, checkpoint_no_false_alarm (fun _ => rfl) htrace 4⟩

theorem verify_latest_checkpoint_sqlite_sample : ∃ s, (store size_digest null_signer .sqlite).Trace no_gap_run s ∧
    verify_latest_checkpoint size_digest trusting_verifier s 4 = some true := by
  have hsome : ((store size_digest null_signer .sqlite).run
      ⟨[], [], [], [], 1, 1, none, fun _ => .idle⟩ no_gap_run).isSome = true := by decide +kernel
  obtain ⟨s, hs⟩ := Option.isSome_iff_exists.mp hsome
  exact ⟨s, ⟨_, rfl, hs⟩, verify_latest_checkpoint_sqlite (fun _ => rfl) ⟨_, rfl, hs⟩ 4⟩

end Fathom.Audit
