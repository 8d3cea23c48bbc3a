/-
**The persisted audit store** (`core/audit_store.py`): writers that append to one
hash-chained table from concurrent transactions.

A writer runs the retry loop of `append_durable` or `_splice_record_durable` one
database call at a time: it reads the head, it starts the `INSERT` (which draws
the sequence number), the `INSERT` succeeds or hits a unique constraint. Between
any two calls the other transactions run, commit and roll back. A row of an open
transaction is in the table for the constraints -- an `INSERT` that clashes with
it waits -- but not for anyone else's reads.

What keeps the chain fork-free is one invariant (`StoreInv`): the committed rows
followed by the uncommitted ones are a chain in sequence order, and the
uncommitted ones are all of one transaction. A writer that read the head before
it moved holds a hash that some committed row already names, and the unique
`prev_hash` refuses it (`Stale`).

Both databases the store runs on are covered: they differ in how a sequence
number is drawn and in SQLite's single write lock.
-/
import Fathom.Audit.Chain
import Fathom.Lib.System

set_option autoImplicit false

namespace Fathom.Audit

open Fathom.Json (Value)
open Fathom.Datetime (Timestamp)

/-! ## Rows -/

/-- `RemediationAuditRow`. `before_state` is a JSON column: its text is stored. -/
structure AuditRow where
  seq : ℕ
  ts : String
  actor : String
  action : String
  target : String
  before_state : List Char
  result : String
  prev_hash : String
  row_hash : String
  deriving DecidableEq

/-- `_row_from_record`, flushed with the sequence number it drew. -/
def row_from_record (seq : ℕ) (record : AuditRecord) : AuditRow where
  seq := seq
  ts := record.ts
  actor := record.actor
  action := record.action
  target := record.target
  before_state := Json.dumps .spaced (.obj record.before_state)
  result := record.result
  prev_hash := record.prev_hash
  row_hash := record.row_hash

/-- A row loaded back; `none` when the column is not an object. -/
def AuditRow.reload (row : AuditRow) : Option AuditRecord :=
  match Json.loads row.before_state with
  | some (.obj before_state) =>
    some { ts := row.ts, actor := row.actor, action := row.action, target := row.target
           before_state, result := row.result, prev_hash := row.prev_hash
           row_hash := row.row_hash }
  | _ => none

theorem reload_row_from_record (seq : ℕ) (record : AuditRecord) :
    (row_from_record seq record).reload = some record := by
  rw [AuditRow.reload, row_from_record, Json.loads_dumps]

/-- `ORDER BY seq`. -/
def seq_le (a b : AuditRow) : Prop := a.seq ≤ b.seq

instance : DecidableRel seq_le := fun a b => inferInstanceAs (Decidable (a.seq ≤ b.seq))

/-- The last row in sequence order. -/
def last_row (rows : List AuditRow) : Option AuditRow := (rows.insertionSort seq_le).getLast?

/-- `persisted_records`: the rows in sequence order, loaded back. -/
def persisted_records (rows : List AuditRow) : Option (List AuditRecord) :=
  (rows.insertionSort seq_le).mapM AuditRow.reload

/-- `RemediationAuditCheckpointRow`. -/
structure CheckpointRow where
  id : ℕ
  seq : ℕ
  row_hash : String
  signature : String
  key_id : String
  deriving DecidableEq

/-- `_checkpoint_message`. -/
def checkpoint_message (seq : ℕ) (row_hash : String) : ByteArray :=
  (toString seq ++ ":" ++ row_hash).toUTF8

/-- `CheckpointSigner`. -/
structure CheckpointSigner where
  key_id : String
  sign : ByteArray → ByteArray

/-- `bytes.hex()`. -/
def hex (bytes : ByteArray) : String :=
  String.ofList (bytes.data.toList.flatMap fun b =>
    [Json.hex_digit (b.toNat / 16), Json.hex_digit (b.toNat % 16)])

/-- The row `write_checkpoint` makes of the last row, if there is one. -/
def write_checkpoint (signer : CheckpointSigner) (id : ℕ) (rows : List AuditRow) :
    Option CheckpointRow :=
  (last_row rows).map fun last =>
    { id, seq := last.seq, row_hash := last.row_hash
      signature := hex (signer.sign (checkpoint_message last.seq last.row_hash))
      key_id := signer.key_id }

/-! ## Writers and transactions -/

/-- What is appended: `append_durable` stamps the record each time it tries,
`_splice_record_durable` keeps the actor's. -/
inductive Append where
  | durable (actor action target : String) (before_state : Dict) (result : String)
  | splice (record : AuditRecord)
  deriving DecidableEq

/-- The record a try makes on the head it has read. -/
def Append.record (blake3 : ByteArray → String) (a : Append) (head : String) (now : Timestamp) :
    AuditRecord :=
  match a with
  | .durable actor action target before_state result =>
    make_record blake3 head now.isoformat actor action target before_state result
  | .splice record => rechain blake3 record head

/-- `_MAX_APPEND_RETRIES`. -/
def MAX_APPEND_RETRIES : ℕ := 8

/-- Where a transaction's writer stands in the retry loop; `tries` are left. -/
inductive Writer where
  | idle
  | loading (a : Append) (tries : ℕ)
  | loaded (a : Append) (tries : ℕ) (head : String)
  | inserting (a : Append) (tries : ℕ) (row : AuditRow)
  deriving DecidableEq

/-- The databases the store supports. -/
inductive Database where
  | postgresql
  | sqlite
  deriving DecidableEq

/-- The table, the rows of open transactions with their owner, the sequence, the
write lock of SQLite, the writers. -/
structure Store where
  committed : List AuditRow
  pending : List (ℕ × AuditRow)
  checkpoints : List CheckpointRow
  pending_checkpoints : List (ℕ × CheckpointRow)
  next_seq : ℕ
  next_checkpoint : ℕ
  lock : Option ℕ
  writer : ℕ → Writer

/-- The part of a tagged list that belongs to a transaction. -/
def owned {α : Type} (tx : ℕ) (rows : List (ℕ × α)) : List α :=
  (rows.filter fun p => p.1 = tx).map Prod.snd

/-- The part that does not. -/
def others {α : Type} (tx : ℕ) (rows : List (ℕ × α)) : List (ℕ × α) :=
  rows.filter fun p => p.1 ≠ tx

/-- What a transaction reads: the committed rows and its own. -/
def Store.visible (s : Store) (tx : ℕ) : List AuditRow := s.committed ++ owned tx s.pending

/-- Every row in the table, seen or not. -/
def Store.rows (s : Store) : List AuditRow := s.committed ++ s.pending.map Prod.snd

/-- `load_head`. -/
def Store.load_head (s : Store) (tx : ℕ) : String :=
  ((last_row (s.visible tx)).map AuditRow.row_hash).getD GENESIS_HASH

/-- SQLite's number for a new row: one more than the largest. -/
def next_rowid (rows : List AuditRow) : ℕ := (rows.map AuditRow.seq).foldr max 0 + 1

/-- The sequence number an `INSERT` draws: the next of the sequence, or one more
than the largest in the table. -/
def Store.draw_seq (db : Database) (s : Store) (tx : ℕ) : ℕ :=
  match db with
  | .postgresql => s.next_seq
  | .sqlite => next_rowid (s.visible tx)

/-- Two rows that a constraint keeps apart: the primary key, the unique
`prev_hash`, the unique `row_hash`. -/
def clash (a b : AuditRow) : Bool :=
  a.seq = b.seq ∨ a.prev_hash = b.prev_hash ∨ a.row_hash = b.row_hash

/-- What can happen in the store. -/
inductive StoreLabel where
  /-- a transaction starts an append -/
  | call (tx : ℕ) (a : Append)
  /-- it reads the head -/
  | load (tx : ℕ)
  /-- it starts the `INSERT` of a record stamped `now` -/
  | insert (tx : ℕ) (now : Timestamp)
  /-- the `INSERT` succeeds and the append returns -/
  | inserted (tx : ℕ) (a : Append) (row : AuditRow)
  /-- `IntegrityError`: the savepoint is rolled back and the loop goes on -/
  | conflict (tx : ℕ)
  /-- the append raises: no try is left, or the database refuses the statement -/
  | raised (tx : ℕ)
  /-- `write_checkpoint` -/
  | checkpoint (tx : ℕ)
  | commit (tx : ℕ)
  | rollback (tx : ℕ)
  deriving DecidableEq

/-- The writers with one entry changed. -/
def set_writer (writer : ℕ → Writer) (tx : ℕ) (w : Writer) : ℕ → Writer :=
  fun i => if i = tx then w else writer i

/-- `INSERT` starts: a number is drawn; on SQLite the write lock is taken. -/
def insert_step (blake3 : ByteArray → String) (db : Database) (s : Store) (tx : ℕ)
    (now : Timestamp) : Option Store :=
  match s.writer tx with
  | .loaded a tries head =>
    if db = .sqlite ∧ s.lock ≠ none ∧ s.lock ≠ some tx then none
    else
      let row := row_from_record (s.draw_seq db tx) (a.record blake3 head now)
      some { s with
        next_seq := if db = .postgresql then s.next_seq + 1 else s.next_seq
        lock := if db = .sqlite then some tx else s.lock
        writer := set_writer s.writer tx (.inserting a tries row) }
  | _ => none

/-- The `INSERT` succeeds when nothing in the table clashes. -/
def inserted_step (s : Store) (tx : ℕ) (a : Append) (row : AuditRow) : Option Store :=
  match s.writer tx with
  | .inserting a' _ row' =>
    if a' = a ∧ row' = row ∧ ¬s.rows.any (clash row) then
      some { s with pending := s.pending ++ [(tx, row)], writer := set_writer s.writer tx .idle }
    else none
  | _ => none

/-- The `INSERT` fails when a row clashes that is committed or the transaction's
own. Another transaction's open row only makes it wait. -/
def conflict_step (s : Store) (tx : ℕ) : Option Store :=
  match s.writer tx with
  | .inserting a tries row =>
    if (s.visible tx).any (clash row) then
      some { s with writer := set_writer s.writer tx (.loading a (tries - 1)) }
    else none
  | _ => none

/-- The end of a transaction, keeping its rows or not. -/
def end_transaction (s : Store) (tx : ℕ) (keep : Bool) : Store :=
  { s with
    committed := if keep then s.committed ++ owned tx s.pending else s.committed
    pending := others tx s.pending
    checkpoints := if keep then s.checkpoints ++ owned tx s.pending_checkpoints else s.checkpoints
    pending_checkpoints := others tx s.pending_checkpoints
    lock := if s.lock = some tx then none else s.lock
    writer := set_writer s.writer tx .idle }

/-- One step of the store. -/
def store_step (blake3 : ByteArray → String) (signer : CheckpointSigner) (db : Database)
    (s : Store) : StoreLabel → Option Store
  | .call tx a =>
    if s.writer tx = .idle then
      some { s with writer := set_writer s.writer tx (.loading a MAX_APPEND_RETRIES) }
    else none
  | .load tx =>
    match s.writer tx with
    | .loading a (tries + 1) =>
      some { s with writer := set_writer s.writer tx (.loaded a (tries + 1) (s.load_head tx)) }
    | _ => none
  | .insert tx now => insert_step blake3 db s tx now
  | .inserted tx a row => inserted_step s tx a row
  | .conflict tx => conflict_step s tx
  | .raised tx =>
    if s.writer tx = .idle then none
    else some { s with writer := set_writer s.writer tx .idle }
  | .checkpoint tx =>
    if s.writer tx = .idle then
      match write_checkpoint signer s.next_checkpoint (s.visible tx) with
      | none => some s
      | some cp => some { s with
          pending_checkpoints := s.pending_checkpoints ++ [(tx, cp)]
          next_checkpoint := s.next_checkpoint + 1 }
    else none
  | .commit tx => if s.writer tx = .idle then some (end_transaction s tx true) else none
  | .rollback tx => some (end_transaction s tx false)

/-- The store, from the empty tables on. -/
def store (blake3 : ByteArray → String) (signer : CheckpointSigner) (db : Database) :
    System Store StoreLabel where
  init := fun s => s = ⟨[], [], [], [], 1, 1, none, fun _ => .idle⟩
  step := store_step blake3 signer db

/-! ## Rows as a chain -/

section

variable {blake3 : ByteArray → String} {signer : CheckpointSigner} {db : Database}

/-- The hash a row ought to carry, computed from what it loads back as. -/
def row_link (blake3 : ByteArray → String) (g : String) (row : AuditRow) : String :=
  (row.reload.map fun record => compute_row_hash blake3 g (record_payload record)).getD ""

/-- The rows are a chain from `g` on. -/
abbrev LinkedRows (blake3 : ByteArray → String) (g : String) (rows : List AuditRow) : Prop :=
  Chain.Linked AuditRow.prev_hash AuditRow.row_hash (row_link blake3) g rows

/-- The hash the next row has to name. -/
abbrev head_of (rows : List AuditRow) : String := Chain.tip AuditRow.row_hash GENESIS_HASH rows

/-- A row that an append made, on some head at some time. -/
def Made (blake3 : ByteArray → String) (a : Append) (row : AuditRow) : Prop :=
  ∃ seq head now, row = row_from_record seq (a.record blake3 head now)

variable {row : AuditRow} {rows : List AuditRow} {label : StoreLabel} {tr : List StoreLabel}

theorem Made.reload {a : Append} (h : Made blake3 a row) :
    ∃ head now, row.reload = some (a.record blake3 head now) := by
  rcases h with ⟨seq, head, now, rfl⟩
  exact ⟨head, now, reload_row_from_record seq _⟩

/-- A row that an append made is linked to the head it was made on. -/
theorem Made.linked {a : Append} (h : Made blake3 a row) : row.row_hash = row_link blake3 row.prev_hash row := by
  rcases h with ⟨seq, head, now, rfl⟩
  rw [row_link, reload_row_from_record, Option.map_some, Option.getD_some]
  rcases a with ⟨actor, action, target, before_state, result⟩ | ⟨record⟩ <;> rfl

/-- A chain of rows that all load back is a chain of records. -/
theorem LinkedRows.reload {g : String} (h : LinkedRows blake3 g rows)
    (hloads : ∀ r ∈ rows, ∃ record, r.reload = some record) :
    ∃ records, rows.mapM AuditRow.reload = some records ∧ LinkedRecords blake3 g records := by
  induction rows generalizing g with
  | nil => exact ⟨[], rfl, trivial⟩
  | cons row rows ih =>
      rcases hloads row (List.mem_cons_self ..) with ⟨record, hrecord⟩
      rcases ih h.2.2 (fun r hr => hloads r (List.mem_cons_of_mem _ hr)) with ⟨records, hrec, hlink⟩
      have hrow := h.2.1
      rw [row_link, hrecord, Option.map_some, Option.getD_some] at hrow
      -- the record has the row's two hashes
      have hhash : record.prev_hash = row.prev_hash ∧ record.row_hash = row.row_hash := by
        unfold AuditRow.reload at hrecord
        split at hrecord
        · rw [← Option.some.inj hrecord]
          exact ⟨rfl, rfl⟩
        · exact absurd hrecord (by simp)
      refine ⟨record :: records, by rw [List.mapM_cons, hrecord, hrec]; rfl, ?_, ?_, ?_⟩
      · rw [hhash.1]
        exact h.1
      · rw [hhash.2]
        exact hrow
      · rw [hhash.2]
        exact hlink

/-- Strictly increasing sequence numbers. -/
abbrev SeqSorted (rows : List AuditRow) : Prop := rows.Pairwise fun a b => a.seq < b.seq

theorem SeqSorted.sort_eq (h : SeqSorted rows) : rows.insertionSort seq_le = rows :=
  List.Pairwise.insertionSort_eq (h.imp fun hab => Nat.le_of_lt hab)

theorem SeqSorted.last_row (h : SeqSorted rows) : last_row rows = rows.getLast? := by
  rw [Audit.last_row, h.sort_eq]

variable {s t : Store} {tx tx' : ℕ}

/-! ## Owners -/

theorem owned_snoc_other {α : Type} (rows : List (ℕ × α)) (row : α) (h : tx' ≠ tx) :
    owned tx' (rows ++ [(tx, row)]) = owned tx' rows := by
  simp [owned, List.filter_append, Ne.symm h]

theorem owned_others {α : Type} (rows : List (ℕ × α)) (h : tx' ≠ tx) : owned tx' (others tx rows) = owned tx' rows := by
  unfold owned others
  rw [List.filter_filter]
  congr 1
  apply List.filter_congr
  intro p _
  by_cases hp : p.1 = tx'
  · simp [hp, h]
  · simp [hp]

/-- When all rows have one owner, a transaction owns all of them or none. -/
theorem one_owner_cases {α : Type} {rows : List (ℕ × α)} (h : ∀ p ∈ rows, ∀ q ∈ rows, p.1 = q.1) (tx : ℕ) :
    (owned tx rows = rows.map Prod.snd ∧ others tx rows = []) ∨ (owned tx rows = [] ∧ others tx rows = rows) := by
  by_cases hex : ∃ p ∈ rows, p.1 = tx
  · rcases hex with ⟨p, hp, hptx⟩
    have hall : ∀ q ∈ rows, q.1 = tx := fun q hq => by rw [← h p hp q hq, hptx]
    left
    constructor
    · rw [owned, List.filter_eq_self.mpr fun q hq => by simpa using hall q hq]
    · rw [others, List.filter_eq_nil_iff]
      intro q hq
      simpa using hall q hq
  · have hnone : ∀ q ∈ rows, q.1 ≠ tx := fun q hq hqtx => hex ⟨q, hq, hqtx⟩
    right
    constructor
    · rw [owned, List.filter_eq_nil_iff.mpr fun q hq => by simpa using hnone q hq, List.map_nil]
    · rw [others, List.filter_eq_self]
      intro q hq
      simpa using hnone q hq

/-! ## The invariant -/

/-- What holds of the table. -/
structure TableInv (blake3 : ByteArray → String) (db : Database) (s : Store) : Prop where
  linked : LinkedRows blake3 GENESIS_HASH s.rows
  sorted : SeqSorted s.rows
  unique : (s.rows.map AuditRow.row_hash).Nodup
  loads : ∀ r ∈ s.rows, ∃ record, r.reload = some record
  positive : ∀ r ∈ s.rows, 0 < r.seq
  one_owner : ∀ p ∈ s.pending, ∀ q ∈ s.pending, p.1 = q.1
  counter : db = .postgresql → 0 < s.next_seq ∧ ∀ r ∈ s.rows, r.seq < s.next_seq
  contiguous : db = .sqlite → s.rows.map AuditRow.seq = List.range' 1 s.rows.length

/-- A hash that a committed row already names: an append on it will clash. -/
def Stale (s : Store) (head : String) : Prop := ∃ r ∈ s.committed, r.prev_hash = head

/-- What holds of a writer of `tx` that stands at `w`: the head it read is still
the head, or is stale; and the same of the row it inserts. -/
def WriterInv (blake3 : ByteArray → String) (db : Database) (s : Store) (tx : ℕ) : Writer → Prop
  | .idle => True
  | .loading _ _ => True
  | .loaded _ _ head => head = head_of (s.visible tx) ∨ Stale s head
  | .inserting a _ row =>
    Made blake3 a row ∧ 0 < row.seq ∧ (db = .postgresql → row.seq < s.next_seq) ∧
      ((row.prev_hash = head_of (s.visible tx) ∧ (∀ r ∈ s.visible tx, r.seq < row.seq) ∧
          (db = .sqlite → row.seq = next_rowid (s.visible tx))) ∨
        Stale s row.prev_hash)

/-- The invariant of the store. -/
structure StoreInv (blake3 : ByteArray → String) (db : Database) (s : Store) : Prop where
  table : TableInv blake3 db s
  writers : ∀ tx, WriterInv blake3 db s tx (s.writer tx)

theorem set_writer_same (writer : ℕ → Writer) (tx : ℕ) (w : Writer) : set_writer writer tx w tx = w := by
  rw [set_writer, if_pos rfl]

theorem set_writer_other (writer : ℕ → Writer) (w : Writer) (h : tx' ≠ tx) :
    set_writer writer tx w tx' = writer tx' := by
  rw [set_writer, if_neg h]

theorem mem_visible_rows {r : AuditRow} (h : r ∈ s.visible tx) : r ∈ s.rows := by
  rcases List.mem_append.mp h with h | h
  · exact List.mem_append_left _ h
  · rcases List.mem_map.mp h with ⟨p, hp, rfl⟩
    exact List.mem_append_right _ (List.mem_map_of_mem (List.mem_of_mem_filter hp))

/-- What a transaction sees is the committed rows, or all rows. -/
theorem TableInv.visible_cases (h : TableInv blake3 db s) (tx : ℕ) :
    (owned tx s.pending = s.pending.map Prod.snd ∧ others tx s.pending = [] ∧ s.visible tx = s.rows) ∨
      (owned tx s.pending = [] ∧ others tx s.pending = s.pending ∧ s.visible tx = s.committed) := by
  rcases one_owner_cases h.one_owner tx with ⟨ho, hn⟩ | ⟨ho, hn⟩
  · exact Or.inl ⟨ho, hn, by rw [Store.visible, ho, Store.rows]⟩
  · exact Or.inr ⟨ho, hn, by rw [Store.visible, ho, List.append_nil]⟩

/-- `load_head` reads the tip of what the transaction sees. -/
theorem TableInv.load_head (h : TableInv blake3 db s) (tx : ℕ) : s.load_head tx = head_of (s.visible tx) := by
  have hsorted : SeqSorted (s.visible tx) := by
    rcases h.visible_cases tx with ⟨-, -, hv⟩ | ⟨-, -, hv⟩
    · rw [hv]
      exact h.sorted
    · rw [hv]
      exact (List.pairwise_append.mp h.sorted).1
  rw [Store.load_head, hsorted.last_row]
  rfl

theorem le_foldr_max {l : List ℕ} {n : ℕ} (h : n ∈ l) : n ≤ l.foldr max 0 := by
  induction l with
  | nil => exact absurd h (by simp)
  | cons m l ih =>
      rw [List.foldr_cons]
      rcases List.mem_cons.mp h with rfl | h
      · exact le_max_left _ _
      · exact le_trans (ih h) (le_max_right _ _)

/-- A drawn number is above every row the transaction sees. -/
theorem TableInv.draw_seq (h : TableInv blake3 db s) (tx : ℕ) :
    0 < s.draw_seq db tx ∧ ∀ r ∈ s.visible tx, r.seq < s.draw_seq db tx := by
  rcases db with _ | _
  · refine ⟨(h.counter rfl).1, fun r hr => (h.counter rfl).2 r (mem_visible_rows hr)⟩
  · refine ⟨Nat.succ_pos _, fun r hr => ?_⟩
    exact Nat.lt_succ_of_le (le_foldr_max (List.mem_map_of_mem hr))

/-- The next number of a table numbered from one without a gap. -/
theorem next_rowid_contiguous (h : rows.map AuditRow.seq = List.range' 1 rows.length) :
    next_rowid rows = rows.length + 1 := by
  have hmax : ∀ n, (List.range' 1 n).foldr max 0 = n := by
    intro n
    apply le_antisymm
    · have hle : ∀ l : List ℕ, (∀ m ∈ l, m ≤ n) → l.foldr max 0 ≤ n := by
        intro l hl
        induction l with
        | nil => exact Nat.zero_le n
        | cons m l ih =>
            rw [List.foldr_cons]
            exact max_le (hl m (List.mem_cons_self ..))
              (ih fun k hk => hl k (List.mem_cons_of_mem _ hk))
      apply hle
      intro m hm
      rw [List.mem_range'_1] at hm
      omega
    · rcases Nat.eq_zero_or_pos n with rfl | hn
      · exact le_refl 0
      · exact le_foldr_max (List.mem_range'_1.mpr ⟨hn, by omega⟩)
  rw [next_rowid, h, hmax]

/-- A writer that is left alone keeps its invariant while what it sees stays, or
its head goes stale. -/
theorem WriterInv.mono {w : Writer} (h : WriterInv blake3 db s tx w)
    (hc : ∀ r ∈ s.committed, r ∈ t.committed) (hn : s.next_seq ≤ t.next_seq)
    (hv : t.visible tx = s.visible tx ∨ Stale t (head_of (s.visible tx))) : WriterInv blake3 db t tx w := by
  have hstale : ∀ head, Stale s head → Stale t head := by
    rintro head ⟨r, hr, hhead⟩
    exact ⟨r, hc r hr, hhead⟩
  rcases w with _ | _ | ⟨a, tries, head⟩ | ⟨a, tries, row⟩
  · exact h
  · exact h
  · rcases h with h | h
    · rcases hv with hv | hv
      · exact Or.inl (by rw [hv]; exact h)
      · exact Or.inr (by rw [h]; exact hv)
    · exact Or.inr (hstale head h)
  · rcases h with ⟨hmade, hpos, hcounter, hfits⟩
    refine ⟨hmade, hpos, fun hdb => lt_of_lt_of_le (hcounter hdb) hn, ?_⟩
    rcases hfits with ⟨hprev, hseq, hrow⟩ | hfits
    · rcases hv with hv | hv
      · refine Or.inl ⟨by rw [hv]; exact hprev, ?_, ?_⟩
        · rw [hv]
          exact hseq
        · rw [hv]
          exact hrow
      · exact Or.inr (by rw [hprev]; exact hv)
    · exact Or.inr (hstale _ hfits)

/-- A step that leaves the rows alone and moves one writer. -/
theorem StoreInv.move {w : Writer} (h : StoreInv blake3 db s) (hc : t.committed = s.committed)
    (hp : t.pending = s.pending) (hn : s.next_seq ≤ t.next_seq)
    (hw : t.writer = set_writer s.writer tx w) (hok : WriterInv blake3 db t tx w) : StoreInv blake3 db t := by
  have hrows : t.rows = s.rows := by rw [Store.rows, Store.rows, hc, hp]
  have hvis : ∀ tx', t.visible tx' = s.visible tx' := fun tx' => by
    rw [Store.visible, Store.visible, hc, hp]
  refine ⟨?_, ?_⟩
  · have ht := h.table
    refine ⟨?_, ?_, ?_, ?_, ?_, ?_, ?_, ?_⟩
    · rw [hrows]
      exact ht.linked
    · rw [hrows]
      exact ht.sorted
    · rw [hrows]
      exact ht.unique
    · rw [hrows]
      exact ht.loads
    · rw [hrows]
      exact ht.positive
    · rw [hp]
      exact ht.one_owner
    · intro hdb
      rw [hrows]
      refine ⟨lt_of_lt_of_le (ht.counter hdb).1 hn, fun r hr => ?_⟩
      exact lt_of_lt_of_le ((ht.counter hdb).2 r hr) hn
    · rw [hrows]
      exact ht.contiguous
  · intro tx'
    rw [hw]
    by_cases htx : tx' = tx
    · rw [htx, set_writer_same]
      exact hok
    · rw [set_writer_other _ _ htx]
      exact (h.writers tx').mono (by rw [hc]; exact fun r hr => hr) hn (Or.inl (hvis tx'))

/-- **A successful `INSERT` extends the chain.** The row is not stale, or a
committed row would clash; so it names the tip of what its transaction sees. If
another transaction had open rows, the first of them would name that tip too and
clash; so what the transaction sees is every row there is. -/
theorem StoreInv.inserted {a : Append} {tries : ℕ} (h : StoreInv blake3 db s)
    (hw : s.writer tx = .inserting a tries row) (hclash : ∀ r ∈ s.rows, clash row r = false) :
    StoreInv blake3 db
      { s with pending := s.pending ++ [(tx, row)], writer := set_writer s.writer tx .idle } := by
  have ht := h.table
  have hwriter := h.writers tx
  rw [hw] at hwriter
  rcases hwriter with ⟨hmade, hpos, hcounter, hfits⟩
  have hno : ∀ r ∈ s.rows, r.prev_hash ≠ row.prev_hash ∧ r.row_hash ≠ row.row_hash := by
    intro r hr
    have hcl := hclash r hr
    simp only [clash, decide_eq_false_iff_not, not_or] at hcl
    exact ⟨Ne.symm hcl.2.1, Ne.symm hcl.2.2⟩
  -- the row is not stale
  have hfits : row.prev_hash = head_of (s.visible tx) ∧ (∀ r ∈ s.visible tx, r.seq < row.seq) ∧
      (db = .sqlite → row.seq = next_rowid (s.visible tx)) := by
    rcases hfits with hfits | ⟨r, hr, hprev⟩
    · exact hfits
    · exact absurd hprev (hno r (List.mem_append_left _ hr)).1
  -- no other transaction has open rows
  have hvis : s.visible tx = s.rows ∧ owned tx s.pending = s.pending.map Prod.snd := by
    rcases ht.visible_cases tx with ⟨ho, -, hv⟩ | ⟨ho, -, hv⟩
    · exact ⟨hv, ho⟩
    · by_cases hemp : s.pending = []
      · rw [hv, Store.rows, hemp]
        exact ⟨(List.append_nil _).symm, rfl⟩
      · have hlinked := ht.linked
        rw [Store.rows] at hlinked
        rcases hlinked.head_prev (by simpa using hemp) with ⟨r, hr, hprev⟩
        refine absurd ?_ (hno r (List.mem_append_right _ hr)).1
        rw [hprev, hfits.1, hv]
  rw [hvis.1] at hfits
  have hrows : s.committed ++ (s.pending ++ [(tx, row)]).map Prod.snd = s.rows ++ [row] := by
    rw [List.map_append, ← List.append_assoc, Store.rows]
    rfl
  have hmem : ∀ r ∈ s.rows ++ [row], r ∈ s.rows ∨ r = row := by
    intro r hr
    rcases List.mem_append.mp hr with hr | hr
    · exact Or.inl hr
    · exact Or.inr (List.mem_singleton.mp hr)
  refine ⟨⟨?_, ?_, ?_, ?_, ?_, ?_, ?_, ?_⟩, ?_⟩
  · rw [Store.rows, hrows]
    refine Chain.linked_snoc.mpr ⟨ht.linked, hfits.1, ?_⟩
    rw [hmade.linked, hfits.1]
  · rw [Store.rows, hrows, SeqSorted, List.pairwise_append]
    refine ⟨ht.sorted, List.pairwise_singleton _ _, ?_⟩
    intro r hr r' hr'
    rw [List.mem_singleton.mp hr']
    exact hfits.2.1 r hr
  · rw [Store.rows, hrows, List.map_append, List.map_singleton, List.nodup_append]
    refine ⟨ht.unique, List.nodup_singleton _, ?_⟩
    intro x hx y hy hxy
    rcases List.mem_map.mp hx with ⟨r, hr, rfl⟩
    rw [List.mem_singleton.mp hy] at hxy
    exact (hno r hr).2 hxy
  · rw [Store.rows, hrows]
    intro r hr
    rcases hmem r hr with hr | rfl
    · exact ht.loads r hr
    · rcases hmade.reload with ⟨head, now, hrel⟩
      exact ⟨_, hrel⟩
  · rw [Store.rows, hrows]
    intro r hr
    rcases hmem r hr with hr | rfl
    · exact ht.positive r hr
    · exact hpos
  · -- every open row is this transaction's
    have hmine : ∀ p ∈ s.pending ++ [(tx, row)], p.1 = tx := by
      intro p hp
      rcases List.mem_append.mp hp with hp | hp
      · by_contra hne
        have hlen := congrArg List.length hvis.2
        rw [owned, List.length_map, List.length_map, List.length_filter_eq_length_iff] at hlen
        exact hne (by simpa using hlen p hp)
      · rw [List.mem_singleton.mp hp]
    intro p hp q hq
    rw [hmine p hp, hmine q hq]
  · rw [Store.rows, hrows]
    intro hdb
    refine ⟨(ht.counter hdb).1, fun r hr => ?_⟩
    rcases hmem r hr with hr | rfl
    · exact (ht.counter hdb).2 r hr
    · exact hcounter hdb
  · rw [Store.rows, hrows]
    intro hdb
    have hseq := ht.contiguous hdb
    rw [List.map_append, List.map_singleton, hseq, hfits.2.2 hdb, next_rowid_contiguous hseq,
      List.length_append, List.length_singleton, List.range'_concat, Nat.one_mul, Nat.add_comm 1]
  · intro tx'
    by_cases htx : tx' = tx
    · rw [htx]
      dsimp only
      rw [set_writer_same]
      trivial
    · dsimp only
      rw [set_writer_other _ _ htx]
      refine (h.writers tx').mono (fun r hr => hr) (le_refl _) (Or.inl ?_)
      rw [Store.visible, owned_snoc_other _ _ htx, Store.visible]

/-- A commit of rows makes the head that any other transaction sees stale: the committing
transaction owned every open row, so the other saw none. -/
theorem TableInv.commit_stale (ht : TableInv blake3 db s) (htx : tx' ≠ tx) (hown : owned tx s.pending ≠ []) :
    Stale (end_transaction s tx true) (head_of (s.visible tx')) := by
  have hvis : s.visible tx' = s.committed ∧ owned tx s.pending = s.pending.map Prod.snd := by
    rcases ht.visible_cases tx with ⟨ho, hn, -⟩ | ⟨ho, -, -⟩
    · refine ⟨?_, ho⟩
      rw [Store.visible, ← owned_others _ htx, hn]
      exact List.append_nil _
    · exact absurd ho hown
  have hl := ht.linked
  rw [Store.rows, ← hvis.2] at hl
  rcases hl.head_prev hown with ⟨r, hr, hprev⟩
  refine ⟨r, ?_, by rw [hprev, hvis.1]⟩
  rw [end_transaction]
  exact List.mem_append_right _ hr

/-- The end of a transaction, either way, keeps the invariant. A commit of rows
makes the head every other transaction has read stale. -/
theorem StoreInv.ended (h : StoreInv blake3 db s) (tx : ℕ) (keep : Bool) :
    StoreInv blake3 db (end_transaction s tx keep) := by
  have ht := h.table
  -- the rows that remain are the old ones, or the committed ones
  have hrows : (end_transaction s tx keep).rows <+: s.rows := by
    rw [Store.rows, Store.rows, end_transaction]
    rcases ht.visible_cases tx with ⟨ho, hn, -⟩ | ⟨ho, hn, -⟩ <;> rw [ho, hn] <;>
      rcases keep with _ | _ <;> simp
  have hsub : ∀ r ∈ (end_transaction s tx keep).rows, r ∈ s.rows := fun r hr => hrows.subset hr
  refine ⟨⟨?_, ?_, ?_, ?_, ?_, ?_, ?_, ?_⟩, ?_⟩
  · rcases hrows with ⟨rest, hrest⟩
    have hl := ht.linked
    rw [← hrest] at hl
    exact (Chain.linked_append.mp hl).1
  · exact ht.sorted.sublist hrows.sublist
  · exact ht.unique.sublist (hrows.sublist.map _)
  · exact fun r hr => ht.loads r (hsub r hr)
  · exact fun r hr => ht.positive r (hsub r hr)
  · intro p hp q hq
    exact ht.one_owner p (List.mem_of_mem_filter hp) q (List.mem_of_mem_filter hq)
  · intro hdb
    exact ⟨(ht.counter hdb).1, fun r hr => (ht.counter hdb).2 r (hsub r hr)⟩
  · intro hdb
    have hseq := ht.contiguous hdb
    have htake := List.prefix_iff_eq_take.mp hrows
    have hlen := hrows.length_le
    rw [htake, List.map_take, hseq, List.take_range'_of_length_ge hlen, List.length_take,
      Nat.min_eq_left hlen]
  · intro tx'
    by_cases htx : tx' = tx
    · rw [htx, end_transaction]
      dsimp only
      rw [set_writer_same]
      trivial
    · have hwriter : (end_transaction s tx keep).writer tx' = s.writer tx' := by
        rw [end_transaction]
        exact set_writer_other _ _ htx
      rw [hwriter]
      refine (h.writers tx').mono ?_ (le_refl _) ?_
      · intro r hr
        rw [end_transaction]
        rcases keep with _ | _
        · exact hr
        · exact List.mem_append_left _ hr
      · rcases keep with _ | _
        · left
          rw [Store.visible, Store.visible, end_transaction]
          dsimp only
          rw [owned_others _ htx, if_neg (by simp)]
        · by_cases hown : owned tx s.pending = []
          · left
            rw [Store.visible, Store.visible, end_transaction]
            dsimp only
            rw [owned_others _ htx, if_pos rfl, hown, List.append_nil]
          · exact Or.inr (ht.commit_stale htx hown)

/-- One step keeps the invariant. -/
theorem StoreInv.step (h : StoreInv blake3 db s) (hstep : store_step blake3 signer db s label = some t) :
    StoreInv blake3 db t := by
  rcases label with ⟨tx, a⟩ | tx | ⟨tx, now⟩ | ⟨tx, a, row⟩ | tx | tx | tx | tx | tx
  · rw [store_step] at hstep
    split_ifs at hstep
    rw [← Option.some.inj hstep]
    exact h.move rfl rfl (le_refl _) rfl trivial
  · rw [store_step] at hstep
    split at hstep
    · rw [← Option.some.inj hstep]
      exact h.move rfl rfl (le_refl _) rfl (Or.inl (h.table.load_head tx))
    · exact absurd hstep (by simp)
  · rw [store_step, insert_step] at hstep
    split at hstep
    · rename_i a tries head hw
      by_cases hlock : db = .sqlite ∧ s.lock ≠ none ∧ s.lock ≠ some tx
      · rw [if_pos hlock] at hstep
        exact absurd hstep (by simp)
      rw [if_neg hlock] at hstep
      rw [← Option.some.inj hstep]
      have hdraw := h.table.draw_seq tx
      have hhead := h.writers tx
      rw [hw] at hhead
      refine h.move rfl rfl ?_ rfl ⟨⟨_, head, now, rfl⟩, hdraw.1, ?_, ?_⟩
      · dsimp only
        split_ifs
        · exact Nat.le_succ _
        · exact le_refl _
      · intro hdb
        subst hdb
        dsimp only [row_from_record]
        rw [if_pos rfl]
        exact Nat.lt_succ_self _
      · have hprev : (row_from_record (s.draw_seq db tx) (a.record blake3 head now)).prev_hash
            = head := by
          rcases a with ⟨actor, action, target, before_state, result⟩ | ⟨record⟩ <;> rfl
        rw [hprev]
        rcases hhead with hhead | hhead
        · refine Or.inl ⟨hhead, hdraw.2, fun hdb => ?_⟩
          subst hdb
          rfl
        · exact Or.inr hhead
    · exact absurd hstep (by simp)
  · rw [store_step, inserted_step] at hstep
    split at hstep
    · rename_i a' tries row' hw
      split_ifs at hstep with hc
      rcases hc with ⟨rfl, rfl, hclash⟩
      rw [← Option.some.inj hstep]
      exact h.inserted hw fun r hr => by simpa using List.any_eq_false.mp (by simpa using hclash) r hr
    · exact absurd hstep (by simp)
  · rw [store_step, conflict_step] at hstep
    split at hstep
    · split_ifs at hstep
      rw [← Option.some.inj hstep]
      exact h.move rfl rfl (le_refl _) rfl trivial
    · exact absurd hstep (by simp)
  · rw [store_step] at hstep
    split_ifs at hstep
    rw [← Option.some.inj hstep]
    exact h.move rfl rfl (le_refl _) rfl trivial
  · rw [store_step] at hstep
    split_ifs at hstep with hidle
    have hsame : s.writer = set_writer s.writer tx .idle := by
      funext i
      by_cases hi : i = tx
      · rw [hi, set_writer_same, hidle]
      · rw [set_writer_other _ _ hi]
    split at hstep
    · rw [← Option.some.inj hstep]
      exact h
    · rw [← Option.some.inj hstep]
      exact h.move rfl rfl (le_refl _) hsame trivial
  · rw [store_step] at hstep
    split_ifs at hstep
    rw [← Option.some.inj hstep]
    exact h.ended tx true
  · rw [store_step] at hstep
    rw [← Option.some.inj hstep]
    exact h.ended tx false

/-- The invariant holds in every state a run reaches. -/
theorem store_inv (h : (store blake3 signer db).Trace tr s) : StoreInv blake3 db s := by
  refine h.invariant (I := StoreInv blake3 db) ?_ fun s label t hinv hstep => hinv.step hstep
  intro s hs
  rw [show s = _ from hs]
  refine ⟨⟨trivial, List.Pairwise.nil, List.nodup_nil, ?_, ?_, ?_, ?_, fun _ => rfl⟩,
    fun tx => trivial⟩
  · simp [Store.rows]
  · simp [Store.rows]
  · simp
  · intro _
    exact ⟨Nat.one_pos, by simp [Store.rows]⟩

/-! ## The history of a run -/

/-- What became of a row. -/
inductive Fate where
  | still_open
  | committed
  | rolled_back
  deriving DecidableEq

/-- What the labels after an append do to its transaction: the first end of it
decides. -/
def fate (tx : ℕ) : List StoreLabel → Fate
  | [] => .still_open
  | .commit tx' :: tr => if tx' = tx then .committed else fate tx tr
  | .rollback tx' :: tr => if tx' = tx then .rolled_back else fate tx tr
  | _ :: tr => fate tx tr

/-- The appends that reported success, in order, with the transaction each ran
in and what became of it. -/
def successes : List StoreLabel → List (ℕ × AuditRow × Fate)
  | [] => []
  | .inserted tx _ row :: tr => (tx, row, fate tx tr) :: successes tr
  | _ :: tr => successes tr

/-- The rows of the successes that met a fate. -/
def with_fate (f : Fate) (entries : List (ℕ × AuditRow × Fate)) : List (ℕ × AuditRow) :=
  (entries.filter fun e => e.2.2 = f).map fun e => (e.1, e.2.1)

/-- The rows of the appends that reported success and were committed. -/
def committed_successes (tr : List StoreLabel) : List AuditRow :=
  (with_fate .committed (successes tr)).map Prod.snd

/-- What one more label does to an entry. -/
def settle (label : StoreLabel) (e : ℕ × AuditRow × Fate) : ℕ × AuditRow × Fate :=
  (e.1, e.2.1, if e.2.2 = .still_open then fate e.1 [label] else e.2.2)

theorem fate_snoc (tx : ℕ) (tr : List StoreLabel) (label : StoreLabel) : fate tx (tr ++ [label]) =
      if fate tx tr = .still_open then fate tx [label] else fate tx tr := by
  induction tr with
  | nil => rw [List.nil_append, fate, if_pos rfl]
  | cons l tr ih =>
      rcases l with _ | _ | _ | _ | _ | _ | _ | tx' | tx'
      case commit =>
        rw [List.cons_append, fate, fate]
        by_cases htx : tx' = tx
        · rw [if_pos htx, if_pos htx, if_neg (by decide)]
        · rw [if_neg htx, if_neg htx, ih]
      case rollback =>
        rw [List.cons_append, fate, fate]
        by_cases htx : tx' = tx
        · rw [if_pos htx, if_pos htx, if_neg (by decide)]
        · rw [if_neg htx, if_neg htx, ih]
      all_goals exact ih

theorem successes_snoc (tr : List StoreLabel) (label : StoreLabel) :
    successes (tr ++ [label]) = (successes tr).map (settle label) ++ successes [label] := by
  induction tr with
  | nil => rfl
  | cons l tr ih =>
      rcases l with _ | _ | _ | ⟨tx, a, row⟩ | _ | _ | _ | _ | _
      case inserted =>
        rw [List.cons_append, successes, successes, ih, fate_snoc]
        rfl
      all_goals exact ih

/-- A label that ends no transaction settles nothing. -/
theorem settle_map (h : ∀ tx, fate tx [label] = .still_open) (entries : List (ℕ × AuditRow × Fate)) :
    entries.map (settle label) = entries := by
  have hid : ∀ e ∈ entries, settle label e = id e := by
    rintro ⟨tx, row, f⟩ -
    by_cases hf : f = .still_open
    · rw [settle, if_pos hf, h, hf, id]
    · rw [settle, if_neg hf, id]
  rw [List.map_congr_left hid, List.map_id]

/-- What a commit does to the entries: the open ones of the transaction join the
committed ones, the other open ones stay. -/
theorem settle_commit (tx : ℕ) (entries : List (ℕ × AuditRow × Fate)) :
    ((with_fate .committed (entries.map (settle (.commit tx)))).map Prod.snd).Perm
        ((with_fate .committed entries).map Prod.snd ++ owned tx (with_fate .still_open entries)) ∧
      with_fate .still_open (entries.map (settle (.commit tx))) = others tx (with_fate .still_open entries) := by
  induction entries with
  | nil => exact ⟨List.Perm.refl _, rfl⟩
  | cons e entries ih =>
      rcases e with ⟨tx', row, _ | _ | _⟩
      · -- an open entry: it is settled when it is of this transaction
        by_cases htx : tx = tx'
        · subst htx
          simp [with_fate, settle, fate, owned, others] at ih ⊢
          exact ⟨(ih.1.cons row).trans (List.perm_middle.symm), ih.2⟩
        · simp [with_fate, settle, fate, owned, others, htx, Ne.symm htx] at ih ⊢
          exact ih
      · simp [with_fate, settle, owned, others] at ih ⊢
        exact ih
      · simp [with_fate, settle, owned, others] at ih ⊢
        exact ih

/-- What a rollback does to the entries. -/
theorem settle_rollback (tx : ℕ) (entries : List (ℕ × AuditRow × Fate)) :
    with_fate .committed (entries.map (settle (.rollback tx))) = with_fate .committed entries ∧
      with_fate .still_open (entries.map (settle (.rollback tx))) = others tx (with_fate .still_open entries) := by
  induction entries with
  | nil => exact ⟨rfl, rfl⟩
  | cons e entries ih =>
      rcases e with ⟨tx', row, _ | _ | _⟩
      · by_cases htx : tx = tx'
        · subst htx
          simp [with_fate, settle, fate, others] at ih ⊢
          exact ih
        · simp [with_fate, settle, fate, others, htx, Ne.symm htx] at ih ⊢
          exact ih
      · simp [with_fate, settle, others] at ih ⊢
        exact ih
      · simp [with_fate, settle, others] at ih ⊢
        exact ih

/-- What ties the table to the history: the committed rows are the committed
successes, the open rows the open ones, and each success is a row its append
made. -/
structure HistoryInv (blake3 : ByteArray → String) (tr : List StoreLabel) (s : Store) : Prop where
  committed : s.committed.Perm (committed_successes tr)
  pending : s.pending = with_fate .still_open (successes tr)
  made : ∀ tx a row, StoreLabel.inserted tx a row ∈ tr → Made blake3 a row

/-- A label that neither appends nor ends a transaction changes neither side. -/
theorem HistoryInv.keep (h : HistoryInv blake3 tr s) (hc : t.committed = s.committed) (hp : t.pending = s.pending)
    (hfate : ∀ tx, fate tx [label] = .still_open) (hsucc : successes [label] = [])
    (hlabel : ∀ tx a row, label ≠ .inserted tx a row) : HistoryInv blake3 (tr ++ [label]) t := by
  have hsame : successes (tr ++ [label]) = successes tr := by
    rw [successes_snoc, settle_map hfate, hsucc, List.append_nil]
  refine ⟨?_, ?_, ?_⟩
  · rw [hc, committed_successes, hsame]
    exact h.committed
  · rw [hp, hsame]
    exact h.pending
  · intro tx a row hmem
    rcases List.mem_append.mp hmem with hmem | hmem
    · exact h.made tx a row hmem
    · exact absurd (List.mem_singleton.mp hmem).symm (hlabel tx a row)

/-- One step keeps the table and the history together. -/
theorem HistoryInv.step (hinv : StoreInv blake3 db s) (h : HistoryInv blake3 tr s)
    (hstep : store_step blake3 signer db s label = some t) : HistoryInv blake3 (tr ++ [label]) t := by
  rcases label with ⟨tx, a⟩ | tx | ⟨tx, now⟩ | ⟨tx, a, row⟩ | tx | tx | tx | tx | tx
  · rw [store_step] at hstep
    split_ifs at hstep
    rw [← Option.some.inj hstep]
    exact h.keep rfl rfl (fun _ => rfl) rfl (by simp)
  · rw [store_step] at hstep
    split at hstep
    · rw [← Option.some.inj hstep]
      exact h.keep rfl rfl (fun _ => rfl) rfl (by simp)
    · exact absurd hstep (by simp)
  · rw [store_step, insert_step] at hstep
    split at hstep
    · by_cases hlock : db = .sqlite ∧ s.lock ≠ none ∧ s.lock ≠ some tx
      · rw [if_pos hlock] at hstep
        exact absurd hstep (by simp)
      · rw [if_neg hlock] at hstep
        rw [← Option.some.inj hstep]
        exact h.keep rfl rfl (fun _ => rfl) rfl (by simp)
    · exact absurd hstep (by simp)
  · rw [store_step, inserted_step] at hstep
    split at hstep
    · rename_i a' tries row' hw
      split_ifs at hstep with hc
      rcases hc with ⟨rfl, rfl, -⟩
      rw [← Option.some.inj hstep]
      have hmade := hinv.writers tx
      rw [hw] at hmade
      have hsnoc : successes (tr ++ [.inserted tx a' row']) =
          successes tr ++ [(tx, row', .still_open)] := by
        rw [successes_snoc, settle_map fun _ => rfl]
        rfl
      refine ⟨?_, ?_, ?_⟩
      · rw [committed_successes, hsnoc, with_fate, List.filter_append, List.map_append,
          List.map_append]
        refine h.committed.trans ?_
        rw [committed_successes, with_fate]
        exact List.Perm.of_eq (List.append_nil _).symm
      · rw [hsnoc, with_fate, List.filter_append, List.map_append, h.pending]
        rfl
      · intro tx' a row hmem
        rcases List.mem_append.mp hmem with hmem | hmem
        · exact h.made tx' a row hmem
        · rcases StoreLabel.inserted.inj (List.mem_singleton.mp hmem) with ⟨-, rfl, rfl⟩
          exact hmade.1
    · exact absurd hstep (by simp)
  · rw [store_step, conflict_step] at hstep
    split at hstep
    · split_ifs at hstep
      rw [← Option.some.inj hstep]
      exact h.keep rfl rfl (fun _ => rfl) rfl (by simp)
    · exact absurd hstep (by simp)
  · rw [store_step] at hstep
    split_ifs at hstep
    rw [← Option.some.inj hstep]
    exact h.keep rfl rfl (fun _ => rfl) rfl (by simp)
  · rw [store_step] at hstep
    split_ifs at hstep
    split at hstep
    · rw [← Option.some.inj hstep]
      exact h.keep rfl rfl (fun _ => rfl) rfl (by simp)
    · rw [← Option.some.inj hstep]
      exact h.keep rfl rfl (fun _ => rfl) rfl (by simp)
  · rw [store_step] at hstep
    split_ifs at hstep
    rw [← Option.some.inj hstep]
    have hsettle := settle_commit tx (successes tr)
    have hsnoc : successes (tr ++ [.commit tx]) = (successes tr).map (settle (.commit tx)) := by
      rw [successes_snoc]
      exact List.append_nil _
    refine ⟨?_, ?_, ?_⟩
    · rw [committed_successes, hsnoc]
      refine List.Perm.trans ?_ hsettle.1.symm
      rw [← h.pending]
      exact h.committed.append_right _
    · rw [hsnoc, hsettle.2, ← h.pending]
      rfl
    · intro tx' a row hmem
      rcases List.mem_append.mp hmem with hmem | hmem
      · exact h.made tx' a row hmem
      · exact absurd (List.mem_singleton.mp hmem) (by simp)
  · rw [store_step] at hstep
    rw [← Option.some.inj hstep]
    have hsettle := settle_rollback tx (successes tr)
    have hsnoc : successes (tr ++ [.rollback tx]) = (successes tr).map (settle (.rollback tx)) := by
      rw [successes_snoc]
      exact List.append_nil _
    refine ⟨?_, ?_, ?_⟩
    · rw [committed_successes, hsnoc, hsettle.1]
      exact h.committed
    · rw [hsnoc, hsettle.2, ← h.pending]
      rfl
    · intro tx' a row hmem
      rcases List.mem_append.mp hmem with hmem | hmem
      · exact h.made tx' a row hmem
      · exact absurd (List.mem_singleton.mp hmem) (by simp)

theorem history_inv (h : (store blake3 signer db).Trace tr s) : HistoryInv blake3 tr s := by
  refine h.induct (P := HistoryInv blake3) ?_ ?_
  · intro s hs
    rw [show s = _ from hs]
    exact ⟨List.Perm.refl _, rfl, by simp⟩
  · intro tr s label t htr hhist hstep
    exact HistoryInv.step (store_inv htr) hhist hstep

/-- What has been committed verifies when it is loaded back. -/
theorem StoreInv.verify (h : StoreInv blake3 db s) : ∃ records, persisted_records s.committed = some records ∧
      verify_chain blake3 records GENESIS_HASH = true := by
  have hlinked := h.table.linked
  have hsorted := h.table.sorted
  rw [Store.rows] at hlinked hsorted
  rcases LinkedRows.reload (Chain.linked_append.mp hlinked).1
    (fun r hr => h.table.loads r (List.mem_append_left _ hr)) with ⟨records, hrec, hlink⟩
  refine ⟨records, ?_, verify_chain_iff.mpr hlink⟩
  rw [persisted_records, SeqSorted.sort_eq (List.pairwise_append.mp hsorted).1, hrec]

end

/-! ## A race -/

/-- A stand-in digest: the number of bytes. -/
def size_digest (bytes : ByteArray) : String := toString bytes.size

/-- A signer whose signatures are empty. -/
def null_signer : CheckpointSigner where
  key_id := "none"
  sign := fun _ => ByteArray.empty

/-- Noon of the first of March 2024, UTC. -/
def sample_now : Timestamp where
  year := 2024
  month := 3
  day := 1
  hour := 12
  minute := 0
  second := 0
  microsecond := 0
  utcoffset := some 0
  in_range := by decide

/-- An append of a login. -/
def sample_append : Append := .durable "op" "auth.login" "op" [("role", .str "operator")] "ok"

/-- The row of `sample_append` on a head. -/
def sample_row (seq : ℕ) (head : String) : AuditRow :=
  row_from_record seq (sample_append.record size_digest head sample_now)

/-- Two transactions read the same head; the second clashes, reads again and
appends behind the first. -/
def race_run : List StoreLabel :=
  [.call 1 sample_append, .load 1, .call 2 sample_append, .load 2,
    .insert 1 sample_now, .insert 2 sample_now,
    .inserted 1 sample_append (sample_row 1 GENESIS_HASH), .commit 1,
    .conflict 2, .load 2, .insert 2 sample_now,
    .inserted 2 sample_append (sample_row 3 (sample_row 1 GENESIS_HASH).row_hash), .commit 2]

/-- The state `race_run` ends in. -/
def race_end : Option Store :=
  (store size_digest null_signer .postgresql).run
    ⟨[], [], [], [], 1, 1, none, fun _ => .idle⟩ race_run

end Fathom.Audit
