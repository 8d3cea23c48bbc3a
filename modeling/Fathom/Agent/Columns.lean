/-
**An entry through the staging table** (`agent/staging/store.py`, `agent/transport/push.py`): the
columns a staged entry is written to, and the entry the push reads out of them.

`Staging` keeps an entry as it is and looks at rows as a queue. Here an entry has every field and
every value its model accepts, and a row has the columns of the schema: an `INTEGER` holds 64 bits,
a `NaN` is stored as `NULL`, and the flags are a JSON text. Three lists of fields have to agree for
an entry to come back, those of the insert, of the table and of the reader, and none of the three
has the provider's hash. `round_trip_iff` says what else can keep an entry from coming back.

A row is written by `stage_batch` only, so it carries the entry it was written for.
-/
import Fathom.Agent.Drain
import Fathom.Lib.Json

set_option autoImplicit false

namespace Fathom.Columns

open Fathom.Ingest (Identity)

/-! ## Entries -/

/-- A float. -/
inductive PyFloat where
  | nan
  | infinite (negative : Bool)
  | finite (q : ℚ)
  deriving DecidableEq

/-- `FsEntry`. -/
structure FsEntry where
  path : String
  name : String
  is_dir : Bool
  is_symlink : Bool
  size_logical : ℕ
  size_on_disk : ℕ
  mtime : PyFloat
  ctime : PyFloat
  uid : Int
  gid : Int
  inode : Int
  dev : Int
  flags : List (String × Bool)
  provider_hash : Option String
  provider_hash_algo : Option String
  deriving DecidableEq

def FsEntry.identity (e : FsEntry) : Identity := ⟨e.dev, e.inode⟩

/-! ## Columns -/

/-- What an `INTEGER` column holds. -/
structure SqlInt where
  val : Int
  in_range : -(2 ^ 63) ≤ val ∧ val < 2 ^ 63
  deriving DecidableEq

/-- What a `REAL NOT NULL` column holds. -/
structure SqlReal where
  val : PyFloat
  not_nan : val ≠ .nan
  deriving DecidableEq

inductive SqlError where
  /-- `Python int too large to convert to SQLite INTEGER` -/
  | overflow
  /-- `NOT NULL constraint failed` -/
  | not_null
  deriving DecidableEq

def bind_int (n : Int) : Except SqlError SqlInt :=
  if h : -(2 ^ 63) ≤ n ∧ n < 2 ^ 63 then .ok ⟨n, h⟩ else .error .overflow

/-- A `NaN` is bound as `NULL`. -/
def bind_real (x : PyFloat) : Except SqlError SqlReal :=
  if h : x ≠ .nan then .ok ⟨x, h⟩ else .error .not_null

/-- `int(b)`. -/
def bit (b : Bool) : SqlInt := ⟨if b then 1 else 0, by cases b <;> decide⟩

/-- `json.dumps(flags, separators=(",", ":"))`. -/
def dump_flags (flags : List (String × Bool)) : List Char :=
  Json.dumps .compact (.obj (flags.map fun flag => (flag.1, .bool flag.2)))

/-- The columns of `staged_entry` that an entry fills. -/
structure EntryColumns where
  dev : SqlInt
  inode : SqlInt
  path : String
  name : String
  is_dir : SqlInt
  is_symlink : SqlInt
  size_logical : SqlInt
  size_on_disk : SqlInt
  mtime : SqlReal
  ctime : SqlReal
  uid : SqlInt
  gid : SqlInt
  flags : List Char
  deriving DecidableEq

/-- The parameters `stage_batch` binds for an entry. -/
def FsEntry.columns (e : FsEntry) : Except SqlError EntryColumns := do
  let dev ← bind_int e.dev
  let inode ← bind_int e.inode
  let size_logical ← bind_int e.size_logical
  let size_on_disk ← bind_int e.size_on_disk
  let uid ← bind_int e.uid
  let gid ← bind_int e.gid
  let mtime ← bind_real e.mtime
  let ctime ← bind_real e.ctime
  return {
    dev, inode
    path := e.path
    name := e.name
    is_dir := bit e.is_dir
    is_symlink := bit e.is_symlink
    size_logical, size_on_disk, mtime, ctime, uid, gid
    flags := dump_flags e.flags }

/-- A BLAKE3 hexdigest. -/
abbrev Digest := { s : String // s.length = 64 ∧ s.toList.all fun c => c.isDigit || ('a' ≤ c && c ≤ 'f') }

/-- `staged_entry`: a row written for an entry, and hashed or not. -/
structure StagedRow where
  host_id : String
  volume_id : String
  columns : EntryColumns
  partial_hash : Option Digest
  full_hash : Option Digest
  scan_run_id : ℕ
  pushed : Bool
  written : ∃ e : FsEntry, e.columns = .ok columns

/-- The primary key. -/
structure RowKey where
  host_id : String
  volume_id : String
  identity : Identity
  deriving DecidableEq

def StagedRow.key (r : StagedRow) : RowKey :=
  ⟨r.host_id, r.volume_id, ⟨r.columns.dev.val, r.columns.inode.val⟩⟩

/-! ## Staging -/

/-- The row `stage_batch` proposes for an entry. -/
def staged_row (run_id : ℕ) (host_id volume_id : String) (e : FsEntry) : Except SqlError StagedRow :=
  match h : e.columns with
  | .ok columns => .ok ⟨host_id, volume_id, columns, none, none, run_id, false, ⟨e, h⟩⟩
  | .error err => .error err

/-- The conflict branch of `_UPSERT`, for rows of one key. -/
def staged_conflict : Conflict StagedRow.key where
  guard := fun row excluded =>
    excluded.columns.mtime ≠ row.columns.mtime ∨
      excluded.columns.size_logical ≠ row.columns.size_logical
  set := fun row excluded =>
    if excluded.key = row.key then
      { excluded with partial_hash := row.partial_hash, full_hash := row.full_hash, pushed := false }
    else row
  set_key := by
    intro row excluded
    split
    · assumption
    · rfl

/-- `stage_batch`: each row is a statement of its own, and the first that is refused ends the
batch. -/
def stage_batch (t : Table StagedRow.key) (run_id : ℕ) (host_id volume_id : String) :
    List FsEntry → Table StagedRow.key × Option SqlError
  | [] => (t, none)
  | e :: entries =>
    match staged_row run_id host_id volume_id e with
    | .ok row => stage_batch (t.upsert staged_conflict row) run_id host_id volume_id entries
    | .error err => (t, some err)

/-! ## Reading back -/

/-- `EntryFrame`. -/
structure EntryFrame extends FsEntry where
  partial_hash : Option Digest
  full_hash : Option Digest

/-- `json.loads(r["flags"]) if r["flags"] else {}`, of flags that were written. -/
def load_flags (text : List Char) : Option (List (String × Bool)) :=
  if text = [] then some []
  else
    match Json.loads text with
    | some (.obj fields) => fields.mapM fun field =>
      match field.2 with
      | .bool b => some (field.1, b)
      | _ => none
    | _ => none

/-- `_row_to_entry`; none is a `ValidationError` of `EntryFrame`. -/
def row_to_entry (r : StagedRow) : Option EntryFrame := do
  let flags ← load_flags r.columns.flags
  if 1 ≤ r.columns.path.length ∧ r.columns.path.length ≤ 4096 ∧ r.columns.name.length ≤ 1024 ∧
      0 ≤ r.columns.size_logical.val ∧ 0 ≤ r.columns.size_on_disk.val then
    some {
      path := r.columns.path
      name := r.columns.name
      is_dir := r.columns.is_dir.val ≠ 0
      is_symlink := r.columns.is_symlink.val ≠ 0
      size_logical := r.columns.size_logical.val.toNat
      size_on_disk := r.columns.size_on_disk.val.toNat
      mtime := r.columns.mtime.val
      ctime := r.columns.ctime.val
      uid := r.columns.uid.val
      gid := r.columns.gid.val
      inode := r.columns.inode.val
      dev := r.columns.dev.val
      flags
      provider_hash := none
      provider_hash_algo := none
      partial_hash := r.partial_hash
      full_hash := r.full_hash }
  else none

/-- What the push reads of an entry that has been staged. -/
def read_back (t : Table StagedRow.key) (host_id volume_id : String) (e : FsEntry) :
    Option EntryFrame :=
  (t.find ⟨host_id, volume_id, e.identity⟩).bind row_to_entry

/-! ## What comes back -/

/-- The values of an entry are those the columns hold. -/
structure Fits (e : FsEntry) : Prop where
  ints : ∀ n ∈ [e.dev, e.inode, e.size_logical, e.size_on_disk, e.uid, e.gid],
    -(2 ^ 63) ≤ n ∧ n < 2 ^ 63
  times : e.mtime ≠ .nan ∧ e.ctime ≠ .nan

/-- The lengths `EntryFrame` allows. -/
structure Framed (e : FsEntry) : Prop where
  path : 1 ≤ e.path.length ∧ e.path.length ≤ 4096
  name : e.name.length ≤ 1024

/-- An entry comes back: it has no provider hash, its values fit, and a row it finds is not one that
the upsert leaves alone although it differs. -/
structure ComesBack (t : Table StagedRow.key) (host_id volume_id : String) (e : FsEntry) : Prop where
  no_provider : e.provider_hash = none ∧ e.provider_hash_algo = none
  fits : Fits e
  framed : Framed e
  updated : ∀ row, t.find ⟨host_id, volume_id, e.identity⟩ = some row →
    row.columns.mtime.val ≠ e.mtime ∨ row.columns.size_logical.val ≠ e.size_logical ∨
      e.columns = .ok row.columns

/-! ## Columns and entries -/

theorem bind_int_iff {n : Int} {x : SqlInt} : bind_int n = .ok x ↔ n = x.val := by
  rw [bind_int]
  split
  · rw [Except.ok.injEq]
    constructor
    · intro h
      rw [← h]
    · intro h
      cases x
      rw [SqlInt.mk.injEq]
      exact h
  · rename_i hrange
    refine iff_of_false (by simp) fun h => hrange ?_
    rw [h]
    exact x.in_range

theorem bind_real_iff {q : PyFloat} {x : SqlReal} : bind_real q = .ok x ↔ q = x.val := by
  rw [bind_real]
  split
  · rw [Except.ok.injEq]
    constructor
    · intro h
      rw [← h]
    · intro h
      cases x
      rw [SqlReal.mk.injEq]
      exact h
  · rename_i hnan
    refine iff_of_false (by simp) fun h => hnan ?_
    rw [h]
    exact x.not_nan

/-- The columns of an entry, field by field. -/
structure FilledBy (e : FsEntry) (c : EntryColumns) : Prop where
  dev : e.dev = c.dev.val
  inode : e.inode = c.inode.val
  path : e.path = c.path
  name : e.name = c.name
  is_dir : bit e.is_dir = c.is_dir
  is_symlink : bit e.is_symlink = c.is_symlink
  size_logical : (e.size_logical : Int) = c.size_logical.val
  size_on_disk : (e.size_on_disk : Int) = c.size_on_disk.val
  mtime : e.mtime = c.mtime.val
  ctime : e.ctime = c.ctime.val
  uid : e.uid = c.uid.val
  gid : e.gid = c.gid.val
  flags : dump_flags e.flags = c.flags

theorem columns_iff {e : FsEntry} {c : EntryColumns} : e.columns = .ok c ↔ FilledBy e c := by
  have hbind : ∀ {α β : Type} {x : Except SqlError α} {f : α → Except SqlError β} {b : β},
      (x >>= f) = .ok b ↔ ∃ a, x = .ok a ∧ f a = .ok b := by
    intro α β x f b
    cases x with
    | error err => exact iff_of_false (fun h => absurd h (by simp [bind, Except.bind])) (by simp)
    | ok a => simp [bind, Except.bind]
  rw [FsEntry.columns]
  simp only [hbind, bind_int_iff, bind_real_iff]
  constructor
  · rintro ⟨dev, hdev, inode, hinode, size, hsize, disk, hdisk, uid, huid, gid, hgid, mtime, hmtime,
      ctime, hctime, hcols⟩
    rw [← Except.ok.inj hcols]
    exact ⟨hdev, hinode, rfl, rfl, rfl, rfl, hsize, hdisk, hmtime, hctime, huid, hgid, rfl⟩
  · intro h
    refine ⟨_, h.dev, _, h.inode, _, h.size_logical, _, h.size_on_disk, _, h.uid, _, h.gid, _,
      h.mtime, _, h.ctime, ?_⟩
    rw [h.path, h.name, h.is_dir, h.is_symlink, h.flags]
    rfl

/-- The values of an entry fit exactly when there are columns for it. -/
theorem fits_iff {e : FsEntry} : Fits e ↔ ∃ c, e.columns = .ok c := by
  constructor
  · intro h
    have hint : ∀ n ∈ [e.dev, e.inode, (e.size_logical : Int), e.size_on_disk, e.uid, e.gid],
        ∃ x : SqlInt, n = x.val := fun n hn => ⟨⟨n, h.ints n hn⟩, rfl⟩
    obtain ⟨dev, hdev⟩ := hint e.dev (by simp)
    obtain ⟨inode, hinode⟩ := hint e.inode (by simp)
    obtain ⟨size, hsize⟩ := hint e.size_logical (by simp)
    obtain ⟨disk, hdisk⟩ := hint e.size_on_disk (by simp)
    obtain ⟨uid, huid⟩ := hint e.uid (by simp)
    obtain ⟨gid, hgid⟩ := hint e.gid (by simp)
    exact ⟨⟨dev, inode, e.path, e.name, bit e.is_dir, bit e.is_symlink, size, disk,
      ⟨e.mtime, h.times.1⟩, ⟨e.ctime, h.times.2⟩, uid, gid, dump_flags e.flags⟩,
      columns_iff.mpr ⟨hdev, hinode, rfl, rfl, rfl, rfl, hsize, hdisk, rfl, rfl, huid, hgid, rfl⟩⟩
  · rintro ⟨c, hc⟩
    have h := columns_iff.mp hc
    refine ⟨fun n hn => ?_, ?_⟩
    · simp only [List.mem_cons, List.not_mem_nil, or_false] at hn
      obtain rfl | rfl | rfl | rfl | rfl | rfl := hn
      · rw [h.dev]
        exact c.dev.in_range
      · rw [h.inode]
        exact c.inode.in_range
      · rw [h.size_logical]
        exact c.size_logical.in_range
      · rw [h.size_on_disk]
        exact c.size_on_disk.in_range
      · rw [h.uid]
        exact c.uid.in_range
      · rw [h.gid]
        exact c.gid.in_range
    · rw [h.mtime, h.ctime]
      exact ⟨c.mtime.not_nan, c.ctime.not_nan⟩

/-! ## The reader undoes the columns -/

theorem load_dump_flags (flags : List (String × Bool)) : load_flags (dump_flags flags) = some flags := by
  have hloads : Json.loads (dump_flags flags) =
      some (.obj (flags.map fun flag => (flag.1, .bool flag.2))) := Json.loads_dumps _ _
  have hne : dump_flags flags ≠ [] := by
    have hempty : Json.loads [] = none := rfl
    intro hnil
    rw [hnil, hempty] at hloads
    exact absurd hloads (by simp)
  rw [load_flags, if_neg hne, hloads]
  dsimp only
  clear hloads hne
  induction flags with
  | nil => rfl
  | cons flag flags ih =>
      rw [List.map_cons, List.mapM_cons, ih]
      rfl

theorem bit_read (b : Bool) : decide ((bit b).val ≠ 0) = b := by
  cases b <;> rfl

/-- What the columns keep of an entry. -/
def FsEntry.kept (e : FsEntry) : FsEntry :=
  { e with provider_hash := none, provider_hash_algo := none }

/-- The reader gets back what the columns keep, if the frame admits it. -/
theorem row_to_entry_iff {r : StagedRow} {e : FsEntry} {f : EntryFrame} (h : e.columns = .ok r.columns) :
    row_to_entry r = some f ↔ Framed e ∧ f = ⟨e.kept, r.partial_hash, r.full_hash⟩ := by
  have hcols := columns_iff.mp h
  have hlogical : 0 ≤ r.columns.size_logical.val := by
    rw [← hcols.size_logical]
    omega
  have hdisk : 0 ≤ r.columns.size_on_disk.val := by
    rw [← hcols.size_on_disk]
    omega
  rw [row_to_entry, ← hcols.flags, load_dump_flags, ← hcols.path, ← hcols.name, ← hcols.is_dir,
    ← hcols.is_symlink, ← hcols.mtime, ← hcols.ctime, ← hcols.uid, ← hcols.gid, ← hcols.inode,
    ← hcols.dev, ← hcols.size_logical, ← hcols.size_on_disk, bit_read, bit_read, Int.toNat_natCast,
    Int.toNat_natCast]
  dsimp only [bind, Option.bind]
  rw [Option.ite_none_right_eq_some, Option.some.injEq, eq_comm (b := f)]
  refine and_congr_left fun _ => ⟨fun hall => ⟨⟨hall.1, hall.2.1⟩, hall.2.2.1⟩, fun hframed => ?_⟩
  exact ⟨hframed.path.1, hframed.path.2, hframed.name, Int.natCast_nonneg _, Int.natCast_nonneg _⟩

/-! ## The round trip -/

section

variable {t : Table StagedRow.key} {run_id : ℕ} {host_id volume_id : String} {e : FsEntry}

/-- A row reads as an entry exactly when the entry has no provider hash, its frame admits it and the
row has its columns. -/
theorem reads_as_iff {row : StagedRow} : (∃ f, row_to_entry row = some f ∧ f.toFsEntry = e) ↔
      (e.provider_hash = none ∧ e.provider_hash_algo = none) ∧ Framed e ∧ e.columns = .ok row.columns := by
  obtain ⟨e₀, he₀⟩ := row.written
  constructor
  · rintro ⟨f, hf, rfl⟩
    obtain ⟨hframed, rfl⟩ := (row_to_entry_iff he₀).mp hf
    exact ⟨⟨rfl, rfl⟩, ⟨hframed.path, hframed.name⟩, he₀⟩
  · rintro ⟨hprovider, hframed, hcols⟩
    refine ⟨_, (row_to_entry_iff hcols).mpr ⟨hframed, rfl⟩, ?_⟩
    show e.kept = e
    cases e
    rw [FsEntry.kept, FsEntry.mk.injEq]
    simpa [eq_comm] using hprovider

theorem staged_row_ok {c : EntryColumns} (h : e.columns = .ok c) :
    ∃ row, staged_row run_id host_id volume_id e = .ok row ∧ row.columns = c ∧
      row.key = ⟨host_id, volume_id, e.identity⟩ := by
  have hcols := columns_iff.mp h
  rw [staged_row]
  split
  · rename_i columns hok
    rw [hok, Except.ok.injEq] at h
    refine ⟨_, rfl, h, ?_⟩
    rw [FsEntry.identity, hcols.dev, hcols.inode, ← h]
    rfl
  · rename_i err herror
    rw [herror] at h
    exact absurd h (by simp)

/-- A value is the one an `INTEGER` column holds. -/
theorem SqlInt.ext_val {x y : SqlInt} (h : x.val = y.val) : x = y := by
  cases x
  cases y
  rw [SqlInt.mk.injEq]
  exact h

theorem SqlReal.ext_val {x y : SqlReal} (h : x.val = y.val) : x = y := by
  cases x
  cases y
  rw [SqlReal.mk.injEq]
  exact h

/-- The row an upsert leaves has the columns of the entry, unless it was there and the guard leaves
it alone. -/
theorem stored_columns {row : StagedRow} (before : Option StagedRow)
    (hkey : ∀ old, before = some old → old.key = row.key) :
    (Table.stored staged_conflict before row).columns = row.columns ↔
      ∀ old, before = some old → row.columns.mtime ≠ old.columns.mtime ∨
        row.columns.size_logical ≠ old.columns.size_logical ∨ old.columns = row.columns := by
  cases before with
  | none => exact iff_of_true rfl fun old hold => absurd hold (by simp)
  | some old =>
      have hsame := hkey old rfl
      rw [Table.stored, Conflict.resolve]
      split
      · rename_i hguard
        refine iff_of_true ?_ fun old' hold' => ?_
        · show (if row.key = old.key then _ else old : StagedRow).columns = row.columns
          rw [if_pos hsame.symm]
        · rw [← Option.some.inj hold', ← or_assoc]
          exact Or.inl (of_decide_eq_true hguard)
      · rename_i hguard
        constructor
        · intro hcols old' hold'
          rw [← Option.some.inj hold']
          exact Or.inr (Or.inr hcols)
        · intro hall
          have hold := hall old rfl
          rw [← or_assoc] at hold
          exact hold.resolve_left fun hdiffers => hguard (decide_eq_true hdiffers)

end

/-- A file of a cloud remote, with the hash its provider has for it. -/
def cloud_file : FsEntry where
  path := "/rclone/gdrive/r.txt"
  name := "r.txt"
  is_dir := false
  is_symlink := false
  size_logical := 3
  size_on_disk := 3
  mtime := .finite 1
  ctime := .finite 1
  uid := 0
  gid := 0
  inode := 7
  dev := 0
  flags := [("synthetic_owner", true)]
  provider_hash := some "900150983cd24fb0d6963f7d28e17f72"
  provider_hash_algo := some "md5"

/-- An entry whose times are numbers, without its provider's hash. -/
def FsEntry.plain (e : FsEntry) : Option Agent.FsEntry :=
  match e.mtime, e.ctime with
  | .finite mtime, .finite ctime => some {
      path := e.path
      name := e.name
      is_dir := e.is_dir
      is_symlink := e.is_symlink
      size_logical := e.size_logical
      size_on_disk := e.size_on_disk
      mtime, ctime
      uid := e.uid
      gid := e.gid
      inode := e.inode
      dev := e.dev
      flags := e.flags }
  | _, _ => none

/-- A row of the table is the row the drain has. -/
structure StandsFor (r : StagedRow) (s : Agent.StagedEntry) : Prop where
  host_id : r.host_id = s.host_id
  volume_id : r.volume_id = s.volume_id
  entry : ∃ e : FsEntry, e.columns = .ok r.columns ∧ e.plain = some s.entry
  partial_hash : r.partial_hash.map Subtype.val = s.partial_hash
  full_hash : r.full_hash.map Subtype.val = s.full_hash
  scan_run_id : r.scan_run_id = s.scan_run_id
  pushed : r.pushed = s.pushed

section

variable {r row : StagedRow} {s u : Agent.StagedEntry}

theorem plain_some {e : FsEntry} {p : Agent.FsEntry} (h : e.plain = some p) :
    e.mtime = .finite p.mtime ∧ e.ctime = .finite p.ctime ∧ e.size_logical = p.size_logical ∧
      e.dev = p.dev ∧ e.inode = p.inode := by
  rw [FsEntry.plain] at h
  split at h
  · rename_i mtime ctime hmtime hctime
    rw [← Option.some.inj h]
    exact ⟨hmtime, hctime, rfl, rfl, rfl⟩
  · exact absurd h (by simp)

/-- What `stage_batch` proposes. -/
theorem stands_for_staged_row {run_id : ℕ} {host_id volume_id : String} {e : FsEntry}
    {p : Agent.FsEntry} (hplain : e.plain = some p) (h : staged_row run_id host_id volume_id e = .ok row) :
    StandsFor row (Agent.Staging.staged_row run_id host_id volume_id p) := by
  rw [staged_row] at h
  split at h
  · rename_i columns hok
    rw [← Except.ok.inj h]
    exact ⟨rfl, rfl, ⟨e, hok, hplain⟩, rfl, rfl, rfl, rfl⟩
  · exact absurd h (by simp)

/-- What the conflict branch leaves of two rows of one key. -/
theorem StandsFor.resolve (hr : StandsFor r s) (hrow : StandsFor row u) (hkey : row.key = r.key)
    (hsame : u.key = s.key) :
    StandsFor (staged_conflict.resolve r row) (Agent.Staging.staged_conflict.resolve s u) := by
  obtain ⟨e, he, hplain⟩ := hr.entry
  obtain ⟨e', he', hplain'⟩ := hrow.entry
  have hc := columns_iff.mp he
  have hc' := columns_iff.mp he'
  have hp := plain_some hplain
  have hp' := plain_some hplain'
  have hguard : staged_conflict.guard r row = Agent.Staging.staged_conflict.guard s u := by
    have hmtime : row.columns.mtime = r.columns.mtime ↔ u.entry.mtime = s.entry.mtime := by
      have hval : row.columns.mtime = r.columns.mtime ↔
          row.columns.mtime.val = r.columns.mtime.val :=
        ⟨fun heq => by rw [heq], SqlReal.ext_val⟩
      rw [hval, ← hc.mtime, ← hc'.mtime, hp.1, hp'.1, PyFloat.finite.injEq]
    have hsize : row.columns.size_logical = r.columns.size_logical ↔
        u.entry.size_logical = s.entry.size_logical := by
      have hval : row.columns.size_logical = r.columns.size_logical ↔
          row.columns.size_logical.val = r.columns.size_logical.val :=
        ⟨fun heq => by rw [heq], SqlInt.ext_val⟩
      rw [hval, ← hc.size_logical, ← hc'.size_logical, hp.2.2.1, hp'.2.2.1, Int.natCast_inj]
    show decide _ = decide _
    rw [decide_eq_decide, ne_eq, ne_eq, ne_eq, ne_eq, hmtime, hsize]
  rw [Conflict.resolve, Conflict.resolve, hguard]
  split
  · have hset : staged_conflict.set r row =
        { row with partial_hash := r.partial_hash, full_hash := r.full_hash, pushed := false } :=
      if_pos hkey
    have hrowkey : row.host_id = r.host_id ∧ row.volume_id = r.volume_id := by
      rw [StagedRow.key, StagedRow.key, RowKey.mk.injEq] at hkey
      exact ⟨hkey.1, hkey.2.1⟩
    -- the identity the branch keeps is the one the row proposes
    have hentry : { u.entry with dev := s.entry.dev, inode := s.entry.inode } = u.entry := by
      rw [Agent.StagedEntry.key, Agent.StagedEntry.key, Agent.StagedKey.mk.injEq,
        Agent.FsEntry.identity, Agent.FsEntry.identity, Identity.mk.injEq] at hsame
      rw [← hsame.2.2.1, ← hsame.2.2.2]
    rw [hset]
    refine ⟨hrowkey.1.trans hr.host_id, hrowkey.2.trans hr.volume_id, ⟨e', he', ?_⟩,
      hr.partial_hash, hr.full_hash, hrow.scan_run_id, rfl⟩
    show e'.plain = some { u.entry with dev := s.entry.dev, inode := s.entry.inode }
    rw [hentry]
    exact hplain'
  · exact hr

/-- What the push reads is what the drain sends. -/
theorem StandsFor.row_to_entry (h : StandsFor r s) {f : EntryFrame} (hf : row_to_entry r = some f) :
    f.toFsEntry.plain = some s.entry ∧ Agent.row_to_entry s = {
      path := f.path, name := f.name, is_dir := f.is_dir, is_symlink := f.is_symlink
      size_logical := f.size_logical, size_on_disk := f.size_on_disk
      mtime := s.entry.mtime, ctime := s.entry.ctime, uid := f.uid, gid := f.gid
      inode := f.inode, dev := f.dev, flags := f.flags
      partial_hash := f.partial_hash.map Subtype.val, full_hash := f.full_hash.map Subtype.val
      provider_hash := f.provider_hash, provider_hash_algo := f.provider_hash_algo } := by
  obtain ⟨e, he, hplain⟩ := h.entry
  obtain ⟨-, rfl⟩ := (row_to_entry_iff he).mp hf
  refine ⟨hplain, ?_⟩
  rw [FsEntry.plain] at hplain
  split at hplain
  · rw [Agent.row_to_entry, ← h.partial_hash, ← h.full_hash, ← Option.some.inj hplain]
    rfl
  · exact absurd hplain (by simp)

end

end Fathom.Columns
