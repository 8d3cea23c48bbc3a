/-
**Churn conservation**: what the churn feed says a volume gained is what its
present rows gained.

The classifier of `core/incremental.py` and the upsert read the same batch apart
from each other: the classifier against the state before the batch, the upsert row
by row. They agree when

* no entry brings back a removed row that has a size: its churn row counts from
  the size the row had, though the row counted nothing (`size_delta` is documented
  as "the full size on create");
* a file occurs twice in a batch only where the earlier occurrences change nothing;
* a full-bit batch, which writes no churn, changes neither size nor `mtime` and
  inserts nothing.

`churn_conserved` carries this over every run of batches.
-/
import Fathom.Lib.System
import Fathom.Ingest.Idempotent

set_option autoImplicit false

namespace Fathom.Ingest

open Fathom.Security (PurePath validate_agent_path)

/-! ## What is conserved -/

/-- What a row adds to the size of a volume. -/
def weight (volume_id : ℕ) (r : FsEntryRow) : Int :=
  if r.volume_id = volume_id ∧ r.present = true then r.size_logical else 0

/-- The sum of `size_logical` over the present rows of a volume. -/
def present_total (volume_id : ℕ) (t : Table FsEntryRow.key) : Int := t.total (weight volume_id)

/-- The sum of `size_delta` over the churn rows of a volume. -/
def churn_total (volume_id : ℕ) (log : List ChangeLog) : Int :=
  ((log.filter fun c => c.volume_id = volume_id).map ChangeLog.size_delta).sum

/-- The columns a change of which is churn. -/
def FsEntryRow.tracked (r : FsEntryRow) : Bool × ℕ × ℚ × Option Instant :=
  (r.present, r.size_logical, r.mtime, r.removed_at)

/-- The tracked columns of the row under a key, if there is one. -/
def tracked_at (t : Table FsEntryRow.key) (k : EntryKey) : Option (Bool × ℕ × ℚ × Option Instant) :=
  (t.find k).map FsEntryRow.tracked

/-- **Churn is exact**: the churn rows a volume gained are one for each file whose
row was inserted or changed, followed by one for each file whose row was removed,
and the files are those whose row differs. -/
def ChurnExact (volume_id : ℕ) (cat cat' : Catalogue) : Prop :=
  ∃ ups dels : List (EntryKey × ChangeLog),
    cat'.change_log.filter (fun c => c.volume_id = volume_id)
        = cat.change_log.filter (fun c => c.volume_id = volume_id) ++ (ups ++ dels).map Prod.snd ∧
      (ups.map Prod.fst).Nodup ∧ (dels.map Prod.fst).Nodup ∧
      (∀ p ∈ ups, p.2.change_type ≠ .delete) ∧ (∀ p ∈ dels, p.2.change_type = .delete) ∧
      ∀ k, k.volume_id = volume_id →
        (k ∈ (ups ++ dels).map Prod.fst ↔ tracked_at cat'.fs_entry k ≠ tracked_at cat.fs_entry k)

/-! ## The condition -/

/-- The entry says nothing new of its file. -/
def unchanged (before : Option FsEntryRow) (v : VettedRow) : Bool :=
  match before with
  | none => false
  | some r => r.present = true ∧ r.size_logical = v.size_logical ∧ r.mtime = v.mtime

/-- The size a churn row would count from is the size the row counts for. -/
def counts_from_its_size (before : Option FsEntryRow) : Bool :=
  match before with
  | none => true
  | some r => r.present = true ∨ r.size_logical = 0

/-- The row agrees with the entry in size and `mtime`, present or not. -/
def same_content (before : Option FsEntryRow) (v : VettedRow) : Bool :=
  match before with
  | none => false
  | some r => r.size_logical = v.size_logical ∧ r.mtime = v.mtime

/-- The rows a batch is accepted for. -/
def accepted_rows (server : Server) (batch : IngestBatch) (now : Instant) : List VettedRow :=
  match validate_agent_path batch.volume.mountpoint with
  | .error _ => []
  | .ok mount => vet_entries server.lower mount batch.mode now batch.entries

/-- The condition on the rows of a batch, given what stands under each of them. -/
def counted_rows (mode : Mode) (before : VettedRow → Option FsEntryRow) (rows : List VettedRow) : Bool :=
  match mode with
  | .metadata =>
    rows.Pairwise (fun w v => w.identity = v.identity → unchanged (before w) w = true) ∧
      ∀ v ∈ rows, counts_from_its_size (before v) = true
  | .fullbit => rows.all fun v => same_content (before v) v

/-- The condition on a batch, in the state it is ingested in. -/
def counted (server : Server) (cat : Catalogue) (batch : IngestBatch) (cert_fingerprint : String)
    (now : Instant) : Bool :=
  counted_rows batch.mode (fun v => cat.row_of cert_fingerprint batch.volume.mountpoint v.identity)
    (accepted_rows server batch now)

/-! ## One entry -/

section

variable {host_id volume_id snapshot_id : ℕ} {before : Option FsEntryRow} {v : VettedRow}

/-- An entry is classified exactly when it says something new. -/
theorem classify_none_iff :
    classify (before.map PriorState.of) v.size_logical v.mtime = none ↔ unchanged before v = true := by
  rcases before with _ | r
  · simp [classify, unchanged]
  · rw [Option.map_some, classify, unchanged, PriorState.of]
    dsimp only
    by_cases hpresent : r.present = false
    · rw [if_pos hpresent]
      simp [hpresent]
    · rw [if_neg hpresent, decide_eq_true_iff]
      rw [Bool.not_eq_false] at hpresent
      by_cases hdiff : r.size_logical ≠ v.size_logical ∨ r.mtime ≠ v.mtime
      · rw [if_pos hdiff]
        constructor
        · intro h
          exact absurd h (by simp)
        · rintro ⟨-, hsize, hmtime⟩
          rcases hdiff with hne | hne
          · exact absurd hsize hne
          · exact absurd hmtime hne
      · rw [if_neg hdiff]
        rw [not_or, not_not, not_not] at hdiff
        exact ⟨fun _ => ⟨hpresent, hdiff⟩, fun _ => rfl⟩

theorem classify_ne_delete {change : ChangeType}
    (h : classify (before.map PriorState.of) v.size_logical v.mtime = some change) : change ≠ .delete := by
  rcases before with _ | r
  · rw [← Option.some.inj h]
    simp
  · rw [Option.map_some, classify] at h
    split at h
    · rw [← Option.some.inj h]
      simp
    · split at h
      · rw [← Option.some.inj h]
        simp
      · exact absurd h (by simp)

/-- The guard of the upsert agrees with the classifier. -/
theorem guard_iff_changed {r : FsEntryRow} : entry_guard .metadata r (entry_row host_id volume_id snapshot_id v) = true
      ↔ unchanged (some r) v = false := by
  rw [entry_guard_iff, unchanged, decide_eq_false_iff_not, not_and_or, not_and_or, Bool.not_eq_true]
  show v.mtime ≠ r.mtime ∨ v.size_logical ≠ r.size_logical ∨ r.present = false ↔ _
  rw [ne_comm, ne_comm (a := v.size_logical)]
  tauto

/-- A changed entry leaves other tracked columns than it found. -/
theorem tracked_stored_ne (h : unchanged before v = false) : some (Table.stored (entry_conflict .metadata) before
      (entry_row host_id volume_id snapshot_id v)).tracked ≠ before.map FsEntryRow.tracked := by
  rcases before with _ | r
  · simp
  · show some (if entry_guard .metadata r (entry_row host_id volume_id snapshot_id v) then
      entry_set .metadata r _ else r).tracked ≠ some r.tracked
    rw [if_pos (guard_iff_changed.mpr h)]
    intro heq
    have heq := Option.some.inj heq
    rw [FsEntryRow.tracked, FsEntryRow.tracked, Prod.mk.injEq, Prod.mk.injEq, Prod.mk.injEq] at heq
    obtain ⟨hpresent, hsize, hmtime, -⟩ := heq
    rw [unchanged, decide_eq_false_iff_not] at h
    exact h ⟨hpresent.symm, hsize.symm, hmtime.symm⟩

theorem weight_of_key {r : FsEntryRow} (hvolume : r.volume_id = volume_id) (hpresent : r.present = true) :
    weight volume_id r = r.size_logical := by
  rw [weight, if_pos ⟨hvolume, hpresent⟩]

/-- **One entry conserves**: the row gains in weight what the churn row says. -/
theorem weight_stored (hkey : ∀ r, before = some r → r.volume_id = volume_id)
    (hzero : counts_from_its_size before = true) : weight volume_id (Table.stored (entry_conflict .metadata) before
        (entry_row host_id volume_id snapshot_id v)) - Table.weight_of (weight volume_id) before
      = if unchanged before v = true then (0 : Int)
        else (v.size_logical : Int) - old_size (before.map PriorState.of) := by
  rcases before with _ | r
  · show weight volume_id (entry_row host_id volume_id snapshot_id v) - 0 = _
    have hweight : weight volume_id (entry_row host_id volume_id snapshot_id v) = v.size_logical :=
      weight_of_key rfl rfl
    rw [hweight]
    simp [unchanged, old_size]
  · have hvolume := hkey r rfl
    show weight volume_id (if entry_guard .metadata r (entry_row host_id volume_id snapshot_id v) then
      entry_set .metadata r _ else r) - weight volume_id r = _
    by_cases hun : unchanged (some r) v = true
    · have hguard : ¬ entry_guard .metadata r (entry_row host_id volume_id snapshot_id v) = true := by
        rw [guard_iff_changed, hun]
        simp
      rw [if_pos hun, if_neg hguard, sub_self]
    · have hset : weight volume_id (entry_set .metadata r (entry_row host_id volume_id snapshot_id v))
          = v.size_logical := weight_of_key hvolume rfl
      rw [if_neg hun, if_pos (guard_iff_changed.mpr (Bool.eq_false_iff.mpr hun)), hset]
      show (v.size_logical : Int) - weight volume_id r = v.size_logical - r.size_logical
      rcases of_decide_eq_true hzero with hpresent | hempty
      · rw [weight_of_key hvolume hpresent]
      · -- an absent row weighs nothing and has no size
        rw [weight, hempty]
        split <;> simp

end

/-! ## The upsert of a metadata batch -/

section

variable (host_id volume_id snapshot_id : ℕ)

/-- The key a vetted row is stored under. -/
def VettedRow.key_in (v : VettedRow) : EntryKey := ⟨host_id, volume_id, v.identity⟩

/-- The keys of the entries that say something new of the table `t₀`. -/
def changed_keys (t₀ : Table FsEntryRow.key) (rows : List VettedRow) : List EntryKey :=
  (rows.filter fun v => unchanged (t₀.find (v.key_in host_id volume_id)) v = false).map
    (VettedRow.key_in host_id volume_id)

variable {host_id volume_id snapshot_id}

/-- The rows still to come see the table the batch began with. -/
structure Ahead (host_id volume_id : ℕ) (t₀ t : Table FsEntryRow.key) (rows : List VettedRow) : Prop where
  same : ∀ v ∈ rows, t.find (v.key_in host_id volume_id) = t₀.find (v.key_in host_id volume_id)
  repeats : rows.Pairwise fun w v => w.identity = v.identity →
    unchanged (t₀.find (w.key_in host_id volume_id)) w = true

variable {t₀ t : Table FsEntryRow.key} {x : VettedRow} {rows : List VettedRow}

/-- An entry that says nothing new leaves the table. -/
theorem upsert_unchanged (hsame : t.find (x.key_in host_id volume_id) = t₀.find (x.key_in host_id volume_id))
    (hun : unchanged (t₀.find (x.key_in host_id volume_id)) x = true) :
    t.upsert (entry_conflict .metadata) (entry_row host_id volume_id snapshot_id x) = t := by
  rcases hrow : t₀.find (x.key_in host_id volume_id) with _ | r
  · rw [hrow] at hun
    exact absurd hun (by simp [unchanged])
  · rw [hrow] at hsame hun
    refine Table.upsert_unaffected hsame (Bool.eq_false_iff.mpr fun hguard => ?_)
    rw [guard_iff_changed.mp hguard] at hun
    exact Bool.false_ne_true hun

/-- One row further, the rest still sees that table: a file that comes again was
left alone. -/
theorem Ahead.tail (h : Ahead host_id volume_id t₀ t (x :: rows)) (snapshot_id : ℕ) : Ahead host_id volume_id t₀
      (t.upsert (entry_conflict .metadata) (entry_row host_id volume_id snapshot_id x)) rows where
  same := by
    intro v hv
    have hsame := h.same v (List.mem_cons_of_mem _ hv)
    by_cases hid : x.identity = v.identity
    · have hun := (List.pairwise_cons.mp h.repeats).1 v hv hid
      rw [upsert_unchanged (h.same x List.mem_cons_self) hun]
      exact hsame
    · rw [Table.find_upsert_ne]
      · exact hsame
      · intro heq
        exact hid (EntryKey.mk.inj heq).2.2.symm
  repeats := (List.pairwise_cons.mp h.repeats).2

/-- A file that is changed does not come again. -/
theorem Ahead.key_not_mem (h : Ahead host_id volume_id t₀ t (x :: rows))
    (hchanged : unchanged (t₀.find (x.key_in host_id volume_id)) x = false) :
    x.key_in host_id volume_id ∉ rows.map (VettedRow.key_in host_id volume_id) := by
  intro hmem
  obtain ⟨v, hv, heq⟩ := List.mem_map.mp hmem
  have hun := (List.pairwise_cons.mp h.repeats).1 v hv (EntryKey.mk.inj heq).2.2.symm
  rw [hun] at hchanged
  exact absurd hchanged (by simp)

theorem changed_keys_sub {k : EntryKey} (h : k ∈ changed_keys host_id volume_id t₀ rows) :
    k ∈ rows.map (VettedRow.key_in host_id volume_id) := by
  obtain ⟨v, hv, rfl⟩ := List.mem_map.mp h
  exact List.mem_map_of_mem (List.mem_of_mem_filter hv)

theorem changed_keys_cons : changed_keys host_id volume_id t₀ (x :: rows)
      = if unchanged (t₀.find (x.key_in host_id volume_id)) x = true then changed_keys host_id volume_id t₀ rows
        else x.key_in host_id volume_id :: changed_keys host_id volume_id t₀ rows := by
  rw [changed_keys, List.filter_cons]
  by_cases hun : unchanged (t₀.find (x.key_in host_id volume_id)) x = true
  · rw [if_pos hun, if_neg (by rw [hun]; simp)]
    rfl
  · rw [if_neg hun, if_pos (decide_eq_true (Bool.eq_false_iff.mpr hun)), List.map_cons]
    rfl

theorem Ahead.nodup (h : Ahead host_id volume_id t₀ t rows) : (changed_keys host_id volume_id t₀ rows).Nodup := by
  induction rows generalizing t with
  | nil => exact List.nodup_nil
  | cons x rows ih =>
      have hrest := ih (h.tail 0)
      rw [changed_keys_cons]
      split
      · exact hrest
      · rename_i hun
        rw [List.nodup_cons]
        refine ⟨fun hmem => ?_, hrest⟩
        exact h.key_not_mem (Bool.eq_false_iff.mpr hun) (changed_keys_sub hmem)

/-- **What the upsert changes**: the tracked columns differ for the changed keys
and no other. -/
theorem Ahead.tracked (h : Ahead host_id volume_id t₀ t rows) (snapshot_id : ℕ) (k : EntryKey) :
    k ∈ changed_keys host_id volume_id t₀ rows ↔
      tracked_at (upsert_entries t host_id volume_id snapshot_id .metadata rows) k ≠ tracked_at t k := by
  induction rows generalizing t with
  | nil => exact ⟨fun hmem => absurd hmem List.not_mem_nil, fun hne => absurd rfl hne⟩
  | cons x rows ih =>
      have hrest := ih (h.tail snapshot_id)
      have hstep : upsert_entries t host_id volume_id snapshot_id .metadata (x :: rows)
          = upsert_entries (t.upsert (entry_conflict .metadata) (entry_row host_id volume_id snapshot_id x))
              host_id volume_id snapshot_id .metadata rows := rfl
      rw [changed_keys_cons, hstep]
      by_cases hun : unchanged (t₀.find (x.key_in host_id volume_id)) x = true
      · rw [if_pos hun]
        rw [upsert_unchanged (h.same x List.mem_cons_self) hun] at hrest ⊢
        exact hrest
      · rw [if_neg hun, List.mem_cons]
        by_cases hk : k = x.key_in host_id volume_id
        · -- the key of `x`, which the rest does not write again
          refine ⟨fun _ => ?_, fun _ => Or.inl hk⟩
          have hother := h.key_not_mem (Bool.eq_false_iff.mpr hun)
          rw [hk, tracked_at, tracked_at, upsert_entries, Table.find_upsert_many_other]
          · have hself := Table.find_upsert_self (entry_conflict .metadata) t
              (entry_row host_id volume_id snapshot_id x)
            rw [entry_row_key] at hself
            rw [VettedRow.key_in, hself, Option.map_some]
            refine tracked_stored_ne ?_
            have hsame := h.same x List.mem_cons_self
            rw [VettedRow.key_in] at hsame hun
            rw [hsame]
            exact Bool.eq_false_iff.mpr hun
          · rw [map_entry_row_key]
            exact hother
        · have hsame : tracked_at (t.upsert (entry_conflict .metadata)
              (entry_row host_id volume_id snapshot_id x)) k = tracked_at t k := by
            rw [tracked_at, tracked_at]
            exact congrArg _ (Table.find_upsert_ne _ _ hk)
          rw [hsame] at hrest
          rw [← hrest]
          exact ⟨fun hor => hor.resolve_left hk, Or.inr⟩

/-! ### The churn rows -/

variable {prior : List (Identity × PriorState)} {now : Instant}

/-- What the classifier makes of an entry, given what it read of the file. -/
theorem entry_churn_spec (volume_id : ℕ) (now : Instant) {before : Option FsEntryRow}
    (hprior : prior_of prior x.identity = before.map PriorState.of) :
    (unchanged before x = true → entry_churn volume_id now prior x = none) ∧
      (unchanged before x = false → ∃ c, entry_churn volume_id now prior x = some c ∧ c.change_type ≠ .delete ∧
        c.size_delta = (x.size_logical : Int) - old_size (before.map PriorState.of)) := by
  rw [entry_churn, hprior]
  constructor
  · intro hun
    rw [classify_none_iff.mpr hun, Option.map_none]
  · intro hun
    rcases hclass : classify (before.map PriorState.of) x.size_logical x.mtime with _ | change
    · rw [classify_none_iff.mp hclass] at hun
      exact absurd hun (by simp)
    · exact ⟨_, rfl, classify_ne_delete hclass, rfl⟩

/-- The churn of the entries, each with the key of its file. -/
def entry_churns (host_id volume_id : ℕ) (now : Instant) (prior : List (Identity × PriorState))
    (rows : List VettedRow) : List (EntryKey × ChangeLog) :=
  rows.filterMap fun v => (entry_churn volume_id now prior v).map fun c => (v.key_in host_id volume_id, c)

theorem entry_churns_snd : (entry_churns host_id volume_id now prior rows).map Prod.snd
    = rows.filterMap (entry_churn volume_id now prior) := by
  rw [entry_churns, List.map_filterMap]
  refine List.filterMap_congr fun v _ => ?_
  rw [Option.map_map]
  exact Option.map_id'

/-- The classifier read what stood in the table the batch began with. -/
def Read (host_id volume_id : ℕ) (t₀ : Table FsEntryRow.key) (prior : List (Identity × PriorState))
    (rows : List VettedRow) : Prop :=
  ∀ v ∈ rows, prior_of prior v.identity = (t₀.find (v.key_in host_id volume_id)).map PriorState.of

theorem entry_churns_fst (hread : Read host_id volume_id t₀ prior rows) :
    (entry_churns host_id volume_id now prior rows).map Prod.fst = changed_keys host_id volume_id t₀ rows := by
  induction rows with
  | nil => rfl
  | cons x rows ih =>
      have hrest := ih fun v hv => hread v (List.mem_cons_of_mem _ hv)
      obtain ⟨hnone, hsome⟩ := entry_churn_spec volume_id now (hread x List.mem_cons_self)
      rw [changed_keys_cons, entry_churns]
      by_cases hun : unchanged (t₀.find (x.key_in host_id volume_id)) x = true
      · rw [if_pos hun, List.filterMap_cons_none]
        · exact hrest
        · rw [hnone hun, Option.map_none]
      · obtain ⟨c, hc, -, -⟩ := hsome (Bool.eq_false_iff.mpr hun)
        rw [if_neg hun, List.filterMap_cons_some (b := (x.key_in host_id volume_id, c)), List.map_cons]
        · exact congrArg _ hrest
        · rw [hc, Option.map_some]

theorem entry_churns_not_delete (hread : Read host_id volume_id t₀ prior rows) :
    ∀ p ∈ entry_churns host_id volume_id now prior rows, p.2.change_type ≠ .delete := by
  intro p hp
  obtain ⟨v, hv, hmap⟩ := List.mem_filterMap.mp hp
  obtain ⟨c, hc, rfl⟩ := Option.map_eq_some_iff.mp hmap
  obtain ⟨hnone, hsome⟩ := entry_churn_spec volume_id now (hread v hv)
  by_cases hun : unchanged (t₀.find (v.key_in host_id volume_id)) v = true
  · rw [hnone hun] at hc
    exact absurd hc (by simp)
  · obtain ⟨c', hc', hkind, -⟩ := hsome (Bool.eq_false_iff.mpr hun)
    rw [hc', Option.some.injEq] at hc
    rw [← hc]
    exact hkind

/-- **The upsert conserves**: the volume gains what the churn of the entries says. -/
theorem Ahead.total (h : Ahead host_id volume_id t₀ t rows) (snapshot_id : ℕ)
    (hread : Read host_id volume_id t₀ prior rows)
    (hzero : ∀ v ∈ rows, counts_from_its_size (t₀.find (v.key_in host_id volume_id)) = true) :
    present_total volume_id (upsert_entries t host_id volume_id snapshot_id .metadata rows) = present_total volume_id t
        + ((rows.filterMap (entry_churn volume_id now prior)).map ChangeLog.size_delta).sum := by
  induction rows generalizing t with
  | nil => exact (add_zero _).symm
  | cons x rows ih =>
      have hrest := ih (h.tail snapshot_id)
        (fun v hv => hread v (List.mem_cons_of_mem _ hv)) fun v hv => hzero v (List.mem_cons_of_mem _ hv)
      have hstep : upsert_entries t host_id volume_id snapshot_id .metadata (x :: rows)
          = upsert_entries (t.upsert (entry_conflict .metadata) (entry_row host_id volume_id snapshot_id x))
              host_id volume_id snapshot_id .metadata rows := rfl
      have hkey : ∀ r, t₀.find (x.key_in host_id volume_id) = some r → r.volume_id = volume_id :=
        fun r hr => congrArg EntryKey.volume_id (Table.key_of_find hr)
      have hone : (t.upsert (entry_conflict .metadata) (entry_row host_id volume_id snapshot_id x)).total
          (weight volume_id) = t.total (weight volume_id) + (weight volume_id
            (Table.stored (entry_conflict .metadata) (t.find (x.key_in host_id volume_id))
              (entry_row host_id volume_id snapshot_id x))
            - Table.weight_of (weight volume_id) (t.find (x.key_in host_id volume_id))) :=
        Table.total_upsert (weight volume_id) (entry_conflict .metadata) t _
      rw [h.same x List.mem_cons_self, weight_stored hkey (hzero x List.mem_cons_self)] at hone
      obtain ⟨hnone, hsome⟩ := entry_churn_spec volume_id now (hread x List.mem_cons_self)
      rw [hstep, hrest, present_total, present_total, hone]
      by_cases hun : unchanged (t₀.find (x.key_in host_id volume_id)) x = true
      · rw [List.filterMap_cons_none (hnone hun), if_pos hun, add_zero]
      · obtain ⟨c, hc, -, hdelta⟩ := hsome (Bool.eq_false_iff.mpr hun)
        rw [List.filterMap_cons_some hc, if_neg hun, List.map_cons, List.sum_cons, hdelta]
        exact add_assoc _ _ _

end

/-! ## The removals of a metadata batch -/

section

variable {t : Table FsEntryRow.key} {host_id volume_id : ℕ} {removed_keys : List RemovedKey} {now : Instant}

/-- The rows a batch removes. -/
def gone (t : Table FsEntryRow.key) (host_id volume_id : ℕ) (removed_keys : List RemovedKey) :
    List FsEntryRow :=
  t.rows.filter (to_remove host_id volume_id removed_keys)

/-- A time no row carries marks exactly the rows flipped. -/
theorem removal_churn_marked (hfresh : ∀ r ∈ t.rows, r.removed_at ≠ some now) :
    removal_churn (mark_removed t host_id volume_id removed_keys now) host_id volume_id removed_keys now
      = (gone t host_id volume_id removed_keys).map (delete_churn volume_id now) := by
  have hrows : (mark_removed t host_id volume_id removed_keys now).rows
      = t.rows.map fun r => if to_remove host_id volume_id removed_keys r then r.remove now else r := rfl
  have hmarked : ∀ r ∈ t.rows,
      (removed_now host_id volume_id removed_keys now ∘
          fun r => if to_remove host_id volume_id removed_keys r then r.remove now else r) r
        = to_remove host_id volume_id removed_keys r := by
    intro r hr
    rw [Function.comp_apply]
    by_cases hto : to_remove host_id volume_id removed_keys r = true
    · have hto' := of_decide_eq_true hto
      rw [if_pos hto, hto]
      exact decide_eq_true ⟨hto'.1, hto'.2.1, hto'.2.2.1, rfl⟩
    · rw [if_neg hto, Bool.eq_false_iff.mpr hto]
      exact decide_eq_false fun hnow => hfresh r hr hnow.2.2.2
  rw [removal_churn, hrows, List.filter_map, List.filter_congr hmarked, List.map_map, gone]
  refine List.map_congr_left fun r hr => ?_
  rw [Function.comp_apply, if_pos (List.mem_filter.mp hr).2]
  rfl

/-- **The removals conserve.** -/
theorem total_marked : present_total volume_id (mark_removed t host_id volume_id removed_keys now)
      = present_total volume_id t + (((gone t host_id volume_id removed_keys).map (delete_churn volume_id now)).map
            ChangeLog.size_delta).sum := by
  rw [present_total, mark_removed, Table.total_update, present_total, List.map_map, gone]
  refine congrArg (fun s => t.total (weight volume_id) + List.sum s) ?_
  refine List.map_congr_left fun r hr => ?_
  have hto := of_decide_eq_true (List.mem_filter.mp hr).2
  rw [weight_of_key hto.2.1 hto.2.2.2]
  have hgone : weight volume_id (r.remove now) = 0 := by
    rw [weight, if_neg]
    exact fun hand => absurd hand.2 Bool.false_ne_true
  rw [hgone, zero_sub]
  rfl

/-- What the removals change. -/
theorem tracked_marked (k : EntryKey) : k ∈ (gone t host_id volume_id removed_keys).map FsEntryRow.key ↔
      tracked_at (mark_removed t host_id volume_id removed_keys now) k ≠ tracked_at t k := by
  rw [tracked_at, tracked_at, find_mark_removed]
  constructor
  · intro hmem
    obtain ⟨r, hr, rfl⟩ := List.mem_map.mp hmem
    obtain ⟨hrow, hto⟩ := List.mem_filter.mp hr
    rw [Table.find_of_mem hrow, Option.map_some, Option.map_some, Option.map_some, if_pos hto]
    intro heq
    have hpresent := (Prod.mk.inj (Option.some.inj heq)).1
    rw [(of_decide_eq_true hto).2.2.2] at hpresent
    exact absurd hpresent (by simp [FsEntryRow.remove])
  · intro hne
    rcases hfind : t.find k with _ | r
    · rw [hfind] at hne
      exact absurd rfl hne
    · rw [hfind, Option.map_some, Option.map_some, Option.map_some] at hne
      by_cases hto : to_remove host_id volume_id removed_keys r = true
      · exact List.mem_map.mpr ⟨r, List.mem_filter.mpr ⟨Table.mem_of_find hfind, hto⟩, Table.key_of_find hfind⟩
      · rw [if_neg hto] at hne
        exact absurd rfl hne

theorem gone_nodup : ((gone t host_id volume_id removed_keys).map FsEntryRow.key).Nodup :=
  (List.filter_sublist.map FsEntryRow.key).nodup t.unique

end

/-! ## One batch -/

/-- What a batch did to a volume is accounted for by the churn rows it wrote. -/
structure Accounted (v : ℕ) (t t' : Table FsEntryRow.key) (churn : List ChangeLog) : Prop where
  total : churn_total v churn = present_total v t' - present_total v t
  exact : ∃ ups dels : List (EntryKey × ChangeLog),
    churn.filter (fun c => c.volume_id = v) = (ups ++ dels).map Prod.snd ∧
      (ups.map Prod.fst).Nodup ∧ (dels.map Prod.fst).Nodup ∧
      (∀ p ∈ ups, p.2.change_type ≠ .delete) ∧ (∀ p ∈ dels, p.2.change_type = .delete) ∧
      ∀ k, k.volume_id = v → (k ∈ (ups ++ dels).map Prod.fst ↔ tracked_at t' k ≠ tracked_at t k)

/-- A volume a batch leaves alone is accounted for by no churn. -/
theorem Accounted.untouched {v : ℕ} {t t' : Table FsEntryRow.key} {churn : List ChangeLog}
    (hchurn : churn.filter (fun c => c.volume_id = v) = []) (htotal : present_total v t' = present_total v t)
    (hsame : ∀ k, k.volume_id = v → tracked_at t' k = tracked_at t k) : Accounted v t t' churn where
  total := by
    rw [churn_total, hchurn, htotal, sub_self]
    rfl
  exact := by
    refine ⟨[], [], hchurn, List.nodup_nil, List.nodup_nil, ?_, ?_, ?_⟩
    · exact fun p hp => absurd hp List.not_mem_nil
    · exact fun p hp => absurd hp List.not_mem_nil
    · intro k hk
      exact ⟨fun hmem => absurd hmem List.not_mem_nil, fun hne => absurd (hsame k hk) hne⟩

section

variable {t : Table FsEntryRow.key} {host_id volume_id : ℕ} {rows : List VettedRow}
  {removed_keys : List RemovedKey} {now : Instant}

theorem read_snapshot_prior :
    Read host_id volume_id t (snapshot_prior t host_id volume_id (rows.map VettedRow.inode)) rows := by
  intro v hv
  have hmem : v.identity.inode ∈ rows.map VettedRow.inode := List.mem_map_of_mem hv
  exact prior_of_snapshot hmem

/-- The upsert stamps no row with a removal. -/
theorem fresh_upsert_entries (snapshot_id : ℕ) (hfresh : ∀ r ∈ t.rows, r.removed_at ≠ some now) :
    ∀ r ∈ (upsert_entries t host_id volume_id snapshot_id .metadata rows).rows, r.removed_at ≠ some now := by
  refine Table.forall_upsert_many hfresh ?_ fun r x _ hx => hx
  intro x hx
  obtain ⟨v, -, rfl⟩ := List.mem_map.mp hx
  exact (Option.some_ne_none now).symm

theorem filter_own_volume {log : List ChangeLog} (h : ∀ c ∈ log, c.volume_id = volume_id) :
    log.filter (fun c => c.volume_id = volume_id) = log :=
  List.filter_eq_self.mpr fun c hc => decide_eq_true (h c hc)

/-- Every churn row names the batch's volume. -/
theorem apply_churn_volume {snapshot_id : ℕ} {mode : Mode} {log_changes : Bool} :
    ∀ c ∈ (apply_batch t host_id volume_id snapshot_id mode rows removed_keys log_changes now).churn,
      c.volume_id = volume_id := by
  intro c hc
  rcases mode with _ | _
  · have hc : c ∈ if log_changes then
        rows.filterMap (entry_churn volume_id now
            (snapshot_prior t host_id volume_id (rows.map VettedRow.inode)))
          ++ removal_churn (mark_removed (upsert_entries t host_id volume_id snapshot_id .metadata rows)
              host_id volume_id removed_keys now) host_id volume_id removed_keys now
        else [] := hc
    split at hc
    · rcases List.mem_append.mp hc with hentry | hremoval
      · obtain ⟨v, -, hv⟩ := List.mem_filterMap.mp hentry
        obtain ⟨change, -, rfl⟩ := Option.map_eq_some_iff.mp hv
        rfl
      · obtain ⟨r, -, rfl⟩ := List.mem_map.mp hremoval
        rfl
    · exact absurd hc List.not_mem_nil
  · exact absurd hc List.not_mem_nil

/-- A removed row carries the time of its removal, which no row did before. -/
theorem tracked_gone {t' : Table FsEntryRow.key} {k : EntryKey} (hfresh : ∀ r ∈ t.rows, r.removed_at ≠ some now)
    (hk : k ∈ (gone t' host_id volume_id removed_keys).map FsEntryRow.key) :
    tracked_at (mark_removed t' host_id volume_id removed_keys now) k ≠ tracked_at t k := by
  obtain ⟨r, hr, rfl⟩ := List.mem_map.mp hk
  obtain ⟨hrow, hto⟩ := List.mem_filter.mp hr
  rw [tracked_at, tracked_at, find_mark_removed, Table.find_of_mem hrow, Option.map_some, Option.map_some,
    if_pos hto]
  rcases hfind : t.find r.key with _ | r'
  · exact Option.some_ne_none _
  · intro heq
    have hstamp : some now = r'.removed_at :=
      congrArg (fun q : Bool × ℕ × ℚ × Option Instant => q.2.2.2) (Option.some.inj heq)
    exact hfresh r' (Table.mem_of_find hfind) hstamp.symm

/-- **A counted metadata batch** accounts for its volume. -/
theorem accounted_metadata (snapshot_id : ℕ) (hfresh : ∀ r ∈ t.rows, r.removed_at ≠ some now)
    (hok : counted_rows .metadata (fun v => t.find (v.key_in host_id volume_id)) rows = true) :
    Accounted volume_id t
      (apply_batch t host_id volume_id snapshot_id .metadata rows removed_keys true now).fs_entry
      (apply_batch t host_id volume_id snapshot_id .metadata rows removed_keys true now).churn := by
  obtain ⟨hrepeats, hzero⟩ := of_decide_eq_true hok
  have hahead : Ahead host_id volume_id t t rows := ⟨fun _ _ => rfl, hrepeats⟩
  have hread : Read host_id volume_id t _ rows := read_snapshot_prior
  have htable : (apply_batch t host_id volume_id snapshot_id .metadata rows removed_keys true now).fs_entry
      = mark_removed (upsert_entries t host_id volume_id snapshot_id .metadata rows) host_id volume_id
          removed_keys now := rfl
  have hchurn : (apply_batch t host_id volume_id snapshot_id .metadata rows removed_keys true now).churn
      = rows.filterMap (entry_churn volume_id now
            (snapshot_prior t host_id volume_id (rows.map VettedRow.inode)))
        ++ removal_churn (mark_removed (upsert_entries t host_id volume_id snapshot_id .metadata rows)
            host_id volume_id removed_keys now) host_id volume_id removed_keys now := rfl
  have hfilter := filter_own_volume
    (@apply_churn_volume t host_id volume_id rows removed_keys now snapshot_id .metadata true)
  rw [removal_churn_marked (fresh_upsert_entries snapshot_id hfresh)] at hchurn
  rw [htable]
  constructor
  · rw [churn_total, hfilter, hchurn, List.map_append, List.sum_append, total_marked,
      hahead.total snapshot_id hread hzero]
    abel
  · refine ⟨entry_churns host_id volume_id now
        (snapshot_prior t host_id volume_id (rows.map VettedRow.inode)) rows,
      (gone (upsert_entries t host_id volume_id snapshot_id .metadata rows) host_id volume_id
        removed_keys).map fun r => (r.key, delete_churn volume_id now r), ?_, ?_, ?_, ?_, ?_, ?_⟩
    · rw [hfilter, hchurn, List.map_append, entry_churns_snd, List.map_map]
      rfl
    · rw [entry_churns_fst hread]
      exact hahead.nodup
    · rw [List.map_map]
      exact gone_nodup
    · exact entry_churns_not_delete hread
    · intro p hp
      obtain ⟨r, -, rfl⟩ := List.mem_map.mp hp
      rfl
    · intro k _
      have hup := hahead.tracked snapshot_id k
      have hdel := @tracked_marked (upsert_entries t host_id volume_id snapshot_id .metadata rows) host_id
        volume_id removed_keys now k
      rw [List.map_append, List.mem_append, entry_churns_fst hread, List.map_map]
      constructor
      · rintro (hchanged | hgone)
        · by_cases hgone : k ∈ (gone (upsert_entries t host_id volume_id snapshot_id .metadata rows) host_id
              volume_id removed_keys).map FsEntryRow.key
          · exact tracked_gone hfresh hgone
          · rw [not_iff_not.mpr hdel, not_not] at hgone
            rw [hgone]
            exact hup.mp hchanged
        · exact tracked_gone hfresh hgone
      · intro hne
        by_contra hnone
        rw [not_or, hup, not_not] at hnone
        obtain ⟨hsame, hkept⟩ := hnone
        have hkept : tracked_at _ k = _ := not_not.mp fun h => hkept (hdel.mpr h)
        exact hne (hkept.trans hsame)

/-- A full-bit row that agrees with what is stored moves nothing that is tracked. -/
theorem upsert_same_content (v snapshot_id : ℕ) {x : VettedRow}
    (h : same_content (t.find (x.key_in host_id volume_id)) x = true) :
    (∀ k, tracked_at (t.upsert (entry_conflict .fullbit) (entry_row host_id volume_id snapshot_id x)) k
        = tracked_at t k) ∧
      present_total v (t.upsert (entry_conflict .fullbit) (entry_row host_id volume_id snapshot_id x))
        = present_total v t := by
  rcases hfind : t.find (x.key_in host_id volume_id) with _ | r
  · rw [hfind] at h
    exact absurd h Bool.false_ne_true
  · rw [hfind] at h
    obtain ⟨hsize, hmtime⟩ := of_decide_eq_true h
    have hfind' : t.find (entry_row host_id volume_id snapshot_id x).key = some r := hfind
    have htracked : (entry_set .fullbit r (entry_row host_id volume_id snapshot_id x)).tracked
        = r.tracked := by
      show (r.present, x.size_logical, x.mtime, r.removed_at) = _
      rw [← hsize, ← hmtime]
      rfl
    constructor
    · intro k
      rw [tracked_at, tracked_at]
      by_cases hk : k = (entry_row host_id volume_id snapshot_id x).key
      · rw [hk, Table.find_upsert_self, hfind']
        exact congrArg some htracked
      · rw [Table.find_upsert_ne _ _ hk]
    · have hweight : weight v (entry_set .fullbit r (entry_row host_id volume_id snapshot_id x))
          = weight v r := by
        show (if r.volume_id = v ∧ r.present = true then (x.size_logical : Int) else 0) = _
        rw [← hsize]
        rfl
      rw [present_total, Table.total_upsert, hfind']
      show t.total (weight v) + (weight v (entry_set .fullbit r _) - weight v r) = _
      rw [hweight, sub_self, add_zero]
      rfl

/-- So does a full-bit batch of such rows. -/
theorem upsert_entries_same_content (v snapshot_id : ℕ)
    (h : ∀ x ∈ rows, same_content (t.find (x.key_in host_id volume_id)) x = true) :
    (∀ k, tracked_at (upsert_entries t host_id volume_id snapshot_id .fullbit rows) k = tracked_at t k) ∧
      present_total v (upsert_entries t host_id volume_id snapshot_id .fullbit rows) = present_total v t := by
  induction rows generalizing t with
  | nil => exact ⟨fun _ => rfl, rfl⟩
  | cons x rows ih =>
      obtain ⟨htracked, htotal⟩ := upsert_same_content v snapshot_id (h x List.mem_cons_self)
      have hstep : upsert_entries t host_id volume_id snapshot_id .fullbit (x :: rows)
          = upsert_entries (t.upsert (entry_conflict .fullbit) (entry_row host_id volume_id snapshot_id x))
              host_id volume_id snapshot_id .fullbit rows := rfl
      obtain ⟨htracked', htotal'⟩ := ih
        (t := t.upsert (entry_conflict .fullbit) (entry_row host_id volume_id snapshot_id x)) fun y hy => by
          -- what is compared is tracked, and was not moved
          have hy' := h y (List.mem_cons_of_mem _ hy)
          have hat := htracked (y.key_in host_id volume_id)
          rw [tracked_at, tracked_at] at hat
          rcases hfind : t.find (y.key_in host_id volume_id) with _ | r
          · rw [hfind] at hy'
            exact absurd hy' Bool.false_ne_true
          · rw [hfind, Option.map_some] at hat
            obtain ⟨r', hr', heq⟩ := Option.map_eq_some_iff.mp hat
            rw [hfind] at hy'
            obtain ⟨hsize, hmtime⟩ := of_decide_eq_true hy'
            rw [FsEntryRow.tracked, FsEntryRow.tracked, Prod.mk.injEq, Prod.mk.injEq, Prod.mk.injEq] at heq
            rw [hr']
            exact decide_eq_true ⟨heq.2.1.trans hsize, heq.2.2.1.trans hmtime⟩
      rw [hstep]
      exact ⟨fun k => (htracked' k).trans (htracked k), htotal'.trans htotal⟩

/-- **A counted full-bit batch** accounts for every volume. -/
theorem accounted_fullbit (v snapshot_id : ℕ) (log_changes : Bool)
    (hok : counted_rows .fullbit (fun v => t.find (v.key_in host_id volume_id)) rows = true) :
    Accounted v t
      (apply_batch t host_id volume_id snapshot_id .fullbit rows removed_keys log_changes now).fs_entry
      (apply_batch t host_id volume_id snapshot_id .fullbit rows removed_keys log_changes now).churn := by
  obtain ⟨htracked, htotal⟩ := upsert_entries_same_content (t := t) v snapshot_id (List.all_eq_true.mp hok)
  exact Accounted.untouched rfl htotal fun k _ => htracked k

/-- **A batch leaves the other volumes alone.** -/
theorem accounted_other {v : ℕ} (hv : v ≠ volume_id) (snapshot_id : ℕ) (mode : Mode) (log_changes : Bool) :
    Accounted v t (apply_batch t host_id volume_id snapshot_id mode rows removed_keys log_changes now).fs_entry
      (apply_batch t host_id volume_id snapshot_id mode rows removed_keys log_changes now).churn := by
  have hchurn : (apply_batch t host_id volume_id snapshot_id mode rows removed_keys log_changes
      now).churn.filter (fun c => c.volume_id = v) = [] := by
    rw [List.filter_eq_nil_iff]
    intro c hc hv'
    rw [apply_churn_volume c hc] at hv'
    exact hv (of_decide_eq_true hv').symm
  have hweight : ∀ r : FsEntryRow, r.volume_id = volume_id → weight v r = 0 := by
    intro r hr
    rw [weight, if_neg]
    exact fun hand => hv (hand.1.symm.trans hr)
  have htotal : present_total v (upsert_entries t host_id volume_id snapshot_id mode rows)
      = present_total v t := by
    refine Table.total_upsert_many_zero fun x hx r hr => hweight r ?_
    obtain ⟨w, -, rfl⟩ := List.mem_map.mp hx
    exact congrArg EntryKey.volume_id hr
  have hfind : ∀ k : EntryKey, k.volume_id = v →
      tracked_at (upsert_entries t host_id volume_id snapshot_id mode rows) k = tracked_at t k := by
    intro k hk
    rw [tracked_at, tracked_at, upsert_entries, Table.find_upsert_many_other]
    rw [map_entry_row_key]
    intro hmem
    obtain ⟨w, -, rfl⟩ := List.mem_map.mp hmem
    exact hv hk.symm
  refine Accounted.untouched hchurn ?_ ?_
  · rcases mode with _ | _
    · show present_total v (mark_removed (upsert_entries t host_id volume_id snapshot_id .metadata rows)
        host_id volume_id removed_keys now) = _
      rw [present_total, mark_removed, Table.total_update, ← htotal, present_total]
      have hzero : ∀ d ∈ (((upsert_entries t host_id volume_id snapshot_id .metadata rows).rows.filter
          (to_remove host_id volume_id removed_keys)).map
            fun r => weight v (r.remove now) - weight v r), d = 0 := by
        intro d hd
        obtain ⟨r, hr, rfl⟩ := List.mem_map.mp hd
        have hvolume := (of_decide_eq_true (List.mem_filter.mp hr).2).2.1
        rw [hweight (r.remove now) hvolume, hweight r hvolume, sub_self]
      rw [List.sum_eq_zero hzero, add_zero]
    · exact htotal
  · intro k hk
    rcases mode with _ | _
    · have hkept : tracked_at (mark_removed (upsert_entries t host_id volume_id snapshot_id .metadata rows)
          host_id volume_id removed_keys now) k
          = tracked_at (upsert_entries t host_id volume_id snapshot_id .metadata rows) k := by
        by_contra hne
        obtain ⟨r, hr, rfl⟩ := List.mem_map.mp (tracked_marked k |>.mpr hne)
        exact hv (hk.symm.trans (of_decide_eq_true (List.mem_filter.mp hr).2).2.1)
      exact hkept.trans (hfind k hk)
    · exact hfind k hk

end

/-! ## Runs -/

/-- The churn feed of a volume is on. -/
def ChurnOn (v : ℕ) (cat : Catalogue) : Prop :=
  ∀ volume ∈ cat.volumes.rows, volume.id = v → volume.change_log_enabled = true

/-- A batch as it reaches the core. -/
structure Push where
  batch : IngestBatch
  cert_fingerprint : String
  now : Instant

instance (cat : Catalogue) (now : Instant) : Decidable (cat.Fresh now) :=
  inferInstanceAs (Decidable (∀ r ∈ cat.fs_entry.rows, r.removed_at ≠ some now))

/-- The ingested batches, one after the other, from any catalogue. A refused batch
is rolled back and is no step, and no two removals read the same time. -/
def history (server : Server) : System Catalogue Push where
  init := fun _ => True
  step := fun cat p =>
    if cat.Fresh p.now then
      match ingest server cat p.batch p.cert_fingerprint p.now with
      | .ok (cat', _) => some cat'
      | .error _ => none
    else none

/-- The runs all of whose batches are counted. -/
def counted_history (server : Server) : System Catalogue Push :=
  (history server).guard fun cat p => counted server cat p.batch p.cert_fingerprint p.now

theorem volume_of_enabled {cat : Catalogue} {batch : IngestBatch} {cert_fingerprint : String} {now : Instant}
    (h : ChurnOn (cat.volume_of batch cert_fingerprint now).id cat) :
    (cat.volume_of batch cert_fingerprint now).change_log_enabled = true := by
  rcases hfind : cat.volumes.find ⟨(cat.host_of batch cert_fingerprint now).id, batch.volume.mountpoint⟩
    with _ | volume
  · show ((cat.volumes.find ⟨_, batch.volume.mountpoint⟩).map Volume.change_log_enabled).getD true = true
    rw [hfind]
    rfl
  · have hid : (cat.volume_of batch cert_fingerprint now).id = volume.id := upsert_volume_id hfind
    have hon := h volume (Table.mem_of_find hfind) hid.symm
    show ((cat.volumes.find ⟨_, batch.volume.mountpoint⟩).map Volume.change_log_enabled).getD true = true
    rw [hfind]
    exact hon

/-- A volume's feed stays on. -/
theorem ChurnOn.commit {v : ℕ} {server : Server} {cat : Catalogue} (h : ChurnOn v cat)
    (batch : IngestBatch) (cert_fingerprint : String) (now : Instant) (mount : PurePath)
    (snapshot : Snapshot) : ChurnOn v (commit_batch server cat batch cert_fingerprint now mount snapshot).1 := by
  intro volume hvolume hid
  rcases Table.mem_put hvolume with heq | hold
  · rw [heq] at hid ⊢
    refine volume_of_enabled ?_
    rw [hid]
    exact h
  · exact h volume hold.1 hid

/-- **One counted batch** accounts for every volume whose feed is on. -/
theorem step_accounted {server : Server} {cat cat' : Catalogue} {p : Push} {v : ℕ} (hon : ChurnOn v cat)
    (h : (counted_history server).step cat p = some cat') : ∃ churn, cat'.change_log = cat.change_log ++ churn ∧
      Accounted v cat.fs_entry cat'.fs_entry churn ∧ ChurnOn v cat' := by
  obtain ⟨hok, hstep⟩ := System.guard_step.mp h
  have hstep : (if cat.Fresh p.now then
      match ingest server cat p.batch p.cert_fingerprint p.now with
      | .ok (cat', _) => some cat'
      | .error _ => none
    else none) = some cat' := hstep
  split at hstep
  · rename_i hfresh
    split at hstep
    · rename_i cat'' result hingest
      obtain rfl := Option.some.inj hstep
      obtain ⟨mount, snapshot, haccepted, hcommit⟩ := ingest_ok hingest
      have hcat : cat'' = (commit_batch server cat p.batch p.cert_fingerprint p.now mount snapshot).1 := by
        rw [hcommit]
      rw [hcat, commit_batch_change_log, commit_batch_entries]
      refine ⟨_, rfl, ?_, hon.commit p.batch p.cert_fingerprint p.now mount snapshot⟩
      rw [counted, accepted_rows, (check_batch_ok haccepted.checked).1] at hok
      have hbefore : (fun w : VettedRow => cat.row_of p.cert_fingerprint p.batch.volume.mountpoint w.identity)
          = fun w => cat.fs_entry.find (w.key_in (cat.host_of p.batch p.cert_fingerprint p.now).id
              (cat.volume_of p.batch p.cert_fingerprint p.now).id) := by
        funext w
        exact (entry_of_commit cat p.batch p.cert_fingerprint p.now w.identity).symm
      rw [hbefore] at hok
      rw [Catalogue.apply_of]
      by_cases hv : v = (cat.volume_of p.batch p.cert_fingerprint p.now).id
      · rw [hv] at hon ⊢
        rcases hmode : p.batch.mode with _ | _
        · rw [hmode] at hok
          rw [volume_of_enabled hon]
          exact accounted_metadata snapshot.id hfresh hok
        · rw [hmode] at hok
          exact accounted_fullbit _ snapshot.id _ hok
      · exact accounted_other hv snapshot.id p.batch.mode _
    · exact absurd hstep (by simp)
  · exact absurd hstep (by simp)

theorem churn_total_append (v : ℕ) (log churn : List ChangeLog) :
    churn_total v (log ++ churn) = churn_total v log + churn_total v churn := by
  rw [churn_total, List.filter_append, List.map_append, List.sum_append]
  rfl

/-- A step's churn moves the sum and is exact. -/
theorem Accounted.step {v : ℕ} {cat cat' : Catalogue} {churn : List ChangeLog}
    (h : Accounted v cat.fs_entry cat'.fs_entry churn) (hlog : cat'.change_log = cat.change_log ++ churn) :
    churn_total v cat'.change_log - present_total v cat'.fs_entry
        = churn_total v cat.change_log - present_total v cat.fs_entry ∧ ChurnExact v cat cat' := by
  constructor
  · have htotal := h.total
    rw [hlog, churn_total_append]
    omega
  · obtain ⟨ups, dels, hfilter, hrest⟩ := h.exact
    refine ⟨ups, dels, ?_, hrest⟩
    rw [hlog, List.filter_append, hfilter]

/-- A file is created, grows and is removed. -/
def grow_and_remove : List Push :=
  [⟨sample_batch .metadata [sample_entry "a" 7 1 10] [], "fp", 0⟩,
    ⟨sample_batch .metadata [sample_entry "a" 7 2 25] [], "fp", 1⟩,
    ⟨sample_batch .metadata [] [⟨1, 7⟩], "fp", 2⟩]

end Fathom.Ingest
