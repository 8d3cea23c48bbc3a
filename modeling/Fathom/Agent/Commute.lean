/-
**A full-bit pass commutes with a drain** of what waits before the rows it hashes
(`StagingStore.stage_hash` under `PushClient.drain`).

A pass opens a run of its own, the last one, and moves the rows it hashes there. Below
a run in which or before which none of those rows waits, a drain after the pass and a
drain before it send the same chunks. So the drain after the pass can be cut in two
there: it is a drain before the pass, which gives up at that run, and another after it.
The induction is on the steps of the drain, and what carries it is that the two
databases differ by the pass and by nothing else (`HashedFrom`).
-/
import Fathom.Agent.Arrival
import Mathlib.Data.Nat.Find

set_option autoImplicit false

namespace Fathom.Agent

open Fathom.Ingest (Identity Mode VolumeFrame HostFacts ingest next_id)
open Staging (entry_outbox removal_outbox set_hash set_hash_key push_entry)

/-! ## What a pass leaves -/

section

variable (config : AgentConfig) (volume_id : String) (run_id : ℕ)

/-- The rows of the files hashed. -/
def hashed_keys (hashes : List (Identity × String × String)) : List StagedKey :=
  hashes.map fun hash => ⟨config.host_id, volume_id, hash.1⟩

/-- The entry table after the hash of one file. -/
def hash_row (t : Table StagedEntry.key) (hash : Identity × String × String) : Table StagedEntry.key :=
  t.update (fun r => r.key = ⟨config.host_id, volume_id, hash.1⟩) (set_hash hash.2.1 hash.2.2 run_id)
    (set_hash_key hash.2.1 hash.2.2 run_id)

/-- And after those of a pass. -/
def hash_rows (hashes : List (Identity × String × String)) (t : Table StagedEntry.key) :
    Table StagedEntry.key :=
  hashes.foldl (hash_row config volume_id run_id) t

end

/-- The run of a pass, once it has ended. -/
def pass_run (config : AgentConfig) (volume : VolumeFrame) (pass : HashPass) (s : Staging) : ScanRun :=
  Staging.finish pass.finished_at (s.new_run config.host_id volume.mountpoint .fullbit (some volume))

/-- **A database is another one after a full-bit pass.** -/
structure HashedFrom (config : AgentConfig) (volume : VolumeFrame) (pass : HashPass) (s u : Staging) :
    Prop where
  runs : u.scan_run.rows = s.scan_run.rows ++ [pass_run config volume pass s]
  entries : u.staged_entry
    = hash_rows config volume.mountpoint s.next_run pass.hashes s.staged_entry
  removals : u.staged_removal = s.staged_removal

section

variable {config : AgentConfig} {volume_id : String} {run_id : ℕ}

theorem stage_hashes_tables {hashes : List (Identity × String × String)} {s : Staging}
    (hrun : run_id ∈ run_ids s.scan_run) :
    ∃ u, stage_hashes config volume_id run_id hashes s = some u ∧ u.scan_run = s.scan_run ∧
      u.staged_entry = hash_rows config volume_id run_id hashes s.staged_entry ∧
      u.staged_removal = s.staged_removal := by
  induction hashes generalizing s with
  | nil => exact ⟨s, rfl, rfl, rfl, rfl⟩
  | cons hash hashes ih =>
      obtain ⟨identity, partial_hash, full_hash⟩ := hash
      have hrows : ∀ r ∈ (hash_row config volume_id run_id s.staged_entry
          (identity, partial_hash, full_hash)).rows, r.scan_run_id ∈ run_ids s.scan_run := by
        intro r hr
        obtain ⟨row, hrow, rfl⟩ := List.mem_map.mp hr
        split
        · exact hrun
        · exact s.entry_run row hrow
      have hstep : s.stage_hash ⟨config.host_id, volume_id, identity⟩ partial_hash full_hash run_id
          = some { s with staged_entry := hash_row config volume_id run_id s.staged_entry
                            (identity, partial_hash, full_hash), entry_run := hrows } :=
        dif_pos hrows
      obtain ⟨u, hu, hruns, hentries, hremovals⟩ :=
        @ih { s with staged_entry := hash_row config volume_id run_id s.staged_entry
                       (identity, partial_hash, full_hash), entry_run := hrows } hrun
      refine ⟨u, ?_, hruns, hentries, hremovals⟩
      rw [stage_hashes, hstep, Option.bind_some]
      exact hu

/-- The runs after one has been opened and closed. -/
theorem opened_rows (s : Staging) (host_id volume_id : String) (mode : Mode) (volume : Option VolumeFrame)
    (finished_at : ℚ) : ((s.start_run host_id volume_id mode volume).finish_run s.next_run finished_at).scan_run.rows
      = s.scan_run.rows ++ [Staging.finish finished_at (s.new_run host_id volume_id mode volume)] := by
  have hnew : s.scan_run.find (s.new_run host_id volume_id mode volume).id = none := Staging.next_run_new s
  show (s.scan_run.put (s.new_run host_id volume_id mode volume)).rows.map _ = _
  rw [Table.put, Table.rows_upsert_of_new hnew, List.map_append]
  congr 1
  · -- the other runs have smaller ids
    refine (List.map_congr_left fun run hrun => ?_).trans (List.map_id _)
    have hlt := Staging.lt_next_run (List.mem_map_of_mem hrun)
    rw [if_neg]
    · rfl
    · rw [decide_eq_true_iff]
      exact hlt.ne
  · show [if decide (s.next_run = s.next_run) = true then _ else _] = _
    rw [if_pos (decide_eq_true rfl)]

/-- **A pass never fails, and leaves what `HashedFrom` says.** -/
theorem fullbit_scan_iff {volume : VolumeFrame} {pass : HashPass} {s u : Staging} :
    fullbit_scan config volume pass s = some u ↔ HashedFrom config volume pass s u := by
  have hrun : s.next_run ∈ run_ids
      (s.start_run config.host_id volume.mountpoint .fullbit (some volume)).scan_run := by
    show s.next_run ∈ run_ids (s.scan_run.put _)
    rw [Staging.run_ids_start]
    exact List.mem_append_right _ (List.mem_singleton.mpr rfl)
  obtain ⟨v, hv, hruns, hentries, hremovals⟩ :=
    @stage_hashes_tables config volume.mountpoint s.next_run pass.hashes _ hrun
  have hscan : fullbit_scan config volume pass s = some (v.finish_run s.next_run pass.finished_at) :=
    Option.map_eq_some_iff.mpr ⟨v, hv, rfl⟩
  have hhashed : HashedFrom config volume pass s (v.finish_run s.next_run pass.finished_at) := by
    refine ⟨?_, hentries, hremovals⟩
    have hfinish : (v.finish_run s.next_run pass.finished_at).scan_run
        = ((s.start_run config.host_id volume.mountpoint .fullbit (some volume)).finish_run s.next_run
            pass.finished_at).scan_run := finish_run_congr hruns
    rw [hfinish]
    exact opened_rows _ _ _ _ _ _
  rw [hscan]
  constructor
  · intro h
    rw [← Option.some.inj h]
    exact hhashed
  · intro h
    refine congrArg some (Staging.ext_tables (Table.ext_rows ?_) ?_ ?_)
    · rw [hhashed.runs, h.runs]
    · rw [hhashed.entries, h.entries]
    · rw [hhashed.removals, h.removals]

end

/-! ## The rows after a pass -/

section

variable {config : AgentConfig} {volume_id : String} {run_id : ℕ} {hashes : List (Identity × String × String)}

theorem hash_rows_cons (hash : Identity × String × String) (hashes : List (Identity × String × String))
    (t : Table StagedEntry.key) :
    hash_rows config volume_id run_id (hash :: hashes) t
      = hash_rows config volume_id run_id hashes (hash_row config volume_id run_id t hash) := rfl

/-- A selection that takes no hashed row, before or after, is left as it was. -/
theorem filter_hash_rows {w : StagedEntry → Bool} {t : Table StagedEntry.key}
    (hbefore : ∀ r ∈ t.rows, r.key ∈ hashed_keys config volume_id hashes → w r = false)
    (hafter : ∀ r partial_hash full_hash, w (set_hash partial_hash full_hash run_id r) = false) :
    (hash_rows config volume_id run_id hashes t).rows.filter w = t.rows.filter w := by
  induction hashes generalizing t with
  | nil => rfl
  | cons hash hashes ih =>
      rw [hash_rows_cons, ih]
      · refine Table.filter_update fun r hr hkey => ⟨hbefore r hr ?_, hafter r _ _⟩
        rw [hashed_keys, List.map_cons, of_decide_eq_true hkey]
        exact List.mem_cons_self
      · intro r hr hkey
        obtain ⟨row, hrow, rfl⟩ := List.mem_map.mp hr
        split
        · exact hafter row _ _
        · rename_i hother
          rw [if_neg hother] at hkey
          exact hbefore row hrow (List.mem_cons_of_mem _ hkey)

/-- A mark of other rows commutes with the hashes. -/
theorem mark_hash_rows {keys : List StagedKey}
    (hother : ∀ k ∈ hashed_keys config volume_id hashes, k ∉ keys) (t : Table StagedEntry.key) :
    entry_outbox.mark (hash_rows config volume_id run_id hashes t) keys
      = hash_rows config volume_id run_id hashes (entry_outbox.mark t keys) := by
  induction hashes generalizing t with
  | nil => rfl
  | cons hash hashes ih =>
      rw [hash_rows_cons, hash_rows_cons, ih fun k hk => hother k (List.mem_cons_of_mem _ hk)]
      congr 1
      refine Table.update_comm (fun r => rfl) (fun r => rfl) fun r _ hkey => ?_
      have hne := hother ⟨config.host_id, volume_id, hash.1⟩ List.mem_cons_self
      rw [← of_decide_eq_true hkey] at hne
      exact decide_eq_false hne

/-- A row is another file's, or it has been hashed and waits in the run. -/
theorem mem_hash_rows {t : Table StagedEntry.key}
    {r : StagedEntry} (h : r ∈ (hash_rows config volume_id run_id hashes t).rows) :
    (r ∈ t.rows ∧ r.key ∉ hashed_keys config volume_id hashes) ∨
      (entry_outbox.waits run_id r = true ∧ r.key ∈ hashed_keys config volume_id hashes) := by
  induction hashes generalizing t with
  | nil => exact Or.inl ⟨h, List.not_mem_nil⟩
  | cons hash hashes ih =>
      rcases ih h with ⟨hmem, hother⟩ | ⟨hwaits, hkey⟩
      · obtain ⟨row, hrow, heq⟩ := List.mem_map.mp hmem
        split at heq
        · rename_i hthis
          right
          rw [← heq]
          refine ⟨Outbox.waits_iff.mpr ⟨rfl, rfl⟩, ?_⟩
          rw [set_hash_key, of_decide_eq_true hthis]
          exact List.mem_cons_self
        · rename_i hthis
          left
          rw [← heq] at hother ⊢
          refine ⟨hrow, fun hkey => ?_⟩
          rcases List.mem_cons.mp hkey with hfirst | hrest
          · exact hthis (decide_eq_true hfirst)
          · exact hother hrest
      · exact Or.inr ⟨hwaits, List.mem_cons_of_mem _ hkey⟩

/-- The row of another file is what it was. -/
theorem find_hash_rows_other {k : StagedKey}
    (hk : k ∉ hashed_keys config volume_id hashes) (t : Table StagedEntry.key) :
    (hash_rows config volume_id run_id hashes t).find k = t.find k := by
  induction hashes generalizing t with
  | nil => rfl
  | cons hash hashes ih =>
      rw [hash_rows_cons, ih fun hmem => hk (List.mem_cons_of_mem _ hmem), hash_row, Table.find_update]
      rcases hfind : t.find k with _ | r
      · rfl
      · rw [Option.map_some, if_neg]
        intro hthis
        apply hk
        rw [← Table.key_of_find hfind, of_decide_eq_true hthis]
        exact List.mem_cons_self

end

/-! ## Below a bound -/

/-- The rows of these keys that wait do so in the run of the bound or in a later one. -/
def Spared (s : Staging) (bound : ℕ) (keys : List StagedKey) : Prop :=
  ∀ k ∈ keys, ∀ run_id, entry_outbox.awaiting s.staged_entry k = some run_id → bound ≤ run_id

/-- The pending runs below a bound. -/
def Staging.early (s : Staging) (bound : ℕ) : List ScanRun :=
  s.pending_runs.filter fun run => run.id < bound

/-- And the others. -/
def Staging.late (s : Staging) (bound : ℕ) : List ScanRun :=
  s.pending_runs.filter fun run => bound ≤ run.id

section

variable {s u : Staging} {bound : ℕ}

/-- Runs in the order of their ids, cut at a bound. -/
theorem filter_below_append {runs : List ScanRun} (h : (runs.map ScanRun.id).Pairwise (· < ·)) (bound : ℕ) :
    (runs.filter fun run => run.id < bound) ++ (runs.filter fun run => bound ≤ run.id) = runs := by
  induction runs with
  | nil => rfl
  | cons run runs ih =>
      rw [List.map_cons, List.pairwise_cons] at h
      have hrest := ih h.2
      by_cases hrun : run.id < bound
      · rw [List.filter_cons_of_pos (by simpa using hrun), List.filter_cons_of_neg (by simpa using hrun),
          List.cons_append, hrest]
      · -- all that follow are beyond the bound as well
        have hnone : (runs.filter fun run => run.id < bound) = [] := by
          rw [List.filter_eq_nil_iff]
          intro other hother
          have hlt := h.1 other.id (List.mem_map_of_mem hother)
          simp only [decide_eq_true_eq]
          omega
        rw [hnone, List.nil_append] at hrest
        rw [List.filter_cons_of_neg (by simpa using hrun), List.filter_cons_of_pos (by simpa using hrun),
          hnone, List.nil_append, hrest]

theorem early_append_late (s : Staging) (bound : ℕ) : s.early bound ++ s.late bound = s.pending_runs :=
  filter_below_append s.pending_runs_ordered bound

theorem any_of_filter {ρ : Type} {rows rows' : List ρ} {w : ρ → Bool} (h : rows.filter w = rows'.filter w) :
    rows.any w = rows'.any w := by
  rw [Bool.eq_iff_iff, List.any_eq_true, List.any_eq_true]
  simp only [← List.mem_filter, h]

/-- A mark touches the rows of its run only. -/
theorem filter_mark {visit : Visit} {chunk : Chunk} (hdue : chunk.Due s visit) {run_id : ℕ}
    (hrun : run_id ≠ visit.run.id) : (chunk.mark s).staged_entry.rows.filter (entry_outbox.waits run_id)
        = s.staged_entry.rows.filter (entry_outbox.waits run_id) ∧
      (chunk.mark s).staged_removal.rows.filter (removal_outbox.waits run_id)
        = s.staged_removal.rows.filter (removal_outbox.waits run_id) := by
  cases chunk with
  | entries rows =>
      refine ⟨?_, rfl⟩
      show (entry_outbox.mark s.staged_entry (rows.map StagedEntry.key)).rows.filter _ = _
      rw [Outbox.mark]
      refine Table.filter_update fun r hr hkey => ⟨?_, ?_⟩
      · obtain ⟨row, hrow, heq⟩ := List.mem_map.mp (of_decide_eq_true hkey)
        obtain ⟨hmem, hid, -⟩ := hdue.2 row hrow
        rw [← Table.eq_of_key hmem hr heq, Bool.eq_false_iff]
        exact fun hwaits => hrun ((Outbox.waits_iff.mp hwaits).1.symm.trans hid)
      · rw [Bool.eq_false_iff]
        exact fun hwaits => absurd (Outbox.waits_iff.mp hwaits).2 (by simp [entry_outbox, push_entry])
  | removals rows =>
      refine ⟨rfl, ?_⟩
      show (removal_outbox.mark s.staged_removal (rows.map StagedRemoval.key)).rows.filter _ = _
      rw [Outbox.mark]
      refine Table.filter_update fun r hr hkey => ⟨?_, ?_⟩
      · obtain ⟨row, hrow, heq⟩ := List.mem_map.mp (of_decide_eq_true hkey)
        obtain ⟨hmem, hid, -⟩ := hdue row hrow
        rw [← Table.eq_of_key hmem hr heq, Bool.eq_false_iff]
        exact fun hwaits => hrun ((Outbox.waits_iff.mp hwaits).1.symm.trans hid)
      · rw [Bool.eq_false_iff]
        exact fun hwaits => absurd (Outbox.waits_iff.mp hwaits).2 (by simp [removal_outbox, Staging.push_removal])

theorem scan_run_mark (chunk : Chunk) : (chunk.mark s).scan_run = s.scan_run := by
  cases chunk <;> rfl

/-- The mark of a chunk below the bound leaves what is pending beyond it. -/
theorem late_mark {visit : Visit} {chunk : Chunk} (hdue : chunk.Due s visit) (hrun : visit.run.id < bound) :
    (chunk.mark s).late bound = s.late bound := by
  rw [Staging.late, Staging.late, Staging.pending_runs, Staging.pending_runs, List.filter_filter,
    List.filter_filter, scan_run_mark]
  refine List.filter_congr fun run _ => ?_
  by_cases hlate : bound ≤ run.id
  · obtain ⟨hentries, hremovals⟩ := filter_mark hdue (show run.id ≠ visit.run.id by omega)
    rw [any_of_filter hentries, any_of_filter hremovals]
  · rw [decide_eq_false hlate, Bool.false_and, Bool.false_and]

end

section

variable {config : AgentConfig} {volume : VolumeFrame} {pass : HashPass} {s u : Staging} {bound : ℕ}

/-- The runs below the bound hold what they held. -/
theorem HashedFrom.filter_entries (h : HashedFrom config volume pass s u)
    (hspared : Spared s bound (hashed_keys config volume.mountpoint pass.hashes))
    (hbound : bound ≤ s.next_run) {run_id : ℕ} (hrun : run_id < bound) :
    u.staged_entry.rows.filter (entry_outbox.waits run_id)
      = s.staged_entry.rows.filter (entry_outbox.waits run_id) := by
  rw [h.entries]
  apply filter_hash_rows
  · intro r hr hkey
    rw [Bool.eq_false_iff]
    intro hwaits
    have hawaiting : entry_outbox.awaiting s.staged_entry r.key = some run_id :=
      Outbox.awaiting_some_iff.mpr ⟨r, Table.find_of_mem hr, Outbox.waits_iff.mp hwaits⟩
    have hle := hspared r.key hkey run_id hawaiting
    omega
  · intro r partial_hash full_hash
    rw [Bool.eq_false_iff]
    intro hwaits
    have hnew : s.next_run = run_id := (Outbox.waits_iff.mp hwaits).1
    omega

/-- So a read below the bound finds what it would have found. -/
theorem HashedFrom.read (h : HashedFrom config volume pass s u)
    (hspared : Spared s bound (hashed_keys config volume.mountpoint pass.hashes))
    (hbound : bound ≤ s.next_run) {run_id : ℕ} (hrun : run_id < bound) (kind : Kind) (limit : ℕ) :
    Chunk.read u kind run_id limit = Chunk.read s kind run_id limit := by
  cases kind with
  | entries =>
      show Chunk.entries ((u.staged_entry.rows.filter _).take limit) = _
      rw [h.filter_entries hspared hbound hrun]
      rfl
  | removals =>
      show Chunk.removals ((u.staged_removal.rows.filter _).take limit) = _
      rw [h.removals]
      rfl

/-- And the runs pending below it are the same. -/
theorem HashedFrom.early (h : HashedFrom config volume pass s u)
    (hspared : Spared s bound (hashed_keys config volume.mountpoint pass.hashes))
    (hbound : bound ≤ s.next_run) : u.early bound = s.early bound := by
  rw [Staging.early, Staging.early, Staging.pending_runs, Staging.pending_runs, List.filter_filter,
    List.filter_filter, h.runs, List.filter_append, h.removals]
  have hpass : ¬ (pass_run config volume pass s).id < bound := not_lt.mpr hbound
  rw [List.filter_cons_of_neg (by simp [hpass]), List.filter_nil, List.append_nil]
  refine List.filter_congr fun run _ => ?_
  by_cases hrun : run.id < bound
  · rw [any_of_filter (h.filter_entries hspared hbound hrun)]
  · rw [decide_eq_false hrun, Bool.false_and, Bool.false_and]

theorem Spared.mark {keys : List StagedKey} (h : Spared s bound keys) (chunk : Chunk) :
    Spared (chunk.mark s) bound keys := by
  intro k hk run_id hawaiting
  cases chunk with
  | entries rows =>
      have hmarked : entry_outbox.awaiting (entry_outbox.mark s.staged_entry (rows.map StagedEntry.key)) k
          = some run_id := hawaiting
      rw [Outbox.awaiting_mark] at hmarked
      split at hmarked
      · exact absurd hmarked (by simp)
      · exact h k hk run_id hmarked
  | removals rows => exact h k hk run_id hawaiting

/-- **The mark of a chunk below the bound commutes with the pass.** -/
theorem HashedFrom.mark (h : HashedFrom config volume pass s u)
    (hspared : Spared s bound (hashed_keys config volume.mountpoint pass.hashes)) {visit : Visit} {chunk : Chunk}
    (hdue : chunk.Due s visit) (hrun : visit.run.id < bound) :
    HashedFrom config volume pass (chunk.mark s) (chunk.mark u) := by
  cases chunk with
  | entries rows =>
      refine ⟨h.runs, ?_, h.removals⟩
      show entry_outbox.mark u.staged_entry _ = _
      rw [h.entries]
      apply mark_hash_rows
      -- a row of the chunk waits below the bound, one that is hashed does not
      intro k hk hmem
      obtain ⟨r, hr, rfl⟩ := List.mem_map.mp hmem
      obtain ⟨hrow, hwaits⟩ := hdue.2 r hr
      have hle := hspared r.key hk visit.run.id
        (Outbox.awaiting_some_iff.mpr ⟨r, Table.find_of_mem hrow, hwaits⟩)
      omega
  | removals rows =>
      refine ⟨h.runs, h.entries, ?_⟩
      show removal_outbox.mark u.staged_removal _ = removal_outbox.mark s.staged_removal _
      rw [h.removals]

/-- What is in flight below the bound is in flight after the pass. -/
theorem HashedFrom.due (h : HashedFrom config volume pass s u)
    (hspared : Spared s bound (hashed_keys config volume.mountpoint pass.hashes))
    (hbound : bound ≤ s.next_run) {visit : Visit} {chunk : Chunk} (hrun : visit.run.id < bound)
    (hdue : chunk.Due s visit) : chunk.Due u visit := by
  cases chunk with
  | entries rows =>
      refine ⟨hdue.1, fun r hr => ?_⟩
      obtain ⟨hrow, hwaits⟩ := hdue.2 r hr
      have hmem : r ∈ s.staged_entry.rows.filter (entry_outbox.waits visit.run.id) :=
        List.mem_filter.mpr ⟨hrow, Outbox.waits_iff.mpr hwaits⟩
      rw [← h.filter_entries hspared hbound hrun] at hmem
      exact ⟨(List.mem_filter.mp hmem).1, hwaits⟩
  | removals rows =>
      intro r hr
      rw [h.removals]
      exact hdue r hr

end

/-! ## Metadata -/

/-- The mode of a run. -/
def Staging.run_mode (s : Staging) (run_id : ℕ) : Option Mode := (s.scan_run.find run_id).map ScanRun.mode

/-- Metadata waits in a run: entries, if it is the run of a walk, or removals. -/
def Staging.MetadataWaits (s : Staging) (run_id : ℕ) : Prop :=
  (entry_outbox.Waiting s.staged_entry run_id ∧ s.run_mode run_id = some .metadata) ∨
    removal_outbox.Waiting s.staged_removal run_id

/-- No metadata waits. -/
def Staging.MetadataDrained (s : Staging) : Prop := ∀ run_id, ¬ s.MetadataWaits run_id

/-- No drain is under way. -/
def Pc.at_rest : Pc → Bool
  | .idle _ => true
  | _ => false

section

variable (config : AgentConfig) (link : Uplink)

/-- A pass and a complete drain leave in the core what they leave when the metadata has
been drained before the pass. -/
def Station.AsIfDrained (st : Station) (volume : VolumeFrame) (pass : HashPass) : Prop :=
  ∀ staging st', fullbit_scan config volume pass st.staging = some staging →
    Drained link { st with staging := staging } st' →
    ∃ moves drained staging' last, (drain link).run st moves = some drained ∧
      drained.pc.at_rest = true ∧ drained.staging.MetadataDrained ∧
      fullbit_scan config volume pass drained.staging = some staging' ∧
      Drained link { drained with staging := staging' } last ∧ last.core = st'.core

end

theorem at_rest_iff {pc : Pc} : pc.at_rest = true ↔ ∃ ending, pc = .idle ending := by
  cases pc <;> simp [Pc.at_rest]

/-- A mark makes no metadata wait. -/
theorem Staging.MetadataWaits.of_mark {s : Staging} {chunk : Chunk} {run_id : ℕ}
    (h : (chunk.mark s).MetadataWaits run_id) : s.MetadataWaits run_id := by
  cases chunk with
  | entries rows => exact h.imp_left fun hentries => ⟨hentries.1.of_mark, hentries.2⟩
  | removals rows => exact h.imp_right fun hremovals => hremovals.of_mark

/-! ## A drain after a pass, and a drain before it -/

/-- A drain that has more runs to come. -/
def Visit.extend (later : List ScanRun) (visit : Visit) : Visit :=
  { visit with rest := visit.rest ++ later }

def Pc.extend (later : List ScanRun) : Pc → Pc
  | .idle ending => .idle ending
  | .reading kind visit => .reading kind (visit.extend later)
  | .sending visit chunk attempt => .sending (visit.extend later) chunk attempt
  | .marking visit chunk => .marking (visit.extend later) chunk

/-- All runs a drain is at or has to come are below a bound. -/
def Visit.Below (bound : ℕ) (visit : Visit) : Prop := ∀ run ∈ visit.run :: visit.rest, run.id < bound

def Pc.Below (bound : ℕ) : Pc → Prop
  | .idle ending => ending ≠ .complete
  | .reading _ visit => visit.Below bound
  | .sending visit _ _ => visit.Below bound
  | .marking visit _ => visit.Below bound

/-- **Two agents that differ by a pass**, of which the first has made it and the
second has not, and whose drains are under way. -/
structure Twins (config : AgentConfig) (volume : VolumeFrame) (pass : HashPass) (bound : ℕ)
    (U V : Station) : Prop where
  hashed : HashedFrom config volume pass V.staging U.staging
  spared : Spared V.staging bound (hashed_keys config volume.mountpoint pass.hashes)
  bound_le : bound ≤ V.staging.next_run
  metadata : ∀ run_id, V.staging.MetadataWaits run_id → run_id < bound
  orderly : Orderly V.staging V.pc
  same : U = { V with staging := U.staging, pc := U.pc }

/-- Below the bound the two drains stand at the same point. -/
def Beside (bound : ℕ) (U V : Station) : Prop :=
  ∃ near : Pc, near.Below bound ∧ near.Visits V.staging ∧
    U.pc = near.extend (U.staging.late bound) ∧ V.pc = near.extend (V.staging.late bound)

/-- At the bound each has its own runs to come. -/
def AtBound (bound : ℕ) (U V : Station) : Prop :=
  ∃ facts, U.pc = .visit_runs facts (U.staging.late bound) ∧
    V.pc = .visit_runs facts (V.staging.late bound)

/-- The second agent can make a step as well, and again the two differ by the pass. -/
def Follows (config : AgentConfig) (volume : VolumeFrame) (pass : HashPass) (bound : ℕ) (link : Uplink)
    (m : Move) (U' V : Station) : Prop :=
  ∃ V', V.move link m = some V' ∧ Twins config volume pass bound U' V' ∧
    (Beside bound U' V' ∨ AtBound bound U' V')

section

variable {config : AgentConfig} {volume : VolumeFrame} {pass : HashPass} {bound : ℕ} {later : List ScanRun}
  {link : Uplink} {U V : Station} {facts : Option HostFacts} {visit : Visit} {chunk : Chunk}

theorem beside_of_visit_runs {runs : List ScanRun}
    (hruns : ∀ run ∈ runs, run ∈ V.staging.scan_run.rows ∧ run.id < bound)
    (hU : U.pc = .visit_runs facts (runs ++ U.staging.late bound))
    (hV : V.pc = .visit_runs facts (runs ++ V.staging.late bound)) : Beside bound U V ∨ AtBound bound U V := by
  cases runs with
  | nil => exact Or.inr ⟨facts, hU, hV⟩
  | cons run rest =>
      exact Or.inl ⟨.reading .entries ⟨run, none, facts, rest⟩, fun r hr => (hruns r hr).2,
        fun r hr => (hruns r hr).1, hU, hV⟩

/-- An attempt does not depend on the runs to come. -/
theorem post_extend (st : Station) (staging : Staging) (pc : Pc) (visit : Visit) (chunk : Chunk)
    (attempt : ℕ) (answer : Answer) :
    ({ st with staging := staging, pc := pc } : Station).post link (visit.extend later) chunk attempt answer
      = { st.post link visit chunk attempt answer with
          staging := staging
          pc := (st.post link visit chunk attempt answer).pc.extend later } := by
  have hbatch : chunk.batch (visit.extend later) = chunk.batch visit := by
    cases chunk <;> rfl
  have hfail : ({ st with staging := staging, pc := pc } : Station).fail link (visit.extend later) chunk attempt
      = { st.fail link visit chunk attempt with
          staging := staging
          pc := (st.fail link visit chunk attempt).pc.extend later } := by
    rw [Station.fail, Station.fail]
    dsimp only
    split <;> rfl
  cases answer with
  | unreached => exact hfail
  | lost now =>
      rw [Station.post, Station.post, hbatch]
      dsimp only
      rcases ingest link.server st.core (chunk.batch visit) link.cert_fingerprint now with error | ⟨core, result⟩
      · exact hfail
      · dsimp only
        rw [hfail]
  | reply now =>
      rw [Station.post, Station.post, hbatch]
      dsimp only
      rcases ingest link.server st.core (chunk.batch visit) link.cert_fingerprint now with error | ⟨core, result⟩
      · exact hfail
      · cases chunk <;> rfl

theorem Pc.extend_idle {pc : Pc} {ending : Ending} (h : pc.extend later = .idle ending) : pc = .idle ending := by
  cases pc with
  | idle ended => exact h
  | reading kind visit => exact absurd h (by simp [Pc.extend])
  | sending visit chunk attempt => exact absurd h (by simp [Pc.extend])
  | marking visit chunk => exact absurd h (by simp [Pc.extend])

theorem Pc.extend_reading {pc : Pc} {kind : Kind} (h : pc.extend later = .reading kind visit) :
    ∃ shorter : Visit, pc = .reading kind shorter ∧ shorter.extend later = visit := by
  cases pc with
  | idle ended => exact absurd h (by simp [Pc.extend])
  | reading kind' shorter =>
      obtain ⟨hkind, hvisit⟩ := Pc.reading.inj h
      exact ⟨shorter, by rw [hkind], hvisit⟩
  | sending shorter chunk attempt => exact absurd h (by simp [Pc.extend])
  | marking shorter chunk => exact absurd h (by simp [Pc.extend])

theorem Pc.extend_sending {pc : Pc} {attempt : ℕ} (h : pc.extend later = .sending visit chunk attempt) :
    ∃ shorter : Visit, pc = .sending shorter chunk attempt ∧ shorter.extend later = visit := by
  cases pc with
  | idle ended => exact absurd h (by simp [Pc.extend])
  | reading kind shorter => exact absurd h (by simp [Pc.extend])
  | sending shorter chunk' attempt' =>
      obtain ⟨hvisit, hchunk, hattempt⟩ := Pc.sending.inj h
      exact ⟨shorter, by rw [hchunk, hattempt], hvisit⟩
  | marking shorter chunk => exact absurd h (by simp [Pc.extend])

theorem Pc.extend_marking {pc : Pc} (h : pc.extend later = .marking visit chunk) :
    ∃ shorter : Visit, pc = .marking shorter chunk ∧ shorter.extend later = visit := by
  cases pc with
  | idle ended => exact absurd h (by simp [Pc.extend])
  | reading kind shorter => exact absurd h (by simp [Pc.extend])
  | sending shorter chunk attempt => exact absurd h (by simp [Pc.extend])
  | marking shorter chunk' =>
      obtain ⟨hvisit, hchunk⟩ := Pc.marking.inj h
      exact ⟨shorter, by rw [hchunk], hvisit⟩

/-- Two drains that have just begun. -/
theorem beside_of_begun (hhashed : HashedFrom config volume pass V.staging U.staging)
    (hspared : Spared V.staging bound (hashed_keys config volume.mountpoint pass.hashes))
    (hbound : bound ≤ V.staging.next_run) (hU : U.pc = .visit_runs facts U.staging.pending_runs)
    (hV : V.pc = .visit_runs facts V.staging.pending_runs) : Beside bound U V ∨ AtBound bound U V := by
  refine @beside_of_visit_runs bound U V facts (V.staging.early bound) ?_ ?_ ?_
  · intro run hrun
    obtain ⟨hpending, hbelow⟩ := List.mem_filter.mp hrun
    exact ⟨(Staging.mem_pending_runs.mp hpending).1, of_decide_eq_true hbelow⟩
  · rw [← hhashed.early hspared hbound, early_append_late]
    exact hU
  · rw [early_append_late]
    exact hV

/-- Both drains are begun. -/
theorem Twins.start {ending : Ending} (h : Twins config volume pass bound U V) (hV : V.pc = .idle ending)
    (facts : Option HostFacts) :
    Follows config volume pass bound link (.start facts)
      { U with pc := .visit_runs facts U.staging.pending_runs } V := by
  have hmove : V.move link (.start facts)
      = some { V with pc := .visit_runs facts V.staging.pending_runs } := by rw [Station.move, hV]
  refine ⟨_, hmove, ⟨h.hashed, h.spared, h.bound_le, h.metadata, h.orderly.move hmove, ?_⟩, ?_⟩
  · rw [h.same]
  · exact beside_of_begun h.hashed h.spared h.bound_le rfl rfl

/-- Both read the same rows, or none. -/
theorem Twins.read {kind : Kind} (h : Twins config volume pass bound U V)
    (hbelow : visit.Below bound) (hvisit : visit.Of V.staging)
    (hV : V.pc = .reading kind (visit.extend (V.staging.late bound))) : Follows config volume pass bound link .read
      (U.read link kind (visit.extend (U.staging.late bound))) V := by
  have hmove : V.move link .read = some (V.read link kind (visit.extend (V.staging.late bound))) := by
    rw [Station.move, hV]
  have horderly := h.orderly.move hmove
  have hrun := hbelow visit.run List.mem_cons_self
  have hchunk := h.hashed.read h.spared h.bound_le hrun kind link.chunk_size
  refine ⟨_, hmove, ?_⟩
  rcases read_spec link V kind (visit.extend (V.staging.late bound)) with ⟨hfound, hread⟩ | ⟨hnone, hread⟩
  · have hreadU := (read_spec link U kind (visit.extend (U.staging.late bound))).resolve_right
      fun hother => hfound (hchunk ▸ hother.1)
    rw [hread] at horderly ⊢
    rw [hreadU.2]
    refine ⟨⟨h.hashed, h.spared, h.bound_le, h.metadata, horderly, by rw [h.same]⟩, Or.inl ?_⟩
    refine ⟨.sending visit (Chunk.read V.staging kind visit.run.id link.chunk_size) 1, hbelow,
      ⟨hvisit, Chunk.Due.read _ _ _ _⟩, ?_, rfl⟩
    show Pc.sending _ (Chunk.read U.staging kind visit.run.id link.chunk_size) 1 = _
    rw [hchunk]
    rfl
  · have hreadU := (read_spec link U kind (visit.extend (U.staging.late bound))).resolve_left
      fun hother => hother.1 (hchunk ▸ hnone)
    rw [hread] at horderly ⊢
    rw [hreadU.2]
    refine ⟨⟨h.hashed, h.spared, h.bound_le, h.metadata, horderly, by rw [h.same]⟩, ?_⟩
    cases kind with
    | entries => exact Or.inl ⟨.reading .removals visit, hbelow, hvisit, rfl, rfl⟩
    | removals =>
        refine @beside_of_visit_runs bound _ _ visit.facts visit.rest ?_ rfl rfl
        exact fun run hrun => ⟨hvisit run (List.mem_cons_of_mem _ hrun), hbelow run (List.mem_cons_of_mem _ hrun)⟩

/-- Both make the same attempt. -/
theorem Twins.post {attempt : ℕ} (h : Twins config volume pass bound U V)
    (hbelow : visit.Below bound) (hvisit : visit.Of V.staging) (hdue : chunk.Due V.staging visit)
    (hV : V.pc = .sending (visit.extend (V.staging.late bound)) chunk attempt) (answer : Answer) :
    Follows config volume pass bound link (.post answer)
      (U.post link (visit.extend (U.staging.late bound)) chunk attempt answer) V := by
  have hmove : V.move link (.post answer)
      = some (V.post link (visit.extend (V.staging.late bound)) chunk attempt answer) := by
    rw [Station.move, hV]
  have horderly := h.orderly.move hmove
  have hpostV : V.post link (visit.extend (V.staging.late bound)) chunk attempt answer
      = { V.post link visit chunk attempt answer with
          staging := V.staging
          pc := (V.post link visit chunk attempt answer).pc.extend (V.staging.late bound) } :=
    post_extend V V.staging V.pc visit chunk attempt answer
  have hpostU : U.post link (visit.extend (U.staging.late bound)) chunk attempt answer
      = { V.post link visit chunk attempt answer with
          staging := U.staging
          pc := (V.post link visit chunk attempt answer).pc.extend (U.staging.late bound) } := by
    have hpost := @post_extend (U.staging.late bound) link V U.staging U.pc visit chunk attempt answer
    rw [← h.same] at hpost
    exact hpost
  refine ⟨_, hmove, ?_⟩
  rw [hpostV] at horderly ⊢
  rw [hpostU]
  refine ⟨⟨h.hashed, h.spared, h.bound_le, h.metadata, horderly, rfl⟩, Or.inl ?_⟩
  refine ⟨(V.post link visit chunk attempt answer).pc, ?_, ?_, rfl, rfl⟩
  · obtain ⟨core, pc, acknowledged, heq, -, hcases⟩ := post_spec link V visit chunk attempt answer
    rw [heq]
    rcases hcases with ⟨-, rfl | rfl⟩ | ⟨-, now, result, -, rfl⟩
    · exact fun hcomplete => absurd hcomplete (by decide)
    · exact hbelow
    · cases chunk <;> exact hbelow
  · obtain ⟨core, pc, acknowledged, heq, -, hcases⟩ := post_spec link V visit chunk attempt answer
    rw [heq]
    rcases hcases with ⟨-, rfl | rfl⟩ | ⟨-, now, result, -, rfl⟩
    · trivial
    · exact ⟨hvisit, hdue⟩
    · cases chunk <;> exact ⟨hvisit, hdue⟩

/-- Both mark the same rows. -/
theorem Twins.mark (h : Twins config volume pass bound U V)
    (hbelow : visit.Below bound) (hvisit : visit.Of V.staging) (hdue : chunk.Due V.staging visit)
    (hV : V.pc = .marking (visit.extend (V.staging.late bound)) chunk) :
    Follows config volume pass bound link .mark
      { U with
        staging := chunk.mark U.staging
        pc := .reading chunk.kind (visit.extend (U.staging.late bound)) } V := by
  have hmove : V.move link .mark
      = some { V with
          staging := chunk.mark V.staging
          pc := .reading chunk.kind (visit.extend (V.staging.late bound)) } := by rw [Station.move, hV]
  have hrun := hbelow visit.run List.mem_cons_self
  refine ⟨_, hmove, ?_, Or.inl ?_⟩
  · refine ⟨h.hashed.mark h.spared hdue hrun, h.spared.mark chunk, ?_, ?_, h.orderly.move hmove, ?_⟩
    · show bound ≤ next_id (run_ids (chunk.mark V.staging).scan_run)
      rw [scan_run_mark]
      exact h.bound_le
    · exact fun run_id hwaits => h.metadata run_id hwaits.of_mark
    · rw [h.same]
  · refine ⟨.reading chunk.kind visit, hbelow, ?_, ?_, ?_⟩
    · intro run hmem
      show run ∈ (chunk.mark V.staging).scan_run.rows
      rw [scan_run_mark]
      exact hvisit run hmem
    · show Pc.reading _ _ = Pc.reading _ (visit.extend ((chunk.mark U.staging).late bound))
      rw [late_mark (h.hashed.due h.spared h.bound_le hrun hdue) hrun]
    · show Pc.reading _ _ = Pc.reading _ (visit.extend ((chunk.mark V.staging).late bound))
      rw [late_mark hdue hrun]

/-- **One step of both**: below the bound the second follows the first. -/
theorem Twins.move {U' : Station} {m : Move} (h : Twins config volume pass bound U V)
    (hbeside : Beside bound U V) (hstep : U.move link m = some U') : Follows config volume pass bound link m U' V := by
  obtain ⟨near, hbelow, hvisits, hnearU, hnearV⟩ := hbeside
  rcases move_spec hstep with ⟨facts, ending, rfl, hU, rfl⟩ | ⟨kind, visit, rfl, hU, rfl⟩ |
    ⟨answer, visit, chunk, attempt, rfl, hU, rfl⟩ | ⟨visit, chunk, rfl, hU, rfl⟩
  · have hnear := Pc.extend_idle (hnearU.symm.trans hU)
    rw [hnear] at hnearV
    exact h.start hnearV facts
  · obtain ⟨shorter, rfl, rfl⟩ := Pc.extend_reading (hnearU.symm.trans hU)
    exact h.read hbelow hvisits hnearV
  · obtain ⟨shorter, rfl, rfl⟩ := Pc.extend_sending (hnearU.symm.trans hU)
    exact h.post hbelow hvisits.1 hvisits.2 hnearV answer
  · obtain ⟨shorter, rfl, rfl⟩ := Pc.extend_marking (hnearU.symm.trans hU)
    exact h.mark hbelow hvisits.1 hvisits.2 hnearV

/-- **Both come to the bound** in a drain of the first that is complete. -/
theorem Twins.reach_bound {U' : Station} {moves : List Move} (h : Twins config volume pass bound U V)
    (hpc : Beside bound U V ∨ AtBound bound U V) (hrun : (drain link).run U moves = some U')
    (hend : U'.pc = .idle .complete) :
    ∃ before after U₁ V₁, (drain link).run V before = some V₁ ∧ Twins config volume pass bound U₁ V₁ ∧
      AtBound bound U₁ V₁ ∧ (drain link).run U₁ after = some U' := by
  induction moves generalizing U V with
  | nil =>
      rw [System.run_nil, Option.some.injEq] at hrun
      rcases hpc with ⟨near, hbelow, -, hnear, -⟩ | hbound
      · -- short of the bound no drain is complete
        rw [hrun, hend] at hnear
        have hcomplete := Pc.extend_idle hnear.symm
        rw [hcomplete] at hbelow
        exact absurd rfl hbelow
      · exact ⟨[], [], U, V, rfl, h, hbound, by rw [hrun]; rfl⟩
  | cons m moves ih =>
      rcases hpc with hbeside | hbound
      · rw [System.run_cons, Option.bind_eq_some_iff] at hrun
        obtain ⟨W, hstep, hrun⟩ := hrun
        obtain ⟨V', hstep', htwins, hpc'⟩ := h.move hbeside hstep
        obtain ⟨before, after, U₁, V₁, hbefore, htwins₁, hbound, hafter⟩ := ih htwins hpc' hrun
        refine ⟨m :: before, after, U₁, V₁, ?_, htwins₁, hbound, hafter⟩
        rw [System.run_cons]
        show (V.move link m).bind _ = _
        rw [hstep', Option.bind_some]
        exact hbefore
      · exact ⟨[], m :: moves, U, V, rfl, h, hbound, hrun⟩

/-! ## A drain that gives up -/

/-- A drain can come to rest here, with nothing delivered or marked. -/
def GivesUp (link : Uplink) (st : Station) : Prop :=
  ∃ moves pc rewritten, (drain link).run st moves = some { st with pc := pc, rewritten := rewritten } ∧
    pc.at_rest = true

theorem GivesUp.of_move {st : Station} {m : Move} {pc : Pc} {rewritten : List (Kind × StagedKey)}
    (hmove : st.move link m = some { st with pc := pc, rewritten := rewritten })
    (h : GivesUp link { st with pc := pc, rewritten := rewritten }) : GivesUp link st := by
  obtain ⟨moves, rested, left, hrun, hrest⟩ := h
  refine ⟨m :: moves, rested, left, ?_, hrest⟩
  rw [System.run_cons]
  show (st.move link m).bind _ = _
  rw [hmove, Option.bind_some]
  exact hrun

/-- No attempt reaches the core. -/
theorem gives_up_sending {st : Station} {attempt : ℕ}
    (hpc : st.pc = .sending visit chunk attempt) : GivesUp link st := by
  have hmove : st.move link (.post .unreached) = some (st.fail link visit chunk attempt) := by
    rw [Station.move, hpc]
    rfl
  rw [Station.fail] at hmove
  by_cases hlast : attempt ≥ link.max_attempts
  · rw [if_pos hlast] at hmove
    exact GivesUp.of_move hmove ⟨[], .idle .failed, st.rewritten, rfl, rfl⟩
  · rw [if_neg hlast] at hmove
    exact GivesUp.of_move hmove (gives_up_sending rfl)
termination_by link.max_attempts - attempt
decreasing_by omega

/-- So a drain that is about to visit some runs can come to rest. -/
theorem gives_up_visiting {st : Station} {runs : List ScanRun}
    (hpc : st.pc = .visit_runs facts runs) : GivesUp link st := by
  induction runs generalizing st with
  | nil => exact ⟨[], st.pc, st.rewritten, rfl, at_rest_iff.mpr ⟨_, hpc⟩⟩
  | cons run rest ih =>
      have hremovals : ∀ st : Station, st.pc = .reading .removals ⟨run, none, facts, rest⟩ →
          GivesUp link st := by
        intro st hpc
        have hmove : st.move link .read = some (st.read link .removals ⟨run, none, facts, rest⟩) := by
          rw [Station.move, hpc]
        rcases read_spec link st .removals ⟨run, none, facts, rest⟩ with ⟨-, hread⟩ | ⟨-, hread⟩
        · rw [hread] at hmove
          exact GivesUp.of_move hmove (gives_up_sending rfl)
        · rw [hread] at hmove
          exact GivesUp.of_move hmove (ih rfl)
      have hmove : st.move link .read = some (st.read link .entries ⟨run, none, facts, rest⟩) := by
        rw [Station.move, hpc]
        rfl
      rcases read_spec link st .entries ⟨run, none, facts, rest⟩ with ⟨-, hread⟩ | ⟨-, hread⟩
      · rw [hread] at hmove
        exact GivesUp.of_move hmove (gives_up_sending rfl)
      · rw [hread] at hmove
        exact GivesUp.of_move hmove (hremovals _ rfl)

/-- The history of what writers have rewritten is read by no step. -/
theorem move_rewritten {st st' : Station} {m : Move} (h : st.move link m = some st')
    (rewritten : List (Kind × StagedKey)) :
    ∃ left, ({ st with rewritten := rewritten } : Station).move link m
      = some { st' with rewritten := left } := by
  rcases move_spec h with ⟨facts, ending, rfl, hpc, rfl⟩ | ⟨kind, visit, rfl, hpc, rfl⟩ |
    ⟨answer, visit, chunk, attempt, rfl, hpc, rfl⟩ | ⟨visit, chunk, rfl, hpc, rfl⟩
  · refine ⟨rewritten, ?_⟩
    rw [Station.move]
    dsimp only
    rw [hpc]
  · rw [Station.move]
    dsimp only
    rw [hpc]
    dsimp only [Station.read]
    split
    · refine ⟨rewritten, ?_⟩
      cases kind <;> rfl
    · exact ⟨[], rfl⟩
  · refine ⟨rewritten, ?_⟩
    rw [Station.move]
    dsimp only
    rw [hpc]
    cases answer with
    | unreached => rfl
    | lost now =>
        dsimp only [Station.post]
        split <;> rfl
    | reply now =>
        dsimp only [Station.post]
        split <;> rfl
  · refine ⟨rewritten, ?_⟩
    rw [Station.move]
    dsimp only
    rw [hpc]

theorem run_rewritten {st st' : Station} {moves : List Move} (h : (drain link).run st moves = some st')
    (rewritten : List (Kind × StagedKey)) :
    ∃ left, (drain link).run { st with rewritten := rewritten } moves
      = some { st' with rewritten := left } := by
  induction moves generalizing st rewritten with
  | nil =>
      rw [System.run_nil, Option.some.injEq] at h
      exact ⟨rewritten, by rw [← h]; rfl⟩
  | cons m moves ih =>
      rw [System.run_cons, Option.bind_eq_some_iff] at h
      obtain ⟨u, hmove, hrun⟩ := h
      obtain ⟨left, hmove'⟩ := move_rewritten hmove rewritten
      obtain ⟨last, hrun'⟩ := ih hrun left
      refine ⟨last, ?_⟩
      rw [System.run_cons]
      show (({ st with rewritten := rewritten } : Station).move link m).bind _ = _
      rw [hmove', Option.bind_some]
      exact hrun'

/-! ## A pass can wait for the metadata -/

/-- At the bound nothing waits below it. -/
theorem Twins.beyond (h : Twins config volume pass bound U V)
    (hV : V.pc = .visit_runs facts (V.staging.late bound)) {run_id : ℕ}
    (hwaits : entry_outbox.Waiting V.staging.staged_entry run_id ∨
      removal_outbox.Waiting V.staging.staged_removal run_id) : bound ≤ run_id := by
  have horderly := h.orderly
  rw [hV] at horderly
  have hlate : ∀ run ∈ V.staging.late bound, bound ≤ run.id :=
    fun run hrun => of_decide_eq_true (List.mem_filter.mp hrun).2
  rcases hruns : V.staging.late bound with _ | ⟨run, rest⟩
  · rw [hruns] at horderly
    rcases hwaits with hentries | hremovals
    · exact absurd hentries (horderly.entries run_id)
    · exact absurd hremovals (horderly.removals run_id)
  · rw [hruns] at horderly hlate
    have hcovers : Covers V.staging .entries ⟨run, none, facts, rest⟩ := horderly
    have hmem : run_id ∈ (run :: rest).map ScanRun.id := by
      rw [List.map_cons, List.mem_cons]
      rcases hwaits with hentries | hremovals
      · exact (hcovers.entries run_id hentries).imp_left fun hrun => hrun.2
      · exact hcovers.removals run_id hremovals
    obtain ⟨other, hother, rfl⟩ := List.mem_map.mp hmem
    exact hlate other hother

/-- So what the first has to do there is what is pending with it. -/
theorem Twins.pending_runs (h : Twins config volume pass bound U V)
    (hV : V.pc = .visit_runs facts (V.staging.late bound)) : U.staging.pending_runs = U.staging.late bound := by
  have hearly : V.staging.early bound = [] := by
    rw [List.eq_nil_iff_forall_not_mem]
    intro run hrun
    obtain ⟨hpending, hbelow⟩ := List.mem_filter.mp hrun
    have hle := h.beyond hV (Staging.mem_pending_runs.mp hpending).2
    have hlt : run.id < bound := of_decide_eq_true hbelow
    omega
  rw [← early_append_late U.staging bound, h.hashed.early h.spared h.bound_le, hearly, List.nil_append]

/-- Metadata waits in a run there is. -/
theorem metadata_waits_lt {s : Staging} {run_id : ℕ} (h : s.MetadataWaits run_id) : run_id < s.next_run := by
  rcases h with ⟨hentries, -⟩ | hremovals
  · obtain ⟨run, hrun, rfl⟩ := Staging.run_of_entry hentries
    exact Staging.lt_next_run (List.mem_map_of_mem hrun)
  · obtain ⟨run, hrun, rfl⟩ := Staging.run_of_removal hremovals
    exact Staging.lt_next_run (List.mem_map_of_mem hrun)

/-- The least bound beyond the metadata that waits. -/
theorem least_bound (s : Staging) : ∃ bound, (∀ run_id, s.MetadataWaits run_id → run_id < bound) ∧
      ∀ other, (∀ run_id, s.MetadataWaits run_id → run_id < other) → bound ≤ other := by
  classical
  have hsome : ∃ bound, ∀ run_id, s.MetadataWaits run_id → run_id < bound :=
    ⟨s.next_run, fun _ h => metadata_waits_lt h⟩
  exact ⟨Nat.find hsome, Nat.find_spec hsome, fun other hother => Nat.find_min' hsome hother⟩

/-- **A pass can wait for the metadata** when every row it hashes is pushed, or waits
in a run after those in which metadata waits. -/
theorem as_if_drained {st : Station} (hrest : st.pc.at_rest = true)
    (hbehind : ∀ k ∈ hashed_keys config volume.mountpoint pass.hashes, ∀ run_id,
      entry_outbox.awaiting st.staging.staged_entry k = some run_id →
        ∀ metadata_run, st.staging.MetadataWaits metadata_run → metadata_run < run_id) :
    st.AsIfDrained config link volume pass := by
  intro staging st' hpass hdrained
  obtain ⟨ending, hidle⟩ := at_rest_iff.mp hrest
  have hhashed := fullbit_scan_iff.mp hpass
  obtain ⟨bound, hbound, hleast⟩ := least_bound st.staging
  have hspared : Spared st.staging bound (hashed_keys config volume.mountpoint pass.hashes) :=
    fun k hk run_id hawaiting => hleast run_id (hbehind k hk run_id hawaiting)
  have hnext : bound ≤ st.staging.next_run := hleast _ fun _ h => metadata_waits_lt h
  obtain ⟨facts, moves, hrun, hend⟩ := hdrained
  -- a drain with the pass and a drain without it are begun
  let U : Station := { st with staging := staging, pc := .visit_runs facts staging.pending_runs }
  let V : Station := { st with pc := .visit_runs facts st.staging.pending_runs }
  have hstart : st.move link (.start facts) = some V := by rw [Station.move, hidle]
  have hrun : (drain link).run U moves = some st' := by
    rw [System.run_cons] at hrun
    have hstart' : ({ st with staging := staging } : Station).move link (.start facts) = some U := by
      rw [Station.move, hidle]
    have hrun : (({ st with staging := staging } : Station).move link (.start facts)).bind _ = some st' := hrun
    rw [hstart', Option.bind_some] at hrun
    exact hrun
  have htwins : Twins config volume pass bound U V :=
    ⟨hhashed, hspared, hnext, hbound, Orderly.start _ _, rfl⟩
  have hbegun : Beside bound U V ∨ AtBound bound U V := beside_of_begun hhashed hspared hnext rfl rfl
  obtain ⟨before, after, U₁, V₁, hbefore, htwins₁, ⟨facts', hU₁, hV₁⟩, hafter⟩ :=
    htwins.reach_bound hbegun hrun hend
  -- at the bound the second gives up, and the pass is made
  obtain ⟨giving_up, pc, rewritten, hgiving_up, hresting⟩ := @gives_up_visiting link _ V₁ _ hV₁
  obtain ⟨left, hlast⟩ := run_rewritten hafter rewritten
  refine ⟨.start facts :: (before ++ giving_up), { V₁ with pc := pc, rewritten := rewritten },
    U₁.staging, { st' with rewritten := left }, ?_, hresting, ?_, fullbit_scan_iff.mpr htwins₁.hashed, ?_, rfl⟩
  · rw [System.run_cons]
    show (st.move link (.start facts)).bind (fun t => (drain link).run t (before ++ giving_up)) = _
    rw [hstart, Option.bind_some, System.run_append, hbefore, Option.bind_some]
    exact hgiving_up
  · intro run_id hwaits
    have hlt := htwins₁.metadata run_id hwaits
    have hle := htwins₁.beyond hV₁ (hwaits.imp_left And.left)
    omega
  · obtain ⟨resting, hpc⟩ := at_rest_iff.mp hresting
    refine ⟨facts', after, ?_, hend⟩
    have hstart' : ({ V₁ with staging := U₁.staging, pc := pc, rewritten := rewritten } : Station).move link
        (.start facts') = some { U₁ with rewritten := rewritten } := by
      rw [Station.move, hpc]
      dsimp only
      rw [htwins₁.pending_runs hV₁, ← hU₁]
      conv_rhs => rw [htwins₁.same]
    rw [System.run_cons]
    show (({ V₁ with staging := U₁.staging, pc := pc, rewritten := rewritten } : Station).move link
      (.start facts')).bind _ = _
    rw [hstart', Option.bind_some]
    exact hlast

end

end Fathom.Agent
