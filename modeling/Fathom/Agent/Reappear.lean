/-
**A file that comes back** (`StagingStore.stage_batch`, `stage_removals`,
`load_baseline` and the guard of `IngestService._upsert_entries`).

The row of a removed file stays in the staging database. When the file comes back
with the `mtime` and size it had, no scan stages it: neither a full walk, for the
guard of the upsert compares with the old row, nor the feed, for the baseline still
has the file. Nothing is sent, and the row stays removed. And a file that comes back
changed is hashed in the same cycle where a full-bit pass follows the walk: then
what is sent is a full-bit entry, which leaves the marker alone.
-/
import Fathom.Agent.Converge

set_option autoImplicit false

namespace Fathom.Agent

open Fathom.Ingest (Identity)

section

variable (config : AgentConfig) (root : List FileName) (tree : Tree) (link : Uplink) (st : Station)

/-- The row of a file has been removed, or its removal is on the way. -/
def Withdrawn (identity : Identity) : Prop :=
  st.core.presence link.cert_fingerprint (path_text root) identity = some false ∨
    (st.core.presence link.cert_fingerprint (path_text root) identity = some true ∧
      st.staging.waiting_removal (file_key config root identity) ≠ none)

/-- The row of a file is present, and no removal of it is on the way. -/
def Back (identity : Identity) : Prop :=
  st.core.presence link.cert_fingerprint (path_text root) identity = some true ∧
    st.staging.waiting_removal (file_key config root identity) = none

/-- What a cycle needs to bring a removed file back. -/
structure Returns (cycle : Cycle) (identity : Identity) : Prop where
  /-- an incremental scan sees the file without leaving the filesystem -/
  seen : cycle.scan.incremental config root st.staging = true → Seen config root tree identity
  /-- the cycle does not hash it -/
  unhashed : cycle.scan.incremental config root st.staging = false →
    ∀ pass, cycle.pass = some pass → identity ∉ pass.hashes.map Prod.fst
  /-- the scan stages it anew, or a metadata entry waits already, after any removal -/
  staged : Restaged config root tree cycle.scan st.staging identity ∨
    ∃ epoch, st.staging.waiting_entry (file_key config root identity) = some (epoch, .metadata) ∧
      ∀ after, st.staging.waiting_removal (file_key config root identity) = some after → after < epoch

end

section

variable {config : AgentConfig} {root : List FileName} {tree : Tree} {link : Uplink} {st : Station}
  {cycle : Cycle} {identity : Identity}

variable {scan : Scan} {s : Staging}

/-- An incremental scan sees what it finds. -/
theorem seen_of_found (hincremental : scan.incremental config root s = true)
    (h : Found config root tree scan s identity) : Seen config root tree identity := by
  obtain ⟨names, node, hholds, hid⟩ := h
  rw [Scan.scope, if_pos hincremental] at hholds
  exact ⟨names, node, hholds, hid⟩

theorem found_of_seen (hincremental : scan.incremental config root s = true) (h : Seen config root tree identity) :
    Found config root tree scan s identity := by
  obtain ⟨names, node, hholds, hid⟩ := h
  refine ⟨names, node, ?_, hid⟩
  rw [Scan.scope, if_pos hincremental]
  exact hholds

/-- A full walk finds what is on disk. -/
theorem found_of_on_disk (hfull : scan.incremental config root s = false) (h : OnDisk config root tree identity) :
    Found config root tree scan s identity := by
  obtain ⟨names, node, hholds, hid⟩ := h
  refine ⟨names, node, ?_, hid⟩
  rw [Scan.scope, if_neg (Bool.eq_false_iff.mp hfull)]
  exact hholds

/-- Of a removed file only a metadata entry that waits after its removal arrives. -/
theorem arrives_withdrawn_iff {marker : Option Bool} {write : Option (ℕ × Ingest.Mode)} {withdrawal : Option ℕ}
    (h : marker = some false ∨ (marker = some true ∧ withdrawal ≠ none)) : Arrives marker write withdrawal ↔
      ∃ epoch, write = some (epoch, .metadata) ∧ ∀ after, withdrawal = some after → after < epoch := by
  have hnot : ¬ (marker = some true ∧ withdrawal = none) := by
    rintro ⟨hmarker, hnone⟩
    rcases h with hremoved | ⟨-, hwaits⟩
    · exact absurd (hmarker.symm.trans hremoved) (by simp)
    · exact hwaits hnone
  have hsome : marker ≠ none := by
    rintro rfl
    rcases h with habs | ⟨habs, -⟩
    · exact absurd habs (by simp)
    · exact absurd habs (by simp)
  rcases write with _ | ⟨epoch, mode⟩
  · constructor
    · exact fun habs => absurd habs hnot
    · rintro ⟨epoch, habs, -⟩
      exact absurd habs (by simp)
  · rcases mode with _ | _
    · constructor
      · exact fun harrives => ⟨epoch, rfl, harrives⟩
      · rintro ⟨epoch', heq, hafter⟩
        obtain rfl := (Prod.mk.inj (Option.some.inj heq)).1
        exact hafter
    · constructor
      · rintro ⟨-, habs | habs⟩
        · exact absurd habs hsome
        · exact absurd habs hnot
      · rintro ⟨epoch', heq, -⟩
        exact absurd (Prod.mk.inj (Option.some.inj heq)).2 (by decide)

/-- **A removed file that is on disk survives a cycle exactly when the cycle brings it
back.** -/
theorem survives_iff_returns (hwithdrawn : Withdrawn config root link st identity)
    (hdisk : OnDisk config root tree identity) :
    Survives config root tree link st cycle identity ↔ Returns config root tree st cycle identity := by
  have harrives := @arrives_withdrawn_iff _ (st.staging.waiting_entry (file_key config root identity)) _
    hwithdrawn
  constructor
  · intro hsurvives
    have hunhashed : ¬ Hashed config root tree cycle st.staging identity := by
      intro hhash
      rcases hsurvives.hashed hhash with hnone | ⟨hpresent, hwaits⟩
      · rcases hwithdrawn with habs | ⟨habs, -⟩
        · exact absurd (hnone.symm.trans habs) (by simp)
        · exact absurd (hnone.symm.trans habs) (by simp)
      · rcases hwithdrawn with habs | ⟨-, habs⟩
        · exact absurd (hpresent.symm.trans habs) (by simp)
        · exact habs hwaits
    have hstaged := hsurvives.unhashed hunhashed
    rw [harrives] at hstaged
    refine ⟨fun hincremental => ?_, fun hfull pass hpass hmem => ?_, hstaged⟩
    · by_contra hseen
      have hunfound : ¬ Found config root tree cycle.scan st.staging identity :=
        fun hfound => hseen (seen_of_found hincremental hfound)
      -- what is not found and is staged is removed; what is not staged does not wait
      refine hsurvives.kept ⟨hincremental, ?_, hunfound⟩
      rcases hstaged with ⟨names, node, hholds, hid, -⟩ | ⟨epoch, hwaits, -⟩
      · exact absurd ⟨names, node, hholds, hid⟩ hunfound
      · obtain ⟨r, hr, -⟩ := Outbox.awaiting_some_iff.mp (Staging.waiting_entry_some hwaits).1
        exact ⟨r, hr⟩
    · exact hunhashed ⟨hfull, ⟨pass, hpass, hmem⟩, Or.inr (found_of_on_disk hfull hdisk)⟩
  · rintro ⟨hseen, hpass, hstaged⟩
    have hunhashed : ¬ Hashed config root tree cycle st.staging identity := by
      rintro ⟨hfull, ⟨pass, hsome, hmem⟩, -⟩
      exact hpass hfull pass hsome hmem
    refine ⟨?_, fun habs => absurd habs hunhashed, fun _ => ?_⟩
    · rintro ⟨hincremental, -, hunfound⟩
      exact hunfound (found_of_seen hincremental (hseen hincremental))
    · rw [harrives]
      exact hstaged

/-- **A removed file that is on disk again is back** after a cycle and a drain,
exactly when the cycle brings it back. -/
theorem removed_file_returns {w₀ w : World} {events : List Happening} {s' : Staging} {st' : Station}
    (hinit : (volume_history config root link).init w₀)
    (hrun : (volume_history config root link).run w₀ events = some w)
    (hwithdrawn : Withdrawn config root link w.station identity)
    (hdisk : OnDisk config root w.tree identity)
    (hcycle : scan_cycle config root w.tree cycle w.station.staging = some s')
    (hdrain : Drained link { w.station with staging := s' } st') :
    Back config root link st' identity ↔ Returns config root w.tree w.station cycle identity := by
  have hnothing : st'.staging.waiting_removal (file_key config root identity) = none := by
    by_contra hsome
    obtain ⟨after, hafter⟩ := Option.ne_none_iff_exists'.mp hsome
    exact hdrain.settled.removals after (Outbox.Waiting.of_awaiting hafter)
  rw [← survives_iff_returns hwithdrawn hdisk, ← presence_after_cycle (of_volume hinit hrun) hcycle hdrain]
  exact and_iff_left hnothing

end

/-! ## Samples -/

/-- The file of a tree, with another `mtime`. -/
def touched_file : Tree := ⟨fun _ => ⟨10, 1, 2, 2, 0, 0⟩, one_file.node, one_file.fault, one_file.listing⟩

/-- A file is walked and drained, then deleted; its removal is staged and drained, and
the file comes back in a tree. -/
def removal_and_return (tree : Tree) : List Happening :=
  deletion ++
    [.write (.start_run "h" "/m" .metadata none), .write (.stage_removals 2 "h" "/m" [⟨⟨1, 7⟩, "/m/a"⟩]),
      .write (.finish_run 2 0), .move (.start none), .move .read, .move .read, .move (.post (.reply 1)),
      .move .mark, .move .read, .change tree]

/-- A file that comes back touched is back after a full walk. -/
theorem removed_file_returns_touched :
    Back (sample_config false) sample_root sample_link
        ((((World.fresh one_file).after (removal_and_return touched_file)).cycled
          (forced_walk touched_file none)).drained one_chunk) ⟨1, 7⟩ ↔
      Returns (sample_config false) sample_root touched_file
        ((World.fresh one_file).after (removal_and_return touched_file)).station
        (forced_walk touched_file none) ⟨1, 7⟩ :=
  @removed_file_returns (sample_config false) sample_root sample_link (forced_walk touched_file none) ⟨1, 7⟩
    (.fresh one_file) ((World.fresh one_file).after (removal_and_return touched_file))
    (removal_and_return touched_file)
    (((World.fresh one_file).after (removal_and_return touched_file)).cycled
      (forced_walk touched_file none)).staging
    ((((World.fresh one_file).after (removal_and_return touched_file)).cycled
      (forced_walk touched_file none)).drained one_chunk)
    ⟨rfl, rfl⟩ rfl (Or.inl rfl) (on_disk_iff.mpr (by decide)) rfl ⟨none, one_chunk.tail, rfl, rfl⟩

/-- A file that comes back as it was stays removed. -/
theorem unchanged_file_stays_removed :
    ¬ ∀ (config : AgentConfig) (root : List FileName) (link : Uplink) (w₀ w : World)
        (events : List Happening) (cycle : Cycle) (identity : Identity) (s' : Staging) (st' : Station),
      (volume_history config root link).init w₀ → (volume_history config root link).run w₀ events = some w →
      Withdrawn config root link w.station identity → OnDisk config root w.tree identity →
      scan_cycle config root w.tree cycle w.station.staging = some s' →
      Drained link { w.station with staging := s' } st' → Back config root link st' identity := by
  intro hall
  have hback := hall (sample_config false) sample_root sample_link (.fresh one_file)
    ((World.fresh one_file).after (removal_and_return one_file)) (removal_and_return one_file)
    (forced_walk one_file none) ⟨1, 7⟩
    (((World.fresh one_file).after (removal_and_return one_file)).cycled (forced_walk one_file none)).staging
    ((((World.fresh one_file).after (removal_and_return one_file)).cycled (forced_walk one_file none)).drained
      [.start none])
    ⟨rfl, rfl⟩ rfl (Or.inl rfl) (on_disk_iff.mpr (by decide)) rfl ⟨none, [], rfl, rfl⟩
  exact absurd (hback.1 : some false = some true) (by decide)

end Fathom.Agent
