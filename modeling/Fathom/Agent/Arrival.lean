/-
**What a complete drain leaves in the catalogue** (`PushClient.drain` against
`IngestService.ingest`).

A drain goes through the runs in order, each with its entries before its removals,
and repeats what is not acknowledged. For one file that is a queue with at most one
entry and one removal in it, and the presence of its row is a value in transit:
every step of the drain leaves what the row is destined to be as it was. At the end
nothing waits, and the row is as it was destined to be when the drain began.
-/
import Fathom.Agent.Cycle
import Fathom.Ingest.Presence
import Fathom.Lib.Transit

set_option autoImplicit false

namespace Fathom.Agent

open Fathom.Ingest (Identity Mode Catalogue RemovedKey EntryFrame IngestBatch IngestResult Instant Accepts
  deliver withdraw removal_filter ingest presence_ingest)
open Fathom.Security (PurePath validate_agent_path validate_agent_path_absolute within_posix)
open Staging (entry_outbox removal_outbox staged_row staged_conflict removal_row removal_conflict
  push_entry push_removal)

/-! ## The staging database of one volume -/

/-- What holds of the staging database of one volume: its runs are sent for the
volume, and its rows are of the volume and below its root. -/
structure OfVolume (config : AgentConfig) (root : List FileName) (s : Staging) : Prop where
  runs : ∀ run ∈ s.scan_run.rows, (volume_frame run).mountpoint = path_text root
  entries : ∀ r ∈ s.staged_entry.rows, (r.host_id = config.host_id ∧ r.volume_id = path_text root) ∧
    ∃ rest, r.entry.path = path_text (root ++ rest)
  removals : ∀ r ∈ s.staged_removal.rows, r.host_id = config.host_id ∧ r.volume_id = path_text root

section

variable {config : AgentConfig} {root : List FileName} {s u : Staging}

/-- The key a file of the volume is staged under. -/
def file_key (config : AgentConfig) (root : List FileName) (identity : Identity) : StagedKey :=
  ⟨config.host_id, path_text root, identity⟩

theorem OfVolume.entry_key (h : OfVolume config root s) {r : StagedEntry} (hr : r ∈ s.staged_entry.rows) :
    r.key = file_key config root r.entry.identity := by
  obtain ⟨⟨hhost, hvolume⟩, -⟩ := h.entries r hr
  rw [StagedEntry.key, hhost, hvolume, file_key]

theorem OfVolume.removal_key (h : OfVolume config root s) {r : StagedRemoval}
    (hr : r ∈ s.staged_removal.rows) : r.key = file_key config root r.identity := by
  obtain ⟨hhost, hvolume⟩ := h.removals r hr
  rw [StagedRemoval.key, hhost, hvolume, file_key]

theorem OfVolume.empty : OfVolume config root .empty :=
  ⟨fun _ h => absurd h List.not_mem_nil, fun _ h => absurd h List.not_mem_nil,
    fun _ h => absurd h List.not_mem_nil⟩

variable {trees : List Tree} {link : Uplink}

/-- What a walk reports is below the root. -/
theorem path_of_walked {e : FsEntry} (h : walked_from config root trees e = true) :
    ∃ rest, e.path = path_text (root ++ rest) := by
  obtain ⟨tree, -, hwalk⟩ := List.any_eq_true.mp h
  have hbelow : ∀ scope, e ∈ tree.walk scope root → ∃ rest, e.path = path_text (root ++ rest) := by
    intro scope he
    obtain ⟨names, node, hholds, hreports⟩ := Tree.holds_of_walk he
    obtain ⟨rest, rfl⟩ := hholds.under_root
    exact ⟨rest, hreports.path⟩
  rcases of_decide_eq_true hwalk with he | he
  · exact hbelow _ he
  · exact hbelow _ he

/-- **A call for a volume keeps the database of one volume so.** -/
theorem OfVolume.write {call : Write} (h : OfVolume config root s) (hcall : call.of_volume config root trees = true)
    (hwrite : s.write call = some u) : OfVolume config root u := by
  cases call with
  | start_run host_id volume_id mode volume =>
      obtain ⟨-, hvolume, hframe⟩ := of_decide_eq_true hcall
      rw [← Option.some.inj hwrite]
      refine ⟨?_, h.entries, h.removals⟩
      intro run hrun
      rcases Table.mem_put hrun with rfl | ⟨hold, -⟩
      · rw [volume_frame]
        cases volume with
        | none => exact hvolume
        | some frame => exact hframe frame rfl
      · exact h.runs run hold
  | finish_run run_id finished_at =>
      rw [← Option.some.inj hwrite]
      refine ⟨?_, h.entries, h.removals⟩
      intro run hrun
      obtain ⟨row, hrow, rfl⟩ := List.mem_map.mp hrun
      split
      · exact h.runs row hrow
      · exact h.runs row hrow
  | stage_batch run_id host_id volume_id entries =>
      obtain ⟨hhost, hvolume, hentries⟩ := of_decide_eq_true hcall
      obtain ⟨hruns, hentry, hremoval⟩ := Staging.set_entries_spec hwrite
      refine ⟨by rw [hruns]; exact h.runs, ?_, by rw [hremoval]; exact h.removals⟩
      rw [hentry]
      apply Table.forall_upsert_many h.entries
      · intro x hx
        obtain ⟨e, he, rfl⟩ := List.mem_map.mp hx
        exact ⟨⟨hhost, hvolume⟩, path_of_walked (List.all_eq_true.mp hentries e he)⟩
      · -- the key of a row stays, its path is that of the entry
        intro r x hr hx
        exact ⟨hr.1, hx.2⟩
  | stage_hash key partial_hash full_hash run_id =>
      obtain ⟨hruns, hentry, hremoval⟩ := Staging.set_entries_spec hwrite
      refine ⟨by rw [hruns]; exact h.runs, ?_, by rw [hremoval]; exact h.removals⟩
      rw [hentry]
      intro r hr
      obtain ⟨row, hrow, rfl⟩ := List.mem_map.mp hr
      split
      · exact h.entries row hrow
      · exact h.entries row hrow
  | stage_removals run_id host_id volume_id removals =>
      obtain ⟨hhost, hvolume⟩ := of_decide_eq_true hcall
      obtain ⟨hruns, hentry, hremoval⟩ := Staging.set_removals_spec hwrite
      refine ⟨by rw [hruns]; exact h.runs, by rw [hentry]; exact h.entries, ?_⟩
      rw [hremoval]
      apply Table.forall_upsert_many h.removals
      · intro x hx
        obtain ⟨r, -, rfl⟩ := List.mem_map.mp hx
        exact ⟨hhost, hvolume⟩
      · exact fun r x hr _ => hr

theorem OfVolume.calls {calls : List Write} (h : OfVolume config root s)
    (hrun : (calls_of config root trees).run s calls = some u) : OfVolume config root u := by
  refine System.run_keeps (I := OfVolume config root) ?_ h hrun
  intro s call t hs hstep
  have hstep : (if call.of_volume config root trees then s.write call else none) = some t := hstep
  split at hstep
  · rename_i hcall
    exact hs.write hcall hstep
  · exact absurd hstep (by simp)

/-- So does the mark of a chunk. -/
theorem OfVolume.mark (h : OfVolume config root s) (chunk : Chunk) : OfVolume config root (chunk.mark s) := by
  cases chunk with
  | entries rows =>
      refine ⟨h.runs, ?_, h.removals⟩
      intro r hr
      rcases Outbox.mem_mark hr with ⟨row, hrow, -, rfl⟩ | ⟨hmem, -⟩
      · exact h.entries row hrow
      · exact h.entries r hmem
  | removals rows =>
      refine ⟨h.runs, h.entries, ?_⟩
      intro r hr
      rcases Outbox.mem_mark hr with ⟨row, hrow, -, rfl⟩ | ⟨hmem, -⟩
      · exact h.removals row hrow
      · exact h.removals r hmem

/-- A step of the drain marks a chunk, or leaves the staging database alone. -/
theorem staging_of_move {st st' : Station} {m : Move} (h : st.move link m = some st') :
    st'.staging = st.staging ∨ ∃ chunk : Chunk, st'.staging = chunk.mark st.staging := by
  rcases move_spec h with ⟨facts, ending, -, -, rfl⟩ | ⟨kind, visit, -, -, rfl⟩ |
    ⟨answer, visit, chunk, attempt, -, -, rfl⟩ | ⟨visit, chunk, -, -, rfl⟩
  · exact Or.inl rfl
  · rcases read_spec link st kind visit with ⟨-, heq⟩ | ⟨-, heq⟩
    · rw [heq]
      exact Or.inl rfl
    · rw [heq]
      exact Or.inl rfl
  · obtain ⟨core, pc, acknowledged, heq, -, -⟩ := post_spec link st visit chunk attempt answer
    rw [heq]
    exact Or.inl rfl
  · exact Or.inr ⟨chunk, rfl⟩

theorem OfVolume.move {st st' : Station} {m : Move} (h : OfVolume config root st.staging)
    (hstep : st.move link m = some st') : OfVolume config root st'.staging := by
  rcases staging_of_move hstep with heq | ⟨chunk, heq⟩
  · rw [heq]
    exact h
  · rw [heq]
    exact h.mark chunk

/-- **In every history of a volume the staging database is of the volume.** -/
theorem of_volume {w₀ w : World} {events : List Happening} (hinit : (volume_history config root link).init w₀)
    (hrun : (volume_history config root link).run w₀ events = some w) : OfVolume config root w.station.staging := by
  refine System.run_keeps (S := volume_history config root link)
    (I := fun w => OfVolume config root w.station.staging) ?_ ?_ hrun
  · intro w event w' hw hstep
    have hstep : w.step config root link event = some w' := hstep
    cases event with
    | change tree =>
        rw [← Option.some.inj hstep]
        exact hw
    | write call =>
        rw [World.step] at hstep
        split at hstep
        · rename_i hcall
          obtain ⟨station, hstation, rfl⟩ := Option.map_eq_some_iff.mp hstep
          obtain ⟨staging, hwrite, rfl⟩ := Option.map_eq_some_iff.mp hstation
          exact hw.write hcall hwrite
        · exact absurd hstep (by simp)
    | move m =>
        obtain ⟨station, hstation, rfl⟩ := Option.map_eq_some_iff.mp hstep
        exact hw.move hstation
  · rw [hinit.1]
    exact OfVolume.empty

end

/-! ## One file in transit -/

/-- The run in which an entry waits, and its mode. -/
def Staging.waiting_entry (s : Staging) (key : StagedKey) : Option (ℕ × Mode) :=
  (entry_outbox.awaiting s.staged_entry key).bind fun id =>
    (s.scan_run.find id).map fun run => (id, run.mode)

/-- The run in which a removal waits. -/
def Staging.waiting_removal (s : Staging) (key : StagedKey) : Option ℕ :=
  removal_outbox.awaiting s.staged_removal key

/-- An entry waits in a run of its mode. -/
theorem Staging.waiting_entry_some {s : Staging} {key : StagedKey} {p : ℕ × Mode} (h : s.waiting_entry key = some p) :
    entry_outbox.awaiting s.staged_entry key = some p.1 ∧ ∃ run, s.scan_run.find p.1 = some run ∧ run.mode = p.2 := by
  obtain ⟨id, hid, hrun⟩ := Option.bind_eq_some_iff.mp h
  obtain ⟨run, hfind, rfl⟩ := Option.map_eq_some_iff.mp hrun
  exact ⟨hid, run, hfind, rfl⟩

theorem Staging.waiting_entry_waits {s : Staging} {key : StagedKey} {p : ℕ × Mode}
    (h : s.waiting_entry key = some p) : entry_outbox.Waiting s.staged_entry p.1 :=
  Outbox.Waiting.of_awaiting (Staging.waiting_entry_some h).1

section

variable (config : AgentConfig) (root : List FileName) (link : Uplink)

/-- The presence of a file's row in the core, and what waits to be pushed for it. -/
def in_transit (st : Station) (identity : Identity) : Transit ℕ (Option Bool) where
  value := st.core.presence link.cert_fingerprint (path_text root) identity
  write := (st.staging.waiting_entry (file_key config root identity)).map fun p => (p.1, deliver p.2)
  withdrawal := st.staging.waiting_removal (file_key config root identity)

end

/-! ## Chunks in flight -/

/-- A chunk of a run whose rows still wait. -/
def Chunk.Due (s : Staging) (visit : Visit) : Chunk → Prop
  | .entries rows => (rows.map StagedEntry.key).Nodup ∧
      ∀ r ∈ rows, r ∈ s.staged_entry.rows ∧ r.scan_run_id = visit.run.id ∧ r.pushed = false
  | .removals rows =>
      ∀ r ∈ rows, r ∈ s.staged_removal.rows ∧ r.scan_run_id = visit.run.id ∧ r.pushed = false

/-- What a chunk makes of the presence of a row. -/
def Chunk.effect (visit : Visit) : Chunk → Option Bool → Option Bool
  | .entries _ => deliver visit.run.mode
  | .removals _ => withdraw

theorem Chunk.effect_twice (visit : Visit) (chunk : Chunk) (marker : Option Bool) :
    chunk.effect visit (chunk.effect visit marker) = chunk.effect visit marker := by
  cases chunk with
  | entries rows => exact Ingest.deliver_twice _ _
  | removals rows => exact Ingest.withdraw_twice _

theorem Chunk.Due.read (s : Staging) (kind : Kind) (visit : Visit) (limit : ℕ) :
    (Chunk.read s kind visit.run.id limit).Due s visit := by
  cases kind with
  | entries =>
      refine ⟨?_, fun r hr => Outbox.mem_read hr⟩
      have hsub : (entry_outbox.read s.staged_entry visit.run.id limit).Sublist s.staged_entry.rows :=
        (List.take_sublist _ _).trans List.filter_sublist
      exact s.staged_entry.unique.sublist (hsub.map _)
  | removals => exact fun r hr => Outbox.mem_read hr

section

variable {config : AgentConfig} {root : List FileName} {link : Uplink}

theorem is_names (names : List FileName) : ∀ name ∈ names.map Subtype.val, Security.IsName name := by
  intro name hname
  obtain ⟨n, -, rfl⟩ := List.mem_map.mp hname
  exact n.property

variable {s : Staging} {visit : Visit} {chunk : Chunk} {now : Instant} {result : IngestResult} {st' : Station}

/-- The entries of a chunk are accepted. -/
theorem chunk_accepts (server : Ingest.Server) (hvolume : OfVolume config root s) (hvisit : visit.run ∈ s.scan_run.rows)
    (hdue : chunk.Due s visit) :
    ∀ e ∈ (chunk.batch visit).entries, ∃ mount candidate, Accepts server (chunk.batch visit) mount candidate e := by
  cases chunk with
  | removals rows => exact fun e he => absurd he List.not_mem_nil
  | entries rows =>
      intro e he
      have hframe := he
      obtain ⟨r, hr, rfl⟩ := List.mem_map.mp he
      obtain ⟨-, rest, hpath⟩ := hvolume.entries r (hdue.2 r hr).1
      refine ⟨.posix ['/'] (root.map Subtype.val), .posix ['/'] (root.map Subtype.val ++ rest.map Subtype.val),
        hframe, ?_, ?_, within_posix _ _ _ _⟩
      · show validate_agent_path (volume_frame visit.run).mountpoint = _
        rw [hvolume.runs visit.run hvisit]
        exact validate_agent_path_absolute (is_names root)
      · show validate_agent_path r.entry.path = _
        rw [hpath, path_text, List.map_append]
        apply validate_agent_path_absolute
        rw [← List.map_append]
        exact is_names _

/-- The files of a chunk. -/
def Chunk.identities : Chunk → List Identity
  | .entries rows => rows.map fun r => r.entry.identity
  | .removals rows => rows.map StagedRemoval.identity

theorem removal_filter_chunk (visit : Visit) (rows : List StagedRemoval) (identity : Identity) :
    removal_filter (Chunk.batch visit (.removals rows)).removed_keys identity = true ↔
      identity ∈ rows.map StagedRemoval.identity := by
  have hkeys : (Chunk.batch visit (.removals rows)).removed_keys
      = (rows.map StagedRemoval.identity).map fun i => ⟨some i.dev, i.inode⟩ := by
    rw [IngestBatch.removed_keys]
    split
    · rename_i hnil
      have hrows : rows = [] := List.map_eq_nil_iff.mp hnil
      rw [hrows]
      rfl
    · rfl
  rw [hkeys, removal_filter, List.any_map, List.any_eq_true]
  constructor
  · rintro ⟨i, hi, hnames⟩
    obtain ⟨hinode, hdev⟩ := of_decide_eq_true hnames
    rcases hdev with hnone | hsome
    · exact absurd hnone (by simp)
    · have heq : i = identity := by
        cases i
        cases identity
        rw [Identity.mk.injEq]
        exact ⟨Option.some.inj hsome, hinode⟩
      rw [← heq]
      exact hi
  · intro hmem
    exact ⟨identity, hmem, decide_eq_true ⟨rfl, Or.inr rfl⟩⟩

/-- **What a chunk makes of the presence of the rows of its volume**, when the core
works on it. -/
theorem presence_of_chunk {server : Ingest.Server} {fp : String} (hvolume : OfVolume config root s)
    (hvisit : visit.run ∈ s.scan_run.rows) (hdue : chunk.Due s visit) {core core' : Catalogue}
    (h : ingest server core (chunk.batch visit) fp now = .ok (core', result)) (identity : Identity) :
    core'.presence fp (path_text root) identity = if identity ∈ chunk.identities then
          chunk.effect visit (core.presence fp (path_text root) identity)
        else core.presence fp (path_text root) identity := by
  have hmount : (chunk.batch visit).volume.mountpoint = path_text root := by
    cases chunk with
    | entries rows => exact hvolume.runs visit.run hvisit
    | removals rows => exact hvolume.runs visit.run hvisit
  have hnd : ((chunk.batch visit).entries.map EntryFrame.identity).Nodup := by
    cases chunk with
    | removals rows => exact List.nodup_nil
    | entries rows =>
        -- rows of one volume with one identity have one key
        have hkeys := hdue.1
        show ((rows.map row_to_entry).map EntryFrame.identity).Nodup
        rw [List.map_map]
        refine (List.nodup_map_iff_inj_on (hkeys.of_map _)).mpr ?_
        intro r hr r' hr' heq
        have hkey : r.key = r'.key := by
          rw [hvolume.entry_key (hdue.2 r hr).1, hvolume.entry_key (hdue.2 r' hr').1]
          exact congrArg (file_key config root) heq
        exact List.inj_on_of_nodup_map hkeys hr hr' hkey
  have hpresence := presence_ingest hnd (chunk_accepts server hvolume hvisit hdue) h identity
  rw [hmount] at hpresence
  rw [hpresence]
  cases chunk with
  | entries rows =>
      have hnone : removal_filter (Chunk.batch visit (.entries rows)).removed_keys identity = false := rfl
      rw [hnone]
      simp only [Bool.false_eq_true, and_false, if_false]
      show (if identity ∈ (rows.map row_to_entry).map EntryFrame.identity then _ else _) = _
      rw [List.map_map]
      rfl
  | removals rows =>
      have hmode : (Chunk.batch visit (.removals rows)).mode = .metadata := rfl
      simp only [hmode, removal_filter_chunk, true_and]
      rfl

theorem file_key_injective : Function.Injective (file_key config root) := by
  intro i j h
  exact (StagedKey.mk.inj h).2.2

/-- The keys of a chunk are those of its files. -/
theorem key_mem_chunk (hvolume : OfVolume config root s) (hdue : chunk.Due s visit) (identity : Identity) :
    file_key config root identity ∈ chunk.keys ↔ identity ∈ chunk.identities := by
  cases chunk with
  | entries rows =>
      have hkeys : rows.map StagedEntry.key = (rows.map fun r => r.entry.identity).map (file_key config root) := by
        rw [List.map_map]
        exact List.map_congr_left fun r hr => hvolume.entry_key (hdue.2 r hr).1
      rw [Chunk.keys, hkeys, List.mem_map_of_injective file_key_injective]
      rfl
  | removals rows =>
      have hkeys : rows.map StagedRemoval.key = (rows.map StagedRemoval.identity).map (file_key config root) := by
        rw [List.map_map]
        exact List.map_congr_left fun r hr => hvolume.removal_key (hdue r hr).1
      rw [Chunk.keys, hkeys, List.mem_map_of_injective file_key_injective]
      rfl

/-! ## A chunk is next in line -/

/-- No removal of an earlier run waits while a drain is at the entries of a run. -/
theorem Covers.entry_due (h : Covers s .entries visit) {after : ℕ}
    (hwaits : removal_outbox.Waiting s.staged_removal after) : visit.run.id ≤ after := by
  have hordered := h.ordered
  rw [List.map_cons, List.pairwise_cons] at hordered
  rcases h.removals after hwaits with heq | hrest
  · exact heq.ge
  · exact (hordered.1 after hrest).le

/-- No entry of this run or an earlier one waits while a drain is at the removals. -/
theorem Covers.removal_due (h : Covers s .removals visit) {epoch : ℕ}
    (hwaits : entry_outbox.Waiting s.staged_entry epoch) : visit.run.id < epoch := by
  have hordered := h.ordered
  rw [List.map_cons, List.pairwise_cons] at hordered
  rcases h.entries epoch hwaits with ⟨hkind, -⟩ | hrest
  · exact absurd hkind (by decide)
  · exact hordered.1 epoch hrest

/-- A write that is in transit waits in its run. -/
theorem waiting_of_write {st : Station} {identity : Identity} {epoch : ℕ} {f : Option Bool → Option Bool}
    (h : (in_transit config root link st identity).write = some (epoch, f)) :
    entry_outbox.Waiting st.staging.staged_entry epoch := by
  obtain ⟨p, hp, heq⟩ := Option.map_eq_some_iff.mp h
  rw [← (Prod.mk.inj heq).1]
  exact Staging.waiting_entry_waits hp

theorem waiting_of_withdrawal {st : Station} {identity : Identity} {after : ℕ}
    (h : (in_transit config root link st identity).withdrawal = some after) :
    removal_outbox.Waiting st.staging.staged_removal after := Outbox.Waiting.of_awaiting h

variable {st : Station} {visit : Visit} {chunk : Chunk} {identity : Identity}

/-- The entry of a file of the chunk is what waits for the file. -/
theorem write_of_chunk {rows : List StagedEntry} (hvolume : OfVolume config root st.staging)
    (hvisit : visit.run ∈ st.staging.scan_run.rows) (hdue : (Chunk.entries rows).Due st.staging visit)
    (hmem : identity ∈ (Chunk.entries rows).identities) :
    (in_transit config root link st identity).write = some (visit.run.id, deliver visit.run.mode) := by
  obtain ⟨r, hr, rfl⟩ := List.mem_map.mp hmem
  obtain ⟨hrow, hwaits⟩ := hdue.2 r hr
  have hfind : st.staging.staged_entry.find (file_key config root r.entry.identity) = some r := by
    rw [← hvolume.entry_key hrow]
    exact Table.find_of_mem hrow
  have hawaiting : entry_outbox.awaiting st.staging.staged_entry (file_key config root r.entry.identity)
      = some visit.run.id := Outbox.awaiting_some_iff.mpr ⟨r, hfind, hwaits⟩
  refine Option.map_eq_some_iff.mpr ⟨(visit.run.id, visit.run.mode), ?_, rfl⟩
  refine Option.bind_eq_some_iff.mpr ⟨visit.run.id, hawaiting, ?_⟩
  exact Option.map_eq_some_iff.mpr ⟨visit.run, Table.find_of_mem hvisit, rfl⟩

theorem withdrawal_of_chunk {rows : List StagedRemoval} (hvolume : OfVolume config root st.staging)
    (hdue : (Chunk.removals rows).Due st.staging visit) (hmem : identity ∈ (Chunk.removals rows).identities) :
    (in_transit config root link st identity).withdrawal = some visit.run.id := by
  obtain ⟨r, hr, rfl⟩ := List.mem_map.mp hmem
  obtain ⟨hrow, hwaits⟩ := hdue r hr
  have hfind : st.staging.staged_removal.find (file_key config root r.identity) = some r := by
    rw [← hvolume.removal_key hrow]
    exact Table.find_of_mem hrow
  exact Outbox.awaiting_some_iff.mpr ⟨r, hfind, hwaits⟩

/-- **When the core works on a chunk that is next in line, no row is destined to be
another.** -/
theorem destined_of_worked (hvolume : OfVolume config root st.staging) (hvisit : visit.run ∈ st.staging.scan_run.rows)
    (hdue : chunk.Due st.staging visit) (hcovers : Covers st.staging chunk.kind visit) {core : Catalogue}
    (h : ingest link.server st.core (chunk.batch visit) link.cert_fingerprint now = .ok (core, result)) :
    (in_transit config root link { st with core := core } identity).destined withdraw
      = (in_transit config root link st identity).destined withdraw := by
  have hpresence := presence_of_chunk hvolume hvisit hdue h identity
  by_cases hmem : identity ∈ chunk.identities
  · rw [if_pos hmem] at hpresence
    have htransit : in_transit config root link { st with core := core } identity
        = { in_transit config root link st identity with
            value := chunk.effect visit (in_transit config root link st identity).value } := by
      show ({ value := core.presence _ _ _, write := _, withdrawal := _ } : Transit ℕ (Option Bool)) = _
      rw [hpresence]
      rfl
    rw [htransit]
    cases chunk with
    | entries rows =>
        refine Transit.destined_deliver (write_of_chunk hvolume hvisit hdue hmem) ?_ ?_
        · exact fun after hafter => Covers.entry_due hcovers (waiting_of_withdrawal hafter)
        · exact Ingest.deliver_twice _ _
    | removals rows =>
        refine Transit.destined_withdraw (withdrawal_of_chunk hvolume hdue hmem) ?_ ?_
        · exact fun epoch f hwrite => Covers.removal_due hcovers (waiting_of_write hwrite)
        · exact Ingest.withdraw_twice _
  · rw [if_neg hmem] at hpresence
    have htransit : in_transit config root link { st with core := core } identity
        = in_transit config root link st identity := by
      show ({ value := core.presence _ _ _, write := _, withdrawal := _ } : Transit ℕ (Option Bool)) = _
      rw [hpresence]
      rfl
    rw [htransit]

/-- A mark takes the entries of a chunk out of transit. -/
theorem in_transit_mark_entries {rows : List StagedEntry} (hvolume : OfVolume config root st.staging)
    (hdue : (Chunk.entries rows).Due st.staging visit) :
    in_transit config root link { st with staging := (Chunk.entries rows).mark st.staging } identity
      = if identity ∈ (Chunk.entries rows).identities then
          { in_transit config root link st identity with write := none }
        else in_transit config root link st identity := by
  have hawaiting : entry_outbox.awaiting (entry_outbox.mark st.staging.staged_entry
        (Chunk.entries rows).keys) (file_key config root identity)
      = if file_key config root identity ∈ (Chunk.entries rows).keys then none
        else entry_outbox.awaiting st.staging.staged_entry (file_key config root identity) :=
    Outbox.awaiting_mark _ _ _
  simp only [key_mem_chunk hvolume hdue identity] at hawaiting
  show ({ value := _
          write := ((entry_outbox.awaiting (entry_outbox.mark _ (Chunk.entries rows).keys) _).bind _).map _
          withdrawal := _ } : Transit ℕ (Option Bool)) = _
  rw [hawaiting]
  split
  · rfl
  · rfl

/-- And so it does the removals of a chunk. -/
theorem in_transit_mark_removals {rows : List StagedRemoval} (hvolume : OfVolume config root st.staging)
    (hdue : (Chunk.removals rows).Due st.staging visit) :
    in_transit config root link { st with staging := (Chunk.removals rows).mark st.staging } identity
      = if identity ∈ (Chunk.removals rows).identities then
          { in_transit config root link st identity with withdrawal := none }
        else in_transit config root link st identity := by
  have hawaiting : removal_outbox.awaiting (removal_outbox.mark st.staging.staged_removal
        (Chunk.removals rows).keys) (file_key config root identity)
      = if file_key config root identity ∈ (Chunk.removals rows).keys then none
        else removal_outbox.awaiting st.staging.staged_removal (file_key config root identity) :=
    Outbox.awaiting_mark _ _ _
  simp only [key_mem_chunk hvolume hdue identity] at hawaiting
  show ({ value := _, write := _,
          withdrawal := removal_outbox.awaiting (removal_outbox.mark _ (Chunk.removals rows).keys) _ }
    : Transit ℕ (Option Bool)) = _
  rw [hawaiting]
  split
  · rfl
  · rfl

/-- **Nor when a chunk that the core has worked on is marked.** -/
theorem destined_of_mark (hvolume : OfVolume config root st.staging)
    (hvisit : visit.run ∈ st.staging.scan_run.rows) (hdue : chunk.Due st.staging visit)
    (hcovers : Covers st.staging chunk.kind visit)
    (hdone : identity ∈ chunk.identities →
      chunk.effect visit (in_transit config root link st identity).value
        = (in_transit config root link st identity).value) :
    (in_transit config root link { st with staging := chunk.mark st.staging } identity).destined withdraw
      = (in_transit config root link st identity).destined withdraw := by
  cases chunk with
  | entries rows =>
      rw [in_transit_mark_entries hvolume hdue]
      split
      · rename_i hmem
        refine Transit.destined_crossed_off (write_of_chunk hvolume hvisit hdue hmem) ?_ (hdone hmem)
        exact fun after hafter => Covers.entry_due hcovers (waiting_of_withdrawal hafter)
      · rfl
  | removals rows =>
      rw [in_transit_mark_removals hvolume hdue]
      split
      · rename_i hmem
        refine Transit.destined_withdrawn (withdrawal_of_chunk hvolume hdue hmem) ?_ (hdone hmem)
        exact fun epoch f hwrite => Covers.removal_due hcovers (waiting_of_write hwrite)
      · rfl

/-! ## A whole drain -/

/-- The run a drain is at and those to come are runs of the database. -/
def Visit.Of (s : Staging) (visit : Visit) : Prop := ∀ run ∈ visit.run :: visit.rest, run ∈ s.scan_run.rows

/-- Where a drain can stand: its runs are runs of the database, and what it has in
flight waits. -/
def Pc.Visits (s : Staging) : Pc → Prop
  | .idle _ => True
  | .reading _ visit => visit.Of s
  | .sending visit chunk _ => visit.Of s ∧ chunk.Due s visit
  | .marking visit chunk => visit.Of s ∧ chunk.Due s visit

theorem Pc.Visits.visit_runs {runs : List ScanRun} (facts : Option Ingest.HostFacts)
    (h : ∀ run ∈ runs, run ∈ s.scan_run.rows) : (Pc.visit_runs facts runs).Visits s := by
  cases runs with
  | nil => trivial
  | cons run rest => exact h

theorem Pc.Visits.start (s : Staging) (facts : Option Ingest.HostFacts) :
    (Pc.visit_runs facts s.pending_runs).Visits s :=
  Pc.Visits.visit_runs facts fun _ hrun => (Staging.mem_pending_runs.mp hrun).1

theorem Pc.Visits.move {m : Move} (h : st.pc.Visits st.staging) (hstep : st.move link m = some st') :
    st'.pc.Visits st'.staging := by
  rcases move_spec hstep with ⟨facts, ending, rfl, hpc, rfl⟩ | ⟨kind, visit, rfl, hpc, rfl⟩ |
    ⟨answer, visit, chunk, attempt, rfl, hpc, rfl⟩ | ⟨visit, chunk, rfl, hpc, rfl⟩
  · exact Pc.Visits.start _ _
  · rw [hpc] at h
    have hvisit : visit.Of st.staging := h
    rcases read_spec link st kind visit with ⟨-, heq⟩ | ⟨-, heq⟩
    · rw [heq]
      exact ⟨hvisit, Chunk.Due.read _ _ _ _⟩
    · rw [heq]
      cases kind with
      | entries => exact hvisit
      | removals => exact Pc.Visits.visit_runs _ fun run hrun => hvisit run (List.mem_cons_of_mem _ hrun)
  · rw [hpc] at h
    obtain ⟨hvisit, hdue⟩ := h
    obtain ⟨core, pc, acknowledged, heq, -, hcases⟩ := post_spec link st visit chunk attempt answer
    rw [heq]
    rcases hcases with ⟨-, rfl | rfl⟩ | ⟨-, now, result, -, rfl⟩
    · trivial
    · exact ⟨hvisit, hdue⟩
    · cases chunk with
      | entries rows => exact ⟨hvisit, hdue⟩
      | removals rows => exact ⟨hvisit, hdue⟩
  · rw [hpc] at h
    cases chunk with
    | entries rows => exact h.1
    | removals rows => exact h.1

/-- The core has worked on what a drain is about to mark. -/
def Pc.Done (value : Identity → Option Bool) : Pc → Prop
  | .marking visit chunk =>
    ∀ identity ∈ chunk.identities, chunk.effect visit (value identity) = value identity
  | _ => True

theorem Pc.Done.visit_runs {value : Identity → Option Bool} (facts : Option Ingest.HostFacts)
    (runs : List ScanRun) : (Pc.visit_runs facts runs).Done value := by
  cases runs <;> trivial

/-- What holds while a drain is under way: every row is destined to be what it was
destined to be when the drain began. -/
structure Arriving (config : AgentConfig) (root : List FileName) (link : Uplink)
    (target : Identity → Option Bool) (st : Station) : Prop where
  orderly : Orderly st.staging st.pc
  of_volume : OfVolume config root st.staging
  visits : st.pc.Visits st.staging
  done : st.pc.Done fun identity => (in_transit config root link st identity).value
  destined : ∀ identity, (in_transit config root link st identity).destined withdraw = target identity

/-- What the core has worked on it need not work on again. -/
theorem effect_done {core : Catalogue} (hvolume : OfVolume config root st.staging)
    (hvisit : visit.run ∈ st.staging.scan_run.rows) (hdue : chunk.Due st.staging visit)
    (h : ingest link.server st.core (chunk.batch visit) link.cert_fingerprint now = .ok (core, result)) :
    ∀ identity ∈ chunk.identities, chunk.effect visit (core.presence link.cert_fingerprint (path_text root) identity)
        = core.presence link.cert_fingerprint (path_text root) identity := by
  intro identity hmem
  rw [presence_of_chunk hvolume hvisit hdue h identity, if_pos hmem]
  exact chunk.effect_twice visit _

/-- **One step of a drain.** -/
theorem Arriving.move {target : Identity → Option Bool} {m : Move} (h : Arriving config root link target st)
    (hstep : st.move link m = some st') : Arriving config root link target st' := by
  have horderly := h.orderly.move hstep
  have hvolume := h.of_volume.move hstep
  have hvisits := h.visits.move hstep
  rcases move_spec hstep with ⟨facts, ending, rfl, hpc, rfl⟩ | ⟨kind, visit, rfl, hpc, rfl⟩ |
    ⟨answer, visit, chunk, attempt, rfl, hpc, rfl⟩ | ⟨visit, chunk, rfl, hpc, rfl⟩
  · exact ⟨horderly, hvolume, hvisits, Pc.Done.visit_runs _ _, h.destined⟩
  · rcases read_spec link st kind visit with ⟨-, heq⟩ | ⟨-, heq⟩
    · rw [heq] at horderly hvolume hvisits ⊢
      exact ⟨horderly, hvolume, hvisits, trivial, h.destined⟩
    · rw [heq] at horderly hvolume hvisits ⊢
      refine ⟨horderly, hvolume, hvisits, ?_, h.destined⟩
      cases kind with
      | entries => trivial
      | removals => exact Pc.Done.visit_runs _ _
  · -- the core may have worked on the chunk, whether it says so or not
    have hbefore := h.visits
    have hcovers := h.orderly
    rw [hpc] at hbefore hcovers
    obtain ⟨hvisit, hdue⟩ := hbefore
    have hrun := hvisit visit.run List.mem_cons_self
    obtain ⟨core, pc, acknowledged, heq, hworked, hcases⟩ := post_spec link st visit chunk attempt answer
    rw [heq] at horderly hvolume hvisits ⊢
    refine ⟨horderly, hvolume, hvisits, ?_, ?_⟩
    · rcases hcases with ⟨-, rfl | rfl⟩ | ⟨-, now, result, hingest, rfl⟩
      · trivial
      · trivial
      · have hdone := effect_done h.of_volume hrun hdue hingest
        cases chunk with
        | entries rows => exact hdone
        | removals rows => exact hdone
    · intro identity
      have hdestined := h.destined identity
      rcases hworked with rfl | ⟨now, result, hingest⟩
      · exact hdestined
      · rw [← hdestined]
        exact destined_of_worked h.of_volume hrun hdue hcovers hingest
  · have hbefore := h.visits
    have hcovers := h.orderly
    have hdone := h.done
    rw [hpc] at hbefore hcovers hdone
    refine ⟨horderly, hvolume, hvisits, trivial, ?_⟩
    intro identity
    rw [← h.destined identity]
    exact destined_of_mark h.of_volume (hbefore.1 visit.run List.mem_cons_self) hbefore.2 hcovers
      (hdone identity)

/-- **A complete drain leaves every row of the volume as it was destined to be.** -/
theorem Drained.presence (h : Drained link st st') (hvolume : OfVolume config root st.staging) (identity : Identity) :
    st'.core.presence link.cert_fingerprint (path_text root) identity
      = (in_transit config root link st identity).destined withdraw := by
  obtain ⟨harriving, -⟩ := h.keeps
    (I := Arriving config root link fun identity => (in_transit config root link st identity).destined withdraw)
    (fun facts => ⟨Orderly.start st.staging facts, hvolume, Pc.Visits.start st.staging facts,
      Pc.Done.visit_runs _ _, fun _ => rfl⟩)
    (fun u m v hu hstep => hu.move hstep)
  -- nothing waits any more
  have hsettled := h.settled
  have hwrite : (in_transit config root link st' identity).write = none := by
    by_contra hsome
    obtain ⟨⟨epoch, f⟩, hf⟩ := Option.ne_none_iff_exists'.mp hsome
    exact hsettled.entries epoch (waiting_of_write hf)
  have hwithdrawal : (in_transit config root link st' identity).withdrawal = none := by
    by_contra hsome
    obtain ⟨after, hafter⟩ := Option.ne_none_iff_exists'.mp hsome
    exact hsettled.removals after (waiting_of_withdrawal hafter)
  rw [← harriving.destined identity, Transit.destined_arrived hwrite hwithdrawal]
  rfl

end

end Fathom.Agent
