/-
**The catalogue after a cycle and a drain** (`_scan_one_scope`, `_run_fullbit` and
`PushClient.drain` against `IngestService.ingest`).

What a row comes to be is decided by three things: what the core holds, what waited
to be pushed before the cycle, and what the cycle stages. An incremental scan
removes what it does not see. A full walk removes nothing, although what the ZFS
feed leaves out is meant to be "purged by the next full walk (which prunes +
removes)". And the staging guard keeps a row whose `mtime` and size are as they
were, so a file that was removed and comes back the same is not staged again,
although ingest takes care that what "re-appears byte-for-byte identical is still
resurrected".
-/
import Fathom.Agent.Arrival
import Fathom.Agent.Quiet

set_option autoImplicit false

namespace Fathom.Agent

open Fathom.Ingest (Identity Mode Catalogue VolumeFrame deliver withdraw)
open Staging (Removal entry_outbox removal_outbox staged_row staged_conflict removal_row removal_conflict set_hash)

/-! ## What becomes of one row -/

/-- Whether a row will be present, from its marker in the core and what waits to be
pushed for it. -/
def Arrives (marker : Option Bool) (write : Option (ℕ × Mode)) (withdrawal : Option ℕ) : Prop :=
  match write with
  | none => marker = some true ∧ withdrawal = none
  | some (epoch, .metadata) => ∀ after, withdrawal = some after → after < epoch
  | some (epoch, .fullbit) => (∀ after, withdrawal = some after → after < epoch) ∧
      (marker = none ∨ (marker = some true ∧ withdrawal = none))

theorem arrives_iff (marker : Option Bool) (write : Option (ℕ × Mode)) (withdrawal : Option ℕ) :
    (⟨marker, write.map fun p => (p.1, deliver p.2), withdrawal⟩ : Transit ℕ (Option Bool)).destined withdraw
        = some true ↔ Arrives marker write withdrawal := by
  rcases write with _ | ⟨epoch, mode⟩
  · rcases withdrawal with _ | after
    · exact (and_iff_left rfl).symm
    · rcases marker with _ | present
      · simp [Transit.destined, withdraw, Arrives]
      · simp [Transit.destined, withdraw, Arrives]
  · rcases withdrawal with _ | after
    · rcases mode with _ | _
      · simp [Transit.destined, deliver, Arrives]
      · rcases marker with _ | present
        · simp [Transit.destined, deliver, Arrives]
        · simp [Transit.destined, deliver, Arrives]
    · by_cases hlt : after < epoch
      · rcases mode with _ | _
        · simp [Transit.destined, deliver, Arrives, hlt]
        · rcases marker with _ | present
          · simp [Transit.destined, deliver, withdraw, Arrives, hlt]
          · simp [Transit.destined, deliver, withdraw, Arrives, hlt]
      · -- the withdrawal comes last
        rcases mode with _ | _
        · simp [Transit.destined, deliver, withdraw, Arrives, hlt]
        · rcases marker with _ | present
          · simp [Transit.destined, deliver, withdraw, Arrives, hlt]
          · simp [Transit.destined, deliver, withdraw, Arrives, hlt]

section

variable (config : AgentConfig) (root : List FileName) (tree : Tree)

/-- An entry on disk: in scope, and it can be read. -/
def OnDisk (identity : Identity) : Prop :=
  ∃ names node, tree.Holds config.walk_scope root true names node ∧ node.identity = identity

/-- The walk of a scan finds a file. -/
def Found (scan : Scan) (s : Staging) (identity : Identity) : Prop :=
  ∃ names node, tree.Holds (scan.scope config root s) root true names node ∧ node.identity = identity

/-- A scan writes the staged row of a file: the file is new to the staging
database, or its `mtime` is another. Another size is enough for a full walk; an
incremental scan notices it only when the path is another as well. -/
def Restaged (scan : Scan) (s : Staging) (identity : Identity) : Prop :=
  ∃ names node, tree.Holds (scan.scope config root s) root true names node ∧ node.identity = identity ∧
    ∀ r, s.entry_of config.host_id (path_text root) identity = some r →
      r.entry.mtime ≠ (tree.inodes node).st_mtime ∨
        (r.entry.size_logical ≠ (tree.inodes node).st_size ∧
          (scan.incremental config root s = true → r.entry.path ≠ path_text names))

/-- A scan removes a file: it is incremental, and the file is staged and not
found. -/
def Dropped (scan : Scan) (s : Staging) (identity : Identity) : Prop :=
  scan.incremental config root s = true ∧
    (∃ r, s.entry_of config.host_id (path_text root) identity = some r) ∧
      ¬ Found config root tree scan s identity

/-- The full-bit pass of a cycle hashes a file that is staged. -/
def Hashed (cycle : Cycle) (s : Staging) (identity : Identity) : Prop :=
  cycle.scan.incremental config root s = false ∧
    (∃ pass, cycle.pass = some pass ∧ identity ∈ pass.hashes.map Prod.fst) ∧
      ((∃ r, s.entry_of config.host_id (path_text root) identity = some r) ∨
        Found config root tree cycle.scan s identity)

/-- **What lets a row be present after a cycle and a drain**, said of what there is
before them. -/
structure Survives (link : Uplink) (st : Station) (cycle : Cycle) (identity : Identity) : Prop where
  /-- the scan does not remove the file -/
  kept : ¬ Dropped config root tree cycle.scan st.staging identity
  /-- a hashed row is sent in a full-bit batch, which leaves the marker alone -/
  hashed : Hashed config root tree cycle st.staging identity →
    st.core.presence link.cert_fingerprint (path_text root) identity = none ∨
      (st.core.presence link.cert_fingerprint (path_text root) identity = some true ∧
        st.staging.waiting_removal (file_key config root identity) = none)
  /-- any other is staged by the scan, or arrives with what waits already -/
  unhashed : ¬ Hashed config root tree cycle st.staging identity →
    Restaged config root tree cycle.scan st.staging identity ∨
      Arrives (st.core.presence link.cert_fingerprint (path_text root) identity)
        (st.staging.waiting_entry (file_key config root identity))
        (st.staging.waiting_removal (file_key config root identity))

end

/-! ## What a scan leaves waiting -/

section

variable {config : AgentConfig} {root : List FileName} {tree : Tree} {scan : Scan} {s s' : Staging}

theorem found_iff (hperm : scan.walked.Perm (tree.walk (scan.scope config root s) root))
    {identity : Identity} :
    Found config root tree scan s identity ↔ identity ∈ scan.walked.map FsEntry.identity :=
  Tree.identities_of_walk hperm

/-- The mode of a run, once a new one has been opened and closed. -/
theorem run_mode_opened (s : Staging) (host_id volume_id : String) (mode : Mode) (volume : Option VolumeFrame)
    (finished_at : ℚ) (id : ℕ) :
    (((s.start_run host_id volume_id mode volume).finish_run s.next_run finished_at).scan_run.find id).map
        ScanRun.mode
      = if id = s.next_run then some mode else (s.scan_run.find id).map ScanRun.mode := by
  have hfind : ((s.start_run host_id volume_id mode volume).finish_run s.next_run finished_at).scan_run.find id
      = ((s.scan_run.put (s.new_run host_id volume_id mode volume)).find id).map fun run =>
          if decide (run.id = s.next_run) then Staging.finish finished_at run else run :=
    Table.find_update (s.scan_run.put (s.new_run host_id volume_id mode volume)) _
      (Staging.finish finished_at) (fun _ => rfl) id
  rw [hfind, Option.map_map]
  have hmode : ScanRun.mode ∘ (fun run : ScanRun =>
      if decide (run.id = s.next_run) then Staging.finish finished_at run else run) = ScanRun.mode := by
    funext run
    show (if decide (run.id = s.next_run) = true then _ else _ : ScanRun).mode = run.mode
    split
    · rfl
    · rfl
  rw [hmode]
  by_cases hid : id = s.next_run
  · rw [if_pos hid, hid]
    exact congrArg (Option.map ScanRun.mode) (Table.find_put_self s.scan_run _)
  · rw [if_neg hid, Table.find_put_ne]
    exact hid

variable {key : StagedKey}

/-- What waits is in a run there is. -/
theorem waiting_entry_known {p : ℕ × Mode} (h : s.waiting_entry key = some p) : p.1 < s.next_run := by
  obtain ⟨-, run, hfind, -⟩ := Staging.waiting_entry_some h
  exact Staging.lt_next_run (List.mem_map.mpr ⟨run, Table.mem_of_find hfind, Table.key_of_find hfind⟩)

theorem waiting_removal_known {id : ℕ} (h : s.waiting_removal key = some id) : id < s.next_run := by
  obtain ⟨run, hrun, rfl⟩ := Staging.run_of_removal (Outbox.Waiting.of_awaiting h)
  exact Staging.lt_next_run (List.mem_map_of_mem hrun)

/-- What waits under a key is told by its row and the mode of the row's run. -/
theorem waiting_entry_eq (s : Staging) (key : StagedKey) :
    s.waiting_entry key = (entry_outbox.awaiting s.staged_entry key).bind fun id =>
      ((s.scan_run.find id).map ScanRun.mode).map fun mode => (id, mode) := by
  rw [Staging.waiting_entry]
  simp only [Option.map_map]
  rfl

/-- A scan leaves the other runs as they were and opens one of its own. -/
theorem run_mode_scanned (h : Scanned config root scan s s') (id : ℕ) : (s'.scan_run.find id).map ScanRun.mode
      = if id = s.next_run then some .metadata else (s.scan_run.find id).map ScanRun.mode := by
  rw [h.runs]
  exact run_mode_opened _ _ _ _ _ _ _

/-- An entry that goes on waiting does so in a run of the same mode. -/
theorem waiting_entry_of_same {opened : ℕ} {mode : Mode} (hmode : ∀ id, (s'.scan_run.find id).map ScanRun.mode
      = if id = opened then some mode else (s.scan_run.find id).map ScanRun.mode)
    (hopened : ∀ id, entry_outbox.awaiting s.staged_entry key = some id → id ≠ opened)
    (h : entry_outbox.awaiting s'.staged_entry key = entry_outbox.awaiting s.staged_entry key) :
    s'.waiting_entry key = s.waiting_entry key := by
  rw [waiting_entry_eq, waiting_entry_eq, h]
  rcases hawaiting : entry_outbox.awaiting s.staged_entry key with _ | id
  · rfl
  · rw [Option.bind_some, Option.bind_some, hmode, if_neg (hopened id hawaiting)]

/-- An entry that is written waits in the run it is written in. -/
theorem waiting_entry_of_written {opened : ℕ} {mode : Mode}
    (hmode : (s'.scan_run.find opened).map ScanRun.mode = some mode)
    (h : entry_outbox.awaiting s'.staged_entry key = some opened) : s'.waiting_entry key = some (opened, mode) := by
  rw [waiting_entry_eq, h, Option.bind_some, hmode, Option.map_some]

theorem awaiting_ne_next {id : ℕ} (h : entry_outbox.awaiting s.staged_entry key = some id) : id ≠ s.next_run := by
  obtain ⟨run, hrun, rfl⟩ := Staging.run_of_entry (Outbox.Waiting.of_awaiting h)
  exact (Staging.lt_next_run (List.mem_map_of_mem hrun)).ne

/-- What is stored of an entry waits in the new run, unless the guard has kept the
row. -/
theorem stored_waits (before : Option StagedEntry) (run_id : ℕ) (host_id volume_id : String) (e : FsEntry) :
    ((∀ r, before = some r → r.entry.mtime ≠ e.mtime ∨ r.entry.size_logical ≠ e.size_logical) →
        (Table.stored staged_conflict before (staged_row run_id host_id volume_id e)).scan_run_id = run_id ∧
          (Table.stored staged_conflict before (staged_row run_id host_id volume_id e)).pushed = false) ∧
      (¬ (∀ r, before = some r → r.entry.mtime ≠ e.mtime ∨ r.entry.size_logical ≠ e.size_logical) →
        some (Table.stored staged_conflict before (staged_row run_id host_id volume_id e)) = before) := by
  rcases before with _ | r
  · exact ⟨fun _ => ⟨rfl, rfl⟩, fun habs => absurd (fun r hr => absurd hr (by simp)) habs⟩
  · have hguard : staged_conflict.guard r (staged_row run_id host_id volume_id e) = true ↔
        ∀ row, some r = some row → row.entry.mtime ≠ e.mtime ∨ row.entry.size_logical ≠ e.size_logical := by
      rw [Staging.staged_guard_iff]
      constructor
      · intro h row hrow
        rw [← Option.some.inj hrow]
        exact h.imp Ne.symm Ne.symm
      · exact fun h => (h r rfl).imp Ne.symm Ne.symm
    rw [← hguard]
    show (_ → (if staged_conflict.guard r _ then staged_conflict.set r _ else r).scan_run_id = _ ∧
        (if staged_conflict.guard r _ then staged_conflict.set r _ else r).pushed = _) ∧
      (_ → some (if staged_conflict.guard r _ then staged_conflict.set r _ else r) = _)
    constructor
    · intro hwritten
      rw [if_pos hwritten]
      exact ⟨rfl, rfl⟩
    · intro hkept
      rw [if_neg hkept]

/-- A scan restages a file when the guard lets through the first entry it stages
of it. -/
theorem restaged_iff (hperm : scan.walked.Perm (tree.walk (scan.scope config root s) root)) {identity : Identity} :
    Restaged config root tree scan s identity ↔ ∃ e, first_entry (scan.staged config root s) identity = some e ∧
        ∀ r, s.entry_of config.host_id (path_text root) identity = some r →
          r.entry.mtime ≠ e.mtime ∨ r.entry.size_logical ≠ e.size_logical := by
  have halike := alike_of_walk hperm
  constructor
  · rintro ⟨names, node, hholds, rfl, hguard⟩
    obtain ⟨e, he, hreports⟩ := hholds.walk
    have hwalked := hperm.mem_iff.mpr he
    -- the entry itself is staged, so some first one of its file is
    have hstaged : ∃ y ∈ scan.staged config root s, y.identity = node.identity := by
      rw [Scan.staged]
      split
      · rename_i hincremental
        have hchange : (change_of (s.load_baseline config.host_id (path_text root)) e).isSome = true := by
          rw [Option.isSome_iff_ne_none, ne_eq, change_of_none_iff]
          rintro ⟨r, hr, hmtime, hpath⟩
          rw [hreports.identity] at hr
          rcases hguard r hr with hne | ⟨-, hne⟩
          · exact hne (hmtime.trans hreports.mtime)
          · exact hne hincremental (hpath.trans hreports.path)
        exact List.mem_map.mp (upserts_identity.mpr ⟨e, hwalked, hreports.identity, hchange⟩)
      · exact ⟨e, hwalked, hreports.identity⟩
    obtain ⟨y, hy, hyid⟩ := hstaged
    rcases hfirst : first_entry (scan.staged config root s) node.identity with _ | x
    · exact absurd hyid (first_entry_none.mp hfirst y hy)
    · obtain ⟨hx, hxid⟩ := first_entry_some hfirst
      obtain ⟨hmtime, hsize⟩ := halike x (mem_walked_of_staged hx) e hwalked
        (hxid.trans hreports.identity.symm)
      refine ⟨x, rfl, fun r hr => ?_⟩
      rw [hmtime, hsize, hreports.mtime, hreports.size_logical]
      exact (hguard r hr).imp_right fun h => h.1
  · rintro ⟨x, hfirst, hguard⟩
    obtain ⟨hx, rfl⟩ := first_entry_some hfirst
    have hwalked := mem_walked_of_staged hx
    obtain ⟨names, node, hholds, hreports⟩ := Tree.holds_of_walk (hperm.mem_iff.mp hwalked)
    by_cases hincremental : scan.incremental config root s = true
    · -- what is upserted has changed
      rw [Scan.staged, if_pos hincremental] at hx
      have hchange := (mem_upserts hx).2
      rw [Option.isSome_iff_ne_none, ne_eq, change_of_none_iff] at hchange
      refine ⟨names, node, hholds, hreports.identity.symm, fun r hr => ?_⟩
      rw [← hreports.mtime, ← hreports.size_logical, ← hreports.path]
      rcases hguard r hr with hne | hne
      · exact Or.inl hne
      · by_cases hmtime : r.entry.mtime = x.mtime
        · exact Or.inr ⟨hne, fun _ hpath => hchange ⟨r, hr, hmtime, hpath⟩⟩
        · exact Or.inl hmtime
    · refine ⟨names, node, hholds, hreports.identity.symm, fun r hr => ?_⟩
      rw [← hreports.mtime, ← hreports.size_logical]
      exact (hguard r hr).imp_right fun h => ⟨h, fun habs => absurd habs hincremental⟩

/-- **What waits of a file's entry after a scan.** -/
theorem waiting_entry_scanned (hperm : scan.walked.Perm (tree.walk (scan.scope config root s) root))
    (h : Scanned config root scan s s') (identity : Identity) : (Restaged config root tree scan s identity →
        s'.waiting_entry (file_key config root identity) = some (s.next_run, .metadata)) ∧
      (¬ Restaged config root tree scan s identity →
        s'.waiting_entry (file_key config root identity) = s.waiting_entry (file_key config root identity)) := by
  have hrow := entry_of_scanned hperm h identity
  have hmode := run_mode_scanned h
  constructor
  · intro hrestaged
    obtain ⟨e, hfirst, hguard⟩ := (restaged_iff hperm).mp hrestaged
    rw [hfirst] at hrow
    obtain ⟨hgroup, hpushed⟩ := (stored_waits _ s.next_run config.host_id (path_text root) e).1 hguard
    refine waiting_entry_of_written ?_ (Outbox.awaiting_some_iff.mpr ⟨_, hrow, hgroup, hpushed⟩)
    rw [hmode, if_pos rfl]
  · intro hkept
    refine waiting_entry_of_same hmode (fun id hid => awaiting_ne_next hid) ?_
    -- the row is the one that was there
    have hsame : s'.entry_of config.host_id (path_text root) identity
        = s.entry_of config.host_id (path_text root) identity := by
      rcases hfirst : first_entry (scan.staged config root s) identity with _ | e
      · rw [hfirst] at hrow
        exact hrow
      · rw [hfirst] at hrow
        rw [hrow]
        apply (stored_waits _ s.next_run config.host_id (path_text root) e).2
        exact fun hguard => hkept ((restaged_iff hperm).mpr ⟨e, hfirst, hguard⟩)
    rw [Outbox.awaiting, Outbox.awaiting]
    exact congrArg (Option.bind · _) hsame

/-- **What waits of a file's removal after a scan.** -/
theorem waiting_removal_scanned (hperm : scan.walked.Perm (tree.walk (scan.scope config root s) root))
    (h : Scanned config root scan s s') (identity : Identity) : (Dropped config root tree scan s identity →
        s'.waiting_removal (file_key config root identity) = some s.next_run) ∧
      (¬ Dropped config root tree scan s identity → s'.waiting_removal (file_key config root identity)
          = s.waiting_removal (file_key config root identity)) := by
  have hremoved : identity ∈ (scan.removed config root s).map Removal.identity ↔
      Dropped config root tree scan s identity := by
    rw [Dropped, found_iff hperm, Scan.removed]
    by_cases hincremental : scan.incremental config root s = true
    · rw [if_pos hincremental, List.mem_map]
      constructor
      · rintro ⟨r, hr, rfl⟩
        obtain ⟨⟨prior, hprior, -⟩, hunseen⟩ := (mem_removals baseline_nodup).mp hr
        obtain ⟨row, hrow, -⟩ := mem_load_baseline.mp hprior
        exact ⟨hincremental, ⟨row, hrow⟩, hunseen⟩
      · rintro ⟨-, ⟨row, hrow⟩, hunseen⟩
        exact ⟨⟨identity, row.entry.path⟩, (mem_removals baseline_nodup).mpr
          ⟨⟨Staging.Prior.of row, mem_load_baseline.mpr ⟨row, hrow, rfl⟩, rfl⟩, hunseen⟩, rfl⟩
    · rw [if_neg hincremental]
      exact ⟨fun habs => absurd habs List.not_mem_nil, fun habs => absurd habs.1 hincremental⟩
  have hnd : (((scan.removed config root s).map
      (removal_row s.next_run config.host_id (path_text root))).map StagedRemoval.key).Nodup := by
    have hids : ((scan.removed config root s).map Removal.identity).Nodup := by
      rw [Scan.removed]
      split
      · exact removals_nodup _
      · exact List.nodup_nil
    rw [List.map_map]
    have hkeys := hids.map (@file_key_injective config root)
    rw [List.map_map] at hkeys
    exact hkeys
  rw [← hremoved, Staging.waiting_removal, Staging.waiting_removal, h.removals]
  constructor
  · intro hmem
    obtain ⟨r, hr, rfl⟩ := List.mem_map.mp hmem
    have hrow := List.mem_map_of_mem (f := removal_row s.next_run config.host_id (path_text root)) hr
    have hfind := Table.find_upsert_many_mem removal_conflict (t := s.staged_removal) hnd hrow
    refine Outbox.awaiting_some_iff.mpr ⟨_, hfind, ?_⟩
    rcases s.staged_removal.find _ with _ | row
    · exact ⟨rfl, rfl⟩
    · exact ⟨rfl, rfl⟩
  · intro hmem
    rw [Outbox.awaiting, Outbox.awaiting, Table.find_upsert_many_other]
    rw [List.map_map, List.mem_map]
    rintro ⟨r, hr, heq⟩
    exact hmem (List.mem_map.mpr ⟨r, hr, (StagedKey.mk.inj heq).2.2⟩)

/-! ## What a full-bit pass leaves waiting -/

/-- After the hashes of a pass have been staged, each hashed file that is staged
waits in the run of the pass. -/
theorem stage_hashes_spec {run_id : ℕ} {hashes : List (Identity × String × String)}
    (h : stage_hashes config (path_text root) run_id hashes s = some s') (identity : Identity) :
    s'.scan_run = s.scan_run ∧ s'.staged_removal = s.staged_removal ∧
      entry_outbox.awaiting s'.staged_entry (file_key config root identity) = if identity ∈ hashes.map Prod.fst ∧
              (s.staged_entry.find (file_key config root identity)).isSome = true then some run_id
          else entry_outbox.awaiting s.staged_entry (file_key config root identity) := by
  induction hashes generalizing s with
  | nil =>
      rw [stage_hashes] at h
      rw [← Option.some.inj h, if_neg fun habs => List.not_mem_nil habs.1]
      exact ⟨rfl, rfl, rfl⟩
  | cons hash hashes ih =>
      obtain ⟨hashed, partial_hash, full_hash⟩ := hash
      obtain ⟨u, hu, hrest⟩ := Option.bind_eq_some_iff.mp h
      obtain ⟨hruns, hentry, hremoval⟩ := Staging.set_entries_spec hu
      obtain ⟨hruns', hremoval', hawaiting⟩ := ih hrest
      refine ⟨hruns'.trans hruns, hremoval'.trans hremoval, ?_⟩
      have hfind : u.staged_entry.find (file_key config root identity)
          = (s.staged_entry.find (file_key config root identity)).map fun r =>
              if decide (r.key = file_key config root hashed) then set_hash partial_hash full_hash run_id r
              else r := by
        rw [hentry]
        exact Table.find_update _ _ _ _ _
      rw [hawaiting, hfind]
      rcases hrow : s.staged_entry.find (file_key config root identity) with _ | r
      · -- a file that is not staged is not hashed
        rw [Option.map_none, if_neg fun habs => absurd habs.2 (by simp),
          if_neg fun habs => absurd habs.2 (by simp), Outbox.awaiting, Outbox.awaiting, hfind, hrow,
          Option.map_none]
      · have hkey := Table.key_of_find hrow
        rw [Option.map_some]
        by_cases hsame : identity = hashed
        · have hmem : identity ∈ ((hashed, partial_hash, full_hash) :: hashes).map Prod.fst :=
            List.mem_cons.mpr (Or.inl hsame)
          rw [if_pos (⟨hmem, rfl⟩ : _ ∧ (some r).isSome = true)]
          have hrehashed : u.staged_entry.find (file_key config root identity)
              = some (set_hash partial_hash full_hash run_id r) := by
            rw [hfind, hrow, Option.map_some, if_pos]
            rw [hkey, hsame]
            exact decide_eq_true rfl
          have hwaits : entry_outbox.awaiting u.staged_entry (file_key config root identity) = some run_id := by
            rw [Outbox.awaiting, hrehashed]
            rfl
          rw [hwaits, ite_self]
        · have hother : ¬ decide (r.key = file_key config root hashed) = true := by
            rw [decide_eq_true_iff, hkey]
            exact fun heq => hsame (file_key_injective heq)
          have hkept : entry_outbox.awaiting u.staged_entry (file_key config root identity)
              = entry_outbox.awaiting s.staged_entry (file_key config root identity) := by
            rw [Outbox.awaiting, Outbox.awaiting, hfind, hrow, Option.map_some, if_neg hother]
          rw [hkept]
          refine if_congr (and_congr ?_ ?_) rfl rfl
          · rw [List.map_cons, List.mem_cons]
            exact (or_iff_right hsame).symm
          · exact Iff.rfl

/-- **What waits after a full-bit pass.** -/
theorem fullbit_scan_spec {scan : Scan} {pass : HashPass}
    (h : fullbit_scan config (scan.volume_info root) pass s = some s') (identity : Identity) :
    s'.waiting_removal (file_key config root identity) = s.waiting_removal (file_key config root identity) ∧
      (identity ∈ pass.hashes.map Prod.fst ∧ (s.staged_entry.find (file_key config root identity)).isSome = true →
        s'.waiting_entry (file_key config root identity) = some (s.next_run, .fullbit)) ∧
      (¬ (identity ∈ pass.hashes.map Prod.fst ∧ (s.staged_entry.find (file_key config root identity)).isSome = true) →
        s'.waiting_entry (file_key config root identity) = s.waiting_entry (file_key config root identity)) := by
  obtain ⟨u, hu, rfl⟩ := Option.map_eq_some_iff.mp h
  obtain ⟨hruns, hremoval, hawaiting⟩ := stage_hashes_spec hu identity
  have hmode : ∀ id, ((u.finish_run s.next_run pass.finished_at).scan_run.find id).map ScanRun.mode
      = if id = s.next_run then some .fullbit else (s.scan_run.find id).map ScanRun.mode := by
    intro id
    rw [finish_run_congr hruns]
    exact run_mode_opened _ _ _ _ _ _ _
  refine ⟨congrArg (removal_outbox.awaiting · _) hremoval, ?_, ?_⟩
  · intro hhashed
    refine waiting_entry_of_written ?_ (hawaiting.trans (if_pos hhashed))
    rw [hmode, if_pos rfl]
  · intro hnot
    exact waiting_entry_of_same hmode (fun id hid => awaiting_ne_next hid) (hawaiting.trans (if_neg hnot))

/-! ## What a cycle makes of a row -/

theorem not_arrives_of_later {marker : Option Bool} {write : Option (ℕ × Mode)} {after : ℕ}
    (h : ∀ p, write = some p → p.1 < after) : ¬ Arrives marker write (some after) := by
  rcases write with _ | ⟨epoch, mode⟩
  · exact fun habs => absurd habs.2 (by simp)
  · have hlt := h _ rfl
    rcases mode with _ | _
    · exact fun habs => absurd (habs after rfl) (by omega)
    · exact fun habs => absurd (habs.1 after rfl) (by omega)

section

variable {link : Uplink} {st : Station} {cycle : Cycle} {identity : Identity}

/-- What is not hashed in the cycle survives when what the scan leaves waiting
arrives. -/
theorem survives_unhashed {u : Staging}
    (hperm : cycle.scan.walked.Perm (tree.walk (cycle.scan.scope config root st.staging) root))
    (h : Scanned config root cycle.scan st.staging u) (hnot : ¬ Hashed config root tree cycle st.staging identity) :
    Arrives (st.core.presence link.cert_fingerprint (path_text root) identity)
        (u.waiting_entry (file_key config root identity)) (u.waiting_removal (file_key config root identity)) ↔
      Survives config root tree link st cycle identity := by
  have hentry := waiting_entry_scanned hperm h identity
  have hremoval := waiting_removal_scanned hperm h identity
  by_cases hdropped : Dropped config root tree cycle.scan st.staging identity
  · -- what is removed is not found, so it is not staged
    have hnone : ¬ Restaged config root tree cycle.scan st.staging identity := by
      rintro ⟨names, node, hholds, hid, -⟩
      exact hdropped.2.2 ⟨names, node, hholds, hid⟩
    rw [hremoval.1 hdropped, hentry.2 hnone]
    constructor
    · intro habs
      exact absurd habs (not_arrives_of_later fun p hp => waiting_entry_known hp)
    · exact fun hsurvives => absurd hdropped hsurvives.kept
  · rw [hremoval.2 hdropped]
    by_cases hrestaged : Restaged config root tree cycle.scan st.staging identity
    · rw [hentry.1 hrestaged]
      constructor
      · exact fun _ => ⟨hdropped, fun habs => absurd habs hnot, fun _ => Or.inl hrestaged⟩
      · exact fun _ after hafter => waiting_removal_known hafter
    · rw [hentry.2 hrestaged]
      constructor
      · exact fun harrives => ⟨hdropped, fun habs => absurd habs hnot, fun _ => Or.inr harrives⟩
      · exact fun hsurvives => (hsurvives.unhashed hnot).resolve_left hrestaged

/-- **What a cycle makes of a row**: it is destined to be present exactly when it
survives. -/
theorem destined_after_cycle {s' : Staging} (h : scan_cycle config root tree cycle st.staging = some s') :
    (in_transit config root link { st with staging := s' } identity).destined withdraw = some true ↔
      Survives config root tree link st cycle identity := by
  rw [show (in_transit config root link { st with staging := s' } identity).destined withdraw = some true ↔ _
    from arrives_iff _ _ _]
  obtain ⟨u, hscan, hcycle⟩ := Option.bind_eq_some_iff.mp h
  obtain ⟨hperm, hscanned⟩ := scan_one_scope_spec hscan
  by_cases hincremental : cycle.scan.incremental config root st.staging = true
  · rw [if_pos hincremental] at hcycle
    rw [← Option.some.inj hcycle]
    refine survives_unhashed hperm hscanned fun habs => ?_
    have hfull := habs.1
    rw [hincremental] at hfull
    exact absurd hfull (by simp)
  rw [if_neg hincremental] at hcycle
  rcases hpass : cycle.pass with _ | pass
  · rw [hpass] at hcycle
    rw [← Option.some.inj hcycle]
    refine survives_unhashed hperm hscanned fun habs => ?_
    obtain ⟨pass, hsome, -⟩ := habs.2.1
    rw [hpass] at hsome
    exact absurd hsome (by simp)
  · rw [hpass] at hcycle
    obtain ⟨hremoval, hhashed, hother⟩ := fullbit_scan_spec hcycle identity
    -- a pass hashes what is staged after the walk
    have hiff : Hashed config root tree cycle st.staging identity ↔
        identity ∈ pass.hashes.map Prod.fst ∧
          (u.staged_entry.find (file_key config root identity)).isSome = true := by
      have hknown := known_of_scanned hperm hscanned identity
      rw [← found_iff hperm] at hknown
      rw [Hashed, hpass, Option.isSome_iff_exists]
      constructor
      · rintro ⟨-, ⟨p, hp, hmem⟩, hstaged⟩
        rw [← Option.some.inj hp] at hmem
        exact ⟨hmem, hknown.mpr hstaged⟩
      · rintro ⟨hmem, hstaged⟩
        exact ⟨Bool.eq_false_iff.mpr hincremental, ⟨pass, rfl, hmem⟩, hknown.mp hstaged⟩
    by_cases hhash : Hashed config root tree cycle st.staging identity
    · have hkept : ¬ Dropped config root tree cycle.scan st.staging identity :=
        fun habs => hincremental habs.1
      rw [hremoval, hhashed (hiff.mp hhash), (waiting_removal_scanned hperm hscanned identity).2 hkept]
      constructor
      · exact fun harrives => ⟨hkept, fun _ => harrives.2, fun habs => absurd hhash habs⟩
      · intro hsurvives
        refine ⟨fun after hafter => ?_, hsurvives.hashed hhash⟩
        rw [← (waiting_removal_scanned hperm hscanned identity).2 hkept] at hafter
        exact waiting_removal_known hafter
    · rw [hremoval, hother fun habs => hhash (hiff.mpr habs)]
      exact survives_unhashed hperm hscanned hhash

/-- **After a cycle and a complete drain a row is present exactly when it
survives.** -/
theorem presence_after_cycle {s' : Staging} {st' : Station} (hvolume : OfVolume config root st.staging)
    (h : scan_cycle config root tree cycle st.staging = some s')
    (hdrain : Drained link { st with staging := s' } st') :
    st'.core.presence link.cert_fingerprint (path_text root) identity = some true ↔
      Survives config root tree link st cycle identity := by
  obtain ⟨calls, hcalls⟩ := scan_cycle_calls h
  rw [hdrain.presence (hvolume.calls hcalls) identity]
  exact destined_after_cycle h

end

end

/-! ## Convergence -/

section

variable (config : AgentConfig) (root : List FileName) (tree : Tree) (link : Uplink)

/-- **The catalogue agrees with the disk**: a row of the volume is present exactly
when its file is on disk. -/
def Converged (core : Catalogue) : Prop :=
  ∀ identity, core.presence link.cert_fingerprint (path_text root) identity = some true ↔
    OnDisk config root tree identity

/-- What a cycle needs for the catalogue to agree with the disk after it and a
drain. -/
structure Reconciles (st : Station) (cycle : Cycle) : Prop where
  /-- what is on disk survives -/
  found : ∀ identity, OnDisk config root tree identity → Survives config root tree link st cycle identity
  /-- what is not on disk and is not removed by the scan, as a full walk removes
  nothing, is not listed and does not arrive with what waits -/
  gone : ∀ identity, ¬ OnDisk config root tree identity →
    ¬ Dropped config root tree cycle.scan st.staging identity →
      (Hashed config root tree cycle st.staging identity →
        st.core.presence link.cert_fingerprint (path_text root) identity = some false ∨
          (st.core.presence link.cert_fingerprint (path_text root) identity = some true ∧
            st.staging.waiting_removal (file_key config root identity) ≠ none)) ∧
      (¬ Hashed config root tree cycle st.staging identity →
        ¬ Arrives (st.core.presence link.cert_fingerprint (path_text root) identity)
          (st.staging.waiting_entry (file_key config root identity))
          (st.staging.waiting_removal (file_key config root identity)))

end

section

variable {config : AgentConfig} {root : List FileName} {tree : Tree} {link : Uplink} {st : Station}
  {cycle : Cycle} {identity : Identity}

/-- What a scan finds is on disk. -/
theorem on_disk_of_found {scan : Scan} {s : Staging} (h : Found config root tree scan s identity) :
    OnDisk config root tree identity := by
  obtain ⟨names, node, hholds, hid⟩ := h
  rw [Scan.scope] at hholds
  split at hholds
  · exact ⟨names, node, hholds.widen, hid⟩
  · exact ⟨names, node, hholds, hid⟩

/-- What is not on disk is not staged by the scan. -/
theorem not_survives_iff (hgone : ¬ OnDisk config root tree identity) :
    ¬ Survives config root tree link st cycle identity ↔ (¬ Dropped config root tree cycle.scan st.staging identity →
        (Hashed config root tree cycle st.staging identity →
          st.core.presence link.cert_fingerprint (path_text root) identity = some false ∨
            (st.core.presence link.cert_fingerprint (path_text root) identity = some true ∧
              st.staging.waiting_removal (file_key config root identity) ≠ none)) ∧
        (¬ Hashed config root tree cycle st.staging identity →
          ¬ Arrives (st.core.presence link.cert_fingerprint (path_text root) identity)
            (st.staging.waiting_entry (file_key config root identity))
            (st.staging.waiting_removal (file_key config root identity)))) := by
  have hnone : ¬ Restaged config root tree cycle.scan st.staging identity := by
    rintro ⟨names, node, hholds, hid, -⟩
    exact hgone (on_disk_of_found ⟨names, node, hholds, hid⟩)
  constructor
  · intro hnot hkept
    constructor
    · intro hhashed
      -- the marker is none of those a full-bit batch leaves present
      rcases hmarker : st.core.presence link.cert_fingerprint (path_text root) identity with _ | present
      · exact absurd ⟨hkept, fun _ => Or.inl hmarker, fun habs => absurd hhashed habs⟩ hnot
      · cases present with
        | false => exact Or.inl rfl
        | true =>
            refine Or.inr ⟨rfl, fun hwaits => hnot ?_⟩
            exact ⟨hkept, fun _ => Or.inr ⟨hmarker, hwaits⟩, fun habs => absurd hhashed habs⟩
    · intro hunhashed harrives
      exact hnot ⟨hkept, fun habs => absurd habs hunhashed, fun _ => Or.inr harrives⟩
  · intro h hsurvives
    obtain ⟨hhashed, hunhashed⟩ := h hsurvives.kept
    by_cases hhash : Hashed config root tree cycle st.staging identity
    · rcases hhashed hhash with hmarker | ⟨hmarker, hwaits⟩
      · rcases hsurvives.hashed hhash with habs | ⟨habs, -⟩
        · exact absurd (hmarker.symm.trans habs) (by simp)
        · exact absurd (hmarker.symm.trans habs) (by simp)
      · rcases hsurvives.hashed hhash with habs | ⟨-, habs⟩
        · exact absurd (hmarker.symm.trans habs) (by simp)
        · exact hwaits habs
    · exact hunhashed hhash ((hsurvives.unhashed hhash).resolve_left hnone)

end

/-- **The catalogue converges, exactly** when the cycle reconciles what there was
before it with the disk. -/
theorem catalogue_converges {config : AgentConfig} {root : List FileName} {link : Uplink} {w₀ w : World}
    {events : List Happening} {cycle : Cycle} {s' : Staging} {st' : Station}
    (hinit : (volume_history config root link).init w₀)
    (hrun : (volume_history config root link).run w₀ events = some w)
    (hcycle : scan_cycle config root w.tree cycle w.station.staging = some s')
    (hdrain : Drained link { w.station with staging := s' } st') :
    Converged config root w.tree link st'.core ↔ Reconciles config root w.tree link w.station cycle := by
  have hpresence : ∀ identity, st'.core.presence link.cert_fingerprint (path_text root) identity = some true ↔
      Survives config root w.tree link w.station cycle identity :=
    fun identity => presence_after_cycle (of_volume hinit hrun) hcycle hdrain
  constructor
  · intro hconverged
    refine ⟨fun identity hdisk => (hpresence identity).mp ((hconverged identity).mpr hdisk), ?_⟩
    intro identity hgone
    apply (not_survives_iff hgone).mp
    exact fun hsurvives => hgone ((hconverged identity).mp ((hpresence identity).mpr hsurvives))
  · intro hreconciles identity
    rw [hpresence]
    constructor
    · intro hsurvives
      by_contra hgone
      exact (not_survives_iff hgone).mpr (hreconciles.gone identity hgone) hsurvives
    · exact hreconciles.found identity

/-! ## Samples -/

/-- A volume on which nothing has been scanned, and a core that knows nothing. -/
def World.fresh (tree : Tree) : World := ⟨tree, [], .fresh .empty⟩

/-- What a history has come to, when it is possible. -/
def World.after (w : World) (events : List Happening) : World :=
  match (volume_history (sample_config false) sample_root sample_link).run w events with
  | some w' => w'
  | none => w

/-- A full walk that is asked for. -/
def forced_walk (tree : Tree) (pass : Option HashPass) : Cycle :=
  ⟨{ sample_scan tree (sample_config false).walk_scope with forced := true }, pass⟩

/-- An agent whose staging database a cycle has been through, when it is possible. -/
def World.cycled (w : World) (cycle : Cycle) : Station :=
  match scan_cycle (sample_config false) sample_root w.tree cycle w.station.staging with
  | some s' => { w.station with staging := s' }
  | none => w.station

/-- What an agent has come to after some steps of the drain. -/
def Station.drained (st : Station) (moves : List Move) : Station :=
  match (drain sample_link).run st moves with
  | some st' => st'
  | none => st

/-- The steps of a drain that has one chunk of entries to send. -/
def one_chunk : List Move := [.start none, .read, .post (.reply 0), .mark, .read, .read]

/-- A walk of a tree, call by call, and a drain. -/
def walked_and_drained (tree : Tree) : List Happening :=
  [.write (.start_run "h" "/m" .metadata none),
    .write (.stage_batch 1 "h" "/m" (tree.walk (sample_config false).walk_scope sample_root)),
    .write (.finish_run 1 0)] ++ one_chunk.map .move

/-- The first walk of a volume. -/
theorem catalogue_converges_first_walk :
    Converged (sample_config false) sample_root one_file sample_link
        (((World.fresh one_file).cycled (forced_walk one_file none)).drained one_chunk).core ↔
      Reconciles (sample_config false) sample_root one_file sample_link (World.fresh one_file).station
        (forced_walk one_file none) :=
  @catalogue_converges (sample_config false) sample_root sample_link (.fresh one_file) (.fresh one_file) []
    (forced_walk one_file none) ((World.fresh one_file).cycled (forced_walk one_file none)).staging
    (((World.fresh one_file).cycled (forced_walk one_file none)).drained one_chunk)
    ⟨rfl, rfl⟩ rfl rfl ⟨none, one_chunk.tail, rfl, rfl⟩

theorem on_disk_iff {config : AgentConfig} {root : List FileName} {tree : Tree} {identity : Identity} :
    OnDisk config root tree identity ↔ identity ∈ (tree.walk config.walk_scope root).map FsEntry.identity :=
  Tree.identities_of_walk (.refl _)

/-- A file is walked, drained and deleted. -/
def deletion : List Happening := walked_and_drained one_file ++ [.change (sample_tree .nil)]

/-- What has been deleted is still listed after a full walk and a drain. -/
theorem full_walk_keeps_deleted :
    ¬ ∀ (config : AgentConfig) (root : List FileName) (link : Uplink) (w₀ w : World)
        (events : List Happening) (cycle : Cycle) (s' : Staging) (st' : Station),
      (volume_history config root link).init w₀ → (volume_history config root link).run w₀ events = some w →
      scan_cycle config root w.tree cycle w.station.staging = some s' →
      Drained link { w.station with staging := s' } st' → Converged config root w.tree link st'.core := by
  intro hall
  have hconverged := hall (sample_config false) sample_root sample_link (.fresh one_file)
    ((World.fresh one_file).after deletion) deletion (forced_walk (sample_tree .nil) none)
    (((World.fresh one_file).after deletion).cycled (forced_walk (sample_tree .nil) none)).staging
    ((((World.fresh one_file).after deletion).cycled (forced_walk (sample_tree .nil) none)).drained
      [.start none])
    ⟨rfl, rfl⟩ rfl rfl ⟨none, [], rfl, rfl⟩
  have hdisk := (hconverged ⟨1, 7⟩).mp rfl
  exact absurd (on_disk_iff.mp hdisk) (by decide)

end Fathom.Agent
