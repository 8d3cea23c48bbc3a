/-
**When the re-stat feed is quiet** (`RestatFeed.changes` against
`StagingStore.load_baseline`).

The feed compares a walk of its own with the rows the staging store holds. The two
do not have to agree on what is there. A staged row is never deleted, so a file
reported deleted once is reported deleted in every later cycle. The feed never
leaves the filesystem, while with `cross_mounts` the full walk does, so all it found
on other filesystems is reported deleted next. What a directory that cannot be read
holds is reported deleted although it is there. And the store's guard does not look
at paths, so a renamed file is reported modified for ever.

`feed_sound` is the exact condition, over every history of one volume.
-/
import Fathom.Agent.Scan
import Fathom.Lib.System

set_option autoImplicit false

namespace Fathom.Agent

open Fathom.Ingest (Identity)
open Fathom.Security (IsName)
open Staging (Prior Removal staged_row staged_conflict)

/-! ## One volume over time -/

/-- A volume and the agent's staging database. `unchanged` says that the tree is as
the last scan found it. -/
structure Watch where
  tree : Tree
  staging : Staging
  unchanged : Bool

/-- What happens to a volume and to the database. -/
inductive Event where
  /-- the filesystem changes -/
  | change (tree : Tree)
  /-- a scan of the volume -/
  | scan (scan : Scan)
  /-- a full-bit pass stages a hash -/
  | stage_hash (key : StagedKey) (partial_hash full_hash : String) (run_id : ℕ)
  /-- a drain marks rows pushed -/
  | mark_pushed (keys removed_keys : List StagedKey)

/-- One event. -/
def Watch.step (config : AgentConfig) (root : List FileName) (w : Watch) : Event → Option Watch
  | .change tree => some ⟨tree, w.staging, false⟩
  | .scan scan => (scan_one_scope config root w.tree scan w.staging).map fun s => ⟨w.tree, s, true⟩
  | .stage_hash key partial_hash full_hash run_id =>
    (w.staging.stage_hash key partial_hash full_hash run_id).map fun s => { w with staging := s }
  | .mark_pushed keys removed_keys =>
    some { w with staging := (w.staging.mark_pushed keys).mark_removals_pushed removed_keys }

/-- **The histories of a volume** under one configuration. -/
def watching (config : AgentConfig) (root : List FileName) : System Watch Event where
  init := fun w => w.staging = .empty ∧ w.unchanged = false
  step := Watch.step config root

/-! ## What the claim says of the feed -/

section

variable (config : AgentConfig) (root : List FileName)

/-- The feed has nothing to report, in whatever order it walks. -/
def Quiet (tree : Tree) (s : Staging) : Prop :=
  ∀ walked : List FsEntry, walked.Perm (tree.walk config.restat_scope root) →
    (restat_delta (s.load_baseline config.host_id (path_text root)) walked).is_empty = true

/-- A file still stands under a path of the volume, in scope: whether it can be read
or not. -/
def StillThere (tree : Tree) (identity : Identity) (path : String) : Prop :=
  ∃ names node, tree.Holds config.walk_scope root false names node ∧ path_text names = path ∧
    node.identity = identity

/-- The feed reports nothing deleted that is still there. -/
def Truthful (tree : Tree) (s : Staging) : Prop :=
  ∀ walked : List FsEntry, walked.Perm (tree.walk config.restat_scope root) →
    ∀ r ∈ (restat_delta (s.load_baseline config.host_id (path_text root)) walked).removals,
      ¬ StillThere config root tree r.identity r.path

/-- **The feed is sound**: it is quiet while nothing changes, and never reports a
file deleted that is still there. -/
structure FeedSound (w : Watch) : Prop where
  quiet : w.unchanged = true → Quiet config root w.tree w.staging
  truthful : Truthful config root w.tree w.staging

/-! ## The condition -/

/-- The re-stat walk reports a file: some name of it can be read without leaving the
filesystem. -/
def Seen (tree : Tree) (identity : Identity) : Prop :=
  ∃ names node, tree.Holds config.restat_scope root true names node ∧ node.identity = identity

/-- The path a scan leaves a file under, of whose entries this is the first: the one
it is staged under, when its `mtime` and size are as they were. -/
def settled_path (before : Option StagedEntry) (e : FsEntry) : String :=
  match before with
  | none => e.path
  | some r =>
    if r.entry.mtime = e.mtime ∧ r.entry.size_logical = e.size_logical then r.entry.path else e.path

/-- What a scan needs for the feed to be quiet after it. -/
structure Settles (w : Watch) (scan : Scan) : Prop where
  /-- every file staged for the volume is still there and can be seen -/
  known : ∀ r ∈ w.staging.rows_of config.host_id (path_text root),
    Seen config root w.tree r.entry.identity
  /-- the scan finds nothing on another filesystem -/
  reach : ∀ names node, w.tree.Holds (scan.scope config root w.staging) root true names node →
    Seen config root w.tree node.identity
  /-- each name that can be seen is the one path its file is left under -/
  paths : ∀ names node, w.tree.Holds config.restat_scope root true names node →
    ∀ e, first_entry scan.walked node.identity = some e →
      settled_path (w.staging.entry_of config.host_id (path_text root) node.identity) e = path_text names

/-- What an event needs for the feed to be sound after it. A change of the
filesystem must not hide a staged file that stays where it is. -/
def Keeps (w : Watch) : Event → Prop
  | .change tree =>
    ∀ r ∈ w.staging.rows_of config.host_id (path_text root),
      StillThere config root tree r.entry.identity r.entry.path → Seen config root tree r.entry.identity
  | .scan scan => Settles config root w scan
  | .stage_hash _ _ _ _ => True
  | .mark_pushed _ _ => True

end

/-! ## The feed on one state -/

section

variable {config : AgentConfig} {root : List FileName} {tree : Tree} {s s' : Staging}

theorem seen_iff {identity : Identity} {walked : List FsEntry}
    (hperm : walked.Perm (tree.walk config.restat_scope root)) :
    Seen config root tree identity ↔ identity ∈ walked.map FsEntry.identity :=
  Tree.identities_of_walk hperm

/-- The feed is quiet when every entry it sees is staged with its `mtime` and path,
and every staged file is seen. -/
theorem quiet_iff :
    Quiet config root tree s ↔
      (∀ e ∈ tree.walk config.restat_scope root, ∃ r,
        s.entry_of config.host_id (path_text root) e.identity = some r ∧ r.entry.mtime = e.mtime ∧
          r.entry.path = e.path) ∧
      ∀ r ∈ s.rows_of config.host_id (path_text root), Seen config root tree r.entry.identity := by
  constructor
  · intro h
    obtain ⟨hupserts, hremovals⟩ := of_decide_eq_true (h _ (List.Perm.refl _))
    refine ⟨fun e he => ?_, fun r hr => ?_⟩
    · rw [← change_of_none_iff]
      by_contra hchange
      have hmem := upserts_identity.mpr
        ⟨e, he, rfl, Option.isSome_iff_ne_none.mpr hchange⟩
      rw [hupserts] at hmem
      exact absurd hmem List.not_mem_nil
    · by_contra hseen
      rw [seen_iff (List.Perm.refl _)] at hseen
      have hmem := (mem_removals (r := ⟨r.entry.identity, r.entry.path⟩) baseline_nodup).mpr
        ⟨⟨Prior.of r, mem_load_baseline.mpr ⟨r, entry_of_iff.mpr ⟨hr, rfl⟩, rfl⟩, rfl⟩, hseen⟩
      rw [hremovals] at hmem
      exact absurd hmem List.not_mem_nil
  · rintro ⟨hentries, hrows⟩ walked hperm
    refine decide_eq_true ⟨?_, ?_⟩
    · refine List.eq_nil_iff_forall_not_mem.mpr fun e he => ?_
      obtain ⟨hwalked, hchange⟩ := mem_upserts he
      have hnone := change_of_none_iff.mpr (hentries e (hperm.mem_iff.mp hwalked))
      rw [hnone] at hchange
      exact absurd hchange (by simp)
    · refine List.eq_nil_iff_forall_not_mem.mpr fun r hr => ?_
      obtain ⟨⟨prior, hprior, -⟩, hunseen⟩ := (mem_removals baseline_nodup).mp hr
      obtain ⟨row, hrow, -⟩ := mem_load_baseline.mp hprior
      have hrow := entry_of_iff.mp hrow
      have hseen := hrows row hrow.1
      rw [hrow.2, seen_iff hperm] at hseen
      exact hunseen hseen

/-- The feed is truthful when every staged file that is still there is seen. -/
theorem truthful_iff : Truthful config root tree s ↔ ∀ r ∈ s.rows_of config.host_id (path_text root),
        StillThere config root tree r.entry.identity r.entry.path → Seen config root tree r.entry.identity := by
  constructor
  · intro h r hr hthere
    by_contra hseen
    rw [seen_iff (List.Perm.refl _)] at hseen
    refine h _ (List.Perm.refl _) ⟨r.entry.identity, r.entry.path⟩ ?_ hthere
    exact (mem_removals baseline_nodup).mpr
      ⟨⟨Prior.of r, mem_load_baseline.mpr ⟨r, entry_of_iff.mpr ⟨hr, rfl⟩, rfl⟩, rfl⟩, hseen⟩
  · intro h walked hperm r hr hthere
    obtain ⟨⟨prior, hprior, hpath⟩, hunseen⟩ := (mem_removals baseline_nodup).mp hr
    obtain ⟨row, hrow, rfl⟩ := mem_load_baseline.mp hprior
    have hrow := entry_of_iff.mp hrow
    rw [hpath, ← hrow.2] at hthere
    have hseen := h row hrow.1 hthere
    rw [hrow.2, seen_iff hperm] at hseen
    exact hunseen hseen

/-- A quiet feed reports nothing, so nothing wrong. -/
theorem Quiet.truthful (h : Quiet config root tree s) : Truthful config root tree s := by
  rw [truthful_iff]
  exact fun r hr _ => (quiet_iff.mp h).2 r hr

/-- The feed reads nothing but the entries of the rows. -/
theorem load_baseline_map {f : StagedEntry → StagedEntry} {host_id volume_id : String}
    (hrows : s'.staged_entry.rows = s.staged_entry.rows.map f)
    (hf : ∀ r, (f r).host_id = r.host_id ∧ (f r).volume_id = r.volume_id ∧ (f r).entry = r.entry) :
    s'.load_baseline host_id volume_id = s.load_baseline host_id volume_id := by
  rw [Staging.load_baseline, Staging.rows_of, hrows, List.filter_map, List.map_map, Staging.load_baseline,
    Staging.rows_of]
  have hfilter : ((fun r => decide (r.host_id = host_id ∧ r.volume_id = volume_id)) ∘ f)
      = fun r : StagedEntry => decide (r.host_id = host_id ∧ r.volume_id = volume_id) := by
    funext r
    show decide ((f r).host_id = host_id ∧ (f r).volume_id = volume_id) = _
    rw [(hf r).1, (hf r).2.1]
  rw [hfilter]
  refine List.map_congr_left fun r _ => ?_
  show ((f r).entry.identity, Prior.of (f r)) = _
  rw [Prior.of, Prior.of, (hf r).2.2]

end

/-! ## A scan -/

section

variable {config : AgentConfig} {root : List FileName} {tree : Tree} {scan : Scan} {s s' : Staging}

/-- What is stored of an entry has its `mtime`, and the path it is settled under. -/
theorem stored_settled (before : Option StagedEntry) (run_id : ℕ) (host_id volume_id : String) (e : FsEntry) :
    (Table.stored staged_conflict before (staged_row run_id host_id volume_id e)).entry.mtime = e.mtime ∧
      (Table.stored staged_conflict before (staged_row run_id host_id volume_id e)).entry.path
        = settled_path before e := by
  rcases before with _ | r
  · exact ⟨rfl, rfl⟩
  · rw [settled_path]
    show (if staged_conflict.guard r _ then staged_conflict.set r _ else r).entry.mtime = _ ∧
      (if staged_conflict.guard r _ then staged_conflict.set r _ else r).entry.path = _
    by_cases hsame : r.entry.mtime = e.mtime ∧ r.entry.size_logical = e.size_logical
    · have hkept : ¬ staged_conflict.guard r (staged_row run_id host_id volume_id e) = true := by
        rw [Staging.staged_guard_iff, not_or, not_not, not_not]
        exact ⟨hsame.1.symm, hsame.2.symm⟩
      rw [if_neg hkept, if_pos hsame]
      exact ⟨hsame.1, rfl⟩
    · have hwritten : staged_conflict.guard r (staged_row run_id host_id volume_id e) = true := by
        rw [Staging.staged_guard_iff]
        by_contra hkept
        rw [not_or, not_not, not_not] at hkept
        exact hsame ⟨hkept.1.symm, hkept.2.symm⟩
      rw [if_pos hwritten, if_neg hsame]
      exact ⟨rfl, rfl⟩

/-- Entries of one file that agree on `mtime` and size settle alike: both under the
staged path, or each under its own. -/
theorem settled_alike (before : Option StagedEntry) {e e' : FsEntry} (hmtime : e.mtime = e'.mtime)
    (hsize : e.size_logical = e'.size_logical) : settled_path before e = settled_path before e' ∨
      (settled_path before e = e.path ∧ settled_path before e' = e'.path) := by
  rcases before with _ | r
  · exact Or.inr ⟨rfl, rfl⟩
  · rw [settled_path, settled_path, hmtime, hsize]
    by_cases hsame : r.entry.mtime = e'.mtime ∧ r.entry.size_logical = e'.size_logical
    · left
      rw [if_pos hsame, if_pos hsame]
    · right
      rw [if_neg hsame, if_neg hsame]
      exact ⟨rfl, rfl⟩

/-- What an incremental scan walks and does not stage is staged already. -/
theorem staged_or_known {e : FsEntry} (he : e ∈ scan.walked) :
    (∃ y, first_entry (scan.staged config root s) e.identity = some y) ∨
      ∃ r, s.entry_of config.host_id (path_text root) e.identity = some r ∧ r.entry.mtime = e.mtime ∧
        r.entry.path = e.path := by
  rcases hfirst : first_entry (scan.staged config root s) e.identity with _ | y
  · right
    rw [first_entry_none] at hfirst
    rw [Scan.staged] at hfirst
    split at hfirst
    · rw [← change_of_none_iff]
      by_contra hchange
      obtain ⟨y, hy, hid⟩ := List.mem_map.mp
        (upserts_identity.mpr ⟨e, he, rfl, Option.isSome_iff_ne_none.mpr hchange⟩)
      exact hfirst y hy hid
    · exact absurd rfl (hfirst e he)
  · exact Or.inl ⟨y, rfl⟩

/-- **The files staged after a scan** are those staged before it and those it has
walked. -/
theorem known_of_scanned (hperm : scan.walked.Perm (tree.walk (scan.scope config root s) root))
    (h : Scanned config root scan s s') (identity : Identity) :
    (∃ r, s'.entry_of config.host_id (path_text root) identity = some r) ↔
      (∃ r, s.entry_of config.host_id (path_text root) identity = some r) ∨
        identity ∈ scan.walked.map FsEntry.identity := by
  rw [entry_of_scanned hperm h]
  constructor
  · rintro ⟨r, hr⟩
    rcases hfirst : first_entry (scan.staged config root s) identity with _ | e
    · rw [hfirst] at hr
      exact Or.inl ⟨r, hr⟩
    · obtain ⟨he, rfl⟩ := first_entry_some hfirst
      exact Or.inr (List.mem_map_of_mem (mem_walked_of_staged he))
  · intro hor
    rcases hfirst : first_entry (scan.staged config root s) identity with _ | e
    · rcases hor with hknown | hwalked
      · exact hknown
      · obtain ⟨e, he, rfl⟩ := List.mem_map.mp hwalked
        rcases @staged_or_known config root scan s e he with ⟨y, hy⟩ | ⟨r, hr, -⟩
        · exact absurd (hfirst.symm.trans hy) (by simp)
        · exact ⟨r, hr⟩
    · exact ⟨_, rfl⟩

/-- **The row of a walked file after a scan** has the file's `mtime`, and stands
under the path of every name that can be seen exactly when the first entry
walked settles there. -/
theorem row_of_scanned (hperm : scan.walked.Perm (tree.walk (scan.scope config root s) root))
    (h : Scanned config root scan s s') {identity : Identity} {e : FsEntry}
    (hfirst : first_entry scan.walked identity = some e) :
    ∃ r, s'.entry_of config.host_id (path_text root) identity = some r ∧ r.entry.mtime = e.mtime ∧
      ((∀ y ∈ tree.walk config.restat_scope root, y.identity = identity → r.entry.path = y.path) ↔
        ∀ y ∈ tree.walk config.restat_scope root, y.identity = identity →
          settled_path (s.entry_of config.host_id (path_text root) identity) e = y.path) := by
  obtain ⟨he, hid⟩ := first_entry_some hfirst
  have halike := alike_of_walk hperm
  rw [entry_of_scanned hperm h]
  by_cases hincremental : scan.incremental config root s = true
  · -- the two walks are one
    have hwalk : ∀ y, y ∈ scan.walked ↔ y ∈ tree.walk config.restat_scope root := by
      intro y
      rw [Scan.scope, if_pos hincremental] at hperm
      exact hperm.mem_iff
    rcases hstaged : first_entry (scan.staged config root s) identity with _ | x
    · rcases @staged_or_known config root scan s e he with ⟨y, hy⟩ | ⟨r, hr, hmtime, hpath⟩
      · rw [hid] at hy
        exact absurd (hstaged.symm.trans hy) (by simp)
      · rw [hid] at hr
        refine ⟨r, hr, hmtime, ?_⟩
        rw [hr, settled_path]
        have hsettled : (if r.entry.mtime = e.mtime ∧ r.entry.size_logical = e.size_logical
            then r.entry.path else e.path) = r.entry.path := by
          split
          · rfl
          · exact hpath.symm
        rw [hsettled]
    · obtain ⟨hx, hxid⟩ := first_entry_some hstaged
      have hx := mem_walked_of_staged hx
      obtain ⟨hmtime, hsize⟩ := halike x hx e he (hxid.trans hid.symm)
      obtain ⟨hstored, hpath⟩ := stored_settled (s.entry_of config.host_id (path_text root) identity)
        s.next_run config.host_id (path_text root) x
      refine ⟨_, rfl, hstored.trans hmtime, ?_⟩
      rw [hpath]
      rcases settled_alike (s.entry_of config.host_id (path_text root) identity) hmtime hsize with
        hsame | ⟨hown, hown'⟩
      · rw [hsame]
      · -- each settles under its own path, and both are among the names seen
        rw [hown, hown']
        constructor
        · intro hall y hy hyid
          rw [← hall y hy hyid, hall e ((hwalk e).mp he) hid]
        · intro hall y hy hyid
          rw [← hall y hy hyid, hall x ((hwalk x).mp hx) hxid]
  · have hstaged : scan.staged config root s = scan.walked := by
      rw [Scan.staged, if_neg hincremental]
    rw [hstaged, hfirst]
    obtain ⟨hstored, hpath⟩ := stored_settled (s.entry_of config.host_id (path_text root) identity)
      s.next_run config.host_id (path_text root) e
    refine ⟨_, rfl, hstored, ?_⟩
    rw [hpath]

/-- What the re-stat walk reports, the walk of the scan reports as well. -/
theorem walked_of_seen (hperm : scan.walked.Perm (tree.walk (scan.scope config root s) root))
    {names : List FileName} {node : Node} (h : tree.Holds config.restat_scope root true names node) :
    node.identity ∈ scan.walked.map FsEntry.identity := by
  have hscope : tree.Holds (scan.scope config root s) root true names node := by
    rw [Scan.scope]
    split
    · exact h
    · exact h.widen
  obtain ⟨e, he, hreports⟩ := hscope.walk
  rw [← hreports.identity]
  exact List.mem_map_of_mem (hperm.mem_iff.mpr he)

/-- **After a scan the feed is quiet exactly when the scan settles.** -/
theorem quiet_scanned_iff {w : Watch} (hperm : scan.walked.Perm (w.tree.walk (scan.scope config root w.staging) root))
    (h : Scanned config root scan w.staging s') : Quiet config root w.tree s' ↔ Settles config root w scan := by
  rw [quiet_iff]
  constructor
  · rintro ⟨hentries, hrows⟩
    have hknown : ∀ identity, (∃ r, s'.entry_of config.host_id (path_text root) identity = some r) →
        Seen config root w.tree identity := by
      rintro identity ⟨r, hr⟩
      have hr := entry_of_iff.mp hr
      rw [← hr.2]
      exact hrows r hr.1
    refine ⟨?_, ?_, ?_⟩
    · intro r hr
      exact hknown _ ((known_of_scanned hperm h _).mpr (Or.inl ⟨r, entry_of_iff.mpr ⟨hr, rfl⟩⟩))
    · intro names node hholds
      obtain ⟨e, he, hreports⟩ := hholds.walk
      rw [← hreports.identity]
      exact hknown _ ((known_of_scanned hperm h _).mpr
        (Or.inr (List.mem_map_of_mem (hperm.mem_iff.mpr he))))
    · intro names node hholds e hfirst
      obtain ⟨r, hr, -, hiff⟩ := row_of_scanned hperm h hfirst
      obtain ⟨y, hy, hreports⟩ := hholds.walk
      rw [← hreports.path]
      refine hiff.mp ?_ y hy hreports.identity
      intro z hz hzid
      obtain ⟨r', hr', -, hpath⟩ := hentries z hz
      rw [hzid, hr] at hr'
      rw [Option.some.inj hr', hpath]
  · rintro ⟨hknown, hreach, hpaths⟩
    constructor
    · intro y hy
      obtain ⟨names, node, hholds, hreports⟩ := Tree.holds_of_walk hy
      have hwalked := walked_of_seen hperm hholds
      rw [← hreports.identity] at hwalked
      -- some first entry of the file has been walked
      rcases hfirst : first_entry scan.walked y.identity with _ | e
      · obtain ⟨x, hx, hxid⟩ := List.mem_map.mp hwalked
        exact absurd hxid (first_entry_none.mp hfirst x hx)
      · obtain ⟨r, hr, hmtime, hiff⟩ := row_of_scanned hperm h hfirst
        obtain ⟨he, hid⟩ := first_entry_some hfirst
        refine ⟨r, hr, ?_, ?_⟩
        · rw [hmtime]
          exact (Tree.walk_agree (hperm.mem_iff.mp he) hy hid).1
        · refine hiff.mpr ?_ y hy rfl
          intro z hz hzid
          obtain ⟨znames, znode, hzholds, hzreports⟩ := Tree.holds_of_walk hz
          have hnode : znode.identity = y.identity := hzreports.identity.symm.trans hzid
          have hsettled := hpaths znames znode hzholds e (by rw [hnode]; exact hfirst)
          rw [hnode] at hsettled
          rw [hsettled, hzreports.path]
    · intro r hr
      rcases (known_of_scanned hperm h r.entry.identity).mp ⟨r, entry_of_iff.mpr ⟨hr, rfl⟩⟩ with
        ⟨row, hrow⟩ | hwalked
      · have hrow := entry_of_iff.mp hrow
        rw [← hrow.2]
        exact hknown row hrow.1
      · obtain ⟨e, he, heq⟩ := List.mem_map.mp hwalked
        obtain ⟨names, node, hholds, hreports⟩ := Tree.holds_of_walk (hperm.mem_iff.mp he)
        rw [← heq, hreports.identity]
        exact hreach names node hholds

end

/-! ## Histories -/

section

variable {config : AgentConfig} {root : List FileName}

/-- One event: the feed is sound after it exactly when the event keeps it so. -/
theorem feed_sound_step {w w' : Watch} {event : Event} (hsound : FeedSound config root w)
    (hstep : (watching config root).step w event = some w') : FeedSound config root w' ↔ Keeps config root w event := by
  have hstep : w.step config root event = some w' := hstep
  cases event with
  | change tree =>
      rw [← Option.some.inj hstep, Keeps, ← truthful_iff]
      exact ⟨fun h => h.truthful, fun h => ⟨fun habs => absurd habs (by simp), h⟩⟩
  | scan scan =>
      obtain ⟨s', hscan, rfl⟩ := Option.map_eq_some_iff.mp hstep
      obtain ⟨hperm, hscanned⟩ := scan_one_scope_spec hscan
      rw [Keeps, ← quiet_scanned_iff hperm hscanned]
      exact ⟨fun h => h.quiet rfl, fun h => ⟨fun _ => h, h.truthful⟩⟩
  | stage_hash key partial_hash full_hash run_id =>
      obtain ⟨s', hhash, rfl⟩ := Option.map_eq_some_iff.mp hstep
      have hrows := congrArg Table.rows (Staging.set_entries_spec hhash).2.1
      have hbaseline : s'.load_baseline config.host_id (path_text root)
          = w.staging.load_baseline config.host_id (path_text root) := by
        refine load_baseline_map hrows fun r => ?_
        split <;> exact ⟨rfl, rfl, rfl⟩
      refine ⟨fun _ => trivial, fun _ => ⟨fun hunchanged => ?_, ?_⟩⟩
      · show Quiet config root w.tree s'
        rw [Quiet, hbaseline]
        exact hsound.quiet hunchanged
      · show Truthful config root w.tree s'
        rw [Truthful, hbaseline]
        exact hsound.truthful
  | mark_pushed keys removed_keys =>
      have hbaseline : ((w.staging.mark_pushed keys).mark_removals_pushed removed_keys).load_baseline
            config.host_id (path_text root)
          = w.staging.load_baseline config.host_id (path_text root) := by
        refine load_baseline_map (s := w.staging)
          (f := fun r => if decide (r.key ∈ keys) then Staging.push_entry r else r) rfl fun r => ?_
        split <;> exact ⟨rfl, rfl, rfl⟩
      rw [← Option.some.inj hstep]
      refine ⟨fun _ => trivial, fun _ => ⟨fun hunchanged => ?_, ?_⟩⟩
      · show Quiet config root w.tree _
        rw [Quiet, hbaseline]
        exact hsound.quiet hunchanged
      · show Truthful config root w.tree _
        rw [Truthful, hbaseline]
        exact hsound.truthful

/-- **The re-stat feed is sound, exactly** in the histories each of whose events
keeps it so: while nothing changes it reports nothing, and it reports nothing
deleted that is still there. -/
theorem feed_sound {w₀ w : Watch} {events : List Event} (hinit : (watching config root).init w₀)
    (hrun : (watching config root).run w₀ events = some w) :
    (∀ n u, (watching config root).run w₀ (events.take n) = some u → FeedSound config root u) ↔
      (watching config root).Meets (Keeps config root) w₀ events := by
  obtain ⟨hstaging, hunchanged⟩ := hinit
  refine System.run_good_iff_meets (I := fun _ => True) (fun _ _ _ _ _ => trivial)
    (fun s a t _ hs hstep => feed_sound_step hs hstep) trivial ?_ hrun
  -- with nothing staged there is nothing to report deleted
  refine ⟨fun habs => absurd (hunchanged.symm.trans habs) (by simp), truthful_iff.mpr ?_⟩
  intro r hr
  rw [hstaging] at hr
  exact absurd (mem_rows_of.mp hr).1 List.not_mem_nil

end

/-! ## Samples -/

/-- The scan root `/m`. -/
def sample_root : List FileName := [⟨['m'], by decide⟩]

/-- An agent that excludes nothing. -/
def sample_config (cross_mounts : Bool) : AgentConfig := ⟨"h", cross_mounts, [], 1000⟩

/-- A tree below a root on device 1. -/
def sample_tree (listing : Listing) : Tree := ⟨fun _ => ⟨10, 1, 1, 1, 0, 0⟩, ⟨1, 2⟩, false, listing⟩

/-- A file `a`, before the rest of a listing. -/
def sample_leaf (node : Node) (next : Listing) : Listing :=
  .leaf ⟨⟨['a'], by decide⟩, node, false⟩ false next

/-- A scan that reports in the order of the listing. -/
def sample_scan (tree : Tree) (scope : Scope) : Scan where
  forced := false
  volume := ⟨"", "ext4", "sda", "sata", none, none, none, 0, 0, 0, none⟩
  walked := tree.walk scope sample_root
  finished_at := 0

/-- The first full walk of a volume. -/
def first_scan (config : AgentConfig) (tree : Tree) : List Event :=
  [.scan (sample_scan tree config.walk_scope)]

/-- A volume on which nothing has been scanned. -/
def Watch.fresh (tree : Tree) : Watch := ⟨tree, .empty, false⟩

/-- What a volume has come to after some events, when they are possible. -/
def Watch.after (config : AgentConfig) (w : Watch) (events : List Event) : Watch :=
  match (watching config sample_root).run w events with
  | some w' => w'
  | none => w

/-- One file on the filesystem of the root. -/
def one_file : Tree := sample_tree (sample_leaf ⟨1, 7⟩ .nil)

/-- One file on a filesystem mounted below the root. -/
def mounted_file : Tree :=
  sample_tree (.dir ⟨⟨['b'], by decide⟩, ⟨2, 2⟩, false⟩ (sample_leaf ⟨2, 7⟩ .nil) .nil)

theorem feed_sound_first_walk :
    ((watching (sample_config false) sample_root).init (.fresh one_file) ∧
      (watching (sample_config false) sample_root).run (.fresh one_file)
          (first_scan (sample_config false) one_file)
        = some ((Watch.fresh one_file).after (sample_config false)
            (first_scan (sample_config false) one_file))) ∧
      ((∀ n u, (watching (sample_config false) sample_root).run (.fresh one_file)
            ((first_scan (sample_config false) one_file).take n) = some u →
          FeedSound (sample_config false) sample_root u) ↔
        (watching (sample_config false) sample_root).Meets (Keeps (sample_config false) sample_root)
          (.fresh one_file) (first_scan (sample_config false) one_file)) :=
  ⟨⟨⟨rfl, rfl⟩, rfl⟩, feed_sound ⟨rfl, rfl⟩ rfl⟩

/-- A file whose identity no name of the tree has is not seen. -/
theorem not_seen {config : AgentConfig} {tree : Tree} {identity : Identity}
    (h : identity ∉ (tree.walk config.restat_scope sample_root).map FsEntry.identity) :
    ¬ Seen config sample_root tree identity := by
  rw [seen_iff (List.Perm.refl _)]
  exact h

/-- The feed is not sound. A file is deleted and an incremental scan reports it: the
feed reports it again although nothing has changed since. And where mounts are
crossed, the feed reports a file deleted right after the walk that found it. -/
theorem feed_not_sound :
    (∃ w, (watching (sample_config false) sample_root).run (.fresh one_file)
        (first_scan (sample_config false) one_file ++
          [.change (sample_tree .nil),
            .scan (sample_scan (sample_tree .nil) (sample_config false).restat_scope)]) = some w ∧
      w.unchanged = true ∧ ¬ Quiet (sample_config false) sample_root w.tree w.staging) ∧
    ∃ w, (watching (sample_config true) sample_root).run (.fresh mounted_file)
        (first_scan (sample_config true) mounted_file) = some w ∧
      w.unchanged = true ∧ ¬ Quiet (sample_config true) sample_root w.tree w.staging ∧
      ¬ Truthful (sample_config true) sample_root w.tree w.staging := by
  constructor
  · have hwalked : ∃ w, (watching (sample_config false) sample_root).run (.fresh one_file)
        (first_scan (sample_config false) one_file ++ [.change (sample_tree .nil)]) = some w ∧
        w.tree = sample_tree .nil ∧
        (∃ r, w.staging.entry_of "h" (path_text sample_root) ⟨1, 7⟩ = some r) ∧
        (sample_scan (sample_tree .nil) (sample_config false).restat_scope).incremental
          (sample_config false) sample_root w.staging = true :=
      ⟨_, rfl, rfl, ⟨_, rfl⟩, rfl⟩
    obtain ⟨w, hw, htree, hstaged, hincremental⟩ := hwalked
    have hperm : (sample_scan (sample_tree .nil) (sample_config false).restat_scope).walked.Perm
        (w.tree.walk ((sample_scan (sample_tree .nil) (sample_config false).restat_scope).scope
          (sample_config false) sample_root w.staging) sample_root) := by
      rw [Scan.scope, if_pos hincremental, htree]
      exact List.Perm.refl _
    obtain ⟨s', hscan⟩ := scan_one_scope_some hperm
    refine ⟨⟨w.tree, s', true⟩, ?_, rfl, ?_⟩
    · rw [List.append_cons, System.run_append, hw, Option.bind_some, System.run_singleton]
      exact Option.map_eq_some_iff.mpr ⟨s', hscan, rfl⟩
    · -- the row of the deleted file is still staged, and the walk does not report it
      rw [quiet_iff]
      rintro ⟨-, hseen⟩
      obtain ⟨r, hr⟩ := (known_of_scanned hperm (scan_one_scope_spec hscan).2 ⟨1, 7⟩).mpr (Or.inl hstaged)
      have hr := entry_of_iff.mp hr
      have hrow := hseen r hr.1
      rw [hr.2, htree] at hrow
      exact not_seen (by decide) hrow
  · have hunseen : ¬ Seen (sample_config true) sample_root mounted_file ⟨2, 7⟩ := not_seen (by decide)
    have hthere : StillThere (sample_config true) sample_root mounted_file ⟨2, 7⟩ "/m/b/a" := by
      refine ⟨sample_root ++ [⟨['b'], by decide⟩] ++ [⟨['a'], by decide⟩], ⟨2, 7⟩, ⟨rfl, ?_, ?_⟩, rfl, rfl⟩
      · simp
      · right
        refine .inside rfl (by simp) ?_ (.leaf rfl (by simp))
        intro hone
        exact absurd hone (by decide)
    refine ⟨_, rfl, rfl, ?_, ?_⟩
    · rw [quiet_iff]
      rintro ⟨-, hseen⟩
      exact hunseen (hseen _ (List.mem_cons_of_mem _ (List.mem_cons_of_mem _ List.mem_cons_self)))
    · rw [truthful_iff]
      intro hall
      exact hunseen (hall _ (List.mem_cons_of_mem _ (List.mem_cons_of_mem _ List.mem_cons_self)) hthere)

end Fathom.Agent
