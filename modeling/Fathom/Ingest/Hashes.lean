/-
**Which content a stored hash is of** (`IngestService._upsert_entries` and
`DedupService.rebuild`).

A full-bit batch is the only writer of the hash columns, and a metadata batch writes
the size and the `mtime` without them. So the columns of one row come from two entries
in general: its size and `mtime` from the last entry accepted for it, its hash from the
last full-bit one. A group is built on a row's size and hash, whichever entries they
came from.

The entries accepted are kept beside the catalogue as a history; no step reads it.
-/
import Fathom.Ingest.Churn
import Fathom.Catalogue.Dedup

set_option autoImplicit false

namespace Fathom.Ingest

open Fathom.Catalogue (Tables DupGroup DupMember DedupScope KeeperRule build_groups)

/-! ## Histories -/

/-- An entry that has been accepted, with the mode of its batch and the row it is for. -/
structure Delivery where
  mode : Mode
  key : EntryKey
  row : VettedRow

/-- What a batch delivers. -/
def deliveries (server : Server) (cat : Catalogue) (p : Push) : List Delivery :=
  (accepted_rows server p.batch p.now).map fun v =>
    ⟨p.batch.mode, v.key_in (cat.host_of p.batch p.cert_fingerprint p.now).id
      (cat.volume_of p.batch p.cert_fingerprint p.now).id, v⟩

/-- A catalogue and what it has been built from. -/
structure Archive where
  cat : Catalogue
  log : List Delivery

/-- **The batches ingested**, one after the other, into a new catalogue. -/
def archiving (server : Server) : System Archive Push where
  init := fun a => a = ⟨.empty, []⟩
  step := fun a p =>
    match ingest server a.cat p.batch p.cert_fingerprint p.now with
    | .ok (cat, _) => some ⟨cat, a.log ++ deliveries server a.cat p⟩
    | .error _ => none

/-- The entries accepted for one row. -/
def entries_for (log : List Delivery) (k : EntryKey) : List Delivery := log.filter fun d => d.key = k

/-- The rows of the catalogue as the grouping loads them. Rows are never deleted, so the
place of a row serves as its id. -/
def Catalogue.grouping_rows (cat : Catalogue) : List Catalogue.FsEntryRow :=
  cat.fs_entry.rows.mapIdx fun i r =>
    { id := i + 1
      host_id := r.host_id
      volume_id := r.volume_id
      path := r.path
      is_dir := r.is_dir
      present := r.present
      size_logical := r.size_logical
      inode := r.inode
      full_hash := r.full_hash }

/-! ## Where the columns of a row come from -/

/-- The size and `mtime` of a row are those of the last of some entries, its hash is
that of the last full-bit one. -/
structure MadeFrom (entries : List Delivery) (r : FsEntryRow) : Prop where
  content : ∃ d, entries.getLast? = some d ∧ d.row.size_logical = r.size_logical ∧ d.row.mtime = r.mtime
  hash : r.full_hash
    = (entries.filter fun d => d.mode = .fullbit).getLast?.bind fun d => d.row.full_hash

/-- Every row is made from the entries for it, and there are none for a row that is not
there. -/
def Recorded (t : Table FsEntryRow.key) (log : List Delivery) : Prop :=
  ∀ k, (t.find k = none → entries_for log k = []) ∧ ∀ r, t.find k = some r → MadeFrom (entries_for log k) r

section

variable {host_id volume_id snapshot_id : ℕ} {mode : Mode} {v : VettedRow}

theorem entries_for_append (log more : List Delivery) (k : EntryKey) :
    entries_for (log ++ more) k = entries_for log k ++ entries_for more k := List.filter_append _ _

/-- **What the upsert stores of an entry** is made from the entries before and this one. -/
theorem MadeFrom.stored {entries : List Delivery} {before : Option FsEntryRow} {k : EntryKey}
    (hhash : mode = .metadata → v.full_hash = none)
    (hnone : before = none → entries = []) (hsome : ∀ r, before = some r → MadeFrom entries r) :
    MadeFrom (entries ++ [⟨mode, k, v⟩])
      (Table.stored (entry_conflict mode) before (entry_row host_id volume_id snapshot_id v)) := by
  have hlast : (entries ++ [(⟨mode, k, v⟩ : Delivery)]).getLast? = some ⟨mode, k, v⟩ := by simp
  cases mode with
  | fullbit =>
      -- a full-bit entry writes both, whatever there was
      have hhashed : v.full_hash
          = ((entries ++ [(⟨.fullbit, k, v⟩ : Delivery)]).filter fun d => d.mode = .fullbit).getLast?.bind
              fun d => d.row.full_hash := by
        rw [List.filter_append, List.getLast?_append]
        rfl
      cases before with
      | none => exact ⟨⟨_, hlast, rfl, rfl⟩, hhashed⟩
      | some row => exact ⟨⟨_, hlast, rfl, rfl⟩, hhashed⟩
  | metadata =>
      have hfilter : ((entries ++ [(⟨.metadata, k, v⟩ : Delivery)]).filter fun d => d.mode = .fullbit)
          = entries.filter fun d => d.mode = .fullbit := by
        rw [List.filter_append]
        exact List.append_nil _
      cases before with
      | none =>
          refine ⟨⟨_, hlast, rfl, rfl⟩, ?_⟩
          rw [hfilter, hnone rfl]
          exact hhash rfl
      | some row =>
          have hrow := hsome row rfl
          show MadeFrom _ (if entry_guard .metadata row (entry_row host_id volume_id snapshot_id v) then
            entry_set .metadata row (entry_row host_id volume_id snapshot_id v) else row)
          split
          · refine ⟨⟨_, hlast, rfl, rfl⟩, ?_⟩
            rw [hfilter]
            exact hrow.hash
          · -- the guard keeps a row that has the size and `mtime` of the entry
            rename_i hguard
            rw [entry_guard_iff] at hguard
            push Not at hguard
            refine ⟨⟨_, hlast, hguard.2.1, hguard.1⟩, ?_⟩
            rw [hfilter]
            exact hrow.hash

variable {t : Table FsEntryRow.key} {log : List Delivery} {server : Server}

/-- One entry. -/
theorem Recorded.upsert (h : Recorded t log) (hhash : mode = .metadata → v.full_hash = none) :
    Recorded (t.upsert (entry_conflict mode) (entry_row host_id volume_id snapshot_id v))
      (log ++ [⟨mode, v.key_in host_id volume_id, v⟩]) := by
  intro k
  rw [Table.find_upsert, entries_for_append]
  by_cases hk : k = (entry_row host_id volume_id snapshot_id v).key
  · have hthis : entries_for [(⟨mode, v.key_in host_id volume_id, v⟩ : Delivery)] k
        = [⟨mode, v.key_in host_id volume_id, v⟩] :=
      List.filter_cons_of_pos (decide_eq_true hk.symm)
    rw [if_pos hk, hthis]
    refine ⟨fun hnone => absurd hnone (by simp), fun r hr => ?_⟩
    rw [← Option.some.inj hr]
    exact MadeFrom.stored hhash (h k).1 (h k).2
  · have hother : entries_for [(⟨mode, v.key_in host_id volume_id, v⟩ : Delivery)] k = [] :=
      List.filter_cons_of_neg (by simpa using fun heq => hk heq.symm)
    rw [if_neg hk, hother, List.append_nil]
    exact h k

/-- The entries of a batch. -/
theorem Recorded.upsert_entries {rows : List VettedRow} (h : Recorded t log)
    (hhash : mode = .metadata → ∀ v ∈ rows, v.full_hash = none) :
    Recorded (upsert_entries t host_id volume_id snapshot_id mode rows)
      (log ++ rows.map fun v => ⟨mode, v.key_in host_id volume_id, v⟩) := by
  induction rows generalizing t log with
  | nil =>
      rw [List.map_nil, List.append_nil]
      exact h
  | cons v rows ih =>
      rw [List.map_cons, List.append_cons]
      exact ih (h.upsert fun hmode => hhash hmode v List.mem_cons_self)
        fun hmode w hw => hhash hmode w (List.mem_cons_of_mem _ hw)

/-- A removal touches neither. -/
theorem Recorded.mark_removed (h : Recorded t log) (removed_keys : List RemovedKey) (when_ : Instant) :
    Recorded (mark_removed t host_id volume_id removed_keys when_) log := by
  intro k
  rw [find_mark_removed]
  rcases hfind : t.find k with _ | r
  · exact ⟨fun _ => (h k).1 hfind, fun r hr => absurd hr (by simp)⟩
  · refine ⟨fun hnone => absurd hnone (by simp), fun r' hr' => ?_⟩
    have hrow := (h k).2 r hfind
    rw [← Option.some.inj hr']
    dsimp only
    split
    · exact ⟨hrow.content, hrow.hash⟩
    · exact hrow

/-- A metadata batch carries no hash. -/
theorem vet_entries_unhashed {lower : String → String} {mount : Security.PurePath} {now : Instant}
    {entries : List EntryFrame} {v : VettedRow} (hv : v ∈ vet_entries lower mount .metadata now entries) :
    v.full_hash = none := by
  obtain ⟨e, -, hvet⟩ := List.mem_filterMap.mp hv
  rw [vet_entry] at hvet
  split at hvet
  · exact absurd hvet (by simp)
  · split at hvet
    · rw [← Option.some.inj hvet]
      rfl
    · exact absurd hvet (by simp)

/-- A step commits a batch that is accepted, and logs what it delivers. -/
theorem archiving_step {a a' : Archive} {p : Push} (hstep : (archiving server).step a p = some a') :
    ∃ mount snapshot, Accepted server a.cat p.batch p.cert_fingerprint p.now mount snapshot ∧
      a' = ⟨(commit_batch server a.cat p.batch p.cert_fingerprint p.now mount snapshot).1,
        a.log ++ deliveries server a.cat p⟩ := by
  dsimp only [archiving] at hstep
  split at hstep
  · rename_i cat result hingest
    obtain ⟨mount, snapshot, haccepted, hcommit⟩ := ingest_ok hingest
    refine ⟨mount, snapshot, haccepted, ?_⟩
    rw [hcommit]
    exact (Option.some.inj hstep).symm
  · exact absurd hstep (by simp)

/-- **One batch.** -/
theorem Recorded.step {a a' : Archive} {p : Push} (h : Recorded a.cat.fs_entry a.log)
    (hstep : (archiving server).step a p = some a') : Recorded a'.cat.fs_entry a'.log := by
  obtain ⟨mount, snapshot, haccepted, rfl⟩ := archiving_step hstep
  have hmount := (check_batch_ok haccepted.checked).1
  have hrows : accepted_rows server p.batch p.now
      = vet_entries server.lower mount p.batch.mode p.now p.batch.entries := by
    rw [accepted_rows, hmount]
  dsimp only
  rw [commit_batch_entries, deliveries, hrows, Catalogue.apply_of]
  cases hmode : p.batch.mode with
  | metadata => exact (h.upsert_entries fun _ v hv => vet_entries_unhashed hv).mark_removed _ _
  | fullbit => exact h.upsert_entries fun hne => absurd hne (by decide)

/-- **In every history** each row is made from the entries accepted for it. -/
theorem recorded {pushes : List Push} {a : Archive} (h : (archiving server).Trace pushes a) :
    Recorded a.cat.fs_entry a.log := by
  refine h.invariant (I := fun a => Recorded a.cat.fs_entry a.log) ?_ fun a p a' ha hstep => ha.step hstep
  rintro a rfl k
  exact ⟨fun _ => rfl, fun r hr => absurd hr (by simp [Catalogue.empty])⟩

end

/-! ## Groups -/

/-- An entry has the size and the `mtime` of a row. -/
def Delivery.content_of (d : Delivery) (r : FsEntryRow) : Prop :=
  d.row.size_logical = r.size_logical ∧ d.row.mtime = r.mtime

/-- A row is in a group for the hash of the last full-bit entry accepted for it, and has
the content of the last entry accepted for it: the full-bit one, or one of the metadata
entries later than that. -/
structure GroupedOn (log : List Delivery) (g : DupGroup) (r : FsEntryRow) (hashed : Delivery)
    (later : List Delivery) : Prop where
  entries : ∃ before, entries_for log r.key = before ++ hashed :: later
  fullbit : hashed.mode = .fullbit
  metadata : ∀ d ∈ later, d.mode = .metadata
  full_hash : hashed.row.full_hash = some g.full_hash
  size : r.size_logical = g.size
  content : (later.getLast?.getD hashed).content_of r

/-- The last element of a list with a property. -/
theorem split_at_last {α : Type} {p : α → Bool} {xs : List α} {x : α} (h : (xs.filter p).getLast? = some x) :
    p x = true ∧ ∃ before later, xs = before ++ x :: later ∧ ∀ y ∈ later, p y = false := by
  rw [← List.head?_reverse, ← List.filter_reverse, List.head?_filter, List.find?_eq_some_iff_append] at h
  obtain ⟨hp, later, before, hsplit, hlater⟩ := h
  refine ⟨hp, before.reverse, later.reverse, ?_, ?_⟩
  · rw [← List.reverse_reverse xs, hsplit, List.reverse_append, List.reverse_cons, List.append_assoc]
    rfl
  · intro y hy
    have hno := hlater y (List.mem_reverse.mp hy)
    rwa [Bool.not_eq_true'] at hno

/-- A row with a hash has its content and its hash from where `GroupedOn` says. -/
theorem MadeFrom.split {entries : List Delivery} {r : FsEntryRow} (h : MadeFrom entries r) {full_hash : String}
    (hhash : r.full_hash = some full_hash) :
    ∃ before hashed later, entries = before ++ hashed :: later ∧ hashed.mode = .fullbit ∧
      (∀ d ∈ later, d.mode = .metadata) ∧ hashed.row.full_hash = some full_hash ∧
      (later.getLast?.getD hashed).content_of r := by
  obtain ⟨hashed, hlast, hfull⟩ := Option.bind_eq_some_iff.mp (h.hash.symm.trans hhash)
  obtain ⟨hmode, before, later, hsplit, hlater⟩ := split_at_last hlast
  refine ⟨before, hashed, later, hsplit, of_decide_eq_true hmode, ?_, hfull, ?_⟩
  · intro d hd
    have hne := of_decide_eq_false (hlater d hd)
    cases hd' : d.mode with
    | metadata => rfl
    | fullbit => exact absurd hd' hne
  · obtain ⟨d, hd, hsize, hmtime⟩ := h.content
    rw [hsplit, List.getLast?_append, List.getLast?_cons, Option.some_or, Option.some.injEq] at hd
    rw [hd]
    exact ⟨hsize, hmtime⟩

theorem mem_grouping_rows {cat : Catalogue} {e : Catalogue.FsEntryRow} (h : e ∈ cat.grouping_rows) :
    ∃ r ∈ cat.fs_entry.rows, e.host_id = r.host_id ∧ e.volume_id = r.volume_id ∧ e.path = r.path ∧
      e.size_logical = r.size_logical ∧ e.full_hash = r.full_hash := by
  obtain ⟨i, hi, rfl⟩ := List.mem_mapIdx.mp h
  exact ⟨_, List.getElem_mem hi, rfl, rfl, rfl, rfl, rfl⟩

/-- A full-bit batch for the volume at `/m`: two files with the same bytes. -/
def two_alike (full_hash : String) : IngestBatch :=
  sample_batch .fullbit
    [{ sample_entry "a" 7 1 10 with partial_hash := some "p", full_hash := some full_hash },
      { sample_entry "b" 8 1 10 with partial_hash := some "p", full_hash := some full_hash }] []

/-- Both files have been rewritten since. -/
def two_rewritten : IngestBatch := sample_batch .metadata [sample_entry "a" 7 2 20, sample_entry "b" 8 2 20] []

/-- What some batches make of a new catalogue, when they are accepted. -/
def archived (batches : List IngestBatch) : Archive :=
  match (archiving sample_server).run ⟨.empty, []⟩ (batches.map fun batch => ⟨batch, "fp", 0⟩) with
  | some a => a
  | none => ⟨.empty, []⟩

/-- The tables a rebuild finds. -/
def tables_of (entries : List Catalogue.FsEntryRow) (hkey : (entries.map Catalogue.FsEntryRow.id).Nodup)
    (hhost : ∀ e ∈ entries, e.host_id = 1) : Tables where
  hosts := [⟨1, "h", by decide⟩]
  volumes := [⟨1, "ext4"⟩]
  entries := entries
  groups := []
  next_group_id := 1
  hosts_key := by decide
  entries_key := hkey
  groups_key := List.nodup_nil
  groups_below := fun _ h => absurd h List.not_mem_nil
  entry_host := fun e he => ⟨⟨1, "h", by decide⟩, List.mem_singleton.mpr rfl, (hhost e he).symm⟩
  member_entry := fun _ h => absurd h List.not_mem_nil

/-- **What a duplicate group says of a member's content.** The hash was said by the last
full-bit entry for the row; it is a hash of the row's size and `mtime` exactly when the
last metadata entry since, if there is one, has said the same size and `mtime`. -/
theorem grouped_on_last_hash {server : Server} {pushes : List Push} {a : Archive} {db : Tables}
    {scope : DedupScope} {keeper : KeeperRule} {g : DupGroup} {m : DupMember}
    (h : (archiving server).Trace pushes a) (hdb : db.entries = a.cat.grouping_rows)
    (hg : g ∈ build_groups db scope keeper) (hm : m ∈ g.members) :
    ∃ r ∈ a.cat.fs_entry.rows, m.host_id = r.host_id ∧ m.volume_id = r.volume_id ∧ m.path = r.path ∧
      ∃ hashed later, GroupedOn a.log g r hashed later ∧
        (hashed.content_of r ↔ ∀ d, later.getLast? = some d →
          d.row.size_logical = hashed.row.size_logical ∧ d.row.mtime = hashed.row.mtime) := by
  obtain ⟨e, hgrouped⟩ := (Catalogue.build_groups_spec hg).2 m hm
  have he := hgrouped.entry
  rw [hdb] at he
  obtain ⟨r, hr, hhost, hvolume, hpath, hsize, hhash⟩ := mem_grouping_rows he
  have hmade := (recorded h r.key).2 r (Table.find_of_mem hr)
  obtain ⟨before, hashed, later, hsplit, hfullbit, hmetadata, hfull, hcontent⟩ :=
    hmade.split (hhash.symm.trans hgrouped.full_hash)
  refine ⟨r, hr, hgrouped.host_id.trans hhost, hgrouped.volume_id.trans hvolume, hgrouped.path.trans hpath,
    hashed, later, ⟨⟨before, hsplit⟩, hfullbit, hmetadata, hfull, hsize.symm.trans hgrouped.size, hcontent⟩, ?_⟩
  rcases hlast : later.getLast? with _ | d
  · rw [hlast] at hcontent
    exact iff_of_true hcontent fun d hd => absurd hd (by simp)
  · rw [hlast] at hcontent
    have hd : d.content_of r := hcontent
    constructor
    · intro hthis d' hd'
      rw [← Option.some.inj hd', hthis.1, hthis.2]
      exact hd
    · intro hsame
      obtain ⟨hsize, hmtime⟩ := hsame d rfl
      exact ⟨hsize.symm.trans hd.1, hmtime.symm.trans hd.2⟩

/-- Two files in a group, and nothing heard of them since. -/
theorem grouped_on_last_hash_fresh :
    ∃ g ∈ build_groups (tables_of (archived [two_alike "f"]).cat.grouping_rows (by decide) (by decide)) {}
        (fun _ _ => ⟨0, ""⟩),
      ∃ m ∈ g.members, ∃ r ∈ (archived [two_alike "f"]).cat.fs_entry.rows,
        m.host_id = r.host_id ∧ m.volume_id = r.volume_id ∧ m.path = r.path ∧
        ∃ hashed later, GroupedOn (archived [two_alike "f"]).log g r hashed later ∧
          (hashed.content_of r ↔ ∀ d, later.getLast? = some d →
            d.row.size_logical = hashed.row.size_logical ∧ d.row.mtime = hashed.row.mtime) := by
  have hgroup : ((build_groups (tables_of (archived [two_alike "f"]).cat.grouping_rows (by decide) (by decide)) {}
      (fun _ _ => ⟨0, ""⟩)).any fun g => !g.members.isEmpty) = true := by decide
  obtain ⟨g, hg, hmembers⟩ := List.any_eq_true.mp hgroup
  obtain ⟨m, hm⟩ := List.exists_mem_of_ne_nil g.members (by simpa using hmembers)
  exact ⟨g, hg, m, hm, @grouped_on_last_hash sample_server [⟨two_alike "f", "fp", 0⟩] _
    (tables_of (archived [two_alike "f"]).cat.grouping_rows (by decide) (by decide)) {} (fun _ _ => ⟨0, ""⟩) _ _
    ⟨_, rfl, rfl⟩ rfl hg hm⟩

/-- Both files have been rewritten since they were hashed, and the metadata pass has said
so: they are in the group still. -/
theorem grouped_after_rewrite :
    ¬ ∀ (server : Server) (pushes : List Push) (a : Archive) (db : Tables) (scope : DedupScope)
      (keeper : KeeperRule), (archiving server).Trace pushes a → db.entries = a.cat.grouping_rows →
      ∀ g ∈ build_groups db scope keeper, ∀ m ∈ g.members, ∃ r ∈ a.cat.fs_entry.rows,
        m.host_id = r.host_id ∧ m.volume_id = r.volume_id ∧ m.path = r.path ∧
        ∃ d ∈ entries_for a.log r.key, d.mode = .fullbit ∧ d.row.full_hash = some g.full_hash ∧
          d.content_of r := by
  intro hall
  have hbad := hall sample_server [⟨two_alike "f", "fp", 0⟩, ⟨two_rewritten, "fp", 0⟩] _
    (tables_of (archived [two_alike "f", two_rewritten]).cat.grouping_rows (by decide) (by decide)) {}
    (fun _ _ => ⟨0, ""⟩) ⟨_, rfl, rfl⟩ rfl
  revert hbad
  unfold Delivery.content_of
  decide

end Fathom.Ingest
