/-
**The two funnels agree**: the full-bit pass of an agent, and the grouping of what it has
staged by the core, against `find_duplicates` over the same files.

A pass hashes no fewer files than have a duplicate, and the core groups by size and full
hash, which on a static set without collisions is by content. Rows that an earlier pass over
the same files has hashed may be there. The rows come to the catalogue as they are staged
(`pushed_rows`); a row's place among those of its volume stands for its id.
-/
import Fathom.Agent.FullBit
import Fathom.Catalogue.Dedup

set_option autoImplicit false

namespace Fathom.Agent

open Fathom.Ingest (Identity Mode VolumeFrame)
open Fathom.Catalogue (Tables DupGroup DupMember EntryRef build_groups load_hashed_entries entry_ref group_by_hash)
open Fathom.Dedup

/-! ## The files of a scope -/

/-- A staged row, and its place among the rows of its volume. -/
abbrev Placed := StagedEntry × ℕ

/-- The rows of a volume, with their places. -/
def placed_rows (config : AgentConfig) (volume : VolumeFrame) (s : Staging) : List Placed :=
  (s.rows_of config.host_id volume.mountpoint).zipIdx 1

/-- The conditions of `iter_candidates`. -/
def hashable (in_scope : String → Bool) (x : Placed) : Bool :=
  !x.1.entry.is_dir && !x.1.entry.is_symlink && in_scope x.1.entry.path

/-- The files of a scope. -/
def scope_files (config : AgentConfig) (volume : VolumeFrame) (in_scope : String → Bool) (s : Staging) : List Placed :=
  (placed_rows config volume s).filter (hashable in_scope)

/-- Those with something in them. -/
def filled_files (config : AgentConfig) (volume : VolumeFrame) (in_scope : String → Bool) (s : Staging) : List Placed :=
  (scope_files config volume in_scope s).filter fun x => x.1.entry.size_logical ≠ 0

/-- The candidate made of a row. -/
def candidate (x : Placed) : Candidate Int :=
  { id := x.1.entry.inode, path := x.1.entry.path, size := x.1.entry.size_logical, dev := x.1.entry.dev }

/-- The same file for a search that knows rows by their place. -/
def placed_candidate (x : Placed) : Candidate ℕ :=
  { id := x.2, path := x.1.entry.path, size := x.1.entry.size_logical, dev := x.1.entry.dev }

/-- What is hashed already are files of the scope, by their content. -/
def HashedBefore (blake3 : ByteArray → String) (files : Files) (config : AgentConfig) (volume : VolumeFrame)
    (in_scope : String → Bool) (s : Staging) : Prop :=
  ∀ x ∈ placed_rows config volume s, x.1.full_hash ≠ none →
    hashable in_scope x = true ∧ x.1.entry.size_logical ≠ 0 ∧
      x.1.full_hash = some (blake3 (content files (candidate x)))

instance (blake3 : ByteArray → String) (files : Files) (config : AgentConfig) (volume : VolumeFrame)
    (in_scope : String → Bool) (s : Staging) : Decidable (HashedBefore blake3 files config volume in_scope s) :=
  inferInstanceAs (Decidable (∀ x ∈ placed_rows config volume s, _ → _ ∧ _ ∧ _))

/-- The row of the catalogue that a staged row becomes. -/
def catalogued (host_id volume_id : ℕ) (x : Placed) : Catalogue.FsEntryRow where
  id := x.2
  host_id := host_id
  volume_id := volume_id
  path := x.1.entry.path
  is_dir := x.1.entry.is_dir
  present := true
  size_logical := x.1.entry.size_logical
  inode := x.1.entry.inode
  full_hash := x.1.full_hash

/-- The rows of the catalogue once the staged ones have been pushed. -/
def pushed_rows (config : AgentConfig) (volume : VolumeFrame) (host_id volume_id : ℕ) (s : Staging) :
    List Catalogue.FsEntryRow :=
  (placed_rows config volume s).map (catalogued host_id volume_id)

/-! ## The grouping of the core -/

theorem append_to_eq (d : Catalogue.ByHash) (ref : EntryRef) : d.append ref = append_to ref.key ref d := by
  induction d with
  | nil => rfl
  | cons bucket rest ih =>
      rw [Catalogue.ByHash.append, append_to, ih]

theorem group_by_hash_eq (refs : List EntryRef) : group_by_hash refs = buckets EntryRef.key refs := by
  rw [group_by_hash, buckets]
  congr 1
  funext d ref
  exact append_to_eq d ref

/-- The members of the groups of a rebuild. -/
theorem build_groups_members (db : Tables) (scope : Catalogue.DedupScope) (rule : Catalogue.KeeperRule) :
    (build_groups db scope rule).map (fun g => g.members.map DupMember.entry_id)
      = (crowded (buckets EntryRef.key (load_hashed_entries db scope))).map fun b => b.2.map EntryRef.entry_id := by
  have hmembers : ∀ (groups : List ((ℕ × String) × List EntryRef)) (n : ℕ),
      (groups.mapIdx fun i g => Catalogue.make_group scope rule (n + i) g).map (fun g => g.members.map DupMember.entry_id)
        = groups.map fun b => b.2.map EntryRef.entry_id := by
    intro groups n
    refine List.ext_getElem ?_ fun i hi hi' => ?_
    · rw [List.length_map, List.length_mapIdx, List.length_map]
    · rw [List.getElem_map, List.getElem_mapIdx, List.getElem_map, Catalogue.make_group]
      exact List.map_map
  rw [build_groups, hmembers, group_by_hash_eq]
  rfl

section

variable {blake3 : ByteArray → String} {files : Files} {config : AgentConfig} {volume : VolumeFrame}
  {in_scope : String → Bool} {s : Staging} {xs : List Placed}

/-- A hashed file of the catalogue. -/
def hashed_file (x : Placed) : Bool := x.1.full_hash.isSome && !x.1.entry.is_dir

theorem hashed_in_scope_catalogued (host_id volume_id : ℕ) (x : Placed) :
    Catalogue.hashed_in_scope {} (catalogued host_id volume_id x) = hashed_file x := by
  show (x.1.full_hash.isSome && true && !x.1.entry.is_dir && (true || _) && true) = _
  rw [Bool.and_true, Bool.true_or, Bool.and_true, Bool.and_true]
  rfl

/-- The size and the hash that the core groups a row by. -/
def core_key (x : Placed) : ℕ × String := (x.1.entry.size_logical, x.1.full_hash.getD "")

/-- **The core groups the hashed files** by their size and hash, whatever they were before
the pass. -/
theorem grouped_by_core {post : Placed → Placed} (db : Tables) (rule : Catalogue.KeeperRule) (host_id volume_id : ℕ)
    (hdb : db.entries = xs.map fun x => catalogued host_id volume_id (post x)) :
    (build_groups db {} rule).map (fun g => g.members.map DupMember.entry_id)
      = ((crowded (buckets (fun x => core_key (post x)) (xs.filter fun x => hashed_file (post x)))).map Prod.snd).map
          (List.map fun x => (post x).2) := by
  have hload : load_hashed_entries db {}
      = (xs.filter fun x => hashed_file (post x)).map fun x => entry_ref db (catalogued host_id volume_id (post x)) := by
    rw [load_hashed_entries, hdb, List.filter_map, List.map_map]
    refine congrArg (List.map _) (List.filter_congr fun x _ => ?_)
    exact hashed_in_scope_catalogued host_id volume_id (post x)
  have hkey : (fun x : Placed => (entry_ref db (catalogued host_id volume_id (post x))).key) = fun x => core_key (post x) := rfl
  rw [build_groups_members, hload, buckets_map, hkey, crowded_map, List.map_map, List.map_map]
  refine List.map_congr_left fun b _ => ?_
  exact List.map_map

/-! ## After the pass -/

theorem static_placed (h : Static files (xs.map candidate)) : Static files (xs.map placed_candidate) := by
  intro c hc
  obtain ⟨x, hx, rfl⟩ := List.mem_map.mp hc
  exact h (candidate x) (List.mem_map_of_mem hx)

theorem collision_free_placed (h : CollisionFree blake3 files (xs.map candidate)) :
    CollisionFree blake3 files (xs.map placed_candidate) := by
  intro c hc c' hc' hsame
  obtain ⟨x, hx, rfl⟩ := List.mem_map.mp hc
  obtain ⟨x', hx', rfl⟩ := List.mem_map.mp hc'
  exact h (candidate x) (List.mem_map_of_mem hx) (candidate x') (List.mem_map_of_mem hx') hsame

/-- A file has one row in its volume. -/
theorem placed_inj {x y : Placed} (hx : x ∈ placed_rows config volume s) (hy : y ∈ placed_rows config volume s)
    (h : x.1.key = y.1.key) : x = y := by
  have hnodup : ((placed_rows config volume s).map fun x => x.1.key).Nodup := by
    have hrows : ((s.rows_of config.host_id volume.mountpoint).map StagedEntry.key).Nodup :=
      s.staged_entry.unique.sublist (List.filter_sublist.map _)
    have hmap : (placed_rows config volume s).map (fun x => x.1.key)
        = ((placed_rows config volume s).map Prod.fst).map StagedEntry.key := by
      rw [List.map_map]
      rfl
    rw [hmap, placed_rows, List.zipIdx_map_fst]
    exact hrows
  exact List.inj_on_of_nodup_map hnodup hx hy h

variable {x : Placed}

theorem key_of_placed (hx : x ∈ placed_rows config volume s) :
    x.1.key = ⟨config.host_id, volume.mountpoint, x.1.entry.identity⟩ := by
  have hmem : x.1 ∈ s.rows_of config.host_id volume.mountpoint := by
    have hfst : x.1 ∈ (placed_rows config volume s).map Prod.fst := List.mem_map_of_mem hx
    rwa [placed_rows, List.zipIdx_map_fst] at hfst
  obtain ⟨hhost, hvolume⟩ := of_decide_eq_true (List.mem_filter.mp hmem).2
  rw [StagedEntry.key, hhost, hvolume]

/-- The rows of the volume after a pass. -/
theorem placed_rows_after {pass : HashPass} {u : Staging} (h : HashedFrom config volume pass s u) :
    placed_rows config volume u
      = (placed_rows config volume s).map fun x => (rehash config volume.mountpoint s.next_run pass.hashes x.1, x.2) := by
  have hrows : u.rows_of config.host_id volume.mountpoint
      = (s.rows_of config.host_id volume.mountpoint).map (rehash config volume.mountpoint s.next_run pass.hashes) := by
    rw [Staging.rows_of, h.entries, rows_hash_rows, List.filter_map]
    refine congrArg (List.map _) (List.filter_congr fun r _ => ?_)
    have hkey := (@rehash_keeps config volume.mountpoint s.next_run pass.hashes r).1
    have hhost := congrArg StagedKey.host_id hkey
    have hvolume := congrArg StagedKey.volume_id hkey
    dsimp only [StagedEntry.key] at hhost hvolume
    rw [Function.comp_apply, hhost, hvolume]
  rw [placed_rows, hrows, List.zipIdx_map]
  rfl

theorem mem_filled_files : x ∈ filled_files config volume in_scope s ↔
      x ∈ placed_rows config volume s ∧ hashable in_scope x = true ∧ x.1.entry.size_logical ≠ 0 := by
  rw [filled_files, scope_files, List.mem_filter, List.mem_filter, decide_eq_true_eq, and_assoc]

/-- What the search and the pass do not skip as empty. -/
theorem nonempty_map {ι : Type} {f : Placed → Candidate ι} (hsize : ∀ x, (f x).size = x.1.entry.size_logical) :
    nonempty ((scope_files config volume in_scope s).map f) = (filled_files config volume in_scope s).map f := by
  rw [nonempty, List.filter_map, filled_files]
  refine congrArg (List.map f) (List.filter_congr fun x _ => ?_)
  rw [Function.comp_apply, hsize]

/-- The hashes that a pass over the scope stages. -/
def pass_hashes (blake3 : ByteArray → String) (files : Files) (config : AgentConfig) (volume : VolumeFrame)
    (in_scope : String → Bool) (s : Staging) : List (Identity × String × String) :=
  (((size_buckets ((scope_files config volume in_scope s).map candidate)).map
    (funnel_group (backend_hasher blake3 files))).flatMap Funnelled.staged).map Staged.hash

/-- **A hash that is staged for a row** is that of its content. -/
theorem pass_hashes_sound (hstatic : Static files ((scope_files config volume in_scope s).map candidate))
    (hx : x ∈ placed_rows config volume s) {hash : Identity × String × String}
    (hhash : hash ∈ pass_hashes blake3 files config volume in_scope s) (hidentity : hash.1 = x.1.entry.identity) :
    x ∈ filled_files config volume in_scope s ∧ hash.2.2 = blake3 (content files (candidate x)) := by
  obtain ⟨staged, hstaged, rfl⟩ := List.mem_map.mp hhash
  obtain ⟨hmem, -, -, hfull⟩ := (mem_staged hstatic).mp hstaged
  rw [nonempty_map fun _ => rfl] at hmem
  obtain ⟨y, hy, hcand⟩ := List.mem_map.mp hmem
  have hplaced := (mem_filled_files.mp hy).1
  have hsame : x = y := by
    refine placed_inj hx hplaced ?_
    rw [key_of_placed hx, key_of_placed hplaced, ← hidentity, Staged.hash, ← hcand]
    rfl
  rw [hsame]
  refine ⟨hy, ?_⟩
  show staged.full_hash = _
  rw [hfull, ← hcand]
  rfl

/-- **A file with a duplicate is hashed.** -/
theorem pass_hashes_complete (hstatic : Static files ((scope_files config volume in_scope s).map candidate))
    (hx : x ∈ filled_files config volume in_scope s)
    (htwo : 2 ≤ (under (fun y => content files (candidate y)) (filled_files config volume in_scope s)
      (content files (candidate x))).length) :
    x.1.key ∈ hashed_keys config volume.mountpoint (pass_hashes blake3 files config volume in_scope s) := by
  have hnonempty := @nonempty_map config volume in_scope s Int candidate fun _ => rfl
  have hcand : candidate x ∈ nonempty ((scope_files config volume in_scope s).map candidate) := by
    rw [hnonempty]
    exact List.mem_map_of_mem hx
  have hcrowd : 2 ≤ (under (partial_of blake3 files) (under Candidate.size
      (nonempty ((scope_files config volume in_scope s).map candidate)) (candidate x).size)
      (partial_of blake3 files (candidate x))).length := by
    rw [← List.length_map candidate, ← under_map, ← hnonempty] at htwo
    refine Nat.le_trans htwo ?_
    rw [under, under, under, List.filter_filter, ← List.countP_eq_length_filter, ← List.countP_eq_length_filter]
    -- equal contents have one size, and so one partial digest
    refine List.countP_mono_left fun c hc hsame => ?_
    have hsame : content files c = content files (candidate x) := of_decide_eq_true hsame
    have hsize : c.size = (candidate x).size := by
      rw [← (hstatic c (List.mem_of_mem_filter hc)).2, hsame, (hstatic _ (List.mem_of_mem_filter hcand)).2]
    rw [Bool.and_eq_true, decide_eq_true_eq, decide_eq_true_eq, partial_of, partial_of, hsize, hsame]
    exact ⟨rfl, rfl⟩
  have hstaged := (mem_staged hstatic).mpr (show (⟨candidate x, partial_of blake3 files (candidate x),
    full_of blake3 files (candidate x)⟩ : Staged).cand ∈ _ ∧ _ ∧ _ ∧ _ from ⟨hcand, hcrowd, rfl, rfl⟩)
  rw [key_of_placed (mem_filled_files.mp hx).1]
  exact List.mem_map.mpr ⟨_, List.mem_map_of_mem hstaged, rfl⟩

/-- What a pass over the scope makes of a row. -/
def row_after (blake3 : ByteArray → String) (files : Files) (config : AgentConfig) (volume : VolumeFrame)
    (in_scope : String → Bool) (s : Staging) (x : Placed) : Placed :=
  (rehash config volume.mountpoint s.next_run (pass_hashes blake3 files config volume in_scope s) x.1, x.2)

/-- **A hashed file after the pass** is one with something in it, under the hash of its content. -/
theorem hashed_after (hstatic : Static files ((scope_files config volume in_scope s).map candidate))
    (hbefore : HashedBefore blake3 files config volume in_scope s) (hx : x ∈ placed_rows config volume s)
    (h : hashed_file (row_after blake3 files config volume in_scope s x) = true) :
    x ∈ filled_files config volume in_scope s ∧ core_key (row_after blake3 files config volume in_scope s x)
        = (x.1.entry.size_logical, blake3 (content files (candidate x))) := by
  have hentry := (@rehash_keeps config volume.mountpoint s.next_run (pass_hashes blake3 files config volume in_scope s) x.1).2
  have hfull := @full_hash_rehash config volume.mountpoint s.next_run (pass_hashes blake3 files config volume in_scope s)
    (blake3 (content files (candidate x))) x.1 fun hash hhash hidentity => (pass_hashes_sound hstatic hx hhash hidentity).2
  rw [hashed_file, Bool.and_eq_true] at h
  have hsome := h.1
  rw [row_after, hfull] at hsome
  rw [core_key, row_after, hentry, hfull]
  by_cases hkey : x.1.key ∈ hashed_keys config volume.mountpoint (pass_hashes blake3 files config volume in_scope s)
  · rw [if_pos hkey]
    obtain ⟨hash, hhash, hsame⟩ := List.mem_map.mp hkey
    exact ⟨(pass_hashes_sound hstatic hx hhash (congrArg StagedKey.identity hsame)).1, rfl⟩
  · rw [if_neg hkey] at hsome ⊢
    obtain ⟨hhashable, hsize, hhash⟩ := hbefore x hx (Option.isSome_iff_ne_none.mp hsome)
    rw [hhash]
    exact ⟨mem_filled_files.mpr ⟨hx, hhashable, hsize⟩, rfl⟩

/-- A file with a duplicate is a hashed one after the pass. -/
theorem hashed_after_of_two (hstatic : Static files ((scope_files config volume in_scope s).map candidate))
    (hx : x ∈ filled_files config volume in_scope s)
    (htwo : 2 ≤ (under (fun y => content files (candidate y)) (filled_files config volume in_scope s)
      (content files (candidate x))).length) :
    hashed_file (row_after blake3 files config volume in_scope s x) = true := by
  obtain ⟨hplaced, hhashable, -⟩ := mem_filled_files.mp hx
  have hentry := (@rehash_keeps config volume.mountpoint s.next_run (pass_hashes blake3 files config volume in_scope s) x.1).2
  have hfull := @full_hash_rehash config volume.mountpoint s.next_run (pass_hashes blake3 files config volume in_scope s)
    (blake3 (content files (candidate x))) x.1 fun hash hhash hidentity => (pass_hashes_sound hstatic hplaced hhash hidentity).2
  rw [if_pos (pass_hashes_complete hstatic hx htwo)] at hfull
  rw [hashable, Bool.and_eq_true, Bool.and_eq_true] at hhashable
  rw [hashed_file, row_after, hfull, hentry, hhashable.1.1]
  rfl

/-- **The core's groups are those of the one-shot search.** -/
theorem core_groups (hstatic : Static files ((scope_files config volume in_scope s).map candidate))
    (hfree : CollisionFree blake3 files ((scope_files config volume in_scope s).map candidate))
    (hbefore : HashedBefore blake3 files config volume in_scope s) {u : Staging} {finished_at : ℚ}
    (hscan : fullbit_scan config volume ⟨pass_hashes blake3 files config volume in_scope s, finished_at⟩ s = some u)
    {keeper : KeeperRule ℕ} {groups : List (DuplicateGroup ℕ)}
    (hgroups : Confirmed blake3 files keeper ((scope_files config volume in_scope s).map placed_candidate) groups)
    {db : Tables} {host_id volume_id : ℕ} (rule : Catalogue.KeeperRule)
    (hdb : db.entries = pushed_rows config volume host_id volume_id u) :
    ((build_groups db {} rule).map fun g => g.members.map DupMember.entry_id).Perm (groups.map DuplicateGroup.member_ids) := by
  have hpost := placed_rows_after (fullbit_scan_iff.mp hscan)
  have hentries : db.entries = (placed_rows config volume s).map fun x =>
      catalogued host_id volume_id (row_after blake3 files config volume in_scope s x) := by
    rw [hdb, pushed_rows, hpost, List.map_map]
    rfl
  have hkept : (placed_rows config volume s).filter (fun x =>
        hashed_file (row_after blake3 files config volume in_scope s x))
      = (filled_files config volume in_scope s).filter fun x =>
          hashed_file (row_after blake3 files config volume in_scope s x) := by
    rw [filled_files, scope_files, List.filter_filter, List.filter_filter]
    refine List.filter_congr fun x hx => ?_
    rw [Bool.eq_iff_iff, Bool.and_eq_true, Bool.and_eq_true, decide_eq_true_eq]
    refine ⟨fun hhashed => ?_, fun h => h.1.1⟩
    obtain ⟨-, hhashable, hsize⟩ := mem_filled_files.mp (hashed_after hstatic hbefore hx hhashed).1
    exact ⟨⟨hhashed, hsize⟩, hhashable⟩
  rw [grouped_by_core db rule host_id volume_id hentries, hkept]
  have hcore : ∀ x ∈ (filled_files config volume in_scope s).filter (fun x =>
        hashed_file (row_after blake3 files config volume in_scope s x)),
      x ∈ filled_files config volume in_scope s ∧
        core_key (row_after blake3 files config volume in_scope s x)
          = (x.1.entry.size_logical, blake3 (content files (candidate x))) := by
    intro x hx
    obtain ⟨hmem, hhashed⟩ := List.mem_filter.mp hx
    exact hashed_after hstatic hbefore (mem_filled_files.mp hmem).1 hhashed
  have hread : ∀ x ∈ filled_files config volume in_scope s,
      candidate x ∈ (scope_files config volume in_scope s).map candidate := fun x hx =>
    List.mem_map_of_mem (List.mem_of_mem_filter hx)
  -- size and hash tell apart what the content does
  have hsame : ∀ x ∈ (filled_files config volume in_scope s).filter (fun x =>
        hashed_file (row_after blake3 files config volume in_scope s x)),
      ∀ y ∈ (filled_files config volume in_scope s).filter (fun x =>
        hashed_file (row_after blake3 files config volume in_scope s x)),
      (core_key (row_after blake3 files config volume in_scope s x) = core_key (row_after blake3 files config volume in_scope s y) ↔
        content files (candidate x) = content files (candidate y)) := by
    intro x hx y hy
    obtain ⟨hx, hxkey⟩ := hcore x hx
    obtain ⟨hy, hykey⟩ := hcore y hy
    rw [hxkey, hykey, Prod.mk.injEq]
    constructor
    · rintro ⟨-, hhash⟩
      exact hfree _ (hread x hx) _ (hread y hy) hhash
    · intro hsame
      refine ⟨?_, by rw [hsame]⟩
      have hsize := (hstatic _ (hread x hx)).2
      rw [hsame, (hstatic _ (hread y hy)).2] at hsize
      exact hsize.symm
  -- and no file with a duplicate is missing
  have hwhole : ∀ x ∈ filled_files config volume in_scope s,
      2 ≤ (under (fun y => content files (candidate y)) (filled_files config volume in_scope s)
        (content files (candidate x))).length →
      ∀ y ∈ under (fun y => content files (candidate y)) (filled_files config volume in_scope s) (content files (candidate x)),
        hashed_file (row_after blake3 files config volume in_scope s y) = true := by
    intro x _ htwo y hy
    obtain ⟨hy, hsame⟩ := mem_under.mp hy
    refine hashed_after_of_two hstatic hy ?_
    rw [hsame]
    exact htwo
  have hclasses := Classes.of_kept hwhole ((buckets_classes _ _).congr hsame)
  obtain ⟨classes, hfound, hreports⟩ := hgroups
  rw [nonempty_map fun _ => rfl] at hfound
  have hmapped := (@Classes.map _ _ _ (content files) Placed placed_candidate _ _ hclasses).perm hfound
  rw [reported_ids hreports]
  refine List.Perm.trans (List.Perm.of_eq ?_) (hmapped.map (List.map Candidate.id))
  conv_rhs => rw [List.map_map]
  refine List.map_congr_left fun group _ => ?_
  rw [Function.comp_apply, List.map_map]
  rfl

end

/-- **The funnels refine one specification**: `find_duplicates` reports the classes of equal
content among the files with something in them, each once, each member once; and a full-bit
pass over a scope, followed by the grouping of the core, finds the classes that
`find_duplicates` reports of the same files. -/
theorem funnels_agree (blake3 : ByteArray → String) (files : Files) :
    (∀ (ι : Type) (keeper : KeeperRule ι) (candidates : List (Candidate ι)), Static files candidates →
      CollisionFree blake3 files candidates → (candidates.map Candidate.id).Nodup →
        ∃ groups, find_duplicates (backend_hasher blake3 files) keeper true candidates = some groups ∧
          Confirmed blake3 files keeper candidates groups ∧ ∀ group ∈ groups, group.member_ids.Nodup) ∧
    ∀ (config : AgentConfig) (volume : VolumeFrame) (in_scope : String → Bool) (scope_root : String) (finished_at : ℚ)
      (s : Staging) (keeper : KeeperRule ℕ), Static files ((scope_files config volume in_scope s).map candidate) →
      CollisionFree blake3 files ((scope_files config volume in_scope s).map candidate) →
      HashedBefore blake3 files config volume in_scope s →
        ∃ u result groups,
          fullbit_pass config (backend_hasher blake3 files) volume scope_root
              ((scope_files config volume in_scope s).map candidate) (some .fullbit) false finished_at s = .ok (u, result) ∧
          find_duplicates (backend_hasher blake3 files) keeper true
              ((scope_files config volume in_scope s).map placed_candidate) = some groups ∧
          ∀ (host_id volume_id : ℕ) (db : Tables) (rule : Catalogue.KeeperRule),
            db.entries = pushed_rows config volume host_id volume_id u →
              ((build_groups db {} rule).map fun g => g.members.map DupMember.entry_id).Perm
                (groups.map DuplicateGroup.member_ids) := by
  constructor
  · intro ι keeper candidates hstatic hfree hset
    obtain ⟨groups, hfound, hconfirmed⟩ := find_duplicates_confirmed hstatic hfree
    exact ⟨groups, hfound, hconfirmed, hconfirmed.members_once hset⟩
  · intro config volume in_scope scope_root finished_at s keeper hstatic hfree hbefore
    obtain ⟨u, hscan⟩ := @fullbit_scan_some config volume ⟨pass_hashes blake3 files config volume in_scope s, finished_at⟩ s
    obtain ⟨groups, hfound, hconfirmed⟩ := @find_duplicates_confirmed _ _ _ keeper _ (static_placed hstatic)
      (collision_free_placed hfree)
    obtain ⟨result, hpass⟩ : ∃ result, fullbit_pass config (backend_hasher blake3 files) volume scope_root
        ((scope_files config volume in_scope s).map candidate) (some .fullbit) false finished_at s = .ok (u, result) := by
      rw [fullbit_pass, scan_grouped, if_neg (not_not.mpr rfl), if_neg Bool.false_ne_true]
      rw [pass_hashes] at hscan
      dsimp only
      rw [hscan]
      exact ⟨_, rfl⟩
    exact ⟨u, result, groups, hpass, hfound, fun host_id volume_id db rule hdb =>
      core_groups hstatic hfree hbefore hscan hconfirmed rule hdb⟩

/-- A content of one byte, and BLAKE3 of it. -/
def zero_byte : ByteArray := ⟨#[0]⟩

def blake3_sample (b : ByteArray) : String :=
  if b = zero_byte then "2d3adedff11b61f14c886e35afa036736dcd87a74d27b5c1510225d0f592e213" else ""

/-- Two copies of it. -/
def two_copies : Files := fun path => if path = "/m/a" ∨ path = "/m/b" then some zero_byte else none

/-- Their rows, staged and not hashed. -/
def two_copies_staged : Staging where
  scan_run := .single _ ⟨1, "h", "/m", .metadata, some 0, none⟩
  staged_entry := ⟨[⟨"h", "/m", sample_file "a" 7 0 1, none, none, 1, false⟩,
    ⟨"h", "/m", sample_file "b" 8 0 1, none, none, 1, false⟩], by decide⟩
  staged_removal := .empty _
  ordered := by decide
  entry_run := by decide
  removal_run := by decide

def sample_volume : VolumeFrame := volume_frame ⟨1, "h", "/m", .metadata, none, none⟩

theorem funnels_agree_two_copies :
    (∃ groups, find_duplicates (backend_hasher blake3_sample two_copies) keep_shortest_path true
        [⟨1, "/m/a", 1, 0⟩, ⟨2, "/m/b", 1, 0⟩] = some groups ∧
      Confirmed blake3_sample two_copies keep_shortest_path [⟨1, "/m/a", 1, 0⟩, ⟨2, "/m/b", 1, 0⟩] groups ∧
      ∀ group ∈ groups, group.member_ids.Nodup) ∧
    ∃ u result groups,
      fullbit_pass ⟨"h", false, [], 1000⟩ (backend_hasher blake3_sample two_copies) sample_volume "/m"
          ((scope_files ⟨"h", false, [], 1000⟩ sample_volume (fun _ => true) two_copies_staged).map candidate)
          (some .fullbit) false 1 two_copies_staged = .ok (u, result) ∧
      find_duplicates (backend_hasher blake3_sample two_copies) keep_shortest_path true
          ((scope_files ⟨"h", false, [], 1000⟩ sample_volume (fun _ => true) two_copies_staged).map placed_candidate)
        = some groups ∧
      ∀ (host_id volume_id : ℕ) (db : Tables) (rule : Catalogue.KeeperRule),
        db.entries = pushed_rows ⟨"h", false, [], 1000⟩ sample_volume host_id volume_id u →
          ((build_groups db {} rule).map fun g => g.members.map DupMember.entry_id).Perm
            (groups.map DuplicateGroup.member_ids) := by
  constructor
  · refine (funnels_agree blake3_sample two_copies).1 ℕ keep_shortest_path _ ?_ ?_ ?_
    · decide
    · decide
    · decide
  · refine (funnels_agree blake3_sample two_copies).2 _ _ _ _ _ two_copies_staged keep_shortest_path ?_ ?_ ?_
    · decide
    · decide
    · decide

end Fathom.Agent
