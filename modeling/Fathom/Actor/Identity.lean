/-
**Identities, catalogued and re-checked** (`backends/posix.py`, `agent/actor/planner.py`,
`executor.py`, `preview/local_fetch.py`).

The walk stores the inode number of a file as a signed number of 64 bits, and that number
comes back as the `prior_inode` of a plan item. The dry run and the re-check of an act
compare it with `st_ino` as the kernel has it, unsigned; the preview's fetcher converts
first. The two numbers are the same below 2^63 and differ from there on
(`signed_eq_raw_iff`), so a file that has not changed is clean for a dry run and for an act
exactly when its inode number is below 2^63 -- and an irreversible delete has a hash, which
the re-check asks for whatever the file is (`no_false_drift_iff`).
-/
import Fathom.Actor.Executor
import Fathom.Preview.Service
import Mathlib.Data.UInt

set_option autoImplicit false

namespace Fathom.Actor

open Fathom.Filesystem
open Fathom.Remediation
open Fathom.Agent (FileName path_text to_signed64 make_entry)

/-! ## A dry run -/

section

variable (blake3 : ByteArray → String) (hasher : Bool) (p : Process) (fs : FileSystem)

/-- `_verify_item`, when nothing changes under it and no call fails. -/
def verify_item (item : PlanItem) : Except ActorError (Option String) :=
  match verify_stat p fs none item with
  | .error e => .error e
  | .ok (some reason) => .ok (some reason)
  | .ok none =>
    match item.prior_hash.filter fun _ => hasher with
    | some hash => verify_hash blake3 p fs none item hash
    | none => .ok none

/-- `dry_run_verify`, from an item on. -/
def dry_run_verify : List PlanItem → VerifyReport → Except ActorError VerifyReport
  | [], report => .ok report
  | item :: todo, report =>
    match verify_item blake3 hasher p fs item with
    | .error e => .error e
    | .ok reason => dry_run_verify todo (note report item reason)

end

variable {blake3 : ByteArray → String} {hasher : Bool} {p : Process} {fs : FileSystem}

/-- What has been noted is not empty. -/
theorem note_some_ne_nil (report : VerifyReport) (item : PlanItem) (reason : String) :
    (note report item (some reason)).drifted ≠ [] := by
  rw [note]
  dsimp only
  split
  · rename_i hdrifted
    intro hnil
    rw [List.map_eq_nil_iff] at hnil
    rw [VerifyReport.has_drifted, hnil] at hdrifted
    exact absurd hdrifted (by simp)
  · simp

/-- A dry run reports nothing exactly when it finds nothing of any item. -/
theorem dry_run_clean_iff {todo : List PlanItem} {report : VerifyReport} :
    dry_run_verify blake3 hasher p fs todo report = .ok ⟨[]⟩ ↔
      report.drifted = [] ∧ ∀ item ∈ todo, verify_item blake3 hasher p fs item = .ok none := by
  induction todo generalizing report with
  | nil =>
      rw [dry_run_verify, Except.ok.injEq]
      constructor
      · rintro rfl
        exact ⟨rfl, fun item hitem => absurd hitem List.not_mem_nil⟩
      · rintro ⟨hnil, -⟩
        rw [← hnil]
  | cons item todo ih =>
      rw [dry_run_verify, List.forall_mem_cons]
      cases hitem : verify_item blake3 hasher p fs item with
      | error e => exact iff_of_false (by simp) (by simp)
      | ok reason =>
          dsimp only
          rw [ih]
          cases reason with
          | none => exact and_congr_right fun _ => (and_iff_right rfl).symm
          | some reason =>
              refine iff_of_false (fun h => note_some_ne_nil report item reason h.1) ?_
              simp

/-- **The dry run of a job is this one**, when nothing changes under it and no call fails. -/
theorem dry_run_runs {d : Dispatcher} {job : ActionJob} {s : Run} {clean : Bool}
    {plan : RemediationPlan} {todo : List PlanItem} {report report' : VerifyReport}
    (hpc : s.pc = .verifying clean plan todo report)
    (h : dry_run_verify blake3 d.hasher d.process s.fs todo report = .ok report') :
    ∃ tr, (executing blake3 d job).run s tr = some { s with pc := .verifying clean plan [] report' } := by
  induction todo generalizing s report with
  | nil =>
      rw [dry_run_verify, Except.ok.injEq] at h
      refine ⟨[], ?_⟩
      rw [System.run_nil, Option.some.injEq, ← h, ← hpc]
  | cons item todo ih =>
      rw [dry_run_verify] at h
      unfold verify_item at h
      cases hstat : verify_stat d.process s.fs none item with
      | error e =>
          rw [hstat] at h
          exact absurd h (by simp)
      | ok stat =>
          rw [hstat] at h
          cases stat with
          | some reason =>
              obtain ⟨tr, htr⟩ := ih (s := { s with
                pc := .verifying clean plan todo (note report item (some reason)) }) rfl h
              refine ⟨.verify none :: tr, ?_⟩
              rw [System.run_cons, executing]
              simp only [run_step]
              rw [hpc]
              dsimp only
              rw [hstat]
              exact htr
          | none =>
              dsimp only at h
              cases hhash : item.prior_hash.filter fun _ => d.hasher with
              | none =>
                  rw [hhash] at h
                  obtain ⟨tr, htr⟩ := ih (s := { s with
                    pc := .verifying clean plan todo (note report item none) }) rfl h
                  refine ⟨.verify none :: tr, ?_⟩
                  rw [System.run_cons, executing]
                  simp only [run_step]
                  rw [hpc]
                  dsimp only
                  rw [hstat]
                  dsimp only
                  rw [hhash]
                  exact htr
              | some hash =>
                  rw [hhash] at h
                  dsimp only at h
                  cases hread : verify_hash blake3 d.process s.fs none item hash with
                  | error e =>
                      rw [hread] at h
                      exact absurd h (by simp)
                  | ok reason =>
                      rw [hread] at h
                      obtain ⟨tr, htr⟩ := ih (s := { s with
                        pc := .verifying clean plan todo (note report item reason) }) rfl h
                      refine ⟨.verify none :: .read none :: tr, ?_⟩
                      rw [System.run_cons, executing]
                      simp only [run_step]
                      rw [hpc]
                      dsimp only
                      rw [hstat]
                      dsimp only
                      rw [hhash, Option.bind_some, System.run_cons]
                      simp only [run_step]
                      rw [hread]
                      exact htr

/-! ## A catalogued file -/

/-- A file as the walk found it, with what the plan takes from elsewhere. -/
structure CataloguedFile where
  path : List FileName
  name : FileName
  node : Agent.Node
  stat : Agent.Stat
  entry_id : EntryId
  full_hash : Option String
  action : PlanAction
  dest_rel : Option String

/-- The path of it. -/
def CataloguedFile.names (file : CataloguedFile) : List FileName := file.path ++ [file.name]

/-- What `PosixBackend` makes of it. -/
def CataloguedFile.entry (file : CataloguedFile) : Agent.FsEntry :=
  make_entry (fun _ => file.stat) file.names (String.ofList file.name.val) file.node false false

/-- The plan item of its catalogue row. -/
def CataloguedFile.item (file : CataloguedFile) : PlanItem where
  entry_id := file.entry_id
  path := file.entry.path
  prior_inode := file.entry.inode
  prior_size := file.entry.size_logical
  prior_hash := file.full_hash
  action := file.action
  dest_rel := file.dest_rel

/-- It is as it was catalogued: a file under its path, of its inode and size, with content of the
hash that is catalogued of it. -/
structure Unchanged (blake3 : ByteArray → String) (p : Process) (fs : FileSystem)
    (file : CataloguedFile) : Prop where
  there : ∃ node, lstat fs p file.entry.path =
      .ok (⟨file.node.st_dev.toNat, file.node.st_ino.toNat⟩, node) ∧
    node.is_branch = false ∧ node.size = file.stat.st_size ∧
    ∀ hash, file.full_hash = some hash →
      ∃ content, read_node node = .ok content ∧ blake3 content = hash

/-- Nothing takes the file for another one: the re-check of an act, nor the preview's fetcher. -/
structure Recognised (blake3 : ByteArray → String) (p : Process) (fs : FileSystem)
    (file : CataloguedFile) : Prop where
  recheck : ∃ dir, open_parent fs p file.item.path = .ok dir ∧
    recheck blake3 fs no_faults dir (path_name file.item.path) file.item = none
  local_read : ∀ (entry : Preview.ResolvedEntry) (max_bytes : ℕ) (reads : List (Option ByteArray)),
    entry.inode = file.entry.inode →
      Preview.local_read blake3 entry max_bytes (some ⟨file.node.st_ino, reads⟩) ≠
        .error (.preview "preview file changed since catalogue (inode mismatch)" 409)

/-! ## The two encodings -/

/-- **The two encodings agree** below 2^63 and nowhere else. -/
theorem signed_eq_raw_iff (ino : UInt64) : (ino.toNat : Int) = to_signed64 ino ↔ ino.toNat < 2 ^ 63 := by
  have hlt := ino.toNat_lt
  rw [to_signed64]
  split
  · omega
  · omega

/-- The path of a file is a path a process can look up, and names no directory. -/
theorem names_path (file : CataloguedFile) :
    has_nul file.entry.path = false ∧ names_directory file.entry.path = false := by
  have hnames : ∀ name ∈ file.names.map Subtype.val, Security.IsName name := by
    intro name hname
    obtain ⟨n, -, rfl⟩ := List.mem_map.mp hname
    exact n.property
  have hne : file.names.map Subtype.val ≠ [] := by
    rw [CataloguedFile.names]
    simp
  have hchars : file.entry.path.toList = Security.absolute (file.names.map Subtype.val) := by
    rw [CataloguedFile.entry, make_entry, path_text, String.toList_ofList]
  refine ⟨?_, ?_⟩
  · rw [has_nul, hchars, ← Bool.not_eq_true, List.contains_iff_mem, Security.absolute, List.mem_cons,
      not_or]
    exact ⟨by decide, Security.not_mem_join (by decide) fun name hname =>
      (hnames name hname).2.2.2.2⟩
  · rw [names_directory, hchars, Security.splitOn_absolute hnames, if_neg hne,
      CataloguedFile.names, List.map_append, List.map_singleton, ← List.cons_append,
      List.getLast?_concat]
    obtain ⟨hempty, hdot, -⟩ := file.name.property
    simp [hempty, hdot]

/-- A file that is there is there for an act. -/
theorem lstat_open_parent {fs : FileSystem} {p : Process} {path : String} {i : Inode} {node : Node}
    (hdir : names_directory path = false) (h : lstat fs p path = .ok (i, node)) :
    ∃ dir, open_parent fs p path = .ok dir ∧ lstat_at fs dir (path_name path) = .ok (i, node) := by
  rw [lstat, if_neg (by simp [hdir])] at h
  unfold locate locate_at at h
  split at h
  · rename_i dir name hlocate
    split at hlocate
    · exact absurd hlocate (by simp)
    · rename_i last hlast
      split at hlocate
      · rename_i dir' hwalk
        obtain ⟨rfl, rfl⟩ := Prod.mk.inj (Except.ok.inj hlocate)
        refine ⟨dir', hwalk, ?_⟩
        rw [path_name, hlast]
        exact h
      · exact absurd hlocate (by simp)
  · exact absurd h (by simp)

variable {file : CataloguedFile}

/-- What an `lstat` says of an unchanged file is what its inode number says. -/
theorem stat_drift_unchanged {node : Node} (hleaf : node.is_branch = false) (hsize : node.size = file.stat.st_size) :
    stat_drift file.item ⟨file.node.st_dev.toNat, file.node.st_ino.toNat⟩ node =
      if file.node.st_ino.toNat < 2 ^ 63 then none else some "inode_changed" := by
  have hino : ((file.node.st_ino.toNat : Int) ≠ file.item.prior_inode) ↔
      ¬file.node.st_ino.toNat < 2 ^ 63 := (signed_eq_raw_iff file.node.st_ino).not
  have hprior : file.item.prior_size = file.stat.st_size := rfl
  have hplain : stat_drift file.item ⟨file.node.st_dev.toNat, file.node.st_ino.toNat⟩ node =
      if (file.node.st_ino.toNat : Int) ≠ file.item.prior_inode then some "inode_changed"
      else if node.size ≠ file.item.prior_size then some "size_changed" else none := by
    cases node with
    | symlink _ => exact absurd hleaf (by simp [Node.is_branch])
    | file _ => rfl
    | directory _ => rfl
    | special _ _ => rfl
  rw [hplain, hprior, if_neg (not_not.mpr hsize)]
  by_cases hlt : file.node.st_ino.toNat < 2 ^ 63
  · rw [if_neg (hino.not.mpr (not_not.mpr hlt)), if_pos hlt]
  · rw [if_pos (hino.mpr hlt), if_neg hlt]

/-- **A dry run finds nothing** of an unchanged file exactly below 2^63. -/
theorem verify_item_unchanged (h : Unchanged blake3 p fs file) :
    verify_item blake3 hasher p fs file.item = .ok none ↔ file.node.st_ino.toNat < 2 ^ 63 := by
  obtain ⟨node, hlstat, hleaf, hsize, hhash⟩ := h.there
  obtain ⟨hnul, -⟩ := names_path file
  have hpath : file.item.path = file.entry.path := rfl
  have hstat : verify_stat p fs none file.item =
      .ok (if file.node.st_ino.toNat < 2 ^ 63 then none else some "inode_changed") := by
    rw [verify_stat, hpath, if_neg (by simp [hnul]), attempt, hlstat]
    dsimp only
    rw [stat_drift_unchanged hleaf hsize]
  rw [verify_item, hstat]
  by_cases hlt : file.node.st_ino.toNat < 2 ^ 63
  · rw [if_pos hlt]
    refine iff_of_true ?_ hlt
    dsimp only
    split
    · rename_i hash hfilter
      obtain ⟨hsome, -⟩ := Option.filter_eq_some_iff.mp hfilter
      obtain ⟨content, hread, hcontent⟩ := hhash hash hsome
      rw [verify_hash, hpath, attempt, hlstat]
      dsimp only
      rw [hread]
      dsimp only
      rw [if_neg (not_not.mpr hcontent)]
    · rfl
  · rw [if_neg hlt]
    exact iff_of_false (by simp) hlt

/-- **An act finds nothing** of it exactly below 2^63, when its delete is not irreversible or has a
hash. -/
theorem recheck_unchanged (h : Unchanged blake3 p fs file) :
    (∃ dir, open_parent fs p file.item.path = .ok dir ∧
      recheck blake3 fs no_faults dir (path_name file.item.path) file.item = none) ↔
      file.node.st_ino.toNat < 2 ^ 63 ∧ (file.action = .hard_delete → file.full_hash ≠ none) := by
  obtain ⟨node, hlstat, hleaf, hsize, hhash⟩ := h.there
  obtain ⟨dir, hopen, hat⟩ := lstat_open_parent (names_path file).2 hlstat
  have hpath : file.item.path = file.entry.path := rfl
  have honly : (∃ dir', open_parent fs p file.item.path = .ok dir' ∧
      recheck blake3 fs no_faults dir' (path_name file.item.path) file.item = none) ↔
      recheck blake3 fs no_faults dir (path_name file.item.path) file.item = none := by
    rw [hpath, hopen]
    constructor
    · rintro ⟨dir', heq, h⟩
      rw [← Except.ok.inj heq] at h
      exact h
    · exact fun h => ⟨dir, rfl, h⟩
  rw [honly]
  unfold recheck
  rw [hpath, show no_faults.lstat = none from rfl, attempt, hat]
  dsimp only
  rw [stat_drift_unchanged hleaf hsize]
  by_cases hlt : file.node.st_ino.toNat < 2 ^ 63
  · rw [if_pos hlt, and_iff_right hlt]
    dsimp only
    have hprior : file.item.prior_hash = file.full_hash := rfl
    have haction : file.item.action = file.action := rfl
    rw [hprior, haction]
    cases hfull : file.full_hash with
    | some hash =>
        obtain ⟨content, hread, hcontent⟩ := hhash hash hfull
        dsimp only
        rw [show no_faults.read = none from rfl, attempt, hread]
        dsimp only
        rw [if_neg (not_not.mpr hcontent)]
        exact iff_of_true rfl (by simp)
    | none =>
        dsimp only
        by_cases hdelete : file.action = .hard_delete
        · rw [if_pos hdelete]
          exact iff_of_false (by simp) (by simp [hdelete])
        · rw [if_neg hdelete]
          exact iff_of_true rfl fun h => absurd h hdelete
  · rw [if_neg hlt]
    exact iff_of_false (by simp) fun h => hlt h.1

/-- The preview's fetcher converts before it compares. -/
theorem local_read_unchanged (file : CataloguedFile) {entry : Preview.ResolvedEntry}
    {max_bytes : ℕ} {reads : List (Option ByteArray)} (hentry : entry.inode = file.entry.inode) :
    Preview.local_read blake3 entry max_bytes (some ⟨file.node.st_ino, reads⟩) ≠
      .error (.preview "preview file changed since catalogue (inode mismatch)" 409) := by
  have hsame : to_signed64 file.node.st_ino = entry.inode := hentry.symm
  unfold Preview.local_read
  dsimp only
  rw [if_neg (not_not.mpr hsame)]
  split
  · simp
  · split
    · simp
    · split
      · simp
      · split_ifs
        · simp
        · simp

/-- **No false drift, exactly when** the inode numbers are below 2^63 and an irreversible delete
has a hash. -/
theorem no_false_drift_iff {files : List CataloguedFile}
    (h : ∀ file ∈ files, Unchanged blake3 p fs file) :
    (dry_run_verify blake3 hasher p fs (files.map CataloguedFile.item) ⟨[]⟩ = .ok ⟨[]⟩ ∧
        ∀ file ∈ files, Recognised blake3 p fs file) ↔
      ∀ file ∈ files, file.node.st_ino.toNat < 2 ^ 63 ∧
        (file.action = .hard_delete → file.full_hash ≠ none) := by
  rw [dry_run_clean_iff, and_iff_right rfl, List.forall_mem_map]
  constructor
  · rintro ⟨-, hrecognised⟩ file hfile
    exact (recheck_unchanged (h file hfile)).mp (hrecognised file hfile).recheck
  · intro hall
    refine ⟨fun file hfile => (verify_item_unchanged (h file hfile)).mpr (hall file hfile).1, ?_⟩
    intro file hfile
    exact ⟨(recheck_unchanged (h file hfile)).mpr (hall file hfile), fun entry max_bytes reads hentry =>
      local_read_unchanged file hentry⟩

/-! ### A file with a high inode number -/

theorem file_a_name : Security.IsName ['a'] := by decide

/-- A file `/a` of an inode, as the walk found it. -/
def file_a (ino : UInt64) : CataloguedFile where
  path := []
  name := ⟨['a'], file_a_name⟩
  node := ⟨1, ino⟩
  stat := ⟨3, 8, 0, 0, 0, 0⟩
  entry_id := .int 12
  full_hash := some "9f"
  action := .quarantine
  dest_rel := none

/-- A filesystem that holds it. -/
def holds_a (ino : UInt64) : FileSystem :=
  .of_tables [(⟨1, 2⟩, .directory 4096), (⟨1, ino.toNat⟩, .file ⟨#[1, 2, 3]⟩)]
    [(⟨1, 2⟩, [("a", ⟨1, ino.toNat⟩)])]

theorem unchanged_high :
    Unchanged (fun _ => "9f") sample_dispatcher.process (holds_a (2 ^ 63)) (file_a (2 ^ 63)) :=
  ⟨.file ⟨#[1, 2, 3]⟩, by decide +kernel, rfl, rfl, fun _ hhash => ⟨_, rfl, Option.some.inj hhash⟩⟩

theorem unchanged_low :
    Unchanged (fun _ => "9f") sample_dispatcher.process (holds_a 11) (file_a 11) :=
  ⟨_, rfl, rfl, rfl, fun _ hhash => ⟨_, rfl, Option.some.inj hhash⟩⟩

/-- The dry run reports it as changed. -/
theorem high_inode_drifts :
    Unchanged (fun _ => "9f") sample_dispatcher.process (holds_a (2 ^ 63)) (file_a (2 ^ 63)) ∧
      dry_run_verify (fun _ => "9f") true sample_dispatcher.process (holds_a (2 ^ 63))
          [(file_a (2 ^ 63)).item] ⟨[]⟩ = .ok ⟨[("12", "inode_changed")]⟩ :=
  ⟨unchanged_high, by decide +kernel⟩

/-- A low one is clean. -/
theorem no_false_drift_low :
    (dry_run_verify (fun _ => "9f") true sample_dispatcher.process (holds_a 11)
          ([file_a 11].map CataloguedFile.item) ⟨[]⟩ = .ok ⟨[]⟩ ∧
        ∀ file ∈ [file_a 11],
          Recognised (fun _ => "9f") sample_dispatcher.process (holds_a 11) file) ↔
      ∀ file ∈ [file_a 11], file.node.st_ino.toNat < 2 ^ 63 ∧
        (file.action = .hard_delete → file.full_hash ≠ none) :=
  no_false_drift_iff fun file hfile => by
    rw [List.mem_singleton.mp hfile]
    exact unchanged_low

end Fathom.Actor
