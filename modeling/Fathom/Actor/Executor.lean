/-
**Executing a signed job** (`agent/actor/planner.py`, `executor.py` and
`dispatch.py`): the dry runs an agent makes of a job, and the acts, on a filesystem
that other processes change at will.

An act opens the parent directory of its item, re-checks the name in it, records what
it is about to do and does it. The acts of a job come one after the other, and between
any two steps the filesystem may become any other. Any call may fail for reasons of
its own (`Faults`), and the audit sink may refuse a record.

`drift_gate` is what the acts can do to a filesystem, in every run: a step of the
agent that touches what was there is the act on a signed item that has passed its
re-check, with the intention on record before anything is touched.
-/
import Fathom.Lib.Filesystem
import Fathom.Remediation.Orchestrator

set_option autoImplicit false

namespace Fathom.Actor

open Fathom.Datetime (Timestamp)
open Fathom.Json (Value)
open Fathom.Audit (AuditChain AuditRecord Dict make_record)
open Fathom.Filesystem
open Fathom.Remediation

/-! ## Calls that fail -/

/-- The exceptions that end a job. -/
inductive ActorError where
  | os (errno : Errno)
  /-- `embedded null byte` -/
  | nul
  /-- the audit sink raised -/
  | audit
  /-- `RemediationDisabledError` -/
  | disabled
  /-- `refusing to execute a drifted plan` -/
  | drifted (entry_ids : List String)
  /-- `BlastRadiusError` -/
  | blast_radius (items cap : ℕ)
  deriving DecidableEq

/-- A call, unless it fails for a reason of its own. -/
def attempt {α : Type} (fault : Option Errno) (result : Except Errno α) : Except Errno α :=
  match fault with
  | some e => .error e
  | none => result

/-- A string no call takes. -/
def has_nul (text : String) : Bool := text.toList.contains (Char.ofNat 0)

/-- What reading a node returns, opened with `O_NOFOLLOW`. -/
def read_node (node : Node) : Except Errno ByteArray :=
  match node with
  | .file content => .ok content
  | .special _ content => .ok content
  | .symlink _ => .error ELOOP
  | .directory _ => .error EISDIR

/-- The calls of `execute_with_audit`, before its loop, that may fail. -/
structure PrepareFaults where
  mkdir : ℕ → Option Errno
  chmod : Option Errno

/-- The calls of `_act` that may fail; `pending` and `result` are the audit records. -/
structure Faults where
  open_parent : Option Errno
  lstat : Option Errno
  read : Option Errno
  pending : Bool
  open_quarantine : Option Errno
  rename : Option Errno
  unlink : Option Errno
  open_root : Option Errno
  mkdir : ℕ → Option Errno
  open_component : ℕ → Option Errno
  link : Option Errno
  unlink_source : Option Errno
  unlink_leaf : Option Errno
  result : Bool

/-- No call fails. -/
def no_faults : Faults where
  open_parent := none
  lstat := none
  read := none
  pending := false
  open_quarantine := none
  rename := none
  unlink := none
  open_root := none
  mkdir := fun _ => none
  open_component := fun _ => none
  link := none
  unlink_source := none
  unlink_leaf := none
  result := false

/-! ## The dry run -/

/-- What an `lstat` says a plan item has become, the content apart. -/
def stat_drift (item : PlanItem) (i : Inode) (node : Node) : Option String :=
  match node with
  | .symlink _ => some "became_symlink"
  | node =>
    if (i.ino : Int) ≠ item.prior_inode then some "inode_changed"
    else if node.size ≠ item.prior_size then some "size_changed"
    else none

section

variable (blake3 : ByteArray → String)

/-- `_verify_item` up to its `lstat`. -/
def verify_stat (p : Process) (fs : FileSystem) (fault : Option Errno) (item : PlanItem) :
    Except ActorError (Option String) :=
  if has_nul item.path then .error .nul
  else
    match attempt fault (lstat fs p item.path) with
    | .error _ => .ok (some "missing")
    | .ok (i, node) => .ok (stat_drift item i node)

/-- `_verify_item` from its `lstat` on: the hasher reads the path, which it looks up anew. -/
def verify_hash (p : Process) (fs : FileSystem) (fault : Option Errno) (item : PlanItem)
    (hash : String) : Except ActorError (Option String) :=
  match attempt fault (lstat fs p item.path) with
  | .error e => .error (.os e)
  | .ok (_, node) =>
    match read_node node with
    | .error e => .error (.os e)
    | .ok content => .ok (if blake3 content ≠ hash then some "hash_changed" else none)

/-! ## The act -/

/-- A change to the filesystem: the directories and the names in them. -/
inductive Op where
  | mkdir (dir : Inode) (name : String)
  | rename (src : Inode) (name : String) (dst : Inode) (name' : String)
  | unlink (dir : Inode) (name : String)
  | link (src : Inode) (name : String) (dst : Inode) (name' : String)
  deriving DecidableEq

/-- What an agent does that others can see. -/
inductive Event where
  | audit (record : AuditRecord)
  | op (op : Op)
  deriving DecidableEq

/-- The configuration of an `Executor`. -/
structure Executor where
  quarantine_dir : String
  write_enabled : Bool
  blast_cap : ℕ
  allow_hard_delete : Bool
  actor : String

/-- `ExecResult`. -/
structure ExecResult where
  entry_id : String
  action : String
  status : String
  detail : String
  deriving DecidableEq

/-- `ExecOutcome`. -/
structure ExecOutcome where
  results : List ExecResult
  audit : List AuditRecord
  deriving DecidableEq

/-- `str(Path(path))`. -/
def path_str (path : String) : String :=
  let names := "/".intercalate (split_path path)
  if ¬is_absolute path then (if names = "" then "." else names)
  else if path.toList.take 2 = ['/', '/'] ∧ path.toList.take 3 ≠ ['/', '/', '/'] then "//" ++ names
  else "/" ++ names

/-- `str(Path(base) / path)`. -/
def path_join (base path : String) : String :=
  if is_absolute path then path_str path else path_str (base ++ "/" ++ path)

/-- `Path(path).name`. -/
def path_name (path : String) : String := (split_path path).getLast?.getD ""

/-- `os.open(str(Path(path).parent), O_RDONLY | O_DIRECTORY)`. -/
def open_parent (fs : FileSystem) (p : Process) (path : String) : Except Errno Dir :=
  walk fs p.root max_links (p.start p.cwd path) (split_path path).dropLast

/-- `Executor._recheck`. -/
def recheck (fs : FileSystem) (faults : Faults) (dir : Dir) (name : String) (item : PlanItem) :
    Option String :=
  match attempt faults.lstat (lstat_at fs dir name) with
  | .error _ => some "missing"
  | .ok (i, node) =>
    match stat_drift item i node with
    | some reason => some reason
    | none =>
      match item.prior_hash with
      | some hash =>
        match attempt faults.read (read_node node) with
        | .error _ => some "hash_unreadable"
        | .ok content => if blake3 content ≠ hash then some "hash_changed" else none
      | none => if item.action = .hard_delete then some "no_hash_anchor" else none

/-- What a part of an act has done, and what it returns. -/
structure Did (α : Type) where
  fs : FileSystem
  ops : List Op
  result : Except ActorError α

/-- The name an item is quarantined under. -/
def quarantine_name (plan_id : String) (item : PlanItem) (name : String) : String :=
  plan_id ++ "__" ++ String.ofList (Json.render_int item.prior_inode) ++ "__" ++ name

/-- `os.rename(name, dest_name, src_dir_fd=dir_fd, dst_dir_fd=q_fd)`. -/
def quarantine_rename (fs : FileSystem) (p : Process) (dir q : Dir) (name dest_name : String) :
    Except Errno (FileSystem × Op) :=
  match locate_at fs p q dest_name with
  | .error e => .error e
  | .ok (dst, name') =>
    match rename fs dir name dst name' with
    | .error e => .error e
    | .ok fs' => .ok (fs', .rename dir.inode name dst.inode name')

/-- `_mutate`, on a `QUARANTINE`. -/
def quarantine (executor : Executor) (p : Process) (fs : FileSystem) (faults : Faults)
    (dir : Dir) (name plan_id : String) (item : PlanItem) : Did (String × String) :=
  let dest_name := quarantine_name plan_id item name
  match attempt faults.open_quarantine (open_directory fs p executor.quarantine_dir) with
  | .error e => ⟨fs, [], .error (.os e)⟩
  | .ok q =>
    if has_nul dest_name then ⟨fs, [], .error .nul⟩
    else
      match attempt faults.rename (quarantine_rename fs p dir q name dest_name) with
      | .error e => ⟨fs, [], .ok ("aborted_drift", s!"quarantine refused (errno {e})")⟩
      | .ok (fs', op) =>
        ⟨fs', [op], .ok ("quarantined", path_join executor.quarantine_dir dest_name)⟩

/-- `_mutate`, on a `HARD_DELETE`. -/
def hard_delete (executor : Executor) (fs : FileSystem) (faults : Faults) (dir : Dir)
    (name : String) : Did (String × String) :=
  if ¬executor.allow_hard_delete then
    ⟨fs, [], .ok ("skipped_disabled", "hard_delete requires allow_hard_delete")⟩
  else
    match attempt faults.unlink (unlink fs dir name) with
    | .error e => ⟨fs, [], .ok ("aborted_drift", s!"hard_delete refused (errno {e})")⟩
    | .ok fs' => ⟨fs', [.unlink dir.inode name], .ok ("deleted", "")⟩

/-- `os.mkdir(component, dir_fd=cur)`, with `FileExistsError` suppressed. -/
def make_component (fs : FileSystem) (fault : Option Errno) (cur : Dir) (name : String) :
    Did Unit :=
  if has_nul name then ⟨fs, [], .error .nul⟩
  else
    match attempt fault (mkdir fs cur name) with
    | .error e => ⟨fs, [], if e = EEXIST then .ok () else .error (.os e)⟩
    | .ok fs' => ⟨fs', [.mkdir cur.inode name], .ok ()⟩

/-- The destination directory of a move, from the `k`-th component on. -/
def descend (faults : Faults) : FileSystem → Dir → ℕ → List String → Did Dir
  | fs, cur, _, [] => ⟨fs, [], .ok cur⟩
  | fs, cur, k, name :: names =>
    let made := make_component fs (faults.mkdir k) cur name
    match made.result with
    | .error e => ⟨made.fs, made.ops, .error e⟩
    | .ok _ =>
      match attempt (faults.open_component k) (open_nofollow_at made.fs cur name) with
      | .error e => ⟨made.fs, made.ops, .error (.os e)⟩
      | .ok next =>
        let rest := descend faults made.fs next (k + 1) names
        ⟨rest.fs, made.ops ++ rest.ops, rest.result⟩

/-- The link and the unlink of a move, and the roll-back when the second fails. -/
def link_and_unlink (fs : FileSystem) (faults : Faults) (src : Dir) (name : String) (dst : Dir)
    (leaf moved : String) : Did (String × String) :=
  match attempt faults.link (link fs src name dst leaf) with
  | .error e =>
    ⟨fs, [], .ok ("aborted_drift",
      if e = EEXIST then "destination already exists (no-clobber)"
      else s!"move refused (errno {e})")⟩
  | .ok fs' =>
    match attempt faults.unlink_source (unlink fs' src name) with
    | .ok fs'' =>
      ⟨fs'', [.link src.inode name dst.inode leaf, .unlink src.inode name], .ok ("moved", moved)⟩
    | .error e =>
      let failed := ("aborted_drift", s!"move source-unlink failed (errno {e})")
      match attempt faults.unlink_leaf (unlink fs' dst leaf) with
      | .ok fs'' =>
        ⟨fs'', [.link src.inode name dst.inode leaf, .unlink dst.inode leaf], .ok failed⟩
      | .error _ => ⟨fs', [.link src.inode name dst.inode leaf], .ok failed⟩

/-- `text.rstrip("/")`. -/
def rstrip_slash (text : String) : String :=
  String.ofList (text.toList.reverse.dropWhile fun c => c = '/').reverse

/-- `Executor._move`. -/
def move (p : Process) (fs : FileSystem) (faults : Faults) (src : Dir) (name : String)
    (move_root dest_rel : Option String) : Did (String × String) :=
  match move_root.filter fun r => r ≠ "", dest_rel.filter fun d => d ≠ "" with
  | some root, some dest =>
    let parts := (dest.toList.splitOn '/').map String.ofList |>.filter fun part => part ≠ ""
    match parts.getLast? with
    | none => ⟨fs, [], .ok ("aborted_drift", "invalid destination")⟩
    | some leaf =>
      if parts.any fun part => part = ".." ∨ part = "." then
        ⟨fs, [], .ok ("aborted_drift", "invalid destination")⟩
      else if has_nul root then ⟨fs, [], .error .nul⟩
      else
        match attempt faults.open_root (open_nofollow fs p root) with
        | .error e => ⟨fs, [], .ok ("aborted_drift", s!"move setup failed (errno {e})")⟩
        | .ok cur =>
          let there := descend faults fs cur 0 parts.dropLast
          match there.result with
          | .error (.os e) =>
            ⟨there.fs, there.ops, .ok ("aborted_drift", s!"move setup failed (errno {e})")⟩
          | .error e => ⟨there.fs, there.ops, .error e⟩
          | .ok dst =>
            if has_nul leaf then ⟨there.fs, there.ops, .error .nul⟩
            else
              let done := link_and_unlink there.fs faults src name dst leaf
                (rstrip_slash root ++ "/" ++ dest)
              ⟨done.fs, there.ops ++ done.ops, done.result⟩
  | _, _ => ⟨fs, [], .ok ("skipped_disabled", "move requires move_root + dest_rel")⟩

/-- `Executor._mutate`. -/
def mutate (executor : Executor) (p : Process) (fs : FileSystem) (faults : Faults) (dir : Dir)
    (name : String) (plan : RemediationPlan) (item : PlanItem) : Did (String × String) :=
  match item.action with
  | .quarantine => quarantine executor p fs faults dir name plan.plan_id item
  | .hard_delete => hard_delete executor fs faults dir name
  | .move => move p fs faults dir name plan.move_root item.dest_rel
  | .hardlink =>
    ⟨fs, [], .ok ("skipped_disabled", s!"action {item.action.value} not implemented in v1")⟩

/-- What an act has done, in order, and what it returns. -/
structure Acted where
  fs : FileSystem
  chain : AuditChain
  events : List Event
  result : Except ActorError (ExecResult × List AuditRecord)

/-- The `before_state` of an item's records. -/
def before_state (item : PlanItem) : Dict :=
  [("inode", .int item.prior_inode), ("size", .int item.prior_size),
    ("hash", (item.prior_hash.map Value.str).getD .null)]

/-- The record an act makes of an item. -/
def act_record (executor : Executor) (chain : AuditChain) (now : Timestamp) (item : PlanItem)
    (result : String) : AuditRecord :=
  make_record blake3 chain.head now.isoformat executor.actor item.action.value item.path
    (before_state item) result

/-- The same record, appended. -/
def act_append (executor : Executor) (chain : AuditChain) (now : Timestamp) (item : PlanItem)
    (result : String) : AuditChain :=
  chain.append blake3 now executor.actor item.action.value item.path (before_state item) result

/-- `Executor._act`. -/
def act (executor : Executor) (p : Process) (fs : FileSystem) (chain : AuditChain)
    (faults : Faults) (now now' : Timestamp) (plan : RemediationPlan) (item : PlanItem) : Acted :=
  let name := path_name item.path
  if (split_path item.path).dropLast.any has_nul then ⟨fs, chain, [], .error .nul⟩
  else
    match attempt faults.open_parent (open_parent fs p item.path) with
    | .error e => ⟨fs, chain, [], .error (.os e)⟩
    | .ok dir =>
      if has_nul name then ⟨fs, chain, [], .error .nul⟩
      else
        match recheck blake3 fs faults dir name item with
        | some drift =>
          ⟨fs, chain, [],
            .ok (⟨item.entry_id.to_str, item.action.value, "aborted_drift", drift⟩, [])⟩
        | none =>
          -- audit-before-act: a sink that raises stops the act here
          if faults.pending then ⟨fs, chain, [], .error .audit⟩
          else
            let pending := act_record blake3 executor chain now item "pending"
            let chain' := act_append blake3 executor chain now item "pending"
            let did := mutate executor p fs faults dir name plan item
            let events := .audit pending :: did.ops.map .op
            match did.result with
            | .error e => ⟨did.fs, chain', events, .error e⟩
            | .ok (status, detail) =>
              if faults.result then ⟨did.fs, chain', events, .error .audit⟩
              else
                let record := act_record blake3 executor chain' now' item status
                ⟨did.fs, act_append blake3 executor chain' now' item status,
                  events ++ [.audit record],
                  .ok (⟨item.entry_id.to_str, item.action.value, status, detail⟩,
                    [pending, record])⟩

/-! ## The run of a job -/

/-- `plan_from_job`. -/
def plan_from_job (job : ActionJob) : RemediationPlan where
  plan_id := job.plan_id
  created_by := "orchestrator"
  keeper_path := job.keeper_path
  items := job.items
  move_root := job.move_root
  plan_id_ne := job.plan_id_ne
  created_by_ne := orchestrator_ne
  items_ne := job.items_ne

/-- The reason of an item goes into the report: `drifted[entry_id] = reason`. -/
def note (report : VerifyReport) (item : PlanItem) : Option String → VerifyReport
  | none => report
  | some reason =>
    let entry_id := item.entry_id.to_str
    { drifted :=
        if report.has_drifted item then
          report.drifted.map fun d => if d.1 = entry_id then (entry_id, reason) else d
        else report.drifted ++ [(entry_id, reason)] }

/-- An `ActorDispatcher` on a host: its executor, whether it has a hasher, where its
paths start, and the `confirm_blast` it is called with. -/
structure Dispatcher where
  executor : Executor
  hasher : Bool
  process : Process
  confirm_blast : Bool

/-- Where `dispatch_execute` stands. -/
inductive RunPc where
  /-- in a dry run, the second one when `clean` -/
  | verifying (clean : Bool) (plan : RemediationPlan) (todo : List PlanItem)
      (report : VerifyReport)
  /-- in a dry run, between the `lstat` of an item and the read -/
  | hashing (clean : Bool) (plan : RemediationPlan) (item : PlanItem) (hash : String)
      (todo : List PlanItem) (report : VerifyReport)
  /-- about to execute -/
  | execute (plan : RemediationPlan) (report : VerifyReport)
  | acting (plan : RemediationPlan) (todo : List PlanItem) (results : List ExecResult)
      (audit : List AuditRecord)
  | finished (outcome : ExecOutcome)
  | raised (error : ActorError)

/-- The filesystem, the executor's chain, what the agent has done, and where it is. -/
structure Run where
  fs : FileSystem
  chain : AuditChain
  log : List Event
  pc : RunPc

/-- The results of a plan all of whose items drifted. -/
def aborted_results (plan : RemediationPlan) (report : VerifyReport) : List ExecResult :=
  plan.items.filterMap fun item =>
    (report.drifted.lookup item.entry_id.to_str).map fun reason =>
      ⟨item.entry_id.to_str, item.action.value, "aborted_drift", reason⟩

/-- `dispatch_execute`, from the report of a dry run on. -/
def after_report (clean : Bool) (plan : RemediationPlan) (report : VerifyReport) : RunPc :=
  if report.ok ∨ clean then .execute plan report
  else if hlive : live_items plan report = [] then
    .finished ⟨aborted_results plan report, []⟩
  else
    .verifying true { plan with items := live_items plan report, items_ne := hlive }
      (live_items plan report) ⟨[]⟩

/-- `os.mkdir`, of a name in a directory given by its names. -/
def mkdir_in (fs : FileSystem) (p : Process) (start : Dir) (parents : List String)
    (name : String) : Except Errno (FileSystem × Op) :=
  match walk fs p.root max_links start parents with
  | .error e => .error e
  | .ok dir =>
    match mkdir fs dir name with
    | .error e => .error e
    | .ok fs' => .ok (fs', .mkdir dir.inode name)

/-- `Path.is_dir`. -/
def is_dir (fs : FileSystem) (p : Process) (start : Dir) (names : List String) : Bool :=
  (walk fs p.root max_links start names).toBool

/-- `Path.mkdir(parents=True, exist_ok=True)`, on the names from the last to the first. -/
def make_directories (p : Process) (fault : ℕ → Option Errno) (start : Dir) (fs : FileSystem) :
    List String → Did Unit
  | [] => ⟨fs, [], .ok ()⟩
  | name :: parents =>
    match attempt (fault (2 * parents.length)) (mkdir_in fs p start parents.reverse name) with
    | .ok (fs', op) => ⟨fs', [op], .ok ()⟩
    | .error e =>
      if e = ENOENT then
        let above := make_directories p fault start fs parents
        match above.result with
        | .error e => ⟨above.fs, above.ops, .error e⟩
        | .ok _ =>
          match attempt (fault (2 * parents.length + 1))
              (mkdir_in above.fs p start parents.reverse name) with
          | .ok (fs', op) => ⟨fs', above.ops ++ [op], .ok ()⟩
          | .error e =>
            ⟨above.fs, above.ops,
              if e ≠ ENOENT ∧ is_dir above.fs p start (parents.reverse ++ [name]) then .ok ()
              else .error (.os e)⟩
      else
        ⟨fs, [],
          if is_dir fs p start (parents.reverse ++ [name]) then .ok () else .error (.os e)⟩

/-- `execute_with_audit` up to its loop. -/
def prepare (d : Dispatcher) (fs : FileSystem) (faults : PrepareFaults) (plan : RemediationPlan)
    (report : VerifyReport) : Did Unit :=
  if ¬d.executor.write_enabled then ⟨fs, [], .error .disabled⟩
  else if ¬report.ok then
    ⟨fs, [], .error (.drifted ((report.drifted.map Prod.fst).mergeSort fun a b => a ≤ b))⟩
  else if d.executor.blast_cap < plan.items.length ∧ ¬d.confirm_blast then
    ⟨fs, [], .error (.blast_radius plan.items.length d.executor.blast_cap)⟩
  else
    let made := make_directories d.process faults.mkdir
      (d.process.start d.process.cwd d.executor.quarantine_dir) fs
      (split_path d.executor.quarantine_dir).reverse
    match made.result, faults.chmod with
    | .ok _, some e => ⟨made.fs, made.ops, .error (.os e)⟩
    | result, _ => ⟨made.fs, made.ops, result⟩

/-- What can happen in a run of a job. -/
inductive RunLabel where
  /-- other processes: the filesystem becomes any other -/
  | other (fs : FileSystem)
  /-- the `lstat` of the next item of a dry run -/
  | verify (fault : Option Errno)
  /-- the read of it -/
  | read (fault : Option Errno)
  /-- the end of a dry run -/
  | report
  | prepare (faults : PrepareFaults)
  /-- the next item of the plan -/
  | act (faults : Faults) (now now' : Timestamp)
  | finish

/-- One step of a run. -/
def run_step (d : Dispatcher) (s : Run) : RunLabel → Option Run
  | .other fs => some { s with fs }
  | .verify fault =>
    match s.pc with
    | .verifying clean plan (item :: todo) report =>
      match verify_stat d.process s.fs fault item with
      | .error e => some { s with pc := .raised e }
      | .ok (some reason) =>
        some { s with pc := .verifying clean plan todo (note report item (some reason)) }
      | .ok none =>
        match item.prior_hash.filter fun _ => d.hasher with
        | some hash => some { s with pc := .hashing clean plan item hash todo report }
        | none => some { s with pc := .verifying clean plan todo report }
    | _ => none
  | .read fault =>
    match s.pc with
    | .hashing clean plan item hash todo report =>
      match verify_hash blake3 d.process s.fs fault item hash with
      | .error e => some { s with pc := .raised e }
      | .ok reason => some { s with pc := .verifying clean plan todo (note report item reason) }
    | _ => none
  | .report =>
    match s.pc with
    | .verifying clean plan [] report => some { s with pc := after_report clean plan report }
    | _ => none
  | .prepare faults =>
    match s.pc with
    | .execute plan report =>
      let did := prepare d s.fs faults plan report
      some { s with
        fs := did.fs
        log := s.log ++ did.ops.map .op
        pc := match did.result with
          | .error e => .raised e
          | .ok _ => .acting plan plan.items [] [] }
    | _ => none
  | .act faults now now' =>
    match s.pc with
    | .acting plan (item :: todo) results audit =>
      let acted := act blake3 d.executor d.process s.fs s.chain faults now now' plan item
      some {
        fs := acted.fs
        chain := acted.chain
        log := s.log ++ acted.events
        pc := match acted.result with
          | .error e => .raised e
          | .ok (result, records) => .acting plan todo (results ++ [result]) (audit ++ records) }
    | _ => none
  | .finish =>
    match s.pc with
    | .acting _ [] results audit => some { s with pc := .finished ⟨results, audit⟩ }
    | _ => none

/-- `dispatch_execute` of a signed job, on any filesystem. -/
def executing (d : Dispatcher) (job : ActionJob) : System Run RunLabel where
  init := fun s => s.log = [] ∧ s.pc = .verifying false (plan_from_job job) job.items ⟨[]⟩
  step := run_step blake3 d

end

/-! ## What an act leaves alone -/

variable {blake3 : ByteArray → String}

theorem attempt_ok {α : Type} {fault : Option Errno} {result : Except Errno α} {a : α}
    (h : attempt fault result = .ok a) : result = .ok a := by
  cases fault with
  | none => exact h
  | some e => exact absurd h (by simp [attempt])

/-- What a re-check that finds no drift has found. -/
structure Rechecked (blake3 : ByteArray → String) (fs : FileSystem) (dir : Dir) (name : String)
    (item : PlanItem) (i : Inode) (node : Node) : Prop where
  looked_up : lookup fs dir name = some i
  found : fs.node i = some node
  not_symlink : ∀ target, node ≠ .symlink target
  same_inode : (i.ino : Int) = item.prior_inode
  same_size : node.size = item.prior_size
  same_hash : ∀ hash, item.prior_hash = some hash →
    ∃ content, read_node node = .ok content ∧ blake3 content = hash
  anchored : item.action = .hard_delete → item.prior_hash ≠ none

theorem stat_drift_none {item : PlanItem} {i : Inode} {node : Node} (h : stat_drift item i node = none) :
    (∀ target, node ≠ .symlink target) ∧ (i.ino : Int) = item.prior_inode ∧ node.size = item.prior_size := by
  unfold stat_drift at h
  split at h
  · exact absurd h (by simp)
  · rename_i hlink
    by_cases hino : (i.ino : Int) ≠ item.prior_inode
    · rw [if_pos hino] at h
      exact absurd h (by simp)
    · rw [if_neg hino] at h
      by_cases hsize : node.size ≠ item.prior_size
      · rw [if_pos hsize] at h
        exact absurd h (by simp)
      · exact ⟨hlink, not_not.mp hino, not_not.mp hsize⟩

variable {executor : Executor} {d : Dispatcher} {p : Process} {fs : FileSystem} {faults : Faults}
  {dir : Dir} {name : String} {plan : RemediationPlan} {item : PlanItem}

/-- **The re-check.** -/
theorem recheck_spec (h : recheck blake3 fs faults dir name item = none) :
    ∃ i node, Rechecked blake3 fs dir name item i node := by
  unfold recheck at h
  split at h
  · exact absurd h (by simp)
  · rename_i i node hlstat
    obtain ⟨hentry, hnode⟩ := lstat_at_ok.mp (attempt_ok hlstat)
    split at h
    · exact absurd h (by simp)
    · rename_i hdrift
      obtain ⟨hlink, hino, hsize⟩ := stat_drift_none hdrift
      split at h
      · rename_i hash hhash
        split at h
        · exact absurd h (by simp)
        · rename_i content hread
          by_cases hne : blake3 content ≠ hash
          · rw [if_pos hne] at h
            exact absurd h (by simp)
          · refine ⟨i, node, hentry, hnode, hlink, hino, hsize, ?_, ?_⟩
            · intro hash' hhash'
              rw [hhash, Option.some.injEq] at hhash'
              exact ⟨content, attempt_ok hread, by rw [← hhash']; exact not_not.mp hne⟩
            · intro _
              rw [hhash]
              simp
      · rename_i hhash
        by_cases hact : item.action = .hard_delete
        · rw [if_pos hact] at h
          exact absurd h (by simp)
        · refine ⟨i, node, hentry, hnode, hlink, hino, hsize, ?_, fun h => absurd h hact⟩
          intro hash' hhash'
          rw [hhash] at hhash'
          exact absurd hhash' (by simp)

/-- An item with a signed hash is no directory and no link. -/
theorem Rechecked.leaf {i : Inode} {node : Node} (h : Rechecked blake3 fs dir name item i node)
    {hash : String} (hhash : item.prior_hash = some hash) : node.is_branch = false := by
  obtain ⟨content, hread, -⟩ := h.same_hash hash hhash
  cases node with
  | file _ => rfl
  | special _ _ => rfl
  | directory _ => exact absurd hread (by simp [read_node])
  | symlink _ => exact absurd hread (by simp [read_node])

/-- The entry an item is re-checked at. -/
def item_entry (dir : Dir) (name : String) (d : Inode) (n : String) : Prop :=
  d = dir.inode ∧ n = name ∧ reserved n = false

/-- The entry of the quarantine that an item is renamed to, if it may replace what is
there. -/
def quarantine_entry (executor : Executor) (p : Process) (fs : FileSystem) (plan_id : String)
    (item : PlanItem) (dir : Dir) (name : String) (d : Inode) (n : String) : Prop :=
  ∃ q dst i, open_directory fs p executor.quarantine_dir = .ok q ∧
    locate_at fs p q (quarantine_name plan_id item name) = .ok (dst, n) ∧ d = dst.inode ∧
    reserved name = false ∧ fs.entry dir.inode name = some i ∧
    ∀ found, fs.entry d n = some found → replaceable fs i found = .ok ()

theorem quarantine_spec {plan_id : String} :
    let did := quarantine executor p fs faults dir name plan_id item
    (did.fs = fs ∧ did.ops = []) ∨
      ∃ q dst name', open_directory fs p executor.quarantine_dir = .ok q ∧
        locate_at fs p q (quarantine_name plan_id item name) = .ok (dst, name') ∧
        rename fs dir name dst name' = .ok did.fs ∧
        did.ops = [.rename dir.inode name dst.inode name'] := by
  dsimp only
  unfold quarantine
  dsimp only
  split
  · exact Or.inl ⟨rfl, rfl⟩
  · rename_i q hq
    split_ifs
    · exact Or.inl ⟨rfl, rfl⟩
    · split
      · exact Or.inl ⟨rfl, rfl⟩
      · rename_i fs' op hrename
        have hcall := attempt_ok hrename
        unfold quarantine_rename at hcall
        split at hcall
        · exact absurd hcall (by simp)
        · rename_i dst name' hlocate
          split at hcall
          · exact absurd hcall (by simp)
          · rename_i fs'' hmoved
            obtain ⟨rfl, rfl⟩ := Prod.mk.inj (Except.ok.inj hcall)
            exact Or.inr ⟨q, dst, name', attempt_ok hq, hlocate, hmoved, rfl⟩

theorem hard_delete_spec :
    let did := hard_delete executor fs faults dir name
    (did.fs = fs ∧ did.ops = []) ∨
      (unlink fs dir name = .ok did.fs ∧ did.ops = [.unlink dir.inode name]) := by
  dsimp only
  unfold hard_delete
  split
  · exact Or.inl ⟨rfl, rfl⟩
  · split
    · exact Or.inl ⟨rfl, rfl⟩
    · rename_i fs' hunlink
      exact Or.inr ⟨attempt_ok hunlink, rfl⟩

theorem make_component_keeps {fault : Option Errno} {cur : Dir} :
    Keeps fs (make_component fs fault cur name).fs fun _ _ => False := by
  unfold make_component
  split_ifs
  · exact Keeps.refl fs _
  · split
    · exact Keeps.refl fs _
    · rename_i fs' hmkdir
      exact mkdir_keeps (attempt_ok hmkdir)

/-- Making the destination of a move takes nothing away. -/
theorem descend_keeps {cur : Dir} {k : ℕ} {names : List String} :
    Keeps fs (descend faults fs cur k names).fs fun _ _ => False := by
  induction names generalizing fs cur k with
  | nil => exact Keeps.refl fs _
  | cons name names ih =>
      rw [descend]
      dsimp only
      have hmade : Keeps fs (make_component fs (faults.mkdir k) cur name).fs fun _ _ => False :=
        make_component_keeps
      split
      · exact hmade
      · split
        · exact hmade
        · exact (hmade.trans ih).mono fun _ _ h => h.elim id id

/-- A link and an unlink take away the source, and nothing when they are rolled back. -/
theorem link_and_unlink_keeps {src dst : Dir} {leaf moved : String} :
    Keeps fs (link_and_unlink fs faults src name dst leaf moved).fs (item_entry src name) := by
  unfold link_and_unlink
  split
  · exact Keeps.refl fs _
  · rename_i fs' hlink
    have hlinked := link_keeps (attempt_ok hlink)
    split
    · rename_i fs'' hunlink
      exact (hlinked.trans (unlink_keeps (attempt_ok hunlink))).mono
        fun _ _ h => h.elim False.elim id
    · dsimp only
      split
      · rename_i fs'' hunlink
        -- the leaf was not there before the link
        obtain ⟨i, -, hnone, -, -⟩ := link_spec (attempt_ok hlink)
        have hback := hlinked.trans (unlink_keeps (attempt_ok hunlink))
        refine ⟨hback.node, ?_⟩
        intro d n j hj _
        apply hback.entry d n j hj
        rintro (hfalse | ⟨rfl, rfl, -⟩)
        · exact hfalse
        · rw [hnone] at hj
          exact absurd hj (by simp)
      · exact hlinked.mono fun _ _ h => h.elim

theorem move_keeps {src : Dir} {move_root dest_rel : Option String} :
    Keeps fs (move p fs faults src name move_root dest_rel).fs (item_entry src name) := by
  unfold move
  split
  · dsimp only
    split
    · exact Keeps.refl fs _
    · split
      · exact Keeps.refl fs _
      · split
        · exact Keeps.refl fs _
        · split
          · exact Keeps.refl fs _
          · rename_i cur hroot
            have hthere : ∀ names, Keeps fs (descend faults fs cur 0 names).fs
                (item_entry src name) := fun names =>
              descend_keeps.mono fun _ _ h => h.elim
            split
            · exact hthere _
            · exact hthere _
            · split
              · exact hthere _
              · exact ((hthere _).trans link_and_unlink_keeps).mono fun _ _ h => h.elim id id
  · exact Keeps.refl fs _

/-- **A mutation** takes away the item's own entry and what it replaces in the
quarantine. -/
theorem mutate_keeps :
    Keeps fs (mutate executor p fs faults dir name plan item).fs fun d n =>
      item_entry dir name d n ∨
        (item.action = .quarantine ∧
          quarantine_entry executor p fs plan.plan_id item dir name d n) := by
  unfold mutate
  split
  · rename_i hact
    obtain ⟨hsame, -⟩ | ⟨q, dst, name', hq, hlocate, hrename, -⟩ :=
      @quarantine_spec executor p fs faults dir name item plan.plan_id
    · rw [hsame]
      exact Keeps.refl fs _
    · apply (rename_keeps hrename).mono
      rintro d n (hitem | ⟨rfl, rfl, hreserved, i, hi, hreplace⟩)
      · exact Or.inl hitem
      · exact Or.inr ⟨hact, q, dst, i, hq, hlocate, rfl, hreserved, hi, hreplace⟩
  · obtain ⟨hsame, -⟩ | ⟨hunlink, -⟩ := @hard_delete_spec executor fs faults dir name
    · rw [hsame]
      exact Keeps.refl fs _
    · exact (unlink_keeps hunlink).mono fun _ _ h => Or.inl h
  · exact move_keeps.mono fun _ _ h => Or.inl h
  · exact Keeps.refl fs _

/-- The ways an act can end. -/
inductive ActExit (blake3 : ByteArray → String) (executor : Executor) (p : Process)
    (fs : FileSystem) (chain : AuditChain) (faults : Faults) (now now' : Timestamp)
    (plan : RemediationPlan) (item : PlanItem) : Acted → Prop where
  /-- before anything is done: a name with a NUL, a parent that does not open, a sink that
  raises -/
  | stopped (e : ActorError) : e = .nul ∨ e = .audit ∨ (∃ errno, e = .os errno) →
      ActExit blake3 executor p fs chain faults now now' plan item ⟨fs, chain, [], .error e⟩
  | drifted (dir : Dir) (drift : String) : open_parent fs p item.path = .ok dir →
      recheck blake3 fs faults dir (path_name item.path) item = some drift →
      ActExit blake3 executor p fs chain faults now now' plan item
        ⟨fs, chain, [], .ok (⟨item.entry_id.to_str, item.action.value, "aborted_drift", drift⟩, [])⟩
  /-- `_mutate` has raised -/
  | raised (dir : Dir) (e : ActorError) : open_parent fs p item.path = .ok dir →
      recheck blake3 fs faults dir (path_name item.path) item = none →
      (mutate executor p fs faults dir (path_name item.path) plan item).result = .error e →
      ActExit blake3 executor p fs chain faults now now' plan item
        ⟨(mutate executor p fs faults dir (path_name item.path) plan item).fs,
          act_append blake3 executor chain now item "pending",
          .audit (act_record blake3 executor chain now item "pending") ::
            (mutate executor p fs faults dir (path_name item.path) plan item).ops.map .op,
          .error e⟩
  /-- the record of the result is not taken -/
  | unrecorded (dir : Dir) (status detail : String) : open_parent fs p item.path = .ok dir →
      recheck blake3 fs faults dir (path_name item.path) item = none →
      (mutate executor p fs faults dir (path_name item.path) plan item).result =
        .ok (status, detail) →
      ActExit blake3 executor p fs chain faults now now' plan item
        ⟨(mutate executor p fs faults dir (path_name item.path) plan item).fs,
          act_append blake3 executor chain now item "pending",
          .audit (act_record blake3 executor chain now item "pending") ::
            (mutate executor p fs faults dir (path_name item.path) plan item).ops.map .op,
          .error .audit⟩
  | done (dir : Dir) (status detail : String) : open_parent fs p item.path = .ok dir →
      recheck blake3 fs faults dir (path_name item.path) item = none →
      (mutate executor p fs faults dir (path_name item.path) plan item).result =
        .ok (status, detail) →
      ActExit blake3 executor p fs chain faults now now' plan item
        ⟨(mutate executor p fs faults dir (path_name item.path) plan item).fs,
          act_append blake3 executor (act_append blake3 executor chain now item "pending") now' item
            status,
          .audit (act_record blake3 executor chain now item "pending") ::
              (mutate executor p fs faults dir (path_name item.path) plan item).ops.map .op ++
            [.audit (act_record blake3 executor
              (act_append blake3 executor chain now item "pending") now' item status)],
          .ok (⟨item.entry_id.to_str, item.action.value, status, detail⟩,
            [act_record blake3 executor chain now item "pending",
              act_record blake3 executor (act_append blake3 executor chain now item "pending") now'
                item status])⟩

theorem act_exit (executor : Executor) (p : Process) (fs : FileSystem) (chain : AuditChain)
    (faults : Faults) (now now' : Timestamp) (plan : RemediationPlan) (item : PlanItem) :
    ActExit blake3 executor p fs chain faults now now' plan item
      (act blake3 executor p fs chain faults now now' plan item) := by
  unfold act
  dsimp only
  split
  · exact .stopped .nul (Or.inl rfl)
  · split
    · rename_i e _
      exact .stopped (.os e) (Or.inr (Or.inr ⟨e, rfl⟩))
    · rename_i dir hopen
      split
      · exact .stopped .nul (Or.inl rfl)
      · split
        · rename_i drift hdrift
          exact .drifted dir drift (attempt_ok hopen) hdrift
        · rename_i hrecheck
          split
          · exact .stopped .audit (Or.inr (Or.inl rfl))
          · split
            · rename_i e hmutate
              exact .raised dir e (attempt_ok hopen) hrecheck hmutate
            · rename_i status detail hmutate
              split
              · exact .unrecorded dir status detail (attempt_ok hopen) hrecheck hmutate
              · exact .done dir status detail (attempt_ok hopen) hrecheck hmutate

/-- **An act** does nothing that others can see, or it has passed its re-check, put its
intention on record, and done what `_mutate` does. -/
theorem act_spec {chain : AuditChain} {now now' : Timestamp} :
    let acted := act blake3 executor p fs chain faults now now' plan item
    (acted.fs = fs ∧ acted.events = []) ∨
      ∃ dir i node rest, open_parent fs p item.path = .ok dir ∧
        Rechecked blake3 fs dir (path_name item.path) item i node ∧
        acted.fs = (mutate executor p fs faults dir (path_name item.path) plan item).fs ∧
        acted.events = .audit (act_record blake3 executor chain now item "pending") :: rest := by
  dsimp only
  have hexit := @act_exit blake3 executor p fs chain faults now now' plan item
  generalize act blake3 executor p fs chain faults now now' plan item = acted at hexit ⊢
  cases hexit with
  | stopped e he => exact Or.inl ⟨rfl, rfl⟩
  | drifted dir drift hopen hdrift => exact Or.inl ⟨rfl, rfl⟩
  | raised dir e hopen hrecheck hmutate =>
      obtain ⟨i, node, hfound⟩ := recheck_spec hrecheck
      exact Or.inr ⟨dir, i, node, _, hopen, hfound, rfl, rfl⟩
  | unrecorded dir status detail hopen hrecheck hmutate =>
      obtain ⟨i, node, hfound⟩ := recheck_spec hrecheck
      exact Or.inr ⟨dir, i, node, _, hopen, hfound, rfl, rfl⟩
  | done dir status detail hopen hrecheck hmutate =>
      obtain ⟨i, node, hfound⟩ := recheck_spec hrecheck
      exact Or.inr ⟨dir, i, node, _, hopen, hfound, rfl, rfl⟩

/-- Making the quarantine directory takes nothing away. -/
theorem make_directories_keeps {fault : ℕ → Option Errno} {start : Dir} {names : List String} :
    Keeps fs (make_directories p fault start fs names).fs (fun _ _ => False) ∧
      ∀ op ∈ (make_directories p fault start fs names).ops, ∃ dir name, op = .mkdir dir name := by
  have hmkdir : ∀ {fs fs' : FileSystem} {op : Op} {fault : Option Errno} {parents : List String}
      {name : String}, attempt fault (mkdir_in fs p start parents name) = .ok (fs', op) →
      Keeps fs fs' (fun _ _ => False) ∧ ∃ dir name, op = .mkdir dir name := by
    intro fs fs' op fault parents name h
    have hcall := attempt_ok h
    unfold mkdir_in at hcall
    split at hcall
    · exact absurd hcall (by simp)
    · rename_i dir _
      split at hcall
      · exact absurd hcall (by simp)
      · rename_i fs'' hmade
        obtain ⟨rfl, rfl⟩ := Prod.mk.inj (Except.ok.inj hcall)
        exact ⟨mkdir_keeps hmade, dir.inode, name, rfl⟩
  induction names generalizing fs with
  | nil => exact ⟨Keeps.refl fs _, fun op hop => absurd hop (by simp [make_directories])⟩
  | cons name parents ih =>
      rw [make_directories]
      split
      · rename_i fs' op hmade
        refine ⟨(hmkdir hmade).1, ?_⟩
        intro op' hop'
        rw [List.mem_singleton.mp hop']
        exact (hmkdir hmade).2
      · split
        · dsimp only
          split
          · exact ih
          · split
            · rename_i fs' op hmade
              refine ⟨(ih.1.trans (hmkdir hmade).1).mono fun _ _ h => h.elim id id, ?_⟩
              intro op' hop'
              rcases List.mem_append.mp hop' with hold | hnew
              · exact ih.2 op' hold
              · rw [List.mem_singleton.mp hnew]
                exact (hmkdir hmade).2
            · exact ih
        · exact ⟨Keeps.refl fs _, fun op hop => absurd hop (by simp)⟩

theorem prepare_keeps {faults : PrepareFaults} {report : VerifyReport} :
    Keeps fs (prepare d fs faults plan report).fs (fun _ _ => False) ∧
      ∀ op ∈ (prepare d fs faults plan report).ops, ∃ dir name, op = .mkdir dir name := by
  have hnothing : Keeps fs fs (fun _ _ => False) ∧
      ∀ op ∈ ([] : List Op), ∃ dir name, op = .mkdir dir name :=
    ⟨Keeps.refl fs _, fun op hop => absurd hop (by simp)⟩
  unfold prepare
  split
  · exact hnothing
  · split
    · exact hnothing
    · split
      · exact hnothing
      · dsimp only
        split
        · exact make_directories_keeps
        · exact make_directories_keeps

/-! ## What a run can do -/

/-- The plan of a run is made of the job. -/
structure PlanOf (job : ActionJob) (plan : RemediationPlan) : Prop where
  plan_id : plan.plan_id = job.plan_id
  move_root : plan.move_root = job.move_root
  items : ∀ item ∈ plan.items, item ∈ job.items

/-- And so is what it has still to do. -/
def FromJob (job : ActionJob) : RunPc → Prop
  | .verifying _ plan _ _ => PlanOf job plan
  | .hashing _ plan _ _ _ _ => PlanOf job plan
  | .execute plan _ => PlanOf job plan
  | .acting plan todo _ _ => PlanOf job plan ∧ ∀ item ∈ todo, item ∈ job.items
  | .finished _ => True
  | .raised _ => True

variable {job : ActionJob} {label : RunLabel}

theorem PlanOf.after_report (h : PlanOf job plan) (clean : Bool) (report : VerifyReport) :
    FromJob job (after_report clean plan report) := by
  unfold Actor.after_report
  split
  · exact h
  · split
    · exact trivial
    · refine ⟨h.plan_id, h.move_root, ?_⟩
      intro item hitem
      exact h.items item (List.mem_filter.mp hitem).1

/-- The labels of the steps that only read. -/
def reads : RunLabel → Bool
  | .verify _ => true
  | .read _ => true
  | .report => true
  | .finish => true
  | _ => false

/-- What a reading step can do. -/
theorem reading_step {s t : Run} (hstep : run_step blake3 d s label = some t) (hreads : reads label = true) :
    ∃ pc, t = { s with pc } ∧ ∀ job, FromJob job s.pc → FromJob job pc := by
  cases label with
  | verify fault =>
      simp only [run_step] at hstep
      split at hstep
      · rename_i hpc
        rw [hpc]
        split at hstep
        · exact ⟨_, (Option.some.inj hstep).symm, fun _ _ => trivial⟩
        · exact ⟨_, (Option.some.inj hstep).symm, fun _ h => h⟩
        · split at hstep
          · exact ⟨_, (Option.some.inj hstep).symm, fun _ h => h⟩
          · exact ⟨_, (Option.some.inj hstep).symm, fun _ h => h⟩
      · exact absurd hstep (by simp)
  | read fault =>
      simp only [run_step] at hstep
      split at hstep
      · rename_i hpc
        rw [hpc]
        split at hstep
        · exact ⟨_, (Option.some.inj hstep).symm, fun _ _ => trivial⟩
        · exact ⟨_, (Option.some.inj hstep).symm, fun _ h => h⟩
      · exact absurd hstep (by simp)
  | report =>
      simp only [run_step] at hstep
      split at hstep
      · rename_i clean plan report hpc
        rw [hpc]
        refine ⟨_, (Option.some.inj hstep).symm, ?_⟩
        intro job h
        have hplan : PlanOf job plan := h
        exact hplan.after_report clean report
      · exact absurd hstep (by simp)
  | finish =>
      simp only [run_step] at hstep
      split at hstep
      · exact ⟨_, (Option.some.inj hstep).symm, fun _ _ => trivial⟩
      · exact absurd hstep (by simp)
  | _ => exact absurd hreads (by simp [reads])

/-- What the last step before the acts can do. -/
theorem prepare_step {s t : Run} {faults : PrepareFaults}
    (hstep : run_step blake3 d s (.prepare faults) = some t) :
    ∃ plan report pc, s.pc = .execute plan report ∧
      t = { s with
        fs := (prepare d s.fs faults plan report).fs
        log := s.log ++ (prepare d s.fs faults plan report).ops.map .op
        pc } ∧
      ((∃ e, pc = .raised e) ∨ pc = .acting plan plan.items [] []) := by
  simp only [run_step] at hstep
  split at hstep
  · rename_i plan report hpc
    refine ⟨plan, report, _, hpc, (Option.some.inj hstep).symm, ?_⟩
    split
    · exact Or.inl ⟨_, rfl⟩
    · exact Or.inr rfl
  · exact absurd hstep (by simp)

/-- What the act on the next item can do. -/
theorem act_step_spec {s t : Run} {now now' : Timestamp} (hstep : run_step blake3 d s (.act faults now now') = some t) :
    ∃ plan item todo results audit acted pc, s.pc = .acting plan (item :: todo) results audit ∧
      acted = act blake3 d.executor d.process s.fs s.chain faults now now' plan item ∧
      t = ⟨acted.fs, acted.chain, s.log ++ acted.events, pc⟩ ∧
      ((∃ e, pc = .raised e) ∨ ∃ results' audit', pc = .acting plan todo results' audit') := by
  simp only [run_step] at hstep
  split at hstep
  · rename_i plan item todo results audit hpc
    refine ⟨plan, item, todo, results, audit, _, _, hpc, rfl, (Option.some.inj hstep).symm, ?_⟩
    split
    · exact Or.inl ⟨_, rfl⟩
    · exact Or.inr ⟨_, _, rfl⟩
  · exact absurd hstep (by simp)

theorem FromJob.step {s t : Run} (h : FromJob job s.pc) (hstep : run_step blake3 d s label = some t) :
    FromJob job t.pc := by
  cases label with
  | other fs =>
      rw [← Option.some.inj hstep]
      exact h
  | prepare faults =>
      obtain ⟨plan, report, pc, hpc, rfl, ⟨e, rfl⟩ | rfl⟩ := prepare_step hstep
      · exact trivial
      · rw [hpc] at h
        have hplan : PlanOf job plan := h
        exact ⟨hplan, hplan.items⟩
  | act faults now now' =>
      obtain ⟨plan, item, todo, _, _, _, pc, hpc, -, rfl, ⟨e, rfl⟩ | ⟨_, _, rfl⟩⟩ :=
        act_step_spec hstep
      · exact trivial
      · rw [hpc] at h
        exact ⟨h.1, fun item' hitem' => h.2 item' (List.mem_cons_of_mem _ hitem')⟩
  | _ =>
      obtain ⟨pc, rfl, hjob⟩ := reading_step hstep rfl
      exact hjob job h

theorem from_job {tr : List RunLabel} {s : Run} (htr : (executing blake3 d job).Trace tr s) : FromJob job s.pc := by
  refine htr.invariant (I := fun s => FromJob job s.pc) ?_ ?_
  · rintro u ⟨-, hpc⟩
    rw [hpc]
    exact ⟨rfl, rfl, fun item hitem => hitem⟩
  · intro u label v hu hstep
    exact hu.step hstep

/-- The other steps of an agent only make directories. -/
theorem quiet_step {s t : Run} (hstep : run_step blake3 d s label = some t) (hother : ∀ fs, label ≠ .other fs)
    (hact : ∀ faults now now', label ≠ .act faults now now') :
    Keeps s.fs t.fs (fun _ _ => False) ∧
      ∃ ops : List Op, t.log = s.log ++ ops.map .op ∧
        ∀ op ∈ ops, ∃ dir name, op = .mkdir dir name := by
  cases label with
  | other fs => exact absurd rfl (hother fs)
  | act faults now now' => exact absurd rfl (hact faults now now')
  | prepare faults =>
      obtain ⟨plan, report, pc, -, rfl, -⟩ := prepare_step hstep
      obtain ⟨hkeeps, hops⟩ := @prepare_keeps d s.fs plan faults report
      exact ⟨hkeeps, _, rfl, hops⟩
  | _ =>
      obtain ⟨pc, rfl, -⟩ := reading_step hstep rfl
      exact ⟨Keeps.refl s.fs _, [], by simp, fun op hop => absurd hop (by simp)⟩

/-! ## The drift gate -/

/-- A step touches what was there: it renames, unlinks or links a file, or an entry or
an inode that was there is not the same after it. -/
structure Touches (fs fs' : FileSystem) (events : List Event) : Prop where
  some_change : (∃ op, Event.op op ∈ events ∧ ∀ dir name, op ≠ .mkdir dir name) ∨
    (∃ i node, fs.node i = some node ∧ fs'.node i ≠ some node) ∨
    ∃ dir name i, fs.entry dir name = some i ∧ fs'.entry dir name ≠ some i

/-- What is only kept is not touched. -/
theorem Keeps.not_touches {fs' : FileSystem} {ops : List Op} (h : Keeps fs fs' fun _ _ => False)
    (hops : ∀ op ∈ ops, ∃ dir name, op = .mkdir dir name) : ¬Touches fs fs' (ops.map .op) := by
  rintro ⟨⟨op, hop, hne⟩ | ⟨i, node, hnode, hne⟩ | ⟨dir, name, i, hi, hne⟩⟩
  · obtain ⟨op', hop', heq⟩ := List.mem_map.mp hop
    obtain ⟨dir, name, hmkdir⟩ := hops op' hop'
    apply hne dir name
    rw [← Event.op.inj heq]
    exact hmkdir
  · exact hne (h.node i node hnode)
  · exact hne (h.entry dir name i hi id)

/-- **The drift gate.** A step of an agent that touches what was there is the act on an
item of the signed job, re-checked in the filesystem of that moment: no symbolic link,
the signed inode number and size and, where a hash is signed, content of that hash; an
irreversible delete has a signed hash. The first thing it does is to record the item as
pending; and of what was there it changes the entry it has re-checked and nothing else,
except that a quarantine replaces what its new name in the quarantine led to. -/
theorem drift_gate {d : Dispatcher} {job : ActionJob} {tr : List RunLabel} {s t : Run}
    {label : RunLabel} (htr : (executing blake3 d job).Trace tr s)
    (hstep : (executing blake3 d job).step s label = some t)
    (hagent : ∀ fs, label ≠ .other fs) :
    ∃ events, t.log = s.log ++ events ∧ (Touches s.fs t.fs events →
      ∃ item ∈ job.items, ∃ dir i node,
        open_parent s.fs d.process item.path = .ok dir ∧
        Rechecked blake3 s.fs dir (path_name item.path) item i node ∧
        (∃ record rest, events = .audit record :: rest ∧
          record.action = item.action.value ∧ record.target = item.path ∧
          record.result = "pending") ∧
        Keeps s.fs t.fs fun e n => item_entry dir (path_name item.path) e n ∨
          (item.action = .quarantine ∧
            quarantine_entry d.executor d.process s.fs job.plan_id item dir
              (path_name item.path) e n)) := by
  have hstep' : run_step blake3 d s label = some t := hstep
  by_cases hact : ∃ faults now now', label = .act faults now now'
  · obtain ⟨faults, now, now', rfl⟩ := hact
    obtain ⟨plan, item, todo, _, _, acted, _, hpc, hacted, rfl, -⟩ := act_step_spec hstep'
    have hjob := from_job htr
    rw [hpc] at hjob
    obtain ⟨hplan, htodo⟩ := hjob
    refine ⟨acted.events, rfl, ?_⟩
    intro htouch
    obtain ⟨hsame, hquiet⟩ | ⟨dir, i, node, rest, hopen, hfound, hmutate, hevents⟩ :=
      @act_spec blake3 d.executor d.process s.fs faults plan item s.chain now now'
    · -- an act that stops before its pending record touches nothing
      rw [← hacted] at hsame hquiet
      rw [hsame, hquiet] at htouch
      have hnot : ¬Touches s.fs s.fs (([] : List Op).map .op) :=
        Keeps.not_touches (Keeps.refl s.fs _) (by simp)
      exact absurd htouch hnot
    · rw [← hacted] at hmutate hevents
      refine ⟨item, htodo item List.mem_cons_self, dir, i, node, hopen, hfound, ?_, ?_⟩
      · exact ⟨_, rest, hevents, rfl, rfl, rfl⟩
      · rw [hmutate, ← hplan.plan_id]
        exact mutate_keeps
  · obtain ⟨hkeeps, ops, hlog, hops⟩ := quiet_step hstep' hagent fun faults now now' heq =>
      hact ⟨faults, now, now', heq⟩
    exact ⟨_, hlog, fun htouch => absurd htouch (Keeps.not_touches hkeeps hops)⟩

/-! ### A host with two copies -/

/-- The root, a directory with two copies of a file, and a quarantine. -/
def two_copies : FileSystem :=
  .of_tables
    [(⟨1, 2⟩, .directory 4096), (⟨1, 3⟩, .directory 4096), (⟨1, 4⟩, .directory 4096),
      (⟨1, 10⟩, .file ⟨#[1, 2, 3]⟩), (⟨1, 11⟩, .file ⟨#[1, 2, 3]⟩)]
    [(⟨1, 2⟩, [("data", ⟨1, 3⟩), ("q", ⟨1, 4⟩)]), (⟨1, 3⟩, [("k", ⟨1, 10⟩), ("a", ⟨1, 11⟩)])]

/-- An agent that may quarantine. -/
def sample_dispatcher : Dispatcher where
  executor := ⟨"/q", true, 100, false, "strata-actor"⟩
  hasher := true
  process := ⟨⟨⟨1, 2⟩, []⟩, ⟨⟨1, 2⟩, []⟩⟩
  confirm_blast := false

/-- A job for the second copy. -/
def second_copy_job : ActionJob :=
  { sample_action with
    plan_id := "plan-1"
    expires_at := sample_expiry
    items := [
      { entry_id := .int 12, path := "/data/a", prior_inode := 11, prior_size := 3
        prior_hash := some "9f", action := .quarantine, dest_rel := none }]
    move_root := none
    plan_id_ne := by decide
    items_ne := by decide }

/-- The job before its act. -/
def before_act : List RunLabel :=
  [.verify none, .read none, .report, .prepare ⟨fun _ => none, none⟩]

/-- The start of the job. -/
def run_start (fs : FileSystem) : Run where
  fs
  chain := ⟨[], Fathom.Audit.GENESIS_HASH⟩
  log := []
  pc := .verifying false (plan_from_job second_copy_job) second_copy_job.items ⟨[]⟩

/-- The copy is quarantined, through the gate. -/
theorem drift_gate_second_copy :
    ∃ (s t : Run) (events : List Event), (executing (fun _ => "9f") sample_dispatcher second_copy_job).Trace
        before_act s ∧
      t.log = s.log ++ events ∧ Touches s.fs t.fs events ∧
      ∃ item ∈ second_copy_job.items, ∃ dir i node,
        open_parent s.fs sample_dispatcher.process item.path = .ok dir ∧
        Rechecked (fun _ => "9f") s.fs dir (path_name item.path) item i node ∧
        (∃ record rest, events = .audit record :: rest ∧
          record.action = item.action.value ∧ record.target = item.path ∧
          record.result = "pending") ∧
        Keeps s.fs t.fs fun e n => item_entry dir (path_name item.path) e n ∨
          (item.action = .quarantine ∧
            quarantine_entry sample_dispatcher.executor sample_dispatcher.process s.fs
              second_copy_job.plan_id item dir (path_name item.path) e n) := by
  have hrun : ∃ s t : Run, (executing (fun _ => "9f") sample_dispatcher second_copy_job).run
        (run_start two_copies) before_act = some s ∧
      (executing (fun _ => "9f") sample_dispatcher second_copy_job).step s
        (.act no_faults sample_time sample_time) = some t ∧
      s.fs.entry ⟨1, 3⟩ "a" = some ⟨1, 11⟩ ∧ t.fs.entry ⟨1, 3⟩ "a" = none :=
    ⟨_, _, rfl, rfl, rfl, rfl⟩
  obtain ⟨s, t, hs, ht, hbefore, hafter⟩ := hrun
  have htr : (executing (fun _ => "9f") sample_dispatcher second_copy_job).Trace before_act s :=
    ⟨run_start two_copies, ⟨rfl, rfl⟩, hs⟩
  obtain ⟨events, hlog, hgate⟩ := drift_gate htr ht (by simp)
  have htouches : Touches s.fs t.fs events :=
    ⟨Or.inr (Or.inr ⟨⟨1, 3⟩, "a", ⟨1, 11⟩, hbefore, by rw [hafter]; simp⟩)⟩
  exact ⟨s, t, events, htr, hlog, htouches, hgate htouches⟩

end Fathom.Actor
