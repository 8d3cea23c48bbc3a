/-
**Where a move can put a file** (`core/organize/service.py`, `agent/actor/executor.py`).

The folder of a plan is confined twice: the server clamps every target to it as a text, and the
executor walks to it component by component, from the folder it has opened, without following a
symbolic link. `move_confinement` puts the two together: whatever is planted below the folder,
what an act adds lies on the way from the folder to the target, and the file is where it was or
where the target says.

A file may be under its new name and its old one, when the kernel refuses both the unlink of the
source and the one that takes the link back; it then is where it was.
-/
import Fathom.Actor.Lossless
import Fathom.Organize.Service

set_option autoImplicit false

namespace Fathom.Organize

open Fathom.Actor
open Fathom.Audit (AuditChain AuditRecord)
open Fathom.Datetime (Timestamp)
open Fathom.Filesystem
open Fathom.Read (rstrip)
open Fathom.Remediation (PlanItem RemediationPlan)

/-! ## What is added on the way -/

/-- The entries a move adds are on the way from the folder to its target, which passes no symbolic
link: directories, and the target. -/
def Confined (p : Process) (fs fs' : FileSystem) (root dest : String) : Prop :=
  ∀ d n i, fs'.entry d n = some i → fs.entry d n = some i ∨
    ∃ cur dir before, open_nofollow fs p root = .ok cur ∧ before ++ [n] <+: dest_parts dest ∧
      walk_plain fs' cur before = .ok (.arrived dir) ∧ d = dir.inode ∧
      (before ++ [n] = dest_parts dest ∨ ∃ size, fs'.node i = some (.directory size))

theorem Confined.refl (p : Process) (fs : FileSystem) (root dest : String) :
    Confined p fs fs root dest := fun _ _ _ h => Or.inl h

variable {fs mid fs' : FileSystem} {faults : Faults} {p : Process} {root dest leaf name : String}

/-- A component that is made is made where the walk is. -/
theorem make_component_added {fault : Option Errno} {cur : Dir} {d : Inode} {n : String} {i : Inode}
    (h : (make_component fs fault cur name).fs.entry d n = some i) :
    fs.entry d n = some i ∨ (d = cur.inode ∧ n = name) := by
  unfold make_component at h
  split at h
  · exact Or.inl h
  · split at h
    · exact Or.inl h
    · rename_i fs' hmkdir
      obtain ⟨-, rfl⟩ := mkdir_spec (attempt_ok hmkdir)
      rw [FileSystem.entry_set_entry] at h
      by_cases hkey : d = cur.inode ∧ n = name
      · exact Or.inr hkey
      · rw [if_neg hkey] at h
        exact Or.inl h

/-- **What a walk adds** lies on its way. -/
theorem descend_added {cur : Dir} {k : ℕ} {names : List String}
    (hnames : ∀ name ∈ names, name ≠ "" ∧ name ≠ ".") {d : Inode} {n : String} {i : Inode}
    (h : (descend faults fs cur k names).fs.entry d n = some i) : fs.entry d n = some i ∨
      ∃ dir before, before ++ [n] <+: names ∧
        walk_plain (descend faults fs cur k names).fs cur before = .ok (.arrived dir) ∧ d = dir.inode := by
  induction names generalizing fs cur k with
  | nil => exact Or.inl h
  | cons name names ih =>
      obtain ⟨⟨hempty, hdot⟩, hrest⟩ := List.forall_mem_cons.mp hnames
      -- what is made first is made in the directory the walk starts from
      have hfirst : ∀ fs' : FileSystem, (make_component fs (faults.mkdir k) cur name).fs.entry d n =
          some i → fs.entry d n = some i ∨ ∃ dir before, before ++ [n] <+: name :: names ∧
            walk_plain fs' cur before = .ok (.arrived dir) ∧ d = dir.inode := by
        intro fs' hmade
        obtain hold | ⟨hd, hn⟩ := make_component_added hmade
        · exact Or.inl hold
        · refine Or.inr ⟨cur, [], ?_, rfl, hd⟩
          rw [hn]
          exact ⟨names, rfl⟩
      rw [descend] at h ⊢
      dsimp only at h ⊢
      split at h
      · exact hfirst _ h
      · split at h
        · exact hfirst _ h
        · rename_i next hopen
          obtain hmade | ⟨dir, before, hbefore, hwalk, hd⟩ := ih hrest h
          · exact hfirst _ hmade
          · have hplain := open_nofollow_at_plain hempty hdot (attempt_ok hopen)
            have hkept := walk_plain_keeps
              (descend_same_files faults _ next (k + 1) names).branches hplain
            refine Or.inr ⟨dir, name :: before, ?_, ?_, hd⟩
            · obtain ⟨more, hmore⟩ := hbefore
              exact ⟨more, by rw [List.cons_append, List.cons_append, hmore]⟩
            · rw [← List.singleton_append, walk_plain_append, hkept]
              exact hwalk

/-- A walk to the directory of a target is confined to the way to the target. -/
theorem descend_confined {cur : Dir} (hopen : open_nofollow fs p root = .ok cur)
    (hdots : ∀ part ∈ dest_parts dest, part ≠ ".." ∧ part ≠ ".") :
    Confined p fs (descend faults fs cur 0 (dest_parts dest).dropLast).fs root dest := by
  intro d n i h
  obtain hold | ⟨dir, before, hbefore, hwalk, hd⟩ := descend_added (directory_parts hdots) h
  · exact Or.inl hold
  · obtain hold | ⟨-, hdirectory⟩ := (descend_same_files faults fs cur 0 _).back d n i h
    · exact Or.inl hold
    · exact Or.inr ⟨cur, dir, before, hopen, hbefore.trans (List.dropLast_prefix _), hwalk, hd,
        Or.inr hdirectory⟩

/-- A move that comes to no link has made directories on its way, if any. -/
theorem move_made {src : Dir} {move_root dest_rel : Option String}
    (hroot : move_root.filter (fun r => r ≠ "") = some root)
    (hdest : dest_rel.filter (fun d => d ≠ "") = some dest)
    (h : move_target p fs faults root dest = none) :
    Confined p fs (move p fs faults src name move_root dest_rel).fs root dest := by
  unfold move_target dest_parts at h
  unfold move
  rw [hroot, hdest]
  dsimp only at h ⊢
  split
  · exact Confined.refl p fs root dest
  · rename_i leaf hleaf
    rw [hleaf] at h
    dsimp only at h
    split
    · exact Confined.refl p fs root dest
    · rename_i hdots
      rw [if_neg hdots] at h
      split
      · exact Confined.refl p fs root dest
      · rename_i hnul
        rw [if_neg hnul] at h
        split
        · exact Confined.refl p fs root dest
        · rename_i cur hopen
          rw [hopen] at h
          dsimp only at h
          have hmade := @descend_confined fs faults p root dest cur (attempt_ok hopen)
            (plain_parts hdots)
          unfold dest_parts at hmade
          split
          · exact hmade
          · exact hmade
          · rename_i dst hdst
            rw [hdst] at h
            dsimp only at h
            split
            · exact hmade
            · rename_i hleafnul
              rw [if_neg hleafnul] at h
              exact absurd h (by simp)

/-! ## Where the file is put -/

/-- A file is where the target says: under the target's last component, in the directory reached
from the folder by the components before it, none of which is a symbolic link or leads up. -/
structure Placed (p : Process) (fs fs' : FileSystem) (dir : Dir) (name root dest absolute : String) :
    Prop where
  relocated : Relocated p fs fs' dir name absolute
  below : ∃ cur dst dirs leaf i, open_nofollow fs p root = .ok cur ∧
    dest_parts dest = dirs ++ [leaf] ∧ (∀ part ∈ dest_parts dest, part ≠ ".." ∧ part ≠ ".") ∧
    walk_plain fs' cur dirs = .ok (.arrived dst) ∧ fs'.entry dst.inode leaf = some i ∧
    fs.entry dir.inode name = some i

/-- Nothing that was there is gone. -/
def NothingGone (fs fs' : FileSystem) : Prop := Keeps fs fs' fun _ _ => False

/-- A link and unlink add the target, if anything, and take no directory away. -/
structure Adds (fs fs' : FileSystem) (dst : Dir) (leaf : String) : Prop where
  branches : KeepsBranches fs fs'
  node : ∀ i n, fs.node i = some n → fs'.node i = some n
  added : ∀ d n i, fs'.entry d n = some i → fs.entry d n = some i ∨ (d = dst.inode ∧ n = leaf)

theorem link_adds {src dst : Dir} {i : Inode} (h : Linked fs src name dst leaf i) :
    Adds fs (fs.set_entry dst.inode leaf i) dst leaf := by
  refine ⟨?_, fun _ _ hn => hn, ?_⟩
  · intro d n j other hj hother _
    refine ⟨?_, hother⟩
    rw [FileSystem.entry_set_entry, if_neg]
    · exact hj
    · rintro ⟨rfl, rfl⟩
      rw [h.not_there] at hj
      exact absurd hj (by simp)
  · intro d n j hj
    rw [FileSystem.entry_set_entry] at hj
    by_cases hkey : d = dst.inode ∧ n = leaf
    · exact Or.inr hkey
    · rw [if_neg hkey] at hj
      exact Or.inl hj

/-- What is taken away behind a link is no directory. -/
theorem Adds.removed {dst : Dir} {dir : Inode} (h : Adds fs fs' dst leaf)
    (hleaf : ∀ i node, fs.entry dir name = some i → fs.node i = some node → node.is_branch = false) :
    Adds fs (fs'.remove_entry dir name) dst leaf := by
  refine ⟨?_, h.node, ?_⟩
  · intro d n j other hj hother hbranch
    obtain ⟨hj', hother'⟩ := h.branches d n j other hj hother hbranch
    refine ⟨?_, hother'⟩
    rw [FileSystem.entry_remove_entry, if_neg]
    · exact hj'
    · rintro ⟨rfl, rfl⟩
      rw [hleaf j other hj hother] at hbranch
      exact absurd hbranch (by simp)
  · intro d n j hj
    rw [FileSystem.entry_remove_entry] at hj
    by_cases hkey : d = dir ∧ n = name
    · rw [if_pos hkey] at hj
      exact absurd hj (by simp)
    · rw [if_neg hkey] at hj
      exact h.added d n j hj

theorem link_and_unlink_adds {src dst : Dir} {moved : String} {i : Inode} {node : Node}
    (hi : lookup fs src name = some i) (hnode : fs.node i = some node) (hsymlink : ∀ target, node ≠ .symlink target) :
    Adds fs (link_and_unlink fs faults src name dst leaf moved).fs dst leaf := by
  unfold link_and_unlink
  split
  · exact ⟨KeepsBranches.refl fs, fun _ _ hn => hn, fun _ _ _ h => Or.inl h⟩
  · rename_i fs' hlink
    obtain ⟨j, hlinked, rfl⟩ := link_linked (attempt_ok hlink)
    have hadds := link_adds hlinked
    have hj := hlinked.looked_up
    rw [hi, Option.some.injEq] at hj
    subst hj
    have hfile : node.is_branch = false := by
      cases node with
      | file _ => rfl
      | special _ _ => rfl
      | symlink target => exact absurd rfl (hsymlink target)
      | directory size => exact absurd hnode (hlinked.not_directory size)
    split
    · rename_i fs'' hunlink
      obtain ⟨_, hreserved, -, -, rfl⟩ := unlink_spec (attempt_ok hunlink)
      rw [lookup_eq_entry hreserved] at hi
      apply hadds.removed
      intro k other hk hother
      rw [hi, Option.some.injEq] at hk
      rw [← hk, hnode, Option.some.injEq] at hother
      rw [← hother]
      exact hfile
    · dsimp only
      split
      · rename_i fs'' hunlink
        obtain ⟨_, -, -, -, rfl⟩ := unlink_spec (attempt_ok hunlink)
        apply hadds.removed
        intro k other hk _
        rw [hlinked.not_there] at hk
        exact absurd hk (by simp)
      · exact hadds

/-- The way to the target of a move, before the link. -/
theorem target_confined {dst : Dir} (htarget : move_target p fs faults root dest = some (mid, dst, leaf)) :
    Confined p fs mid root dest ∧ (∀ part ∈ dest_parts dest, part ≠ ".." ∧ part ≠ ".") ∧
      dest_parts dest = (dest_parts dest).dropLast ++ [leaf] ∧ ∃ cur, open_nofollow fs p root = .ok cur ∧
        walk_plain mid cur (dest_parts dest).dropLast = .ok (.arrived dst) := by
  obtain ⟨hlast, hdots, -, -, cur, hopen, rfl, hdst⟩ := move_target_some htarget
  have hparts := plain_parts hdots
  exact ⟨descend_confined (attempt_ok hopen) hparts, hparts,
    (List.dropLast_append_getLast? _ hlast).symm, cur, attempt_ok hopen, descend_plain (directory_parts hparts) hdst⟩

/-- What is added behind the walk is the target. -/
theorem Confined.adds {cur dst : Dir} (h : Confined p fs mid root dest)
    (hadds : Adds mid fs' dst leaf) (hopen : open_nofollow fs p root = .ok cur)
    (hsplit : dest_parts dest = (dest_parts dest).dropLast ++ [leaf])
    (hwalk : walk_plain mid cur (dest_parts dest).dropLast = .ok (.arrived dst)) : Confined p fs fs' root dest := by
  intro d n i hi
  obtain hmid | ⟨hd, hn⟩ := hadds.added d n i hi
  · obtain hold | ⟨cur', dir, before, hopen', hbefore, hway, hd, hnode⟩ := h d n i hmid
    · exact Or.inl hold
    · refine Or.inr ⟨cur', dir, before, hopen', hbefore, walk_plain_keeps hadds.branches hway, hd, ?_⟩
      obtain hself | ⟨size, hsize⟩ := hnode
      · exact Or.inl hself
      · exact Or.inr ⟨size, hadds.node i _ hsize⟩
  · refine Or.inr ⟨cur, dst, (dest_parts dest).dropLast, hopen, ?_,
      walk_plain_keeps hadds.branches hwalk, hd, Or.inl ?_⟩
    · rw [hn, ← hsplit]
    · rw [hn, ← hsplit]

/-- **A move** of a file that has been re-checked, to a target that can name a file. -/
theorem move_placed {blake3 : ByteArray → String} {dir : Dir} {item : PlanItem} {i : Inode}
    {node : Node} (hfound : Rechecked blake3 fs dir name item i node) (hroot : root ≠ "")
    (hdest : dest ≠ "") (hname : names_directory dest = false) :
    let did := move p fs faults dir name (some root) (some dest)
    Confined p fs did.fs root dest ∧
      ((NothingGone fs did.fs ∧ ∀ detail, did.result ≠ .ok ("moved", detail)) ∨
        (Placed p fs did.fs dir name root dest (rstrip_slash root ++ "/" ++ dest) ∧
          did.result = .ok ("moved", rstrip_slash root ++ "/" ++ dest))) := by
  have hroot' : (some root).filter (fun r => r ≠ "") = some root := by simp [hroot]
  have hdest' : (some dest).filter (fun d => d ≠ "") = some dest := by simp [hdest]
  dsimp only
  cases htarget : move_target p fs faults root dest with
  | none =>
      obtain ⟨hsame, hstatus⟩ := @move_no_target fs p faults name dir (some root) (some dest) (by
        intro root' dest' h h'
        rw [hroot', Option.some.injEq] at h
        rw [hdest', Option.some.injEq] at h'
        rw [← h, ← h']
        exact htarget)
      refine ⟨move_made hroot' hdest' htarget, Or.inl ⟨hsame.keeps, fun detail hres => ?_⟩⟩
      obtain hdrift | hskip := hstatus _ _ hres
      · exact absurd hdrift (by decide)
      · exact absurd hskip (by decide)
  | some target =>
      obtain ⟨mid, dst, leaf⟩ := target
      obtain ⟨hfs, hresult⟩ := @move_at_target fs p faults name root dest leaf mid dir dst _ _ hroot'
        hdest' htarget
      obtain ⟨hconfined, hparts, hsplit, cur, hopen, hwalk⟩ := target_confined htarget
      obtain ⟨hsame, -, -, -⟩ := move_target_spec hroot htarget
      have hlooked : lookup mid dir name = some i := by
        by_cases hreserved : reserved name = true
        · -- a name that stands for a directory: looked up without the entries
          have hlstat := lstat_at_keeps hsame.keeps (fun _ h => h)
            (lstat_at_ok.mpr ⟨hfound.looked_up, hfound.found⟩)
          exact (lstat_at_ok.mp hlstat).1
        · rw [Bool.not_eq_true] at hreserved
          have hi := hfound.looked_up
          rw [lookup_eq_entry hreserved] at hi ⊢
          exact hsame.entry _ _ _ hi
      have hnode := hsame.node i node hfound.found
      have hadds := @link_and_unlink_adds mid faults leaf name dir dst (rstrip_slash root ++ "/" ++ dest)
        i node hlooked hnode hfound.not_symlink
      rw [hfs, hresult]
      refine ⟨hconfined.adds hadds hopen hsplit hwalk, ?_⟩
      obtain ⟨hkept, ⟨detail', hres⟩, -⟩ | ⟨j, hlinked, -, hdone⟩ :=
        link_and_unlink_exits mid faults dir name dst leaf (rstrip_slash root ++ "/" ++ dest)
      · rw [hres]
        refine Or.inl ⟨(hsame.trans hkept).keeps, fun detail h => ?_⟩
        exact absurd (Prod.mk.inj (Except.ok.inj h)).1 (by decide)
      · obtain ⟨hunlink, hres⟩ | ⟨-, -, hleft, detail', hres⟩ := hdone
        · refine Or.inr ⟨⟨?_, ?_⟩, hres⟩
          · have hcall := attempt_ok hunlink
            obtain ⟨_, hreserved, -, -, -⟩ := unlink_spec hcall
            have hi := hfound.looked_up
            rw [lookup_eq_entry hreserved] at hi
            exact (linked_relocated hroot htarget hi hfound.found hfound.not_symlink hlinked hcall).mpr
              hname
          · have hcall := attempt_ok hunlink
            obtain ⟨_, hreserved, -, -, hgone⟩ := unlink_spec hcall
            have hi := hfound.looked_up
            rw [lookup_eq_entry hreserved] at hi
            have hj := hlinked.looked_up
            rw [hlooked, Option.some.injEq] at hj
            refine ⟨cur, dst, (dest_parts dest).dropLast, leaf, i, hopen, hsplit, hparts,
              walk_plain_keeps hadds.branches hwalk, ?_, hi⟩
            rw [hgone, FileSystem.entry_remove_entry, if_neg, FileSystem.entry_set_entry,
              if_pos ⟨rfl, rfl⟩, hj]
            rintro ⟨hd, hn⟩
            have hnone := hlinked.not_there
            rw [hd, hn, hsame.entry _ _ _ hi] at hnone
            exact absurd hnone (by simp)
        · rw [hres, hleft]
          refine Or.inl ⟨?_, fun detail h => absurd (Prod.mk.inj (Except.ok.inj h)).1 (by decide)⟩
          refine ⟨fun k n hn => hsame.node k n hn, fun d n k hk _ => ?_⟩
          rw [FileSystem.entry_set_entry, if_neg]
          · exact hsame.entry d n k hk
          · rintro ⟨rfl, rfl⟩
            have hnone := hlinked.not_there
            rw [hsame.entry _ _ _ hk] at hnone
            exact absurd hnone (by simp)

/-- **A target with a dot or two** is refused, whatever the folder and the filesystem are. -/
theorem move_refused {src : Dir} (move_root : Option String) (h : ∃ part ∈ dest_parts dest, part = "." ∨ part = "..") :
    ∃ status detail, move p fs faults src name move_root (some dest) =
      ⟨fs, [], .ok (status, detail)⟩ ∧ status ≠ "moved" := by
  obtain ⟨part, hpart, hdot⟩ := h
  unfold move
  split
  · rename_i root dest' _ hdest
    obtain rfl : dest = dest' := Option.some.inj (Option.eq_some_of_filter_eq_some hdest)
    have hany : ((((dest.toList.splitOn '/').map String.ofList).filter fun part => part ≠ "").any
        fun part => part = ".." ∨ part = ".") = true := by
      rw [List.any_eq_true]
      refine ⟨part, hpart, ?_⟩
      obtain rfl | rfl := hdot
      · decide
      · decide
    dsimp only
    split
    · exact ⟨_, _, rfl, by decide⟩
    · rw [if_pos hany]
      exact ⟨_, _, rfl, by decide⟩
  · exact ⟨_, _, rfl, by decide⟩

/-! ## An approved item -/

/-- Plain components as the parts of a target. -/
theorem dest_parts_plain {rest : List Char} (h : ∀ c ∈ rest.splitOn '/', Plain c) :
    dest_parts (String.ofList rest) = (rest.splitOn '/').map String.ofList := by
  rw [dest_parts, String.toList_ofList, List.filter_eq_self]
  intro part hpart
  obtain ⟨c, hc, rfl⟩ := List.mem_map.mp hpart
  simp only [decide_eq_true_eq]
  intro hempty
  apply (h c hc).ne_nil
  rw [← String.toList_ofList (l := c), hempty]
  rfl

theorem names_directory_plain {rest : List Char} (h : ∀ c ∈ rest.splitOn '/', Plain c) :
    names_directory (String.ofList rest) = false := by
  rw [names_directory, String.toList_ofList]
  split
  · rename_i last hlast
    have hplain := h last (List.mem_of_getLast? hlast)
    simp [hplain.ne_nil, hplain.ne_dot]
  · rfl

/-- The parts of a target say what it is. -/
theorem plain_parts_inj {rest rest' : List Char} (h : ∀ c ∈ rest.splitOn '/', Plain c)
    (h' : ∀ c ∈ rest'.splitOn '/', Plain c)
    (heq : dest_parts (String.ofList rest) = dest_parts (String.ofList rest')) : rest = rest' := by
  rw [dest_parts_plain h, dest_parts_plain h'] at heq
  have hsplit : rest.splitOn '/' = rest'.splitOn '/' :=
    List.map_injective_iff.mpr (fun a b hab => String.ofList_injective hab) heq
  have hjoin : ['/'].intercalate (rest.splitOn '/') = rest := List.intercalate_splitOn '/'
  rw [← hjoin, hsplit]
  exact List.intercalate_splitOn '/'

theorem rstrip_slash_ofList (text : List Char) :
    rstrip_slash (String.ofList (rstrip text)) = String.ofList (rstrip text) := by
  rw [rstrip_slash, String.toList_ofList]
  congr 1
  exact List.rdropWhile_idempotent (fun c => decide (c = '/')) text

/-- What an act with a move may leave: all files are where they were and it does not say that it
has moved one, or its file is where the target says, and it says no other. -/
def MovedOrKept (blake3 : ByteArray → String) (executor : Executor) (p : Process) (fs : FileSystem)
    (chain : AuditChain) (faults : Faults) (now now' : Timestamp) (plan : RemediationPlan)
    (item : PlanItem) (root dest absolute : String) : Prop :=
  let acted := act blake3 executor p fs chain faults now now' plan item
  Confined p fs acted.fs root dest ∧
    ((NothingGone fs acted.fs ∧
        ∀ result records, acted.result = .ok (result, records) → result.status ≠ "moved") ∨
      ∃ dir, open_parent fs p item.path = .ok dir ∧
        Placed p fs acted.fs dir (path_name item.path) root dest absolute ∧
        ∀ result records, acted.result = .ok (result, records) →
          result.status = "moved" ∧ result.detail = absolute)

theorem act_moved_or_kept {blake3 : ByteArray → String} {executor : Executor} {chain : AuditChain}
    {now now' : Timestamp} {plan : RemediationPlan} {item : PlanItem} (hroot : root ≠ "")
    (hdest : dest ≠ "") (hname : names_directory dest = false) (haction : item.action = .move)
    (hplan : plan.move_root = some root) (hitem : item.dest_rel = some dest) :
    MovedOrKept blake3 executor p fs chain faults now now' plan item root dest (rstrip_slash root ++ "/" ++ dest) := by
  have hmove : ∀ dir, mutate executor p fs faults dir (path_name item.path) plan item =
      move p fs faults dir (path_name item.path) (some root) (some dest) := by
    intro dir
    rw [mutate, haction, hplan, hitem]
  have hplaced : ∀ dir, recheck blake3 fs faults dir (path_name item.path) item = none → _ :=
    fun dir hrecheck =>
      let ⟨_, _, hfound⟩ := recheck_spec hrecheck
      @move_placed fs faults p root dest (path_name item.path) blake3 dir item _ _ hfound hroot hdest
        hname
  have hkept : Confined p fs fs root dest ∧ NothingGone fs fs :=
    ⟨Confined.refl p fs root dest, Keeps.refl fs _⟩
  unfold MovedOrKept
  dsimp only
  have hexit := @act_exit blake3 executor p fs chain faults now now' plan item
  generalize act blake3 executor p fs chain faults now now' plan item = acted at hexit ⊢
  cases hexit with
  | stopped e he => exact ⟨hkept.1, Or.inl ⟨hkept.2, fun _ _ h => absurd h (by simp)⟩⟩
  | drifted dir drift hopen hdrift =>
      refine ⟨hkept.1, Or.inl ⟨hkept.2, fun result records h => ?_⟩⟩
      rw [← (Prod.mk.inj (Except.ok.inj h)).1]
      have hne : "aborted_drift" ≠ "moved" := by decide
      exact hne
  | raised dir e hopen hrecheck hmutate =>
      obtain ⟨hconfined, ⟨hgone, -⟩ | ⟨-, hresult⟩⟩ := hplaced dir hrecheck
      · rw [hmove]
        exact ⟨hconfined, Or.inl ⟨hgone, fun _ _ h => absurd h (by simp)⟩⟩
      · rw [hmove, hresult] at hmutate
        exact absurd hmutate (by simp)
  | unrecorded dir status detail hopen hrecheck hmutate =>
      obtain ⟨hconfined, ⟨hgone, -⟩ | ⟨hput, -⟩⟩ := hplaced dir hrecheck
      · rw [hmove]
        exact ⟨hconfined, Or.inl ⟨hgone, fun _ _ h => absurd h (by simp)⟩⟩
      · rw [hmove]
        exact ⟨hconfined, Or.inr ⟨dir, hopen, hput, fun _ _ h => absurd h (by simp)⟩⟩
  | done dir status detail hopen hrecheck hmutate =>
      rw [hmove] at hmutate
      obtain ⟨hconfined, ⟨hgone, hnot⟩ | ⟨hput, hresult⟩⟩ := hplaced dir hrecheck
      · rw [hmove]
        refine ⟨hconfined, Or.inl ⟨hgone, fun result records h => ?_⟩⟩
        rw [← (Prod.mk.inj (Except.ok.inj h)).1]
        rintro rfl
        exact hnot detail hmutate
      · rw [hresult, Except.ok.injEq, Prod.mk.injEq] at hmutate
        rw [hmove]
        refine ⟨hconfined, Or.inr ⟨dir, hopen, hput, fun result records h => ?_⟩⟩
        rw [← (Prod.mk.inj (Except.ok.inj h)).1]
        exact ⟨hmutate.1.symm, hmutate.2.symm⟩

/-- An approved item and what it says about its target. -/
theorem Approved.target {root : List Char} {by_id : ℕ → Option Fathom.Catalogue.FsEntryRow}
    {moves : List ApprovedMove} {item : PlanItem} {absolute : List Char} (h : Approved root by_id moves item absolute) :
    ∃ rest, absolute = rstrip root ++ '/' :: rest ∧ (∀ c ∈ rest.splitOn '/', Plain c) ∧
      item.dest_rel = some (String.ofList rest) := by
  obtain ⟨_, -, entry, hash, -, hclamp, rfl⟩ := h
  obtain ⟨-, rest, hrest, hplain⟩ := clamp_move_target_spec hclamp
  refine ⟨rest, hrest, hplain, ?_⟩
  rw [move_item, hrest, ← List.singleton_append, ← List.append_assoc, List.drop_append_of_le_length]
  · simp
  · simp

/-- Each item has its target. -/
theorem target_of_mem {R : PlanItem → List Char → Prop} {items : List PlanItem}
    {targets : List (List Char)} (h : List.Forall₂ R items targets) {item : PlanItem}
    (hitem : item ∈ items) : ∃ absolute ∈ targets, R item absolute := by
  induction h with
  | nil => exact absurd hitem List.not_mem_nil
  | cons hfirst hrest ih =>
      obtain rfl | hmem := List.mem_cons.mp hitem
      · exact ⟨_, List.mem_cons_self, hfirst⟩
      · obtain ⟨absolute, hin, hR⟩ := ih hmem
        exact ⟨absolute, List.mem_cons_of_mem _ hin, hR⟩

theorem entries_by_id_id {rows : List Joined} {volume_id id : ℕ} {entry_ids : List ℕ}
    {base : List Char} {scope : Option Fathom.Auth.ScopeFilter} {entry : Fathom.Catalogue.FsEntryRow}
    (h : entries_by_id rows volume_id entry_ids base scope id = some entry) : entry.id = id := by
  obtain ⟨j, hj, rfl⟩ := Option.map_eq_some_iff.mp h
  simpa using List.find?_some hj

/-- **Move confinement.** The targets of an accepted plan are pairwise distinct; an act on an item of
it leaves every file where it was or puts its file at the target the server has clamped, below the
folder, whatever the directory tree is; and a target with a dot or two among its components is
refused. -/
theorem move_confinement {rows : List Joined} {plan_id created_by root : String} {volume_id : ℕ}
    {moves : List ApprovedMove} {scope : Option Fathom.Auth.ScopeFilter} {build : MovePlanBuild}
    (h : build_move_plan rows plan_id created_by volume_id root moves scope = .ok build) :
    (build.plan.items.Pairwise fun a b => a.dest_rel.map dest_parts ≠ b.dest_rel.map dest_parts) ∧
    (∀ item ∈ build.plan.items, ∃ move ∈ moves, ∃ base dest absolute,
      build.plan.move_root = some base ∧ base ≠ "" ∧ item.entry_id = .int move.entry_id ∧
      item.dest_rel = some dest ∧
      clamp_move_target root.toList move.dest_rel.toList = some absolute.toList ∧
      absolute = base ++ "/" ++ dest ∧
      ∀ blake3 executor p fs chain faults now now' (plan : RemediationPlan),
        plan.move_root = build.plan.move_root →
        MovedOrKept blake3 executor p fs chain faults now now' plan item base dest absolute) ∧
    ∀ p fs faults src name move_root dest, (∃ part ∈ dest_parts dest, part = "." ∨ part = "..") →
      ∃ status detail, Actor.move p fs faults src name move_root (some dest) =
        ⟨fs, [], .ok (status, detail)⟩ ∧ status ≠ "moved" := by
  obtain ⟨hroot, targets, hnodup, hitems⟩ := build_move_plan_spec h
  refine ⟨?_, ?_, fun p fs faults src name move_root dest => move_refused move_root⟩
  · -- two items have two targets
    clear h hroot
    generalize build.plan.items = items at hitems
    induction hitems with
    | nil => exact List.Pairwise.nil
    | @cons item absolute items targets happroved hrest ih =>
        obtain ⟨hnew, hnodup⟩ := List.nodup_cons.mp hnodup
        refine List.Pairwise.cons ?_ (ih hnodup)
        intro other hother heq
        obtain ⟨absolute', hmem, happroved'⟩ := target_of_mem hrest hother
        obtain ⟨rest, rfl, hplain, hdest⟩ := happroved.target
        obtain ⟨rest', rfl, hplain', hdest'⟩ := happroved'.target
        rw [hdest, hdest', Option.map_some, Option.map_some, Option.some.injEq] at heq
        rw [plain_parts_inj hplain hplain' heq] at hnew
        exact hnew hmem
  · intro item hitem
    obtain ⟨absolute, -, happroved⟩ := target_of_mem hitems hitem
    obtain ⟨rest, habsolute, hplain, hdest⟩ := happroved.target
    obtain ⟨move, hmove, entry, hash, hentry, hclamp, rfl⟩ := happroved
    obtain ⟨hbase, -⟩ := clamp_move_target_spec hclamp
    have hbase' : String.ofList (rstrip root.toList) ≠ "" := by
      intro hempty
      apply hbase
      rw [← String.toList_ofList (l := rstrip root.toList), hempty]
      rfl
    have hname := names_directory_plain hplain
    have htext : String.ofList absolute =
        String.ofList (rstrip root.toList) ++ "/" ++ String.ofList rest := by
      rw [habsolute]
      apply String.toList_inj.mp
      simp
    refine ⟨move, hmove, _, String.ofList rest, String.ofList absolute, hroot, hbase', ?_, hdest, ?_,
      htext, ?_⟩
    · rw [move_item, entries_by_id_id hentry]
    · rw [String.toList_ofList]
      exact hclamp
    · intro blake3 executor p fs chain faults now now' plan hplan
      rw [htext, ← rstrip_slash_ofList]
      have hne : String.ofList rest ≠ "" := by
        intro hempty
        rw [hempty] at hname
        exact absurd hname (by decide)
      have hdone := @act_moved_or_kept fs faults p _ _ blake3 executor chain now now' plan _ hbase' hne
        hname rfl (hplan.trans hroot) hdest
      rw [rstrip_slash_ofList] at hdone ⊢
      exact hdone

/-! ### A move into a subfolder -/

/-- A file of a folder. -/
def report_row : Fathom.Catalogue.FsEntryRow where
  id := 7
  host_id := 1
  volume_id := 3
  path := "/data/r.txt"
  is_dir := false
  present := true
  size_logical := 3
  inode := 11
  full_hash := some "9f"

/-- The file of `report_row`, moved to a subfolder. -/
theorem move_confinement_report :
    ∃ build, build_move_plan [(report_row, "data")] "org-1" "operator" 3 "/data/"
        [⟨7, "a/../b/r.txt"⟩] none = .ok build ∧
      (build.plan.items.Pairwise fun a b => a.dest_rel.map dest_parts ≠ b.dest_rel.map dest_parts) ∧
      (∀ item ∈ build.plan.items, ∃ move ∈ [(⟨7, "a/../b/r.txt"⟩ : ApprovedMove)],
        ∃ base dest absolute,
        build.plan.move_root = some base ∧ base ≠ "" ∧ item.entry_id = .int move.entry_id ∧
        item.dest_rel = some dest ∧
        clamp_move_target "/data/".toList move.dest_rel.toList = some absolute.toList ∧
        absolute = base ++ "/" ++ dest ∧
        ∀ blake3 executor p fs chain faults now now' (plan : RemediationPlan),
          plan.move_root = build.plan.move_root →
          MovedOrKept blake3 executor p fs chain faults now now' plan item base dest absolute) ∧
      ∀ p fs faults src name move_root dest, (∃ part ∈ dest_parts dest, part = "." ∨ part = "..") →
        ∃ status detail, Actor.move p fs faults src name move_root (some dest) =
          ⟨fs, [], .ok (status, detail)⟩ ∧ status ≠ "moved" := by
  have hbuilt : ∃ build, build_move_plan [(report_row, "data")] "org-1" "operator" 3 "/data/"
      [⟨7, "a/../b/r.txt"⟩] none = .ok build := by
    cases hplan : build_move_plan [(report_row, "data")] "org-1" "operator" 3 "/data/"
        [⟨7, "a/../b/r.txt"⟩] none with
    | ok build => exact ⟨build, rfl⟩
    | error e =>
        have hok : (build_move_plan [(report_row, "data")] "org-1" "operator" 3 "/data/"
            [⟨7, "a/../b/r.txt"⟩] none).isOk = true := by decide +kernel
        rw [hplan] at hok
        exact absurd hok (by simp [Except.isOk, Except.toBool])
  obtain ⟨build, hbuild⟩ := hbuilt
  exact ⟨build, hbuild, move_confinement hbuild⟩

end Fathom.Organize
