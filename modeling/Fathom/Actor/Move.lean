/-
**What a move does** (`Executor._move`), at every one of its exits.

A move makes the directories of its destination, links the file there and unlinks
the source. Up to the link only directories are added (`SameFiles`); where it comes to
its link is `move_target`. From there on it has the file under its new name and not
under its old one, or it has taken the link back, or -- when taking it back is refused
as well -- it leaves the file under both names (`link_and_unlink_exits`).

That the reported path leads to the file is a statement about texts: the root is
opened as the kernel opens it, the components are opened one by one, and the report
is the root without its slashes, a slash, and `dest_rel` as it was signed.
-/
import Fathom.Actor.Executor
import Fathom.Lib.Lookup
import Mathlib.Data.List.TakeWhile

set_option autoImplicit false

namespace Fathom.Actor

open Fathom.Filesystem
open Fathom.Remediation

/-! ## Only directories are added -/

/-- What `fs` has, `fs'` has, and what `fs'` has more is new directories. -/
structure SameFiles (fs fs' : FileSystem) : Prop where
  node : ∀ i n, fs.node i = some n → fs'.node i = some n
  entry : ∀ dir name i, fs.entry dir name = some i → fs'.entry dir name = some i
  back : ∀ dir name i, fs'.entry dir name = some i →
    fs.entry dir name = some i ∨
      (fs.entry dir name = none ∧ ∃ size, fs'.node i = some (.directory size))

variable {fs fs' : FileSystem} {p : Process} {faults : Faults} {name root dest leaf : String}

theorem SameFiles.refl (fs : FileSystem) : SameFiles fs fs :=
  ⟨fun _ _ h => h, fun _ _ _ h => h, fun _ _ _ h => Or.inl h⟩

theorem SameFiles.trans {fs'' : FileSystem} (h : SameFiles fs fs') (h' : SameFiles fs' fs'') :
    SameFiles fs fs'' := by
  refine ⟨fun i n hn => h'.node i n (h.node i n hn), fun d n i hi =>
    h'.entry d n i (h.entry d n i hi), ?_⟩
  intro d n i hi
  rcases h'.back d n i hi with hmid | ⟨hnone, size, hsize⟩
  · rcases h.back d n i hmid with hold | ⟨hnone, size, hsize⟩
    · exact Or.inl hold
    · exact Or.inr ⟨hnone, size, h'.node i _ hsize⟩
  · refine Or.inr ⟨?_, size, hsize⟩
    rcases hold : fs.entry d n with _ | j
    · rfl
    · rw [h.entry d n j hold] at hnone
      exact absurd hnone (by simp)

theorem SameFiles.keeps (h : SameFiles fs fs') : Keeps fs fs' fun _ _ => False :=
  ⟨h.node, fun d n i hi _ => h.entry d n i hi⟩

theorem SameFiles.branches (h : SameFiles fs fs') : KeepsBranches fs fs' :=
  fun d n i node hi hnode _ => ⟨h.entry d n i hi, h.node i node hnode⟩

theorem mkdir_same_files {dir : Dir} (h : mkdir fs dir name = .ok fs') : SameFiles fs fs' := by
  have hkeeps := mkdir_keeps h
  obtain ⟨hnone, rfl⟩ := mkdir_spec h
  refine ⟨hkeeps.node, fun d n i hi => hkeeps.entry d n i hi id, ?_⟩
  intro d n i hi
  rw [FileSystem.entry_set_entry] at hi
  by_cases hkey : d = dir.inode ∧ n = name
  · rw [if_pos hkey, Option.some.injEq] at hi
    refine Or.inr ⟨by rw [hkey.1, hkey.2, hnone], 0, ?_⟩
    rw [← hi, FileSystem.node_set_entry, FileSystem.new_directory]
    exact Function.update_self ..
  · rw [if_neg hkey] at hi
    exact Or.inl hi

theorem make_component_same_files (fs : FileSystem) (fault : Option Errno) (cur : Dir)
    (name : String) : SameFiles fs (make_component fs fault cur name).fs := by
  unfold make_component
  split_ifs
  · exact SameFiles.refl fs
  · split
    · exact SameFiles.refl fs
    · rename_i fs' hmkdir
      exact mkdir_same_files (attempt_ok hmkdir)

theorem descend_same_files (faults : Faults) (fs : FileSystem) (cur : Dir) (k : ℕ)
    (names : List String) : SameFiles fs (descend faults fs cur k names).fs := by
  induction names generalizing fs cur k with
  | nil => exact SameFiles.refl fs
  | cons name names ih =>
      have hmade := make_component_same_files fs (faults.mkdir k) cur name
      rw [descend]
      dsimp only
      split
      · exact hmade
      · split
        · exact hmade
        · exact hmade.trans (ih _ _ _)

/-! ## The destination directory -/

/-- Opened without following a link, a name leads to a directory of its own. -/
theorem open_nofollow_at_plain {dir next : Dir} (hempty : name ≠ "") (hdot : name ≠ ".")
    (h : open_nofollow_at fs dir name = .ok next) : walk_plain fs dir [name] = .ok (.arrived next) := by
  unfold open_nofollow_at at h
  by_cases hup : name = ".."
  · rw [if_pos hup] at h
    rw [walk_plain, if_pos hup, Except.ok.inj h]
    rfl
  · rw [if_neg hup] at h
    split at h
    · rename_i i size hlstat
      obtain ⟨hi, hnode⟩ := lstat_at_ok.mp hlstat
      rw [lookup_eq_entry (by simp [reserved, hempty, hdot, hup])] at hi
      rw [walk_plain, if_neg hup, hi]
      dsimp only
      rw [hnode, ← Except.ok.inj h]
      rfl
    · exact absurd h (by simp)
    · exact absurd h (by simp)

theorem mem_split_path {path : String} (h : name ∈ split_path path) :
    name ≠ "" ∧ name ≠ "." := of_decide_eq_true (List.mem_filter.mp h).2

/-- The root of a move is where its path leads. -/
theorem open_nofollow_walk {path : String} {dir : Dir} (hpath : path ≠ "")
    (h : open_nofollow fs p path = .ok dir) :
    walk fs p.root max_links (p.start p.cwd path) (split_path path) = .ok dir := by
  unfold open_nofollow at h
  split at h
  · rw [open_directory, if_neg hpath] at h
    exact h
  · split at h
    · rename_i parent name hlocate
      unfold locate locate_at at hlocate
      split at hlocate
      · exact absurd hlocate (by simp)
      · rename_i last hlast
        split at hlocate
        · rename_i parent' hparent
          obtain ⟨rfl, rfl⟩ := Prod.mk.inj (Except.ok.inj hlocate)
          obtain ⟨hempty, hdot⟩ := mem_split_path (List.mem_of_getLast? hlast)
          rw [← List.dropLast_append_getLast? _ hlast]
          exact walk_append_plain hparent (open_nofollow_at_plain hempty hdot h)
        · exact absurd hlocate (by simp)
    · exact absurd h (by simp)

/-- The components behind it are directories, one in the other. -/
theorem descend_plain {cur dst : Dir} {k : ℕ} {names : List String} (hnames : ∀ name ∈ names, name ≠ "" ∧ name ≠ ".")
    (h : (descend faults fs cur k names).result = .ok dst) :
    walk_plain (descend faults fs cur k names).fs cur names = .ok (.arrived dst) := by
  induction names generalizing fs cur k with
  | nil =>
      rw [descend] at h ⊢
      rw [Except.ok.inj h]
      rfl
  | cons name names ih =>
      obtain ⟨⟨hempty, hdot⟩, hrest⟩ := List.forall_mem_cons.mp hnames
      rw [descend] at h ⊢
      dsimp only at h ⊢
      split at h
      · exact absurd h (by simp)
      · rename_i hmade
        split at h
        · exact absurd h (by simp)
        · rename_i next hopen
          dsimp only at h
          have hplain := open_nofollow_at_plain hempty hdot (attempt_ok hopen)
          have hkept := walk_plain_keeps (descend_same_files faults _ next (k + 1) names).branches
            hplain
          have htail := ih hrest h
          dsimp only
          rw [← List.singleton_append, walk_plain_append, hkept]
          exact htail

/-! ## The reported path -/

theorem split_path_slashes (a : String) (n : ℕ) :
    split_path (a ++ String.ofList (List.replicate n '/')) = split_path a := by
  induction n generalizing a with
  | zero => rw [List.replicate_zero, String.ofList_nil, String.append_empty]
  | succ n ih =>
      have htext : a ++ String.ofList (List.replicate (n + 1) '/') =
          a ++ "/" ++ String.ofList (List.replicate n '/') := by
        apply String.toList_inj.mp
        simp [List.replicate_succ]
      have hempty := ih ""
      rw [String.empty_append, show split_path "" = [] from rfl] at hempty
      rw [htext, split_path_append_slash, hempty, List.append_nil]

/-- A text is what `rstrip_slash` leaves of it and slashes. -/
theorem rstrip_slash_spec (text : String) : ∃ n, text = rstrip_slash text ++ String.ofList (List.replicate n '/') := by
  refine ⟨(text.toList.reverse.takeWhile fun c => c = '/').length, ?_⟩
  have hslashes : List.replicate (text.toList.reverse.takeWhile fun c => c = '/').length '/' =
      (text.toList.reverse.takeWhile fun c => c = '/').reverse := by
    symm
    rw [List.eq_replicate_iff]
    refine ⟨List.length_reverse, fun c hc => ?_⟩
    have hslash := List.mem_takeWhile_imp (List.mem_reverse.mp hc)
    simpa using hslash
  apply String.toList_inj.mp
  rw [String.toList_append, rstrip_slash, String.toList_ofList, String.toList_ofList, hslashes,
    ← List.reverse_append, List.takeWhile_append_dropWhile, List.reverse_reverse]

theorem split_path_rstrip_slash (text : String) : split_path (rstrip_slash text) = split_path text := by
  obtain ⟨n, hn⟩ := rstrip_slash_spec text
  have hsplit := split_path_slashes (rstrip_slash text) n
  rw [← hn] at hsplit
  exact hsplit.symm

/-- The report starts where the root does. -/
theorem is_absolute_rstrip_slash (hroot : root ≠ "") (rest : String) :
    is_absolute (rstrip_slash root ++ "/" ++ rest) = is_absolute root := by
  obtain ⟨n, hn⟩ := rstrip_slash_spec root
  rw [is_absolute, is_absolute, String.toList_append, String.toList_append]
  conv_rhs => rw [hn, String.toList_append, String.toList_ofList]
  cases hstrip : (rstrip_slash root).toList with
  | cons c cs => rfl
  | nil =>
      cases n with
      | succ n => rfl
      | zero =>
          refine absurd ?_ hroot
          rw [hn, List.replicate_zero, String.ofList_nil, String.append_empty]
          exact String.toList_inj.mp hstrip

/-- The parts of a `dest_rel`. -/
def dest_parts (dest : String) : List String :=
  ((dest.toList.splitOn '/').map String.ofList).filter fun part => part ≠ ""

theorem split_path_dest (h : ∀ part ∈ dest_parts dest, part ≠ ".") : split_path dest = dest_parts dest := by
  rw [split_path, dest_parts]
  apply List.filter_congr
  intro part hpart
  by_cases hempty : part = ""
  · simp [hempty]
  · have hdot := h part (List.mem_filter.mpr ⟨hpart, by simpa using hempty⟩)
    simp [hempty, hdot]

/-! ## The exits -/

/-- A link that is taken back leaves nothing. -/
theorem link_undone {dir i : Inode} (hnone : fs.entry dir name = none) :
    SameFiles fs ((fs.set_entry dir name i).remove_entry dir name) := by
  have hentry : ∀ d n, ((fs.set_entry dir name i).remove_entry dir name).entry d n =
      fs.entry d n := by
    intro d n
    rw [FileSystem.entry_remove_entry, FileSystem.entry_set_entry]
    by_cases hkey : d = dir ∧ n = name
    · rw [if_pos hkey, hkey.1, hkey.2, hnone]
    · rw [if_neg hkey, if_neg hkey]
  refine ⟨fun _ _ h => h, fun d n j hj => ?_, fun d n j hj => Or.inl ?_⟩
  · rw [hentry]
    exact hj
  · rw [hentry] at hj
    exact hj

/-- A file has been linked to its destination. -/
structure Linked (fs : FileSystem) (src : Dir) (name : String) (dst : Dir) (leaf : String)
    (i : Inode) : Prop where
  looked_up : lookup fs src name = some i
  not_there : fs.entry dst.inode leaf = none
  leaf_name : reserved leaf = false
  not_directory : ∀ size, fs.node i ≠ some (.directory size)

theorem link_linked {src dst : Dir} (h : link fs src name dst leaf = .ok fs') :
    ∃ i, Linked fs src name dst leaf i ∧ fs' = fs.set_entry dst.inode leaf i := by
  obtain ⟨i, hi, hnone, hdir, rfl⟩ := link_spec h
  refine ⟨i, ⟨hi, hnone, ?_, hdir⟩, rfl⟩
  rcases hreserved : reserved leaf with _ | _
  · rfl
  · unfold link at h
    rw [hi] at h
    dsimp only at h
    split_ifs at h

/-- **The exits of a link and unlink**: nothing is changed, or the file is moved, or it is left
under both names. -/
theorem link_and_unlink_exits (fs : FileSystem) (faults : Faults) (src : Dir) (name : String)
    (dst : Dir) (leaf moved : String) :
    let did := link_and_unlink fs faults src name dst leaf moved
    (SameFiles fs did.fs ∧ (∃ detail, did.result = .ok ("aborted_drift", detail)) ∧
      ∀ linked, attempt faults.link (link fs src name dst leaf) = .ok linked →
        (∃ e, attempt faults.unlink_source (unlink linked src name) = .error e) ∧
          faults.unlink_leaf = none) ∨
    ∃ i, Linked fs src name dst leaf i ∧
      attempt faults.link (link fs src name dst leaf) = .ok (fs.set_entry dst.inode leaf i) ∧
      ((attempt faults.unlink_source (unlink (fs.set_entry dst.inode leaf i) src name) =
            .ok did.fs ∧ did.result = .ok ("moved", moved)) ∨
        ((∃ e, attempt faults.unlink_source (unlink (fs.set_entry dst.inode leaf i) src name) =
            .error e) ∧ faults.unlink_leaf ≠ none ∧ did.fs = fs.set_entry dst.inode leaf i ∧
          ∃ detail, did.result = .ok ("aborted_drift", detail))) := by
  dsimp only
  unfold link_and_unlink
  split
  · rename_i e hlink
    refine Or.inl ⟨SameFiles.refl fs, ⟨_, rfl⟩, fun linked hlinked => ?_⟩
    rw [hlink] at hlinked
    exact absurd hlinked (by simp)
  · rename_i fs' hlink
    obtain ⟨i, hlinked, rfl⟩ := link_linked (attempt_ok hlink)
    split
    · rename_i fs'' hunlink
      exact Or.inr ⟨i, hlinked, hlink, Or.inl ⟨hunlink, rfl⟩⟩
    · rename_i e hunlink
      -- the leaf that was just linked can be unlinked, but for the fault
      have hleaf : unlink (fs.set_entry dst.inode leaf i) dst leaf =
          .ok ((fs.set_entry dst.inode leaf i).remove_entry dst.inode leaf) := by
        have hname : leaf ≠ "" := by
          rintro rfl
          exact absurd hlinked.leaf_name (by decide)
        rw [unlink, if_neg hname, if_neg (by simp [hlinked.leaf_name]),
          FileSystem.entry_set_entry, if_pos ⟨rfl, rfl⟩]
        dsimp only
        split
        · rename_i size hdir
          exact absurd hdir (hlinked.not_directory size)
        · rfl
      dsimp only
      rw [hleaf]
      cases hfault : faults.unlink_leaf with
      | none =>
          refine Or.inl ⟨link_undone hlinked.not_there, ⟨_, rfl⟩, fun linked hcall => ?_⟩
          rw [hlink, Except.ok.injEq] at hcall
          rw [← hcall]
          exact ⟨⟨e, hunlink⟩, rfl⟩
      | some e' =>
          exact Or.inr ⟨i, hlinked, hlink, Or.inr ⟨⟨e, hunlink⟩, by simp, rfl, ⟨_, rfl⟩⟩⟩

/-- Where a move comes to its link: the filesystem with the directories made, the directory
and the name of the destination. -/
def move_target (p : Process) (fs : FileSystem) (faults : Faults) (root dest : String) :
    Option (FileSystem × Dir × String) :=
  match (dest_parts dest).getLast? with
  | none => none
  | some leaf =>
    if (dest_parts dest).any fun part => part = ".." ∨ part = "." then none
    else if has_nul root then none
    else
      match attempt faults.open_root (open_nofollow fs p root) with
      | .error _ => none
      | .ok cur =>
        let there := descend faults fs cur 0 (dest_parts dest).dropLast
        match there.result with
        | .error _ => none
        | .ok dst => if has_nul leaf then none else some (there.fs, dst, leaf)

/-- How a move comes to its link. -/
theorem move_target_some {mid : FileSystem} {dst : Dir}
    (h : move_target p fs faults root dest = some (mid, dst, leaf)) :
    (dest_parts dest).getLast? = some leaf ∧
      ¬((dest_parts dest).any fun part => part = ".." ∨ part = ".") = true ∧
      ¬has_nul root = true ∧ ¬has_nul leaf = true ∧
      ∃ cur, attempt faults.open_root (open_nofollow fs p root) = .ok cur ∧
        mid = (descend faults fs cur 0 (dest_parts dest).dropLast).fs ∧
        (descend faults fs cur 0 (dest_parts dest).dropLast).result = .ok dst := by
  unfold move_target at h
  split at h
  · exact absurd h (by simp)
  · rename_i last hlast
    by_cases hdots : (dest_parts dest).any fun part => part = ".." ∨ part = "."
    · rw [if_pos hdots] at h
      exact absurd h (by simp)
    · rw [if_neg hdots] at h
      by_cases hnul : has_nul root = true
      · rw [if_pos hnul] at h
        exact absurd h (by simp)
      · rw [if_neg hnul] at h
        split at h
        · exact absurd h (by simp)
        · rename_i cur hopen
          dsimp only at h
          split at h
          · exact absurd h (by simp)
          · rename_i dst' hdst
            by_cases hleafnul : has_nul last = true
            · rw [if_pos hleafnul] at h
              exact absurd h (by simp)
            · rw [if_neg hleafnul, Option.some.injEq, Prod.mk.injEq, Prod.mk.injEq] at h
              obtain ⟨rfl, rfl, rfl⟩ := h
              exact ⟨hlast, hdots, hnul, hleafnul, cur, hopen, rfl, hdst⟩

theorem plain_parts (h : ¬((dest_parts dest).any fun part => part = ".." ∨ part = ".") = true) :
    ∀ part ∈ dest_parts dest, part ≠ ".." ∧ part ≠ "." := by
  intro part hpart
  rw [Bool.not_eq_true, List.any_eq_false] at h
  simpa [not_or] using h part hpart

theorem directory_parts (hparts : ∀ part ∈ dest_parts dest, part ≠ ".." ∧ part ≠ ".") :
    ∀ name ∈ (dest_parts dest).dropLast, name ≠ "" ∧ name ≠ "." := by
  intro name hname
  have hmem := (List.dropLast_sublist _).subset hname
  exact ⟨by simpa using (List.mem_filter.mp hmem).2, (hparts name hmem).2⟩

/-- The target of a move is reached from the root by the parts of `dest_rel`, and only
directories have been made. -/
theorem move_target_spec {mid : FileSystem} {dst : Dir} (hroot : root ≠ "")
    (h : move_target p fs faults root dest = some (mid, dst, leaf)) :
    SameFiles fs mid ∧ (dest_parts dest).getLast? = some leaf ∧ (∀ part ∈ dest_parts dest, part ≠ ".." ∧ part ≠ ".") ∧
      walk mid p.root max_links (p.start p.cwd root) (split_path root ++ (dest_parts dest).dropLast) = .ok dst := by
  obtain ⟨hlast, hdots, -, -, cur, hopen, rfl, hdst⟩ := move_target_some h
  have hsame := descend_same_files faults fs cur 0 (dest_parts dest).dropLast
  have hparts := plain_parts hdots
  have hwalk := walk_keeps hsame.branches (open_nofollow_walk hroot (attempt_ok hopen))
  exact ⟨hsame, hlast, hparts, walk_append_plain hwalk (descend_plain (directory_parts hparts) hdst)⟩

/-- A move that comes to no link changes no file and moves none. -/
theorem move_no_target {src : Dir} {move_root dest_rel : Option String}
    (h : ∀ root dest, move_root.filter (fun r => r ≠ "") = some root →
      dest_rel.filter (fun d => d ≠ "") = some dest → move_target p fs faults root dest = none) :
    let did := move p fs faults src name move_root dest_rel
    SameFiles fs did.fs ∧ ∀ status detail, did.result = .ok (status, detail) →
      status = "aborted_drift" ∨ status = "skipped_disabled" := by
  dsimp only
  unfold move
  split
  · rename_i root dest hroot hdest
    have hnone := h root dest hroot hdest
    unfold move_target dest_parts at hnone
    dsimp only
    split
    · refine ⟨SameFiles.refl fs, fun status detail hres => Or.inl ?_⟩
      exact (Prod.mk.inj (Except.ok.inj hres)).1.symm
    · rename_i leaf hleaf
      rw [hleaf] at hnone
      dsimp only at hnone
      split
      · refine ⟨SameFiles.refl fs, fun status detail hres => Or.inl ?_⟩
        exact (Prod.mk.inj (Except.ok.inj hres)).1.symm
      · rename_i hdots
        rw [if_neg hdots] at hnone
        split
        · exact ⟨SameFiles.refl fs, fun status detail hres => absurd hres (by simp)⟩
        · rename_i hnul
          rw [if_neg hnul] at hnone
          split
          · refine ⟨SameFiles.refl fs, fun status detail hres => Or.inl ?_⟩
            exact (Prod.mk.inj (Except.ok.inj hres)).1.symm
          · rename_i cur hopen
            rw [hopen] at hnone
            dsimp only at hnone
            have hsame := descend_same_files faults fs cur 0
              (((dest.toList.splitOn '/').map String.ofList).filter fun part => part ≠ "").dropLast
            split
            · refine ⟨hsame, fun status detail hres => Or.inl ?_⟩
              exact (Prod.mk.inj (Except.ok.inj hres)).1.symm
            · exact ⟨hsame, fun status detail hres => absurd hres (by simp)⟩
            · rename_i dst hdst
              rw [hdst] at hnone
              dsimp only at hnone
              split
              · exact ⟨hsame, fun status detail hres => absurd hres (by simp)⟩
              · rename_i hleafnul
                rw [if_neg hleafnul] at hnone
                exact absurd hnone (by simp)
  · refine ⟨SameFiles.refl fs, fun status detail hres => Or.inr ?_⟩
    exact (Prod.mk.inj (Except.ok.inj hres)).1.symm

/-- A move that comes to its link does what the link and unlink do. -/
theorem move_at_target {mid : FileSystem} {src dst : Dir} {move_root dest_rel : Option String}
    (hroot : move_root.filter (fun r => r ≠ "") = some root)
    (hdest : dest_rel.filter (fun d => d ≠ "") = some dest)
    (h : move_target p fs faults root dest = some (mid, dst, leaf)) :
    let did := move p fs faults src name move_root dest_rel
    let done := link_and_unlink mid faults src name dst leaf (rstrip_slash root ++ "/" ++ dest)
    did.fs = done.fs ∧ did.result = done.result := by
  obtain ⟨hlast, hdots, hnul, hleafnul, cur, hopen, rfl, hdst⟩ := move_target_some h
  unfold dest_parts at hlast hdots hdst
  dsimp only
  unfold move
  rw [hroot, hdest]
  dsimp only
  rw [hlast]
  dsimp only
  rw [if_neg hdots, if_neg hnul, hopen]
  dsimp only
  rw [hdst]
  dsimp only
  rw [if_neg hleafnul]
  exact ⟨rfl, rfl⟩

end Fathom.Actor
