/-
**The bounded size of a subtree** (`agent/browse_lister.py`).

The walk keeps a stack of directories it still has to read and stops, with what it has,
when it has seen too many entries or its time is up; what it cannot read it skips. A
directory is what `os.scandir` yields of it, and each question put to an entry may raise
for itself. The clock is any sequence of readings: nothing hangs on its running forward.
-/
import Mathlib.Algebra.Ring.Nat
import Mathlib.Algebra.Ring.Rat
import Mathlib.Data.Rat.Defs
import Mathlib.Order.Lattice

set_option autoImplicit false

namespace Fathom.Browse

/-! ## Trees -/

/-- What an `os.DirEntry` answers; `none` is an `OSError`. -/
structure DirEntry where
  is_symlink : Option Bool
  is_dir : Option Bool
  st_size : Option ℕ

/-- What `os.scandir` yields of a directory. Behind an entry that is a directory stands what
it yields in turn. -/
inductive Listing where
  | nil
  /-- `os.scandir` raises here; the rest is there and is not yielded -/
  | raised (rest : Listing)
  | entry (de : DirEntry) (children next : Listing)

/-- The sizes of the files one can read: those that are listed in a directory one can get
to, are no symlinks and have a `stat`. -/
def Listing.files : Listing → List ℕ
  | .nil => []
  | .raised _ => []
  | .entry de children next =>
    match de.is_symlink, de.is_dir with
    | some false, some true => children.files ++ next.files
    | some false, some false => de.st_size.toList ++ next.files
    | _, _ => next.files

/-- How many entries there are, at any depth. -/
def Listing.entries : Listing → ℕ
  | .nil => 0
  | .raised rest => rest.entries
  | .entry _ children next => children.entries + next.entries + 1

/-! ## The walk -/

/-- What is counted on the way. -/
structure Counted where
  total_size : ℕ
  file_count : ℕ
  seen : ℕ
  deriving DecidableEq

/-- One round of the `for`, over what a directory yields: what is counted, and the stack
unless the cap was hit. The top of a stack is its head. -/
def scan (max_entries : Int) : Listing → List Listing → Counted → Counted × Option (List Listing)
  | .nil, stack, acc => (acc, some stack)
  | .raised _, stack, acc => (acc, some stack)
  | .entry de children next, stack, acc =>
    let acc := { acc with seen := acc.seen + 1 }
    if max_entries ≤ acc.seen then (acc, none)
    else
      match de.is_symlink with
      | none => scan max_entries next stack acc
      | some true => scan max_entries next stack acc
      | some false =>
        match de.is_dir with
        | none => scan max_entries next stack acc
        | some true => scan max_entries next (children :: stack) acc
        | some false =>
          match de.st_size with
          | none => scan max_entries next stack acc
          | some size =>
            scan max_entries next stack
              { acc with total_size := acc.total_size + size, file_count := acc.file_count + 1 }

/-- The `while`, of which each round asks the clock once; `none` when it takes more rounds
than are given. -/
def walk (max_entries : Int) (now : ℕ → ℚ) (deadline : ℚ) : ℕ → List Listing → Counted → Option (ℕ × ℕ × Bool)
  | _, [], acc => some (acc.total_size, acc.file_count, false)
  | 0, _ :: _, _ => none
  | rounds + 1, current :: stack, acc =>
    if max_entries ≤ acc.seen ∨ deadline ≤ now 0 then some (acc.total_size, acc.file_count, true)
    else
      match scan max_entries current stack acc with
      | (acc, none) => some (acc.total_size, acc.file_count, true)
      | (acc, some stack) => walk max_entries (fun i => now (i + 1)) deadline rounds stack acc

/-- `_bounded_subtree`, in so many rounds. -/
def bounded_subtree (rounds : ℕ) (path : Listing) (max_entries budget_ms : Int) (now : ℕ → ℚ) : Option (ℕ × ℕ × Bool) :=
  walk max_entries (fun i => now (i + 1)) (now 0 + budget_ms / 1000) rounds [path] ⟨0, 0, 0⟩

/-! ## What is still to come -/

/-- The files below the directories of a stack. -/
def pending (stack : List Listing) : List ℕ := stack.flatMap Listing.files

/-- How many rounds a stack can take. -/
def rounds_left (stack : List Listing) : ℕ := (stack.map fun l => l.entries + 1).sum

section

variable {max_entries : Int} {l : Listing} {stack stack' : List Listing} {acc acc' : Counted}

theorem pending_cons (l : Listing) (stack : List Listing) : pending (l :: stack) = l.files ++ pending stack :=
  List.flatMap_cons

theorem pending_append (stack stack' : List Listing) : pending (stack ++ stack') = pending stack ++ pending stack' :=
  List.flatMap_append

theorem rounds_left_cons (l : Listing) (stack : List Listing) :
    rounds_left (l :: stack) = l.entries + 1 + rounds_left stack := by
  rw [rounds_left, List.map_cons, List.sum_cons]
  rfl

/-- The file an entry is, if it is one that can be read. -/
def DirEntry.file (de : DirEntry) : List ℕ :=
  match de.is_symlink, de.is_dir with
  | some false, some false => de.st_size.toList
  | _, _ => []

/-- The directory that an entry has the walk read later. -/
def DirEntry.descend (de : DirEntry) (children : Listing) : List Listing :=
  match de.is_symlink, de.is_dir with
  | some false, some true => [children]
  | _, _ => []

/-- What is counted once a file has been seen. -/
def Counted.add (acc : Counted) (sizes : List ℕ) : Counted :=
  ⟨acc.total_size + sizes.sum, acc.file_count + sizes.length, acc.seen + 1⟩

theorem files_entry (de : DirEntry) (children next : Listing) :
    (Listing.entry de children next).files = de.file ++ pending (de.descend children) ++ next.files := by
  rw [Listing.files, DirEntry.file, DirEntry.descend]
  -- each answer of the entry for itself; a listing that is not read holds no file
  rcases de.is_symlink with _ | _ | _
  · rfl
  · rcases de.is_dir with _ | _ | _
    · rfl
    · rw [pending, List.flatMap_nil, List.append_nil]
    · rw [List.nil_append, pending_cons, pending, List.flatMap_nil, List.append_nil]
  · rfl

/-- **What the `for` does with one entry.** -/
theorem scan_entry (max_entries : Int) (de : DirEntry) (children next : Listing) (stack : List Listing) (acc : Counted) :
    scan max_entries (.entry de children next) stack acc =
      if max_entries ≤ ((acc.seen + 1 : ℕ) : Int) then ({ acc with seen := acc.seen + 1 }, none)
      else scan max_entries next (de.descend children ++ stack) (acc.add de.file) := by
  rw [scan, DirEntry.descend, DirEntry.file]
  dsimp only
  split
  · rfl
  · rcases de.is_symlink with _ | _ | _
    · rfl
    · rcases de.is_dir with _ | _ | _
      · rfl
      · rcases de.st_size with _ | size
        · rfl
        · rfl
      · rfl
    · rfl

/-- **A round that is finished loses no file**: what it has not counted is still to come. It
puts off no more than it has seen. -/
theorem scan_some (h : scan max_entries l stack acc = (acc', some stack')) :
    acc'.total_size + (pending stack').sum = acc.total_size + (l.files.sum + (pending stack).sum) ∧
      acc'.file_count + (pending stack').length = acc.file_count + (l.files.length + (pending stack).length) ∧
      rounds_left stack' ≤ rounds_left stack + l.entries := by
  induction l generalizing stack acc with
  | nil =>
      rw [scan, Prod.mk.injEq, Option.some.injEq] at h
      obtain ⟨rfl, rfl⟩ := h
      rw [Listing.files, Listing.entries, List.sum_nil, List.length_nil]
      omega
  | raised rest _ =>
      rw [scan, Prod.mk.injEq, Option.some.injEq] at h
      obtain ⟨rfl, rfl⟩ := h
      rw [Listing.files, List.sum_nil, List.length_nil]
      omega
  | entry de children next _ ih =>
      rw [scan_entry] at h
      split at h
      · cases h
      · obtain ⟨hsize, hcount, hrounds⟩ := ih h
        rw [pending_append, List.sum_append] at hsize
        rw [pending_append, List.length_append] at hcount
        rw [files_entry, List.sum_append, List.sum_append, List.length_append, List.length_append, Listing.entries]
        have hdescend : rounds_left (de.descend children ++ stack) ≤ rounds_left stack + (children.entries + 1) := by
          rw [DirEntry.descend]
          split
          · rw [List.singleton_append, rounds_left_cons]
            omega
          · rw [List.nil_append]
            omega
        dsimp only [Counted.add] at hsize hcount
        omega

/-- A round that hits the cap has counted no more than there is. -/
theorem scan_none (h : scan max_entries l stack acc = (acc', none)) :
    acc'.total_size ≤ acc.total_size + l.files.sum ∧ acc'.file_count ≤ acc.file_count + l.files.length := by
  induction l generalizing stack acc with
  | nil => cases h
  | raised rest _ => cases h
  | entry de children next _ ih =>
      rw [scan_entry] at h
      rw [files_entry, List.sum_append, List.sum_append, List.length_append, List.length_append]
      split at h
      · rw [Prod.mk.injEq] at h
        rw [← h.1]
        dsimp only
        omega
      · obtain ⟨hsize, hcount⟩ := ih h
        dsimp only [Counted.add] at hsize hcount
        omega

/-- **The walk comes to an end**, with no more than was counted and was still to come, and
with all of it when nothing stopped it. -/
theorem walk_total (max_entries : Int) (now : ℕ → ℚ) (deadline : ℚ) (rounds : ℕ) (stack : List Listing) (acc : Counted)
    (h : rounds_left stack ≤ rounds) :
    ∃ size count truncated, walk max_entries now deadline rounds stack acc = some (size, count, truncated) ∧
      size ≤ acc.total_size + (pending stack).sum ∧ count ≤ acc.file_count + (pending stack).length ∧
      (truncated = false → size = acc.total_size + (pending stack).sum ∧
        count = acc.file_count + (pending stack).length) := by
  induction rounds generalizing now stack acc with
  | zero =>
      rcases stack with _ | ⟨l, stack⟩
      · exact ⟨_, _, _, rfl, Nat.le_refl _, Nat.le_refl _, fun _ => ⟨rfl, rfl⟩⟩
      · -- a directory on the stack wants a round
        rw [rounds_left_cons] at h
        omega
  | succ rounds ih =>
      rcases stack with _ | ⟨l, stack⟩
      · exact ⟨_, _, _, rfl, Nat.le_refl _, Nat.le_refl _, fun _ => ⟨rfl, rfl⟩⟩
      · rw [rounds_left_cons] at h
        rw [walk, pending_cons, List.sum_append, List.length_append]
        split
        · exact ⟨_, _, _, rfl, Nat.le_add_right _ _, Nat.le_add_right _ _, fun hfalse => by cases hfalse⟩
        · rcases hscan : scan max_entries l stack acc with ⟨acc', _ | stack'⟩
          · obtain ⟨hsize, hcount⟩ := scan_none hscan
            exact ⟨_, _, _, rfl, by omega, by omega, fun hfalse => by cases hfalse⟩
          · obtain ⟨hsize, hcount, hrounds⟩ := scan_some hscan
            obtain ⟨size, count, truncated, hwalk, hle, hle', hexact⟩ :=
              ih (fun i => now (i + 1)) stack' acc' (by omega)
            refine ⟨size, count, truncated, hwalk, by omega, by omega, fun hfalse => ?_⟩
            have hboth := hexact hfalse
            omega

/-- More rounds than it takes change nothing. -/
theorem walk_more {now : ℕ → ℚ} {deadline : ℚ} {rounds rounds' : ℕ} {r : ℕ × ℕ × Bool} (hle : rounds ≤ rounds')
    (h : walk max_entries now deadline rounds stack acc = some r) :
    walk max_entries now deadline rounds' stack acc = some r := by
  induction rounds generalizing rounds' now stack acc with
  | zero =>
      rcases stack with _ | ⟨l, stack⟩
      · rw [walk] at h ⊢
        exact h
      · cases h
  | succ rounds ih =>
      obtain ⟨rounds', rfl⟩ : ∃ n, rounds' = n + 1 := ⟨rounds' - 1, by omega⟩
      rcases stack with _ | ⟨l, stack⟩
      · exact h
      · rw [walk] at h ⊢
        split at h
        · rename_i hstop
          rw [if_pos hstop]
          exact h
        · rename_i hgo
          rw [if_neg hgo]
          rcases hscan : scan max_entries l stack acc with ⟨acc', _ | stack'⟩
          · rw [hscan] at h
            exact h
          · rw [hscan] at h
            exact ih (by omega) h

/-- **The bounded size of a subtree.** For every tree, cap, budget and clock, given enough
rounds: the walk ends, counts no more than the files one can read, and all of them if it
does not say that it was truncated. -/
theorem bounded_subtree_exact (path : Listing) (max_entries budget_ms : Int) (now : ℕ → ℚ) :
    ∃ size count truncated,
      (∀ rounds, path.entries < rounds →
        bounded_subtree rounds path max_entries budget_ms now = some (size, count, truncated)) ∧
      size ≤ path.files.sum ∧ count ≤ path.files.length ∧
      (truncated = false → size = path.files.sum ∧ count = path.files.length) := by
  have hleft : rounds_left [path] = path.entries + 1 := Nat.add_zero _
  have hpending : pending [path] = path.files := by
    rw [pending_cons, pending, List.flatMap_nil, List.append_nil]
  obtain ⟨size, count, truncated, hwalk, hsize, hcount, hexact⟩ :=
    walk_total max_entries (fun i => now (i + 1)) (now 0 + budget_ms / 1000) (path.entries + 1) [path] ⟨0, 0, 0⟩
      (Nat.le_of_eq hleft)
  rw [hpending, Nat.zero_add] at hsize hcount
  rw [hpending, Nat.zero_add, Nat.zero_add] at hexact
  exact ⟨size, count, truncated, fun rounds hrounds => walk_more hrounds hwalk, hsize, hcount, hexact⟩

/-- A link is not followed, and what is behind a `scandir` that raises is not counted. -/
example :
    let file : DirEntry := ⟨some false, some false, some 7⟩
    let link : DirEntry := ⟨some true, some false, some 3⟩
    let dir : DirEntry := ⟨some false, some true, none⟩
    let path : Listing := .entry file .nil (.entry link .nil (.entry dir (.raised (.entry file .nil .nil)) .nil))
    bounded_subtree 3 path 4 2000 (fun _ => 0) = some (7, 1, false) ∧
      bounded_subtree 3 path 3 2000 (fun _ => 0) = some (7, 1, true) := by decide +kernel

end

end Fathom.Browse
