/-
**Browsing a target over SSH** (`core/deploy/engine.py`): `DeployEngine.browse_directory`.

A directory is listed from what `find` prints of it, an entry a line, and sized from what `du`
prints, a directory a line and the listed one last. The lines are those of `str.splitlines`, and
a name may have any character in it that ends one; a tab in a name makes a column too many. The
sizes are looked up by base name, and the listed directory has one as well. `browse_faithful_iff`
says for which directories what is returned is what is there, whatever `du` has to say of them.
-/
import Fathom.Agent.Columns
import Fathom.Config.Store
import Fathom.Lib.Lines
import Fathom.Security.Canonical

set_option autoImplicit false

namespace Fathom.Deploy

open Fathom.Columns (PyFloat)
open Fathom.Config (is_space)
open Fathom.Lines
open Fathom.Security (Name IsComponent)

/-! ## Texts and numbers -/

/-- What `find` prints for `%T@`. -/
def IsStamp (text : List Char) : Prop :=
  ∃ sign whole fraction, text = sign ++ whole ++ '.' :: fraction ∧ (sign = [] ∨ sign = ['-']) ∧
    whole ≠ [] ∧ fraction ≠ [] ∧ ∀ c ∈ whole ++ fraction, c.isDigit = true

/-- What Python makes of texts. -/
structure Reader where
  lower : List Char → List Char
  /-- The value of a decimal digit of any script. -/
  digit_value : Char → Option ℕ
  float : List Char → Option PyFloat
  ascii_digit : ∀ c, c.isDigit = true → digit_value c = some (c.toNat - '0'.toNat)
  float_stamp : ∀ text, IsStamp text → ∃ mtime, float text = some mtime

/-- Digits, with single underscores between them. -/
def digits (r : Reader) (text : List Char) : Option ℕ :=
  let groups := text.splitOn '_'
  if groups.any List.isEmpty then none
  else (groups.flatten.mapM r.digit_value).map fun values => values.foldl (fun n d => 10 * n + d) 0

/-- `int(text)`, of texts with fewer digits than make it give up. -/
def int (r : Reader) (text : List Char) : Option Int :=
  match (text.dropWhile is_space).rdropWhile is_space with
  | '-' :: ds => (digits r ds).map fun n => -(n : Int)
  | '+' :: ds => (digits r ds).map fun n => (n : Int)
  | ds => (digits r ds).map fun n => (n : Int)

/-- `text.rstrip("/").rsplit("/", 1)[-1]`. -/
def base_name (text : List Char) : Name := (text.rdropWhile (· = '/')).rtakeWhile (· ≠ '/')

/-- `posixpath.join`, of a directory and a name in it. -/
def join_path (path : List Char) (name : Name) : List Char :=
  if path.getLast? = some '/' then path ++ name else path ++ '/' :: name

/-! ## What is answered -/

/-- `CommandResult`. -/
structure CommandResult where
  exit_status : Int
  stdout : List Char
  stderr : List Char := []

def CommandResult.ok (result : CommandResult) : Bool := result.exit_status == 0

/-- A session with a target: what its commands answer. -/
structure Client where
  /-- `find`, of a path, and `head` of so many lines -/
  find : List Char → ℕ → CommandResult
  /-- `du`, of a path -/
  du : List Char → CommandResult
  df : CommandResult

/-- `BrowseEntry`. -/
structure BrowseEntry where
  name : Name
  path : List Char
  is_dir : Bool
  is_symlink : Bool
  size : ℕ
  mtime : PyFloat
  subtree_size : Option ℕ
  subtree_truncated : Bool
  deriving DecidableEq

/-- `BrowseResult`. -/
structure BrowseResult where
  path : List Char
  entries : List BrowseEntry := []
  truncated : Bool := false
  error : Option (List Char) := none
  deriving DecidableEq

/-! ## Reading -/

/-- A line of `du`: a size, and the base name of what is behind the tab. -/
def size_of_line (r : Reader) (line : List Char) : Option (Name × Int) :=
  match line.dropWhile (· ≠ '\t') with
  | [] => none
  | _ :: printed => (int r (line.takeWhile (· ≠ '\t'))).map fun size => (base_name printed, size)

/-- `child_sizes`, as the lines give it. -/
def child_sizes (r : Reader) (stdout : List Char) : List (Name × Int) := (splitlines stdout).filterMap (size_of_line r)

/-- `child_sizes.get`: a later line replaces an earlier one. -/
def get_size (sizes : List (Name × Int)) (name : Name) : Option Int :=
  (sizes.reverse.find? fun size => size.1 == name).map (·.2)

/-- `BrowseEntry(...)`, with the sizes it checks. -/
def make_entry (path : List Char) (name : Name) (is_dir is_symlink : Bool) (size : Int) (mtime : PyFloat)
    (sub : Option Int) (size_truncated : Bool) : Except String BrowseEntry :=
  if size < 0 ∨ sub.any (· < 0) then .error "Input should be greater than or equal to 0"
  else
    .ok
      { name, path := join_path path name, is_dir, is_symlink, size := size.toNat, mtime,
        subtree_size := sub.map Int.toNat, subtree_truncated := sub.isSome && size_truncated }

/-- A line of `find`, and the entry it is read as, if it is one. -/
def entry_of_line (r : Reader) (path : List Char) (with_sizes size_truncated : Bool) (sizes : List (Name × Int))
    (line : List Char) : Except String (Option BrowseEntry) :=
  match line.splitOn '\t' with
  | [ftype, size_s, mtime_s, name] =>
    match int r size_s, r.float mtime_s with
    | some size, some mtime =>
      let is_dir := ftype == ['d']
      let is_symlink := ftype == ['l']
      let sub := if with_sizes && (is_dir && !is_symlink) then get_size sizes name else none
      (make_entry path name is_dir is_symlink size mtime sub size_truncated).map some
    | _, _ => .ok none
  | _ => .ok none

/-- The loop over the lines of `find`. -/
def read_entries (read : List Char → Except String (Option BrowseEntry)) :
    List (List Char) → Except String (List BrowseEntry)
  | [] => .ok []
  | line :: lines =>
    match read line with
    | .error e => .error e
    | .ok none => read_entries read lines
    | .ok (some entry) => (read_entries read lines).map (entry :: ·)

/-- The order of the entries: directories first, and then by name. -/
def entry_le (r : Reader) (a b : BrowseEntry) : Bool :=
  if a.is_dir = b.is_dir then !(r.lower b.name).lex (r.lower a.name) (fun c d => decide (c.toNat < d.toNat)) else a.is_dir

/-- `browse_directory`. -/
def browse_directory (r : Reader) (connected : Except (List Char) Client) (path : List Char) (with_sizes : Bool)
    (max_entries : ℕ) : Except String BrowseResult :=
  match connected with
  | .error exc => .ok { path, error := some (exc.take 200) }
  | .ok client =>
    let listing := client.find path (max_entries + 1)
    if listing.stdout = [] ∧ listing.ok = false then
      let error := ((listing.stderr.dropWhile is_space).rdropWhile is_space).take 200
      .ok { path, error := some (if error = [] then "cannot list".toList else error) }
    else
      let du := client.du path
      let sizes := if with_sizes then child_sizes r du.stdout else []
      let size_truncated := with_sizes && !du.ok
      let lines := splitlines listing.stdout
      (read_entries (entry_of_line r path with_sizes size_truncated sizes) (lines.take max_entries)).map fun entries =>
        { path, entries := entries.mergeSort (entry_le r), truncated := decide (max_entries < lines.length) }

/-! ## Directories, and what is printed of them -/

/-- The types `find` tells apart. -/
inductive FileType where
  | file
  | directory
  | symlink
  | fifo
  | socket
  | block
  | character
  | unknown
  deriving DecidableEq

/-- `%y`. -/
def FileType.letter : FileType → Char
  | .file => 'f'
  | .directory => 'd'
  | .symlink => 'l'
  | .fifo => 'p'
  | .socket => 's'
  | .block => 'b'
  | .character => 'c'
  | .unknown => 'U'

/-- A child of a directory, under any name there can be. -/
structure Child where
  name : Name
  ftype : FileType
  size : ℕ
  mtime : List Char
  component : IsComponent '/' name
  stamp : IsStamp mtime

/-- A directory, and its children as `find` comes to them. -/
structure Directory where
  path : List Char
  children : List Child
  distinct : (children.map Child.name).Nodup

/-- `%y\t%s\t%T@\t%f`. -/
def find_line (child : Child) : List Char :=
  child.ftype.letter :: '\t' :: (Nat.toDigits 10 child.size ++ '\t' :: (child.mtime ++ '\t' :: child.name))

/-- `head -n`. -/
def head : ℕ → List Char → List Char
  | 0, _ => []
  | _ + 1, [] => []
  | n + 1, c :: text => if c = '\n' then c :: head n text else c :: head (n + 1) text

/-- The path `du` prints for a child. -/
def below (path : List Char) (name : Name) : List Char := path.rdropWhile (· = '/') ++ '/' :: name

/-- A line of `du`. -/
def du_line (figure : ℕ) (printed : List Char) : List Char := Nat.toDigits 10 figure ++ '\t' :: printed

/-- What `du` has come to say of a directory in its time: its figures for the directories in it,
and in the end the one for itself. -/
structure Report (dir : Directory) where
  figures : List (Name × ℕ)
  own : Option ℕ
  distinct : (figures.map (·.1)).Nodup
  directories : ∀ figure ∈ figures, ∃ child ∈ dir.children, child.ftype = .directory ∧ child.name = figure.1
  complete : own.isSome = true → ∀ child ∈ dir.children, child.ftype = .directory → child.name ∈ figures.map (·.1)

/-- What `du` prints. -/
def Report.lines {dir : Directory} (report : Report dir) : List (List Char) :=
  (report.figures.map fun figure => du_line figure.2 (below dir.path figure.1)) ++
    report.own.toList.map fun figure => du_line figure dir.path

/-- The session in which a directory is listed and sized. -/
def session (dir : Directory) (report : Report dir) (in_time : Bool) : Client where
  find _ n := { exit_status := 0, stdout := head n (unlines (dir.children.map find_line)) }
  du _ := { exit_status := if in_time then 0 else 124, stdout := unlines report.lines }
  df := { exit_status := 0, stdout := [] }

/-- What is returned is what is there. -/
structure BrowseExact (dir : Directory) (report : Report dir) (max_entries : ℕ) (result : BrowseResult) : Prop where
  listed : (result.entries.map fun e => (e.name, e.is_dir, e.is_symlink, e.size)).Perm
    ((dir.children.take max_entries).map fun c =>
      (c.name, decide (c.ftype = .directory), decide (c.ftype = .symlink), c.size))
  paths : ∀ e ∈ result.entries, e.path = join_path dir.path e.name
  truncated : result.truncated = true ↔ max_entries < dir.children.length
  sizes : ∀ e ∈ result.entries, ∀ figure, e.subtree_size = some figure → (e.name, figure) ∈ report.figures
  error : result.error = none

/-- It is for every report. -/
def BrowseFaithful (r : Reader) (dir : Directory) (with_sizes : Bool) (max_entries : ℕ) : Prop :=
  ∀ (report : Report dir) (in_time : Bool), ∃ result,
    browse_directory r (.ok (session dir report in_time)) dir.path with_sizes max_entries = .ok result ∧
      BrowseExact dir report max_entries result

/-- A name without tabs and line ends. -/
def Plain (name : Name) : Prop := ∀ c ∈ name, c ≠ '\t' ∧ is_break c = false

/-- The paths `du` can print. -/
def Printed (dir : Directory) (printed : List Char) : Prop :=
  printed = dir.path ∨ ∃ child ∈ dir.children, child.ftype = .directory ∧ printed = below dir.path child.name

/-- Nothing that `du` prints of another directory is read as the size of this one: neither the
first line of its path, by its base name, nor a later one. -/
structure Undisturbed (r : Reader) (dir : Directory) (name : Name) : Prop where
  own : base_name (first_line dir.path) ≠ name
  others : ∀ child ∈ dir.children, child.ftype = .directory → child.name ≠ name →
    base_name (first_line (below dir.path child.name)) ≠ name
  later : ∀ printed, Printed dir printed → ∀ line ∈ later_lines printed, ∀ size, size_of_line r line ≠ some (name, size)

/-! ## Numbers -/

/-- A digit ends no word and no line, and is no sign. -/
structure Ordinary (c : Char) : Prop where
  space : is_space c = false
  unbroken : is_break c = false
  tab : c ≠ '\t'

theorem digit_range {c : Char} (h : c.isDigit = true) : 48 ≤ c.toNat ∧ c.toNat ≤ 57 := by
  rw [Char.isDigit, Bool.and_eq_true, decide_eq_true_eq, decide_eq_true_eq] at h
  exact ⟨UInt32.le_iff_toNat_le.mp h.1, UInt32.le_iff_toNat_le.mp h.2⟩

theorem ordinary_of_range {c : Char} (h : 33 ≤ c.toNat ∧ c.toNat ≤ 126) : Ordinary c := by
  refine ⟨?_, ?_, ?_⟩
  · rw [← Bool.not_eq_true]
    intro hspace
    simp only [is_space, List.contains_eq_mem, List.mem_cons, List.not_mem_nil, or_false, Bool.or_eq_true,
      Bool.and_eq_true, decide_eq_true_eq] at hspace
    omega
  · rw [← Bool.not_eq_true]
    intro hbreak
    simp only [is_break, List.contains_eq_mem, List.mem_cons, List.not_mem_nil, or_false, decide_eq_true_eq] at hbreak
    omega
  · rintro rfl
    exact absurd h.1 (by decide)

theorem ordinary_of_digit {c : Char} (h : c.isDigit = true) : Ordinary c := by
  have hrange := digit_range h
  exact ordinary_of_range (by omega)

theorem toDigits_digit {n : ℕ} : ∀ c ∈ Nat.toDigits 10 n, c.isDigit = true := fun _ hc =>
  Nat.isDigit_of_mem_toDigits (by decide) (by decide) hc

/-- What `find` prints of a time is ordinary. -/
theorem ordinary_of_stamp {text : List Char} (h : IsStamp text) : ∀ c ∈ text, Ordinary c := by
  obtain ⟨sign, whole, fraction, rfl, hsign, -, -, hdigits⟩ := h
  intro c hc
  rcases List.mem_append.mp hc with hc | hc
  · rcases List.mem_append.mp hc with hc | hc
    · rcases hsign with rfl | rfl
      · exact absurd hc List.not_mem_nil
      · rw [List.mem_singleton.mp hc]
        exact ordinary_of_range (by decide)
    · exact ordinary_of_digit (hdigits c (List.mem_append_left _ hc))
  · rcases List.mem_cons.mp hc with rfl | hc
    · exact ordinary_of_range (by decide)
    · exact ordinary_of_digit (hdigits c (List.mem_append_right _ hc))

theorem mapM_some {α β : Type} {f : α → Option β} {g : α → β} {xs : List α} (h : ∀ x ∈ xs, f x = some (g x)) :
    xs.mapM f = some (xs.map g) := by
  induction xs with
  | nil => rfl
  | cons x xs ih =>
      rw [List.mapM_cons, h x List.mem_cons_self, ih fun y hy => h y (List.mem_cons_of_mem _ hy)]
      rfl

theorem digits_toDigits (r : Reader) (n : ℕ) : digits r (Nat.toDigits 10 n) = some n := by
  have hsplit : (Nat.toDigits 10 n).splitOn '_' = [Nat.toDigits 10 n] :=
    List.splitOn_eq_singleton Nat.underscore_not_in_toDigits
  have hnonempty : ¬ ([Nat.toDigits 10 n].any List.isEmpty) = true := by
    rw [List.any_cons, List.any_nil, Bool.or_false, List.isEmpty_iff]
    exact Nat.toDigits_ne_nil
  have hvalues : (Nat.toDigits 10 n).mapM r.digit_value =
      some ((Nat.toDigits 10 n).map fun c => c.toNat - '0'.toNat) :=
    mapM_some fun c hc => r.ascii_digit c (toDigits_digit c hc)
  unfold digits
  dsimp only
  rw [hsplit, if_neg hnonempty, List.flatten_singleton, hvalues, Option.map_some, List.foldl_map]
  exact congrArg some Nat.ofDigitChars_ten_toDigits

/-- **A number in decimal is read as itself.** -/
theorem int_toDigits (r : Reader) (n : ℕ) : int r (Nat.toDigits 10 n) = some (n : Int) := by
  have hspace : ∀ c ∈ Nat.toDigits 10 n, is_space c = false := fun c hc => (ordinary_of_digit (toDigits_digit c hc)).space
  have hstrip : ((Nat.toDigits 10 n).dropWhile is_space).rdropWhile is_space = Nat.toDigits 10 n := by
    have hfront : (Nat.toDigits 10 n).dropWhile is_space = Nat.toDigits 10 n := by
      rw [List.dropWhile_eq_self_iff]
      intro hlen
      simp [hspace _ (List.getElem_mem hlen)]
    rw [hfront, List.rdropWhile_eq_self_iff]
    intro hne
    simp [hspace _ (List.getLast_mem hne)]
  have hdigits := digits_toDigits r n
  unfold int
  rw [hstrip]
  -- a digit is no sign
  split
  · rename_i ds heq
    have hminus := toDigits_digit '-' (by rw [heq]; exact List.mem_cons_self)
    exact absurd hminus (by decide)
  · rename_i ds heq
    have hplus := toDigits_digit '+' (by rw [heq]; exact List.mem_cons_self)
    exact absurd hplus (by decide)
  · rw [hdigits]
    rfl

/-! ## The lines of `find` -/

section

variable {r : Reader} {path : List Char} {with_sizes size_truncated : Bool} {sizes : List (Name × Int)}

theorem map_eq_ok {α β : Type} {f : α → β} {x : Except String α} {b : β} (h : x.map f = .ok b) :
    ∃ a, x = .ok a ∧ f a = b := by
  rcases x with error | a
  · cases h
  · exact ⟨a, rfl, Except.ok.inj h⟩

/-- An entry that is made has sizes that are none below zero. -/
theorem make_entry_eq_ok {name : Name} {is_dir is_symlink : Bool} {size : Int} {mtime : PyFloat} {sub : Option Int}
    {entry : BrowseEntry} (h : make_entry path name is_dir is_symlink size mtime sub size_truncated = .ok entry) :
    (∀ v, sub = some v → 0 ≤ v) ∧
      entry =
        { name, path := join_path path name, is_dir, is_symlink, size := size.toNat, mtime,
          subtree_size := sub.map Int.toNat, subtree_truncated := sub.isSome && size_truncated } := by
  rw [make_entry] at h
  split at h
  · cases h
  · rename_i hnot
    refine ⟨fun v hv => ?_, (Except.ok.inj h).symm⟩
    rw [hv, not_or, Option.any_some, decide_eq_true_eq] at hnot
    omega

/-- The entry a child should be read as. -/
def entry_of_child (r : Reader) (path : List Char) (with_sizes size_truncated : Bool) (sizes : List (Name × Int))
    (child : Child) : Except String BrowseEntry :=
  make_entry path child.name (decide (child.ftype = .directory)) (decide (child.ftype = .symlink)) child.size
    ((r.float child.mtime).getD .nan)
    (if with_sizes && decide (child.ftype = .directory) then get_size sizes child.name else none) size_truncated

theorem letter_ordinary (ftype : FileType) : Ordinary ftype.letter := by
  cases ftype <;> exact ordinary_of_range (by decide)

/-- **A line of a plain name is read as the child.** -/
theorem entry_of_find_line {child : Child} (h : Plain child.name) :
    entry_of_line r path with_sizes size_truncated sizes (find_line child) =
      (entry_of_child r path with_sizes size_truncated sizes child).map some := by
  have htab : ∀ {text : List Char}, (∀ c ∈ text, Ordinary c) → '\t' ∉ text := fun htext hmem => (htext _ hmem).tab rfl
  have hsize : '\t' ∉ Nat.toDigits 10 child.size := htab fun c hc => ordinary_of_digit (toDigits_digit c hc)
  have hmtime : '\t' ∉ child.mtime := htab (ordinary_of_stamp child.stamp)
  have hname : '\t' ∉ child.name := fun hmem => (h _ hmem).1 rfl
  have hsplit : (find_line child).splitOn '\t' =
      [[child.ftype.letter], Nat.toDigits 10 child.size, child.mtime, child.name] := by
    have hletter : '\t' ∉ [child.ftype.letter] := fun hmem =>
      (letter_ordinary child.ftype).tab (List.mem_singleton.mp hmem).symm
    show ([child.ftype.letter] ++ '\t' :: _).splitOn '\t' = _
    rw [List.splitOn_append_cons_self_of_not_mem hletter, List.splitOn_append_cons_self_of_not_mem hsize,
      List.splitOn_append_cons_self_of_not_mem hmtime, List.splitOn_eq_singleton hname]
  obtain ⟨mtime, hfloat⟩ := r.float_stamp child.mtime child.stamp
  have hdir : ([child.ftype.letter] == ['d']) = decide (child.ftype = .directory) := by
    cases child.ftype <;> rfl
  have hlink : ([child.ftype.letter] == ['l']) = decide (child.ftype = .symlink) := by
    cases child.ftype <;> rfl
  have hdescend : (decide (child.ftype = .directory) && !decide (child.ftype = .symlink)) =
      decide (child.ftype = .directory) := by
    cases child.ftype <;> rfl
  rw [entry_of_line, hsplit]
  dsimp only
  rw [int_toDigits, hfloat]
  dsimp only
  rw [hdir, hlink, hdescend, entry_of_child, hfloat]
  rfl

/-- No entry has a name with a tab or a line end in it. -/
theorem plain_of_entry {text line : List Char} {entry : BrowseEntry} (hline : line ∈ splitlines text)
    (h : entry_of_line r path with_sizes size_truncated sizes line = .ok (some entry)) : Plain entry.name := by
  rw [entry_of_line] at h
  split at h
  · rename_i ftype size_s mtime_s name hsplit
    split at h
    · obtain ⟨made, hmade, heq⟩ := map_eq_ok h
      obtain rfl := Option.some.inj heq
      have hname : name ∈ line.splitOn '\t' := by
        rw [hsplit]
        simp
      rw [(make_entry_eq_ok hmade).2]
      intro c hc
      refine ⟨?_, splitlines_unbroken hline c (Security.mem_of_mem_splitOn hname hc)⟩
      rintro rfl
      exact Security.not_mem_of_mem_splitOn hname hc
    · cases h
  · cases h

theorem mem_read_entries {read : List Char → Except String (Option BrowseEntry)} {lines : List (List Char)}
    {entries : List BrowseEntry} {e : BrowseEntry} (h : read_entries read lines = .ok entries) (he : e ∈ entries) :
    ∃ line ∈ lines, read line = .ok (some e) := by
  induction lines generalizing entries with
  | nil =>
      obtain rfl := Except.ok.inj h
      exact absurd he List.not_mem_nil
  | cons line lines ih =>
      rw [read_entries] at h
      split at h
      · cases h
      · obtain ⟨other, hother, hread⟩ := ih h he
        exact ⟨other, List.mem_cons_of_mem _ hother, hread⟩
      · rename_i entry hline
        rcases hrest : read_entries read lines with error | rest
        · rw [hrest] at h
          cases h
        · rw [hrest] at h
          obtain rfl := Except.ok.inj h
          rcases List.mem_cons.mp he with rfl | he
          · exact ⟨line, List.mem_cons_self, hline⟩
          · obtain ⟨other, hother, hread⟩ := ih hrest he
            exact ⟨other, List.mem_cons_of_mem _ hother, hread⟩

/-- The lines of plain children are read child by child. -/
theorem read_entries_children {children : List Child} (hplain : ∀ child ∈ children, Plain child.name)
    {entry : Child → BrowseEntry}
    (h : ∀ child ∈ children, entry_of_child r path with_sizes size_truncated sizes child = .ok (entry child)) :
    read_entries (entry_of_line r path with_sizes size_truncated sizes) (children.map find_line) =
      .ok (children.map entry) := by
  induction children with
  | nil => rfl
  | cons child children ih =>
      rw [List.map_cons, read_entries, entry_of_find_line (hplain child List.mem_cons_self), h child List.mem_cons_self,
        ih (fun c hc => hplain c (List.mem_cons_of_mem _ hc)) fun c hc => h c (List.mem_cons_of_mem _ hc)]
      rfl

/-- When the lines of plain children are read, each of them is an entry. -/
theorem mem_entries_of_child {children : List Child} (hplain : ∀ child ∈ children, Plain child.name)
    {entries : List BrowseEntry}
    (h : read_entries (entry_of_line r path with_sizes size_truncated sizes) (children.map find_line) = .ok entries)
    {child : Child} (hchild : child ∈ children) :
    ∃ e ∈ entries, entry_of_child r path with_sizes size_truncated sizes child = .ok e := by
  induction children generalizing entries with
  | nil => exact absurd hchild List.not_mem_nil
  | cons first children ih =>
      rw [List.map_cons, read_entries, entry_of_find_line (hplain first List.mem_cons_self)] at h
      rcases hentry : entry_of_child r path with_sizes size_truncated sizes first with error | entry
      · rw [hentry] at h
        cases h
      · rw [hentry] at h
        dsimp only [Except.map] at h
        rcases hrest : read_entries (entry_of_line r path with_sizes size_truncated sizes) (children.map find_line) with
          error | rest
        · rw [hrest] at h
          cases h
        · rw [hrest] at h
          obtain rfl := Except.ok.inj h
          rcases List.mem_cons.mp hchild with rfl | hchild
          · exact ⟨entry, List.mem_cons_self, hentry⟩
          · obtain ⟨e, he, hread⟩ := ih (fun c hc => hplain c (List.mem_cons_of_mem _ hc)) hrest hchild
            exact ⟨e, List.mem_cons_of_mem _ he, hread⟩

end

/-! ## The lines that come through -/

theorem head_nil (n : ℕ) : head n [] = [] := by
  cases n <;> rfl

theorem head_line {line : List Char} (h : ∀ c ∈ line, is_break c = false) (n : ℕ) (text : List Char) :
    head (n + 1) (line ++ '\n' :: text) = line ++ '\n' :: head n text := by
  induction line with
  | nil => exact if_pos rfl
  | cons c line ih =>
      have hne : c ≠ '\n' := by
        rintro rfl
        exact absurd (h '\n' List.mem_cons_self) (by decide)
      rw [List.cons_append, head, if_neg hne, ih fun d hd => h d (List.mem_cons_of_mem _ hd)]
      rfl

theorem find_line_unbroken {child : Child} (h : Plain child.name) : ∀ c ∈ find_line child, is_break c = false := by
  intro c hc
  rcases List.mem_cons.mp hc with rfl | hc
  · exact (letter_ordinary child.ftype).unbroken
  · rcases List.mem_cons.mp hc with rfl | hc
    · decide
    · rcases List.mem_append.mp hc with hc | hc
      · exact (ordinary_of_digit (toDigits_digit c hc)).unbroken
      · rcases List.mem_cons.mp hc with rfl | hc
        · decide
        · rcases List.mem_append.mp hc with hc | hc
          · exact (ordinary_of_stamp child.stamp c hc).unbroken
          · rcases List.mem_cons.mp hc with rfl | hc
            · decide
            · exact (h c hc).2

/-- **What comes through `head`**: the lines of the first children, when their names are plain, and
at least one more if there are more children. -/
theorem splitlines_head {children : List Child} {n : ℕ} (h : ∀ child ∈ children.take n, Plain child.name) :
    ∃ more, splitlines (head (n + 1) (unlines (children.map find_line))) = (children.take n).map find_line ++ more ∧
      (more = [] ↔ children.length ≤ n) := by
  induction n generalizing children with
  | zero =>
      refine ⟨_, rfl, ?_⟩
      rcases children with _ | ⟨child, children⟩
      · exact ⟨fun _ => Nat.le_refl _, fun _ => rfl⟩
      · -- the first line begins with the letter of a type
        have hletter : child.ftype.letter ≠ '\n' := by
          intro heq
          have hbreak := (letter_ordinary child.ftype).unbroken
          rw [heq] at hbreak
          exact absurd hbreak (by decide)
        refine ⟨fun hnil => absurd hnil (splitlines_ne_nil ?_), fun hle => absurd hle (by simp)⟩
        rw [List.map_cons, unlines, List.flatMap_cons, find_line, List.cons_append, List.cons_append, head,
          if_neg hletter]
        exact List.cons_ne_nil _ _
  | succ n ih =>
      rcases children with _ | ⟨child, children⟩
      · refine ⟨[], ?_, iff_of_true rfl (Nat.zero_le _)⟩
        rw [List.map_nil, unlines, List.flatMap_nil, head_nil]
        rfl
      · rw [List.take_succ_cons] at h
        have hline := find_line_unbroken (h child List.mem_cons_self)
        obtain ⟨more, hmore, hiff⟩ := ih fun c hc => h c (List.mem_cons_of_mem _ hc)
        refine ⟨more, ?_, by rw [hiff, List.length_cons, Nat.succ_le_succ_iff]⟩
        rw [List.map_cons, unlines, List.flatMap_cons, List.append_assoc, List.singleton_append, head_line hline,
          splitlines_line hline, ← unlines, hmore, List.take_succ_cons, List.map_cons, List.cons_append]

/-! ## The lines of `du` -/

theorem get_size_append (sizes more : List (Name × Int)) (name : Name) :
    get_size (sizes ++ more) name = (get_size more name).or (get_size sizes name) := by
  rw [get_size, List.reverse_append, List.find?_append, Option.map_or]
  rfl

theorem mem_of_get_size {sizes : List (Name × Int)} {name : Name} {v : Int} (h : get_size sizes name = some v) :
    (name, v) ∈ sizes := by
  obtain ⟨size, hfind, rfl⟩ := Option.map_eq_some_iff.mp h
  have hname := List.find?_some hfind
  rw [beq_iff_eq] at hname
  rw [← hname]
  exact List.mem_reverse.mp (List.mem_of_find?_eq_some hfind)

theorem get_size_isSome {sizes : List (Name × Int)} {name : Name} {v : Int} (h : (name, v) ∈ sizes) :
    ∃ v', get_size sizes name = some v' := by
  rw [get_size]
  rcases hfind : sizes.reverse.find? fun size => size.1 == name with _ | size
  · exact absurd (List.find?_eq_none.mp hfind (name, v) (List.mem_reverse.mpr h)) (by simp)
  · exact ⟨size.2, by rw [hfind]; rfl⟩

/-- What is read of one path that `du` prints: its figure, and whatever the later lines give. -/
def sizes_of (r : Reader) (figure : ℕ) (printed : List Char) : List (Name × Int) :=
  (base_name (first_line printed), (figure : Int)) :: (later_lines printed).filterMap (size_of_line r)

theorem sizes_of_eq (r : Reader) (figure : ℕ) (printed : List Char) :
    (first_line (du_line figure printed) :: later_lines (du_line figure printed)).filterMap (size_of_line r) =
      sizes_of r figure printed := by
  have hdigits : ∀ c ∈ Nat.toDigits 10 figure, Ordinary c := fun c hc => ordinary_of_digit (toDigits_digit c hc)
  have hunbroken : ∀ c ∈ Nat.toDigits 10 figure ++ ['\t'], is_break c = false := by
    intro c hc
    rcases List.mem_append.mp hc with hc | hc
    · exact (hdigits c hc).unbroken
    · rw [List.mem_singleton.mp hc]
      decide
  have hline : du_line figure printed = Nat.toDigits 10 figure ++ ['\t'] ++ printed := by
    rw [du_line, List.append_assoc, List.singleton_append]
  have hsize : size_of_line r (Nat.toDigits 10 figure ++ ['\t'] ++ first_line printed) =
      some (base_name (first_line printed), (figure : Int)) := by
    have hbefore : ∀ c ∈ Nat.toDigits 10 figure, decide (c ≠ '\t') = true := fun c hc => decide_eq_true (hdigits c hc).tab
    rw [size_of_line, List.append_assoc, List.dropWhile_append_of_pos hbefore, List.takeWhile_append_of_pos hbefore]
    show (int r (Nat.toDigits 10 figure ++ [])).map _ = _
    rw [List.append_nil, int_toDigits]
    rfl
  rw [hline, first_line_append hunbroken, later_lines_append hunbroken, List.filterMap_cons, hsize]
  rfl

/-- **What is read of the lines of `du`**, path by path. -/
theorem child_sizes_eq (r : Reader) (printed : List (ℕ × List Char)) :
    child_sizes r (unlines (printed.map fun p => du_line p.1 p.2)) = printed.flatMap fun p => sizes_of r p.1 p.2 := by
  induction printed with
  | nil => rfl
  | cons p printed ih =>
      rw [child_sizes, splitlines_unlines_eq, List.map_cons, List.flatMap_cons, List.filterMap_append, sizes_of_eq,
        List.flatMap_cons, ← ih, child_sizes, splitlines_unlines_eq]

/-- The sizes that come first do not matter where later ones have the name. -/
theorem get_size_last (sizes : List (Name × Int)) {more : List (Name × Int)} {name : Name} {v : Int}
    (h : (name, v) ∈ more) : ∃ v', get_size (sizes ++ more) name = some v' ∧ get_size more name = some v' := by
  obtain ⟨v', hv'⟩ := get_size_isSome h
  exact ⟨v', by rw [get_size_append, hv', Option.some_or], hv'⟩

section

variable {r : Reader} {dir : Directory} {report : Report dir}

/-- The paths of a report, each with its figure. -/
def Report.printed (report : Report dir) : List (ℕ × List Char) :=
  (report.figures.map fun f => (f.2, below dir.path f.1)) ++ report.own.toList.map fun own => (own, dir.path)

theorem report_sizes (r : Reader) (report : Report dir) :
    child_sizes r (unlines report.lines) = report.printed.flatMap fun p => sizes_of r p.1 p.2 := by
  have hlines : report.lines = report.printed.map fun p => du_line p.1 p.2 := by
    rw [Report.lines, Report.printed, List.map_append, List.map_map, List.map_map]
    rfl
  rw [hlines, child_sizes_eq]

theorem mem_report_sizes {size : Name × Int} (h : size ∈ child_sizes r (unlines report.lines)) :
    (∃ f ∈ report.figures, size ∈ sizes_of r f.2 (below dir.path f.1)) ∨
      ∃ own ∈ report.own, size ∈ sizes_of r own dir.path := by
  rw [report_sizes] at h
  obtain ⟨p, hp, hsize⟩ := List.mem_flatMap.mp h
  rcases List.mem_append.mp hp with hp | hp
  · obtain ⟨f, hf, rfl⟩ := List.mem_map.mp hp
    exact .inl ⟨f, hf, hsize⟩
  · obtain ⟨own, hown, rfl⟩ := List.mem_map.mp hp
    exact .inr ⟨own, Option.mem_toList.mp hown, hsize⟩

/-- **A directory that is undisturbed** is given no size but its own. -/
theorem size_of_undisturbed {name : Name} {v : Int} (h : Undisturbed r dir name)
    (hv : get_size (child_sizes r (unlines report.lines)) name = some v) :
    ∃ figure : ℕ, v = figure ∧ (name, figure) ∈ report.figures := by
  rcases mem_report_sizes (mem_of_get_size hv) with ⟨f, hf, hsize⟩ | ⟨own, -, hsize⟩
  · obtain ⟨child, hchild, hdir, hname⟩ := report.directories f hf
    rcases List.mem_cons.mp hsize with heq | hlater
    · obtain ⟨hbase, rfl⟩ := Prod.mk.inj heq
      by_cases hsame : child.name = name
      · exact ⟨f.2, rfl, by rw [← hsame, hname]; exact hf⟩
      · rw [← hname] at hbase
        exact absurd hbase.symm (h.others child hchild hdir hsame)
    · obtain ⟨line, hline, hread⟩ := List.mem_filterMap.mp hlater
      exact absurd hread (h.later _ (.inr ⟨child, hchild, hdir, by rw [hname]⟩) line hline v)
  · rcases List.mem_cons.mp hsize with heq | hlater
    · exact absurd (Prod.mk.inj heq).1.symm h.own
    · obtain ⟨line, hline, hread⟩ := List.mem_filterMap.mp hlater
      exact absurd hread (h.later _ (.inl rfl) line hline v)

end

/-! ## When a listing is faithful -/

section

variable {r : Reader} {dir : Directory} {report : Report dir} {with_sizes in_time : Bool} {max_entries : ℕ}

/-- The sizes that are looked up. -/
def session_sizes (r : Reader) (report : Report dir) (with_sizes : Bool) : List (Name × Int) :=
  if with_sizes then child_sizes r (unlines report.lines) else []

variable (r dir report with_sizes in_time max_entries) in
/-- **A listing of plain names**: the first children, in order, are read one by one. -/
theorem browse_plain (hplain : ∀ child ∈ dir.children.take max_entries, Plain child.name) :
    ∃ size_truncated, browse_directory r (.ok (session dir report in_time)) dir.path with_sizes max_entries =
      (read_entries (entry_of_line r dir.path with_sizes size_truncated (session_sizes r report with_sizes))
        ((dir.children.take max_entries).map find_line)).map fun entries =>
          { path := dir.path, entries := entries.mergeSort (entry_le r),
            truncated := decide (max_entries < dir.children.length) } := by
  obtain ⟨more, hlines, hmore⟩ := splitlines_head hplain
  refine ⟨with_sizes && !((session dir report in_time).du dir.path).ok, ?_⟩
  have htake : ((dir.children.take max_entries).map find_line ++ more).take max_entries =
      (dir.children.take max_entries).map find_line := by
    by_cases hle : dir.children.length ≤ max_entries
    · rw [hmore.mpr hle, List.append_nil, List.take_of_length_le]
      rw [List.length_map, List.length_take]
      omega
    · rw [List.take_append_of_le_length, List.take_of_length_le]
      · rw [List.length_map, List.length_take]
        omega
      · rw [List.length_map, List.length_take]
        omega
  have hlength : decide (max_entries < ((dir.children.take max_entries).map find_line ++ more).length) =
      decide (max_entries < dir.children.length) := by
    rw [decide_eq_decide, List.length_append, List.length_map, List.length_take]
    by_cases hle : dir.children.length ≤ max_entries
    · rw [hmore.mpr hle, List.length_nil]
      omega
    · have hpos : 0 < more.length := List.length_pos_iff.mpr fun hnil => hle (hmore.mp hnil)
      omega
  have hok : ¬ (((session dir report in_time).find dir.path (max_entries + 1)).stdout = [] ∧
      ((session dir report in_time).find dir.path (max_entries + 1)).ok = false) := by
    rintro ⟨-, hfalse⟩
    cases hfalse
  rw [browse_directory]
  dsimp only
  rw [if_neg hok]
  show (read_entries _ ((splitlines (head (max_entries + 1) (unlines (dir.children.map find_line)))).take max_entries)).map
    _ = _
  rw [hlines, htake]
  refine congrArg (fun f => Except.map f _) (funext fun entries => ?_)
  show BrowseResult.mk dir.path (entries.mergeSort (entry_le r)) (decide (max_entries <
    (splitlines (head (max_entries + 1) (unlines (dir.children.map find_line)))).length)) none = _
  rw [hlines, hlength]

/-- A listing that is faithful has plain names only. -/
theorem plain_of_faithful (h : BrowseFaithful r dir with_sizes max_entries) :
    ∀ child ∈ dir.children.take max_entries, Plain child.name := by
  intro child hchild
  -- what `du` has not come to say does not matter
  let silent : Report dir :=
    { figures := [], own := none, distinct := List.nodup_nil, directories := fun _ hf => absurd hf List.not_mem_nil,
      complete := fun hsome => absurd hsome (by decide) }
  obtain ⟨result, hresult, hexact⟩ := h silent true
  have hmem := hexact.listed.mem_iff.mpr (List.mem_map_of_mem hchild)
  obtain ⟨e, he, heq⟩ := List.mem_map.mp hmem
  rw [browse_directory] at hresult
  dsimp only at hresult
  split at hresult
  · rename_i hfail
    cases hfail.2
  · obtain ⟨entries, hentries, rfl⟩ := map_eq_ok hresult
    obtain ⟨line, hline, hread⟩ := mem_read_entries hentries (List.mem_mergeSort.mp he)
    rw [← (Prod.mk.inj heq).1]
    exact plain_of_entry (List.mem_of_mem_take hline) hread

/-- In a faithful listing the size that is looked up for a directory is its own. -/
theorem size_of_faithful (h : BrowseFaithful r dir true max_entries) {child : Child}
    (hchild : child ∈ dir.children.take max_entries) (hdir : child.ftype = .directory) (report : Report dir) {v : Int}
    (hv : get_size (child_sizes r (unlines report.lines)) child.name = some v) :
    (child.name, v.toNat) ∈ report.figures := by
  have hplain := plain_of_faithful h
  obtain ⟨result, hresult, hexact⟩ := h report true
  obtain ⟨size_truncated, hbrowse⟩ := browse_plain r dir report true true max_entries hplain
  rw [hbrowse] at hresult
  obtain ⟨entries, hentries, rfl⟩ := map_eq_ok hresult
  obtain ⟨e, he, hentry⟩ := mem_entries_of_child hplain hentries hchild
  rw [entry_of_child, decide_eq_true hdir, session_sizes] at hentry
  obtain ⟨-, hmade⟩ := make_entry_eq_ok hentry
  have hsub : e.subtree_size = some v.toNat := by
    rw [hmade]
    show (get_size (child_sizes r (unlines report.lines)) child.name).map Int.toNat = some v.toNat
    rw [hv]
    rfl
  have hname : e.name = child.name := by
    rw [hmade]
  have hown := hexact.sizes e (List.mem_mergeSort.mpr he) v.toNat hsub
  rw [hname] at hown
  exact hown

/-- `du` has come to one directory. -/
def one_figure (dir : Directory) (child : Child) (hchild : child ∈ dir.children) (hdir : child.ftype = .directory)
    (figure : ℕ) : Report dir where
  figures := [(child.name, figure)]
  own := none
  distinct := List.nodup_singleton _
  directories := fun _ hf => ⟨child, hchild, hdir, by rw [List.mem_singleton.mp hf]⟩
  complete := fun hsome => absurd hsome Bool.false_ne_true

/-- `du` has come to all of them, and to the end. -/
def all_figures (dir : Directory) (figure : Name → ℕ) : Report dir where
  figures := (dir.children.filter fun child => child.ftype = .directory).map fun child => (child.name, figure child.name)
  own := some 0
  distinct := by
    rw [List.map_map]
    exact (List.filter_sublist.map Child.name).nodup dir.distinct
  directories := by
    intro f hf
    obtain ⟨child, hchild, rfl⟩ := List.mem_map.mp hf
    obtain ⟨hchild, hdir⟩ := List.mem_filter.mp hchild
    exact ⟨child, hchild, of_decide_eq_true hdir, rfl⟩
  complete := by
    intro _ child hchild hdir
    rw [List.map_map]
    exact List.mem_map.mpr ⟨child, List.mem_filter.mpr ⟨hchild, decide_eq_true hdir⟩, rfl⟩

/-- **A faithful listing is undisturbed**: what `du` prints of another path would have been read as
a figure that `du` has not, or not for this directory. -/
theorem undisturbed_of_faithful (h : BrowseFaithful r dir true max_entries) {child : Child}
    (hchild : child ∈ dir.children.take max_entries) (hdir : child.ftype = .directory) :
    Undisturbed r dir child.name := by
  have hmem := List.mem_of_mem_take hchild
  -- nothing in the line of the directory itself, which comes last
  have hown : ∀ v, (child.name, v) ∉ sizes_of r 0 dir.path := by
    intro v hv
    obtain ⟨v', -, hlast⟩ := get_size_last [] hv
    let report := all_figures dir fun name => if name = child.name then v'.toNat + 1 else 0
    have hsizes : child_sizes r (unlines report.lines) =
        (report.figures.flatMap fun f => sizes_of r f.2 (below dir.path f.1)) ++ sizes_of r 0 dir.path := by
      rw [report_sizes, Report.printed, List.flatMap_append, List.flatMap_map]
      exact congrArg _ (List.append_nil _)
    obtain ⟨v'', hget, hlast'⟩ := get_size_last (report.figures.flatMap fun f =>
      sizes_of r f.2 (below dir.path f.1)) hv
    rw [hlast, Option.some.injEq] at hlast'
    subst hlast'
    rw [← hsizes] at hget
    obtain ⟨other, -, heq⟩ := List.mem_map.mp (size_of_faithful h hchild hdir report hget)
    obtain ⟨hname, hfigure⟩ := Prod.mk.inj heq
    dsimp only at hfigure
    rw [if_pos hname] at hfigure
    omega
  -- nothing in the line of another directory, where `du` has come to no other
  have hother : ∀ other ∈ dir.children, other.ftype = .directory → other.name ≠ child.name →
      ∀ v, (child.name, v) ∉ sizes_of r 0 (below dir.path other.name) := by
    intro other hmem' hdir' hne v hv
    let report := one_figure dir other hmem' hdir' 0
    have hsizes : child_sizes r (unlines report.lines) = sizes_of r 0 (below dir.path other.name) := by
      rw [report_sizes]
      exact List.append_nil _
    obtain ⟨v', hget⟩ := get_size_isSome hv
    rw [← hsizes] at hget
    have hfigure := List.mem_singleton.mp (size_of_faithful h hchild hdir report hget)
    exact hne (Prod.mk.inj hfigure).1.symm
  -- nothing in the later lines of its own path
  have hself : ∀ v, (child.name, v) ∉ (later_lines (below dir.path child.name)).filterMap (size_of_line r) := by
    intro v hv
    obtain ⟨v', -, hlast⟩ := get_size_last [] hv
    let report := one_figure dir child hmem hdir (v'.toNat + 1)
    have hsizes : child_sizes r (unlines report.lines) = sizes_of r (v'.toNat + 1) (below dir.path child.name) := by
      rw [report_sizes]
      exact List.append_nil _
    obtain ⟨v'', hget, hlast'⟩ := get_size_last
      [(base_name (first_line (below dir.path child.name)), ((v'.toNat + 1 : ℕ) : Int))] hv
    rw [hlast, Option.some.injEq] at hlast'
    subst hlast'
    have hget' : get_size (child_sizes r (unlines report.lines)) child.name = some v' := by
      rw [hsizes]
      exact hget
    have hfigure := List.mem_singleton.mp (size_of_faithful h hchild hdir report hget')
    have heq := (Prod.mk.inj hfigure).2
    omega
  refine ⟨fun heq => hown 0 ?_, fun other hmem' hdir' hne heq => hother other hmem' hdir' hne 0 ?_, ?_⟩
  · rw [← heq]
    exact List.mem_cons_self
  · rw [← heq]
    exact List.mem_cons_self
  · rintro printed (rfl | ⟨other, hmem', hdir', rfl⟩) line hline size hread
    · exact hown size (List.mem_cons_of_mem _ (List.mem_filterMap.mpr ⟨line, hline, hread⟩))
    · by_cases hne : other.name = child.name
      · rw [hne] at hline
        exact hself size (List.mem_filterMap.mpr ⟨line, hline, hread⟩)
      · exact hother other hmem' hdir' hne size
          (List.mem_cons_of_mem _ (List.mem_filterMap.mpr ⟨line, hline, hread⟩))

/-- **Browsing is faithful**, for a directory, whatever `du` has to say of it, if and only if the
names that are listed are plain and, with sizes, nothing is read as the size of a directory among
them but its own. -/
theorem browse_faithful_iff : BrowseFaithful r dir with_sizes max_entries ↔
      (∀ child ∈ dir.children.take max_entries, Plain child.name) ∧
        (with_sizes = true → ∀ child ∈ dir.children.take max_entries, child.ftype = .directory →
          Undisturbed r dir child.name) := by
  constructor
  · intro h
    refine ⟨plain_of_faithful h, ?_⟩
    rintro rfl child hchild hdir
    exact undisturbed_of_faithful h hchild hdir
  · rintro ⟨hplain, hundisturbed⟩ report in_time
    obtain ⟨size_truncated, hbrowse⟩ := browse_plain r dir report with_sizes in_time max_entries hplain
    -- the size of a child, if it is given one
    let sub (child : Child) : Option Int :=
      if with_sizes && decide (child.ftype = .directory) then
        get_size (session_sizes r report with_sizes) child.name
      else none
    have hsub : ∀ child ∈ dir.children.take max_entries, ∀ v, sub child = some v →
        ∃ figure : ℕ, v = figure ∧ (child.name, figure) ∈ report.figures := by
      intro child hchild v hv
      dsimp only [sub] at hv
      split at hv
      · rename_i hboth
        rw [Bool.and_eq_true, decide_eq_true_eq] at hboth
        rw [session_sizes, if_pos hboth.1] at hv
        exact size_of_undisturbed (hundisturbed hboth.1 child hchild hboth.2) hv
      · cases hv
    let entry (child : Child) : BrowseEntry :=
      { name := child.name, path := join_path dir.path child.name, is_dir := decide (child.ftype = .directory),
        is_symlink := decide (child.ftype = .symlink), size := child.size, mtime := (r.float child.mtime).getD .nan,
        subtree_size := (sub child).map Int.toNat, subtree_truncated := (sub child).isSome && size_truncated }
    have hentry : ∀ child ∈ dir.children.take max_entries,
        entry_of_child r dir.path with_sizes size_truncated (session_sizes r report with_sizes) child = .ok (entry child) := by
      intro child hchild
      have hvalid : ¬ (((child.size : ℕ) : Int) < 0 ∨ (sub child).any (· < 0) = true) := by
        rintro (hneg | hneg)
        · omega
        · obtain ⟨v, hv, hlt⟩ := (Option.any_eq_true _ _).mp hneg
          obtain ⟨figure, rfl, -⟩ := hsub child hchild v hv
          rw [decide_eq_true_eq] at hlt
          omega
      rw [entry_of_child, make_entry]
      exact if_neg hvalid
    have hread := read_entries_children hplain hentry
    rw [hbrowse, hread]
    refine ⟨_, rfl, ?_, ?_, ?_, ?_, rfl⟩
    · refine ((List.mergeSort_perm _ _).map _).trans ?_
      rw [List.map_map]
      rfl
    · intro e he
      obtain ⟨child, -, rfl⟩ := List.mem_map.mp (List.mem_mergeSort.mp he)
      rfl
    · exact decide_eq_true_iff
    · intro e he figure hfigure
      obtain ⟨child, hchild, rfl⟩ := List.mem_map.mp (List.mem_mergeSort.mp he)
      obtain ⟨v, hv, rfl⟩ := Option.map_eq_some_iff.mp hfigure
      obtain ⟨own, rfl, hown⟩ := hsub child hchild v hv
      exact hown

end

end Fathom.Deploy
