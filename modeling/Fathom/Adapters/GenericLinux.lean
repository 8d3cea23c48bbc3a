/-
**The resync gate of a generic host** (`adapters/generic_linux.py`, `adapters/resync.py`).

A full-bit scan runs while its pool is healthy. Without an API that is read off
`/proc/mdstat` and `zpool status`: the pool is looked up among what the two list, and if it
is not there, and nothing is when they are asked again, it is taken for healthy.

The pools of `zpool status` are read block by block. Of an array of `/proc/mdstat` three
lines are looked at from its header on, whatever block they belong to: an operation further
down is missed, and one of the next array is taken for its own when the block is shorter.
Arrays are listed that are active and are called `md` and digits, so a host may have others
and list none. And a source that could not be read lists nothing. `resync_gate_iff` says for
which readings the gate is right all the same.
-/
import Fathom.Config.Store
import Fathom.Lib.Lines

set_option autoImplicit false

namespace Fathom.Adapters

open Fathom.Config (is_space)
open Fathom.Lines (is_break splitlines unlines)

abbrev Line := List Char

/-- What Python's tables say of characters. A text is lowered word by word. -/
structure Tables where
  lower : List Char → List Char
  /-- `\d` -/
  digit : Char → Bool
  /-- `str.isalpha`, of one character -/
  alpha : Char → Bool
  lower_space : ∀ a b, lower (a ++ ' ' :: b) = lower a ++ ' ' :: lower b
  digit_plain : ∀ c, digit c = true → is_space c = false ∧ c ≠ ':'

/-- `PoolInfo`. -/
structure PoolInfo where
  name : List Char
  raid_level : Option (List Char) := none
  members : List (List Char) := []
  resyncing : Bool := false
  total : ℕ := 0
  used : ℕ := 0
  free : ℕ := 0
  deriving DecidableEq

/-! ## `/proc/mdstat` -/

/-- `_RESYNC_MARKERS`. -/
def RESYNC_MARKERS : List (List Char) :=
  ["resync".toList, "recovery".toList, "rebuild".toList, "reshape".toList, "check".toList]

/-- A text past a beginning it must have. -/
def past (beginning text : List Char) : Option (List Char) :=
  if beginning <+: text then some (text.drop beginning.length) else none

/-- A word that is not empty, and what follows it. -/
def word (text : List Char) : Option (List Char × List Char) :=
  let taken := text.takeWhile fun c => !is_space c
  if taken = [] then none else some (taken, text.drop taken.length)

/-- The space that must be there, skipped. -/
def spaces (text : List Char) : Option (List Char) :=
  if (text.takeWhile is_space) = [] then none else some (text.dropWhile is_space)

/-- `^(md\d+)\s*:\s*active\s+(\S+)\s+(.*)$`: the three groups. No two neighbours of the
expression have a character in common, so the greedy match is the only one. -/
def match_header (t : Tables) (line : Line) : Option (List Char × List Char × List Char) := do
  let text ← past "md".toList line
  let digits := text.takeWhile t.digit
  if digits = [] then none
  else
    let text ← past [':'] ((text.dropWhile t.digit).dropWhile is_space)
    let text ← past "active".toList (text.dropWhile is_space)
    let (raid_level, text) ← word (← spaces text)
    let rest ← spaces text
    pure ("md".toList ++ digits, raid_level, rest)

/-- `str.split`. -/
def words (text : List Char) : List (List Char) := (text.splitOnP is_space).filter fun w => w ≠ []

/-- The members a header lists, without their slots. -/
def members (t : Tables) (rest : List Char) : List (List Char) :=
  ((words rest).filter fun tok => tok.head?.any t.alpha).map fun tok => tok.takeWhile (· ≠ '[')

/-- A marker stands in a text. -/
def marked (t : Tables) (text : List Char) : Bool :=
  RESYNC_MARKERS.any fun marker => decide (marker <:+: t.lower text)

/-- The loop of `_parse_mdstat`, at the lines that are left. -/
def parse_lines (t : Tables) : List Line → List PoolInfo
  | [] => []
  | line :: lines =>
    match match_header t line with
    | none => parse_lines t lines
    | some (name, raid_level, rest) =>
      let window := [' '].intercalate ((line :: lines).take 3)
      { name, raid_level, members := members t rest, resyncing := marked t window } :: parse_lines t lines

/-- `_parse_mdstat`. -/
def parse_mdstat (t : Tables) (text : List Char) : List PoolInfo := parse_lines t (splitlines text)

/-! ## `zpool status` -/

/-- `^\s*pool:\s+(\S+)`: the group. -/
def match_pool (line : Line) : Option (List Char) := do
  let text ← past "pool:".toList (line.dropWhile is_space)
  let (name, _) ← word (← spaces text)
  pure name

/-- A resilver is in progress. -/
def resilvering (t : Tables) (line : Line) : Bool := decide ("resilver in progress".toList <:+: t.lower line)

/-- The pool the loop is at, if any. -/
def close_pool (current : Option (List Char)) (resyncing : Bool) : List PoolInfo :=
  match current with
  | none => []
  | some name => [{ name, resyncing }]

/-- The loop of `_parse_zpool_status`. -/
def pool_lines (t : Tables) (current : Option (List Char)) (resyncing : Bool) : List Line → List PoolInfo
  | [] => close_pool current resyncing
  | line :: lines =>
    match match_pool line with
    | some name => close_pool current resyncing ++ pool_lines t (some name) false lines
    | none => pool_lines t current (resyncing || (current.isSome && resilvering t line)) lines

/-- `_parse_zpool_status`. -/
def parse_zpool_status (t : Tables) (text : List Char) : List PoolInfo := pool_lines t none false (splitlines text)

/-! ## The adapter -/

/-- `list_pools`, of what the two sources give; `none` is a file or a command that failed. -/
def list_pools (t : Tables) (mdstat zpool : Option (List Char)) : List PoolInfo :=
  parse_mdstat t (mdstat.getD []) ++
    match zpool with
    | none => []
    | some text => if text = [] then [] else parse_zpool_status t text

/-- `is_array_healthy`, of the pools listed first and those listed again. -/
def is_array_healthy (first again : List PoolInfo) (pool : List Char) : Bool :=
  match first.find? fun info => info.name = pool with
  | some info => !info.resyncing
  | none => again.isEmpty

/-- `adapter_resync_provider`; `none` is an `AdapterError`. -/
def resync_provider (healthy : Option Bool) : Bool :=
  match healthy with
  | none => true
  | some healthy => !healthy

/-! ## What the sources say -/

/-- The lines below a header are indented or empty. -/
def indented (line : Line) : Bool := line.head?.all is_space

/-- An array, as the kernel writes it: `md0 : active raid1 …` and the lines that belong to it. -/
structure MdArray where
  name : List Char
  state : List Char
  body : List Line
  name_ne : name ≠ []
  name_token : ∀ c ∈ name, is_space c = false ∧ c ≠ ':'
  state_line : ∀ c ∈ state, is_break c = false
  body_lines : ∀ line ∈ body, indented line = true ∧ ∀ c ∈ line, is_break c = false

def MdArray.header (a : MdArray) : Line := a.name ++ " : ".toList ++ a.state

/-- The header and what is below it. -/
def MdArray.block (a : MdArray) : List Line := a.header :: a.body

/-- `/proc/mdstat`: the personalities, the arrays, the unused devices. -/
structure Mdstat where
  before : List Line
  arrays : List MdArray
  after : List Line
  names : (arrays.map MdArray.name).Nodup
  others : ∀ line ∈ before ++ after, ¬"md".toList <+: line ∧ ∀ c ∈ line, is_break c = false

def Mdstat.lines (m : Mdstat) : List Line := m.before ++ (m.arrays.flatMap MdArray.block ++ m.after)

def Mdstat.text (m : Mdstat) : List Char := unlines m.lines

/-- The pools of `zpool status`, each with the lines up to the next. -/
def pool_blocks : List Line → List (List Char × List Line)
  | [] => []
  | line :: lines =>
    match match_pool line with
    | none => pool_blocks lines
    | some name => (name, lines.takeWhile fun l => (match_pool l).isNone) :: pool_blocks lines

/-- What the two sources give at one time; `none` is a file or a command that failed. -/
structure Reading where
  mdstat : Option Mdstat
  zpool : Option (List Char)

/-- The pools that are listed of a reading. -/
def Reading.pools (t : Tables) (r : Reading) : List PoolInfo := list_pools t (r.mdstat.map Mdstat.text) r.zpool

/-- The pools of `zpool status`, none if it failed. -/
def Reading.blocks (r : Reading) : List (List Char × List Line) := pool_blocks (splitlines (r.zpool.getD []))

/-- The arrays of `/proc/mdstat`, none if it could not be read. -/
def Reading.arrays (r : Reading) : List MdArray := (r.mdstat.map Mdstat.arrays).getD []

/-- **A pool's own block shows an operation in progress.** -/
def Operating (t : Tables) (r : Reading) (pool : List Char) : Prop :=
  (∃ a ∈ r.arrays, a.name = pool ∧ a.block.any (marked t) = true) ∨
    ∃ b ∈ r.blocks, b.1 = pool ∧ b.2.any (resilvering t) = true

/-- Both sources were read, and list no array. -/
def NoArray (r : Reading) : Prop := r.mdstat.isSome = true ∧ r.zpool.isSome = true ∧ r.arrays = [] ∧ r.blocks = []

/-- A pool is among those listed. -/
def Listed (t : Tables) (r : Reading) (pool : List Char) : Prop := ∃ info ∈ r.pools t, info.name = pool

/-- **The gate fails closed**, and for its own pool only. The sources are read once, and
again when the pool was not listed. -/
structure FailsClosed (t : Tables) (first again : Reading) (pool : List Char) : Prop where
  runs : resync_provider (some (is_array_healthy (first.pools t) (again.pools t) pool)) = false →
    Listed t first pool ∧ ¬Operating t first pool ∨ ¬Listed t first pool ∧ NoArray again
  idle : Listed t first pool → ¬Operating t first pool →
    resync_provider (some (is_array_healthy (first.pools t) (again.pools t) pool)) = false

/-! ## The condition -/

/-- An array that the expression takes: active, and called `md` and digits. -/
def MdArray.plain (t : Tables) (a : MdArray) : Bool := (match_header t a.header).isSome

/-- The three lines from the header of an array on, whatever follows it. -/
def MdArray.window (a : MdArray) (more : List MdArray) (after : List Line) : List Line :=
  (a.block ++ (more.flatMap MdArray.block ++ after)).take 3

/-- **What it takes.** For an array that is listed, three lines from its header on say what
the blocks of that name say; for another pool, the first block of its name does; and what is
not listed is not there: nothing is listed of a host only if both sources were read and it
has no array of any kind. -/
structure Gated (t : Tables) (first again : Reading) (pool : List Char) : Prop where
  array : ∀ m, first.mdstat = some m → ∀ before a more, m.arrays = before ++ a :: more → a.name = pool →
    a.plain t = true → ((a.window more m.after).any (marked t) = true ↔ Operating t first pool)
  block : (∀ a ∈ first.arrays, a.plain t = true → a.name ≠ pool) →
    ∀ b, first.blocks.find? (fun b => b.1 = pool) = some b → (b.2.any (resilvering t) = true ↔ Operating t first pool)
  unlisted : (∀ a ∈ first.arrays, a.plain t = true → a.name ≠ pool) → (∀ b ∈ first.blocks, b.1 ≠ pool) →
    (∀ a ∈ again.arrays, a.plain t = false) → again.blocks = [] → NoArray again

/-! ## Headers -/

/-- What is checked of each letter of a text. -/
theorem of_letters {p : Char → Prop} [DecidablePred p] {text : List Char} (h : (text.all fun c => decide (p c)) = true) :
    ∀ c ∈ text, p c :=
  fun c hc => of_decide_eq_true (List.all_eq_true.mp h c hc)

theorem md_letters : ∀ c ∈ "md".toList, is_space c = false ∧ c ≠ ':' := of_letters (by rfl)

section

variable {t : Tables}

theorem past_some {beginning text rest : List Char} (h : past beginning text = some rest) : text = beginning ++ rest := by
  rw [past] at h
  split at h
  · rename_i hbegins
    rw [← Option.some.inj h]
    exact (List.prefix_iff_eq_append.mp hbegins).symm
  · cases h

/-- A word ends where a space or a colon stands. -/
theorem takeWhile_token {name rest : List Char} (h : ∀ c ∈ name, is_space c = false ∧ c ≠ ':')
    (hrest : rest.head?.all fun c => is_space c || c = ':') :
    (name ++ rest).takeWhile (fun c => !is_space c && decide (c ≠ ':')) = name := by
  rw [List.takeWhile_append_of_pos]
  · rcases rest with _ | ⟨c, rest⟩
    · rw [List.takeWhile_nil, List.append_nil]
    · have hc : (!is_space c && decide (c ≠ ':')) = false := by
        rw [List.head?_cons, Option.all_some, Bool.or_eq_true] at hrest
        rcases hrest with hspace | hcolon
        · rw [hspace]
          rfl
        · rw [of_decide_eq_true hcolon]
          rfl
      rw [List.takeWhile_cons_of_neg (by rw [hc]; exact Bool.false_ne_true), List.append_nil]
  · intro c hc
    obtain ⟨hspace, hcolon⟩ := h c hc
    rw [hspace, decide_eq_true hcolon]
    rfl

/-- What is taken for the name of an array is its name. -/
theorem match_header_name {a : MdArray} {name raid_level rest : List Char}
    (h : match_header t a.header = some (name, raid_level, rest)) : name = a.name := by
  rw [match_header] at h
  obtain ⟨text, hmd, h⟩ := Option.bind_eq_some_iff.mp h
  dsimp only at h
  split at h
  · cases h
  obtain ⟨text', hcolon, h⟩ := Option.bind_eq_some_iff.mp h
  obtain ⟨text'', -, h⟩ := Option.bind_eq_some_iff.mp h
  obtain ⟨tail, -, h⟩ := Option.bind_eq_some_iff.mp h
  obtain ⟨⟨level, tail'⟩, -, h⟩ := Option.bind_eq_some_iff.mp h
  obtain ⟨rest', -, h⟩ := Option.bind_eq_some_iff.mp h
  rw [← (Prod.mk.inj (Option.some.inj h)).1]
  have htext : text = text.takeWhile t.digit ++ text.dropWhile t.digit := List.takeWhile_append_dropWhile.symm
  -- the header, with its first word up to the colon and with its name
  have hread : a.header = ("md".toList ++ text.takeWhile t.digit) ++ text.dropWhile t.digit := by
    rw [List.append_assoc, ← htext]
    exact past_some hmd
  have hname : a.header = a.name ++ (" : ".toList ++ a.state) := List.append_assoc _ _ _
  have hdigits : ∀ c ∈ "md".toList ++ text.takeWhile t.digit, is_space c = false ∧ c ≠ ':' := by
    intro c hc
    rcases List.mem_append.mp hc with hletter | hdigit
    · exact md_letters c hletter
    · exact t.digit_plain c (List.mem_takeWhile_imp hdigit)
  have hend : (text.dropWhile t.digit).head?.all fun c => is_space c || c = ':' := by
    rcases hcases : text.dropWhile t.digit with _ | ⟨c, more⟩
    · rfl
    · rw [List.head?_cons, Option.all_some, Bool.or_eq_true]
      by_cases hspace : is_space c = true
      · exact Or.inl hspace
      · rw [hcases, List.dropWhile_cons_of_neg hspace] at hcolon
        exact Or.inr (decide_eq_true (List.cons.inj (past_some hcolon)).1)
  rw [← takeWhile_token hdigits hend, ← hread, hname]
  exact takeWhile_token a.name_token rfl

/-- Only what begins with `md` is taken for a header. -/
theorem match_header_none {line : Line} (h : ¬"md".toList <+: line) : match_header t line = none := by
  rw [match_header, past, if_neg h]
  rfl

theorem not_md_of_indented {line : Line} (h : indented line = true) : ¬"md".toList <+: line := by
  rintro ⟨rest, rfl⟩
  have hnot : indented ("md".toList ++ rest) = false := rfl
  exact absurd (h.symm.trans hnot) (by decide)

end

/-! ## Arrays -/

section

variable {t : Tables}

variable {lines after : List Line}

theorem lower_joined (t : Tables) (h : lines ≠ []) :
    t.lower ([' '].intercalate lines) = [' '].intercalate (lines.map t.lower) := by
  induction lines with
  | nil => exact absurd rfl h
  | cons line lines ih =>
      rcases lines with _ | ⟨second, lines⟩
      · rw [List.intercalate_singleton, List.map_singleton, List.intercalate_singleton]
      · rw [List.intercalate_cons_cons, List.append_assoc, List.singleton_append, t.lower_space,
          ih (List.cons_ne_nil _ _), List.map_cons, List.map_cons, List.map_cons, List.intercalate_cons_cons, List.append_assoc,
          List.singleton_append]

/-- **A window is marked when a line of it is.** -/
theorem marked_joined (h : lines ≠ []) : marked t ([' '].intercalate lines) = lines.any (marked t) := by
  have hmarkers : ∀ marker ∈ RESYNC_MARKERS, ' ' ∉ marker ∧ marker ≠ [] := by decide
  rw [Bool.eq_iff_iff, marked, List.any_eq_true, List.any_eq_true]
  constructor
  · rintro ⟨marker, hmarker, hinfix⟩
    rw [decide_eq_true_eq, lower_joined t h, Lines.infix_joined_iff (hmarkers marker hmarker).1 (hmarkers marker hmarker).2]
      at hinfix
    obtain ⟨lowered, hlowered, hinfix⟩ := hinfix
    obtain ⟨line, hline, rfl⟩ := List.mem_map.mp hlowered
    exact ⟨line, hline, List.any_eq_true.mpr ⟨marker, hmarker, decide_eq_true hinfix⟩⟩
  · rintro ⟨line, hline, hmarked⟩
    obtain ⟨marker, hmarker, hinfix⟩ := List.any_eq_true.mp hmarked
    refine ⟨marker, hmarker, ?_⟩
    rw [decide_eq_true_eq, lower_joined t h, Lines.infix_joined_iff (hmarkers marker hmarker).1 (hmarkers marker hmarker).2]
    exact ⟨_, List.mem_map_of_mem hline, of_decide_eq_true hinfix⟩

/-- Lines that are no headers are passed over. -/
theorem parse_lines_append (h : ∀ line ∈ lines, ¬"md".toList <+: line) (rest : List Line) :
    parse_lines t (lines ++ rest) = parse_lines t rest := by
  induction lines with
  | nil => rfl
  | cons line lines ih =>
      rw [List.cons_append, parse_lines, match_header_none (h line List.mem_cons_self)]
      exact ih fun l hl => h l (List.mem_cons_of_mem _ hl)

/-- The pool an array is listed as, with what follows it. -/
def MdArray.info (t : Tables) (a : MdArray) (more : List MdArray) (after : List Line) : Option PoolInfo :=
  (match_header t a.header).map fun groups =>
    { name := groups.1, raid_level := groups.2.1, members := members t groups.2.2,
      resyncing := (a.window more after).any (marked t) }

theorem info_name {a : MdArray} {more : List MdArray} {info : PoolInfo} (h : a.info t more after = some info) :
    info.name = a.name ∧ a.plain t = true ∧
      info.resyncing = (a.window more after).any (marked t) := by
  obtain ⟨⟨name, raid_level, rest⟩, hmatch, rfl⟩ := Option.map_eq_some_iff.mp h
  refine ⟨match_header_name hmatch, ?_, rfl⟩
  rw [MdArray.plain, hmatch]
  rfl

theorem info_none {a : MdArray} {more : List MdArray} : a.info t more after = none ↔ a.plain t = false := by
  rw [MdArray.info, Option.map_eq_none_iff, MdArray.plain, Option.isSome_eq_false_iff, Option.isNone_iff_eq_none]

/-- **The arrays are listed one by one**, each with its window. -/
theorem parse_array (a : MdArray) (more : List MdArray) (after : List Line) :
    parse_lines t ((a :: more).flatMap MdArray.block ++ after)
      = (a.info t more after).toList ++ parse_lines t (more.flatMap MdArray.block ++ after) := by
  have hskip : parse_lines t (a.body ++ (more.flatMap MdArray.block ++ after))
      = parse_lines t (more.flatMap MdArray.block ++ after) :=
    parse_lines_append (fun line hline => not_md_of_indented (a.body_lines line hline).1) _
  rw [List.flatMap_cons, List.append_assoc, MdArray.block, List.cons_append, parse_lines, hskip, MdArray.info]
  split
  · rename_i hmatch
    rw [hmatch]
    rfl
  · rename_i name raid_level rest hmatch
    have hwindow : marked t ([' '].intercalate (a.window more after)) = (a.window more after).any (marked t) :=
      marked_joined (List.cons_ne_nil _ _)
    rw [hmatch, Option.map_some, Option.toList_some, List.singleton_append, ← hwindow]
    rfl

/-- The pool that is found among the arrays is the first that is listed under the name. -/
theorem find_array (arrays : List MdArray) (hafter : ∀ line ∈ after, ¬"md".toList <+: line) (pool : List Char) :
    (∀ a ∈ arrays, a.plain t = true → a.name ≠ pool) ∧
        (parse_lines t (arrays.flatMap MdArray.block ++ after)).find? (fun info => info.name = pool) = none ∨
      ∃ before a more info, arrays = before ++ a :: more ∧ a.name = pool ∧ a.plain t = true ∧
        (parse_lines t (arrays.flatMap MdArray.block ++ after)).find? (fun info => info.name = pool) = some info ∧
        info.resyncing = (a.window more after).any (marked t) := by
  induction arrays with
  | nil =>
      refine Or.inl ⟨fun a ha => absurd ha List.not_mem_nil, ?_⟩
      rw [List.flatMap_nil, List.nil_append, ← List.append_nil after, parse_lines_append hafter]
      rfl
  | cons a more ih =>
      rw [parse_array, List.find?_append]
      cases hinfo : a.info t more after with
      | none =>
          have hplain := info_none.mp hinfo
          rw [Option.toList_none, List.find?_nil, Option.none_or]
          rcases ih with ⟨hnone, hfind⟩ | ⟨before, b, rest, info, rfl, hname, hb, hfind, hresyncing⟩
          · refine Or.inl ⟨List.forall_mem_cons.mpr ⟨fun htrue => ?_, hnone⟩, hfind⟩
            rw [hplain] at htrue
            cases htrue
          · exact Or.inr ⟨a :: before, b, rest, info, rfl, hname, hb, hfind, hresyncing⟩
      | some info =>
          obtain ⟨hname, hplain, hresyncing⟩ := info_name hinfo
          rw [Option.toList_some]
          by_cases hpool : a.name = pool
          · have hfound : [info].find? (fun info => decide (info.name = pool)) = some info :=
              List.find?_cons_of_pos (decide_eq_true (hname.trans hpool))
            rw [hfound, Option.some_or]
            exact Or.inr ⟨[], a, more, info, rfl, hpool, hplain, rfl, hresyncing⟩
          · have hother : ¬decide (info.name = pool) = true := fun htrue => hpool (hname ▸ of_decide_eq_true htrue)
            have hmissed : [info].find? (fun info => decide (info.name = pool)) = none := List.find?_cons_of_neg hother
            rw [hmissed, Option.none_or]
            rcases ih with ⟨hnone, hfind⟩ | ⟨before, b, rest, info', rfl, hname', hb, hfind, hresyncing'⟩
            · exact Or.inl ⟨List.forall_mem_cons.mpr ⟨fun _ => hpool, hnone⟩, hfind⟩
            · exact Or.inr ⟨a :: before, b, rest, info', rfl, hname', hb, hfind, hresyncing'⟩

theorem parse_arrays_nil {arrays : List MdArray} (hafter : ∀ line ∈ after, ¬"md".toList <+: line) :
    parse_lines t (arrays.flatMap MdArray.block ++ after) = [] ↔ ∀ a ∈ arrays, a.plain t = false := by
  induction arrays with
  | nil =>
      rw [List.flatMap_nil, List.nil_append, ← List.append_nil after, parse_lines_append hafter]
      exact iff_of_true rfl fun a ha => absurd ha List.not_mem_nil
  | cons a more ih =>
      rw [parse_array, List.append_eq_nil_iff, ih, List.forall_mem_cons, Option.toList_eq_nil_iff, info_none]

end

/-! ## Pools -/

section

variable {t : Tables}

/-- The pool a block is listed as. -/
def block_info (t : Tables) (b : List Char × List Line) : PoolInfo where
  name := b.1
  resyncing := b.2.any (resilvering t)

/-- **The pools are listed block by block.** The invariant of the loop: what it knows of the
pool it is at, and the lines up to the next pool, are that pool's block. -/
theorem pool_lines_eq (t : Tables) (current : Option (List Char)) (resyncing : Bool) (lines : List Line) :
    pool_lines t current resyncing lines
      = close_pool current (resyncing || (current.isSome &&
            (lines.takeWhile fun l => (match_pool l).isNone).any (resilvering t)))
        ++ (pool_blocks lines).map (block_info t) := by
  induction lines generalizing current resyncing with
  | nil =>
      rw [pool_lines, List.takeWhile_nil, List.any_nil, Bool.and_false, Bool.or_false, pool_blocks, List.map_nil,
        List.append_nil]
  | cons line lines ih =>
      rw [pool_lines, pool_blocks]
      cases hpool : match_pool line with
      | none =>
          have htaken : (line :: lines).takeWhile (fun l => (match_pool l).isNone)
              = line :: lines.takeWhile fun l => (match_pool l).isNone :=
            List.takeWhile_cons_of_pos (by rw [hpool, Option.isNone_none])
          dsimp only
          rw [ih, htaken, List.any_cons, Bool.or_assoc, ← Bool.and_or_distrib_left]
      | some name =>
          have hleft : (line :: lines).takeWhile (fun l => (match_pool l).isNone) = [] :=
            List.takeWhile_cons_of_neg (by rw [hpool, Option.isNone_some]; exact Bool.false_ne_true)
          dsimp only
          rw [ih, hleft, List.any_nil, Bool.and_false, Bool.or_false, List.map_cons]
          rfl

/-- What is below the arrays. -/
def Reading.after (r : Reading) : List Line := (r.mdstat.map Mdstat.after).getD []

theorem Reading.after_plain (r : Reading) : ∀ line ∈ r.after, ¬"md".toList <+: line := by
  rcases r with ⟨_ | m, zpool⟩
  · exact fun line hline => absurd hline List.not_mem_nil
  · exact fun line hline => (m.others line (List.mem_append_right _ hline)).1

theorem space_of_break {c : Char} (h : is_break c = true) : is_space c = true := by
  rw [is_break, List.contains_iff_mem] at h
  rw [is_space]
  have hall : ∀ n ∈ [0x0a, 0x0b, 0x0c, 0x0d, 0x1c, 0x1d, 0x1e, 0x85, 0x2028, 0x2029],
      ((9 ≤ n && n ≤ 13) || (28 ≤ n && n ≤ 32) ||
        [0x85, 0xa0, 0x1680, 0x2028, 0x2029, 0x202f, 0x205f, 0x3000].contains n || (0x2000 ≤ n && n ≤ 0x200a)) = true := by
    decide
  exact hall _ h

/-- The lines of the file hold no line break. -/
theorem Mdstat.unbroken (m : Mdstat) : ∀ line ∈ m.lines, ∀ c ∈ line, is_break c = false := by
  intro line hline
  rcases List.mem_append.mp hline with hbefore | hline
  · exact (m.others line (List.mem_append_left _ hbefore)).2
  rcases List.mem_append.mp hline with harray | hafter
  · obtain ⟨a, -, hblock⟩ := List.mem_flatMap.mp harray
    rcases List.mem_cons.mp hblock with rfl | hbody
    · intro c hc
      rcases List.mem_append.mp hc with hc | hstate
      · rcases List.mem_append.mp hc with hname | hcolon
        · rw [← Bool.not_eq_true]
          intro hbreak
          exact absurd ((space_of_break hbreak).symm.trans (a.name_token c hname).1) (by decide)
        · exact of_letters (p := fun c => is_break c = false) (by rfl) c hcolon
      · exact a.state_line c hstate
    · exact (a.body_lines line hbody).2
  · exact (m.others line (List.mem_append_right _ hafter)).2

/-- **What is listed**: the plain arrays, each with its window, and the pools. -/
theorem pools_eq (t : Tables) (r : Reading) :
    r.pools t = parse_lines t (r.arrays.flatMap MdArray.block ++ r.after) ++ r.blocks.map (block_info t) := by
  dsimp only [Reading.pools, list_pools]
  congr 1
  · rcases r with ⟨_ | m, zpool⟩
    · rfl
    · show parse_lines t (splitlines (unlines m.lines)) = parse_lines t (m.arrays.flatMap MdArray.block ++ m.after)
      rw [Lines.splitlines_unlines m.unbroken, Mdstat.lines]
      exact parse_lines_append (fun line hline => (m.others line (List.mem_append_left _ hline)).1) _
  · rcases r with ⟨mdstat, _ | text⟩
    · rfl
    · show (if text = [] then [] else parse_zpool_status t text) = (pool_blocks (splitlines text)).map (block_info t)
      split
      · rename_i hempty
        rw [hempty]
        rfl
      · exact pool_lines_eq t none false (splitlines text)

end

/-! ## The gate -/

section

variable {t : Tables} {first again : Reading} {pool : List Char}

theorem listed_iff : Listed t first pool ↔ ∃ info, (first.pools t).find? (fun info => info.name = pool) = some info := by
  rw [← Option.isSome_iff_exists, List.find?_isSome]
  simp only [Listed, decide_eq_true_eq]

/-- When a pool is listed, the gate asks for what it is listed as. -/
theorem fails_closed_listed {info : PoolInfo}
    (h : (first.pools t).find? (fun info => info.name = pool) = some info) :
    FailsClosed t first again pool ↔ (info.resyncing = true ↔ Operating t first pool) := by
  have hlisted : Listed t first pool := listed_iff.mpr ⟨info, h⟩
  have hgate : resync_provider (some (is_array_healthy (first.pools t) (again.pools t) pool)) = info.resyncing := by
    rw [resync_provider, is_array_healthy, h]
    exact Bool.not_not _
  constructor
  · rintro ⟨hruns, hidle⟩
    rw [hgate] at hruns hidle
    constructor
    · intro htrue
      by_contra hnot
      exact absurd (htrue.symm.trans (hidle hlisted hnot)) (by decide)
    · intro hoperating
      by_contra hfalse
      rcases hruns (Bool.not_eq_true _ ▸ hfalse) with ⟨-, hnot⟩ | ⟨hnot, -⟩
      · exact hnot hoperating
      · exact hnot hlisted
  · intro hiff
    refine ⟨fun hfalse => Or.inl ⟨hlisted, fun hoperating => ?_⟩, fun _ hnot => ?_⟩
    · rw [hgate] at hfalse
      exact absurd ((hiff.mpr hoperating).symm.trans hfalse) (by decide)
    · rw [hgate, ← Bool.not_eq_true]
      exact fun htrue => hnot (hiff.mp htrue)

theorem fails_closed_unlisted (h : (first.pools t).find? (fun info => info.name = pool) = none) :
    FailsClosed t first again pool ↔ (again.pools t = [] → NoArray again) := by
  have hunlisted : ¬Listed t first pool := by
    rw [listed_iff, h]
    rintro ⟨info, hinfo⟩
    cases hinfo
  have hgate : resync_provider (some (is_array_healthy (first.pools t) (again.pools t) pool)) = false ↔
      again.pools t = [] := by
    rw [resync_provider, is_array_healthy, h]
    dsimp only
    rw [Bool.not_eq_false', List.isEmpty_iff]
  constructor
  · rintro ⟨hruns, -⟩ hempty
    rcases hruns (hgate.mpr hempty) with ⟨hlisted, -⟩ | ⟨-, hnone⟩
    · exact absurd hlisted hunlisted
    · exact hnone
  · intro hnone
    exact ⟨fun hfalse => Or.inr ⟨hunlisted, hnone (hgate.mp hfalse)⟩, fun hlisted => absurd hlisted hunlisted⟩

/-- A list without repetitions is split at one place only. -/
theorem split_unique {α κ : Type} {f : α → κ} {xs xs' ys ys' : List α} {a a' : α}
    (hnodup : ((xs ++ a :: ys).map f).Nodup) (h : xs ++ a :: ys = xs' ++ a' :: ys') (hname : f a = f a') :
    a = a' ∧ ys = ys' := by
  induction xs generalizing xs' with
  | nil =>
      rcases xs' with _ | ⟨x, xs'⟩
      · exact List.cons.inj h
      · -- the second stands behind the first
        obtain ⟨-, hrest⟩ := List.cons.inj h
        rw [List.nil_append, List.map_cons, List.nodup_cons, hname, hrest] at hnodup
        exact absurd (List.mem_map_of_mem (List.mem_append_right _ List.mem_cons_self)) hnodup.1
  | cons x xs ih =>
      rw [List.cons_append, List.map_cons, List.nodup_cons] at hnodup
      rcases xs' with _ | ⟨x', xs'⟩
      · obtain ⟨hx, -⟩ := List.cons.inj h
        rw [hx, ← hname] at hnodup
        exact absurd (List.mem_map_of_mem (List.mem_append_right _ List.mem_cons_self)) hnodup.1
      · exact ih hnodup.2 (List.cons.inj h).2

theorem pools_nil_iff : again.pools t = [] ↔ (∀ a ∈ again.arrays, a.plain t = false) ∧ again.blocks = [] := by
  rw [pools_eq, List.append_eq_nil_iff, parse_arrays_nil again.after_plain, List.map_eq_nil_iff]

/-- **When the resync gate fails closed.** For every `/proc/mdstat` and every outcome of
`zpool status`, when they are read and when they are read again, and every pool. -/
theorem resync_gate_iff (t : Tables) (first again : Reading) (pool : List Char) :
    FailsClosed t first again pool ↔ Gated t first again pool := by
  have hfind := congrArg (List.find? fun info => decide (info.name = pool)) (pools_eq t first)
  rw [List.find?_append] at hfind
  rcases find_array first.arrays first.after_plain pool with
    ⟨hno_array, hnone⟩ | ⟨before, a, more, info, hsplit, hname, hplain, hsome, hresyncing⟩
  · rw [hnone, Option.none_or, List.find?_map] at hfind
    cases hblock : first.blocks.find? fun b => b.1 = pool with
    | some b =>
        -- a pool of `zpool status`
        have hlisted : (first.pools t).find? (fun info => decide (info.name = pool)) = some (block_info t b) := by
          rw [hfind]
          exact congrArg (Option.map (block_info t)) hblock
        rw [fails_closed_listed hlisted]
        constructor
        · intro hiff
          refine ⟨fun m hm before a more hm_split hm_name hm_plain => ?_, fun _ b' hb' => ?_, fun _ hno_block => ?_⟩
          · have ha : a ∈ first.arrays := by
              rw [Reading.arrays, hm, Option.map_some, Option.getD_some, hm_split]
              exact List.mem_append_right _ List.mem_cons_self
            exact absurd hm_name (hno_array a ha hm_plain)
          · rw [hblock, Option.some.injEq] at hb'
            rw [← hb']
            exact hiff
          · have hpool := List.find?_some hblock
            exact absurd (of_decide_eq_true hpool) (hno_block b (List.mem_of_find?_eq_some hblock))
        · intro hgated
          exact hgated.block hno_array b hblock
    | none =>
        -- not listed at all
        have hno_block : ∀ b ∈ first.blocks, b.1 ≠ pool := fun b hb heq =>
          absurd (decide_eq_true heq) (List.find?_eq_none.mp hblock b hb)
        have hunlisted : (first.pools t).find? (fun info => decide (info.name = pool)) = none := by
          rw [hfind]
          exact congrArg (Option.map (block_info t)) hblock
        rw [fails_closed_unlisted hunlisted, pools_nil_iff]
        constructor
        · intro hnothing
          refine ⟨fun m hm before a more hm_split hm_name hm_plain => ?_, fun _ b hb => ?_,
            fun _ _ harrays hblocks => hnothing ⟨harrays, hblocks⟩⟩
          · have ha : a ∈ first.arrays := by
              rw [Reading.arrays, hm, Option.map_some, Option.getD_some, hm_split]
              exact List.mem_append_right _ List.mem_cons_self
            exact absurd hm_name (hno_array a ha hm_plain)
          · rw [hblock] at hb
            cases hb
        · rintro hgated ⟨harrays, hblocks⟩
          exact hgated.unlisted hno_array hno_block harrays hblocks
  · -- an array
    rw [hsome, Option.some_or] at hfind
    rw [fails_closed_listed hfind, hresyncing]
    have ha : a ∈ first.arrays := by
      rw [hsplit]
      exact List.mem_append_right _ List.mem_cons_self
    obtain ⟨m, hm⟩ : ∃ m, first.mdstat = some m := by
      rcases hcases : first.mdstat with _ | m
      · rw [Reading.arrays, hcases] at ha
        exact absurd ha List.not_mem_nil
      · exact ⟨m, rfl⟩
    have harrays : first.arrays = m.arrays := by
      rw [Reading.arrays, hm]
      rfl
    have hafter : first.after = m.after := by
      rw [Reading.after, hm]
      rfl
    rw [hafter]
    constructor
    · intro hiff
      refine ⟨fun m' hm' before' a' more' hm_split hm_name _ => ?_, fun hno_array => ?_, fun hno_array => ?_⟩
      · obtain rfl := Option.some.inj (hm.symm.trans hm')
        have hnodup := m.names
        rw [← harrays, hsplit] at hnodup
        obtain ⟨rfl, rfl⟩ := split_unique hnodup ((hsplit.symm.trans harrays).trans hm_split) (hname.trans hm_name.symm)
        exact hiff
      · exact absurd hname (hno_array a ha hplain)
      · exact absurd hname (hno_array a ha hplain)
    · intro hgated
      exact hgated.array m hm before a more (harrays.symm.trans hsplit) hname hplain

end

/-- The tables of ASCII. -/
def ascii : Tables where
  lower := List.map Char.toLower
  digit := Char.isDigit
  alpha := Char.isAlpha
  lower_space := fun a b => by
    rw [List.map_append, List.map_cons]
    rfl
  digit_plain := fun c hc => by
    rw [Char.isDigit, Bool.and_eq_true, decide_eq_true_eq, decide_eq_true_eq] at hc
    have hlow : 48 ≤ c.toNat := hc.1
    have hhigh : c.toNat ≤ 57 := hc.2
    constructor
    · rw [is_space]
      have hlist : [0x85, 0xa0, 0x1680, 0x2028, 0x2029, 0x202f, 0x205f, 0x3000].contains c.toNat = false := by
        rw [List.contains_eq_mem, decide_eq_false_iff_not]
        simp only [List.mem_cons, List.not_mem_nil, or_false]
        omega
      rw [hlist, Bool.or_false, Bool.or_eq_false_iff, Bool.or_eq_false_iff]
      refine ⟨⟨?_, ?_⟩, ?_⟩ <;> rw [Bool.and_eq_false_iff, decide_eq_false_iff_not, decide_eq_false_iff_not] <;> omega
    · rintro rfl
      exact absurd hhigh (by decide)

/-- An array with a name of its own, in a resync. -/
def named_array : MdArray where
  name := "md_home".toList
  state := "active raid1 sda1[0] sdb1[1]".toList
  body := ["      1000 blocks [2/2] [UU]".toList, "      [=>...]  resync = 5.0% (50/1000)".toList]
  name_ne := List.cons_ne_nil _ _
  name_token := of_letters (by rfl)
  state_line := of_letters (by rfl)
  body_lines := by
    refine List.forall_mem_cons.mpr ⟨⟨rfl, of_letters (by rfl)⟩, ?_⟩
    exact List.forall_mem_singleton.mpr ⟨rfl, of_letters (by rfl)⟩

/-- A host with that array, and no ZFS pool. -/
def named_reading : Reading where
  mdstat := some
    { before := ["Personalities : [raid1]".toList]
      arrays := [named_array]
      after := ["unused devices: <none>".toList]
      names := List.nodup_singleton _
      others := by
        refine List.forall_mem_cons.mpr ⟨⟨?_, of_letters (by rfl)⟩, ?_⟩
        · decide
        · exact List.forall_mem_singleton.mpr ⟨by decide, of_letters (by rfl)⟩ }
  zpool := some "no pools available\n".toList

/-- The array is not listed, nothing else is, and the gate lets the scan run into its resync. -/
theorem named_array_not_gated : ¬ ∀ (t : Tables) (first again : Reading) (pool : List Char), FailsClosed t first again pool := by
  intro hall
  have hclosed := hall ascii named_reading named_reading "md_home".toList
  have hoperating : Operating ascii named_reading "md_home".toList :=
    Or.inl ⟨named_array, List.mem_cons_self, rfl, by decide +kernel⟩
  rcases hclosed.runs (by decide +kernel) with ⟨-, hidle⟩ | ⟨-, hnone⟩
  · exact hidle hoperating
  · exact absurd hnone.2.2.1 (List.cons_ne_nil _ _)

end Fathom.Adapters
