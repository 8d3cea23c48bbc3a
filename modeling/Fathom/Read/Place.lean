/-
**Where a path stands**: its anchor and its components, the way paths of its flavour are
compared. Two normal paths are the same when they stand at one place, and one is above
another when its components begin the other's, so that what is said of pure paths can be
said of lists of names.
-/
import Fathom.Lib.Totals
import Fathom.Read.Drill

set_option autoImplicit false

namespace Fathom.Read

open Fathom.Security
open Fathom.Ingest

/-- A path that stands somewhere: it has an anchor and normal components. -/
inductive Standing : PurePath → Prop
  | posix {root : List Char} {names : List Name} (h : IsPosix root names) : Standing (.posix root names)
  | windows {drive root : List Char} {names : List Name} (anchor : WindowsAnchor drive root)
      (bare : root = [] → names = []) (normal : ∀ name ∈ names, IsComponent '\\' name) :
      Standing (.windows drive root names)

/-- The anchor of a path, as it is compared. -/
def anchor_of (lower : String → String) : PurePath → List Char × List Char
  | .posix root _ => ([], root)
  | .windows drive root _ => (lowered lower drive, root)

/-- The components of a path, as they are compared. -/
def steps (lower : String → String) : PurePath → List Name
  | .posix _ names => names
  | .windows _ _ names => names.map (lowered lower)

section

variable {lower : String → String} {p q : PurePath}

theorem IsNormal.standing (h : IsNormal p) : Standing p := by
  cases h with
  | posix h => exact .posix h
  | windows h => exact .windows h.anchor h.bare h.normal

/-- What is above a path stands somewhere, too: at a proper beginning of its components. -/
theorem parent_stands (lower : String → String) (h : Standing p) (hq : q ∈ p.parents) :
    Standing q ∧ anchor_of lower q = anchor_of lower p ∧ ∃ more, more ≠ [] ∧ steps lower p = steps lower q ++ more := by
  cases h with
  | @posix root names h =>
      obtain ⟨c, d, hd, rfl, rfl⟩ := mem_parents_iff.mp hq
      exact ⟨.posix ⟨h.root, fun n hn => h.normal n (List.mem_append_left _ hn)⟩, rfl, d, hd, rfl⟩
  | @windows drive root names anchor bare normal =>
      obtain ⟨n, hn, rfl⟩ := List.mem_map.mp hq
      rw [List.mem_reverse, List.mem_range] at hn
      refine ⟨.windows anchor (fun hroot => by rw [bare hroot, List.take_nil])
        fun name hname => normal name (List.mem_of_mem_take hname), rfl, (names.drop n).map (lowered lower), ?_, ?_⟩
      · intro hnil
        have hlen := List.drop_eq_nil_iff.mp (List.map_eq_nil_iff.mp hnil)
        omega
      · rw [steps, steps, ← List.map_append, List.take_append_drop]

/-- Every proper beginning of the components is above the path. -/
theorem exists_parent {c more : List Name} (hmore : more ≠ []) (h : steps lower p = c ++ more) :
    ∃ q ∈ p.parents, anchor_of lower q = anchor_of lower p ∧ steps lower q = c := by
  have hpos := List.length_pos_of_ne_nil hmore
  cases p with
  | posix root names =>
      exact ⟨.posix root c, mem_parents_iff.mpr ⟨c, more, hmore, h, rfl⟩, rfl, rfl⟩
  | windows drive root names =>
      have hlen : names.length = c.length + more.length := by
        have hlen := congrArg List.length h
        rwa [steps, List.length_map, List.length_append] at hlen
      refine ⟨.windows drive root (names.take c.length), List.mem_map.mpr ⟨c.length, ?_, rfl⟩, rfl, ?_⟩
      · rw [List.mem_reverse, List.mem_range]
        omega
      · have htake := congrArg (List.take c.length) h
        rwa [List.take_left, steps, ← List.map_take] at htake

/-- The nearest path above is the components but the last. -/
theorem head_parent (lower : String → String) (hq : p.parents.head? = some q) : ∃ name, steps lower p = steps lower q ++ [name] := by
  cases p with
  | posix root names =>
      obtain ⟨c, x, rfl, rfl⟩ := head_parents_iff.mp hq
      exact ⟨x, rfl⟩
  | windows drive root names =>
      have hhead : ((List.range names.length).reverse.map fun n => PurePath.windows drive root (names.take n)).head? = some q := hq
      rw [parents_head] at hhead
      split at hhead
      · cases hhead
      · rename_i hlen
        obtain rfl := Option.some.inj hhead
        have hne : names ≠ [] := fun hnil => hlen (by rw [hnil]; rfl)
        refine ⟨lowered lower (names.getLast hne), ?_⟩
        rw [steps, steps, ← List.dropLast_eq_take, ← List.map_singleton, ← List.map_append,
          List.dropLast_append_getLast]

theorem exists_head_parent (h : steps lower p ≠ []) : ∃ q, p.parents.head? = some q := by
  refine Option.ne_none_iff_exists'.mp fun hnone => h ?_
  by_contra hne
  obtain ⟨q, hq, -⟩ := exists_parent (c := []) hne rfl
  rw [List.head?_eq_none_iff.mp hnone] at hq
  exact absurd hq List.not_mem_nil

/-- Drives, roots and components that compare equal make texts that do. -/
theorem lowered_text (hlower : Lowers lower) {drive root drive' root' : List Char} {names names' : List Name}
    (h : WindowsAnchor drive root) (hbare : root = [] → names = []) (hnames : ∀ name ∈ names, IsComponent '\\' name)
    (h' : WindowsAnchor drive' root') (hbare' : root' = [] → names' = [])
    (hnames' : ∀ name ∈ names', IsComponent '\\' name) (hdrive : lowered lower drive = lowered lower drive')
    (hroot : root = root') (heq : names.map (lowered lower) = names'.map (lowered lower)) :
    lowered lower (drive ++ root ++ join '\\' names) = lowered lower (drive' ++ root' ++ join '\\' names') := by
  have hparts : ∀ {drive root : List Char} {names : List Name}, WindowsAnchor drive root → (root = [] → names = []) →
      (drive ++ root ++ join '\\' names).splitOn '\\'
        = drive.splitOn '\\' ++ if root = [] then [] else (join '\\' names).splitOn '\\' := by
    intro drive root names h hbare
    have hbare' : root = [] → join '\\' names = [] := fun hroot => by rw [hbare hroot, join_nil]
    obtain ⟨htake, hdrop⟩ := parts_anchored h hbare'
    rw [← htake, ← hdrop, List.take_append_drop]
  have htails : ((join '\\' names).splitOn '\\').map (lowered lower) = ((join '\\' names').splitOn '\\').map (lowered lower) := by
    by_cases hnil : names = []
    · rw [hnil, List.map_nil] at heq
      rw [hnil, List.map_eq_nil_iff.mp heq.symm]
    · have hnil' : names' ≠ [] := fun h' => hnil (List.map_eq_nil_iff.mp (by rw [heq, h', List.map_nil]))
      rw [splitOn_join (fun n hn => (hnames n hn).no_sep) hnil, splitOn_join (fun n hn => (hnames' n hn).no_sep) hnil', heq]
  have hsplit : (lowered lower (drive ++ root ++ join '\\' names)).splitOn '\\'
      = (lowered lower (drive' ++ root' ++ join '\\' names')).splitOn '\\' := by
    rw [hlower.sep, hlower.sep, hparts h hbare, hparts h' hbare', List.map_append, List.map_append, ← hlower.sep,
      ← hlower.sep, hdrive, ← hroot]
    split
    · rfl
    · rw [htails]
  -- a text is what it is split into
  have hjoined := congrArg (List.intercalate ['\\']) hsplit
  rwa [List.intercalate_splitOn, List.intercalate_splitOn] at hjoined

/-- **Paths are the same when they stand at one place.** -/
theorem same_iff (hlower : Lowers lower) (hp : Standing p) (hq : Standing q) :
    PurePath.same lower p q = true ↔ anchor_of lower p = anchor_of lower q ∧ steps lower p = steps lower q := by
  cases hp with
  | posix h =>
      cases hq with
      | posix h' =>
          rw [same_posix lower h h', anchor_of, anchor_of, Prod.mk.injEq, and_iff_right rfl]
          rfl
      | windows anchor _ _ =>
          refine iff_of_false Bool.false_ne_true fun heq => anchor.ne_nil ?_
          exact (hlower.empty _).mp (congrArg Prod.fst heq.1).symm
  | @windows drive root names anchor bare normal =>
      cases hq with
      | posix h' =>
          refine iff_of_false Bool.false_ne_true fun heq => anchor.ne_nil ?_
          exact (hlower.empty _).mp (congrArg Prod.fst heq.1)
      | @windows drive' root' names' anchor' bare' normal' =>
          have hchars : ∀ {drive root : List Char} {names : List Name}, WindowsAnchor drive root →
              (PurePath.windows drive root names).chars = drive ++ root ++ join '\\' names :=
            fun anchor => if_neg fun hnil => anchor.ne_nil hnil.1
          constructor
          · intro hsame
            have htext : lowered lower (PurePath.windows drive root names).chars
                = lowered lower (PurePath.windows drive' root' names').chars := congrArg String.toList (of_decide_eq_true hsame)
            rw [hchars anchor, hchars anchor'] at htext
            obtain ⟨hdrive, hroot, hnames⟩ := lowered_anchored hlower anchor bare normal anchor' bare' normal' htext
            exact ⟨Prod.ext hdrive hroot, hnames⟩
          · rintro ⟨hanchor, hsteps⟩
            refine decide_eq_true (String.toList_injective ?_)
            show lowered lower (PurePath.windows drive root names).chars
              = lowered lower (PurePath.windows drive' root' names').chars
            rw [hchars anchor, hchars anchor']
            exact lowered_text hlower anchor bare normal anchor' bare' normal' (congrArg Prod.fst hanchor)
              (congrArg Prod.snd hanchor) hsteps

/-- A path above another, as places tell it. -/
theorem any_parent_iff (hlower : Lowers lower) (hp : Standing p) (hq : Standing q) :
    q.parents.any (PurePath.same lower p) = true ↔
      anchor_of lower q = anchor_of lower p ∧ Totals.beneath (steps lower p) (steps lower q) = true := by
  rw [List.any_eq_true, Totals.beneath_iff]
  constructor
  · rintro ⟨above, habove, hsame⟩
    obtain ⟨hstands, hanchor, more, hmore, hsteps⟩ := parent_stands lower hq habove
    obtain ⟨hanchor', hsteps'⟩ := (same_iff hlower hp hstands).mp hsame
    exact ⟨hanchor.symm.trans hanchor'.symm, more, hmore, by rw [hsteps, hsteps']⟩
  · rintro ⟨hanchor, more, hmore, hsteps⟩
    obtain ⟨above, habove, hanchor', hsteps'⟩ := exists_parent hmore hsteps
    obtain ⟨hstands, -⟩ := parent_stands lower hq habove
    exact ⟨above, habove, (same_iff hlower hp hstands).mpr ⟨(hanchor'.trans hanchor).symm, hsteps'.symm⟩⟩

/-- The parent of a path, as places tell it. -/
theorem head_parent_iff (hlower : Lowers lower) (hp : Standing p) (hq : Standing q) :
    q.parents.head?.any (PurePath.same lower p) = true ↔
      anchor_of lower q = anchor_of lower p ∧ ∃ name, steps lower q = steps lower p ++ [name] := by
  rw [Option.any_eq_true]
  constructor
  · rintro ⟨above, habove, hsame⟩
    obtain ⟨hstands, hanchor, -⟩ := parent_stands lower hq (List.mem_of_mem_head? habove)
    obtain ⟨name, hsteps⟩ := head_parent lower habove
    obtain ⟨hanchor', hsteps'⟩ := (same_iff hlower hp hstands).mp hsame
    exact ⟨hanchor.symm.trans hanchor'.symm, name, by rw [hsteps, hsteps']⟩
  · rintro ⟨hanchor, name, hsteps⟩
    have hne : steps lower q ≠ [] := by
      rw [hsteps]
      exact List.append_ne_nil_of_right_ne_nil _ (List.cons_ne_nil _ _)
    obtain ⟨above, habove⟩ := exists_head_parent hne
    obtain ⟨hstands, hanchor', -⟩ := parent_stands lower hq (List.mem_of_mem_head? habove)
    obtain ⟨name', hsteps'⟩ := head_parent lower habove
    have hsame : steps lower p = steps lower above := (List.append_inj' (hsteps.symm.trans hsteps') rfl).1
    exact ⟨above, habove, (same_iff hlower hp hstands).mpr ⟨(hanchor'.trans hanchor).symm, hsame⟩⟩

/-- At or below a mount, as places tell it. -/
theorem within_iff (hlower : Lowers lower) (hp : Standing p) (hq : Standing q) :
    PurePath.within lower p q = true ↔ anchor_of lower q = anchor_of lower p ∧ steps lower p <+: steps lower q := by
  rw [PurePath.within, Bool.or_eq_true, same_iff hlower hq hp, any_parent_iff hlower hp hq, Totals.beneath_iff]
  constructor
  · rintro (⟨hanchor, hsteps⟩ | ⟨hanchor, more, -, hsteps⟩)
    · exact ⟨hanchor, hsteps ▸ List.prefix_refl _⟩
    · exact ⟨hanchor, more, hsteps.symm⟩
  · rintro ⟨hanchor, more, hsteps⟩
    by_cases hmore : more = []
    · exact Or.inl ⟨hanchor, by rw [← hsteps, hmore, List.append_nil]⟩
    · exact Or.inr ⟨hanchor, more, hmore, hsteps.symm⟩

end

end Fathom.Read
