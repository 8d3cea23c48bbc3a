/-
**`LIKE` patterns**: what a pattern with an escape character matches, and how a text is
escaped so that it matches itself.

A pattern is read into items first: a character that stands for itself, any one
character, any characters. An escape character takes its meaning from the one after it;
a pattern may not end in one, and matches nothing here if it does. What matches is a text
that falls into pieces, one for each item: `like_iff`.
-/
import Mathlib.Data.List.Forall2
import Mathlib.Data.List.Infix

set_option autoImplicit false

namespace Fathom.Like

/-- One item of a pattern. -/
inductive Item where
  | lit (c : Char)
  /-- `_` -/
  | one
  /-- `%` -/
  | any
  /-- an escape character at the end -/
  | broken
  deriving DecidableEq, Repr

/-- The items of a pattern. -/
def items (esc : Char) : List Char → List Item
  | [] => []
  | c :: cs =>
      if c = esc then
        match cs with
        | [] => [.broken]
        | d :: ds => .lit d :: items esc ds
      else if c = '%' then .any :: items esc cs
      else if c = '_' then .one :: items esc cs
      else .lit c :: items esc cs

/-- Whether some items match a text, whole. -/
def matches_text : List Item → List Char → Bool
  | [], text => text.isEmpty
  | .lit c :: rest, text =>
      match text with
      | [] => false
      | d :: ds => d = c && matches_text rest ds
  | .one :: rest, text =>
      match text with
      | [] => false
      | _ :: ds => matches_text rest ds
  | .any :: rest, text => text.tails.any fun suffix => matches_text rest suffix
  | .broken :: _, _ => false

/-- `text LIKE pattern ESCAPE esc`. -/
def like (esc : Char) (pattern text : List Char) : Bool := matches_text (items esc pattern) text

/-- `s.replace(c, new)`, of one character. -/
def replace (c : Char) (new s : List Char) : List Char := s.flatMap fun d => if d = c then new else [d]

/-- A text with what a pattern gives a meaning to escaped, the escape character first. -/
def escape (esc : Char) (text : List Char) : List Char :=
  replace '_' [esc, '_'] (replace '%' [esc, '%'] (replace esc [esc, esc] text))

/-! ## Pieces -/

/-- What piece of a text an item stands for. -/
inductive Takes : Item → List Char → Prop
  | lit (c : Char) : Takes (.lit c) [c]
  | one (c : Char) : Takes .one [c]
  | any (piece : List Char) : Takes .any piece

/-- A text falls into pieces, one for each item. -/
def FallsInto (is : List Item) (text : List Char) : Prop := ∃ pieces, List.Forall₂ Takes is pieces ∧ pieces.flatten = text

/-- `text LIKE pattern ESCAPE esc`, as the text is read. -/
def Matches (esc : Char) (pattern text : List Char) : Prop := FallsInto (items esc pattern) text

variable {text : List Char} {rest : List Item}

theorem fallsInto_nil_iff : FallsInto [] text ↔ text = [] := by
  constructor
  · rintro ⟨pieces, hpieces, rfl⟩
    rw [List.forall₂_nil_left_iff.mp hpieces, List.flatten_nil]
  · rintro rfl
    exact ⟨[], List.Forall₂.nil, rfl⟩

/-- The first item takes the first piece. -/
theorem fallsInto_cons_iff {item : Item} :
    FallsInto (item :: rest) text ↔ ∃ piece more, Takes item piece ∧ FallsInto rest more ∧ text = piece ++ more := by
  constructor
  · rintro ⟨pieces, hpieces, rfl⟩
    obtain ⟨piece, others, htakes, hothers, rfl⟩ := List.forall₂_cons_left_iff.mp hpieces
    exact ⟨piece, others.flatten, htakes, ⟨others, hothers, rfl⟩, List.flatten_cons⟩
  · rintro ⟨piece, more, htakes, ⟨others, hothers, rfl⟩, rfl⟩
    exact ⟨piece :: others, List.Forall₂.cons htakes hothers, List.flatten_cons⟩

theorem fallsInto_lit_iff {c : Char} :
    FallsInto (.lit c :: rest) text ↔ ∃ more, text = c :: more ∧ FallsInto rest more := by
  rw [fallsInto_cons_iff]
  constructor
  · rintro ⟨piece, more, htakes, hmore, rfl⟩
    cases htakes with
    | lit => exact ⟨more, rfl, hmore⟩
  · rintro ⟨more, rfl, hmore⟩
    exact ⟨[c], more, Takes.lit c, hmore, rfl⟩

theorem fallsInto_one_iff : FallsInto (.one :: rest) text ↔ ∃ c more, text = c :: more ∧ FallsInto rest more := by
  rw [fallsInto_cons_iff]
  constructor
  · rintro ⟨piece, more, htakes, hmore, rfl⟩
    cases htakes with
    | one c => exact ⟨c, more, rfl, hmore⟩
  · rintro ⟨c, more, rfl, hmore⟩
    exact ⟨[c], more, Takes.one c, hmore, rfl⟩

theorem fallsInto_any_iff : FallsInto (.any :: rest) text ↔ ∃ more, more <:+ text ∧ FallsInto rest more := by
  rw [fallsInto_cons_iff]
  constructor
  · rintro ⟨piece, more, -, hmore, rfl⟩
    exact ⟨more, List.suffix_append piece more, hmore⟩
  · rintro ⟨more, ⟨piece, rfl⟩, hmore⟩
    exact ⟨piece, more, Takes.any piece, hmore, rfl⟩

/-- **The matcher finds the pieces**, if there are any. -/
theorem matches_text_iff (is : List Item) (text : List Char) : matches_text is text = true ↔ FallsInto is text := by
  induction is generalizing text with
  | nil =>
      rw [fallsInto_nil_iff]
      exact List.isEmpty_iff
  | cons item rest ih =>
      cases item with
      | lit c =>
          rw [fallsInto_lit_iff]
          cases text with
          | nil => exact iff_of_false Bool.false_ne_true (by simp)
          | cons d ds =>
              show (decide (d = c) && matches_text rest ds) = true ↔ _
              rw [Bool.and_eq_true, decide_eq_true_eq, ih]
              constructor
              · rintro ⟨rfl, hrest⟩
                exact ⟨ds, rfl, hrest⟩
              · rintro ⟨more, htext, hrest⟩
                obtain ⟨rfl, rfl⟩ := List.cons.inj htext
                exact ⟨rfl, hrest⟩
      | one =>
          rw [fallsInto_one_iff]
          cases text with
          | nil => exact iff_of_false Bool.false_ne_true (by simp)
          | cons d ds =>
              show matches_text rest ds = true ↔ _
              rw [ih]
              constructor
              · intro hrest
                exact ⟨d, ds, rfl, hrest⟩
              · rintro ⟨_, more, htext, hrest⟩
                obtain ⟨rfl, rfl⟩ := List.cons.inj htext
                exact hrest
      | any =>
          rw [fallsInto_any_iff, matches_text, List.any_eq_true]
          -- the rest is tried at every suffix
          apply exists_congr
          intro more
          rw [List.mem_tails, ih]
      | broken =>
          apply iff_of_false Bool.false_ne_true
          rw [fallsInto_cons_iff]
          rintro ⟨piece, more, htakes, -⟩
          cases htakes

theorem like_iff {esc : Char} {pattern : List Char} : like esc pattern text = true ↔ Matches esc pattern text :=
  matches_text_iff _ _

/-! ## Escaping -/

section

variable {esc : Char}

theorem replace_append (c : Char) (new s t : List Char) : replace c new (s ++ t) = replace c new s ++ replace c new t :=
  List.flatMap_append

/-- The escape of one character. -/
theorem escape_cons (c : Char) (text : List Char) : escape esc (c :: text) = escape esc [c] ++ escape esc text := by
  rw [escape, show c :: text = [c] ++ text from rfl, replace_append, replace_append, replace_append]
  rfl

theorem escape_singleton (hesc : esc ≠ '%' ∧ esc ≠ '_') (c : Char) :
    escape esc [c] = if c = esc ∨ c = '%' ∨ c = '_' then [esc, c] else [c] := by
  by_cases h : c = esc
  · subst h
    simp [escape, replace, hesc.1, hesc.2]
  · by_cases hany : c = '%'
    · subst hany
      simp [escape, replace, h, hesc.2]
    · by_cases hone : c = '_'
      · subst hone
        simp [escape, replace, h]
      · simp [escape, replace, h, hany, hone]

theorem items_escaped (d : Char) (ds : List Char) : items esc (esc :: d :: ds) = .lit d :: items esc ds := by
  rw [items.eq_def]
  exact if_pos rfl

theorem items_plain {c : Char} (hc : c ≠ esc ∧ c ≠ '%' ∧ c ≠ '_') (cs : List Char) :
    items esc (c :: cs) = .lit c :: items esc cs := by
  rw [items.eq_def]
  dsimp only
  rw [if_neg hc.1, if_neg hc.2.1, if_neg hc.2.2]

/-- **An escaped text stands for itself**, whatever follows it. -/
theorem items_escape (hesc : esc ≠ '%' ∧ esc ≠ '_') (text rest : List Char) :
    items esc (escape esc text ++ rest) = text.map Item.lit ++ items esc rest := by
  induction text with
  | nil => rfl
  | cons c text ih =>
      rw [escape_cons, escape_singleton hesc]
      split
      · rw [List.append_assoc, List.cons_append, List.cons_append, List.nil_append, items_escaped, ih]
        rfl
      · rename_i hplain
        rw [not_or, not_or] at hplain
        rw [List.append_assoc, List.singleton_append, items_plain hplain, ih]
        rfl

theorem matches_any (text : List Char) : matches_text [.any] text = true :=
  List.any_eq_true.mpr ⟨[], (List.mem_tails _ _).mpr List.nil_suffix, rfl⟩

/-- Characters that stand for themselves match a text that starts with them. -/
theorem matches_literal {literal : List Char} :
    matches_text (literal.map Item.lit ++ rest) text = true ↔
      ∃ more, text = literal ++ more ∧ matches_text rest more = true := by
  induction literal generalizing text with
  | nil => exact ⟨fun h => ⟨text, rfl, h⟩, fun ⟨more, htext, h⟩ => htext ▸ h⟩
  | cons c literal ih =>
      rcases text with _ | ⟨d, text⟩
      · exact iff_of_false Bool.false_ne_true (by simp)
      · show (decide (d = c) && matches_text (literal.map Item.lit ++ rest) text) = true ↔ _
        rw [Bool.and_eq_true, decide_eq_true_eq, ih]
        constructor
        · rintro ⟨rfl, more, rfl, hmore⟩
          exact ⟨more, rfl, hmore⟩
        · rintro ⟨more, htext, hmore⟩
          obtain ⟨hd, htext⟩ := List.cons.inj htext
          exact ⟨hd, more, htext, hmore⟩

/-- **The pattern of a prefix.** -/
theorem like_escape_prefix (hesc : esc ≠ '%' ∧ esc ≠ '_') {literal : List Char} :
    like esc (escape esc literal ++ ['%']) text = true ↔ literal <+: text := by
  have hany : items esc ['%'] = [.any] := by
    rw [items.eq_def]
    dsimp only
    rw [if_neg hesc.1.symm, if_pos rfl]
    rfl
  rw [like, items_escape hesc, hany, matches_literal]
  constructor
  · rintro ⟨more, htext, -⟩
    exact ⟨more, htext.symm⟩
  · rintro ⟨more, htext⟩
    exact ⟨more, htext.symm, matches_any more⟩

/-- A character without a meaning in patterns may stand behind an escaped text. -/
theorem escape_plain (hesc : esc ≠ '%' ∧ esc ≠ '_') {c : Char} (hc : c ≠ esc ∧ c ≠ '%' ∧ c ≠ '_') (text : List Char) :
    escape esc (text ++ [c]) = escape esc text ++ [c] := by
  have hsingle : escape esc [c] = [c] := by
    rw [escape_singleton hesc, if_neg]
    rw [not_or, not_or]
    exact hc
  conv_rhs => rw [← hsingle]
  rw [escape, replace_append, replace_append, replace_append]
  rfl

/-- **The pattern of what lies under a directory.** -/
theorem like_escape_under (hesc : esc ≠ '%' ∧ esc ≠ '_') {sep : Char} (hsep : sep ≠ esc ∧ sep ≠ '%' ∧ sep ≠ '_')
    {dir : List Char} : like esc (escape esc dir ++ [sep, '%']) text = true ↔ dir ++ [sep] <+: text := by
  rw [← like_escape_prefix hesc, escape_plain hesc hsep, List.append_assoc]
  rfl

end

/-! ## Without an escape character

What is a prefix of a text as a text is one as a pattern, but not the other way round: the signs of
a pattern cannot be taken back, and a letter matches either case. -/

/-- The items of a pattern in which every `%` and `_` has its meaning. -/
def bare_items (pattern : List Char) : List Item :=
  pattern.map fun c => if c = '%' then .any else if c = '_' then .one else .lit c

/-- `text LIKE pattern`, where a letter of ASCII matches either case. -/
def like_nocase (pattern text : List Char) : Bool :=
  matches_text (bare_items (pattern.map Char.toLower)) (text.map Char.toLower)

/-- Every text matches itself, whatever follows. -/
theorem matches_bare_self (literal : List Char) {more : List Char} (h : matches_text rest more = true) :
    matches_text (bare_items literal ++ rest) (literal ++ more) = true := by
  induction literal with
  | nil => exact h
  | cons c literal ih =>
      rw [bare_items, List.map_cons, List.cons_append, List.cons_append]
      split
      · rw [matches_text, List.any_eq_true]
        exact ⟨literal ++ more, (List.mem_tails _ _).mpr (List.suffix_cons c _), ih⟩
      · split
        · exact ih
        · show (decide (c = c) && _) = true
          rw [decide_eq_true rfl, Bool.true_and]
          exact ih

theorem like_nocase_of_prefix {literal : List Char} (h : literal <+: text) :
    like_nocase (literal ++ ['%']) text = true := by
  obtain ⟨more, rfl⟩ := h
  rw [like_nocase, List.map_append, List.map_append, bare_items, List.map_append]
  exact matches_bare_self _ (matches_any _)

end Fathom.Like
