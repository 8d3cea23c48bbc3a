/-
**Lines of a text**, as Python's `str.splitlines` takes them apart, and words in them.

A text that is made of lines gives them back, whatever they hold but a character that ends a
line. A word stands in lines that are joined by a character it does not have exactly when it
stands in one of them.
-/
import Mathlib.Data.List.DropRight
import Mathlib.Data.List.Infix

set_option autoImplicit false

namespace Fathom.Lines

/-- The characters that end a line. -/
def is_break (c : Char) : Bool := [0x0a, 0x0b, 0x0c, 0x0d, 0x1c, 0x1d, 0x1e, 0x85, 0x2028, 0x2029].contains c.toNat

/-- A character before the first of some lines. -/
def push (c : Char) : List (List Char) → List (List Char)
  | [] => [[c]]
  | line :: lines => (c :: line) :: lines

/-- `str.splitlines`: a carriage return and a newline end one line. -/
def splitlines : List Char → List (List Char)
  | [] => []
  | '\r' :: '\n' :: text => [] :: splitlines text
  | c :: text => if is_break c then [] :: splitlines text else push c (splitlines text)

/-- Lines, each with a newline behind it. -/
def unlines (lines : List (List Char)) : List Char := lines.flatMap fun line => line ++ ['\n']

theorem splitlines_cons {c : Char} (h : is_break c = false) (text : List Char) :
    splitlines (c :: text) = push c (splitlines text) := by
  have hreturn : c ≠ '\r' := by
    rintro rfl
    exact absurd h (by decide)
  rw [splitlines, if_neg (by rw [h]; exact Bool.false_ne_true)]
  rintro text rfl
  exact absurd rfl hreturn

theorem splitlines_newline (text : List Char) : splitlines ('\n' :: text) = [] :: splitlines text := by
  rw [splitlines, if_pos (by decide)]
  rintro text ⟨⟩

variable {line : List Char}

theorem splitlines_line (h : ∀ c ∈ line, is_break c = false) (text : List Char) :
    splitlines (line ++ '\n' :: text) = line :: splitlines text := by
  induction line with
  | nil => exact splitlines_newline text
  | cons c line ih =>
      rw [List.cons_append, splitlines_cons (h c List.mem_cons_self), ih fun d hd => h d (List.mem_cons_of_mem _ hd)]
      rfl

/-- **A text gives back the lines it is made of.** -/
theorem splitlines_unlines {lines : List (List Char)} (h : ∀ line ∈ lines, ∀ c ∈ line, is_break c = false) :
    splitlines (unlines lines) = lines := by
  induction lines with
  | nil => rfl
  | cons line lines ih =>
      rw [unlines, List.flatMap_cons, List.append_assoc, ← unlines, List.singleton_append,
        splitlines_line (h line List.mem_cons_self), ih fun l hl => h l (List.mem_cons_of_mem _ hl)]

theorem push_ne_nil (c : Char) (lines : List (List Char)) : push c lines ≠ [] := by
  rcases lines with _ | ⟨line, lines⟩
  · exact List.cons_ne_nil _ _
  · exact List.cons_ne_nil _ _

theorem splitlines_ne_nil {text : List Char} (h : text ≠ []) : splitlines text ≠ [] := by
  fun_cases splitlines text with
  | case1 => exact absurd rfl h
  | case2 => exact List.cons_ne_nil _ _
  | case3 => exact List.cons_ne_nil _ _
  | case4 => exact push_ne_nil _ _

/-- A character that goes on a line goes on the first one. -/
theorem splitlines_line_append (h : ∀ c ∈ line, is_break c = false) {text first : List Char} {lines : List (List Char)}
    (htext : splitlines text = first :: lines) : splitlines (line ++ text) = (line ++ first) :: lines := by
  induction line with
  | nil => exact htext
  | cons c line ih =>
      rw [List.cons_append, splitlines_cons (h c List.mem_cons_self), ih fun d hd => h d (List.mem_cons_of_mem _ hd)]
      rfl

/-- **No line has a character that ends one.** -/
theorem splitlines_unbroken {text : List Char} (h : line ∈ splitlines text) : ∀ c ∈ line, is_break c = false := by
  induction text using splitlines.induct generalizing line with
  | case1 => exact absurd h List.not_mem_nil
  | case2 text ih =>
      rw [splitlines] at h
      rcases List.mem_cons.mp h with rfl | h
      · exact fun c hc => absurd hc List.not_mem_nil
      · exact ih h
  | case3 c text hne hbreak ih =>
      rw [splitlines, if_pos hbreak] at h
      · rcases List.mem_cons.mp h with rfl | h
        · exact fun c hc => absurd hc List.not_mem_nil
        · exact ih h
      · exact hne
  | case4 c text hne hplain ih =>
      rw [Bool.not_eq_true] at hplain
      rw [splitlines_cons hplain] at h
      rcases hlines : splitlines text with _ | ⟨first, lines⟩
      · rw [hlines, push, List.mem_singleton] at h
        rw [h]
        exact fun d hd => List.mem_singleton.mp hd ▸ hplain
      · rw [hlines, push] at h
        rw [hlines] at ih
        rcases List.mem_cons.mp h with rfl | h
        · intro d hd
          rcases List.mem_cons.mp hd with rfl | hd
          · exact hplain
          · exact ih List.mem_cons_self d hd
        · exact ih (List.mem_cons_of_mem _ h)

/-- A text that goes on where a line has ended. The end must not be a carriage return with the
newline to come. -/
theorem splitlines_append {a b : List Char} (hend : ∀ c, a.getLast? = some c → is_break c = true)
    (hjoin : a.getLast? = some '\r' → b.head? ≠ some '\n') : splitlines (a ++ b) = splitlines a ++ splitlines b := by
  induction a using splitlines.induct with
  | case1 => rfl
  | case2 text ih =>
      have htail : ∀ c, text.getLast? = some c → ('\r' :: '\n' :: text).getLast? = some c := by
        intro c hc
        rw [List.getLast?_cons_cons, List.getLast?_cons, hc]
        rfl
      rw [List.cons_append, List.cons_append, splitlines, splitlines, List.cons_append,
        ih (fun c hc => hend c (htail c hc)) fun hc => hjoin (htail _ hc)]
  | case3 c text hne hbreak ih =>
      have htail : ∀ d, text.getLast? = some d → (c :: text).getLast? = some d := by
        intro d hd
        rw [List.getLast?_cons, hd]
        rfl
      have hne' : ∀ text', c = '\r' → text ++ b = '\n' :: text' → False := by
        rintro text' rfl heq
        rcases text with _ | ⟨d, text⟩
        · rw [List.nil_append] at heq
          exact hjoin rfl (by rw [heq]; rfl)
        · obtain ⟨rfl, -⟩ := List.cons.inj heq
          exact hne text rfl rfl
      rw [List.cons_append, splitlines, if_pos hbreak, splitlines, if_pos hbreak, List.cons_append,
        ih (fun d hd => hend d (htail d hd)) fun hd => hjoin (htail _ hd)]
      · exact hne
      · exact hne'
  | case4 c text hne hplain ih =>
      rw [Bool.not_eq_true] at hplain
      rcases text with _ | ⟨d, text⟩
      · exact absurd (hend c rfl) (by rw [hplain]; exact Bool.false_ne_true)
      · rw [List.getLast?_cons_cons] at hend hjoin
        rw [List.cons_append, splitlines_cons hplain, splitlines_cons hplain, ih hend hjoin]
        -- the text has a line, so the character does not open one behind it
        rcases hlines : splitlines (d :: text) with _ | ⟨first, lines⟩
        · exact absurd hlines (splitlines_ne_nil (List.cons_ne_nil d text))
        · rfl

/-! ## The first line and the last one -/

/-- What a text has before the first character that ends a line. -/
def first_line (text : List Char) : List Char := text.takeWhile fun c => !is_break c

/-- The lines after the first, of a text with a newline behind it. -/
def later_lines (text : List Char) : List (List Char) := (splitlines (text ++ ['\n'])).tail

/-- What a text has behind the last character that ends a line. -/
def last_line (text : List Char) : List Char := text.rtakeWhile fun c => !is_break c

/-- The lines before the last. -/
def earlier_lines (text : List Char) : List (List Char) := splitlines (text.rdropWhile fun c => !is_break c)

theorem first_line_unbroken (text : List Char) : ∀ c ∈ first_line text, is_break c = false := by
  intro c hc
  simpa using List.mem_takeWhile_imp hc

theorem last_line_unbroken (text : List Char) : ∀ c ∈ last_line text, is_break c = false := by
  intro c hc
  simpa using List.mem_rtakeWhile_imp hc

theorem first_line_append (h : ∀ c ∈ line, is_break c = false) (text : List Char) :
    first_line (line ++ text) = line ++ first_line text :=
  List.takeWhile_append_of_pos fun c hc => by simp [h c hc]

theorem first_line_eq_self (h : ∀ c ∈ line, is_break c = false) : first_line line = line :=
  List.takeWhile_eq_self_iff.mpr fun c hc => by simp [h c hc]

theorem later_lines_unbroken (h : ∀ c ∈ line, is_break c = false) : later_lines line = [] := by
  rw [later_lines, splitlines_line h]
  rfl

/-- **A line of a text, and the next ones**, whatever the line holds. -/
theorem splitlines_newline_append (line text : List Char) :
    splitlines (line ++ '\n' :: text) = first_line line :: (later_lines line ++ splitlines text) := by
  have happend : splitlines (line ++ ['\n'] ++ text) = splitlines (line ++ ['\n']) ++ splitlines text := by
    refine splitlines_append (fun c hc => ?_) fun hc => ?_
    · rw [List.getLast?_concat, Option.some.injEq] at hc
      rw [← hc]
      rfl
    · rw [List.getLast?_concat, Option.some.injEq] at hc
      exact absurd hc (by decide)
  have hfirst : splitlines (line ++ ['\n']) = first_line line :: later_lines line := by
    -- behind the first line the text begins with a character that ends one
    have hrest : ∃ lines, splitlines (line.dropWhile (fun c => !is_break c) ++ ['\n']) = [] :: lines := by
      rcases hdrop : line.dropWhile fun c => !is_break c with _ | ⟨c, more⟩
      · exact ⟨[], rfl⟩
      · have hbreak : is_break c = true := by
          have hhead := List.head_dropWhile_not (fun c => !is_break c) (by rw [hdrop]; exact List.cons_ne_nil _ _)
          simpa [hdrop] using hhead
        rw [List.cons_append]
        unfold splitlines
        split
        · exact absurd ‹_› (by simp)
        · exact ⟨_, rfl⟩
        · rename_i heq
          obtain ⟨rfl, -⟩ := List.cons.inj heq
          exact ⟨_, if_pos hbreak⟩
    obtain ⟨lines, hlines⟩ := hrest
    have hline := splitlines_line_append (first_line_unbroken line) hlines
    rw [← List.append_assoc, first_line, List.takeWhile_append_dropWhile, List.append_nil] at hline
    rw [later_lines, hline]
    rfl
  rw [List.append_assoc, List.singleton_append] at happend
  rw [happend, hfirst]
  rfl

/-- **The lines of lines.** -/
theorem splitlines_unlines_eq (lines : List (List Char)) :
    splitlines (unlines lines) = lines.flatMap fun line => first_line line :: later_lines line := by
  induction lines with
  | nil => rfl
  | cons line lines ih =>
      rw [unlines, List.flatMap_cons, List.append_assoc, List.singleton_append, splitlines_newline_append, ← unlines, ih,
        List.flatMap_cons]
      rfl

theorem later_lines_append (h : ∀ c ∈ line, is_break c = false) (text : List Char) :
    later_lines (line ++ text) = later_lines text := by
  have htext := splitlines_newline_append text []
  have hline := splitlines_line_append h htext
  rw [later_lines, later_lines, htext, List.append_assoc, hline]
  rfl

/-- **The last line of a text goes on**, and the lines before it are lines. -/
theorem splitlines_last_line (text : List Char) {rest : List Char} (h : rest.head? ≠ some '\n') :
    splitlines (text ++ rest) = earlier_lines text ++ splitlines (last_line text ++ rest) := by
  have htext : text.rdropWhile (fun c => !is_break c) ++ last_line text = text :=
    List.rdropWhile_append_rtakeWhile
  rw [earlier_lines, ← splitlines_append, ← List.append_assoc, htext]
  · intro c hc
    rcases List.eq_nil_or_concat (text.rdropWhile fun c => !is_break c) with hnil | ⟨init, d, hlast⟩
    · rw [hnil] at hc
      cases hc
    · have hnot := List.rdropWhile_last_not (fun c => !is_break c) text (by rw [hlast]; simp)
      rw [hlast, List.concat_eq_append, List.getLast?_concat, Option.some.injEq] at hc
      subst hc
      simpa [hlast] using hnot
  · intro _ hhead
    rcases hlast : last_line text with _ | ⟨c, line⟩
    · rw [hlast] at hhead
      exact h hhead
    · rw [hlast, List.cons_append, List.head?_cons, Option.some.injEq] at hhead
      have hplain := last_line_unbroken text c (by rw [hlast]; exact List.mem_cons_self)
      rw [hhead] at hplain
      exact absurd hplain (by decide)

section

variable {α : Type} {word : List α} {sep : α}

/-- A word without the separator does not stand across it. -/
theorem infix_sep_iff (h : sep ∉ word) {xs ys : List α} : word <:+: xs ++ sep :: ys ↔ word <:+: xs ∨ word <:+: ys := by
  rw [List.infix_append_iff]
  constructor
  · rintro (hxs | hys | ⟨front, back, rfl, hfront, hback⟩)
    · exact Or.inl hxs
    · rcases List.infix_cons_iff.mp hys with hbegins | hys
      · rcases word with _ | ⟨a, word⟩
        · exact Or.inl (List.nil_infix)
        · exact absurd (List.cons_prefix_cons.mp hbegins).1 fun heq => h (heq ▸ List.mem_cons_self)
      · exact Or.inr hys
    · rcases back with _ | ⟨a, back⟩
      · rw [List.append_nil]
        exact Or.inl hfront.isInfix
      · -- what begins behind the first part begins with the separator
        obtain ⟨rfl, -⟩ := List.cons_prefix_cons.mp hback
        exact absurd (List.mem_append_right _ List.mem_cons_self) h
  · rintro (hxs | hys)
    · exact Or.inl hxs
    · exact Or.inr (Or.inl (List.infix_cons hys))

/-- **A word stands in joined lines when it stands in one of them.** -/
theorem infix_joined_iff (h : sep ∉ word) (hword : word ≠ []) {lines : List (List α)} :
    word <:+: [sep].intercalate lines ↔ ∃ line ∈ lines, word <:+: line := by
  induction lines with
  | nil =>
      refine iff_of_false (fun hnil => hword (List.infix_nil.mp hnil)) ?_
      rintro ⟨line, hline, -⟩
      exact absurd hline List.not_mem_nil
  | cons line lines ih =>
      rw [List.exists_mem_cons_iff, ← ih]
      rcases lines with _ | ⟨second, lines⟩
      · have hnil : ¬word <:+: [sep].intercalate [] := fun hnil => hword (List.infix_nil.mp hnil)
        rw [or_iff_left hnil, List.intercalate_singleton]
      · rw [List.intercalate_cons_cons, List.append_assoc, List.singleton_append, infix_sep_iff h]

end

end Fathom.Lines
