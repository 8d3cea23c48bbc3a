/-
**Probing the volumes of a target** (`core/deploy/engine.py`): `DeployEngine.probe_volumes`.

`df` prints a mount a line, and its columns are the words of the line: of a mountpoint with a space
in it the first word is taken, and a source with one puts the other columns out of place. A line
may as well end within a source or a mountpoint, since `df` replaces control characters only.
`volumes_faithful_iff` says which mount tables are read for what they are, whatever the figures,
and `probes_faithful_iff` says it of both probes.
-/
import Fathom.Adapters.GenericLinux
import Fathom.Deploy.Listing

set_option autoImplicit false

namespace Fathom.Deploy

open Fathom.Adapters (words space_of_break of_letters)
open Fathom.Config (is_space)
open Fathom.Lines
open Fathom.Security (IsComponent)

/-! ## Reading -/

/-- `BrowseVolume`. -/
structure BrowseVolume where
  mountpoint : List Char
  fs_type : List Char
  total : ℕ
  used : ℕ
  free : ℕ
  deriving DecidableEq

/-- The types of file system that are left out. -/
def is_pseudo (fs_type : List Char) : Bool :=
  ["tmpfs".toList, "devtmpfs".toList, "proc".toList, "sysfs".toList, "overlay".toList, "squashfs".toList].contains fs_type

/-- A line of `df`, and the volume it is read as, if it is one. -/
def volume_of_line (r : Reader) (line : List Char) : Option BrowseVolume :=
  match words line with
  | _ :: fs_type :: total :: used :: free :: _ :: mount :: _ =>
    if is_pseudo fs_type then none
    else
      match int r total, int r used, int r free with
      | some total, some used, some free =>
        if total < 0 ∨ used < 0 ∨ free < 0 then none
        else some { mountpoint := mount, fs_type, total := total.toNat, used := used.toNat, free := free.toNat }
      | _, _, _ => none
  | _ => none

/-- The order of the volumes. -/
def volume_le (a b : BrowseVolume) : Bool := !b.mountpoint.lex a.mountpoint (fun c d => decide (c.toNat < d.toNat))

/-- `probe_volumes`. -/
def probe_volumes (r : Reader) (connected : Except (List Char) Client) : Except (List Char) (List BrowseVolume) :=
  connected.map fun client =>
    (((splitlines client.df.stdout).drop 1).filterMap (volume_of_line r)).mergeSort volume_le

/-! ## Mount tables, and what is printed of them -/

/-- A word, as `str.split` makes them. -/
def IsWord (text : List Char) : Prop := text ≠ [] ∧ ∀ c ∈ text, is_space c = false

/-- A mount. Only the type is known to be a word. -/
structure Mount where
  source : List Char
  fs_type : List Char
  mountpoint : List Char
  type_word : IsWord fs_type

/-- What `df` says of a mount, and how far apart it puts the columns. -/
structure Figures where
  total : ℕ
  used : ℕ
  free : ℕ
  capacity : List Char
  gap : ℕ → ℕ
  capacity_word : IsWord capacity

/-- A control character. -/
def is_control (c : Char) : Bool := c.toNat < 32 || c.toNat == 127

/-- What `df` prints of a text: control characters are replaced. -/
def cell (text : List Char) : List Char := text.map fun c => if is_control c then '?' else c

/-- The space between two columns. -/
def gap (f : Figures) (i : ℕ) : List Char := List.replicate (f.gap i + 1) ' '

/-- The columns between the source and the mountpoint. -/
def columns (m : Mount) (f : Figures) : List Char :=
  gap f 0 ++ (m.fs_type ++ (gap f 1 ++ (Nat.toDigits 10 f.total ++ (gap f 2 ++ (Nat.toDigits 10 f.used ++
    (gap f 3 ++ (Nat.toDigits 10 f.free ++ (gap f 4 ++ (f.capacity ++ gap f 5)))))))))

/-- A line of `df -PTB1`. -/
def df_line (m : Mount) (f : Figures) : List Char := cell m.source ++ (columns m f ++ cell m.mountpoint)

/-- The session in which the volumes are listed. -/
def df_session (header : List Char) (rows : List (Mount × Figures)) : Client where
  find _ _ := { exit_status := 0, stdout := [] }
  du _ := { exit_status := 0, stdout := [] }
  df := { exit_status := 0, stdout := unlines (header :: rows.map fun row => df_line row.1 row.2) }

/-- The volume a mount is. -/
def volume (m : Mount) (f : Figures) : BrowseVolume :=
  { mountpoint := m.mountpoint, fs_type := m.fs_type, total := f.total, used := f.used, free := f.free }

/-- What is returned is the mounts that are not left out, each with its figures. -/
def VolumesExact (rows : List (Mount × Figures)) (result : List BrowseVolume) : Prop :=
  result.Perm ((rows.filter fun row => !is_pseudo row.1.fs_type).map fun row => volume row.1 row.2)

/-- It is for all figures. -/
def VolumesFaithful (r : Reader) (mounts : List Mount) : Prop :=
  ∀ (header : List Char) (rows : List (Mount × Figures)), (∀ c ∈ header, is_break c = false) → rows.map (·.1) = mounts →
    ∃ result, probe_volumes r (.ok (df_session header rows)) = .ok result ∧ VolumesExact rows result

/-- The lines that are printed of a mount. -/
def mount_lines (m : Mount) (f : Figures) : List (List Char) := first_line (df_line m f) :: later_lines (df_line m f)

/-- A mount is read for what it is. Its mountpoint is one word, without control characters; of its
source there is one word behind the last end of a line, and what is before it reads as no volume.
Of a mount that is left out nothing does. -/
structure Legible (r : Reader) (m : Mount) : Prop where
  mountpoint : is_pseudo m.fs_type = false → IsWord m.mountpoint ∧ ∀ c ∈ m.mountpoint, is_control c = false
  source : is_pseudo m.fs_type = false → ∃ word, words (last_line (cell m.source)) = [word]
  earlier : is_pseudo m.fs_type = false → ∀ line ∈ earlier_lines (cell m.source), volume_of_line r line = none
  pseudo : is_pseudo m.fs_type = true → ∀ f, ∀ line ∈ mount_lines m f, volume_of_line r line = none

/-! ## Words -/

theorem words_append_gap (text rest : List Char) (n : ℕ) :
    words (text ++ (List.replicate (n + 1) ' ' ++ rest)) = words text ++ words rest := by
  have hspace : ∀ a b : List Char, words (a ++ ' ' :: b) = words a ++ words b := by
    intro a b
    rw [words, List.splitOnP_append_cons a b (by decide), List.filter_append]
    rfl
  induction n generalizing text with
  | zero => exact hspace text rest
  | succ n ih =>
      have hgap := ih []
      rw [List.nil_append] at hgap
      rw [List.replicate_succ, List.cons_append, hspace, hgap]
      rfl

theorem words_word {text : List Char} (h : IsWord text) : words text = [text] := by
  rw [words, List.splitOnP_eq_singleton h.2]
  exact List.filter_cons_of_pos (decide_eq_true h.1)

theorem toDigits_word (n : ℕ) : IsWord (Nat.toDigits 10 n) :=
  ⟨Nat.toDigits_ne_nil, fun c hc => (ordinary_of_digit (toDigits_digit c hc)).space⟩

/-- A word is one, and is made of characters of the text. -/
theorem isWord_of_mem_words {text word : List Char} (h : word ∈ words text) : IsWord word ∧ ∀ c ∈ word, c ∈ text := by
  obtain ⟨hmem, hne⟩ := List.mem_filter.mp h
  have hpieces : ∀ piece ∈ text.splitOnP is_space, ∀ c ∈ piece, is_space c = false ∧ c ∈ text := by
    clear h hmem hne
    induction text with
    | nil =>
        intro piece hpiece c hc
        rw [List.splitOnP_nil, List.mem_singleton] at hpiece
        rw [hpiece] at hc
        exact absurd hc List.not_mem_nil
    | cons d text ih =>
        intro piece hpiece c hc
        rw [List.splitOnP_cons_eq_if_modifyHead] at hpiece
        split at hpiece
        · rcases List.mem_cons.mp hpiece with rfl | hpiece
          · exact absurd hc List.not_mem_nil
          · exact ⟨(ih piece hpiece c hc).1, List.mem_cons_of_mem _ (ih piece hpiece c hc).2⟩
        · rename_i hplain
          rcases hrest : text.splitOnP is_space with _ | ⟨first, rest⟩
          · exact absurd hrest (List.splitOnP_ne_nil _ _)
          · rw [hrest, List.modifyHead_cons] at hpiece
            rw [hrest] at ih
            rcases List.mem_cons.mp hpiece with rfl | hpiece
            · rcases List.mem_cons.mp hc with rfl | hc
              · exact ⟨Bool.eq_false_iff.mpr hplain, List.mem_cons_self⟩
              · have hboth := ih first List.mem_cons_self c hc
                exact ⟨hboth.1, List.mem_cons_of_mem _ hboth.2⟩
            · have hboth := ih piece (List.mem_cons_of_mem _ hpiece) c hc
              exact ⟨hboth.1, List.mem_cons_of_mem _ hboth.2⟩
  exact ⟨⟨of_decide_eq_true hne, fun c hc => (hpieces word hmem c hc).1⟩, fun c hc => (hpieces word hmem c hc).2⟩

/-- **What a volume is read from.** -/
theorem volume_of_line_eq_some {r : Reader} {line : List Char} {v : BrowseVolume} (h : volume_of_line r line = some v) :
    ∃ first total used free capacity rest,
      words line = first :: v.fs_type :: total :: used :: free :: capacity :: v.mountpoint :: rest ∧
        int r total = some (v.total : Int) := by
  rw [volume_of_line] at h
  split at h
  · rename_i first fs_type total used free capacity mount rest hwords
    split at h
    · cases h
    · split at h
      · rename_i t u f htotal hused hfree
        split at h
        · cases h
        · rename_i hnonneg
          obtain rfl := Option.some.inj h
          refine ⟨first, total, used, free, capacity, rest, hwords, ?_⟩
          rw [htotal]
          dsimp only
          rw [Int.toNat_of_nonneg (by omega)]
      · cases h
  · cases h

/-! ## The lines of a mount -/

section

variable {r : Reader} {m : Mount} {f : Figures}

theorem unbroken_of_word {text : List Char} (h : IsWord text) : ∀ c ∈ text, is_break c = false := by
  intro c hc
  rw [← Bool.not_eq_true]
  intro hbreak
  exact absurd (space_of_break hbreak) (by rw [h.2 c hc]; exact Bool.false_ne_true)

theorem columns_unbroken (m : Mount) (f : Figures) : ∀ c ∈ columns m f, is_break c = false := by
  have hgap : ∀ i, ∀ c ∈ gap f i, is_break c = false := by
    intro i c hc
    rw [List.eq_of_mem_replicate hc]
    decide
  have happend : ∀ {a b : List Char}, (∀ c ∈ a, is_break c = false) → (∀ c ∈ b, is_break c = false) →
      ∀ c ∈ a ++ b, is_break c = false := fun ha hb c hc =>
    (List.mem_append.mp hc).elim (ha c) (hb c)
  exact happend (hgap 0) (happend (unbroken_of_word m.type_word) (happend (hgap 1) (happend
    (unbroken_of_word (toDigits_word f.total)) (happend (hgap 2) (happend (unbroken_of_word (toDigits_word f.used))
      (happend (hgap 3) (happend (unbroken_of_word (toDigits_word f.free)) (happend (hgap 4) (happend
        (unbroken_of_word f.capacity_word) (hgap 5))))))))))

/-- The line that has the figures of a mount. -/
def main_line (m : Mount) (f : Figures) : List Char :=
  last_line (cell m.source) ++ (columns m f ++ first_line (cell m.mountpoint))

/-- **The lines of a mount**: those within its source, the one with the figures, and those within its
mountpoint. -/
theorem mount_lines_eq (m : Mount) (f : Figures) :
    mount_lines m f = earlier_lines (cell m.source) ++ main_line m f :: later_lines (cell m.mountpoint) := by
  have hlines : splitlines (df_line m f ++ ['\n']) = mount_lines m f ++ splitlines [] :=
    splitlines_newline_append (df_line m f) []
  have hhead : (columns m f ++ (cell m.mountpoint ++ ['\n'])).head? ≠ some '\n' := by
    intro heq
    have hspace : (columns m f ++ (cell m.mountpoint ++ ['\n'])).head? = some ' ' := rfl
    rw [hspace] at heq
    exact absurd heq (by decide)
  have hprefix : ∀ c ∈ last_line (cell m.source) ++ columns m f, is_break c = false := by
    intro c hc
    rcases List.mem_append.mp hc with hc | hc
    · exact last_line_unbroken _ c hc
    · exact columns_unbroken m f c hc
  have hmain := splitlines_line_append hprefix (splitlines_newline_append (cell m.mountpoint) [])
  rw [show splitlines [] = [] from rfl, List.append_nil] at hlines hmain
  rw [← hlines, df_line, List.append_assoc, List.append_assoc, splitlines_last_line _ hhead, ← List.append_assoc
    (last_line (cell m.source)), hmain, main_line, List.append_assoc]

/-- **The columns of the line with the figures.** -/
theorem words_main_line (m : Mount) (f : Figures) : words (main_line m f) = words (last_line (cell m.source)) ++
      (m.fs_type :: Nat.toDigits 10 f.total :: Nat.toDigits 10 f.used :: Nat.toDigits 10 f.free :: f.capacity ::
        words (first_line (cell m.mountpoint))) := by
  rw [main_line, columns]
  simp only [List.append_assoc, gap]
  rw [words_append_gap, words_append_gap, words_append_gap, words_append_gap, words_append_gap, words_append_gap,
    words_word m.type_word, words_word (toDigits_word _), words_word (toDigits_word _), words_word (toDigits_word _),
    words_word f.capacity_word]
  rfl

/-! ## What a mount is read as -/

/-- The volumes that are read of a mount. -/
def reads (r : Reader) (m : Mount) (f : Figures) : List BrowseVolume := (mount_lines m f).filterMap (volume_of_line r)

theorem reads_eq (r : Reader) (m : Mount) (f : Figures) :
    reads r m f = (earlier_lines (cell m.source)).filterMap (volume_of_line r) ++
      ((volume_of_line r (main_line m f)).toList ++ (later_lines (cell m.mountpoint)).filterMap (volume_of_line r)) := by
  rw [reads, mount_lines_eq, List.filterMap_append, List.filterMap_cons]
  rcases volume_of_line r (main_line m f) with _ | v
  · rfl
  · rfl

theorem probe_eq (r : Reader) {header : List Char} (rows : List (Mount × Figures)) (h : ∀ c ∈ header, is_break c = false) :
    probe_volumes r (.ok (df_session header rows)) =
      .ok ((rows.flatMap fun row => reads r row.1 row.2).mergeSort volume_le) := by
  have hlines : (splitlines (unlines (header :: rows.map fun row => df_line row.1 row.2))).drop 1 =
      rows.flatMap fun row => mount_lines row.1 row.2 := by
    rw [splitlines_unlines_eq, List.flatMap_cons, later_lines_unbroken h, List.flatMap_map]
    rfl
  rw [probe_volumes, Except.map]
  show Except.ok (((((splitlines (unlines (header :: rows.map fun row => df_line row.1 row.2))).drop 1).filterMap
    (volume_of_line r))).mergeSort volume_le) = _
  rw [hlines, List.filterMap_flatMap]
  rfl

theorem cell_eq_self {text : List Char} (h : ∀ c ∈ text, is_control c = false) : cell text = text := by
  rw [cell]
  refine (List.map_congr_left fun c hc => ?_).trans (List.map_id text)
  rw [h c hc]
  rfl

theorem cell_uncontrolled (text : List Char) : ∀ c ∈ cell text, is_control c = false := by
  intro c hc
  obtain ⟨d, -, rfl⟩ := List.mem_map.mp hc
  split
  · decide
  · rename_i hd
    exact Bool.eq_false_iff.mpr hd

/-- A mountpoint that is a word is printed as it is, on one line. -/
theorem first_line_mountpoint (h : IsWord m.mountpoint) (h' : ∀ c ∈ m.mountpoint, is_control c = false) :
    first_line (cell m.mountpoint) = m.mountpoint ∧ later_lines (cell m.mountpoint) = [] := by
  rw [cell_eq_self h']
  exact ⟨first_line_eq_self (unbroken_of_word h), later_lines_unbroken (unbroken_of_word h)⟩

/-- The line with the figures, when one word is before them and the mountpoint behind. -/
theorem volume_of_main_line (hpseudo : is_pseudo m.fs_type = false) {word : List Char}
    (hsource : words (last_line (cell m.source)) = [word]) {rest : List (List Char)}
    (hmount : words (first_line (cell m.mountpoint)) = m.mountpoint :: rest) :
    volume_of_line r (main_line m f) = some (volume m f) := by
  have hnonneg : ¬ (((f.total : ℕ) : Int) < 0 ∨ ((f.used : ℕ) : Int) < 0 ∨ ((f.free : ℕ) : Int) < 0) := by omega
  rw [volume_of_line, words_main_line, hsource, hmount]
  dsimp only [List.singleton_append]
  rw [hpseudo, int_toDigits, int_toDigits, int_toDigits, if_neg Bool.false_ne_true]
  dsimp only
  rw [if_neg hnonneg]
  rfl

/-- **A legible mount** is read as the volume it is, and as none if it is left out. -/
theorem reads_legible (h : Legible r m) : reads r m f = if is_pseudo m.fs_type then [] else [volume m f] := by
  cases hpseudo : is_pseudo m.fs_type with
  | true => exact List.filterMap_eq_nil_iff.mpr (h.pseudo hpseudo f)
  | false =>
      obtain ⟨hword, hplain⟩ := h.mountpoint hpseudo
      obtain ⟨word, hsource⟩ := h.source hpseudo
      obtain ⟨hfirst, hlater⟩ := first_line_mountpoint hword hplain
      have hmount : words (first_line (cell m.mountpoint)) = m.mountpoint :: [] := by
        rw [hfirst]
        exact words_word hword
      rw [reads_eq, List.filterMap_eq_nil_iff.mpr (h.earlier hpseudo), volume_of_main_line hpseudo hsource hmount, hlater]
      rfl

/-! ## Figures that no text has -/

/-- The words of a mount. -/
def texts (m : Mount) : List (List Char) :=
  m.fs_type :: (earlier_lines (cell m.source) ++ last_line (cell m.source) :: first_line (cell m.mountpoint) ::
    later_lines (cell m.mountpoint)).flatMap words

/-- There are numbers that none of some words is read as. -/
theorem exists_fresh (r : Reader) (xs : List (List Char)) :
    ∃ n : ℕ, 1 < n ∧ ∀ k, n ≤ k → ∀ x ∈ xs, int r x ≠ some (k : Int) := by
  induction xs with
  | nil => exact ⟨2, by decide, fun _ _ _ hx => absurd hx List.not_mem_nil⟩
  | cons x xs ih =>
      obtain ⟨n, hn, hfresh⟩ := ih
      refine ⟨n + ((int r x).getD 0).toNat + 1, by omega, fun k hk y hy => ?_⟩
      rcases List.mem_cons.mp hy with rfl | hy
      · intro heq
        rw [heq, Option.getD_some] at hk
        omega
      · exact hfresh k (by omega) y hy

/-- Figures of which only the total says anything. `df` does not know how full the volume is. -/
def only_total (total : ℕ) : Figures where
  total := total
  used := 0
  free := 1
  capacity := ['-']
  gap := fun _ => 0
  capacity_word := ⟨List.cons_ne_nil _ _, fun c hc => by rw [List.mem_singleton.mp hc]; decide⟩

/-- **Where a fresh total is read**, one word is before the figures, and the mountpoint is read
behind them. -/
theorem main_of_fresh {total k : ℕ} {line : List Char} {v : BrowseVolume} (hk : 1 < k)
    (hfresh : ∀ x ∈ texts m, int r x ≠ some (k : Int)) (hline : line ∈ mount_lines m (only_total total))
    (h : volume_of_line r line = some v) (hv : v.total = k) :
    total = k ∧ (∃ word, words (last_line (cell m.source)) = [word]) ∧
      ∃ rest, words (first_line (cell m.mountpoint)) = v.mountpoint :: rest := by
  obtain ⟨first, column, used, free, capacity, rest, hwords, hint⟩ := volume_of_line_eq_some h
  rw [hv] at hint
  -- a word of a text is not read as the total
  have hnot : ∀ {text : List Char}, text ∈ earlier_lines (cell m.source) ++ last_line (cell m.source) ::
      first_line (cell m.mountpoint) :: later_lines (cell m.mountpoint) → column ∉ words text := fun htext hcolumn =>
    hfresh column (List.mem_cons_of_mem _ (List.mem_flatMap.mpr ⟨_, htext, hcolumn⟩)) hint
  have hcolumn : column ∈ words line := by
    rw [hwords]
    simp
  rw [mount_lines_eq] at hline
  rcases List.mem_append.mp hline with hline | hline
  · exact absurd hcolumn (hnot (List.mem_append_left _ hline))
  rcases List.mem_cons.mp hline with rfl | hline
  · rw [words_main_line] at hwords
    have hlast := hnot (List.mem_append_right _ List.mem_cons_self)
    -- the total is the third column, so one word is before the type
    rcases hbefore : words (last_line (cell m.source)) with _ | ⟨a, _ | ⟨b, _ | ⟨c, before⟩⟩⟩
    · rw [hbefore, List.nil_append] at hwords
      simp only [List.cons.injEq] at hwords
      rw [← hwords.2.2.1, int_toDigits] at hint
      have heq : (only_total total).used = 0 := rfl
      rw [heq, Option.some.injEq] at hint
      omega
    · rw [hbefore, List.singleton_append] at hwords
      simp only [List.cons.injEq] at hwords
      obtain ⟨-, -, hcolumn, -, -, -, hmount⟩ := hwords
      rw [← hcolumn, int_toDigits, Option.some.injEq] at hint
      refine ⟨?_, ⟨a, rfl⟩, rest, hmount⟩
      exact Int.ofNat.inj hint
    · rw [hbefore] at hwords
      simp only [List.cons_append, List.nil_append, List.cons.injEq] at hwords
      rw [← hwords.2.2.1] at hint
      exact absurd hint (hfresh m.fs_type List.mem_cons_self)
    · rw [hbefore] at hwords hlast
      simp only [List.cons_append, List.cons.injEq] at hwords
      rw [← hwords.2.2.1] at hlast
      exact absurd (List.mem_cons_of_mem _ (List.mem_cons_of_mem _ List.mem_cons_self)) hlast
  · exact absurd hcolumn (hnot (List.mem_append_right _ (List.mem_cons_of_mem _ (List.mem_cons_of_mem _ hline))))

/-! ## When a probe is faithful -/

/-- The volumes that are read of all mounts. -/
theorem reads_of_faithful {mounts : List Mount} (h : VolumesFaithful r mounts) {rows : List (Mount × Figures)}
    (hrows : rows.map (·.1) = mounts) :
    (rows.flatMap fun row => reads r row.1 row.2).Perm
      ((rows.filter fun row => !is_pseudo row.1.fs_type).map fun row => volume row.1 row.2) := by
  have hheader : ∀ c ∈ ([] : List Char), is_break c = false := fun _ hc => absurd hc List.not_mem_nil
  obtain ⟨result, hresult, hexact⟩ := h [] rows hheader hrows
  rw [probe_eq r rows hheader, Except.ok.injEq] at hresult
  rw [VolumesExact, ← hresult] at hexact
  exact (List.mergeSort_perm _ _).symm.trans hexact

/-- A mount that is read for what it is, whatever its total, has one word before the figures, and
its mountpoint is one word. -/
theorem columns_of_faithful {mounts : List Mount} (h : VolumesFaithful r mounts) (hm : m ∈ mounts)
    (hpseudo : is_pseudo m.fs_type = false) :
    (∃ word, words (last_line (cell m.source)) = [word]) ∧ IsWord m.mountpoint ∧
      ∀ c ∈ m.mountpoint, is_control c = false := by
  obtain ⟨k, hk, hfresh⟩ := exists_fresh r (mounts.flatMap texts)
  obtain ⟨before, behind, rfl⟩ := List.append_of_mem hm
  let rows : List (Mount × Figures) := before.map (·, only_total 1) ++ (m, only_total k) :: behind.map (·, only_total 1)
  have hrows : rows.map (·.1) = before ++ m :: behind := by
    simp only [rows, List.map_append, List.map_cons, List.map_map]
    congr 1
    · exact List.map_id _
    · exact congrArg _ (List.map_id _)
  have hmem : volume m (only_total k) ∈ rows.flatMap fun row => reads r row.1 row.2 := by
    refine (reads_of_faithful h hrows).mem_iff.mpr (List.mem_map.mpr ⟨(m, only_total k), List.mem_filter.mpr ⟨?_, ?_⟩, rfl⟩)
    · exact List.mem_append_right _ List.mem_cons_self
    · rw [hpseudo]
      rfl
  obtain ⟨row, hrow, hreads⟩ := List.mem_flatMap.mp hmem
  obtain ⟨line, hline, hread⟩ := List.mem_filterMap.mp hreads
  -- no other mount has this total
  have hother : ∀ m' ∈ before ++ m :: behind, (m', only_total 1) ≠ row := by
    rintro m' hm' rfl
    have htotal := (main_of_fresh hk (fun x hx => hfresh k (Nat.le_refl k) x (List.mem_flatMap.mpr ⟨m', hm', hx⟩)) hline
      hread rfl).1
    omega
  have hself : row = (m, only_total k) := by
    rcases List.mem_append.mp hrow with hrow | hrow
    · obtain ⟨m', hm', rfl⟩ := List.mem_map.mp hrow
      exact absurd rfl (hother m' (List.mem_append_left _ hm'))
    · rcases List.mem_cons.mp hrow with rfl | hrow
      · rfl
      · obtain ⟨m', hm', rfl⟩ := List.mem_map.mp hrow
        exact absurd rfl (hother m' (List.mem_append_right _ (List.mem_cons_of_mem _ hm')))
  rw [hself] at hline
  obtain ⟨-, hsource, rest, hmount⟩ := main_of_fresh hk
    (fun x hx => hfresh k (Nat.le_refl k) x (List.mem_flatMap.mpr ⟨m, hm, hx⟩)) hline hread rfl
  have hword : m.mountpoint ∈ words (first_line (cell m.mountpoint)) := by
    rw [hmount]
    exact List.mem_cons_self
  obtain ⟨hisword, hchars⟩ := isWord_of_mem_words hword
  exact ⟨hsource, hisword, fun c hc => cell_uncontrolled m.mountpoint c (List.takeWhile_subset _ (hchars c hc))⟩

/-- Counts that are no less than others add up to the same only where they are the same. -/
theorem eq_of_sum_eq {α : Type} {xs : List α} {low high : α → ℕ} (hle : ∀ x ∈ xs, low x ≤ high x)
    (hsum : (xs.map high).sum = (xs.map low).sum) : ∀ x ∈ xs, high x = low x := by
  have hboth : (xs.map low).sum ≤ (xs.map high).sum ∧
      ((xs.map high).sum = (xs.map low).sum → ∀ x ∈ xs, high x = low x) := by
    clear hsum
    induction xs with
    | nil => exact ⟨Nat.le_refl _, fun _ x hx => absurd hx List.not_mem_nil⟩
    | cons x xs ih =>
        obtain ⟨hrest, heq⟩ := ih fun y hy => hle y (List.mem_cons_of_mem _ hy)
        have hx := hle x List.mem_cons_self
        simp only [List.map_cons, List.sum_cons]
        refine ⟨by omega, fun hsum y hy => ?_⟩
        rcases List.mem_cons.mp hy with rfl | hy
        · omega
        · exact heq (by omega) y hy
  exact hboth.2 hsum

/-- **A probe is faithful**, for a mount table and whatever figures, if and only if its mounts are
legible. -/
theorem volumes_faithful_iff {mounts : List Mount} : VolumesFaithful r mounts ↔ ∀ m ∈ mounts, Legible r m := by
  constructor
  · intro h
    have hcolumns := fun m hm hpseudo => columns_of_faithful (m := m) h hm hpseudo
    -- with one figure for all of them, no mount is read as more than it is
    have hcount : ∀ f, ∀ m ∈ mounts, (reads r m f).length = if is_pseudo m.fs_type then 0 else 1 := by
      intro f
      let rows : List (Mount × Figures) := mounts.map (·, f)
      have hrows : rows.map (·.1) = mounts := by
        simp only [rows, List.map_map]
        exact List.map_id _
      refine eq_of_sum_eq (fun m hm => ?_) ?_
      · cases hpseudo : is_pseudo m.fs_type with
        | true => exact Nat.zero_le _
        | false =>
            obtain ⟨⟨word, hsource⟩, hword, hplain⟩ := hcolumns m hm hpseudo
            obtain ⟨hfirst, hlater⟩ := first_line_mountpoint hword hplain
            have hmount : words (first_line (cell m.mountpoint)) = m.mountpoint :: [] := by
              rw [hfirst]
              exact words_word hword
            rw [reads_eq, volume_of_main_line hpseudo hsource hmount, List.length_append, List.length_append]
            exact Nat.le_add_left_of_le (Nat.le_add_right 1 _)
      · have hlength := (reads_of_faithful h hrows).length_eq
        rw [List.length_flatMap, List.length_map] at hlength
        have hleft : (rows.map fun row => (reads r row.1 row.2).length) = mounts.map fun m => (reads r m f).length := by
          simp only [rows, List.map_map]
          rfl
        have hright : ∀ ms : List Mount, ((ms.map (·, f)).filter fun row : Mount × Figures => !is_pseudo row.1.fs_type).length =
            (ms.map fun m => if is_pseudo m.fs_type then 0 else 1).sum := by
          intro ms
          induction ms with
          | nil => rfl
          | cons m ms ih =>
              rw [List.map_cons, List.filter_cons, List.map_cons, List.sum_cons, ← ih]
              cases is_pseudo m.fs_type with
              | true => exact (Nat.zero_add _).symm
              | false => exact Nat.add_comm _ _
        rw [hleft, hright] at hlength
        exact hlength
    intro m hm
    refine ⟨fun hpseudo => (hcolumns m hm hpseudo).2, fun hpseudo => (hcolumns m hm hpseudo).1, fun hpseudo => ?_,
      fun hpseudo f => ?_⟩
    · obtain ⟨⟨word, hsource⟩, hword, hplain⟩ := hcolumns m hm hpseudo
      obtain ⟨hfirst, hlater⟩ := first_line_mountpoint hword hplain
      have hmount : words (first_line (cell m.mountpoint)) = m.mountpoint :: [] := by
        rw [hfirst]
        exact words_word hword
      have hlength := hcount (only_total 1) m hm
      rw [reads_eq, volume_of_main_line hpseudo hsource hmount, hpseudo, if_neg Bool.false_ne_true, List.length_append,
        List.length_append] at hlength
      rw [← List.filterMap_eq_nil_iff, ← List.length_eq_zero_iff]
      rw [Option.toList_some, List.length_singleton] at hlength
      omega
    · have hlength := hcount f m hm
      rw [hpseudo, if_pos rfl, List.length_eq_zero_iff] at hlength
      exact List.filterMap_eq_nil_iff.mp hlength
  · intro hlegible header rows hheader hrows
    refine ⟨_, probe_eq r rows hheader, (List.mergeSort_perm _ _).trans (List.Perm.of_eq ?_)⟩
    have hmem : ∀ row ∈ rows, Legible r row.1 := fun row hrow => hlegible row.1 (hrows ▸ List.mem_map_of_mem hrow)
    clear hrows
    induction rows with
    | nil => rfl
    | cons row rows ih =>
        rw [List.flatMap_cons, ih fun other hother => hmem other (List.mem_cons_of_mem _ hother),
          reads_legible (hmem row List.mem_cons_self), List.filter_cons]
        cases is_pseudo row.1.fs_type with
        | true => rfl
        | false => rfl

end

/-- **The probes of a target** give what is there. A directory is listed faithfully, whatever `du`
has to say of it, if and only if the names that are listed are plain and, with sizes, nothing is
read as the size of a directory among them but its own. The volumes are, whatever their figures,
if and only if the mounts are legible. -/
theorem probes_faithful_iff (r : Reader) :
    (∀ (dir : Directory) (with_sizes : Bool) (max_entries : ℕ),
      BrowseFaithful r dir with_sizes max_entries ↔
        (∀ child ∈ dir.children.take max_entries, Plain child.name) ∧
          (with_sizes = true → ∀ child ∈ dir.children.take max_entries, child.ftype = .directory →
            Undisturbed r dir child.name)) ∧
    ∀ mounts : List Mount, VolumesFaithful r mounts ↔ ∀ m ∈ mounts, Legible r m :=
  ⟨fun _ _ _ => browse_faithful_iff, fun _ => volumes_faithful_iff⟩

/-! ## What is not read for what it is -/

/-- ASCII texts. -/
def ascii_reader : Reader where
  lower text := text.map Char.toLower
  digit_value c := if c.isDigit then some (c.toNat - '0'.toNat) else none
  float text := if text.all fun c => c.isDigit || c == '.' || c == '-' then some (.finite 0) else none
  ascii_digit c hc := if_pos hc
  float_stamp := by
    rintro text ⟨sign, whole, fraction, rfl, hsign, -, -, hdigits⟩
    refine ⟨_, if_pos (List.all_eq_true.mpr fun c hc => ?_)⟩
    rw [Bool.or_eq_true, Bool.or_eq_true, beq_iff_eq, beq_iff_eq]
    rcases List.mem_append.mp hc with hc | hc
    · rcases List.mem_append.mp hc with hc | hc
      · rcases hsign with rfl | rfl
        · exact absurd hc List.not_mem_nil
        · exact Or.inr (List.mem_singleton.mp hc)
      · exact Or.inl (Or.inl (hdigits c (List.mem_append_left _ hc)))
    · rcases List.mem_cons.mp hc with rfl | hc
      · exact Or.inl (Or.inr rfl)
      · exact Or.inl (Or.inl (hdigits c (List.mem_append_right _ hc)))

theorem epoch : IsStamp "0.0".toList :=
  ⟨[], ['0'], ['0'], rfl, .inl rfl, List.cons_ne_nil _ _, List.cons_ne_nil _ _, List.all_eq_true.mp rfl⟩

theorem data_component : IsComponent '/' "data".toList := ⟨by decide, by decide, by decide, by decide⟩

theorem tab_component : IsComponent '/' "a\tb".toList := ⟨by decide, by decide, by decide, by decide⟩

theorem ext4_word : IsWord "ext4".toList := ⟨by decide, of_letters (by rfl)⟩

/-- A directory with a directory of its own name in it. -/
def own_name : Directory where
  path := "/srv/data".toList
  children :=
    [{ name := "data".toList, ftype := .directory, size := 4096, mtime := "0.0".toList, component := data_component
       stamp := epoch }]
  distinct := List.nodup_singleton _

/-- A directory with a tab in the name of a file. -/
def tabbed : Directory where
  path := "/srv".toList
  children :=
    [{ name := "a\tb".toList, ftype := .file, size := 7, mtime := "0.0".toList, component := tab_component
       stamp := epoch }]
  distinct := List.nodup_singleton _

/-- A volume mounted under two words. -/
def drive : Mount where
  source := "/dev/sdb1".toList
  fs_type := "ext4".toList
  mountpoint := "/mnt/My Drive".toList
  type_word := ext4_word

/-- The directory's own size is read as that of the directory in it, the file is left out, and the
volume is not there under its name. -/
theorem probes_not_faithful :
    ¬ BrowseFaithful ascii_reader own_name true 2000 ∧ ¬ BrowseFaithful ascii_reader tabbed true 2000 ∧
      ¬ VolumesFaithful ascii_reader [drive] := by
  refine ⟨fun h => ?_, fun h => ?_, fun h => ?_⟩
  · obtain ⟨-, hsizes⟩ := browse_faithful_iff.mp h
    exact (hsizes rfl _ List.mem_cons_self rfl).own (by decide +kernel)
  · obtain ⟨hplain, -⟩ := browse_faithful_iff.mp h
    exact (hplain _ List.mem_cons_self '\t' (by decide)).1 rfl
  · have hlegible := volumes_faithful_iff.mp h drive List.mem_cons_self
    have hspace := (hlegible.mountpoint (by decide +kernel)).1.2 ' ' (by decide +kernel)
    exact absurd hspace (by decide)

end Fathom.Deploy
