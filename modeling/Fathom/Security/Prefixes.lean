/-
**Device prefixes** (`validate_windows_config_path` of `security/winpaths.py`): one place
written with `\\?\`, `\\?\UNC\` or `\\.\` in front, with slashes either way.

The validator strips one prefix, written with backslashes, normalises what is left, and looks
at the components behind the drive; the drive itself it takes as it is. `plain` is the text
without any prefix. `canonicalised_iff` says for which texts the result has the documented
shape, is its own canonical form, and is that of the plain text.
-/
import Fathom.Security.Canonical
import Mathlib.Logic.Function.Iterate

set_option autoImplicit false

namespace Fathom.Security

/-! ## One place -/

/-- The prefix of the device namespace. -/
def dot_mark : List Char := "\\\\.\\".toList

/-- A text starts with a device prefix. -/
def HasDevicePrefix (text : List Char) : Prop := long_prefix <+: text ∨ dot_mark <+: text

instance (text : List Char) : Decidable (HasDevicePrefix text) := by
  unfold HasDevicePrefix
  infer_instance

/-- `\\.\` as `\\?\`. -/
def as_long (text : List Char) : List Char :=
  if dot_mark <+: text then long_prefix ++ text.drop 4 else text

/-- A text without its first device prefix. -/
def strip_device (text : List Char) : List Char := strip_long_path_prefix (as_long text)

/-- A text with backslashes only and without any device prefix. -/
def plain (text : String) : List Char := strip_device^[text.toList.length] (backslashed text.toList)

/-- The text that is normalised. -/
def turned (text : String) : List Char := backslashed ( strip_long_path_prefix text.toList)

/-! ## Shapes -/

/-- A text is `X:\…` or `\\server\share…`. -/
def Shaped (text : List Char) : Prop :=
  (∃ c rest, c.isAlpha = true ∧ text = c :: ':' :: '\\' :: rest) ∨
    ∃ server share rest, text = '\\' :: '\\' :: (server ++ '\\' :: (share ++ rest)) ∧
      (server ≠ [] ∧ '\\' ∉ server) ∧ (share ≠ [] ∧ '\\' ∉ share) ∧ (rest = [] ∨ rest.head? = some '\\')

/-- What a canonical Windows path looks like. -/
structure WellFormed (text : List Char) : Prop where
  shaped : Shaped text
  no_dots : ∀ comp ∈ text.splitOn '\\', comp ≠ ['.'] ∧ comp ≠ ['.', '.']
  no_device : ¬ HasDevicePrefix text

/-- **A text is canonicalised**: what it is validated to is well-formed and its own canonical
form, and the same as for the plain text, which stands for all that differ from it in their
separators and device prefixes only. -/
structure Canonicalised (text : String) : Prop where
  well_formed : ∀ p, validate_windows_config_path text = .ok p →
    WellFormed p.chars ∧ validate_windows_config_path p.str = .ok p
  one_place : (validate_windows_config_path text).toOption =
    (validate_windows_config_path (String.ofList (plain text))).toOption

/-- The drives there are: a letter, or a server and a share that have names. -/
def ProperDrive (drive : List Char) : Prop :=
  (∃ c, c.isAlpha = true ∧ drive = [c, ':']) ∨
    ∃ server share, drive = '\\' :: '\\' :: (server ++ '\\' :: share) ∧
      (IsComponent '\\' server ∧ server ≠ ['?']) ∧ IsComponent '\\' share

/-- A text without a NUL byte that is absolute once normalised, and whose components behind the
drive are clean. -/
structure CleanAbsolute (text : List Char) : Prop where
  nul : Char.ofNat 0 ∉ text
  drive : (splitroot (nt_normpath text)).1 ≠ []
  isabs : nt_isabs (nt_normpath text) = true
  checked : ∀ comp ∈ components '\\' ((splitroot (nt_normpath text)).2.1 ++ (splitroot (nt_normpath text)).2.2),
    check_component comp "" = .ok ()

/-- The texts that are canonicalised: either no prefix is left to see, and the drive of a text
that is accepted is proper; or one is, and neither what is normalised nor the plain text is
clean and absolute. -/
def Unambiguous (text : String) : Prop :=
  (plain text = turned text ∧
    (CleanAbsolute (turned text) → ProperDrive (splitroot (nt_normpath (turned text))).1)) ∨
  (plain text ≠ turned text ∧ ¬ CleanAbsolute (turned text) ∧ ¬ CleanAbsolute (plain text))

/-! ## Stripping -/

section

variable {text : List Char}

/-- The prefix of shares in the device namespace. -/
def long_unc : List Char := "\\\\?\\UNC\\".toList

theorem strip_long_path_prefix_eq (text : List Char) :
    strip_long_path_prefix text =
      if long_unc.isPrefixOf text then '\\' :: '\\' :: text.drop long_unc.length
      else if long_prefix.isPrefixOf text then text.drop long_prefix.length else text := rfl

/-- What `strip_long_path_prefix` does. -/
theorem strip_long_path_prefix_cases (text : List Char) :
    (¬ long_prefix <+: text ∧ strip_long_path_prefix text = text) ∨
    (∃ rest, text = long_unc ++ rest ∧ strip_long_path_prefix text = '\\' :: '\\' :: rest) ∨
    ∃ rest, text = long_prefix ++ rest ∧ ¬ long_unc <+: text ∧ strip_long_path_prefix text = rest := by
  by_cases hlong : long_prefix <+: text
  · right
    rw [strip_long_path_prefix_eq]
    obtain ⟨rest, hrest⟩ := hlong
    by_cases hunc : long_unc <+: text
    · obtain ⟨more, hmore⟩ := hunc
      refine .inl ⟨more, hmore.symm, ?_⟩
      rw [if_pos (List.isPrefixOf_iff_prefix.mpr ⟨more, hmore⟩), ← hmore, List.drop_left]
    · refine .inr ⟨rest, hrest.symm, hunc, ?_⟩
      rw [if_neg fun h => hunc (List.isPrefixOf_iff_prefix.mp h),
        if_pos (List.isPrefixOf_iff_prefix.mpr ⟨rest, hrest⟩), ← hrest, List.drop_left]
  · exact .inl ⟨hlong, strip_long_path_prefix_self hlong⟩

theorem strip_device_self (h : ¬ HasDevicePrefix text) : strip_device text = text := by
  rw [HasDevicePrefix, not_or] at h
  rw [strip_device, as_long, if_neg h.2, strip_long_path_prefix_self h.1]

theorem length_strip_device (h : HasDevicePrefix text) : (strip_device text).length + 4 ≤ text.length := by
  rw [strip_device, as_long]
  split_ifs with hdot
  · obtain ⟨rest, rfl⟩ := hdot
    have hle := length_strip_lt (List.prefix_append long_prefix rest)
    have hlen : dot_mark.length = 4 := by decide
    rw [← hlen, List.drop_left]
    rw [List.length_append] at hle ⊢
    exact hle
  · exact length_strip_lt (h.resolve_right hdot)

/-- Stripping often enough leaves no prefix. -/
theorem iterate_strip_not_prefixed {n : ℕ} (hn : text.length ≤ n) : ¬ HasDevicePrefix (strip_device^[n] text) := by
  induction n generalizing text with
  | zero =>
      rw [List.length_eq_zero_iff.mp (Nat.le_zero.mp hn)]
      decide
  | succ n ih =>
      rw [Function.iterate_succ_apply]
      by_cases h : HasDevicePrefix text
      · have hshort := length_strip_device h
        exact ih (by omega)
      · rw [strip_device_self h, Function.iterate_fixed (strip_device_self h)]
        exact h

theorem plain_not_prefixed (text : String) : ¬ HasDevicePrefix (plain text) :=
  iterate_strip_not_prefixed (by rw [length_backslashed])

theorem strip_device_no_slash (h : '/' ∉ text) : '/' ∉ strip_device text := by
  have hlong : '/' ∉ as_long text := by
    rw [as_long]
    split_ifs
    · rw [List.mem_append, not_or]
      exact ⟨by decide, fun hmem => h (List.mem_of_mem_drop hmem)⟩
    · exact h
  intro hmem
  rcases strip_subset hmem with hin | heq
  · exact hlong hin
  · exact absurd heq (by decide)

theorem plain_no_slash (text : String) : '/' ∉ plain text := by
  have hiterate : ∀ (n : ℕ) (cs : List Char), '/' ∉ cs → '/' ∉ strip_device^[n] cs := by
    intro n
    induction n with
    | zero => exact fun _ h => h
    | succ n ih =>
        intro cs h
        rw [Function.iterate_succ_apply]
        exact ih _ (strip_device_no_slash h)
  exact hiterate _ _ (not_mem_backslashed text.toList)

/-- Nothing is left to turn or to strip in a plain text. -/
theorem turned_plain (text : String) : turned (String.ofList (plain text)) = plain text := by
  have hlong : ¬ long_prefix <+: plain text := fun h => plain_not_prefixed text (.inl h)
  rw [turned, String.toList_ofList, strip_long_path_prefix_self hlong, backslashed_self (plain_no_slash text)]

/-! ## What is accepted -/

theorem nt_normpath_backslashed (text : List Char) : nt_normpath (backslashed text) = nt_normpath text := by
  rw [nt_normpath, nt_normpath, backslashed_self (not_mem_backslashed text)]

theorem nul_mem_turned {text : String} : Char.ofNat 0 ∈ turned text ↔ Char.ofNat 0 ∈ text.toList := by
  have hback : ∀ cs : List Char, Char.ofNat 0 ∈ backslashed cs ↔ Char.ofNat 0 ∈ cs := by
    intro cs
    rw [backslashed, List.mem_map]
    constructor
    · rintro ⟨c, hc, heq⟩
      split at heq
      · exact absurd heq (by decide)
      · rwa [← heq]
    · exact fun h => ⟨_, h, by decide⟩
  rw [turned, hback]
  obtain ⟨-, heq⟩ | ⟨rest, htext, heq⟩ | ⟨rest, htext, -, heq⟩ := strip_long_path_prefix_cases text.toList
  · rw [heq]
  · rw [heq, htext, List.mem_append, List.mem_cons, List.mem_cons]
    exact ⟨fun h => .inr ((h.resolve_left (by decide)).resolve_left (by decide)),
      fun h => .inr (.inr (h.resolve_left (by decide)))⟩
  · rw [heq, htext, List.mem_append]
    exact ⟨.inr, fun h => h.resolve_left (by decide)⟩

/-- **What is accepted**: a text that is clean and absolute once it is stripped and turned. -/
theorem validate_windows_ok_iff {text : String} {p : PurePath} : validate_windows_config_path text = .ok p ↔
      CleanAbsolute (turned text) ∧ p = windows_path (nt_normpath (turned text)) := by
  have hnorm : nt_normpath (turned text) = nt_normpath ( strip_long_path_prefix text.toList) := nt_normpath_backslashed _
  rw [validate_windows_config_path]
  constructor
  · intro h
    split at h
    · exact absurd h (by simp)
    rename_i norm hok
    have hn := normalise_ok_iff.mp hok
    have heq : nt_normpath (turned text) = norm := hnorm.trans hn.norm_eq
    refine ⟨⟨fun hmem => hn.nul (nul_mem_turned.mp hmem), ?_, ?_, fun comp hcomp => ?_⟩, ?_⟩
    · rw [heq]
      exact hn.drive
    · rw [heq]
      exact hn.isabs
    · rw [heq] at hcomp
      exact check_component_ok (hn.checked comp hcomp) _
    · rw [heq, Except.ok.inj h]
  · rintro ⟨hclean, rfl⟩
    have hne : text.toList ≠ [] := by
      intro hnil
      have hdrive := hclean.drive
      rw [turned, hnil] at hdrive
      exact hdrive (by decide)
    have hok : normalise text text = .ok (nt_normpath (turned text)) :=
      normalise_ok_iff.mpr ⟨hne, fun hmem => hclean.nul (nul_mem_turned.mpr hmem), hnorm.symm, hclean.drive,
        hclean.isabs, fun comp hcomp => check_component_ok (hclean.checked comp hcomp) _⟩
    rw [hok]

/-! ## The plain text and the text that is normalised -/

/-- One device prefix: what marks it, what is behind it, and what is left of the text. -/
theorem strip_device_cases (h : HasDevicePrefix text) :
    ∃ mark rest, (mark = '?' ∨ mark = '.') ∧ text = '\\' :: '\\' :: mark :: '\\' :: rest ∧
      ((strip_device text = rest ∧ ¬ "UNC\\".toList <+: rest) ∨
        ∃ more, rest = "UNC\\".toList ++ more ∧ strip_device text = '\\' :: '\\' :: more) := by
  obtain ⟨mark, rest, hmark, htext, hlong⟩ : ∃ mark rest, (mark = '?' ∨ mark = '.') ∧
      text = '\\' :: '\\' :: mark :: '\\' :: rest ∧ as_long text = long_prefix ++ rest := by
    rcases h with ⟨rest, rfl⟩ | ⟨rest, rfl⟩
    · refine ⟨'?', rest, .inl rfl, rfl, if_neg ?_⟩
      rintro ⟨more, hmore⟩
      exact absurd (List.cons.inj (List.cons.inj (List.cons.inj hmore).2).2).1 (by decide)
    · refine ⟨'.', rest, .inr rfl, rfl, ?_⟩
      rw [as_long, if_pos (List.prefix_append _ _)]
      rfl
  refine ⟨mark, rest, hmark, htext, ?_⟩
  rw [strip_device, hlong]
  have hunc : long_unc = long_prefix ++ "UNC\\".toList := by decide
  obtain ⟨hnot, -⟩ | ⟨more, heq, hstrip⟩ | ⟨more, heq, hnot, hstrip⟩ :=
    strip_long_path_prefix_cases ( long_prefix ++ rest)
  · exact absurd (List.prefix_append _ _) hnot
  · rw [hunc, List.append_assoc] at heq
    exact .inr ⟨more, List.append_cancel_left heq, hstrip⟩
  · rw [List.append_cancel_left heq]
    refine .inl ⟨by rw [← List.append_cancel_left heq, hstrip, List.append_cancel_left heq], fun hpre => hnot ?_⟩
    rw [heq, hunc]
    exact (List.prefix_append_right_inj _).mpr hpre

/-- The same behind `\\?\`. -/
theorem strip_device_long (rest : List Char) :
    (strip_device ( long_prefix ++ rest) = rest ∧ ¬ "UNC\\".toList <+: rest) ∨
      ∃ more, rest = "UNC\\".toList ++ more ∧ strip_device ( long_prefix ++ rest) = '\\' :: '\\' :: more := by
  obtain ⟨mark, rest', -, heq, hcases⟩ := strip_device_cases (.inl (List.prefix_append long_prefix rest))
  have hrest : rest = rest' :=
    (List.cons.inj (List.cons.inj (List.cons.inj (List.cons.inj heq).2).2).2).2
  rw [← hrest] at hcases
  exact hcases

/-- **The plain text** is the text that is normalised without its prefixes, unless the first of
them was read otherwise: `UNC` behind it, with a slash. -/
theorem plain_of_turned (text : String) : (∃ n, plain text = strip_device^[n] (turned text)) ∨
    ∃ more n, turned text = "UNC\\".toList ++ more ∧ plain text = strip_device^[n] ('\\' :: '\\' :: more) := by
  have hback : ∀ a b : List Char, backslashed (a ++ b) = backslashed a ++ backslashed b := fun a b => List.map_append
  have hlong : backslashed long_prefix = long_prefix := by decide
  have hunc : long_unc = long_prefix ++ "UNC\\".toList := by decide
  have hfirst : ∀ {rest : List Char}, text.toList = long_prefix ++ rest →
      ∃ n, plain text = strip_device^[n] ( strip_device ( long_prefix ++ backslashed rest)) := by
    intro rest htext
    refine ⟨3 + rest.length, ?_⟩
    have hlen : text.toList.length = (3 + rest.length) + 1 := by
      rw [htext, List.length_append, show long_prefix.length = 4 by decide]
      omega
    rw [plain, hlen, Function.iterate_succ_apply, htext, hback, hlong]
  obtain ⟨-, hstrip⟩ | ⟨rest, htext, hstrip⟩ | ⟨rest, htext, -, hstrip⟩ := strip_long_path_prefix_cases text.toList
  · left
    rw [turned, hstrip]
    exact ⟨_, rfl⟩
  · left
    rw [hunc, List.append_assoc] at htext
    obtain ⟨n, hn⟩ := hfirst htext
    have hname : backslashed ("UNC\\".toList ++ rest) = "UNC\\".toList ++ backslashed rest := by
      rw [hback]
      rfl
    refine ⟨n, ?_⟩
    rw [hn, hname, turned, hstrip]
    obtain ⟨-, hnot⟩ | ⟨more, hmore, heq⟩ := strip_device_long ("UNC\\".toList ++ backslashed rest)
    · exact absurd (List.prefix_append _ _) hnot
    · rw [heq, ← List.append_cancel_left hmore]
      rfl
  · obtain ⟨n, hn⟩ := hfirst htext
    rw [turned, hstrip]
    obtain ⟨heq, -⟩ | ⟨more, hmore, heq⟩ := strip_device_long (backslashed rest)
    · exact .inl ⟨n, by rw [hn, heq]⟩
    · exact .inr ⟨more, n, hmore, by rw [hn, heq]⟩

/-- What is left of some text: its components are the last ones, behind no parent. -/
def Reaches (whole rest : List Char) : Prop :=
  ∃ front, ['.', '.'] ∉ front ∧ (whole.splitOn '\\' = front ++ rest.splitOn '\\' ∨
    ∃ share, rest = '\\' :: '\\' :: share ∧ whole.splitOn '\\' = front ++ share.splitOn '\\')

theorem Reaches.strip {whole : List Char} (h : Reaches whole text) : Reaches whole (strip_device text) := by
  by_cases hmarked : HasDevicePrefix text
  · obtain ⟨mark, rest, hmark, rfl, hcases⟩ := strip_device_cases hmarked
    have hmark_name : '\\' ∉ [mark] ∧ [mark] ≠ ['.', '.'] := by
      rcases hmark with rfl | rfl
      · exact ⟨by decide, by decide⟩
      · exact ⟨by decide, by decide⟩
    have hsplit : (mark :: '\\' :: rest).splitOn '\\' = [mark] :: rest.splitOn '\\' :=
      List.splitOn_append_cons_self_of_not_mem hmark_name.1 rest
    -- the mark is one component, and what is behind it the rest
    obtain ⟨front, hfront, hrest⟩ : ∃ front, ['.', '.'] ∉ front ∧
        whole.splitOn '\\' = front ++ rest.splitOn '\\' := by
      obtain ⟨front, hfront, heq | ⟨share, hshare, heq⟩⟩ := h
      · refine ⟨front ++ [[], [], [mark]], ?_, ?_⟩
        · rw [List.mem_append, not_or]
          refine ⟨hfront, fun hmem => ?_⟩
          simp only [List.mem_cons, List.not_mem_nil, or_false] at hmem
          obtain h | h | h := hmem
          · exact absurd h (by decide)
          · exact absurd h (by decide)
          · exact hmark_name.2 h.symm
        · rw [heq, splitOn_sep_cons, splitOn_sep_cons, hsplit, List.append_assoc]
          rfl
      · refine ⟨front ++ [[mark]], ?_, ?_⟩
        · rw [List.mem_append, List.mem_singleton, not_or]
          exact ⟨hfront, Ne.symm hmark_name.2⟩
        · rw [heq, ← (List.cons.inj (List.cons.inj hshare).2).2, hsplit, List.append_assoc]
          rfl
    obtain ⟨heq, -⟩ | ⟨more, rfl, heq⟩ := hcases
    · rw [heq]
      exact ⟨front, hfront, .inl hrest⟩
    · rw [heq]
      refine ⟨front ++ ["UNC".toList], ?_, .inr ⟨more, rfl, ?_⟩⟩
      · rw [List.mem_append, List.mem_singleton, not_or]
        exact ⟨hfront, by decide⟩
      · have hunc : ("UNC\\".toList ++ more).splitOn '\\' = "UNC".toList :: more.splitOn '\\' :=
          List.splitOn_append_cons_self_of_not_mem (show '\\' ∉ "UNC".toList by decide) more
        rw [hrest, hunc, List.append_assoc]
        rfl
  · rw [strip_device_self hmarked]
    exact h

theorem Reaches.iterate {whole : List Char} (h : Reaches whole text) (n : ℕ) :
    Reaches whole (strip_device^[n] text) := by
  induction n generalizing text with
  | zero => exact h
  | succ n ih =>
      rw [Function.iterate_succ_apply]
      exact ih h.strip

end

/-! ## Components over others -/

/-- What some components that stood below lose to `k` parents. -/
def left_by (below : List Name) (k : ℕ) : List Name :=
  below.take (below.length - k) ++ List.replicate (k - below.length) ['.', '.']

/-- One parent more, with nothing above to be taken along. -/
theorem norm_step_over {below : List Name} (hbelow : ['.', '.'] ∉ below) (k : ℕ) :
    norm_step false (left_by below k) ['.', '.'] = left_by below (k + 1) := by
  rw [norm_step, if_neg (by decide)]
  by_cases hk : k < below.length
  · have hzero : k - below.length = 0 := by omega
    have hzero' : k + 1 - below.length = 0 := by omega
    have hover : left_by below k = below.take (below.length - k) := by
      rw [left_by, hzero, List.replicate_zero, List.append_nil]
    rw [hover, if_neg, List.dropLast_eq_take, List.length_take, List.take_take]
    · rw [left_by, hzero', List.replicate_zero, List.append_nil]
      congr 1
      omega
    · rintro (hne | ⟨-, hnil⟩ | hlast)
      · exact hne rfl
      · have hlen := congrArg List.length hnil
        rw [List.length_take, List.length_nil] at hlen
        omega
      · exact hbelow (List.mem_of_mem_take (List.mem_of_getLast? hlast))
  · have hover : ∀ j, below.length ≤ j → left_by below j = List.replicate (j - below.length) ['.', '.'] := by
      intro j hj
      rw [left_by, Nat.sub_eq_zero_of_le hj, List.take_zero, List.nil_append]
    rw [hover k (by omega), hover (k + 1) (by omega), if_pos, show k + 1 - below.length = (k - below.length) + 1 by omega,
      List.replicate_succ']
    rcases Nat.eq_zero_or_pos (k - below.length) with hzero | hpos
    · rw [hzero]
      exact .inr (.inl ⟨rfl, rfl⟩)
    · refine .inr (.inr ?_)
      rw [List.getLast?_replicate, if_neg (by omega)]

/-- **Components are normalised over others as on their own**: what is left of them is the same,
and the parents they begin with take along what stood below. -/
theorem foldl_norm_step_over {below : List Name} (hbelow : ['.', '.'] ∉ below) (names : List Name) :
    ∃ k above, ['.', '.'] ∉ above ∧ names.foldl (norm_step false) [] = List.replicate k ['.', '.'] ++ above ∧
      names.foldl (norm_step false) below = left_by below k ++ above ∧ names.foldl (norm_step true) [] = above := by
  induction names using List.reverseRecOn with
  | nil =>
      refine ⟨0, [], List.not_mem_nil, rfl, ?_, rfl⟩
      rw [left_by, Nat.sub_zero, List.take_length, Nat.zero_sub, List.replicate_zero, List.append_nil, List.append_nil]
      rfl
  | append_singleton names comp ih =>
      obtain ⟨k, above, habove, halone, hover, hrooted⟩ := ih
      rw [List.foldl_append, List.foldl_append, List.foldl_append, halone, hover, hrooted, List.foldl_cons,
        List.foldl_cons, List.foldl_cons, List.foldl_nil, List.foldl_nil, List.foldl_nil]
      by_cases hskip : comp = [] ∨ comp = ['.']
      · have hstep : ∀ rooted comps, norm_step rooted comps comp = comps := fun rooted comps => by
          rw [norm_step, if_pos hskip]
        rw [hstep, hstep, hstep]
        exact ⟨k, above, habove, rfl, rfl, rfl⟩
      by_cases hparent : comp = ['.', '.']
      · rw [hparent]
        rcases List.eq_nil_or_concat above with rfl | ⟨init, last, hsnoc⟩
        · -- one parent more that finds nothing above
          refine ⟨k + 1, [], List.not_mem_nil, ?_, ?_, rfl⟩
          · have hown := norm_step_over (List.not_mem_nil (a := ['.', '.'])) k
            simp only [left_by, List.take_nil, List.length_nil, Nat.sub_zero, List.nil_append] at hown
            rw [List.append_nil, List.append_nil, hown]
          · rw [List.append_nil, List.append_nil, norm_step_over hbelow]
        · rw [List.concat_eq_append] at hsnoc
          have hlast : last ≠ ['.', '.'] := fun heq => habove (by
            rw [hsnoc, heq]
            exact List.mem_append_right _ List.mem_cons_self)
          have hstep : ∀ rooted comps, norm_step rooted (comps ++ above) ['.', '.'] = comps ++ init := by
            intro rooted comps
            rw [hsnoc, ← List.append_assoc, norm_step, if_neg (by decide), if_neg, List.dropLast_concat]
            rintro (hne | ⟨-, hnil⟩ | hdots)
            · exact hne rfl
            · exact absurd hnil (by simp)
            · rw [List.getLast?_concat] at hdots
              exact hlast (Option.some.inj hdots)
          refine ⟨k, init, fun hmem => habove (by rw [hsnoc]; exact List.mem_append_left _ hmem), hstep _ _, hstep _ _, ?_⟩
          exact hstep true []
      · have hstep : ∀ rooted comps, norm_step rooted comps comp = comps ++ [comp] := fun rooted comps => by
          rw [norm_step, if_neg hskip, if_pos (Or.inl hparent)]
        rw [hstep, hstep, hstep, List.append_assoc, List.append_assoc]
        refine ⟨k, above ++ [comp], ?_, rfl, rfl, rfl⟩
        rw [List.mem_append, List.mem_singleton, not_or]
        exact ⟨habove, Ne.symm hparent⟩

/-! ## Drives -/

section

variable {cs drive root : List Char} {names : List Name}

/-- The drive of a device path keeps the prefix. -/
theorem device_drive (hslash : '/' ∉ cs) (h : HasDevicePrefix cs) : HasDevicePrefix (splitroot cs).1 := by
  rcases h with hlong | ⟨rest, rfl⟩
  · exact .inl (long_drive hslash hlong)
  · have hrest : '/' ∉ rest := fun hmem => hslash (List.mem_append_right _ hmem)
    right
    rcases cut_at '\\' rest with hno | ⟨share, text, rfl, hshare⟩
    · have hsplit : splitroot ( dot_mark ++ rest) = _ :=
        @splitroot_device ['.'] rest (by decide) hno (by simpa using hrest) (by decide)
      rw [hsplit]
      exact ⟨rest, rfl⟩
    · rw [List.mem_append, List.mem_cons, not_or, not_or] at hrest
      have hsplit : splitroot ( dot_mark ++ (share ++ '\\' :: text)) = _ :=
        @splitroot_share ['.'] share text (by decide) hshare (by simpa using hrest.1) (by decide) hrest.2.2
      rw [hsplit]
      exact ⟨share, rfl⟩

theorem nt_normpath_of_drive (hslash : '/' ∉ cs) (hdrive : (splitroot cs).1 ≠ []) :
    (splitroot cs).1 <+: nt_normpath cs := by
  rcases hsplit : splitroot cs with ⟨drive, root, rest⟩
  rw [hsplit] at hdrive
  have hback : splitroot (backslashed cs) = (drive, root, rest) := by rw [backslashed_self hslash, hsplit]
  rw [nt_normpath_of_split hback, if_neg fun h => hdrive (List.append_eq_nil_iff.mp h.1).1, List.append_assoc]
  exact List.prefix_append _ _

/-- What is normalised is a device path only if it was one. -/
theorem nt_normpath_not_long (hslash : '/' ∉ cs) (hlong : ¬ long_prefix <+: cs) : ¬ long_prefix <+: nt_normpath cs := by
  have hback := backslashed_self hslash
  have hjoin : ∀ {rooted : Bool} {text rest : List Char},
      join '\\' (norm_components '\\' rooted text) = '\\' :: rest → False := fun heq =>
    not_mem_splitOn_join (fun n hn => norm_components_mem hn) heq rfl
  cases splitroot_split hslash hlong with
  | anchored drive root text hanchor hbare hcs hsplit =>
      rw [nt_normpath_of_split (hback.symm ▸ hsplit), if_neg fun h => hanchor.ne_nil (List.append_eq_nil_iff.mp h.1).1]
      refine hanchor.not_long fun hroot => ?_
      rw [hbare hroot]
      rfl
  | rooted text hsplit =>
      rw [nt_normpath_of_split (hback.symm ▸ hsplit), if_neg (by simp)]
      rintro ⟨rest, hrest⟩
      exact hjoin (List.cons.inj hrest).2.symm
  | letter c text hc hcs htext hsplit =>
      rw [nt_normpath_of_split (hback.symm ▸ hsplit), if_neg (by simp)]
      rintro ⟨rest, hrest⟩
      exact hc (List.cons.inj hrest).1.symm
  | relative hsplit =>
      rw [nt_normpath_of_split (hback.symm ▸ hsplit)]
      split_ifs
      · decide
      · rintro ⟨rest, hrest⟩
        exact hjoin hrest.symm

/-- **What is accepted without a prefix**: the drive it has, and normal components that are
clean. -/
theorem accepted_shape (hslash : '/' ∉ cs) (hmarked : ¬ HasDevicePrefix cs) (h : CleanAbsolute cs) :
    ∃ drive root root' names, WindowsAnchor drive root ∧ nt_normpath cs = drive ++ root ++ join '\\' names ∧
      (splitroot (nt_normpath cs)).1 = drive ∧ IsWindows drive root' names ∧
      windows_path (nt_normpath cs) = .windows drive root' names ∧ ∀ name ∈ names, check_component name "" = .ok () := by
  have hlong := nt_normpath_not_long hslash fun hlong => hmarked (.inl hlong)
  obtain ⟨drive, root, names, hanchor, hbare, hnormal, hnames_slash, hnorm⟩ := nt_normpath_shape hlong h.drive h.isabs
  obtain ⟨root', hwindows, hpath⟩ := windows_path_shape hanchor hbare hnormal hnames_slash
  have hsplit : splitroot (nt_normpath cs) = (drive, root, join '\\' names) := by
    rw [hnorm]
    exact splitroot_anchored hanchor (fun hnil => by rw [hbare hnil, join_nil]) (not_mem_join (by decide) hnames_slash)
  refine ⟨drive, root, root', names, hanchor, hnorm, by rw [hsplit], hwindows, by rw [hnorm, hpath], fun name hname => ?_⟩
  refine h.checked name ?_
  rw [hsplit]
  rcases hanchor.root_eq with hroot | hroot
  · rw [hroot, List.singleton_append, components_sep_cons, components_join hnormal]
    exact hname
  · rw [hbare hroot] at hname
    exact absurd hname List.not_mem_nil

/-- A share is split into four parts, and what is behind it. -/
theorem splitOn_share {server share rest : List Char} (hserver : '\\' ∉ server) (hshare : '\\' ∉ share)
    (hrest : rest = [] ∨ rest.head? = some '\\') :
    ∃ more, ('\\' :: '\\' :: (server ++ '\\' :: (share ++ rest))).splitOn '\\' = [] :: [] :: server :: share :: more := by
  rw [splitOn_sep_cons, splitOn_sep_cons, List.splitOn_append_cons_self_of_not_mem hserver]
  rcases hrest with rfl | hhead
  · rw [List.append_nil, List.splitOn_eq_singleton hshare]
    exact ⟨[], rfl⟩
  · obtain ⟨more, rfl⟩ := List.head?_eq_some_iff.mp hhead
    rw [List.splitOn_append_cons_self_of_not_mem hshare]
    exact ⟨_, rfl⟩

/-- The parts of a path are those of its drive and its components. -/
theorem mem_splitOn_windows (h : IsWindows drive root names) {comp : Name} :
    comp ∈ (drive ++ root ++ join '\\' names).splitOn '\\' → comp ∈ drive.splitOn '\\' ∨ comp = [] ∨ comp ∈ names := by
  intro hmem
  rcases h.anchor.root_eq with rfl | hroot
  · rw [List.append_assoc, List.singleton_append, List.splitOn_append_cons_self, List.mem_append] at hmem
    rcases hmem with hdrive | hname
    · exact .inl hdrive
    · by_cases hnil : names = []
      · rw [hnil] at hname
        exact .inr (.inl (List.mem_singleton.mp hname))
      · rw [splitOn_join (fun n hn => (h.normal n hn).no_sep) hnil] at hname
        exact .inr (.inr hname)
  · rw [hroot, h.join_bare hroot, List.append_nil, List.append_nil] at hmem
    exact .inl hmem

/-- The third part of a device path is its mark. -/
theorem splitOn_device (h : HasDevicePrefix cs) :
    ∃ mark more, (mark = ['?'] ∨ mark = ['.']) ∧ cs.splitOn '\\' = [] :: [] :: mark :: more := by
  rcases h with ⟨rest, rfl⟩ | ⟨rest, rfl⟩
  · refine ⟨['?'], rest.splitOn '\\', .inl rfl, ?_⟩
    rw [show long_prefix ++ rest = '\\' :: '\\' :: (['?'] ++ '\\' :: rest) from rfl, splitOn_sep_cons, splitOn_sep_cons,
      List.splitOn_append_cons_self_of_not_mem (by decide)]
  · refine ⟨['.'], rest.splitOn '\\', .inr rfl, ?_⟩
    rw [show dot_mark ++ rest = '\\' :: '\\' :: (['.'] ++ '\\' :: rest) from rfl, splitOn_sep_cons, splitOn_sep_cons,
      List.splitOn_append_cons_self_of_not_mem (by decide)]

theorem ne_sep_of_isAlpha {c : Char} (h : c.isAlpha = true) : c ≠ '\\' := by
  rintro rfl
  exact absurd h (by decide)

/-- A well-formed path with a server and a share has named both. -/
theorem proper_of_well_formed {server share rest : List Char} (hserver : '\\' ∉ server) (hshare : '\\' ∉ share)
    (hrest : rest = [] ∨ rest.head? = some '\\')
    (h : WellFormed ('\\' :: '\\' :: (server ++ '\\' :: (share ++ rest)))) :
    ProperDrive ('\\' :: '\\' :: (server ++ '\\' :: share)) := by
  obtain ⟨more, hsplit⟩ := splitOn_share hserver hshare hrest
  have hdots := h.no_dots
  rw [hsplit] at hdots
  have hserver_dots := hdots server (by simp)
  have hshare_dots := hdots share (by simp)
  obtain ⟨c, rest', hc, heq⟩ | ⟨server', share', rest', heq, hserver', hshare', hrest'⟩ := h.shaped
  · exact absurd (List.cons.inj heq).1.symm (ne_sep_of_isAlpha hc)
  · obtain ⟨more', hsplit'⟩ := splitOn_share hserver'.2 hshare'.2 hrest'
    rw [← heq, hsplit] at hsplit'
    simp only [List.cons.injEq, true_and] at hsplit'
    obtain ⟨rfl, rfl, -⟩ := hsplit'
    refine .inr ⟨server, share, rfl, ⟨⟨hserver'.1, hserver_dots.1, hserver_dots.2, hserver⟩, ?_⟩,
      ⟨hshare'.1, hshare_dots.1, hshare_dots.2, hshare⟩⟩
    rintro rfl
    exact h.no_device (.inl ⟨share ++ rest, rfl⟩)

/-- **A path is well-formed if its drive is proper.** -/
theorem well_formed_iff (h : IsWindows drive root names) :
    WellFormed (drive ++ root ++ join '\\' names) ↔ ProperDrive drive := by
  have htail : root ++ join '\\' names = [] ∨ (root ++ join '\\' names).head? = some '\\' := by
    rcases h.anchor.root_eq with rfl | hroot
    · exact .inr rfl
    · rw [hroot, h.join_bare hroot]
      exact .inl rfl
  constructor
  · intro hwell
    rw [List.append_assoc] at hwell
    have hanchor := h.anchor
    have hbare := h.join_bare
    generalize hrest : root ++ join '\\' names = rest at hwell htail
    cases hanchor with
    | letter c hc hslash =>
        obtain ⟨c', rest', halpha, heq⟩ | ⟨server', share', rest', heq, -⟩ := hwell.shaped
        · refine .inl ⟨c', halpha, ?_⟩
          rw [(List.cons.inj heq).1]
        · exact absurd (List.cons.inj heq).1 hc
    | share server share hserver hshare hslash hlong =>
        refine proper_of_well_formed hserver hshare htail ?_
        simpa using hwell
    | server server hserver hslash =>
        obtain ⟨c', rest', halpha, heq⟩ | ⟨server', share', rest', heq, -⟩ := hwell.shaped
        · exact absurd (List.cons.inj heq).1.symm (ne_sep_of_isAlpha halpha)
        · rw [← hrest, hbare rfl, List.append_nil, List.append_nil] at heq
          refine absurd ?_ hserver
          rw [(List.cons.inj (List.cons.inj heq).2).2]
          exact List.mem_append_right _ List.mem_cons_self
    | device server share hserver hshare hslash hlong =>
        refine proper_of_well_formed hserver hshare htail ?_
        simpa using hwell
  · rintro (⟨c, halpha, rfl⟩ | ⟨server, share, rfl, ⟨hserver, hmark⟩, hshare⟩)
    · have hroot : root = ['\\'] := by
        rcases h.anchor.starts with ⟨a, -, -, hroot⟩ | ⟨rest, hrest⟩
        · exact hroot
        · exact absurd (List.cons.inj hrest).1 (ne_sep_of_isAlpha halpha)
      have hletter : [c, ':'].splitOn '\\' = [[c, ':']] := List.splitOn_eq_singleton (by
        simpa using Ne.symm (ne_sep_of_isAlpha halpha))
      refine ⟨.inl ⟨c, join '\\' names, halpha, by rw [hroot]; rfl⟩, fun comp hcomp => ?_, fun hmarked => ?_⟩
      · rcases mem_splitOn_windows h hcomp with hdrive | hnil | hname
        · rw [hletter, List.mem_singleton] at hdrive
          rw [hdrive]
          exact ⟨by simp, by simp⟩
        · rw [hnil]
          exact ⟨by decide, by decide⟩
        · exact ⟨(h.normal comp hname).ne_dot, (h.normal comp hname).ne_parent⟩
      · rcases hmarked with ⟨rest, hrest⟩ | ⟨rest, hrest⟩
        · exact ne_sep_of_isAlpha halpha (List.cons.inj hrest).1.symm
        · exact ne_sep_of_isAlpha halpha (List.cons.inj hrest).1.symm
    · have hshape : '\\' :: '\\' :: (server ++ '\\' :: share) ++ root ++ join '\\' names =
          '\\' :: '\\' :: (server ++ '\\' :: (share ++ (root ++ join '\\' names))) := by simp
      have hparts : ('\\' :: '\\' :: (server ++ '\\' :: share)).splitOn '\\' = [[], [], server, share] := by
        rw [splitOn_sep_cons, splitOn_sep_cons, List.splitOn_append_cons_self_of_not_mem hserver.no_sep,
          List.splitOn_eq_singleton hshare.no_sep]
      refine ⟨.inr ⟨server, share, _, hshape, ⟨hserver.ne_nil, hserver.no_sep⟩, ⟨hshare.ne_nil, hshare.no_sep⟩, htail⟩,
        fun comp hcomp => ?_, fun hmarked => ?_⟩
      · rcases mem_splitOn_windows h hcomp with hdrive | hnil | hname
        · rw [hparts] at hdrive
          simp only [List.mem_cons, List.not_mem_nil, or_false] at hdrive
          obtain rfl | rfl | rfl | rfl := hdrive
          · exact ⟨by decide, by decide⟩
          · exact ⟨by decide, by decide⟩
          · exact ⟨hserver.ne_dot, hserver.ne_parent⟩
          · exact ⟨hshare.ne_dot, hshare.ne_parent⟩
        · rw [hnil]
          exact ⟨by decide, by decide⟩
        · exact ⟨(h.normal comp hname).ne_dot, (h.normal comp hname).ne_parent⟩
      · obtain ⟨mark, more, hmarks, hsplit⟩ := splitOn_device hmarked
        obtain ⟨more', hsplit'⟩ := splitOn_share hserver.no_sep hshare.no_sep htail
        rw [hshape, hsplit'] at hsplit
        simp only [List.cons.injEq, true_and] at hsplit
        rcases hmarks with rfl | rfl
        · exact hmark hsplit.1
        · exact hserver.ne_dot hsplit.1

/-! ## Results -/

/-- A device path is validated to a device path. -/
theorem device_result (hslash : '/' ∉ cs) (h : HasDevicePrefix cs)
    (hpath : windows_path (nt_normpath cs) = .windows drive root names) : HasDevicePrefix drive := by
  have hne : ∀ {d : List Char}, HasDevicePrefix d → d ≠ [] := by
    rintro _ hd rfl
    exact absurd hd (by decide)
  have hprefixed : ∀ {d t : List Char}, d <+: t → HasDevicePrefix d → HasDevicePrefix t := fun hdt hd =>
    hd.imp (·.trans hdt) (·.trans hdt)
  have hfirst := device_drive hslash h
  have hnorm := hprefixed (nt_normpath_of_drive hslash (hne hfirst)) hfirst
  have hnorm_slash := nt_normpath_no_slash cs
  have hlast := device_drive hnorm_slash hnorm
  have hself := backslashed_self hnorm_slash
  obtain ⟨root', names', hwindows, -⟩ := length_windows_path_le (hself.symm ▸ hne hlast)
  rw [hpath, hself] at hwindows
  injection hwindows with hdrive
  rwa [hdrive]

/-- A path with a drive letter: its text is normalised to letter, root and names. -/
theorem letter_result (hslash : '/' ∉ cs) (h : CleanAbsolute cs) {c : Char}
    (hpath : windows_path (nt_normpath cs) = .windows [c, ':'] root names) :
    nt_normpath cs = [c, ':'] ++ ['\\'] ++ join '\\' names ∧ c ≠ '\\' ∧ ∀ name ∈ names, IsComponent '\\' name := by
  have hmarked : ¬ HasDevicePrefix cs := by
    intro hdevice
    rcases device_result hslash hdevice hpath with hlong | hdot
    · exact absurd hlong.length_le (by simp [ long_prefix])
    · exact absurd hdot.length_le (by simp [ dot_mark])
  obtain ⟨drive, root', root'', names', hanchor, hnorm, -, hwindows, hsame, -⟩ := accepted_shape hslash hmarked h
  rw [hsame] at hpath
  injection hpath with hdrive hroot hnames
  subst hdrive hnames
  rcases hanchor.starts with ⟨a, ha, hletter, rfl⟩ | ⟨rest, hrest⟩
  · rw [(List.cons.inj hletter).1]
    rw [(List.cons.inj hletter).1] at hnorm
    exact ⟨hnorm, ha, hwindows.normal⟩
  · exact absurd (List.cons.inj (List.cons.inj hrest).2).1 (by decide)

/-- The components of a relative text that is normalised to a path with a drive letter. -/
theorem foldl_of_relative (hslash : '/' ∉ cs) (hsplit : splitroot cs = ([], [], cs)) {c : Char} (hc : c ≠ '\\')
    (hnames : ∀ name ∈ names, IsComponent '\\' name) (hnorm : nt_normpath cs = [c, ':'] ++ ['\\'] ++ join '\\' names) :
    (cs.splitOn '\\').foldl (norm_step false) [] = [c, ':'] :: names := by
  have hback : splitroot (backslashed cs) = ([], [], cs) := by rw [backslashed_self hslash, hsplit]
  rw [nt_normpath_of_split hback] at hnorm
  split_ifs at hnorm with hnil
  · exact absurd hnorm (by simp)
  · have hcomps : norm_components '\\' (decide (([] : List Char) ≠ [])) cs =
        (cs.splitOn '\\').foldl (norm_step false) [] := rfl
    rw [hcomps, List.nil_append, List.nil_append] at hnorm
    rw [hcomps] at hnil
    generalize hfound : (cs.splitOn '\\').foldl (norm_step false) [] = found at hnorm hnil
    have hplain : ∀ n ∈ found, n ≠ [] ∧ '\\' ∉ n := by
      intro n hn
      rw [← hfound] at hn
      exact norm_components_mem (show n ∈ norm_components '\\' false cs from hn)
    have hsplit_found := splitOn_join (fun n hn => (hplain n hn).2) fun heq => hnil ⟨rfl, heq⟩
    have hletter : ([c, ':'] ++ ['\\'] ++ join '\\' names).splitOn '\\' = [c, ':'] :: (join '\\' names).splitOn '\\' := by
      rw [List.append_assoc]
      exact List.splitOn_append_cons_self_of_not_mem (by simpa using Ne.symm hc) _
    rw [hnorm, hletter] at hsplit_found
    rw [← hsplit_found]
    by_cases hempty : names = []
    · -- nothing behind the root: there would be an empty component
      rw [hempty, join_nil] at hsplit_found
      refine absurd rfl (hplain [] ?_).1
      rw [← hsplit_found]
      exact List.mem_cons_of_mem _ List.mem_cons_self
    · rw [splitOn_join (fun n hn => (hnames n hn).no_sep) hempty]

/-- Two separators begin a drive. -/
theorem splitroot_two_seps {rest : List Char} (hslash : '/' ∉ rest) : (splitroot ('\\' :: '\\' :: rest)).1 ≠ [] := by
  rw [splitroot_share_split hslash, share_split]
  split
  · exact List.cons_ne_nil _ _
  · rename_i index hindex
    split
    · exact List.cons_ne_nil _ _
    · rename_i index2 hindex2
      have hle := le_of_find_sep hindex2
      obtain ⟨n, rfl⟩ : ∃ n, index2 = n + 1 := ⟨index2 - 1, by omega⟩
      exact List.cons_ne_nil _ _

/-- A text that begins with two separators is not normalised to a path with a drive letter. -/
theorem two_seps_no_letter {rest text : List Char} (hslash : '/' ∉ rest) {c : Char} (hc : c ≠ '\\') :
    nt_normpath ('\\' :: '\\' :: rest) ≠ c :: text := by
  intro hnorm
  have hslash' : '/' ∉ '\\' :: '\\' :: rest := by simpa using hslash
  have hne := splitroot_two_seps hslash
  obtain ⟨more, hmore⟩ := nt_normpath_of_drive hslash' hne
  have happend := splitroot_append ('\\' :: '\\' :: rest)
  obtain ⟨a, drive, hdrive⟩ := List.exists_cons_of_ne_nil hne
  rw [hdrive] at hmore happend
  rw [← hmore] at hnorm
  exact hc ((List.cons.inj hnorm).1.symm.trans (List.cons.inj happend).1)

/-- **`UNC` with a slash is no share**: read as a relative path, it does not become what the share
would. -/
theorem unc_results_differ {more rest : List Char} (hmore : '/' ∉ more) (hrest : '/' ∉ rest) (hreach : Reaches more rest)
    (hmarked : ¬ HasDevicePrefix rest) (h : CleanAbsolute ("UNC\\".toList ++ more)) (h' : CleanAbsolute rest) :
    windows_path (nt_normpath ("UNC\\".toList ++ more)) ≠ windows_path (nt_normpath rest) := by
  intro heq
  have hwhole : '/' ∉ "UNC\\".toList ++ more := by
    rw [List.mem_append, not_or]
    exact ⟨by decide, hmore⟩
  have hnot : ¬ HasDevicePrefix ("UNC\\".toList ++ more) := by
    rintro (⟨t, ht⟩ | ⟨t, ht⟩)
    · exact absurd (List.cons.inj ht).1 (by decide)
    · exact absurd (List.cons.inj ht).1 (by decide)
  have hlong : ¬ long_prefix <+: "UNC\\".toList ++ more := fun hlong => hnot (.inl hlong)
  have happend := splitroot_append ("UNC\\".toList ++ more)
  have hrelative : splitroot ("UNC\\".toList ++ more) = ([], [], "UNC\\".toList ++ more) := by
    cases splitroot_split hwhole hlong with
    | anchored drive root text hanchor hbare hcs hsplit =>
        rcases hanchor.starts with ⟨c, -, rfl, rfl⟩ | ⟨t, rfl⟩
        · exact absurd (List.cons.inj (List.cons.inj hcs).2).1 (by decide)
        · exact absurd (List.cons.inj hcs).1 (by decide)
    | rooted text hsplit =>
        rw [hsplit] at happend
        exact absurd (List.cons.inj happend).1 (by decide)
    | letter c text hc hcs htext hsplit => exact absurd (List.cons.inj (List.cons.inj hcs).2).1 (by decide)
    | relative hsplit => exact hsplit
  -- so it has a drive letter, and the share would need one
  obtain ⟨drive, root, root', names, hanchor, hnorm, -, -, hpath, -⟩ := accepted_shape hwhole hnot h
  obtain ⟨c, hc, rfl⟩ : ∃ c, c ≠ '\\' ∧ drive = [c, ':'] := by
    rcases hanchor.starts with ⟨c, hc, hdrive, -⟩ | ⟨t, rfl⟩
    · exact ⟨c, hc, hdrive⟩
    · exfalso
      have hback : splitroot (backslashed ("UNC\\".toList ++ more)) = ([], [], "UNC\\".toList ++ more) := by
        rw [backslashed_self hwhole, hrelative]
      rw [nt_normpath_of_split hback] at hnorm
      split_ifs at hnorm
      · exact absurd (List.cons.inj hnorm).1 (by decide)
      · exact not_mem_splitOn_join (fun n hn => norm_components_mem hn) hnorm rfl
  obtain ⟨hnorm, -, hnames⟩ := letter_result hwhole h hpath
  rw [hpath] at heq
  obtain ⟨hnorm', -, -⟩ := letter_result hrest h' heq.symm
  have hfold := foldl_of_relative hwhole hrelative hc hnames hnorm
  -- behind `UNC` and what was stripped stand the components of the share
  obtain ⟨front, hfront, hsplit | ⟨share, rfl, -⟩⟩ := hreach
  · have hparts : ("UNC\\".toList ++ more).splitOn '\\' = "UNC".toList :: (front ++ rest.splitOn '\\') := by
      rw [← hsplit]
      exact List.splitOn_append_cons_self_of_not_mem (show '\\' ∉ "UNC".toList by decide) more
    obtain ⟨kept, hkept, hbelow⟩ : ∃ kept, ['.', '.'] ∉ kept ∧
        front.foldl (norm_step false) ["UNC".toList] = ["UNC".toList] ++ kept :=
      ⟨_, fun hmem => hfront (List.mem_filter.mp hmem).1, foldl_norm_step_no_parent hfront false _⟩
    have hpush : norm_step false [] "UNC".toList = ["UNC".toList] := by decide
    rw [hparts, List.foldl_cons, hpush, List.foldl_append, hbelow] at hfold
    have hletter : IsComponent '\\' [c, ':'] :=
      ⟨by simp, by simp, by simp, by simpa using Ne.symm hc⟩
    have hno_parent : ['.', '.'] ∉ ["UNC".toList] ++ kept := by
      rw [List.mem_append, not_or]
      exact ⟨by decide, hkept⟩
    have hrest_long : ¬ long_prefix <+: rest := fun hlong => hmarked (.inl hlong)
    have hrest_back := backslashed_self hrest
    cases splitroot_split hrest hrest_long with
    | relative hsplit' =>
        have hfold' := foldl_of_relative hrest hsplit' hc hnames hnorm'
        obtain ⟨k, above, -, halone, hover, -⟩ := foldl_norm_step_over hno_parent (rest.splitOn '\\')
        rw [hfold'] at halone
        rw [hfold] at hover
        rcases k with _ | k
        · rw [List.replicate_zero, List.nil_append] at halone
          rw [halone] at hover
          have hnil := List.self_eq_append_left.mp hover
          rw [left_by, Nat.sub_zero, List.take_length] at hnil
          exact absurd hnil (by simp)
        · exact absurd (List.cons.inj halone).1 hletter.ne_parent
    | anchored drive' root' text hanchor' hbare' hcs hsplit' =>
        have hsplit_back : splitroot (backslashed rest) = (drive', root', text) := by rw [hrest_back, hsplit']
        rw [nt_normpath_of_split hsplit_back,
          if_neg fun h => hanchor'.ne_nil (List.append_eq_nil_iff.mp h.1).1] at hnorm'
        obtain ⟨a, ha, rfl, rfl⟩ | ⟨t, rfl⟩ := hanchor'.starts
        · obtain rfl : a = c := (List.cons.inj hnorm').1
          have htext : names = (text.splitOn '\\').foldl (norm_step true) [] := by
            have hjoin := List.append_cancel_left hnorm'
            rw [decide_eq_true (List.cons_ne_nil _ _)] at hjoin
            rw [← components_join hnames, ← hjoin, components_join (norm_components_all text)]
            rfl
          have hparts : rest.splitOn '\\' = [a, ':'] :: text.splitOn '\\' := by
            rw [hcs, List.append_assoc]
            exact List.splitOn_append_cons_self_of_not_mem hletter.no_sep text
          rw [hparts, List.foldl_cons, norm_step_component hletter] at hfold
          have hno_parent' : ['.', '.'] ∉ ["UNC".toList] ++ kept ++ [[a, ':']] := by
            rw [List.mem_append, List.mem_singleton, not_or]
            exact ⟨hno_parent, Ne.symm hletter.ne_parent⟩
          obtain ⟨k, above, -, -, hover, hrooted⟩ := foldl_norm_step_over hno_parent' (text.splitOn '\\')
          rw [hfold, ← hrooted, ← htext] at hover
          -- all that stood below is gone, but for one component: the letter
          have hone : left_by (["UNC".toList] ++ kept ++ [[a, ':']]) k = [[a, ':']] :=
            (List.append_cancel_right (show [[a, ':']] ++ names = _ from hover)).symm
          rw [left_by] at hone
          rcases hlen : (["UNC".toList] ++ kept ++ [[a, ':']]).length - k with _ | m
          · rw [hlen, List.take_zero, List.nil_append] at hone
            exact hletter.ne_parent (List.eq_of_mem_replicate (hone.symm ▸ List.mem_cons_self))
          · rw [hlen] at hone
            have hfirst := congrArg List.length (List.cons.inj hone).1
            exact absurd hfirst (by simp)
        · exact hc (List.cons.inj hnorm').1.symm
    | rooted text hsplit' =>
        have hsplit_back : splitroot (backslashed rest) = ([], ['\\'], text) := by rw [hrest_back, hsplit']
        rw [nt_normpath_of_split hsplit_back, if_neg (by simp)] at hnorm'
        exact hc (List.cons.inj hnorm').1.symm
    | letter a text ha hcs htext hsplit' =>
        have hsplit_back : splitroot (backslashed rest) = ([a, ':'], [], text) := by rw [hrest_back, hsplit']
        rw [nt_normpath_of_split hsplit_back, if_neg (by simp)] at hnorm'
        exact not_mem_splitOn_join (fun n hn => norm_components_mem hn) (List.cons.inj (List.cons.inj hnorm').2).2 rfl
  · exact two_seps_no_letter (by simpa using hrest) hc hnorm'

/-- A text that is not accepted has no result. -/
theorem toOption_validate (text : String) :
    (validate_windows_config_path text).toOption = none ↔ ¬ CleanAbsolute (turned text) := by
  cases hresult : validate_windows_config_path text with
  | error e =>
      refine ⟨fun _ h => ?_, fun _ => rfl⟩
      rw [validate_windows_ok_iff.mpr ⟨h, rfl⟩] at hresult
      exact absurd hresult (by simp)
  | ok p => exact ⟨fun h => absurd h (by simp [Except.toOption]), fun h => absurd (validate_windows_ok_iff.mp hresult).1 h⟩

theorem toOption_validate_eq {text : String} (h : CleanAbsolute (turned text)) :
    (validate_windows_config_path text).toOption = some (windows_path (nt_normpath (turned text))) := by
  rw [validate_windows_ok_iff.mpr ⟨h, rfl⟩]
  rfl

theorem turned_no_slash (text : String) : '/' ∉ turned text := not_mem_backslashed _

/-- **What is accepted without a prefix** is well-formed if its drive is proper. -/
theorem well_formed_result {text : String} {p : PurePath} (hmarked : ¬ HasDevicePrefix (turned text))
    (h : validate_windows_config_path text = .ok p) :
    (WellFormed p.chars ↔ ProperDrive (splitroot (nt_normpath (turned text))).1) ∧
      validate_windows_config_path p.str = .ok p := by
  obtain ⟨hclean, hp⟩ := validate_windows_ok_iff.mp h
  obtain ⟨drive, root, root', names, -, -, hdrive, hwindows, hpath, -⟩ :=
    accepted_shape (turned_no_slash text) hmarked hclean
  rw [hpath] at hp
  rw [hdrive, hp, windows_chars hwindows]
  refine ⟨well_formed_iff hwindows, ?_⟩
  obtain ⟨drive', root'', names', heq, -, hlong | ⟨-, hfixed⟩⟩ := validate_windows_config_path_shape h
  · rw [hp] at heq
    injection heq with hdrives
    rw [← hdrives] at hlong
    refine absurd (hlong.trans (List.prefix_append drive (root' ++ join '\\' names))) ?_
    rw [← List.append_assoc]
    exact hwindows.anchor.not_long hwindows.join_bare
  · rwa [hp] at hfixed

/-- **Canonical Windows paths**: what `validate_windows_config_path` makes of a text is well-formed,
its own canonical form and the same for every spelling, if and only if the text is unambiguous. -/
theorem canonicalised_iff (text : String) : Canonicalised text ↔ Unambiguous text := by
  by_cases hplain : plain text = turned text
  · have hmarked : ¬ HasDevicePrefix (turned text) := hplain ▸ plain_not_prefixed text
    constructor
    · intro h
      refine .inl ⟨hplain, fun hclean => ?_⟩
      have hok := validate_windows_ok_iff.mpr ⟨hclean, rfl⟩
      exact (well_formed_result hmarked hok).1.mp (h.well_formed _ hok).1
    · rintro (⟨-, hproper⟩ | ⟨hne, -⟩)
      · refine ⟨fun p hok => ?_, ?_⟩
        · obtain ⟨hwell, hfixed⟩ := well_formed_result hmarked hok
          exact ⟨hwell.mpr (hproper (validate_windows_ok_iff.mp hok).1), hfixed⟩
        · by_cases hclean : CleanAbsolute (turned text)
          · rw [toOption_validate_eq hclean, toOption_validate_eq (by rwa [turned_plain, hplain]), turned_plain, hplain]
          · rw [(toOption_validate text).mpr hclean, (toOption_validate _).mpr (by rwa [turned_plain, hplain])]
      · exact absurd hplain hne
  · constructor
    · intro h
      have hrefused : ¬ CleanAbsolute (turned text) := by
        intro hclean
        have hok := validate_windows_ok_iff.mpr ⟨hclean, rfl⟩
        by_cases hmarked : HasDevicePrefix (turned text)
        · -- the result would be a device path
          obtain ⟨drive, root, names, hpath, -⟩ := validate_windows_config_path_shape hok
          have hdevice := device_result (turned_no_slash text) hmarked hpath
          have hwell := (h.well_formed _ hok).1
          rw [hpath] at hwell
          refine hwell.no_device ?_
          have hne : ¬ (drive = [] ∧ root = [] ∧ names = []) := by
            rintro ⟨rfl, -⟩
            exact absurd hdevice (by decide)
          rw [PurePath.chars, if_neg hne, List.append_assoc]
          exact hdevice.imp (·.trans (List.prefix_append _ _)) (·.trans (List.prefix_append _ _))
        · obtain ⟨n, hn⟩ | ⟨more, n, hturned, hn⟩ := plain_of_turned text
          · rw [Function.iterate_fixed (strip_device_self hmarked)] at hn
            exact hplain hn
          · -- `UNC` with a slash: accepted as something else, or not at all
            have hmore : '/' ∉ more := fun hmem =>
              turned_no_slash text (hturned ▸ List.mem_append_right _ hmem)
            have hreach : Reaches more (plain text) := by
              rw [hn]
              exact Reaches.iterate ⟨[], List.not_mem_nil, .inr ⟨more, rfl, rfl⟩⟩ n
            have hsame := h.one_place
            rw [toOption_validate_eq hclean] at hsame
            by_cases hclean' : CleanAbsolute (plain text)
            · rw [toOption_validate_eq (by rwa [turned_plain]), turned_plain, Option.some.injEq, hturned] at hsame
              exact unc_results_differ hmore (plain_no_slash text) hreach (plain_not_prefixed text)
                (hturned ▸ hclean) hclean' hsame
            · rw [(toOption_validate _).mpr (by rwa [turned_plain])] at hsame
              exact absurd hsame (by simp)
      refine .inr ⟨hplain, hrefused, fun hclean => ?_⟩
      have hsame := h.one_place
      rw [(toOption_validate text).mpr hrefused, toOption_validate_eq (by rwa [turned_plain])] at hsame
      exact absurd hsame (by simp)
    · rintro (⟨heq, -⟩ | ⟨-, hrefused, hrefused'⟩)
      · exact absurd heq hplain
      · refine ⟨fun p hok => absurd (validate_windows_ok_iff.mp hok).1 hrefused, ?_⟩
        rw [(toOption_validate text).mpr hrefused, (toOption_validate _).mpr (by rwa [turned_plain])]

end

/-- **Spellings of Windows paths**: the unambiguous texts are exactly the canonicalised ones, and
two of them that differ in separators and device prefixes only have one result. -/
theorem spellings_canonicalised (text : String) :
    (Canonicalised text ↔ Unambiguous text) ∧
    ∀ text', Unambiguous text → Unambiguous text' → plain text = plain text' →
      (validate_windows_config_path text).toOption = (validate_windows_config_path text').toOption := by
  refine ⟨canonicalised_iff text, fun text' h h' hplain => ?_⟩
  rw [((canonicalised_iff text).mpr h).one_place, ((canonicalised_iff text').mpr h').one_place, hplain]

/-- One file with a long-path prefix and with a slash. -/
theorem spellings_canonicalised_prefixed :
    (validate_windows_config_path "\\\\?\\C:\\x").toOption = (validate_windows_config_path "C:/x").toOption := by
  have hletter : ∀ {text : String}, plain text = turned text → turned text = "C:\\x".toList → Unambiguous text := by
    intro text hplain hturned
    refine .inl ⟨hplain, fun _ => .inl ⟨'C', rfl, ?_⟩⟩
    rw [hturned]
    decide +kernel
  exact (spellings_canonicalised _).2 _ (hletter (by decide +kernel) (by decide +kernel))
    (hletter (by decide +kernel) (by decide +kernel)) (by decide +kernel)

/-- A drive behind two long-path prefixes keeps one of them, and the next validation takes it. -/
theorem doubled_prefix_not_canonicalised :
    validate_windows_config_path "\\\\?\\\\\\?\\C:\\x" = .ok (.windows "\\\\?\\C:".toList ['\\'] [['x']]) ∧
    validate_windows_config_path "\\\\?\\C:\\x" = .ok (.windows "C:".toList ['\\'] [['x']]) ∧
    ¬ ∀ text, Canonicalised text := by
  have hfirst : validate_windows_config_path "\\\\?\\\\\\?\\C:\\x" = .ok (.windows "\\\\?\\C:".toList ['\\'] [['x']]) := by
    decide +kernel
  have hsecond : validate_windows_config_path "\\\\?\\C:\\x" = .ok (.windows "C:".toList ['\\'] [['x']]) := by
    decide +kernel
  refine ⟨hfirst, hsecond, fun h => ?_⟩
  have hwell := ((h "\\\\?\\\\\\?\\C:\\x").well_formed _ hfirst).1
  exact hwell.no_device (.inl ⟨"C:\\x".toList, by decide +kernel⟩)

end Fathom.Security
