/-
**Timestamps**: Python's `datetime` with a fixed `utcoffset`, the instant it
denotes, and the text `isoformat` writes.

A timestamp is compared as an instant and signed as a text, and the two are
different maps out of the same fields: `instant` forgets the offset,
`isoformat` does not. What is proved is that `isoformat` is injective
(`isoformat_injective`): the fields are written with fixed widths, the optional
fraction starts with a dot and the optional offset with a sign, so the text
splits back in one way. The bounds that make the widths fixed are carried by the
type.

The calendar arithmetic (`ymd2ord`) is the proleptic Gregorian one of
the standard library, transcribed; nothing is proved of it.
-/
import Mathlib.Data.List.Basic
import Mathlib.Tactic.Ring

set_option autoImplicit false

namespace Fathom.Datetime

/-! ## The calendar -/

/-- `_is_leap`. -/
def is_leap (year : ℕ) : Bool := year % 4 = 0 ∧ (year % 100 ≠ 0 ∨ year % 400 = 0)

/-- `_DAYS_IN_MONTH`, February short. -/
def days_in_month_table : List ℕ := [0, 31, 28, 31, 30, 31, 30, 31, 31, 30, 31, 30, 31]

/-- `_DAYS_BEFORE_MONTH`, in a year that is not a leap year. -/
def days_before_month_table : List ℕ :=
  [0, 0, 31, 59, 90, 120, 151, 181, 212, 243, 273, 304, 334]

/-- `_days_in_month`. -/
def days_in_month (year month : ℕ) : ℕ :=
  if month = 2 ∧ is_leap year then 29 else days_in_month_table.getD month 0

/-- `_days_before_year`. -/
def days_before_year (year : ℕ) : ℕ :=
  (year - 1) * 365 + (year - 1) / 4 - (year - 1) / 100 + (year - 1) / 400

/-- `_days_before_month`. -/
def days_before_month (year month : ℕ) : ℕ :=
  days_before_month_table.getD month 0 + if 2 < month ∧ is_leap year then 1 else 0

/-- `_ymd2ord`: the number of a day, `1` for the first of January of year one. -/
def ymd2ord (year month day : ℕ) : ℕ :=
  days_before_year year + days_before_month year month + day

/-! ## Timestamps -/

/-- The ranges the constructor of `datetime` checks. -/
def InRange (year month day hour minute second microsecond : ℕ) (offset : Option Int) : Prop :=
  (1 ≤ year ∧ year ≤ 9999) ∧ (1 ≤ month ∧ month ≤ 12) ∧
    (1 ≤ day ∧ day ≤ days_in_month year month) ∧
    hour < 24 ∧ minute < 60 ∧ second < 60 ∧ microsecond < 1000000 ∧
    ∀ o ∈ offset, o.natAbs < 86400000000

instance (y mo d h mi s us : ℕ) (o : Option Int) : Decidable (InRange y mo d h mi s us o) := by
  unfold InRange
  infer_instance

/-- A timestamp. `utcoffset` is in microseconds, `none` for a naive one. -/
structure Timestamp where
  year : ℕ
  month : ℕ
  day : ℕ
  hour : ℕ
  minute : ℕ
  second : ℕ
  microsecond : ℕ
  utcoffset : Option Int
  in_range : InRange year month day hour minute second microsecond utcoffset
  deriving DecidableEq

/-- The local wall clock as microseconds since the first day. -/
def Timestamp.local_micros (t : Timestamp) : Int :=
  (((ymd2ord t.year t.month t.day * 24 + t.hour) * 60 + t.minute) * 60 + t.second : ℕ) * 1000000
    + t.microsecond

/-- The instant a timestamp denotes, a naive one being read as UTC: what two
timestamps are compared by. -/
def Timestamp.instant (t : Timestamp) : Int := t.local_micros - t.utcoffset.getD 0

/-! ## `isoformat` -/

/-- A number in decimal, zero-padded to `w` digits: `%0wd`. -/
def pad : ℕ → ℕ → List Char
  | 0, _ => []
  | w + 1, n => pad w (n / 10) ++ [Nat.digitChar (n % 10)]

/-- The fraction: present only when there are microseconds. -/
def format_fraction (us : ℕ) : List Char := if us = 0 then [] else '.' :: pad 6 us

/-- The seconds of an offset, `r` microseconds past the minute: present only when
they are not zero. -/
def format_offset_seconds (r : ℕ) : List Char :=
  if r = 0 then [] else ':' :: (pad 2 (r / 1000000) ++ format_fraction (r % 1000000))

/-- `_format_offset`: the sign, the hours and minutes, the seconds. -/
def format_offset : Option Int → List Char
  | none => []
  | some o =>
    (if o < 0 then '-' else '+') :: (pad 2 (o.natAbs / 3600000000) ++
      (':' :: (pad 2 (o.natAbs / 60000000 % 60) ++ format_offset_seconds (o.natAbs % 60000000))))

/-- The wall clock, followed by the text `zone` of its offset. -/
def Timestamp.wall_chars (t : Timestamp) (zone : List Char) : List Char :=
  pad 4 t.year ++ ('-' :: (pad 2 t.month ++ ('-' :: (pad 2 t.day ++ ('T' :: (pad 2 t.hour ++
    (':' :: (pad 2 t.minute ++ (':' :: (pad 2 t.second ++
      (format_fraction t.microsecond ++ zone)))))))))))

/-- `t.isoformat()`. -/
def Timestamp.isoformat (t : Timestamp) : String :=
  String.ofList (t.wall_chars (format_offset t.utcoffset))

/-- The same timestamp with another offset and the same wall clock. -/
def Timestamp.SameWall (s t : Timestamp) : Prop :=
  (s.year, s.month, s.day, s.hour, s.minute, s.second, s.microsecond)
    = (t.year, t.month, t.day, t.hour, t.minute, t.second, t.microsecond)

/-! ## The text splits back -/

theorem pad_length (w n : ℕ) : (pad w n).length = w := by
  induction w generalizing n with
  | zero => rfl
  | succ w ih => rw [pad, List.length_append, ih, List.length_singleton]

theorem digitChar_inj : ∀ a < 10, ∀ b < 10, Nat.digitChar a = Nat.digitChar b → a = b := by
  decide

/-- A padded number that fits its width is determined by its digits. -/
theorem pad_inj {w a b : ℕ} (ha : a < 10 ^ w) (hb : b < 10 ^ w) (h : pad w a = pad w b) : a = b := by
  induction w generalizing a b with
  | zero => omega
  | succ w ih =>
      rw [pad, pad] at h
      obtain ⟨hhi, hlo⟩ := List.append_inj h (by rw [pad_length, pad_length])
      rw [pow_succ] at ha hb
      have hq : a / 10 = b / 10 := ih (by omega) (by omega) hhi
      have hr : a % 10 = b % 10 :=
        digitChar_inj _ (Nat.mod_lt _ (by decide)) _ (Nat.mod_lt _ (by decide))
          (List.singleton_inj.mp hlo)
      omega

/-- One fixed-width field: it and everything after it are determined. -/
theorem pad_append_inj {w a b : ℕ} {s t : List Char} (ha : a < 10 ^ w) (hb : b < 10 ^ w)
    (h : pad w a ++ s = pad w b ++ t) : a = b ∧ s = t := by
  obtain ⟨hp, hs⟩ := List.append_inj h (by rw [pad_length, pad_length])
  exact ⟨pad_inj ha hb hp, hs⟩

/-- The fraction, followed by something that does not start with a dot. -/
theorem format_fraction_inj {a b : ℕ} {s t : List Char} (ha : a < 1000000) (hb : b < 1000000)
    (hs : s.head? ≠ some '.') (ht : t.head? ≠ some '.')
    (h : format_fraction a ++ s = format_fraction b ++ t) : a = b ∧ s = t := by
  unfold format_fraction at h
  split_ifs at h with h1 h2 h2
  · exact ⟨by omega, by simpa using h⟩
  · exact absurd (by rw [List.nil_append] at h; rw [h]; rfl) hs
  · exact absurd (by rw [List.nil_append] at h; rw [← h]; rfl) ht
  · rw [List.cons_append, List.cons_append, List.cons_inj_right] at h
    exact pad_append_inj (w := 6) (by omega) (by omega) h

theorem format_offset_head (o : Option Int) : (format_offset o).head? ≠ some '.' := by
  cases o with
  | none => simp [format_offset]
  | some o =>
      simp only [format_offset, List.head?_cons]
      split_ifs <;> decide

theorem format_offset_seconds_inj {a b : ℕ} (ha : a < 60000000) (hb : b < 60000000)
    (h : format_offset_seconds a = format_offset_seconds b) : a = b := by
  unfold format_offset_seconds at h
  split_ifs at h with h1 h2 h2
  · omega
  · rw [List.cons_inj_right] at h
    obtain ⟨hs, hu⟩ := pad_append_inj (w := 2) (by omega) (by omega) h
    obtain ⟨hus, -⟩ := format_fraction_inj (s := []) (t := [])
      (Nat.mod_lt a (by decide : 0 < 1000000)) (Nat.mod_lt b (by decide : 0 < 1000000))
      (by simp) (by simp) (by rw [List.append_nil, List.append_nil]; exact hu)
    omega

theorem format_offset_injective {o p : Option Int} (ho : ∀ x ∈ o, x.natAbs < 86400000000)
    (hp : ∀ x ∈ p, x.natAbs < 86400000000) (h : format_offset o = format_offset p) : o = p := by
  cases o with
  | none =>
      cases p with
      | none => rfl
      | some p => exact absurd h (by simp [format_offset])
  | some o =>
      cases p with
      | none => exact absurd h (by simp [format_offset])
      | some p =>
          have hob := ho o rfl
          have hpb := hp p rfl
          simp only [format_offset, List.cons.injEq] at h
          obtain ⟨hsign, h⟩ := h
          obtain ⟨hh, h⟩ := pad_append_inj (w := 2) (by omega) (by omega) h
          rw [List.cons_inj_right] at h
          obtain ⟨hm, h⟩ := pad_append_inj (w := 2) (by omega) (by omega) h
          have hr := format_offset_seconds_inj (Nat.mod_lt _ (by decide))
            (Nat.mod_lt _ (by decide)) h
          have habs : o.natAbs = p.natAbs := by omega
          have hsg : o < 0 ↔ p < 0 := by
            split_ifs at hsign with h1 h2 h2
            · exact ⟨fun _ => h2, fun _ => h1⟩
            · exact absurd hsign (by decide)
            · exact absurd hsign (by decide)
            · exact ⟨fun h => absurd h h1, fun h => absurd h h2⟩
          congr 1
          omega

theorem days_in_month_le (y m : ℕ) : days_in_month y m ≤ 31 := by
  unfold days_in_month
  split_ifs
  · omega
  · have hall : ∀ d ∈ days_in_month_table, d ≤ 31 := by decide
    rw [List.getD_eq_getElem?_getD]
    cases hd : days_in_month_table[m]? with
    | none => simp
    | some d => exact hall d (List.mem_of_getElem? hd)

/-- The wall clock splits off, whatever text of an offset follows it. -/
theorem wall_chars_inj {s t : Timestamp} {u v : List Char} (hu : u.head? ≠ some '.')
    (hv : v.head? ≠ some '.') (h : s.wall_chars u = t.wall_chars v) : s.SameWall t ∧ u = v := by
  obtain ⟨⟨-, hsy⟩, ⟨-, hsmo⟩, ⟨-, hsd⟩, hsh, hsmi, hss, hsu, -⟩ := s.in_range
  obtain ⟨⟨-, hty⟩, ⟨-, htmo⟩, ⟨-, htd⟩, hth, htmi, hts, htu, -⟩ := t.in_range
  have hsd' := le_trans hsd (days_in_month_le _ _)
  have htd' := le_trans htd (days_in_month_le _ _)
  simp only [Timestamp.wall_chars] at h
  obtain ⟨hy, h⟩ := pad_append_inj (w := 4) (by omega) (by omega) h
  obtain ⟨hmo, h⟩ := pad_append_inj (w := 2) (by omega) (by omega) (List.cons_inj_right _ |>.mp h)
  obtain ⟨hd, h⟩ := pad_append_inj (w := 2) (by omega) (by omega) (List.cons_inj_right _ |>.mp h)
  obtain ⟨hh, h⟩ := pad_append_inj (w := 2) (by omega) (by omega) (List.cons_inj_right _ |>.mp h)
  obtain ⟨hmi, h⟩ := pad_append_inj (w := 2) (by omega) (by omega) (List.cons_inj_right _ |>.mp h)
  obtain ⟨hsec, h⟩ := pad_append_inj (w := 2) (by omega) (by omega) (List.cons_inj_right _ |>.mp h)
  obtain ⟨hus, h⟩ := format_fraction_inj hsu htu hu hv h
  exact ⟨by rw [Timestamp.SameWall, hy, hmo, hd, hh, hmi, hsec, hus], h⟩

/-- A timestamp is its wall clock and its offset. -/
theorem SameWall.eq {s t : Timestamp} (h : s.SameWall t) (ho : s.utcoffset = t.utcoffset) : s = t := by
  obtain ⟨_, _, _, _, _, _, _, _, _⟩ := s
  obtain ⟨_, _, _, _, _, _, _, _, _⟩ := t
  simp only [Timestamp.SameWall, Prod.mk.injEq] at h ho
  obtain ⟨rfl, rfl, rfl, rfl, rfl, rfl, rfl⟩ := h
  subst ho
  rfl

theorem utcoffset_bound (t : Timestamp) : ∀ o ∈ t.utcoffset, o.natAbs < 86400000000 :=
  t.in_range.2.2.2.2.2.2.2

/-- **`isoformat` is injective**: a text is the text of one timestamp. -/
theorem isoformat_injective {s t : Timestamp} (h : s.isoformat = t.isoformat) : s = t := by
  obtain ⟨hwall, hoff⟩ := wall_chars_inj (format_offset_head _) (format_offset_head _)
    (String.ofList_injective h)
  exact SameWall.eq hwall
    (format_offset_injective (utcoffset_bound s) (utcoffset_bound t) hoff)

/-! ## RFC 3339

The text a timestamp has on a wire: `isoformat` with `Z` for UTC and offsets to
the minute. Unlike `isoformat` it has a reader here, and `of_rfc3339_rfc3339`
says that reading undoes writing for every offset of whole minutes. -/

/-- An offset to the minute, `Z` for UTC. -/
def rfc3339_zone : Option Int → List Char
  | none => []
  | some o =>
    if o = 0 then [ 'Z']
    else (if o < 0 then '-' else '+') :: (pad 2 (o.natAbs / 3600000000) ++
      (':' :: pad 2 (o.natAbs / 60000000 % 60)))

/-- The RFC 3339 text of a timestamp. -/
def Timestamp.rfc3339 (t : Timestamp) : String :=
  String.ofList (t.wall_chars (rfc3339_zone t.utcoffset))

/-- Reads `w` digits behind the number `acc`. -/
def read_pad : ℕ → ℕ → List Char → Option (ℕ × List Char)
  | 0, acc, cs => some (acc, cs)
  | _ + 1, _, [] => none
  | w + 1, acc, c :: cs => if c.isDigit then read_pad w (acc * 10 + (c.toNat - 48)) cs else none

/-- Reads one given character. -/
def expect (c : Char) : List Char → Option (List Char)
  | [] => none
  | d :: cs => if d = c then some cs else none

/-- Reads `w` digits and the separator behind them. -/
def read_field (w : ℕ) (sep : Char) (cs : List Char) : Option (ℕ × List Char) :=
  (read_pad w 0 cs).bind fun r => (expect sep r.2).map fun rest => (r.1, rest)

/-- Reads an optional fraction of six digits. -/
def read_fraction (cs : List Char) : Option (ℕ × List Char) :=
  match expect '.' cs with
  | some rest => read_pad 6 0 rest
  | none => some (0, cs)

/-- Reads the offset, which ends the text. -/
def read_zone : List Char → Option (Option Int)
  | [] => some none
  | [ 'Z'] => some (some 0)
  | c :: cs => do
    let (h, cs) ← read_field 2 ':' cs
    let (m, cs) ← read_pad 2 0 cs
    if cs ≠ [] then none
    else if c = '+' then some (some (((h * 60 + m) * 60000000 : ℕ) : Int))
    else if c = '-' then some (some (-(((h * 60 + m) * 60000000 : ℕ) : Int)))
    else none

/-- Reads an RFC 3339 text. -/
def of_rfc3339_chars (cs : List Char) : Option Timestamp := do
  let (year, cs) ← read_field 4 '-' cs
  let (month, cs) ← read_field 2 '-' cs
  let (day, cs) ← read_field 2 'T' cs
  let (hour, cs) ← read_field 2 ':' cs
  let (minute, cs) ← read_field 2 ':' cs
  let (second, cs) ← read_pad 2 0 cs
  let (microsecond, cs) ← read_fraction cs
  let offset ← read_zone cs
  if h : InRange year month day hour minute second microsecond offset then
    some ⟨year, month, day, hour, minute, second, microsecond, offset, h⟩
  else none

/-- Reads an RFC 3339 text. -/
def of_rfc3339 (s : String) : Option Timestamp := of_rfc3339_chars s.toList

/-- An offset of whole minutes, or none: what RFC 3339 can say. -/
def Timestamp.WholeMinutes (t : Timestamp) : Prop := ∀ o ∈ t.utcoffset, o % 60000000 = 0

instance (t : Timestamp) : Decidable t.WholeMinutes :=
  inferInstanceAs (Decidable (∀ o ∈ t.utcoffset, o % 60000000 = 0))

theorem digitChar_isDigit : ∀ d < 10, (Nat.digitChar d).isDigit = true := by
  decide

theorem digitChar_toNat : ∀ d < 10, (Nat.digitChar d).toNat - 48 = d := by
  decide

/-- The last of the digits can be read on its own. -/
theorem read_pad_succ (w acc : ℕ) (cs : List Char) :
    read_pad (w + 1) acc cs = (read_pad w acc cs).bind fun r => read_pad 1 r.1 r.2 := by
  induction w generalizing acc cs with
  | zero => rfl
  | succ w ih =>
      rcases cs with _ | ⟨c, cs⟩
      · rfl
      · rw [read_pad, read_pad]
        split_ifs
        · exact ih _ _
        · rfl

/-- A padded number reads back. -/
theorem read_pad_pad {w n : ℕ} (acc : ℕ) (hn : n < 10 ^ w) (rest : List Char) :
    read_pad w acc (pad w n ++ rest) = some (acc * 10 ^ w + n, rest) := by
  induction w generalizing n rest with
  | zero =>
      have h0 : n = 0 := by omega
      rw [h0, pad, List.nil_append, read_pad, pow_zero, Nat.mul_one, Nat.add_zero]
  | succ w ih =>
      rw [pow_succ] at hn
      have hlt : n % 10 < 10 := Nat.mod_lt n (by decide)
      rw [pad, List.append_assoc, read_pad_succ, ih (by omega), Option.bind_some,
        List.singleton_append, read_pad, if_pos (digitChar_isDigit _ hlt), read_pad,
        digitChar_toNat _ hlt, pow_succ]
      have hsum : (acc * 10 ^ w + n / 10) * 10 + n % 10 = acc * (10 ^ w * 10) + n := by
        rw [Nat.add_mul, Nat.mul_assoc]
        omega
      rw [hsum]

theorem expect_cons (c : Char) (cs : List Char) : expect c (c :: cs) = some cs := by
  rw [expect, if_pos rfl]

theorem read_pad_zero {w n : ℕ} (hn : n < 10 ^ w) (rest : List Char) :
    read_pad w 0 (pad w n ++ rest) = some (n, rest) := by
  rw [read_pad_pad 0 hn, Nat.zero_mul, Nat.zero_add]

/-- A number and the separator behind it read back. -/
theorem read_field_pad {w n : ℕ} (hn : n < 10 ^ w) (sep : Char) (rest : List Char) :
    read_field w sep (pad w n ++ sep :: rest) = some (n, rest) := by
  rw [read_field, read_pad_zero hn, Option.bind_some, expect_cons, Option.map_some]

theorem read_fraction_format {us : ℕ} (hus : us < 1000000) {rest : List Char} (hrest : rest.head? ≠ some '.') :
    read_fraction (format_fraction us ++ rest) = some (us, rest) := by
  unfold format_fraction read_fraction
  split_ifs with h0
  · rw [List.nil_append, h0]
    rcases rest with _ | ⟨c, rest⟩
    · rfl
    · have hc : c ≠ '.' := fun h => hrest (by rw [h]; rfl)
      rw [expect, if_neg hc]
  · rw [List.cons_append, expect_cons]
    exact read_pad_zero (w := 6) (by omega) rest

theorem rfc3339_zone_head (o : Option Int) : (rfc3339_zone o).head? ≠ some '.' := by
  rcases o with _ | o
  · simp [rfc3339_zone]
  · simp only [rfc3339_zone]
    split_ifs <;> simp

theorem read_zone_rfc3339 {o : Option Int} (hb : ∀ x ∈ o, x.natAbs < 86400000000)
    (hm : ∀ x ∈ o, x % 60000000 = 0) : read_zone (rfc3339_zone o) = some o := by
  rcases o with _ | o
  · rfl
  · have hob := hb o rfl
    have hom := hm o rfl
    rw [rfc3339_zone]
    by_cases h0 : o = 0
    · rw [if_pos h0, h0]
      rfl
    · rw [if_neg h0]
      have hne : (if o < 0 then '-' else '+') ≠ 'Z' := by split_ifs <;> decide
      have hpad : pad 2 (o.natAbs / 60000000 % 60) = pad 2 (o.natAbs / 60000000 % 60) ++ [] :=
        (List.append_nil _).symm
      rw [read_zone.eq_3 _ _ (fun h => absurd h hne), read_field_pad (w := 2) (by omega)]
      simp only [Option.bind_eq_bind, Option.bind_some]
      rw [hpad, read_pad_zero (w := 2) (by omega)]
      simp only [Option.bind_some, ne_eq, not_true_eq_false, if_false]
      by_cases hneg : o < 0
      · rw [if_pos hneg, if_neg (by decide), if_pos rfl]
        congr 2
        omega
      · rw [if_neg hneg, if_pos rfl]
        congr 2
        omega

/-- **The RFC 3339 round trip**, for an offset of whole minutes. -/
theorem of_rfc3339_rfc3339 {t : Timestamp} (hm : t.WholeMinutes) : of_rfc3339 t.rfc3339 = some t := by
  obtain ⟨⟨-, hy⟩, ⟨-, hmo⟩, ⟨-, hd⟩, hh, hmi, hs, hus, -⟩ := t.in_range
  have hd' := le_trans hd (days_in_month_le _ _)
  rw [of_rfc3339, Timestamp.rfc3339, String.toList_ofList, Timestamp.wall_chars, of_rfc3339_chars]
  rw [read_field_pad (w := 4) (by omega)]
  simp only [Option.bind_eq_bind, Option.bind_some]
  rw [read_field_pad (w := 2) (by omega), Option.bind_some]
  dsimp only
  rw [read_field_pad (w := 2) (by omega), Option.bind_some]
  dsimp only
  rw [read_field_pad (w := 2) (by omega), Option.bind_some]
  dsimp only
  rw [read_field_pad (w := 2) (by omega), Option.bind_some]
  dsimp only
  rw [read_pad_zero (w := 2) (by omega), Option.bind_some]
  dsimp only
  rw [read_fraction_format hus (rfc3339_zone_head _), Option.bind_some]
  dsimp only
  rw [read_zone_rfc3339 (utcoffset_bound t) hm, Option.bind_some, dif_pos t.in_range]

end Fathom.Datetime
