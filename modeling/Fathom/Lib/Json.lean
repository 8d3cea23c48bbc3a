/-
**JSON texts**: the values a Python `dict` of plain data is made of, the text
`json.dumps` writes for one, and the reader `json.loads`.

Two things are proved, and everything that signs, hashes or stores a JSON text
rests on one of them.

* `loads_dumps` -- reading a written text gives the value back, whatever the
  separators. This is the round trip of a wire or of a JSON column.
* `dumps_injective` -- two values with the same text are the same value. It is
  the round trip read as a statement about `dumps` alone, and it is what makes a
  signature over the text a signature over the value.

`sort_keys` is a rearrangement of the value before it is written (`sort_value`),
so a sorted text determines the value up to the order of its keys and nothing
else; `dumps_sorted_eq_iff` says it that way.

A string is a Lean `String`, so a sequence of Unicode scalar values. Python's
`str` may also hold lone surrogates; the models that fill these values refuse
such strings, and `loads` refuses a text that spells one.
-/
import Mathlib.Data.List.Sort

set_option autoImplicit false

namespace Fathom.Json

/-! ## Values -/

/-- The characters a number is written with, `NaN` and `Infinity` included. -/
def number_char (c : Char) : Bool :=
  c.isDigit || [ '+', '-', '.', 'e', 'E', 'N', 'a', 'I', 'n', 'f', 'i', 't', 'y'].contains c

/-- A number token that reads as an integer: an optional sign, then digits. -/
def is_int_text : List Char → Bool
  | '-' :: ds => !ds.isEmpty && ds.all Char.isDigit
  | ds => !ds.isEmpty && ds.all Char.isDigit

/-- The characters a number starts with. -/
def starts_number (c : Char) : Bool := c.isDigit || [ '-', 'N', 'I'].contains c

/-- A number token that reads as a float: it starts like a number and is not an
integer. -/
def is_float_text (t : List Char) : Bool :=
  t.all number_char && !is_int_text t && t.head?.any starts_number

/-- A float, held as the token `repr` writes for it. Nothing here computes with
floats, and `float(repr(x)) == x`, so the token is the value. -/
structure FloatLit where
  text : List Char
  ok : is_float_text text = true
  deriving DecidableEq

/-- A JSON value: what `json.loads` can return. An object keeps the order of its
keys, as a `dict` does. -/
inductive Value where
  | null
  | bool (b : Bool)
  | int (n : Int)
  | float (x : FloatLit)
  | str (s : String)
  | arr (xs : List Value)
  | obj (fields : List (String × Value))

/-- The separators of a text: `compact` is `separators=(",", ":")`, `spaced` the
default `(", ", ": ")`. -/
inductive Format where
  | compact
  | spaced
  deriving DecidableEq

/-- The text between two items. -/
def Format.item_sep : Format → List Char
  | .compact => [ ',']
  | .spaced => [ ',', ' ']

/-- The text between a key and its value. -/
def Format.key_sep : Format → List Char
  | .compact => [ ':']
  | .spaced => [ ':', ' ']

/-! ## Writing -/

/-- One hexadecimal digit, lower case. -/
def hex_digit (n : ℕ) : Char :=
  if n < 10 then Char.ofNat (48 + n) else Char.ofNat (87 + n)

/-- `\uXXXX`. -/
def escape_unit (n : ℕ) : List Char :=
  [ '\\', 'u', hex_digit (n / 4096 % 16), hex_digit (n / 256 % 16), hex_digit (n / 16 % 16),
    hex_digit (n % 16)]

/-- One character of a string literal under `ensure_ascii`: the two-character
escapes, the printable ASCII characters as they are, everything else as one
`\uXXXX` or, above the basic plane, as a surrogate pair. -/
def escape_char (c : Char) : List Char :=
  if c = '"' then [ '\\', '"']
  else if c = '\\' then [ '\\', '\\']
  else if c = '\n' then [ '\\', 'n']
  else if c = '\r' then [ '\\', 'r']
  else if c = '\t' then [ '\\', 't']
  else if c.toNat = 12 then [ '\\', 'f']
  else if c.toNat = 8 then [ '\\', 'b']
  else if 0x20 ≤ c.toNat ∧ c.toNat ≤ 0x7e then [c]
  else if c.toNat < 0x10000 then escape_unit c.toNat
  else escape_unit (0xd800 + (c.toNat - 0x10000) / 0x400) ++
    escape_unit (0xdc00 + (c.toNat - 0x10000) % 0x400)

/-- The characters of a string literal, without its quotes. -/
def escape (s : List Char) : List Char := s.flatMap escape_char

/-- A string literal. -/
def render_string (s : String) : List Char := '"' :: (escape s.toList ++ [ '"'])

/-- An integer, in decimal. -/
def render_int (n : Int) : List Char :=
  if n < 0 then '-' :: Nat.toDigits 10 n.natAbs else Nat.toDigits 10 n.natAbs

mutual

/-- The text of a value. -/
def render (fmt : Format) : Value → List Char
  | .null => "null".toList
  | .bool true => "true".toList
  | .bool false => "false".toList
  | .int n => render_int n
  | .float x => x.text
  | .str s => render_string s
  | .arr xs => '[' :: (render_items fmt xs ++ [ ']'])
  | .obj fs => '\x7b' :: (render_fields fmt fs ++ [ '\x7d'])

/-- The items of an array, separated. -/
def render_items (fmt : Format) : List Value → List Char
  | [] => []
  | [x] => render fmt x
  | x :: y :: xs => render fmt x ++ (fmt.item_sep ++ render_items fmt (y :: xs))

/-- The fields of an object, separated. -/
def render_fields (fmt : Format) : List (String × Value) → List Char
  | [] => []
  | [(k, v)] => render_string k ++ (fmt.key_sep ++ render fmt v)
  | (k, v) :: f :: fs =>
    render_string k ++ (fmt.key_sep ++ (render fmt v ++
      (fmt.item_sep ++ render_fields fmt (f :: fs))))

end

/-- The order `sort_keys` puts the fields in: by key, code point by code point. -/
def key_le (f g : String × Value) : Prop := f.1 ≤ g.1

instance : DecidableRel key_le := fun f g => inferInstanceAs (Decidable (f.1 ≤ g.1))

mutual

/-- The value with the keys of every object sorted. -/
def sort_value : Value → Value
  | .arr xs => .arr (sort_items xs)
  | .obj fs => .obj ((sort_fields fs).insertionSort key_le)
  | v => v

/-- `sort_value` in every item. -/
def sort_items : List Value → List Value
  | [] => []
  | x :: xs => sort_value x :: sort_items xs

/-- `sort_value` under every key. -/
def sort_fields : List (String × Value) → List (String × Value)
  | [] => []
  | (k, v) :: fs => (k, sort_value v) :: sort_fields fs

end

/-- `json.dumps(v, separators=…)`. -/
def dumps (fmt : Format) (v : Value) : List Char := render fmt v

/-- `json.dumps(v, sort_keys=True, separators=(",", ":"))`, the canonical text. -/
def dumps_sorted (v : Value) : List Char := render .compact (sort_value v)

/-! ## Reading -/

/-- JSON whitespace. -/
def is_ws (c : Char) : Bool := [ ' ', '\t', '\n', '\r'].contains c

/-- A text past its leading whitespace. -/
def skip_ws (cs : List Char) : List Char := cs.dropWhile is_ws

/-- The value of a hexadecimal digit of either case. -/
def unhex (c : Char) : Option ℕ :=
  if '0' ≤ c ∧ c ≤ '9' then some (c.toNat - 48)
  else if 'a' ≤ c ∧ c ≤ 'f' then some (c.toNat - 87)
  else if 'A' ≤ c ∧ c ≤ 'F' then some (c.toNat - 55)
  else none

/-- Four hexadecimal digits. -/
def unhex4 (a b c d : Char) : Option ℕ := do
  let a ← unhex a
  let b ← unhex b
  let c ← unhex c
  let d ← unhex d
  return a * 4096 + b * 256 + c * 16 + d

/-- The character of a two-character escape. -/
def unescape (c : Char) : Option Char :=
  if c = '"' then some '"'
  else if c = '\\' then some '\\'
  else if c = '/' then some '/'
  else if c = 'n' then some '\n'
  else if c = 'r' then some '\r'
  else if c = 't' then some '\t'
  else if c = 'f' then some (Char.ofNat 12)
  else if c = 'b' then some (Char.ofNat 8)
  else none

/-- A scalar value as a character; `none` for a surrogate. -/
def char_of_unit (n : ℕ) : Option Char :=
  if n.isValidChar then some (Char.ofNat n) else none

/-- The two halves of a surrogate pair. -/
def char_of_pair (hi lo : ℕ) : Option Char :=
  if 0xd800 ≤ hi ∧ hi < 0xdc00 ∧ 0xdc00 ≤ lo ∧ lo < 0xe000 then
    char_of_unit (0x10000 + (hi - 0xd800) * 0x400 + (lo - 0xdc00))
  else none

/-- What follows a `\u` escape of the unit `n`: nothing more if `n` is a scalar
value, else the second half of its pair. -/
def read_unit (n : ℕ) (rest : List Char) : Option (Char × List Char) :=
  match char_of_unit n with
  | some c => some (c, rest)
  | none =>
    match rest with
    | '\\' :: 'u' :: a :: b :: c :: d :: rest' =>
      ((unhex4 a b c d).bind (char_of_pair n)).map fun c => (c, rest')
    | _ => none

/-- One character of a string literal: the character and what follows it. -/
def read_char : List Char → Option (Char × List Char)
  | '\\' :: 'u' :: a :: b :: c :: d :: rest => (unhex4 a b c d).bind fun n => read_unit n rest
  | '\\' :: e :: rest => (unescape e).map fun c => (c, rest)
  | c :: rest => if c = '\\' ∨ c.toNat < 0x20 then none else some (c, rest)
  | [] => none

/-- The rest of a string literal, after its opening quote. -/
def read_string : ℕ → List Char → Option (List Char × List Char)
  | 0, _ => none
  | fuel + 1, cs =>
    if cs.head? = some '"' then some ([], cs.tail)
    else do
      let (c, rest) ← read_char cs
      let (s, rest) ← read_string fuel rest
      return (c :: s, rest)

/-- The integer a token spells. -/
def int_of_text : List Char → Int
  | '-' :: ds => - (Nat.ofDigitChars 10 ds 0 : Int)
  | ds => (Nat.ofDigitChars 10 ds 0 : Int)

/-- The number a token spells. -/
def read_number (t : List Char) : Option Value :=
  if is_int_text t then some (.int (int_of_text t))
  else if h : is_float_text t = true then some (.float ⟨t, h⟩)
  else none

mutual

/-- One value and what follows it. -/
def read_value : ℕ → List Char → Option (Value × List Char)
  | 0, _ => none
  | fuel + 1, cs =>
    match skip_ws cs with
    | [] => none
    | c :: rest =>
      if c = '"' then (read_string fuel rest).map fun r => (.str (String.ofList r.1), r.2)
      else if c = '[' then
        if (skip_ws rest).head? = some ']' then some (.arr [], (skip_ws rest).tail)
        else (read_items fuel rest).map fun r => (.arr r.1, r.2)
      else if c = '\x7b' then
        if (skip_ws rest).head? = some '\x7d' then some (.obj [], (skip_ws rest).tail)
        else (read_fields fuel rest).map fun r => (.obj r.1, r.2)
      else if "null".toList.isPrefixOf (c :: rest) then some (.null, rest.drop 3)
      else if "true".toList.isPrefixOf (c :: rest) then some (.bool true, rest.drop 3)
      else if "false".toList.isPrefixOf (c :: rest) then some (.bool false, rest.drop 4)
      else (read_number ((c :: rest).takeWhile number_char)).map fun v =>
        (v, (c :: rest).dropWhile number_char)

/-- The items of a non-empty array, up to its closing bracket. -/
def read_items : ℕ → List Char → Option (List Value × List Char)
  | 0, _ => none
  | fuel + 1, cs => do
    let (v, rest) ← read_value fuel cs
    match skip_ws rest with
    | ',' :: rest => do
      let (vs, rest) ← read_items fuel rest
      return (v :: vs, rest)
    | ']' :: rest => return ([v], rest)
    | _ => none

/-- The fields of a non-empty object, up to its closing brace. -/
def read_fields : ℕ → List Char → Option (List (String × Value) × List Char)
  | 0, _ => none
  | fuel + 1, cs =>
    match skip_ws cs with
    | '"' :: rest => do
      let (k, rest) ← read_string fuel rest
      match skip_ws rest with
      | ':' :: rest => do
        let (v, rest) ← read_value fuel rest
        match skip_ws rest with
        | ',' :: rest => do
          let (fs, rest) ← read_fields fuel rest
          return ((String.ofList k, v) :: fs, rest)
        | '\x7d' :: rest => return ([(String.ofList k, v)], rest)
        | _ => none
      | _ => none
    | _ => none

end

/-- `json.loads(text)`. -/
def loads (text : List Char) : Option Value :=
  match read_value (text.length + 1) text with
  | some (v, rest) => if skip_ws rest = [] then some v else none
  | none => none

/-! ## Strings read back

`read_char` undoes `escape_char` one character at a time. The three shapes of an
escape are three lemmas: a character that stands for itself, one `\uXXXX`, and a
surrogate pair. -/

variable {n : ℕ} {c : Char} {cs : List Char}

theorem unhex_hex_digit (h : n < 16) : unhex (hex_digit n) = some n := by
  revert n
  decide

/-- Four hexadecimal digits spell the unit they were cut from. -/
theorem unhex4_escape (h : n < 0x10000) :
    unhex4 (hex_digit (n / 4096 % 16)) (hex_digit (n / 256 % 16)) (hex_digit (n / 16 % 16))
      (hex_digit (n % 16)) = some n := by
  have hn : n / 4096 % 16 * 4096 + n / 256 % 16 * 256 + n / 16 % 16 * 16 + n % 16 = n := by
    omega
  simp only [unhex4, unhex_hex_digit (Nat.mod_lt _ (by decide : 0 < 16)), Option.bind_eq_bind,
    Option.bind_some, hn, pure]

theorem read_char_escape_unit (h : n < 0x10000) (rest : List Char) :
    read_char (escape_unit n ++ rest) = read_unit n rest := by
  simp only [escape_unit, List.cons_append, List.nil_append, read_char, unhex4_escape h,
    Option.bind_some]

theorem char_of_unit_toNat (c : Char) : char_of_unit c.toNat = some c := by
  have hv : c.toNat.isValidChar := c.valid
  rw [char_of_unit, if_pos hv, Char.ofNat_toNat]

theorem char_toNat_lt (c : Char) : c.toNat < 0x110000 := by
  have hv : c.toNat.isValidChar := c.valid
  rcases hv with h | h
  · omega
  · exact h.2

/-- The two halves of a pair spell the character they were cut from. -/
theorem char_of_pair_split (c : Char) (h : 0x10000 ≤ c.toNat) : char_of_pair (0xd800 + (c.toNat - 0x10000) / 0x400)
      (0xdc00 + (c.toNat - 0x10000) % 0x400) = some c := by
  have hlt := char_toNat_lt c
  have hsum : 0x10000 + (0xd800 + (c.toNat - 0x10000) / 0x400 - 0xd800) * 0x400
      + (0xdc00 + (c.toNat - 0x10000) % 0x400 - 0xdc00) = c.toNat := by
    omega
  rw [char_of_pair, if_pos (by omega), hsum, char_of_unit_toNat]

/-- A surrogate is not a character. -/
theorem char_of_unit_surrogate (hlo : 0xd800 ≤ n) (hhi : n < 0xe000) : char_of_unit n = none := by
  have hv : ¬ n.isValidChar := by
    rintro (h | h)
    · omega
    · omega
  rw [char_of_unit, if_neg hv]

/-- A surrogate followed by a second unit reads as the pair they make. -/
theorem read_unit_surrogate {hi lo : ℕ} (hlo : lo < 0x10000) (hsur : char_of_unit hi = none)
    (hpair : char_of_pair hi lo = some c) (rest : List Char) :
    read_unit hi (escape_unit lo ++ rest) = some (c, rest) := by
  simp only [read_unit, hsur, escape_unit, List.cons_append, List.nil_append,
    unhex4_escape hlo, Option.bind_some, hpair, Option.map_some]

/-- The first half of a pair is not a character, so the reader goes on to the
second half. -/
theorem read_unit_pair (c : Char) (h : 0x10000 ≤ c.toNat) (rest : List Char) :
    read_unit (0xd800 + (c.toNat - 0x10000) / 0x400)
      (escape_unit (0xdc00 + (c.toNat - 0x10000) % 0x400) ++ rest) = some (c, rest) := by
  have hlt := char_toNat_lt c
  exact read_unit_surrogate (by omega) (char_of_unit_surrogate (by omega) (by omega))
    (char_of_pair_split c h) rest

/-- A printable character other than the backslash stands for itself. -/
theorem read_char_self (hb : c ≠ '\\') (hlo : 0x20 ≤ c.toNat) (rest : List Char) :
    read_char (c :: rest) = some (c, rest) := by
  have hc : ¬ (c = '\\' ∨ c.toNat < 0x20) := by
    rintro (h | h)
    · exact hb h
    · omega
  rw [read_char.eq_def]
  split <;> simp_all

/-- **One character.** Reading an escaped character gives the character back. -/
theorem read_char_escape (c : Char) (rest : List Char) : read_char (escape_char c ++ rest) = some (c, rest) := by
  unfold escape_char
  split_ifs with h1 h2 h3 h4 h5 h6 h7 h8 h9
  · subst h1; rfl
  · subst h2; rfl
  · subst h3; rfl
  · subst h4; rfl
  · subst h5; rfl
  · rw [← Char.ofNat_toNat c, h6]; rfl
  · rw [← Char.ofNat_toNat c, h7]; rfl
  · exact read_char_self h2 h8.1 rest
  · rw [read_char_escape_unit h9]
    simp only [read_unit, char_of_unit_toNat]
  · have hhi : 0xd800 + (c.toNat - 0x10000) / 0x400 < 0x10000 := by
      have hlt := char_toNat_lt c
      omega
    rw [List.append_assoc, read_char_escape_unit hhi, read_unit_pair c (by omega)]

/-- An escape never starts with a quote: the reader cannot take it for the end
of the literal. -/
theorem escape_char_head (c : Char) (rest : List Char) : (escape_char c ++ rest).head? ≠ some '"' := by
  unfold escape_char
  split_ifs with h1 <;> simp [escape_unit, h1]

/-- **One literal.** The rest of a string literal reads back, with as much fuel
as it has characters. -/
theorem read_string_escape (s rest : List Char) : ∀ fuel, (escape s).length < fuel →
      read_string fuel (escape s ++ '"' :: rest) = some (s, rest) := by
  induction s with
  | nil =>
      intro fuel hf
      obtain ⟨fuel, rfl⟩ : ∃ f, fuel = f + 1 := ⟨fuel - 1, by omega⟩
      simp [escape, read_string]
  | cons c s ih =>
      intro fuel hf
      obtain ⟨fuel, rfl⟩ : ∃ f, fuel = f + 1 := ⟨fuel - 1, by omega⟩
      have hsplit : escape (c :: s) = escape_char c ++ escape s := List.flatMap_cons
      have hpos : 0 < (escape_char c).length := by
        unfold escape_char
        split_ifs <;> simp [escape_unit]
      have hlen : (escape s).length < fuel := by
        rw [hsplit, List.length_append] at hf
        omega
      rw [hsplit, List.append_assoc, read_string, if_neg (escape_char_head c _),
        read_char_escape]
      simp only [Option.bind_eq_bind, Option.bind_some, ih fuel hlen, pure]

/-! ## Numbers read back

A number token ends where the next character is not one of its own; that is the
only thing the reader asks of what follows a value. -/

/-- What may follow a value: nothing that would continue a number. -/
def Ends (rest : List Char) : Prop := ∀ c ∈ rest.head?, number_char c = false

theorem ends_nil : Ends [] := by
  intro c hc
  simp at hc

theorem ends_cons (rest : List Char) (h : number_char c = false) : Ends (c :: rest) := by
  intro d hd
  simp only [List.head?_cons, Option.mem_some_iff] at hd
  rw [← hd]
  exact h

theorem Ends.takeWhile {rest : List Char} (h : Ends rest) : rest.takeWhile number_char = [] := by
  cases rest with
  | nil => rfl
  | cons c rest => rw [List.takeWhile_cons_of_neg]; simpa using h c rfl

theorem Ends.dropWhile {rest : List Char} (h : Ends rest) : rest.dropWhile number_char = rest := by
  cases rest with
  | nil => rfl
  | cons c rest => rw [List.dropWhile_cons_of_neg]; simpa using h c rfl

/-- The first character of a number is none of the others the reader looks for. -/
theorem starts_number_ne (h : starts_number c = true) :
    is_ws c = false ∧ c ≠ '"' ∧ c ≠ '[' ∧ c ≠ ']' ∧ c ≠ '\x7b' ∧ c ≠ 'n' ∧ c ≠ 't' ∧ c ≠ 'f' := by
  refine ⟨?_, ?_, ?_, ?_, ?_, ?_, ?_, ?_⟩
  · rw [Bool.eq_false_iff]
    intro hw
    simp only [is_ws, List.contains_cons, List.contains_nil, Bool.or_false, Bool.or_eq_true,
      beq_iff_eq] at hw
    rcases hw with rfl | rfl | rfl | rfl <;> exact absurd h (by decide)
  all_goals
    rintro rfl
    exact absurd h (by decide)

theorem skip_ws_cons (rest : List Char) (h : is_ws c = false) : skip_ws (c :: rest) = c :: rest := by
  rw [skip_ws, List.dropWhile_cons_of_neg (by simp [h])]

/-- A keyword starting with another character is not a prefix. -/
theorem isPrefixOf_head_ne {a : Char} (k rest : List Char) (h : c ≠ a) : (a :: k).isPrefixOf (c :: rest) = false := by
  simp [List.isPrefixOf, Ne.symm h]

/-- **One number.** A token that starts like a number and is made of number
characters is read whole, and classified by `read_number`. -/
theorem read_value_number {t rest : List Char} {v : Value} (fuel : ℕ) (hc : starts_number c = true)
    (ht : (c :: t).all number_char = true) (hv : read_number (c :: t) = some v) (hrest : Ends rest) :
    read_value (fuel + 1) (c :: t ++ rest) = some (v, rest) := by
  obtain ⟨hws, hq, hb, -, ho, hn, ht', hf⟩ := starts_number_ne hc
  have htake : (c :: t ++ rest).takeWhile number_char = c :: t := by
    rw [List.takeWhile_append_of_pos (by simpa using ht), hrest.takeWhile, List.append_nil]
  have hdrop : (c :: t ++ rest).dropWhile number_char = rest := by
    rw [List.dropWhile_append_of_pos (by simpa using ht), hrest.dropWhile]
  rw [List.cons_append] at htake hdrop ⊢
  have hnull : "null".toList.isPrefixOf (c :: (t ++ rest)) = false :=
    isPrefixOf_head_ne _ _ hn
  have htrue : "true".toList.isPrefixOf (c :: (t ++ rest)) = false :=
    isPrefixOf_head_ne _ _ ht'
  have hfalse : "false".toList.isPrefixOf (c :: (t ++ rest)) = false :=
    isPrefixOf_head_ne _ _ hf
  simp only [read_value, skip_ws_cons _ hws, hq, hb, ho, hnull, htrue, hfalse, if_false,
    Bool.false_eq_true, htake, hdrop, hv, Option.map_some]

theorem digit_number_char (h : c.isDigit = true) : number_char c = true := by
  rw [number_char, h, Bool.true_or]

theorem digit_ne_minus (h : c.isDigit = true) : c ≠ '-' := by
  rintro rfl
  exact absurd h (by decide)

theorem toDigits_all_digit (n : ℕ) : (Nat.toDigits 10 n).all Char.isDigit = true := by
  rw [List.all_eq_true]
  intro c hc
  exact Nat.isDigit_of_mem_toDigits (by decide) (by decide) hc

/-- A token of digits is an integer. -/
theorem is_int_text_digits {ds : List Char} (hne : ds ≠ []) (hd : ds.all Char.isDigit = true) :
    is_int_text ds = true := by
  cases ds with
  | nil => exact absurd rfl hne
  | cons c ds =>
      have hc : c ≠ '-' := digit_ne_minus (by simp_all)
      unfold is_int_text
      split
      · rename_i heq
        simp_all
      · simp [hd]

theorem int_of_text_digits {ds : List Char} (hne : ds ≠ []) (hd : ds.all Char.isDigit = true) :
    int_of_text ds = (Nat.ofDigitChars 10 ds 0 : Int) := by
  cases ds with
  | nil => exact absurd rfl hne
  | cons c ds =>
      have hc : c ≠ '-' := digit_ne_minus (by simp_all)
      unfold int_of_text
      split
      · rename_i heq
        simp_all
      · rfl

theorem read_number_int (n : Int) : read_number (render_int n) = some (.int n) := by
  have hne := Nat.toDigits_ne_nil (b := 10) (n := n.natAbs)
  have hd := toDigits_all_digit n.natAbs
  have hback := Nat.ofDigitChars_ten_toDigits (n := n.natAbs)
  unfold render_int
  split_ifs with hneg
  · have hint : is_int_text ('-' :: Nat.toDigits 10 n.natAbs) = true := by
      simp [is_int_text, hne, hd]
    rw [read_number, if_pos hint, int_of_text, hback]
    congr 2
    omega
  · rw [read_number, if_pos (is_int_text_digits hne hd), int_of_text_digits hne hd, hback]
    congr 2
    omega

theorem read_number_float (x : FloatLit) : read_number x.text = some (.float x) := by
  have hok := x.ok
  simp only [is_float_text, Bool.and_eq_true, Bool.not_eq_true'] at hok
  rw [read_number, if_neg (by rw [hok.1.2]; decide), dif_pos x.ok]

/-- An integer's token starts like a number and is made of number characters. -/
theorem render_int_shape (n : Int) :
    ∃ c t, render_int n = c :: t ∧ starts_number c = true ∧ (c :: t).all number_char = true := by
  have hne := Nat.toDigits_ne_nil (b := 10) (n := n.natAbs)
  have hd := toDigits_all_digit n.natAbs
  have hall : (Nat.toDigits 10 n.natAbs).all number_char = true := by
    rw [List.all_eq_true] at hd ⊢
    exact fun c hc => digit_number_char (hd c hc)
  unfold render_int
  split_ifs with hneg
  · exact ⟨'-', _, rfl, by decide, by rw [List.all_cons, hall]; decide⟩
  · cases hds : Nat.toDigits 10 n.natAbs with
    | nil => exact absurd hds hne
    | cons c t =>
        rw [hds] at hd hall
        refine ⟨c, t, rfl, ?_, hall⟩
        rw [starts_number, (List.all_eq_true.mp hd) c List.mem_cons_self, Bool.true_or]

theorem float_shape (x : FloatLit) :
    ∃ c t, x.text = c :: t ∧ starts_number c = true ∧ (c :: t).all number_char = true := by
  have hok := x.ok
  cases hx : x.text with
  | nil => rw [hx] at hok; exact absurd hok (by decide)
  | cons c t =>
      rw [hx] at hok
      simp only [is_float_text, Bool.and_eq_true, List.head?_cons, Option.any_some] at hok
      exact ⟨c, t, rfl, hok.2, hok.1.1⟩

/-! ## The round trip

The induction is on the value; the fuel is the length of what was written, which
drops by at least one at every bracket and every separator. -/

/-- What a written value starts with. -/
theorem render_head (fmt : Format) (v : Value) : ∃ c t, render fmt v = c :: t ∧ is_ws c = false ∧ c ≠ ']' := by
  cases v with
  | null => exact ⟨'n', _, rfl, by decide, by decide⟩
  | bool b =>
      cases b with
      | true => exact ⟨'t', _, rfl, by decide, by decide⟩
      | false => exact ⟨'f', _, rfl, by decide, by decide⟩
  | int n =>
      obtain ⟨c, t, heq, hc, -⟩ := render_int_shape n
      obtain ⟨hws, -, -, hb, -⟩ := starts_number_ne hc
      exact ⟨c, t, by rw [render, heq], hws, hb⟩
  | float x =>
      obtain ⟨c, t, heq, hc, -⟩ := float_shape x
      obtain ⟨hws, -, -, hb, -⟩ := starts_number_ne hc
      exact ⟨c, t, by rw [render, heq], hws, hb⟩
  | str s => exact ⟨'"', _, by rw [render, render_string], by decide, by decide⟩
  | arr xs => exact ⟨'[', _, by rw [render], by decide, by decide⟩
  | obj fs => exact ⟨'\x7b', _, by rw [render], by decide, by decide⟩

theorem render_length_pos (fmt : Format) (v : Value) : 0 < (render fmt v).length := by
  obtain ⟨c, t, h, -⟩ := render_head fmt v
  rw [h]
  exact Nat.succ_pos _

/-- The readers start by skipping whitespace, so a space before them changes
nothing. -/
theorem read_value_space (fuel : ℕ) (cs : List Char) : read_value fuel (' ' :: cs) = read_value fuel cs := by
  cases fuel with
  | zero => rfl
  | succ fuel => rw [read_value, read_value]; rfl

theorem read_items_space (fuel : ℕ) (cs : List Char) : read_items fuel (' ' :: cs) = read_items fuel cs := by
  cases fuel with
  | zero => rfl
  | succ fuel => simp only [read_items, read_value_space]

theorem read_fields_space (fuel : ℕ) (cs : List Char) : read_fields fuel (' ' :: cs) = read_fields fuel cs := by
  cases fuel with
  | zero => rfl
  | succ fuel => rw [read_fields, read_fields]; rfl

theorem item_sep_length_pos (fmt : Format) : 0 < fmt.item_sep.length := by
  cases fmt <;> decide

/-- Past an item separator the readers are at the next item. -/
theorem read_items_sep (fmt : Format) (fuel : ℕ) (cs : List Char) :
    ∃ ws, fmt.item_sep ++ cs = ',' :: ws ∧ read_items fuel ws = read_items fuel cs ∧
      read_fields fuel ws = read_fields fuel cs := by
  cases fmt with
  | compact => exact ⟨cs, rfl, rfl, rfl⟩
  | spaced => exact ⟨' ' :: cs, rfl, read_items_space fuel cs, read_fields_space fuel cs⟩

/-- Past a key separator the reader is at the value. -/
theorem read_value_sep (fmt : Format) (fuel : ℕ) (cs : List Char) :
    ∃ ws, fmt.key_sep ++ cs = ':' :: ws ∧ read_value fuel ws = read_value fuel cs := by
  cases fmt with
  | compact => exact ⟨cs, rfl, rfl⟩
  | spaced => exact ⟨' ' :: cs, rfl, read_value_space fuel cs⟩

theorem ends_item_sep (fmt : Format) (cs : List Char) : Ends (fmt.item_sep ++ cs) := by
  cases fmt <;> exact ends_cons _ (by decide)

/-- The items of a non-empty array do not start with its closing bracket. -/
theorem render_items_head (fmt : Format) (x : Value) (xs : List Value) (rest : List Char) :
    (skip_ws (render_items fmt (x :: xs) ++ rest)).head? ≠ some ']' := by
  obtain ⟨c, t, heq, hws, hb⟩ := render_head fmt x
  cases xs with
  | nil =>
      rw [render_items, heq, List.cons_append, skip_ws_cons _ hws]
      simpa using hb
  | cons y ys =>
      rw [render_items, heq, List.cons_append, List.cons_append, skip_ws_cons _ hws]
      simpa using hb

theorem render_fields_head (fmt : Format) (f : String × Value) (fs : List (String × Value)) (rest : List Char) :
    ∃ t, render_fields fmt (f :: fs) ++ rest = '"' :: t := by
  obtain ⟨k, v⟩ := f
  cases fs with
  | nil => exact ⟨_, by rw [render_fields, render_string]; rfl⟩
  | cons g gs => exact ⟨_, by rw [render_fields, render_string]; rfl⟩

/-- One key: the literal, the separator, and the reader is at the value. -/
theorem render_string_cons (s : String) (rest : List Char) :
    render_string s ++ rest = '"' :: (escape s.toList ++ '"' :: rest) := by
  simp [render_string]

mutual

/-- **One value** reads back. -/
theorem read_render (fmt : Format) : ∀ (v : Value) (fuel : ℕ) (rest : List Char),
    (render fmt v).length ≤ fuel → Ends rest →
      read_value fuel (render fmt v ++ rest) = some (v, rest)
  | .null, fuel, rest, hf, _ => by
      obtain ⟨fuel, rfl⟩ : ∃ f, fuel = f + 1 := ⟨fuel - 1, by
        have := render_length_pos fmt .null; omega⟩
      rfl
  | .bool true, fuel, rest, hf, _ => by
      obtain ⟨fuel, rfl⟩ : ∃ f, fuel = f + 1 := ⟨fuel - 1, by
        have := render_length_pos fmt (.bool true); omega⟩
      rfl
  | .bool false, fuel, rest, hf, _ => by
      obtain ⟨fuel, rfl⟩ : ∃ f, fuel = f + 1 := ⟨fuel - 1, by
        have := render_length_pos fmt (.bool false); omega⟩
      rfl
  | .int n, fuel, rest, hf, hrest => by
      obtain ⟨fuel, rfl⟩ : ∃ f, fuel = f + 1 := ⟨fuel - 1, by
        have := render_length_pos fmt (.int n); omega⟩
      obtain ⟨c, t, heq, hc, hall⟩ := render_int_shape n
      rw [render, heq]
      exact read_value_number fuel hc hall (heq ▸ read_number_int n) hrest
  | .float x, fuel, rest, hf, hrest => by
      obtain ⟨fuel, rfl⟩ : ∃ f, fuel = f + 1 := ⟨fuel - 1, by
        have := render_length_pos fmt (.float x); omega⟩
      obtain ⟨c, t, heq, hc, hall⟩ := float_shape x
      rw [render, heq]
      exact read_value_number fuel hc hall (heq ▸ read_number_float x) hrest
  | .str s, fuel, rest, hf, _ => by
      obtain ⟨fuel, rfl⟩ : ∃ f, fuel = f + 1 := ⟨fuel - 1, by
        have := render_length_pos fmt (.str s); omega⟩
      have hlen : (escape s.toList).length < fuel := by
        simp only [render, render_string, List.length_cons, List.length_append,
          List.length_nil] at hf
        omega
      rw [render, render_string_cons, read_value, skip_ws_cons _ (by decide)]
      simp only [if_true, read_string_escape s.toList rest fuel hlen, Option.map_some,
        String.ofList_toList]
  | .arr [], fuel, rest, hf, _ => by
      obtain ⟨fuel, rfl⟩ : ∃ f, fuel = f + 1 := ⟨fuel - 1, by
        have := render_length_pos fmt (.arr []); omega⟩
      rfl
  | .arr (x :: xs), fuel, rest, hf, _ => by
      obtain ⟨fuel, rfl⟩ : ∃ f, fuel = f + 1 := ⟨fuel - 1, by
        have := render_length_pos fmt (.arr (x :: xs)); omega⟩
      have hlen : (render_items fmt (x :: xs)).length + 1 ≤ fuel := by
        simp only [render, List.length_cons, List.length_append, List.length_nil] at hf
        omega
      have hhead := render_items_head fmt x xs (']' :: rest)
      have hitems := read_render_items fmt (x :: xs) fuel rest (by simp) hlen
      rw [render, List.cons_append, List.append_assoc, read_value, skip_ws_cons _ (by decide)]
      simp only [List.cons_append, List.nil_append, Char.reduceEq, if_false, if_true, hhead,
        hitems, Option.map_some]
  | .obj [], fuel, rest, hf, _ => by
      obtain ⟨fuel, rfl⟩ : ∃ f, fuel = f + 1 := ⟨fuel - 1, by
        have := render_length_pos fmt (.obj []); omega⟩
      rfl
  | .obj (f :: fs), fuel, rest, hf, _ => by
      obtain ⟨fuel, rfl⟩ : ∃ f, fuel = f + 1 := ⟨fuel - 1, by
        have := render_length_pos fmt (.obj (f :: fs)); omega⟩
      have hlen : (render_fields fmt (f :: fs)).length + 1 ≤ fuel := by
        simp only [render, List.length_cons, List.length_append, List.length_nil] at hf
        omega
      have hhead : (skip_ws (render_fields fmt (f :: fs) ++ '\x7d' :: rest)).head?
          ≠ some '\x7d' := by
        obtain ⟨t, ht⟩ := render_fields_head fmt f fs ('\x7d' :: rest)
        rw [ht, skip_ws_cons _ (by decide)]
        simp
      have hfields := read_render_fields fmt (f :: fs) fuel rest (by simp) hlen
      rw [render, List.cons_append, List.append_assoc, read_value, skip_ws_cons _ (by decide)]
      simp only [List.cons_append, List.nil_append, Char.reduceEq, if_false, if_true, hhead,
        hfields, Option.map_some]

/-- **The items** of a non-empty array read back, up to the closing bracket. -/
theorem read_render_items (fmt : Format) : ∀ (xs : List Value) (fuel : ℕ) (rest : List Char),
    xs ≠ [] → (render_items fmt xs).length + 1 ≤ fuel →
      read_items fuel (render_items fmt xs ++ ']' :: rest) = some (xs, rest)
  | [], _, _, hne, _ => absurd rfl hne
  | [x], fuel, rest, _, hf => by
      obtain ⟨fuel, rfl⟩ : ∃ f, fuel = f + 1 := ⟨fuel - 1, by omega⟩
      rw [render_items] at hf ⊢
      have hx := read_render fmt x fuel (']' :: rest) (by omega) (ends_cons _ (by decide))
      simp only [read_items, hx, Option.bind_eq_bind, Option.bind_some]
      rfl
  | x :: y :: ys, fuel, rest, _, hf => by
      obtain ⟨fuel, rfl⟩ : ∃ f, fuel = f + 1 := ⟨fuel - 1, by omega⟩
      have hsep := item_sep_length_pos fmt
      rw [render_items] at hf ⊢
      simp only [List.length_append] at hf
      have hx := read_render fmt x fuel
        (fmt.item_sep ++ (render_items fmt (y :: ys) ++ ']' :: rest)) (by omega)
        (ends_item_sep fmt _)
      have hys := read_render_items fmt (y :: ys) fuel rest (by simp) (by omega)
      obtain ⟨ws, hws, hread, -⟩ :=
        read_items_sep fmt fuel (render_items fmt (y :: ys) ++ ']' :: rest)
      rw [hws] at hx
      simp only [List.append_assoc, read_items, hx, Option.bind_eq_bind, Option.bind_some, hws,
        skip_ws_cons ws (show is_ws ',' = false by decide), hread, hys]
      rfl

/-- **The fields** of a non-empty object read back, up to the closing brace. -/
theorem read_render_fields (fmt : Format) :
    ∀ (fs : List (String × Value)) (fuel : ℕ) (rest : List Char),
      fs ≠ [] → (render_fields fmt fs).length + 1 ≤ fuel →
        read_fields fuel (render_fields fmt fs ++ '\x7d' :: rest) = some (fs, rest)
  | [], _, _, hne, _ => absurd rfl hne
  | [(k, v)], fuel, rest, _, hf => by
      obtain ⟨fuel, rfl⟩ : ∃ f, fuel = f + 1 := ⟨fuel - 1, by omega⟩
      rw [render_fields] at hf ⊢
      simp only [render_string, List.length_cons, List.length_append, List.length_nil] at hf
      have hv := read_render fmt v fuel ('\x7d' :: rest) (by omega) (ends_cons _ (by decide))
      obtain ⟨ws, hws, hread⟩ := read_value_sep fmt fuel (render fmt v ++ '\x7d' :: rest)
      have hk := read_string_escape k.toList (':' :: ws) fuel (by omega)
      rw [List.append_assoc, List.append_assoc, hws, render_string_cons]
      simp only [read_fields, skip_ws_cons _ (show is_ws '"' = false by decide), hk,
        Option.bind_eq_bind, Option.bind_some,
        skip_ws_cons ws (show is_ws ':' = false by decide), hread, hv,
        String.ofList_toList]
      rfl
  | (k, v) :: g :: gs, fuel, rest, _, hf => by
      obtain ⟨fuel, rfl⟩ : ∃ f, fuel = f + 1 := ⟨fuel - 1, by omega⟩
      have hsep := item_sep_length_pos fmt
      rw [render_fields] at hf ⊢
      simp only [render_string, List.length_cons, List.length_append, List.length_nil] at hf
      have hv := read_render fmt v fuel
        (fmt.item_sep ++ (render_fields fmt (g :: gs) ++ '\x7d' :: rest)) (by omega)
        (ends_item_sep fmt _)
      have hgs := read_render_fields fmt (g :: gs) fuel rest (by simp) (by omega)
      obtain ⟨ws', hws', -, hread'⟩ :=
        read_items_sep fmt fuel (render_fields fmt (g :: gs) ++ '\x7d' :: rest)
      rw [hws'] at hv
      obtain ⟨ws, hws, hread⟩ := read_value_sep fmt fuel (render fmt v ++ ',' :: ws')
      have hk := read_string_escape k.toList (':' :: ws) fuel (by omega)
      simp only [List.append_assoc]
      rw [hws', hws, render_string_cons]
      simp only [read_fields, skip_ws_cons _ (show is_ws '"' = false by decide), hk,
        Option.bind_eq_bind, Option.bind_some,
        skip_ws_cons ws (show is_ws ':' = false by decide), hread, hv,
        skip_ws_cons ws' (show is_ws ',' = false by decide), hread', hgs,
        String.ofList_toList]
      rfl

end

/-! ## What a text is made of -/

/-- No control character. -/
def printable (cs : List Char) : Prop := ∀ c ∈ cs, 0x20 ≤ c.toNat

theorem printable_nil : printable [] := fun _ hc => absurd hc List.not_mem_nil

theorem printable_of_all (h : (cs.all fun c => 0x20 ≤ c.toNat) = true) : printable cs :=
  fun c hc => of_decide_eq_true (List.all_eq_true.mp h c hc)

theorem printable_cons : printable (c :: cs) ↔ 0x20 ≤ c.toNat ∧ printable cs := by
  rw [printable, printable, List.forall_mem_cons]

theorem printable_append {ds : List Char} : printable (cs ++ ds) ↔ printable cs ∧ printable ds := by
  rw [printable, printable, printable, List.forall_mem_append]

theorem hex_digit_printable (h : n < 16) : 0x20 ≤ (hex_digit n).toNat := by
  have hall : ∀ n < 16, 0x20 ≤ (hex_digit n).toNat := by decide
  exact hall n h

theorem escape_unit_printable (n : ℕ) : printable (escape_unit n) := by
  have hmod : ∀ m : ℕ, m % 16 < 16 := fun m => Nat.mod_lt m (by decide)
  unfold escape_unit
  simp only [printable_cons, printable_nil, and_true, hex_digit_printable (hmod _)]
  decide

theorem escape_char_printable (c : Char) : printable (escape_char c) := by
  unfold escape_char
  split_ifs with _ _ _ _ _ _ _ hascii
  -- the two-character escapes
  iterate 7
    · simp only [printable_cons, printable_nil, and_true]
      decide
  · rw [printable_cons]
    exact ⟨hascii.1, printable_nil⟩
  · exact escape_unit_printable _
  · rw [printable_append]
    exact ⟨escape_unit_printable _, escape_unit_printable _⟩

theorem render_string_printable (s : String) : printable (render_string s) := by
  have hescape : printable (escape s.toList) := by
    intro c hc
    obtain ⟨d, -, hd⟩ := List.mem_flatMap.mp hc
    exact escape_char_printable d c hd
  rw [render_string, printable_cons, printable_append, printable_cons]
  exact ⟨by decide, hescape, by decide, printable_nil⟩

theorem number_char_printable (h : cs.all number_char = true) : printable cs := by
  intro c hc
  have hnumber := List.all_eq_true.mp h c hc
  rw [number_char, Bool.or_eq_true, List.contains_iff_mem] at hnumber
  rcases hnumber with hdigit | hmem
  · rw [Char.isDigit, Bool.and_eq_true, decide_eq_true_eq, decide_eq_true_eq] at hdigit
    have hlow : (48 : ℕ) ≤ c.toNat := hdigit.1
    omega
  · have hall : printable [ '+', '-', '.', 'e', 'E', 'N', 'a', 'I', 'n', 'f', 'i', 't', 'y'] :=
      printable_of_all (by decide)
    exact hall c hmem

theorem separators_printable (fmt : Format) : printable fmt.item_sep ∧ printable fmt.key_sep := by
  cases fmt with
  | compact => exact ⟨printable_of_all (by decide), printable_of_all (by decide)⟩
  | spaced => exact ⟨printable_of_all (by decide), printable_of_all (by decide)⟩

mutual

/-- **A written text** has no control character: `ensure_ascii` escapes them. -/
theorem render_printable (fmt : Format) : ∀ v : Value, printable (render fmt v)
  | .null => by
      rw [render]
      exact printable_of_all (by decide)
  | .bool true => by
      rw [render]
      exact printable_of_all (by decide)
  | .bool false => by
      rw [render]
      exact printable_of_all (by decide)
  | .int n => by
      obtain ⟨c, t, heq, -, hall⟩ := render_int_shape n
      rw [render, heq]
      exact number_char_printable hall
  | .float x => by
      obtain ⟨c, t, heq, -, hall⟩ := float_shape x
      rw [render, heq]
      exact number_char_printable hall
  | .str s => render_string_printable s
  | .arr xs => by
      rw [render, printable_cons, printable_append, printable_cons]
      exact ⟨by decide, render_items_printable fmt xs, by decide, printable_nil⟩
  | .obj fs => by
      rw [render, printable_cons, printable_append, printable_cons]
      exact ⟨by decide, render_fields_printable fmt fs, by decide, printable_nil⟩

theorem render_items_printable (fmt : Format) : ∀ xs : List Value, printable (render_items fmt xs)
  | [] => printable_nil
  | [x] => render_printable fmt x
  | x :: y :: xs => by
      rw [render_items, printable_append, printable_append]
      exact ⟨render_printable fmt x, (separators_printable fmt).1,
        render_items_printable fmt (y :: xs)⟩

theorem render_fields_printable (fmt : Format) :
    ∀ fs : List (String × Value), printable (render_fields fmt fs)
  | [] => printable_nil
  | [(k, v)] => by
      rw [render_fields, printable_append, printable_append]
      exact ⟨render_string_printable k, (separators_printable fmt).2, render_printable fmt v⟩
  | (k, v) :: g :: fs => by
      rw [render_fields, printable_append, printable_append, printable_append, printable_append]
      exact ⟨render_string_printable k, (separators_printable fmt).2, render_printable fmt v,
        (separators_printable fmt).1, render_fields_printable fmt (g :: fs)⟩

end

/-! ## Headline results -/

/-- **The round trip.** `json.loads` undoes `json.dumps`, with either
separators. -/
theorem loads_dumps (fmt : Format) (v : Value) : loads (dumps fmt v) = some v := by
  have h := read_render fmt v ((render fmt v).length + 1) [] (by omega) ends_nil
  rw [List.append_nil] at h
  rw [loads, dumps, h]
  rfl

/-- **Injectivity.** A text is the text of one value. -/
theorem dumps_injective (fmt : Format) {v w : Value} (h : dumps fmt v = dumps fmt w) : v = w := by
  have hv := loads_dumps fmt v
  rw [h, loads_dumps fmt w] at hv
  exact (Option.some.inj hv).symm

/-- The canonical text determines the value up to the order of its keys. -/
theorem dumps_sorted_eq_iff {v w : Value} :
    dumps_sorted v = dumps_sorted w ↔ sort_value v = sort_value w :=
  ⟨fun h => dumps_injective .compact h, fun h => by rw [dumps_sorted, h]; rfl⟩

/-- Values can be compared through their texts. -/
instance : DecidableEq Value := fun v w =>
  decidable_of_iff (dumps .compact v = dumps .compact w)
    ⟨dumps_injective .compact, fun h => by rw [h]⟩

example : dumps_sorted (.obj [("b", .int (-3)), ("a", .arr [.str "x\n", .null])])
    = "\x7b\"a\":[\"x\\n\",null],\"b\":-3\x7d".toList := by
  decide

end Fathom.Json
