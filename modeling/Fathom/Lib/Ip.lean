/-
**Internet addresses and networks**, as `ipaddress` reads them.

An address is the number its text stands for, with the family it belongs to; a network
is an address and a prefix length. A text is read the way `ipaddress.ip_address` and
`ipaddress.ip_network(…, strict=False)` read it: four octets without leading zeros, or
eight groups of at most four digits with one run of zero groups left out; a mask as a
length or, for four octets, as a net mask or a host mask.

`Network.contains_iff` is what membership means: an address is in a network exactly when
it lies between the first and the last address of it.
-/
import Mathlib.Data.List.Basic
import Mathlib.Data.Nat.Notation
import Mathlib.Tactic.Ring

set_option autoImplicit false

namespace Fathom.Ip

/-- The two families. -/
inductive Family where
  | v4
  | v6
  deriving DecidableEq, Repr

/-- The length of an address of a family. -/
def Family.bits : Family → ℕ
  | .v4 => 32
  | .v6 => 128

/-- An address. -/
structure Address where
  family : Family
  value : ℕ
  deriving DecidableEq, Repr

/-- A network, by any address of it. -/
structure Network where
  family : Family
  base : ℕ
  prefixlen : ℕ
  bounded : prefixlen ≤ family.bits

/-! ## Reading -/

/-- Digits, and at least one. -/
def is_digits (text : List Char) : Bool := text ≠ [] && text.all fun c => '0' ≤ c && c ≤ '9'

/-- The number some digits stand for. -/
def digits_value (text : List Char) : ℕ := text.foldl (fun n c => n * 10 + (c.toNat - '0'.toNat)) 0

/-- `_parse_octet`. -/
def parse_octet (text : List Char) : Option ℕ :=
  if ¬is_digits text then none
  else if 3 < text.length then none
  else if text ≠ ['0'] ∧ text.head? = some '0' then none
  else if 255 < digits_value text then none
  else some (digits_value text)

/-- `IPv4Address._ip_int_from_string`. -/
def parse_v4 (text : List Char) : Option ℕ :=
  match text.splitOn '.' with
  | [a, b, c, d] => do
    let a ← parse_octet a
    let b ← parse_octet b
    let c ← parse_octet c
    let d ← parse_octet d
    return ((a * 256 + b) * 256 + c) * 256 + d
  | _ => none

/-- The value of a hexadecimal digit. -/
def hex_value (c : Char) : Option ℕ :=
  if '0' ≤ c ∧ c ≤ '9' then some (c.toNat - '0'.toNat)
  else if 'a' ≤ c ∧ c ≤ 'f' then some (c.toNat - 'a'.toNat + 10)
  else if 'A' ≤ c ∧ c ≤ 'F' then some (c.toNat - 'A'.toNat + 10)
  else none

/-- `_parse_hextet`. -/
def parse_hextet (text : List Char) : Option ℕ :=
  if text = [] ∨ 4 < text.length then none
  else text.foldlM (fun n c => (hex_value c).map fun d => n * 16 + d) 0

/-- The groups one after the other. -/
def join_hextets (groups : List ℕ) : ℕ := groups.foldl (fun n g => n * 65536 + g) 0

/-- The groups of an address, a trailing `IPv4` address as two of them. -/
def v6_parts (text : List Char) : Option (List (List Char) × List ℕ) :=
  let parts := text.splitOn ':'
  if parts.length < 3 then none
  else
    match parts.getLast? with
    | some last =>
      if last.contains '.' then
        (parse_v4 last).map fun n => (parts.dropLast, [n / 65536, n % 65536])
      else some (parts, [])
    | none => none

/-- `IPv6Address._ip_int_from_string`: the groups before the run of zeros that is left
out and those after it, or all eight. `tail` is what a trailing `IPv4` address came to. -/
def parse_v6 (text : List Char) : Option ℕ := do
  let (parts, tail) ← v6_parts text
  let total := parts.length + tail.length
  if 9 < total then none
  -- the places, the first and the last apart, where a group is empty
  let empty := (List.range total).filter fun i => 0 < i ∧ i + 1 < total ∧ parts[i]? = some []
  match empty with
  | [] =>
    if total ≠ 8 then none
    let groups ← parts.mapM parse_hextet
    return join_hextets (groups ++ tail)
  | [skip] =>
    let high := parts.take skip
    let low := parts.drop (skip + 1)
    if high.head? = some [] ∧ high.length ≠ 1 then none
    if tail = [] ∧ low.getLast? = some [] ∧ low.length ≠ 1 then none
    let high := if high = [[]] then [] else high
    let low := if tail = [] ∧ low = [[]] then [] else low
    if 8 ≤ high.length + low.length + tail.length then none
    let high ← high.mapM parse_hextet
    let low ← low.mapM parse_hextet
    let skipped := 8 - (high.length + low.length + tail.length)
    return join_hextets (high ++ List.replicate skipped 0 ++ low ++ tail)
  | _ => none

/-- `_split_scope_id`. -/
def without_scope (text : List Char) : Option (List Char) :=
  match text.splitOn '%' with
  | [address] => some address
  | [address, scope] => if scope = [] then none else some address
  | _ => none

/-- `ipaddress.ip_address`. -/
def ip_address (text : String) : Option Address :=
  let text := text.toList
  if text.contains '/' then none
  else
    match parse_v4 text with
    | some n => some ⟨.v4, n⟩
    | none => ((without_scope text).bind parse_v6).map fun n => ⟨.v6, n⟩

/-- `_prefix_from_prefix_string`. -/
def prefix_from_prefix_string (bits : ℕ) (text : List Char) : Option ℕ :=
  if is_digits text ∧ digits_value text ≤ bits then some (digits_value text) else none

/-- `_prefix_from_ip_int`, of a mask of 32 bits: its ones come first. -/
def prefix_from_ip_int (mask : ℕ) : Option ℕ :=
  (List.range 33).find? fun n => mask = 2 ^ 32 - 2 ^ (32 - n)

/-- `_prefix_from_ip_string`: a net mask, or else a host mask. -/
def prefix_from_ip_string (text : List Char) : Option ℕ :=
  (parse_v4 text).bind fun mask =>
    match prefix_from_ip_int mask with
    | some n => some n
    | none => prefix_from_ip_int (2 ^ 32 - 1 - mask)

/-- A network of these bounds, if it is one. -/
def make_network (family : Family) (base prefixlen : ℕ) : Option Network :=
  if h : prefixlen ≤ family.bits then some ⟨family, base, prefixlen, h⟩ else none

/-- `ipaddress.ip_network(text, strict=False)`. -/
def ip_network (text : String) : Option Network :=
  match text.toList.splitOn '/' with
  | [address] =>
    match parse_v4 address with
    | some n => make_network .v4 n 32
    | none => ((without_scope address).bind parse_v6).bind fun n => make_network .v6 n 128
  | [address, mask] =>
    match parse_v4 address with
    | some n => ((prefix_from_prefix_string 32 mask).or (prefix_from_ip_string mask)).bind (make_network .v4 n)
    | none => do
      let n ← (without_scope address).bind parse_v6
      let prefixlen ← prefix_from_prefix_string 128 mask
      make_network .v6 n prefixlen
  | _ => none

/-! ## Membership -/

namespace Network

/-- How many addresses share a prefix of the network's length. -/
def size (net : Network) : ℕ := 2 ^ (net.family.bits - net.prefixlen)

/-- `address & netmask`. -/
def masked (net : Network) (value : ℕ) : ℕ := value / net.size * net.size

/-- `network_address`. -/
def network_address (net : Network) : ℕ := net.masked net.base

/-- `broadcast_address`. -/
def broadcast_address (net : Network) : ℕ := net.network_address + (net.size - 1)

/-- `address in network`. -/
def contains (net : Network) (address : Address) : Bool :=
  address.family = net.family ∧ net.masked address.value = net.network_address

theorem size_pos (net : Network) : 0 < net.size := Nat.two_pow_pos _

/-- A network holds the addresses from its first to its last. -/
theorem contains_iff (net : Network) (address : Address) :
    net.contains address = true ↔
      address.family = net.family ∧ net.network_address ≤ address.value ∧
        address.value ≤ net.broadcast_address := by
  have hpos := net.size_pos
  unfold contains broadcast_address network_address masked
  rw [decide_eq_true_eq]
  constructor
  · rintro ⟨hfamily, hsame⟩
    have hdiv := Nat.div_add_mod' address.value net.size
    have hmod := Nat.mod_lt address.value hpos
    rw [← hsame]
    exact ⟨hfamily, by omega, by omega⟩
  · rintro ⟨hfamily, hfirst, hlast⟩
    refine ⟨hfamily, ?_⟩
    -- between the bounds the quotient by the size is the network's
    have hquotient : address.value / net.size = net.base / net.size := by
      rw [Nat.div_eq_iff hpos]
      constructor
      · exact hfirst
      · omega
    rw [hquotient]

end Network

end Fathom.Ip
