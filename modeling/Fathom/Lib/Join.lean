/-
**Joins of two lists of rows on a key.**

The inner join pairs the rows that have the same key. The left outer join keeps a row
without a match once, beside a null; its rows with a null are the rows of the left side
that no row of the right side matches.

A key that occurs `m` times on the left and `n` times on the right occurs `m * n` times
in the inner join, and among the unmatched rows as often as on its own side. So the
keys of the three queries together (`outer_keys`) are the keys of both sides, each
exactly once if and only if no side has a key twice.
-/
import Mathlib.Data.List.Dedup
import Mathlib.Data.List.Perm.Basic
import Mathlib.Tactic.Ring

set_option autoImplicit false

namespace Fathom.Join

universe u v w

variable {α : Type u} {β : Type v} {κ : Type w} [DecidableEq κ]
variable (key : α → κ) (key' : β → κ) (left : List α) (right : List β)

/-- The rows of the right side that match a row. -/
def matching (a : α) : List β :=
  right.filter fun b => key a = key' b

/-- `left JOIN right ON left.key = right.key`. -/
def inner_join : List (α × β) :=
  left.flatMap fun a => (matching key key' right a).map fun b => (a, b)

/-- `left LEFT OUTER JOIN right ON left.key = right.key`. -/
def outer_join : List (α × Option β) :=
  left.flatMap fun a =>
    match matching key key' right a with
    | [] => [(a, none)]
    | b :: rest => (b :: rest).map fun b => (a, some b)

/-- `… WHERE right.key IS NULL`. -/
def unmatched : List α :=
  ((outer_join key key' left right).filter fun row => row.2.isNone).map fun row => row.1

/-- The keys of the inner join and of the unmatched rows of either side. -/
def outer_keys : List κ :=
  (inner_join key key' left right).map (fun row => key row.1)
    ++ (unmatched key key' left right).map key ++ (unmatched key' key right left).map key'

variable {key key' left right}

theorem mem_inner_join {row : α × β} :
    row ∈ inner_join key key' left right ↔ row.1 ∈ left ∧ row.2 ∈ right ∧ key row.1 = key' row.2 := by
  obtain ⟨a, b⟩ := row
  unfold inner_join matching
  simp only [List.mem_flatMap, List.mem_map, List.mem_filter, decide_eq_true_eq, Prod.mk.injEq]
  constructor
  · rintro ⟨x, hx, y, ⟨hy, hkey⟩, rfl, rfl⟩
    exact ⟨hx, hy, hkey⟩
  · rintro ⟨ha, hb, hkey⟩
    exact ⟨a, ha, b, ⟨hb, hkey⟩, rfl, rfl⟩

theorem inner_join_cons (a : α) : inner_join key key' (a :: left) right
    = (matching key key' right a).map (fun b => (a, b)) ++ inner_join key key' left right :=
  List.flatMap_cons

/-- The unmatched rows, as a filter of their side. -/
theorem unmatched_eq : unmatched key key' left right
    = left.filter fun a => (matching key key' right a).isEmpty := by
  unfold unmatched outer_join
  induction left with
  | nil => rfl
  | cons a left ih =>
      rw [List.flatMap_cons, List.filter_append, List.map_append, ih, List.filter_cons]
      cases hmatch : matching key key' right a with
      | nil => rfl
      | cons b rest =>
          -- a matched row has no null beside it
          have hnone : (((b :: rest).map fun b => (a, some b)).filter fun row => row.2.isNone) = [] := by
            rw [List.filter_eq_nil_iff]
            intro row hrow
            obtain ⟨c, _, hc⟩ := List.mem_map.mp hrow
            rw [← hc]
            simp
          dsimp only
          rw [hnone]
          rfl

theorem mem_unmatched {a : α} : a ∈ unmatched key key' left right ↔ a ∈ left ∧ ∀ b ∈ right, key a ≠ key' b := by
  rw [unmatched_eq, List.mem_filter, List.isEmpty_iff, matching, List.filter_eq_nil_iff]
  simp only [decide_eq_true_eq]

/-! ## How often a key occurs -/

theorem length_matching (a : α) : (matching key key' right a).length = (right.map key').count (key a) := by
  unfold matching
  rw [List.count, List.countP_map, List.countP_eq_length_filter]
  congr 1
  refine List.filter_congr fun b _ => ?_
  rw [Function.comp_apply, Bool.eq_iff_iff, decide_eq_true_eq, beq_iff_eq]
  exact eq_comm

/-- In the inner join a key occurs once for each pair of rows that have it. -/
theorem count_inner_join (k : κ) :
    ((inner_join key key' left right).map fun row => key row.1).count k
      = (left.map key).count k * (right.map key').count k := by
  induction left with
  | nil =>
      rw [List.map_nil, List.count_nil, Nat.zero_mul]
      rfl
  | cons a left ih =>
      have hpairs : ((matching key key' right a).map fun b => (a, b)).map (fun row => key row.1)
          = List.replicate ((right.map key').count (key a)) (key a) := by
        rw [List.map_map, ← length_matching]
        change (matching key key' right a).map (fun _ => key a) = _
        exact List.map_const'
      rw [inner_join_cons, List.map_append, List.count_append, ih, hpairs, List.count_replicate,
        List.map_cons, List.count_cons]
      by_cases hk : key a = k
      · rw [if_pos (beq_iff_eq.mpr hk), if_pos (beq_iff_eq.mpr hk), hk]
        ring
      · rw [if_neg (by simpa using hk), if_neg (by simpa using hk)]
        ring

/-- Among the unmatched rows a key occurs as often as on its side, or not at all. -/
theorem count_unmatched (k : κ) : ((unmatched key key' left right).map key).count k
      = if (right.map key').count k = 0 then (left.map key).count k else 0 := by
  rw [unmatched_eq]
  induction left with
  | nil =>
      rw [List.filter_nil, List.map_nil, List.count_nil]
      split <;> rfl
  | cons a left ih =>
      have hempty : (matching key key' right a).isEmpty = true ↔ (right.map key').count (key a) = 0 := by
        rw [List.isEmpty_iff, ← List.length_eq_zero_iff, length_matching]
      by_cases hk : key a = k
      · rw [hk] at hempty
        by_cases hnone : (right.map key').count k = 0
        · rw [List.filter_cons, if_pos (hempty.mpr hnone), List.map_cons, List.map_cons, hk,
            List.count_cons_self, List.count_cons_self, ih, if_pos hnone, if_pos hnone]
        · rw [List.filter_cons, if_neg (fun h => hnone (hempty.mp h)), ih, if_neg hnone, if_neg hnone]
      · rw [List.map_cons, List.count_cons_of_ne hk, ← ih, List.filter_cons]
        split
        · rw [List.map_cons, List.count_cons_of_ne hk]
        · rfl

theorem count_outer_keys (k : κ) : (outer_keys key key' left right).count k
      = (left.map key).count k * (right.map key').count k
        + (if (right.map key').count k = 0 then (left.map key).count k else 0)
        + (if (left.map key).count k = 0 then (right.map key').count k else 0) := by
  rw [outer_keys, List.count_append, List.count_append, count_inner_join, count_unmatched, count_unmatched]

/-- The number of times a key occurs in the three queries, from the times on each side:
positive where one of them is, and at most one where both are. -/
theorem occurrences_pos {m n : ℕ} :
    0 < m * n + (if n = 0 then m else 0) + (if m = 0 then n else 0) ↔ 0 < m ∨ 0 < n := by
  by_cases hm : m = 0
  · rw [if_pos hm, hm, Nat.zero_mul, ite_self]
    omega
  · by_cases hn : n = 0
    · rw [if_pos hn, if_neg hm, hn]
      omega
    · rw [if_neg hn, if_neg hm]
      have hpos := Nat.mul_pos (Nat.pos_of_ne_zero hm) (Nat.pos_of_ne_zero hn)
      omega

theorem occurrences_le_one {m n : ℕ} :
    m * n + (if n = 0 then m else 0) + (if m = 0 then n else 0) ≤ 1 ↔ m ≤ 1 ∧ n ≤ 1 := by
  by_cases hm : m = 0
  · rw [if_pos hm, hm, Nat.zero_mul, ite_self]
    omega
  · by_cases hn : n = 0
    · rw [if_pos hn, if_neg hm, hn]
      omega
    · rw [if_neg hn, if_neg hm]
      -- a product of two positive numbers is at least either of them
      have hleft := Nat.le_mul_of_pos_right m (Nat.pos_of_ne_zero hn)
      have hright := Nat.le_mul_of_pos_left n (Nat.pos_of_ne_zero hm)
      constructor
      · omega
      · rintro ⟨hm', hn'⟩
        have hone : m * n ≤ 1 * 1 := Nat.mul_le_mul hm' hn'
        omega

/-- The keys of the three queries are the keys of both sides. -/
theorem mem_outer_keys {k : κ} : k ∈ outer_keys key key' left right ↔ k ∈ left.map key ∨ k ∈ right.map key' := by
  rw [← List.count_pos_iff, ← List.count_pos_iff, ← List.count_pos_iff, count_outer_keys,
    occurrences_pos]

/-- **No key twice**, in the three queries as on either side. -/
theorem nodup_outer_keys : (outer_keys key key' left right).Nodup ↔ (left.map key).Nodup ∧ (right.map key').Nodup := by
  rw [List.nodup_iff_count_le_one, List.nodup_iff_count_le_one, List.nodup_iff_count_le_one]
  constructor
  · intro h
    constructor
    · intro k
      have hk := h k
      rw [count_outer_keys, occurrences_le_one] at hk
      exact hk.1
    · intro k
      have hk := h k
      rw [count_outer_keys, occurrences_le_one] at hk
      exact hk.2
  · intro h k
    rw [count_outer_keys, occurrences_le_one]
    exact ⟨h.1 k, h.2 k⟩

/-- **What the three queries count** is the number of distinct keys just when no side has
a key twice. -/
theorem length_outer_keys_iff :
    (outer_keys key key' left right).length = (left.map key ++ right.map key').dedup.length ↔
      (left.map key).Nodup ∧ (right.map key').Nodup := by
  have hdedup : (outer_keys key key' left right).dedup.length
      = (left.map key ++ right.map key').dedup.length := by
    apply List.Perm.length_eq
    rw [List.perm_ext_iff_of_nodup (List.nodup_dedup _) (List.nodup_dedup _)]
    intro k
    rw [List.mem_dedup, List.mem_dedup, List.mem_append, mem_outer_keys]
  rw [← hdedup, ← nodup_outer_keys]
  constructor
  · intro h
    rw [← List.dedup_eq_self]
    exact (List.dedup_sublist _).eq_of_length h.symm
  · intro h
    rw [List.dedup_eq_self.mpr h]

/-- Where no side has a key twice the three queries give each distinct key once. -/
theorem outer_keys_perm (hleft : (left.map key).Nodup) (hright : (right.map key').Nodup) :
    (outer_keys key key' left right).Perm (left.map key ++ right.map key').dedup := by
  rw [List.perm_ext_iff_of_nodup (nodup_outer_keys.mpr ⟨hleft, hright⟩) (List.nodup_dedup _)]
  intro k
  rw [List.mem_dedup, List.mem_append, mem_outer_keys]

/-! ## The other way round -/

/-- The pairs of one row, found from the right side. -/
theorem pairs_of_row (a : α) :
    (right.flatMap fun b => if key a = key' b then [(b, a)] else []).map Prod.swap
      = (matching key key' right a).map fun b => (a, b) := by
  unfold matching
  induction right with
  | nil => rfl
  | cons b right ih =>
      rw [List.flatMap_cons, List.map_append, ih, List.filter_cons]
      by_cases hk : key a = key' b
      · rw [if_pos hk, if_pos (decide_eq_true hk)]
        rfl
      · rw [if_neg hk, if_neg (by simpa using hk)]
        rfl

/-- The inner join of the sides exchanged has the same pairs, each as often. -/
theorem inner_join_swap : ((inner_join key' key right left).map Prod.swap).Perm (inner_join key key' left right) := by
  induction left with
  | nil =>
      have hnone : inner_join key' key right [] = [] := List.flatMap_eq_nil_iff.mpr fun b _ => rfl
      rw [hnone]
      rfl
  | cons a left ih =>
      -- each row of the right side is paired with `a` first, where it matches
      have hcons : inner_join key' key right (a :: left)
          = right.flatMap fun b => (if key a = key' b then [(b, a)] else [])
              ++ (matching key' key left b).map fun a' => (b, a') := by
        unfold inner_join matching
        refine congrArg (right.flatMap ·) (funext fun b => ?_)
        rw [List.filter_cons]
        by_cases hk : key a = key' b
        · rw [if_pos (decide_eq_true hk.symm), if_pos hk]
          rfl
        · rw [if_neg (by simpa using Ne.symm hk), if_neg hk]
          rfl
      rw [hcons, inner_join_cons, ← pairs_of_row]
      refine ((List.flatMap_append_perm right _ _).symm.map Prod.swap).trans ?_
      rw [List.map_append]
      exact ih.append_left _

end Fathom.Join
