/-
**Keyset pagination**: a list in the order of a key, read in pages of at most some
number of rows, each from behind the last key of the page before.

A page fetches one row more than it shows, to tell whether there is another page
(`page`). A reader follows the cursors until there is none (`follow`). What the
reader has seen then is the list, row by row (`follow_page`): the rows behind a
cursor are what is left of the list behind the page it came from (`filter_behind`).
-/
import Mathlib.Data.List.Pairwise
import Mathlib.Order.Defs.Unbundled

set_option autoImplicit false

namespace Fathom.Keyset

universe u v

variable {ρ : Type u} {κ : Type v} (lt : κ → κ → Prop) [DecidableRel lt] (key : ρ → κ)

/-- Whether a row is behind a cursor; every row is behind none. -/
def behind (cursor : Option κ) (r : ρ) : Bool := cursor.all fun c => lt c (key r)

/-- One page of a list in key order, and the cursor of the next page. -/
def page (l : List ρ) (limit : ℕ) (cursor : Option κ) : List ρ × Option κ :=
  let rows := (l.filter (behind lt key cursor)).take (limit + 1)
  let shown := rows.take limit
  (shown, if limit < rows.length then shown.getLast?.map key else none)

/-- The pages a reader sees who asks for one after the other until there is no
further cursor; `none` if that takes more than `n` requests. -/
def follow (next : Option κ → List ρ × Option κ) : ℕ → Option κ → Option (List (List ρ))
  | 0, _ => none
  | n + 1, cursor =>
      match next cursor with
      | (shown, none) => some [shown]
      | (shown, some c) => (follow next n (some c)).map (shown :: ·)

variable {lt key}

/-- What is behind the last row of a first part is the rest. -/
theorem filter_behind [IsTrans κ lt] [Std.Irrefl lt] {front back : List ρ} {x : ρ}
    (h : (front ++ x :: back).Pairwise fun a b => lt (key a) (key b)) :
    (front ++ x :: back).filter (behind lt key (some (key x))) = back := by
  obtain ⟨-, hback, hfront⟩ := List.pairwise_append.mp h
  have hnone : front.filter (behind lt key (some (key x))) = [] := by
    refine List.filter_eq_nil_iff.mpr fun a ha hbehind => ?_
    have hax := hfront a ha x List.mem_cons_self
    have hxa : lt (key x) (key a) := by simpa [behind] using hbehind
    exact Std.Irrefl.irrefl _ (IsTrans.trans _ _ _ hax hxa)
  have hself : ¬ behind lt key (some (key x)) x = true := by
    simpa [behind] using Std.Irrefl.irrefl (r := lt) (key x)
  have hall : back.filter (behind lt key (some (key x))) = back := by
    refine List.filter_eq_self.mpr fun b hb => ?_
    simpa [behind] using (List.pairwise_cons.mp hback).1 b hb
  rw [List.filter_append, hnone, List.nil_append, List.filter_cons_of_neg hself, hall]

/-- Behind a row that is itself behind a cursor there is only what is behind the
cursor. -/
theorem filter_behind_of_behind [IsTrans κ lt] {l : List ρ} {cursor : Option κ} {x : ρ}
    (h : behind lt key cursor x = true) : l.filter (behind lt key (some (key x))) =
      (l.filter (behind lt key cursor)).filter (behind lt key (some (key x))) := by
  rw [List.filter_filter]
  refine List.filter_congr fun r _ => ?_
  cases hr : behind lt key (some (key x)) r with
  | false => rfl
  | true =>
      have hxr : lt (key x) (key r) := by simpa [behind] using hr
      cases cursor with
      | none => rfl
      | some c =>
          have hcx : lt c (key x) := by simpa [behind] using h
          simpa [behind] using IsTrans.trans _ _ _ hcx hxr

theorem follow_behind [IsTrans κ lt] [Std.Irrefl lt] {l : List ρ} {limit : ℕ} (hlimit : 1 ≤ limit)
    (hl : l.Pairwise fun a b => lt (key a) (key b)) (n : ℕ) (cursor : Option κ)
    (hn : (l.filter (behind lt key cursor)).length < n) :
    ∃ pages, follow (page lt key l limit) n cursor = some pages ∧
      pages.flatten = l.filter (behind lt key cursor) := by
  induction n generalizing cursor with
  | zero => exact absurd hn (Nat.not_lt_zero _)
  | succ n ih =>
      obtain ⟨rest, hrest⟩ : ∃ rest, l.filter (behind lt key cursor) = rest := ⟨_, rfl⟩
      rw [hrest] at hn ⊢
      have hshown : (rest.take (limit + 1)).take limit = rest.take limit := by
        rw [List.take_take, Nat.min_eq_left (Nat.le_succ limit)]
      by_cases hmore : limit < rest.length
      · -- the page is full: its last row is the cursor, and `rest.drop limit` is left
        have hfetched : limit < (rest.take (limit + 1)).length := by
          rw [List.length_take]
          omega
        have hne : rest.take limit ≠ [] := by
          rw [Ne, ← List.length_eq_zero_iff, List.length_take]
          omega
        obtain ⟨x, hx⟩ : ∃ x, (rest.take limit).getLast hne = x := ⟨_, rfl⟩
        have hsplit : (rest.take limit).dropLast ++ x :: rest.drop limit = rest := by
          rw [List.append_cons, ← hx, List.dropLast_concat_getLast hne, List.take_append_drop]
        have hmem : x ∈ rest := hx ▸ List.mem_of_mem_take (List.getLast_mem hne)
        have hbehind : behind lt key cursor x = true := (List.mem_filter.mp (hrest.symm ▸ hmem)).2
        have hsorted : ((rest.take limit).dropLast ++ x :: rest.drop limit).Pairwise
            fun a b => lt (key a) (key b) := by
          rw [hsplit, ← hrest]
          exact hl.filter _
        have hleft : l.filter (behind lt key (some (key x))) = rest.drop limit := by
          have hback := filter_behind hsorted
          rw [hsplit] at hback
          rw [filter_behind_of_behind hbehind, hrest, hback]
        have hpage : page lt key l limit cursor = (rest.take limit, some (key x)) := by
          simp only [page, hrest, hshown, if_pos hfetched, List.getLast?_eq_some_getLast hne, hx, Option.map_some]
        obtain ⟨pages, hpages, hflat⟩ := ih (some (key x)) (by rw [hleft, List.length_drop]; omega)
        refine ⟨rest.take limit :: pages, ?_, ?_⟩
        · simp only [follow, hpage, hpages, Option.map_some]
        · rw [List.flatten_cons, hflat, hleft, List.take_append_drop]
      · -- the page shows all that is left, and there is no further one
        have hfetched : ¬ limit < (rest.take (limit + 1)).length := by
          rw [List.length_take]
          omega
        have hall : rest.take limit = rest := List.take_of_length_le (by omega)
        have hpage : page lt key l limit cursor = (rest, none) := by
          simp only [page, hrest, hshown, hall, if_neg hfetched]
        refine ⟨[rest], ?_, List.flatten_singleton⟩
        simp only [follow, hpage]

variable (lt) in
/-- **Following the cursors visits the list**, each row once and in its order, and
ends within as many requests as there are rows and one more. -/
theorem follow_page [IsTrans κ lt] [Std.Irrefl lt] {l : List ρ} {limit : ℕ} (hlimit : 1 ≤ limit)
    (hl : l.Pairwise fun a b => lt (key a) (key b)) :
    ∃ pages, follow (page lt key l limit) (l.length + 1) none = some pages ∧ pages.flatten = l := by
  have hall : l.filter (behind lt key none) = l := List.filter_eq_self.mpr fun _ _ => rfl
  have hfollow := follow_behind hlimit hl (l.length + 1) none (by rw [hall]; exact Nat.lt_succ_self _)
  rwa [hall] at hfollow

end Fathom.Keyset
