/-
**A walk with a stack**: what is visited yields something and puts more on the stack, and the
walk goes on with the top until nothing is left or a visit fails.

It ends where every visit puts on the stack less than it takes from it. What it has yielded then
is what the places it could reach have to give, and it is without a fault if and only if none of
these places has one.
-/
import Mathlib.Algebra.Ring.Nat
import Mathlib.Data.List.Basic

set_option autoImplicit false

namespace Fathom.Traversal

/-- What came of a walk: what it yielded, and the fault that ended it. -/
structure Walked (α ε : Type) where
  yielded : List α
  raised : Option ε

section

variable {σ α ε κ : Type} (visit : σ → Except ε (List α × List σ))

/-- The walk, in so many rounds; `none` when it takes more. The top of the stack is its head. -/
def walk : ℕ → List σ → Option (Walked α ε)
  | _, [] => some ⟨[], none⟩
  | 0, _ :: _ => none
  | rounds + 1, s :: stack =>
    match visit s with
    | .error e => some ⟨[], some e⟩
    | .ok (out, more) => (walk rounds (more ++ stack)).map fun w => ⟨out ++ w.yielded, w.raised⟩

/-- The places a walk can get to from one. -/
inductive Reached : σ → σ → Prop where
  | here (s : σ) : Reached s s
  | next {s t u : σ} {out : List α} {more : List σ} (hvisit : visit s = .ok (out, more)) (ht : t ∈ more)
      (hu : Reached t u) : Reached s u

/-- What there is to yield from a place on. -/
def Yields (s : σ) (a : α) : Prop := ∃ t out more, Reached visit s t ∧ visit t = .ok (out, more) ∧ a ∈ out

/-- Some place from here on cannot be visited. -/
def Fails (s : σ) : Prop := ∃ t e, Reached visit s t ∧ visit t = .error e

/-- A place yields nothing twice, and nothing that a place it leads to yields as well. -/
structure Distinct (key : α → κ) (s : σ) : Prop where
  out : ∀ {out more}, visit s = .ok (out, more) → (out.map key).Nodup
  below : ∀ {out more}, visit s = .ok (out, more) →
    ∀ a ∈ out, ∀ t ∈ more, ∀ b, Yields visit t b → key a ≠ key b
  apart : ∀ {out more}, visit s = .ok (out, more) →
    more.Pairwise fun t t' => ∀ a b, Yields visit t a → Yields visit t' b → key a ≠ key b

variable {visit} {s : σ} {a : α} {out : List α} {more stack : List σ} {rounds : ℕ} {w : Walked α ε}

theorem yields_iff (h : visit s = .ok (out, more)) : Yields visit s a ↔ a ∈ out ∨ ∃ t ∈ more, Yields visit t a := by
  constructor
  · rintro ⟨t, out', more', hreached, hvisit, ha⟩
    cases hreached with
    | here =>
        rw [h, Except.ok.injEq, Prod.mk.injEq] at hvisit
        exact .inl (hvisit.1 ▸ ha)
    | next hvisit' hu hreached =>
        rw [h, Except.ok.injEq, Prod.mk.injEq] at hvisit'
        exact .inr ⟨_, hvisit'.2 ▸ hu, t, out', more', hreached, hvisit, ha⟩
  · rintro (ha | ⟨t, ht, u, out', more', hreached, hvisit, ha⟩)
    · exact ⟨s, out, more, .here s, h, ha⟩
    · exact ⟨u, out', more', .next h ht hreached, hvisit, ha⟩

theorem fails_iff (h : visit s = .ok (out, more)) : Fails visit s ↔ ∃ t ∈ more, Fails visit t := by
  constructor
  · rintro ⟨t, e, hreached, hvisit⟩
    cases hreached with
    | here =>
        rw [h] at hvisit
        exact absurd hvisit (by simp)
    | next hvisit' hu hreached =>
        rw [h, Except.ok.injEq, Prod.mk.injEq] at hvisit'
        exact ⟨_, hvisit'.2 ▸ hu, t, e, hreached, hvisit⟩
  · rintro ⟨t, ht, u, e, hreached, hvisit⟩
    exact ⟨u, e, .next h ht hreached, hvisit⟩

/-- What holds of all that a stack leads to holds of all that the next one leads to. -/
theorem reached_next {P : σ → Prop} (hvisit : visit s = .ok (out, more))
    (h : ∀ t ∈ s :: stack, ∀ u, Reached visit t u → P u) : ∀ t ∈ more ++ stack, ∀ u, Reached visit t u → P u := by
  intro t ht u hu
  rcases List.mem_append.mp ht with ht | ht
  · exact h s List.mem_cons_self u (.next hvisit ht hu)
  · exact h t (List.mem_cons_of_mem _ ht) u hu

/-- The walks that come to an end, round by round. -/
inductive Walks (visit : σ → Except ε (List α × List σ)) : List σ → Walked α ε → Prop where
  | done : Walks visit [] ⟨[], none⟩
  | failed {s : σ} {e : ε} (stack : List σ) (hvisit : visit s = .error e) : Walks visit (s :: stack) ⟨[], some e⟩
  | visited {s : σ} {out : List α} {more stack : List σ} {w : Walked α ε} (hvisit : visit s = .ok (out, more))
      (hrest : Walks visit (more ++ stack) w) : Walks visit (s :: stack) ⟨out ++ w.yielded, w.raised⟩

theorem walks_of_walk (h : walk visit rounds stack = some w) : Walks visit stack w := by
  induction rounds generalizing stack w with
  | zero =>
      rcases stack with _ | ⟨s, stack⟩
      · obtain rfl := Option.some.inj h
        exact .done
      · cases h
  | succ n ih =>
      rcases stack with _ | ⟨s, stack⟩
      · obtain rfl := Option.some.inj h
        exact .done
      · rw [walk] at h
        rcases hvisit : visit s with e | ⟨out, more⟩
        · rw [hvisit] at h
          obtain rfl := Option.some.inj h
          exact .failed stack hvisit
        · rw [hvisit] at h
          obtain ⟨w', hw', rfl⟩ := Option.map_eq_some_iff.mp h
          exact .visited hvisit (ih hw')

/-! ## The end of a walk -/

/-- More rounds than it takes change nothing. -/
theorem walk_more {rounds' : ℕ} (hle : rounds ≤ rounds') (h : walk visit rounds stack = some w) :
    walk visit rounds' stack = some w := by
  induction rounds generalizing rounds' stack w with
  | zero =>
      rcases stack with _ | ⟨s, stack⟩
      · rw [walk] at h ⊢
        exact h
      · cases h
  | succ n ih =>
      obtain ⟨n', rfl⟩ : ∃ n', rounds' = n' + 1 := ⟨rounds' - 1, by omega⟩
      rcases stack with _ | ⟨s, stack⟩
      · exact h
      · rw [walk] at h ⊢
        rcases hvisit : visit s with e | ⟨out, more⟩
        · rw [hvisit] at h
          exact h
        · rw [hvisit] at h
          obtain ⟨w', hw', hw⟩ := Option.map_eq_some_iff.mp h
          exact Option.map_eq_some_iff.mpr ⟨w', ih (by omega) hw', hw⟩

/-- **A walk ends** when each of its visits takes more from the stack than it puts on it. -/
theorem walk_total (rank : σ → ℕ) (hrank : ∀ s ∈ stack, ∀ t, Reached visit s t →
      ∀ out more, visit t = .ok (out, more) → (more.map rank).sum < rank t)
    (hpos : ∀ s, 0 < rank s) (hle : (stack.map rank).sum ≤ rounds) : ∃ w, walk visit rounds stack = some w := by
  induction rounds generalizing stack with
  | zero =>
      rcases stack with _ | ⟨s, stack⟩
      · exact ⟨_, rfl⟩
      · -- a place on the stack wants a round
        rw [List.map_cons, List.sum_cons] at hle
        have hs := hpos s
        omega
  | succ rounds ih =>
      rcases stack with _ | ⟨s, stack⟩
      · exact ⟨_, rfl⟩
      · rw [List.map_cons, List.sum_cons] at hle
        rcases hvisit : visit s with e | ⟨out, more⟩
        · exact ⟨_, by rw [walk, hvisit]⟩
        · have hless := hrank s List.mem_cons_self s (.here s) _ _ hvisit
          obtain ⟨w, hw⟩ := ih (reached_next hvisit hrank) (by rw [List.map_append, List.sum_append]; omega)
          exact ⟨_, by rw [walk, hvisit]; dsimp only; rw [hw]; rfl⟩

/-! ## What a walk yields -/

/-- **A walk has a fault** if and only if one of the places it could reach has. -/
theorem raised_iff (h : Walks visit stack w) : w.raised ≠ none ↔ ∃ s ∈ stack, Fails visit s := by
  induction h with
  | done => exact ⟨fun hne => absurd rfl hne, fun ⟨s, hs, _⟩ => absurd hs List.not_mem_nil⟩
  | @failed s e stack hvisit =>
      exact ⟨fun _ => ⟨s, List.mem_cons_self, s, e, .here s, hvisit⟩, fun _ => Option.some_ne_none e⟩
  | @visited s out more stack w hvisit _ ih =>
      rw [ih]
      constructor
      · rintro ⟨t, ht, hfails⟩
        rcases List.mem_append.mp ht with ht | ht
        · exact ⟨s, List.mem_cons_self, (fails_iff hvisit).mpr ⟨t, ht, hfails⟩⟩
        · exact ⟨t, List.mem_cons_of_mem _ ht, hfails⟩
      · rintro ⟨t, ht, hfails⟩
        rcases List.mem_cons.mp ht with rfl | ht
        · obtain ⟨u, hu, hfails⟩ := (fails_iff hvisit).mp hfails
          exact ⟨u, List.mem_append_left _ hu, hfails⟩
        · exact ⟨t, List.mem_append_right _ ht, hfails⟩

/-- **What a walk yields is what there is.** -/
theorem yields_of_mem (h : Walks visit stack w) (ha : a ∈ w.yielded) : ∃ s ∈ stack, Yields visit s a := by
  induction h with
  | done => exact absurd ha List.not_mem_nil
  | failed => exact absurd ha List.not_mem_nil
  | @visited s out more stack w hvisit _ ih =>
      rcases List.mem_append.mp ha with ha | ha
      · exact ⟨s, List.mem_cons_self, (yields_iff hvisit).mpr (.inl ha)⟩
      · obtain ⟨t, ht, hyields⟩ := ih ha
        rcases List.mem_append.mp ht with ht | ht
        · exact ⟨s, List.mem_cons_self, (yields_iff hvisit).mpr (.inr ⟨t, ht, hyields⟩)⟩
        · exact ⟨t, List.mem_cons_of_mem _ ht, hyields⟩

/-- **All there is is yielded** by a walk that does not fail. -/
theorem mem_of_yields (h : Walks visit stack w) (hnone : w.raised = none) (hs : s ∈ stack)
    (hyields : Yields visit s a) : a ∈ w.yielded := by
  induction h generalizing s with
  | done => exact absurd hs List.not_mem_nil
  | failed => exact absurd hnone (Option.some_ne_none _)
  | visited hvisit _ ih =>
      rcases List.mem_cons.mp hs with rfl | hs
      · rcases (yields_iff hvisit).mp hyields with ha | ⟨t, ht, hyields⟩
        · exact List.mem_append_left _ ha
        · exact List.mem_append_right _ (ih hnone (List.mem_append_left _ ht) hyields)
      · exact List.mem_append_right _ (ih hnone (List.mem_append_right _ hs) hyields)

/-- **Nothing is yielded twice** by a walk over distinct places. -/
theorem yielded_nodup {key : α → κ} (h : Walks visit stack w)
    (hdistinct : ∀ s ∈ stack, ∀ t, Reached visit s t → Distinct visit key t)
    (hstack : stack.Pairwise fun t t' => ∀ a b, Yields visit t a → Yields visit t' b → key a ≠ key b) :
    (w.yielded.map key).Nodup := by
  induction h with
  | done => exact List.nodup_nil
  | failed => exact List.nodup_nil
  | @visited s out more stack w hvisit hrest ih =>
      obtain ⟨hhead, htail⟩ := List.pairwise_cons.mp hstack
      have hs := hdistinct s List.mem_cons_self s (.here s)
      have hpair : (more ++ stack).Pairwise fun t t' =>
          ∀ a b, Yields visit t a → Yields visit t' b → key a ≠ key b := by
        refine List.pairwise_append.mpr ⟨hs.apart hvisit, htail, fun t ht t' ht' a b ha hb => ?_⟩
        exact hhead t' ht' a b ((yields_iff hvisit).mpr (.inr ⟨t, ht, ha⟩)) hb
      rw [List.map_append, List.nodup_append]
      refine ⟨hs.out hvisit, ih (reached_next hvisit hdistinct) hpair, fun k hk k' hk' heq => ?_⟩
      obtain ⟨b, hb, rfl⟩ := List.mem_map.mp hk
      obtain ⟨b', hb', rfl⟩ := List.mem_map.mp hk'
      -- what was yielded now is not yielded again, here or below what was on the stack before
      obtain ⟨t, ht, hyields⟩ := yields_of_mem hrest hb'
      rcases List.mem_append.mp ht with ht | ht
      · exact hs.below hvisit b hb t ht b' hyields heq
      · exact hhead t ht b b' ((yields_iff hvisit).mpr (.inl hb)) hyields heq

end

end Fathom.Traversal
