/-
**Systems that run**: a state, labelled steps, and what holds along every run.

A step is a partial function of the state and the label, so everything that is
not determined -- who moves next, what a clock reads, whether a call fails -- is
in the label. A run is then a list of labels, and a concrete run can be
evaluated.

Two rules carry the proofs of this development:

* `Trace.induct` -- what holds initially and is kept by a step holds after every
  run. The predicate reads the labels as well as the state, so a statement about
  the history needs no history variable.
* `Refines.trace` -- a step-by-step simulation maps runs to runs of the abstract
  system.
-/
import Mathlib.Data.List.Induction

set_option autoImplicit false

namespace Fathom

universe u v w x

/-- A labelled system: its initial states, and the state a step leads to, when
the step is possible. -/
structure System (σ : Type u) (α : Type v) where
  init : σ → Prop
  step : σ → α → Option σ

namespace System

variable {σ : Type u} {α : Type v} {τ : Type w} {β : Type x}

/-- The state a list of steps leads to. -/
def run (S : System σ α) : σ → List α → Option σ
  | s, [] => some s
  | s, a :: tr => (S.step s a).bind fun t => S.run t tr

/-- A run from some initial state: its labels and the state it ends in. -/
def Trace (S : System σ α) (tr : List α) (s : σ) : Prop :=
  ∃ s₀, S.init s₀ ∧ S.run s₀ tr = some s

variable {S : System σ α}

theorem run_nil (s : σ) : S.run s [] = some s := rfl

theorem run_cons (s : σ) (a : α) (tr : List α) :
    S.run s (a :: tr) = (S.step s a).bind fun t => S.run t tr := rfl

theorem run_append (s : σ) (tr tr' : List α) :
    S.run s (tr ++ tr') = (S.run s tr).bind fun t => S.run t tr' := by
  induction tr generalizing s with
  | nil => rfl
  | cons a tr ih =>
      rw [List.cons_append, run_cons, run_cons]
      rcases S.step s a with _ | t
      · rfl
      · rw [Option.bind_some, Option.bind_some, ih]

theorem run_singleton (s : σ) (a : α) : S.run s [a] = S.step s a := by
  rw [run_cons]
  rcases S.step s a with _ | t <;> rfl

/-- A run of one more step. -/
theorem run_snoc {s t : σ} {a : α} {tr : List α} :
    S.run s (tr ++ [a]) = some t ↔ ∃ u, S.run s tr = some u ∧ S.step u a = some t := by
  rw [run_append]
  simp only [run_singleton, Option.bind_eq_some_iff]

theorem Trace.nil {s : σ} (h : S.init s) : S.Trace [] s := ⟨s, h, rfl⟩

theorem Trace.snoc {tr : List α} {s t : σ} {a : α} (h : S.Trace tr s) (hstep : S.step s a = some t) :
    S.Trace (tr ++ [a]) t := by
  rcases h with ⟨s₀, hinit, hrun⟩
  exact ⟨s₀, hinit, run_snoc.mpr ⟨s, hrun, hstep⟩⟩

/-- A run splits at any point of its labels. -/
theorem Trace.split {tr tr' : List α} {t : σ} (h : S.Trace (tr ++ tr') t) :
    ∃ s, S.Trace tr s ∧ S.run s tr' = some t := by
  rcases h with ⟨s₀, hinit, hrun⟩
  rw [run_append, Option.bind_eq_some_iff] at hrun
  rcases hrun with ⟨s, hs, ht⟩
  exact ⟨s, ⟨s₀, hinit, hs⟩, ht⟩

/-- **The invariant rule**, with the labels so far. -/
theorem Trace.induct {P : List α → σ → Prop} (hinit : ∀ s, S.init s → P [] s)
    (hstep : ∀ tr s a t, S.Trace tr s → P tr s → S.step s a = some t → P (tr ++ [a]) t)
    {tr : List α} {s : σ} (h : S.Trace tr s) : P tr s := by
  rcases h with ⟨s₀, h₀, hrun⟩
  induction tr using List.reverseRecOn generalizing s with
  | nil =>
      rw [run_nil, Option.some.injEq] at hrun
      rw [← hrun]
      exact hinit s₀ h₀
  | append_singleton tr a ih =>
      rcases run_snoc.mp hrun with ⟨u, hu, ht⟩
      exact hstep tr u a s ⟨s₀, h₀, hu⟩ (ih hu) ht

/-- The invariant rule for a predicate of the state alone. -/
theorem Trace.invariant {I : σ → Prop} (hinit : ∀ s, S.init s → I s)
    (hstep : ∀ s a t, I s → S.step s a = some t → I t)
    {tr : List α} {s : σ} (h : S.Trace tr s) : I s :=
  h.induct (P := fun _ s => I s) hinit fun _ s a t _ hs ht => hstep s a t hs ht

/-- What is kept by every step is kept by a run. -/
theorem run_keeps {I : σ → Prop} (hstep : ∀ s a t, I s → S.step s a = some t → I t)
    {s t : σ} {tr : List α} (hs : I s) (h : S.run s tr = some t) : I t := by
  induction tr generalizing s with
  | nil =>
      rw [run_nil, Option.some.injEq] at h
      rw [← h]
      exact hs
  | cons a tr ih =>
      rw [run_cons, Option.bind_eq_some_iff] at h
      rcases h with ⟨u, hu, ht⟩
      exact ih (hstep s a u hs hu) ht

/-- The runs of `S` whose every step meets a condition on the label and on the
state it is taken in. -/
def guard (S : System σ α) (ok : σ → α → Bool) : System σ α where
  init := S.init
  step := fun s a => if ok s a then S.step s a else none

theorem guard_step {ok : σ → α → Bool} {s t : σ} {a : α} :
    (S.guard ok).step s a = some t ↔ ok s a = true ∧ S.step s a = some t := by
  rw [guard]
  dsimp only
  split_ifs with h
  · exact ⟨fun hs => ⟨h, hs⟩, fun hs => hs.2⟩
  · exact ⟨fun hs => absurd hs (by simp), fun hs => absurd hs.1 h⟩

/-- Where the condition is on the labels alone, the guarded runs are those of labels that
meet it. -/
theorem guard_run_labels {ok : α → Bool} {s t : σ} {tr : List α} :
    (S.guard fun _ a => ok a).run s tr = some t ↔ (∀ a ∈ tr, ok a = true) ∧ S.run s tr = some t := by
  induction tr generalizing s with
  | nil => exact ⟨fun h => ⟨fun a ha => absurd ha List.not_mem_nil, h⟩, fun h => h.2⟩
  | cons a tr ih =>
      rw [run_cons, run_cons, Option.bind_eq_some_iff, Option.bind_eq_some_iff, List.forall_mem_cons]
      constructor
      · rintro ⟨u, hu, hrest⟩
        obtain ⟨hok, hstep⟩ := guard_step.mp hu
        obtain ⟨hall, hrun⟩ := ih.mp hrest
        exact ⟨⟨hok, hall⟩, u, hstep, hrun⟩
      · rintro ⟨⟨hok, hall⟩, u, hstep, hrun⟩
        exact ⟨u, guard_step.mpr ⟨hok, hstep⟩, ih.mpr ⟨hall, hrun⟩⟩

/-- A guarded run is a run. -/
theorem Trace.of_guard {ok : σ → α → Bool} {tr : List α} {s : σ} (h : (S.guard ok).Trace tr s) : S.Trace tr s := by
  refine Trace.induct (S := S.guard ok) (P := fun tr s => S.Trace tr s) ?_ ?_ h
  · intro s hs
    exact Trace.nil hs
  · intro tr s a t _ ih hstep
    exact ih.snoc (guard_step.mp hstep).2

/-- Every step of a run meets a condition on the label and on the state it is
taken in. -/
def Meets (S : System σ α) (ok : σ → α → Prop) : σ → List α → Prop
  | _, [] => True
  | s, a :: tr => ok s a ∧ ∀ t, S.step s a = some t → S.Meets ok t tr

/-- What the steps that meet a condition keep holds wherever a run comes to whose steps
all meet it, and the step taken there is one. -/
theorem Meets.keeps {I : σ → Prop} {ok : σ → α → Prop} (hkeep : ∀ s a t, I s → ok s a → S.step s a = some t → I t)
    {s₀ s u : σ} {tr : List α} (hI : I s₀) (hmeets : S.Meets ok s₀ tr) (hrun : S.run s₀ tr = some s)
    {n : ℕ} (hu : S.run s₀ (tr.take n) = some u) : I u ∧ ∀ a, tr[n]? = some a → ok u a ∧ ∃ t, S.step u a = some t := by
  induction tr generalizing s₀ n with
  | nil =>
      rw [List.take_nil, run_nil, Option.some.injEq] at hu
      rw [← hu]
      exact ⟨hI, fun a ha => absurd ha (by simp)⟩
  | cons a tr ih =>
      rw [run_cons, Option.bind_eq_some_iff] at hrun
      obtain ⟨t, hstep, hrun⟩ := hrun
      obtain ⟨hok, hrest⟩ := hmeets
      cases n with
      | zero =>
          rw [List.take_zero, run_nil, Option.some.injEq] at hu
          rw [← hu]
          refine ⟨hI, fun b hb => ?_⟩
          rw [List.getElem?_cons_zero, Option.some.injEq] at hb
          rw [← hb]
          exact ⟨hok, t, hstep⟩
      | succ n =>
          rw [List.take_succ_cons, run_cons, hstep, Option.bind_some] at hu
          rw [List.getElem?_cons_succ]
          exact ih (hkeep s₀ a t hI hok hstep) (hrest t hstep) hrun hu

/-- The exact condition, where it need not be decidable. -/
theorem run_good_iff_meets {I Good : σ → Prop} {ok : σ → α → Prop} (hkeep : ∀ s a t, I s → S.step s a = some t → I t)
    (hexact : ∀ s a t, I s → Good s → S.step s a = some t → (Good t ↔ ok s a))
    {s₀ s : σ} {tr : List α} (hI : I s₀) (hgood : Good s₀) (hrun : S.run s₀ tr = some s) :
    (∀ n u, S.run s₀ (tr.take n) = some u → Good u) ↔ S.Meets ok s₀ tr := by
  induction tr generalizing s₀ with
  | nil =>
      refine ⟨fun _ => trivial, fun _ n u hu => ?_⟩
      rw [List.take_nil, run_nil, Option.some.injEq] at hu
      rw [← hu]
      exact hgood
  | cons a tr ih =>
      rw [run_cons, Option.bind_eq_some_iff] at hrun
      obtain ⟨t, hstep, hrun⟩ := hrun
      have hIt := hkeep s₀ a t hI hstep
      constructor
      · intro hall
        have hgt : Good t := hall 1 t (by rw [List.take_succ_cons, List.take_zero, run_singleton, hstep])
        refine ⟨(hexact s₀ a t hI hgood hstep).mp hgt, fun t' hstep' => ?_⟩
        rw [hstep, Option.some.injEq] at hstep'
        rw [← hstep']
        refine (ih hIt hgt hrun).mp fun n u hu => hall (n + 1) u ?_
        rw [List.take_succ_cons, run_cons, hstep, Option.bind_some, hu]
      · rintro ⟨hok, hrest⟩ n u hu
        have hgt := (hexact s₀ a t hI hgood hstep).mpr hok
        cases n with
        | zero =>
            rw [List.take_zero, run_nil, Option.some.injEq] at hu
            rw [← hu]
            exact hgood
        | succ n =>
            rw [List.take_succ_cons, run_cons, hstep, Option.bind_some] at hu
            exact (ih hIt hgt hrun).mpr (hrest t hstep) n u hu

/-- A run is a guarded one exactly when its steps meet the condition. -/
theorem guard_run_iff_meets {ok : σ → α → Bool} {s₀ s : σ} {tr : List α} (hrun : S.run s₀ tr = some s) :
    (S.guard ok).run s₀ tr = some s ↔ S.Meets (fun s a => ok s a = true) s₀ tr := by
  induction tr generalizing s₀ with
  | nil => exact iff_of_true hrun trivial
  | cons a tr ih =>
      rw [run_cons, Option.bind_eq_some_iff] at hrun
      obtain ⟨t, hstep, hrun⟩ := hrun
      rw [run_cons, Option.bind_eq_some_iff]
      constructor
      · rintro ⟨t', hstep', hrest⟩
        obtain ⟨hok, hsame⟩ := guard_step.mp hstep'
        obtain rfl := Option.some.inj (hstep.symm.trans hsame)
        refine ⟨hok, fun u hu => ?_⟩
        rw [← Option.some.inj (hstep.symm.trans hu)]
        exact (ih hrun).mp hrest
      · rintro ⟨hok, hrest⟩
        exact ⟨t, guard_step.mpr ⟨hok, hstep⟩, (ih hrun).mpr (hrest t hstep)⟩

/-- **The exact condition.** When in every reachable good state the steps that
lead to good states are those that meet the condition, then a run from a good
state stays good exactly when all its steps meet it. -/
theorem run_good_iff_guard {I Good : σ → Prop} {ok : σ → α → Bool} (hkeep : ∀ s a t, I s → S.step s a = some t → I t)
    (hexact : ∀ s a t, I s → Good s → S.step s a = some t → (Good t ↔ ok s a = true))
    {s₀ s : σ} {tr : List α} (hI : I s₀) (hgood : Good s₀) (hrun : S.run s₀ tr = some s) :
    (∀ n u, S.run s₀ (tr.take n) = some u → Good u) ↔ (S.guard ok).run s₀ tr = some s := by
  rw [guard_run_iff_meets hrun]
  exact run_good_iff_meets hkeep hexact hI hgood hrun

/-- Where a step leads to a good state exactly from a good state and with the condition, a run
ends in a good state exactly when it starts in one and all its steps meet the condition. -/
theorem good_iff_meets {I Good : σ → Prop} {ok : σ → α → Prop} (hkeep : ∀ s a t, I s → S.step s a = some t → I t)
    (hexact : ∀ s a t, I s → S.step s a = some t → (Good t ↔ Good s ∧ ok s a))
    {s₀ s : σ} {tr : List α} (hI : I s₀) (hrun : S.run s₀ tr = some s) : Good s ↔ Good s₀ ∧ S.Meets ok s₀ tr := by
  induction tr generalizing s₀ with
  | nil =>
      rw [run_nil, Option.some.injEq] at hrun
      rw [hrun]
      exact ⟨fun h => ⟨h, trivial⟩, fun h => h.1⟩
  | cons a tr ih =>
      rw [run_cons, Option.bind_eq_some_iff] at hrun
      obtain ⟨t, hstep, hrun⟩ := hrun
      rw [ih (hkeep s₀ a t hI hstep) hrun, hexact s₀ a t hI hstep, and_assoc]
      refine and_congr_right fun _ => and_congr_right fun _ => ⟨fun h t' hstep' => ?_, fun h => h t hstep⟩
      rw [hstep, Option.some.injEq] at hstep'
      rw [← hstep']
      exact h

/-- What holds once at a point of a run holds at every later one. -/
def Lasts (S : System σ α) (Good : σ → Prop) (s₀ : σ) (tr : List α) : Prop :=
  ∀ n m u v, n ≤ m → S.run s₀ (tr.take n) = some u → S.run s₀ (tr.take m) = some v → Good u → Good v

/-- Where a step keeps something exactly when it meets a condition, it lasts along a run
exactly when all the steps of the run meet it. -/
theorem lasts_iff_meets {I Good : σ → Prop} {ok : σ → α → Prop} (hkeep : ∀ s a t, I s → S.step s a = some t → I t)
    (hexact : ∀ s a t, I s → S.step s a = some t → ((Good s → Good t) ↔ ok s a))
    {s₀ s : σ} {tr : List α} (hI : I s₀) (hrun : S.run s₀ tr = some s) : S.Lasts Good s₀ tr ↔ S.Meets ok s₀ tr := by
  induction tr generalizing s₀ with
  | nil =>
      refine ⟨fun _ => trivial, fun _ n m u v _ hu hv hgood => ?_⟩
      rw [List.take_nil] at hu hv
      rw [← Option.some.inj (hu.symm.trans hv)]
      exact hgood
  | cons a tr ih =>
      rw [run_cons, Option.bind_eq_some_iff] at hrun
      obtain ⟨t, hstep, hrun⟩ := hrun
      have hrest := ih (hkeep s₀ a t hI hstep) hrun
      have htail : ∀ {n u}, S.run s₀ ((a :: tr).take (n + 1)) = some u ↔ S.run t (tr.take n) = some u := by
        intro n u
        rw [List.take_succ_cons, run_cons, hstep, Option.bind_some]
      constructor
      · intro hlasts
        refine ⟨(hexact s₀ a t hI hstep).mp (hlasts 0 1 s₀ t (Nat.zero_le 1) rfl (htail.mpr rfl)), fun t' hstep' => ?_⟩
        rw [← Option.some.inj (hstep.symm.trans hstep')]
        exact hrest.mp fun n m u v hnm hu hv =>
          hlasts (n + 1) (m + 1) u v (Nat.succ_le_succ hnm) (htail.mpr hu) (htail.mpr hv)
      · rintro ⟨hok, hmeets⟩ n m u v hnm hu hv hgood
        have hlasts := hrest.mpr (hmeets t hstep)
        cases m with
        | zero =>
            obtain rfl := Nat.le_zero.mp hnm
            rw [← Option.some.inj (hu.symm.trans hv)]
            exact hgood
        | succ m =>
            cases n with
            | zero =>
                rw [List.take_zero, run_nil, Option.some.injEq] at hu
                rw [← hu] at hgood
                -- past the first step, which keeps it
                exact hlasts 0 m t v (Nat.zero_le m) rfl (htail.mp hv) ((hexact s₀ a t hI hstep).mpr hok hgood)
            | succ n => exact hlasts n m u v (Nat.le_of_succ_le_succ hnm) (htail.mp hu) (htail.mp hv) hgood

/-! ## What a run has done

The events of some kind, read off the labels by a `filterMap`. -/

section

variable {γ : Type w} {f : α → Option γ} {tr : List α} {a : α}

theorem filterMap_snoc_none (h : f a = none) : (tr ++ [a]).filterMap f = tr.filterMap f := by
  rw [List.filterMap_append, List.filterMap_cons_none h, List.filterMap_nil, List.append_nil]

theorem filterMap_snoc_some {c : γ} (h : f a = some c) : (tr ++ [a]).filterMap f = tr.filterMap f ++ [c] := by
  rw [List.filterMap_append, List.filterMap_cons_some h, List.filterMap_nil]

theorem mem_filterMap_snoc (a : α) {c : γ} (h : c ∈ tr.filterMap f) : c ∈ (tr ++ [a]).filterMap f := by
  rw [List.filterMap_append]
  exact List.mem_append_left _ h

end

/-- Where a label stands in a run, the run steps with it. -/
theorem Trace.at_label {tr tr' : List α} {a : α} {u : σ} (h : S.Trace (tr ++ a :: tr') u) :
    ∃ s t, S.Trace tr s ∧ S.step s a = some t ∧ S.Trace (tr ++ [a]) t ∧ S.run t tr' = some u := by
  rcases h.split with ⟨s, hs, hrun⟩
  rw [run_cons, Option.bind_eq_some_iff] at hrun
  rcases hrun with ⟨t, hstep, hrun⟩
  exact ⟨s, t, hs, hstep, hs.snoc hstep, hrun⟩

/-- A simulation of `S` by `T`: every label of `S` stands for a few labels of
`T`, and related states step to related states. -/
structure Refines (S : System σ α) (T : System τ β) (R : σ → τ → Prop)
    (stands : α → List β) : Prop where
  init : ∀ s, S.init s → ∃ t, T.init t ∧ R s t
  step : ∀ s t a s', R s t → S.step s a = some s' →
    ∃ t', T.run t (stands a) = some t' ∧ R s' t'

/-- **Simulation maps runs to runs.** -/
theorem Refines.trace {T : System τ β} {R : σ → τ → Prop} {stands : α → List β}
    (h : Refines S T R stands) {tr : List α} {s : σ} (htr : S.Trace tr s) :
    ∃ t, T.Trace (tr.flatMap stands) t ∧ R s t := by
  refine htr.induct (P := fun tr s => ∃ t, T.Trace (tr.flatMap stands) t ∧ R s t) ?_ ?_
  · intro s hs
    rcases h.init s hs with ⟨t, ht, hR⟩
    exact ⟨t, Trace.nil ht, hR⟩
  · intro tr s a s' _ ih hstep
    rcases ih with ⟨t, ⟨t₀, ht₀, hrun⟩, hR⟩
    rcases h.step s t a s' hR hstep with ⟨t', ht', hR'⟩
    refine ⟨t', ⟨t₀, ht₀, ?_⟩, hR'⟩
    rw [List.flatMap_append, run_append, hrun, Option.bind_some, List.flatMap_singleton, ht']

end System

end Fathom
