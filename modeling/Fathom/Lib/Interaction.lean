/-
**Programs that talk to the world**: a state is read and written, and a program returns,
raises, or waits for ever.

What the world answers is a script in the state. A program that has read all of it waits, so
a run of a program that never ends is, however far it is looked at, the run of one that
waits on a longer or shorter script.

`Spec` is the triple of such a program, with a postcondition for each of its three ends, and
there is one rule for each way programs are put together. `Always` is what holds of every
event of a history, newest first, and of what went before it.
-/
import Mathlib.Data.List.Infix

set_option autoImplicit false

namespace Fathom.Interaction

variable {σ ε α β : Type}

/-- How a program ends. -/
inductive Outcome (ε α : Type) where
  | done (a : α)
  | raised (e : ε)
  | waiting

def Prog (σ ε α : Type) : Type := σ → Outcome ε α × σ

namespace Prog

def ret (a : α) : Prog σ ε α := fun s => (.done a, s)

def raise (e : ε) : Prog σ ε α := fun s => (.raised e, s)

def wait : Prog σ ε α := fun s => (.waiting, s)

/-- A look at the state. -/
def look (f : σ → α) : Prog σ ε α := fun s => (.done (f s), s)

def change (f : σ → σ) : Prog σ ε Unit := fun s => (.done (), f s)

def andThen (m : Prog σ ε α) (f : α → Prog σ ε β) : Prog σ ε β := fun s =>
  match m s with
  | (.done a, t) => f a t
  | (.raised e, t) => (.raised e, t)
  | (.waiting, t) => (.waiting, t)

/-- `try` with its `except`. -/
def attempt (m : Prog σ ε α) (handler : ε → Prog σ ε α) : Prog σ ε α := fun s =>
  match m s with
  | (.done a, t) => (.done a, t)
  | (.raised e, t) => handler e t
  | (.waiting, t) => (.waiting, t)

/-- `try` with a `finally` that does not fail. -/
def always (m : Prog σ ε α) (f : σ → σ) : Prog σ ε α := fun s =>
  match m s with
  | (.done a, t) => (.done a, f t)
  | (.raised e, t) => (.raised e, f t)
  | (.waiting, t) => (.waiting, t)

instance instMonadProg : Monad (Prog σ ε) where
  pure := ret
  bind := andThen

end Prog

/-! ## Triples -/

/-- A postcondition for each end. -/
structure Post (σ ε α : Type) where
  done : α → σ → Prop
  raised : ε → σ → Prop
  waiting : σ → Prop

def Post.holds (Q : Post σ ε α) : Outcome ε α → σ → Prop
  | .done a, s => Q.done a s
  | .raised e, s => Q.raised e s
  | .waiting, s => Q.waiting s

/-- Whatever state the program starts in that meets the precondition, it ends in one that
meets the postcondition of its end. -/
def Spec (P : σ → Prop) (m : Prog σ ε α) (Q : Post σ ε α) : Prop :=
  ∀ s, P s → Q.holds (m s).1 (m s).2

/-- The same at every end. -/
def same (I : σ → Prop) : Post σ ε α := ⟨fun _ => I, fun _ => I, I⟩

/-- What a program keeps. -/
def Keeps (I : σ → Prop) (m : Prog σ ε α) : Prop := Spec I m (same I)

section

variable {P P' : σ → Prop} {m : Prog σ ε α} {D : α → σ → Prop} {E E' : ε → σ → Prop} {W : σ → Prop}

variable {Q : Post σ ε α}

theorem Spec.pre (h : Spec P m Q) (hpre : ∀ s, P' s → P s) : Spec P' m Q := fun s hs => h s (hpre s hs)

theorem Spec.post {Q' : Post σ ε α} (h : Spec P m Q) (hdone : ∀ a s, Q.done a s → Q'.done a s)
    (hraised : ∀ e s, Q.raised e s → Q'.raised e s) (hwaiting : ∀ s, Q.waiting s → Q'.waiting s) : Spec P m Q' := by
  intro s hs
  have hend := h s hs
  rcases hm : m s with ⟨a | e | _, t⟩ <;> rw [hm] at hend
  · exact hdone a t hend
  · exact hraised e t hend
  · exact hwaiting t hend

theorem Spec.ret {a : α} (h : ∀ s, P s → Q.done a s) : Spec P (pure a) Q := fun s hs => h s hs

theorem Spec.raise {e : ε} (h : ∀ s, P s → Q.raised e s) : Spec P (Prog.raise e) Q := fun s hs => h s hs

theorem Spec.change {f : σ → σ} {Q : Post σ ε Unit} (h : ∀ s, P s → Q.done () (f s)) : Spec P (Prog.change f) Q :=
  fun s hs => h s hs

/-- The state is looked at, and what was seen is known of it. -/
theorem Spec.look {f : σ → α} {g : α → Prog σ ε β} {Q : Post σ ε β}
    (h : ∀ a, Spec (fun s => P s ∧ f s = a) (g a) Q) : Spec P (Prog.look f >>= g) Q := fun s hs => h (f s) s ⟨hs, rfl⟩

/-- One program after another. -/
theorem Spec.bind {f : α → Prog σ ε β} {D' : β → σ → Prop} (h : Spec P m ⟨D, E, W⟩)
    (hrest : ∀ a, Spec (D a) (f a) ⟨D', E, W⟩) : Spec P (m >>= f) ⟨D', E, W⟩ := by
  intro s hs
  have hend := h s hs
  change Post.holds _ (Prog.andThen m f s).1 (Prog.andThen m f s).2
  rw [Prog.andThen]
  rcases hm : m s with ⟨a | e | _, t⟩ <;> rw [hm] at hend
  · exact hrest a t hend
  · exact hend
  · exact hend

theorem Spec.attempt {handler : ε → Prog σ ε α} (h : Spec P m ⟨D, E, W⟩)
    (hhandler : ∀ e, Spec (E e) (handler e) ⟨D, E', W⟩) : Spec P (m.attempt handler) ⟨D, E', W⟩ := by
  intro s hs
  have hend := h s hs
  rw [Prog.attempt]
  rcases hm : m s with ⟨a | e | _, t⟩ <;> rw [hm] at hend
  · exact hend
  · exact hhandler e t hend
  · exact hend

/-- One exception is taken for a result. -/
theorem Spec.rescue [DecidableEq ε] {e₀ : ε} {a : α} (h : Spec P m ⟨D, E, W⟩) (hrescue : ∀ s, E e₀ s → D a s) :
    Spec P (m.attempt fun e => if e = e₀ then pure a else Prog.raise e) ⟨D, E, W⟩ := by
  refine Spec.attempt h fun e => ?_
  by_cases he : e = e₀
  · rw [if_pos he, he]
    exact Spec.ret hrescue
  · rw [if_neg he]
    exact Spec.raise fun s hs => hs

theorem Spec.always {f : σ → σ} (h : Spec P m ⟨fun a s => Q.done a (f s), fun e s => Q.raised e (f s), Q.waiting⟩) :
    Spec P (m.always f) Q := by
  intro s hs
  have hend := h s hs
  rw [Prog.always]
  rcases hm : m s with ⟨a | e | _, t⟩ <;> rw [hm] at hend <;> exact hend

/-- What comes after a program matters in the states it ends in only. -/
theorem Prog.bind_congr {I : σ → Prop} (h : Keeps I m) {f g : α → Prog σ ε β} (hfg : ∀ a s, I s → f a s = g a s) {s : σ} (hs : I s) :
    (m >>= f) s = (m >>= g) s := by
  have hend := h s hs
  change Prog.andThen m f s = Prog.andThen m g s
  rw [Prog.andThen, Prog.andThen]
  rcases hm : m s with ⟨a | e | _, t⟩
  · rw [hm] at hend
    exact hfg a t hend
  · rfl
  · rfl

theorem Prog.attempt_congr {I : σ → Prop} (h : Keeps I m) {f g : ε → Prog σ ε α} (hfg : ∀ e s, I s → f e s = g e s) {s : σ}
    (hs : I s) : m.attempt f s = m.attempt g s := by
  have hend := h s hs
  rw [Prog.attempt, Prog.attempt]
  rcases hm : m s with ⟨a | e | _, t⟩
  · rfl
  · rw [hm] at hend
    exact hfg e t hend
  · rfl

end

/-! ## Histories -/

section

variable {η : Type} {P : List η → η → Prop} {e : η} {log : List η}

/-- It holds of every event of a history, newest first, with what went before it. -/
def Always (P : List η → η → Prop) (log : List η) : Prop := ∀ e earlier, (e :: earlier) <:+ log → P earlier e

theorem always_nil (P : List η → η → Prop) : Always P [] := fun e _ h => absurd h (by simp)

theorem always_cons : Always P (e :: log) ↔ P log e ∧ Always P log := by
  constructor
  · intro h
    exact ⟨h e log List.suffix_rfl, fun e' earlier hsub => h e' earlier (hsub.trans (List.suffix_cons e log))⟩
  · rintro ⟨hnew, hold⟩ e' earlier hsub
    rcases List.suffix_cons_iff.mp hsub with heq | hsub
    · rw [(List.cons.inj heq).1, (List.cons.inj heq).2]
      exact hnew
    · exact hold e' earlier hsub

/-- What holds of a history held of every earlier one. -/
theorem Always.earlier {before : List η} (h : Always P log) (hsub : before <:+ log) : Always P before :=
  fun e earlier he => h e earlier (he.trans hsub)

end

end Fathom.Interaction
