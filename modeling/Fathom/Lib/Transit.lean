/-
**A value and what is on its way to it.**

A replica holds a value. A write and a withdrawal of it may each wait in a queue
that delivers in the order of epochs, of one epoch the write before the withdrawal.
A delivery may be repeated: it can reach the replica and stay in the queue. What the
value is *destined* to be is what it is once the queue is empty, and a delivery that
is due changes nothing of it, whether it is crossed off or not.
-/
import Mathlib.Order.Lattice

set_option autoImplicit false

namespace Fathom

/-- A value, the write that waits with its epoch and its effect, and the epoch of
the withdrawal that waits. -/
structure Transit (ι γ : Type*) where
  value : γ
  write : Option (ι × (γ → γ))
  withdrawal : Option ι

namespace Transit

variable {ι γ : Type*} [LinearOrder ι] (withdraw : γ → γ)

/-- What the value will be. -/
def destined (t : Transit ι γ) : γ :=
  match t.write, t.withdrawal with
  | none, none => t.value
  | some (_, deliver), none => deliver t.value
  | none, some _ => withdraw t.value
  | some (epoch, deliver), some after =>
    if after < epoch then deliver (withdraw t.value) else withdraw (deliver t.value)

variable {withdraw} {t : Transit ι γ} {epoch : ι} {deliver : γ → γ}

/-- With nothing on its way a value is what it is destined to be. -/
theorem destined_arrived (hwrite : t.write = none) (hwithdrawal : t.withdrawal = none) :
    t.destined withdraw = t.value := by
  rw [destined, hwrite, hwithdrawal]

/-- A write that is due: no withdrawal waits that comes before it. -/
theorem destined_of_due (hwrite : t.write = some (epoch, deliver))
    (hdue : ∀ after, t.withdrawal = some after → epoch ≤ after) :
    t.destined withdraw
      = match t.withdrawal with
        | none => deliver t.value
        | some _ => withdraw (deliver t.value) := by
  rw [destined, hwrite]
  rcases hwithdrawal : t.withdrawal with _ | after
  · rfl
  · have hnot : ¬ after < epoch := not_lt.mpr (hdue after hwithdrawal)
    dsimp only
    rw [if_neg hnot]

/-- A withdrawal that is due: no write waits that comes before it or with it. -/
theorem destined_of_withdrawal_due {after : ι} (hwithdrawal : t.withdrawal = some after)
    (hdue : ∀ epoch deliver, t.write = some (epoch, deliver) → after < epoch) :
    t.destined withdraw
      = match t.write with
        | none => withdraw t.value
        | some (_, deliver) => deliver (withdraw t.value) := by
  rw [destined, hwithdrawal]
  rcases hwrite : t.write with _ | ⟨epoch, deliver⟩
  · rfl
  · dsimp only
    rw [if_pos (hdue epoch deliver hwrite)]

/-- Delivering a write that is due changes nothing of what the value is destined to
be, as long as a write delivered twice is a write delivered once. -/
theorem destined_deliver (hwrite : t.write = some (epoch, deliver))
    (hdue : ∀ after, t.withdrawal = some after → epoch ≤ after)
    (htwice : deliver (deliver t.value) = deliver t.value) :
    ({ t with value := deliver t.value } : Transit ι γ).destined withdraw = t.destined withdraw := by
  rw [destined_of_due hwrite hdue, @destined_of_due _ _ _ _ { t with value := deliver t.value } _ _
    hwrite hdue]
  dsimp only
  rw [htwice]

/-- Nor does crossing off a write that is due and has been delivered. -/
theorem destined_crossed_off (hwrite : t.write = some (epoch, deliver))
    (hdue : ∀ after, t.withdrawal = some after → epoch ≤ after) (hdone : deliver t.value = t.value) :
    ({ t with write := none } : Transit ι γ).destined withdraw = t.destined withdraw := by
  rw [destined_of_due hwrite hdue, hdone, destined]
  rcases t.withdrawal with _ | after
  · rfl
  · rfl

/-- Delivering a withdrawal that is due changes nothing of it. -/
theorem destined_withdraw {after : ι} (hwithdrawal : t.withdrawal = some after)
    (hdue : ∀ epoch deliver, t.write = some (epoch, deliver) → after < epoch)
    (htwice : withdraw (withdraw t.value) = withdraw t.value) :
    ({ t with value := withdraw t.value } : Transit ι γ).destined withdraw = t.destined withdraw := by
  rw [destined_of_withdrawal_due hwithdrawal hdue,
    @destined_of_withdrawal_due _ _ _ _ { t with value := withdraw t.value } _ hwithdrawal hdue]
  dsimp only
  rw [htwice]

/-- Nor does crossing off a withdrawal that is due and has been delivered. -/
theorem destined_withdrawn {after : ι} (hwithdrawal : t.withdrawal = some after)
    (hdue : ∀ epoch deliver, t.write = some (epoch, deliver) → after < epoch)
    (hdone : withdraw t.value = t.value) :
    ({ t with withdrawal := none } : Transit ι γ).destined withdraw = t.destined withdraw := by
  rw [destined_of_withdrawal_due hwithdrawal hdue, hdone, destined]
  rcases t.write with _ | ⟨epoch, deliver⟩
  · rfl
  · rfl

end Transit

end Fathom
