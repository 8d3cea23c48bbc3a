/-
**The cap on heavy scans.**

A request counts the active heavy leases and then inserts its own, and nothing holds
the count still in between: what other requests commit after the select is not in it.
Two requests that both select before either commits both find room, and the cap is
exceeded.

`Inv` is what does hold in every interleaving. A transaction sees, when it commits, at
most the heavy leases it selected and those that others have committed since: releases
and expiries only lower the number, a row is never brought back to active, and a
transaction inserts at most one lease. So a run stays under the cap when each heavy
lease is committed while what its request selected, and what was granted since, leave
room for it.
-/
import Fathom.Scan.Coordinator

set_option autoImplicit false

namespace Fathom.Scan

open Writes

variable {settings : CoordinatorSettings} {hosts : ℕ → Option String}

/-! ## What is promised -/

/-- The heavy leases that are active and not past their TTL at an instant. -/
def unexpired_heavy (s : State) (now : ℤ) : ℕ :=
  count (fun lease => is_active_heavy lease && lease.expires_at.any fun expires_at => decide (now < expires_at))
    s.leases

/-- At no instant do more heavy scans hold a lease than the settings allow. -/
def HeavyCapped (settings : CoordinatorSettings) (s : State) : Prop :=
  ∀ now, unexpired_heavy s now ≤ settings.max_concurrent_heavy

/-- The step commits no heavy lease, or one for which the leases selected and those
granted since leave room. -/
def has_room (settings : CoordinatorSettings) (s : State) : Label → Bool
  | .commit a =>
    match s.transactions a with
    | some t =>
      t.grants == 0 || decide (t.active_heavy.length + t.since < settings.max_concurrent_heavy)
    | none => true
  | _ => true

theorem unexpired_heavy_le (s : State) (now : ℤ) : unexpired_heavy s now ≤ count is_active_heavy s.leases := by
  unfold unexpired_heavy count
  refine List.countP_mono_left fun row _ h => ?_
  rw [Bool.and_eq_true] at h
  exact h.1

/-! ## The rows the statements write -/

theorem expire_leaves (lease : ScanLease) : is_active_heavy (expire lease) = false := rfl

theorem release_leaves (moment : ℤ) (lease : ScanLease) :
    is_active_heavy (release moment lease) = false := rfl

theorem is_active_heavy_granted (host_id : ℕ) (is_heavy : Bool) (now : ℤ) :
    is_active_heavy (granted_lease settings host_id is_heavy now) = is_heavy := by
  cases is_heavy <;> rfl

theorem is_active_heavy_deferred (host_id blocking_host_id : ℕ) (blocking : String) :
    is_active_heavy (deferred_lease settings host_id blocking_host_id blocking) = false := rfl

/-! ## The invariant -/

/-- What holds of an open transaction: it brings no row back, it inserts nothing before
its last statement and then one row, and once it has selected it sees no more than what
it selected, what others granted since and what it grants itself, which is a heavy lease
only if it selected fewer than the settings allow. -/
structure Transaction.Sound (settings : CoordinatorSettings) (leases : List (ℕ × ScanLease))
    (t : Transaction) : Prop where
  leaves : t.writes.Leaves is_active_heavy
  unwritten : t.stage.is_done = false → t.writes.inserts = []
  seen : t.stage = .to_write ∨ 0 < t.grants →
    count is_active_heavy (t.writes.view leases) ≤ t.active_heavy.length + t.since + t.grants
  checked : 0 < t.grants → t.active_heavy.length < settings.max_concurrent_heavy
  one : t.grants ≤ 1

/-- The committed leases are within the cap and every open transaction is sound. -/
structure Inv (settings : CoordinatorSettings) (s : State) : Prop where
  capped : count is_active_heavy s.leases ≤ settings.max_concurrent_heavy
  sound : ∀ a t, s.transactions a = some t → t.Sound settings s.leases

variable {s s' : State} {t : Transaction} {leases : List (ℕ × ScanLease)} {a : ℕ}

theorem Inv.heavy_capped (h : Inv settings s) : HeavyCapped settings s :=
  fun now => Nat.le_trans (unexpired_heavy_le s now) h.capped

theorem grants_of_unwritten (h : t.writes.inserts = []) : t.grants = 0 := by
  rw [Transaction.grants, h]
  rfl

/-- A transaction that has written nothing yet. -/
theorem Transaction.Sound.fresh (hwrites : t.writes = {}) (hstage : t.stage ≠ .to_write) : t.Sound settings leases := by
  have hinserts : t.writes.inserts = [] := by rw [hwrites]
  have hgrants := grants_of_unwritten hinserts
  refine ⟨?_, fun _ => hinserts, ?_, by omega, by omega⟩
  · rw [hwrites]
    exact leaves_nil
  · rintro (h | h)
    · exact absurd h hstage
    · omega

variable {next : Stage} {tr : List Label}

/-- A statement that writes nothing and does not lead to the insert. -/
theorem Transaction.Sound.move (h : t.Sound settings leases) (hopen : t.stage.is_done = false)
    (hnext : next ≠ .to_write) : ({ t with stage := next } : Transaction).Sound settings leases := by
  have hinserts := h.unwritten hopen
  refine ⟨h.leaves, fun _ => hinserts, ?_, h.checked, h.one⟩
  rintro (hstage | hgrants)
  · exact absurd hstage hnext
  · have hnone : Transaction.grants { t with stage := next } = 0 := grants_of_unwritten hinserts
    omega

/-- An `UPDATE`. -/
theorem Transaction.Sound.update (h : t.Sound settings leases) (hopen : t.stage.is_done = false)
    (cond : ScanLease → Bool) (found : List ℕ) {set : ScanLease → ScanLease}
    (hset : ∀ lease, is_active_heavy (set lease) = false) (hnext : next ≠ .to_write) :
    ({ t with writes := t.writes.update leases cond found set, stage := next } : Transaction).Sound
      settings leases := by
  have hinserts : (t.writes.update leases cond found set).inserts = [] := h.unwritten hopen
  have hgrants := @grants_of_unwritten
    { t with writes := t.writes.update leases cond found set, stage := next } hinserts
  refine ⟨h.leaves.update found hset, fun _ => hinserts, ?_, by omega, by omega⟩
  rintro (hstage | hpos)
  · exact absurd hstage hnext
  · omega

/-- The insert that ends a request: a row out of the class, or a heavy lease after the
select. -/
theorem Transaction.Sound.insert (h : t.Sound settings leases) (hopen : t.stage.is_done = false)
    (key : ℕ) (lease : ScanLease) (decision : Option LeaseDecision)
    (hlease : is_active_heavy lease = true →
      t.stage = .to_write ∧ t.active_heavy.length < settings.max_concurrent_heavy) :
    ({ t with writes := t.writes.insert key lease, stage := .done decision } : Transaction).Sound
      settings leases := by
  have hinserts := h.unwritten hopen
  have hgrants : Transaction.grants
      { t with writes := t.writes.insert key lease, stage := .done decision }
        = count is_active_heavy [(key, lease)] := by
    unfold Transaction.grants Writes.insert
    dsimp only
    rw [hinserts, List.nil_append]
  have hone : count is_active_heavy [(key, lease)] ≤ 1 := by
    unfold count
    exact List.countP_le_length
  have hheavy : 0 < count is_active_heavy [(key, lease)] → is_active_heavy lease = true := by
    intro hpos
    unfold count at hpos
    obtain ⟨row, hrow, hp⟩ := List.countP_pos_iff.mp hpos
    rw [List.mem_singleton.mp hrow] at hp
    exact hp
  constructor
  · exact h.leaves.insert key lease
  · intro hdone
    exact absurd hdone (by simp [Stage.is_done])
  · rintro (hstage | hpos)
    · exact absurd hstage (by simp)
    · -- one more row than the select saw
      rw [hgrants] at hpos ⊢
      have hseen := h.seen (Or.inl (hlease (hheavy hpos)).1)
      rw [grants_of_unwritten hinserts] at hseen
      have hview := h.leaves.count_view_insert leases key lease
      dsimp only
      omega
  · intro hpos
    rw [hgrants] at hpos
    exact (hlease (hheavy hpos)).2
  · rw [hgrants]
    exact hone

/-- The select. -/
theorem Transaction.Sound.select (h : t.Sound settings leases) (hopen : t.stage.is_done = false) :
    ({ t with
        active_heavy := ((t.writes.view leases).filter fun row => is_active_heavy row.2).map
          fun row => row.2.host_id
        since := 0
        stage := .to_write } : Transaction).Sound settings leases := by
  have hnone : t.grants = 0 := grants_of_unwritten (h.unwritten hopen)
  refine ⟨h.leaves, fun _ => h.unwritten hopen, fun _ => ?_, fun hpos => ?_, h.one⟩
  swap
  · change 0 < t.grants at hpos
    omega
  dsimp only
  rw [List.length_map, ← List.countP_eq_length_filter]
  unfold count
  omega

/-- What another transaction commits. -/
theorem Transaction.Sound.commit {other : Transaction} (h : t.Sound settings leases)
    (hother : other.Sound settings leases) :
    ({ t with since := t.since + other.grants } : Transaction).Sound settings
      (other.writes.view leases) := by
  refine ⟨h.leaves, h.unwritten, fun hseen => ?_, h.checked, h.one⟩
  have hbefore := h.seen hseen
  have hafter := h.leaves.count_view_commit hother.leaves leases
  have hgrants : other.grants = count is_active_heavy other.writes.inserts := rfl
  have hsame : Transaction.grants { t with since := t.since + other.grants } = t.grants := rfl
  dsimp only
  omega

/-! ## The steps -/

theorem set_transactions (s : State) (a : ℕ) (t : Transaction) (b : ℕ) :
    (s.set a t).transactions b = if b = a then some t else s.transactions b := rfl

/-- A statement of an open transaction leaves the committed leases and the other
transactions alone, so its own soundness is all there is to show. -/
theorem Inv.of_set (h : Inv settings s) (hleases : s'.leases = s.leases)
    (htransactions : s'.transactions = (s.set a t).transactions) (ht : t.Sound settings s.leases) :
    Inv settings s' := by
  refine ⟨by rw [hleases]; exact h.capped, fun b u hu => ?_⟩
  rw [hleases]
  rw [htransactions, set_transactions] at hu
  by_cases hb : b = a
  · rw [if_pos hb, Option.some.injEq] at hu
    rw [← hu]
    exact ht
  · rw [if_neg hb] at hu
    exact h.sound b u hu

/-- An `UPDATE` that runs. -/
theorem Inv.update (h : Inv settings s) (ht : t.Sound settings s.leases) (hopen : t.stage.is_done = false)
    {found : List ℕ} {cond : ScanLease → Bool} {set : ScanLease → ScanLease}
    (hset : ∀ lease, is_active_heavy (set lease) = false) (hnext : next ≠ .to_write)
    (hstep : s.update a t found cond set next = some s') : Inv settings s' := by
  unfold State.update at hstep
  by_cases hwaits : s.waits a found = true
  · rw [if_pos hwaits] at hstep
    exact absurd hstep (by simp)
  · rw [if_neg hwaits, Option.some.injEq] at hstep
    rw [← hstep]
    exact h.of_set rfl rfl (ht.update hopen cond found hset hnext)

theorem Inv.advance (h : Inv settings s) (ht : t.Sound settings s.leases)
    (hstep : advance settings hosts s a t = some s') : Inv settings s' := by
  unfold Scan.advance at hstep
  cases hstage : t.stage with
  | to_expire =>
      rw [hstage] at hstep
      rw [← Option.some.inj hstep]
      exact h.of_set rfl rfl (ht.move (by rw [hstage]; rfl) (by simp))
  | expiring found =>
      rw [hstage] at hstep
      exact h.update ht (by rw [hstage]; rfl) expire_leaves (by simp) hstep
  | to_release =>
      rw [hstage] at hstep
      rw [← Option.some.inj hstep]
      exact h.of_set rfl rfl (ht.move (by rw [hstage]; rfl) (by simp))
  | releasing found =>
      rw [hstage] at hstep
      refine h.update ht (by rw [hstage]; rfl) (release_leaves t.moment) ?_ hstep
      cases t.job <;> simp
  | to_weigh =>
      rw [hstage] at hstep
      have hopen : t.stage.is_done = false := by rw [hstage]; rfl
      by_cases hheavy : host_is_heavy settings s.runs t.host_id = true
      · dsimp only at hstep
        rw [if_pos hheavy, Option.some.injEq] at hstep
        rw [← hstep]
        exact h.of_set rfl rfl (ht.move hopen (by simp))
      · dsimp only at hstep
        rw [if_neg hheavy, Option.some.injEq] at hstep
        rw [← hstep]
        -- a light lease is not in the class
        refine h.of_set rfl rfl (ht.insert hopen s.next_lease _ _ fun hlease => ?_)
        rw [is_active_heavy_granted] at hlease
        exact absurd hlease (by simp)
  | to_count =>
      rw [hstage] at hstep
      rw [← Option.some.inj hstep]
      exact h.of_set rfl rfl (ht.select (by rw [hstage]; rfl))
  | to_write =>
      rw [hstage] at hstep
      have hopen : t.stage.is_done = false := by rw [hstage]; rfl
      dsimp only at hstep
      by_cases hroom : t.active_heavy.length < settings.max_concurrent_heavy
      · rw [if_pos hroom, Option.some.injEq] at hstep
        rw [← hstep]
        exact h.of_set rfl rfl (ht.insert hopen s.next_lease _ _ fun _ => ⟨hstage, hroom⟩)
      · rw [if_neg hroom] at hstep
        cases hselected : t.active_heavy with
        | nil =>
            rw [hselected] at hstep
            exact absurd hstep (by simp)
        | cons blocking_host_id rest =>
            rw [hselected] at hstep
            rw [← Option.some.inj hstep]
            refine h.of_set rfl rfl (ht.insert hopen s.next_lease _ _ fun hlease => ?_)
            rw [is_active_heavy_deferred] at hlease
            exact absurd hlease (by simp)
  | done decision =>
      rw [hstage] at hstep
      exact absurd hstep (by simp)

/-- A commit that has room. -/
theorem Inv.commit (h : Inv settings s) (ht : s.transactions a = some t)
    (hroom : has_room settings s (.commit a) = true) : Inv settings (s.commit a t) := by
  have hsound := h.sound a t ht
  constructor
  · change count is_active_heavy (t.writes.view s.leases) ≤ settings.max_concurrent_heavy
    have hview := hsound.leaves.count_view_le s.leases
    have hgrants : t.grants = count is_active_heavy t.writes.inserts := rfl
    have hcapped := h.capped
    by_cases hnone : t.grants = 0
    · omega
    · -- a heavy lease: the transaction sees what it selected and what came since
      have hseen := hsound.seen (Or.inr (Nat.pos_of_ne_zero hnone))
      have hone := hsound.one
      unfold has_room at hroom
      dsimp only at hroom
      rw [ht] at hroom
      dsimp only at hroom
      rw [Bool.or_eq_true, beq_iff_eq, decide_eq_true_eq] at hroom
      omega
  · intro b u hu
    unfold State.commit at hu ⊢
    dsimp only at hu ⊢
    by_cases hb : b = a
    · rw [if_pos hb] at hu
      exact absurd hu (by simp)
    · rw [if_neg hb, Option.map_eq_some_iff] at hu
      obtain ⟨before, hbefore, hafter⟩ := hu
      rw [← hafter]
      exact (h.sound b before hbefore).commit hsound

theorem Inv.rollback (h : Inv settings s) (a : ℕ) : Inv settings (s.rollback a) := by
  refine ⟨h.capped, fun b u hu => ?_⟩
  unfold State.rollback at hu
  dsimp only at hu
  by_cases hb : b = a
  · rw [if_pos hb] at hu
    exact absurd hu (by simp)
  · rw [if_neg hb] at hu
    exact h.sound b u hu

/-- **One step.** -/
theorem Inv.step (h : Inv settings s) {l : Label} (hroom : has_room settings s l = true)
    (hstep : step settings hosts s l = some s') : Inv settings s' := by
  unfold Scan.step at hstep
  cases l with
  | request a host_id moment =>
      dsimp only at hstep
      cases hopen : s.transactions a with
      | some t =>
          rw [hopen] at hstep
          exact absurd hstep (by simp)
      | none =>
          rw [hopen] at hstep
          rw [← Option.some.inj hstep]
          exact h.of_set rfl rfl (Transaction.Sound.fresh rfl (by simp))
  | report a host_id entries_seen moment =>
      dsimp only at hstep
      cases hopen : s.transactions a with
      | some t =>
          rw [hopen] at hstep
          exact absurd hstep (by simp)
      | none =>
          rw [hopen] at hstep
          rw [← Option.some.inj hstep]
          exact h.of_set rfl rfl (Transaction.Sound.fresh rfl (by simp))
  | next a =>
      dsimp only at hstep
      rw [Option.bind_eq_some_iff] at hstep
      obtain ⟨t, hopen, hnext⟩ := hstep
      exact h.advance (h.sound a t hopen) hnext
  | commit a =>
      dsimp only at hstep
      cases hopen : s.transactions a with
      | none =>
          rw [hopen] at hstep
          exact absurd hstep (by simp)
      | some t =>
          rw [hopen] at hstep
          dsimp only at hstep
          by_cases hdone : t.stage.is_done = true
          · rw [if_pos hdone, Option.some.injEq] at hstep
            rw [← hstep]
            exact h.commit hopen hroom
          · rw [if_neg hdone] at hstep
            exact absurd hstep (by simp)
  | rollback a =>
      dsimp only at hstep
      cases hopen : s.transactions a with
      | none =>
          rw [hopen] at hstep
          exact absurd hstep (by simp)
      | some t =>
          rw [hopen] at hstep
          rw [← Option.some.inj hstep]
          exact h.rollback a

theorem Inv.init (h : (coordinator settings hosts).init s) : Inv settings s := by
  refine ⟨?_, fun a t ht => ?_⟩
  · rw [h.1]
    exact Nat.zero_le _
  · rw [h.2 a] at ht
    exact absurd ht (by simp)

/-! ## The runs under the cap -/

/-- The invariant along the runs whose every step has room. -/
theorem Inv.of_guard {ok : State → Label → Bool}
    (hok : ∀ s l, Inv settings s → ok s l = true → has_room settings s l = true)
    (htrace : ((coordinator settings hosts).guard ok).Trace tr s) : Inv settings s := by
  refine System.Trace.invariant (S := (coordinator settings hosts).guard ok)
    (fun s hs => @Inv.init settings hosts s hs) (fun s l s' hs hstep => ?_) htrace
  obtain ⟨hmeets, hstep⟩ := System.guard_step.mp hstep
  exact hs.step (hok s l hs hmeets) hstep

/-- **The cap, for the runs whose every heavy lease is committed with room for it.** -/
theorem heavy_scans_capped {tr : List Label} {s : State}
    (htrace : ((coordinator settings hosts).guard (has_room settings)).Trace tr s) :
    HeavyCapped settings s := by
  exact (Inv.of_guard (fun _ _ _ hroom => hroom) htrace).heavy_capped

/-- One heavy scan at a time. -/
def one_heavy : CoordinatorSettings where
  max_concurrent_heavy := 1
  heavy_entries := 500000
  lease_ttl_seconds := 21600
  retry_after_seconds := 1800
  one_le_max := Nat.le_refl 1

/-- The statements of a heavy request. -/
def heavy_request (a host_id : ℕ) (moment : ℤ) : List Label :=
  .request a host_id moment :: List.replicate 7 (.next a)

/-- A host is granted its lease, a second is deferred, the first reports its run, and the
second asks again and is granted. -/
def in_turn : List Label :=
  heavy_request 0 10 0 ++ [.commit 0] ++ heavy_request 1 20 5 ++ [.commit 1]
    ++ [.report 2 10 900 7, .next 2, .next 2, .commit 2] ++ heavy_request 3 20 8 ++ [.commit 3]

/-- The state a run of the guarded coordinator leads to. -/
theorem guarded_trace (hrun : ((coordinator settings hosts).guard (has_room settings)).run {} tr = some s) :
    ((coordinator settings hosts).guard (has_room settings)).Trace tr s :=
  ⟨{}, ⟨rfl, fun _ => rfl⟩, hrun⟩

theorem heavy_scans_capped_in_turn :
    ∃ s, ((coordinator one_heavy fun _ => none).guard (has_room one_heavy)).run {} in_turn = some s ∧
      unexpired_heavy s 9 = 1 ∧ HeavyCapped one_heavy s := by
  have hsome : ((((coordinator one_heavy fun _ => none).guard (has_room one_heavy)).run {}
      in_turn).map fun s => unexpired_heavy s 9) = some 1 := by decide
  obtain ⟨s, hrun, hcount⟩ := Option.map_eq_some_iff.mp hsome
  exact ⟨s, hrun, hcount, heavy_scans_capped (guarded_trace hrun)⟩

/-- Two hosts ask at once: both have selected before either commits. -/
def at_once : List Label :=
  heavy_request 0 10 0 ++ heavy_request 1 20 0 ++ [.commit 0, .commit 1]

/-- With one heavy scan allowed both are granted, and a second later both leases run. -/
theorem heavy_scans_exceed :
    ∃ s, (coordinator one_heavy fun _ => none).Trace at_once s ∧ unexpired_heavy s 1 = 2 ∧
      ¬ HeavyCapped one_heavy s := by
  have hsome : (((coordinator one_heavy fun _ => none).run {} at_once).map
      fun s => unexpired_heavy s 1) = some 2 := by decide
  obtain ⟨s, hrun, hcount⟩ := Option.map_eq_some_iff.mp hsome
  refine ⟨s, ⟨{}, ⟨rfl, fun _ => rfl⟩, hrun⟩, hcount, fun hcapped => ?_⟩
  have hle : unexpired_heavy s 1 ≤ 1 := hcapped 1
  omega

/-- No other request has committed a heavy lease since this one selected. -/
def alone (s : State) : Label → Bool
  | .commit a =>
    match s.transactions a with
    | some t => t.grants == 0 || t.since == 0
    | none => true
  | _ => true

/-- A request that was alone has the room its select found. -/
theorem has_room_of_alone (h : Inv settings s) {l : Label} (hl : alone s l = true) : has_room settings s l = true := by
  unfold alone at hl
  unfold has_room
  cases l with
  | commit a =>
      dsimp only at hl ⊢
      cases hopen : s.transactions a with
      | none => rfl
      | some t =>
          rw [hopen] at hl
          dsimp only at hl ⊢
          rw [Bool.or_eq_true, beq_iff_eq, beq_iff_eq] at hl
          rw [Bool.or_eq_true, beq_iff_eq, decide_eq_true_eq]
          have hchecked := (h.sound a t hopen).checked
          omega
  | request a host_id moment => rfl
  | report a host_id entries_seen moment => rfl
  | next a => rfl
  | rollback a => rfl

/-- **Requests one at a time.** A run stays under the cap when no heavy lease is committed
between the select of a request and the commit of its own heavy lease. -/
theorem alone_capped (htrace : ((coordinator settings hosts).guard alone).Trace tr s) : HeavyCapped settings s := by
  exact (Inv.of_guard (fun _ _ hinv halone => has_room_of_alone hinv halone) htrace).heavy_capped

theorem alone_capped_in_turn : ∃ s, unexpired_heavy s 9 = 1 ∧ HeavyCapped one_heavy s := by
  have hsome : ((((coordinator one_heavy fun _ => none).guard alone).run {} in_turn).map
      fun s => unexpired_heavy s 9) = some 1 := by decide
  obtain ⟨s, hrun, hcount⟩ := Option.map_eq_some_iff.mp hsome
  exact ⟨s, hcount, alone_capped ⟨{}, ⟨rfl, fun _ => rfl⟩, hrun⟩⟩

end Fathom.Scan
