/-
**A pool of workers** on one queue of jobs.

A job is expanded into what it yields and the jobs it asks for, or raises. A worker takes a
job, expands it, hands over what it yields through a queue of bounded length, and only
then queues what it asks for and counts the job as done. What raises is counted as done
too, and takes its worker along. When no job is left uncounted a closer marks the end of
the yields, and whoever consumes them stops at the mark.

Who moves next is not determined. Every run is finite, whatever raises
(`length_le_energy`). A run comes to the mark, or it stops where all workers have died and
jobs wait (`settled_cases`). What is consumed at the mark is what the jobs yield that did
not raise (`consumed_at_end`). With any number of workers, one at the least, it comes to
the mark and loses nothing exactly when no job raises, breadth first, but the last one,
and that one had nothing to yield (`exact_iff`).
-/
import Fathom.Lib.System
import Mathlib.Algebra.BigOperators.Group.List.Basic
import Mathlib.Algebra.Order.BigOperators.Group.List
import Mathlib.Data.List.ReduceOption
import Mathlib.Algebra.Order.Monoid.Canonical.Defs
import Mathlib.Algebra.Order.Group.Nat
import Mathlib.Data.Multiset.OrderedMonoid
import Mathlib.Tactic.Abel

set_option autoImplicit false

namespace Fathom.Pool

variable {Job Out : Type}

/-! ## States and steps -/

/-- What a worker is at. -/
inductive Worker (Job Out : Type) where
  | idle
  | expanding (j : Job)
  /-- what is still to hand over, and what is queued after it -/
  | handing (outs : List Out) (subs : List Job)
  | dead
  deriving DecidableEq

/-- What the closer is at. -/
inductive Closer where
  | joining
  | closing
  | closed
  deriving DecidableEq

structure State (Job Out : Type) where
  work : List Job
  /-- the jobs that have been queued and not been counted as done -/
  unfinished : ℕ
  workers : List (Worker Job Out)
  /-- `none` is the mark -/
  results : List (Option Out)
  closer : Closer
  consumed : List Out
  ended : Bool
  deriving DecidableEq

/-- Who moves, a worker by its place. -/
inductive Move where
  | take (i : ℕ)
  | expand (i : ℕ)
  | put (i : ℕ)
  | finish (i : ℕ)
  | join
  | close
  | get
  deriving DecidableEq

section

variable (expand : Job → Option (List Out × List Job)) (cap : ℕ)

/-- One move, where it is possible. -/
def step (s : State Job Out) : Move → Option (State Job Out)
  | .take i =>
    match s.workers[i]?, s.work with
    | some .idle, j :: rest => some { s with work := rest, workers := s.workers.set i (.expanding j) }
    | _, _ => none
  | .expand i =>
    match s.workers[i]? with
    | some (.expanding j) =>
      match expand j with
      | some (outs, subs) => some { s with workers := s.workers.set i (.handing outs subs) }
      | none => some { s with unfinished := s.unfinished - 1, workers := s.workers.set i .dead }
    | _ => none
  | .put i =>
    match s.workers[i]? with
    | some (.handing (out :: outs) subs) =>
      if s.results.length < cap then
        some { s with results := s.results ++ [some out], workers := s.workers.set i (.handing outs subs) }
      else none
    | _ => none
  | .finish i =>
    match s.workers[i]? with
    | some (.handing [] subs) =>
      some { s with
        work := s.work ++ subs
        unfinished := s.unfinished + subs.length - 1
        workers := s.workers.set i .idle }
    | _ => none
  | .join => if s.closer = .joining ∧ s.unfinished = 0 then some { s with closer := .closing } else none
  | .close =>
    if s.closer = .closing ∧ s.results.length < cap then
      some { s with closer := .closed, results := s.results ++ [none] }
    else none
  | .get =>
    if s.ended then none
    else
      match s.results with
      | some out :: rest => some { s with results := rest, consumed := s.consumed ++ [out] }
      | none :: rest => some { s with results := rest, ended := true }
      | [] => none

/-- Where a number of idle workers begin, some of the yields having been consumed before. -/
def start (workers : ℕ) (jobs : List Job) (before : List Out) : State Job Out where
  work := jobs
  unfinished := jobs.length
  workers := List.replicate workers .idle
  results := []
  closer := .joining
  consumed := before
  ended := false

/-- The pool, as a system. -/
def pool (workers : ℕ) (jobs : List Job) (before : List Out) : System (State Job Out) Move where
  init s := s = start workers jobs before
  step := step expand cap

/-- No move is possible. -/
def Settled (s : State Job Out) : Prop := ∀ m, step expand cap s m = none

end

variable {expand : Job → Option (List Out × List Job)} {cap : ℕ} {s t : State Job Out}

/-- What one move does. -/
inductive Moved (expand : Job → Option (List Out × List Job)) (cap : ℕ) (s : State Job Out) : State Job Out → Prop
  | take {i : ℕ} {j : Job} {rest : List Job} (hworker : s.workers[i]? = some .idle) (hwork : s.work = j :: rest) :
      Moved expand cap s { s with work := rest, workers := s.workers.set i (.expanding j) }
  | expanded {i : ℕ} {j : Job} {outs : List Out} {subs : List Job} (hworker : s.workers[i]? = some (.expanding j))
      (hexpand : expand j = some (outs, subs)) :
      Moved expand cap s { s with workers := s.workers.set i (.handing outs subs) }
  | raised {i : ℕ} {j : Job} (hworker : s.workers[i]? = some (.expanding j)) (hexpand : expand j = none) :
      Moved expand cap s { s with unfinished := s.unfinished - 1, workers := s.workers.set i .dead }
  | put {i : ℕ} {out : Out} {outs : List Out} {subs : List Job}
      (hworker : s.workers[i]? = some (.handing (out :: outs) subs)) (hroom : s.results.length < cap) :
      Moved expand cap s
        { s with results := s.results ++ [some out], workers := s.workers.set i (.handing outs subs) }
  | finish {i : ℕ} {subs : List Job} (hworker : s.workers[i]? = some (.handing [] subs)) :
      Moved expand cap s
        { s with
          work := s.work ++ subs
          unfinished := s.unfinished + subs.length - 1
          workers := s.workers.set i .idle }
  | join (hcloser : s.closer = .joining) (hdone : s.unfinished = 0) : Moved expand cap s { s with closer := .closing }
  | close (hcloser : s.closer = .closing) (hroom : s.results.length < cap) :
      Moved expand cap s { s with closer := .closed, results := s.results ++ [none] }
  | get {out : Out} {rest : List (Option Out)} (hended : s.ended = false) (hresults : s.results = some out :: rest) :
      Moved expand cap s { s with results := rest, consumed := s.consumed ++ [out] }
  | stop {rest : List (Option Out)} (hended : s.ended = false) (hresults : s.results = none :: rest) :
      Moved expand cap s { s with results := rest, ended := true }

theorem moved {m : Move} (h : step expand cap s m = some t) : Moved expand cap s t := by
  cases m with
  | take i =>
      simp only [step] at h
      split at h
      · rename_i j rest hworker hwork
        exact Option.some.inj h ▸ .take hworker hwork
      · exact absurd h (by simp)
  | expand i =>
      simp only [step] at h
      split at h
      · rename_i j hworker
        split at h
        · rename_i outs subs hexpand
          exact Option.some.inj h ▸ .expanded hworker hexpand
        · rename_i hexpand
          exact Option.some.inj h ▸ .raised hworker hexpand
      · exact absurd h (by simp)
  | put i =>
      simp only [step] at h
      split at h
      · rename_i out outs subs hworker
        split_ifs at h with hroom
        exact Option.some.inj h ▸ .put hworker hroom
      · exact absurd h (by simp)
  | finish i =>
      simp only [step] at h
      split at h
      · rename_i subs hworker
        exact Option.some.inj h ▸ .finish hworker
      · exact absurd h (by simp)
  | join =>
      simp only [step] at h
      split_ifs at h with hjoin
      exact Option.some.inj h ▸ .join hjoin.1 hjoin.2
  | close =>
      simp only [step] at h
      split_ifs at h with hclose
      exact Option.some.inj h ▸ .close hclose.1 hclose.2
  | get =>
      simp only [step] at h
      split_ifs at h with hended
      split at h
      · rename_i out rest hresults
        exact Option.some.inj h ▸ .get (Bool.eq_false_iff.mpr hended) hresults
      · rename_i rest hresults
        exact Option.some.inj h ▸ .stop (Bool.eq_false_iff.mpr hended) hresults
      · exact absurd h (by simp)

/-! ## Jobs beneath jobs -/

section

variable (expand)

/-- What a job yields. -/
def yields (j : Job) : List Out :=
  match expand j with
  | some (outs, _) => outs
  | none => []

/-- The jobs a job asks for. -/
def asked (j : Job) : List Job :=
  match expand j with
  | some (_, subs) => subs
  | none => []

/-- The jobs are finite: each is larger than what it yields and asks for. -/
structure Shrinks (size : Job → ℕ) : Prop where
  shrinks : ∀ j outs subs, expand j = some (outs, subs) → outs.length + (subs.map size).sum < size j
  pos : ∀ j, 0 < size j

end

variable {M : Type} [AddCommMonoid M] {size : Job → ℕ}

/-- The sum over a job and all that it comes to ask for, so many generations of it. -/
def sum_below (expand : Job → Option (List Out × List Job)) (g : Job → M) : ℕ → Job → M
  | 0, _ => 0
  | fuel + 1, j => g j + ((asked expand j).map (sum_below expand g fuel)).sum

/-- The sum over a job and all that it comes to ask for. -/
def total (expand : Job → Option (List Out × List Job)) (size : Job → ℕ) (g : Job → M) (j : Job) : M :=
  sum_below expand g (size j) j

theorem Shrinks.asked_lt (h : Shrinks expand size) (j : Job) : ((asked expand j).map size).sum < size j := by
  rw [asked]
  split
  · rename_i outs subs hexpand
    have hlt := h.shrinks j outs subs hexpand
    omega
  · exact h.pos j

theorem Shrinks.asked_size (h : Shrinks expand size) {j k : Job} (hk : k ∈ asked expand j) : size k < size j := by
  have hle := List.le_sum_of_mem (List.mem_map_of_mem (f := size) hk)
  have hlt := h.asked_lt j
  omega

/-- Generations enough are all generations. -/
theorem Shrinks.sum_below_eq (h : Shrinks expand size) (g : Job → M) {n m : ℕ} {j : Job} (hn : size j ≤ n)
    (hm : size j ≤ m) : sum_below expand g n j = sum_below expand g m j := by
  induction n generalizing m j with
  | zero =>
      have hpos := h.pos j
      omega
  | succ n ih =>
      obtain ⟨m, rfl⟩ : ∃ k, m = k + 1 := ⟨m - 1, by have hpos := h.pos j; omega⟩
      rw [sum_below, sum_below]
      refine congrArg (g j + ·) (congrArg List.sum (List.map_congr_left fun k hk => ?_))
      have hlt := h.asked_size hk
      exact ih (by omega) (by omega)

theorem Shrinks.total_eq (h : Shrinks expand size) (g : Job → M) (j : Job) :
    total expand size g j = g j + ((asked expand j).map (total expand size g)).sum := by
  have hpos := h.pos j
  rw [total, show size j = (size j - 1) + 1 by omega, sum_below]
  refine congrArg (g j + ·) (congrArg List.sum (List.map_congr_left fun k hk => ?_))
  have hlt := h.asked_size hk
  exact h.sum_below_eq g (by omega) (Nat.le_refl _)

/-- Jobs and what they come to ask for, breadth first. -/
def breadth_first (asked : Job → List Job) : ℕ → List Job → List Job
  | 0, _ => []
  | _ + 1, [] => []
  | fuel + 1, j :: rest => j :: breadth_first asked fuel (rest ++ asked j)

/-- What holds of the jobs and is handed on holds of all that come up. -/
theorem breadth_first_all {asked : Job → List Job} {P : Job → Prop} (hasked : ∀ j, P j → ∀ k ∈ asked j, P k) {fuel : ℕ}
    {jobs : List Job} (h : ∀ j ∈ jobs, P j) : ∀ j ∈ breadth_first asked fuel jobs, P j := by
  induction fuel generalizing jobs with
  | zero => exact fun j hj => absurd hj List.not_mem_nil
  | succ fuel ih =>
      cases jobs with
      | nil => exact fun j hj => absurd hj List.not_mem_nil
      | cons j rest =>
          rw [breadth_first, List.forall_mem_cons]
          refine ⟨h j List.mem_cons_self, ih fun k hk => ?_⟩
          rcases List.mem_append.mp hk with hrest | hsub
          · exact h k (List.mem_cons_of_mem _ hrest)
          · exact hasked j (h j List.mem_cons_self) k hsub

theorem Shrinks.eq_nil (h : Shrinks expand size) {jobs : List Job} (hsum : (jobs.map size).sum ≤ 0) : jobs = [] := by
  cases jobs with
  | nil => rfl
  | cons j rest =>
      have hpos := h.pos j
      rw [List.map_cons, List.sum_cons] at hsum
      omega

/-- What is left after the first job is smaller. -/
theorem Shrinks.next_le (h : Shrinks expand size) {j : Job} {rest : List Job} {fuel : ℕ}
    (hsum : ((j :: rest).map size).sum ≤ fuel + 1) : ((rest ++ asked expand j).map size).sum ≤ fuel := by
  have hlt := h.asked_lt j
  rw [List.map_cons, List.sum_cons] at hsum
  rw [List.map_append, List.sum_append]
  omega

/-- A sum over all jobs, breadth first or each with what it comes to ask for. -/
theorem Shrinks.sum_breadth_first (h : Shrinks expand size) (g : Job → M) {fuel : ℕ} {jobs : List Job}
    (hsum : (jobs.map size).sum ≤ fuel) :
    ((breadth_first (asked expand) fuel jobs).map g).sum = (jobs.map (total expand size g)).sum := by
  induction fuel generalizing jobs with
  | zero => rw [h.eq_nil hsum, breadth_first, List.map_nil, List.map_nil]
  | succ fuel ih =>
      cases jobs with
      | nil => rw [breadth_first, List.map_nil, List.map_nil]
      | cons j rest =>
          rw [breadth_first, List.map_cons, List.sum_cons, ih (h.next_le hsum), List.map_append, List.sum_append,
            List.map_cons, List.sum_cons, h.total_eq g j]
          abel

/-! ## Sums over the workers -/

/-- One worker goes over to something else. -/
theorem sum_set {ws : List (Worker Job Out)} {i : ℕ} {w : Worker Job Out} (f : Worker Job Out → M)
    (w' : Worker Job Out) (h : ws[i]? = some w) : ((ws.set i w').map f).sum + f w = (ws.map f).sum + f w' := by
  induction ws generalizing i with
  | nil => exact absurd h (by simp)
  | cons w₀ ws ih =>
      cases i with
      | zero =>
          rw [List.getElem?_cons_zero, Option.some.injEq] at h
          rw [List.set_cons_zero, List.map_cons, List.map_cons, List.sum_cons, List.sum_cons, h]
          abel
      | succ i =>
          rw [List.getElem?_cons_succ] at h
          rw [List.set_cons_succ, List.map_cons, List.map_cons, List.sum_cons, List.sum_cons, add_assoc, ih h]
          abel

/-! ## Every run is finite -/

section

variable (size)

/-- The moves a worker has before it. -/
def Worker.energy : Worker Job Out → ℕ
  | .idle => 0
  | .expanding j => 3 * size j - 1
  | .handing outs subs => 2 * outs.length + 3 * (subs.map size).sum + 1
  | .dead => 0

def Closer.energy : Closer → ℕ
  | .joining => 3
  | .closing => 2
  | .closed => 0

/-- A bound on the moves that are to come. -/
def energy (s : State Job Out) : ℕ :=
  3 * (s.work.map size).sum + (s.workers.map (Worker.energy size)).sum + s.results.length + s.closer.energy

end

theorem Moved.energy_lt (hsize : Shrinks expand size) (h : Moved expand cap s t) : energy size t < energy size s := by
  rw [energy, energy]
  cases h with
  | @take i j rest hworker hwork =>
      have hset := sum_set (Worker.energy size) (.expanding j) hworker
      have hpos := hsize.pos j
      rw [hwork, List.map_cons, List.sum_cons]
      simp only [Worker.energy] at hset ⊢
      omega
  | @expanded i j outs subs hworker hexpand =>
      have hset := sum_set (Worker.energy size) (.handing outs subs) hworker
      have hlt := hsize.shrinks j outs subs hexpand
      simp only [Worker.energy] at hset ⊢
      omega
  | @raised i j hworker hexpand =>
      have hset := sum_set (Worker.energy size) .dead hworker
      have hpos := hsize.pos j
      simp only [Worker.energy] at hset ⊢
      omega
  | @put i out outs subs hworker hroom =>
      have hset := sum_set (Worker.energy size) (.handing outs subs) hworker
      simp only [Worker.energy, List.length_cons, List.length_append, List.length_nil] at hset ⊢
      omega
  | @finish i subs hworker =>
      have hset := sum_set (Worker.energy size) .idle hworker
      simp only [Worker.energy, List.length_nil, List.map_append, List.sum_append] at hset ⊢
      omega
  | join hcloser hdone =>
      simp only [hcloser, Closer.energy]
      omega
  | close hcloser hroom =>
      simp only [hcloser, Closer.energy, List.length_append, List.length_cons, List.length_nil]
      omega
  | get hended hresults =>
      simp only [hresults, List.length_cons]
      omega
  | stop hended hresults =>
      simp only [hresults, List.length_cons]
      omega

/-- **Every run is finite**, whatever raises. -/
theorem length_le_energy {workers : ℕ} {jobs : List Job} {before : List Out} (hsize : Shrinks expand size)
    {tr : List Move} (h : (pool expand cap workers jobs before).run s tr = some t) :
    tr.length + energy size t ≤ energy size s := by
  induction tr generalizing s with
  | nil =>
      rw [System.run_nil, Option.some.injEq] at h
      rw [h, List.length_nil, Nat.zero_add]
  | cons m tr ih =>
      rw [System.run_cons, Option.bind_eq_some_iff] at h
      obtain ⟨u, hstep, hrun⟩ := h
      have hlt := (moved hstep).energy_lt hsize
      have hle := ih hrun
      rw [List.length_cons]
      omega

/-- So one can always go on to where no move is possible. -/
theorem exists_settled {workers : ℕ} {jobs : List Job} {before : List Out} (hsize : Shrinks expand size)
    (s : State Job Out) : ∃ tr t, (pool expand cap workers jobs before).run s tr = some t ∧ Settled expand cap t := by
  induction hn : energy size s using Nat.strong_induction_on generalizing s with
  | _ n ih =>
      by_cases hsettled : Settled expand cap s
      · exact ⟨[], s, rfl, hsettled⟩
      · rw [Settled] at hsettled
        push Not at hsettled
        obtain ⟨m, hm⟩ := hsettled
        obtain ⟨u, hu⟩ := Option.ne_none_iff_exists'.mp hm
        have hlt := (moved hu).energy_lt hsize
        obtain ⟨tr, t, hrun, ht⟩ := ih _ (hn ▸ hlt) u rfl
        refine ⟨m :: tr, t, ?_, ht⟩
        rw [System.run_cons, Option.bind_eq_some_iff]
        exact ⟨u, hu, hrun⟩

/-! ## What is kept -/

section

variable (expand size)

/-- What a job comes to yield. -/
def produce (j : Job) : Multiset Out := total expand size (fun k => (yields expand k : Multiset Out)) j

/-- How many jobs come to raise. -/
def raises (j : Job) : ℕ := total expand size (fun k => if expand k = none then 1 else 0) j

/-- What a worker has still to hand over, with what it comes to ask for. -/
def Worker.held : Worker Job Out → Multiset Out
  | .idle => 0
  | .expanding j => produce expand size j
  | .handing outs subs => outs + (subs.map (produce expand size)).sum
  | .dead => 0

/-- What has been consumed and what will be, if nobody dies from now on. -/
def owed (s : State Job Out) : Multiset Out :=
  s.consumed + s.results.reduceOption + (s.workers.map (Worker.held expand size)).sum
    + (s.work.map (produce expand size)).sum

/-- What a worker costs: its life, or those that its jobs will cost. -/
def Worker.toll : Worker Job Out → ℕ
  | .idle => 0
  | .expanding j => raises expand size j
  | .handing _ subs => (subs.map (raises expand size)).sum
  | .dead => 1

/-- The workers that have died and those that will. -/
def toll (s : State Job Out) : ℕ :=
  (s.workers.map (Worker.toll expand size)).sum + (s.work.map (raises expand size)).sum

end

theorem Shrinks.produce_eq (h : Shrinks expand size) (j : Job) :
    produce expand size j = yields expand j + ((asked expand j).map (produce expand size)).sum := h.total_eq _ j

theorem Shrinks.raises_eq (h : Shrinks expand size) (j : Job) :
    raises expand size j = (if expand j = none then 1 else 0) + ((asked expand j).map (raises expand size)).sum :=
  h.total_eq _ j

/-- Nothing is lost or doubled, but what a job that raises would have yielded. -/
theorem Moved.owed_eq (hsize : Shrinks expand size) (h : Moved expand cap s t) :
    owed expand size t = owed expand size s := by
  rw [owed, owed]
  cases h with
  | @take i j rest hworker hwork =>
      have hset := sum_set (Worker.held expand size) (.expanding j) hworker
      simp only [Worker.held, add_zero] at hset
      rw [hwork, hset, List.map_cons, List.sum_cons]
      abel
  | @expanded i j outs subs hworker hexpand =>
      have hset := sum_set (Worker.held expand size) (.handing outs subs) hworker
      have hyields : yields expand j = outs := by rw [yields, hexpand]
      have hasked : asked expand j = subs := by rw [asked, hexpand]
      simp only [Worker.held, hsize.produce_eq j, hyields, hasked] at hset
      rw [add_right_cancel hset]
  | @raised i j hworker hexpand =>
      have hset := sum_set (Worker.held expand size) .dead hworker
      have hyields : yields expand j = [] := by rw [yields, hexpand]
      have hasked : asked expand j = [] := by rw [asked, hexpand]
      simp only [Worker.held, hsize.produce_eq j, hyields, hasked, List.map_nil, List.sum_nil, Multiset.coe_nil,
        add_zero] at hset
      rw [hset]
  | @put i out outs subs hworker hroom =>
      have hset := sum_set (Worker.held expand size) (.handing outs subs) hworker
      simp only [Worker.held, ← Multiset.cons_coe, ← Multiset.singleton_add, ← add_assoc] at hset
      have hcancel := add_right_cancel hset
      rw [List.reduceOption_append, List.reduceOption_singleton, Option.toList_some, ← Multiset.coe_add,
        Multiset.coe_singleton]
      have hmoved : ((s.workers.set i (.handing outs subs)).map (Worker.held expand size)).sum + {out}
          = (s.workers.map (Worker.held expand size)).sum := add_right_cancel hcancel
      rw [← hmoved]
      abel
  | @finish i subs hworker =>
      have hset := sum_set (Worker.held expand size) .idle hworker
      simp only [Worker.held, Multiset.coe_nil, zero_add, add_zero] at hset
      rw [← hset, List.map_append, List.sum_append]
      abel
  | join hcloser hdone => rfl
  | close hcloser hroom =>
      rw [List.reduceOption_append, List.reduceOption_singleton, Option.toList_none, List.append_nil]
  | @get out rest hended hresults =>
      rw [hresults, List.reduceOption_cons_of_some, ← Multiset.coe_add, ← Multiset.cons_coe out (List.reduceOption _),
        ← Multiset.singleton_add, Multiset.coe_singleton]
      abel
  | stop hended hresults => rw [hresults, List.reduceOption_cons_of_none]

/-- Each job that raises costs one worker. -/
theorem Moved.toll_eq (hsize : Shrinks expand size) (h : Moved expand cap s t) :
    toll expand size t = toll expand size s := by
  rw [toll, toll]
  cases h with
  | @take i j rest hworker hwork =>
      have hset := sum_set (Worker.toll expand size) (.expanding j) hworker
      simp only [Worker.toll] at hset ⊢
      rw [hwork, List.map_cons, List.sum_cons]
      omega
  | @expanded i j outs subs hworker hexpand =>
      have hset := sum_set (Worker.toll expand size) (.handing outs subs) hworker
      have hasked : asked expand j = subs := by rw [asked, hexpand]
      simp only [Worker.toll, hsize.raises_eq j, hasked, hexpand, reduceCtorEq, if_false] at hset ⊢
      omega
  | @raised i j hworker hexpand =>
      have hset := sum_set (Worker.toll expand size) .dead hworker
      have hasked : asked expand j = [] := by rw [asked, hexpand]
      simp only [Worker.toll, hsize.raises_eq j, hasked, hexpand, if_true, List.map_nil, List.sum_nil] at hset ⊢
      omega
  | @put i out outs subs hworker hroom =>
      have hset := sum_set (Worker.toll expand size) (.handing outs subs) hworker
      simp only [Worker.toll] at hset ⊢
      omega
  | @finish i subs hworker =>
      have hset := sum_set (Worker.toll expand size) .idle hworker
      simp only [Worker.toll] at hset ⊢
      rw [List.map_append, List.sum_append]
      omega
  | join hcloser hdone => rfl
  | close hcloser hroom => rfl
  | get hended hresults => rfl
  | stop hended hresults => rfl

/-! ## The count and the mark -/

/-- Whether a worker has a job that has not been counted as done. -/
def Worker.load : Worker Job Out → ℕ
  | .expanding _ => 1
  | .handing _ _ => 1
  | _ => 0

/-- The mark, while it is in the queue. -/
def State.mark (s : State Job Out) : List (Option Out) := if s.closer = .closed ∧ s.ended = false then [none] else []

/-- The count is that of the jobs queued or worked at, and nothing comes after the mark. -/
structure Sound (s : State Job Out) : Prop where
  counted : s.unfinished = s.work.length + (s.workers.map Worker.load).sum
  closing : s.closer ≠ .joining → s.unfinished = 0
  marked : ∃ outs : List Out, s.results = outs.map some ++ s.mark
  finished : s.ended = true → s.closer = .closed ∧ s.results = []

theorem sound_start (workers : ℕ) (jobs : List Job) (before : List Out) : Sound (start workers jobs before) := by
  refine ⟨?_, fun h => absurd rfl h, ⟨[], rfl⟩, fun h => absurd h (by simp [start])⟩
  rw [start, List.map_replicate, List.sum_replicate]
  simp [Worker.load]

/-- While a worker has a job, the closer waits. -/
theorem Sound.joining (h : Sound s) {i : ℕ} {w : Worker Job Out} (hworker : s.workers[i]? = some w)
    (hload : w.load = 1) : 0 < s.unfinished ∧ s.closer = .joining := by
  have hset := sum_set Worker.load .idle hworker
  have hcounted := h.counted
  have hpos : 0 < s.unfinished := by
    rw [hload, show (Worker.idle : Worker Job Out).load = 0 from rfl] at hset
    omega
  refine ⟨hpos, ?_⟩
  by_contra hne
  have hzero := h.closing hne
  omega

theorem Moved.sound (hsound : Sound s) (h : Moved expand cap s t) : Sound t := by
  have hcounted := hsound.counted
  obtain ⟨outs₀, hmarked⟩ := hsound.marked
  cases h with
  | @take i j rest hworker hwork =>
      have hset := sum_set Worker.load (.expanding j) hworker
      refine ⟨?_, hsound.closing, ⟨outs₀, hmarked⟩, hsound.finished⟩
      rw [hwork, List.length_cons] at hcounted
      simp only [Worker.load] at hset ⊢
      omega
  | @expanded i j outs subs hworker hexpand =>
      have hset := sum_set Worker.load (.handing outs subs) hworker
      refine ⟨?_, hsound.closing, ⟨outs₀, hmarked⟩, hsound.finished⟩
      simp only [Worker.load] at hset ⊢
      omega
  | @raised i j hworker hexpand =>
      have hset := sum_set Worker.load .dead hworker
      obtain ⟨hpos, hjoining⟩ := hsound.joining hworker rfl
      refine ⟨?_, fun hne => absurd hjoining hne, ⟨outs₀, hmarked⟩, hsound.finished⟩
      simp only [Worker.load] at hset ⊢
      omega
  | @put i out outs subs hworker hroom =>
      have hset := sum_set Worker.load (.handing outs subs) hworker
      obtain ⟨hpos, hjoining⟩ := hsound.joining hworker rfl
      have hmark : s.mark = [] := by
        rw [State.mark, hjoining, if_neg]
        exact fun hclosed => absurd hclosed.1 (by decide)
      refine ⟨?_, hsound.closing, ⟨outs₀ ++ [out], ?_⟩, fun hended => ?_⟩
      · simp only [Worker.load] at hset ⊢
        omega
      · rw [State.mark, hjoining, if_neg fun hclosed => absurd hclosed.1 (by decide), List.append_nil, hmarked, hmark,
          List.append_nil, List.map_append, List.map_singleton]
      · exact absurd (hjoining ▸ (hsound.finished hended).1) (by decide)
  | @finish i subs hworker =>
      have hset := sum_set Worker.load .idle hworker
      obtain ⟨hpos, hjoining⟩ := hsound.joining hworker rfl
      refine ⟨?_, fun hne => absurd hjoining hne, ⟨outs₀, hmarked⟩, hsound.finished⟩
      simp only [Worker.load] at hset ⊢
      rw [List.length_append]
      omega
  | join hcloser hdone =>
      have hmark : s.mark = [] := by
        rw [State.mark, hcloser, if_neg]
        exact fun hclosed => absurd hclosed.1 (by decide)
      refine ⟨hcounted, fun _ => hdone, ⟨outs₀, ?_⟩, fun hended => ?_⟩
      · rw [State.mark, if_neg fun hclosed => absurd hclosed.1 (by simp), hmarked, hmark]
      · exact absurd (hcloser ▸ (hsound.finished hended).1) (by decide)
  | close hcloser hroom =>
      have hdone : s.unfinished = 0 := hsound.closing (by rw [hcloser]; decide)
      have hended : s.ended = false := by
        by_contra hne
        exact absurd (hcloser ▸ (hsound.finished (Bool.eq_true_of_not_eq_false hne)).1) (by decide)
      have hmark : s.mark = [] := by
        rw [State.mark, hcloser, if_neg]
        exact fun hclosed => absurd hclosed.1 (by decide)
      refine ⟨hcounted, fun _ => hdone, ⟨outs₀, ?_⟩, fun htrue => absurd htrue (by simp [hended])⟩
      rw [State.mark, if_pos ⟨rfl, hended⟩, hmarked, hmark, List.append_nil]
  | @get out rest hended hresults =>
      refine ⟨hcounted, hsound.closing, ?_, fun htrue => absurd htrue (by simp [hended])⟩
      rw [hresults] at hmarked
      cases outs₀ with
      | nil =>
          -- the mark is no yield
          rw [List.map_nil, List.nil_append, State.mark] at hmarked
          split_ifs at hmarked
          exact absurd (List.cons.inj hmarked).1 (by simp)
      | cons out₀ outs₀ => exact ⟨outs₀, (List.cons.inj hmarked).2⟩
  | @stop rest hended hresults =>
      rw [hresults] at hmarked
      cases outs₀ with
      | nil =>
          rw [List.map_nil, List.nil_append, State.mark] at hmarked
          split_ifs at hmarked with hmark
          have hrest : rest = [] := (List.cons.inj hmarked).2
          refine ⟨hcounted, hsound.closing, ⟨[], ?_⟩, fun _ => ⟨hmark.1, hrest⟩⟩
          rw [State.mark, if_neg fun hclosed => absurd hclosed.2 (by simp), hrest]
          rfl
      | cons out₀ outs₀ => exact absurd (List.cons.inj hmarked).1 (by simp)

/-! ## Where a run stops -/

/-- Where nothing is left uncounted, no worker has a job. -/
theorem Sound.unloaded (h : Sound s) (hdone : s.unfinished = 0) :
    s.work = [] ∧ ∀ w ∈ s.workers, w = .idle ∨ w = .dead := by
  have hcounted := h.counted
  refine ⟨List.length_eq_zero_iff.mp (by omega), fun w hw => ?_⟩
  have hle := List.le_sum_of_mem (List.mem_map_of_mem (f := Worker.load) hw)
  cases w with
  | idle => exact Or.inl rfl
  | dead => exact Or.inr rfl
  | expanding j =>
      simp only [Worker.load] at hle
      omega
  | handing outs subs =>
      simp only [Worker.load] at hle
      omega

/-- **Where a run stops**: at the mark, or where all workers have died and jobs wait. -/
theorem settled_cases (hcap : 0 < cap) (hsound : Sound s) (h : Settled expand cap s) :
    s.ended = true ∨ (s.work ≠ [] ∧ ∀ w ∈ s.workers, w = .dead) := by
  by_cases hended : s.ended = true
  · exact Or.inl hended
  right
  -- whoever consumes waits, so there is room
  have hresults : s.results = [] := by
    have hget := h .get
    rw [step, if_neg hended] at hget
    cases hr : s.results with
    | nil => rfl
    | cons r rest => cases r <;> simp [hr] at hget
  have hroom : s.results.length < cap := by
    rw [hresults]
    exact hcap
  have hjoining : s.closer = .joining := by
    cases hcloser : s.closer with
    | joining => rfl
    | closing =>
        have hclose := h .close
        rw [step, if_pos ⟨hcloser, hroom⟩] at hclose
        exact absurd hclose (by simp)
    | closed =>
        obtain ⟨outs, hmarked⟩ := hsound.marked
        rw [State.mark, if_pos ⟨hcloser, Bool.eq_false_iff.mpr hended⟩, hresults] at hmarked
        exact absurd hmarked (by simp)
  have hleft : s.unfinished ≠ 0 := by
    intro hdone
    have hjoin := h .join
    rw [step, if_pos ⟨hjoining, hdone⟩] at hjoin
    exact absurd hjoin (by simp)
  -- a worker with a job could go on
  have hlazy : ∀ w ∈ s.workers, w = .idle ∨ w = .dead := by
    intro w hw
    obtain ⟨i, hi⟩ := List.mem_iff_getElem?.mp hw
    cases w with
    | idle => exact Or.inl rfl
    | dead => exact Or.inr rfl
    | expanding j =>
        have hexpand := h (.expand i)
        rw [step, hi] at hexpand
        cases he : expand j with
        | none => simp [he] at hexpand
        | some pair => simp [he] at hexpand
    | handing outs subs =>
        cases outs with
        | nil =>
            have hfinish := h (.finish i)
            rw [step, hi] at hfinish
            exact absurd hfinish (by simp)
        | cons out outs =>
            have hput := h (.put i)
            rw [step, hi] at hput
            simp [hroom] at hput
  have hwork : s.work ≠ [] := by
    intro hnil
    have hzero : (s.workers.map Worker.load).sum = 0 := by
      refine List.sum_eq_zero fun n hn => ?_
      obtain ⟨w, hw, rfl⟩ := List.mem_map.mp hn
      rcases hlazy w hw with rfl | rfl
      · rfl
      · rfl
    have hcounted := hsound.counted
    rw [hnil, hzero] at hcounted
    exact hleft hcounted
  refine ⟨hwork, fun w hw => ?_⟩
  rcases hlazy w hw with rfl | hdead
  · obtain ⟨i, hi⟩ := List.mem_iff_getElem?.mp hw
    obtain ⟨j, rest, hj⟩ := List.exists_cons_of_ne_nil hwork
    have htake := h (.take i)
    rw [step, hi, hj] at htake
    exact absurd htake (by simp)
  · exact hdead

/-- Where all workers have died and jobs are uncounted, nobody moves again. -/
theorem settled_of_dead (hworkers : ∀ w ∈ s.workers, w = .dead) (hleft : s.unfinished ≠ 0) (hcloser : s.closer = .joining)
    (hresults : s.results = []) : Settled expand cap s := by
  have hdead : ∀ i : ℕ, s.workers[i]? = none ∨ s.workers[i]? = some (.dead : Worker Job Out) := by
    intro i
    cases hi : s.workers[i]? with
    | none => exact Or.inl rfl
    | some w => exact Or.inr (congrArg some (hworkers w (List.mem_of_getElem? hi)))
  intro m
  cases m with
  | take i => rcases hdead i with hi | hi <;> simp [step, hi]
  | expand i => rcases hdead i with hi | hi <;> simp [step, hi]
  | put i => rcases hdead i with hi | hi <;> simp [step, hi]
  | finish i => rcases hdead i with hi | hi <;> simp [step, hi]
  | join => simp [step, hleft]
  | close => simp [step, hcloser]
  | get => simp [step, hresults]

/-- **At the mark** all that was owed has been consumed. -/
theorem consumed_at_end (expand : Job → Option (List Out × List Job)) (size : Job → ℕ) (hsound : Sound s)
    (hended : s.ended = true) : (s.consumed : Multiset Out) = owed expand size s := by
  obtain ⟨hclosed, hresults⟩ := hsound.finished hended
  obtain ⟨hwork, hworkers⟩ := hsound.unloaded (hsound.closing (by rw [hclosed]; decide))
  have hheld : (s.workers.map (Worker.held expand size)).sum = 0 := by
    refine List.sum_eq_zero fun m hm => ?_
    obtain ⟨w, hw, rfl⟩ := List.mem_map.mp hm
    rcases hworkers w hw with rfl | rfl
    · rfl
    · rfl
  rw [owed, hresults, hwork, hheld, List.reduceOption_nil, List.map_nil, List.sum_nil, Multiset.coe_nil, add_zero,
    add_zero, add_zero]

section

variable {workers : ℕ} {jobs : List Job} {before : List Out}

theorem sound_of_trace {tr : List Move} (h : (pool expand cap workers jobs before).Trace tr s) : Sound s := by
  refine h.invariant (I := Sound) ?_ ?_
  · rintro _ rfl
    exact sound_start workers jobs before
  · exact fun s m t hs hstep => (moved hstep).sound hs

theorem owed_of_trace (hsize : Shrinks expand size) {tr : List Move}
    (h : (pool expand cap workers jobs before).Trace tr s) :
    owed expand size s = before + (jobs.map (produce expand size)).sum := by
  refine h.invariant (I := fun s => owed expand size s = before + (jobs.map (produce expand size)).sum) ?_ ?_
  · rintro _ rfl
    rw [owed, start, List.map_replicate, List.sum_replicate, Worker.held, nsmul_zero, add_zero, List.reduceOption_nil,
      Multiset.coe_nil, add_zero]
  · exact fun s m t hs hstep => ((moved hstep).owed_eq hsize).trans hs

theorem toll_of_trace (hsize : Shrinks expand size) {tr : List Move}
    (h : (pool expand cap workers jobs before).Trace tr s) :
    toll expand size s = (jobs.map (raises expand size)).sum := by
  refine h.invariant (I := fun s => toll expand size s = (jobs.map (raises expand size)).sum) ?_ ?_
  · rintro _ rfl
    rw [toll, start, List.map_replicate, List.sum_replicate, Worker.toll, nsmul_zero, zero_add]
  · exact fun s m t hs hstep => ((moved hstep).toll_eq hsize).trans hs

theorem length_of_trace {tr : List Move} (h : (pool expand cap workers jobs before).Trace tr s) :
    s.workers.length = workers := by
  refine h.invariant (I := fun s => s.workers.length = workers) ?_ ?_
  · rintro _ rfl
    rw [start, List.length_replicate]
  · intro s m t hs hstep
    cases moved hstep with
    | join => exact hs
    | close => exact hs
    | get => exact hs
    | stop => exact hs
    | _ => rw [List.length_set, hs]

end

/-! ## One worker alone -/

/-- One worker gets through a queue: what raises is its last job. -/
inductive Through (expand : Job → Option (List Out × List Job)) : List Job → Prop
  | nil : Through expand []
  | last {j : Job} (hexpand : expand j = none) : Through expand [j]
  | next {j : Job} {rest subs : List Job} {outs : List Out} (hexpand : expand j = some (outs, subs))
      (hrest : Through expand (rest ++ subs)) : Through expand (j :: rest)

theorem through_of_none {j : Job} {rest : List Job} (hexpand : expand j = none) :
    Through expand (j :: rest) ↔ rest = [] := by
  constructor
  · intro h
    cases h with
    | last => rfl
    | next hj hrest => exact absurd (hexpand.symm.trans hj) (by simp)
  · rintro rfl
    exact .last hexpand

theorem through_of_some {j : Job} {rest subs : List Job} {outs : List Out} (hexpand : expand j = some (outs, subs)) :
    Through expand (j :: rest) ↔ Through expand (rest ++ subs) := by
  refine ⟨fun h => ?_, .next hexpand⟩
  cases h with
  | last hj => exact absurd (hexpand.symm.trans hj) (by simp)
  | next hj hrest =>
      rw [hexpand, Option.some.injEq, Prod.mk.injEq] at hj
      rw [hj.2]
      exact hrest

theorem Shrinks.breadth_first_nil_iff (h : Shrinks expand size) {fuel : ℕ} {jobs : List Job}
    (hsum : (jobs.map size).sum ≤ fuel) : breadth_first (asked expand) fuel jobs = [] ↔ jobs = [] := by
  cases fuel with
  | zero => exact ⟨fun _ => h.eq_nil hsum, fun _ => rfl⟩
  | succ fuel =>
      cases jobs with
      | nil => exact ⟨fun _ => rfl, fun _ => rfl⟩
      | cons j rest =>
          rw [breadth_first]
          exact ⟨fun hnil => absurd hnil (by simp), fun hnil => absurd hnil (by simp)⟩

theorem Shrinks.through_iff (h : Shrinks expand size) {fuel : ℕ} {jobs : List Job} (hsum : (jobs.map size).sum ≤ fuel) :
    Through expand jobs ↔ ∀ j ∈ (breadth_first (asked expand) fuel jobs).dropLast, expand j ≠ none := by
  induction fuel generalizing jobs with
  | zero =>
      rw [h.eq_nil hsum]
      exact ⟨fun _ j hj => absurd hj List.not_mem_nil, fun _ => .nil⟩
  | succ fuel ih =>
      cases jobs with
      | nil => exact ⟨fun _ j hj => absurd hj List.not_mem_nil, fun _ => .nil⟩
      | cons j rest =>
          have hle := h.next_le hsum
          rw [breadth_first]
          cases hexpand : expand j with
          | none =>
              have hasked : asked expand j = [] := by rw [asked, hexpand]
              rw [hasked, List.append_nil] at hle ⊢
              have hnil := h.breadth_first_nil_iff hle
              rw [through_of_none hexpand]
              constructor
              · intro hrest
                rw [hnil.mpr hrest]
                exact fun k hk => absurd hk List.not_mem_nil
              · intro hall
                by_contra hne
                rw [List.dropLast_cons_of_ne_nil fun heq => hne (hnil.mp heq)] at hall
                exact hall j List.mem_cons_self hexpand
          | some pair =>
              obtain ⟨outs, subs⟩ := pair
              have hasked : asked expand j = subs := by rw [asked, hexpand]
              rw [hasked] at hle ⊢
              rw [through_of_some hexpand, ih hle]
              by_cases hnil : breadth_first (asked expand) fuel (rest ++ subs) = []
              · rw [hnil]
                exact ⟨fun _ k hk => absurd hk List.not_mem_nil, fun _ k hk => absurd hk List.not_mem_nil⟩
              · rw [List.dropLast_cons_of_ne_nil hnil, List.forall_mem_cons]
                exact ⟨fun hall => ⟨by rw [hexpand]; simp, hall⟩, fun hall => hall.2⟩

/-- One job at the most raises then. -/
theorem Through.raises_le (hsize : Shrinks expand size) {jobs : List Job} (h : Through expand jobs) :
    (jobs.map (raises expand size)).sum ≤ 1 := by
  induction h with
  | nil => exact Nat.zero_le _
  | @last j hexpand =>
      have hasked : asked expand j = [] := by rw [asked, hexpand]
      rw [List.map_singleton, List.sum_singleton, hsize.raises_eq, hexpand, hasked, if_pos rfl]
      exact Nat.le_refl _
  | @next j rest subs outs hexpand hrest ih =>
      have hasked : asked expand j = subs := by rw [asked, hexpand]
      rw [List.map_append, List.sum_append] at ih
      rw [List.map_cons, List.sum_cons, hsize.raises_eq, hexpand, hasked, if_neg (by simp)]
      omega

/-- What one worker still has before it. -/
def Alone (expand : Job → Option (List Out × List Job)) (s : State Job Out) : Prop :=
  ∃ w, s.workers = [w] ∧
    match w with
    | .idle => Through expand s.work
    | .expanding j => Through expand (j :: s.work)
    | .handing _ subs => Through expand (s.work ++ subs)
    | .dead => s.work = []

theorem Moved.alone (h : Moved expand cap s t) (hs : Alone expand s) : Alone expand t := by
  obtain ⟨w₀, hworkers, hw₀⟩ := hs
  -- the worker that moves is the only one
  have honly : ∀ {i : ℕ} {w : Worker Job Out}, s.workers[i]? = some w → i = 0 ∧ w₀ = w := by
    intro i w hi
    rw [hworkers] at hi
    cases i with
    | zero => exact ⟨rfl, by simpa using hi⟩
    | succ i => exact absurd hi (by simp)
  cases h with
  | @take i j rest hworker hwork =>
      obtain ⟨rfl, rfl⟩ := honly hworker
      refine ⟨.expanding j, by rw [hworkers, List.set_cons_zero], ?_⟩
      rw [hwork] at hw₀
      exact hw₀
  | @expanded i j outs subs hworker hexpand =>
      obtain ⟨rfl, rfl⟩ := honly hworker
      exact ⟨.handing outs subs, by rw [hworkers, List.set_cons_zero], (through_of_some hexpand).mp hw₀⟩
  | @raised i j hworker hexpand =>
      obtain ⟨rfl, rfl⟩ := honly hworker
      exact ⟨.dead, by rw [hworkers, List.set_cons_zero], (through_of_none hexpand).mp hw₀⟩
  | @put i out outs subs hworker hroom =>
      obtain ⟨rfl, rfl⟩ := honly hworker
      exact ⟨.handing outs subs, by rw [hworkers, List.set_cons_zero], hw₀⟩
  | @finish i subs hworker =>
      obtain ⟨rfl, rfl⟩ := honly hworker
      exact ⟨.idle, by rw [hworkers, List.set_cons_zero], hw₀⟩
  | join => exact ⟨w₀, hworkers, hw₀⟩
  | close => exact ⟨w₀, hworkers, hw₀⟩
  | get => exact ⟨w₀, hworkers, hw₀⟩
  | stop => exact ⟨w₀, hworkers, hw₀⟩

/-! The other way round: what one worker does when nobody else interferes. -/

section

variable {workers : ℕ} {jobs : List Job} {before : List Out} {S : System (State Job Out) Move}

/-- It hands over, and each yield is consumed at once. -/
theorem one_hands (hcap : 0 < cap) (hS : S.step = step expand cap) (rest subs : List Job) (unfinished : ℕ)
    (outs c : List Out) : ∃ tr, S.run ⟨rest, unfinished, [.handing outs subs], [], .joining, c, false⟩ tr
      = some ⟨rest, unfinished, [.handing [] subs], [], .joining, c ++ outs, false⟩ := by
  induction outs generalizing c with
  | nil => exact ⟨[], by rw [System.run_nil, List.append_nil]⟩
  | cons out outs ih =>
      obtain ⟨tr, htr⟩ := ih (c ++ [out])
      refine ⟨.put 0 :: .get :: tr, ?_⟩
      have hput : S.step ⟨rest, unfinished, [.handing (out :: outs) subs], [], .joining, c, false⟩ (.put 0)
          = some ⟨rest, unfinished, [.handing outs subs], [some out], .joining, c, false⟩ := by
        rw [hS]
        simp [step, hcap]
      have hget : S.step ⟨rest, unfinished, [.handing outs subs], [some out], .joining, c, false⟩ .get
          = some ⟨rest, unfinished, [.handing outs subs], [], .joining, c ++ [out], false⟩ := by
        rw [hS]
        simp [step]
      rw [System.run_cons, hput, Option.bind_some, System.run_cons, hget, Option.bind_some, htr, List.append_assoc,
        List.singleton_append]

/-- It serves the first job. -/
theorem one_serves (hcap : 0 < cap) (hS : S.step = step expand cap) {j : Job} {outs : List Out} {subs : List Job}
    (hexpand : expand j = some (outs, subs)) (rest : List Job) (c : List Out) :
    ∃ tr, S.run (start 1 (j :: rest) c) tr = some (start 1 (rest ++ subs) (c ++ outs)) := by
  obtain ⟨tr, htr⟩ := one_hands hcap hS rest subs (rest.length + 1) outs c
  refine ⟨.take 0 :: .expand 0 :: (tr ++ [.finish 0]), ?_⟩
  have htake : S.step (start 1 (j :: rest) c) (.take 0)
      = some ⟨rest, rest.length + 1, [.expanding j], [], .joining, c, false⟩ := by
    rw [hS]
    rfl
  have hexp : S.step ⟨rest, rest.length + 1, [.expanding j], [], .joining, c, false⟩ (.expand 0)
      = some ⟨rest, rest.length + 1, [.handing outs subs], [], .joining, c, false⟩ := by
    rw [hS]
    simp [step, hexpand]
  have hfinish : S.step ⟨rest, rest.length + 1, [.handing [] subs], [], .joining, c ++ outs, false⟩ (.finish 0)
      = some (start 1 (rest ++ subs) (c ++ outs)) := by
    rw [hS]
    simp only [step, start, List.getElem?_cons_zero, List.set_cons_zero, List.length_append, List.replicate_one,
      Option.some.injEq, State.mk.injEq, true_and, and_true]
    omega
  rw [System.run_cons, htake, Option.bind_some, System.run_cons, hexp, Option.bind_some, System.run_append, htr,
    Option.bind_some, System.run_singleton, hfinish]

/-- It dies of the first job, and the others wait for ever. -/
theorem one_dies (hS : S.step = step expand cap) {j : Job} (hexpand : expand j = none) {rest : List Job}
    (hrest : rest ≠ []) (c : List Out) :
    ∃ tr t, S.run (start 1 (j :: rest) c) tr = some t ∧ Settled expand cap t ∧ t.ended = false := by
  refine ⟨[.take 0, .expand 0], ⟨rest, rest.length, [.dead], [], .joining, c, false⟩, ?_, ?_, rfl⟩
  · have htake : S.step (start 1 (j :: rest) c) (.take 0)
        = some ⟨rest, rest.length + 1, [.expanding j], [], .joining, c, false⟩ := by
      rw [hS]
      rfl
    rw [System.run_cons, htake, Option.bind_some, System.run_singleton, hS]
    simp [step, hexpand]
  · exact settled_of_dead (fun w hw => List.mem_singleton.mp hw) (fun hzero => hrest (List.length_eq_zero_iff.mp hzero)) rfl rfl

/-- A queue it does not get through. -/
theorem one_sticks (hsize : Shrinks expand size) (hcap : 0 < cap) (hS : S.step = step expand cap) {fuel : ℕ}
    {jobs : List Job} (hsum : (jobs.map size).sum ≤ fuel) (h : ¬ Through expand jobs) (c : List Out) :
    ∃ tr t, S.run (start 1 jobs c) tr = some t ∧ Settled expand cap t ∧ t.ended = false := by
  induction fuel generalizing jobs c with
  | zero =>
      rw [hsize.eq_nil hsum] at h
      exact absurd .nil h
  | succ fuel ih =>
      cases jobs with
      | nil => exact absurd .nil h
      | cons j rest =>
          cases hexpand : expand j with
          | none =>
              have hrest : rest ≠ [] := by
                rintro rfl
                exact h (.last hexpand)
              exact one_dies hS hexpand hrest c
          | some pair =>
              obtain ⟨outs, subs⟩ := pair
              have hasked : asked expand j = subs := by rw [asked, hexpand]
              have hle := hsize.next_le hsum
              rw [hasked] at hle
              obtain ⟨tr, htr⟩ := one_serves hcap hS hexpand rest c
              obtain ⟨tr', t, hrun, hsettled, hended⟩ := ih hle (fun hthrough => h (.next hexpand hthrough)) (c ++ outs)
              refine ⟨tr ++ tr', t, ?_, hsettled, hended⟩
              rw [System.run_append, htr, Option.bind_some, hrun]

end

/-! ## When nothing is lost -/

section

variable (expand cap)

/-- Every run ends, and where it ends all that is wanted has been consumed, once. -/
structure Exact (workers : ℕ) (jobs : List Job) (before : List Out) (wanted : Multiset Out) : Prop where
  ends : ∃ bound, ∀ tr s, (pool expand cap workers jobs before).Trace tr s → tr.length ≤ bound
  exact : ∀ tr s, (pool expand cap workers jobs before).Trace tr s → Settled expand cap s →
    s.ended = true ∧ (s.consumed : Multiset Out) = before + wanted

end

section

variable {jobs : List Job} {before : List Out}

theorem ends_of_trace (hsize : Shrinks expand size) (workers : ℕ) :
    ∃ bound, ∀ tr s, (pool expand cap workers jobs before).Trace tr s → tr.length ≤ bound := by
  refine ⟨energy size (start workers jobs before), ?_⟩
  rintro tr s ⟨_, rfl, hrun⟩
  have hle := length_le_energy hsize hrun
  omega

/-- Where one worker gets through, any number does. -/
theorem ended_of_through (hsize : Shrinks expand size) (hcap : 0 < cap) (h : Through expand jobs) {workers : ℕ}
    (hworkers : 1 ≤ workers) {tr : List Move} (htrace : (pool expand cap workers jobs before).Trace tr s)
    (hsettled : Settled expand cap s) : s.ended = true := by
  rcases settled_cases hcap (sound_of_trace htrace) hsettled with hended | ⟨hwork, hdead⟩
  · exact hended
  exfalso
  by_cases hone : workers = 1
  · subst hone
    have halone : Alone expand s := by
      refine htrace.invariant (I := Alone expand) ?_ fun s m t hs hstep => (moved hstep).alone hs
      rintro _ rfl
      exact ⟨.idle, rfl, h⟩
    obtain ⟨w, hw, hstate⟩ := halone
    rw [hdead w (by rw [hw]; exact List.mem_singleton.mpr rfl)] at hstate
    exact hwork hstate
  · -- each death is a job that raises, and there is one at the most
    have htoll := toll_of_trace hsize htrace
    have hlength := length_of_trace htrace
    have hle := h.raises_le hsize
    have hreplicate : s.workers = List.replicate workers .dead :=
      List.eq_replicate_iff.mpr ⟨hlength, hdead⟩
    have hdeaths : (s.workers.map (Worker.toll expand size)).sum = workers := by
      rw [hreplicate, List.map_replicate, List.sum_replicate, Worker.toll, nsmul_one, Nat.cast_id]
    rw [toll, hdeaths] at htoll
    omega

/-- What is wanted is what comes to be yielded, and what the jobs that raise would have yielded. -/
theorem wanted_eq (hsize : Shrinks expand size) {wanted : Job → Multiset Out}
    (hwanted : ∀ j outs subs, expand j = some (outs, subs) → wanted j = outs + (subs.map wanted).sum) (j : Job) :
    wanted j = total expand size (fun k => yields expand k + if expand k = none then wanted k else 0) j := by
  induction hn : size j using Nat.strong_induction_on generalizing j with
  | _ n ih =>
      rw [hsize.total_eq]
      cases hexpand : expand j with
      | none =>
          have hyields : yields expand j = [] := by rw [yields, hexpand]
          have hasked : asked expand j = [] := by rw [asked, hexpand]
          rw [hyields, hasked, if_pos rfl, List.map_nil, List.sum_nil, Multiset.coe_nil, zero_add, add_zero]
      | some pair =>
          obtain ⟨outs, subs⟩ := pair
          have hyields : yields expand j = outs := by rw [yields, hexpand]
          have hasked : asked expand j = subs := by rw [asked, hexpand]
          rw [hyields, if_neg (by simp), add_zero, hwanted j outs subs hexpand, hasked]
          refine congrArg (_ + ·) (congrArg List.sum (List.map_congr_left fun k hk => ?_))
          have hlt := hsize.asked_size (hasked ▸ hk)
          exact ih _ (hn ▸ hlt) k rfl

/-- **When nothing is lost**, whatever the number of workers and whoever moves. -/
theorem exact_iff (hsize : Shrinks expand size) (hcap : 0 < cap) {wanted : Job → Multiset Out}
    (hwanted : ∀ j outs subs, expand j = some (outs, subs) → wanted j = outs + (subs.map wanted).sum) {fuel : ℕ}
    (hfuel : (jobs.map size).sum ≤ fuel) :
    (∀ workers, 1 ≤ workers → Exact expand cap workers jobs before (jobs.map wanted).sum) ↔
      (∀ j ∈ (breadth_first (asked expand) fuel jobs).dropLast, expand j ≠ none) ∧
        ∀ j ∈ breadth_first (asked expand) fuel jobs, expand j = none → wanted j = 0 := by
  rw [← hsize.through_iff hfuel]
  -- what is wanted and not yielded is beneath the jobs that raise
  have hsplit : (jobs.map wanted).sum = (jobs.map (produce expand size)).sum
      + ((breadth_first (asked expand) fuel jobs).map fun k => if expand k = none then wanted k else 0).sum := by
    have hjobs : jobs.map wanted
        = jobs.map (total expand size fun k => yields expand k + if expand k = none then wanted k else 0) :=
      List.map_congr_left fun j _ => wanted_eq hsize hwanted j
    rw [hjobs, ← hsize.sum_breadth_first _ hfuel, List.sum_map_add, hsize.sum_breadth_first _ hfuel]
    rfl
  have hlost : (jobs.map (produce expand size)).sum = (jobs.map wanted).sum ↔
      ∀ j ∈ breadth_first (asked expand) fuel jobs, expand j = none → wanted j = 0 := by
    rw [hsplit, left_eq_add]
    constructor
    · intro hzero j hj hexpand
      have hle := List.le_sum_of_mem
        (List.mem_map_of_mem (f := fun k => if expand k = none then wanted k else 0) hj)
      rw [hzero, if_pos hexpand] at hle
      exact Multiset.le_zero.mp hle
    · intro hall
      refine List.sum_eq_zero fun m hm => ?_
      obtain ⟨j, hj, rfl⟩ := List.mem_map.mp hm
      split_ifs with hexpand
      · exact hall j hj hexpand
      · rfl
  constructor
  · intro hexact
    have hone := hexact 1 (Nat.le_refl _)
    have hthrough : Through expand jobs := by
      by_contra hnot
      obtain ⟨tr, t, hrun, hsettled, hended⟩ :=
        one_sticks (S := pool expand cap 1 jobs before) hsize hcap rfl hfuel hnot before
      have hends := (hone.exact tr t ⟨_, rfl, hrun⟩ hsettled).1
      exact absurd hends (by rw [hended]; decide)
    refine ⟨hthrough, hlost.mp ?_⟩
    obtain ⟨tr, t, hrun, hsettled⟩ : ∃ tr t,
        (pool expand cap 1 jobs before).run (start 1 jobs before) tr = some t ∧ Settled expand cap t :=
      exists_settled hsize _
    have htrace : (pool expand cap 1 jobs before).Trace tr t := ⟨_, rfl, hrun⟩
    obtain ⟨hended, hconsumed⟩ := hone.exact tr t htrace hsettled
    rw [consumed_at_end expand size (sound_of_trace htrace) hended, owed_of_trace hsize htrace] at hconsumed
    exact add_left_cancel hconsumed
  · rintro ⟨hthrough, hall⟩ workers hworkers
    refine ⟨ends_of_trace hsize workers, fun tr s htrace hsettled => ?_⟩
    have hended := ended_of_through hsize hcap hthrough hworkers htrace hsettled
    refine ⟨hended, ?_⟩
    rw [consumed_at_end expand size (sound_of_trace htrace) hended, owed_of_trace hsize htrace, hlost.mpr hall]

end

end Fathom.Pool
