/-
**Enrollment tokens** (`core/deploy/enrollment.py`): `EnrollmentRegistry` over any sequence of
calls.

An expired grant stays in the dict until something comes across it -- `issue` collects them
all, `verify` and `redeem` the one they are asked for -- so the dict itself depends on who has
looked. What is `live` of it does not: every call answers and acts on the live grants alone,
but for the text of a refusal. `Same` is this observation as a relation, and a `verify` stays
in it.
-/
import Fathom.Lib.System
import Fathom.Lib.Table
import Mathlib.Data.Set.Function

set_option autoImplicit false

namespace Fathom.Deploy

/-- `EnrollmentGrant`. A spec is only handed on. -/
structure EnrollmentGrant (Spec : Type) where
  host_id : String
  spec : Spec
  expires_at : ℤ
  redeemed : Bool
  platform : String
  deriving DecidableEq

/-- `EnrollmentRegistry`, without its dict. Time is in ticks. -/
structure EnrollmentRegistry where
  hash_token : String → String
  ttl : ℤ
  max_pending : ℕ

variable {Spec : Type}

/-- `_grants`: the grants under the hashes of their tokens. -/
abbrev Grants (Spec : Type) : Type := Table (Prod.fst : String × EnrollmentGrant Spec → String)

/-- The clock and the dict. -/
structure Registry (Spec : Type) where
  clock : ℤ
  grants : Grants Spec

/-- A call of the registry, and time that passes. The token of an `issue` is the one that
`secrets` draws, where it comes to that. -/
inductive Call (Spec : Type) where
  | issue (raw host_id : String) (spec : Spec) (platform : String)
  | verify (raw_token : String)
  | redeem (raw_token : String)
  | pending_count
  | advance (ticks : ℕ)
  deriving DecidableEq

/-- What a call answers. -/
inductive Answer (Spec : Type) where
  | issued (raw : String) (expires : ℤ)
  | granted (grant : EnrollmentGrant Spec)
  /-- `DeploymentError` -/
  | refused (message : String)
  | count (pending : ℕ)
  | done
  deriving DecidableEq

/-- A grant that `_gc` collects. -/
def dead (clock : ℤ) (row : String × EnrollmentGrant Spec) : Bool :=
  row.2.redeemed || decide (row.2.expires_at ≤ clock)

/-- `_gc`. -/
def gc (s : Registry Spec) : Registry Spec := { s with grants := s.grants.delete (dead s.clock) }

/-- `issue`. -/
def EnrollmentRegistry.issue (reg : EnrollmentRegistry) (s : Registry Spec) (raw host_id : String) (spec : Spec)
    (platform : String) : Answer Spec × Registry Spec :=
  let s := gc s
  if reg.max_pending ≤ s.grants.rows.length then
    (.refused "too many pending enrollment tokens; retry shortly", s)
  else
    let expires := s.clock + reg.ttl
    (.issued raw expires,
      { s with grants := s.grants.put (reg.hash_token raw, ⟨host_id, spec, expires, false, platform⟩) })

/-- `verify`. -/
def EnrollmentRegistry.verify (reg : EnrollmentRegistry) (s : Registry Spec) (raw_token : String) :
    Answer Spec × Registry Spec :=
  let key := reg.hash_token raw_token
  match s.grants.find key with
  | none => (.refused "enrollment token is invalid", s)
  | some (_, grant) =>
    if grant.redeemed then (.refused "enrollment token is invalid", s)
    else if grant.expires_at ≤ s.clock then
      (.refused "enrollment token expired", { s with grants := s.grants.erase key })
    else (.granted grant, s)

/-- `redeem`. -/
def EnrollmentRegistry.redeem (reg : EnrollmentRegistry) (s : Registry Spec) (raw_token : String) :
    Answer Spec × Registry Spec :=
  let key := reg.hash_token raw_token
  match s.grants.find key with
  | none => (.refused "enrollment token is invalid", s)
  | some (_, grant) =>
    if grant.redeemed then (.refused "enrollment token already used", s)
    else if grant.expires_at ≤ s.clock then
      (.refused "enrollment token expired", { s with grants := s.grants.erase key })
    else (.granted { grant with redeemed := true }, { s with grants := s.grants.erase key })

/-- One call. -/
def EnrollmentRegistry.perform (reg : EnrollmentRegistry) (s : Registry Spec) : Call Spec → Answer Spec × Registry Spec
  | .issue raw host_id spec platform => reg.issue s raw host_id spec platform
  | .verify raw_token => reg.verify s raw_token
  | .redeem raw_token => reg.redeem s raw_token
  | .pending_count => (.count (gc s).grants.rows.length, gc s)
  | .advance ticks => (.done, { s with clock := s.clock + ticks })

/-! ## Runs -/

/-- The registry after some calls. -/
def EnrollmentRegistry.after (reg : EnrollmentRegistry) (s : Registry Spec) (calls : List (Call Spec)) : Registry Spec :=
  calls.foldl (fun s call => (reg.perform s call).2) s

/-- A call, when it was made, and what came of it. -/
structure Event (Spec : Type) where
  clock : ℤ
  call : Call Spec
  answer : Answer Spec

/-- What comes of a call. -/
def EnrollmentRegistry.event (reg : EnrollmentRegistry) (s : Registry Spec) (call : Call Spec) : Event Spec :=
  ⟨s.clock, call, (reg.perform s call).1⟩

/-- What came of some calls. -/
def EnrollmentRegistry.log (reg : EnrollmentRegistry) : Registry Spec → List (Call Spec) → List (Event Spec)
  | _, [] => []
  | s, call :: calls => reg.event s call :: reg.log (reg.perform s call).2 calls

/-- A registry that has just been made. -/
def fresh (clock : ℤ) : Registry Spec := ⟨clock, .empty _⟩

/-- The token a call is about. -/
def Call.token : Call Spec → Option String
  | .issue raw _ _ _ => some raw
  | .verify raw_token => some raw_token
  | .redeem raw_token => some raw_token
  | _ => none

/-- The token that was issued, and its grant. -/
def Event.minted : Event Spec → Option (String × EnrollmentGrant Spec)
  | ⟨_, .issue raw host_id spec platform, .issued _ expires⟩ => some (raw, ⟨host_id, spec, expires, false, platform⟩)
  | _ => none

/-- The token that was redeemed. -/
def Event.spent : Event Spec → Option String
  | ⟨_, .redeem raw_token, .granted _⟩ => some raw_token
  | _ => none

/-- The grants that are neither redeemed nor expired. -/
def Registry.live (s : Registry Spec) : List (String × EnrollmentGrant Spec) :=
  s.grants.rows.filter fun row => !dead s.clock row

variable {reg : EnrollmentRegistry} {s s' : Registry Spec}

theorem after_append (s : Registry Spec) (calls more : List (Call Spec)) :
    reg.after s (calls ++ more) = reg.after (reg.after s calls) more :=
  List.foldl_append

theorem log_append (s : Registry Spec) (calls more : List (Call Spec)) :
    reg.log s (calls ++ more) = reg.log s calls ++ reg.log (reg.after s calls) more := by
  induction calls generalizing s with
  | nil => rfl
  | cons call calls ih =>
      rw [List.cons_append, EnrollmentRegistry.log, EnrollmentRegistry.log, ih, List.cons_append]
      rfl

variable {calls : List (Call Spec)} {raw : String} {grant : EnrollmentGrant Spec} {clock : ℤ}

/-- An event of a log is a call on the registry after the calls before it. -/
theorem log_split {before later : List (Event Spec)} {e : Event Spec} (h : reg.log s calls = before ++ e :: later) :
    ∃ first call rest, calls = first ++ call :: rest ∧
      before = reg.log s first ∧ e = reg.event (reg.after s first) call := by
  induction calls generalizing s before with
  | nil => exact absurd h (by simp [EnrollmentRegistry.log])
  | cons call calls ih =>
      rw [EnrollmentRegistry.log] at h
      cases before with
      | nil =>
          rw [List.nil_append, List.cons.injEq] at h
          exact ⟨[], call, calls, rfl, rfl, h.1.symm⟩
      | cons b before =>
          rw [List.cons_append, List.cons.injEq] at h
          obtain ⟨first, call', rest, hcalls, hbefore, he⟩ := ih h.2
          refine ⟨call :: first, call', rest, by rw [hcalls, List.cons_append], ?_, he⟩
          rw [EnrollmentRegistry.log, ← hbefore, h.1]

/-- What is issued is issued for the token of a call. -/
theorem token_of_minted (h : (raw, grant) ∈ (reg.log s calls).filterMap Event.minted) :
    raw ∈ calls.filterMap Call.token := by
  induction calls generalizing s with
  | nil => exact absurd h List.not_mem_nil
  | cons call calls ih =>
      rw [EnrollmentRegistry.log, List.filterMap_cons] at h
      have hrest : ∀ token, token ∈ calls.filterMap Call.token → token ∈ (call :: calls).filterMap Call.token := by
        intro token htoken
        obtain ⟨c, hc, heq⟩ := List.mem_filterMap.mp htoken
        exact List.mem_filterMap.mpr ⟨c, List.mem_cons_of_mem call hc, heq⟩
      split at h
      · exact hrest raw (ih h)
      · next row hrow =>
          rcases List.mem_cons.mp h with heq | hlater
          · refine List.mem_filterMap.mpr ⟨call, List.mem_cons_self, ?_⟩
            unfold Event.minted at hrow
            split at hrow
            · next hevent =>
                obtain ⟨-, hcall, -⟩ := Event.mk.inj hevent
                rw [Option.some.injEq, ← heq, Prod.mk.injEq] at hrow
                rw [hcall, ← hrow.1]
                rfl
            · exact absurd hrow (by simp)
          · exact hrest raw (ih hlater)

/-! ## What a call can do -/

theorem dead_iff {row : String × EnrollmentGrant Spec} :
    dead clock row = true ↔ row.2.redeemed = true ∨ row.2.expires_at ≤ clock := by
  rw [dead, Bool.or_eq_true, decide_eq_true_eq]

/-- `issue` is refused at the bound, and stores a grant below it. -/
theorem issue_cases (reg : EnrollmentRegistry) (s : Registry Spec) (raw host_id : String) (spec : Spec)
    (platform : String) :
    ((∃ message, (reg.issue s raw host_id spec platform).1 = .refused message) ∧
      (reg.issue s raw host_id spec platform).2 = gc s) ∨
    (s.live.length < reg.max_pending ∧ reg.issue s raw host_id spec platform =
      (.issued raw (s.clock + reg.ttl), { gc s with
        grants := (gc s).grants.put (reg.hash_token raw, ⟨host_id, spec, s.clock + reg.ttl, false, platform⟩) })) := by
  unfold EnrollmentRegistry.issue
  dsimp only
  split_ifs with hfull
  · exact .inl ⟨⟨_, rfl⟩, rfl⟩
  · exact .inr ⟨Nat.lt_of_not_le hfull, rfl⟩

/-- `verify` drops a dead row or nothing. -/
theorem verify_cases (reg : EnrollmentRegistry) (s : Registry Spec) (raw_token : String) :
    (reg.verify s raw_token).2 = s ∨
    ((reg.verify s raw_token).2 = { s with grants := s.grants.erase (reg.hash_token raw_token) } ∧
      ∃ row, s.grants.find (reg.hash_token raw_token) = some row ∧ dead s.clock row = true) := by
  unfold EnrollmentRegistry.verify
  dsimp only
  split
  · exact .inl rfl
  · next k grant hfind =>
      split_ifs with hredeemed hexpired
      · exact .inl rfl
      · exact .inr ⟨rfl, _, hfind, dead_iff.mpr (.inr hexpired)⟩
      · exact .inl rfl

/-- `redeem` spends a live grant, or drops a dead row or nothing. -/
theorem redeem_cases (reg : EnrollmentRegistry) (s : Registry Spec) (raw_token : String) :
    (∃ grant, s.grants.find (reg.hash_token raw_token) = some (reg.hash_token raw_token, grant) ∧
      s.clock < grant.expires_at ∧ reg.redeem s raw_token =
        (.granted { grant with redeemed := true }, { s with grants := s.grants.erase (reg.hash_token raw_token) })) ∨
    ((∃ message, (reg.redeem s raw_token).1 = .refused message) ∧
      (∀ row, s.grants.find (reg.hash_token raw_token) = some row → dead s.clock row = true) ∧
      ((reg.redeem s raw_token).2 = s ∨
        (reg.redeem s raw_token).2 = { s with grants := s.grants.erase (reg.hash_token raw_token) })) := by
  unfold EnrollmentRegistry.redeem
  dsimp only
  split
  · next hnone => exact .inr ⟨⟨_, rfl⟩, fun row hrow => absurd hrow (by rw [hnone]; simp), .inl rfl⟩
  · next k grant hfind =>
      have hkey : k = reg.hash_token raw_token := Table.key_of_find hfind
      have hdead : (grant.redeemed = true ∨ grant.expires_at ≤ s.clock) →
          ∀ row, s.grants.find (reg.hash_token raw_token) = some row → dead s.clock row = true := by
        intro h row hrow
        rw [hfind, Option.some.injEq] at hrow
        rw [← hrow]
        exact dead_iff.mpr h
      split_ifs with hredeemed hexpired
      · exact .inr ⟨⟨_, rfl⟩, hdead (.inl hredeemed), .inl rfl⟩
      · exact .inr ⟨⟨_, rfl⟩, hdead (.inr hexpired), .inr rfl⟩
      · refine .inl ⟨grant, ?_, Int.not_le.mp hexpired, rfl⟩
        rw [hfind, hkey]

/-! ## The live grants -/

/-- The clocks and the live grants are the same. -/
def Same (s s' : Registry Spec) : Prop := s.clock = s'.clock ∧ s.live = s'.live

/-- Dropping a dead row leaves the live ones. -/
theorem live_erase_of_dead {key : String}
    (h : ∀ row, s.grants.find key = some row → dead s.clock row = true) :
    s.live.filter (fun row => row.1 ≠ key) = s.live := by
  refine List.filter_eq_self.mpr fun row hrow => decide_eq_true fun hkey => ?_
  obtain ⟨hmem, hlive⟩ := List.mem_filter.mp hrow
  rw [h row (hkey ▸ Table.find_of_mem hmem)] at hlive
  exact absurd hlive (by simp)

theorem live_erase (s : Registry Spec) (key : String) :
    ({ s with grants := s.grants.erase key } : Registry Spec).live = s.live.filter fun row => row.1 ≠ key := by
  rw [Registry.live, Registry.live, Table.erase, List.filter_filter, List.filter_filter]
  exact List.filter_congr fun row _ => Bool.and_comm _ _

theorem gc_of_same (h : Same s s') : gc s = gc s' := by
  obtain ⟨hclock, hlive⟩ := h
  rw [Registry.live, Registry.live, hclock] at hlive
  rw [gc, gc, hclock, Registry.mk.injEq]
  exact ⟨rfl, Table.ext_rows hlive⟩

/-- **A verification changes no live grant.** -/
theorem same_verify (reg : EnrollmentRegistry) (s : Registry Spec) (raw_token : String) :
    Same (reg.verify s raw_token).2 s := by
  rcases verify_cases reg s raw_token with hsame | ⟨herase, row, hfind, hdead⟩
  · rw [hsame]
    exact ⟨rfl, rfl⟩
  · rw [herase]
    refine ⟨rfl, (live_erase s _).trans (live_erase_of_dead fun row' hrow' => ?_)⟩
    rw [hfind, Option.some.injEq] at hrow'
    rw [← hrow']
    exact hdead

/-- A redemption takes the grants of its token out of the live ones. -/
theorem live_redeem (reg : EnrollmentRegistry) (s : Registry Spec) (raw_token : String) :
    (reg.redeem s raw_token).2.clock = s.clock ∧
    (reg.redeem s raw_token).2.live = s.live.filter fun row => row.1 ≠ reg.hash_token raw_token := by
  rcases redeem_cases reg s raw_token with ⟨grant, -, -, hredeem⟩ | ⟨-, hdead, hsame | herase⟩
  · rw [hredeem]
    exact ⟨rfl, live_erase s _⟩
  · rw [hsame]
    exact ⟨rfl, (live_erase_of_dead hdead).symm⟩
  · rw [herase]
    exact ⟨rfl, live_erase s _⟩

theorem live_advance (s : Registry Spec) (ticks : ℕ) :
    ({ s with clock := s.clock + ticks } : Registry Spec).live =
      s.live.filter fun row => !dead (s.clock + ticks) row := by
  rw [Registry.live, Registry.live, List.filter_filter]
  refine List.filter_congr fun row _ => ?_
  by_cases hdead : dead s.clock row = true
  · have hlater : dead (s.clock + ticks) row = true := by
      rcases dead_iff.mp hdead with hredeemed | hexpired
      · exact dead_iff.mpr (.inl hredeemed)
      · exact dead_iff.mpr (.inr (by omega))
    rw [hdead, hlater]
    rfl
  · rw [Bool.not_eq_true] at hdead
    rw [hdead]
    exact (Bool.and_true _).symm

/-- A call acts on the live grants. -/
theorem Same.perform (h : Same s s') (call : Call Spec) : Same (reg.perform s call).2 (reg.perform s' call).2 := by
  cases call with
  | issue raw host_id spec platform =>
      rw [EnrollmentRegistry.perform, EnrollmentRegistry.perform, EnrollmentRegistry.issue, EnrollmentRegistry.issue,
        gc_of_same h]
      exact ⟨rfl, rfl⟩
  | verify raw_token =>
      have hl := same_verify reg s raw_token
      have hr := same_verify reg s' raw_token
      exact ⟨hl.1.trans (h.1.trans hr.1.symm), hl.2.trans (h.2.trans hr.2.symm)⟩
  | redeem raw_token =>
      obtain ⟨hclock, hlive⟩ := live_redeem reg s raw_token
      obtain ⟨hclock', hlive'⟩ := live_redeem reg s' raw_token
      exact ⟨hclock.trans (h.1.trans hclock'.symm), hlive.trans ((congrArg _ h.2).trans hlive'.symm)⟩
  | pending_count =>
      rw [EnrollmentRegistry.perform, EnrollmentRegistry.perform, gc_of_same h]
      exact ⟨rfl, rfl⟩
  | advance ticks =>
      refine ⟨congrArg (· + (ticks : ℤ)) h.1, (live_advance s ticks).trans (Eq.trans ?_ (live_advance s' ticks).symm)⟩
      rw [h.1, h.2]

/-- And it issues the same. -/
theorem Same.minted (h : Same s s') (call : Call Spec) : (reg.event s call).minted = (reg.event s' call).minted := by
  cases call with
  | issue raw host_id spec platform =>
      rw [EnrollmentRegistry.event, EnrollmentRegistry.event, EnrollmentRegistry.perform, EnrollmentRegistry.perform,
        EnrollmentRegistry.issue, EnrollmentRegistry.issue, gc_of_same h, h.1]
  | _ => rfl

theorem Same.run (reg : EnrollmentRegistry) (h : Same s s') (calls : List (Call Spec)) :
    Same (reg.after s calls) (reg.after s' calls) ∧
    (reg.log s calls).filterMap Event.minted = (reg.log s' calls).filterMap Event.minted := by
  induction calls generalizing s s' with
  | nil => exact ⟨h, rfl⟩
  | cons call calls ih =>
      obtain ⟨hafter, hlog⟩ := ih (h.perform call)
      refine ⟨hafter, ?_⟩
      rw [EnrollmentRegistry.log, EnrollmentRegistry.log, List.filterMap_cons, List.filterMap_cons, h.minted call, hlog]

/-! ## The invariant -/

/-- The registry beside what has come of its calls. -/
structure Inv (reg : EnrollmentRegistry) (log : List (Event Spec)) (s : Registry Spec) : Prop where
  /-- a row is the grant of a token that was not redeemed -/
  rows : ∀ row ∈ s.grants.rows, ∃ raw, row.1 = reg.hash_token raw ∧ (raw, row.2) ∈ log.filterMap Event.minted ∧
    raw ∉ log.filterMap Event.spent
  minted : ∀ raw ∈ log.filterMap Event.spent, raw ∈ (log.filterMap Event.minted).map Prod.fst
  once : (log.filterMap Event.spent).Nodup
  bound : s.grants.rows.length ≤ reg.max_pending

theorem inv_fresh (clock : ℤ) : Inv reg ([] : List (Event Spec)) (fresh clock) where
  rows := fun _ h => absurd h List.not_mem_nil
  minted := fun _ h => absurd h List.not_mem_nil
  once := List.nodup_nil
  bound := Nat.zero_le _

variable {log : List (Event Spec)} {e : Event Spec}

/-- A call that neither issues nor redeems at most drops rows. -/
theorem Inv.quiet (h : Inv reg log s) (hminted : e.minted = none) (hspent : e.spent = none)
    (hrows : s'.grants.rows.Sublist s.grants.rows) : Inv reg (log ++ [e]) s' where
  rows := by
    rw [System.filterMap_snoc_none hminted, System.filterMap_snoc_none hspent]
    exact fun row hrow => h.rows row (hrows.subset hrow)
  minted := by
    rw [System.filterMap_snoc_none hminted, System.filterMap_snoc_none hspent]
    exact h.minted
  once := by
    rw [System.filterMap_snoc_none hspent]
    exact h.once
  bound := hrows.length_le.trans h.bound

theorem gc_sublist (s : Registry Spec) : (gc s).grants.rows.Sublist s.grants.rows := List.filter_sublist

theorem erase_sublist (s : Registry Spec) (key : String) : (s.grants.erase key).rows.Sublist s.grants.rows :=
  List.filter_sublist

/-- A token that is issued is a new one. -/
theorem Inv.issue (h : Inv reg log s) (hminted : e.minted = some (raw, grant)) (hspent : e.spent = none)
    (hnew : raw ∉ (log.filterMap Event.minted).map Prod.fst) (hlive : s.live.length < reg.max_pending) :
    Inv reg (log ++ [e]) { gc s with grants := (gc s).grants.put (reg.hash_token raw, grant) } where
  rows := by
    rw [System.filterMap_snoc_some hminted, System.filterMap_snoc_none hspent]
    intro row hrow
    rcases Table.mem_put hrow with hrow | ⟨hold, -⟩
    · rw [hrow]
      exact ⟨raw, rfl, List.mem_append_right _ (List.mem_singleton_self _), fun hs => hnew (h.minted raw hs)⟩
    · obtain ⟨raw', hkey, hmem, hnot⟩ := h.rows row ((gc_sublist s).subset hold)
      exact ⟨raw', hkey, List.mem_append_left _ hmem, hnot⟩
  minted := by
    rw [System.filterMap_snoc_some hminted, System.filterMap_snoc_none hspent, List.map_append]
    exact fun raw' hs => List.mem_append_left _ (h.minted raw' hs)
  once := by
    rw [System.filterMap_snoc_none hspent]
    exact h.once
  bound := (Table.length_put_le _ _).trans hlive

/-- A token that is redeemed was issued, and not redeemed before. -/
theorem Inv.redeem (h : Inv reg log s) {tokens : Set String} (hcollision : Set.InjOn reg.hash_token tokens)
    (hissued : ∀ row ∈ log.filterMap Event.minted, row.1 ∈ tokens) (hraw : raw ∈ tokens)
    (hfind : s.grants.find (reg.hash_token raw) = some (reg.hash_token raw, grant)) (hminted : e.minted = none)
    (hspent : e.spent = some raw) :
    (raw, grant) ∈ log.filterMap Event.minted ∧
    Inv reg (log ++ [e]) { s with grants := s.grants.erase (reg.hash_token raw) } := by
  have howner : ∀ row ∈ s.grants.rows, row.1 = reg.hash_token raw →
      (raw, row.2) ∈ log.filterMap Event.minted ∧ raw ∉ log.filterMap Event.spent := by
    intro row hrow hkey
    obtain ⟨raw', hkey', hmem, hnot⟩ := h.rows row hrow
    have hsame : raw' = raw := hcollision (hissued _ hmem) hraw (hkey'.symm.trans hkey)
    rw [hsame] at hmem hnot
    exact ⟨hmem, hnot⟩
  obtain ⟨hmem, hnot⟩ := howner _ (Table.mem_of_find hfind) rfl
  refine ⟨hmem, ?_, ?_, ?_, (erase_sublist s _).length_le.trans h.bound⟩
  · rw [System.filterMap_snoc_none hminted, System.filterMap_snoc_some hspent]
    intro row hrow
    obtain ⟨hold, hne⟩ := List.mem_filter.mp hrow
    obtain ⟨raw', hkey, hmem', hnot'⟩ := h.rows row hold
    refine ⟨raw', hkey, hmem', fun hs => ?_⟩
    rcases List.mem_append.mp hs with hbefore | hlast
    · exact hnot' hbefore
    · rw [List.mem_singleton] at hlast
      rw [hlast] at hkey
      exact of_decide_eq_true hne hkey
  · rw [System.filterMap_snoc_none hminted, System.filterMap_snoc_some hspent]
    intro raw' hs
    rcases List.mem_append.mp hs with hbefore | hlast
    · exact h.minted raw' hbefore
    · rw [List.mem_singleton] at hlast
      rw [hlast]
      exact List.mem_map_of_mem hmem
  · rw [System.filterMap_snoc_some hspent, List.nodup_append]
    refine ⟨h.once, List.nodup_singleton raw, ?_⟩
    intro raw' hs raw'' hlast heq
    rw [List.mem_singleton] at hlast
    rw [heq, hlast] at hs
    exact hnot hs

/-- One call keeps the invariant. -/
theorem inv_perform (h : Inv reg log s) {tokens : Set String} (hcollision : Set.InjOn reg.hash_token tokens)
    (hissued : ∀ row ∈ log.filterMap Event.minted, row.1 ∈ tokens) {call : Call Spec}
    (hcall : ∀ raw, call.token = some raw → raw ∈ tokens)
    (hdistinct : (((log ++ [reg.event s call]).filterMap Event.minted).map Prod.fst).Nodup) :
    Inv reg (log ++ [reg.event s call]) (reg.perform s call).2 := by
  unfold EnrollmentRegistry.event at hdistinct ⊢
  cases call with
  | issue raw host_id spec platform =>
      simp only [EnrollmentRegistry.perform] at hdistinct ⊢
      rcases issue_cases reg s raw host_id spec platform with ⟨⟨message, hrefused⟩, hgc⟩ | ⟨hlive, hissue⟩
      · rw [hrefused, hgc]
        exact h.quiet rfl rfl (gc_sublist s)
      · rw [hissue] at hdistinct ⊢
        rw [List.filterMap_append, List.map_append, List.nodup_append] at hdistinct
        refine h.issue rfl rfl (fun hmem => ?_) hlive
        exact hdistinct.2.2 raw hmem raw (List.mem_singleton_self _) rfl
  | verify raw_token =>
      refine h.quiet rfl rfl ?_
      simp only [EnrollmentRegistry.perform]
      rcases verify_cases reg s raw_token with hsame | ⟨herase, -⟩
      · rw [hsame]
      · rw [herase]
        exact erase_sublist s _
  | redeem raw_token =>
      simp only [EnrollmentRegistry.perform]
      rcases redeem_cases reg s raw_token with ⟨grant, hfind, -, hredeem⟩ | ⟨⟨message, hrefused⟩, -, hsame | herase⟩
      · rw [hredeem]
        exact (h.redeem hcollision hissued (hcall raw_token rfl) hfind rfl rfl).2
      · rw [hrefused, hsame]
        exact h.quiet rfl rfl (List.Sublist.refl _)
      · rw [hrefused, herase]
        exact h.quiet rfl rfl (erase_sublist s _)
  | pending_count => exact h.quiet rfl rfl (gc_sublist s)
  | advance ticks => exact h.quiet rfl rfl (List.Sublist.refl _)

/-- The tokens of some calls. -/
def tokens (calls : List (Call Spec)) : Set String := {raw | raw ∈ calls.filterMap Call.token}

theorem inv_after (hcollision : Set.InjOn reg.hash_token (tokens calls))
    (hdistinct : (((reg.log (fresh clock) calls).filterMap Event.minted).map Prod.fst).Nodup) :
    Inv reg (reg.log (fresh clock) calls) (reg.after (fresh clock) calls) := by
  induction calls using List.reverseRecOn with
  | nil => exact inv_fresh clock
  | append_singleton calls call ih =>
      have hlog : reg.log (fresh clock) (calls ++ [call]) = reg.log (fresh clock) calls ++
          [reg.event (reg.after (fresh clock) calls) call] :=
        log_append _ _ _
      have hsub : tokens calls ⊆ tokens (calls ++ [call]) := fun raw hraw => System.mem_filterMap_snoc call hraw
      rw [hlog] at hdistinct ⊢
      rw [after_append]
      refine inv_perform (ih (hcollision.mono hsub) ?_) hcollision (fun row hrow => hsub (token_of_minted hrow)) ?_ hdistinct
      · rw [List.filterMap_append, List.map_append] at hdistinct
        exact (List.nodup_append.mp hdistinct).1
      · intro raw hraw
        exact List.mem_filterMap.mpr ⟨call, List.mem_append_right _ (List.mem_singleton_self _), hraw⟩

/-! ## Single use -/

/-- A log that is cut at an event is the log of the calls before it. -/
theorem granted_spec (hcollision : Set.InjOn reg.hash_token (tokens calls))
    (hdistinct : (((reg.log (fresh clock) calls).filterMap Event.minted).map Prod.fst).Nodup)
    {before later : List (Event Spec)} {now : ℤ}
    (hlog : reg.log (fresh clock) calls = before ++ ⟨now, .redeem raw, .granted grant⟩ :: later) :
    ∃ issued, (raw, issued) ∈ before.filterMap Event.minted ∧ now < issued.expires_at ∧
      grant = { issued with redeemed := true } := by
  obtain ⟨first, call, rest, hcalls, hbefore, hevent⟩ := log_split hlog
  have hfirst : ∀ raw ∈ first.filterMap Call.token, raw ∈ calls.filterMap Call.token := by
    intro raw hraw
    rw [hcalls, List.filterMap_append]
    exact List.mem_append_left _ hraw
  have hnodup : ((before.filterMap Event.minted).map Prod.fst).Nodup := by
    rw [hlog, List.filterMap_append, List.map_append] at hdistinct
    exact (List.nodup_append.mp hdistinct).1
  rw [hbefore] at hnodup
  have hinv := inv_after (hcollision.mono hfirst) hnodup
  obtain ⟨hclock, hcall, hanswer⟩ := Event.mk.inj hevent
  rw [← hcall] at hanswer
  have hraw : raw ∈ tokens calls := by
    refine List.mem_filterMap.mpr ⟨.redeem raw, ?_, rfl⟩
    rw [hcalls, ← hcall]
    exact List.mem_append_right _ List.mem_cons_self
  rcases redeem_cases reg (reg.after (fresh clock) first) raw with
    ⟨issued, hfind, hlive, hredeem⟩ | ⟨⟨message, hrefused⟩, -⟩
  · have hspent := hinv.redeem (e := reg.event (reg.after (fresh clock) first) (.redeem raw)) hcollision
      (fun row hrow => hfirst _ (token_of_minted hrow)) hraw hfind rfl
      (by rw [EnrollmentRegistry.event, EnrollmentRegistry.perform, hredeem]; rfl)
    simp only [EnrollmentRegistry.perform] at hanswer
    rw [hredeem, Answer.granted.injEq] at hanswer
    exact ⟨issued, hbefore ▸ hspent.1, hclock ▸ hlive, hanswer⟩
  · simp only [EnrollmentRegistry.perform] at hanswer
    rw [hrefused] at hanswer
    exact absurd hanswer (by simp)

/-- On registries with the same live grants a token that has not expired is redeemed alike. -/
theorem Same.redeem (h : Same s s')
    (hlive : ∀ row, s.grants.find (reg.hash_token raw) = some row → dead s.clock row = false)
    (hlive' : ∀ row, s'.grants.find (reg.hash_token raw) = some row → dead s'.clock row = false) :
    (reg.redeem s raw).1 = (reg.redeem s' raw).1 := by
  -- a row that is found is a live one, and so it is found on both sides
  have hfound : ∀ {t u : Registry Spec}, t.live = u.live →
      (∀ row, t.grants.find (reg.hash_token raw) = some row → dead t.clock row = false) →
      ∀ row, t.grants.find (reg.hash_token raw) = some row → u.grants.find (reg.hash_token raw) = some row := by
    intro t u hsame ht row hrow
    have hmem : row ∈ t.live := List.mem_filter.mpr ⟨Table.mem_of_find hrow, by rw [ht row hrow]; rfl⟩
    rw [hsame] at hmem
    exact Table.find_some_iff.mpr ⟨(List.mem_filter.mp hmem).1, Table.key_of_find hrow⟩
  have hfind : s.grants.find (reg.hash_token raw) = s'.grants.find (reg.hash_token raw) := by
    cases hs : s.grants.find (reg.hash_token raw) with
    | some row => exact (hfound h.2 hlive row hs).symm
    | none =>
        cases hs' : s'.grants.find (reg.hash_token raw) with
        | none => rfl
        | some row =>
            rw [hfound h.2.symm hlive' row hs'] at hs
            exact absurd hs (by simp)
  unfold EnrollmentRegistry.redeem
  dsimp only
  rw [hfind, h.1]
  cases s'.grants.find (reg.hash_token raw) with
  | none => rfl
  | some row =>
      dsimp only
      split_ifs <;> rfl

/-- A token is in the dict with the grant it was issued with. -/
theorem find_live {tokens' : Set String} (hcollision : Set.InjOn reg.hash_token tokens') (hsub : tokens calls ⊆ tokens')
    (hraw : raw ∈ tokens') (hdistinct : (((reg.log (fresh clock) calls).filterMap Event.minted).map Prod.fst).Nodup)
    (hunexpired : ∀ issued, (raw, issued) ∈ (reg.log (fresh clock) calls).filterMap Event.minted →
      (reg.after (fresh clock) calls).clock < issued.expires_at) :
    ∀ row, (reg.after (fresh clock) calls).grants.find (reg.hash_token raw) = some row →
      dead (reg.after (fresh clock) calls).clock row = false := by
  intro row hrow
  obtain ⟨raw', hkey, hminted, -⟩ := (inv_after (hcollision.mono hsub) hdistinct).rows row (Table.mem_of_find hrow)
  have hsame : raw' = raw :=
    hcollision (hsub (token_of_minted hminted)) hraw (hkey.symm.trans (Table.key_of_find hrow))
  rw [hsame] at hminted
  have hexpires := hunexpired row.2 hminted
  rw [Bool.eq_false_iff, Ne, dead_iff, not_or]
  refine ⟨fun hredeemed => ?_, by omega⟩
  -- no grant is issued redeemed
  obtain ⟨e, -, he⟩ := List.mem_filterMap.mp hminted
  unfold Event.minted at he
  split at he
  · rw [Option.some.injEq, Prod.mk.injEq] at he
    rw [← he.2] at hredeemed
    exact absurd hredeemed (by simp)
  · exact absurd he (by simp)

/-- **Enrollment tokens are single-use.** Where the tokens that are drawn are distinct and no two
tokens of the calls have one hash: no token is redeemed twice; a redemption is of a token that
was issued, before it expires, and returns its grant; a verification is not seen by a later
redemption of a token that has not expired; and the live grants are at most `max_pending`. -/
theorem enrollment_single_use (reg : EnrollmentRegistry) (clock : ℤ) (calls : List (Call Spec))
    (hcollision : Set.InjOn reg.hash_token (tokens calls))
    (hdistinct : (((reg.log (fresh clock) calls).filterMap Event.minted).map Prod.fst).Nodup) :
    ((reg.log (fresh clock) calls).filterMap Event.spent).Nodup ∧
    (∀ before now raw grant later,
      reg.log (fresh clock) calls = before ++ ⟨now, .redeem raw, .granted grant⟩ :: later →
      ∃ issued, (raw, issued) ∈ before.filterMap Event.minted ∧ now < issued.expires_at ∧
        grant = { issued with redeemed := true }) ∧
    (∀ first token middle raw rest, calls = first ++ .verify token :: middle ++ .redeem raw :: rest →
      (∀ issued, (raw, issued) ∈ (reg.log (fresh clock) (first ++ .verify token :: middle)).filterMap Event.minted →
        (reg.after (fresh clock) (first ++ .verify token :: middle)).clock < issued.expires_at) →
      (reg.redeem (reg.after (fresh clock) (first ++ .verify token :: middle)) raw).1 =
        (reg.redeem (reg.after (fresh clock) (first ++ middle)) raw).1) ∧
    (reg.after (fresh clock) calls).live.length ≤ reg.max_pending := by
  have hinv := inv_after hcollision hdistinct
  refine ⟨hinv.once, fun before now raw grant later hlog => granted_spec hcollision hdistinct hlog, ?_,
    List.filter_sublist.length_le.trans hinv.bound⟩
  intro first token middle raw rest hcalls hunexpired
  -- the two runs from after the verification
  obtain ⟨hsame, hminted⟩ := (same_verify reg (reg.after (fresh clock) first) token).run reg middle
  have hafter : reg.after (fresh clock) (first ++ .verify token :: middle) =
      reg.after (reg.verify (reg.after (fresh clock) first) token).2 middle := after_append _ _ _
  have hlogs : (reg.log (fresh clock) (first ++ .verify token :: middle)).filterMap Event.minted =
      (reg.log (fresh clock) (first ++ middle)).filterMap Event.minted := by
    rw [log_append, log_append, List.filterMap_append, List.filterMap_append, ← hminted, EnrollmentRegistry.log,
      List.filterMap_cons_none rfl]
    rfl
  have hsub : tokens (first ++ .verify token :: middle) ⊆ tokens calls := by
    intro t ht
    show t ∈ calls.filterMap Call.token
    rw [hcalls, List.filterMap_append]
    exact List.mem_append_left _ ht
  have hsub' : tokens (first ++ middle) ⊆ tokens calls := by
    refine fun t ht => hsub ?_
    obtain ⟨c, hc, heq⟩ := List.mem_filterMap.mp ht
    refine List.mem_filterMap.mpr ⟨c, ?_, heq⟩
    rcases List.mem_append.mp hc with hc | hc
    · exact List.mem_append_left _ hc
    · exact List.mem_append_right _ (List.mem_cons_of_mem _ hc)
  have hraw : raw ∈ tokens calls := by
    refine List.mem_filterMap.mpr ⟨.redeem raw, ?_, rfl⟩
    rw [hcalls]
    exact List.mem_append_right _ List.mem_cons_self
  have hnodup : (((reg.log (fresh clock) (first ++ .verify token :: middle)).filterMap Event.minted).map
      Prod.fst).Nodup := by
    rw [hcalls, log_append, List.filterMap_append, List.map_append] at hdistinct
    exact (List.nodup_append.mp hdistinct).1
  rw [← after_append, ← hafter] at hsame
  refine hsame.redeem (find_live hcollision hsub hraw hnodup hunexpired) ?_
  refine find_live hcollision hsub' hraw (hlogs ▸ hnodup) fun issued hissued => ?_
  rw [← hsame.1]
  exact hunexpired issued (hlogs ▸ hissued)

/-- The hashes of two tokens. -/
def two_tokens : EnrollmentRegistry where
  hash_token := fun raw =>
    if raw = "tok-a" then "4f66a4283f8bc9768c3cb97fd06d267b79315aee941c9c1727b9354509242ffe"
    else if raw = "tok-b" then "efa1cd32d437a4dd30463a379503cadfb2b13481660f6345110f3bde01f2e773"
    else raw
  ttl := 900
  max_pending := 1

/-- A token expires and makes room for a second one, which is redeemed once. -/
def two_enrollments : List (Call Unit) :=
  [.issue "tok-a" "nas" () "linux", .advance 900, .issue "tok-b" "desk" () "windows", .verify "tok-a",
    .advance 899, .redeem "tok-b", .redeem "tok-b"]

theorem enrollment_single_use_two :
    ((two_tokens.log (fresh 0) two_enrollments).filterMap Event.spent).Nodup ∧
      (two_tokens.log (fresh 0) two_enrollments).filterMap Event.spent = ["tok-b"] := by
  refine ⟨(enrollment_single_use two_tokens 0 two_enrollments ?_ (by decide +kernel)).1, by decide +kernel⟩
  intro a ha b hb hab
  have hcases : ∀ raw ∈ tokens two_enrollments, raw = "tok-a" ∨ raw = "tok-b" := by
    intro raw hraw
    have hmem : raw ∈ ["tok-a", "tok-b", "tok-a", "tok-b", "tok-b"] := hraw
    simp only [List.mem_cons, List.not_mem_nil, or_false] at hmem
    tauto
  rcases hcases a ha with rfl | rfl <;> rcases hcases b hb with rfl | rfl
  · rfl
  · exact absurd hab (by decide)
  · exact absurd hab (by decide)
  · rfl

end Fathom.Deploy
