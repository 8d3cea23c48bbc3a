/-
**Records of fields validated one by one.**

A schema gives each field a validator of raw values, which may convert them, and a dump
of values back to raw ones. A record carries the proof that dumping and validating any
of its fields gives the value back; so a record can be dumped, some raw values replaced,
and the whole validated again. `model_validate_overlay` says what comes out when each
replacement is valid in its own field: the validated replacements, and the record's
values elsewhere. It is the absence of a check across fields that makes it so.
-/
import Mathlib.Data.List.Basic
import Mathlib.Logic.Function.Basic

set_option autoImplicit false

namespace Fathom

universe u v w

/-- The fields, their validators and a dump; what a validator returns is stable under both. -/
structure Schema (φ : Type u) (ρ : Type v) (ν : Type w) where
  fields : List φ
  complete : ∀ f, f ∈ fields
  validate : φ → ρ → Option ν
  dump : ν → ρ
  stable : ∀ f r v, validate f r = some v → validate f (dump v) = some v

namespace Schema

variable {φ : Type u} {ρ : Type v} {ν : Type w}

/-- A value for each field, each of which is valid there. -/
structure Record (S : Schema φ ρ ν) where
  values : φ → ν
  valid : ∀ f, S.validate f (S.dump (values f)) = some (values f)

variable {S : Schema φ ρ ν}

theorem Record.ext_values {r s : S.Record} (h : ∀ f, r.values f = s.values f) : r = s := by
  cases r
  cases s
  congr
  exact funext h

/-- The raw values of a record. -/
def model_dump (r : S.Record) (f : φ) : ρ := S.dump (r.values f)

/-- The record of some raw values, when each is valid in its field. -/
def model_validate (S : Schema φ ρ ν) (raw : φ → ρ) : Option S.Record :=
  if h : ∀ f ∈ S.fields, (S.validate f (raw f)).isSome = true then
    some
      { values := fun f => (S.validate f (raw f)).get (h f (S.complete f))
        valid := fun f => S.stable f (raw f) _ (Option.some_get (h f (S.complete f))).symm }
  else none

/-- Raw values with some of them replaced. -/
def overlay (replaced : φ → Option ρ) (raw : φ → ρ) (f : φ) : ρ := (replaced f).getD (raw f)

section

variable {raw : φ → ρ}

theorem model_validate_iff {r : S.Record} :
    S.model_validate raw = some r ↔ ∀ f, S.validate f (raw f) = some (r.values f) := by
  unfold model_validate
  constructor
  · intro h f
    split_ifs at h with hall
    rw [← Option.some.inj h]
    exact (Option.some_get (hall f (S.complete f))).symm
  · intro h
    have hall : ∀ f ∈ S.fields, (S.validate f (raw f)).isSome = true := fun f _ => by rw [h f]; rfl
    rw [dif_pos hall, Option.some.injEq]
    refine Record.ext_values fun f => Option.some.inj ?_
    rw [← h f]
    exact Option.some_get (hall f (S.complete f))

theorem model_validate_isSome : (S.model_validate raw).isSome = true ↔ ∀ f, (S.validate f (raw f)).isSome = true := by
  unfold model_validate
  split_ifs with hall
  · exact ⟨fun _ f => hall f (S.complete f), fun _ => rfl⟩
  · exact ⟨fun h => absurd h (by simp), fun h => absurd (fun f _ => h f) hall⟩

/-- One replaced value decides for itself. -/
theorem model_validate_update [DecidableEq φ] (r : S.Record) (f : φ) (x : ρ) :
    (S.model_validate (Function.update (model_dump r) f x)).isSome = true ↔ (S.validate f x).isSome = true := by
  rw [model_validate_isSome]
  constructor
  · intro h
    have hf := h f
    rw [Function.update_self] at hf
    exact hf
  · intro h g
    by_cases hg : g = f
    · rw [hg, Function.update_self]
      exact h
    · rw [Function.update_of_ne hg, model_dump, r.valid g]
      rfl

/-- **Replacements that are valid each in its own field are valid together**, and nothing
else changes. -/
theorem model_validate_overlay (r : S.Record) {replaced : φ → Option ρ}
    (h : ∀ f x, replaced f = some x → (S.validate f x).isSome = true) :
    ∃ t, S.model_validate (overlay replaced (model_dump r)) = some t ∧
      (∀ f x, replaced f = some x → S.validate f x = some (t.values f)) ∧
      ∀ f, replaced f = none → t.values f = r.values f := by
  have hall : (S.model_validate (overlay replaced (model_dump r))).isSome = true := by
    rw [model_validate_isSome]
    intro f
    unfold overlay
    cases hf : replaced f with
    | none =>
        rw [Option.getD_none, model_dump, r.valid f]
        rfl
    | some x =>
        rw [Option.getD_some]
        exact h f x hf
  obtain ⟨t, ht⟩ := Option.isSome_iff_exists.mp hall
  have hvalues := model_validate_iff.mp ht
  refine ⟨t, ht, fun f x hf => ?_, fun f hf => ?_⟩
  · have hval := hvalues f
    unfold overlay at hval
    rw [hf, Option.getD_some] at hval
    exact hval
  · have hval := hvalues f
    unfold overlay at hval
    rw [hf, Option.getD_none, model_dump, r.valid f, Option.some.injEq] at hval
    exact hval.symm

end

end Schema

end Fathom
