/-
**What the overrides promise**, and what the effective settings give.

The promise is one value for each field that is overridden: the one its last accepted
write was validated to, and for the model the default a switch of the provider reset it
to. In every run of the store each row can be decoded, and what it decodes to is valid in
its field; so the overrides are always valid together, and the effective settings never
fall back to the base. They hold the promised values as well, with one exception: a
secret is stored as its text and read back as a text, so a null is read back as the text
`null`.
-/
import Fathom.Config.Store

set_option autoImplicit false

namespace Fathom.Config

variable {c : Coercions} (fernet : Fernet) (lower : String → String) (base : Base c)

/-! ## The promise -/

/-- The store, and the values its overrides promise. -/
structure Tracked (c : Coercions) where
  state : State c
  promised : Field → Option FieldValue

/-- The value a field should have. -/
def Tracked.value (t : Tracked c) (f : Field) : FieldValue :=
  (t.promised f).getD (base.settings.values f)

/-- The promise of an accepted write. -/
def Tracked.promise (t : Tracked c) (f : Field) (value : Json.Value) : Field → Option FieldValue :=
  let promised := Function.update t.promised f (f.info.kind.validate c value)
  match reset_model lower (t.value base .inference_provider).text f value with
  | none => promised
  | some model => Function.update promised .inference_model (some (.str model))

/-- What the owner of the store calls, and the refresh that runs beside it. -/
inductive Call where
  | set_override (key : Name) (value : Json.Value) (updated_by : Option String) (nonce : ℕ)
  | set_secret (ref : Name) (value : String) (updated_by : Option String) (nonce : ℕ)
  | clear_override (key : Name)
  | effective
  | refresh

/-- An accepted call. -/
def step (t : Tracked c) : Call → Option (Tracked c)
  | .set_override key value updated_by nonce =>
    match key, t.state.set_override fernet lower base key value updated_by nonce with
    | .field f, .ok s => some { state := s, promised := t.promise lower base f value }
    | _, _ => none
  | .set_secret ref value updated_by nonce =>
    match t.state.set_secret fernet ref value updated_by nonce with
    | .ok s => some { t with state := s }
    | .error _ => none
  | .clear_override key =>
    some
      { state := (t.state.clear_override fernet key).1
        promised :=
          match key with
          | .field f => Function.update t.promised f none
          | .other _ _ => t.promised }
  | .effective => some { t with state := { t.state with store := (t.state.store.effective base).2 } }
  | .refresh => some { t with state := { t.state with store := .refresh fernet t.state.db } }

/-- The store from an empty table of overrides. -/
def runtime : System (Tracked c) Call where
  init := fun t => t.state.db.overrides.rows = [] ∧ t.state.store = {} ∧ t.promised = fun _ => none
  step := step fernet lower base

/-- The effective settings have the promised value in each overridden field and the
base's in each other, the overridden fields are those with a row, and the row of a secret
is a ciphertext. -/
structure Faithful (t : Tracked c) : Prop where
  effective : ∀ f, (t.state.store.effective base).1.values f = t.value base f
  overridden : ∀ f, (t.promised f).isSome = (t.state.db.overrides.find (.field f)).isSome
  at_rest : ∀ row ∈ t.state.db.overrides.rows, ∀ f, row.key = .field f → f.is_secret = true →
    row.is_secret = true ∧ ∃ nonce plaintext, row.value = fernet.encrypt nonce plaintext

/-- The call sets no secret to null. -/
def no_null_secret : Call → Bool
  | .set_override (.field f) .null _ _ => !f.is_secret
  | _ => true

/-! ## What is laid over the base -/

variable {fernet lower base}

/-- What overrides hold under the name of a field. -/
theorem lookup_field_override (overrides : List (Name × Override)) (f : Field) :
    (overrides.filterMap field_override).lookup f = (overrides.lookup (.field f)).map Override.value := by
  induction overrides with
  | nil => rfl
  | cons entry rest ih =>
      obtain ⟨key, o⟩ := entry
      cases key with
      | other ref free =>
          have hne : (Name.field f == .other ref free) = false := beq_false_of_ne (by simp)
          rw [List.filterMap_cons_none rfl, ih, List.lookup_cons, hne]
      | field g =>
          have hcons : ((Name.field g, o) :: rest).filterMap field_override
              = (g, o.value) :: rest.filterMap field_override := List.filterMap_cons_some rfl
          rw [hcons]
          by_cases hsame : f = g
          · rw [hsame, List.lookup_cons_self, List.lookup_cons_self]
            rfl
          · have hne : (Name.field f == .field g) = false := beq_false_of_ne fun heq => hsame (Name.field.inj heq)
            rw [List.lookup_cons, List.lookup_cons, beq_false_of_ne hsame, hne, ih]

/-- The value of a field in memory is that of its row. -/
theorem lookup_decoded {rows : List SettingsOverride} (hnodup : (rows.map SettingsOverride.key).Nodup)
    (f : Field) :
    ((rows.filterMap fun row => (decode fernet row).map fun o => (row.key, o)).filterMap field_override).lookup f
      = (rows.find? fun row => row.key = .field f).bind fun row => (decode fernet row).map Override.value := by
  rw [lookup_field_override, lookup_decoded_rows hnodup, Option.map_bind]
  rfl

/-- Overrides that are valid each in its own field, laid over some settings. -/
theorem overlaid_values (settings : Settings c) {overrides : List (Name × Override)}
    (h : ∀ f x, (overrides.filterMap field_override).lookup f = some x → (f.info.kind.validate c x).isSome = true) :
    (∀ f x, (overrides.filterMap field_override).lookup f = some x →
        f.info.kind.validate c x = some ((overlaid settings overrides).values f)) ∧
      ∀ f, (overrides.filterMap field_override).lookup f = none →
        (overlaid settings overrides).values f = settings.values f := by
  obtain ⟨t, hvalid, hover, helse⟩ :=
    @Schema.model_validate_overlay _ _ _ _ settings (fun f => (overrides.filterMap field_override).lookup f) h
  have hoverlaid : overlaid settings overrides = t := by
    unfold overlaid
    dsimp only
    by_cases hempty : (overrides.filterMap field_override).isEmpty = true
    · rw [if_pos hempty]
      rw [List.isEmpty_iff] at hempty
      refine Schema.Record.ext_values fun f => (helse f ?_).symm
      rw [hempty]
      rfl
    · rw [if_neg hempty, hvalid, Option.getD_some]
  rw [hoverlaid]
  exact ⟨hover, helse⟩

/-! ## Rows and promises -/

/-- The row of a field: kept as its policy says, and valid as it is read back. -/
structure SoundRow (c : Coercions) (fernet : Fernet) (f : Field) (row : SettingsOverride) : Prop where
  secret : row.is_secret = f.is_secret
  cipher : f.is_secret = true → ∃ nonce plaintext, row.value = fernet.encrypt nonce plaintext
  valid : ∃ o, decode fernet row = some o ∧ (f.info.kind.validate c o.value).isSome = true

/-- The rows of the fields are sound, and there is one for each promise. -/
structure Agrees (c : Coercions) (fernet : Fernet) (table : Table SettingsOverride.key)
    (promised : Field → Option FieldValue) : Prop where
  rows : ∀ row ∈ table.rows, ∀ f, row.key = .field f → SoundRow c fernet f row
  overridden : ∀ f, (promised f).isSome = (table.find (.field f)).isSome

/-- The row of a field reads back as the value promised. -/
def Kept (c : Coercions) (fernet : Fernet) (table : Table SettingsOverride.key)
    (promised : Field → Option FieldValue) (f : Field) : Prop :=
  ∀ v, promised f = some v → ∃ row o, table.find (.field f) = some row ∧ decode fernet row = some o ∧
    f.info.kind.validate c o.value = some v

/-- What is read back of a value stored for a field. -/
def stored_value (f : Field) (value : Json.Value) : Json.Value :=
  if f.is_secret then .str (secret_text value) else value

theorem decode_override_row (f : Field) (value : Json.Value) (updated_by : Option String) (nonce : ℕ) :
    decode fernet (override_row fernet f f.is_secret value updated_by nonce)
      = some ⟨stored_value f value, f.is_secret⟩ := by
  unfold decode override_row stored_value
  cases f.is_secret with
  | true =>
      dsimp only
      rw [if_pos rfl, if_pos rfl, if_pos rfl, fernet.decrypt_encrypt]
      rfl
  | false =>
      have hloads : Json.loads (dumps value).toList = some value := by
        rw [dumps, String.toList_ofList, Json.loads_dumps]
      dsimp only
      rw [if_neg (by simp), if_neg (by simp), if_neg (by simp), hloads]
      rfl

/-- **The round trip of a value**: an accepted value is read back as itself, unless it is
the null of a secret. -/
theorem validate_stored {f : Field} {value : Json.Value} {v : FieldValue}
    (hvalue : f.info.kind.validate c value = some v) :
    f.info.kind.validate c (stored_value f value) = some v ↔ ¬(f.is_secret = true ∧ value = .null) := by
  unfold stored_value
  cases hsecret : f.is_secret with
  | false =>
      rw [if_neg (by simp)]
      exact ⟨fun _ h => absurd h.1 (by simp), fun _ => hvalue⟩
  | true =>
      rw [if_pos rfl]
      rw [kind_of_secret f hsecret] at hvalue ⊢
      -- an optional text accepts texts and null
      cases value with
      | null =>
          constructor
          · intro h
            rw [← hvalue] at h
            exact absurd h (by simp [FieldKind.validate])
          · intro h
            exact absurd ⟨rfl, rfl⟩ h
      | str s => exact ⟨fun _ h => absurd h.2 (by simp), fun _ => hvalue⟩
      | _ => exact absurd hvalue (by simp [FieldKind.validate])

theorem stored_isSome {f : Field} {value : Json.Value} {v : FieldValue}
    (hvalue : f.info.kind.validate c value = some v) :
    (f.info.kind.validate c (stored_value f value)).isSome = true := by
  unfold stored_value
  cases hsecret : f.is_secret with
  | false =>
      rw [if_neg (by simp), hvalue]
      rfl
  | true =>
      rw [if_pos rfl, kind_of_secret f hsecret]
      rfl

section

variable {table : Table SettingsOverride.key} {promised : Field → Option FieldValue}

/-- A write of a field. -/
theorem Agrees.put (h : Agrees c fernet table promised) {f : Field} {value : Json.Value} {v : FieldValue}
    (hvalue : f.info.kind.validate c value = some v) (updated_by : Option String) (nonce : ℕ) :
    Agrees c fernet (table.put (override_row fernet f f.is_secret value updated_by nonce))
      (Function.update promised f (some v)) := by
  constructor
  · intro row hrow g hg
    rcases Table.mem_put hrow with heq | ⟨hold, _⟩
    · have hfg : f = g := by
        rw [heq] at hg
        exact Name.field.inj hg
      rw [heq, ← hfg]
      refine ⟨rfl, fun hsecret => ⟨nonce, secret_text value, ?_⟩, _, decode_override_row f value updated_by nonce,
        stored_isSome hvalue⟩
      exact if_pos hsecret
    · exact h.rows row hold g hg
  · intro g
    by_cases hg : g = f
    · rw [hg, Function.update_self]
      exact congrArg Option.isSome (Table.find_put_self table (override_row fernet f f.is_secret value updated_by nonce)).symm
    · rw [Function.update_of_ne hg, h.overridden g]
      refine congrArg Option.isSome (Table.find_put_ne table fun heq => hg ?_).symm
      exact Name.field.inj heq

theorem kept_put_self {f : Field} {value : Json.Value} {v : FieldValue}
    (hvalue : f.info.kind.validate c value = some v) (updated_by : Option String) (nonce : ℕ) :
    Kept c fernet (table.put (override_row fernet f f.is_secret value updated_by nonce))
      (Function.update promised f (some v)) f ↔ ¬(f.is_secret = true ∧ value = .null) := by
  rw [← validate_stored hvalue]
  have hfind := Table.find_put_self table (override_row fernet f f.is_secret value updated_by nonce)
  have hdecode := @decode_override_row fernet f value updated_by nonce
  constructor
  · intro h
    obtain ⟨row, o, hrow, ho, hv⟩ := h v (Function.update_self _ _ _)
    have hsame := Option.some.inj (hfind.symm.trans hrow)
    rw [← hsame, hdecode, Option.some.injEq] at ho
    rw [← ho] at hv
    exact hv
  · intro h w hw
    rw [Function.update_self, Option.some.injEq] at hw
    rw [← hw]
    exact ⟨_, _, hfind, hdecode, h⟩

/-- Nothing is lost of the fields whose rows are not written. -/
theorem Kept.of_find {table' : Table SettingsOverride.key} {promised' : Field → Option FieldValue} {f : Field}
    (h : Kept c fernet table promised f) (hfind : table'.find (.field f) = table.find (.field f))
    (hpromised : promised' f = promised f) : Kept c fernet table' promised' f := by
  intro v hv
  rw [hpromised] at hv
  rw [hfind]
  exact h v hv

theorem Kept.put_ne {f g : Field} (h : Kept c fernet table promised g) (hg : g ≠ f) (is_secret : Bool)
    (value : Json.Value) (updated_by : Option String) (nonce : ℕ) (v : Option FieldValue) :
    Kept c fernet (table.put (override_row fernet f is_secret value updated_by nonce))
      (Function.update promised f v) g := by
  refine h.of_find (Table.find_put_ne table fun heq => hg ?_) (Function.update_of_ne hg _ _)
  exact Name.field.inj heq

end

variable {value : Json.Value} {t' : Tracked c} {f : Field} {v : FieldValue} {key : Name}

/-! ## The invariant -/

/-- What holds after every run: memory is the table as it decodes, what is cached is the
overlay, the rows agree with the promises, and all but the secrets read back as promised. -/
structure Inv (fernet : Fernet) (base : Base c) (t : Tracked c) : Prop where
  memory : t.state.store.overrides = decoded fernet t.state.db
  cached : ∀ id version settings, t.state.store.cache = some (id, version, settings) →
    settings = overlaid base.settings t.state.store.overrides
  agrees : Agrees c fernet t.state.db.overrides t.promised
  kept : ∀ f, f.is_secret = false → Kept c fernet t.state.db.overrides t.promised f

variable {t : Tracked c}

theorem effective_of_cached {store : Store c} (h : ∀ id version settings, store.cache = some (id, version, settings) →
    settings = overlaid base.settings store.overrides) :
    (store.effective base).1 = overlaid base.settings store.overrides := by
  unfold Store.effective
  cases hcache : store.cache with
  | none => rfl
  | some entry =>
      obtain ⟨id, version, settings⟩ := entry
      dsimp only
      split_ifs with hsame
      · exact h id version settings hcache
      · rfl

theorem Inv.effective_eq (h : Inv fernet base t) :
    (t.state.store.effective base).1 = overlaid base.settings t.state.store.overrides :=
  effective_of_cached h.cached

theorem Inv.lookup (h : Inv fernet base t) (f : Field) :
    (t.state.store.overrides.filterMap field_override).lookup f
      = (t.state.db.overrides.find (.field f)).bind fun row => (decode fernet row).map Override.value := by
  rw [h.memory]
  exact lookup_decoded t.state.db.overrides.unique f

/-- **The overrides are valid together**, whatever was set: each field in memory is. -/
theorem Inv.valid (h : Inv fernet base t) (f : Field) (x : Json.Value)
    (hx : (t.state.store.overrides.filterMap field_override).lookup f = some x) :
    (f.info.kind.validate c x).isSome = true := by
  rw [h.lookup f] at hx
  obtain ⟨row, hrow, hmap⟩ := Option.bind_eq_some_iff.mp hx
  obtain ⟨o, ho, hox⟩ := Option.map_eq_some_iff.mp hmap
  obtain ⟨o', ho', hvalid⟩ := (h.agrees.rows row (Table.mem_of_find hrow) f (Table.key_of_find hrow)).valid
  rw [ho, Option.some.injEq] at ho'
  rw [← hox, ho']
  exact hvalid

/-- An overridden field has what its row decodes to. -/
theorem Inv.value_of_row (h : Inv fernet base t) {row : SettingsOverride} {o : Override}
    (hrow : t.state.db.overrides.find (.field f) = some row) (ho : decode fernet row = some o) :
    f.info.kind.validate c o.value = some ((t.state.store.effective base).1.values f) := by
  rw [h.effective_eq]
  refine (overlaid_values base.settings h.valid).1 f o.value ?_
  rw [h.lookup f, hrow, Option.bind_some, ho]
  rfl

/-- Another field has the base's value. -/
theorem Inv.value_of_none (h : Inv fernet base t) (hrow : t.state.db.overrides.find (.field f) = none) :
    (t.state.store.effective base).1.values f = base.settings.values f := by
  rw [h.effective_eq]
  refine (overlaid_values base.settings h.valid).2 f ?_
  rw [h.lookup f, hrow]
  rfl

/-- A field that reads back as promised has the value it should. -/
theorem Inv.value_iff_kept (h : Inv fernet base t) (f : Field) :
    (t.state.store.effective base).1.values f = t.value base f ↔ Kept c fernet t.state.db.overrides t.promised f := by
  have hoverridden := h.agrees.overridden f
  unfold Tracked.value
  cases hpromised : t.promised f with
  | none =>
      rw [hpromised] at hoverridden
      have hnone : t.state.db.overrides.find (.field f) = none := by
        rw [← Option.isNone_iff_eq_none, ← Option.not_isSome, ← hoverridden]
        rfl
      refine ⟨fun _ v hv => ?_, fun _ => h.value_of_none hnone⟩
      rw [hpromised] at hv
      exact absurd hv (by simp)
  | some v =>
      rw [hpromised] at hoverridden
      obtain ⟨row, hrow⟩ := Option.isSome_iff_exists.mp hoverridden.symm
      obtain ⟨o, ho, _⟩ := (h.agrees.rows row (Table.mem_of_find hrow) f (Table.key_of_find hrow)).valid
      have hvalue := h.value_of_row hrow ho
      rw [Option.getD_some]
      constructor
      · intro heq w hw
        rw [hpromised] at hw
        rw [heq] at hvalue
        exact ⟨row, o, hrow, ho, hvalue.trans hw⟩
      · intro hkept
        obtain ⟨row', o', hrow', ho', hv⟩ := hkept v hpromised
        rw [hrow, Option.some.injEq] at hrow'
        rw [← hrow', ho, Option.some.injEq] at ho'
        rw [← ho', hvalue, Option.some.injEq] at hv
        exact hv

/-- Where the invariant holds, a state is faithful when every field reads back as
promised. -/
theorem Inv.faithful_iff (h : Inv fernet base t) :
    Faithful fernet base t ↔ ∀ f, Kept c fernet t.state.db.overrides t.promised f := by
  constructor
  · intro hfaithful f
    exact (h.value_iff_kept f).mp (hfaithful.effective f)
  · intro hkept
    refine ⟨fun f => (h.value_iff_kept f).mpr (hkept f), h.agrees.overridden, fun row hrow f hkey hsecret => ?_⟩
    have hsound := h.agrees.rows row hrow f hkey
    exact ⟨hsound.secret.trans hsecret, hsound.cipher hsecret⟩

/-! ## The calls -/

/-- The end of a write keeps the invariant, when the tables do. -/
theorem Inv.written {db : Database} {promised : Field → Option FieldValue}
    (hagrees : Agrees c fernet db.overrides promised)
    (hkept : ∀ f, f.is_secret = false → Kept c fernet db.overrides promised f) :
    Inv fernet base { state := .written fernet db, promised := promised } where
  memory := rfl
  cached := fun _ _ _ h => absurd h (by simp [State.written, Store.refresh])
  agrees := hagrees
  kept := hkept

theorem check_override_ok {settings : Settings c} {policy : SettingPolicy}
    (h : check_override settings key value = .ok (f, policy)) :
    key = .field f ∧ f.is_secret = policy.is_secret ∧ ∃ v, f.info.kind.validate c value = some v := by
  unfold check_override at h
  cases key with
  | other ref free => exact absurd h (by simp)
  | field g =>
      dsimp only at h
      cases hpolicy : g.policy with
      | none =>
          rw [hpolicy] at h
          exact absurd h (by simp)
      | some p =>
          rw [hpolicy] at h
          dsimp only at h
          split_ifs at h with heditable hraw hvalid
          rw [Except.ok.injEq, Prod.mk.injEq] at h
          obtain ⟨hg, hp⟩ := h
          rw [Schema.model_validate_update] at hvalid
          rw [← hg, ← hp]
          refine ⟨rfl, ?_, Option.isSome_iff_exists.mp hvalid⟩
          rw [Field.is_secret, hpolicy]
          rfl

variable {updated_by : Option String} {nonce : ℕ}

/-- **What an accepted write does**: one row and one promise, and for a switch of the
provider the row and the promise of the model. The provider it switches from is the one
promised, since the provider is no secret. -/
theorem set_override_cases (h : Inv fernet base t)
    (hstep : step fernet lower base t (.set_override key value updated_by nonce) = some t') :
    ∃ f v, key = .field f ∧ f.info.kind.validate c value = some v ∧
      (t' =
          { state := .written fernet (t.state.db.upsert (override_row fernet f f.is_secret value updated_by nonce))
            promised := Function.update t.promised f (some v) } ∨
        ∃ model, f = .inference_provider ∧
          t' =
            { state := .written fernet
                ((t.state.db.upsert (override_row fernet f f.is_secret value updated_by nonce)).upsert
                  (override_row fernet .inference_model false (.str model) updated_by nonce))
              promised :=
                Function.update (Function.update t.promised f (some v)) .inference_model (some (.str model)) }) := by
  have hold : (t.state.store.effective base).1.values .inference_provider = t.value base .inference_provider :=
    (h.value_iff_kept .inference_provider).mpr (h.kept _ provider_not_secret.1)
  unfold step State.set_override at hstep
  dsimp only at hstep
  cases hcheck : check_override base.settings key value with
  | error e =>
      rw [hcheck] at hstep
      cases key <;> exact absurd hstep (by simp)
  | ok checked =>
      obtain ⟨f, policy⟩ := checked
      obtain ⟨hkey, hsecret, v, hv⟩ := check_override_ok hcheck
      rw [hcheck, hkey] at hstep
      dsimp only at hstep
      rw [← hsecret, hold] at hstep
      refine ⟨f, v, hkey, hv, ?_⟩
      cases hreset : reset_model lower (t.value base .inference_provider).text f value with
      | none =>
          rw [hreset] at hstep
          left
          rw [← Option.some.inj hstep, Tracked.promise, hreset, hv]
      | some model =>
          rw [hreset] at hstep
          right
          refine ⟨model, ?_, ?_⟩
          · unfold reset_model at hreset
            split at hreset
            · rfl
            · exact absurd hreset (by simp)
          · rw [← Option.some.inj hstep, Tracked.promise, hreset, hv]

theorem validate_model (model : String) :
    (Field.info .inference_model).kind.validate c (.str model) = some (.str model) := rfl

/-- A write keeps the invariant, and is kept itself unless it sets a secret to null. -/
theorem set_override_step (h : Inv fernet base t)
    (hstep : step fernet lower base t (.set_override key value updated_by nonce) = some t') :
    Inv fernet base t' ∧
      ((∀ g, Kept c fernet t.state.db.overrides t.promised g) →
        ((∀ g, Kept c fernet t'.state.db.overrides t'.promised g) ↔
          no_null_secret (.set_override key value updated_by nonce) = true)) := by
  obtain ⟨f, v, hkey, hv, hcases⟩ := set_override_cases h hstep
  have hok : no_null_secret (.set_override key value updated_by nonce) = true ↔
      ¬(f.is_secret = true ∧ value = .null) := by
    rw [hkey]
    cases value <;> simp [no_null_secret]
  have hagrees := h.agrees.put hv updated_by nonce
  have hself := @kept_put_self c fernet t.state.db.overrides t.promised f value v hv updated_by nonce
  have hother : ∀ g, g ≠ f → Kept c fernet t.state.db.overrides t.promised g →
      Kept c fernet (t.state.db.overrides.put (override_row fernet f f.is_secret value updated_by nonce))
        (Function.update t.promised f (some v)) g :=
    fun g hg hkept => hkept.put_ne hg _ _ _ _ _
  rw [hok]
  rcases hcases with ht | ⟨model, hf, ht⟩
  · rw [ht]
    constructor
    · refine Inv.written hagrees fun g hg => ?_
      by_cases hgf : g = f
      · rw [hgf] at hg ⊢
        exact hself.mpr fun hnull => absurd (hg.symm.trans hnull.1) (by simp)
      · exact hother g hgf (h.kept g hg)
    · intro hall
      refine ⟨fun hkept => hself.mp (hkept f), fun hnull g => ?_⟩
      by_cases hgf : g = f
      · rw [hgf]
        exact hself.mpr hnull
      · exact hother g hgf (hall g)
  · rw [ht]
    -- the provider is no secret, and the model neither
    have hplain : ¬(f.is_secret = true ∧ value = .null) := by
      rw [hf, provider_not_secret.1]
      exact fun hnull => absurd hnull.1 (by simp)
    have hmodel : override_row fernet .inference_model false (.str model) updated_by nonce
        = override_row fernet .inference_model (Field.is_secret .inference_model) (.str model) updated_by nonce := by
      rw [provider_not_secret.2]
    have hagrees' := hagrees.put (@validate_model c model) updated_by nonce
    have hself' := (@kept_put_self c fernet
      (t.state.db.overrides.put (override_row fernet f f.is_secret value updated_by nonce))
      (Function.update t.promised f (some v)) _ _ _ (@validate_model c model) updated_by nonce).mpr
      (fun hnull => absurd hnull.2 (by simp))
    rw [← hmodel] at hagrees' hself'
    have hevery : ∀ g, Kept c fernet t.state.db.overrides t.promised g →
        Kept c fernet
          ((t.state.db.overrides.put (override_row fernet f f.is_secret value updated_by nonce)).put
            (override_row fernet .inference_model false (.str model) updated_by nonce))
          (Function.update (Function.update t.promised f (some v)) .inference_model (some (.str model))) g := by
      intro g hkept
      by_cases hgm : g = .inference_model
      · rw [hgm]
        exact hself'
      · refine Kept.put_ne ?_ hgm _ _ _ _ _
        by_cases hgf : g = f
        · rw [hgf]
          exact hself.mpr hplain
        · exact hother g hgf hkept
    exact ⟨Inv.written hagrees' fun g hg => hevery g (h.kept g hg),
      fun hall => ⟨fun _ => hplain, fun _ g => hevery g (hall g)⟩⟩

/-- A write of another name leaves the fields alone. -/
theorem set_secret_step {ref : Name} {value : String} (h : Inv fernet base t)
    (hstep : step fernet lower base t (.set_secret ref value updated_by nonce) = some t') :
    Inv fernet base t' ∧
      ((∀ g, Kept c fernet t.state.db.overrides t.promised g) → ∀ g, Kept c fernet t'.state.db.overrides t'.promised g) := by
  unfold step State.set_secret at hstep
  dsimp only at hstep
  cases ref with
  | field f => exact absurd hstep (by simp)
  | other text free =>
      dsimp only at hstep
      by_cases hlength : (text.toList.isEmpty || decide (128 < text.toList.length)) = true
      · rw [if_pos hlength] at hstep
        exact absurd hstep (by simp)
      · rw [if_neg hlength] at hstep
        rw [← Option.some.inj hstep]
        have hfind : ∀ g, ((t.state.db.upsert
            { key := .other text free, value := fernet.encrypt nonce value, is_secret := true,
              updated_by := updated_by }).overrides).find (.field g) = t.state.db.overrides.find (.field g) :=
          fun g => Table.find_put_ne _ (by simp)
        have hkept : ∀ g, Kept c fernet t.state.db.overrides t.promised g → _ :=
          fun g hg => hg.of_find (hfind g) rfl
        refine ⟨Inv.written ⟨fun row hrow g hg => ?_, fun g => ?_⟩ fun g hg => hkept g (h.kept g hg),
          fun hall g => hkept g (hall g)⟩
        · rcases Table.mem_put hrow with heq | ⟨hold, _⟩
          · rw [heq] at hg
            exact absurd hg (by simp)
          · exact h.agrees.rows row hold g hg
        · rw [hfind g]
          exact h.agrees.overridden g

/-- A cleared field has no promise and no row; another name changes nothing for the fields. -/
theorem clear_override_step (h : Inv fernet base t) (hstep : step fernet lower base t (.clear_override key) = some t') :
    Inv fernet base t' ∧
      ((∀ g, Kept c fernet t.state.db.overrides t.promised g) → ∀ g, Kept c fernet t'.state.db.overrides t'.promised g) := by
  have hrows : ∀ row ∈ (t.state.db.overrides.erase key).rows, ∀ f, row.key = .field f → SoundRow c fernet f row :=
    fun row hrow f hf => h.agrees.rows row (List.mem_filter.mp hrow).1 f hf
  rw [← Option.some.inj hstep]
  cases key with
  | other text free =>
      have hfind : ∀ g, (t.state.db.overrides.erase (.other text free)).find (.field g)
          = t.state.db.overrides.find (.field g) := by
        intro g
        rw [Table.find_erase, if_neg (by simp)]
      have hkept : ∀ g, Kept c fernet t.state.db.overrides t.promised g →
          Kept c fernet (t.state.db.overrides.erase (.other text free)) t.promised g :=
        fun g hg => hg.of_find (hfind g) rfl
      refine ⟨Inv.written ⟨hrows, fun g => ?_⟩ fun g hg => hkept g (h.kept g hg), fun hall g => hkept g (hall g)⟩
      rw [hfind g]
      exact h.agrees.overridden g
  | field f =>
      have hfind : ∀ g, (t.state.db.overrides.erase (.field f)).find (.field g)
          = if g = f then none else t.state.db.overrides.find (.field g) := by
        intro g
        rw [Table.find_erase]
        by_cases hg : g = f
        · rw [if_pos hg, if_pos (by rw [hg])]
        · rw [if_neg hg, if_neg (fun heq => hg (Name.field.inj heq))]
      have hkept : ∀ g, Kept c fernet t.state.db.overrides t.promised g →
          Kept c fernet (t.state.db.overrides.erase (.field f)) (Function.update t.promised f none) g := by
        intro g hg
        by_cases hgf : g = f
        · intro v hv
          rw [hgf, Function.update_self] at hv
          exact absurd hv (by simp)
        · refine hg.of_find ?_ (Function.update_of_ne hgf _ _)
          rw [hfind g, if_neg hgf]
      refine ⟨Inv.written ⟨hrows, fun g => ?_⟩ fun g hg => hkept g (h.kept g hg), fun hall g => hkept g (hall g)⟩
      dsimp only
      rw [hfind g]
      by_cases hgf : g = f
      · rw [if_pos hgf, hgf, Function.update_self]
        rfl
      · rw [if_neg hgf, Function.update_of_ne hgf]
        exact h.agrees.overridden g

/-- Reading the effective settings caches what was read. -/
theorem effective_step (h : Inv fernet base t) (hstep : step fernet lower base t .effective = some t') :
    Inv fernet base t' ∧ t'.state.db = t.state.db ∧ t'.promised = t.promised := by
  rw [← Option.some.inj hstep]
  have hread : (t.state.store.effective base).2.overrides = t.state.store.overrides ∧
      ∀ id version settings, (t.state.store.effective base).2.cache = some (id, version, settings) →
        settings = overlaid base.settings t.state.store.overrides := by
    unfold Store.effective
    cases hcache : t.state.store.cache with
    | none =>
        refine ⟨rfl, fun id version settings hsome => ?_⟩
        rw [Option.some.injEq] at hsome
        exact (congrArg (fun entry => entry.2.2) hsome).symm
    | some entry =>
        obtain ⟨id, version, settings⟩ := entry
        dsimp only
        split_ifs with hsame
        · exact ⟨rfl, fun id' version' settings' hsome => h.cached id' version' settings' hsome⟩
        · refine ⟨rfl, fun id' version' settings' hsome => ?_⟩
          rw [Option.some.injEq] at hsome
          exact (congrArg (fun entry => entry.2.2) hsome).symm
  refine ⟨⟨hread.1.trans h.memory, fun id version settings hsome => ?_, h.agrees, h.kept⟩, rfl, rfl⟩
  rw [hread.2 id version settings hsome, hread.1]

/-- A refresh reads what is there already. -/
theorem refresh_step (h : Inv fernet base t) (hstep : step fernet lower base t .refresh = some t') :
    Inv fernet base t' ∧ t'.state.db = t.state.db ∧ t'.promised = t.promised := by
  rw [← Option.some.inj hstep]
  exact ⟨⟨rfl, fun _ _ _ hsome => absurd hsome (by simp [Store.refresh]), h.agrees, h.kept⟩, rfl, rfl⟩

/-- **One call**: it keeps the invariant, and a state in which every field reads back as
promised leads to another unless a secret is set to null. -/
theorem Inv.step {call : Call} (h : Inv fernet base t) (hstep : step fernet lower base t call = some t') :
    Inv fernet base t' ∧ ((∀ g, Kept c fernet t.state.db.overrides t.promised g) →
        ((∀ g, Kept c fernet t'.state.db.overrides t'.promised g) ↔ no_null_secret call = true)) := by
  cases call with
  | set_override key value updated_by nonce => exact set_override_step h hstep
  | set_secret ref value updated_by nonce =>
      obtain ⟨hinv, hkept⟩ := set_secret_step h hstep
      exact ⟨hinv, fun hall => ⟨fun _ => rfl, fun _ => hkept hall⟩⟩
  | clear_override key =>
      obtain ⟨hinv, hkept⟩ := clear_override_step h hstep
      exact ⟨hinv, fun hall => ⟨fun _ => rfl, fun _ => hkept hall⟩⟩
  | effective =>
      obtain ⟨hinv, hdb, hpromised⟩ := effective_step h hstep
      rw [hdb, hpromised]
      exact ⟨hinv, fun hall => ⟨fun _ => rfl, fun _ => hall⟩⟩
  | refresh =>
      obtain ⟨hinv, hdb, hpromised⟩ := refresh_step h hstep
      rw [hdb, hpromised]
      exact ⟨hinv, fun hall => ⟨fun _ => rfl, fun _ => hall⟩⟩

theorem Inv.init (h : (runtime fernet lower base).init t) : Inv fernet base t := by
  obtain ⟨hrows, hstore, hpromised⟩ := h
  have hfind : ∀ key, t.state.db.overrides.find key = none := by
    intro key
    rw [Table.find_none_iff, hrows]
    exact List.not_mem_nil
  constructor
  · rw [hstore, decoded, hrows]
    rfl
  · intro id version settings hsome
    rw [hstore] at hsome
    exact absurd hsome (by simp)
  · refine ⟨fun row hrow => ?_, fun f => ?_⟩
    · rw [hrows] at hrow
      exact absurd hrow List.not_mem_nil
    · rw [hpromised, hfind]
      rfl
  · intro f _ v hv
    rw [hpromised] at hv
    exact absurd hv (by simp)

/-! ## Whole runs -/

/-- **No fall back**: whatever has been set, the overrides validate together. -/
theorem overrides_valid_together {t₀ : Tracked c} {calls : List Call}
    (hinit : (runtime fernet lower base).init t₀) (hrun : (runtime fernet lower base).run t₀ calls = some t) :
    ((schema c).model_validate (Schema.overlay
      (fun f => (t.state.store.overrides.filterMap field_override).lookup f)
      (Schema.model_dump base.settings))).isSome = true := by
  have hinv : Inv fernet base t :=
    System.run_keeps (S := runtime fernet lower base) (fun u call u' hu hstep => (hu.step hstep).1) (Inv.init hinit) hrun
  obtain ⟨settings, hvalid, _⟩ := Schema.model_validate_overlay base.settings hinv.valid
  rw [hvalid]
  rfl

/-! ## Two runs -/

/-- The digits of a float before and after its point. -/
def whole_and_fraction (x : Json.FloatLit) : Int × ℕ :=
  (Json.int_of_text (x.text.takeWhile Char.isDigit),
    (Json.int_of_text ((x.text.dropWhile Char.isDigit).drop 1)).natAbs)

/-- A value of a scalar type is taken for itself, and a float without a sign or an
exponent is compared by its digits. -/
def plain_coercions : Coercions where
  to_bool := fun raw => match raw with
    | .bool b => some b
    | _ => none
  to_int := fun raw => match raw with
    | .int n => some n
    | _ => none
  to_float := fun raw => match raw with
    | .float x => some x
    | _ => none
  float_gt := fun x n => n < (whole_and_fraction x).1 ∨ (n = (whole_and_fraction x).1 ∧ 0 < (whole_and_fraction x).2)
  float_le := fun x n => (whole_and_fraction x).1 < n ∨ (n = (whole_and_fraction x).1 ∧ (whole_and_fraction x).2 = 0)
  to_bool_bool := fun _ => rfl
  to_int_int := fun _ => rfl
  to_float_float := fun _ => rfl

/-- A cipher that prefixes a text. -/
def prefix_cipher : Fernet where
  encrypt := fun _ plaintext => String.ofList ('g' :: plaintext.toList)
  decrypt := fun ciphertext =>
    match ciphertext.toList with
    | 'g' :: rest => some (String.ofList rest)
    | _ => none
  decrypt_encrypt := fun _ plaintext => by
    rw [String.toList_ofList]
    exact congrArg some String.ofList_toList

/-- The settings without an environment: every default passes its own check. -/
def default_settings : Settings plain_coercions where
  values := fun f => f.info.default
  valid := by
    have hall : ∀ f ∈ Field.all, (schema plain_coercions).validate f ((schema plain_coercions).dump f.info.default)
        = some f.info.default := by decide +kernel
    exact fun f => hall f f.mem_all

def default_base : Base plain_coercions := ⟨0, default_settings⟩

/-- A store before its first refresh. -/
def fresh : Tracked plain_coercions where
  state := { db := { overrides := .empty _, version := none }, store := {} }
  promised := fun _ => none

/-- A list, a null, a switch of the provider, a secret, a number, a Boolean, and a reset. -/
def settings_session : List Call :=
  [.set_override (.field .notify_outbound_categories) (.arr [.str "problem"]) none 0,
    .set_override (.field .organize_model) .null none 0,
    .set_override (.field .inference_provider) (.str "anthropic") none 0,
    .effective,
    .set_override (.field .ingest_proxy_secret) (.str "topsecret") none 1,
    .set_override (.field .treemap_max_nodes) (.int 300) none 0,
    .set_override (.field .organize_enabled) (.bool true) none 0,
    .clear_override (.field .organize_model)]

theorem fresh_init : (runtime prefix_cipher (fun s => s) default_base).init fresh := ⟨rfl, rfl, rfl⟩

/-- A secret set to null. -/
def null_secret : List Call := [.set_override (.field .ingest_proxy_secret) .null none 0]

theorem overrides_valid_together_session : ∃ t,
    (runtime prefix_cipher (fun s => s) default_base).run fresh settings_session = some t ∧
      ((schema plain_coercions).model_validate (Schema.overlay
        (fun f => (t.state.store.overrides.filterMap field_override).lookup f)
        (Schema.model_dump default_base.settings))).isSome = true := by
  have hsome : ((runtime prefix_cipher (fun s => s) default_base).run fresh settings_session).isSome = true := by
    decide +kernel
  obtain ⟨t, hrun⟩ := Option.isSome_iff_exists.mp hsome
  exact ⟨t, hrun, overrides_valid_together fresh_init hrun⟩

end Fathom.Config
