/-
**The runtime settings store** (`core/settings_store.py`).

An override is a row: a secret as the ciphertext of its text, any other value as its JSON
text. A write validates the value against the base settings alone, stores it, and reads
all rows back into memory; the effective settings are the base with everything in memory
laid over it, validated again, and kept until the next change.

The calls follow one another, each committed before the next, and the database answers.
The cipher is a parameter, an encryption with the nonce it draws; so is lower case, which
is Unicode's. The log of what could not be decoded is left out.
-/
import Fathom.Config.Policy
import Fathom.Lib.System
import Fathom.Lib.Table
import Mathlib.Data.List.DropRight

set_option autoImplicit false

namespace Fathom.Config

/-- The cipher of the store, under its key. -/
structure Fernet where
  encrypt : ℕ → String → String
  decrypt : String → Option String
  decrypt_encrypt : ∀ nonce plaintext, decrypt (encrypt nonce plaintext) = some plaintext

/-! ## Keys -/

/-- A key: a field of the settings, or any other text. -/
inductive Name where
  | field (f : Field)
  | other (ref : String) (free : ∀ f ∈ Field.all, f.info.name ≠ ref)
  deriving DecidableEq

/-- `SettingsStoreError`, with what its texts are made of. -/
inductive SettingsStoreError where
  /-- `… is not an editable setting` -/
  | not_editable (key : Name)
  /-- `… expects a secret-backend reference NAME, not the key itself …` -/
  | raw_secret (label : String)
  /-- `invalid value for …` -/
  | invalid (key : Field)
  /-- `secret reference must be 1..128 chars` -/
  | ref_length
  /-- `… is a setting; use the setting endpoint` -/
  | is_setting (key : Field)
  deriving DecidableEq

/-- `_ACRONYMS`. -/
def ACRONYMS : List String :=
  ["ai", "api", "cpu", "csv", "db", "gpu", "id", "ip", "json", "llm", "mfa", "ram", "smtp", "ssh", "tls",
    "ttl", "ui", "url", "uid", "gid"]

/-- `str.capitalize`, of a word of a key. -/
def capitalize (word : List Char) : List Char :=
  match word with
  | [] => []
  | c :: rest => c.toUpper :: rest.map Char.toLower

/-- `humanize`. -/
def humanize (key : String) : String :=
  let words := (key.toList.splitOn '_').map fun word =>
    if ACRONYMS.contains (String.ofList word) then word.map Char.toUpper else capitalize word
  String.ofList ([ ' '].intercalate words)

/-- The characters `str.strip` takes away. -/
def is_space (c : Char) : Bool :=
  (9 ≤ c.toNat && c.toNat ≤ 13) || (28 ≤ c.toNat && c.toNat ≤ 32) ||
    [0x85, 0xa0, 0x1680, 0x2028, 0x2029, 0x202f, 0x205f, 0x3000].contains c.toNat ||
    (0x2000 ≤ c.toNat && c.toNat ≤ 0x200a)

/-- `_looks_like_raw_secret`. -/
def looks_like_raw_secret (value : String) : Bool :=
  let v := (value.toList.dropWhile is_space).rdropWhile is_space
  "sk-".toList.isPrefixOf v || "sk_".toList.isPrefixOf v || (decide (64 ≤ v.length) && !v.contains ' ')

/-- `key.endswith("_key_ref")`. -/
def Field.is_key_ref (f : Field) : Bool := "_key_ref".toList.isSuffixOf f.info.name.toList

/-- `_default_model_for`. -/
def default_model_for (lower : String → String) (provider : String) : Option String :=
  let p := lower provider
  if p = "anthropic" then some "claude-haiku-4-5"
  else if p = "openai" then some "gpt-4o-mini"
  else if p = "ollama" then some "llama3.2:3b"
  else none

/-! ## Rows -/

/-- `SettingsOverride`. -/
structure SettingsOverride where
  key : Name
  value : String
  is_secret : Bool
  updated_by : Option String
  deriving DecidableEq

/-- The two tables: the overrides, and the version in its single row. -/
structure Database where
  overrides : Table SettingsOverride.key
  version : Option ℕ

/-- `_upsert`. -/
def Database.upsert (db : Database) (row : SettingsOverride) : Database :=
  { db with overrides := db.overrides.put row }

/-- `_bump_version`. -/
def Database.bump_version (db : Database) : Database :=
  { db with version := some (db.version.getD 0 + 1) }

/-! ## The store -/

variable {c : Coercions}

/-- A `Settings` object and its identity. -/
structure Base (c : Coercions) where
  id : ℕ
  settings : Settings c

/-- `_Override`. -/
structure Override where
  value : Json.Value
  is_secret : Bool

/-- The store in memory. -/
structure Store (c : Coercions) where
  overrides : List (Name × Override) := []
  version : Int := -1
  cache : Option (ℕ × Int × Settings c) := none

/-- The field a key names, and the value laid over it. -/
def field_override : Name × Override → Option (Field × Json.Value)
  | (.field f, o) => some (f, o.value)
  | (.other _ _, _) => none

/-- The settings of a base and some overrides, without the cache. -/
def overlaid (base : Settings c) (overrides : List (Name × Override)) : Settings c :=
  let field_overrides := overrides.filterMap field_override
  if field_overrides.isEmpty then base
  else
    let merged := Schema.overlay (fun f => field_overrides.lookup f) (Schema.model_dump base)
    ((schema c).model_validate merged).getD base

/-- `effective`, and the store with what it has cached. -/
def Store.effective (store : Store c) (base : Base c) : Settings c × Store c :=
  let build := overlaid base.settings store.overrides
  match store.cache with
  | some (id, version, cached) =>
    if id = base.id ∧ version = store.version then (cached, store)
    else (build, { store with cache := some (base.id, store.version, build) })
  | none => (build, { store with cache := some (base.id, store.version, build) })

/-- What a row holds: a secret is its text, and no JSON. -/
def decode (fernet : Fernet) (row : SettingsOverride) : Option Override :=
  if row.is_secret then (fernet.decrypt row.value).map fun plain => ⟨.str plain, true⟩
  else (Json.loads row.value.toList).map fun value => ⟨value, false⟩

/-- The rows that can be decoded. -/
def decoded (fernet : Fernet) (db : Database) : List (Name × Override) :=
  db.overrides.rows.filterMap fun row => (decode fernet row).map fun o => (row.key, o)

/-- What the rows hold under a key. -/
theorem lookup_decoded_rows {fernet : Fernet} {rows : List SettingsOverride}
    (hnodup : (rows.map SettingsOverride.key).Nodup) (key : Name) :
    (rows.filterMap fun row => (decode fernet row).map fun o => (row.key, o)).lookup key =
      (rows.find? fun row => row.key = key).bind (decode fernet) := by
  induction rows with
  | nil => rfl
  | cons row rows ih =>
      rw [List.map_cons, List.nodup_cons] at hnodup
      have hrest := ih hnodup.2
      rw [List.filterMap_cons]
      by_cases hkey : row.key = key
      · have hfind : ((row :: rows).find? fun row => row.key = key) = some row :=
          List.find?_cons_of_pos (decide_eq_true hkey)
        rw [hfind, Option.bind_some]
        cases hdecode : decode fernet row with
        | some o =>
            dsimp only [Option.map_some]
            rw [hkey, List.lookup_cons_self]
        | none =>
            -- no other row has its key
            have hnone : (rows.find? fun row => row.key = key) = none := by
              rw [List.find?_eq_none]
              intro other hother heq
              exact hnodup.1 (by rw [hkey, ← of_decide_eq_true heq]; exact List.mem_map_of_mem hother)
            dsimp only [Option.map_none]
            rw [hrest, hnone, Option.bind_none]
      · have hfind : ((row :: rows).find? fun row => row.key = key) = rows.find? fun row => row.key = key :=
          List.find?_cons_of_neg (by simpa using hkey)
        rw [hfind]
        cases hdecode : decode fernet row with
        | some o =>
            have hne : (key == row.key) = false := by
              rw [beq_eq_false_iff_ne]
              exact fun heq => hkey heq.symm
            dsimp only [Option.map_some]
            rw [List.lookup_cons, hne, hrest]
        | none => exact hrest

/-- `refresh`. -/
def Store.refresh (fernet : Fernet) (db : Database) : Store c where
  overrides := decoded fernet db
  version := (db.version.getD 0 : ℕ)
  cache := none

/-- The text of a value before it is stored: `json.dumps`. -/
def dumps (value : Json.Value) : String := String.ofList (Json.dumps .spaced value)

/-- The text a secret is encrypted from: a text as it is, any other value as JSON. -/
def secret_text (value : Json.Value) : String :=
  match value with
  | .str s => s
  | value => dumps value

/-- The row of an override. -/
def override_row (fernet : Fernet) (f : Field) (is_secret : Bool) (value : Json.Value)
    (updated_by : Option String) (nonce : ℕ) : SettingsOverride where
  key := .field f
  value := if is_secret then fernet.encrypt nonce (secret_text value) else dumps value
  is_secret := is_secret
  updated_by := updated_by

/-- The text of a field. -/
def FieldValue.text : FieldValue → String
  | .str s => s
  | _ => ""

/-- The model a switch of the provider resets to, when it is one and there is a default. -/
def reset_model (lower : String → String) (old_provider : String) (f : Field) (value : Json.Value) :
    Option String :=
  match f, value with
  | .inference_provider, .str s => if lower s = lower old_provider then none else default_model_for lower s
  | _, _ => none

/-- The database and the store in memory. -/
structure State (c : Coercions) where
  db : Database
  store : Store c

/-- The end of a write: the version goes up and the store reads everything back. -/
def State.written (fernet : Fernet) (db : Database) : State c :=
  let db := db.bump_version
  { db := db, store := .refresh fernet db }

/-- The checks of `set_override`, of the key and the value against the base alone. -/
def check_override (base : Settings c) (key : Name) (value : Json.Value) :
    Except SettingsStoreError (Field × SettingPolicy) :=
  match key with
  | .other _ _ => .error (.not_editable key)
  | .field f =>
    match f.policy with
    | none => .error (.not_editable key)
    | some policy =>
      if !policy.editable then .error (.not_editable key)
      else
        let raw := match value with
          | .str s => looks_like_raw_secret s
          | _ => false
        if f.is_key_ref && raw then .error (.raw_secret (policy.label.getD (humanize f.info.name)))
        else if ((schema c).model_validate (Function.update (Schema.model_dump base) f value)).isSome then
          .ok (f, policy)
        else .error (.invalid f)

/-- `set_override`. -/
def State.set_override (fernet : Fernet) (lower : String → String) (s : State c) (base : Base c) (key : Name)
    (value : Json.Value) (updated_by : Option String) (nonce : ℕ) : Except SettingsStoreError (State c) :=
  match check_override base.settings key value with
  | .error e => .error e
  | .ok (f, policy) =>
    -- the provider before the change; what `effective` caches here is dropped below
    let old_provider := ((s.store.effective base).1.values .inference_provider).text
    let db := s.db.upsert (override_row fernet f policy.is_secret value updated_by nonce)
    match reset_model lower old_provider f value with
    | none => .ok (.written fernet db)
    | some model =>
      .ok (.written fernet
        (db.upsert (override_row fernet .inference_model false (.str model) updated_by nonce)))

/-- `set_secret`. -/
def State.set_secret (fernet : Fernet) (s : State c) (ref : Name) (value : String) (updated_by : Option String)
    (nonce : ℕ) : Except SettingsStoreError (State c) :=
  match ref with
  | .field f => .error (.is_setting f)
  | .other text _ =>
    if text.toList.isEmpty || 128 < text.toList.length then .error .ref_length
    else
      .ok (.written fernet (s.db.upsert
        { key := ref, value := fernet.encrypt nonce value, is_secret := true, updated_by := updated_by }))

/-- `clear_override`, and whether there was one. -/
def State.clear_override (fernet : Fernet) (s : State c) (key : Name) : State c × Bool :=
  let hit := (s.db.overrides.find key).isSome
  (.written fernet { s.db with overrides := s.db.overrides.erase key }, hit)

end Fathom.Config
