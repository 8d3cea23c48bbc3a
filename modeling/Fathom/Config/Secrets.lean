/-
**Named secrets** (`core/settings_store.py`): `set_secret`, `clear_override` and
`resolve_secret`, as the callers that keep a secret under a reference use them.

A reference that is no field of the settings resolves to what was stored under it last.
The store in memory is what its rows decode to (`Synced`), which every write
re-establishes, so the three calls are said through the rows alone.
-/
import Fathom.Config.Store

set_option autoImplicit false

namespace Fathom.Config

variable {c : Coercions} {fernet : Fernet}

/-- The key a text is. -/
def Name.of (text : String) : Name :=
  match h : Field.all.find? fun f => f.info.name = text with
  | some f => .field f
  | none =>
    .other text fun f hf heq => by
      have hnot := List.find?_eq_none.mp h f hf
      exact hnot (decide_eq_true heq)

/-- The text of a key. -/
def Name.text : Name → String
  | .field f => f.info.name
  | .other ref _ => ref

theorem Name.text_of (text : String) : (Name.of text).text = text := by
  unfold Name.of
  split
  · next f hfind =>
      have hname := List.find?_some hfind
      rwa [decide_eq_true_eq] at hname
  · rfl

theorem Name.of_injective : Function.Injective Name.of := by
  intro text text' h
  rw [← Name.text_of text, h, Name.text_of]

/-- `resolve_secret`. -/
def Store.resolve_secret (store : Store c) (ref : String) : Option String :=
  match store.overrides.lookup (Name.of ref) with
  | some ⟨.str value, true⟩ => some value
  | _ => none

/-- The store in memory is what its rows decode to. -/
def Synced (fernet : Fernet) (s : State c) : Prop := s.store.overrides = decoded fernet s.db

theorem synced_written (db : Database) : Synced fernet (State.written fernet db : State c) := rfl

/-- The secret a row holds. -/
def secret_of (fernet : Fernet) (row : Option SettingsOverride) : Option String :=
  match row.bind (decode fernet) with
  | some ⟨.str value, true⟩ => some value
  | _ => none

/-- A synced store resolves a reference to the secret of its row. -/
theorem resolve_secret_eq {s : State c} (hsynced : Synced fernet s) (ref : String) :
    s.store.resolve_secret ref = secret_of fernet (s.db.overrides.find (Name.of ref)) := by
  unfold Store.resolve_secret secret_of
  rw [hsynced, decoded, lookup_decoded_rows s.db.overrides.unique, Table.find]

/-- A stored secret resolves, and no other reference changes. -/
theorem set_secret_spec {s s' : State c} {text value : String} {updated_by : Option String} {nonce : ℕ}
    (hsynced : Synced fernet s)
    (h : s.set_secret fernet (Name.of text) value updated_by nonce = .ok s') :
    Synced fernet s' ∧ s'.store.resolve_secret text = some value ∧
      ∀ other, other ≠ text → s'.store.resolve_secret other = s.store.resolve_secret other := by
  unfold State.set_secret at h
  cases hkey : Name.of text with
  | field f => simp [hkey] at h
  | other ref free =>
      rw [hkey] at h
      dsimp only at h
      split_ifs at h with hlength
      rw [Except.ok.injEq] at h
      rw [← h]
      refine ⟨synced_written _, ?_, ?_⟩
      · rw [resolve_secret_eq (synced_written _), hkey]
        dsimp only [State.written, Database.bump_version, Database.upsert]
        rw [Table.find_put_self]
        dsimp only [secret_of, Option.bind_some, decode]
        rw [if_pos rfl, fernet.decrypt_encrypt]
        rfl
      · intro other hne
        have hother : Name.of other ≠ .other ref free := by
          rw [← hkey]
          exact fun heq => hne (Name.of_injective heq)
        rw [resolve_secret_eq (synced_written _), resolve_secret_eq hsynced]
        dsimp only [State.written, Database.bump_version, Database.upsert]
        rw [Table.find_put_ne _ hother]

/-- A cleared reference changes no other. -/
theorem clear_override_spec {s : State c} (hsynced : Synced fernet s) (text : String) :
    Synced fernet (s.clear_override fernet (Name.of text)).1 ∧ ∀ other, other ≠ text →
        (s.clear_override fernet (Name.of text)).1.store.resolve_secret other = s.store.resolve_secret other := by
  refine ⟨synced_written _, fun other hne => ?_⟩
  rw [State.clear_override, resolve_secret_eq (synced_written _), resolve_secret_eq hsynced]
  dsimp only [State.written, Database.bump_version]
  rw [Table.find_erase, if_neg fun heq => hne (Name.of_injective heq)]

end Fathom.Config
