/-
**Keyed tables**: rows under a unique key, and the two statements that write
them.

* `INSERT … ON CONFLICT (key) DO UPDATE SET … WHERE …` is `Table.upsert`. What
  the conflict branch does is a `Conflict`: the guard of its `WHERE` and the
  columns of its `SET`, both of the stored row and of the row proposed for
  insertion. A conflict never writes the key, so a table stays a table.
* `UPDATE … SET … WHERE …` is `Table.update`.

A table is the list of its rows in the order a plain `SELECT` returns them,
together with the proof that no key occurs twice. What a write does is said
once, through `Table.find`, for the key it names and for every other key; the
sums over a table follow from the list.
-/
import Mathlib.Algebra.BigOperators.Group.List.Basic
import Mathlib.Data.List.Nodup
import Mathlib.Tactic.Abel

set_option autoImplicit false

namespace Fathom

universe u v w

variable {κ : Type u} {ρ : Type v}

/-- The conflict branch of an upsert. Both functions read the stored row first
and the row proposed for insertion second. -/
structure Conflict (key : ρ → κ) where
  /-- the `WHERE` of the branch -/
  guard : ρ → ρ → Bool
  /-- the `SET` of the branch -/
  set : ρ → ρ → ρ
  set_key : ∀ row excluded, key (set row excluded) = key row

/-- The stored row after the conflict branch. -/
def Conflict.resolve {key : ρ → κ} (c : Conflict key) (row excluded : ρ) : ρ :=
  if c.guard row excluded then c.set row excluded else row

variable {key : ρ → κ} {c : Conflict key}

theorem Conflict.resolve_key (c : Conflict key) (row excluded : ρ) : key (c.resolve row excluded) = key row := by
  rw [Conflict.resolve]
  split
  · exact c.set_key row excluded
  · rfl

/-- A conflict branch that takes the proposed row whole. -/
def Conflict.replace [DecidableEq κ] (key : ρ → κ) : Conflict key where
  guard := fun _ _ => true
  set := fun row excluded => if key excluded = key row then excluded else row
  set_key := by
    intro row excluded
    split
    · assumption
    · rfl

/-- The last of some proposed rows that a statement writes over a stored row. -/
def Conflict.last_written {key : ρ → κ} (c : Conflict key) : ρ → List ρ → Option ρ
  | _, [] => none
  | row, x :: xs =>
      if c.guard row x then (c.last_written (c.set row x) xs).or (some x) else c.last_written row xs

theorem Conflict.mem_of_last_written {row x : ρ} {xs : List ρ} (h : c.last_written row xs = some x) : x ∈ xs := by
  induction xs generalizing row with
  | nil => exact absurd h (by simp [Conflict.last_written])
  | cons y ys ih =>
      rw [Conflict.last_written] at h
      split at h
      · rcases Option.or_eq_some_iff.mp h with hrest | ⟨-, hlast⟩
        · exact List.mem_cons_of_mem _ (ih hrest)
        · rw [← Option.some.inj hlast]
          exact List.mem_cons_self
      · exact List.mem_cons_of_mem _ (ih h)

/-- Columns that a conflict takes from the proposed row are those of the last row written. -/
theorem Conflict.view_resolve_many {γ : Type w} {view : ρ → γ} (hset : ∀ row x, view (c.set row x) = view x) (row : ρ)
    (xs : List ρ) : view (xs.foldl c.resolve row) = view ((c.last_written row xs).getD row) := by
  induction xs generalizing row with
  | nil => rfl
  | cons x xs ih =>
      rw [List.foldl_cons, ih, Conflict.last_written, Conflict.resolve]
      split
      · -- what is written later decides, and else this row
        cases c.last_written (c.set row x) xs with
        | none => exact hset row x
        | some y => rfl
      · rfl

/-- Columns that a conflict leaves alone are those of the stored row. -/
theorem Conflict.keep_resolve_many {γ : Type w} {view : ρ → γ} (hset : ∀ row x, view (c.set row x) = view row) (row : ρ)
    (xs : List ρ) : view (xs.foldl c.resolve row) = view row := by
  induction xs generalizing row with
  | nil => rfl
  | cons x xs ih =>
      rw [List.foldl_cons, ih, Conflict.resolve]
      split
      · exact hset row x
      · rfl

/-- Rows under a unique key. -/
structure Table (key : ρ → κ) where
  rows : List ρ
  unique : (rows.map key).Nodup

namespace Table

variable {key : ρ → κ}

/-- A table without rows. -/
def empty (key : ρ → κ) : Table key where
  rows := []
  unique := List.nodup_nil

/-- A table of one row. -/
def single (key : ρ → κ) (row : ρ) : Table key where
  rows := [row]
  unique := List.nodup_singleton (key row)

theorem ext_rows {t u : Table key} (h : t.rows = u.rows) : t = u := by
  cases t
  cases u
  congr

variable {f : ρ → ρ} {p : ρ → Bool} {hf : ∀ r, key (f r) = key r} {x : ρ} {γ : Type w}

/-- Rewriting rows in place keeps the keys when it keeps each row's key. -/
theorem map_key (hf : ∀ r, key (f r) = key r) (rows : List ρ) : (rows.map f).map key = rows.map key := by
  rw [List.map_map]
  exact List.map_congr_left fun r _ => hf r

/-- `UPDATE … SET f WHERE p`, for a `SET` that leaves the key alone. -/
def update (t : Table key) (p : ρ → Bool) (f : ρ → ρ) (hf : ∀ r, key (f r) = key r) : Table key where
  rows := t.rows.map fun r => if p r then f r else r
  unique := by
    have hkey : ∀ r, key (if p r then f r else r) = key r := by
      intro r
      split
      · exact hf r
      · rfl
    rw [map_key hkey]
    exact t.unique

/-- `DELETE … WHERE p`. -/
def delete (t : Table key) (p : ρ → Bool) : Table key where
  rows := t.rows.filter fun r => !p r
  unique := t.unique.sublist (List.filter_sublist.map key)

variable [DecidableEq κ]

/-- The row under a key. -/
def find (t : Table key) (k : κ) : Option ρ := t.rows.find? fun r => key r = k

/-- `INSERT … ON CONFLICT (key) DO UPDATE …` of one row. -/
def upsert (c : Conflict key) (t : Table key) (x : ρ) : Table key :=
  if h : key x ∈ t.rows.map key then
    { rows := t.rows.map fun r => if key r = key x then c.resolve r x else r
      unique := by
        have hkey : ∀ r, key (if key r = key x then c.resolve r x else r) = key r := by
          intro r
          split
          · exact c.resolve_key r x
          · rfl
        rw [map_key hkey]
        exact t.unique }
  else
    { rows := t.rows ++ [x]
      unique := by
        rw [List.map_append, List.nodup_append]
        refine ⟨t.unique, List.nodup_singleton _, ?_⟩
        intro k hk k' hk' heq
        rw [List.map_singleton, List.mem_singleton] at hk'
        apply h
        rw [← hk', ← heq]
        exact hk }

/-- The rows of one statement, one after the other. -/
def upsert_many (c : Conflict key) (t : Table key) (xs : List ρ) : Table key :=
  xs.foldl (upsert c) t

/-- `INSERT` of rows: refused where two rows would have one key. -/
def insert_all (t : Table key) (xs : List ρ) : Option (Table key) :=
  if h : ((t.rows ++ xs).map key).Nodup then some ⟨t.rows ++ xs, h⟩ else none

/-- What an upsert stores: the row itself when its key is new, else what the
conflict branch leaves. -/
def stored (c : Conflict key) (before : Option ρ) (x : ρ) : ρ :=
  match before with
  | none => x
  | some row => c.resolve row x

/-- Whether an upsert inserts a row or updates one. -/
def affects (c : Conflict key) (before : Option ρ) (x : ρ) : Bool :=
  match before with
  | none => true
  | some row => c.guard row x

/-- Store a row under its key, whatever stood there. -/
def put (t : Table key) (x : ρ) : Table key := t.upsert (Conflict.replace key) x

/-- Drop the row under a key. -/
def erase (t : Table key) (k : κ) : Table key where
  rows := t.rows.filter fun r => key r ≠ k
  unique := t.unique.sublist (List.filter_sublist.map key)

/-- Whether one statement comes to a row it has itself inserted or updated: what
PostgreSQL refuses as a cardinality violation. `hit` are the keys it has written
so far. -/
def affects_twice (c : Conflict key) : Table key → List κ → List ρ → Bool
  | _, _, [] => false
  | t, hit, x :: xs =>
      if key x ∈ hit then true
      else affects_twice c (t.upsert c x)
        (if affects c (t.find (key x)) x then key x :: hit else hit) xs

variable {t : Table key} {c : Conflict key} {xs : List ρ} {k : κ} {r : ρ}

/-! ## Finding -/

theorem mem_of_find (h : t.find k = some r) : r ∈ t.rows :=
  List.mem_of_find?_eq_some h

theorem key_of_find (h : t.find k = some r) : key r = k := by
  have hp := List.find?_some h
  exact of_decide_eq_true hp

/-- A row is the one found under its key. -/
theorem find_of_mem (h : r ∈ t.rows) : t.find (key r) = some r := by
  rcases t with ⟨rows, hnd⟩
  simp only [find] at *
  induction rows with
  | nil => exact absurd h (by simp)
  | cons a rows ih =>
      rw [List.map_cons, List.nodup_cons] at hnd
      rw [List.find?_cons]
      by_cases ha : key a = key r
      · rw [decide_eq_true ha]
        rcases List.mem_cons.mp h with heq | hmem
        · rw [heq]
        · exact absurd (ha ▸ List.mem_map_of_mem hmem) hnd.1
      · rw [decide_eq_false ha]
        rcases List.mem_cons.mp h with heq | hmem
        · exact absurd (congrArg key heq).symm ha
        · exact ih hnd.2 hmem

theorem find_some_iff : t.find k = some r ↔ r ∈ t.rows ∧ key r = k := by
  constructor
  · intro h
    exact ⟨mem_of_find h, key_of_find h⟩
  · rintro ⟨hmem, rfl⟩
    exact find_of_mem hmem

theorem find_none_iff : t.find k = none ↔ k ∉ t.rows.map key := by
  rw [find, List.find?_eq_none, List.mem_map]
  constructor
  · rintro h ⟨r, hr, hk⟩
    exact h r hr (decide_eq_true hk)
  · intro h r hr hk
    exact h ⟨r, hr, of_decide_eq_true hk⟩

theorem mem_keys_iff : k ∈ t.rows.map key ↔ (t.find k).isSome = true := by
  rw [← not_iff_not, ← find_none_iff, Option.not_isSome_iff_eq_none]

/-- Two rows under one key are one row. -/
theorem eq_of_key {s : ρ} (hr : r ∈ t.rows) (hs : s ∈ t.rows) (h : key r = key s) : r = s := by
  have hfind := find_of_mem hr
  rw [h, find_of_mem hs, Option.some.injEq] at hfind
  exact hfind.symm

/-- The rows under a key are the one found there. -/
theorem filter_key (t : Table key) (k : κ) : t.rows.filter (fun r => key r = k) = (t.find k).toList := by
  rcases t with ⟨rows, hnd⟩
  show rows.filter (fun r => key r = k) = (rows.find? fun r => key r = k).toList
  induction rows with
  | nil => rfl
  | cons a rows ih =>
      rw [List.map_cons, List.nodup_cons] at hnd
      rw [List.find?_cons]
      by_cases ha : key a = k
      · have hrest : rows.filter (fun r => key r = k) = [] := by
          rw [List.filter_eq_nil_iff]
          intro r hr hk
          apply hnd.1
          rw [ha, ← of_decide_eq_true hk]
          exact List.mem_map_of_mem hr
        rw [List.filter_cons, decide_eq_true ha, if_pos rfl, hrest]
        rfl
      · rw [List.filter_cons, decide_eq_false ha, if_neg Bool.false_ne_true]
        exact ih hnd.2

@[simp] theorem find_empty (k : κ) : (empty key).find k = none := rfl

theorem find?_map_key (hf : ∀ r, key (f r) = key r) (rows : List ρ) (k : κ) :
    (rows.map f).find? (fun r => key r = k) = (rows.find? fun r => key r = k).map f := by
  rw [List.find?_map]
  congr 1
  refine congrArg (rows.find? ·) ?_
  funext r
  exact congrArg (fun k' => decide (k' = k)) (hf r)

/-! ## What an update leaves -/

theorem find_update (t : Table key) (p : ρ → Bool) (f : ρ → ρ) (hf : ∀ r, key (f r) = key r) (k : κ) :
    (t.update p f hf).find k = (t.find k).map fun r => if p r then f r else r := by
  refine find?_map_key ?_ t.rows k
  intro r
  split
  · exact hf r
  · rfl

omit [DecidableEq κ] in
/-- An update that selects no row changes nothing. -/
theorem update_none (h : ∀ r ∈ t.rows, p r = false) : t.update p f hf = t := by
  apply ext_rows
  show t.rows.map (fun r => if p r then f r else r) = t.rows
  conv_rhs => rw [← List.map_id t.rows]
  refine List.map_congr_left fun r hr => ?_
  rw [h r hr, if_neg Bool.false_ne_true, id]

omit [DecidableEq κ] in
/-- Two updates commute when they look at what the other leaves alone and no row is
subject to both. -/
theorem update_comm {q : ρ → Bool} {g : ρ → ρ} {hg : ∀ r, key (g r) = key r} (hp : ∀ r, p (g r) = p r)
    (hq : ∀ r, q (f r) = q r) (hpq : ∀ r ∈ t.rows, p r = true → q r = false) :
    (t.update p f hf).update q g hg = (t.update q g hg).update p f hf := by
  apply ext_rows
  show (t.rows.map _).map _ = (t.rows.map _).map _
  rw [List.map_map, List.map_map]
  refine List.map_congr_left fun r hr => ?_
  show (if q (if p r then f r else r) then g (if p r then f r else r) else (if p r then f r else r))
    = if p (if q r then g r else r) then f (if q r then g r else r) else (if q r then g r else r)
  by_cases hrow : p r = true
  · have hother := hpq r hr hrow
    rw [if_pos hrow, hq, hother, if_neg Bool.false_ne_true, if_neg Bool.false_ne_true, if_pos hrow]
  · rw [if_neg hrow]
    split
    · rw [hp, if_neg hrow]
    · rfl

omit [DecidableEq κ] in
/-- An update of rows that are not selected, to rows that are not, leaves a selection
as it was. -/
theorem filter_update {w : ρ → Bool} (h : ∀ r ∈ t.rows, p r = true → w r = false ∧ w (f r) = false) :
    (t.update p f hf).rows.filter w = t.rows.filter w := by
  show (t.rows.map fun r => if p r then f r else r).filter w = t.rows.filter w
  rw [List.filter_map]
  have hfilter : t.rows.filter (w ∘ fun r => if p r then f r else r) = t.rows.filter w := by
    refine List.filter_congr fun r hr => ?_
    show w (if p r then f r else r) = w r
    by_cases hrow : p r = true
    · rw [if_pos hrow, (h r hr hrow).1, (h r hr hrow).2]
    · rw [if_neg hrow]
  rw [hfilter]
  refine (List.map_congr_left fun r hr => ?_).trans (List.map_id _)
  have hmem := List.mem_filter.mp hr
  have hrow : ¬ p r = true := by
    intro hrow
    exact absurd (hmem.2.symm.trans (h r hmem.1 hrow).1) (by simp)
  exact if_neg hrow

/-! ## What an erasure leaves -/

theorem find_erase (t : Table key) (k k' : κ) : (t.erase k).find k' = if k' = k then none else t.find k' := by
  by_cases hk : k' = k
  · rw [if_pos hk, find_none_iff, List.mem_map]
    rintro ⟨r, hr, hkey⟩
    exact of_decide_eq_true (List.mem_filter.mp hr).2 (hkey.trans hk)
  · rw [if_neg hk, find, erase, List.find?_filter]
    refine congrArg (t.rows.find? ·) ?_
    funext r
    rw [decide_eq_decide]
    constructor
    · rintro ⟨-, hr⟩
      exact of_decide_eq_true hr
    · intro hr
      exact ⟨decide_eq_true (by rw [hr]; exact hk), decide_eq_true hr⟩

/-- What stands under a key when many have been erased. -/
theorem find_erase_many {α : Type w} (f : α → κ) (xs : List α) (t : Table key) (k : κ) :
    (xs.foldl (fun t x => t.erase (f x)) t).find k = if k ∈ xs.map f then none else t.find k := by
  induction xs generalizing t with
  | nil => exact (if_neg List.not_mem_nil).symm
  | cons x xs ih =>
      rw [List.foldl_cons, ih, find_erase, List.map_cons]
      by_cases hrest : k ∈ xs.map f
      · rw [if_pos hrest, if_pos (List.mem_cons_of_mem _ hrest)]
      · rw [if_neg hrest]
        by_cases hx : k = f x
        · rw [if_pos hx, if_pos (by rw [hx]; exact List.mem_cons_self)]
        · rw [if_neg hx, if_neg (by rw [List.mem_cons, not_or]; exact ⟨hx, hrest⟩)]

/-- Erasing a key that is not there changes nothing. -/
theorem erase_of_find (h : t.find k = none) : t.erase k = t := by
  apply ext_rows
  refine List.filter_eq_self.mpr fun r hr => decide_eq_true fun hkey => ?_
  rw [← hkey, find_of_mem hr] at h
  exact absurd h (by simp)

/-! ## What an upsert leaves -/

theorem rows_upsert_of_find {row : ρ} (h : t.find (key x) = some row) :
    (t.upsert c x).rows = t.rows.map fun r => if key r = key x then c.resolve r x else r := by
  have hmem : key x ∈ t.rows.map key := mem_keys_iff.mpr (by rw [h]; rfl)
  rw [upsert, dif_pos hmem]

theorem rows_upsert_of_new (h : t.find (key x) = none) : (t.upsert c x).rows = t.rows ++ [x] := by
  rw [upsert, dif_neg (find_none_iff.mp h)]

theorem find_upsert_self (c : Conflict key) (t : Table key) (x : ρ) :
    (t.upsert c x).find (key x) = some (stored c (t.find (key x)) x) := by
  rcases hfind : t.find (key x) with _ | row
  · refine find_of_mem ?_
    rw [rows_upsert_of_new hfind]
    exact List.mem_append_right _ (List.mem_singleton.mpr rfl)
  · refine find_some_iff.mpr ⟨?_, (c.resolve_key row x).trans (key_of_find hfind)⟩
    rw [rows_upsert_of_find hfind]
    refine List.mem_map.mpr ⟨row, mem_of_find hfind, ?_⟩
    rw [if_pos (key_of_find hfind)]
    rfl

theorem find_upsert_ne (c : Conflict key) (t : Table key) (hk : k ≠ key x) : (t.upsert c x).find k = t.find k := by
  rcases hfind : t.find (key x) with _ | row
  · rw [find, rows_upsert_of_new hfind, List.find?_append]
    have hx : [x].find? (fun r => key r = k) = none := by
      rw [List.find?_singleton, if_neg]
      exact fun h => hk (of_decide_eq_true h).symm
    rw [hx, Option.or_none]
    rfl
  · rw [find, rows_upsert_of_find hfind, find?_map_key]
    · show (t.find k).map _ = t.find k
      rcases hk' : t.find k with _ | r
      · rfl
      · rw [Option.map_some, if_neg]
        rw [key_of_find hk']
        exact hk
    · intro r
      split
      · exact c.resolve_key r x
      · rfl

theorem find_upsert (c : Conflict key) (t : Table key) (x : ρ) (k : κ) :
    (t.upsert c x).find k = if k = key x then some (stored c (t.find k) x) else t.find k := by
  by_cases hk : k = key x
  · rw [if_pos hk, hk]
    exact find_upsert_self c t x
  · rw [if_neg hk]
    exact find_upsert_ne c t hk

theorem stored_key (x : ρ) : key (stored c (t.find (key x)) x) = key x := by
  have h := find_upsert_self c t x
  exact key_of_find h

/-- A stored row that the guard refuses to touch leaves the table as it was. -/
theorem upsert_unaffected {row : ρ} (hfind : t.find (key x) = some row) (hguard : c.guard row x = false) :
    t.upsert c x = t := by
  apply ext_rows
  rw [rows_upsert_of_find hfind]
  conv_rhs => rw [← List.map_id t.rows]
  refine List.map_congr_left fun r hr => ?_
  by_cases hk : key r = key x
  · have hrow : r = row := eq_of_key hr (mem_of_find hfind) (hk.trans (key_of_find hfind).symm)
    rw [if_pos hk, hrow, Conflict.resolve, hguard, if_neg Bool.false_ne_true, id]
  · rw [if_neg hk, id]

/-- What a view of the rows shows after an upsert that changes nothing the view
shows of the one row it rewrites. -/
theorem view_upsert {row : ρ} (view : ρ → γ) (hfind : t.find (key x) = some row)
    (hview : view (c.resolve row x) = view row) : (t.upsert c x).rows.map view = t.rows.map view := by
  rw [rows_upsert_of_find hfind, List.map_map]
  refine List.map_congr_left fun r hr => ?_
  show view (if key r = key x then c.resolve r x else r) = view r
  by_cases hk : key r = key x
  · have hrow : r = row := eq_of_key hr (mem_of_find hfind) (hk.trans (key_of_find hfind).symm)
    rw [if_pos hk, hrow, hview]
  · rw [if_neg hk]

@[simp] theorem find_put_self (t : Table key) (x : ρ) : (t.put x).find (key x) = some x := by
  rw [put, find_upsert_self]
  rcases hfind : t.find (key x) with _ | row
  · rfl
  · show some (if true = true then if key x = key row then x else row else row) = some x
    rw [if_pos rfl, if_pos (key_of_find hfind).symm]

theorem find_put_ne (t : Table key) (hk : k ≠ key x) : (t.put x).find k = t.find k :=
  find_upsert_ne _ t hk

theorem length_put_le (t : Table key) (x : ρ) : (t.put x).rows.length ≤ t.rows.length + 1 := by
  rcases hfind : t.find (key x) with _ | row
  · rw [put, rows_upsert_of_new hfind, List.length_append, List.length_singleton]
  · rw [put, rows_upsert_of_find hfind, List.length_map]
    exact Nat.le_succ _

/-- Putting a row that is there changes nothing. -/
theorem put_of_find (h : t.find (key x) = some x) : t.put x = t := by
  apply ext_rows
  rw [put, rows_upsert_of_find h]
  conv_rhs => rw [← List.map_id t.rows]
  refine List.map_congr_left fun r hr => ?_
  by_cases hkey : key r = key x
  · rw [if_pos hkey, eq_of_key hr (mem_of_find h) hkey]
    show (if true = true then (if key x = key x then x else x) else x) = id x
    rw [if_pos rfl, if_pos rfl]
    rfl
  · rw [if_neg hkey]
    rfl

/-- A stored row is the one put, or one that was there under another key. -/
theorem mem_put (h : r ∈ (t.put x).rows) : r = x ∨ (r ∈ t.rows ∧ key r ≠ key x) := by
  have hfind := find_of_mem h
  by_cases hk : key r = key x
  · rw [hk, find_put_self, Option.some.injEq] at hfind
    exact Or.inl hfind.symm
  · rw [find_put_ne t hk] at hfind
    exact Or.inr ⟨mem_of_find hfind, hk⟩

theorem mem_put_self (t : Table key) (x : ρ) : x ∈ (t.put x).rows := mem_of_find (find_put_self t x)

theorem mem_put_of_ne (hr : r ∈ t.rows) (hk : key r ≠ key x) : r ∈ (t.put x).rows :=
  mem_of_find ((find_put_ne t hk).trans (find_of_mem hr))

/-- Where the row put agrees with the row it replaces, no value of a column is
lost. -/
theorem column_put {column : ρ → γ} (h : ∀ row, t.find (key x) = some row → column row = column x) {value : γ}
    (hvalue : value ∈ t.rows.map column) : value ∈ (t.put x).rows.map column := by
  obtain ⟨r, hr, rfl⟩ := List.mem_map.mp hvalue
  by_cases hk : key r = key x
  · rw [h r (hk ▸ find_of_mem hr)]
    exact List.mem_map_of_mem (mem_put_self t x)
  · exact List.mem_map_of_mem (mem_put_of_ne hr hk)

/-- A column that tells the rows apart does so still, where a new row takes a value that
is not in use. -/
theorem column_put_inj {column : ρ → γ} (hinj : ∀ r ∈ t.rows, ∀ s ∈ t.rows, column r = column s → r = s)
    (hkept : ∀ row, t.find (key x) = some row → column row = column x)
    (hnew : t.find (key x) = none → column x ∉ t.rows.map column) :
    ∀ r ∈ (t.put x).rows, ∀ s ∈ (t.put x).rows, column r = column s → r = s := by
  -- no old row under another key has the value of the row put
  have hother : ∀ s ∈ t.rows, key s ≠ key x → column s ≠ column x := by
    intro s hs hkey hcolumn
    rcases hfind : t.find (key x) with _ | row
    · exact hnew hfind (hcolumn ▸ List.mem_map_of_mem hs)
    · have hrow := hinj s hs row (mem_of_find hfind) (hcolumn.trans (hkept row hfind).symm)
      exact hkey (hrow ▸ key_of_find hfind)
  intro r hr s hs hcolumn
  rcases mem_put hr with hrx | ⟨hrold, hrkey⟩
  · rcases mem_put hs with hsx | ⟨hsold, hskey⟩
    · rw [hrx, hsx]
    · exact absurd (hcolumn.symm.trans (congrArg column hrx)) (hother s hsold hskey)
  · rcases mem_put hs with hsx | ⟨hsold, -⟩
    · exact absurd (hcolumn.trans (congrArg column hsx)) (hother r hrold hrkey)
    · exact hinj r hrold s hsold hcolumn

/-! ## Many rows -/

@[simp] theorem upsert_many_nil (c : Conflict key) (t : Table key) : t.upsert_many c [] = t := rfl

theorem upsert_many_cons (c : Conflict key) (t : Table key) (x : ρ) (xs : List ρ) :
    t.upsert_many c (x :: xs) = (t.upsert c x).upsert_many c xs := rfl

theorem upsert_many_append (c : Conflict key) (t : Table key) (xs ys : List ρ) :
    t.upsert_many c (xs ++ ys) = (t.upsert_many c xs).upsert_many c ys :=
  List.foldl_append

/-- **What stands under a key after many rows**: the rows under it, one after the other. -/
theorem find_upsert_many (c : Conflict key) (t : Table key) (xs : List ρ) (k : κ) :
    (t.upsert_many c xs).find k
      = (xs.filter fun x => key x = k).foldl (fun before x => some (stored c before x)) (t.find k) := by
  induction xs generalizing t with
  | nil => rfl
  | cons x xs ih =>
      rw [upsert_many_cons, ih, find_upsert]
      by_cases hk : k = key x
      · have hkeep : (x :: xs).filter (fun y => key y = k) = x :: xs.filter fun y => key y = k :=
          List.filter_cons_of_pos (decide_eq_true hk.symm)
        rw [if_pos hk, hkeep, List.foldl_cons]
      · have hskip : (x :: xs).filter (fun y => key y = k) = xs.filter fun y => key y = k :=
          List.filter_cons_of_neg (by simpa using fun heq => hk heq.symm)
        rw [if_neg hk, hskip]

omit [DecidableEq κ] in
theorem foldl_stored (c : Conflict key) (row : ρ) (xs : List ρ) :
    xs.foldl (fun before x => some (stored c before x)) (some row) = some (xs.foldl c.resolve row) := by
  induction xs generalizing row with
  | nil => rfl
  | cons x xs ih =>
      rw [List.foldl_cons, List.foldl_cons]
      exact ih (c.resolve row x)

theorem find_upsert_many_other (c : Conflict key) (hk : k ∉ xs.map key) : (t.upsert_many c xs).find k = t.find k := by
  induction xs generalizing t with
  | nil => rfl
  | cons x xs ih =>
      rw [List.map_cons, List.mem_cons, not_or] at hk
      rw [upsert_many_cons, ih hk.2, find_upsert_ne c t hk.1]

/-- When a statement names each key once, each of its rows is stored against
what the table held before the statement. -/
theorem find_upsert_many_mem (c : Conflict key) (hnd : (xs.map key).Nodup) (hx : x ∈ xs) :
    (t.upsert_many c xs).find (key x) = some (stored c (t.find (key x)) x) := by
  induction xs generalizing t with
  | nil => exact absurd hx (by simp)
  | cons y xs ih =>
      rw [List.map_cons, List.nodup_cons] at hnd
      rw [upsert_many_cons]
      rcases List.mem_cons.mp hx with rfl | hmem
      · rw [find_upsert_many_other c hnd.1]
        exact find_upsert_self c t x
      · have hne : key x ≠ key y := by
          intro heq
          apply hnd.1
          rw [← heq]
          exact List.mem_map_of_mem hmem
        rw [ih hnd.2 hmem, find_upsert_ne c t hne]

/-- The rows of one table, put over another. -/
theorem find_upsert_many_replace (t u : Table key) (k : κ) :
    (t.upsert_many (Conflict.replace key) u.rows).find k = (u.find k).or (t.find k) := by
  cases hfind : u.find k with
  | none => exact find_upsert_many_other _ (find_none_iff.mp hfind)
  | some x =>
      have hkey := key_of_find hfind
      have hstored := find_upsert_many_mem (Conflict.replace key) (t := t) u.unique (mem_of_find hfind)
      rw [hkey] at hstored
      rw [hstored, Option.some_or, Option.some.injEq]
      cases hrow : t.find k with
      | none => rfl
      | some row =>
          rw [stored, Conflict.resolve]
          exact if_pos (hkey.trans (key_of_find hrow).symm)

/-- The keys of the table are those it had and those the statement names. -/
theorem keys_upsert_many (c : Conflict key) :
    k ∈ (t.upsert_many c xs).rows.map key ↔ k ∈ t.rows.map key ∨ k ∈ xs.map key := by
  induction xs generalizing t with
  | nil => simp
  | cons x xs ih =>
      rw [upsert_many_cons, ih, List.map_cons, List.mem_cons, mem_keys_iff, mem_keys_iff, find_upsert]
      by_cases hk : k = key x
      · rw [if_pos hk]
        simp [hk]
      · rw [if_neg hk]
        simp [hk]

omit [DecidableEq κ] in
/-- An update keeps every row in its place. -/
theorem keys_update (t : Table key) (p : ρ → Bool) (f : ρ → ρ) (hf : ∀ r, key (f r) = key r) :
    (t.update p f hf).rows.map key = t.rows.map key := by
  refine map_key ?_ t.rows
  intro r
  split
  · exact hf r
  · rfl

/-- An upsert keeps every row in its place, and adds behind them. -/
theorem upsert_keeps_keys (c : Conflict key) (t : Table key) (x : ρ) :
    t.rows.map key <+: (t.upsert c x).rows.map key := by
  cases hfind : t.find (key x) with
  | none =>
      rw [rows_upsert_of_new hfind, List.map_append]
      exact List.prefix_append _ _
  | some row =>
      have hkeys : (t.upsert c x).rows.map key = t.rows.map key := by
        rw [rows_upsert_of_find hfind]
        refine map_key ?_ t.rows
        intro r
        split
        · exact c.resolve_key r x
        · rfl
      exact ⟨[], by rw [List.append_nil, hkeys]⟩

theorem upsert_many_keeps_keys (c : Conflict key) (t : Table key) (xs : List ρ) :
    t.rows.map key <+: (t.upsert_many c xs).rows.map key := by
  induction xs generalizing t with
  | nil => exact List.prefix_rfl
  | cons x xs ih => exact (upsert_keeps_keys c t x).trans (ih (t.upsert c x))

/-- A row that keeps its place keeps it under its key. -/
theorem find_of_place {u : Table key} (hkeys : t.rows.map key <+: u.rows.map key) {i : ℕ} {s : ρ}
    (hr : t.rows[i]? = some r) (hs : u.rows[i]? = some s) : u.find (key r) = some s := by
  have hkey : (t.rows.map key)[i]? = some (key r) := by rw [List.getElem?_map, hr, Option.map_some]
  obtain ⟨added, hadded⟩ := hkeys
  have hplace : (u.rows.map key)[i]? = some (key r) := by
    rw [← hadded]
    exact List.getElem?_append_left (List.getElem?_eq_some_iff.mp hkey).1 ▸ hkey
  rw [List.getElem?_map, hs, Option.map_some, Option.some.injEq] at hplace
  rw [← hplace]
  exact find_of_mem (List.mem_of_getElem? hs)

/-- What is inserted stands behind what was there. -/
theorem rows_insert_all {u : Table key} (h : t.insert_all xs = some u) : u.rows = t.rows ++ xs := by
  rw [insert_all] at h
  split at h
  · rw [← Option.some.inj h]
  · exact absurd h (by simp)

/-- Rows under keys of their own that are not taken are inserted. -/
theorem insert_all_of_new (hnd : (xs.map key).Nodup) (hnew : ∀ x ∈ xs, t.find (key x) = none) :
    ∃ u, t.insert_all xs = some u := by
  have hall : ((t.rows ++ xs).map key).Nodup := by
    rw [List.map_append, List.nodup_append]
    refine ⟨t.unique, hnd, ?_⟩
    intro k hk k' hk' heq
    obtain ⟨x, hx, rfl⟩ := List.mem_map.mp hk'
    exact find_none_iff.mp (hnew x hx) (heq ▸ hk)
  exact ⟨⟨t.rows ++ xs, hall⟩, dif_pos hall⟩

/-- A statement that names each key once fills an empty table with its rows. -/
theorem mem_upsert_many_empty (c : Conflict key) (hnd : (xs.map key).Nodup) :
    r ∈ ((empty key).upsert_many c xs).rows ↔ r ∈ xs := by
  have hfind : ∀ x ∈ xs, ((empty key).upsert_many c xs).find (key x) = some x := by
    intro x hx
    rw [find_upsert_many_mem c hnd hx]
    rfl
  constructor
  · intro hr
    rcases (keys_upsert_many c).mp (List.mem_map_of_mem hr) with habs | hkey
    · exact absurd habs List.not_mem_nil
    · obtain ⟨x, hx, heq⟩ := List.mem_map.mp hkey
      rw [eq_of_key hr (mem_of_find (hfind x hx)) heq.symm]
      exact hx
  · intro hr
    exact mem_of_find (hfind r hr)

/-- Every key of the table was there before the statement or is named by it. -/
theorem key_upsert_many (c : Conflict key) (h : r ∈ (t.upsert_many c xs).rows) :
    key r ∈ t.rows.map key ∨ key r ∈ xs.map key :=
  (keys_upsert_many c).mp (List.mem_map_of_mem h)

/-- A row that no row of the statement gets past the guard is left alone. -/
theorem find_upsert_many_settled {row : ρ} (hfind : t.find k = some row)
    (hsettled : ∀ y ∈ xs, key y = k → c.guard row y = false) :
    (t.upsert_many c xs).find k = some row := by
  induction xs generalizing t with
  | nil => exact hfind
  | cons y xs ih =>
      rw [upsert_many_cons]
      refine ih ?_ fun z hz => hsettled z (List.mem_cons_of_mem _ hz)
      rw [find_upsert]
      by_cases hk : k = key y
      · have hguard := hsettled y List.mem_cons_self hk.symm
        rw [if_pos hk, hfind]
        show some (if c.guard row y then c.set row y else row) = some row
        rw [hguard, if_neg Bool.false_ne_true]
      · rw [if_neg hk]
        exact hfind

/-- When what is stored of the first row under a key settles it against the later
ones, the statement stores the first. -/
theorem find_upsert_many_first (hfirst : xs.find? (fun y => key y = k) = some x)
    (hsettled : ∀ y ∈ xs, key y = k → c.guard (stored c (t.find k) x) y = false) :
    (t.upsert_many c xs).find k = some (stored c (t.find k) x) := by
  induction xs generalizing t with
  | nil => exact absurd hfirst (by simp)
  | cons y xs ih =>
      rw [List.find?_cons] at hfirst
      rw [upsert_many_cons]
      by_cases hk : key y = k
      · rw [decide_eq_true hk] at hfirst
        obtain rfl : y = x := Option.some.inj hfirst
        refine find_upsert_many_settled ?_ fun z hz => hsettled z (List.mem_cons_of_mem _ hz)
        rw [find_upsert, if_pos hk.symm]
      · rw [decide_eq_false hk] at hfirst
        -- the head is under another key, and what is under this one is as before
        have hsame : (t.upsert c y).find k = t.find k := find_upsert_ne c t (Ne.symm hk)
        rw [← hsame]
        refine ih hfirst ?_
        intro z hz hzk
        rw [hsame]
        exact hsettled z (List.mem_cons_of_mem _ hz) hzk

/-- A statement that names each key once comes to no row twice. -/
theorem affects_twice_of_nodup (c : Conflict key) {hit : List κ} (hnd : (xs.map key).Nodup)
    (hhit : ∀ x ∈ xs, key x ∉ hit) : affects_twice c t hit xs = false := by
  induction xs generalizing t hit with
  | nil => rfl
  | cons x xs ih =>
      rw [List.map_cons, List.nodup_cons] at hnd
      rw [affects_twice, if_neg (hhit x List.mem_cons_self)]
      refine ih hnd.2 fun y hy => ?_
      have hne : key y ≠ key x := by
        intro heq
        apply hnd.1
        rw [← heq]
        exact List.mem_map_of_mem hy
      split
      · rw [List.mem_cons, not_or]
        exact ⟨hne, hhit y (List.mem_cons_of_mem _ hy)⟩
      · exact hhit y (List.mem_cons_of_mem _ hy)

/-- Rows whose upsert would change nothing change nothing together. -/
theorem upsert_many_unaffected (h : ∀ x ∈ xs, ∃ row, t.find (key x) = some row ∧ c.guard row x = false) :
    t.upsert_many c xs = t := by
  induction xs with
  | nil => rfl
  | cons x xs ih =>
      obtain ⟨row, hfind, hguard⟩ := h x List.mem_cons_self
      rw [upsert_many_cons, upsert_unaffected hfind hguard]
      exact ih fun y hy => h y (List.mem_cons_of_mem _ hy)

/-- What the stored rows have, and what a row that is inserted, or set on a row under its
key, has, all rows have afterwards. -/
theorem forall_upsert_many_at {P Q : ρ → Prop} (ht : ∀ r ∈ t.rows, P r) (hxs : ∀ x ∈ xs, Q x)
    (hnew : ∀ x, Q x → P x) (hset : ∀ r x, key r = key x → P r → Q x → P (c.set r x)) :
    ∀ r ∈ (t.upsert_many c xs).rows, P r := by
  induction xs generalizing t with
  | nil => exact ht
  | cons x xs ih =>
      have hx := hxs x List.mem_cons_self
      rw [upsert_many_cons]
      refine ih ?_ fun y hy => hxs y (List.mem_cons_of_mem _ hy)
      intro r hr
      have hfind := find_of_mem hr
      rw [find_upsert] at hfind
      split at hfind
      · rename_i hkey
        rw [← Option.some.inj hfind]
        rcases hrow : t.find (key r) with _ | row
        · exact hnew x hx
        · show P (if c.guard row x then c.set row x else row)
          have hP := ht row (mem_of_find hrow)
          split
          · exact hset row x ((key_of_find hrow).trans hkey) hP hx
          · exact hP
      · exact ht r (mem_of_find hfind)

/-- What the stored rows have, and what a row that is inserted or set has, all rows
have afterwards. -/
theorem forall_upsert_many_of {P Q : ρ → Prop} (ht : ∀ r ∈ t.rows, P r) (hxs : ∀ x ∈ xs, Q x)
    (hnew : ∀ x, Q x → P x) (hset : ∀ r x, P r → Q x → P (c.set r x)) :
    ∀ r ∈ (t.upsert_many c xs).rows, P r :=
  forall_upsert_many_at ht hxs hnew fun r x _ => hset r x

/-- What the stored rows and the proposed rows have and a `SET` keeps, all rows
have afterwards. -/
theorem forall_upsert_many {P : ρ → Prop} (ht : ∀ r ∈ t.rows, P r) (hxs : ∀ x ∈ xs, P x)
    (hset : ∀ r x, P r → P x → P (c.set r x)) : ∀ r ∈ (t.upsert_many c xs).rows, P r :=
  forall_upsert_many_of ht hxs (fun _ hx => hx) hset

omit [DecidableEq κ] in
/-- Rows rewritten into rows a query does not select, from such, do not matter to it. -/
theorem filter_map_other {rows : List ρ} (h : ∀ r ∈ rows, f r = r ∨ (p r = false ∧ p (f r) = false)) :
    (rows.map f).filter p = rows.filter p := by
  induction rows with
  | nil => rfl
  | cons r rows ih =>
      have hrest := ih fun r' hr' => h r' (List.mem_cons_of_mem _ hr')
      rw [List.map_cons, List.filter_cons, List.filter_cons, hrest]
      rcases h r List.mem_cons_self with heq | ⟨hr, hfr⟩
      · rw [heq]
      · rw [hr, hfr, if_neg Bool.false_ne_true, if_neg Bool.false_ne_true]

/-- **What a query does not select under any key of a statement**, the statement does not
change for it. -/
theorem filter_upsert_many_other (h : ∀ x ∈ xs, ∀ r, key r = key x → p r = false) :
    (t.upsert_many c xs).rows.filter p = t.rows.filter p := by
  induction xs generalizing t with
  | nil => rfl
  | cons x xs ih =>
      have hx := h x List.mem_cons_self
      rw [upsert_many_cons, ih fun y hy => h y (List.mem_cons_of_mem _ hy)]
      cases hfind : t.find (key x) with
      | none =>
          rw [rows_upsert_of_new hfind, List.filter_append, List.filter_cons_of_neg (by rw [hx x rfl]; decide),
            List.filter_nil, List.append_nil]
      | some row =>
          rw [rows_upsert_of_find hfind]
          refine filter_map_other fun r _ => ?_
          by_cases hkey : key r = key x
          · right
            rw [if_pos hkey]
            exact ⟨hx r hkey, hx _ ((c.resolve_key r x).trans hkey)⟩
          · left
            rw [if_neg hkey]

omit [DecidableEq κ] in
theorem filter_update_other {q : ρ → Bool} (hf : ∀ r, key (f r) = key r)
    (h : ∀ r, q r = true → p r = false ∧ p (f r) = false) : (t.update q f hf).rows.filter p = t.rows.filter p := by
  refine filter_map_other fun r _ => ?_
  by_cases hq : q r = true
  · right
    rw [if_pos hq]
    exact h r hq
  · left
    rw [if_neg hq]

/-- A view of the rows that no row of the statement changes. -/
theorem view_upsert_many (view : ρ → γ) (hnd : (xs.map key).Nodup)
    (h : ∀ x ∈ xs, ∃ row, t.find (key x) = some row ∧ view (c.resolve row x) = view row) :
    (t.upsert_many c xs).rows.map view = t.rows.map view := by
  induction xs generalizing t with
  | nil => rfl
  | cons x xs ih =>
      rw [List.map_cons, List.nodup_cons] at hnd
      obtain ⟨row, hfind, hview⟩ := h x List.mem_cons_self
      rw [upsert_many_cons, ih hnd.2, view_upsert view hfind hview]
      intro y hy
      have hne : key y ≠ key x := by
        intro heq
        apply hnd.1
        rw [← heq]
        exact List.mem_map_of_mem hy
      rw [find_upsert_ne c t hne]
      exact h y (List.mem_cons_of_mem _ hy)

/-! ## Sums over a table -/

section

variable {A : Type w} [AddCommMonoid A]

/-- Rewriting the one row under a key adds to the sum what it adds to that row. -/
theorem sum_map_add_at {rows : List ρ} (hnd : (rows.map key).Nodup) {row : ρ} (hrow : row ∈ rows) {weight : ρ → A}
    {a : A} (hf : weight (f row) = weight row + a) :
    ((rows.map fun r => if key r = key row then f r else r).map weight).sum = (rows.map weight).sum + a := by
  induction rows with
  | nil => exact absurd hrow List.not_mem_nil
  | cons first rows ih =>
      rw [List.map_cons, List.nodup_cons] at hnd
      rw [List.map_cons, List.map_cons, List.map_cons, List.sum_cons, List.sum_cons]
      rcases List.mem_cons.mp hrow with rfl | hmem
      · -- the row is the head, and no later row has its key
        have hrest : (rows.map fun r => if key r = key row then f r else r) = rows := by
          conv_rhs => rw [← List.map_id rows]
          refine List.map_congr_left fun r hr => if_neg fun heq => hnd.1 ?_
          rw [← heq]
          exact List.mem_map_of_mem hr
        rw [if_pos rfl, hrest, hf, add_assoc, add_assoc, add_comm a]
      · have hne : key first ≠ key row := fun heq => hnd.1 (heq ▸ List.mem_map_of_mem hmem)
        rw [if_neg hne, ih hnd.2 hmem, add_assoc]

/-- **A statement that adds up adds its rows to the sum.** -/
theorem sum_upsert_many_add {weight : ρ → A} (hguard : ∀ r x, c.guard r x = true)
    (hset : ∀ r x, weight (c.set r x) = weight r + weight x) (t : Table key) (xs : List ρ) :
    ((t.upsert_many c xs).rows.map weight).sum = (t.rows.map weight).sum + (xs.map weight).sum := by
  induction xs generalizing t with
  | nil => rw [upsert_many_nil, List.map_nil, List.sum_nil, add_zero]
  | cons x xs ih =>
      have hx : ((t.upsert c x).rows.map weight).sum = (t.rows.map weight).sum + weight x := by
        rcases hfind : t.find (key x) with _ | row
        · rw [rows_upsert_of_new hfind, List.map_append, List.sum_append, List.map_singleton, List.sum_singleton]
        · rw [rows_upsert_of_find hfind, ← key_of_find hfind]
          refine sum_map_add_at t.unique (mem_of_find hfind) ?_
          rw [Conflict.resolve, if_pos (hguard row x), hset]
      rw [upsert_many_cons, ih, hx, List.map_cons, List.sum_cons, add_assoc]

end

section

variable {A : Type w} [AddCommGroup A]

/-- The sum of a column. -/
def total (weight : ρ → A) (t : Table key) : A := (t.rows.map weight).sum

/-- The column of a row that may be absent. -/
def weight_of (weight : ρ → A) : Option ρ → A
  | none => 0
  | some r => weight r

/-- Rewriting the one row under a key moves the sum by that row's difference. -/
theorem sum_map_at {rows : List ρ} (hnd : (rows.map key).Nodup) {row : ρ} (hrow : row ∈ rows)
    (weight : ρ → A) (f : ρ → ρ) :
    ((rows.map fun r => if key r = key row then f r else r).map weight).sum
      = (rows.map weight).sum + (weight (f row) - weight row) :=
  sum_map_add_at hnd hrow (add_sub_cancel _ _).symm

/-- **An upsert moves a sum by what it stores less what was stored.** -/
theorem total_upsert (weight : ρ → A) (c : Conflict key) (t : Table key) (x : ρ) :
    (t.upsert c x).total weight
      = t.total weight + (weight (stored c (t.find (key x)) x) - weight_of weight (t.find (key x))) := by
  rcases hfind : t.find (key x) with _ | row
  · rw [total, rows_upsert_of_new hfind, List.map_append, List.sum_append, List.map_singleton,
      List.sum_singleton]
    show _ = t.total weight + (weight x - 0)
    rw [sub_zero]
    rfl
  · have hkey := key_of_find hfind
    have hsum := sum_map_at t.unique (mem_of_find hfind) weight fun r => c.resolve r x
    rw [hkey] at hsum
    rw [total, rows_upsert_of_find hfind]
    exact hsum

/-- Rows that weigh nothing under their key move no sum. -/
theorem total_upsert_many_zero {weight : ρ → A} (h : ∀ x ∈ xs, ∀ r, key r = key x → weight r = 0) :
    (t.upsert_many c xs).total weight = t.total weight := by
  induction xs generalizing t with
  | nil => rfl
  | cons x xs ih =>
      have hx := h x List.mem_cons_self
      have hbefore : weight_of weight (t.find (key x)) = 0 := by
        rcases hfind : t.find (key x) with _ | row
        · rfl
        · exact hx row (key_of_find hfind)
      rw [upsert_many_cons, ih fun y hy => h y (List.mem_cons_of_mem _ hy), total_upsert,
        hx _ (stored_key x), hbefore, sub_zero, add_zero]

omit [DecidableEq κ] in
/-- **An update moves a sum by the differences of the rows it selects.** -/
theorem total_update (weight : ρ → A) (t : Table key) (p : ρ → Bool) (f : ρ → ρ)
    (hf : ∀ r, key (f r) = key r) :
    (t.update p f hf).total weight
      = t.total weight + ((t.rows.filter p).map fun r => weight (f r) - weight r).sum := by
  show ((t.rows.map fun r => if p r then f r else r).map weight).sum = _
  rw [total]
  induction t.rows with
  | nil => simp
  | cons a rows ih =>
      rw [List.map_cons, List.map_cons, List.sum_cons, ih, List.map_cons, List.sum_cons]
      by_cases ha : p a = true
      · rw [if_pos ha, List.filter_cons_of_pos ha, List.map_cons, List.sum_cons]
        abel
      · rw [if_neg ha, List.filter_cons_of_neg ha]
        abel

end

end Table

end Fathom
