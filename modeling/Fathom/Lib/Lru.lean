/-
**Bounded caches**: an ordered dictionary that drops its oldest rows.

The rows are in the order they were last used, the oldest first. `touch` is the
`move_to_end` of a read and `put` a write followed by the evictions; `erase`
drops a row that has expired. What a row holds is opaque here, so an expiry is
part of the value.

`All` is the one invariant rule: what is true of every row when it is put is
true of every row that is found, whatever was touched, dropped or evicted in
between. `Recency` is the other: beside the list of every key ever touched, a
later row was touched after an earlier one, so that a row is only evicted once as
many distinct keys as there are rows have been touched since.
-/
import Mathlib.Data.Finset.Card
import Mathlib.Data.List.Nodup
import Mathlib.Data.Nat.Notation

set_option autoImplicit false

namespace Fathom

universe u v

/-- Rows under a unique key, the least recently used first. -/
structure Lru (κ : Type u) (ν : Type v) where
  rows : List (κ × ν)
  unique : (rows.map Prod.fst).Nodup

namespace Lru

variable {κ : Type u} {ν : Type v}

/-- The cache without rows. -/
def empty : Lru κ ν where
  rows := []
  unique := List.nodup_nil

/-- The rows left when the oldest are dropped until at most `bound` are there. -/
def evict_rows (bound : ℕ) : List (κ × ν) → List (κ × ν)
  | [] => []
  | row :: rows =>
    if bound < (row :: rows).length then evict_rows bound rows else row :: rows

theorem evict_rows_sublist (bound : ℕ) (rows : List (κ × ν)) : (evict_rows bound rows).Sublist rows := by
  induction rows with
  | nil => exact List.Sublist.refl _
  | cons row rows ih =>
      unfold evict_rows
      split
      · exact ih.trans (List.sublist_cons_self row rows)
      · exact List.Sublist.refl _

theorem evict_rows_length (bound : ℕ) (rows : List (κ × ν)) : (evict_rows bound rows).length ≤ bound := by
  induction rows with
  | nil => exact Nat.zero_le bound
  | cons row rows ih =>
      unfold evict_rows
      split
      · exact ih
      · omega

section

variable [DecidableEq κ]

/-- The value under a key. -/
def find (c : Lru κ ν) (k : κ) : Option ν := (c.rows.find? fun row => row.1 = k).map Prod.snd

/-- The rows under the other keys. -/
def other_rows (c : Lru κ ν) (k : κ) : List (κ × ν) := c.rows.filter fun row => row.1 ≠ k

theorem other_rows_unique (c : Lru κ ν) (k : κ) : ((c.other_rows k).map Prod.fst).Nodup :=
  c.unique.sublist (List.filter_sublist.map Prod.fst)

theorem not_mem_other_rows (c : Lru κ ν) (k : κ) : k ∉ (c.other_rows k).map Prod.fst := by
  intro hk
  obtain ⟨row, hrow, heq⟩ := List.mem_map.mp hk
  have hne := (List.mem_filter.mp hrow).2
  rw [decide_eq_true_eq] at hne
  exact hne heq

variable {c : Lru κ ν} {k : κ} {v : ν} {touched : List κ}

theorem find_eq_none : c.find k = none ↔ k ∉ c.rows.map Prod.fst := by
  rw [find, Option.map_eq_none_iff, List.find?_eq_none, List.mem_map]
  constructor
  · rintro h ⟨row, hrow, heq⟩
    exact h row hrow (decide_eq_true heq)
  · intro h row hrow hdec
    exact h ⟨row, hrow, of_decide_eq_true hdec⟩

theorem find_mem (h : c.find k = some v) : (k, v) ∈ c.rows := by
  obtain ⟨row, hrow, hv⟩ := Option.map_eq_some_iff.mp h
  have hkey : row.1 = k := by simpa using List.find?_some hrow
  rw [← hkey, ← hv]
  exact List.mem_of_find?_eq_some hrow

/-- `del store[key]`. -/
def erase (c : Lru κ ν) (k : κ) : Lru κ ν where
  rows := c.other_rows k
  unique := c.other_rows_unique k

/-- `store[key] = value` and `store.move_to_end(key)`. -/
def insert (c : Lru κ ν) (k : κ) (v : ν) : Lru κ ν where
  rows := c.other_rows k ++ [(k, v)]
  unique := by
    rw [List.map_append, List.map_singleton, List.nodup_append]
    refine ⟨c.other_rows_unique k, List.nodup_singleton k, ?_⟩
    intro a ha b hb hab
    rw [List.mem_singleton] at hb
    rw [hab, hb] at ha
    exact c.not_mem_other_rows k ha

/-- `store.move_to_end(key)`, where the key is there. -/
def touch (c : Lru κ ν) (k : κ) : Lru κ ν :=
  match c.find k with
  | none => c
  | some v => c.insert k v

/-- `while len(store) > bound: store.popitem(last=False)`. -/
def evict (c : Lru κ ν) (bound : ℕ) : Lru κ ν where
  rows := evict_rows bound c.rows
  unique := c.unique.sublist ((evict_rows_sublist bound c.rows).map Prod.fst)

/-- A write, and the evictions after it. -/
def put (c : Lru κ ν) (bound : ℕ) (k : κ) (v : ν) : Lru κ ν := (c.insert k v).evict bound

/-- Every row, its key and its value, meets a condition. -/
def All (P : κ → ν → Prop) (c : Lru κ ν) : Prop := ∀ row ∈ c.rows, P row.1 row.2

variable {P : κ → ν → Prop} {c : Lru κ ν}

omit [DecidableEq κ] in
theorem all_empty : All P (empty : Lru κ ν) := fun _ h => absurd h List.not_mem_nil

omit [DecidableEq κ] in
theorem All.mono {Q : κ → ν → Prop} (h : All P c) (hPQ : ∀ k v, P k v → Q k v) : All Q c :=
  fun row hrow => hPQ row.1 row.2 (h row hrow)

theorem All.find (h : All P c) (hfind : c.find k = some v) : P k v :=
  h (k, v) (find_mem hfind)

theorem All.erase (h : All P c) (k : κ) : All P (c.erase k) :=
  fun row hrow => h row (List.mem_of_mem_filter hrow)

/-- A write needs nothing of the row it takes the place of. -/
theorem all_insert (hother : ∀ row ∈ c.rows, row.1 ≠ k → P row.1 row.2) (hv : P k v) : All P (c.insert k v) := by
  intro row hrow
  rcases List.mem_append.mp hrow with hold | hnew
  · obtain ⟨hmem, hne⟩ := List.mem_filter.mp hold
    exact hother row hmem (of_decide_eq_true hne)
  · rw [List.mem_singleton] at hnew
    rw [hnew]
    exact hv

theorem All.insert (h : All P c) (hv : P k v) : All P (c.insert k v) :=
  all_insert (fun row hrow _ => h row hrow) hv

omit [DecidableEq κ] in
theorem All.evict (h : All P c) (bound : ℕ) : All P (c.evict bound) :=
  fun row hrow => h row ((evict_rows_sublist bound _).subset hrow)

theorem All.touch (h : All P c) (k : κ) : All P (c.touch k) := by
  unfold Lru.touch
  split
  · exact h
  · next v hfind => exact h.insert (h.find hfind)

theorem All.put (h : All P c) (bound : ℕ) (hv : P k v) : All P (c.put bound k v) :=
  (h.insert hv).evict bound

/-! ## The bound -/

theorem put_length (c : Lru κ ν) (bound : ℕ) (k : κ) (v : ν) :
    (c.put bound k v).rows.length ≤ bound :=
  evict_rows_length bound _

theorem erase_length (c : Lru κ ν) (k : κ) : (c.erase k).rows.length ≤ c.rows.length :=
  List.length_filter_le _ _

/-- A row that is written again moves: there are as many rows as before. -/
theorem insert_length (h : k ∈ c.rows.map Prod.fst) (v : ν) : (c.insert k v).rows.length ≤ c.rows.length := by
  obtain ⟨row, hrow, hkey⟩ := List.mem_map.mp h
  -- the row of the key is one the filter drops
  have hlt : (c.other_rows k).length < c.rows.length := by
    rw [other_rows, List.length_filter_lt_length_iff_exists]
    exact ⟨row, hrow, by simp [hkey]⟩
  have hlen : (c.insert k v).rows.length = (c.other_rows k).length + 1 := by
    rw [insert, List.length_append, List.length_singleton]
  omega

theorem touch_length (c : Lru κ ν) (k : κ) : (c.touch k).rows.length ≤ c.rows.length := by
  unfold touch
  split
  · exact Nat.le_refl _
  · next v hfind => exact insert_length (List.mem_map_of_mem (find_mem hfind)) v

omit [DecidableEq κ] in
/-- Within the bound nothing is evicted. -/
theorem evict_of_le {bound : ℕ} (h : c.rows.length ≤ bound) : c.evict bound = c := by
  have hrows : evict_rows bound c.rows = c.rows := by
    generalize c.rows = rows at h
    cases rows with
    | nil => rfl
    | cons row rows => rw [evict_rows, if_neg (Nat.not_lt.mpr h)]
  obtain ⟨rows, unique⟩ := c
  rw [evict, Lru.mk.injEq]
  exact hrows

/-! ## Recency -/

/-- The keys touched since `k` last was, where the last touch is first. -/
def since (touched : List κ) (k : κ) : List κ := touched.takeWhile fun i => i ≠ k

theorem since_cons_of_ne {i : κ} (h : i ≠ k) (touched : List κ) : since (i :: touched) k = i :: since touched k := by
  rw [since, List.takeWhile_cons_of_pos (by simpa using h), since]

/-- A later row was touched after an earlier one. -/
def Recency (touched : List κ) (c : Lru κ ν) : Prop :=
  c.rows.Pairwise fun a b => b.1 ∈ since touched a.1

theorem recency_empty (touched : List κ) : Recency touched (empty : Lru κ ν) := List.Pairwise.nil

theorem Recency.erase (h : Recency touched c) (k : κ) : Recency touched (c.erase k) :=
  List.Pairwise.sublist List.filter_sublist h

theorem Recency.insert (h : Recency touched c) (k : κ) (v : ν) : Recency (k :: touched) (c.insert k v) := by
  have hne : ∀ row ∈ c.other_rows k, k ≠ row.1 := by
    intro row hrow heq
    exact c.not_mem_other_rows k (List.mem_map.mpr ⟨row, hrow, heq.symm⟩)
  refine List.pairwise_append.mpr ⟨?_, List.pairwise_singleton _ _, ?_⟩
  · refine (h.sublist List.filter_sublist).imp_of_mem fun {a b} ha _ hab => ?_
    rw [since_cons_of_ne (hne a ha)]
    exact List.mem_cons_of_mem k hab
  · intro a ha b hb
    rw [List.mem_singleton] at hb
    rw [hb, since_cons_of_ne (hne a ha)]
    exact List.mem_cons_self

theorem Recency.evict (h : Recency touched c) (bound : ℕ) : Recency touched (c.evict bound) :=
  List.Pairwise.sublist (evict_rows_sublist bound c.rows) h

omit [DecidableEq κ] in
/-- Either all rows stay, or as many as the bound. -/
theorem evict_rows_split (bound : ℕ) (rows : List (κ × ν)) :
    ∃ dropped, rows = dropped ++ evict_rows bound rows ∧
      (dropped = [] ∨ (evict_rows bound rows).length = bound) := by
  induction rows with
  | nil => exact ⟨[], rfl, .inl rfl⟩
  | cons row rows ih =>
      unfold evict_rows
      split
      · next hlt =>
          obtain ⟨dropped, hrows, hfull⟩ := ih
          refine ⟨row :: dropped, congrArg (row :: ·) hrows, .inr ?_⟩
          rcases hfull with hnone | hfull
          · -- nothing was dropped behind the row, so the bound is the length there
            rw [hnone, List.nil_append] at hrows
            have hle := evict_rows_length bound rows
            rw [← hrows] at hle ⊢
            rw [List.length_cons] at hlt
            omega
          · exact hfull
      · exact ⟨[], rfl, .inl rfl⟩

/-- A row is evicted only when as many other keys as the bound were touched since. -/
theorem Recency.evicted (h : Recency touched c) {bound : ℕ} (hk : k ∈ c.rows.map Prod.fst)
    (hgone : k ∉ (c.evict bound).rows.map Prod.fst) : bound ≤ (since touched k).toFinset.card := by
  obtain ⟨dropped, hrows, hfull⟩ := evict_rows_split bound c.rows
  obtain ⟨row, hrow, rfl⟩ := List.mem_map.mp hk
  have hdropped : row ∈ dropped := by
    rw [hrows] at hrow
    rcases List.mem_append.mp hrow with hd | hkept
    · exact hd
    · exact absurd (List.mem_map_of_mem hkept) hgone
  rcases hfull with hnone | hfull
  · rw [hnone] at hdropped
    exact absurd hdropped List.not_mem_nil
  -- the rows that stay are behind the dropped one
  rw [Recency, hrows] at h
  have hbehind := (List.pairwise_append.mp h).2.2 row hdropped
  have hsub : ((c.evict bound).rows.map Prod.fst).toFinset ⊆ (since touched row.1).toFinset := by
    intro i hi
    obtain ⟨kept, hkept, rfl⟩ := List.mem_map.mp (List.mem_toFinset.mp hi)
    exact List.mem_toFinset.mpr (hbehind kept hkept)
  calc bound = ((c.evict bound).rows.map Prod.fst).length := by rw [List.length_map]; exact hfull.symm
    _ = ((c.evict bound).rows.map Prod.fst).toFinset.card :=
        (List.toFinset_card_of_nodup (c.evict bound).unique).symm
    _ ≤ (since touched row.1).toFinset.card := Finset.card_le_card hsub

/-- Touching another key takes nothing away from what was touched since. -/
theorem card_since_cons_le {i : κ} (h : i ≠ k) :
    (since touched k).toFinset.card ≤ (since (i :: touched) k).toFinset.card := by
  rw [since_cons_of_ne h, List.toFinset_cons]
  exact Finset.card_le_card (Finset.subset_insert i _)

theorem keys_insert (c : Lru κ ν) (k i : κ) (v : ν) :
    i ∈ (c.insert k v).rows.map Prod.fst ↔ i = k ∨ i ∈ c.rows.map Prod.fst := by
  simp only [insert, other_rows, List.map_append, List.mem_append, List.map_singleton, List.mem_singleton,
    List.mem_map, List.mem_filter, decide_eq_true_eq]
  constructor
  · rintro (⟨row, ⟨hrow, -⟩, rfl⟩ | rfl)
    · exact .inr ⟨row, hrow, rfl⟩
    · exact .inl rfl
  · rintro (rfl | ⟨row, hrow, rfl⟩)
    · exact .inr rfl
    · by_cases hk : row.1 = k
      · exact .inr hk
      · exact .inl ⟨row, ⟨hrow, hk⟩, rfl⟩

end

end Lru

end Fathom
