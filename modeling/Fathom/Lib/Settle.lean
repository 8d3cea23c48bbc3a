/-
**First come, first served**: a list of items each of which has a place and may want another.

One pass from the left gives an item the place it wants when no one before was given it, and
leaves it where it is otherwise. What is wanted is so given once (`settle_get`), which does not
keep two items apart: an item that is refused stays, and stands where another has been sent.
`settle_nodup_iff` says for which lists no two end in one place.
-/
import Mathlib.Data.List.Nodup
import Mathlib.Data.Nat.Find

set_option autoImplicit false

namespace Fathom.Settle

variable {α : Type} [DecidableEq α]

/-- Where the items of a list end, of which each wants a place or none, and has one. -/
def settle : List α → List (Option α × α) → List α
  | _, [] => []
  | taken, (none, home) :: rest => home :: settle taken rest
  | taken, (some want, home) :: rest =>
    if want ∈ taken then home :: settle taken rest else want :: settle (want :: taken) rest

/-- The item at an index is given a place: it wants it, and no one before does. -/
def Granted (items : List (Option α × α)) (i : ℕ) (w : α) : Prop :=
  (∃ home, items[i]? = some (some w, home)) ∧
    ∀ j < i, ∀ home, items[j]? ≠ some (some w, home)

variable {items : List (Option α × α)} {item : Option α × α} {i : ℕ} {w : α}

omit [DecidableEq α] in
theorem granted_cons_succ : Granted (item :: items) (i + 1) w ↔ item.1 ≠ some w ∧ Granted items i w := by
  unfold Granted
  rw [List.getElem?_cons_succ]
  constructor
  · rintro ⟨hwant, hfirst⟩
    refine ⟨?_, hwant, fun j hj home hitem => ?_⟩
    · rintro h
      exact hfirst 0 (Nat.succ_pos i) item.2 (by rw [List.getElem?_cons_zero, ← h])
    · exact hfirst (j + 1) (by omega) home (by rw [List.getElem?_cons_succ]; exact hitem)
  · rintro ⟨hne, hwant, hfirst⟩
    refine ⟨hwant, fun j hj home hitem => ?_⟩
    cases j with
    | zero =>
        rw [List.getElem?_cons_zero, Option.some.injEq] at hitem
        rw [hitem] at hne
        exact hne rfl
    | succ j =>
        rw [List.getElem?_cons_succ] at hitem
        exact hfirst j (by omega) home hitem

omit [DecidableEq α] in
theorem granted_cons_zero : Granted (item :: items) 0 w ↔ item.1 = some w := by
  unfold Granted
  rw [List.getElem?_cons_zero]
  constructor
  · rintro ⟨⟨home, h⟩, -⟩
    rw [Option.some.inj h]
  · intro h
    exact ⟨⟨item.2, by rw [← h]⟩, fun j hj => absurd hj (by omega)⟩

/-- **Where an item ends**: at the place it is given, or at home. -/
theorem settle_get {taken : List α} (h : items[i]? = some item) :
    (∃ w, w ∉ taken ∧ Granted items i w ∧ (settle taken items)[i]? = some w) ∨
      ((∀ w, Granted items i w → w ∈ taken) ∧ (settle taken items)[i]? = some item.2) := by
  induction items generalizing taken i with
  | nil => exact absurd h (by simp)
  | cons first items ih =>
      obtain ⟨want, home⟩ := first
      cases i with
      | zero =>
          rw [List.getElem?_cons_zero, Option.some.injEq] at h
          rw [← h]
          cases want with
          | none =>
              refine Or.inr ⟨fun w hw => ?_, rfl⟩
              exact absurd (granted_cons_zero.mp hw) (by simp)
          | some want =>
              rw [settle]
              by_cases htaken : want ∈ taken
              · rw [if_pos htaken]
                refine Or.inr ⟨fun w hw => ?_, rfl⟩
                rw [← Option.some.inj (granted_cons_zero.mp hw)]
                exact htaken
              · rw [if_neg htaken]
                exact Or.inl ⟨want, htaken, granted_cons_zero.mpr rfl, rfl⟩
      | succ i =>
          rw [List.getElem?_cons_succ] at h
          -- behind the first, with what is taken then
          have hrest : ∀ taken', (∀ w, w ∈ taken' ↔ w ∈ taken ∨ want = some w) →
              (∃ w, w ∉ taken ∧ Granted ((want, home) :: items) (i + 1) w ∧
                (settle taken' items)[i]? = some w) ∨
              ((∀ w, Granted ((want, home) :: items) (i + 1) w → w ∈ taken) ∧
                (settle taken' items)[i]? = some item.2) := by
            intro taken' htaken'
            obtain ⟨w, hw, hgranted, hget⟩ | ⟨hnone, hget⟩ := @ih i taken' h
            · rw [htaken', not_or] at hw
              exact Or.inl ⟨w, hw.1, granted_cons_succ.mpr ⟨hw.2, hgranted⟩, hget⟩
            · refine Or.inr ⟨fun w hw => ?_, hget⟩
              obtain ⟨hne, hgranted⟩ := granted_cons_succ.mp hw
              exact ((htaken' w).mp (hnone w hgranted)).resolve_right hne
          cases want with
          | none => exact hrest taken (by simp)
          | some want =>
              rw [settle]
              by_cases htaken : want ∈ taken
              · rw [if_pos htaken]
                refine hrest taken fun w => ?_
                rw [Option.some.injEq]
                exact ⟨Or.inl, fun hw => hw.elim id fun heq => heq ▸ htaken⟩
              · rw [if_neg htaken]
                refine hrest (want :: taken) fun w => ?_
                rw [List.mem_cons, Option.some.injEq, or_comm, eq_comm]

theorem length_settle (taken : List α) (items : List (Option α × α)) : (settle taken items).length = items.length := by
  induction items generalizing taken with
  | nil => rfl
  | cons first items ih =>
      obtain ⟨want, home⟩ := first
      cases want with
      | none => rw [settle, List.length_cons, List.length_cons, ih]
      | some want =>
          rw [settle]
          split
          · rw [List.length_cons, List.length_cons, ih]
          · rw [List.length_cons, List.length_cons, ih]

omit [DecidableEq α] in
/-- A place is given to one item. -/
theorem Granted.unique {j : ℕ} (h : Granted items i w) (h' : Granted items j w) : i = j := by
  obtain ⟨⟨home, hi⟩, hfirst⟩ := h
  obtain ⟨⟨home', hj⟩, hfirst'⟩ := h'
  by_contra hne
  obtain hlt | hgt := Nat.lt_or_gt_of_ne hne
  · exact hfirst' i hlt home hi
  · exact hfirst j hgt home' hj

omit [DecidableEq α] in
/-- What is wanted is given to someone. -/
theorem exists_granted {home : α} (h : items[i]? = some (some w, home)) : ∃ j, Granted items j w := by
  classical
  have hex : ∃ j, ∃ home, items[j]? = some (some w, home) := ⟨i, home, h⟩
  refine ⟨Nat.find hex, Nat.find_spec hex, fun j hj home' hj' => ?_⟩
  exact Nat.find_min hex hj ⟨home', hj'⟩

/-- What is given is where someone ends. -/
theorem Granted.mem_settle (h : Granted items i w) : (settle [] items)[i]? = some w := by
  obtain ⟨home, hi⟩ := h.1
  obtain ⟨w', -, hgranted, hget⟩ | ⟨hnone, -⟩ := @settle_get α _ _ _ _ [] hi
  · obtain ⟨home', hi'⟩ := hgranted.1
    rw [hi, Option.some.injEq, Prod.mk.injEq, Option.some.injEq] at hi'
    rw [hget, hi'.1]
  · exact absurd (hnone w h) List.not_mem_nil

/-- **No two items end in one place** exactly when everyone at whose place someone wants to be is
given a place. -/
theorem settle_nodup_iff (hhomes : (items.map Prod.snd).Nodup) : (settle [] items).Nodup ↔
      ∀ (i j : ℕ) (want : Option α) (home place : α), items[i]? = some (some place, home) →
        items[j]? = some (want, place) → ∃ given, Granted items j given := by
  rw [List.nodup_iff_getElem?_ne_getElem?]
  constructor
  · intro hdistinct i j want home place hi hj
    obtain ⟨k, hk⟩ := exists_granted hi
    obtain ⟨w, -, hgranted, -⟩ | ⟨-, hget⟩ := @settle_get α _ _ _ _ [] hj
    · exact ⟨w, hgranted⟩
    · -- two are at the place, unless they are one
      have hkget := hk.mem_settle
      have hlength : ∀ {n : ℕ}, (settle [] items)[n]? = some place → n < (settle [] items).length :=
        fun h => (List.getElem?_eq_some_iff.mp h).1
      obtain hlt | rfl | hgt := Nat.lt_trichotomy k j
      · exact absurd (hkget.trans hget.symm) (hdistinct k j hlt (hlength hget))
      · exact ⟨place, hk⟩
      · exact absurd (hget.trans hkget.symm) (hdistinct j k hgt (hlength hkget))
  · intro hgiven i j hlt hj heq
    rw [length_settle] at hj
    obtain ⟨a, ha⟩ : ∃ a, items[i]? = some a := ⟨_, List.getElem?_eq_getElem (by omega)⟩
    obtain ⟨b, hb⟩ : ∃ b, items[j]? = some b := ⟨_, List.getElem?_eq_getElem hj⟩
    -- one is sent to where the other has stayed
    have hstays : ∀ {m n : ℕ} {item : Option α × α} {w : α}, items[n]? = some item →
        (∀ w, Granted items n w → w ∈ ([] : List α)) → (settle [] items)[n]? = some item.2 →
        Granted items m w → (settle [] items)[m]? = some w →
        (settle [] items)[m]? = (settle [] items)[n]? → False := by
      intro m n item w hn hnone hhome hgranted hget hsame
      rw [hget, hhome, Option.some.injEq] at hsame
      obtain ⟨home, hm⟩ := hgranted.1
      rw [hsame] at hm
      obtain ⟨given, hgranted'⟩ := hgiven m n item.1 home item.2 hm hn
      exact List.not_mem_nil (hnone given hgranted')
    obtain ⟨w, -, hw, hgeti⟩ | ⟨hnonei, hgeti⟩ := @settle_get α _ _ _ _ [] ha
    · obtain ⟨w', -, hw', hgetj⟩ | ⟨hnonej, hgetj⟩ := @settle_get α _ _ _ _ [] hb
      · rw [hgeti, hgetj, Option.some.injEq] at heq
        rw [← heq] at hw'
        have hsame := hw.unique hw'
        omega
      · exact hstays hb hnonej hgetj hw hgeti heq
    · obtain ⟨w', -, hw', hgetj⟩ | ⟨hnonej, hgetj⟩ := @settle_get α _ _ _ _ [] hb
      · exact hstays ha hnonei hgeti hw' hgetj heq.symm
      · rw [hgeti, hgetj, Option.some.injEq] at heq
        have hdistinct := List.nodup_iff_getElem?_ne_getElem?.mp hhomes i j hlt
          (by rw [List.length_map]; exact hj)
        rw [List.getElem?_map, List.getElem?_map, ha, hb, Option.map_some, Option.map_some, heq]
          at hdistinct
        exact hdistinct rfl

/-- Everyone ends at home or at a place that is wanted. -/
theorem mem_settle {place : α} (h : place ∈ settle [] items) :
    (∃ item ∈ items, item.2 = place) ∨ ∃ item ∈ items, item.1 = some place := by
  obtain ⟨i, hlt, hi⟩ := List.mem_iff_getElem.mp h
  have hlt' : i < items.length := by rwa [length_settle] at hlt
  have hget : (settle [] items)[i]? = some place := by rw [List.getElem?_eq_getElem hlt, hi]
  have hitem : items[i]? = some items[i] := List.getElem?_eq_getElem hlt'
  obtain ⟨w, -, hgranted, hw⟩ | ⟨-, hhome⟩ := @settle_get α _ _ _ _ [] hitem
  · rw [hget, Option.some.injEq] at hw
    obtain ⟨home, hwant⟩ := hgranted.1
    exact Or.inr ⟨_, List.mem_of_getElem? hwant, by rw [hw]⟩
  · rw [hget, Option.some.injEq] at hhome
    exact Or.inl ⟨_, List.getElem_mem hlt', hhome.symm⟩

/-- Someone ends at each place that is wanted. -/
theorem settle_mem_of_want {place : α} (h : item ∈ items) (hwant : item.1 = some place) : place ∈ settle [] items := by
  obtain ⟨i, hlt, hi⟩ := List.mem_iff_getElem.mp h
  obtain ⟨want, home⟩ := item
  have hitem : items[i]? = some (some place, home) := by
    rw [List.getElem?_eq_getElem hlt, hi, ← hwant]
  obtain ⟨k, hk⟩ := exists_granted hitem
  exact List.mem_of_getElem? hk.mem_settle

end Fathom.Settle
