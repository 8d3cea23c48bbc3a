/-
**Row locks**: one table, and any number of open transactions that write it.

The statements are those of `Writes`, now with what they wait for. An `UPDATE` goes through
only where no other transaction holds a row it found, and then holds them until it ends; an
`INSERT` takes its key from a sequence. So the row behind an open update stays as it was when
it was updated: `Sound R` says that every pending version is related by `R` to the committed
row it will replace, and every statement keeps that when the `SET` of an update is in `R`.
-/
import Fathom.Lib.ReadCommitted
import Mathlib.Data.List.Nodup

set_option autoImplicit false

namespace Fathom

universe u

/-- A table with its sequence, the row locks (a row and the transaction that holds it), and
what every transaction has written and not committed. -/
structure RowLocks (ρ : Type u) where
  rows : List (ℕ × ρ) := []
  next : ℕ := 0
  locks : List (ℕ × ℕ) := []
  writes : ℕ → Writes ρ := fun _ => {}

namespace RowLocks

variable {ρ : Type u}

/-- Transaction `a` has written `w`. -/
def with_writes (s : RowLocks ρ) (a : ℕ) (w : Writes ρ) : ℕ → Writes ρ := fun b => if b = a then w else s.writes b

/-- What a transaction sees. -/
def view (s : RowLocks ρ) (a : ℕ) : List (ℕ × ρ) := (s.writes a).view s.rows

/-- The keys of the rows an `UPDATE … WHERE p` finds. -/
def found (s : RowLocks ρ) (a : ℕ) (p : ρ → Bool) : List ℕ := (s.writes a).found s.rows p

/-- Whether another transaction holds a row that an `UPDATE` has found. -/
def waits (s : RowLocks ρ) (a : ℕ) (found : List ℕ) : Bool :=
  s.locks.any fun lock => found.contains lock.1 && lock.2 != a

/-- The second half of an `UPDATE`: the rows found are free, and those that still match are
written and locked. -/
def update (s : RowLocks ρ) (a : ℕ) (found : List ℕ) (p : ρ → Bool) (set : ρ → ρ) : Option (RowLocks ρ) :=
  if s.waits a found then none
  else
    let w := (s.writes a).update s.rows p found set
    some { s with writes := s.with_writes a w, locks := (w.locked.map fun key => (key, a)) ++ s.locks }

/-- `INSERT`, under the next key. -/
def insert (s : RowLocks ρ) (a : ℕ) (row : ρ) : RowLocks ρ :=
  { s with writes := s.with_writes a ((s.writes a).insert s.next row), next := s.next + 1 }

/-- `COMMIT`. -/
def commit (s : RowLocks ρ) (a : ℕ) : RowLocks ρ :=
  { s with
    rows := s.view a
    locks := s.locks.filter fun lock => lock.2 ≠ a
    writes := s.with_writes a {} }

/-- `ROLLBACK`. -/
def rollback (s : RowLocks ρ) (a : ℕ) : RowLocks ρ :=
  { s with
    locks := s.locks.filter fun lock => lock.2 ≠ a
    writes := s.with_writes a {} }

@[simp] theorem with_writes_self (s : RowLocks ρ) (a : ℕ) (w : Writes ρ) : s.with_writes a w a = w := if_pos rfl

theorem with_writes_ne (s : RowLocks ρ) {a b : ℕ} (w : Writes ρ) (h : b ≠ a) : s.with_writes a w b = s.writes b :=
  if_neg h

/-! ## The invariant -/

/-- What the statements keep. -/
structure Sound (R : ρ → ρ → Prop) (s : RowLocks ρ) : Prop where
  unique : ∀ a, ((s.rows ++ (s.writes a).inserts).map Prod.fst).Nodup
  fresh : ∀ a, ∀ row ∈ s.rows ++ (s.writes a).inserts, row.1 < s.next
  apart : ∀ a b, a ≠ b → ∀ row ∈ (s.writes a).inserts, ∀ row' ∈ (s.writes b).inserts, row.1 ≠ row'.1
  held : ∀ a, ∀ key ∈ (s.writes a).locked, (key, a) ∈ s.locks
  exclusive : ∀ key a b, (key, a) ∈ s.locks → (key, b) ∈ s.locks → a = b
  known : ∀ a, ∀ key ∈ (s.writes a).locked, key ∈ (s.rows ++ (s.writes a).inserts).map Prod.fst
  related : ∀ a, ∀ row ∈ s.rows ++ (s.writes a).inserts, R row.2 ((s.writes a).version row).2

/-- A row that no update is about is seen as it is. -/
theorem version_of_not_locked {w : Writes ρ} {row : ℕ × ρ} (h : row.1 ∉ w.locked) : w.version row = row := by
  rw [Writes.version]
  cases hlook : w.updates.lookup row.1 with
  | none => rfl
  | some new =>
      obtain ⟨l, l', heq, -⟩ := List.lookup_eq_some_iff.mp hlook
      refine absurd (List.mem_map.mpr ⟨(row.1, new), ?_, rfl⟩) h
      rw [heq]
      exact List.mem_append_right _ List.mem_cons_self

theorem view_keys (w : Writes ρ) (table : List (ℕ × ρ)) :
    (w.view table).map Prod.fst = (table ++ w.inserts).map Prod.fst := by
  rw [Writes.view, List.map_map]
  rfl

/-- An update locks the rows found, beside those it holds. -/
theorem locked_update {w : Writes ρ} {table : List (ℕ × ρ)} {p : ρ → Bool} {keys : List ℕ} {set : ρ → ρ} {key : ℕ}
    (h : key ∈ (w.update table p keys set).locked) :
    (key ∈ keys ∧ key ∈ (table ++ w.inserts).map Prod.fst) ∨ key ∈ w.locked := by
  rw [Writes.locked, Writes.update, List.map_append] at h
  rcases List.mem_append.mp h with hnew | hold
  · obtain ⟨entry, hentry, rfl⟩ := List.mem_map.mp hnew
    obtain ⟨row, hrow, rfl⟩ := List.mem_map.mp hentry
    obtain ⟨hview, hfound⟩ := List.mem_filter.mp hrow
    rw [Bool.and_eq_true, List.contains_iff_mem] at hfound
    refine .inl ⟨hfound.1, ?_⟩
    rw [← view_keys]
    exact List.mem_map.mpr ⟨row, hview, rfl⟩
  · exact .inr hold

variable {R : ρ → ρ → Prop} {s : RowLocks ρ}

/-- The version after an update is the version before it, or what the update has set. -/
theorem version_update (w : Writes ρ) (table : List (ℕ × ρ)) (p : ρ → Bool) (keys : List ℕ) (set : ρ → ρ)
    (hunique : ((table ++ w.inserts).map Prod.fst).Nodup) {row : ℕ × ρ} (hrow : row ∈ table ++ w.inserts) :
    (w.update table p keys set).version row = w.version row ∨
    (w.update table p keys set).version row = (row.1, set (w.version row).2) := by
  rw [Writes.version, Writes.update]
  dsimp only
  rw [List.lookup_append]
  cases hlook : (((w.view table).filter fun row => keys.contains row.1 && p row.2).map
      fun row => (row.1, set row.2)).lookup row.1 with
  | none =>
      rw [Option.none_or]
      exact .inl rfl
  | some new =>
      refine .inr ?_
      rw [Option.some_or, Option.getD_some, Prod.mk.injEq]
      refine ⟨rfl, ?_⟩
      obtain ⟨l, l', heq, -⟩ := List.lookup_eq_some_iff.mp hlook
      have hmem : (row.1, new) ∈ ((w.view table).filter fun row => keys.contains row.1 && p row.2).map
          fun row => (row.1, set row.2) := by
        rw [heq]
        exact List.mem_append_right _ List.mem_cons_self
      obtain ⟨seen, hseen, hpair⟩ := List.mem_map.mp hmem
      obtain ⟨row', hrow', rfl⟩ := List.mem_map.mp (List.mem_filter.mp hseen).1
      rw [Prod.mk.injEq] at hpair
      obtain ⟨hkey, hnew⟩ := hpair
      -- no other row has its key
      have hsame : row' = row := List.inj_on_of_nodup_map hunique hrow' hrow hkey
      rw [← hnew, hsame]

/-! ## What the statements keep -/

theorem sound_empty (R : ρ → ρ → Prop) (next : ℕ) : Sound R ({ next } : RowLocks ρ) where
  unique := fun _ => List.nodup_nil
  fresh := fun _ _ h => absurd h List.not_mem_nil
  apart := fun _ _ _ _ h => absurd h List.not_mem_nil
  held := fun _ _ h => absurd h List.not_mem_nil
  exclusive := fun _ _ _ h => absurd h List.not_mem_nil
  known := fun _ _ h => absurd h List.not_mem_nil
  related := fun _ _ h => absurd h List.not_mem_nil

/-- A transaction locks committed rows and its own. -/
theorem Sound.locked_lt (h : Sound R s) {a key : ℕ} (hkey : key ∈ (s.writes a).locked) : key < s.next := by
  obtain ⟨row, hrow, rfl⟩ := List.mem_map.mp (h.known a key hkey)
  exact h.fresh a row hrow

theorem Sound.insert (h : Sound R s) (hrefl : ∀ x, R x x) (a : ℕ) (row : ρ) : Sound R (s.insert a row) := by
  -- the transaction has one more row, under the next key
  have hwrites : ∀ b, (s.insert a row).writes b = s.writes b ∨
      (b = a ∧ (s.insert a row).writes b = (s.writes a).insert s.next row) := by
    intro b
    by_cases hb : b = a
    · rw [hb]
      exact .inr ⟨rfl, s.with_writes_self a _⟩
    · exact .inl (s.with_writes_ne _ hb)
  have hmem : ∀ {b r}, r ∈ ((s.insert a row).writes b).inserts →
      r ∈ (s.writes b).inserts ∨ (b = a ∧ r = (s.next, row)) := by
    intro b r hr
    rcases hwrites b with hsame | ⟨rfl, hnew⟩
    · rw [hsame] at hr
      exact .inl hr
    · rw [hnew, Writes.insert] at hr
      rcases List.mem_append.mp hr with hold | hlast
      · exact .inl hold
      · exact .inr ⟨rfl, List.mem_singleton.mp hlast⟩
  have hlocked : ∀ b, ((s.insert a row).writes b).locked = (s.writes b).locked := by
    intro b
    rcases hwrites b with hsame | ⟨rfl, hnew⟩
    · rw [hsame]
    · rw [hnew]
      rfl
  refine ⟨fun b => ?_, fun b r hr => ?_, fun b b' hne r hr r' hr' => ?_, fun b key hkey => ?_, h.exclusive,
    fun b key hkey => ?_, fun b r hr => ?_⟩
  · rcases hwrites b with hsame | ⟨rfl, hnew⟩
    · rw [hsame]
      exact h.unique b
    · rw [hnew, Writes.insert]
      dsimp only
      rw [← List.append_assoc, List.map_append, List.nodup_append]
      refine ⟨h.unique b, List.nodup_singleton _, fun key hkey key' hkey' heq => ?_⟩
      obtain ⟨r, hr, rfl⟩ := List.mem_map.mp hkey
      have hlt := h.fresh b r hr
      rw [List.map_singleton, List.mem_singleton] at hkey'
      omega
  · show r.1 < s.next + 1
    rcases List.mem_append.mp hr with hrow | hins
    · have hlt := h.fresh b r (List.mem_append_left _ hrow)
      omega
    · rcases hmem hins with hold | ⟨-, rfl⟩
      · have hlt := h.fresh b r (List.mem_append_right _ hold)
        omega
      · exact Nat.lt_succ_self _
  · rcases hmem hr with hold | ⟨rfl, rfl⟩
    · rcases hmem hr' with hold' | ⟨rfl, rfl⟩
      · exact h.apart b b' hne r hold r' hold'
      · have hlt := h.fresh b r (List.mem_append_right _ hold)
        exact Nat.ne_of_lt hlt
    · rcases hmem hr' with hold' | ⟨rfl, -⟩
      · have hlt := h.fresh b' r' (List.mem_append_right _ hold')
        exact (Nat.ne_of_lt hlt).symm
      · exact absurd rfl hne
  · rw [hlocked] at hkey
    exact h.held b key hkey
  · rw [hlocked] at hkey
    have hold := h.known b key hkey
    rcases hwrites b with hsame | ⟨rfl, hnew⟩
    · rw [hsame]
      exact hold
    · rw [hnew, Writes.insert]
      dsimp only
      rw [← List.append_assoc, List.map_append]
      exact List.mem_append_left _ hold
  · have hversion : ((s.insert a row).writes b).version = (s.writes b).version := by
      rcases hwrites b with hsame | ⟨rfl, hnew⟩
      · rw [hsame]
      · rw [hnew]
        rfl
    rw [hversion]
    rcases List.mem_append.mp hr with hrow | hins
    · exact h.related b r (List.mem_append_left _ hrow)
    · rcases hmem hins with hold | ⟨rfl, rfl⟩
      · exact h.related b r (List.mem_append_right _ hold)
      · -- the key is a new one
        rw [version_of_not_locked fun hlocked => absurd (h.locked_lt hlocked) (Nat.lt_irrefl _)]
        exact hrefl _

theorem Sound.update (h : Sound R s) (htrans : ∀ x y z, R x y → R y z → R x z) {a : ℕ} {found : List ℕ} {p : ρ → Bool}
    {set : ρ → ρ} (hset : ∀ x, R x (set x)) {t : RowLocks ρ} (hupdate : s.update a found p set = some t) :
    Sound R t ∧ t.rows = s.rows ∧ t.next = s.next ∧
      t.writes = s.with_writes a ((s.writes a).update s.rows p found set) := by
  unfold RowLocks.update at hupdate
  split_ifs at hupdate with hwaits
  rw [Option.some.injEq] at hupdate
  rw [← hupdate]
  refine ⟨?_, rfl, rfl, rfl⟩
  obtain ⟨w, hw⟩ : ∃ w, (s.writes a).update s.rows p found set = w := ⟨_, rfl⟩
  have hinserts : ∀ b, (s.with_writes a w b).inserts = (s.writes b).inserts := by
    intro b
    by_cases hb : b = a
    · rw [hb, s.with_writes_self, ← hw]
      rfl
    · rw [s.with_writes_ne w hb]
  rw [hw]
  refine ⟨fun b => ?_, fun b r hr => ?_, fun b b' hne r hr r' hr' => ?_, fun b key hkey => ?_,
    fun key b b' hb hb' => ?_, fun b key hkey => ?_, fun b r hr => ?_⟩
  · dsimp only
    rw [hinserts]
    exact h.unique b
  · dsimp only at hr
    rw [hinserts] at hr
    exact h.fresh b r hr
  · dsimp only at hr hr'
    rw [hinserts] at hr hr'
    exact h.apart b b' hne r hr r' hr'
  · dsimp only at hkey ⊢
    by_cases hb : b = a
    · rw [hb, s.with_writes_self] at hkey
      rw [hb]
      exact List.mem_append_left _ (List.mem_map_of_mem hkey)
    · rw [s.with_writes_ne w hb] at hkey
      exact List.mem_append_right _ (h.held b key hkey)
  · -- a new lock is on a row that was free, or on one the transaction had
    have hnew : ∀ {key c c'}, (key, c) ∈ (w.locked.map fun key => (key, a)) → (key, c') ∈ s.locks → c = c' := by
      intro key c c' hc hc'
      obtain ⟨key', hkey', heq⟩ := List.mem_map.mp hc
      rw [Prod.mk.injEq] at heq
      obtain ⟨rfl, rfl⟩ := heq
      rw [← hw] at hkey'
      rcases locked_update hkey' with ⟨hfound, -⟩ | hheld
      · by_contra hne
        refine hwaits (List.any_eq_true.mpr ⟨(key', c'), hc', ?_⟩)
        rw [Bool.and_eq_true, List.contains_iff_mem, bne_iff_ne]
        exact ⟨hfound, fun heq => hne heq.symm⟩
      · exact h.exclusive key' a c' (h.held a key' hheld) hc'
    rcases List.mem_append.mp hb with hb | hb <;> rcases List.mem_append.mp hb' with hb' | hb'
    · obtain ⟨_, _, heq⟩ := List.mem_map.mp hb
      obtain ⟨_, _, heq'⟩ := List.mem_map.mp hb'
      exact (Prod.mk.inj heq).2.symm.trans (Prod.mk.inj heq').2
    · exact hnew hb hb'
    · exact (hnew hb' hb).symm
    · exact h.exclusive key b b' hb hb'
  · dsimp only at hkey ⊢
    rw [hinserts]
    by_cases hb : b = a
    · rw [hb, s.with_writes_self, ← hw] at hkey
      rw [hb]
      rcases locked_update hkey with ⟨-, hknown⟩ | hold
      · exact hknown
      · exact h.known a key hold
    · rw [s.with_writes_ne w hb] at hkey
      exact h.known b key hkey
  · dsimp only at hr ⊢
    rw [hinserts] at hr
    by_cases hb : b = a
    · rw [hb] at hr ⊢
      rw [s.with_writes_self, ← hw]
      rcases version_update (s.writes a) s.rows p found set (h.unique a) hr with hsame | hset'
      · rw [hsame]
        exact h.related a r hr
      · rw [hset']
        exact htrans _ _ _ (h.related a r hr) (hset _)
    · rw [s.with_writes_ne w hb]
      exact h.related b r hr

/-- The rows that others see change at a commit are not theirs to write. -/
theorem Sound.commit (h : Sound R s) (hrefl : ∀ x, R x x) (a : ℕ) : Sound R (s.commit a) := by
  have hkeys : (s.commit a).rows.map Prod.fst = (s.rows ++ (s.writes a).inserts).map Prod.fst := view_keys _ _
  have hself : (s.commit a).writes a = {} := s.with_writes_self a _
  have hother : ∀ {b}, b ≠ a → (s.commit a).writes b = s.writes b := fun hb => s.with_writes_ne _ hb
  have hinserts : ∀ {b r}, r ∈ ((s.commit a).writes b).inserts → b ≠ a ∧ r ∈ (s.writes b).inserts := by
    intro b r hr
    by_cases hb : b = a
    · rw [hb, hself] at hr
      exact absurd hr List.not_mem_nil
    · rw [hother hb] at hr
      exact ⟨hb, hr⟩
  have hlocked : ∀ {b key}, key ∈ ((s.commit a).writes b).locked → b ≠ a ∧ key ∈ (s.writes b).locked := by
    intro b key hkey
    by_cases hb : b = a
    · rw [hb, hself] at hkey
      exact absurd hkey List.not_mem_nil
    · rw [hother hb] at hkey
      exact ⟨hb, hkey⟩
  -- a row of the new table is a version of an old one, which keeps its key
  have hrows : ∀ {r}, r ∈ (s.commit a).rows →
      ∃ row ∈ s.rows ++ (s.writes a).inserts, r = (s.writes a).version row ∧ r.1 = row.1 := by
    intro r hr
    obtain ⟨row, hrow, rfl⟩ := List.mem_map.mp hr
    exact ⟨row, hrow, rfl, rfl⟩
  refine ⟨fun b => ?_, fun b r hr => ?_, fun b b' hne r hr r' hr' => ?_, fun b key hkey => ?_,
    fun key b b' hb hb' => ?_, fun b key hkey => ?_, fun b r hr => ?_⟩
  · rw [List.map_append, hkeys, List.nodup_append]
    refine ⟨h.unique a, ?_, fun key hkey key' hkey' heq => ?_⟩
    · by_cases hb : b = a
      · rw [hb, hself]
        exact List.nodup_nil
      · have hold := h.unique b
        rw [hother hb]
        rw [List.map_append, List.nodup_append] at hold
        exact hold.2.1
    · obtain ⟨row', hrow', rfl⟩ := List.mem_map.mp hkey'
      obtain ⟨hb, hrow'⟩ := hinserts hrow'
      obtain ⟨row, hrow, rfl⟩ := List.mem_map.mp hkey
      rcases List.mem_append.mp hrow with hcommitted | hown
      · have hold := h.unique b
        rw [List.map_append, List.nodup_append] at hold
        exact hold.2.2 row.1 (List.mem_map_of_mem hcommitted) row'.1 (List.mem_map_of_mem hrow') heq
      · exact h.apart a b (fun hab => hb hab.symm) row hown row' hrow' heq
  · rcases List.mem_append.mp hr with hcommitted | hown
    · obtain ⟨row, hrow, -, hkey⟩ := hrows hcommitted
      rw [hkey]
      exact h.fresh a row hrow
    · obtain ⟨-, hown⟩ := hinserts hown
      exact h.fresh b r (List.mem_append_right _ hown)
  · exact h.apart b b' hne r (hinserts hr).2 r' (hinserts hr').2
  · obtain ⟨hb, hkey⟩ := hlocked hkey
    exact List.mem_filter.mpr ⟨h.held b key hkey, decide_eq_true hb⟩
  · exact h.exclusive key b b' (List.mem_filter.mp hb).1 (List.mem_filter.mp hb').1
  · obtain ⟨hb, hkey⟩ := hlocked hkey
    have hold := h.known b key hkey
    rw [List.map_append, List.mem_append] at hold ⊢
    rw [hkeys, List.map_append, hother hb]
    rcases hold with hcommitted | hown
    · exact .inl (List.mem_append_left _ hcommitted)
    · exact .inr hown
  · by_cases hb : b = a
    · rw [hb, hself]
      exact hrefl _
    rw [hother hb] at hr ⊢
    rcases List.mem_append.mp hr with hcommitted | hown
    · obtain ⟨row, hrow, hversion, hkey⟩ := hrows hcommitted
      by_cases hlocked : r.1 ∈ (s.writes b).locked
      · -- the row is locked by `b`: it was committed before, and `a` has not written it
        rw [hkey] at hlocked
        have hmine : row ∈ s.rows := by
          rcases List.mem_append.mp hrow with hcommitted | hown
          · exact hcommitted
          · exfalso
            have huniq := h.unique a
            rw [List.map_append, List.nodup_append] at huniq
            have hknown := h.known b row.1 hlocked
            rw [List.map_append, List.mem_append] at hknown
            rcases hknown with hknown | hknown
            · exact huniq.2.2 row.1 hknown row.1 (List.mem_map_of_mem hown) rfl
            · obtain ⟨row', hrow', heq⟩ := List.mem_map.mp hknown
              exact h.apart a b (fun hab => hb hab.symm) row hown row' hrow' heq.symm
        have hnot : row.1 ∉ (s.writes a).locked := fun hlocked' =>
          hb (h.exclusive row.1 b a (h.held b _ hlocked) (h.held a _ hlocked'))
        rw [hversion, version_of_not_locked hnot]
        exact h.related b row (List.mem_append_left _ hmine)
      · rw [version_of_not_locked hlocked]
        exact hrefl _
    · exact h.related b r (List.mem_append_right _ hown)

theorem Sound.rollback (h : Sound R s) (hrefl : ∀ x, R x x) (a : ℕ) : Sound R (s.rollback a) := by
  have hcases : ∀ b, (s.rollback a).writes b = {} ∨ (b ≠ a ∧ (s.rollback a).writes b = s.writes b) := by
    intro b
    by_cases hb : b = a
    · rw [hb]
      exact .inl (s.with_writes_self a _)
    · exact .inr ⟨hb, s.with_writes_ne _ hb⟩
  have hinserts : ∀ {b r}, r ∈ ((s.rollback a).writes b).inserts → r ∈ (s.writes b).inserts := by
    intro b r hr
    rcases hcases b with hnone | ⟨-, hsame⟩
    · rw [hnone] at hr
      exact absurd hr List.not_mem_nil
    · rw [hsame] at hr
      exact hr
  have hmem : ∀ {b r}, r ∈ s.rows ++ ((s.rollback a).writes b).inserts → r ∈ s.rows ++ (s.writes b).inserts := by
    intro b r hr
    rcases List.mem_append.mp hr with hcommitted | hown
    · exact List.mem_append_left _ hcommitted
    · exact List.mem_append_right _ (hinserts hown)
  refine ⟨fun b => ?_, fun b r hr => h.fresh b r (hmem hr),
    fun b b' hne r hr r' hr' => h.apart b b' hne r (hinserts hr) r' (hinserts hr'), fun b key hkey => ?_,
    fun key b b' hb hb' => h.exclusive key b b' (List.mem_filter.mp hb).1 (List.mem_filter.mp hb').1,
    fun b key hkey => ?_, fun b r hr => ?_⟩
  · rcases hcases b with hnone | ⟨-, hsame⟩
    · have huniq := h.unique a
      rw [List.map_append, List.nodup_append] at huniq
      rw [hnone]
      exact (List.append_nil s.rows).symm ▸ huniq.1
    · rw [hsame]
      exact h.unique b
  · rcases hcases b with hnone | ⟨hb, hsame⟩
    · rw [hnone] at hkey
      exact absurd hkey List.not_mem_nil
    · rw [hsame] at hkey
      exact List.mem_filter.mpr ⟨h.held b key hkey, decide_eq_true hb⟩
  · rcases hcases b with hnone | ⟨hb, hsame⟩
    · rw [hnone] at hkey
      exact absurd hkey List.not_mem_nil
    · rw [hsame] at hkey ⊢
      exact h.known b key hkey
  · rcases hcases b with hnone | ⟨hb, hsame⟩
    · rw [hnone]
      exact hrefl _
    · rw [hsame]
      exact h.related b r (hmem hr)

/-! ## Counting -/

/-- Where no update brings a row into a class, a transaction sees no more rows of it than are
committed and it has inserted. -/
theorem Sound.count_view (h : Sound R s) {p : ρ → Bool} (hR : ∀ x y, R x y → p y = true → p x = true) (a : ℕ) :
    Writes.count p (s.view a) ≤ Writes.count p s.rows + Writes.count p (s.writes a).inserts := by
  rw [← Writes.count_append, view, Writes.view, Writes.count, Writes.count, List.countP_map]
  refine List.countP_mono_left fun row hrow hp => ?_
  exact hR _ _ (h.related a row hrow) hp

end RowLocks

end Fathom
