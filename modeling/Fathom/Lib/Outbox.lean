/-
**Outboxes**: a keyed table used as a queue towards a party that acknowledges.

Rows wait in groups. A drain reads some waiting rows of a group, hands them over,
and on the acknowledgement marks them pushed. Nothing holds the rows still in the
meantime, and the mark goes by key. So what is marked is what was handed over only
as long as nobody has rewritten it since it was read; `Confirmed.mark` is this
fact, and `find_of_not_changed` is how it is carried past a writer.
-/
import Fathom.Lib.Table

set_option autoImplicit false

namespace Fathom

universe u v w

/-- How the rows of a table are queued: the group a row waits in, whether it has
been pushed, and the row once it has. -/
structure Outbox {ρ : Type v} {κ : Type u} (key : ρ → κ) (γ : Type w) where
  group : ρ → γ
  pushed : ρ → Bool
  push : ρ → ρ
  key_push : ∀ r, key (push r) = key r
  group_push : ∀ r, group (push r) = group r
  pushed_push : ∀ r, pushed (push r) = true
  push_push : ∀ r, push (push r) = push r

namespace Outbox

variable {ρ : Type v} {κ : Type u} {key : ρ → κ} {γ : Type w} [DecidableEq γ]

section

variable (o : Outbox key γ)

/-- Whether a row waits in a group. -/
def waits (g : γ) (r : ρ) : Bool := o.group r = g ∧ o.pushed r = false

/-- Some row waits in a group. -/
def Waiting (t : Table key) (g : γ) : Prop := ∃ r ∈ t.rows, o.waits g r = true

/-- The first rows that wait in a group. -/
def read (t : Table key) (g : γ) (limit : ℕ) : List ρ := (t.rows.filter (o.waits g)).take limit

omit [DecidableEq γ] in
/-- The rows named are pushed. -/
def mark [DecidableEq κ] (t : Table key) (keys : List κ) : Table key :=
  t.update (fun r => key r ∈ keys) o.push o.key_push

end

/-- The keys whose row is another one in a second table, or is not in it. -/
def changed [DecidableEq κ] [DecidableEq ρ] (t u : Table key) : List κ :=
  (t.rows.filter fun r => u.find (key r) ≠ some r).map key

variable {o : Outbox key γ}

theorem waits_iff {g : γ} {r : ρ} : o.waits g r = true ↔ o.group r = g ∧ o.pushed r = false :=
  decide_eq_true_iff

/-! ## Reading -/

variable {t : Table key}

theorem mem_read {g : γ} {limit : ℕ} {r : ρ} (h : r ∈ o.read t g limit) :
    r ∈ t.rows ∧ o.group r = g ∧ o.pushed r = false := by
  have hr := List.mem_filter.mp (List.mem_of_mem_take h)
  exact ⟨hr.1, waits_iff.mp hr.2⟩

/-- A read that may return rows and returns none finds none waiting. -/
theorem not_waiting_of_read {g : γ} {limit : ℕ} (hlimit : 0 < limit) (h : o.read t g limit = []) : ¬ o.Waiting t g := by
  rintro ⟨r, hr, hwaits⟩
  rw [read, List.take_eq_nil_iff] at h
  rcases h with hzero | hnil
  · omega
  · have hmem : r ∈ t.rows.filter (o.waits g) := List.mem_filter.mpr ⟨hr, hwaits⟩
    rw [hnil] at hmem
    exact absurd hmem List.not_mem_nil

/-! ## Marking -/

section

variable [DecidableEq κ]

omit [DecidableEq γ] in
theorem find_mark (t : Table key) (keys : List κ) (k : κ) :
    (o.mark t keys).find k = (t.find k).map fun r => if key r ∈ keys then o.push r else r := by
  rw [mark, Table.find_update]
  congr 1
  funext r
  by_cases hr : key r ∈ keys
  · rw [if_pos hr, if_pos (decide_eq_true hr)]
  · rw [if_neg hr, if_neg (by simpa using hr)]

omit [DecidableEq γ] in
/-- A row is marked when it is named, and left as it is otherwise. -/
theorem mem_mark {keys : List κ} {r : ρ} (h : r ∈ (o.mark t keys).rows) :
    (∃ row ∈ t.rows, key row ∈ keys ∧ r = o.push row) ∨ (r ∈ t.rows ∧ key r ∉ keys) := by
  obtain ⟨row, hrow, heq⟩ := List.mem_map.mp h
  by_cases hkey : key row ∈ keys
  · left
    rw [if_pos (decide_eq_true hkey)] at heq
    exact ⟨row, hrow, hkey, heq.symm⟩
  · right
    rw [if_neg (by simpa using hkey)] at heq
    rw [← heq]
    exact ⟨hrow, hkey⟩

omit [DecidableEq γ] in
/-- A mark changes no row but for its being pushed. -/
theorem push_mem_mark (keys : List κ) {r : ρ} (h : r ∈ t.rows) :
    ∃ row ∈ (o.mark t keys).rows, o.push row = o.push r := by
  refine ⟨_, List.mem_map_of_mem h, ?_⟩
  split
  · exact o.push_push r
  · rfl

/-- Marking makes no row wait. -/
theorem Waiting.of_mark {keys : List κ} {g : γ} (h : o.Waiting (o.mark t keys) g) : o.Waiting t g := by
  obtain ⟨r, hr, hwaits⟩ := h
  rcases mem_mark hr with ⟨row, -, -, heq⟩ | ⟨hmem, -⟩
  · -- a marked row does not wait
    have hpushed := (waits_iff.mp hwaits).2
    rw [heq, o.pushed_push] at hpushed
    exact absurd hpushed (by simp)
  · exact ⟨r, hmem, hwaits⟩

end

/-! ## One row -/

section

variable [DecidableEq κ]

/-- The group in which the row of a key waits. -/
def awaiting (o : Outbox key γ) (t : Table key) (k : κ) : Option γ :=
  (t.find k).bind fun r => if o.pushed r then none else some (o.group r)

omit [DecidableEq γ] in
theorem awaiting_some_iff {k : κ} {g : γ} :
    o.awaiting t k = some g ↔ ∃ r, t.find k = some r ∧ o.group r = g ∧ o.pushed r = false := by
  rw [awaiting, Option.bind_eq_some_iff]
  refine exists_congr fun r => and_congr_right fun _ => ?_
  rcases hpushed : o.pushed r with _ | _
  · rw [if_neg Bool.false_ne_true, Option.some.injEq]
    exact (and_iff_left rfl).symm
  · rw [if_pos rfl]
    exact ⟨fun h => absurd h (by simp), fun h => absurd h.2 (by simp)⟩

theorem Waiting.of_awaiting {k : κ} {g : γ} (h : o.awaiting t k = some g) : o.Waiting t g := by
  obtain ⟨r, hr, hwaits⟩ := awaiting_some_iff.mp h
  exact ⟨r, Table.mem_of_find hr, waits_iff.mpr hwaits⟩

omit [DecidableEq γ] in
/-- A row that has been marked does not wait, and the others wait as they did. -/
theorem awaiting_mark (t : Table key) (keys : List κ) (k : κ) :
    o.awaiting (o.mark t keys) k = if k ∈ keys then none else o.awaiting t k := by
  rw [awaiting, find_mark, awaiting]
  rcases hfind : t.find k with _ | r
  · rw [Option.map_none, Option.bind_none, ite_self]
  · rw [Option.map_some, Option.bind_some, Option.bind_some, Table.key_of_find hfind]
    by_cases hk : k ∈ keys
    · rw [if_pos hk, if_pos hk, o.pushed_push, if_pos rfl]
    · rw [if_neg hk, if_neg hk]

end

/-! ## Writers -/

theorem find_of_not_changed [DecidableEq κ] [DecidableEq ρ] {u : Table key} {k : κ} {r : ρ} (hfind : t.find k = some r)
    (hk : k ∉ changed t u) : u.find k = some r := by
  by_contra hne
  apply hk
  have hkey := Table.key_of_find hfind
  refine List.mem_map.mpr ⟨r, List.mem_filter.mpr ⟨Table.mem_of_find hfind, ?_⟩, hkey⟩
  rw [hkey]
  exact decide_eq_true hne

/-! ## What has been acknowledged -/

/-- Every pushed row is an acknowledged row, pushed. -/
def Confirmed (o : Outbox key γ) (acknowledged : List ρ) (t : Table key) : Prop :=
  ∀ r ∈ t.rows, o.pushed r = true → ∃ x ∈ acknowledged, o.push x = r

omit [DecidableEq γ] in
theorem Confirmed.mono {acknowledged more : List ρ} (h : o.Confirmed acknowledged t) :
    o.Confirmed (acknowledged ++ more) t := by
  intro r hr hpushed
  obtain ⟨x, hx, heq⟩ := h r hr hpushed
  exact ⟨x, List.mem_append_left _ hx, heq⟩

omit [DecidableEq γ] in
/-- A writer that pushes nothing confirms what was confirmed. -/
theorem Confirmed.of_rows {acknowledged : List ρ} {u : Table key} (h : o.Confirmed acknowledged t)
    (hrows : ∀ r ∈ u.rows, o.pushed r = true → r ∈ t.rows) : o.Confirmed acknowledged u :=
  fun r hr hpushed => h r (hrows r hr hpushed) hpushed

omit [DecidableEq γ] in
/-- **A mark confirms** when the acknowledged rows still stand in the table. -/
theorem Confirmed.mark [DecidableEq κ] {acknowledged chunk : List ρ} (h : o.Confirmed acknowledged t)
    (hchunk : ∀ x ∈ chunk, x ∈ acknowledged) (hstands : ∀ x ∈ chunk, t.find (key x) = some x) :
    o.Confirmed acknowledged (o.mark t (chunk.map key)) := by
  intro r hr hpushed
  rcases mem_mark hr with ⟨row, hrow, hkey, heq⟩ | ⟨hmem, -⟩
  · obtain ⟨x, hx, hxkey⟩ := List.mem_map.mp hkey
    -- the row marked under this key is the one that was handed over
    have hfind := hstands x hx
    rw [hxkey, Table.find_of_mem hrow, Option.some.injEq] at hfind
    refine ⟨x, hchunk x hx, ?_⟩
    rw [← hfind, heq]
  · exact h r hmem hpushed

/-- When no row waits in any group, every row is an acknowledged one. -/
theorem Confirmed.all {acknowledged : List ρ} (h : o.Confirmed acknowledged t) (hnone : ∀ g, ¬ o.Waiting t g) {r : ρ}
    (hr : r ∈ t.rows) : ∃ x ∈ acknowledged, o.push x = r := by
  apply h r hr
  by_contra hpushed
  exact hnone (o.group r) ⟨r, hr, waits_iff.mpr ⟨rfl, Bool.eq_false_iff.mpr hpushed⟩⟩

end Outbox

end Fathom
