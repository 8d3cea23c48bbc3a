/-
**The suggested keeper** (`rank_oldest_then_preferred_then_shortest`, of
`core/dedup_service.py`): which of a group's copies the report says to keep.

The rule narrows the copies down: native ones if there are any, of these the oldest, of
these the preferred ones if there are any, and then the one of the shortest path. `min`
keeps the first of several that are as short, and what comes first is whatever order the
rows were read in. A modification time is a double of the wire and of the database, where
a NaN is one; a NaN is equal to no time, not to itself either.
-/
import Fathom.Catalogue.Dedup
import Fathom.Lib.Nan
import Mathlib.Data.Prod.Lex
import Mathlib.Data.Rat.Lemmas
import Mathlib.Algebra.Order.Field.Rat
import Mathlib.Data.String.Basic
import Mathlib.Order.WithBotTop

set_option autoImplicit false

namespace Fathom.Catalogue

open Fathom.Nan (WithNan equal is_num least_of_two)

/-! ## The rule -/

/-- A double: a number, an infinity, or a NaN. -/
abbrev Timestamp := WithNan (WithBot (WithTop ℚ))

/-- `EntryRef`, with the two times it is ranked by. -/
structure TimedRef extends EntryRef where
  mtime : Timestamp
  ctime : Timestamp

/-- `_oldest_ts`. -/
def oldest_ts (m : TimedRef) : Timestamp := least_of_two m.mtime m.ctime

/-- `_is_preferred`. -/
def is_preferred (m : TimedRef) (scope : DedupScope) : Bool :=
  scope.preferred_volume_ids.contains m.volume_id ||
    scope.preferred_path_prefixes.any fun root => root.toList.isPrefixOf m.path.toList

/-- The key of the last tiebreak: `(path.count("/"), len(path), path)`. -/
def path_key (m : TimedRef) : ℕ ×ₗ ℕ ×ₗ String :=
  toLex (m.path.toList.count '/', toLex (m.path.length, m.path))

/-- A copy, not a view of one. -/
def is_native (m : TimedRef) : Bool := !is_network_fs m.fs_type

/-- `xs or ys`. -/
def or_else {α : Type} (xs ys : List α) : List α := if xs.isEmpty then ys else xs

/-- `candidates`. -/
def candidates (members : List TimedRef) : List TimedRef := or_else (members.filter is_native) members

/-- `oldest`, of candidates whose least time is known. -/
def oldest_of (refs : List TimedRef) (ts : Timestamp) : List TimedRef :=
  refs.filter fun m => equal (oldest_ts m) ts

/-- `pool`. -/
def pool_of (oldest : List TimedRef) (scope : DedupScope) : List TimedRef :=
  or_else (oldest.filter fun m => is_preferred m scope) oldest

/-- The end of `rank_oldest_then_preferred_then_shortest`, after the least time. -/
def rank_oldest (oldest : List TimedRef) (scope : DedupScope) : Option KeeperChoice :=
  match oldest with
  | [only] => some ⟨only.entry_id, "oldest copy"⟩
  | _ =>
    let preferred := oldest.filter fun m => is_preferred m scope
    let pool := pool_of oldest scope
    let reason := if preferred.isEmpty then "oldest copy" else "oldest copy on preferred volume/path"
    match pool.argmin path_key with
    | none => none
    | some chosen =>
      some ⟨chosen.entry_id,
        if 1 < pool.length then
          if preferred.isEmpty then "shortest path" else reason ++ ", shortest path"
        else reason⟩

/-- `rank_oldest_then_preferred_then_shortest`; `min` raises when there is nothing to
take the least of. -/
def rank_oldest_then_preferred_then_shortest (members : List TimedRef) (scope : DedupScope) :
    Option KeeperChoice :=
  match ((candidates members).map oldest_ts).argmin id with
  | none => none
  | some ts => rank_oldest (oldest_of (candidates members) ts) scope

/-! ## The documented order -/

/-- **One copy ranks no later than another**: it is older, or as old and preferred where
the other is not, or alike in both and of a path no longer. -/
def Before (scope : DedupScope) (a b : TimedRef) : Prop :=
  oldest_ts a < oldest_ts b ∨ oldest_ts a = oldest_ts b ∧
    (is_preferred b scope = false ∧ is_preferred a scope = true ∨
      is_preferred a scope = is_preferred b scope ∧ path_key a ≤ path_key b)

/-- A candidate that every candidate ranks no earlier than. -/
def Foremost (scope : DedupScope) (members : List TimedRef) (a : TimedRef) : Prop :=
  a ∈ candidates members ∧ ∀ b ∈ candidates members, Before scope a b

/-- **The ranking is settled**: no candidate has a NaN for its modification time, and the
candidates that rank first are one. -/
structure Settled (scope : DedupScope) (members : List TimedRef) : Prop where
  num : ∀ m ∈ candidates members, is_num m.mtime = true
  one : ∀ a b, Foremost scope members a → Foremost scope members b → a.entry_id = b.entry_id

/-- **A keeper**: a member, native if any member is, that ranks first among the
candidates, and that the rule picks whatever the order of the members. -/
structure Kept (scope : DedupScope) (members : List TimedRef) (keeper : TimedRef) : Prop where
  mem : keeper ∈ members
  native : (∃ m ∈ members, is_native m = true) → is_native keeper = true
  first : ∀ m ∈ candidates members, Before scope keeper m
  any_order : ∀ order : List TimedRef, order.Perm members →
    ∃ choice, rank_oldest_then_preferred_then_shortest order scope = some choice ∧
      choice.entry_id = keeper.entry_id

/-! ## What the rule picks -/

section

variable {α : Type} {xs ys : List α}

theorem mem_or_else {p : α → Bool} {x : α} :
    x ∈ or_else (xs.filter p) xs ↔ x ∈ xs ∧ (p x = true ∨ ∀ y ∈ xs, p y = false) := by
  have hnil : (xs.filter p).isEmpty = true ↔ ∀ y ∈ xs, p y = false := by
    rw [List.isEmpty_iff, List.filter_eq_nil_iff]
    simp only [Bool.not_eq_true]
  rw [or_else]
  split
  · rename_i hempty
    exact ⟨fun h => ⟨h, Or.inr (hnil.mp hempty)⟩, fun h => h.1⟩
  · rename_i hsome
    rw [List.mem_filter]
    exact ⟨fun h => ⟨h.1, Or.inl h.2⟩, fun h => ⟨h.1, h.2.resolve_right fun hnone => hsome (hnil.mpr hnone)⟩⟩

theorem or_else_perm (p : α → Bool) (h : xs.Perm ys) : (or_else (xs.filter p) xs).Perm (or_else (ys.filter p) ys) := by
  have hsame : (xs.filter p).isEmpty = (ys.filter p).isEmpty := by
    rw [Bool.eq_iff_iff, List.isEmpty_iff_length_eq_zero, List.isEmpty_iff_length_eq_zero, (h.filter p).length_eq]
  rw [or_else, or_else, hsame]
  split
  · exact h
  · exact h.filter p

/-- What comes first and is let through comes first of what is let through. -/
theorem or_else_head {p : α → Bool} {x : α} (h : x ∈ or_else ((x :: xs).filter p) (x :: xs)) :
    ∃ rest, or_else ((x :: xs).filter p) (x :: xs) = x :: rest := by
  rw [or_else]
  split
  · exact ⟨xs, rfl⟩
  · rename_i hsome
    rcases (mem_or_else.mp h).2 with hp | hnone
    · exact ⟨xs.filter p, List.filter_cons_of_pos hp⟩
    · refine absurd (List.isEmpty_iff.mpr (List.filter_eq_nil_iff.mpr fun y hy => ?_)) hsome
      rw [hnone y hy]
      exact Bool.false_ne_true

theorem or_else_ne_nil (p : α → Bool) (h : xs ≠ []) : or_else (xs.filter p) xs ≠ [] := by
  rw [or_else]
  split
  · exact h
  · rename_i hsome
    exact fun hnil => hsome (List.isEmpty_iff.mpr hnil)

end

section

variable {scope : DedupScope} {members order oldest : List TimedRef} {ts : Timestamp} {a b : TimedRef}

theorem mem_pool_of :
    a ∈ pool_of oldest scope ↔
      a ∈ oldest ∧ (is_preferred a scope = true ∨ ∀ b ∈ oldest, is_preferred b scope = false) :=
  mem_or_else

theorem mem_oldest_of (hts : is_num ts = true) {refs : List TimedRef} :
    a ∈ oldest_of refs ts ↔ a ∈ refs ∧ oldest_ts a = ts := by
  rw [oldest_of, List.mem_filter, Nan.equal_iff]
  constructor
  · rintro ⟨ha, -, heq⟩
    exact ⟨ha, heq⟩
  · rintro ⟨ha, heq⟩
    exact ⟨ha, heq ▸ hts, heq⟩

/-- The reason, of how many are left at each narrowing. -/
def keeper_reason (oldest : List TimedRef) (scope : DedupScope) : String :=
  let preferred := (oldest.filter fun m => is_preferred m scope).length
  if oldest.length = 1 then "oldest copy"
  else if 1 < (pool_of oldest scope).length then
    if preferred = 0 then "shortest path" else "oldest copy on preferred volume/path" ++ ", shortest path"
  else if preferred = 0 then "oldest copy" else "oldest copy on preferred volume/path"

/-- **The end of the rule**: the first of the pool's shortest paths. -/
theorem rank_oldest_eq (oldest : List TimedRef) (scope : DedupScope) :
    rank_oldest oldest scope
      = ((pool_of oldest scope).argmin path_key).map fun chosen => ⟨chosen.entry_id, keeper_reason oldest scope⟩ := by
  unfold rank_oldest
  split
  · rename_i only
    have hpool : pool_of [only] scope = [only] := by
      cases hp : is_preferred only scope <;> simp [pool_of, or_else, hp]
    rw [hpool]
    rfl
  · rename_i hmany
    have hlen : oldest.length ≠ 1 := by
      intro h
      obtain ⟨only, rfl⟩ := List.length_eq_one_iff.mp h
      exact hmany only rfl
    have hempty : (oldest.filter fun m => is_preferred m scope).isEmpty = true ↔
        (oldest.filter fun m => is_preferred m scope).length = 0 := List.isEmpty_iff_length_eq_zero
    dsimp only
    rcases hmin : (pool_of oldest scope).argmin path_key with _ | chosen
    · rfl
    · rw [Option.map_some, keeper_reason, if_neg hlen]
      dsimp only
      simp only [hempty]
      split_ifs <;> rfl

/-- The first of the pool is a foremost candidate, and the other way about. -/
theorem foremost_iff (hts : is_num ts = true) (hin : ts ∈ (candidates members).map oldest_ts)
    (hleast : ∀ m ∈ candidates members, ts ≤ oldest_ts m) : Foremost scope members a ↔
      a ∈ pool_of (oldest_of (candidates members) ts) scope ∧
        ∀ b ∈ pool_of (oldest_of (candidates members) ts) scope, path_key a ≤ path_key b := by
  have hold : ∀ {m}, m ∈ oldest_of (candidates members) ts ↔ m ∈ candidates members ∧ oldest_ts m = ts :=
    mem_oldest_of hts
  constructor
  · rintro ⟨ha, hfirst⟩
    have hats : oldest_ts a = ts := by
      obtain ⟨b, hb, rfl⟩ := List.mem_map.mp hin
      rcases hfirst b hb with hlt | ⟨heq, -⟩
      · exact absurd hlt (hleast a ha).not_gt
      · exact heq
    -- against a candidate as old, the rest of the order decides
    have hrest : ∀ b ∈ oldest_of (candidates members) ts,
        is_preferred b scope = false ∧ is_preferred a scope = true ∨
          is_preferred a scope = is_preferred b scope ∧ path_key a ≤ path_key b := by
      intro b hb
      obtain ⟨hb, hbts⟩ := hold.mp hb
      rcases hfirst b hb with hlt | ⟨-, h⟩
      · rw [hats, hbts] at hlt
        exact absurd hlt (lt_irrefl ts)
      · exact h
    refine ⟨mem_pool_of.mpr ⟨hold.mpr ⟨ha, hats⟩, ?_⟩, ?_⟩
    · cases hpref : is_preferred a scope with
      | true => exact Or.inl rfl
      | false =>
          refine Or.inr fun b hb => ?_
          rcases hrest b hb with ⟨hb', -⟩ | ⟨hsame, -⟩
          · exact hb'
          · exact hsame.symm.trans hpref
    · intro b hb
      obtain ⟨hb, hpool⟩ := mem_pool_of.mp hb
      rcases hrest b hb with ⟨hb', ha'⟩ | ⟨-, hle⟩
      · rcases hpool with hpref | hnone
        · exact absurd (hb'.symm.trans hpref) Bool.false_ne_true
        · exact absurd ((hnone a (hold.mpr ⟨ha, hats⟩)).symm.trans ha') Bool.false_ne_true
      · exact hle
  · rintro ⟨hpool, hshort⟩
    obtain ⟨haold, hapref⟩ := mem_pool_of.mp hpool
    obtain ⟨ha, hats⟩ := hold.mp haold
    refine ⟨ha, fun b hb => ?_⟩
    rcases (hleast b hb).lt_or_eq with hlt | heq
    · exact Or.inl (hats ▸ hlt)
    · refine Or.inr ⟨hats.trans heq, ?_⟩
      have hbold := hold.mpr ⟨hb, heq.symm⟩
      cases hbpref : is_preferred b scope with
      | true =>
          have ha' := hapref.resolve_right fun hnone => Bool.false_ne_true ((hnone b hbold).symm.trans hbpref)
          exact Or.inr ⟨ha', hshort b (mem_pool_of.mpr ⟨hbold, Or.inl hbpref⟩)⟩
      | false =>
          rcases hapref with ha' | hnone
          · exact Or.inl ⟨rfl, ha'⟩
          · exact Or.inr ⟨hnone a haold, hshort b (mem_pool_of.mpr ⟨hbold, Or.inr hnone⟩)⟩

theorem candidates_perm (h : order.Perm members) : (candidates order).Perm (candidates members) :=
  or_else_perm is_native h

theorem candidates_ne_nil (h : members ≠ []) : candidates members ≠ [] := or_else_ne_nil is_native h

theorem foremost_perm (h : order.Perm members) : Foremost scope order a ↔ Foremost scope members a := by
  simp only [Foremost, (candidates_perm h).mem_iff]

theorem num_oldest_ts : is_num (oldest_ts a) = is_num a.mtime := Nan.is_num_least_of_two

/-- What the least time is, when there is no NaN. -/
theorem least_time (hne : members ≠ []) (hnum : ∀ m ∈ candidates members, is_num m.mtime = true) :
    ∃ ts, ((candidates members).map oldest_ts).argmin id = some ts ∧ is_num ts = true ∧
      ts ∈ (candidates members).map oldest_ts ∧ ∀ m ∈ candidates members, ts ≤ oldest_ts m := by
  have hmap : (candidates members).map oldest_ts ≠ [] := fun h => candidates_ne_nil hne (List.map_eq_nil_iff.mp h)
  obtain ⟨ts, hts⟩ := Nan.exists_argmin id hmap
  have hall : ∀ x ∈ (candidates members).map oldest_ts, is_num x = true := by
    intro x hx
    obtain ⟨m, hm, rfl⟩ := List.mem_map.mp hx
    rw [num_oldest_ts]
    exact hnum m hm
  obtain ⟨hisnum, hin, hleast⟩ := Nan.minimum_of_nums hall hts
  exact ⟨ts, hts, hisnum, hin, fun m hm => hleast _ (List.mem_map_of_mem hm)⟩

/-- **Without a NaN the rule picks a foremost candidate.** -/
theorem rank_foremost (scope : DedupScope) (hne : members ≠ []) (hnum : ∀ m ∈ candidates members, is_num m.mtime = true) :
    ∃ chosen reason, rank_oldest_then_preferred_then_shortest members scope = some ⟨chosen.entry_id, reason⟩ ∧
      Foremost scope members chosen := by
  obtain ⟨ts, hmin, hts, hin, hleast⟩ := least_time hne hnum
  have hold : oldest_of (candidates members) ts ≠ [] := by
    obtain ⟨m, hm, heq⟩ := List.mem_map.mp hin
    exact List.ne_nil_of_mem ((mem_oldest_of hts).mpr ⟨hm, heq⟩)
  obtain ⟨chosen, hchosen⟩ := Nan.exists_argmin path_key (or_else_ne_nil (fun m => is_preferred m scope) hold)
  refine ⟨chosen, keeper_reason (oldest_of (candidates members) ts) scope, ?_, ?_⟩
  · rw [rank_oldest_then_preferred_then_shortest, hmin]
    dsimp only
    rw [rank_oldest_eq, pool_of, hchosen]
    rfl
  · exact (foremost_iff hts hin hleast).mpr
      ⟨List.argmin_mem hchosen, fun b hb => List.le_of_mem_argmin hb hchosen⟩

variable {rest : List TimedRef}

/-- A candidate that comes first of the members comes first of the candidates. -/
theorem candidates_head (h : a ∈ candidates (a :: rest)) : ∃ more, candidates (a :: rest) = a :: more :=
  or_else_head h

/-- **A NaN that comes first makes the rule raise.** -/
theorem rank_nan (h : a ∈ candidates (a :: rest)) (hnan : is_num a.mtime = false) :
    rank_oldest_then_preferred_then_shortest (a :: rest) scope = none := by
  obtain ⟨more, hmore⟩ := candidates_head h
  have hts : oldest_ts a = .nan := by
    rw [← num_oldest_ts] at hnan
    cases hts : oldest_ts a with
    | nan => rfl
    | num x =>
        rw [hts] at hnan
        cases hnan
  have hmin : ((candidates (a :: rest)).map oldest_ts).argmin id = some .nan := by
    rw [hmore, List.map_cons, hts]
    exact Nan.minimum_nan _
  have hnone : oldest_of (candidates (a :: rest)) .nan = [] := by
    refine List.filter_eq_nil_iff.mpr fun m _ heq => ?_
    have hm := Nan.equal_iff.mp heq
    rw [hm.2] at hm
    cases hm.1
  rw [rank_oldest_then_preferred_then_shortest, hmin]
  dsimp only
  rw [hnone]
  rfl

/-- **A foremost candidate that comes first is picked.** -/
theorem rank_first (h : Foremost scope (a :: rest) a) (hnum : is_num a.mtime = true) :
    ∃ reason, rank_oldest_then_preferred_then_shortest (a :: rest) scope = some ⟨a.entry_id, reason⟩ := by
  obtain ⟨more, hmore⟩ := candidates_head h.1
  have hts : is_num (oldest_ts a) = true := num_oldest_ts.trans hnum
  have hmin : ((candidates (a :: rest)).map oldest_ts).argmin id = some (oldest_ts a) := by
    rw [hmore, List.map_cons]
    refine Nan.argmin_head fun x hx => ?_
    obtain ⟨m, hm, rfl⟩ := List.mem_map.mp hx
    rcases h.2 m (hmore ▸ List.mem_cons_of_mem a hm) with hlt | ⟨heq, -⟩
    · exact hlt.not_gt
    · exact heq.not_gt
  have hin : oldest_ts a ∈ (candidates (a :: rest)).map oldest_ts := List.mem_map_of_mem h.1
  have hleast : ∀ m ∈ candidates (a :: rest), oldest_ts a ≤ oldest_ts m := by
    intro m hm
    rcases h.2 m hm with hlt | ⟨heq, -⟩
    · exact hlt.le
    · exact heq.le
  obtain ⟨hpool, hshort⟩ := (foremost_iff hts hin hleast).mp h
  have hold : oldest_of (candidates (a :: rest)) (oldest_ts a) = a :: oldest_of more (oldest_ts a) := by
    rw [hmore]
    exact List.filter_cons_of_pos (Nan.equal_iff.mpr ⟨hts, rfl⟩)
  rw [hold] at hpool hshort
  obtain ⟨others, hothers⟩ := or_else_head hpool
  have hpick : (pool_of (a :: oldest_of more (oldest_ts a)) scope).argmin path_key = some a := by
    rw [pool_of, hothers]
    refine Nan.argmin_head fun m hm => not_lt.mpr (hshort m ?_)
    rw [pool_of, hothers]
    exact List.mem_cons_of_mem a hm
  refine ⟨keeper_reason (oldest_of (candidates (a :: rest)) (oldest_ts a)) scope, ?_⟩
  rw [rank_oldest_then_preferred_then_shortest, hmin]
  dsimp only
  rw [rank_oldest_eq, hold, hpick]
  rfl

/-! ## The keeper -/

/-- A rule that picks one copy in every order has a settled ranking. -/
theorem settled_of_any_order {id : ℕ} (h : ∀ order : List TimedRef, order.Perm members →
    ∃ choice, rank_oldest_then_preferred_then_shortest order scope = some choice ∧ choice.entry_id = id) :
    Settled scope members := by
  -- a member can be put first
  have hfront : ∀ m ∈ members, ∃ rest, (m :: rest).Perm members := by
    intro m hm
    obtain ⟨before, after, rfl⟩ := List.append_of_mem hm
    exact ⟨before ++ after, List.perm_middle.symm⟩
  have hnum : ∀ m ∈ candidates members, is_num m.mtime = true := by
    intro m hm
    by_contra hnan
    obtain ⟨rest, hperm⟩ := hfront m (mem_or_else.mp hm).1
    obtain ⟨choice, hrank, -⟩ := h _ hperm
    have hm' : m ∈ candidates (m :: rest) := (candidates_perm hperm).mem_iff.mpr hm
    rw [rank_nan hm' (Bool.not_eq_true _ ▸ hnan)] at hrank
    cases hrank
  have hpicked : ∀ a, Foremost scope members a → a.entry_id = id := by
    intro a ha
    obtain ⟨rest, hperm⟩ := hfront a (mem_or_else.mp ha.1).1
    obtain ⟨choice, hrank, hid⟩ := h _ hperm
    obtain ⟨reason, hfirst⟩ := rank_first ((foremost_perm hperm).mpr ha) (hnum a ha.1)
    rw [hfirst] at hrank
    rw [← hid, ← Option.some.inj hrank]
  exact ⟨hnum, fun a b ha hb => (hpicked a ha).trans (hpicked b hb).symm⟩

/-- A settled ranking is one of the members, not of their order. -/
theorem settled_perm (hperm : order.Perm members) (h : Settled scope members) : Settled scope order :=
  ⟨fun m hm => h.num m ((candidates_perm hperm).mem_iff.mp hm),
    fun a b ha hb => h.one a b ((foremost_perm hperm).mp ha) ((foremost_perm hperm).mp hb)⟩

/-- **The rule keeps one copy, whatever the order of the members,** exactly when the
ranking is settled. -/
theorem keeper_kept_iff (hne : members ≠ []) : (∃ keeper, Kept scope members keeper) ↔ Settled scope members := by
  constructor
  · rintro ⟨keeper, hkept⟩
    exact settled_of_any_order hkept.any_order
  · intro hsettled
    obtain ⟨keeper, reason, -, hfirst⟩ := rank_foremost scope hne hsettled.num
    obtain ⟨hmem, hnative⟩ := mem_or_else.mp hfirst.1
    refine ⟨keeper, hmem, ?_, hfirst.2, ?_⟩
    · rintro ⟨m, hm, hm'⟩
      exact hnative.resolve_right fun hnone => Bool.false_ne_true ((hnone m hm).symm.trans hm')
    · intro order hperm
      have hne' : order ≠ [] := fun h => hne (List.perm_nil.mp (h ▸ hperm.symm))
      obtain ⟨chosen, reason', hrank, hchosen⟩ := rank_foremost scope hne' fun m hm =>
        hsettled.num m ((candidates_perm hperm).mem_iff.mp hm)
      exact ⟨_, hrank, hsettled.one chosen keeper ((foremost_perm hperm).mp hchosen) hfirst⟩

/-- The reason counts, so the order does not matter to it. -/
theorem keeper_reason_perm {oldest' : List TimedRef} (h : oldest.Perm oldest') :
    keeper_reason oldest scope = keeper_reason oldest' scope := by
  have hpool : (pool_of oldest scope).length = (pool_of oldest' scope).length :=
    (or_else_perm (fun m => is_preferred m scope) h).length_eq
  have hpref := (h.filter fun m => is_preferred m scope).length_eq
  rw [keeper_reason, keeper_reason, hpool, h.length_eq, hpref]

/-- **A settled ranking gives one choice**, its reason included. -/
theorem rank_perm (hsettled : Settled scope members) (hperm : order.Perm members) (hne : members ≠ []) :
    rank_oldest_then_preferred_then_shortest order scope = rank_oldest_then_preferred_then_shortest members scope := by
  have hcands := candidates_perm hperm
  have hne' : order ≠ [] := fun h => hne (List.perm_nil.mp (h ▸ hperm.symm))
  have hnum' : ∀ m ∈ candidates order, is_num m.mtime = true := fun m hm => hsettled.num m (hcands.mem_iff.mp hm)
  obtain ⟨ts, hmin, hts, hin, hleast⟩ := least_time hne hsettled.num
  obtain ⟨ts', hmin', hts', hin', hleast'⟩ := least_time hne' hnum'
  have hsame : ts' = ts := by
    obtain ⟨m, hm, rfl⟩ := List.mem_map.mp hin
    obtain ⟨m', hm', rfl⟩ := List.mem_map.mp hin'
    exact le_antisymm (hleast' m (hcands.mem_iff.mpr hm)) (hleast m' (hcands.mem_iff.mp hm'))
  subst hsame
  have hold : (oldest_of (candidates order) ts').Perm (oldest_of (candidates members) ts') := hcands.filter _
  rw [rank_oldest_then_preferred_then_shortest, rank_oldest_then_preferred_then_shortest, hmin, hmin']
  dsimp only
  rw [rank_oldest_eq, rank_oldest_eq, keeper_reason_perm hold]
  have hpool : ∀ {refs}, oldest_of refs ts' ≠ [] → pool_of (oldest_of refs ts') scope ≠ [] :=
    or_else_ne_nil fun m => is_preferred m scope
  have hsome : oldest_of (candidates members) ts' ≠ [] := by
    obtain ⟨m, hm, heq⟩ := List.mem_map.mp hin
    exact List.ne_nil_of_mem ((mem_oldest_of hts).mpr ⟨hm, heq⟩)
  have hsome' : oldest_of (candidates order) ts' ≠ [] := fun h => hsome (List.nil_perm.mp (h ▸ hold))
  obtain ⟨chosen, hchosen⟩ := Nan.exists_argmin path_key (hpool hsome)
  obtain ⟨chosen', hchosen'⟩ := Nan.exists_argmin path_key (hpool hsome')
  rw [hchosen, hchosen']
  -- both are foremost candidates of the members
  have hfirst : Foremost scope members chosen := (foremost_iff hts hin hleast).mpr
    ⟨List.argmin_mem hchosen, fun b hb => List.le_of_mem_argmin hb hchosen⟩
  have hfirst' : Foremost scope order chosen' := (foremost_iff hts' hin' hleast').mpr
    ⟨List.argmin_mem hchosen', fun b hb => List.le_of_mem_argmin hb hchosen'⟩
  rw [Option.map_some, Option.map_some, hsettled.one chosen' chosen ((foremost_perm hperm).mp hfirst') hfirst]

end

/-- A copy of one file, on some host. -/
def copy_at (id host_id : ℕ) (path : String) (mtime : ℚ) : TimedRef where
  entry_id := id
  host_id := host_id
  volume_id := host_id
  path := path
  size := 1
  full_hash := "h"
  fs_type := "ext4"
  mtime := .num (mtime : ℚ)
  ctime := .num (mtime : ℚ)

/-- Two hosts hold a file at one path, of one age: the copy that was read first is kept. -/
theorem first_of_two_hosts_kept :
    ¬∃ keeper, Kept {} [copy_at 1 1 "/srv/a" 5, copy_at 2 2 "/srv/a" 5] keeper := by
  rintro ⟨keeper, hkept⟩
  have hone : (rank_oldest_then_preferred_then_shortest [copy_at 1 1 "/srv/a" 5, copy_at 2 2 "/srv/a" 5] {}).map
      KeeperChoice.entry_id = some 1 := by decide +kernel
  have hother : (rank_oldest_then_preferred_then_shortest [copy_at 2 2 "/srv/a" 5, copy_at 1 1 "/srv/a" 5] {}).map
      KeeperChoice.entry_id = some 2 := by decide +kernel
  obtain ⟨choice, hrank, hid⟩ := hkept.any_order _ (List.Perm.refl _)
  obtain ⟨choice', hrank', hid'⟩ := hkept.any_order _ (List.Perm.swap _ _ _)
  rw [hrank, Option.map_some, hid] at hone
  rw [hrank', Option.map_some, hid'] at hother
  exact absurd (hone.symm.trans hother) (by decide)

/-- Of two copies of one path, the older one is kept. -/
theorem keeper_kept_older :
    ∃ keeper, Kept {} [copy_at 1 1 "/srv/a" 5, copy_at 2 2 "/srv/a" 4] keeper := by
  refine (keeper_kept_iff (List.cons_ne_nil _ _)).mpr ⟨by decide +kernel, fun a b ha hb => ?_⟩
  have hlast : ∀ m, Foremost {} [copy_at 1 1 "/srv/a" 5, copy_at 2 2 "/srv/a" 4] m → m.entry_id = 2 := by
    intro m hm
    have hcands : candidates [copy_at 1 1 "/srv/a" 5, copy_at 2 2 "/srv/a" 4]
        = [copy_at 1 1 "/srv/a" 5, copy_at 2 2 "/srv/a" 4] := by
      unfold candidates or_else
      rfl
    have hmem := hm.1
    have hfirst := hm.2 (copy_at 2 2 "/srv/a" 4)
    rw [hcands] at hmem hfirst
    rcases List.mem_pair.mp hmem with rfl | rfl
    · exact absurd (hfirst (by simp)) (by unfold Before; decide +kernel)
    · rfl
  exact (hlast a ha).trans (hlast b hb).symm

end Fathom.Catalogue
