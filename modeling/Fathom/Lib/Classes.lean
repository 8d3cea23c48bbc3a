/-
**Classes of a list by a key**: a dict of lists that is filled in one pass, and what is
left when a list is cut up by one key after the other and what stands alone is thrown away.

`Classes key xs groups` says of some groups that they are the classes of equal keys with
two members or more, each once. Cutting up by a coarser key first loses none of them
(`Filled.refine`), for a member that is alone under the coarser key is alone under the
finer one.
-/
import Mathlib.Data.List.Nodup
import Mathlib.Data.List.Induction
import Mathlib.Data.List.Perm.Basic

set_option autoImplicit false

namespace Fathom

universe u v w

variable {α : Type u} {κ : Type v} {ι : Type w} [DecidableEq κ] [DecidableEq ι]

/-! ## A dict of lists -/

/-- `d[key].append(x)`, of a `defaultdict(list)` in insertion order. -/
def append_to (key : κ) (x : α) : List (κ × List α) → List (κ × List α)
  | [] => [(key, [x])]
  | (k, xs) :: rest => if k = key then (k, xs ++ [x]) :: rest else (k, xs) :: append_to key x rest

/-- The dict that a pass over a list fills. -/
def buckets (key : α → κ) (xs : List α) : List (κ × List α) :=
  xs.foldl (fun d x => append_to (key x) x d) []

/-- The members of a list under a key. -/
def under (key : α → κ) (xs : List α) (k : κ) : List α := xs.filter fun x => key x = k

/-- The lists of a dict that have two members or more. -/
def crowded (d : List (κ × List α)) : List (κ × List α) := d.filter fun bucket => 2 ≤ bucket.2.length

/-- What a dict looks like when a list has been put into it. -/
structure Filled (key : α → κ) (xs : List α) (d : List (κ × List α)) : Prop where
  keys : (d.map Prod.fst).Nodup
  all : ∀ x ∈ xs, key x ∈ d.map Prod.fst
  list : ∀ bucket ∈ d, bucket.2 = under key xs bucket.1

variable {key : α → κ} {xs : List α} {k : κ}

theorem mem_under {x : α} : x ∈ under key xs k ↔ x ∈ xs ∧ key x = k := by
  rw [under, List.mem_filter, decide_eq_true_eq]

theorem under_snoc (key : α → κ) (xs : List α) (x : α) (k : κ) :
    under key (xs ++ [x]) k = under key xs k ++ if key x = k then [x] else [] := by
  rw [under, List.filter_append, List.filter_cons, List.filter_nil]
  by_cases h : key x = k
  · rw [if_pos (decide_eq_true h), if_pos h]
    rfl
  · rw [if_neg (by simpa using h), if_neg h]
    rfl

theorem keys_append_to (key : κ) (x : α) (d : List (κ × List α)) : (append_to key x d).map Prod.fst
      = if key ∈ d.map Prod.fst then d.map Prod.fst else d.map Prod.fst ++ [key] := by
  induction d with
  | nil => rfl
  | cons bucket rest ih =>
      obtain ⟨k, xs⟩ := bucket
      rw [append_to]
      by_cases hk : k = key
      · rw [if_pos hk, if_pos (hk ▸ List.mem_cons_self)]
        rfl
      · have hmem : key ∈ k :: rest.map Prod.fst ↔ key ∈ rest.map Prod.fst := by
          rw [List.mem_cons]
          exact or_iff_right fun heq => hk heq.symm
        rw [if_neg hk, List.map_cons, List.map_cons, ih]
        by_cases hrest : key ∈ rest.map Prod.fst
        · rw [if_pos hrest, if_pos (hmem.mpr hrest)]
        · rw [if_neg hrest, if_neg fun h => hrest (hmem.mp h)]
          rfl

variable {d : List (κ × List α)} {β : Type u} {groups : List (List α)}

/-- One member more: the list of its key grows, the others stay. -/
theorem mem_append_to {key : κ} {x : α} (hkeys : (d.map Prod.fst).Nodup) (h : (k, xs) ∈ append_to key x d) :
    (k ≠ key ∧ (k, xs) ∈ d) ∨
      (k = key ∧ ((∃ before, (k, before) ∈ d ∧ xs = before ++ [x]) ∨ (key ∉ d.map Prod.fst ∧ xs = [x]))) := by
  induction d with
  | nil =>
      obtain ⟨rfl, rfl⟩ := Prod.mk.inj (List.mem_singleton.mp h)
      exact Or.inr ⟨rfl, Or.inr ⟨List.not_mem_nil, rfl⟩⟩
  | cons bucket rest ih =>
      obtain ⟨k', before⟩ := bucket
      obtain ⟨hfresh, hrest⟩ := List.nodup_cons.mp hkeys
      rw [append_to] at h
      split at h
      · rename_i hk'
        rcases List.mem_cons.mp h with heq | hmem
        · obtain ⟨rfl, rfl⟩ := Prod.mk.inj heq
          exact Or.inr ⟨hk', Or.inl ⟨before, List.mem_cons_self, rfl⟩⟩
        · refine Or.inl ⟨fun hk => hfresh ?_, List.mem_cons_of_mem _ hmem⟩
          rw [hk', ← hk]
          exact List.mem_map.mpr ⟨(k, xs), hmem, rfl⟩
      · rename_i hk'
        rcases List.mem_cons.mp h with heq | hmem
        · obtain ⟨rfl, rfl⟩ := Prod.mk.inj heq
          exact Or.inl ⟨hk', List.mem_cons_self⟩
        · rcases ih hrest hmem with ⟨hne, hin⟩ | ⟨hk, ⟨before', hin, hxs⟩ | ⟨hnew, hxs⟩⟩
          · exact Or.inl ⟨hne, List.mem_cons_of_mem _ hin⟩
          · exact Or.inr ⟨hk, Or.inl ⟨before', List.mem_cons_of_mem _ hin, hxs⟩⟩
          · refine Or.inr ⟨hk, Or.inr ⟨fun hmem => ?_, hxs⟩⟩
            rcases List.mem_cons.mp hmem with heq | hin
            · exact hk' heq.symm
            · exact hnew hin

theorem buckets_snoc (key : α → κ) (xs : List α) (x : α) :
    buckets key (xs ++ [x]) = append_to (key x) x (buckets key xs) := by
  rw [buckets, List.foldl_append]
  rfl

/-- **A pass fills the dict**: every key once, with the members of the key in order. -/
theorem buckets_filled (key : α → κ) (xs : List α) : Filled key xs (buckets key xs) := by
  induction xs using List.reverseRecOn with
  | nil => exact ⟨List.nodup_nil, fun _ h => absurd h List.not_mem_nil, fun _ h => absurd h List.not_mem_nil⟩
  | append_singleton xs x ih =>
      rw [buckets_snoc]
      refine ⟨?_, ?_, ?_⟩
      · rw [keys_append_to]
        split
        · exact ih.keys
        · rename_i hnew
          rw [← List.concat_eq_append]
          exact ih.keys.concat hnew
      · intro y hy
        rw [keys_append_to]
        have hor : key y ∈ (buckets key xs).map Prod.fst ∨ key y = key x := by
          rcases List.mem_append.mp hy with hold | hnew
          · exact Or.inl (ih.all y hold)
          · exact Or.inr (congrArg key (List.mem_singleton.mp hnew))
        split
        · rename_i hin
          exact hor.elim (fun h => h) fun h => h ▸ hin
        · exact hor.elim (List.mem_append_left _) fun h => List.mem_append_right _ (List.mem_singleton.mpr h)
      · rintro ⟨k, ys⟩ hbucket
        rw [under_snoc]
        rcases mem_append_to ih.keys hbucket with ⟨hne, hin⟩ | ⟨hk, ⟨before, hin, hys⟩ | ⟨hnew, hys⟩⟩
        · rw [if_neg hne.symm, List.append_nil]
          exact ih.list _ hin
        · rw [if_pos hk.symm, hys]
          exact congrArg (· ++ [x]) (ih.list _ hin)
        · -- nothing before had the key
          have hnone : under key xs k = [] := by
            refine List.filter_eq_nil_iff.mpr fun y hy hkey => hnew ?_
            rw [← hk, ← of_decide_eq_true hkey]
            exact ih.all y hy
          rw [if_pos hk.symm, hnone, hys, List.nil_append]

/-- The keys of a dict are those of the list. -/
theorem exists_of_mem_keys (h : k ∈ (buckets key xs).map Prod.fst) : ∃ x ∈ xs, key x = k := by
  induction xs using List.reverseRecOn with
  | nil => exact absurd h List.not_mem_nil
  | append_singleton xs x ih =>
      have hor : k ∈ (buckets key xs).map Prod.fst ∨ k = key x := by
        rw [buckets_snoc, keys_append_to] at h
        split at h
        · exact Or.inl h
        · exact (List.mem_append.mp h).imp_right List.mem_singleton.mp
      obtain hold | rfl := hor
      · obtain ⟨y, hy, hkey⟩ := ih hold
        exact ⟨y, List.mem_append_left _ hy, hkey⟩
      · exact ⟨x, List.mem_append_right _ List.mem_cons_self, rfl⟩

/-- **The lists of two members or more**, and what they are under. -/
theorem mem_crowded_buckets {bucket : κ × List α} :
    bucket ∈ crowded (buckets key xs) ↔ 2 ≤ bucket.2.length ∧ bucket.2 = under key xs bucket.1 := by
  have hfilled := buckets_filled key xs
  rw [crowded, List.mem_filter, decide_eq_true_eq]
  constructor
  · rintro ⟨hin, hlen⟩
    exact ⟨hlen, hfilled.list bucket hin⟩
  · rintro ⟨hlen, hlist⟩
    obtain ⟨x, hx⟩ := List.exists_mem_of_length_pos (Nat.lt_of_lt_of_le Nat.zero_lt_two hlen)
    obtain ⟨hx, hk⟩ := mem_under.mp (hlist ▸ hx)
    obtain ⟨found, hfound, hkey⟩ := List.mem_map.mp (hfilled.all x hx)
    have hsame : found = bucket := by
      refine Prod.ext (hkey.trans hk) ?_
      rw [hfilled.list found hfound, hlist, hkey, hk]
    exact ⟨hsame ▸ hfound, hlen⟩

/-- A dict of what a map makes of a list. -/
theorem buckets_map (f : β → α) (key : α → κ) (xs : List β) :
    buckets key (xs.map f) = (buckets (fun x => key (f x)) xs).map fun bucket => (bucket.1, bucket.2.map f) := by
  have hstep : ∀ (x : β) (d : List (κ × List β)),
      append_to (key (f x)) (f x) (d.map fun bucket => (bucket.1, bucket.2.map f))
        = (append_to (key (f x)) x d).map fun bucket => (bucket.1, bucket.2.map f) := by
    intro x d
    induction d with
    | nil => rfl
    | cons bucket rest ih =>
        rw [append_to, List.map_cons, append_to, ih]
        split
        · rw [List.map_cons, List.map_append]
          rfl
        · rfl
  induction xs using List.reverseRecOn with
  | nil => rfl
  | append_singleton xs x ih =>
      rw [List.map_append, buckets, buckets, List.foldl_append, List.foldl_append, ← buckets, ← buckets, ih]
      exact hstep x _

omit [DecidableEq κ] in
theorem crowded_map (f : β → α) (d : List (κ × List β)) :
    crowded (d.map fun bucket => (bucket.1, bucket.2.map f)) = (crowded d).map fun bucket => (bucket.1, bucket.2.map f) := by
  rw [crowded, List.filter_map, crowded]
  refine congrArg (List.map _) (List.filter_congr fun bucket _ => ?_)
  rw [Function.comp_apply, List.length_map]

/-! ## Classes -/

/-- **The classes of equal keys** with two members or more, each once. -/
structure Classes (key : α → κ) (xs : List α) (groups : List (List α)) : Prop where
  each : ∀ group ∈ groups, 2 ≤ group.length ∧ ∃ k, group = under key xs k
  all : ∀ x ∈ xs, 2 ≤ (under key xs (key x)).length → under key xs (key x) ∈ groups
  once : groups.Nodup

theorem Classes.mem_iff (h : Classes key xs groups) {group : List α} :
    group ∈ groups ↔ 2 ≤ group.length ∧ ∃ x ∈ xs, group = under key xs (key x) := by
  constructor
  · intro hmem
    obtain ⟨hlen, k, hgroup⟩ := h.each group hmem
    obtain ⟨x, hx⟩ := List.exists_mem_of_length_pos (Nat.lt_of_lt_of_le Nat.zero_lt_two hlen)
    obtain ⟨hx, hk⟩ := mem_under.mp (hgroup ▸ hx)
    exact ⟨hlen, x, hx, hk ▸ hgroup⟩
  · rintro ⟨hlen, x, hx, rfl⟩
    exact h.all x hx hlen

/-- There is one way to take the classes, but for their order. -/
theorem Classes.perm {groups' : List (List α)} (h : Classes key xs groups) (h' : Classes key xs groups') :
    groups.Perm groups' := by
  refine (List.perm_ext_iff_of_nodup h.once h'.once).mpr fun group => ?_
  rw [h.mem_iff, h'.mem_iff]

/-- The lists of a dict with two members or more are the classes. -/
theorem Filled.classes (h : Filled key xs d) : Classes key xs ((crowded d).map Prod.snd) := by
  have hmem : ∀ {bucket}, bucket ∈ crowded d ↔ bucket ∈ d ∧ 2 ≤ bucket.2.length := fun {bucket} => by
    rw [crowded, List.mem_filter, decide_eq_true_eq]
  refine ⟨?_, ?_, ?_⟩
  · intro group hgroup
    obtain ⟨bucket, hbucket, rfl⟩ := List.mem_map.mp hgroup
    obtain ⟨hin, hlen⟩ := hmem.mp hbucket
    exact ⟨hlen, bucket.1, h.list bucket hin⟩
  · intro x hx hlen
    obtain ⟨bucket, hin, hkey⟩ := List.mem_map.mp (h.all x hx)
    have hlist := h.list bucket hin
    rw [hkey] at hlist
    exact List.mem_map.mpr ⟨bucket, hmem.mpr ⟨hin, hlist ▸ hlen⟩, hlist⟩
  · -- two buckets with one list share a member, and so the key
    have hkeys : ((crowded d).map Prod.fst).Nodup := h.keys.sublist (List.filter_sublist.map _)
    refine List.Nodup.map_on ?_ (List.Nodup.of_map _ hkeys)
    intro bucket hbucket bucket' hbucket' hsame
    obtain ⟨hin, hlen⟩ := hmem.mp hbucket
    obtain ⟨hin', -⟩ := hmem.mp hbucket'
    obtain ⟨x, hx⟩ := List.exists_mem_of_length_pos (Nat.lt_of_lt_of_le Nat.zero_lt_two hlen)
    have hk := (mem_under.mp (h.list bucket hin ▸ hx)).2
    have hk' := (mem_under.mp (h.list bucket' hin' ▸ hsame ▸ hx)).2
    exact Prod.ext (hk.symm.trans hk') hsame

theorem buckets_classes (key : α → κ) (xs : List α) : Classes key xs ((crowded (buckets key xs)).map Prod.snd) :=
  (buckets_filled key xs).classes

/-- Keys that tell the same members apart have the same classes. -/
theorem Classes.congr {key' : α → ι} (hsame : ∀ x ∈ xs, ∀ y ∈ xs, key x = key y ↔ key' x = key' y)
    (h : Classes key xs groups) : Classes key' xs groups := by
  have hunder : ∀ x ∈ xs, under key xs (key x) = under key' xs (key' x) := by
    intro x hx
    refine List.filter_congr fun y hy => ?_
    exact decide_eq_decide.mpr (hsame y hy x hx)
  refine ⟨?_, ?_, h.once⟩
  · intro group hgroup
    obtain ⟨hlen, x, hx, hunderx⟩ := h.mem_iff.mp hgroup
    exact ⟨hlen, key' x, hunderx.trans (hunder x hx)⟩
  · intro x hx hlen
    rw [← hunder x hx] at hlen ⊢
    exact h.all x hx hlen

/-- Fewer than two have no class. -/
theorem Classes.of_short (h : xs.length < 2) : Classes key xs [] := by
  refine ⟨fun _ hgroup => absurd hgroup List.not_mem_nil, fun x _ hlen => ?_, List.nodup_nil⟩
  have hle := Nat.le_trans hlen (List.length_filter_le _ _)
  omega

/-- What a map makes of the members of a key. -/
theorem under_map {f : β → α} {xs : List β} : under key (xs.map f) k = (under (fun x => key (f x)) xs k).map f := by
  rw [under, List.filter_map, under]
  rfl

/-- A map of the members is one of the classes. -/
theorem Classes.map {f : β → α} {xs : List β} {groups : List (List β)} (h : Classes (fun x => key (f x)) xs groups) :
    Classes key (xs.map f) (groups.map (List.map f)) := by
  refine ⟨?_, ?_, ?_⟩
  · intro group hgroup
    obtain ⟨before, hbefore, rfl⟩ := List.mem_map.mp hgroup
    obtain ⟨hlen, k, hk⟩ := h.each before hbefore
    exact ⟨by rwa [List.length_map], k, by rw [hk, under_map]⟩
  · intro y hy hlen
    obtain ⟨x, hx, rfl⟩ := List.mem_map.mp hy
    rw [under_map] at hlen ⊢
    rw [List.length_map] at hlen
    exact List.mem_map_of_mem (h.all x hx hlen)
  · -- equal images have members of one key
    refine List.Nodup.map_on (fun group hgroup group' hgroup' hsame => ?_) h.once
    obtain ⟨hlen, x, hx, hgroupx⟩ := h.mem_iff.mp hgroup
    obtain ⟨-, x', -, hgroupx'⟩ := h.mem_iff.mp hgroup'
    have hmem : f x ∈ group'.map f := hsame ▸ List.mem_map_of_mem (hgroupx ▸ mem_under.mpr ⟨hx, rfl⟩)
    obtain ⟨y, hy, hfy⟩ := List.mem_map.mp hmem
    have hkey : key (f x) = key (f x') := by
      rw [hgroupx'] at hy
      rw [← hfy]
      exact (mem_under.mp hy).2
    rw [hgroupx, hgroupx', hkey]

/-- **Dropping what stands alone** drops no class, as long as classes are kept whole. -/
theorem Classes.of_kept {p : α → Bool}
    (hkept : ∀ x ∈ xs, 2 ≤ (under key xs (key x)).length → ∀ y ∈ under key xs (key x), p y = true)
    (h : Classes key (xs.filter p) groups) : Classes key xs groups := by
  have hunder : ∀ x ∈ xs, 2 ≤ (under key xs (key x)).length → under key (xs.filter p) (key x) = under key xs (key x) := by
    intro x hx hlen
    rw [under, List.filter_filter, under]
    refine List.filter_congr fun y hy => ?_
    by_cases hkey : key y = key x
    · rw [hkept x hx hlen y (mem_under.mpr ⟨hy, hkey⟩), Bool.and_true]
    · rw [decide_eq_false hkey, Bool.false_and]
  have hle : ∀ k, (under key (xs.filter p) k).length ≤ (under key xs k).length := fun k =>
    (List.filter_sublist.filter _).length_le
  refine ⟨?_, ?_, h.once⟩
  · intro group hgroup
    obtain ⟨hlen, x, hx, rfl⟩ := h.mem_iff.mp hgroup
    exact ⟨hlen, key x, hunder x (List.mem_of_mem_filter hx) (Nat.le_trans hlen (hle _))⟩
  · intro x hx hlen
    have hpx := hkept x hx hlen x (mem_under.mpr ⟨hx, rfl⟩)
    have hsame := hunder x hx hlen
    rw [← hsame] at hlen ⊢
    exact h.all x (List.mem_filter.mpr ⟨hx, hpx⟩) hlen

/-- **Cutting up by a coarser key first**: the classes of the finer key, taken within each
list of a dict by the coarser one, are all of them. -/
theorem Filled.refine {coarse : α → κ} {fine : α → ι} {cut : κ × List α → List (List α)}
    (hcoarse : ∀ x ∈ xs, ∀ y ∈ xs, fine x = fine y → coarse x = coarse y) (h : Filled coarse xs d)
    (hcut : ∀ bucket ∈ d, Classes fine bucket.2 (cut bucket)) : Classes fine xs (d.flatMap cut) := by
  -- within a class of the coarser key, a class of the finer one is what it is in the whole list
  have hwhole : ∀ x ∈ xs, under fine (under coarse xs (coarse x)) (fine x) = under fine xs (fine x) := by
    intro x hx
    rw [under, under, List.filter_filter, under]
    refine List.filter_congr fun y hy => ?_
    by_cases hfine : fine y = fine x
    · rw [decide_eq_true hfine, decide_eq_true (hcoarse y hy x hx hfine)]
      rfl
    · rw [decide_eq_false hfine]
      rfl
  refine ⟨?_, ?_, ?_⟩
  · intro c hc
    obtain ⟨bucket, hbucket, hc⟩ := List.mem_flatMap.mp hc
    obtain ⟨hlen, x, hx, hcx⟩ := (hcut bucket hbucket).mem_iff.mp hc
    have hlist := h.list bucket hbucket
    obtain ⟨hx, hkey⟩ := mem_under.mp (hlist ▸ hx)
    refine ⟨hlen, fine x, ?_⟩
    rw [hcx, hlist, ← hkey, hwhole x hx]
  · intro x hx hlen
    obtain ⟨bucket, hbucket, hkey⟩ := List.mem_map.mp (h.all x hx)
    have hlist := h.list bucket hbucket
    rw [hkey] at hlist
    refine List.mem_flatMap.mpr ⟨bucket, hbucket, ?_⟩
    rw [← hwhole x hx, ← hlist] at hlen ⊢
    exact (hcut bucket hbucket).all x (hlist ▸ mem_under.mpr ⟨hx, rfl⟩) hlen
  · refine List.nodup_flatMap.mpr ⟨fun bucket hbucket => (hcut bucket hbucket).once, ?_⟩
    refine (List.pairwise_map.mp h.keys).imp_of_mem fun {bucket bucket'} hbucket hbucket' hne c hc hc' => hne ?_
    -- a class in two lists of the dict has a member in both
    obtain ⟨hlen, x, -, hcx⟩ := (hcut bucket hbucket).mem_iff.mp hc
    obtain ⟨-, x', -, hcx'⟩ := (hcut bucket' hbucket').mem_iff.mp hc'
    obtain ⟨y, hy⟩ := List.exists_mem_of_length_pos (Nat.lt_of_lt_of_le Nat.zero_lt_two hlen)
    have hy₁ := (mem_under.mp (h.list bucket hbucket ▸ (mem_under.mp (hcx ▸ hy)).1)).2
    have hy₂ := (mem_under.mp (h.list bucket' hbucket' ▸ (mem_under.mp (hcx' ▸ hy)).1)).2
    exact hy₁.symm.trans hy₂

end Fathom
