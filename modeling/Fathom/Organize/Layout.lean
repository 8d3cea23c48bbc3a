/-
**A proposal as a layout** (`OrganizeService._resolve`).

The model proposes a place for each file of a folder; `_resolve` goes through the files once, clamps
what is proposed, and refuses a place that an earlier file has been given. A file whose proposal is
refused stays where it is -- and nothing looks whether an earlier file has been moved there.

`resolve_settles` says that the pass serves its files first come, first served; that the layout is
free of collisions is then a question about the places that are proposed (`collision_free_iff`).
-/
import Fathom.Lib.Settle
import Fathom.Organize.Service

set_option autoImplicit false

namespace Fathom.Organize

open Fathom.Auth (strip)
open Fathom.Read (rstrip)
open Fathom.Security (normpath)
open Fathom.Settle

/-! ## The pass -/

/-- `_Assignment`. -/
structure Assignment where
  index : ℤ
  target_dir : String
  new_name : String
  deriving DecidableEq

/-- `_Entry`, without what only the prompt shows. -/
structure Entry where
  entry_id : ℕ
  path : String
  name : String
  rel : String
  deriving DecidableEq

/-- The statuses of a `ProposedItem`. -/
inductive Status where
  | move
  | keep
  | rejected
  deriving DecidableEq

/-- `ProposedItem`. -/
structure ProposedItem where
  entry_id : ℕ
  current_path : String
  current_name : String
  proposed_relpath : String
  proposed_name : String
  reason : String
  status : Status
  deriving DecidableEq

/-- `by_index.get(i)`: of two assignments with one index, the last. -/
def by_index (proposal : List Assignment) (i : ℕ) : Option Assignment :=
  proposal.reverse.find? fun a => a.index = i

/-- The leaf a file is to have. -/
def proposed_leaf (a : Option Assignment) (e : Entry) : Option (List Char) :=
  match a.filter fun a => a.new_name ≠ "" with
  | some a => safe_leaf a.new_name.toList
  | none => some e.name.toList

/-- The path a file is to have, relative to the folder. -/
def proposed_rel (a : Option Assignment) (leaf : List Char) : List Char :=
  let target_dir := strip (a.elim [] fun a => a.target_dir.toList)
  if target_dir ≠ [] then normpath (path_join target_dir leaf) else leaf

/-- An item that is refused. -/
def rejected (e : Entry) (proposed_name reason : String) : ProposedItem where
  entry_id := e.entry_id
  current_path := e.path
  current_name := e.name
  proposed_relpath := e.rel
  proposed_name
  reason
  status := .rejected

/-- An item that is accepted. -/
def accepted (base : List Char) (e : Entry) (leaf absolute : List Char) : ProposedItem where
  entry_id := e.entry_id
  current_path := e.path
  current_name := e.name
  proposed_relpath := if absolute ≠ base then String.ofList (absolute.drop (base.length + 1)) else ""
  proposed_name := String.ofList leaf
  reason := ""
  status := if absolute = e.path.toList then .keep else .move

/-- One round of the loop of `_resolve`, with `taken` before and after. -/
def resolve_entry (root : List Char) (a : Option Assignment) (taken : List (List Char × ℕ)) (i : ℕ)
    (e : Entry) : ProposedItem × List (List Char × ℕ) :=
  match proposed_leaf a e with
  | none => (rejected e e.name "invalid name", taken)
  | some leaf =>
    match clamp_to_root root (proposed_rel a leaf) with
    | none => (rejected e (String.ofList leaf) "out-of-root target rejected", taken)
    | some absolute =>
      if (taken.lookup absolute).any fun k => k ≠ i then
        (rejected e (String.ofList leaf) "collides with another proposal", taken)
      else (accepted (rstrip root) e leaf absolute, (absolute, i) :: taken)

/-- The loop of `_resolve`, from an index on. -/
def resolve_from (root : List Char) (proposal : List Assignment) :
    List (List Char × ℕ) → ℕ → List Entry → List ProposedItem
  | _, _, [] => []
  | taken, i, e :: entries =>
    let (item, taken') := resolve_entry root (by_index proposal i) taken i e
    item :: resolve_from root proposal taken' (i + 1) entries

/-- `_resolve`. -/
def resolve (root : String) (entries : List Entry) (proposal : List Assignment) :
    List ProposedItem := resolve_from root.toList proposal [] 0 entries

/-! ## The layout -/

/-- Where a file is once the moves that were accepted are made. -/
def final_path (base : List Char) (item : ProposedItem) : List Char :=
  if item.status = .move then
    if item.proposed_relpath = "" then base else base ++ '/' :: item.proposed_relpath.toList
  else item.current_path.toList

/-- Where all files are then. -/
def layout (root : String) (entries : List Entry) (proposal : List Assignment) : List (List Char) :=
  (resolve root entries proposal).map (final_path (rstrip root.toList))

/-- A path below a folder. -/
def Below (base path : List Char) : Prop := ∃ rest, rest ≠ [] ∧ path = base ++ '/' :: rest

/-- The place that is proposed for a file, as it is clamped. -/
def target (root : String) (proposal : List Assignment) (i : ℕ) (e : Entry) : Option (List Char) :=
  (proposed_leaf (by_index proposal i) e).bind fun leaf =>
    clamp_to_root root.toList (proposed_rel (by_index proposal i) leaf)

/-- What the files of a folder want and have. -/
def wants (root : String) (proposal : List Assignment) (i : ℕ) (entries : List Entry) :
    List (Option (List Char) × List Char) :=
  entries.mapIdx fun k e => (target root proposal (i + k) e, e.path.toList)

theorem wants_cons (root : String) (proposal : List Assignment) (i : ℕ) (e : Entry) (entries : List Entry) :
    wants root proposal i (e :: entries) =
      (target root proposal i e, e.path.toList) :: wants root proposal (i + 1) entries := by
  rw [wants, List.mapIdx_cons, wants]
  congr 1
  apply List.mapIdx_eq_mapIdx_iff.mpr
  intro k hk
  rw [Nat.add_right_comm, Nat.add_assoc]

theorem wants_get {root : String} {proposal : List Assignment} {entries : List Entry} {k : ℕ}
    {item : Option (List Char) × List Char} : (wants root proposal 0 entries)[k]? = some item ↔
      ∃ e, entries[k]? = some e ∧ item = (target root proposal k e, e.path.toList) := by
  rw [wants, List.getElem?_mapIdx, Option.map_eq_some_iff]
  simp only [Nat.zero_add, eq_comm]

theorem wants_homes (root : String) (proposal : List Assignment) (i : ℕ) (entries : List Entry) :
    (wants root proposal i entries).map Prod.snd = entries.map fun e => e.path.toList := by
  induction entries generalizing i with
  | nil => rfl
  | cons e entries ih => rw [wants_cons, List.map_cons, List.map_cons, ih]

/-- A file that is refused stays. -/
theorem final_path_rejected (base : List Char) (e : Entry) (name reason : String) :
    final_path base (rejected e name reason) = e.path.toList := by
  rw [final_path, if_neg (by simp [rejected])]
  rfl

/-- A file that is accepted goes to the place it was clamped to. -/
theorem final_path_accepted {root rel absolute : List Char} (e : Entry) (leaf : List Char)
    (h : clamp_to_root root rel = some absolute) :
    final_path (rstrip root) (accepted (rstrip root) e leaf absolute) = absolute := by
  unfold final_path accepted
  dsimp only
  by_cases hkeep : absolute = e.path.toList
  · rw [if_neg (by simp [hkeep])]
    exact hkeep.symm
  · rw [if_neg hkeep, if_pos rfl]
    obtain ⟨-, -, hroot | ⟨rest, hrest, hplain⟩⟩ := clamp_to_root_spec h
    · rw [if_neg (not_not.mpr hroot), if_pos rfl, hroot]
    · have hne : absolute ≠ rstrip root := by
        rw [hrest]
        intro hself
        exact absurd (List.append_right_eq_self.mp hself) (List.cons_ne_nil _ _)
      have hdrop : absolute.drop ((rstrip root).length + 1) = rest := by
        rw [hrest, ← List.singleton_append, ← List.append_assoc, List.drop_append_of_le_length]
        · simp
        · simp
      have hsome : String.ofList rest ≠ "" := by
        intro hempty
        have hnil : rest = [] := by
          rw [← String.toList_ofList (l := rest), hempty]
          rfl
        rw [hnil] at hplain
        exact (hplain [] (by simp)).ne_nil rfl
      rw [if_pos hne, hdrop, if_neg hsome, String.toList_ofList, hrest]

/-- **The pass serves its files** first come, first served. -/
theorem resolve_from_settles (root : String) (proposal : List Assignment)
    (taken : List (List Char × ℕ)) (i : ℕ) (entries : List Entry) (htaken : ∀ place k, (place, k) ∈ taken → k < i) :
    (resolve_from root.toList proposal taken i entries).map (final_path (rstrip root.toList)) =
      settle (taken.map Prod.fst) (wants root proposal i entries) := by
  induction entries generalizing taken i with
  | nil => rfl
  | cons e entries ih =>
      have hlater : ∀ place k, (place, k) ∈ taken → k < i + 1 := fun place k h =>
        Nat.lt_succ_of_lt (htaken place k h)
      rw [wants_cons, resolve_from]
      unfold target resolve_entry
      dsimp only
      cases hleaf : proposed_leaf (by_index proposal i) e with
      | none =>
          dsimp only
          rw [Option.bind_none, settle, List.map_cons, final_path_rejected, ih taken (i + 1) hlater]
      | some leaf =>
          rw [Option.bind_some]
          dsimp only
          cases hclamp : clamp_to_root root.toList (proposed_rel (by_index proposal i) leaf) with
          | none =>
              dsimp only
              rw [settle, List.map_cons, final_path_rejected, ih taken (i + 1) hlater]
          | some absolute =>
              dsimp only
              rw [settle]
              -- what is taken is taken by an earlier file
              have hlookup : ((taken.lookup absolute).any fun k => k ≠ i) = true ↔
                  absolute ∈ taken.map Prod.fst := by
                cases hfound : taken.lookup absolute with
                | none =>
                    have hno := List.lookup_eq_none_iff.mp hfound
                    refine iff_of_false (by simp) ?_
                    rintro hmem
                    obtain ⟨pair, hpair, hfst⟩ := List.mem_map.mp hmem
                    have hne := hno pair hpair
                    rw [hfst] at hne
                    simp at hne
                | some k =>
                    obtain ⟨before, after, hsplit, -⟩ := List.lookup_eq_some_iff.mp hfound
                    have hmem : (absolute, k) ∈ taken := by
                      rw [hsplit]
                      exact List.mem_append_right _ List.mem_cons_self
                    have hlt := htaken absolute k hmem
                    refine iff_of_true ?_ (List.mem_map.mpr ⟨_, hmem, rfl⟩)
                    simp only [Option.any_some, decide_eq_true_eq]
                    omega
              by_cases hin : absolute ∈ taken.map Prod.fst
              · rw [if_pos (hlookup.mpr hin), if_pos hin, List.map_cons, final_path_rejected,
                  ih taken (i + 1) hlater]
              · rw [if_neg (fun h => hin (hlookup.mp h)), if_neg hin, List.map_cons,
                  final_path_accepted e leaf hclamp, ih ((absolute, i) :: taken) (i + 1)]
                · rfl
                · intro place k h
                  obtain heq | hold := List.mem_cons.mp h
                  · rw [(Prod.mk.inj heq).2]
                    exact Nat.lt_succ_self i
                  · exact hlater place k hold

theorem resolve_settles (root : String) (entries : List Entry) (proposal : List Assignment) :
    layout root entries proposal = settle [] (wants root proposal 0 entries) :=
  resolve_from_settles root proposal [] 0 entries fun _ _ h => absurd h List.not_mem_nil

/-! ## Collisions -/

/-- A place that is clamped is the folder or below it. -/
theorem target_below {root : String} {proposal : List Assignment} {i : ℕ} {e : Entry}
    {place : List Char} (h : target root proposal i e = some place) :
    place = rstrip root.toList ∨ Below (rstrip root.toList) place := by
  obtain ⟨leaf, -, hclamp⟩ := Option.bind_eq_some_iff.mp h
  obtain ⟨-, -, hroot | ⟨rest, hrest, hplain⟩⟩ := clamp_to_root_spec hclamp
  · exact Or.inl hroot
  · refine Or.inr ⟨rest, ?_, hrest⟩
    rintro rfl
    exact (hplain [] (by simp)).ne_nil rfl

/-- **A layout is free of collisions**, and within its folder, exactly when every file at whose place
another is proposed has a place of its own, which no file before it is proposed, and no file is
proposed the folder itself. -/
theorem collision_free_iff {root : String} {entries : List Entry} {proposal : List Assignment}
    (hdistinct : (entries.map Entry.path).Nodup)
    (hunder : ∀ e ∈ entries, Below (rstrip root.toList) e.path.toList) :
    ((layout root entries proposal).Nodup ∧
        ∀ path ∈ layout root entries proposal, Below (rstrip root.toList) path) ↔
      (∀ i j e e', entries[i]? = some e → entries[j]? = some e' →
        target root proposal i e = some e'.path.toList →
        ∃ place, target root proposal j e' = some place ∧
          ∀ k < j, ∀ before, entries[k]? = some before → target root proposal k before ≠ some place) ∧
      ∀ i e, entries[i]? = some e → target root proposal i e ≠ some (rstrip root.toList) := by
  have hhomes : ((wants root proposal 0 entries).map Prod.snd).Nodup := by
    rw [wants_homes]
    have hinj : Function.Injective String.toList := fun a b h => String.toList_inj.mp h
    have hlists := hdistinct.map hinj
    rw [List.map_map] at hlists
    exact hlists
  rw [resolve_settles, settle_nodup_iff hhomes]
  apply and_congr
  · constructor
    · intro h i j e e' hi hj hplace
      have hitem : (wants root proposal 0 entries)[i]? = some (some e'.path.toList, e.path.toList) :=
        wants_get.mpr ⟨e, hi, by rw [hplace]⟩
      obtain ⟨place, ⟨home, hown⟩, hfirst⟩ := h i j _ _ _ hitem (wants_get.mpr ⟨e', hj, rfl⟩)
      obtain ⟨owner, howner, heq⟩ := wants_get.mp hown
      rw [hj, Option.some.injEq] at howner
      rw [← howner, Prod.mk.injEq] at heq
      refine ⟨place, heq.1.symm, fun k hk before hbefore hsame => ?_⟩
      exact hfirst k hk before.path.toList (wants_get.mpr ⟨before, hbefore, by rw [hsame]⟩)
    · intro h i j want home place hi hj
      obtain ⟨e, he, heq⟩ := wants_get.mp hi
      obtain ⟨e', he', heq'⟩ := wants_get.mp hj
      obtain ⟨hwant, -⟩ := Prod.mk.inj heq
      obtain ⟨hown, hplace⟩ := Prod.mk.inj heq'
      rw [hplace] at hwant
      obtain ⟨given, hgiven, hfirst⟩ := h i j e e' he he' hwant.symm
      refine ⟨given, ⟨_, wants_get.mpr ⟨e', he', by rw [hgiven]⟩⟩, fun k hk home' hk' => ?_⟩
      obtain ⟨before, hbefore, hbeq⟩ := wants_get.mp hk'
      exact hfirst k hk before hbefore (Prod.mk.inj hbeq).1.symm
  · constructor
    · intro h i e hi hroot
      have hitem : (wants root proposal 0 entries)[i]? =
          some (some (rstrip root.toList), e.path.toList) := wants_get.mpr ⟨e, hi, by rw [hroot]⟩
      obtain ⟨rest, -, hself⟩ := h _ (settle_mem_of_want (List.mem_of_getElem? hitem) rfl)
      exact absurd (List.append_right_eq_self.mp hself.symm) (List.cons_ne_nil _ _)
    · intro h path hpath
      obtain ⟨item, hitem, hhome⟩ | ⟨item, hitem, hwant⟩ := mem_settle hpath
      · obtain ⟨i, hlt, hi⟩ := List.mem_iff_getElem.mp hitem
        obtain ⟨e, he, heq⟩ := wants_get.mp ((List.getElem?_eq_getElem hlt).trans (congrArg some hi))
        rw [← hhome, heq]
        exact hunder e (List.mem_of_getElem? he)
      · obtain ⟨i, hlt, hi⟩ := List.mem_iff_getElem.mp hitem
        obtain ⟨e, he, heq⟩ := wants_get.mp ((List.getElem?_eq_getElem hlt).trans (congrArg some hi))
        rw [heq] at hwant
        obtain hroot | hbelow := target_below hwant
        · rw [hroot] at hwant
          exact absurd hwant (h i e he)
        · exact hbelow

/-! ### A file moved onto one that stays -/

/-- Two files of a folder. -/
def two_files : List Entry := [⟨1, "/data/a", "a", "a"⟩, ⟨2, "/data/b", "b", "b"⟩]

theorem two_files_below : ∀ e ∈ two_files, Below (rstrip "/data".toList) e.path.toList := by
  intro e he
  obtain rfl | he := List.mem_cons.mp he
  · exact ⟨['a'], by decide, by decide +kernel⟩
  · rw [List.mem_singleton.mp he]
    exact ⟨['b'], by decide, by decide +kernel⟩

/-- The first is to be renamed to the second, which nothing is proposed for: the move is accepted,
and the second, which comes too late to keep its own name, is refused and stays. -/
theorem renamed_onto_another :
    (two_files.map Entry.path).Nodup ∧
      (∀ e ∈ two_files, Below (rstrip "/data".toList) e.path.toList) ∧
      layout "/data" two_files [⟨0, "", "b"⟩] = ["/data/b".toList, "/data/b".toList] ∧
      ¬(layout "/data" two_files [⟨0, "", "b"⟩]).Nodup := by
  have hlayout : layout "/data" two_files [⟨0, "", "b"⟩] = ["/data/b".toList, "/data/b".toList] := by
    decide +kernel
  refine ⟨by decide, two_files_below, hlayout, ?_⟩
  rw [hlayout]
  decide

/-- The first is moved to a subfolder. -/
theorem collision_free_subfolder :
    ((layout "/data" two_files [⟨0, "docs", "b"⟩]).Nodup ∧
        ∀ path ∈ layout "/data" two_files [⟨0, "docs", "b"⟩], Below (rstrip "/data".toList) path) ↔
      (∀ i j e e', two_files[i]? = some e → two_files[j]? = some e' →
        target "/data" [⟨0, "docs", "b"⟩] i e = some e'.path.toList →
        ∃ place, target "/data" [⟨0, "docs", "b"⟩] j e' = some place ∧
          ∀ k < j, ∀ before, two_files[k]? = some before →
            target "/data" [⟨0, "docs", "b"⟩] k before ≠ some place) ∧
      ∀ i e, two_files[i]? = some e →
        target "/data" [⟨0, "docs", "b"⟩] i e ≠ some (rstrip "/data".toList) :=
  collision_free_iff (by decide) two_files_below

end Fathom.Organize
