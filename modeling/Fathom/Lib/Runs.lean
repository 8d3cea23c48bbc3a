/-
**Runs of a list**: what a pass finds that has one key open at a time and closes it where the
key changes.

Where the rows of a key stand together, as they do in any order that tells different keys
apart, the runs are the lists of a dict that is kept open for every key: `runs_eq_buckets`.
-/
import Fathom.Lib.Classes

set_option autoImplicit false

namespace Fathom

universe u v

variable {α : Type u} {κ : Type v} [DecidableEq κ]

/-- The runs of a list behind an open one. -/
def runs_from (key : α → κ) (k : κ) (run : List α) : List α → List (κ × List α)
  | [] => [(k, run)]
  | x :: xs => if key x = k then runs_from key k (run ++ [x]) xs else (k, run) :: runs_from key (key x) [x] xs

/-- The runs of a list, each with its key. -/
def runs (key : α → κ) : List α → List (κ × List α)
  | [] => []
  | x :: xs => runs_from key (key x) [x] xs

/-- Nothing stands between two equal keys but that key. -/
def Contiguous (keys : List κ) : Prop := ∀ {a b c : κ}, [a, b, c].Sublist keys → a = c → b = a

omit [DecidableEq κ] in
theorem Contiguous.sublist {keys keys' : List κ} (h : Contiguous keys) (hsub : keys'.Sublist keys) : Contiguous keys' :=
  fun habc => h (habc.trans hsub)

omit [DecidableEq κ] in
/-- A key that has ended does not come back. -/
theorem Contiguous.not_mem {k k' : κ} {keys : List κ} (h : Contiguous (k :: k' :: keys)) (hne : k' ≠ k) :
    k ∉ k' :: keys := by
  intro hmem
  obtain heq | hlater := List.mem_cons.mp hmem
  · exact hne heq.symm
  · have habc : [k, k', k].Sublist (k :: k' :: keys) :=
      ((List.singleton_sublist.mpr hlater).cons_cons k').cons_cons k
    exact hne (h habc rfl)

omit [DecidableEq κ] in
/-- **Keys in order are contiguous**, if the order tells them apart. -/
theorem contiguous_of_pairwise {r : κ → κ → Prop} (antisymm : ∀ a b, r a b → r b a → a = b) {keys : List κ}
    (h : keys.Pairwise r) : Contiguous keys := by
  intro a b c habc hac
  have hthree : [a, b, c].Pairwise r := h.sublist habc
  obtain ⟨hfirst, hrest⟩ := List.pairwise_cons.mp hthree
  have hab : r a b := hfirst b List.mem_cons_self
  have hbc : r b c := (List.pairwise_cons.mp hrest).1 c List.mem_cons_self
  rw [← hac] at hbc
  exact antisymm b a hbc hab

/-- What is kept under other keys is passed by. -/
theorem append_to_append {key : κ} {d : List (κ × List α)} (h : key ∉ d.map Prod.fst) (x : α) (d' : List (κ × List α)) :
    append_to key x (d ++ d') = d ++ append_to key x d' := by
  induction d with
  | nil => rfl
  | cons bucket rest ih =>
      rw [List.map_cons, List.mem_cons, not_or] at h
      rw [List.cons_append, append_to, if_neg (Ne.symm h.1), ih h.2]
      rfl

/-- One row more for a dict whose last list is the open run. -/
theorem append_to_concat {key : κ} {d : List (κ × List α)} (h : key ∉ d.map Prod.fst) (x : α) (k : κ) (run : List α) :
    append_to key x (d ++ [(k, run)]) =
      if key = k then d ++ [(k, run ++ [x])] else d ++ [(k, run)] ++ [(key, [x])] := by
  rw [append_to_append h, append_to]
  by_cases hk : key = k
  · rw [if_pos hk, if_pos hk.symm]
  · rw [if_neg hk, if_neg (Ne.symm hk), List.append_assoc]
    rfl

/-- A pass with a run open goes on as the dict does: the runs that are closed are its first
lists, and none of their keys comes back. -/
theorem foldl_append_to {key : α → κ} {xs : List α} {k : κ} {run : List α} {closed : List (κ × List α)}
    (hkeys : Contiguous (k :: xs.map key)) (hk : k ∉ closed.map Prod.fst)
    (hclosed : ∀ x ∈ xs, key x ∉ closed.map Prod.fst) :
    xs.foldl (fun d x => append_to (key x) x d) (closed ++ [(k, run)]) = closed ++ runs_from key k run xs := by
  induction xs generalizing k run closed with
  | nil => rfl
  | cons x xs ih =>
      have hx : key x ∉ closed.map Prod.fst := hclosed x List.mem_cons_self
      have hlater : ∀ y ∈ xs, key y ∉ closed.map Prod.fst := fun y hy => hclosed y (List.mem_cons_of_mem x hy)
      rw [List.map_cons] at hkeys
      rw [List.foldl_cons, append_to_concat hx, runs_from]
      by_cases hkey : key x = k
      · -- the run goes on
        rw [if_pos hkey, if_pos hkey]
        exact ih (hkeys.sublist ((List.sublist_cons_self (key x) _).cons_cons k)) hk hlater
      · -- the run is closed, and its key does not come back
        have hback := hkeys.not_mem hkey
        have hnext : ∀ k' ∈ key x :: xs.map key, k' ∉ closed.map Prod.fst → k' ∉ (closed ++ [(k, run)]).map Prod.fst := by
          intro k' hmem hfresh
          rw [List.map_append, List.mem_append, not_or, List.map_singleton, List.mem_singleton]
          refine ⟨hfresh, ?_⟩
          rintro rfl
          exact hback hmem
        rw [if_neg hkey, if_neg hkey]
        rw [ih (hkeys.sublist (List.sublist_cons_self k _)) (hnext _ List.mem_cons_self hx), List.append_assoc]
        · rfl
        · intro y hy
          exact hnext _ (List.mem_cons_of_mem _ (List.mem_map_of_mem hy)) (hlater y hy)

/-- **Where the rows of a key stand together, the runs are the lists of a dict.** -/
theorem runs_eq_buckets {key : α → κ} {xs : List α} (h : Contiguous (xs.map key)) : runs key xs = buckets key xs := by
  cases xs with
  | nil => rfl
  | cons x xs =>
      have hempty : ∀ k : κ, k ∉ ([] : List (κ × List α)).map Prod.fst := fun _ => List.not_mem_nil
      have hpass : buckets key (x :: xs) = [] ++ runs_from key (key x) [x] xs :=
        foldl_append_to h (hempty _) fun y _ => hempty (key y)
      exact hpass.symm

end Fathom
