/-
**The net delta** (`agent/reader/feed.py`, `collect_delta`): what is left of the events of a cycle,
and what becomes of the entries of a volume when it is applied to them.

The entries have one row for each identity, and the events of one identity do not touch the rows of
another. So the question is one about the events of a single file: `collect_delta` keeps for it an
upsert, a removal or nothing at all.

Nothing at all stands for a file that came and went. It is also what the collector keeps of a file
that was there to begin with, was deleted, created again and deleted: the creation takes the removal
back, and the second deletion is cancelled against the creation. `collect_delta_net_iff` says that
this is the only way to go wrong. The re-stat feed has no events after a deletion, and is exact.
-/
import Fathom.Agent.Scan
import Fathom.Lib.System

set_option autoImplicit false

namespace Fathom.Agent

open Fathom.Ingest (Identity)
open Staging (Prior Removal)

/-! ## Events, one by one -/

/-- The identity an event is about. -/
def ChangeEvent.identity : ChangeEvent → Identity
  | .create entry => entry.identity
  | .modify entry => entry.identity
  | .delete identity _ => identity

/-- A created file is new; one that is modified, moved or deleted is there. -/
def change_step (t : Table FsEntry.identity) : ChangeEvent → Option (Table FsEntry.identity)
  | .create entry => if (t.find entry.identity).isNone then some (t.put entry) else none
  | .modify entry => if (t.find entry.identity).isSome then some (t.put entry) else none
  | .delete identity _ => if (t.find identity).isSome then some (t.erase identity) else none

/-- The entries of a volume, as its files change. A run is a sequence of events that is consistent
with the entries it starts from. -/
def volume_changes : System (Table FsEntry.identity) ChangeEvent where
  init := fun _ => True
  step := change_step

/-! ## The delta, applied -/

/-- The upserts, then the removals. -/
def apply_delta (t : Table FsEntry.identity) (delta : ChangeDelta) : Table FsEntry.identity :=
  delta.removals.foldl (fun t r => t.erase r.identity)
    (t.upsert_many (Conflict.replace _) delta.upserts)

/-- Two tables have the same entries. -/
def SameEntries (t u : Table FsEntry.identity) : Prop := ∀ e, e ∈ t.rows ↔ e ∈ u.rows

/-! ## The way to go wrong -/

def ChangeEvent.is_create : ChangeEvent → Bool
  | .create _ => true
  | _ => false

def ChangeEvent.is_delete : ChangeEvent → Bool
  | .delete _ _ => true
  | _ => false

/-- A file is created in the course of some events. -/
def created_in (events : List ChangeEvent) (identity : Identity) : Bool :=
  events.any fun ev => ev.is_create && decide (ev.identity = identity)

/-- The last event of a file is its deletion. -/
def deleted_last (events : List ChangeEvent) (identity : Identity) : Bool :=
  (events.filter fun ev => decide (ev.identity = identity)).getLast?.any ChangeEvent.is_delete

/-- No file of the baseline is created again and deleted for good. -/
def NoneRecreated (baseline : Table FsEntry.identity) (events : List ChangeEvent) : Prop :=
  ∀ e ∈ baseline.rows, created_in events e.identity = true → deleted_last events e.identity = false

section

variable {k : Identity} {ev : ChangeEvent} {events : List ChangeEvent}

theorem created_in_snoc : created_in (events ++ [ev]) k = true ↔
    created_in events k = true ∨ (ev.is_create = true ∧ ev.identity = k) := by
  rw [created_in, List.any_append, Bool.or_eq_true]
  simp [created_in]

theorem deleted_last_self (h : ev.identity = k) : deleted_last (events ++ [ev]) k = ev.is_delete := by
  rw [deleted_last, List.filter_append, List.filter_cons_of_pos (by simpa using h), List.filter_nil,
    List.getLast?_append]
  rfl

theorem deleted_last_other (h : ev.identity ≠ k) : deleted_last (events ++ [ev]) k = deleted_last events k := by
  rw [deleted_last, List.filter_append, List.filter_cons_of_neg (by simpa using h), List.filter_nil,
    List.append_nil]
  rfl

end

/-! ## One event more -/

section

variable {k : Identity} {c : Collecting} {t u : Table FsEntry.identity} {ev : ChangeEvent}

/-- An event leaves what is kept of the other files. -/
theorem take_other (h : ev.identity ≠ k) :
    (c.take ev).upserts.find k = c.upserts.find k ∧ (c.take ev).removed.find k = c.removed.find k ∧
      (k ∈ (c.take ev).created ↔ k ∈ c.created) := by
  have hne : k ≠ ev.identity := fun heq => h heq.symm
  cases ev with
  | create entry =>
      refine ⟨Table.find_put_ne _ hne, ?_, ?_⟩
      · rw [Collecting.take, Table.find_erase]
        exact if_neg hne
      · rw [Collecting.take, List.mem_cons]
        exact or_iff_right hne
  | modify entry =>
      refine ⟨Table.find_put_ne _ hne, ?_, Iff.rfl⟩
      rw [Collecting.take, Table.find_erase]
      exact if_neg hne
  | delete identity path =>
      rw [Collecting.take]
      dsimp only
      split
      · refine ⟨?_, rfl, ?_⟩
        · rw [Table.find_erase]
          exact if_neg hne
        · rw [List.mem_filter]
          exact and_iff_left (decide_eq_true hne)
      · refine ⟨?_, Table.find_put_ne _ hne, Iff.rfl⟩
        rw [Table.find_erase]
        exact if_neg hne

theorem change_other (hstep : change_step t ev = some u) (h : ev.identity ≠ k) : u.find k = t.find k := by
  have hne : k ≠ ev.identity := fun heq => h heq.symm
  cases ev with
  | create entry =>
      rw [change_step, Option.ite_none_right_eq_some, Option.some.injEq] at hstep
      rw [← hstep.2]
      exact Table.find_put_ne _ hne
  | modify entry =>
      rw [change_step, Option.ite_none_right_eq_some, Option.some.injEq] at hstep
      rw [← hstep.2]
      exact Table.find_put_ne _ hne
  | delete identity path =>
      rw [change_step, Option.ite_none_right_eq_some, Option.some.injEq] at hstep
      rw [← hstep.2, Table.find_erase]
      exact if_neg hne

/-- What is kept of one file after some events, from what it was to what it is. -/
structure KeptOf (before : Option FsEntry) (events : List ChangeEvent) (k : Identity)
    (c : Collecting) (now : Option FsEntry) : Prop where
  upsert : ∀ e, c.upserts.find k = some e → now = some e ∧ c.removed.find k = none
  removal : (c.removed.find k).isSome = true → now = none
  untouched : c.upserts.find k = none → now.isSome = true → now = before
  /-- a file created in these events and still there is waiting to be upserted -/
  created : k ∈ c.created ↔ now.isSome = true ∧ created_in events k = true
  waiting : k ∈ c.created → (c.upserts.find k).isSome = true
  /-- nothing is kept of a file that is gone, if it was created -/
  gone : before.isSome = true → now = none →
    ((c.removed.find k).isSome = true ↔ created_in events k = false)
  last : before.isSome = true → (now = none ↔ deleted_last events k = true)

theorem kept_nil (before : Option FsEntry) :
    KeptOf before [] k ⟨.empty _, .empty _, []⟩ before where
  upsert := fun e h => absurd h (by simp)
  removal := fun h => absurd h (by simp)
  untouched := fun _ _ => rfl
  created := by simp [created_in]
  waiting := fun h => absurd h List.not_mem_nil
  gone := fun hsome hnone => absurd hsome (by simp [hnone])
  last := fun hsome => by
    rw [Option.isSome_iff_ne_none] at hsome
    exact iff_of_false hsome (by simp [deleted_last])

variable {before : Option FsEntry} {events : List ChangeEvent}

theorem KeptOf.other (h : KeptOf before events k c (t.find k)) (hstep : change_step t ev = some u)
    (hne : ev.identity ≠ k) : KeptOf before (events ++ [ev]) k (c.take ev) (u.find k) := by
  obtain ⟨hupsert, hremoved, hcreated⟩ := take_other (c := c) hne
  have hin : created_in (events ++ [ev]) k = created_in events k := by
    rw [Bool.eq_iff_iff, created_in_snoc]
    exact or_iff_left fun hcreate => hne hcreate.2
  rw [change_other hstep hne]
  refine ⟨?_, ?_, ?_, ?_, ?_, ?_, ?_⟩
  · rw [hupsert, hremoved]
    exact h.upsert
  · rw [hremoved]
    exact h.removal
  · rw [hupsert]
    exact h.untouched
  · rw [hcreated, hin]
    exact h.created
  · rw [hcreated, hupsert]
    exact h.waiting
  · rw [hremoved, hin]
    exact h.gone
  · rw [deleted_last_other hne]
    exact h.last

/-- A file that is created or written is waiting to be upserted. -/
theorem KeptOf.written {entry : FsEntry} {created : List Identity}
    (hcreated : k ∈ created ↔ created_in (events ++ [ev]) k = true) (hself : entry.identity = k) (hev : ev.identity = k)
    (hkept : ev.is_delete = false) :
    KeptOf before (events ++ [ev]) k ⟨c.upserts.put entry, c.removed.erase k, created⟩ (some entry) := by
  have hfind : (c.upserts.put entry).find k = some entry := by
    rw [← hself]
    exact Table.find_put_self _ _
  have herased : (c.removed.erase k).find k = none := by
    rw [Table.find_erase, if_pos rfl]
  refine ⟨?_, ?_, ?_, ?_, ?_, ?_, ?_⟩
  · intro e he
    exact ⟨hfind.symm.trans he, herased⟩
  · intro hremoved
    rw [herased] at hremoved
    exact absurd hremoved (by simp)
  · intro hnone
    rw [hfind] at hnone
    exact absurd hnone (by simp)
  · rw [hcreated]
    exact (and_iff_right rfl).symm
  · intro _
    rw [hfind]
    rfl
  · intro _ hnone
    exact absurd hnone (by simp)
  · intro _
    rw [deleted_last_self hev, hkept]
    exact iff_of_false (by simp) (by simp)

/-- A deletion leaves a removal, except of a file that these events have created. -/
theorem KeptOf.deleted {now : Option FsEntry} {path : String} (h : KeptOf before events k c now)
    (hnow : now.isSome = true) : KeptOf before (events ++ [.delete k path]) k (c.take (.delete k path)) none := by
  have hin : created_in (events ++ [.delete k path]) k = true ↔ created_in events k = true := by
    rw [created_in_snoc]
    exact or_iff_left fun hcreate => absurd hcreate.1 (by simp [ChangeEvent.is_create])
  have hlast : before.isSome = true →
      ((none : Option FsEntry) = none ↔ deleted_last (events ++ [.delete k path]) k = true) := by
    intro _
    have hself : deleted_last (events ++ [.delete k path]) k = true := deleted_last_self rfl
    exact iff_of_true rfl hself
  have herased : (c.upserts.erase k).find k = none := by
    rw [Table.find_erase, if_pos rfl]
  rw [Collecting.take]
  dsimp only
  split
  · rename_i hcancel
    have hcreated := (h.created.mp hcancel.2).2
    obtain ⟨e, he⟩ := Option.ne_none_iff_exists'.mp hcancel.1
    have hremoved : c.removed.find k = none := (h.upsert e he).2
    have hdropped : k ∉ c.created.filter fun i => i ≠ k := by
      intro hmem
      exact of_decide_eq_true (List.mem_filter.mp hmem).2 rfl
    refine ⟨?_, ?_, ?_, ?_, ?_, ?_, hlast⟩
    · intro e' he'
      rw [herased] at he'
      exact absurd he' (by simp)
    · exact fun _ => rfl
    · exact fun _ hsome => absurd hsome (by simp)
    · exact iff_of_false hdropped fun hboth => absurd hboth.1 (by simp)
    · exact fun hmem => absurd hmem hdropped
    · intro _ _
      rw [hremoved, ← Bool.not_eq_true, hin]
      exact iff_of_false (by simp) fun hnot => hnot hcreated
  · rename_i hcancel
    -- a file these events have created would be waiting
    have hdropped : k ∉ c.created := by
      intro hmem
      exact hcancel ⟨Option.isSome_iff_ne_none.mp (h.waiting hmem), hmem⟩
    have hfind : (c.removed.put ⟨k, path⟩).find k = some ⟨k, path⟩ := Table.find_put_self _ _
    refine ⟨?_, ?_, ?_, ?_, ?_, ?_, hlast⟩
    · intro e' he'
      rw [herased] at he'
      exact absurd he' (by simp)
    · exact fun _ => rfl
    · exact fun _ hsome => absurd hsome (by simp)
    · exact iff_of_false hdropped fun hboth => absurd hboth.1 (by simp)
    · exact fun hmem => absurd hmem hdropped
    · intro _ _
      rw [hfind, ← Bool.not_eq_true, hin]
      exact iff_of_true rfl fun hcreated => hdropped (h.created.mpr ⟨hnow, hcreated⟩)

theorem KeptOf.self (h : KeptOf before events ev.identity c (t.find ev.identity)) (hstep : change_step t ev = some u) :
    KeptOf before (events ++ [ev]) ev.identity (c.take ev) (u.find ev.identity) := by
  cases ev with
  | create entry =>
      rw [change_step, Option.ite_none_right_eq_some, Option.some.injEq] at hstep
      rw [← hstep.2]
      have hnow : (t.put entry).find entry.identity = some entry := Table.find_put_self _ _
      have hcreated : entry.identity ∈ entry.identity :: c.created ↔
          created_in (events ++ [.create entry]) entry.identity = true := by
        rw [created_in_snoc]
        exact iff_of_true List.mem_cons_self (Or.inr ⟨rfl, rfl⟩)
      show KeptOf _ _ _ _ ((t.put entry).find entry.identity)
      rw [hnow]
      exact KeptOf.written hcreated rfl rfl rfl
  | modify entry =>
      rw [change_step, Option.ite_none_right_eq_some, Option.some.injEq] at hstep
      rw [← hstep.2]
      have hnow : (t.put entry).find entry.identity = some entry := Table.find_put_self _ _
      have hcreated : entry.identity ∈ c.created ↔
          created_in (events ++ [.modify entry]) entry.identity = true := by
        rw [created_in_snoc, or_iff_left (by simp [ChangeEvent.is_create])]
        exact h.created.trans (and_iff_right hstep.1)
      show KeptOf _ _ _ _ ((t.put entry).find entry.identity)
      rw [hnow]
      exact KeptOf.written hcreated rfl rfl rfl
  | delete identity path =>
      rw [change_step, Option.ite_none_right_eq_some, Option.some.injEq] at hstep
      rw [← hstep.2]
      have hnow : (t.erase identity).find identity = none := by
        rw [Table.find_erase, if_pos rfl]
      show KeptOf _ _ _ _ ((t.erase identity).find identity)
      rw [hnow]
      exact h.deleted hstep.1

end

/-! ## A sequence of events -/

variable {events : List ChangeEvent} {k : Identity}

/-- What the collector keeps after a consistent sequence, of every file. -/
theorem collected {baseline t : Table FsEntry.identity} (hrun : volume_changes.run baseline events = some t)
    (k : Identity) : KeptOf (baseline.find k) events k
      (events.foldl Collecting.take ⟨.empty _, .empty _, []⟩) (t.find k) := by
  induction events using List.reverseRecOn generalizing t with
  | nil =>
      rw [System.run_nil, Option.some.injEq] at hrun
      rw [hrun]
      exact kept_nil _
  | append_singleton events ev ih =>
      obtain ⟨u, hbefore, hstep⟩ := System.run_snoc.mp hrun
      rw [List.foldl_append, List.foldl_cons, List.foldl_nil]
      by_cases hself : ev.identity = k
      · subst hself
        exact (ih hbefore).self hstep
      · exact (ih hbefore).other hstep hself

/-- The collector's dictionaries after some events. -/
def collecting (events : List ChangeEvent) : Collecting :=
  events.foldl Collecting.take ⟨.empty _, .empty _, []⟩

/-- What stands under an identity when a delta has been applied. -/
theorem find_apply_delta (t : Table FsEntry.identity) (events : List ChangeEvent) (k : Identity) :
    (apply_delta t (collect_delta events)).find k = if ((collecting events).removed.find k).isSome then none
      else ((collecting events).upserts.find k).or (t.find k) := by
  have hperm := (List.mergeSort_perm (collecting events).removed.rows Removal.le).map Removal.identity
  have hmem : k ∈ (collect_delta events).removals.map Removal.identity ↔
      ((collecting events).removed.find k).isSome = true := by
    rw [← Table.mem_keys_iff]
    exact hperm.mem_iff
  rw [apply_delta, Table.find_erase_many Removal.identity]
  by_cases hremoved : ((collecting events).removed.find k).isSome = true
  · rw [if_pos hremoved, if_pos (hmem.mpr hremoved)]
  · rw [if_neg hremoved, if_neg (fun h => hremoved (hmem.mp h))]
    exact Table.find_upsert_many_replace _ _ k

theorem KeptOf.stays {before : Option FsEntry} {c : Collecting} {now : Option FsEntry}
    (h : KeptOf before events k c now) (hbefore : before.isSome = true) (hnow : now.isSome = true) :
    deleted_last events k = false := by
  rw [Bool.eq_false_iff]
  intro hlast
  rw [(h.last hbefore).mpr hlast] at hnow
  exact absurd hnow (by simp)

/-- For one file, the delta does what the events do, unless the file was there before and they
create it again and leave it deleted. -/
theorem KeptOf.exact_iff {baseline : Table FsEntry.identity} {now : Option FsEntry}
    (h : KeptOf (baseline.find k) events k (collecting events) now) :
    (apply_delta baseline (collect_delta events)).find k = now ↔
      ((baseline.find k).isSome = true → created_in events k = true → deleted_last events k = false) := by
  rw [find_apply_delta]
  by_cases hremoved : ((collecting events).removed.find k).isSome = true
  · have hnone := h.removal hremoved
    rw [if_pos hremoved, hnone]
    refine iff_of_true rfl fun hsome hcreated => ?_
    rw [(h.gone hsome hnone).mp hremoved] at hcreated
    exact absurd hcreated (by simp)
  · rw [if_neg hremoved]
    cases hupsert : (collecting events).upserts.find k with
    | some e =>
        have hnow := (h.upsert e hupsert).1
        rw [Option.some_or]
        exact iff_of_true hnow.symm fun hsome _ => h.stays hsome (by rw [hnow]; rfl)
    | none =>
        rw [Option.none_or]
        constructor
        · intro hsame hsome _
          exact h.stays hsome (by rw [← hsame]; exact hsome)
        · intro hkeeps
          cases now with
          | some e => exact (h.untouched hupsert rfl).symm
          | none =>
              -- a file that was there is gone, and no removal is kept of it
              by_contra hsome
              have hbefore := Option.isSome_iff_ne_none.mpr hsome
              have hcreated : created_in events k = true := by
                rw [← Bool.not_eq_false]
                exact fun hnot => hremoved ((h.gone hbefore rfl).mpr hnot)
              have hlast := (h.last hbefore).mp rfl
              rw [hkeeps hbefore hcreated] at hlast
              exact absurd hlast (by simp)

/-- Tables with the same rows under every key have the same entries. -/
theorem same_entries_iff {t u : Table FsEntry.identity} : SameEntries t u ↔ ∀ k, t.find k = u.find k := by
  constructor
  · intro h k
    apply Option.ext
    intro e
    rw [Table.find_some_iff, Table.find_some_iff, h e]
  · intro h e
    have hrow : ∀ v : Table FsEntry.identity, e ∈ v.rows ↔ v.find e.identity = some e := by
      intro v
      rw [Table.find_some_iff]
      exact (and_iff_left rfl).symm
    rw [hrow t, hrow u, h]

/-- **The net delta.** The delta of a consistent sequence of events, applied to the baseline, gives
the entries that the events give one by one, exactly when no file of the baseline is created again
and deleted for good. -/
theorem collect_delta_net_iff {baseline t : Table FsEntry.identity} {events : List ChangeEvent}
    (hrun : volume_changes.run baseline events = some t) :
    SameEntries (apply_delta baseline (collect_delta events)) t ↔ NoneRecreated baseline events := by
  rw [same_entries_iff]
  constructor
  · intro hsame e he hcreated
    have hkept := collected hrun e.identity
    exact hkept.exact_iff.mp (hsame e.identity) (by rw [Table.find_of_mem he]; rfl) hcreated
  · intro hnone k
    refine (collected hrun k).exact_iff.mpr fun hsome hcreated => ?_
    obtain ⟨e, he⟩ := Option.isSome_iff_exists.mp hsome
    rw [← Table.key_of_find he] at hcreated ⊢
    exact hnone e (Table.mem_of_find he) hcreated

/-- A file of five bytes. -/
def five_bytes : FsEntry where
  path := "/m/a"
  name := "a"
  is_dir := false
  is_symlink := false
  size_logical := 5
  size_on_disk := 512
  mtime := 1
  ctime := 1
  uid := 0
  gid := 0
  inode := 7
  dev := 2
  flags := []

/-- A file that comes, goes and comes again. -/
theorem collect_delta_net_comes_again :
    ∃ t, volume_changes.run (.empty _)
        [.create five_bytes, .delete ⟨2, 7⟩ "/m/a", .create five_bytes] = some t ∧
      (SameEntries (apply_delta (.empty _) (collect_delta
          [.create five_bytes, .delete ⟨2, 7⟩ "/m/a", .create five_bytes])) t ↔
        NoneRecreated (.empty _)
          [.create five_bytes, .delete ⟨2, 7⟩ "/m/a", .create five_bytes]) :=
  ⟨_, rfl, collect_delta_net_iff rfl⟩

/-- A file of the baseline that is deleted, created again and deleted stays. -/
theorem deleted_twice_stays :
    volume_changes.run ((Table.empty _).put five_bytes)
        [.delete ⟨2, 7⟩ "/m/a", .create five_bytes, .delete ⟨2, 7⟩ "/m/a"] =
        some (((Table.empty _).put five_bytes).erase ⟨2, 7⟩) ∧
      ¬SameEntries (apply_delta ((Table.empty _).put five_bytes) (collect_delta
          [.delete ⟨2, 7⟩ "/m/a", .create five_bytes, .delete ⟨2, 7⟩ "/m/a"]))
        (((Table.empty _).put five_bytes).erase ⟨2, 7⟩) := by
  refine ⟨rfl, fun hsame => ?_⟩
  have hstays : (apply_delta ((Table.empty _).put five_bytes) (collect_delta
      [.delete ⟨2, 7⟩ "/m/a", .create five_bytes, .delete ⟨2, 7⟩ "/m/a"])).find ⟨2, 7⟩ =
      some five_bytes := by
    rw [find_apply_delta]
    rfl
  exact absurd ((hsame five_bytes).mp (Table.mem_of_find hstays)) List.not_mem_nil

/-! ## The re-stat feed -/

/-- The baseline a table of entries gives. -/
def priors (t : Table FsEntry.identity) : List (Identity × Prior) :=
  t.rows.map fun e => (e.identity, ⟨e.mtime, e.path⟩)

/-- The feed creates no file that is in its baseline. -/
theorem created_in_restat {t : Table FsEntry.identity} {walked : List FsEntry}
    (h : created_in (restat_changes (priors t) walked) k = true) : t.find k = none := by
  obtain ⟨ev, hev, hcreate⟩ := List.any_eq_true.mp h
  rw [Bool.and_eq_true, decide_eq_true_eq] at hcreate
  obtain hwalked | hunseen := List.mem_append.mp hev
  · obtain ⟨e, -, hchange⟩ := List.mem_filterMap.mp hwalked
    rw [change_of] at hchange
    split at hchange
    · rename_i hnone
      rw [← Option.some.inj hchange] at hcreate
      rw [← hcreate.2, Table.find_none_iff]
      intro hmem
      obtain ⟨e', he', hidentity⟩ := List.mem_map.mp hmem
      rw [baseline_get, Option.map_eq_none_iff, List.find?_eq_none] at hnone
      exact hnone _ (List.mem_map_of_mem he') (decide_eq_true hidentity)
    · split at hchange
      · rw [← Option.some.inj hchange] at hcreate
        exact absurd hcreate.1 (by simp [ChangeEvent.is_create])
      · exact absurd hchange (by simp)
  · obtain ⟨p, -, hdelete⟩ := List.mem_map.mp hunseen
    rw [← hdelete] at hcreate
    exact absurd hcreate.1 (by simp [ChangeEvent.is_create])

/-- The delta of the re-stat feed is exact. -/
theorem restat_delta_net {t u : Table FsEntry.identity} {walked : List FsEntry}
    (hrun : volume_changes.run t (restat_changes (priors t) walked) = some u) :
    SameEntries (apply_delta t (restat_delta (priors t) walked)) u := by
  rw [same_entries_iff]
  intro k
  refine (collected hrun k).exact_iff.mpr fun hsome hcreated => ?_
  rw [created_in_restat hcreated] at hsome
  exact absurd hsome (by simp)

/-- A file that was moved and touched. -/
theorem restat_delta_net_touched : ∃ u, SameEntries (apply_delta ((Table.empty _).put five_bytes)
    (restat_delta (priors ((Table.empty _).put five_bytes)) [{ five_bytes with path := "/m/b", mtime := 2 }])) u ∧
      u.rows = [{ five_bytes with path := "/m/b", mtime := 2 }] :=
  ⟨_, restat_delta_net rfl, rfl⟩

end Fathom.Agent
