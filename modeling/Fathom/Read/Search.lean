/-
**The other reads of the catalogue** (`core/query.py`): the volumes, the history and the
churn of a subtree, and the search by name.

A read of one volume loads it and checks it against the scope first; the list of the
volumes and the search push the scope into the statement. How the database folds case for
`ILIKE` is a parameter. Where the statement leaves the order of equal rows open, they come
in the order of the table.
-/
import Fathom.Read.Query

set_option autoImplicit false

namespace Fathom.Read

open Fathom.Ingest (Catalogue FsEntryRow Volume Instant ChangeLog)
open Fathom.Auth (ScopeFilter)

/-! ## Volumes -/

/-- The columns of a volume a scope constrains. -/
def volume_columns : ScopeFilter.Columns Volume where
  host_col := some Volume.host_id
  volume_col := some Volume.id
  kind_col := some Volume.kind

/-- `scope.apply`, where there is a scope. -/
def in_scope {ρ : Type} (scope : Option ScopeFilter) (columns : ScopeFilter.Columns ρ) (r : ρ) : Bool :=
  scope.all fun f => f.apply columns r

/-- `list_volumes`. -/
def list_volumes (cat : Catalogue) (scope : Option ScopeFilter) : List Volume :=
  (cat.volumes.rows.filter (in_scope scope volume_columns)).mergeSort fun v v' => v.id ≤ v'.id

/-- A volume, loaded and checked: `_scoped_volume`. -/
def scoped_volume (cat : Catalogue) (volume_id : ℕ) (scope : Option ScopeFilter) : Except ReadError Volume :=
  match get_volume cat volume_id with
  | none => .error (.unknown_volume volume_id)
  | some volume =>
    match check_volume_in_scope volume scope with
    | .error e => .error e
    | .ok _ => .ok volume

/-! ## History and churn -/

/-- `SizeHistory`. -/
structure SizeHistory where
  volume_id : ℕ
  path : String
  ts : Instant
  total_size_logical : ℕ
  total_size_on_disk : ℕ
  file_count : ℕ
  deriving DecidableEq

/-- `ts >= since AND ts <= until`, for the bounds that are given. -/
def in_window (since until_ : Option Instant) (ts : Instant) : Bool :=
  since.all (fun s => s ≤ ts) && until_.all (fun u => ts ≤ u)

/-- The points of a subtree in a window, in the order of time. -/
def history_rows (history : List SizeHistory) (volume_id : ℕ) (path : String) (since until_ : Option Instant) :
    List SizeHistory :=
  (history.filter fun h => h.volume_id = volume_id ∧ h.path = path ∧ in_window since until_ h.ts = true).mergeSort
    fun h h' => h.ts ≤ h'.ts

/-- `get_history`: only a scope asks whether the volume is there. -/
def get_history (cat : Catalogue) (history : List SizeHistory) (volume_id : ℕ) (path : String)
    (since until_ : Option Instant) (scope : Option ScopeFilter) : Except ReadError (List SizeHistory) :=
  if scope = none then .ok (history_rows history volume_id path since until_)
  else
    match scoped_volume cat volume_id scope with
    | .error e => .error e
    | .ok _ => .ok (history_rows history volume_id path since until_)

/-- The conditions of `get_changes`. -/
def changed (volume_id : ℕ) (path : Option String) (since until_ : Option Instant) (c : ChangeLog) : Bool :=
  c.volume_id = volume_id && in_window since until_ c.ts &&
    path.all fun p =>
      c.path = p || Like.like LIKE_ESCAPE (escape_like (rstrip p.toList) ++ "/%".toList) c.path.toList

/-- `get_changes`, newest first: later rows have higher ids. -/
def get_changes (cat : Catalogue) (volume_id : ℕ) (path : Option String) (since until_ : Option Instant) (limit : ℕ)
    (scope : Option ScopeFilter) : Except ReadError (List ChangeLog) :=
  let rows := (cat.change_log.filter (changed volume_id path since until_)).reverse
  let newest := (rows.mergeSort fun c c' => c'.ts ≤ c.ts).take limit
  if scope = none then .ok newest
  else
    match scoped_volume cat volume_id scope with
    | .error e => .error e
    | .ok _ => .ok newest

/-! ## Search -/

/-- `SearchResult`. -/
structure SearchResult where
  path : String
  name : String
  is_dir : Bool
  size_logical : ℕ
  size_on_disk : ℕ
  host_id : ℕ
  volume_id : ℕ
  deriving DecidableEq

def search_result (r : FsEntryRow) : SearchResult where
  path := r.path
  name := r.name
  is_dir := r.is_dir
  size_logical := r.size_logical
  size_on_disk := r.size_on_disk
  host_id := r.host_id
  volume_id := r.volume_id

/-- An entry joined with its volume. -/
abbrev Joined := FsEntryRow × Volume

/-- The columns of an entry and of its volume. -/
def joined_columns : ScopeFilter.Columns Joined where
  host_col := some fun j => j.1.host_id
  volume_col := some fun j => j.1.volume_id
  kind_col := some fun j => j.2.kind

/-- `.join(Volume, Volume.id == FsEntryRow.volume_id)`. -/
def join_volumes (cat : Catalogue) : List Joined :=
  cat.fs_entry.rows.flatMap fun r => (cat.volumes.rows.filter fun v => v.id = r.volume_id).map fun v => (r, v)

/-- The conditions of `search_entries`. -/
def found (fold : List Char → List Char) (q : String) (volume_id : Option ℕ) (scope : Option ScopeFilter) (j : Joined) :
    Bool :=
  let like := '%' :: escape_like q.toList ++ ['%']
  j.1.present && Like.like LIKE_ESCAPE (fold like) (fold j.1.name.toList) &&
    volume_id.all (fun v => j.1.volume_id = v) && in_scope scope joined_columns j

/-- `search_entries`. -/
def search_entries (fold : List Char → List Char) (cat : Catalogue) (q : String) (scope : Option ScopeFilter)
    (volume_id : Option ℕ) (limit : ℕ) : List SearchResult :=
  let rows := (join_volumes cat).filter (found fold q volume_id scope)
  ((rows.mergeSort fun j j' => j'.1.size_on_disk ≤ j.1.size_on_disk).take limit).map fun j => search_result j.1

/-! ## What each read returns -/

section

variable {cat : Catalogue} {scope : Option ScopeFilter} {volume_id : ℕ}

theorem mem_list_volumes {v : Volume} :
    v ∈ list_volumes cat scope ↔ v ∈ cat.volumes.rows ∧ in_scope scope volume_columns v = true := by
  rw [list_volumes, List.mem_mergeSort, List.mem_filter]

theorem scoped_volume_ok {volume : Volume} : scoped_volume cat volume_id scope = .ok volume ↔
      get_volume cat volume_id = some volume ∧ check_volume_in_scope volume scope = .ok () := by
  unfold scoped_volume
  split
  · rename_i hnone
    rw [hnone]
    simp
  · rename_i found hfound
    rw [hfound]
    split
    · rename_i e hcheck
      refine iff_of_false (by simp) ?_
      rintro ⟨hsome, hok⟩
      rw [← Option.some.inj hsome, hcheck] at hok
      exact absurd hok (by simp)
    · rename_i hcheck
      constructor
      · intro h
        rw [← Except.ok.inj h]
        exact ⟨rfl, hcheck⟩
      · rintro ⟨hsome, -⟩
        rw [Option.some.inj hsome]

theorem mem_history_rows {history : List SizeHistory} {path : String} {since until_ : Option Instant} {h : SizeHistory}
    (hmem : h ∈ history_rows history volume_id path since until_) : h ∈ history ∧ h.volume_id = volume_id := by
  rw [history_rows, List.mem_mergeSort, List.mem_filter, decide_eq_true_eq] at hmem
  exact ⟨hmem.1, hmem.2.1⟩

/-- A volume that was asked for under a scope was found and checked. -/
theorem get_history_scoped {history : List SizeHistory} {path : String} {since until_ : Option Instant} {f : ScopeFilter}
    {points : List SizeHistory} (h : get_history cat history volume_id path since until_ (some f) = .ok points) :
    points = history_rows history volume_id path since until_ ∧
      ∃ volume, scoped_volume cat volume_id (some f) = .ok volume := by
  unfold get_history at h
  rw [if_neg (Option.some_ne_none f)] at h
  split at h
  · exact absurd h (by simp)
  · rename_i volume hvolume
    exact ⟨(Except.ok.inj h).symm, volume, hvolume⟩

theorem get_changes_scoped {path : Option String} {since until_ : Option Instant} {limit : ℕ} {f : ScopeFilter}
    {changes : List ChangeLog} (h : get_changes cat volume_id path since until_ limit (some f) = .ok changes) :
    (∀ c ∈ changes, c ∈ cat.change_log ∧ c.volume_id = volume_id) ∧
      ∃ volume, scoped_volume cat volume_id (some f) = .ok volume := by
  unfold get_changes at h
  dsimp only at h
  rw [if_neg (Option.some_ne_none f)] at h
  split at h
  · exact absurd h (by simp)
  · rename_i volume hvolume
    refine ⟨fun c hc => ?_, volume, hvolume⟩
    rw [← Except.ok.inj h] at hc
    have hc := List.mem_of_mem_take hc
    rw [List.mem_mergeSort, List.mem_reverse, List.mem_filter, changed, Bool.and_eq_true, Bool.and_eq_true,
      decide_eq_true_eq] at hc
    exact ⟨hc.1, hc.2.1.1⟩

/-- A hit is a row that the scope admits with the kind of its volume. -/
theorem mem_search_entries {fold : List Char → List Char} {q : String} {volume : Option ℕ} {limit : ℕ}
    {result : SearchResult} (h : result ∈ search_entries fold cat q scope volume limit) :
    ∃ r ∈ cat.fs_entry.rows, ∃ v ∈ cat.volumes.rows, v.id = r.volume_id ∧ result = search_result r ∧
      in_scope scope joined_columns (r, v) = true := by
  unfold search_entries at h
  obtain ⟨j, hj, rfl⟩ := List.mem_map.mp h
  have hj := List.mem_of_mem_take hj
  rw [List.mem_mergeSort, List.mem_filter, join_volumes, List.mem_flatMap] at hj
  obtain ⟨⟨r, hr, hjoin⟩, hfound⟩ := hj
  obtain ⟨v, hv, rfl⟩ := List.mem_map.mp hjoin
  obtain ⟨hv, hid⟩ := List.mem_filter.mp hv
  rw [found, Bool.and_eq_true] at hfound
  exact ⟨r, hr, v, hv, of_decide_eq_true hid, rfl, hfound.2⟩

/-- A child is made of a row of the volume, which was found and checked. -/
theorem list_children_scoped {collation : String → String → Bool} {db : Database} {path : String}
    {children : List TreeChild} (h : list_children collation db volume_id path scope = .ok children) :
    ∃ volume, scoped_volume db.cat volume_id scope = .ok volume ∧ ∀ child ∈ children, ∃ row ∈ rows_with_ids db.cat,
        child = tree_child db.subtree_rollup row ∧ row.1.volume_id = volume.id := by
  unfold list_children at h
  split at h
  · exact absurd h (by simp)
  · rename_i volume hvolume
    split at h
    · exact absurd h (by simp)
    · rename_i hcheck
      refine ⟨volume, scoped_volume_ok.mpr ⟨hvolume, hcheck⟩, fun child hchild => ?_⟩
      rw [← Except.ok.inj h] at hchild
      obtain ⟨row, hrow, rfl⟩ := List.mem_map.mp hchild
      rw [List.mem_mergeSort, List.mem_filter, listed_iff] at hrow
      exact ⟨row, hrow.1, rfl, hrow.2.1⟩

end

end Fathom.Read
