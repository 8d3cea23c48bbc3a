/-
**The growth forecast** (`growth_forecast` in `core/concierge/queries.py`) and those who ask
for it, `core/watch.py` and `core/concierge/service.py`.

The forecast fits a line through the size history of a subtree. Its window looks back from
`now`, and no `now` is no window. Both callers hand on a `now` of their own that may be left
out, and what calls them in production leaves it out: the whole history counts. The rule
beside it in `evaluate` and the tool beside it in the service take the clock then.
`forecast_exact_iff` says that a forecast keeps to its window exactly when `now` is given.

What the code computes in floats is computed in rationals.
-/
import Fathom.Ingest.Service
import Fathom.Lib.LeastSquares
import Fathom.Read.Search

set_option autoImplicit false

namespace Fathom.Concierge

open Fathom.Ingest (Catalogue Volume Host Instant sample_server sample_batch after)
open Fathom.Auth (ScopeFilter)
open Fathom.Read (SizeHistory ReadError history_rows in_window get_volume check_volume_in_scope volume_columns in_scope)
open Fathom.LeastSquares (mean variance covariance slope IsSlope)

/-! ## The forecast -/

/-- `GrowthForecast`. -/
structure GrowthForecast where
  volume_id : ℕ
  path : String
  current_size : ℕ
  daily_growth_bytes : ℚ
  days_to_full : Option ℚ
  deriving DecidableEq

/-- The arguments of `growth_forecast`. -/
structure Call where
  volume_id : ℕ
  path : String
  scope : Option ScopeFilter := none
  lookback_days : Int := 30
  now : Option Instant := none

/-- `86400` seconds of an instant's microseconds. -/
def DAY : Int := 86400000000

/-- `since`. -/
def since (call : Call) : Option Instant :=
  match call.now with
  | some now => if 0 < call.lookback_days then some (now - call.lookback_days * DAY) else none
  | none => none

/-- `ts.timestamp()`. -/
def timestamp (ts : Instant) : ℚ := ts / 1000000

/-- What is made of two points or more. -/
def fit (volume : Volume) (call : Call) (points : List SizeHistory) : GrowthForecast :=
  let t0 := (points.head?.map fun p => timestamp p.ts).getD 0
  let xs := points.map fun p => timestamp p.ts - t0
  let ys := points.map fun p => (p.total_size_on_disk : ℚ)
  let n : ℚ := xs.length
  let mean_x := xs.sum / n
  let mean_y := ys.sum / n
  let denom := (xs.map fun x => (x - mean_x) ^ 2).sum
  let slope := if denom = 0 then 0 else (List.zipWith (fun x y => (x - mean_x) * (y - mean_y)) xs ys).sum / denom
  let daily := slope * 86400
  { volume_id := call.volume_id
    path := call.path
    current_size := (points.getLast?.map SizeHistory.total_size_on_disk).getD 0
    daily_growth_bytes := daily
    days_to_full := if 0 < daily ∧ 0 < volume.free then some (volume.free / daily) else none }

/-- `growth_forecast`. -/
def growth_forecast (cat : Catalogue) (history : List SizeHistory) (call : Call) :
    Except ReadError (Option GrowthForecast) :=
  match get_volume cat call.volume_id with
  | none => .ok none
  | some volume =>
    match check_volume_in_scope volume call.scope with
    | .error e => .error e
    | .ok _ =>
      let points := history_rows history call.volume_id call.path (since call) none
      if points.length < 2 then .ok none else .ok (some (fit volume call points))

/-! ## Who asks -/

/-- The forecasts `evaluate` asks for: one for each volume. -/
def evaluate_calls (cat : Catalogue) (now : Option Instant) : List Call :=
  cat.volumes.rows.map fun v => { volume_id := v.id, path := v.mountpoint, now }

/-- Those of `WatchWorker.tick`, which gives no time. -/
def tick_calls (cat : Catalogue) : List Call := evaluate_calls cat none

/-- The volumes `fleet_storage` selects, of hosts that are there. -/
def fleet_rows (cat : Catalogue) (scope : Option ScopeFilter) (host_id : Option ℕ) : List Volume :=
  (cat.volumes.rows.filter fun v =>
    (cat.hosts.rows.map Host.id).contains v.host_id && host_id.all (fun id => v.host_id = id) &&
      in_scope scope volume_columns v).mergeSort
    fun v w => v.host_id < w.host_id || v.host_id = w.host_id && v.id ≤ w.id

/-- `HostStorage`, as far as a forecast reads it. -/
structure HostStorage where
  host_id : ℕ
  free : ℕ
  volumes : List Volume

/-- `fleet_storage`: the host with the least free space first. -/
def fleet_storage (cat : Catalogue) (scope : Option ScopeFilter) (host_id : Option ℕ) : List HostStorage :=
  let rows := fleet_rows cat scope host_id
  let by_host := (rows.map Volume.host_id).eraseDups.map fun id =>
    let volumes := rows.filter fun v => v.host_id = id
    { host_id := id, free := (volumes.map Volume.free).sum, volumes : HostStorage }
  by_host.mergeSort fun h h' => h.free ≤ h'.free

/-- The forecasts `_forecast` asks for. -/
def forecast_calls (cat : Catalogue) (scope : Option ScopeFilter) (host_id : Option ℕ) (now : Option Instant) :
    List Call :=
  (fleet_storage cat scope host_id).flatMap fun host =>
    host.volumes.map fun v => { volume_id := v.id, path := v.mountpoint, scope, now }

/-- Those of `ask` as the router calls it, which gives no time. -/
def ask_calls (cat : Catalogue) (scope : Option ScopeFilter) (host_id : Option ℕ) : List Call :=
  forecast_calls cat scope host_id none

/-! ## The window -/

/-- The points of a call's subtree that are not older than its window, seen from a time. -/
def window_rows (time : Instant) (call : Call) (history : List SizeHistory) : List SizeHistory :=
  history.filter fun h =>
    h.volume_id = call.volume_id ∧ h.path = call.path ∧ time - call.lookback_days * DAY ≤ h.ts

/-- A point of a line: seconds and bytes. -/
def point (h : SizeHistory) : ℚ × ℚ := (timestamp h.ts, h.total_size_on_disk)

/-- **A forecast is that of its window**: it depends on the points in it alone, grows by their
least-squares slope, and says when the volume is full exactly when it grows and has space. -/
structure ExactForecast (cat : Catalogue) (history : List SizeHistory) (call : Call) (time : Instant) : Prop where
  window : ∀ history', window_rows time call history' = window_rows time call history →
    growth_forecast cat history' call = growth_forecast cat history call
  slope : ∀ fc, growth_forecast cat history call = .ok (some fc) →
    ∃ m, IsSlope ((window_rows time call history).map point) m ∧ fc.daily_growth_bytes = m * 86400
  days : ∀ volume fc, get_volume cat call.volume_id = some volume →
    growth_forecast cat history call = .ok (some fc) →
      fc.days_to_full = if 0 < fc.daily_growth_bytes ∧ 0 < volume.free then some (volume.free / fc.daily_growth_bytes)
        else none

/-! ## What is fitted -/

section

variable {cat : Catalogue} {history : List SizeHistory} {volume : Volume} {call : Call} {time : Instant}

/-- The growth of a day is the slope of the points. -/
theorem daily_fit (volume : Volume) (call : Call) (points : List SizeHistory) :
    (fit volume call points).daily_growth_bytes = slope (points.map point) * 86400 := by
  rw [← LeastSquares.slope_shift ((points.head?.map fun p => timestamp p.ts).getD 0) (points.map point)]
  generalize ht : (points.head?.map fun p => timestamp p.ts).getD 0 = t0
  have hxs : (points.map fun p => timestamp p.ts - t0)
      = ((points.map point).map fun p => (p.1 - t0, p.2)).map Prod.fst := by
    rw [List.map_map, List.map_map]
    rfl
  have hys : (points.map fun p => (p.total_size_on_disk : ℚ))
      = ((points.map point).map fun p => (p.1 - t0, p.2)).map Prod.snd := by
    rw [List.map_map, List.map_map]
    rfl
  dsimp only [fit]
  rw [ht, hxs, hys]
  generalize (points.map point).map (fun p => (p.1 - t0, p.2)) = shifted
  rw [List.zipWith_map, List.zipWith_self, List.map_map, List.length_map, LeastSquares.slope]
  congr 1
  split
  · rename_i hzero
    -- the level line, where the quotient is by zero
    rw [show variance shifted = 0 from hzero, div_zero]
  · rfl

theorem days_fit (volume : Volume) (call : Call) (points : List SizeHistory) :
    (fit volume call points).days_to_full
      = if 0 < (fit volume call points).daily_growth_bytes ∧ 0 < volume.free
        then some (volume.free / (fit volume call points).daily_growth_bytes) else none := rfl

/-- Where a volume is found and in scope, a forecast is the fit of two points or more. -/
theorem growth_forecast_eq (hvolume : get_volume cat call.volume_id = some volume)
    (hscope : check_volume_in_scope volume call.scope = .ok ()) :
    growth_forecast cat history call
      = if (history_rows history call.volume_id call.path (since call) none).length < 2 then .ok none
        else .ok (some (fit volume call (history_rows history call.volume_id call.path (since call) none))) := by
  rw [growth_forecast, hvolume]
  dsimp only
  rw [hscope]

/-- A forecast that there is, is one. -/
theorem growth_forecast_some {fc : GrowthForecast} (h : growth_forecast cat history call = .ok (some fc)) :
    ∃ volume, get_volume cat call.volume_id = some volume ∧
      fc = fit volume call (history_rows history call.volume_id call.path (since call) none) := by
  rw [growth_forecast] at h
  split at h
  · exact absurd h (by simp)
  · rename_i volume hvolume
    split at h
    · exact absurd h (by simp)
    · dsimp only at h
      split at h
      · exact absurd h (by simp)
      · exact ⟨volume, hvolume, (Option.some.inj (Except.ok.inj h)).symm⟩

end

/-! ## With a time -/

section

variable {cat : Catalogue} {history : List SizeHistory} {call : Call} {time : Instant}

/-- The points that are read lie in the window. -/
theorem history_rows_window (hnow : call.now = some time) (hlookback : 0 < call.lookback_days) :
    history_rows history call.volume_id call.path (since call) none
      = (window_rows time call history).mergeSort fun h h' => h.ts ≤ h'.ts := by
  have hsince : since call = some (time - call.lookback_days * DAY) := by
    rw [since, hnow]
    exact if_pos hlookback
  rw [history_rows, window_rows, hsince]
  congr 1
  refine List.filter_congr fun h _ => ?_
  rw [decide_eq_decide, in_window, Option.all_some, Option.all_none, Bool.and_true, decide_eq_true_iff]

/-- **A forecast that is given the time keeps to its window.** -/
theorem exact_of_now (hnow : call.now = some time) (hlookback : 0 < call.lookback_days) :
    ExactForecast cat history call time := by
  refine ⟨fun history' hsame => ?_, fun fc hfc => ?_, fun volume fc hvolume hfc => ?_⟩
  · rw [growth_forecast, growth_forecast, history_rows_window hnow hlookback, history_rows_window hnow hlookback, hsame]
  · obtain ⟨volume, -, rfl⟩ := growth_forecast_some hfc
    refine ⟨slope ((window_rows time call history).map point), LeastSquares.isSlope_slope _, ?_⟩
    rw [daily_fit, history_rows_window hnow hlookback, LeastSquares.slope_perm ((List.mergeSort_perm _ _).map point)]
  · obtain ⟨volume', hvolume', rfl⟩ := growth_forecast_some hfc
    rw [hvolume, Option.some.injEq] at hvolume'
    rw [hvolume']
    exact days_fit _ _ _

end

/-! ## Without one -/

section

variable {cat : Catalogue} {history : List SizeHistory} {volume : Volume} {call : Call} {time : Instant}

/-- The points of a call's subtree. -/
def subtree_rows (call : Call) (history : List SizeHistory) : List SizeHistory :=
  history.filter fun h => h.volume_id = call.volume_id ∧ h.path = call.path

/-- The points that are read are all of them. -/
theorem history_rows_perm (hnow : call.now = none) :
    (history_rows history call.volume_id call.path (since call) none).Perm (subtree_rows call history) := by
  have hsince : since call = none := by rw [since, hnow]
  rw [history_rows, hsince, subtree_rows]
  refine (List.mergeSort_perm _ _).trans (List.Perm.of_eq (List.filter_congr fun h _ => ?_))
  rw [decide_eq_decide, in_window, Option.all_none, Option.all_none, Bool.and_true]
  exact ⟨fun h => ⟨h.1, h.2.1⟩, fun h => ⟨h.1, h.2, rfl⟩⟩

theorem timestamp_lt {ts ts' : Instant} (h : ts < ts') : timestamp ts < timestamp ts' :=
  div_lt_div_of_pos_right (Int.cast_lt.mpr h) (by norm_num)

/-- A point of the subtree older than the window and than all that is there. -/
def old_row (call : Call) (time : Instant) (history : List SizeHistory) (size : ℕ) : SizeHistory where
  volume_id := call.volume_id
  path := call.path
  ts := (history.map SizeHistory.ts).foldr min (time - call.lookback_days * DAY) - 1
  total_size_logical := size
  total_size_on_disk := size
  file_count := 0

theorem foldr_min_le {all : List Instant} (start : Instant) :
    all.foldr min start ≤ start ∧ ∀ t ∈ all, all.foldr min start ≤ t := by
  induction all with
  | nil => exact ⟨le_refl start, fun t ht => absurd ht List.not_mem_nil⟩
  | cons a all ih =>
      rw [List.foldr_cons]
      refine ⟨(min_le_right _ _).trans ih.1, fun t ht => ?_⟩
      rcases List.mem_cons.mp ht with rfl | hmem
      · exact min_le_left _ _
      · exact (min_le_right _ _).trans (ih.2 t hmem)

theorem old_row_before (call : Call) (time : Instant) (history : List SizeHistory) (size : ℕ) :
    (old_row call time history size).ts < time - call.lookback_days * DAY ∧
      ∀ h ∈ history, (old_row call time history size).ts < h.ts := by
  obtain ⟨hstart, hall⟩ := @foldr_min_le (history.map SizeHistory.ts) (time - call.lookback_days * DAY)
  exact ⟨Int.sub_one_lt_of_le hstart, fun h hh => Int.sub_one_lt_of_le (hall h.ts (List.mem_map_of_mem hh))⟩

theorem window_rows_old (call : Call) (time : Instant) {history : List SizeHistory} (added : List SizeHistory)
    (hadded : ∀ h ∈ added, h.ts < time - call.lookback_days * DAY) :
    window_rows time call (added ++ history) = window_rows time call history := by
  have hnone : window_rows time call added = [] := by
    refine List.filter_eq_nil_iff.mpr fun h hh hin => ?_
    exact absurd (of_decide_eq_true hin).2.2 (not_le.mpr (hadded h hh))
  rw [window_rows, List.filter_append]
  exact (congrArg (· ++ window_rows time call history) hnone).trans (List.nil_append _)

theorem subtree_rows_old (call : Call) (time : Instant) (history : List SizeHistory) (size : ℕ) (rest : List SizeHistory) :
    subtree_rows call (old_row call time history size :: rest)
      = old_row call time history size :: subtree_rows call rest :=
  List.filter_cons_of_pos (decide_eq_true ⟨rfl, rfl⟩)

/-- Of two points or more there is a forecast, whenever they are from. -/
theorem forecast_of_all (hvolume : get_volume cat call.volume_id = some volume)
    (hscope : check_volume_in_scope volume call.scope = .ok ()) (hnow : call.now = none)
    (hpoints : 2 ≤ (subtree_rows call history).length) :
    ∃ fc, growth_forecast cat history call = .ok (some fc) ∧
      fc.daily_growth_bytes = slope ((subtree_rows call history).map point) * 86400 := by
  have hperm : (history_rows history call.volume_id call.path (since call) none).Perm (subtree_rows call history) :=
    history_rows_perm hnow
  rw [growth_forecast_eq hvolume hscope, if_neg (by rw [hperm.length_eq]; omega)]
  exact ⟨_, rfl, by rw [daily_fit, LeastSquares.slope_perm (hperm.map point)]⟩

/-- **A forecast that is not given the time keeps to no window**: every history has another with
the same points in the window and another forecast. -/
theorem not_exact_without_now (hvolume : get_volume cat call.volume_id = some volume)
    (hscope : check_volume_in_scope volume call.scope = .ok ()) (hnow : call.now = none) :
    ¬ ExactForecast cat history call time := by
  intro hexact
  have hbefore := old_row_before call time history
  by_cases hnil : subtree_rows call history = []
  · -- two old points give a forecast where there was none
    have hnone : growth_forecast cat history call = .ok none := by
      rw [growth_forecast_eq hvolume hscope, if_pos]
      rw [(history_rows_perm hnow).length_eq, hnil]
      exact Nat.zero_lt_two
    have hwindow := hexact.window ([old_row call time history 0, old_row call time history 0] ++ history)
      (window_rows_old call time _ (by
        intro h hh
        rw [List.mem_pair, or_self] at hh
        rw [hh]
        exact (hbefore 0).1))
    obtain ⟨fc, hfc, -⟩ := @forecast_of_all cat ([old_row call time history 0, old_row call time history 0] ++ history)
      volume call hvolume hscope hnow (by
        rw [List.cons_append, List.cons_append, subtree_rows_old, subtree_rows_old]
        exact Nat.le_add_left 2 _)
    rw [hfc, hnone] at hwindow
    exact absurd hwindow (by simp)
  · -- the size of one old point moves the slope
    have hforecast : ∀ size, ∃ fc, growth_forecast cat history call = .ok (some fc) ∧
        fc.daily_growth_bytes
          = slope (point (old_row call time history size) :: (subtree_rows call history).map point) * 86400 := by
      intro size
      have hwindow := hexact.window ([old_row call time history size] ++ history)
        (window_rows_old call time _ (by
          intro h hh
          rw [List.mem_singleton.mp hh]
          exact (hbefore size).1))
      obtain ⟨fc, hfc, hdaily⟩ := @forecast_of_all cat ([old_row call time history size] ++ history)
        volume call hvolume hscope hnow (by
          rw [List.cons_append, subtree_rows_old]
          exact Nat.succ_le_succ (List.length_pos_iff.mpr hnil))
      rw [List.cons_append, subtree_rows_old] at hdaily
      exact ⟨fc, hwindow.symm.trans hfc, hdaily⟩
    obtain ⟨fc, hfc, hdaily⟩ := hforecast 0
    obtain ⟨fc', hfc', hdaily'⟩ := hforecast 1
    rw [hfc, Except.ok.injEq, Option.some.injEq] at hfc'
    rw [← hfc', hdaily] at hdaily'
    refine LeastSquares.slope_ne_of_first ?_ ?_ ?_ (mul_right_cancel₀ (by decide) hdaily')
    · rw [Ne, List.map_eq_nil_iff]
      exact hnil
    · intro q hq
      obtain ⟨h, hh, rfl⟩ := List.mem_map.mp hq
      exact timestamp_lt ((hbefore 0).2 h (List.mem_of_mem_filter hh))
    · exact fun h => absurd (Nat.cast_injective h) Nat.zero_ne_one

end

/-! ## The callers -/

section

variable {cat : Catalogue} {scope : Option ScopeFilter} {host_id : Option ℕ} {now : Option Instant} {call : Call}

theorem check_of_in_scope {v : Volume} (h : in_scope scope volume_columns v = true) :
    check_volume_in_scope v scope = .ok () := by
  cases scope with
  | none => rfl
  | some f =>
      rw [in_scope, Option.all_some] at h
      have hadmits := ScopeFilter.apply_columns_iff.mp h
      have hcheck : f.check_target v.host_id (some v.id) (some v.kind) = .ok () :=
        (@ScopeFilter.check_target_iff f ⟨v.host_id, v.id, v.kind⟩).mpr hadmits
      rw [check_volume_in_scope, hcheck]

/-- What both callers ask is about a volume that is there and that they may see. -/
theorem call_found (hids : ∀ v ∈ cat.volumes.rows, ∀ w ∈ cat.volumes.rows, v.id = w.id → v = w)
    (hcall : call ∈ evaluate_calls cat now ∨ call ∈ forecast_calls cat scope host_id now) :
    call.now = now ∧ ∃ volume, get_volume cat call.volume_id = some volume ∧
      check_volume_in_scope volume call.scope = .ok () := by
  have hget : ∀ v ∈ cat.volumes.rows, get_volume cat v.id = some v := by
    intro v hv
    cases hfind : get_volume cat v.id with
    | none => exact absurd (List.find?_eq_none.mp hfind v hv) (by simp)
    | some w =>
        have hid := List.find?_some hfind
        rw [hids w (List.mem_of_find?_eq_some hfind) v hv (of_decide_eq_true hid)]
  rcases hcall with hcall | hcall
  · obtain ⟨v, hv, rfl⟩ := List.mem_map.mp hcall
    exact ⟨rfl, v, hget v hv, rfl⟩
  · obtain ⟨host, hhost, hcall⟩ := List.mem_flatMap.mp hcall
    obtain ⟨v, hv, rfl⟩ := List.mem_map.mp hcall
    rw [fleet_storage, List.mem_mergeSort] at hhost
    obtain ⟨id, -, rfl⟩ := List.mem_map.mp hhost
    have hrow := List.mem_of_mem_filter hv
    rw [fleet_rows, List.mem_mergeSort, List.mem_filter, Bool.and_eq_true] at hrow
    exact ⟨rfl, v, hget v hrow.1, check_of_in_scope hrow.2.2⟩

/-- **A caller's forecasts are exact exactly when it is given the time**, whatever the history.
The worker and the router give none, so theirs never are. -/
theorem forecast_exact_iff (hids : ∀ v ∈ cat.volumes.rows, ∀ w ∈ cat.volumes.rows, v.id = w.id → v = w)
    {lookback_days : Int} (hlookback : 0 < lookback_days) (history : List SizeHistory) (time : Instant) :
    (∀ now, now = none ∨ now = some time →
      ∀ call, call ∈ evaluate_calls cat now ∨ call ∈ forecast_calls cat scope host_id now →
        (ExactForecast cat history { call with lookback_days } time ↔ now = some time)) ∧
      ∀ call, call ∈ tick_calls cat ∨ call ∈ ask_calls cat scope host_id →
        ¬ ExactForecast cat history { call with lookback_days } time := by
  constructor
  · intro now hnow call hcall
    obtain ⟨hsame, volume, hvolume, hscope⟩ := call_found hids hcall
    constructor
    · intro hexact
      rcases hnow with hnone | hsome
      · exact absurd hexact (not_exact_without_now hvolume hscope (hsame.trans hnone))
      · exact hsome
    · intro hsome
      exact exact_of_now (hsame.trans hsome) hlookback
  · intro call hcall
    obtain ⟨hnone, volume, hvolume, hscope⟩ := call_found hids hcall
    exact not_exact_without_now hvolume hscope hnone

end

/-! ## One volume -/

/-- A core that knows the volume at `/m`. -/
def sample_catalogue : Catalogue := after .empty (sample_batch .metadata [] []) 0

theorem sample_ids : ∀ v ∈ sample_catalogue.volumes.rows, ∀ w ∈ sample_catalogue.volumes.rows, v.id = w.id → v = w := by
  decide +kernel

theorem sample_calls (now : Option Instant) :
    ({ volume_id := 1, path := "/m", now } : Call) ∈ evaluate_calls sample_catalogue now := by
  have hrows : sample_catalogue.volumes.rows.map (fun v => (v.id, v.mountpoint)) = [(1, "/m")] := by
    decide +kernel
  have hmem : (1, "/m") ∈ sample_catalogue.volumes.rows.map fun v => (v.id, v.mountpoint) := by
    rw [hrows]
    exact List.mem_singleton_self _
  obtain ⟨v, hv, hcolumns⟩ := List.mem_map.mp hmem
  rw [Prod.mk.injEq] at hcolumns
  refine List.mem_map.mpr ⟨v, hv, ?_⟩
  rw [hcolumns.1, hcolumns.2]

/-- Given the time, the forecast keeps to thirty days. -/
theorem evaluate_given_time : ExactForecast sample_catalogue [] { volume_id := 1, path := "/m", now := some 0 } 0 :=
  ((@forecast_exact_iff sample_catalogue none none sample_ids 30 (by decide) [] 0).1 (some 0) (Or.inr rfl) _
    (Or.inl (sample_calls (some 0)))).mpr rfl

/-- The worker's forecast of `/m` is moved by points that are older than its window. -/
theorem tick_forgets_window :
    ¬ ∀ (cat : Catalogue) (history : List SizeHistory) (scope : Option ScopeFilter) (host_id : Option ℕ) (call : Call)
        (time : Instant), call ∈ tick_calls cat ∨ call ∈ ask_calls cat scope host_id → 0 < call.lookback_days →
      ExactForecast cat history call time := by
  intro hall
  have hcall := sample_calls none
  have hexact := hall sample_catalogue [] none none _ 0 (Or.inl hcall) (by decide)
  obtain ⟨hnone, volume, hvolume, hscope⟩ := @call_found sample_catalogue none none none _ sample_ids (Or.inl hcall)
  exact not_exact_without_now hvolume hscope hnone hexact

end Fathom.Concierge
