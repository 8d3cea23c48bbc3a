/-
**The preview cache over a run** (`preview/cache.py`): `EncryptedLruCache` against the list of
the keys that were touched.

An expired row keeps its slot until it is read or evicted, and a key that is put again moves
to the end, so which row is evicted next is a matter of the whole history. `Seen` is that
history without a cache: the latest put of every key, and the keys in the order of their
touches. `Agrees` ties the two: the rows open to the latest puts, they are in the order of the
touches, and a key without a row has expired or is behind `max_entries` others.
-/
import Fathom.Preview.Service

set_option autoImplicit false

namespace Fathom.Preview

/-- `EncryptedLruCache`, without its rows. Its clock counts ticks, and so do the ttls. -/
structure EncryptedLruCache (Text Token : Type) where
  sealing : Sealing Text Token
  max_entries : ℕ
  ttl : ℤ

variable {Text Token : Type}

/-- `EncryptedLruCache.put`: the size it returns, and the rows after it. A dump that fails
raises before anything is stored. -/
def EncryptedLruCache.put (cache : EncryptedLruCache Text Token) (clock : ℤ)
    (store : Lru String (CacheEntry Token)) (key : String) (result : PreviewResult)
    (ttl_seconds : Option ℤ) (salt : ℕ) (origin : ByteArray) :
    Except Failure ℕ × Lru String (CacheEntry Token) :=
  match cache.sealing.model_dump_json result with
  | none => (.error .unhandled, store)
  | some plaintext =>
    let ciphertext := cache.sealing.encrypt salt plaintext
    let ttl := ttl_seconds.getD cache.ttl
    (.ok (cache.sealing.size ciphertext),
      store.put cache.max_entries key ⟨ciphertext, clock + ttl, cache.sealing.size ciphertext, origin⟩)

/-- `EncryptedLruCache.get`. -/
def EncryptedLruCache.get (cache : EncryptedLruCache Text Token) (clock : ℤ)
    (store : Lru String (CacheEntry Token)) (key : String) :
    Except Failure (Option (PreviewResult × ByteArray)) × Lru String (CacheEntry Token) :=
  cache_get cache.sealing clock store key

/-- The cache of the service. -/
def PreviewService.cache (svc : PreviewService Text Token) : EncryptedLruCache Text Token :=
  ⟨svc.sealing, svc.max_entries, svc.cache_ttl⟩

/-! ## The calls -/

/-- A call of the cache, and time that passes. What a read answers is in its label. -/
inductive Call where
  | put (key : String) (result : PreviewResult) (ttl_seconds : Option ℤ) (salt : ℕ) (origin : ByteArray)
  | get (key : String) (answer : Option (PreviewResult × ByteArray))
  | advance (ticks : ℕ)

/-- The clock and the rows. -/
structure CacheState (Token : Type) where
  clock : ℤ
  store : Lru String (CacheEntry Token)

/-- One call. A read steps with the answer it returns. -/
def EncryptedLruCache.step (cache : EncryptedLruCache Text Token) (s : CacheState Token) :
    Call → Option (CacheState Token)
  | .put key result ttl_seconds salt origin =>
    some { s with store := (cache.put s.clock s.store key result ttl_seconds salt origin).2 }
  | .get key answer =>
    match cache.get s.clock s.store key with
    | (.error _, _) => none
    | (.ok found, store) => if found = answer then some { s with store } else none
  | .advance ticks => some { s with clock := s.clock + ticks }

/-- The calls of one cache, from when it is made. -/
def EncryptedLruCache.system (cache : EncryptedLruCache Text Token) (clock : ℤ) :
    System (CacheState Token) Call where
  init := fun s => s = ⟨clock, .empty⟩
  step := cache.step

/-! ## The reference -/

/-- A put, and when what it stored expires. -/
structure Stored where
  result : PreviewResult
  origin : ByteArray
  expires_at : ℤ

/-- What a read returns of a put. -/
def Stored.answer (p : Stored) : PreviewResult × ByteArray := ({ p.result with cache_hit := true }, p.origin)

/-- A history: the time, the latest put of every key, and the keys that were put or
successfully read, the last touch first. -/
structure Seen where
  clock : ℤ
  latest : String → Option Stored
  touched : List String

/-- The history after one more call. A put that raised is none. -/
def EncryptedLruCache.observe (cache : EncryptedLruCache Text Token) (seen : Seen) : Call → Seen
  | .put key result ttl_seconds _ origin =>
    match cache.sealing.model_dump_json result with
    | none => seen
    | some _ =>
      { seen with
        latest := fun i =>
          if i = key then some ⟨result, origin, seen.clock + ttl_seconds.getD cache.ttl⟩ else seen.latest i
        touched := key :: seen.touched }
  | .get key answer => if answer.isSome then { seen with touched := key :: seen.touched } else seen
  | .advance ticks => { seen with clock := seen.clock + ticks }

/-- The history of a list of calls. -/
def EncryptedLruCache.seen (cache : EncryptedLruCache Text Token) (clock : ℤ) (calls : List Call) : Seen :=
  calls.foldl cache.observe ⟨clock, fun _ => none, []⟩

theorem seen_snoc (cache : EncryptedLruCache Text Token) (clock : ℤ) (calls : List Call) (call : Call) :
    cache.seen clock (calls ++ [call]) = cache.observe (cache.seen clock calls) call := by
  rw [EncryptedLruCache.seen, List.foldl_append]
  rfl

/-- The other keys that were put or successfully read since `key` last was. -/
def Seen.others (seen : Seen) (key : String) : Finset String := (Lru.since seen.touched key).toFinset

/-! ## The simulation -/

/-- A row opens to a put. -/
def Opens (cache : EncryptedLruCache Text Token) (row : CacheEntry Token) (p : Stored) : Prop :=
  (∃ text, cache.sealing.decrypt row.ciphertext = some text ∧
    cache.sealing.model_validate_json text = some p.result) ∧
  row.origin = p.origin ∧ row.expires_at = p.expires_at

/-- The rows under a bound, beside the history. -/
structure Agrees (cache : EncryptedLruCache Text Token) (seen : Seen) (s : CacheState Token) : Prop where
  clock : seen.clock = s.clock
  rows : Lru.All (fun key row => ∃ p, seen.latest key = some p ∧ Opens cache row p) s.store
  recency : Lru.Recency seen.touched s.store
  gone : ∀ key p, seen.latest key = some p → key ∉ s.store.rows.map Prod.fst →
    p.expires_at ≤ s.clock ∨ cache.max_entries ≤ (seen.others key).card
  bound : s.store.rows.length ≤ cache.max_entries

variable {cache : EncryptedLruCache Text Token} {seen : Seen} {s : CacheState Token}

theorem agrees_start (cache : EncryptedLruCache Text Token) (clock : ℤ) :
    Agrees cache (cache.seen clock []) ⟨clock, .empty⟩ where
  clock := rfl
  rows := Lru.all_empty
  recency := Lru.recency_empty _
  gone := fun _ _ h _ => absurd h (by simp [EncryptedLruCache.seen])
  bound := Nat.zero_le _

/-- A dumped result opens to what was dumped. -/
theorem opens_put {result : PreviewResult} {text : Text} (hdump : cache.sealing.model_dump_json result = some text)
    (salt size : ℕ) (expires_at : ℤ) (origin : ByteArray) :
    Opens cache ⟨cache.sealing.encrypt salt text, expires_at, size, origin⟩ ⟨result, origin, expires_at⟩ :=
  ⟨⟨text, cache.sealing.decrypt_encrypt salt text, cache.sealing.validate_dump result text hdump⟩, rfl, rfl⟩

/-- A key is touched: its row moves to the end, and the oldest row may go. -/
theorem Agrees.put (h : Agrees cache seen s) {key : String} {row : CacheEntry Token} {p : Stored}
    (latest : String → Option Stored) (hopens : Opens cache row p) (hlatest : latest key = some p)
    (hother : ∀ i, i ≠ key → latest i = seen.latest i) :
    Agrees cache ⟨seen.clock, latest, key :: seen.touched⟩
      { s with store := s.store.put cache.max_entries key row } where
  clock := h.clock
  rows := by
    refine Lru.All.evict (Lru.all_insert ?_ ⟨p, hlatest, hopens⟩) _
    intro old hold hne
    dsimp only
    rw [hother old.1 hne]
    exact h.rows old hold
  recency := (h.recency.insert key row).evict _
  gone := by
    intro i q hq hgone
    by_cases hin : i ∈ (s.store.insert key row).rows.map Prod.fst
    · exact .inr ((h.recency.insert key row).evicted hin hgone)
    · -- it had no row before
      rw [Lru.keys_insert, not_or] at hin
      obtain ⟨hne, hnone⟩ := hin
      dsimp only at hq
      rw [hother i hne] at hq
      rcases h.gone i q hq hnone with hexpired | hothers
      · exact .inl hexpired
      · exact .inr (hothers.trans (Lru.card_since_cons_le (Ne.symm hne)))
  bound := Lru.put_length _ _ _ _

/-- A row that has expired is dropped. -/
theorem Agrees.erase (h : Agrees cache seen s) {key : String} {p : Stored} (hlatest : seen.latest key = some p)
    (hexpired : p.expires_at ≤ s.clock) : Agrees cache seen { s with store := s.store.erase key } where
  clock := h.clock
  rows := h.rows.erase key
  recency := h.recency.erase key
  gone := by
    intro i q hq hgone
    by_cases hi : i = key
    · rw [hi, hlatest, Option.some.injEq] at hq
      rw [← hq]
      exact .inl hexpired
    · refine h.gone i q hq fun hin => hgone ?_
      obtain ⟨row, hrow, rfl⟩ := List.mem_map.mp hin
      exact List.mem_map_of_mem (List.mem_filter.mpr ⟨hrow, decide_eq_true hi⟩)
  bound := (s.store.erase_length key).trans h.bound

theorem Agrees.advance (h : Agrees cache seen s) (ticks : ℕ) :
    Agrees cache { seen with clock := seen.clock + ticks } { s with clock := s.clock + ticks } where
  clock := congrArg (· + (ticks : ℤ)) h.clock
  rows := h.rows
  recency := h.recency
  gone := by
    intro i q hq hgone
    rcases h.gone i q hq hgone with hexpired | hothers
    · exact .inl (show q.expires_at ≤ s.clock + ticks by omega)
    · exact .inr hothers
  bound := h.bound

/-- **What a read does**: it finds no row, or one that has expired, or the latest put. -/
theorem Agrees.get (h : Agrees cache seen s) (key : String) :
    (key ∉ s.store.rows.map Prod.fst ∧ cache.get s.clock s.store key = (.ok none, s.store)) ∨
    ∃ p, seen.latest key = some p ∧
      ((p.expires_at ≤ s.clock ∧ cache.get s.clock s.store key = (.ok none, s.store.erase key)) ∨
      (s.clock < p.expires_at ∧ ∃ row, Opens cache row p ∧ cache.get s.clock s.store key =
          (.ok (some p.answer), s.store.put cache.max_entries key row))) := by
  unfold EncryptedLruCache.get cache_get
  cases hfind : s.store.find key with
  | none => exact .inl ⟨Lru.find_eq_none.mp hfind, rfl⟩
  | some row =>
      obtain ⟨p, hlatest, hopens⟩ := h.rows.find hfind
      obtain ⟨⟨text, hdecrypt, hvalidate⟩, horigin, hexpires⟩ := hopens
      refine .inr ⟨p, hlatest, ?_⟩
      dsimp only
      split_ifs with hexpired
      · exact .inl ⟨hexpires ▸ hexpired, rfl⟩
      · refine .inr ⟨by omega, row, ⟨⟨text, hdecrypt, hvalidate⟩, horigin, hexpires⟩, ?_⟩
        -- the row only moves, so there is nothing to evict
        have htouch : s.store.touch key = s.store.put cache.max_entries key row := by
          have hlen := (s.store.touch_length key).trans h.bound
          rw [Lru.touch, hfind] at hlen ⊢
          exact (Lru.evict_of_le hlen).symm
        rw [hdecrypt]
        dsimp only
        rw [hvalidate, htouch, horigin]
        rfl

theorem agrees_step {t : CacheState Token} {call : Call} (h : Agrees cache seen s)
    (hstep : cache.step s call = some t) : Agrees cache (cache.observe seen call) t := by
  cases call with
  | put key result ttl_seconds salt origin =>
      rw [EncryptedLruCache.step, Option.some.injEq] at hstep
      rw [← hstep, EncryptedLruCache.observe, EncryptedLruCache.put]
      cases hdump : cache.sealing.model_dump_json result with
      | none => exact h
      | some text =>
          dsimp only
          rw [← h.clock]
          have hput := h.put (fun i => if i = key then
              some ⟨result, origin, seen.clock + ttl_seconds.getD cache.ttl⟩ else seen.latest i)
            (opens_put hdump salt (cache.sealing.size (cache.sealing.encrypt salt text)) _ origin)
            (if_pos rfl) fun i hi => if_neg hi
          rw [h.clock] at hput ⊢
          exact hput
  | get key answer =>
      rw [EncryptedLruCache.step] at hstep
      rw [EncryptedLruCache.observe]
      rcases h.get key with ⟨-, hget⟩ | ⟨p, hlatest, ⟨hexpired, hget⟩ | ⟨hlive, row, hopens, hget⟩⟩
      all_goals
        rw [hget] at hstep
        dsimp only at hstep
        split_ifs at hstep with heq
        rw [Option.some.injEq] at hstep
        rw [← hstep, ← heq]
      · exact h
      · exact h.erase hlatest hexpired
      · exact h.put seen.latest hopens hlatest fun _ _ => rfl
  | advance ticks =>
      rw [EncryptedLruCache.step, Option.some.injEq] at hstep
      rw [← hstep]
      exact h.advance ticks

/-- The cache simulates its history. -/
theorem agrees_of_trace {clock : ℤ} {calls : List Call} (h : (cache.system clock).Trace calls s) :
    Agrees cache (cache.seen clock calls) s := by
  refine h.induct (P := fun calls s => Agrees cache (cache.seen clock calls) s) ?_ ?_
  · intro s hs
    rw [hs]
    exact agrees_start cache clock
  · intro calls s call t _ ih hstep
    rw [seen_snoc]
    exact agrees_step ih hstep

/-- **A bounded cache with expiry.** After any calls a read answers nothing or the latest put
of its key, and that one only before it expires; it does answer it when fewer than
`max_entries` other keys were touched since the key was; and there are at most `max_entries`
rows. -/
theorem cache_simulates_history (cache : EncryptedLruCache Text Token) {clock : ℤ} {calls : List Call}
    {s : CacheState Token} (h : (cache.system clock).Trace calls s) :
    (∀ key, ∃ answer, (cache.get s.clock s.store key).1 = .ok answer ∧
      (∀ found, answer = some found → ∃ p, (cache.seen clock calls).latest key = some p ∧
        s.clock < p.expires_at ∧ found = p.answer) ∧
      ∀ p, (cache.seen clock calls).latest key = some p → s.clock < p.expires_at →
        ((cache.seen clock calls).others key).card < cache.max_entries → answer = some p.answer) ∧
    s.store.rows.length ≤ cache.max_entries := by
  have hagrees := agrees_of_trace h
  refine ⟨fun key => ?_, hagrees.bound⟩
  rcases hagrees.get key with ⟨hnone, hget⟩ | ⟨p, hlatest, ⟨hexpired, hget⟩ | ⟨hlive, row, -, hget⟩⟩
  · -- no row: the key was never put, or its put has expired or was evicted
    refine ⟨none, by rw [hget], fun _ hfound => absurd hfound (by simp), fun q hq hlive hfew => ?_⟩
    rcases hagrees.gone key q hq hnone with hexpired | hothers
    · omega
    · omega
  · refine ⟨none, by rw [hget], fun _ hfound => absurd hfound (by simp), fun q hq hlive _ => ?_⟩
    rw [hlatest, Option.some.injEq] at hq
    rw [← hq] at hlive
    omega
  · refine ⟨some p.answer, by rw [hget], fun found hfound => ?_, fun q hq _ _ => ?_⟩
    · rw [Option.some.injEq] at hfound
      exact ⟨p, hlatest, hlive, hfound.symm⟩
    · rw [hlatest, Option.some.injEq] at hq
      rw [hq]

/-- A cache of two rows that live for ten ticks. -/
def two_rows : EncryptedLruCache PreviewResult PreviewResult where
  sealing := .clear
  max_entries := 2
  ttl := 10

/-- A result to be cached. -/
def preview_of (entry_id : ℤ) : PreviewResult := ⟨entry_id, .text, [], false, "job"⟩

/-- `a` is read before the third key is put, so that `b` goes. -/
def touched_before_third : List Call :=
  [.put "a" (preview_of 1) none 0 .empty, .put "b" (preview_of 2) none 0 .empty, .advance 3,
    .get "a" (some ({ preview_of 1 with cache_hit := true }, .empty)), .put "c" (preview_of 3) (some 60) 0 .empty]

theorem cache_simulates_history_touched : ∃ s, (two_rows.system 0).Trace touched_before_third s ∧
    (two_rows.get s.clock s.store "a").1 = .ok (some ({ preview_of 1 with cache_hit := true }, .empty)) := by
  obtain ⟨s, hrun, hclock⟩ : ∃ s, (two_rows.system 0).run ⟨0, .empty⟩ touched_before_third = some s ∧
      s.clock = 3 := ⟨_, rfl, by decide +kernel⟩
  have htrace : (two_rows.system 0).Trace touched_before_third s := ⟨_, rfl, hrun⟩
  obtain ⟨hreads, -⟩ := cache_simulates_history two_rows htrace
  obtain ⟨answer, hget, -, hlive⟩ := hreads "a"
  refine ⟨s, htrace, ?_⟩
  rw [hget, hlive ⟨preview_of 1, .empty, 10⟩ rfl (by rw [hclock]; decide) (by decide +kernel)]
  rfl

end Fathom.Preview
