/-
**What a preview was rendered from.** Every result the service returns for an entry
with a content hash, in every order of the requests.

The cache is shared by all entries of one hash, so the question is about rows: a row
under the key of `hash` has the bytes of some result already returned for an entry with
this hash (`Inv.cached`). A result read from the cache is then as true as that one was,
and only a fresh render can be the first that is not. The local fetcher hashes what it
reads; the signed pull takes what the agent posts, and the core never hashes it. So a
run is faithful exactly when the bytes behind every fresh result of a pull have the
hash of their entry (`previews_faithful_iff`), and a run of a single-host deployment is
faithful whatever is on its disk (`local_previews_faithful`).
-/
import Fathom.Preview.Service

set_option autoImplicit false

namespace Fathom.Preview

variable {Text Token : Type} {svc : PreviewService Text Token}

/-- The artifacts of a result are what the sandbox made of these bytes. -/
def FromBytes (svc : PreviewService Text Token) (result : PreviewResult) (raw : ByteArray) : Prop :=
  svc.driver raw result.type svc.caps result.sandbox_job_id (.ok result.artifacts) = true

/-- A served result was rendered from bytes that have the hash of its entry. -/
def Faithful (svc : PreviewService Text Token) (v : Served) : Prop :=
  ∀ hash, v.entry.hashed = some hash →
    FromBytes svc v.result v.origin ∧ svc.blake3 v.origin = hash

/-- The bytes behind the result that a step caches and returns are those of its entry,
where they came over the signed pull. -/
def pulled_true (svc : PreviewService Text Token) (s : State Token) : Label → Bool
  | .store r _ =>
    match s.requests r with
    | some ⟨entry, _, .rendered raw result⟩ =>
      match svc.fetcher, entry.hashed, svc.sealing.model_dump_json result with
      | .grant_pull, some hash, some _ => svc.blake3 raw = hash
      | _, _, _ => true
    | _ => true
  | _ => true

/-! ## The invariant -/

/-- What a fetch has established of the bytes of a request. -/
def Vouched (svc : PreviewService Text Token) (entry : ResolvedEntry) (raw : ByteArray) : Prop :=
  svc.fetcher = .local_file → ∀ hash, entry.hashed = some hash → svc.blake3 raw = hash

/-- The phases of a request say where its bytes and its result are from. -/
def RequestOk (svc : PreviewService Text Token) (request : Request) : Prop :=
  match request.phase with
  | .rendering raw _ => Vouched svc request.entry raw
  | .rendered raw result => Vouched svc request.entry raw ∧ FromBytes svc result raw
  | _ => True

/-- A cached row: what it opens to, and the served result its bytes were behind. -/
def RowOk (svc : PreviewService Text Token) (served : List Served) (key : String)
    (row : CacheEntry Token) : Prop :=
  (∃ text result, svc.sealing.decrypt row.ciphertext = some text ∧
    svc.sealing.model_validate_json text = some result ∧ FromBytes svc result row.origin) ∧
  ∃ v ∈ served, v.origin = row.origin ∧ ∃ hash, v.entry.hashed = some hash ∧
    key = svc.cache_key hash

/-- The invariant. -/
structure Inv (svc : PreviewService Text Token) (s : State Token) : Prop where
  requests : ∀ r request, s.requests r = some request → RequestOk svc request
  cached : Lru.All (RowOk svc s.served) s.cache
  rendered : ∀ v ∈ s.served, FromBytes svc v.result v.origin

theorem inv_start (clock : ℤ) : Inv svc (start svc clock) where
  requests := fun r request h => absurd h (by simp [start])
  cached := Lru.all_empty
  rendered := fun v h => absurd h List.not_mem_nil

/-- Rows stay ok while more is served. -/
theorem RowOk.mono {served served' : List Served} (hsub : ∀ v ∈ served, v ∈ served') (key : String)
    (row : CacheEntry Token) (h : RowOk svc served key row) : RowOk svc served' key row := by
  obtain ⟨hopens, v, hv, hrest⟩ := h
  exact ⟨hopens, v, hsub v hv, hrest⟩

/-- One hash, one key. -/
theorem cache_key_injective {hash hash' : String} (h : svc.cache_key hash = svc.cache_key hash') : hash = hash' := by
  unfold PreviewService.cache_key derive_cache_key at h
  have hchars := congrArg String.toList h
  simp only [String.toList_append, List.append_assoc] at hchars
  exact String.toList_inj.mp (List.append_cancel_right hchars)

/-! ## What a step can do -/

/-- A step that returns nothing. -/
structure Quiet (svc : PreviewService Text Token) (s t : State Token) : Prop where
  served : t.served = s.served
  cache : ∀ P : String → CacheEntry Token → Prop, Lru.All P s.cache → Lru.All P t.cache
  size : t.cache.rows.length ≤ s.cache.rows.length
  requests : ∀ r request, t.requests r = some request →
    s.requests r = some request ∨ RequestOk svc request

/-- A step that returns a cached result to an entry of its key. -/
structure Hit (svc : PreviewService Text Token) (s t : State Token) (v : Served) : Prop where
  served : t.served = s.served ++ [v]
  cache : ∀ P : String → CacheEntry Token → Prop, Lru.All P s.cache → Lru.All P t.cache
  size : t.cache.rows.length ≤ s.cache.rows.length
  requests : ∀ r request, t.requests r = some request → s.requests r = some request
  row : ∃ hash row text result, v.entry.hashed = some hash ∧
    s.cache.find (svc.cache_key hash) = some row ∧ v.origin = row.origin ∧
    svc.sealing.decrypt row.ciphertext = some text ∧
    svc.sealing.model_validate_json text = some result ∧
    v.result = { result with cache_hit := true, entry_id := v.entry.entry_id }

/-- A step that returns a fresh result, and caches it where the entry has a hash. -/
structure Fresh (svc : PreviewService Text Token) (s t : State Token) (r : ℕ) (v : Served) :
    Prop where
  served : t.served = s.served ++ [v]
  requests : ∀ r request, t.requests r = some request → s.requests r = some request
  request : ∃ job_id, s.requests r = some ⟨v.entry, job_id, .rendered v.origin v.result⟩
  cache : (v.entry.hashed = none ∧ t.cache = s.cache) ∨
    ∃ hash text salt, v.entry.hashed = some hash ∧
      svc.sealing.model_dump_json v.result = some text ∧
      t.cache = cache_put svc s hash salt text v.origin

theorem upd_none_requests {requests : ℕ → Option Request} {r i : ℕ} {request : Request}
    (h : upd requests r none i = some request) : requests i = some request := by
  by_cases hi : i = r
  · rw [hi, upd_same] at h
    exact absurd h (by simp)
  · rwa [upd_other none hi] at h

theorem upd_some_requests {requests : ℕ → Option Request} {r i : ℕ} {new request : Request}
    (h : upd requests r (some new) i = some request) : requests i = some request ∨ request = new := by
  by_cases hi : i = r
  · rw [hi, upd_same, Option.some.injEq] at h
    exact .inr h.symm
  · rw [upd_other _ hi] at h
    exact .inl h

theorem quiet_finish (s : State Token) (r : ℕ) : Quiet svc s (finish s r) where
  served := rfl
  cache := fun _ h => h
  size := Nat.le_refl _
  requests := fun _ _ h => .inl (upd_none_requests h)

theorem quiet_advance (s : State Token) (r : ℕ) (request : Request) (phase : Phase)
    (hok : RequestOk svc { request with phase }) : Quiet svc s (advance s r request phase) where
  served := rfl
  cache := fun _ h => h
  size := Nat.le_refl _
  requests := by
    intro i request' h
    rcases upd_some_requests h with hold | hnew
    · exact .inl hold
    · exact .inr (hnew ▸ hok)

/-- A step that first does something to the cache. -/
theorem Quiet.with_cache {s t : State Token} {cache : Lru String (CacheEntry Token)}
    (hcache : ∀ P : String → CacheEntry Token → Prop, Lru.All P s.cache → Lru.All P cache)
    (hsize : cache.rows.length ≤ s.cache.rows.length) (h : Quiet svc { s with cache } t) : Quiet svc s t where
  served := h.served
  cache := fun P hP => h.cache P (hcache P hP)
  size := Nat.le_trans h.size hsize
  requests := h.requests

/-- Reading the cache touches and drops rows, and a result it returns is what a row
opens to. -/
theorem cache_get_spec (sealing : Sealing Text Token) (clock : ℤ)
    (cache : Lru String (CacheEntry Token)) (key : String) :
    (∀ P : String → CacheEntry Token → Prop, Lru.All P cache →
      Lru.All P (cache_get sealing clock cache key).2) ∧
    (cache_get sealing clock cache key).2.rows.length ≤ cache.rows.length ∧
    ∀ hit origin, (cache_get sealing clock cache key).1 = .ok (some (hit, origin)) →
      ∃ row text result, cache.find key = some row ∧ origin = row.origin ∧
        sealing.decrypt row.ciphertext = some text ∧
        sealing.model_validate_json text = some result ∧ hit = { result with cache_hit := true } := by
  unfold cache_get
  cases hfind : cache.find key with
  | none => exact ⟨fun _ h => h, Nat.le_refl _, fun _ _ h => absurd h (by simp)⟩
  | some row =>
      dsimp only
      split_ifs with hexpired
      · exact ⟨fun _ h => h.erase key, cache.erase_length key, fun _ _ h => absurd h (by simp)⟩
      cases hdecrypt : sealing.decrypt row.ciphertext with
      | none =>
          have hsize := Nat.le_trans ((cache.touch key).erase_length key) (cache.touch_length key)
          exact ⟨fun _ h => (h.touch key).erase key, hsize, fun _ _ h => absurd h (by simp)⟩
      | some text =>
          cases hvalidate : sealing.model_validate_json text with
          | none =>
              dsimp only
              rw [hvalidate]
              exact ⟨fun _ h => h.touch key, cache.touch_length key, fun _ _ h => absurd h (by simp)⟩
          | some result =>
              dsimp only
              rw [hvalidate]
              refine ⟨fun _ h => h.touch key, cache.touch_length key, ?_⟩
              intro hit origin h
              simp only [Except.ok.injEq, Option.some.injEq, Prod.mk.injEq] at h
              exact ⟨row, text, result, rfl, h.2.symm, hdecrypt, hvalidate, h.1.symm⟩

theorem look_step_spec (s : State Token) (r : ℕ) (request : Request) : Quiet svc s (look_step svc s r request) ∨
      ∃ v, Hit svc s (look_step svc s r request) v := by
  unfold look_step
  cases hhash : request.entry.hashed with
  | none => exact .inl (quiet_advance s r request _ trivial)
  | some hash =>
      obtain ⟨hkeep, hsize, hrow⟩ := cache_get_spec svc.sealing s.clock s.cache (svc.cache_key hash)
      dsimp only
      cases hgot : (cache_get svc.sealing s.clock s.cache (svc.cache_key hash)).1 with
      | error failure => exact .inl ((quiet_finish _ r).with_cache hkeep hsize)
      | ok found =>
          cases found with
          | none => exact .inl ((quiet_advance _ r request .fetching trivial).with_cache hkeep hsize)
          | some hit =>
              obtain ⟨result, origin⟩ := hit
              obtain ⟨row, text, cached, hfind, horigin, hdecrypt, hvalidate, hhit⟩ :=
                hrow result origin hgot
              refine .inr ⟨_, ⟨rfl, hkeep, hsize, fun _ _ h => upd_none_requests h, ?_⟩⟩
              exact ⟨hash, row, text, cached, hhash, hfind, horigin, hdecrypt, hvalidate,
                by rw [hhit]⟩

theorem fetched_step_quiet (s : State Token) (r : ℕ) (request : Request) {fetched : Except Failure ByteArray}
    (hfetched : ∀ raw detected, fetched = .ok raw → admit_bytes svc.max_input_bytes raw = .ok detected →
      Vouched svc request.entry raw) : Quiet svc s (fetched_step svc s r request fetched) := by
  unfold fetched_step
  cases fetched with
  | error failure => exact quiet_finish s r
  | ok raw =>
      dsimp only
      cases hadmit : admit_bytes svc.max_input_bytes raw with
      | error failure => exact quiet_finish s r
      | ok detected => exact quiet_advance s r request _ (hfetched raw detected rfl hadmit)

theorem render_step_quiet (s : State Token) (r : ℕ) {entry : ResolvedEntry} {job_id : String}
    {raw : ByteArray} {detected : SupportedType} {outcome : Except Failure (List PreviewArtifact)}
    (hvouched : Vouched svc entry raw) (hdriver : svc.driver raw detected svc.caps job_id outcome = true) : Quiet svc s
      (render_step s r ⟨entry, job_id, .rendering raw detected⟩ raw detected outcome) := by
  unfold render_step
  cases outcome with
  | error failure => exact quiet_finish s r
  | ok artifacts => exact quiet_advance s r _ _ ⟨hvouched, hdriver⟩

theorem store_step_spec (s : State Token) (r : ℕ) {entry : ResolvedEntry} {job_id : String}
    {raw : ByteArray} {result : PreviewResult} (salt : ℕ)
    (hrequest : s.requests r = some ⟨entry, job_id, .rendered raw result⟩) :
    let t := store_step svc s r ⟨entry, job_id, .rendered raw result⟩ raw result salt
    (Quiet svc s t ∧ entry.hashed.isSome ∧ svc.sealing.model_dump_json result = none) ∨
      Fresh svc s t r ⟨entry, result, raw⟩ := by
  unfold store_step
  dsimp only
  cases hhash : entry.hashed with
  | none =>
      exact .inr ⟨rfl, fun _ _ h => upd_none_requests h, ⟨job_id, hrequest⟩, .inl ⟨hhash, rfl⟩⟩
  | some hash =>
      cases hdump : svc.sealing.model_dump_json result with
      | none => exact .inl ⟨quiet_finish s r, rfl, rfl⟩
      | some text =>
          exact .inr ⟨rfl, fun _ _ h => upd_none_requests h, ⟨job_id, hrequest⟩,
            .inr ⟨hash, text, salt, hhash, hdump, rfl⟩⟩

variable {s t : State Token} {a : Label} {v : Served} {tr : List Label}

/-- Whatever the label, a step returns nothing, or a cached result, or a fresh one; a fresh
one is returned by a `store`, and a `store` that returns nothing could not dump. -/
theorem step_cases (hinv : Inv svc s) (h : step svc s a = some t) :
    (Quiet svc s t ∧ pulled_true svc s a = true) ∨ (∃ v, Hit svc s t v ∧ pulled_true svc s a = true) ∨
    ∃ r salt v, a = .store r salt ∧ Fresh svc s t r v := by
  cases a with
  | submit r entry job_id =>
      simp only [step] at h
      split at h
      · exact absurd h (by simp)
      · rw [Option.some.injEq] at h
        refine .inl ⟨⟨by rw [← h], fun _ hP => by rwa [← h], by rw [← h], ?_⟩, rfl⟩
        rw [← h]
        intro i request hreq
        rcases upd_some_requests hreq with hold | hnew
        · exact .inl hold
        · exact .inr (hnew ▸ trivial)
  | acquire r =>
      simp only [step] at h
      split at h
      · split_ifs at h with hfree
        rw [Option.some.injEq] at h
        have hadvance : Quiet svc { s with free := s.free - 1 } t := by
          rw [← h]
          exact quiet_advance _ r _ _ trivial
        exact .inl ⟨⟨hadvance.served, hadvance.cache, hadvance.size, hadvance.requests⟩, rfl⟩
      · exact absurd h (by simp)
  | shed r =>
      simp only [step] at h
      split at h
      · rw [Option.some.injEq] at h
        rw [← h]
        exact .inl ⟨⟨rfl, fun _ hP => hP, Nat.le_refl _, fun _ _ hreq => .inl (upd_none_requests hreq)⟩, rfl⟩
      · exact absurd h (by simp)
  | look r =>
      simp only [step] at h
      split at h
      · rw [Option.some.injEq] at h
        rw [← h]
        rcases look_step_spec s r _ with hquiet | ⟨v, hhit⟩
        · exact .inl ⟨hquiet, rfl⟩
        · exact .inr (.inl ⟨v, hhit, rfl⟩)
      · exact absurd h (by simp)
  | read r opened =>
      simp only [step] at h
      split at h
      · next entry job_id hfetcher hrequest =>
          rw [Option.some.injEq] at h
          rw [← h]
          refine .inl ⟨fetched_step_quiet s r _ ?_, rfl⟩
          intro raw detected hread hadmit _ hash hhash
          exact local_read_hash svc.blake3 hread (admit_bytes_size hadmit) hhash
      · exact absurd h (by simp)
  | pull r pulled =>
      simp only [step] at h
      split at h
      · next entry job_id hfetcher hrequest =>
          rw [Option.some.injEq] at h
          rw [← h]
          refine .inl ⟨fetched_step_quiet s r _ ?_, rfl⟩
          -- nothing vouches for what an agent posts
          intro raw detected _ _ hlocal
          exact absurd (hfetcher.symm.trans hlocal) (by decide)
      · exact absurd h (by simp)
  | render r outcome =>
      simp only [step] at h
      split at h
      · next entry job_id raw detected hrequest =>
          split_ifs at h with hdriver
          rw [Option.some.injEq] at h
          rw [← h]
          exact .inl ⟨render_step_quiet s r (hinv.requests r _ hrequest) hdriver, rfl⟩
      · exact absurd h (by simp)
  | store r salt =>
      simp only [step] at h
      split at h
      · next entry job_id raw result hrequest =>
          rw [Option.some.injEq] at h
          rw [← h]
          rcases store_step_spec s r salt hrequest with ⟨hquiet, -, hdump⟩ | hfresh
          · refine .inl ⟨hquiet, ?_⟩
            simp only [pulled_true, hrequest, hdump]
            cases svc.fetcher <;> cases entry.hashed <;> rfl
          · exact .inr (.inr ⟨r, salt, _, rfl, hfresh⟩)
      · exact absurd h (by simp)
  | cancel r =>
      simp only [step] at h
      split at h
      · rw [Option.some.injEq] at h
        rw [← h]
        exact .inl ⟨⟨rfl, fun _ hP => hP, Nat.le_refl _, fun _ _ hreq => .inl (upd_none_requests hreq)⟩, rfl⟩
      · rw [Option.some.injEq] at h
        rw [← h]
        exact .inl ⟨quiet_finish s r, rfl⟩
      · exact absurd h (by simp)
  | tick seconds =>
      simp only [step, Option.some.injEq] at h
      rw [← h]
      exact .inl ⟨⟨rfl, fun _ hP => hP, Nat.le_refl _, fun _ _ hreq => .inl hreq⟩, rfl⟩
  | clear =>
      simp only [step, Option.some.injEq] at h
      rw [← h]
      exact .inl ⟨⟨rfl, fun _ _ => Lru.all_empty, Nat.zero_le _, fun _ _ hreq => .inl hreq⟩, rfl⟩

/-! ## Runs -/

/-- A result returned from the cache is as true as the one its row was cached with. -/
theorem Hit.faithful (hhit : Hit svc s t v) (hinv : Inv svc s)
    (hgood : ∀ w ∈ s.served, Faithful svc w) : Faithful svc v := by
  obtain ⟨hash, row, text, result, hhash, hfind, horigin, hdecrypt, hvalidate, hresult⟩ := hhit.row
  obtain ⟨⟨text', result', hdecrypt', hvalidate', hfrom⟩, w, hw, hworigin, hash', hwhash, hkey⟩ :=
    hinv.cached.find hfind
  intro asked hasked
  rw [hhash, Option.some.injEq] at hasked
  constructor
  · rw [hdecrypt, Option.some.injEq] at hdecrypt'
    rw [hdecrypt', hvalidate', Option.some.injEq] at hvalidate
    rw [hvalidate] at hfrom
    rw [horigin, hresult]
    exact hfrom
  · -- one key is one hash, so the row's bytes were served for this hash before
    rw [horigin, ← hworigin, (hgood w hw hash' hwhash).2, ← cache_key_injective hkey, hasked]

/-- What the steps keep. -/
theorem inv_step (hinv : Inv svc s) (h : step svc s a = some t) : Inv svc t := by
  rcases step_cases hinv h with ⟨hquiet, -⟩ | ⟨v, hhit, -⟩ | ⟨r, salt, v, -, hfresh⟩
  · refine ⟨?_, ?_, ?_⟩
    · intro i request hreq
      rcases hquiet.requests i request hreq with hold | hok
      · exact hinv.requests i request hold
      · exact hok
    · rw [hquiet.served]
      exact hquiet.cache _ hinv.cached
    · rw [hquiet.served]
      exact hinv.rendered
  · refine ⟨fun i request hreq => hinv.requests i request (hhit.requests i request hreq), ?_, ?_⟩
    · rw [hhit.served]
      exact (hhit.cache _ hinv.cached).mono (RowOk.mono fun w hw => List.mem_append_left [v] hw)
    · rw [hhit.served]
      intro w hw
      rcases List.mem_append.mp hw with hold | hnew
      · exact hinv.rendered w hold
      · rw [List.mem_singleton] at hnew
        obtain ⟨hash, row, text, result, -, hfind, horigin, hdecrypt, hvalidate, hresult⟩ := hhit.row
        obtain ⟨⟨text', result', hdecrypt', hvalidate', hfrom⟩, -⟩ := hinv.cached.find hfind
        rw [hdecrypt, Option.some.injEq] at hdecrypt'
        rw [hdecrypt', hvalidate', Option.some.injEq] at hvalidate
        rw [hvalidate] at hfrom
        rw [hnew, horigin, hresult]
        exact hfrom
  · obtain ⟨job_id, hrequest⟩ := hfresh.request
    obtain ⟨-, hfrom⟩ := hinv.requests r _ hrequest
    refine ⟨fun i request hreq => hinv.requests i request (hfresh.requests i request hreq), ?_, ?_⟩
    · rw [hfresh.served]
      have hold : Lru.All (RowOk svc (s.served ++ [v])) s.cache :=
        hinv.cached.mono (RowOk.mono fun w hw => List.mem_append_left [v] hw)
      rcases hfresh.cache with ⟨-, hsame⟩ | ⟨hash, text, salt, hhash, hdump, hput⟩
      · rw [hsame]
        exact hold
      · rw [hput]
        refine hold.put svc.max_entries ⟨⟨text, v.result, ?_, ?_, hfrom⟩, ?_⟩
        · exact svc.sealing.decrypt_encrypt salt text
        · exact svc.sealing.validate_dump v.result text hdump
        · exact ⟨v, List.mem_append_right s.served (List.mem_singleton_self v), rfl, hash, hhash, rfl⟩
    · rw [hfresh.served]
      intro w hw
      rcases List.mem_append.mp hw with hold | hnew
      · exact hinv.rendered w hold
      · rw [List.mem_singleton] at hnew
        rw [hnew]
        exact hfrom

/-- A fresh result is faithful exactly when the step that returns it meets the condition. -/
theorem Fresh.faithful_iff {r salt : ℕ} (hfresh : Fresh svc s t r v) (hinv : Inv svc s) :
    Faithful svc v ↔ pulled_true svc s (.store r salt) = true := by
  obtain ⟨job_id, hrequest⟩ := hfresh.request
  obtain ⟨hvouched, hfrom⟩ := hinv.requests r _ hrequest
  rcases hfresh.cache with ⟨hnone, -⟩ | ⟨hash, text, salt', hhash, hdump, -⟩
  · simp [pulled_true, hrequest, hnone, Faithful]
  · cases hfetcher : svc.fetcher with
    | local_file =>
        have htrue := hvouched hfetcher hash hhash
        simp only [pulled_true, hrequest, hfetcher, iff_true]
        intro asked hasked
        rw [hhash, Option.some.injEq] at hasked
        exact ⟨hfrom, htrue.trans hasked⟩
    | grant_pull =>
        simp only [pulled_true, hrequest, hfetcher, hhash, hdump, decide_eq_true_eq]
        constructor
        · intro hfaithful
          exact (hfaithful hash hhash).2
        · intro htrue asked hasked
          rw [hhash, Option.some.injEq] at hasked
          exact ⟨hfrom, htrue.trans hasked⟩

/-- From a faithful state, the steps to a faithful state are those that meet the condition. -/
theorem step_faithful_iff (hinv : Inv svc s) (hgood : ∀ v ∈ s.served, Faithful svc v)
    (h : step svc s a = some t) : (∀ v ∈ t.served, Faithful svc v) ↔ pulled_true svc s a = true := by
  rcases step_cases hinv h with ⟨hquiet, hok⟩ | ⟨v, hhit, hok⟩ | ⟨r, salt, v, ha, hfresh⟩
  · rw [hquiet.served]
    exact ⟨fun _ => hok, fun _ => hgood⟩
  · rw [hhit.served, List.forall_mem_append, List.forall_mem_singleton]
    exact ⟨fun _ => hok, fun _ => ⟨hgood, hhit.faithful hinv hgood⟩⟩
  · rw [hfresh.served, List.forall_mem_append, List.forall_mem_singleton, ha,
      ← hfresh.faithful_iff hinv]
    exact ⟨fun hall => hall.2, fun hv => ⟨hgood, hv⟩⟩

/-- What is served stays served. -/
theorem served_step (hinv : Inv svc s) (h : step svc s a = some t) (hv : v ∈ s.served) :
    v ∈ t.served := by
  rcases step_cases hinv h with ⟨hquiet, -⟩ | ⟨w, hhit, -⟩ | ⟨r, salt, w, -, hfresh⟩
  · rwa [hquiet.served]
  · rw [hhit.served]
    exact List.mem_append_left _ hv
  · rw [hfresh.served]
    exact List.mem_append_left _ hv

theorem served_run (hinv : Inv svc s) (h : (system svc).run s tr = some t) (hv : v ∈ s.served) :
    v ∈ t.served := by
  have hboth := System.run_keeps (S := system svc) (I := fun u => Inv svc u ∧ v ∈ u.served)
    (fun u a w hu hstep => ⟨inv_step hu.1 hstep, served_step hu.1 hstep hu.2⟩) ⟨hinv, hv⟩ h
  exact hboth.2

/-- **Previews and the hashes they are cached under.** A run returns faithful results only,
exactly when every fresh result it caches from a signed pull was rendered from bytes with
the hash of its entry. -/
theorem previews_faithful_iff (svc : PreviewService Text Token) (clock : ℤ) (tr : List Label)
    (s : State Token) (hrun : (system svc).run (start svc clock) tr = some s) :
    (∀ v ∈ s.served, Faithful svc v) ↔
      ((system svc).guard (pulled_true svc)).run (start svc clock) tr = some s := by
  have hiff : (∀ n u, (system svc).run (start svc clock) (tr.take n) = some u →
      ∀ v ∈ u.served, Faithful svc v) ↔
        ((system svc).guard (pulled_true svc)).run (start svc clock) tr = some s := by
    refine System.run_good_iff_guard (S := system svc) (I := Inv svc) ?_ ?_ (inv_start clock) ?_ hrun
    · intro u a w hu hstep
      exact inv_step hu hstep
    · intro u a w hu hgood hstep
      exact step_faithful_iff hu hgood hstep
    · intro v hv
      exact absurd hv List.not_mem_nil
  rw [← hiff]
  constructor
  · intro hall n u hu v hv
    -- what a part of the run has served, the whole run has
    have hsplit : (system svc).run u (tr.drop n) = some s := by
      rw [← List.take_append_drop n tr, System.run_append, hu, Option.bind_some] at hrun
      exact hrun
    have hinv : Inv svc u := System.run_keeps (S := system svc)
      (fun u a w hu hstep => inv_step hu hstep) (inv_start clock) hu
    exact hall v (served_run hinv hsplit hv)
  · intro hall v hv
    exact hall tr.length s (by rw [List.take_length]; exact hrun) v hv

/-! A text of one letter on two hosts: the agent of the first posts another letter for it, and
the second host's entry is answered with that. -/

/-- The letter both entries were catalogued with. -/
def letter : ByteArray := ⟨#[0x61]⟩

/-- What the first agent posts. -/
def other_letter : ByteArray := ⟨#[0x62]⟩

/-- The hash of `letter`. -/
def letter_hash : String := String.ofList (List.replicate 64 'a')

/-- The snippet a sandbox makes of a text. -/
def snippet (raw : ByteArray) : List PreviewArtifact := [⟨.text_snippet, "text/plain", raw, []⟩]

/-- A distributed deployment. -/
def distributed : PreviewService PreviewResult PreviewResult where
  blake3 := fun raw => if raw = letter then letter_hash else String.ofList (List.replicate 64 'b')
  sealing := .clear
  max_entries := 8
  fetcher := .grant_pull
  driver := fun raw _ _ _ outcome => decide (outcome = .ok (snippet raw))
  caps := ⟨1, 2 ^ 29, 10, 50, 2 ^ 20, by decide, by decide, by decide, by decide, by decide⟩
  max_input_bytes := 1024
  cache_ttl := 1800
  max_concurrent := 2

/-- The entry of the file on a host. -/
def letter_on (host_id : ℤ) (host_name : String) : ResolvedEntry :=
  ⟨host_id, host_id, host_id, "/data/letter.txt", 77, some letter_hash, host_name⟩

/-- The previews of both entries, one after the other. -/
def shared_previews (delivered : ByteArray) : List Label :=
  [.submit 0 (letter_on 1 "alpha") "preview-0", .acquire 0, .look 0, .pull 0 (.delivered delivered),
    .render 0 (.ok (snippet delivered)), .store 0 0,
    .submit 1 (letter_on 2 "beta") "preview-1", .acquire 1, .look 1]

theorem shared_previews_served (delivered : ByteArray) (h : delivered = letter ∨ delivered = other_letter) :
    ((system distributed).run (start distributed 0) (shared_previews delivered)).map
        (fun s => s.served.map fun v => (v.entry, v.result.cache_hit, v.origin)) =
      some [(letter_on 1 "alpha", false, delivered), (letter_on 2 "beta", true, delivered)] := by
  rcases h with h | h
  · rw [h]
    decide +kernel
  · rw [h]
    decide +kernel

theorem pulled_preview_not_faithful :
    ∃ s v, (system distributed).run (start distributed 0) (shared_previews other_letter) = some s ∧
      v ∈ s.served ∧ v.entry = letter_on 2 "beta" ∧ v.result.cache_hit = true ∧
      ¬ Faithful distributed v := by
  obtain ⟨s, hs, hserved⟩ := Option.map_eq_some_iff.mp
    (shared_previews_served other_letter (.inr rfl))
  have hmem : (letter_on 2 "beta", true, other_letter) ∈
      s.served.map fun v => (v.entry, v.result.cache_hit, v.origin) := by
    rw [hserved]
    exact List.mem_cons_of_mem _ (List.mem_singleton_self _)
  obtain ⟨v, hv, heq⟩ := List.mem_map.mp hmem
  rw [Prod.mk.injEq, Prod.mk.injEq] at heq
  obtain ⟨hentry, hhit, horigin⟩ := heq
  refine ⟨s, v, hs, hv, hentry, hhit, ?_⟩
  intro hfaithful
  have hhash := (hfaithful letter_hash (by rw [hentry]; decide +kernel)).2
  rw [horigin] at hhash
  exact absurd hhash (by decide +kernel)

theorem previews_faithful_iff_shared :
    ∃ s, (system distributed).run (start distributed 0) (shared_previews letter) = some s ∧
      ((∀ v ∈ s.served, Faithful distributed v) ↔
        ((system distributed).guard (pulled_true distributed)).run (start distributed 0)
          (shared_previews letter) = some s) := by
  obtain ⟨s, hs, -⟩ := Option.map_eq_some_iff.mp (shared_previews_served letter (.inl rfl))
  exact ⟨s, hs, previews_faithful_iff distributed 0 (shared_previews letter) s hs⟩

/-- Where the files are read off the local disk, every run is faithful. -/
theorem local_previews_faithful (hlocal : svc.fetcher = .local_file) {clock : ℤ}
    (hrun : (system svc).run (start svc clock) tr = some s) : ∀ v ∈ s.served, Faithful svc v := by
  have hboth := System.run_keeps (S := system svc) (I := fun u => Inv svc u ∧ ∀ v ∈ u.served, Faithful svc v) ?_
    ⟨inv_start clock, fun v hv => absurd hv List.not_mem_nil⟩ hrun
  · exact hboth.2
  · rintro u a w ⟨hinv, hgood⟩ hstep
    refine ⟨inv_step hinv hstep, (step_faithful_iff hinv hgood hstep).mpr ?_⟩
    unfold pulled_true
    split
    · split
      · rw [hlocal]
      · rfl
    · rfl

/-- A single-host deployment. -/
def local_host : PreviewService PreviewResult PreviewResult := { distributed with fetcher := .local_file }

theorem local_previews_faithful_letter :
    ∃ s, (system local_host).run (start local_host 0) [.submit 0 (letter_on 1 "alpha") "preview-0", .acquire 0, .look 0,
      .read 0 (some ⟨77, [some letter]⟩), .render 0 (.ok (snippet letter)), .store 0 0] = some s ∧
      ∀ v ∈ s.served, Faithful local_host v :=
  (Option.isSome_iff_exists.mp (by decide +kernel)).imp fun _ hs => ⟨hs, local_previews_faithful rfl hs⟩

end Fathom.Preview
