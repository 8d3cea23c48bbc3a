/-
**Previews** (`preview/service.py`, `preview/cache.py`, `preview/local_fetch.py`,
`preview/pull.py`, `workers/preview.py`): the type sniffing, the two fetchers, and the
steps of the requests that are being rendered.

`PreviewService.render` suspends at the cache, at the fetch, at the sandbox and at the
cache again, and other requests run meanwhile, so a request is in one of these phases
and every stretch between two of them is one step. What comes from outside is in the
label of the step: what an `open` found, what an agent delivered, what the sandbox
came back with.

A cached row and a served result carry the bytes they were rendered from (`origin`).
The program has no such field and no step reads it.
-/
import Fathom.Agent.Walk
import Fathom.Lib.Lru
import Fathom.Lib.System

set_option autoImplicit false

namespace Fathom.Preview

scoped instance bytes_decidable_eq : DecidableEq ByteArray := ByteArray.instDecidableEq

/-! ## Types -/

/-- `SupportedType`. -/
inductive SupportedType where
  | image
  | pdf
  | office
  | text
  | code
  | markdown
  deriving DecidableEq, Repr

/-- `ArtifactKind`. -/
inductive ArtifactKind where
  | thumbnail
  | page_raster
  | text_snippet
  | code_render
  deriving DecidableEq

/-- A value of an artifact's `meta`. -/
inductive MetaValue where
  | str (text : String)
  | int (value : ℤ)
  | bool (value : Bool)
  deriving DecidableEq

/-- `PreviewArtifact`. -/
structure PreviewArtifact where
  kind : ArtifactKind
  media_type : String
  data : ByteArray
  metadata : List (String × MetaValue)
  deriving DecidableEq

/-- `PreviewResult`. -/
structure PreviewResult where
  entry_id : ℤ
  type : SupportedType
  artifacts : List PreviewArtifact
  cache_hit : Bool
  sandbox_job_id : String
  deriving DecidableEq

/-- `ResourceCaps`. -/
structure ResourceCaps where
  cpu : ℚ
  mem_bytes : ℕ
  time_s : ℚ
  max_pages : ℕ
  max_decompressed_bytes : ℕ
  cpu_pos : 0 < cpu
  mem_bytes_ge : 64 * 1024 * 1024 ≤ mem_bytes
  time_s_pos : 0 < time_s
  max_pages_ge : 1 ≤ max_pages
  max_decompressed_bytes_ge : 1024 * 1024 ≤ max_decompressed_bytes

/-- What ends a request without a result. -/
inductive Failure where
  /-- `PreviewError` -/
  | preview (reason : String) (status_code : ℕ)
  /-- any other exception -/
  | unhandled
  deriving DecidableEq

/-- `_IMAGE_MAGIC`. -/
def image_magic : List (List UInt8) :=
  [[0xff, 0xd8, 0xff], [0x89, 0x50, 0x4e, 0x47, 0x0d, 0x0a, 0x1a, 0x0a],
    [0x47, 0x49, 0x46, 0x38, 0x37, 0x61], [0x47, 0x49, 0x46, 0x38, 0x39, 0x61], [0x42, 0x4d],
    [0x49, 0x49, 0x2a, 0x00], [0x4d, 0x4d, 0x00, 0x2a]]

/-- `_PDF_MAGIC`. -/
def pdf_magic : List UInt8 := [0x25, 0x50, 0x44, 0x46, 0x2d]

/-- `_ZIP_MAGIC`. -/
def zip_magic : List UInt8 := [0x50, 0x4b, 0x03, 0x04]

/-- `_OLE2_MAGIC`. -/
def ole2_magic : List UInt8 := [0xd0, 0xcf, 0x11, 0xe0, 0xa1, 0xb1, 0x1a, 0xe1]

/-- `_looks_like_text`. The head has at most 4096 bytes, so the quotient of floats is
above `0.85` exactly when the fraction is above `17/20`. -/
def looks_like_text (head : List UInt8) : Bool :=
  if head = [] then false
  else if (0 : UInt8) ∈ head then false
  else
    let printable := head.countP fun b => b ∈ [9, 10, 13] ∨ (32 ≤ b ∧ b ≤ 126) ∨ 128 ≤ b
    decide (17 * head.length < 20 * printable)

/-- `detect_type`. -/
def detect_type (head : List UInt8) : Option SupportedType :=
  if image_magic.any fun magic => magic.isPrefixOf head then some .image
  else if pdf_magic.isPrefixOf head then some .pdf
  else if ole2_magic.isPrefixOf head || zip_magic.isPrefixOf head then some .office
  else if looks_like_text head then some .text
  else none

/-- `_SNIFF_BYTES`. -/
def sniff_bytes : ℕ := 4096

/-- `ResolvedEntry`, as the catalogue has it. -/
structure ResolvedEntry where
  entry_id : ℤ
  host_id : ℤ
  volume_id : ℤ
  path : String
  inode : ℤ
  content_hash : Option String
  host_name : String
  deriving DecidableEq

/-- `if entry.content_hash:`. The catalogue takes hashes of 64 hexadecimal digits, so an
entry that has one passes. -/
def ResolvedEntry.hashed (entry : ResolvedEntry) : Option String :=
  entry.content_hash.filter fun hash => hash ≠ ""

/-! ## The fetchers -/

section Fetch

variable (blake3 : ByteArray → String)

/-- A file `os.open` has opened: what `fstat` says, and what every `os.read` returns
until the end of the file; `none` is a read that fails. -/
structure Opened where
  st_ino : UInt64
  reads : List (Option ByteArray)
  deriving DecidableEq

/-- The read loop of `_read`, with `remaining` bytes still wanted. -/
def read_loop : ℕ → List (Option ByteArray) → Option ByteArray
  | _, [] => some ByteArray.empty
  | remaining, read :: reads =>
    if remaining = 0 then some ByteArray.empty
    else
      match read with
      | none => none
      | some bytes =>
        let block := bytes.extract 0 (min (2 ^ 20) remaining)
        if block.size = 0 then some ByteArray.empty
        else (read_loop (remaining - block.size) reads).map fun rest => block ++ rest

/-- `LocalFileFetcher._read`, where `os.open` came to `opened`. -/
def local_read (entry : ResolvedEntry) (max_bytes : ℕ) (opened : Option Opened) :
    Except Failure ByteArray :=
  if entry.inode = 0 then .error (.preview "preview file has no inode anchor" 409)
  else
    match opened with
    | none => .error (.preview "preview file unavailable" 404)
    | some file =>
      if Agent.to_signed64 file.st_ino ≠ entry.inode then
        .error (.preview "preview file changed since catalogue (inode mismatch)" 409)
      else
        match read_loop (max_bytes + 1) file.reads with
        | none => .error .unhandled
        | some data =>
          match entry.hashed with
          | none => .ok data
          | some hash =>
            if data.size ≤ max_bytes ∧ blake3 data ≠ hash then
              .error (.preview "preview file content changed since catalogue (hash mismatch)" 409)
            else .ok data

/-- What comes of `enqueue_and_wait`. -/
inductive Pulled where
  /-- the bytes some agent posted -/
  | delivered (data : ByteArray)
  /-- `PreviewPullError` -/
  | incomplete
  /-- any other exception, the grant's own checks among them -/
  | raised
  deriving DecidableEq

/-- `GrantPullFetcher.fetch`. -/
def grant_fetch : Pulled → Except Failure ByteArray
  | .delivered data => .ok data
  | .incomplete => .error (.preview "preview file pull did not complete" 504)
  | .raised => .error .unhandled

/-- `PreviewService.render`, from the fetched bytes to the sandbox. -/
def admit_bytes (max_input_bytes : ℕ) (raw : ByteArray) : Except Failure SupportedType :=
  if raw.size > max_input_bytes then .error (.preview "file exceeds preview input cap" 413)
  else
    match detect_type (raw.data.toList.take sniff_bytes) with
    | none => .error (.preview "unsupported preview type" 415)
    | some detected => .ok detected

/-- What the local fetcher hands on within the cap has the hash of its entry. -/
theorem local_read_hash {entry : ResolvedEntry} {max_bytes : ℕ} {opened : Option Opened}
    {raw : ByteArray} (hread : local_read blake3 entry max_bytes opened = .ok raw)
    (hsize : raw.size ≤ max_bytes) {hash : String} (hhash : entry.hashed = some hash) : blake3 raw = hash := by
  unfold local_read at hread
  split_ifs at hread with hinode
  cases opened with
  | none => exact absurd hread (by simp)
  | some file =>
      dsimp only at hread
      split_ifs at hread with hino
      rw [hhash] at hread
      cases hloop : read_loop (max_bytes + 1) file.reads with
      | none =>
          rw [hloop] at hread
          exact absurd hread (by simp)
      | some data =>
          rw [hloop] at hread
          dsimp only at hread
          split_ifs at hread with hmismatch
          rw [Except.ok.injEq] at hread
          rw [hread] at hmismatch
          by_contra hne
          exact hmismatch ⟨hsize, hne⟩

theorem admit_bytes_size {max_input_bytes : ℕ} {raw : ByteArray} {detected : SupportedType}
    (h : admit_bytes max_input_bytes raw = .ok detected) : raw.size ≤ max_input_bytes := by
  unfold admit_bytes at h
  split_ifs at h with hsize
  omega

end Fetch

/-! ## The service -/

/-- `model_dump_json`, `Fernet` and their inverses. A dump may fail; a key that was
rotated away makes a decryption fail, which is not modelled: the key of a process is
fixed. -/
structure Sealing (Text Token : Type) where
  model_dump_json : PreviewResult → Option Text
  model_validate_json : Text → Option PreviewResult
  encrypt : ℕ → Text → Token
  decrypt : Token → Option Text
  size : Token → ℕ
  validate_dump : ∀ result text, model_dump_json result = some text →
    model_validate_json text = some result
  decrypt_encrypt : ∀ salt text, decrypt (encrypt salt text) = some text

/-- A sealing that leaves the results as they are. -/
def Sealing.clear : Sealing PreviewResult PreviewResult where
  model_dump_json := some
  model_validate_json := some
  encrypt := fun _ text => text
  decrypt := some
  size := fun _ => 1
  validate_dump := fun _ _ h => h.symm
  decrypt_encrypt := fun _ _ => rfl

/-- Which fetcher the deployment was built with. -/
inductive Fetcher where
  /-- `build_local_preview_runtime` -/
  | local_file
  /-- `build_distributed_preview_runtime` -/
  | grant_pull
  deriving DecidableEq

/-- `PreviewService` and the `PreviewQueue` before it. -/
structure PreviewService (Text Token : Type) where
  blake3 : ByteArray → String
  sealing : Sealing Text Token
  max_entries : ℕ
  fetcher : Fetcher
  /-- whether `SandboxDriver.run` on these bytes may come to this -/
  driver : ByteArray → SupportedType → ResourceCaps → String →
    Except Failure (List PreviewArtifact) → Bool
  caps : ResourceCaps
  max_input_bytes : ℕ
  cache_ttl : ℤ
  max_concurrent : ℕ

/-- `_Entry`, and the bytes it was rendered from. -/
structure CacheEntry (Token : Type) where
  ciphertext : Token
  expires_at : ℤ
  size : ℕ
  origin : ByteArray

/-- `derive_cache_key`. -/
def derive_cache_key (content_hash render_params : String) : String :=
  content_hash ++ ":" ++ render_params

/-- Where a request stands in `submit` and `render`. -/
inductive Phase where
  /-- it waits for a slot of the queue -/
  | queued
  /-- it reads the cache -/
  | looking
  /-- it waits for the bytes -/
  | fetching
  /-- its bytes are in the sandbox -/
  | rendering (raw : ByteArray) (detected : SupportedType)
  /-- its result is to be cached and returned -/
  | rendered (raw : ByteArray) (result : PreviewResult)
  deriving DecidableEq

/-- A request being served. -/
structure Request where
  entry : ResolvedEntry
  job_id : String
  phase : Phase
  deriving DecidableEq

/-- A result `render` has returned, the entry it was asked for, and the bytes it was
rendered from. -/
structure Served where
  entry : ResolvedEntry
  result : PreviewResult
  origin : ByteArray

/-- The process: the cache, its clock, the free slots of the queue, the requests by
number, and what was served so far. -/
structure State (Token : Type) where
  cache : Lru String (CacheEntry Token)
  clock : ℤ
  free : ℕ
  requests : ℕ → Option Request
  served : List Served

/-- The requests with one of them changed. -/
def upd (requests : ℕ → Option Request) (r : ℕ) (request : Option Request) :
    ℕ → Option Request :=
  fun i => if i = r then request else requests i

@[simp] theorem upd_same (requests : ℕ → Option Request) (r : ℕ) (request : Option Request) :
    upd requests r request r = request := by
  rw [upd, if_pos rfl]

theorem upd_other {requests : ℕ → Option Request} {r i : ℕ} (request : Option Request)
    (h : i ≠ r) : upd requests r request i = requests i := by
  rw [upd, if_neg h]

/-- What can happen. -/
inductive Label where
  /-- a request for `entry` comes in, as number `r` -/
  | submit (r : ℕ) (entry : ResolvedEntry) (job_id : String)
  /-- request `r` gets a slot of the queue -/
  | acquire (r : ℕ)
  /-- request `r` has waited too long for one -/
  | shed (r : ℕ)
  /-- request `r` reads the cache -/
  | look (r : ℕ)
  /-- the local fetcher has opened and read the file of `r` -/
  | read (r : ℕ) (opened : Option Opened)
  /-- the pull of `r` has ended -/
  | pull (r : ℕ) (pulled : Pulled)
  /-- the sandbox of `r` has ended -/
  | render (r : ℕ) (outcome : Except Failure (List PreviewArtifact))
  /-- request `r` caches its result, if it has a key, and returns -/
  | store (r : ℕ) (salt : ℕ)
  /-- request `r` is cancelled -/
  | cancel (r : ℕ)
  /-- time passes -/
  | tick (seconds : ℕ)
  /-- `EncryptedLruCache.clear` -/
  | clear

variable {Text Token : Type}

/-- `_render_params`. -/
def PreviewService.render_params (svc : PreviewService Text Token) : String :=
  s!"v1:pages={svc.caps.max_pages}"

/-- The cache key of `render`. -/
def PreviewService.cache_key (svc : PreviewService Text Token) (hash : String) : String :=
  derive_cache_key hash svc.render_params

/-- `EncryptedLruCache.get` after its lock: what it returns, and the cache after it. An
exception of the validation ends the request. -/
def cache_get (sealing : Sealing Text Token) (clock : ℤ) (cache : Lru String (CacheEntry Token))
    (key : String) :
    Except Failure (Option (PreviewResult × ByteArray)) × Lru String (CacheEntry Token) :=
  match cache.find key with
  | none => (.ok none, cache)
  | some row =>
    if row.expires_at ≤ clock then (.ok none, cache.erase key)
    else
      match sealing.decrypt row.ciphertext with
      | none => (.ok none, (cache.touch key).erase key)
      | some plaintext =>
        match sealing.model_validate_json plaintext with
        | none => (.error .unhandled, cache.touch key)
        | some result => (.ok (some ({ result with cache_hit := true }, row.origin)), cache.touch key)

/-- Request `r` ends, and its slot is free. -/
def finish (s : State Token) (r : ℕ) : State Token :=
  { s with requests := upd s.requests r none, free := s.free + 1 }

/-- Request `r` returns a result. -/
def serve (s : State Token) (r : ℕ) (served : Served) : State Token :=
  { finish s r with served := s.served ++ [served] }

/-- Request `r` goes on to a phase. -/
def advance (s : State Token) (r : ℕ) (request : Request) (phase : Phase) : State Token :=
  { s with requests := upd s.requests r (some { request with phase }) }

/-- `render`, where the fetch came to `fetched`. -/
def fetched_step (svc : PreviewService Text Token) (s : State Token) (r : ℕ) (request : Request)
    (fetched : Except Failure ByteArray) : State Token :=
  match fetched with
  | .error _ => finish s r
  | .ok raw =>
    match admit_bytes svc.max_input_bytes raw with
    | .error _ => finish s r
    | .ok detected => advance s r request (.rendering raw detected)

/-- The cache read of `render`. -/
def look_step (svc : PreviewService Text Token) (s : State Token) (r : ℕ) (request : Request) :
    State Token :=
  match request.entry.hashed with
  | none => advance s r request .fetching
  | some hash =>
    let got := cache_get svc.sealing s.clock s.cache (svc.cache_key hash)
    let s := { s with cache := got.2 }
    match got.1 with
    | .error _ => finish s r
    | .ok none => advance s r request .fetching
    | .ok (some (hit, origin)) =>
      serve s r ⟨request.entry, { hit with entry_id := request.entry.entry_id }, origin⟩

/-- `render` from the sandbox's return to its cache write. -/
def render_step (s : State Token) (r : ℕ) (request : Request) (raw : ByteArray)
    (detected : SupportedType) (outcome : Except Failure (List PreviewArtifact)) : State Token :=
  match outcome with
  | .error _ => finish s r
  | .ok artifacts =>
    advance s r request (.rendered raw
      { entry_id := request.entry.entry_id, type := detected, artifacts, cache_hit := false
        sandbox_job_id := request.job_id })

/-- `EncryptedLruCache.put`, where the dump succeeds. -/
def cache_put (svc : PreviewService Text Token) (s : State Token) (hash : String) (salt : ℕ)
    (text : Text) (origin : ByteArray) : Lru String (CacheEntry Token) :=
  let ciphertext := svc.sealing.encrypt salt text
  s.cache.put svc.max_entries (svc.cache_key hash)
    ⟨ciphertext, s.clock + svc.cache_ttl, svc.sealing.size ciphertext, origin⟩

/-- The cache write of `render`, and its return. -/
def store_step (svc : PreviewService Text Token) (s : State Token) (r : ℕ) (request : Request)
    (raw : ByteArray) (result : PreviewResult) (salt : ℕ) : State Token :=
  match request.entry.hashed with
  | none => serve s r ⟨request.entry, result, raw⟩
  | some hash =>
    match svc.sealing.model_dump_json result with
    | none => finish s r
    | some text =>
      serve { s with cache := cache_put svc s hash salt text raw } r ⟨request.entry, result, raw⟩

/-- One step of the process. -/
def step (svc : PreviewService Text Token) (s : State Token) : Label → Option (State Token)
  | .submit r entry job_id =>
    match s.requests r with
    | some _ => none
    | none => some { s with requests := upd s.requests r (some ⟨entry, job_id, .queued⟩) }
  | .acquire r =>
    match s.requests r with
    | some ⟨entry, job_id, .queued⟩ =>
      if s.free = 0 then none
      else some (advance { s with free := s.free - 1 } r ⟨entry, job_id, .queued⟩ .looking)
    | _ => none
  | .shed r =>
    match s.requests r with
    | some ⟨_, _, .queued⟩ => some { s with requests := upd s.requests r none }
    | _ => none
  | .look r =>
    match s.requests r with
    | some ⟨entry, job_id, .looking⟩ => some (look_step svc s r ⟨entry, job_id, .looking⟩)
    | _ => none
  | .read r opened =>
    match svc.fetcher, s.requests r with
    | .local_file, some ⟨entry, job_id, .fetching⟩ =>
      some (fetched_step svc s r ⟨entry, job_id, .fetching⟩
        (local_read svc.blake3 entry svc.max_input_bytes opened))
    | _, _ => none
  | .pull r pulled =>
    match svc.fetcher, s.requests r with
    | .grant_pull, some ⟨entry, job_id, .fetching⟩ =>
      some (fetched_step svc s r ⟨entry, job_id, .fetching⟩ (grant_fetch pulled))
    | _, _ => none
  | .render r outcome =>
    match s.requests r with
    | some ⟨entry, job_id, .rendering raw detected⟩ =>
      if svc.driver raw detected svc.caps job_id outcome then
        some (render_step s r ⟨entry, job_id, .rendering raw detected⟩ raw detected outcome)
      else none
    | _ => none
  | .store r salt =>
    match s.requests r with
    | some ⟨entry, job_id, .rendered raw result⟩ =>
      some (store_step svc s r ⟨entry, job_id, .rendered raw result⟩ raw result salt)
    | _ => none
  | .cancel r =>
    match s.requests r with
    | some ⟨_, _, .queued⟩ => some { s with requests := upd s.requests r none }
    | some _ => some (finish s r)
    | none => none
  | .tick seconds => some { s with clock := s.clock + seconds }
  | .clear => some { s with cache := Lru.empty }

/-- A process that has served nothing. -/
def start (svc : PreviewService Text Token) (clock : ℤ) : State Token where
  cache := Lru.empty
  clock := clock
  free := svc.max_concurrent
  requests := fun _ => none
  served := []

/-- The preview process. -/
def system (svc : PreviewService Text Token) : System (State Token) Label where
  init := fun s => ∃ clock, s = start svc clock
  step := step svc

end Fathom.Preview
