/-
**The full-bit pass** (`agent/reader/fullbit.py`): the funnel of `core/dedup.py`, taken one
size at a time, that stages a hash for every file it reads in full.

Unlike the one-shot search it drops no file for its full hash: that is left to the core.
A file that cannot be read any more is passed over. The batches bound what is hashed at
once; put together they are the group (`flatten_chunked`).
-/
import Fathom.Agent.Commute
import Fathom.Dedup.Find

set_option autoImplicit false

namespace Fathom.Agent

open Fathom.Ingest (Identity Mode VolumeFrame)
open Fathom.Dedup
open Staging (set_hash)

/-! ## The funnel -/

def DEFAULT_HASH_BATCH : ℕ := 64

/-- `_chunked`. -/
def chunked {α : Type} (size : ℕ) (seq : List α) : List (List α) :=
  (List.range ((seq.length + size - 1) / size)).map fun i => (seq.drop (size * i)).take size

/-- What `_hash_batch` returns for the batches of some candidates, without those that could
not be read. -/
def hash_batches (hash : Candidate Int → Option String) (seq : List (Candidate Int)) : List (Candidate Int × String) :=
  (chunked DEFAULT_HASH_BATCH seq).flatMap fun batch =>
    (batch.zip (batch.map hash)).filterMap fun (cand, digest) => digest.map fun d => (cand, d)

/-- A file that is staged, with its hashes. -/
structure Staged where
  cand : Candidate Int
  partial_hash : String
  full_hash : String
  deriving DecidableEq

/-- What one group adds to the result. -/
structure Funnelled where
  partial_hashed : ℕ
  staged : List Staged

/-- `_funnel_group`. -/
def funnel_group (hasher : Hasher) (sized : List (Candidate Int)) : Funnelled :=
  match sized with
  | first :: _ :: _ =>
    let size := first.size
    let partials := hash_batches (fun c => hasher.partial_hash c.path size) sized
    let by_partial := partials.foldl (fun d p => append_to p.2 p.1 d) []
    { partial_hashed := partials.length
      staged := by_partial.flatMap fun (partial_digest, partial_members) =>
        if partial_members.length < 2 then []
        else
          (hash_batches (fun c => hasher.full_hash c.path) partial_members).map fun (cand, full_digest) =>
            ⟨cand, partial_digest, full_digest⟩ }
  | _ => ⟨0, []⟩

/-! ## The pass -/

/-- What `scan_grouped` raises. -/
inductive FullBitError where
  | AcknowledgementRequired
  | FullBitBlocked
  /-- a statement of the staging store fails -/
  | database
  deriving DecidableEq, Repr

/-- `FullBitResult`. -/
structure FullBitResult where
  run_id : ℕ
  scope_root : String
  candidates : ℕ
  partial_hashed : ℕ
  full_hashed : ℕ
  staged : ℕ
  hashed_keys : List (String × String × Int)
  deriving DecidableEq

/-- What is staged of a file. -/
def Staged.hash (x : Staged) : Identity × String × String := (⟨x.cand.dev, x.cand.id⟩, x.partial_hash, x.full_hash)

section

variable (config : AgentConfig) (hasher : Hasher) (volume : VolumeFrame)

/-- `FullBitScanner.scan_grouped`: `blocked` is what the supervisor says, `ack` the mode of
the acknowledgement if there is one. -/
def scan_grouped (scope_root : String) (groups : List (List (Candidate Int))) (ack : Option Mode) (blocked : Bool)
    (finished_at : ℚ) (s : Staging) : Except FullBitError (Staging × FullBitResult) :=
  if ack ≠ some .fullbit then .error .AcknowledgementRequired
  else if blocked then .error .FullBitBlocked
  else
    let funnelled := groups.map (funnel_group hasher)
    let staged := funnelled.flatMap Funnelled.staged
    match fullbit_scan config volume ⟨staged.map Staged.hash, finished_at⟩ s with
    | none => .error .database
    | some s' =>
      .ok (s',
        { run_id := s.next_run
          scope_root := scope_root
          candidates := (groups.map List.length).sum
          partial_hashed := (funnelled.map Funnelled.partial_hashed).sum
          full_hashed := staged.length
          staged := staged.length
          hashed_keys := staged.map fun x => (config.host_id, volume.mountpoint, x.cand.id) })

/-- The groups that `scan` makes of its candidates. -/
def size_buckets (candidates : List (Candidate Int)) : List (List (Candidate Int)) :=
  (buckets Candidate.size (candidates.filter fun c => 0 < c.size)).map Prod.snd

/-- `FullBitScanner.scan`. -/
def fullbit_pass (scope_root : String) (candidates : List (Candidate Int)) (ack : Option Mode) (blocked : Bool)
    (finished_at : ℚ) (s : Staging) : Except FullBitError (Staging × FullBitResult) :=
  scan_grouped config hasher volume scope_root (size_buckets candidates) ack blocked finished_at s

end

/-! ## What is staged -/

/-- **No file is lost between two batches.** -/
theorem flatten_chunked {α : Type} {size : ℕ} (hpos : 0 < size) (seq : List α) : (chunked size seq).flatten = seq := by
  have htake : ∀ n, ((List.range n).map fun i => (seq.drop (size * i)).take size).flatten = seq.take (size * n) := by
    intro n
    induction n with
    | zero => rw [Nat.mul_zero, List.take_zero]; rfl
    | succ n ih =>
        rw [List.range_succ, List.map_append, List.flatten_append, ih, List.map_singleton, List.flatten_singleton,
          Nat.mul_succ, List.take_add]
  rw [chunked, htake]
  refine List.take_of_length_le ?_
  have hceil := Nat.lt_mul_div_succ (seq.length + size - 1) hpos
  rw [Nat.mul_succ] at hceil
  omega

theorem hash_batches_eq {hash : Candidate Int → Option String} {digest : Candidate Int → String}
    {seq : List (Candidate Int)} (h : ∀ c ∈ seq, hash c = some (digest c)) :
    hash_batches hash seq = seq.map fun c => (c, digest c) := by
  have hbatch : ∀ batch : List (Candidate Int), (∀ c ∈ batch, hash c = some (digest c)) →
      ((batch.zip (batch.map hash)).filterMap fun (cand, digest) => digest.map fun d => (cand, d))
        = batch.map fun c => (c, digest c) := by
    intro batch hread
    induction batch with
    | nil => rfl
    | cons c batch ih =>
        rw [List.map_cons, List.zip_cons_cons, List.filterMap_cons, hread c List.mem_cons_self, List.map_cons,
          ih fun c' hc' => hread c' (List.mem_cons_of_mem _ hc')]
        rfl
  have hflat := flatten_chunked (show 0 < DEFAULT_HASH_BATCH by decide) seq
  rw [hash_batches]
  conv_rhs => rw [← hflat, List.map_flatten, ← List.flatMap_def]
  refine List.flatMap_congr fun batch hmem => hbatch batch fun c hc => h c ?_
  rw [← hflat]
  exact List.mem_flatten.mpr ⟨batch, hmem, hc⟩

section

variable {config : AgentConfig} {blake3 : ByteArray → String} {files : Files} {volume : VolumeFrame}

/-- The partial digest of a candidate of a static set. -/
def partial_of (blake3 : ByteArray → String) (files : Files) (c : Candidate Int) : String := blake3 (sample c.size (content files c))

/-- The full digest. -/
def full_of (blake3 : ByteArray → String) (files : Files) (c : Candidate Int) : String := blake3 (content files c)

/-- **A group stages the files that share their partial digest** with another one of it,
each with its own digests. -/
theorem mem_funnel_group {sized : List (Candidate Int)} (hstatic : Static files sized)
    (hsize : ∀ c ∈ sized, ∀ c' ∈ sized, c.size = c'.size) {x : Staged} :
    x ∈ (funnel_group (backend_hasher blake3 files) sized).staged ↔
      x.cand ∈ sized ∧ 2 ≤ (under (partial_of blake3 files) sized (partial_of blake3 files x.cand)).length ∧
        x.partial_hash = partial_of blake3 files x.cand ∧ x.full_hash = full_of blake3 files x.cand := by
  rcases sized with _ | ⟨first, _ | ⟨second, others⟩⟩
  · exact iff_of_false List.not_mem_nil fun h => absurd h.1 List.not_mem_nil
  · refine iff_of_false List.not_mem_nil fun h => ?_
    have hle := Nat.le_trans h.2.1 (List.length_filter_le _ _)
    rw [List.length_singleton] at hle
    omega
  · generalize hseq : first :: second :: others = seq at *
    have hpartial : ∀ c ∈ seq, (backend_hasher blake3 files).partial_hash c.path first.size
        = some (partial_of blake3 files c) := by
      intro c hc
      show partial_digest blake3 files c.path first.size = _
      rw [partial_digest, (hstatic c hc).1, hsize first (hseq ▸ List.mem_cons_self) c hc]
      rfl
    have hfull : ∀ c ∈ seq, (backend_hasher blake3 files).full_hash c.path = some (full_of blake3 files c) := by
      intro c hc
      show full_digest blake3 files c.path = _
      rw [full_digest_eq, (hstatic c hc).1]
      rfl
    have hdict : (hash_batches (fun c => (backend_hasher blake3 files).partial_hash c.path first.size) seq).foldl
        (fun d p => append_to p.2 p.1 d) [] = buckets (partial_of blake3 files) seq := by
      rw [hash_batches_eq hpartial, List.foldl_map]
      rfl
    have hfilled := buckets_filled (partial_of blake3 files) seq
    have hstaged : (funnel_group (backend_hasher blake3 files) seq).staged
        = (buckets (partial_of blake3 files) seq).flatMap fun b =>
            if b.2.length < 2 then []
            else (hash_batches (fun c => (backend_hasher blake3 files).full_hash c.path) b.2).map fun p => ⟨p.1, b.1, p.2⟩ := by
      rw [← hdict, ← hseq]
      rfl
    rw [hstaged, List.mem_flatMap]
    constructor
    · rintro ⟨b, hb, hx⟩
      have hlist := hfilled.list b hb
      split at hx
      · exact absurd hx List.not_mem_nil
      · rename_i hcrowd
        rw [hash_batches_eq fun c hc => hfull c (mem_under.mp (hlist ▸ hc)).1, List.map_map] at hx
        obtain ⟨c, hc, rfl⟩ := List.mem_map.mp hx
        obtain ⟨hmem, hkey⟩ := mem_under.mp (hlist ▸ hc)
        refine ⟨hmem, ?_, hkey.symm, rfl⟩
        dsimp only [Function.comp_apply]
        rw [hkey, ← hlist]
        omega
    · rintro ⟨hmem, hcrowd, hpartial_hash, hfull_hash⟩
      obtain ⟨b, hb, hkey⟩ := List.mem_map.mp (hfilled.all x.cand hmem)
      have hlist := hfilled.list b hb
      rw [hkey] at hlist
      refine ⟨b, hb, ?_⟩
      rw [hlist, if_neg (by omega), hash_batches_eq fun c hc => hfull c (mem_under.mp hc).1, List.map_map]
      refine List.mem_map.mpr ⟨x.cand, mem_under.mpr ⟨hmem, rfl⟩, ?_⟩
      obtain ⟨cand, partial_hash, full_hash⟩ := x
      dsimp only at hpartial_hash hfull_hash hkey
      dsimp only [Function.comp_apply]
      rw [hpartial_hash, hfull_hash, hkey]

/-- **What a pass over a static set stages**: the files that share size and partial digest
with another one, each with its digests. -/
theorem mem_staged {candidates : List (Candidate Int)} (hstatic : Static files candidates) {x : Staged} :
    x ∈ ((size_buckets candidates).map (funnel_group (backend_hasher blake3 files))).flatMap Funnelled.staged ↔
      x.cand ∈ nonempty candidates ∧
        2 ≤ (under (partial_of blake3 files) (under Candidate.size (nonempty candidates) x.cand.size)
          (partial_of blake3 files x.cand)).length ∧
        x.partial_hash = partial_of blake3 files x.cand ∧ x.full_hash = full_of blake3 files x.cand := by
  have hkept : (candidates.filter fun c => 0 < c.size) = nonempty candidates := by
    refine List.filter_congr fun c _ => ?_
    exact decide_eq_decide.mpr Nat.pos_iff_ne_zero
  have hfilled := buckets_filled Candidate.size (nonempty candidates)
  have hgroup : ∀ b ∈ buckets Candidate.size (nonempty candidates),
      (x ∈ (funnel_group (backend_hasher blake3 files) b.2).staged ↔
        x.cand ∈ b.2 ∧ 2 ≤ (under (partial_of blake3 files) b.2 (partial_of blake3 files x.cand)).length ∧
          x.partial_hash = partial_of blake3 files x.cand ∧ x.full_hash = full_of blake3 files x.cand) := by
    intro b hb
    have hmem : ∀ c ∈ b.2, c ∈ nonempty candidates ∧ c.size = b.1 := fun c hc => mem_under.mp (hfilled.list b hb ▸ hc)
    refine mem_funnel_group (hstatic.mono fun c hc => List.mem_of_mem_filter (hmem c hc).1) ?_
    intro c hc c' hc'
    rw [(hmem c hc).2, (hmem c' hc').2]
  rw [size_buckets, hkept, List.map_map, List.mem_flatMap]
  constructor
  · rintro ⟨f, hf, hx⟩
    obtain ⟨b, hb, rfl⟩ := List.mem_map.mp hf
    obtain ⟨hmem, hcrowd, hhashes⟩ := (hgroup b hb).mp hx
    obtain ⟨hcand, hsize⟩ := mem_under.mp (hfilled.list b hb ▸ hmem)
    rw [hfilled.list b hb, ← hsize] at hcrowd
    exact ⟨hcand, hcrowd, hhashes⟩
  · rintro ⟨hcand, hcrowd, hhashes⟩
    obtain ⟨b, hb, hsize⟩ := List.mem_map.mp (hfilled.all x.cand hcand)
    have hlist := hfilled.list b hb
    rw [hsize] at hlist
    refine ⟨_, List.mem_map.mpr ⟨b, hb, rfl⟩, (hgroup b hb).mpr ⟨?_, ?_, hhashes⟩⟩
    · rw [hlist]
      exact mem_under.mpr ⟨hcand, rfl⟩
    · rw [hlist]
      exact hcrowd

/-- The staging store takes every pass. -/
theorem fullbit_scan_some (pass : HashPass) (s : Staging) : ∃ u, fullbit_scan config volume pass s = some u := by
  have hrun : s.next_run ∈ run_ids (s.start_run config.host_id volume.mountpoint .fullbit (some volume)).scan_run := by
    show s.next_run ∈ run_ids (s.scan_run.put _)
    rw [Staging.run_ids_start]
    exact List.mem_append_right _ (List.mem_singleton.mpr rfl)
  obtain ⟨v, hv, -⟩ := @stage_hashes_tables config volume.mountpoint s.next_run pass.hashes _ hrun
  exact ⟨_, Option.map_eq_some_iff.mpr ⟨v, hv, rfl⟩⟩

/-! ## The rows after it -/

/-- A row after the hashes of a pass. -/
def rehash (config : AgentConfig) (volume_id : String) (run_id : ℕ) (hashes : List (Identity × String × String))
    (r : StagedEntry) : StagedEntry :=
  hashes.foldl (fun r hash =>
    if r.key = ⟨config.host_id, volume_id, hash.1⟩ then set_hash hash.2.1 hash.2.2 run_id r else r) r

variable {volume_id : String} {run_id : ℕ}

theorem rows_hash_rows (hashes : List (Identity × String × String)) (t : Table StagedEntry.key) :
    (hash_rows config volume_id run_id hashes t).rows = t.rows.map (rehash config volume_id run_id hashes) := by
  induction hashes generalizing t with
  | nil => exact (List.map_id _).symm
  | cons hash hashes ih =>
      rw [hash_rows_cons, ih]
      show (t.rows.map _).map _ = _
      rw [List.map_map]
      refine List.map_congr_left fun r _ => ?_
      dsimp only [Function.comp_apply, rehash, List.foldl_cons]
      by_cases hkey : r.key = ⟨config.host_id, volume_id, hash.1⟩
      · rw [if_pos (decide_eq_true hkey), if_pos hkey]
      · rw [if_neg (by simpa using hkey), if_neg hkey]

theorem rehash_cons (hash : Identity × String × String) (hashes : List (Identity × String × String)) (r : StagedEntry) :
    rehash config volume_id run_id (hash :: hashes) r
      = rehash config volume_id run_id hashes
          (if r.key = ⟨config.host_id, volume_id, hash.1⟩ then set_hash hash.2.1 hash.2.2 run_id r else r) := rfl

/-- A pass leaves the key and the entry of a row as they are. -/
theorem rehash_keeps (hashes : List (Identity × String × String)) (r : StagedEntry) :
    (rehash config volume_id run_id hashes r).key = r.key ∧ (rehash config volume_id run_id hashes r).entry = r.entry := by
  induction hashes generalizing r with
  | nil => exact ⟨rfl, rfl⟩
  | cons hash hashes ih =>
      rw [rehash_cons]
      split
      · exact ih (set_hash hash.2.1 hash.2.2 run_id r)
      · exact ih r

/-- **A pass writes the hash of what it has staged.** -/
theorem full_hash_rehash {hashes : List (Identity × String × String)} {digest : String} {r : StagedEntry}
    (hdigest : ∀ hash ∈ hashes, hash.1 = r.entry.identity → hash.2.2 = digest) :
    (rehash config volume_id run_id hashes r).full_hash
      = if r.key ∈ hashed_keys config volume_id hashes then some digest else r.full_hash := by
  induction hashes generalizing r with
  | nil => exact (if_neg List.not_mem_nil).symm
  | cons hash hashes ih =>
      have hkeys : hashed_keys config volume_id (hash :: hashes)
          = ⟨config.host_id, volume_id, hash.1⟩ :: hashed_keys config volume_id hashes := rfl
      have htail : ∀ h ∈ hashes, h.1 = r.entry.identity → h.2.2 = digest := fun h hh => hdigest h (List.mem_cons_of_mem _ hh)
      rw [rehash_cons, hkeys]
      by_cases hkey : r.key = ⟨config.host_id, volume_id, hash.1⟩
      · have hidentity : hash.1 = r.entry.identity := (congrArg StagedKey.identity hkey).symm
        rw [if_pos hkey, if_pos (hkey ▸ List.mem_cons_self), @ih (set_hash hash.2.1 hash.2.2 run_id r) htail]
        split
        · rfl
        · show some hash.2.2 = _
          rw [hdigest hash List.mem_cons_self hidentity]
      · rw [if_neg hkey, ih htail]
        refine if_congr ?_ rfl rfl
        rw [List.mem_cons]
        exact (or_iff_right hkey).symm

end

end Fathom.Agent
