/-
**Finding duplicates by content** (`core/dedup.py`, `agent/reader/hasher.py`).

Candidates are cut up by size, then by a digest of the head and the tail, then by the
digest of the whole content, and what stands alone is dropped at each stage. A digest is
BLAKE3 over what has been read, one block after the other. A read of an open file returns
what is asked for as far as the file goes; opening it may fail, and then the search fails.
-/
import Fathom.Lib.Classes
import Mathlib.Data.List.Forall2

set_option autoImplicit false

namespace Fathom.Dedup

scoped instance bytes_decidable_eq : DecidableEq ByteArray := ByteArray.instDecidableEq

/-! ## Hashing -/

def HEAD_TAIL_BYTES : ℕ := 4096

def FULL_CHUNK_BYTES : ℕ := 1048576

/-- `AsyncReader`, over the content of an open file. -/
structure Reader where
  content : ByteArray
  pos : ℕ

/-- `AsyncReader.read`: the block, and the reader after it. -/
def Reader.read (r : Reader) (size : ℕ) : ByteArray × Reader :=
  let block := r.content.extract r.pos (r.pos + size)
  (block, { r with pos := r.pos + block.size })

/-- `AsyncReader.seek`. -/
def Reader.seek (r : Reader) (offset : ℕ) : Reader := { r with pos := offset }

/-- A block ends where the file does. -/
theorem extract_min (b : ByteArray) (i j : ℕ) : b.extract i j = b.extract i (min j b.size) := by
  rcases Nat.le_total j b.size with hj | hj
  · rw [Nat.min_eq_left hj]
  · rw [Nat.min_eq_right hj]
    rcases Nat.le_total i b.size with hi | hi
    · have hnone : b.extract b.size j = ByteArray.empty := ByteArray.extract_eq_empty_iff.mpr (Nat.min_le_right _ _)
      rw [ByteArray.extract_eq_extract_append_extract b.size hi hj, hnone, ByteArray.append_empty]
    · rw [ByteArray.extract_eq_empty_iff.mpr (Nat.le_trans (Nat.min_le_right _ _) hi),
        ByteArray.extract_eq_empty_iff.mpr (Nat.le_trans (Nat.min_le_right _ _) hi)]

theorem Reader.read_block (r : Reader) (size : ℕ) :
    (r.read size).1 = r.content.extract r.pos (min (r.pos + size) r.content.size) := extract_min _ _ _

theorem Reader.size_read (r : Reader) (size : ℕ) :
    (r.read size).1.size = min (r.pos + size) r.content.size - r.pos := ByteArray.size_extract

theorem Reader.read_pos (r : Reader) (size : ℕ) :
    (r.read size).2.pos = r.pos + (min (r.pos + size) r.content.size - r.pos) := by
  rw [← r.size_read size]
  rfl

theorem Reader.read_content (r : Reader) (size : ℕ) : (r.read size).2.content = r.content := rfl

theorem Reader.read_advances {r : Reader} {size : ℕ} (h : (r.read size).1.size ≠ 0) :
    (r.read size).2.content.size - (r.read size).2.pos < r.content.size - r.pos := by
  rw [Reader.size_read] at h
  rw [Reader.read_pos, Reader.read_content]
  omega

/-- The blocks that a loop reads until one is empty, joined. -/
def Reader.read_blocks (size : ℕ) (r : Reader) : ByteArray :=
  if _ : (r.read size).1.size = 0 then ByteArray.empty
  else (r.read size).1 ++ (r.read size).2.read_blocks size
termination_by r.content.size - r.pos
decreasing_by exact Reader.read_advances (by assumption)

/-- What is read of a file for its partial digest. -/
def sample (size : ℕ) (content : ByteArray) : ByteArray :=
  let (head, r) := Reader.read ⟨content, 0⟩ HEAD_TAIL_BYTES
  if HEAD_TAIL_BYTES < size then
    let (tail, _) := (r.seek (max HEAD_TAIL_BYTES (size - HEAD_TAIL_BYTES))).read HEAD_TAIL_BYTES
    head ++ tail
  else head

/-- `open_for_hash`: the content under a path, if it can be opened. -/
abbrev Files := String → Option ByteArray

/-- `Hasher`; a digest is missing where reading raises. -/
structure Hasher where
  partial_hash : String → ℕ → Option String
  full_hash : String → Option String

section

variable (blake3 : ByteArray → String) (files : Files)

/-- `partial_digest`. -/
def partial_digest (path : String) (size : ℕ) : Option String :=
  (files path).map fun content => blake3 (sample size content)

/-- `full_digest`. -/
def full_digest (path : String) : Option String :=
  (files path).map fun content => blake3 (Reader.read_blocks FULL_CHUNK_BYTES ⟨content, 0⟩)

/-- `BackendHasher`. -/
def backend_hasher : Hasher := ⟨partial_digest blake3 files, full_digest blake3 files⟩

end

/-- The loop reads all there is. -/
theorem Reader.read_blocks_eq {size : ℕ} (hpos : 0 < size) (r : Reader) :
    r.read_blocks size = r.content.extract r.pos r.content.size := by
  induction r using Reader.read_blocks.induct size with
  | case1 r h =>
      rw [Reader.read_blocks, dif_pos h]
      refine (ByteArray.extract_eq_empty_iff.mpr ?_).symm
      rw [Reader.size_read] at h
      omega
  | case2 r h ih =>
      have hnext : (r.read size).2.pos = min (r.pos + size) r.content.size := by
        rw [Reader.size_read] at h
        rw [Reader.read_pos]
        omega
      rw [Reader.read_blocks, dif_neg h, ih, hnext, Reader.read_content, Reader.read_block]
      refine (ByteArray.extract_eq_extract_append_extract _ ?_ (Nat.min_le_right _ _)).symm
      rw [← hnext, Reader.read_pos]
      exact Nat.le_add_right _ _

/-- **The full digest is one of the whole content.** -/
theorem full_digest_eq (blake3 : ByteArray → String) (files : Files) (path : String) :
    full_digest blake3 files path = (files path).map blake3 := by
  have hpos : 0 < FULL_CHUNK_BYTES := by decide
  have hread : ∀ content, Reader.read_blocks FULL_CHUNK_BYTES ⟨content, 0⟩ = content := fun content =>
    (Reader.read_blocks_eq hpos _).trans ByteArray.extract_zero_size
  rw [full_digest]
  exact Option.map_congr fun content _ => congrArg blake3 (hread content)

/-! ## Candidates and groups -/

/-- `Candidate`. -/
structure Candidate (ι : Type) where
  id : ι
  path : String
  size : ℕ
  dev : Int := 0
  deriving DecidableEq

/-- `DuplicateGroup`. -/
structure DuplicateGroup (ι : Type) where
  full_hash : String
  size : ℕ
  member_ids : List ι
  reclaimable_bytes : ℕ
  suggested_keeper_id : ι
  deriving DecidableEq

/-- `KeeperRule`, of the first member and the others: it is never asked about none. -/
abbrev KeeperRule (ι : Type) := Candidate ι → List (Candidate ι) → Candidate ι

/-- `(c.path.count("/"), c.path)`, in order. -/
def shorter {ι : Type} (c best : Candidate ι) : Bool :=
  let slashes := c.path.toList.count '/'
  let slashes_best := best.path.toList.count '/'
  slashes < slashes_best ∨ (slashes = slashes_best ∧ c.path < best.path)

/-- `keep_shortest_path`: `min` keeps the first of equals. -/
def keep_shortest_path {ι : Type} : KeeperRule ι := fun first others =>
  others.foldl (fun best c => if shorter c best then c else best) first

section

variable {ι : Type} (hasher : Hasher) (keeper : KeeperRule ι)

/-- A dict of lists, filled as long as no key fails. -/
def fill {α κ : Type} [DecidableEq κ] (key : α → Option κ) (xs : List α) : Option (List (κ × List α)) :=
  xs.foldlM (fun d x => (key x).map fun k => append_to k x d) []

/-- The group of one full hash, unless it has fewer than two members. -/
def duplicate_group (size : ℕ) (bucket : String × List (Candidate ι)) : Option (DuplicateGroup ι) :=
  match bucket.2 with
  | first :: second :: others =>
    some
      { full_hash := bucket.1
        size := size
        member_ids := bucket.2.map Candidate.id
        reclaimable_bytes := size * (bucket.2.length - 1)
        suggested_keeper_id := (keeper first (second :: others)).id }
  | _ => none

/-- The groups among the members of one partial hash. -/
def full_groups (size : ℕ) (partial_members : List (Candidate ι)) : Option (List (DuplicateGroup ι)) :=
  if partial_members.length < 2 then some []
  else
    (fill (fun c => hasher.full_hash c.path) partial_members).map fun by_full =>
      by_full.filterMap (duplicate_group keeper size)

/-- The groups among the candidates of one size. -/
def size_groups (bucket : ℕ × List (Candidate ι)) : Option (List (DuplicateGroup ι)) :=
  if bucket.2.length < 2 then some []
  else
    (fill (fun c => hasher.partial_hash c.path bucket.1) bucket.2).bind fun by_partial =>
      ( by_partial.mapM fun b => full_groups hasher keeper bucket.1 b.2).map List.flatten

/-- `find_duplicates`. -/
def find_duplicates (skip_empty : Bool) (candidates : List (Candidate ι)) : Option (List (DuplicateGroup ι)) :=
  let by_size := buckets Candidate.size (candidates.filter fun c => !(skip_empty && c.size = 0))
  (by_size.mapM (size_groups hasher keeper)).map List.flatten

end

/-! ## A static set of files -/

/-- The content of a candidate. -/
def content {ι : Type} (files : Files) (c : Candidate ι) : ByteArray := (files c.path).getD ByteArray.empty

/-- Every candidate can be read, and has the size it is said to have. -/
def Static {ι : Type} (files : Files) (candidates : List (Candidate ι)) : Prop :=
  ∀ c ∈ candidates, files c.path = some (content files c) ∧ (content files c).size = c.size

/-- The hash does not collide on the candidates. -/
def CollisionFree {ι : Type} (blake3 : ByteArray → String) (files : Files) (candidates : List (Candidate ι)) : Prop :=
  ∀ c ∈ candidates, ∀ c' ∈ candidates, blake3 (content files c) = blake3 (content files c') → content files c = content files c'

instance {ι : Type} (files : Files) (candidates : List (Candidate ι)) : Decidable (Static files candidates) :=
  inferInstanceAs (Decidable (∀ c ∈ candidates, _ ∧ _))

instance {ι : Type} (blake3 : ByteArray → String) (files : Files) (candidates : List (Candidate ι)) :
    Decidable (CollisionFree blake3 files candidates) :=
  inferInstanceAs (Decidable (∀ c ∈ candidates, ∀ c' ∈ candidates, _ → _))

/-- The candidates with something in them. -/
def nonempty {ι : Type} (candidates : List (Candidate ι)) : List (Candidate ι) := candidates.filter fun c => c.size ≠ 0

/-- What a group says of a class of candidates. -/
structure Reports {ι : Type} (blake3 : ByteArray → String) (files : Files) (keeper : KeeperRule ι)
    (members : List (Candidate ι)) (group : DuplicateGroup ι) : Prop where
  member_ids : group.member_ids = members.map Candidate.id
  full_hash : ∀ c ∈ members, group.full_hash = blake3 (content files c)
  size : ∀ c ∈ members, group.size = c.size
  reclaimable_bytes : group.reclaimable_bytes = group.size * (members.length - 1)
  suggested_keeper_id : ∃ first others, members = first :: others ∧ group.suggested_keeper_id = (keeper first others).id

/-- **The groups are the classes of equal content.** -/
def Confirmed {ι : Type} (blake3 : ByteArray → String) (files : Files) (keeper : KeeperRule ι)
    (candidates : List (Candidate ι)) (groups : List (DuplicateGroup ι)) : Prop :=
  ∃ classes, Classes (content files) (nonempty candidates) classes ∧ List.Forall₂ (Reports blake3 files keeper) classes groups

/-! ## The stages -/

section

variable {ι : Type} {blake3 : ByteArray → String} {files : Files} {keeper : KeeperRule ι} {candidates : List (Candidate ι)}

theorem Static.mono {candidates' : List (Candidate ι)} (h : Static files candidates)
    (hsub : ∀ c ∈ candidates', c ∈ candidates) : Static files candidates' := fun c hc => h c (hsub c hc)

theorem CollisionFree.mono {candidates' : List (Candidate ι)} (h : CollisionFree blake3 files candidates)
    (hsub : ∀ c ∈ candidates', c ∈ candidates) : CollisionFree blake3 files candidates' :=
  fun c hc c' hc' => h c (hsub c hc) c' (hsub c' hc')

/-- Where every key can be computed, the dict is filled. -/
theorem fill_eq {α κ : Type} [DecidableEq κ] {key : α → Option κ} {value : α → κ} {xs : List α}
    (h : ∀ x ∈ xs, key x = some (value x)) : fill key xs = some (buckets value xs) := by
  rw [fill, buckets]
  generalize [] = d
  induction xs generalizing d with
  | nil => rfl
  | cons x xs ih =>
      rw [List.foldlM_cons, h x List.mem_cons_self, List.foldl_cons]
      exact ih (fun y hy => h y (List.mem_cons_of_mem _ hy)) _

/-- The groups made of each part, put together. -/
theorem mapM_flatten {α β γ : Type} {f : α → Option (List β)} {cut : α → List γ} {R : γ → β → Prop} {xs : List α}
    (h : ∀ x ∈ xs, ∃ groups, f x = some groups ∧ List.Forall₂ R (cut x) groups) :
    ∃ groups, (xs.mapM f).map List.flatten = some groups ∧ List.Forall₂ R (xs.flatMap cut) groups := by
  induction xs with
  | nil => exact ⟨[], rfl, List.Forall₂.nil⟩
  | cons x xs ih =>
      obtain ⟨groups, hx, hgroups⟩ := h x List.mem_cons_self
      obtain ⟨rest, hrest, hall⟩ := ih fun y hy => h y (List.mem_cons_of_mem _ hy)
      obtain ⟨lists, hlists, rfl⟩ := Option.map_eq_some_iff.mp hrest
      refine ⟨groups ++ lists.flatten, ?_, List.rel_append hgroups hall⟩
      rw [List.mapM_cons, hx, hlists]
      rfl

/-- The classes of one partial hash. -/
def full_classes (blake3 : ByteArray → String) (files : Files) (members : List (Candidate ι)) : List (List (Candidate ι)) :=
  if members.length < 2 then []
  else (crowded (buckets (fun c => blake3 (content files c)) members)).map Prod.snd

/-- The classes of one size. -/
def size_classes (blake3 : ByteArray → String) (files : Files) (bucket : ℕ × List (Candidate ι)) :
    List (List (Candidate ι)) :=
  if bucket.2.length < 2 then []
  else (buckets (fun c => blake3 (sample bucket.1 (content files c))) bucket.2).flatMap fun b => full_classes blake3 files b.2

/-- The groups of a dict by full hash report its lists with two members or more. -/
theorem duplicate_groups_report {size : ℕ} {d : List (String × List (Candidate ι))}
    (hsize : ∀ bucket ∈ d, ∀ c ∈ bucket.2, c.size = size)
    (hhash : ∀ bucket ∈ d, ∀ c ∈ bucket.2, blake3 (content files c) = bucket.1) :
    List.Forall₂ (Reports blake3 files keeper) ((crowded d).map Prod.snd) (d.filterMap (duplicate_group keeper size)) := by
  induction d with
  | nil => exact List.Forall₂.nil
  | cons bucket d ih =>
      have hrest := ih (fun b hb => hsize b (List.mem_cons_of_mem _ hb)) fun b hb => hhash b (List.mem_cons_of_mem _ hb)
      have hsize := hsize bucket List.mem_cons_self
      have hhash := hhash bucket List.mem_cons_self
      obtain ⟨hash, members⟩ := bucket
      rw [crowded, List.filter_cons, List.filterMap_cons]
      rcases members with _ | ⟨first, _ | ⟨second, others⟩⟩
      · exact hrest
      · exact hrest
      · refine List.Forall₂.cons ⟨rfl, ?_, ?_, rfl, first, second :: others, rfl, rfl⟩ hrest
        · exact fun c hc => (hhash c hc).symm
        · exact fun c hc => (hsize c hc).symm

/-- **The last stage**: the full hash tells contents apart. -/
theorem full_groups_confirmed {size : ℕ} {members : List (Candidate ι)} (hstatic : Static files members)
    (hfree : CollisionFree blake3 files members) (hsize : ∀ c ∈ members, c.size = size) :
    Classes (content files) members (full_classes blake3 files members) ∧
      ∃ groups, full_groups (backend_hasher blake3 files) keeper size members = some groups ∧
        List.Forall₂ (Reports blake3 files keeper) (full_classes blake3 files members) groups := by
  unfold full_groups full_classes
  split
  · rename_i hshort
    exact ⟨Classes.of_short hshort, [], rfl, List.Forall₂.nil⟩
  · have hkey : ∀ c ∈ members, (backend_hasher blake3 files).full_hash c.path = some (blake3 (content files c)) := by
      intro c hc
      show full_digest blake3 files c.path = _
      rw [full_digest_eq, (hstatic c hc).1]
      rfl
    have hfilled := buckets_filled (fun c => blake3 (content files c)) members
    refine ⟨(buckets_classes _ _).congr fun c hc c' hc' => ⟨hfree c hc c' hc', fun h => congrArg blake3 h⟩, ?_⟩
    rw [fill_eq hkey]
    refine ⟨_, rfl, ?_⟩
    · apply duplicate_groups_report
      · intro bucket hbucket c hc
        exact hsize c (mem_under.mp (hfilled.list bucket hbucket ▸ hc)).1
      · intro bucket hbucket c hc
        rw [hfilled.list bucket hbucket] at hc
        exact (mem_under.mp hc).2

/-- **The middle stage** only parts what differs: the sample is a function of size and content. -/
theorem size_groups_confirmed {bucket : ℕ × List (Candidate ι)} (hstatic : Static files bucket.2)
    (hfree : CollisionFree blake3 files bucket.2) (hsize : ∀ c ∈ bucket.2, c.size = bucket.1) :
    Classes (content files) bucket.2 (size_classes blake3 files bucket) ∧
      ∃ groups, size_groups (backend_hasher blake3 files) keeper bucket = some groups ∧
        List.Forall₂ (Reports blake3 files keeper) (size_classes blake3 files bucket) groups := by
  unfold size_groups size_classes
  split
  · rename_i hshort
    exact ⟨Classes.of_short hshort, [], rfl, List.Forall₂.nil⟩
  · have hkey : ∀ c ∈ bucket.2, (backend_hasher blake3 files).partial_hash c.path bucket.1
        = some (blake3 (sample bucket.1 (content files c))) := by
      intro c hc
      show partial_digest blake3 files c.path bucket.1 = _
      rw [partial_digest, (hstatic c hc).1]
      rfl
    have hfilled := buckets_filled (fun c => blake3 (sample bucket.1 (content files c))) bucket.2
    have hstage : ∀ b ∈ buckets (fun c => blake3 (sample bucket.1 (content files c))) bucket.2, ∀ c ∈ b.2, c ∈ bucket.2 :=
      fun b hb c hc => (mem_under.mp (hfilled.list b hb ▸ hc)).1
    have hgroups := fun b hb => @full_groups_confirmed ι blake3 files keeper bucket.1 b.2 (hstatic.mono (hstage b hb))
      (hfree.mono (hstage b hb)) fun c hc => hsize c (hstage b hb c hc)
    refine ⟨hfilled.refine ?_ fun b hb => (hgroups b hb).1, ?_⟩
    · intro c _ c' _ hsame
      rw [hsame]
    · rw [fill_eq hkey, Option.bind_some]
      exact mapM_flatten fun b hb => (hgroups b hb).2

/-- **`find_duplicates` finds the classes of equal content**, and reports each once. -/
theorem find_duplicates_confirmed (hstatic : Static files candidates) (hfree : CollisionFree blake3 files candidates) :
    ∃ groups, find_duplicates (backend_hasher blake3 files) keeper true candidates = some groups ∧
      Confirmed blake3 files keeper candidates groups := by
  have hkept : (candidates.filter fun c => !(true && decide (c.size = 0))) = nonempty candidates := by
    refine List.filter_congr fun c _ => ?_
    rw [Bool.true_and, decide_not]
  have hfilled := buckets_filled Candidate.size (nonempty candidates)
  have hstage : ∀ b ∈ buckets Candidate.size (nonempty candidates), ∀ c ∈ b.2, c ∈ candidates ∧ c.size = b.1 := by
    intro b hb c hc
    obtain ⟨hmem, hsize⟩ := mem_under.mp (hfilled.list b hb ▸ hc)
    exact ⟨List.mem_of_mem_filter hmem, hsize⟩
  have hgroups := fun b hb => @size_groups_confirmed ι blake3 files keeper b (hstatic.mono fun c hc => (hstage b hb c hc).1)
    (hfree.mono fun c hc => (hstage b hb c hc).1) fun c hc => (hstage b hb c hc).2
  obtain ⟨groups, hfound, hreports⟩ := mapM_flatten fun b hb => (hgroups b hb).2
  refine ⟨groups, ?_, _, hfilled.refine ?_ fun b hb => (hgroups b hb).1, hreports⟩
  · rw [find_duplicates, hkept]
    exact hfound
  · -- equal contents have one size
    intro c hc c' hc' hsame
    rw [← (hstatic c (List.mem_of_mem_filter hc)).2, hsame, (hstatic c' (List.mem_of_mem_filter hc')).2]

/-- The members that are reported. -/
theorem reported_ids {classes : List (List (Candidate ι))} {groups : List (DuplicateGroup ι)}
    (h : List.Forall₂ (Reports blake3 files keeper) classes groups) :
    groups.map DuplicateGroup.member_ids = classes.map (List.map Candidate.id) := by
  induction h with
  | nil => rfl
  | cons hreport _ ih => rw [List.map_cons, List.map_cons, ih, hreport.member_ids]

/-- Each group names a file once. -/
theorem Confirmed.members_once {groups : List (DuplicateGroup ι)} (h : Confirmed blake3 files keeper candidates groups)
    (hset : (candidates.map Candidate.id).Nodup) : ∀ group ∈ groups, group.member_ids.Nodup := by
  obtain ⟨classes, hclasses, hreports⟩ := h
  intro group hgroup
  have hids : group.member_ids ∈ classes.map (List.map Candidate.id) :=
    reported_ids hreports ▸ List.mem_map_of_mem hgroup
  obtain ⟨members, hmembers, heq⟩ := List.mem_map.mp hids
  obtain ⟨-, k, hk⟩ := hclasses.each members hmembers
  rw [← heq, hk]
  exact hset.sublist ((List.filter_sublist.trans List.filter_sublist).map _)

end

end Fathom.Dedup
