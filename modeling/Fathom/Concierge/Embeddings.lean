/-
**The semantic index** (`core/concierge/embeddings.py`, `workers/embedding.py`): the
embeddings of the names and paths of catalogued files, and the worker that keeps them.

An embedding names a catalogue row by its surrogate id. A prune drops those whose row is not
present; a batch adds some for present files of data volumes that have none. Neither reads
the text hash of an embedding that is there, so what the worker comes to says what the
catalogue says exactly when no present row is embedded under another text:
`settles_current_iff`.

The id of a row is its place in `fs_entry`, to which ingest only ever adds. BLAKE2b is a
parameter, and so is what the provider answers.
-/
import Fathom.Auth.Scope
import Fathom.Ingest.Catalogue

set_option autoImplicit false

namespace Fathom.Concierge

open Fathom.Ingest (Catalogue FsEntryRow Volume)
open Fathom.Auth (ScopeFilter)

/-! ## The table -/

/-- `(entry_id, host_id, volume_id)`: `uq_embedding_entry`. -/
structure EntryRef where
  entry_id : ℕ
  host_id : ℕ
  volume_id : ℕ
  deriving DecidableEq

/-- `FsEntryEmbedding`. -/
structure FsEntryEmbedding (V : Type) where
  entry_id : ℕ
  host_id : ℕ
  volume_id : ℕ
  text_hash : String
  embedding : V

/-- `EmbedCandidate`. -/
structure EmbedCandidate where
  entry_id : ℕ
  host_id : ℕ
  volume_id : ℕ
  name : String
  path : String
  deriving DecidableEq

def EmbedCandidate.entry (c : EmbedCandidate) : EntryRef := ⟨c.entry_id, c.host_id, c.volume_id⟩

variable {V : Type}

def FsEntryEmbedding.entry (x : FsEntryEmbedding V) : EntryRef := ⟨x.entry_id, x.host_id, x.volume_id⟩

/-- `fs_entry_embedding`. -/
abbrev EmbeddingTable (V : Type) := Table (FsEntryEmbedding.entry : FsEntryEmbedding V → EntryRef)

/-- `embed_text`. -/
def embed_text (name path : String) : String := name ++ "\n" ++ path

/-- `text_hash`: the hex digest of the text. -/
def text_hash (blake2b : String → String) (text : String) : String := blake2b text

/-! ## Candidates -/

/-- The row with an id. -/
def row_at (cat : Catalogue) (entry_id : ℕ) : Option FsEntryRow := cat.fs_entry.rows[entry_id]?

/-- The columns a filter may constrain. -/
def entry_columns : ScopeFilter.Columns (FsEntryRow × Volume) where
  host_col := some fun j => j.1.host_id
  volume_col := some fun j => j.1.volume_id
  kind_col := some fun j => j.2.kind

/-- What is asked of a row and its volume. -/
def embedded_kind (scope : Option ScopeFilter) (j : FsEntryRow × Volume) : Bool :=
  j.1.present && !j.1.is_dir && j.2.kind = "data" && scope.all fun f => f.apply entry_columns j

/-- Whether the join with `Volume` leaves the row. -/
def embeddable (cat : Catalogue) (scope : Option ScopeFilter) (r : FsEntryRow) : Bool :=
  cat.volumes.rows.any fun v => v.id = r.volume_id && embedded_kind scope (r, v)

def candidate (r : FsEntryRow) (entry_id : ℕ) : EmbedCandidate :=
  ⟨entry_id, r.host_id, r.volume_id, r.name, r.path⟩

/-- The rows that may be embedded. -/
def candidates (cat : Catalogue) (scope : Option ScopeFilter) : List EmbedCandidate :=
  (cat.fs_entry.rows.zipIdx.filter fun p => embeddable cat scope p.1).map fun p => candidate p.1 p.2

/-- Those of them that the outer join finds no embedding of. -/
def needing (cat : Catalogue) (scope : Option ScopeFilter) (t : EmbeddingTable V) : List EmbedCandidate :=
  (candidates cat scope).filter fun c => (t.find c.entry).isNone

/-- `rows_needing_embedding`: no order is asked for, so these are any rows up to the limit. -/
structure RowsNeedingEmbedding (cat : Catalogue) (scope : Option ScopeFilter) (t : EmbeddingTable V) (limit : ℕ)
    (chosen : List EmbedCandidate) : Prop where
  distinct : chosen.Nodup
  needed : ∀ c ∈ chosen, c ∈ needing cat scope t
  length : chosen.length = min limit (needing cat scope t).length

instance decidable_rows_needing (cat : Catalogue) (scope : Option ScopeFilter) (t : EmbeddingTable V) (limit : ℕ)
    (chosen : List EmbedCandidate) : Decidable (RowsNeedingEmbedding cat scope t limit chosen) :=
  decidable_of_iff
    (chosen.Nodup ∧ (∀ c ∈ chosen, c ∈ needing cat scope t) ∧ chosen.length = min limit (needing cat scope t).length)
    ⟨fun h => ⟨h.1, h.2.1, h.2.2⟩, fun h => ⟨h.distinct, h.needed, h.length⟩⟩

/-! ## Pruning and embedding -/

/-- Whether no present row has the id, host and volume. -/
def orphan (cat : Catalogue) (x : FsEntryEmbedding V) : Bool :=
  !(row_at cat x.entry_id).any fun r => r.host_id = x.host_id && r.volume_id = x.volume_id && r.present

/-- `prune_orphan_embeddings`. -/
def prune_orphan_embeddings (cat : Catalogue) (t : EmbeddingTable V) : EmbeddingTable V × ℕ :=
  (t.delete (orphan cat), (t.rows.filter (orphan cat)).length)

/-- What a provider answers to some texts; it may fail. -/
abbrev EmbeddingProvider (V : Type) := List String → Option (List V)

/-- The row added for a candidate. -/
def embedded (blake2b : String → String) (c : EmbedCandidate) (vector : V) : FsEntryEmbedding V :=
  ⟨c.entry_id, c.host_id, c.volume_id, text_hash blake2b (embed_text c.name c.path), vector⟩

/-- `run_embedding_batch` with the candidates it has read. What it raises is `none`. -/
def run_embedding_batch (blake2b : String → String) (provider : EmbeddingProvider V) (t : EmbeddingTable V)
    (cands : List EmbedCandidate) : Option (EmbeddingTable V × ℕ) :=
  if cands = [] then some (t, 0)
  else
    let texts := cands.map fun c => embed_text c.name c.path
    (provider texts).bind fun vectors =>
      -- the zip is strict
      if vectors.length = cands.length then
        (t.insert_all ((cands.zip vectors).map fun p => embedded blake2b p.1 p.2)).map fun u => (u, cands.length)
      else none

/-- `EmbeddingWorker`: the setting of the batch is at least 1. -/
structure EmbeddingWorker where
  batch : ℕ
  batch_pos : 1 ≤ batch

/-- `EmbeddingWorker.tick`, in one session: what raises leaves the table as it was. -/
def tick (blake2b : String → String) (cat : Catalogue) (provider : EmbeddingProvider V) (t : EmbeddingTable V)
    (cands : List EmbedCandidate) : EmbeddingTable V :=
  match run_embedding_batch blake2b provider (prune_orphan_embeddings cat t).1 cands with
  | some (u, _) => u
  | none => t

/-! ## Currency -/

/-- The catalogue and the index. -/
structure Index (V : Type) where
  cat : Catalogue
  embeddings : EmbeddingTable V

section

variable (blake2b : String → String) (worker : EmbeddingWorker)

/-- **The index says what the catalogue says**: one row for each present file of a data
volume, under the hash of its name and path, and no other row. -/
structure Current (cat : Catalogue) (t : EmbeddingTable V) : Prop where
  one : ∀ i r, row_at cat i = some r → embeddable cat none r = true →
    ∃ x, t.rows.filter (fun x => x.entry = ⟨i, r.host_id, r.volume_id⟩) = [x] ∧
      x.text_hash = text_hash blake2b (embed_text r.name r.path)
  no_other : ∀ x ∈ t.rows, ∃ r, row_at cat x.entry_id = some r ∧ embeddable cat none r = true ∧
    r.host_id = x.host_id ∧ r.volume_id = x.volume_id

/-- Batches that go through, one after the other. -/
def Drains (cat : Catalogue) : ℕ → EmbeddingTable V → EmbeddingTable V → Prop
  | 0, t, u => u = t
  | n + 1, t, u => ∃ cands provider v count, RowsNeedingEmbedding cat none t worker.batch cands ∧
      run_embedding_batch blake2b provider t cands = some (v, count) ∧ Drains cat n v u

/-- **After a prune and enough batches the index is current**, and batches do go through. -/
structure SettlesCurrent (s : Index V) : Prop where
  goes_through : ∀ n, ∃ t, Drains blake2b worker s.cat n (prune_orphan_embeddings s.cat s.embeddings).1 t
  current : ∀ n t, (needing s.cat none (prune_orphan_embeddings s.cat s.embeddings).1).length ≤ n * worker.batch →
    Drains blake2b worker s.cat n (prune_orphan_embeddings s.cat s.embeddings).1 t → Current blake2b s.cat t

end

/-! ## What makes it settle -/

/-- A row is a file with the text that was embedded. -/
def Bears (blake2b : String → String) (x : FsEntryEmbedding V) (r : FsEntryRow) : Prop :=
  r.is_dir = false ∧ text_hash blake2b (embed_text r.name r.path) = x.text_hash

/-- A volume of data. -/
def DataVolume (cat : Catalogue) (volume_id : ℕ) : Prop :=
  (volume_id, "data") ∈ cat.volumes.rows.map fun v => (v.id, v.kind)

theorem embeddable_iff {cat : Catalogue} {r : FsEntryRow} :
    embeddable cat none r = true ↔ r.present = true ∧ r.is_dir = false ∧ DataVolume cat r.volume_id := by
  rw [embeddable, List.any_eq_true, DataVolume, List.mem_map]
  constructor
  · rintro ⟨v, hv, hwanted⟩
    simp only [embedded_kind, Option.all_none, Bool.and_true, Bool.and_eq_true, Bool.not_eq_true',
      decide_eq_true_eq] at hwanted
    exact ⟨hwanted.2.1.1, hwanted.2.1.2, v, hv, by rw [hwanted.1, hwanted.2.2]⟩
  · rintro ⟨hpresent, hfile, v, hv, hcolumns⟩
    rw [Prod.mk.injEq] at hcolumns
    refine ⟨v, hv, ?_⟩
    simp only [embedded_kind, Option.all_none, Bool.and_true, Bool.and_eq_true, Bool.not_eq_true', decide_eq_true_eq]
    exact ⟨hcolumns.1, ⟨hpresent, hfile⟩, hcolumns.2⟩

/-- Every embedding is of a row of a data volume. -/
def Placed (cat : Catalogue) (t : EmbeddingTable V) : Prop :=
  ∀ x ∈ t.rows, ∃ r, row_at cat x.entry_id = some r ∧ r.host_id = x.host_id ∧ r.volume_id = x.volume_id ∧
    DataVolume cat r.volume_id

/-- **What is embedded of a present row is the file it is now.** -/
def Sound (blake2b : String → String) (cat : Catalogue) (t : EmbeddingTable V) : Prop :=
  ∀ x ∈ t.rows, ∀ r, row_at cat x.entry_id = some r → r.present = true → Bears blake2b x r

/-! ## What a batch adds -/

/-- An embedding is of a present file of a data volume, and of what it is now. -/
def Right (blake2b : String → String) (cat : Catalogue) (x : FsEntryEmbedding V) : Prop :=
  ∃ r, row_at cat x.entry_id = some r ∧ embeddable cat none r = true ∧ r.host_id = x.host_id ∧
    r.volume_id = x.volume_id ∧ Bears blake2b x r

section

variable {blake2b : String → String} {cat : Catalogue} {scope : Option ScopeFilter} {t u : EmbeddingTable V}
  {cands : List EmbedCandidate} {provider : EmbeddingProvider V} {limit count : ℕ}

variable {x : FsEntryEmbedding V}

theorem orphan_false_iff :
    orphan cat x = false ↔ ∃ r, row_at cat x.entry_id = some r ∧ r.host_id = x.host_id ∧ r.volume_id = x.volume_id ∧
      r.present = true := by
  rw [orphan, Bool.not_eq_false', Option.any_eq_true]
  refine exists_congr fun r => and_congr_right fun _ => ?_
  simp only [Bool.and_eq_true, decide_eq_true_eq, and_assoc]

theorem mem_prune : x ∈ (prune_orphan_embeddings cat t).1.rows ↔ x ∈ t.rows ∧ orphan cat x = false := by
  rw [prune_orphan_embeddings, Table.delete, List.mem_filter, Bool.not_eq_true']

theorem mem_candidates {c : EmbedCandidate} :
    c ∈ candidates cat scope ↔ ∃ r, row_at cat c.entry_id = some r ∧ embeddable cat scope r = true ∧
      candidate r c.entry_id = c := by
  rw [candidates, List.mem_map]
  constructor
  · rintro ⟨⟨r, i⟩, hmem, rfl⟩
    obtain ⟨hrow, hembeddable⟩ := List.mem_filter.mp hmem
    exact ⟨r, List.mem_zipIdx_iff_getElem?.mp hrow, hembeddable, rfl⟩
  · rintro ⟨r, hrow, hembeddable, hc⟩
    exact ⟨(r, c.entry_id), List.mem_filter.mpr ⟨List.mem_zipIdx_iff_getElem?.mpr hrow, hembeddable⟩, hc⟩

/-- A candidate is known by its row. -/
theorem candidate_of_entry {c c' : EmbedCandidate} (hc : c ∈ candidates cat scope) (hc' : c' ∈ candidates cat scope)
    (h : c.entry = c'.entry) : c = c' := by
  have hid : c.entry_id = c'.entry_id := congrArg EntryRef.entry_id h
  obtain ⟨r, hr, -, hcand⟩ := mem_candidates.mp hc
  obtain ⟨r', hr', -, hcand'⟩ := mem_candidates.mp hc'
  rw [← hid, hr, Option.some.injEq] at hr'
  rw [← hcand, ← hcand', hr', hid]

theorem nodup_candidates (cat : Catalogue) (scope : Option ScopeFilter) : (candidates cat scope).Nodup := by
  have hids : ((candidates cat scope).map EmbedCandidate.entry_id).Sublist (cat.fs_entry.rows.zipIdx.map Prod.snd) := by
    rw [candidates, List.map_map]
    exact List.filter_sublist.map _
  refine List.Nodup.of_map EmbedCandidate.entry_id (List.Nodup.sublist hids ?_)
  rw [List.zipIdx_map_snd]
  exact List.nodup_range'

theorem needing_candidate {c : EmbedCandidate} (h : c ∈ needing cat scope t) : c ∈ candidates cat scope :=
  (List.mem_filter.mp h).1

variable (blake2b) in
/-- The rows added are those of the candidates, where the vectors are as many. -/
theorem entries_embedded {vectors : List V} (hlength : vectors.length = cands.length) :
    ((cands.zip vectors).map fun p => embedded blake2b p.1 p.2).map FsEntryEmbedding.entry
      = cands.map EmbedCandidate.entry :=
  calc ((cands.zip vectors).map fun p => embedded blake2b p.1 p.2).map FsEntryEmbedding.entry
      = ((cands.zip vectors).map Prod.fst).map EmbedCandidate.entry := by
        rw [List.map_map, List.map_map]
        rfl
    _ = cands.map EmbedCandidate.entry := by rw [List.map_fst_zip hlength.ge]

/-- What a batch adds: a row for each candidate, with the hash of its text. -/
theorem batch_rows (h : run_embedding_batch blake2b provider t cands = some (u, count)) :
    ∃ added, u.rows = t.rows ++ added ∧ added.map FsEntryEmbedding.entry = cands.map EmbedCandidate.entry ∧
      ∀ x ∈ added, ∃ c ∈ cands, x.entry = c.entry ∧ x.text_hash = text_hash blake2b (embed_text c.name c.path) := by
  rw [run_embedding_batch] at h
  split at h
  · rename_i hnil
    rw [Option.some.injEq, Prod.mk.injEq] at h
    refine ⟨[], ?_, by rw [hnil]; rfl, fun x hx => absurd hx List.not_mem_nil⟩
    rw [h.1, List.append_nil]
  · obtain ⟨vectors, -, h⟩ := Option.bind_eq_some_iff.mp h
    split at h
    · rename_i hlength
      obtain ⟨v, hinsert, heq⟩ := Option.map_eq_some_iff.mp h
      rw [Prod.mk.injEq] at heq
      rw [← heq.1]
      refine ⟨_, Table.rows_insert_all hinsert, ?_, ?_⟩
      · exact entries_embedded blake2b hlength
      · intro x hx
        obtain ⟨⟨c, vector⟩, hmem, rfl⟩ := List.mem_map.mp hx
        exact ⟨c, (List.of_mem_zip hmem).1, rfl, rfl⟩
    · exact absurd h (by simp)

/-- What is added is right. -/
theorem right_of_batch (hneeded : ∀ c ∈ cands, c ∈ needing cat none t)
    (h : run_embedding_batch blake2b provider t cands = some (u, count)) (hx : x ∈ u.rows) :
    x ∈ t.rows ∨ Right blake2b cat x := by
  obtain ⟨added, hrows, -, hadded⟩ := batch_rows h
  rw [hrows] at hx
  rcases List.mem_append.mp hx with hold | hnew
  · exact Or.inl hold
  · obtain ⟨c, hc, hentry, hhash⟩ := hadded x hnew
    obtain ⟨r, hr, hembeddable, hcand⟩ := mem_candidates.mp (needing_candidate (hneeded c hc))
    have hid : x.entry_id = c.entry_id := congrArg EntryRef.entry_id hentry
    have hhost : x.host_id = c.host_id := congrArg EntryRef.host_id hentry
    have hvolume : x.volume_id = c.volume_id := congrArg EntryRef.volume_id hentry
    rw [← hcand] at hhost hvolume hhash
    right
    exact ⟨r, by rw [hid, hr], hembeddable, hhost.symm, hvolume.symm, (embeddable_iff.mp hembeddable).2.1, hhash.symm⟩

theorem batch_keeps (h : run_embedding_batch blake2b provider t cands = some (u, count)) (hx : x ∈ t.rows) :
    x ∈ u.rows := by
  obtain ⟨added, hrows, -, -⟩ := batch_rows h
  rw [hrows]
  exact List.mem_append_left _ hx

/-- What a batch embeds needs no embedding any more, and nothing else changes. -/
theorem needing_batch (hneeded : ∀ c ∈ cands, c ∈ needing cat scope t)
    (h : run_embedding_batch blake2b provider t cands = some (u, count)) :
    needing cat scope u = (needing cat scope t).filter fun c => c ∉ cands := by
  obtain ⟨added, hrows, hentries, -⟩ := batch_rows h
  rw [needing, needing, List.filter_filter]
  refine List.filter_congr fun c hc => ?_
  have hkeys : u.rows.map FsEntryEmbedding.entry
      = t.rows.map FsEntryEmbedding.entry ++ cands.map EmbedCandidate.entry := by
    rw [hrows, List.map_append, hentries]
  have hfresh : c.entry ∈ cands.map EmbedCandidate.entry ↔ c ∈ cands := by
    constructor
    · intro hmem
      obtain ⟨c', hc', hentry⟩ := List.mem_map.mp hmem
      rw [← candidate_of_entry (needing_candidate (hneeded c' hc')) hc hentry]
      exact hc'
    · exact List.mem_map_of_mem
  rw [Bool.eq_iff_iff, Bool.and_eq_true, Option.isNone_iff_eq_none, Option.isNone_iff_eq_none, Table.find_none_iff,
    Table.find_none_iff, hkeys, List.mem_append, hfresh, decide_eq_true_iff, not_or, and_comm]

theorem needing_length (hchosen : RowsNeedingEmbedding cat scope t limit cands)
    (h : run_embedding_batch blake2b provider t cands = some (u, count)) :
    (needing cat scope u).length = (needing cat scope t).length - limit := by
  have hnodup : (needing cat scope t).Nodup := (nodup_candidates cat scope).filter _
  have hchosen_perm : ((needing cat scope t).filter fun c => c ∈ cands).Perm cands := by
    rw [List.perm_ext_iff_of_nodup (hnodup.filter _) hchosen.distinct]
    intro c
    rw [List.mem_filter, decide_eq_true_iff]
    exact ⟨fun hc => hc.2, fun hc => ⟨hchosen.needed c hc, hc⟩⟩
  have hrest : needing cat scope u = (needing cat scope t).filter fun c => !decide (c ∈ cands) := by
    rw [needing_batch hchosen.needed h]
    exact List.filter_congr fun c _ => decide_not
  have hsplit := (needing cat scope t).length_eq_length_filter_add fun c => decide (c ∈ cands)
  rw [hchosen_perm.length_eq, ← hrest, hchosen.length] at hsplit
  omega

theorem drains_spec {worker : EmbeddingWorker} {n : ℕ} (h : Drains blake2b worker cat n t u) :
    (∀ x ∈ t.rows, x ∈ u.rows) ∧ (∀ x ∈ u.rows, x ∈ t.rows ∨ Right blake2b cat x) ∧
      ((needing cat none t).length ≤ n * worker.batch → needing cat none u = []) := by
  induction n generalizing t with
  | zero =>
      obtain rfl : u = t := h
      refine ⟨fun _ hx => hx, fun _ hx => Or.inl hx, fun hlength => ?_⟩
      rw [Nat.zero_mul, Nat.le_zero] at hlength
      exact List.eq_nil_of_length_eq_zero hlength
  | succ n ih =>
      obtain ⟨cands, provider, v, count, hchosen, hbatch, hrest⟩ := h
      obtain ⟨hkeeps, hright, hdone⟩ := ih hrest
      refine ⟨fun x hx => hkeeps x (batch_keeps hbatch hx), fun x hx => ?_, fun hlength => hdone ?_⟩
      · rcases hright x hx with hv | hx
        · exact right_of_batch hchosen.needed hbatch hv
        · exact Or.inr hx
      · rw [needing_length hchosen hbatch]
        rw [Nat.succ_mul] at hlength
        omega

/-- The worker's next batch goes through when the provider answers. -/
theorem batch_goes_through [Inhabited V] (blake2b : String → String) (hchosen : RowsNeedingEmbedding cat scope t limit cands) :
    ∃ u count, run_embedding_batch blake2b (fun texts => some (texts.map fun _ => (default : V))) t cands
      = some (u, count) := by
  by_cases hnil : cands = []
  · exact ⟨t, 0, by rw [run_embedding_batch, if_pos hnil]⟩
  · have hlength : ((cands.map fun c => embed_text c.name c.path).map fun _ => (default : V)).length = cands.length := by
      rw [List.length_map, List.length_map]
    have hentries := entries_embedded blake2b hlength
    have hinj : ∀ c ∈ cands, ∀ c' ∈ cands, c.entry = c'.entry → c = c' := fun c hc c' hc' =>
      candidate_of_entry (needing_candidate (hchosen.needed c hc)) (needing_candidate (hchosen.needed c' hc'))
    -- the candidates have entries of their own, and none of them is embedded
    have hinsert := Table.insert_all_of_new (t := t) (hentries ▸ hchosen.distinct.map_on hinj) (by
      intro x hx
      obtain ⟨⟨c, vector⟩, hmem, rfl⟩ := List.mem_map.mp hx
      exact Option.isNone_iff_eq_none.mp (List.mem_filter.mp (hchosen.needed c (List.of_mem_zip hmem).1)).2)
    obtain ⟨u, hu⟩ := hinsert
    refine ⟨u, cands.length, ?_⟩
    rw [run_embedding_batch, if_neg hnil, Option.bind_some, if_pos hlength, hu]
    rfl

theorem drains_exist [Inhabited V] (blake2b : String → String) (worker : EmbeddingWorker) (cat : Catalogue) (n : ℕ)
    (t : EmbeddingTable V) : ∃ u, Drains blake2b worker cat n t u := by
  induction n generalizing t with
  | zero => exact ⟨t, rfl⟩
  | succ n ih =>
      have hchosen : RowsNeedingEmbedding cat none t worker.batch ((needing cat none t).take worker.batch) := by
        refine ⟨?_, fun c hc => List.mem_of_mem_take hc, List.length_take⟩
        exact ((nodup_candidates cat none).filter _).sublist (List.take_sublist _ _)
      obtain ⟨v, count, hbatch⟩ := batch_goes_through (V := V) blake2b hchosen
      obtain ⟨u, hrest⟩ := ih v
      exact ⟨u, _, _, v, count, hchosen, hbatch, hrest⟩

/-- **Right rows that nothing is missing from are current.** -/
theorem current_of_right (hright : ∀ x ∈ t.rows, Right blake2b cat x) (hdone : needing cat none t = []) :
    Current blake2b cat t := by
  refine ⟨fun i r hr hembeddable => ?_, fun x hx => ?_⟩
  · have hcand : candidate r i ∈ candidates cat none := mem_candidates.mpr ⟨r, hr, hembeddable, rfl⟩
    have hmissing := List.filter_eq_nil_iff.mp hdone _ hcand
    cases hfind : t.find (candidate r i).entry with
    | none =>
        rw [hfind] at hmissing
        exact absurd rfl hmissing
    | some x =>
        have hentry : x.entry = ⟨i, r.host_id, r.volume_id⟩ := Table.key_of_find hfind
        obtain ⟨r', hr', -, -, -, hbears⟩ := hright x (Table.mem_of_find hfind)
        -- the row of the embedding is the row with the id
        rw [show x.entry_id = i from congrArg EntryRef.entry_id hentry, hr, Option.some.injEq] at hr'
        refine ⟨x, ?_, ?_⟩
        · rw [Table.filter_key, show t.find ⟨i, r.host_id, r.volume_id⟩ = some x from hfind, Option.toList_some]
        · rw [hr']
          exact hbears.2.symm
  · obtain ⟨r, hr, hembeddable, hhost, hvolume, -⟩ := hright x hx
    exact ⟨r, hr, hembeddable, hhost, hvolume⟩

/-- **The index settles to the current one exactly when it is sound.** -/
theorem settles_current_iff [Inhabited V] {worker : EmbeddingWorker} {s : Index V} (hplaced : Placed s.cat s.embeddings) :
    SettlesCurrent blake2b worker s ↔ Sound blake2b s.cat s.embeddings := by
  constructor
  · intro h x hx r hr hpresent
    obtain ⟨r', hr', hhost, hvolume, -⟩ := hplaced x hx
    rw [hr, Option.some.injEq] at hr'
    rw [← hr'] at hhost hvolume
    have hpruned : x ∈ (prune_orphan_embeddings s.cat s.embeddings).1.rows :=
      mem_prune.mpr ⟨hx, orphan_false_iff.mpr ⟨r, hr, hhost, hvolume, hpresent⟩⟩
    -- an embedding that is not pruned is there when the worker is done
    obtain ⟨u, hdrains⟩ := h.goes_through (needing s.cat none (prune_orphan_embeddings s.cat s.embeddings).1).length
    have hcurrent := h.current _ u (Nat.le_mul_of_pos_right _ worker.batch_pos) hdrains
    have hmem := (drains_spec hdrains).1 x hpruned
    obtain ⟨r'', hr'', hembeddable, -, -⟩ := hcurrent.no_other x hmem
    rw [hr, Option.some.injEq] at hr''
    rw [← hr''] at hembeddable
    obtain ⟨y, hy, hhash⟩ := hcurrent.one x.entry_id r hr hembeddable
    have hxy : x ∈ u.rows.filter fun z => z.entry = ⟨x.entry_id, r.host_id, r.volume_id⟩ := by
      refine List.mem_filter.mpr ⟨hmem, decide_eq_true ?_⟩
      rw [FsEntryEmbedding.entry, hhost, hvolume]
    rw [hy, List.mem_singleton] at hxy
    rw [hxy]
    exact ⟨(embeddable_iff.mp hembeddable).2.1, hhash.symm⟩
  · refine fun hsound => ⟨fun n => drains_exist blake2b worker s.cat n _, fun n t hlength hdrains => ?_⟩
    obtain ⟨-, hright, hdone⟩ := drains_spec hdrains
    refine current_of_right (fun x hx => ?_) (hdone hlength)
    rcases hright x hx with hpruned | hx
    · obtain ⟨hx, horphan⟩ := mem_prune.mp hpruned
      obtain ⟨r, hr, hhost, hvolume, hpresent⟩ := orphan_false_iff.mp horphan
      obtain ⟨r', hr', -, -, hdata⟩ := hplaced x hx
      have hbears := hsound x hx r hr hpresent
      rw [hr, Option.some.injEq] at hr'
      rw [← hr'] at hdata
      exact ⟨r, hr, embeddable_iff.mpr ⟨hpresent, hbears.1, hdata⟩, hhost, hvolume, hbears⟩
    · exact hx

/-! ## Ticks -/

theorem Right.placed (h : Right blake2b cat x) :
    ∃ r, row_at cat x.entry_id = some r ∧ r.host_id = x.host_id ∧ r.volume_id = x.volume_id ∧
      DataVolume cat r.volume_id := by
  obtain ⟨r, hr, hembeddable, hhost, hvolume, -⟩ := h
  exact ⟨r, hr, hhost, hvolume, (embeddable_iff.mp hembeddable).2.2⟩

theorem Right.sound (h : Right blake2b cat x) {r : FsEntryRow} (hr : row_at cat x.entry_id = some r) :
    Bears blake2b x r := by
  obtain ⟨r', hr', -, -, -, hbears⟩ := h
  rw [hr, Option.some.injEq] at hr'
  rw [hr']
  exact hbears

/-- After a tick an embedding was there before, or is right. -/
theorem right_of_tick (hneeded : ∀ c ∈ cands, c ∈ needing cat none (prune_orphan_embeddings cat t).1)
    (hx : x ∈ (tick blake2b cat provider t cands).rows) : x ∈ t.rows ∨ Right blake2b cat x := by
  rw [tick] at hx
  split at hx
  · rename_i u count hbatch
    rcases right_of_batch hneeded hbatch hx with hpruned | hright
    · exact Or.inl (mem_prune.mp hpruned).1
    · exact Or.inr hright
  · exact Or.inl hx

theorem Placed.tick (h : Placed cat t) (hneeded : ∀ c ∈ cands, c ∈ needing cat none (prune_orphan_embeddings cat t).1) :
    Placed cat (tick blake2b cat provider t cands) := by
  intro x hx
  rcases right_of_tick hneeded hx with hold | hright
  · exact h x hold
  · exact hright.placed

theorem Sound.tick (h : Sound blake2b cat t)
    (hneeded : ∀ c ∈ cands, c ∈ needing cat none (prune_orphan_embeddings cat t).1) :
    Sound blake2b cat (tick blake2b cat provider t cands) := by
  intro x hx r hr hpresent
  rcases right_of_tick hneeded hx with hold | hright
  · exact h x hold r hr hpresent
  · exact hright.sound hr

end

end Fathom.Concierge
