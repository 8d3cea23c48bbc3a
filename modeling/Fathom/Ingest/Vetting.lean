/-
**What stands in the catalogue below a mountpoint** (`_vet_entries` and
`IngestService.ingest`).

Every stored path is a normal form, at or below the mountpoint of its volume, and its
depth counts the components below that. The mountpoint is a normal form, too, or the
batch is refused; so a directory has one spelling in the catalogue of a host, but for what
the normal forms leave open: POSIX keeps exactly two leading slashes, and `\\.\` is not
stripped as `\\?\` is.
-/
import Fathom.Security.Canonical
import Fathom.Ingest.Hashes

set_option autoImplicit false

namespace Fathom.Ingest

open Fathom.Security

/-! ## Spellings -/

/-- The prefixes with which one directory is spelled in more than one way. -/
inductive Spelling where
  | plain
  /-- `//mnt` is `/mnt` -/
  | slashes
  /-- `\\?\C:\data` is `C:\data` -/
  | long
  /-- `\\?\UNC\server\share` is `\\server\share` -/
  | long_unc
  /-- `\\.\C:\data` is `C:\data` -/
  | device
  /-- `\\.\UNC\server\share` is `\\server\share` -/
  | device_unc
  deriving DecidableEq

def Spelling.prefix_text : Spelling → List Char
  | .plain => []
  | .slashes => "//".toList
  | .long => "\\\\?\\".toList
  | .long_unc => "\\\\?\\UNC\\".toList
  | .device => "\\\\.\\".toList
  | .device_unc => "\\\\.\\UNC\\".toList

/-- What stands in the place of the prefix in the plain spelling. -/
def Spelling.plain_text : Spelling → List Char
  | .slashes => "/".toList
  | .long_unc => "\\\\".toList
  | .device_unc => "\\\\".toList
  | _ => []

/-- The prefixes, longer ones before those they start with. -/
def spellings : List Spelling := [.long_unc, .long, .device_unc, .device, .slashes]

/-- How a text is spelled. -/
def spelling (text : List Char) : Spelling :=
  (spellings.find? fun s => s.prefix_text.isPrefixOf text).getD .plain

/-- The plain spelling. -/
def plain_spelling (text : List Char) : List Char :=
  (spelling text).plain_text ++ text.drop (spelling text).prefix_text.length

/-- **Two mountpoints are spellings of one directory.** -/
def SameDirectory (mountpoint other : String) : Prop := plain_spelling mountpoint.toList = plain_spelling other.toList

instance (mountpoint other : String) : Decidable (SameDirectory mountpoint other) :=
  inferInstanceAs (Decidable (plain_spelling mountpoint.toList = plain_spelling other.toList))

theorem prefix_of_spelling (text : List Char) : (spelling text).prefix_text <+: text := by
  rw [spelling]
  cases hfind : spellings.find? fun s => s.prefix_text.isPrefixOf text with
  | none => exact List.nil_prefix
  | some s =>
      have hprefix : s.prefix_text.isPrefixOf text = true :=
        List.find?_some (p := fun s : Spelling => s.prefix_text.isPrefixOf text) hfind
      exact List.isPrefixOf_iff_prefix.mp hprefix

theorem prefix_append_rest (text : List Char) :
    (spelling text).prefix_text ++ text.drop (spelling text).prefix_text.length = text :=
  (List.prefix_iff_eq_append.mp (prefix_of_spelling text))

/-- A text is known from its plain spelling and the way it is spelled. -/
theorem eq_of_same_spelling {mountpoint other : String} (h : SameDirectory mountpoint other)
    (hspelling : spelling mountpoint.toList = spelling other.toList) : mountpoint = other := by
  have hplain : (spelling mountpoint.toList).plain_text ++ mountpoint.toList.drop (spelling mountpoint.toList).prefix_text.length
      = (spelling other.toList).plain_text ++ other.toList.drop (spelling other.toList).prefix_text.length := h
  rw [hspelling] at hplain
  have hrest := List.append_cancel_left hplain
  apply String.toList_injective
  rw [← prefix_append_rest mountpoint.toList, ← prefix_append_rest other.toList, hspelling, hrest]

/-! ## Stored paths -/

/-- **A row lies at or below a mountpoint**: its path is a normal form, and is the
mountpoint with as many components below it as the depth says. -/
def StoredBelow (lower : String → String) (mountpoint : String) (r : FsEntryRow) : Prop :=
  ∃ mount p below, validate_agent_path mountpoint = .ok mount ∧ mount.str = mountpoint ∧
    Normalised r.path p ∧ Below lower mount p below ∧ r.depth = below.length

/-- Every row lies below the mountpoint of its volume. -/
def Vetted (lower : String → String) (cat : Catalogue) : Prop :=
  ∀ r ∈ cat.fs_entry.rows, ∀ v ∈ cat.volumes.rows, v.id = r.volume_id → StoredBelow lower v.mountpoint r

/-- The volumes of a host that are one directory are one volume. -/
def OneVolumeEach (cat : Catalogue) : Prop :=
  ∀ v ∈ cat.volumes.rows, ∀ w ∈ cat.volumes.rows, v.host_id = w.host_id →
    SameDirectory v.mountpoint w.mountpoint → v.id = w.id

/-- Of the batches of a host, those for one directory spell it alike. -/
def SpelledAlike (pushes : List Push) : Prop :=
  ∀ p ∈ pushes, ∀ q ∈ pushes, p.cert_fingerprint = q.cert_fingerprint →
    SameDirectory p.batch.volume.mountpoint q.batch.volume.mountpoint →
      spelling p.batch.volume.mountpoint.toList = spelling q.batch.volume.mountpoint.toList

section

variable {server : Server}

/-- An entry that is vetted lies below the mountpoint. -/
theorem vet_entries_below (hlower : Lowers server.lower) {mountpoint : String} {mount : PurePath}
    (hmount : validate_agent_path mountpoint = .ok mount) (hcanonical : mount.str = mountpoint) {mode : Mode}
    {now : Instant} {entries : List EntryFrame} {v : VettedRow}
    (hv : v ∈ vet_entries server.lower mount mode now entries) (host_id volume_id snapshot_id : ℕ) :
    StoredBelow server.lower mountpoint (entry_row host_id volume_id snapshot_id v) := by
  obtain ⟨e, -, hvet⟩ := List.mem_filterMap.mp hv
  rw [vet_entry] at hvet
  split at hvet
  · exact absurd hvet (by simp)
  rename_i candidate hcandidate
  split at hvet
  · rename_i hwithin
    obtain ⟨below, hbelow, hdepth, hnormal⟩ := below_of_within hlower hmount hcanonical hcandidate hwithin
    rw [← Option.some.inj hvet]
    exact ⟨mount, candidate, below, hmount, hcanonical, hnormal, hbelow, hdepth⟩
  · exact absurd hvet (by simp)

/-! ### What a run keeps -/

/-- The catalogue after some batches: paths are vetted, ids tell hosts and volumes apart,
and the volumes are those of the batches. -/
structure Built (lower : String → String) (pushes : List Push) (cat : Catalogue) : Prop where
  vetted : Vetted lower cat
  host_ids : ∀ g ∈ cat.hosts.rows, ∀ h ∈ cat.hosts.rows, g.id = h.id → g = h
  volume_ids : ∀ v ∈ cat.volumes.rows, ∀ w ∈ cat.volumes.rows, v.id = w.id → v = w
  stored : ∀ p ∈ pushes, ∃ host volume, cat.hosts.find p.cert_fingerprint = some host ∧
    cat.volumes.find ⟨host.id, p.batch.volume.mountpoint⟩ = some volume
  asked : ∀ v ∈ cat.volumes.rows, ∃ p ∈ pushes, ∃ host, cat.hosts.find p.cert_fingerprint = some host ∧
    v.location = ⟨host.id, p.batch.volume.mountpoint⟩

variable {cat : Catalogue} {batch : IngestBatch} {cert_fingerprint : String} {now : Instant} {mount : PurePath}
  {snapshot : Snapshot}

theorem host_of_find (cat : Catalogue) (batch : IngestBatch) (cert_fingerprint : String) (now : Instant) :
    (cat.hosts.put (cat.host_of batch cert_fingerprint now)).find cert_fingerprint
      = some (cat.host_of batch cert_fingerprint now) := by
  have hself := Table.find_put_self cat.hosts (cat.host_of batch cert_fingerprint now)
  rwa [show (cat.host_of batch cert_fingerprint now).cert_fingerprint = cert_fingerprint from
    host_row_fingerprint _ _ _ _] at hself

/-- A host is found under its certificate as before, with its id. -/
theorem host_kept (batch : IngestBatch) (cert_fingerprint : String) (now : Instant) {other : String} {host : Host}
    (h : cat.hosts.find other = some host) :
    ∃ host', (cat.hosts.put (cat.host_of batch cert_fingerprint now)).find other = some host' ∧ host'.id = host.id := by
  by_cases hother : other = cert_fingerprint
  · rw [hother] at h ⊢
    exact ⟨_, host_of_find cat batch cert_fingerprint now, host_row_id h⟩
  · refine ⟨host, ?_, rfl⟩
    rw [Table.find_put_ne _ (by rwa [Catalogue.host_of, host_row_fingerprint])]
    exact h

theorem host_ids_put (h : ∀ g ∈ cat.hosts.rows, ∀ h ∈ cat.hosts.rows, g.id = h.id → g = h) :
    ∀ g ∈ (cat.hosts.put (cat.host_of batch cert_fingerprint now)).rows,
      ∀ h ∈ (cat.hosts.put (cat.host_of batch cert_fingerprint now)).rows, g.id = h.id → g = h := by
  have hkey : (cat.host_of batch cert_fingerprint now).cert_fingerprint = cert_fingerprint :=
    host_row_fingerprint _ _ _ _
  refine Table.column_put_inj h ?_ ?_
  · intro row hrow
    rw [hkey] at hrow
    exact (host_row_id hrow).symm
  · intro hnone
    rw [hkey] at hnone
    rw [Catalogue.host_of, host_row, hnone]
    exact next_id_fresh _

theorem volume_ids_put (batch : IngestBatch) (cert_fingerprint : String) (now : Instant) (h : ∀ v ∈ cat.volumes.rows, ∀ w ∈ cat.volumes.rows, v.id = w.id → v = w) :
    ∀ v ∈ (cat.volumes.put (cat.volume_of batch cert_fingerprint now)).rows,
      ∀ w ∈ (cat.volumes.put (cat.volume_of batch cert_fingerprint now)).rows, v.id = w.id → v = w := by
  refine Table.column_put_inj h ?_ ?_
  · intro row hrow
    exact (upsert_volume_id hrow).symm
  · intro hnone
    have hnone : cat.volumes.find ⟨(cat.host_of batch cert_fingerprint now).id, batch.volume.mountpoint⟩ = none := hnone
    show ((cat.volumes.find ⟨(cat.host_of batch cert_fingerprint now).id, batch.volume.mountpoint⟩).map
      Volume.id).getD _ ∉ _
    rw [hnone]
    exact next_id_fresh _

/-- A volume with the id of a row already there has the mountpoint it had. -/
theorem volume_put_old {v : Volume} (hv : v ∈ (cat.volumes.put (cat.volume_of batch cert_fingerprint now)).rows)
    (hid : v.id ∈ cat.volumes.rows.map Volume.id) : ∃ w ∈ cat.volumes.rows, w.id = v.id ∧ w.mountpoint = v.mountpoint := by
  rcases Table.mem_put hv with rfl | ⟨hold, -⟩
  · rcases hfind : cat.volumes.find ⟨(cat.host_of batch cert_fingerprint now).id, batch.volume.mountpoint⟩ with _ | w
    · -- a new volume has a new id
      exfalso
      have hnew : (cat.volume_of batch cert_fingerprint now).id = next_id (cat.volumes.rows.map Volume.id) := by
        show ((cat.volumes.find ⟨(cat.host_of batch cert_fingerprint now).id, batch.volume.mountpoint⟩).map
          Volume.id).getD _ = _
        rw [hfind]
        rfl
      rw [hnew] at hid
      exact next_id_fresh _ hid
    · refine ⟨w, Table.mem_of_find hfind, (upsert_volume_id hfind).symm, ?_⟩
      exact congrArg Location.mountpoint (Table.key_of_find hfind)
  · exact ⟨v, hold, rfl, rfl⟩

theorem StoredBelow.of_columns {lower : String → String} {mountpoint : String} {r x : FsEntryRow}
    (h : StoredBelow lower mountpoint x) (hpath : r.path = x.path) (hdepth : r.depth = x.depth) :
    StoredBelow lower mountpoint r := by
  obtain ⟨mount, p, below, hmount, hcanonical, hnormal, hbelow, hx⟩ := h
  exact ⟨mount, p, below, hmount, hcanonical, hpath ▸ hnormal, hbelow, hdepth.trans hx⟩

variable {pushes : List Push}

/-- **The entries of a batch keep the rows vetted.** -/
theorem Built.vetted_step (hlower : Lowers server.lower) (h : Built server.lower pushes cat)
    (haccepted : Accepted server cat batch cert_fingerprint now mount snapshot) :
    Vetted server.lower (commit_batch server cat batch cert_fingerprint now mount snapshot).1 := by
  obtain ⟨hmount, hcanonical⟩ := check_batch_ok haccepted.checked
  have hids := volume_ids_put batch cert_fingerprint now h.volume_ids
  have hwritten : ∀ r ∈ (upsert_entries cat.fs_entry (cat.host_of batch cert_fingerprint now).id
      (cat.volume_of batch cert_fingerprint now).id snapshot.id batch.mode
      (vet_entries server.lower mount batch.mode now batch.entries)).rows,
      ∀ v ∈ (cat.volumes.put (cat.volume_of batch cert_fingerprint now)).rows, v.id = r.volume_id →
        StoredBelow server.lower v.mountpoint r := by
    refine Table.forall_upsert_many_at (Q := fun x => ∀ v ∈ (cat.volumes.put
      (cat.volume_of batch cert_fingerprint now)).rows, v.id = x.volume_id →
        StoredBelow server.lower v.mountpoint x) ?_ ?_ (fun x hx => hx) ?_
    · intro r hr v hv hid
      obtain ⟨w, hw, hwid, hmountpoint⟩ := volume_put_old hv (hid ▸ cat.entry_volume r hr)
      rw [← hmountpoint]
      exact h.vetted r hr w hw (hwid.trans hid)
    · intro x hx v hv hid
      obtain ⟨e, he, rfl⟩ := List.mem_map.mp hx
      rw [hids v hv _ (Table.mem_put_self _ _) hid]
      exact vet_entries_below hlower hmount hcanonical he _ _ _
    · intro r x hkey _ hx v hv hid
      have hvolume : r.volume_id = x.volume_id := congrArg EntryKey.volume_id hkey
      refine StoredBelow.of_columns (hx v hv ?_) ?_ ?_
      · rw [hid]
        cases batch.mode with
        | metadata => exact hvolume
        | fullbit => exact hvolume
      · cases batch.mode with
        | metadata => rfl
        | fullbit => rfl
      · cases batch.mode with
        | metadata => rfl
        | fullbit => rfl
  intro r hr v hv hid
  have hr : r ∈ (cat.apply_of server batch cert_fingerprint now mount snapshot).fs_entry.rows := hr
  rw [Catalogue.apply_of] at hr
  cases hmode : batch.mode with
  | fullbit =>
      rw [hmode] at hr hwritten
      exact hwritten r hr v hv hid
  | metadata =>
      -- a removal touches neither the path nor the depth
      rw [hmode] at hr hwritten
      obtain ⟨r', hr', rfl⟩ := List.mem_map.mp hr
      refine StoredBelow.of_columns (hwritten r' hr' v hv ?_) ?_ ?_
      · rw [hid]
        split
        · rfl
        · rfl
      · split
        · rfl
        · rfl
      · split
        · rfl
        · rfl

/-- **One batch.** -/
theorem Built.step (hlower : Lowers server.lower) (h : Built server.lower pushes cat)
    (haccepted : Accepted server cat batch cert_fingerprint now mount snapshot) :
    Built server.lower (pushes ++ [⟨batch, cert_fingerprint, now⟩])
      (commit_batch server cat batch cert_fingerprint now mount snapshot).1 := by
  refine ⟨h.vetted_step hlower haccepted, host_ids_put h.host_ids, volume_ids_put _ _ _ h.volume_ids, ?_, ?_⟩
  · intro p hp
    rcases List.mem_append.mp hp with hold | hnew
    · obtain ⟨host, volume, hhost, hvolume⟩ := h.stored p hold
      obtain ⟨host', hhost', hid⟩ := host_kept batch cert_fingerprint now hhost
      refine ⟨host', ?_⟩
      show ∃ volume, _ ∧ (cat.volumes.put (cat.volume_of batch cert_fingerprint now)).find _ = some volume
      rw [hid]
      by_cases hlocation : (⟨host.id, p.batch.volume.mountpoint⟩ : Location)
          = (cat.volume_of batch cert_fingerprint now).location
      · rw [hlocation]
        exact ⟨_, hhost', Table.find_put_self _ _⟩
      · rw [Table.find_put_ne _ hlocation]
        exact ⟨volume, hhost', hvolume⟩
    · obtain rfl := List.mem_singleton.mp hnew
      exact ⟨_, _, host_of_find cat batch cert_fingerprint now, Table.find_put_self _ _⟩
  · intro v hv
    rcases Table.mem_put hv with rfl | ⟨hold, -⟩
    · exact ⟨_, List.mem_append_right _ List.mem_cons_self, _, host_of_find cat batch cert_fingerprint now, rfl⟩
    · obtain ⟨p, hp, host, hhost, hlocation⟩ := h.asked v hold
      obtain ⟨host', hhost', hid⟩ := host_kept batch cert_fingerprint now hhost
      exact ⟨p, List.mem_append_left _ hp, host', hhost', by rw [hid]; exact hlocation⟩

/-- **After any batches.** -/
theorem built {a : Archive} (hlower : Lowers server.lower) (h : (archiving server).Trace pushes a) :
    Built server.lower pushes a.cat := by
  refine h.induct (P := fun pushes a => Built server.lower pushes a.cat) ?_ ?_
  · rintro a rfl
    refine ⟨?_, ?_, ?_, ?_, ?_⟩
    · exact fun r hr => absurd hr List.not_mem_nil
    · exact fun g hg => absurd hg List.not_mem_nil
    · exact fun v hv => absurd hv List.not_mem_nil
    · exact fun p hp => absurd hp List.not_mem_nil
    · exact fun v hv => absurd hv List.not_mem_nil
  · intro pushes a p a' _ hbuilt hstep
    obtain ⟨mount, snapshot, haccepted, rfl⟩ := archiving_step hstep
    exact hbuilt.step hlower haccepted

/-- The mountpoints of the volumes are normal forms. -/
theorem canonical_mountpoints {a : Archive} (h : (archiving server).Trace pushes a) :
    ∀ v ∈ a.cat.volumes.rows, ∃ mount, validate_agent_path v.mountpoint = .ok mount ∧ mount.str = v.mountpoint := by
  refine h.induct (P := fun _ a => ∀ v ∈ a.cat.volumes.rows, ∃ mount, validate_agent_path v.mountpoint = .ok mount ∧
    mount.str = v.mountpoint) ?_ ?_
  · rintro a rfl v hv
    exact absurd hv List.not_mem_nil
  · intro pushes a p a' _ hmounts hstep v hv
    obtain ⟨mount, snapshot, haccepted, rfl⟩ := archiving_step hstep
    rcases Table.mem_put hv with rfl | ⟨hold, -⟩
    · exact ⟨mount, check_batch_ok haccepted.checked⟩
    · exact hmounts v hold

/-! ### One volume a directory -/

/-- **The volumes of a host are told apart by directory** exactly when its batches spell
each directory alike. -/
theorem Built.one_volume_each_iff {lower : String → String} (h : Built lower pushes cat) :
    OneVolumeEach cat ↔ SpelledAlike pushes := by
  constructor
  · intro hone p hp q hq hhost hsame
    obtain ⟨host, v, hfind, hv⟩ := h.stored p hp
    obtain ⟨host', w, hfind', hw⟩ := h.stored q hq
    rw [hhost, hfind', Option.some.injEq] at hfind
    rw [hfind] at hw
    have hvkey := Table.key_of_find hv
    have hwkey := Table.key_of_find hw
    have hid := hone v (Table.mem_of_find hv) w (Table.mem_of_find hw)
      ((congrArg Location.host_id hvkey).trans (congrArg Location.host_id hwkey).symm) ?_
    · have hrow := h.volume_ids v (Table.mem_of_find hv) w (Table.mem_of_find hw) hid
      rw [← show v.mountpoint = p.batch.volume.mountpoint from congrArg Location.mountpoint hvkey,
        ← show w.mountpoint = q.batch.volume.mountpoint from congrArg Location.mountpoint hwkey, hrow]
    · rw [show v.mountpoint = p.batch.volume.mountpoint from congrArg Location.mountpoint hvkey,
        show w.mountpoint = q.batch.volume.mountpoint from congrArg Location.mountpoint hwkey]
      exact hsame
  · intro halike v hv w hw hhost hsame
    obtain ⟨p, hp, host, hfind, hvkey⟩ := h.asked v hv
    obtain ⟨q, hq, host', hfind', hwkey⟩ := h.asked w hw
    -- the ids of the hosts are the same, so the certificates are
    have hids : host.id = host'.id := by
      rw [← show v.host_id = host.id from congrArg Location.host_id hvkey,
        ← show w.host_id = host'.id from congrArg Location.host_id hwkey, hhost]
    have hrow := h.host_ids host (Table.mem_of_find hfind) host' (Table.mem_of_find hfind') hids
    have hcert : p.cert_fingerprint = q.cert_fingerprint := by
      rw [← Table.key_of_find hfind, ← Table.key_of_find hfind', hrow]
    have hvmount : v.mountpoint = p.batch.volume.mountpoint := congrArg Location.mountpoint hvkey
    have hwmount : w.mountpoint = q.batch.volume.mountpoint := congrArg Location.mountpoint hwkey
    have hmount : v.mountpoint = w.mountpoint := by
      refine eq_of_same_spelling hsame ?_
      rw [hvmount, hwmount] at hsame ⊢
      exact halike p hp q hq hcert hsame
    rw [Table.eq_of_key hv hw (show v.location = w.location by rw [Volume.location, Volume.location, hhost, hmount])]

/-- **What server-side vetting gives.** After any accepted batches each stored path is a
normal form at or below its volume's mountpoint, with its depth below it; and a directory
is one volume of a host exactly when the host's batches spell it in one way. -/
theorem vetted_and_one_volume_each_iff {pushes : List Push} {a : Archive} (hlower : Lowers server.lower)
    (h : (archiving server).Trace pushes a) :
    Vetted server.lower a.cat ∧ (OneVolumeEach a.cat ↔ SpelledAlike pushes) :=
  ⟨(built hlower h).vetted, (built hlower h).one_volume_each_iff⟩

end

/-- An empty batch for the volume at a mountpoint. -/
def batch_at (mountpoint : String) : IngestBatch :=
  { sample_batch .metadata [] [] with
    volume := { (sample_batch .metadata [] []).volume with mountpoint } }

/-- Lower-case texts are lowered to themselves. -/
theorem lowers_id : Lowers id where
  sep := fun text => by
    have hid : lowered id = id := by
      funext name
      exact String.toList_ofList
    rw [hid, List.map_id]
    rfl
  empty := fun text => by
    rw [show lowered id text = text from String.toList_ofList]
  mark := fun text => by
    rw [show lowered id text = text from String.toList_ofList]

/-- Two files of one volume. -/
theorem vetted_two_files :
    Vetted sample_server.lower (archived [two_alike "f"]).cat ∧
      (OneVolumeEach (archived [two_alike "f"]).cat ↔ SpelledAlike [⟨two_alike "f", "fp", 0⟩]) :=
  vetted_and_one_volume_each_iff lowers_id ⟨_, rfl, rfl⟩

/-- `/m` and `//m` are both canonical: the host has two volumes of one directory. -/
theorem two_volumes_of_one_directory :
    ¬ ∀ (server : Server) (pushes : List Push) (a : Archive), Lowers server.lower →
      (archiving server).Trace pushes a → Vetted server.lower a.cat ∧ OneVolumeEach a.cat := by
  intro hall
  have hone := (hall sample_server [⟨batch_at "/m", "fp", 0⟩, ⟨batch_at "//m", "fp", 0⟩] _ lowers_id
    ⟨_, rfl, rfl⟩).2
  revert hone
  unfold OneVolumeEach
  decide

end Fathom.Ingest
