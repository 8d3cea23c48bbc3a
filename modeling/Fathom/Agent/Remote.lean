/-
**Remote scan targets** (`agent/config.py`): what `RemoteBackendConfig` accepts, and the mount
its `catalogue_mount` makes of it.

The mount is put together from free texts and normalised afterwards, and each text is checked
on its own. A host of two dots takes the protocol along, a path without a leading slash runs
into the host or the share before it, and a share with a slash in it is one with its path:
`Regular` names the configurations where none of this happens, and those are exactly the ones
that can stand beside all of each other (`namespaced_insert_iff`).
-/
import Fathom.Security.Canonical
import Mathlib.Data.List.DropRight
import Mathlib.Data.Set.Insert

set_option autoImplicit false

namespace Fathom.Agent

open Fathom.Security

attribute [local instance] lawful_text

/-- `RemoteProtocol`. -/
inductive RemoteProtocol where
  | smb
  | sftp
  | rclone
  deriving DecidableEq

/-- The fields of `RemoteBackendConfig`. -/
structure RemoteBackendFields where
  protocol : RemoteProtocol
  host : String
  share : Option String := none
  remote_path : String := "/"
  port : Option Int := none
  username : Option String := none
  password_ref : Option String := none
  private_key_ref : Option String := none
  verify : Bool := true
  lab_insecure : Bool := false
  deriving DecidableEq

namespace RemoteBackendFields

/-- The constraints of the fields. -/
def check_fields (c : RemoteBackendFields) : Except String Unit :=
  if c.host.toList.length < 1 ∨ c.remote_path.toList.length < 1 then
    .error "String should have at least 1 character"
  else if c.port.any (· ≤ 0) then .error "Input should be greater than 0"
  else .ok ()

/-- `_host_no_scheme`. -/
def host_no_scheme (c : RemoteBackendFields) : Except String Unit :=
  if "://".toList <:+: c.host.toList ∨ '/' ∈ c.host.toList ∨ '\\' ∈ c.host.toList then
    .error "host must be a bare hostname/IP, no scheme or path components"
  else .ok ()

/-- The characters no path may have. -/
def is_control (c : Char) : Bool := c.toNat < 32 || (127 ≤ c.toNat && c.toNat ≤ 159)

/-- The checks of `remote_path` and of `share`. -/
def check_text (label : String) (val : Option String) : Except String Unit :=
  let cs := (val.getD "").toList
  if cs = [] then .ok ()
  else if cs.any is_control then .error (label ++ " must not contain control characters")
  else if '\\' ∈ cs then .error (label ++ " must not contain a backslash")
  else if ['.', '.'] ∈ cs.splitOn '/' then .error (label ++ " must not contain a '..' path-traversal segment")
  else .ok ()

/-- A text that is there and not empty. -/
def truthy (val : Option String) : Bool := val.any fun text => text ≠ ""

/-- `_validate_protocol_shape_and_security`. -/
def validate_protocol_shape_and_security (c : RemoteBackendFields) : Except String Unit :=
  if c.protocol = .smb ∧ truthy c.share = false then .error "smb remote target requires a 'share' name"
  else if c.protocol = .rclone ∧ (truthy c.password_ref ∨ truthy c.private_key_ref) then
    .error ("rclone remote target takes no credential references; configure the remote in " ++
      "the host's rclone.conf (host = the rclone remote name, remote_path = its subpath)")
  else if c.verify = false ∧ c.lab_insecure = false then
    .error ("verify=False requires lab_insecure=True (host-key/TLS verification is " ++
      "mandatory outside the lab profile, security_constraints)")
  else do
    check_text "remote_path" c.remote_path
    check_text "share" c.share

/-- The validation of a configuration. -/
def validate (c : RemoteBackendFields) : Except String Unit := do
  c.check_fields
  c.host_no_scheme
  c.validate_protocol_shape_and_security

end RemoteBackendFields

/-- `RemoteBackendConfig`: fields that were accepted. -/
structure RemoteBackendConfig extends RemoteBackendFields where
  accepted : toRemoteBackendFields.validate = .ok ()

namespace RemoteBackendConfig

/-- `remote_path.strip("/")`. -/
def strip (text : List Char) : List Char := (text.dropWhile (· = '/')).rdropWhile (· = '/')

/-- The text `catalogue_mount` normalises. -/
def base (c : RemoteBackendConfig) : List Char :=
  match c.protocol with
  | .smb => "/smb/".toList ++ c.host.toList ++ '/' :: ((c.share.getD "None").toList ++ c.remote_path.toList)
  | .rclone =>
    let sub := strip c.remote_path.toList
    if sub ≠ [] then "/rclone/".toList ++ c.host.toList ++ '/' :: sub else "/rclone/".toList ++ c.host.toList
  | .sftp => "/sftp/".toList ++ c.host.toList ++ c.remote_path.toList

/-- `catalogue_mount`. -/
def catalogue_mount (c : RemoteBackendConfig) : String := String.ofList (normpath c.base)

/-- The first component of a mount. -/
def proto (c : RemoteBackendConfig) : Name :=
  match c.protocol with
  | .smb => "smb".toList
  | .sftp => "sftp".toList
  | .rclone => "rclone".toList

/-- The components of a remote path, below the root of its target. -/
def path_names (c : RemoteBackendConfig) : List Name := norm_components '/' true c.remote_path.toList

/-- The mount is a normal path at or below the host. -/
def Contained (c : RemoteBackendConfig) : Prop :=
  ∃ rest, (∀ name ∈ c.host.toList :: rest, IsComponent '/' name) ∧
    c.catalogue_mount.toList = absolute (c.proto :: c.host.toList :: rest)

/-- Two configurations name different targets. Only SMB has shares. -/
def DifferentTarget (c c' : RemoteBackendConfig) : Prop :=
  c.protocol ≠ c'.protocol ∨ c.host ≠ c'.host ∨ (c.protocol = .smb ∧ c.share ≠ c'.share) ∨
    c.path_names ≠ c'.path_names

/-- All mounts are contained, and different targets have different ones. -/
def Namespaced (S : Set RemoteBackendConfig) : Prop :=
  (∀ c ∈ S, c.Contained) ∧
  ∀ c ∈ S, ∀ c' ∈ S, c.DifferentTarget c' → c.catalogue_mount ≠ c'.catalogue_mount

/-- The host is a component, and the other texts begin where they should: an SFTP path with a
slash, an SMB path with a slash behind a share that has none. A share of one dot is nothing,
so nothing may be below it. -/
def Regular (c : RemoteBackendConfig) : Prop :=
  c.host ≠ "." ∧ c.host ≠ ".." ∧
  match c.protocol with
  | .smb =>
    c.remote_path.toList.head? = some '/' ∧ '/' ∉ (c.share.getD "None").toList ∧
      (c.share = some "." → c.path_names = [])
  | .sftp => c.remote_path.toList.head? = some '/'
  | .rclone => True

/-! ## Components without a parent -/

/-- The components that normalising keeps where there is no `..`. -/
def kept (names : List Name) : List Name := names.filter fun n => n ≠ [] ∧ n ≠ ['.']

theorem kept_cons (name : Name) (names : List Name) : kept (name :: names) = kept [name] ++ kept names :=
  List.filter_append [name] names

theorem parent_mem_kept {names : List Name} : ['.', '.'] ∈ kept names ↔ ['.', '.'] ∈ names := by
  rw [kept, List.mem_filter]
  exact ⟨fun h => h.1, fun h => ⟨h, by decide⟩⟩

theorem foldl_kept {names : List Name} (h : ['.', '.'] ∉ names) (comps : List Name) :
    names.foldl (norm_step true) comps = comps ++ kept names :=
  foldl_norm_step_no_parent h true comps

theorem norm_components_kept {text : List Char} (h : ['.', '.'] ∉ text.splitOn '/') :
    norm_components '/' true text = kept (text.splitOn '/') := by
  rw [norm_components, foldl_kept h, List.nil_append]

/-- A text without a separator goes before the first component of the text behind it. -/
theorem splitOn_append {a : List Char} (h : '/' ∉ a) (b : List Char) :
    (a ++ b).splitOn '/' = (b.splitOn '/').modifyHead (a ++ ·) := by
  induction a with
  | nil => exact (congrFun List.modifyHead_id (b.splitOn '/')).symm
  | cons x a ih =>
      rw [List.mem_cons, not_or] at h
      rw [List.cons_append, List.splitOn_cons_eq_if_modifyHead, if_neg (by simpa using Ne.symm h.1), ih h.2,
        List.modifyHead_modifyHead]
      rfl

theorem absolute_inj {names names' : List Name} (h : ∀ n ∈ names, IsComponent '/' n)
    (h' : ∀ n ∈ names', IsComponent '/' n) (heq : absolute names = absolute names') : names = names' := by
  rw [← components_join h, ← components_join h', (List.cons.inj heq).2]

/-- Slashes around a text are not seen in its components. -/
theorem kept_strip (text : List Char) : kept ((strip text).splitOn '/') = kept (text.splitOn '/') := by
  have hfront : ∀ t : List Char, kept ((t.dropWhile (· = '/')).splitOn '/') = kept (t.splitOn '/') := by
    intro t
    induction t with
    | nil => rfl
    | cons x t ih =>
        by_cases hx : x = '/'
        · rw [List.dropWhile_cons_of_pos (by simpa using hx), ih, hx, splitOn_sep_cons]
          rfl
        · rw [List.dropWhile_cons_of_neg (by simpa using hx)]
  have hback : ∀ t : List Char, kept ((t.rdropWhile (· = '/')).splitOn '/') = kept (t.splitOn '/') := by
    intro t
    induction t using List.reverseRecOn with
    | nil => rfl
    | append_singleton t x ih =>
        by_cases hx : x = '/'
        · rw [List.rdropWhile_concat_pos _ _ _ (by simpa using hx), ih, hx, List.splitOn_append_cons_self, kept, kept,
            List.filter_append]
          exact (List.append_nil _).symm
        · rw [List.rdropWhile_concat_neg _ _ _ (by simpa using hx)]
  rw [strip, hback, hfront]

/-! ## What is accepted -/

/-- The texts a path may be. -/
structure CleanText (cs : List Char) : Prop where
  control : ∀ x ∈ cs, RemoteBackendFields.is_control x = false
  backslash : '\\' ∉ cs
  parent : ['.', '.'] ∉ cs.splitOn '/'

theorem check_text_ok_iff {label : String} {val : Option String} :
    RemoteBackendFields.check_text label val = .ok () ↔ CleanText (val.getD "").toList := by
  unfold RemoteBackendFields.check_text
  dsimp only
  split_ifs with hnil hcontrol hback hparent
  · rw [hnil]
    exact ⟨fun _ => ⟨fun _ h => absurd h List.not_mem_nil, List.not_mem_nil, by decide⟩, fun _ => rfl⟩
  · refine ⟨fun h => absurd h (by simp), fun h => ?_⟩
    obtain ⟨x, hx, hctl⟩ := List.any_eq_true.mp hcontrol
    rw [h.control x hx] at hctl
    exact absurd hctl (by simp)
  · exact ⟨fun h => absurd h (by simp), fun h => absurd hback h.backslash⟩
  · exact ⟨fun h => absurd h (by simp), fun h => absurd hparent h.parent⟩
  · refine ⟨fun _ => ⟨fun x hx => ?_, hback, hparent⟩, fun _ => rfl⟩
    rw [← Bool.not_eq_true]
    exact fun hctl => hcontrol (List.any_eq_true.mpr ⟨x, hx, hctl⟩)

/-- The hosts that are accepted. -/
structure BareHost (host : List Char) : Prop where
  ne_nil : host ≠ []
  scheme : ¬ "://".toList <:+: host
  slash : '/' ∉ host
  backslash : '\\' ∉ host

/-- What the validation of a configuration checks. -/
structure Accepts (c : RemoteBackendFields) : Prop where
  host : BareHost c.host.toList
  path_ne : c.remote_path.toList ≠ []
  port : c.port.any (· ≤ 0) = false
  smb : c.protocol = .smb → RemoteBackendFields.truthy c.share = true
  rclone : c.protocol = .rclone → RemoteBackendFields.truthy c.password_ref = false ∧
    RemoteBackendFields.truthy c.private_key_ref = false
  verified : c.verify = false → c.lab_insecure = true
  path : CleanText c.remote_path.toList
  share : CleanText (c.share.getD "").toList

theorem validate_ok_iff {c : RemoteBackendFields} : c.validate = .ok () ↔ Accepts c := by
  have hbind : ∀ {a b : Except String Unit}, (do a; b) = .ok () ↔ a = .ok () ∧ b = .ok () := by
    intro a b
    cases a with
    | error e => exact ⟨fun h => absurd h (by simp [bind, Except.bind]), fun h => absurd h.1 (by simp)⟩
    | ok u => exact ⟨fun h => ⟨rfl, h⟩, fun h => h.2⟩
  have hfields : c.check_fields = .ok () ↔ c.host.toList ≠ [] ∧ c.remote_path.toList ≠ [] ∧
      c.port.any (· ≤ 0) = false := by
    have hlen : ∀ l : List Char, l.length < 1 ↔ l = [] := fun l => by rw [Nat.lt_one_iff, List.length_eq_zero_iff]
    rw [RemoteBackendFields.check_fields]
    split_ifs with hshort hport
    · rw [hlen, hlen] at hshort
      exact ⟨fun h => absurd h (by simp), fun h => absurd hshort (not_or.mpr ⟨h.1, h.2.1⟩)⟩
    · exact ⟨fun h => absurd h (by simp), fun h => absurd hport (Bool.eq_false_iff.mp h.2.2)⟩
    · rw [hlen, hlen, not_or] at hshort
      exact ⟨fun _ => ⟨hshort.1, hshort.2, Bool.eq_false_iff.mpr hport⟩, fun _ => rfl⟩
  have hhost : c.host_no_scheme = .ok () ↔
      ¬ "://".toList <:+: c.host.toList ∧ '/' ∉ c.host.toList ∧ '\\' ∉ c.host.toList := by
    rw [RemoteBackendFields.host_no_scheme]
    split_ifs with hscheme
    · exact ⟨fun h => absurd h (by simp), fun h => absurd hscheme (not_or.mpr ⟨h.1, not_or.mpr h.2⟩)⟩
    · rw [not_or, not_or] at hscheme
      exact ⟨fun _ => hscheme, fun _ => rfl⟩
  have hshape : c.validate_protocol_shape_and_security = .ok () ↔
      (c.protocol = .smb → RemoteBackendFields.truthy c.share = true) ∧
      (c.protocol = .rclone → RemoteBackendFields.truthy c.password_ref = false ∧
        RemoteBackendFields.truthy c.private_key_ref = false) ∧
      (c.verify = false → c.lab_insecure = true) ∧ CleanText c.remote_path.toList ∧
      CleanText (c.share.getD "").toList := by
    rw [RemoteBackendFields.validate_protocol_shape_and_security]
    split_ifs with hsmb hrclone hverify
    · refine ⟨fun h => absurd h (by simp), fun h => absurd (h.1 hsmb.1) (by simp [hsmb.2])⟩
    · refine ⟨fun h => absurd h (by simp), fun h => ?_⟩
      obtain ⟨hpassword, hkey⟩ := h.2.1 hrclone.1
      exact absurd hrclone.2 (by simp [hpassword, hkey])
    · exact ⟨fun h => absurd h (by simp), fun h => absurd (h.2.2.1 hverify.1) (by simp [hverify.2])⟩
    · rw [hbind, check_text_ok_iff, check_text_ok_iff, Option.getD_some]
      refine ⟨fun h => ⟨fun hp => ?_, fun hp => ?_, fun hv => ?_, h.1, h.2⟩, fun h => ⟨h.2.2.2.1, h.2.2.2.2⟩⟩
      · rw [← Bool.not_eq_false]
        exact fun hfalse => hsmb ⟨hp, hfalse⟩
      · rw [← Bool.not_eq_true, ← Bool.not_eq_true, ← not_or]
        exact fun htrue => hrclone ⟨hp, htrue⟩
      · rw [← Bool.not_eq_false]
        exact fun hfalse => hverify ⟨hv, hfalse⟩
  rw [RemoteBackendFields.validate, hbind, hbind, hfields, hhost, hshape]
  constructor
  · rintro ⟨⟨hne, hpath, hport⟩, ⟨hscheme, hslash, hback⟩, hsmb, hrclone, hverify, hclean, hshare⟩
    exact ⟨⟨hne, hscheme, hslash, hback⟩, hpath, hport, hsmb, hrclone, hverify, hclean, hshare⟩
  · rintro ⟨⟨hne, hscheme, hslash, hback⟩, hpath, hport, hsmb, hrclone, hverify, hclean, hshare⟩
    exact ⟨⟨hne, hpath, hport⟩, ⟨hscheme, hslash, hback⟩, hsmb, hrclone, hverify, hclean, hshare⟩

theorem accepts (c : RemoteBackendConfig) : Accepts c.toRemoteBackendFields := validate_ok_iff.mp c.accepted

/-! ## The components of a mount -/

/-- What stands behind the protocol. -/
def target (c : RemoteBackendConfig) : List Char :=
  match c.protocol with
  | .smb => c.host.toList ++ '/' :: ((c.share.getD "None").toList ++ c.remote_path.toList)
  | .rclone => c.host.toList ++ (if strip c.remote_path.toList ≠ [] then '/' :: strip c.remote_path.toList else [])
  | .sftp => c.host.toList ++ c.remote_path.toList

/-- The components of the mount. -/
def mount_names (c : RemoteBackendConfig) : List Name := (c.target.splitOn '/').foldl (norm_step true) [c.proto]

theorem base_eq (c : RemoteBackendConfig) : c.base = '/' :: (c.proto ++ '/' :: c.target) := by
  unfold base proto target
  cases c.protocol with
  | smb => exact List.append_assoc _ _ _
  | sftp => exact List.append_assoc _ _ _
  | rclone =>
      dsimp only
      split_ifs
      · exact List.append_assoc _ _ _
      · rw [List.append_nil]
        rfl

theorem proto_component (c : RemoteBackendConfig) : IsComponent '/' c.proto := by
  unfold proto
  cases c.protocol with
  | smb => exact ⟨by decide, by decide, by decide, by decide⟩
  | sftp => exact ⟨by decide, by decide, by decide, by decide⟩
  | rclone => exact ⟨by decide, by decide, by decide, by decide⟩

theorem norm_base (c : RemoteBackendConfig) : norm_components '/' true c.base = c.mount_names := by
  rw [base_eq, norm_components_sep_cons, norm_components,
    List.splitOn_append_cons_self_of_not_mem c.proto_component.no_sep, List.foldl_cons,
    norm_step_component c.proto_component]
  rfl

theorem mount_names_component (c : RemoteBackendConfig) : ∀ n ∈ c.mount_names, IsComponent '/' n := by
  rw [← norm_base]
  exact norm_components_all _

theorem catalogue_mount_toList (c : RemoteBackendConfig) : c.catalogue_mount.toList = absolute c.mount_names := by
  have hslashes : initial_slashes c.base = ['/'] := by
    rw [base_eq]
    refine initial_slashes_anchored (Or.inl rfl : PosixRoot ['/']) ?_
    unfold proto
    cases c.protocol <;> simp
  rw [catalogue_mount, String.toList_ofList, normpath, hslashes]
  rw [decide_eq_true (List.cons_ne_nil '/' []), norm_base]
  exact if_neg (List.cons_ne_nil _ _)

theorem mount_inj {c c' : RemoteBackendConfig} : c.catalogue_mount = c'.catalogue_mount ↔ c.mount_names = c'.mount_names := by
  rw [← String.toList_inj, catalogue_mount_toList, catalogue_mount_toList]
  exact ⟨fun h => absolute_inj c.mount_names_component c'.mount_names_component h, fun h => by rw [h]⟩

theorem contained_iff {c : RemoteBackendConfig} :
    c.Contained ↔ ∃ rest, c.mount_names = c.proto :: c.host.toList :: rest := by
  rw [Contained, catalogue_mount_toList]
  constructor
  · rintro ⟨rest, hall, heq⟩
    refine ⟨rest, absolute_inj c.mount_names_component (fun n hn => ?_) heq⟩
    rcases List.mem_cons.mp hn with rfl | hn
    · exact c.proto_component
    · exact hall n hn
  · rintro ⟨rest, heq⟩
    refine ⟨rest, fun n hn => c.mount_names_component n ?_, by rw [heq]⟩
    rw [heq]
    exact List.mem_cons_of_mem _ hn

variable {c c' : RemoteBackendConfig}

/-- A host that is no dots is a component. -/
theorem host_component (hdot : c.host ≠ ".") (hparent : c.host ≠ "..") : IsComponent '/' c.host.toList where
  ne_nil := c.accepts.host.ne_nil
  ne_dot := fun h => hdot (String.toList_inj.mp h)
  ne_parent := fun h => hparent (String.toList_inj.mp h)
  no_sep := c.accepts.host.slash

/-- Behind a host the mount keeps the components of what follows. -/
theorem mount_names_behind (hhost : IsComponent '/' c.host.toList) {more : List Name}
    (hsplit : c.target.splitOn '/' = c.host.toList :: more) (hmore : ['.', '.'] ∉ more) :
    c.mount_names = c.proto :: c.host.toList :: kept more := by
  rw [mount_names, hsplit, List.foldl_cons, norm_step_component hhost, foldl_kept hmore]
  rfl

theorem path_names_eq (c : RemoteBackendConfig) : c.path_names = kept (c.remote_path.toList.splitOn '/') :=
  norm_components_kept c.accepts.path.parent

/-- A path with a leading slash, and the path behind it. -/
theorem slash_path (h : c.remote_path.toList.head? = some '/') : ∃ p, c.remote_path.toList = '/' :: p ∧
    ['.', '.'] ∉ p.splitOn '/' ∧ c.path_names = kept (p.splitOn '/') := by
  obtain ⟨p, hp⟩ := List.head?_eq_some_iff.mp h
  have hparent := c.accepts.path.parent
  have hnames := c.path_names_eq
  rw [hp, splitOn_sep_cons] at hparent hnames
  exact ⟨p, hp, fun hmem => hparent (List.mem_cons_of_mem _ hmem), hnames⟩

/-- What a regular mount has behind its host. -/
def behind (c : RemoteBackendConfig) : List Name :=
  match c.protocol with
  | .smb => kept [(c.share.getD "None").toList] ++ c.path_names
  | _ => c.path_names

/-- **Regular mounts** are the host and what is behind it. -/
theorem mount_names_regular (h : c.Regular) : c.mount_names = c.proto :: c.host.toList :: c.behind := by
  obtain ⟨hdot, hparent, hshape⟩ := h
  have hhost := host_component hdot hparent
  have hslash := hhost.no_sep
  unfold behind
  cases hprotocol : c.protocol with
  | smb =>
      rw [hprotocol] at hshape
      obtain ⟨hpath, hshare, -⟩ := hshape
      obtain ⟨p, hp, hclean, hnames⟩ := slash_path hpath
      have hsplit : c.target.splitOn '/' = c.host.toList :: (c.share.getD "None").toList :: p.splitOn '/' := by
        rw [target, hprotocol]
        dsimp only
        rw [hp, List.splitOn_append_cons_self_of_not_mem hslash, List.splitOn_append_cons_self_of_not_mem hshare]
      have hparent : (c.share.getD "None").toList ≠ ['.', '.'] := by
        intro heq
        have hclean := c.accepts.share.parent
        cases hs : c.share with
        | none => rw [hs] at heq; exact absurd heq (by decide)
        | some share =>
            rw [hs, Option.getD_some] at heq
            rw [hs, Option.getD_some, heq] at hclean
            exact hclean (by decide)
      rw [mount_names_behind hhost hsplit (by rw [List.mem_cons, not_or]; exact ⟨Ne.symm hparent, hclean⟩), hnames]
      rw [kept_cons]
  | sftp =>
      rw [hprotocol] at hshape
      obtain ⟨p, hp, hclean, hnames⟩ := slash_path hshape
      have hsplit : c.target.splitOn '/' = c.host.toList :: p.splitOn '/' := by
        rw [target, hprotocol]
        dsimp only
        rw [hp, List.splitOn_append_cons_self_of_not_mem hslash]
      rw [mount_names_behind hhost hsplit hclean, hnames]
  | rclone =>
      have hstrip : kept ((strip c.remote_path.toList).splitOn '/') = c.path_names := by
        rw [kept_strip, path_names_eq]
      by_cases hempty : strip c.remote_path.toList = []
      · have hsplit : c.target.splitOn '/' = c.host.toList :: [] := by
          rw [target, hprotocol]
          dsimp only
          rw [if_neg (not_not.mpr hempty), List.append_nil, List.splitOn_eq_singleton hslash]
        rw [hempty] at hstrip
        rw [mount_names_behind hhost hsplit List.not_mem_nil, ← hstrip]
        rfl
      · have hsplit : c.target.splitOn '/' = c.host.toList :: (strip c.remote_path.toList).splitOn '/' := by
          rw [target, hprotocol]
          dsimp only
          rw [if_pos hempty, List.splitOn_append_cons_self_of_not_mem hslash]
        rw [mount_names_behind hhost hsplit, hstrip]
        rw [← parent_mem_kept, kept_strip, parent_mem_kept]
        exact c.accepts.path.parent

/-- A share is kept, unless it is a dot. -/
theorem kept_share (hprotocol : c.protocol = .smb) : ∃ share, c.share = some share ∧
      ((share = "." ∧ kept [(c.share.getD "None").toList] = []) ∨
        (share ≠ "." ∧ kept [(c.share.getD "None").toList] = [share.toList])) := by
  have htruthy := c.accepts.smb hprotocol
  cases hshare : c.share with
  | none => rw [hshare] at htruthy; exact absurd htruthy (by decide)
  | some share =>
      have hne : share.toList ≠ [] := by
        intro hnil
        have hempty : share = "" := String.toList_inj.mp hnil
        rw [hshare, hempty] at htruthy
        exact absurd htruthy (by decide)
      refine ⟨share, rfl, ?_⟩
      rw [Option.getD_some]
      by_cases hdot : share = "."
      · rw [hdot]
        exact .inl ⟨rfl, by decide⟩
      · refine .inr ⟨hdot, List.filter_cons_of_pos ?_⟩
        exact decide_eq_true ⟨hne, fun h => hdot (String.toList_inj.mp h)⟩

/-- **Regular configurations are namespaced.** -/
theorem regular_namespaced : Namespaced {c | c.Regular} := by
  refine ⟨fun c hc => contained_iff.mpr ⟨_, mount_names_regular hc⟩, fun c hc c' hc' hdiff heq => ?_⟩
  rw [mount_inj, mount_names_regular hc, mount_names_regular hc', List.cons.injEq, List.cons.injEq] at heq
  obtain ⟨hproto, hhost, hbehind⟩ := heq
  have hprotocol : c.protocol = c'.protocol := by
    unfold proto at hproto
    cases hp : c.protocol <;> cases hp' : c'.protocol <;> rw [hp, hp'] at hproto <;>
      first | rfl | exact absurd hproto (by decide)
  have hnames : c.path_names = c'.path_names ∧ (c.protocol = .smb → c.share = c'.share) := by
    unfold behind at hbehind
    rw [← hprotocol] at hbehind
    cases hp : c.protocol with
    | sftp => rw [hp] at hbehind; exact ⟨hbehind, fun h => absurd h (by simp)⟩
    | rclone => rw [hp] at hbehind; exact ⟨hbehind, fun h => absurd h (by simp)⟩
    | smb =>
        rw [hp] at hbehind
        dsimp only at hbehind
        have hc := hc.2.2
        have hc' := hc'.2.2
        rw [hp] at hc
        rw [← hprotocol, hp] at hc'
        obtain ⟨share, hshare, hdot | hname⟩ := kept_share hp <;>
          obtain ⟨share', hshare', hdot' | hname'⟩ := kept_share (hprotocol ▸ hp)
        · rw [hdot.2, hdot'.2] at hbehind
          exact ⟨hbehind, fun _ => by rw [hshare, hshare', hdot.1, hdot'.1]⟩
        · -- below the dot there is nothing, and the other share is something
          rw [hdot.2, hname'.2, hc.2.2 (by rw [hshare, hdot.1])] at hbehind
          exact absurd hbehind (by simp)
        · rw [hname.2, hdot'.2, hc'.2.2 (by rw [hshare', hdot'.1])] at hbehind
          exact absurd hbehind (by simp)
        · rw [hname.2, hname'.2, List.singleton_append, List.singleton_append, List.cons.injEq, String.toList_inj]
            at hbehind
          exact ⟨hbehind.2, fun _ => by rw [hshare, hshare', hbehind.1]⟩
  rcases hdiff with h | h | h | h
  · exact h hprotocol
  · exact h (String.toList_inj.mp hhost)
  · exact h.2 (hnames.2 h.1)
  · exact h hnames.1

/-! ## What is not regular -/

/-- A path without a leading slash begins with a component that is not empty. -/
theorem head_ne_nil {path : List Char} (hne : path ≠ []) (hhead : path.head? ≠ some '/') {first : Name}
    {more : List Name} (hsplit : path.splitOn '/' = first :: more) : first ≠ [] := by
  rintro rfl
  obtain ⟨x, rest, rfl⟩ := List.exists_cons_of_ne_nil hne
  rw [List.splitOn_cons_eq_if_modifyHead] at hsplit
  split at hsplit
  · next hx => exact hhead (congrArg some (beq_iff_eq.mp hx))
  · cases hrest : rest.splitOn '/' with
    | nil => exact absurd hrest (List.splitOn_ne_nil '/' rest)
    | cons a b =>
        rw [hrest, List.modifyHead_cons] at hsplit
        exact absurd (List.cons.inj hsplit).1 (List.cons_ne_nil _ _)

/-- A path without a leading slash runs into the component before it. -/
theorem runs_into {name : Name} (hname : IsComponent '/' name) {path : List Char} (hne : path ≠ [])
    (hhead : path.head? ≠ some '/') (hparent : ['.', '.'] ∉ path.splitOn '/') :
    ∃ first more, first ≠ [] ∧ path.splitOn '/' = first :: more ∧ (name ++ path).splitOn '/' = (name ++ first) :: more ∧
      IsComponent '/' (name ++ first) ∧ ['.', '.'] ∉ more := by
  cases hsplit : path.splitOn '/' with
  | nil => exact absurd hsplit (List.splitOn_ne_nil '/' path)
  | cons first more =>
      rw [hsplit, List.mem_cons, not_or] at hparent
      have hfirst := head_ne_nil hne hhead hsplit
      have hsep : '/' ∉ first := not_mem_of_mem_splitOn (hsplit ▸ List.mem_cons_self)
      have hlong : 2 ≤ (name ++ first).length := by
        have hn := List.length_pos_iff.mpr hname.ne_nil
        have hf := List.length_pos_iff.mpr hfirst
        rw [List.length_append]
        omega
      refine ⟨first, more, hfirst, rfl, by rw [splitOn_append hname.no_sep, hsplit, List.modifyHead_cons], ?_, hparent.2⟩
      refine ⟨fun h => ?_, fun h => ?_, fun h => ?_, fun h => ?_⟩
      · rw [h] at hlong
        exact absurd hlong (by decide)
      · rw [h] at hlong
        exact absurd hlong (by decide)
      · -- two dots are one and one
        obtain ⟨x, rest, rfl⟩ := List.exists_cons_of_ne_nil hname.ne_nil
        rw [List.cons_append, List.cons.injEq] at h
        rcases rest with _ | ⟨y, rest⟩
        · exact hname.ne_dot (by rw [h.1])
        · rw [List.cons_append, List.cons.injEq] at h
          exact hfirst (List.append_eq_nil_iff.mp h.2.2).2
      · rcases List.mem_append.mp h with h | h
        · exact hname.no_sep h
        · exact hsep h

/-- What is pushed onto two components is one of the names. -/
theorem drop_foldl_norm_step {names comps : List Name} {n : Name}
    (h : n ∈ (names.foldl (norm_step true) comps).drop 2) : n ∈ comps.drop 2 ∨ n ∈ names := by
  induction names generalizing comps with
  | nil => exact .inl h
  | cons name names ih =>
      rcases ih h with hstep | hmem
      · rw [norm_step] at hstep
        split at hstep
        · exact .inl hstep
        split at hstep
        · rw [List.drop_append] at hstep
          rcases List.mem_append.mp hstep with hold | hnew
          · exact .inl hold
          · exact .inr (List.mem_singleton.mp (List.mem_of_mem_drop hnew) ▸ List.mem_cons_self)
        · exact .inl ((List.dropLast_sublist comps).drop 2 |>.subset hstep)
      · exact .inr (List.mem_cons_of_mem _ hmem)

/-- The share of the first of some names: a dot where there is none. -/
def share_of : List Name → String
  | [] => "."
  | share :: _ => String.ofList share

/-- The regular SMB configuration with a mount. -/
def at_names (host : String) (rest : List Name) : RemoteBackendFields where
  protocol := .smb
  host := host
  share := some (share_of rest)
  remote_path := String.ofList ('/' :: join '/' rest.tail)

theorem accepts_at_names {host : String} {rest : List Name} (hhost : BareHost host.toList)
    (hrest : ∀ n ∈ rest, IsComponent '/' n) (hclean : ∀ n ∈ rest, ∀ x ∈ n, RemoteBackendFields.is_control x = false ∧ x ≠ '\\') :
    Accepts (at_names host rest) where
  host := hhost
  path_ne := by
    rw [at_names, String.toList_ofList]
    exact List.cons_ne_nil _ _
  port := by simp [at_names]
  smb := by
    intro _
    rw [at_names, RemoteBackendFields.truthy, Option.any_some, decide_eq_true_eq]
    rcases rest with _ | ⟨share, rest⟩
    · decide
    · intro heq
      have hnil := congrArg String.toList heq
      rw [share_of, String.toList_ofList] at hnil
      exact (hrest share List.mem_cons_self).ne_nil hnil
  rclone := fun h => absurd h (by simp [at_names])
  verified := fun h => absurd h (by simp [at_names])
  path := by
    have htail : ∀ n ∈ rest.tail, n ∈ rest := fun n hn => List.mem_of_mem_tail hn
    rw [at_names, String.toList_ofList]
    refine ⟨fun x hx => ?_, fun hback => ?_, fun hparent => ?_⟩
    · rcases List.mem_cons.mp hx with rfl | hx
      · decide
      · by_contra hctl
        refine not_mem_join (fun heq => ?_) (fun n hn hmem => hctl (hclean n (htail n hn) x hmem).1) hx
        rw [heq] at hctl
        exact hctl (by decide)
    · rcases List.mem_cons.mp hback with heq | hx
      · exact absurd heq (by decide)
      · exact not_mem_join (by decide) (fun n hn hmem => (hclean n (htail n hn) _ hmem).2 rfl) hx
    · rw [splitOn_sep_cons, List.mem_cons] at hparent
      rcases hparent with heq | hmem
      · exact absurd heq (by decide)
      · by_cases hnil : rest.tail = []
        · rw [hnil] at hmem
          exact absurd hmem (by decide)
        · rw [splitOn_join (fun n hn => (hrest n (htail n hn)).no_sep) hnil] at hmem
          exact (hrest _ (htail _ hmem)).ne_parent rfl
  share := by
    rw [at_names, Option.getD_some]
    rcases rest with _ | ⟨share, rest⟩
    · refine ⟨fun x hx => ?_, by decide, by decide⟩
      obtain rfl : x = '.' := List.mem_singleton.mp hx
      decide
    · have hshare := hrest share List.mem_cons_self
      rw [share_of, String.toList_ofList]
      refine ⟨fun x hx => (hclean share List.mem_cons_self x hx).1,
        fun hback => (hclean share List.mem_cons_self _ hback).2 rfl, fun hparent => ?_⟩
      rw [List.splitOn_eq_singleton hshare.no_sep, List.mem_singleton] at hparent
      exact hshare.ne_parent hparent.symm

/-- The mount of a regular SMB configuration, from the names behind its host. -/
theorem regular_at_names {host : String} {rest : List Name} (haccepts : Accepts (at_names host rest))
    (hdot : host ≠ ".") (hparent : host ≠ "..") (hrest : ∀ n ∈ rest, IsComponent '/' n) :
    Regular ⟨at_names host rest, validate_ok_iff.mpr haccepts⟩ ∧
    mount_names ⟨at_names host rest, validate_ok_iff.mpr haccepts⟩ = "smb".toList :: host.toList :: rest ∧
    path_names ⟨at_names host rest, validate_ok_iff.mpr haccepts⟩ = rest.tail := by
  have hpath : path_names ⟨at_names host rest, validate_ok_iff.mpr haccepts⟩ = rest.tail := by
    show norm_components '/' true (String.ofList ('/' :: join '/' rest.tail)).toList = rest.tail
    rw [String.toList_ofList, norm_components_sep_cons]
    exact norm_components_join (fun n hn => hrest n (List.mem_of_mem_tail hn)) true
  have hregular : Regular ⟨at_names host rest, validate_ok_iff.mpr haccepts⟩ := by
    refine ⟨hdot, hparent, ?_, ?_, fun hshare => ?_⟩
    · show (String.ofList ('/' :: join '/' rest.tail)).toList.head? = some '/'
      rw [String.toList_ofList]
      rfl
    · show '/' ∉ (share_of rest).toList
      rcases rest with _ | ⟨share, rest⟩
      · decide
      · rw [share_of, String.toList_ofList]
        exact (hrest share List.mem_cons_self).no_sep
    · rw [hpath]
      rcases rest with _ | ⟨share, rest⟩
      · rfl
      · have heq : (share_of (share :: rest)).toList = ".".toList := congrArg String.toList (Option.some.inj hshare)
        rw [share_of, String.toList_ofList] at heq
        exact absurd heq (hrest share List.mem_cons_self).ne_dot
  refine ⟨hregular, ?_, hpath⟩
  rw [mount_names_regular hregular]
  have hbehind : behind ⟨at_names host rest, validate_ok_iff.mpr haccepts⟩ = rest := by
    show kept [(share_of rest).toList] ++ path_names ⟨at_names host rest, validate_ok_iff.mpr haccepts⟩ = rest
    rw [hpath]
    rcases rest with _ | ⟨share, rest⟩
    · decide
    · have hshare := hrest share List.mem_cons_self
      have hkept : kept [share] = [share] := List.filter_cons_of_pos (decide_eq_true ⟨hshare.ne_nil, hshare.ne_dot⟩)
      rw [share_of, String.toList_ofList, hkept]
      rfl
  rw [hbehind]
  rfl

/-- **What is not regular breaks the namespace**: its mount is not contained, or a regular
configuration of another target has it. -/
theorem exists_regular_of_irregular (hc : ¬ c.Regular) (hcontained : c.Contained) :
    ∃ c' : RemoteBackendConfig, c'.Regular ∧ c.DifferentTarget c' ∧ c.catalogue_mount = c'.catalogue_mount := by
  obtain ⟨rest, hnames⟩ := contained_iff.mp hcontained
  have hcomponent : ∀ n ∈ c.host.toList :: rest, IsComponent '/' n := fun n hn =>
    c.mount_names_component n (by rw [hnames]; exact List.mem_cons_of_mem _ hn)
  have hhost := hcomponent _ List.mem_cons_self
  have hrest : ∀ n ∈ rest, IsComponent '/' n := fun n hn => hcomponent n (List.mem_cons_of_mem _ hn)
  have hdot : c.host ≠ "." := fun h => hhost.ne_dot (by rw [h]; rfl)
  have hparent : c.host ≠ ".." := fun h => hhost.ne_parent (by rw [h]; rfl)
  cases hprotocol : c.protocol with
  | rclone => exact absurd ⟨hdot, hparent, by rw [hprotocol]; trivial⟩ hc
  | sftp =>
      -- the host has run into the path
      have hhead : c.remote_path.toList.head? ≠ some '/' := fun h => hc ⟨hdot, hparent, by rw [hprotocol]; exact h⟩
      obtain ⟨first, more, hfirst, -, hsplit, hjoined, hmore⟩ :=
        runs_into hhost c.accepts.path_ne hhead c.accepts.path.parent
      have htarget : c.target = c.host.toList ++ c.remote_path.toList := by
        rw [target, hprotocol]
      rw [mount_names, htarget, hsplit, List.foldl_cons, norm_step_component hjoined, foldl_kept hmore,
        List.append_assoc, List.singleton_append, List.cons_append, List.cons.injEq, List.cons.injEq] at hnames
      exact absurd (List.append_right_eq_self.mp hnames.2.1) hfirst
  | smb =>
      have htarget : c.target.splitOn '/' =
          c.host.toList :: ((c.share.getD "None").toList ++ c.remote_path.toList).splitOn '/' := by
        rw [target, hprotocol]
        dsimp only
        rw [List.splitOn_append_cons_self_of_not_mem hhost.no_sep]
      have hfold : c.mount_names =
          (((c.share.getD "None").toList ++ c.remote_path.toList).splitOn '/').foldl (norm_step true)
            [c.proto, c.host.toList] := by
        rw [mount_names, htarget, List.foldl_cons, norm_step_component hhost]
        rfl
      obtain ⟨share, hshare, -⟩ := kept_share hprotocol
      have hcleanshare := c.accepts.share
      rw [hshare, Option.getD_some] at hcleanshare hfold
      have hclean : ∀ n ∈ rest, ∀ x ∈ n, RemoteBackendFields.is_control x = false ∧ x ≠ '\\' := by
        intro n hn x hx
        have hmem : n ∈ c.mount_names.drop 2 := by
          rw [hnames]
          exact hn
        rw [hfold] at hmem
        rcases drop_foldl_norm_step hmem with hnil | hname
        · exact absurd hnil List.not_mem_nil
        · rcases List.mem_append.mp (mem_of_mem_splitOn hname hx) with hx | hx
          · exact ⟨hcleanshare.control x hx, fun heq => hcleanshare.backslash (heq ▸ hx)⟩
          · exact ⟨c.accepts.path.control x hx, fun heq => c.accepts.path.backslash (heq ▸ hx)⟩
      obtain ⟨hregular, hsame, htail⟩ := regular_at_names
        (accepts_at_names c.accepts.host hrest hclean) hdot hparent hrest
      refine ⟨_, hregular, ?_, ?_⟩
      · -- the same share and the same path would make `c` regular
        by_contra hnot
        unfold DifferentTarget at hnot
        push Not at hnot
        obtain ⟨-, -, hshares, hpaths⟩ := hnot
        have hshareof : share = share_of rest := by
          have heq := hshares hprotocol
          rw [hshare] at heq
          exact Option.some.inj heq
        rw [htail] at hpaths
        rcases rest with _ | ⟨name, rest⟩
        · have hhead : c.remote_path.toList.head? ≠ some '/' := by
            intro h
            refine hc ⟨hdot, hparent, ?_⟩
            rw [hprotocol]
            refine ⟨h, ?_, fun _ => hpaths⟩
            rw [hshare, hshareof]
            decide
          -- the dot has run into another one, and the two have taken the host along
          cases hsplit : c.remote_path.toList.splitOn '/' with
          | nil => exact absurd hsplit (List.splitOn_ne_nil '/' _)
          | cons first more =>
              have hfirst := head_ne_nil c.accepts.path_ne hhead hsplit
              have hkept := c.path_names_eq
              rw [hpaths, hsplit] at hkept
              have hone : first = ['.'] := by
                by_contra hone
                have hmem : first ∈ kept (first :: more) :=
                  List.mem_filter.mpr ⟨List.mem_cons_self, decide_eq_true ⟨hfirst, hone⟩⟩
                rw [← hkept] at hmem
                exact absurd hmem List.not_mem_nil
              have hmore : ['.', '.'] ∉ more := fun hmem =>
                c.accepts.path.parent (hsplit ▸ List.mem_cons_of_mem _ hmem)
              rw [kept_cons, hone] at hkept
              have hshare' : share.toList = ['.'] := by
                rw [hshareof]
                rfl
              rw [hshare', splitOn_append (by decide), hsplit, hone, List.modifyHead_cons, List.foldl_cons,
                foldl_kept hmore, hnames] at hfold
              have hpop : norm_step true [c.proto, c.host.toList] (['.'] ++ ['.']) = [c.proto] := by
                unfold norm_step
                rw [if_neg (by decide), if_neg]
                · rfl
                · exact fun h => h.elim (fun h => h rfl)
                    fun h => h.elim (fun h => absurd h.1 (by decide)) fun h => hhost.ne_parent (Option.some.inj h)
              rw [hpop, (List.append_eq_nil_iff.mp hkept.symm).2] at hfold
              exact absurd (List.cons.inj hfold).2 (List.cons_ne_nil _ _)
        · have hname := hrest name List.mem_cons_self
          have hsharename : share.toList = name := by
            rw [hshareof, share_of, String.toList_ofList]
          have hhead : c.remote_path.toList.head? ≠ some '/' := by
            intro h
            refine hc ⟨hdot, hparent, ?_⟩
            rw [hprotocol, hshare, Option.getD_some, hsharename]
            refine ⟨h, hname.no_sep, fun heq => absurd ?_ hname.ne_dot⟩
            rw [← hsharename, Option.some.inj heq]
            rfl
          obtain ⟨first, more, hfirst, -, hsplit, hjoined, hmore⟩ :=
            runs_into hname c.accepts.path_ne hhead c.accepts.path.parent
          rw [hsharename, hsplit, List.foldl_cons, norm_step_component hjoined, foldl_kept hmore, hnames] at hfold
          have hfirst' := (List.cons.inj (List.cons.inj (List.cons.inj hfold).2).2).1
          exact hfirst (List.append_right_eq_self.mp hfirst'.symm)
      · rw [mount_inj, hsame, hnames, proto, hprotocol]

/-- **Mount namespacing**: an accepted configuration is contained and apart from every other
target, whatever else is configured, if and only if it is regular. -/
theorem namespaced_insert_iff (c : RemoteBackendConfig) : Namespaced (insert c {c | c.Regular}) ↔ c.Regular := by
  constructor
  · rintro ⟨hcontained, hapart⟩
    by_contra hc
    obtain ⟨c', hregular, hdiff, heq⟩ :=
      exists_regular_of_irregular hc (hcontained c (Set.mem_insert c {c | c.Regular}))
    exact hapart c (Set.mem_insert c {c | c.Regular}) c' (Set.mem_insert_of_mem c hregular) hdiff heq
  · intro hc
    rw [Set.insert_eq_of_mem (show c ∈ {c | c.Regular} from hc)]
    exact regular_namespaced

/-- An SFTP target whose host is two dots. -/
def parent_host : RemoteBackendConfig where
  protocol := .sftp
  host := ".."
  remote_path := "/etc"
  accepted := by decide +kernel

/-- An SMB target whose share has a slash in it. -/
def deep_share : RemoteBackendConfig where
  protocol := .smb
  host := "nas"
  share := some "media/films"
  remote_path := "/old"
  accepted := by decide +kernel

/-- An SMB target below the first part of that share. -/
def shallow_share : RemoteBackendConfig where
  protocol := .smb
  host := "nas"
  share := some "media"
  remote_path := "/films/old"
  accepted := by decide +kernel

/-- The first is mounted outside of its protocol, and the other two in one place. -/
theorem accepted_not_namespaced :
    parent_host.catalogue_mount = "/etc" ∧
    (deep_share.DifferentTarget shallow_share ∧ deep_share.catalogue_mount = shallow_share.catalogue_mount) ∧
    ¬ Namespaced Set.univ := by
  have hetc : parent_host.catalogue_mount = "/etc" := by decide +kernel
  have hdiff : deep_share.DifferentTarget shallow_share := .inr (.inr (.inl ⟨rfl, by decide +kernel⟩))
  have hsame : deep_share.catalogue_mount = shallow_share.catalogue_mount := by decide +kernel
  refine ⟨hetc, ⟨hdiff, hsame⟩, fun h => ?_⟩
  exact h.2 deep_share (Set.mem_univ _) shallow_share (Set.mem_univ _) hdiff hsame

end RemoteBackendConfig

end Fathom.Agent
