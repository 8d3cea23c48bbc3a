/-
**Risk classes of paths**: `classify_path` of `core/riskclass.py` and `classifyPath`
of `web/src/lib/riskClass.ts`, each the other's documented mirror.

Both are an ordered list of rules over the components of a path and the name of a
file. They are embedded separately, each with its own tables and in its own
spelling, and compared: the components, the tables and the rules are the same, and
the two differ in what a config file is and in what an empty name means
(`classify_eq_iff`).

Texts are printable ASCII. On those the white space that `strip` and `trim` take off
is the space, and `lower` and `toLowerCase` are `Char.toLower`.
-/
import Mathlib.Data.List.DropRight
import Mathlib.Data.List.Infix

set_option autoImplicit false

namespace Fathom.Risk

/-! ## Texts and classes -/

/-- A text of printable ASCII characters. -/
structure Text where
  chars : List Char
  printable : ∀ c ∈ chars, 0x20 ≤ c.toNat ∧ c.toNat ≤ 0x7e

/-- The four classes, by descending danger. -/
inductive RiskClass where
  | os
  | services
  | config
  | user
  deriving DecidableEq

/-- `c.strip()`, `c.trim()`. -/
def strip (c : List Char) : List Char := (c.dropWhile (· = ' ')).rdropWhile (· = ' ')

/-- `c.lower()`, `c.toLowerCase()`. -/
def lower (c : List Char) : List Char := c.map Char.toLower

/-- `n.startswith(p)`. -/
def starts_with (n : List Char) (p : String) : Bool := p.toList.isPrefixOf n

/-- `n.endswith(s)`. -/
def ends_with (n : List Char) (s : String) : Bool := s.toList.isSuffixOf n

/-- `s in c`, `c.includes(s)`. -/
def includes (c : List Char) (s : String) : Bool := c.tails.any s.toList.isPrefixOf

/-! ## The server -/

namespace Server

/-- `_STRONG_OS`. -/
def strong_os : List String :=
  ["etc", "boot", "sys", "proc", "windows", "system32", "winsxs", "programdata", "program files",
    "program files (x86)"]

/-- `_ROOT_OS`. -/
def root_os : List String := ["usr", "bin", "sbin", "lib", "lib64", "dev", "run", "root", "var"]

/-- `_SERVICE_DIRS`. -/
def service_dirs : List String :=
  ["overlay2", "containers", "containerd", "volumes", "pgdata", "postgres", "postgresql", "mysql",
    "mariadb", "mongodb", "mongo", "redis", "valkey", "etcd", "appdata", ".config"]

/-- `_is_config_file`. -/
def is_config_file (name : List Char) : Bool :=
  let n := lower name
  if n = ".env".toList || ends_with n ".env" then true
  else if starts_with n "docker-compose" || starts_with n "compose." then true
  else if n = "dockerfile".toList || starts_with n "dockerfile." then true
  else ends_with n ".conf" || ends_with n ".cfg" || ends_with n ".ini" || ends_with n ".service" ||
    n = "nginx.conf".toList

/-- `comps`. -/
def comps (path : Text) : List (List Char) :=
  ((path.chars.splitOn '/').filter fun c => strip c ≠ []).map fun c => lower (strip c)

/-- `base`: an empty name is no name. -/
def base (path : Text) (name : Option Text) : List Char :=
  let given := (name.map Text.chars).getD []
  lower (if given = [] then (comps path).getLast?.getD [] else given)

/-- `real`: a leading `scan` mount alias is stripped. -/
def real (path : Text) : List (List Char) :=
  match comps path with
  | c :: rest => if c = "scan".toList then rest else c :: rest
  | [] => []

/-- `classify_path`. -/
def classify_path (path : Text) (name : Option Text) : RiskClass :=
  if (real path).any fun c => (strong_os.map String.toList).contains c then .os
  else if is_config_file (base path name) then .config
  else if (real path).any fun c => (service_dirs.map String.toList).contains c || includes c "docker" then .services
  else if (real path).head?.any (root_os.map String.toList).contains then .os
  else .user

end Server

/-! ## The web client -/

namespace Web

/-- `STRONG_OS`. -/
def STRONG_OS : List String :=
  ["etc", "boot", "sys", "proc", "windows", "system32", "winsxs", "programdata", "program files",
    "program files (x86)"]

/-- `ROOT_OS`. -/
def ROOT_OS : List String := ["usr", "bin", "sbin", "lib", "lib64", "dev", "run", "root", "var"]

/-- `SERVICE_DIRS`. -/
def SERVICE_DIRS : List String :=
  ["overlay2", "containers", "containerd", "volumes", "pgdata", "postgres", "postgresql", "mysql",
    "mariadb", "mongodb", "mongo", "redis", "valkey", "etcd", "appdata", ".config"]

/-- `isConfigFile`. -/
def isConfigFile (name : List Char) : Bool :=
  let n := lower name
  if n = ".env".toList || ends_with n ".env" then true
  else if starts_with n "docker-compose" || starts_with n "compose." then true
  else if n = "dockerfile".toList || starts_with n "dockerfile." then true
  else ends_with n ".conf" || ends_with n ".cfg" || ends_with n ".ini" || ends_with n ".service" ||
    ends_with n ".nginx" || n = "nginx.conf".toList

/-- `components`. -/
def components (path : Text) : List (List Char) :=
  ((path.chars.splitOn '/').map fun c => lower (strip c)).filter fun c => c ≠ []

/-- `base`: only an absent name falls back on the path. -/
def base (path : Text) (name : Option Text) : List Char :=
  lower ((name.map Text.chars).getD ((components path).getLast?.getD []))

/-- `real`. -/
def real (path : Text) : List (List Char) :=
  if (components path).head? = some "scan".toList then (components path).tail else components path

/-- `classifyPath`. -/
def classifyPath (path : Text) (name : Option Text) : RiskClass :=
  if (real path).any fun c => (STRONG_OS.map String.toList).contains c then .os
  else if isConfigFile (base path name) then .config
  else if (real path).any fun c => (SERVICE_DIRS.map String.toList).contains c || includes c "docker" then .services
  else if (real path).head?.any (ROOT_OS.map String.toList).contains then .os
  else .user

end Web

/-! ## What the two share -/

theorem lower_eq_nil {c : List Char} : lower c = [] ↔ c = [] := List.map_eq_nil_iff

/-- The server leaves blank components out before it lowers them, the client
afterwards. -/
theorem components_eq (path : Text) : Web.components path = Server.comps path := by
  rw [Web.components, Server.comps, List.filter_map]
  congr 1
  refine List.filter_congr fun c _ => ?_
  rw [Function.comp_apply, decide_eq_decide, not_iff_not]
  exact lower_eq_nil

theorem real_eq (path : Text) : Web.real path = Server.real path := by
  rw [Web.real, Server.real, components_eq]
  cases Server.comps path with
  | nil => rfl
  | cons c rest =>
      by_cases h : c = "scan".toList
      · rw [List.head?_cons, if_pos (congrArg some h), List.tail_cons]
        exact (if_pos h).symm
      · rw [List.head?_cons, if_neg fun heq => h (Option.some.inj heq)]
        exact (if_neg h).symm

/-- The name a rule looks at is the same unless it is given and empty. -/
theorem base_eq {path : Text} {name : Option Text} (h : name.map Text.chars ≠ some []) :
    Web.base path name = Server.base path name := by
  rw [Web.base, Server.base, components_eq]
  cases hname : name.map Text.chars with
  | none => rfl
  | some given =>
      have hgiven : given ≠ [] := fun hnil => h (by rw [hname, hnil])
      simp only [Option.getD_some, if_neg hgiven]

/-- The client's config files are the server's and those ending in `.nginx`. -/
theorem isConfigFile_eq (n : List Char) :
    Web.isConfigFile n = (Server.is_config_file n || ends_with (lower n) ".nginx") := by
  simp only [Web.isConfigFile, Server.is_config_file]
  split_ifs
  · rfl
  · rfl
  · rfl
  · cases ends_with (lower n) ".nginx" with
    | false => simp
    | true => simp

/-! ## Where they agree -/

/-- A path with an operating-system marker in it. -/
def marked (path : Text) : Bool := (Server.real path).any fun c => (Server.strong_os.map String.toList).contains c

/-- Whether both sides take the file for a config file, or neither does: an empty
name must not stand for a config file, and any other that ends in `.nginx` must be a
config file of the server's. -/
def SameConfig (path : Text) (name : Option Text) : Prop :=
  if name.map Text.chars = some [] then Server.is_config_file (Server.base path name) = false
  else ends_with (lower (Server.base path name)) ".nginx" = true → Server.is_config_file (Server.base path name) = true

theorem sameConfig_iff (path : Text) (name : Option Text) :
    SameConfig path name ↔ Server.is_config_file (Server.base path name) = Web.isConfigFile (Web.base path name) := by
  rw [SameConfig]
  split
  · rename_i hempty
    -- the client looks at the empty name, which is no config file
    have hbase : Web.base path name = [] := by
      rw [Web.base, hempty]
      rfl
    rw [hbase]
    exact Iff.rfl
  · rename_i hname
    rw [base_eq hname, isConfigFile_eq]
    cases Server.is_config_file (Server.base path name) <;>
      cases ends_with (lower (Server.base path name)) ".nginx" <;> simp

/-- The rules behind the config rule never answer `config`. -/
theorem classify_ne {a b s r : Bool} :
    (if a then RiskClass.config else if s then .services else if r then .os else .user) =
      (if b then RiskClass.config else if s then .services else if r then .os else .user) ↔ a = b := by
  cases a <;> cases b <;> cases s <;> cases r <;> simp

/-- **Where the server and the client agree**: on a path with an operating-system
marker, and wherever they agree on what a config file is. -/
theorem classify_agree_iff (path : Text) (name : Option Text) :
    Server.classify_path path name = Web.classifyPath path name ↔ marked path = true ∨ SameConfig path name := by
  rw [Server.classify_path, Web.classifyPath, real_eq, sameConfig_iff]
  show (if marked path then _ else _) = (if marked path then _ else _) ↔ _
  cases hmarked : marked path with
  | true => simp
  | false =>
      rw [if_neg Bool.false_ne_true, if_neg Bool.false_ne_true]
      simp only [Bool.false_eq_true, false_or]
      exact classify_ne

/-- `/srv/site.nginx`. -/
def nginx_site : Text where
  chars := "/srv/site.nginx".toList
  printable := by
    have hplain : ("/srv/site.nginx".toList.all fun c => 0x20 ≤ c.toNat ∧ c.toNat ≤ 0x7e) = true := by decide
    exact fun c hc => of_decide_eq_true (List.all_eq_true.mp hplain c hc)

/-- `/srv/site.nginx` is user data to the server and a config file to the client. -/
theorem nginx_disagree :
    ¬ ∀ (path : Text) (name : Option Text), Server.classify_path path name = Web.classifyPath path name := by
  intro h
  have hpath := h nginx_site none
  revert hpath
  decide

end Fathom.Risk
