/-
**The settings of the process** (`core/settings.py`): the fields, their types with the
bounds, and their defaults.

A field is validated on its own: the class has no validator across fields. The
conversions of the model library that are not the identity (a text to a number, a number
to a Boolean) are a parameter, and so is the order of floats; each takes a value of its
own type for itself. A text field takes texts only, and a tuple of texts a list of them.
-/
import Fathom.Lib.Json
import Fathom.Lib.Schema

set_option autoImplicit false

namespace Fathom.Config

/-! ## The fields -/

/-- `Settings.model_fields`. -/
inductive Field where
  | database_url
  | ingest_max_batch
  | ingest_proxy_secret
  | db_echo
  | auto_create_schema
  | settings_store_key_ref
  | settings_store_refresh_seconds
  | auth_providers
  | session_ttl_seconds
  | mfa_freshness_seconds
  | trusted_forward_proxy_cidrs
  | oidc_issuer
  | oidc_client_id
  | session_cookie_secure
  | web_dist
  | treemap_max_nodes
  | top_n_max
  | growth_max_buckets
  | onboarding_completed
  | remediation_enabled
  | remediation_blast_cap
  | remediation_job_ttl_seconds
  | remediation_signing_algorithm
  | remediation_signing_key_ref
  | remediation_signing_key_id
  | quarantine_retention_days
  | preview_enabled
  | preview_local_fetch
  | preview_sandbox_runtime
  | preview_sandbox_image
  | preview_cpu_limit
  | preview_mem_bytes
  | preview_timeout_seconds
  | preview_max_pages
  | preview_max_decompressed_bytes
  | preview_max_input_bytes
  | preview_cache_ttl_seconds
  | preview_cache_max_entries
  | preview_cache_key_ref
  | preview_grant_ttl_seconds
  | preview_grant_signing_key_ref
  | preview_grant_key_id
  | preview_worker_url
  | preview_worker_enabled
  | browse_signing_key_ref
  | browse_grant_key_id
  | browse_request_ttl_seconds
  | agent_deployment_enabled
  | agent_deployment_ca_cert_ref
  | agent_deployment_ca_key_ref
  | agent_deployment_cert_days
  | agent_deployment_ingest_url
  | agent_deployment_proxy_host_ip
  | agent_deployment_core_base_url
  | agent_deployment_image
  | agent_deployment_image_archive_path
  | agent_deployment_max_concurrent
  | agent_deployment_enroll_ttl_seconds
  | organize_enabled
  | inference_provider
  | inference_model
  | organize_model
  | inference_ollama_url
  | inference_timeout_seconds
  | inference_allow_egress
  | inference_openai_url
  | inference_openai_key_ref
  | inference_openai_api_key
  | inference_anthropic_url
  | inference_anthropic_key_ref
  | inference_anthropic_api_key
  | inference_anthropic_version
  | concierge_enabled
  | concierge_model
  | concierge_context_max_rows
  | concierge_embeddings_enabled
  | concierge_embedding_provider
  | concierge_embedding_url
  | concierge_embedding_key_ref
  | concierge_embedding_api_key
  | concierge_embedding_model
  | concierge_embedding_dim
  | concierge_embedding_interval_seconds
  | concierge_embedding_batch
  | change_log_retention_enabled
  | change_log_retention_days
  | change_log_prune_interval_seconds
  | scan_coordinator_enabled
  | scan_coordinator_max_concurrent_heavy
  | scan_coordinator_heavy_entries
  | scan_coordinator_lease_ttl_seconds
  | scan_coordinator_retry_after_seconds
  | notifications_enabled
  | notification_retention_days
  | notify_outbound_categories
  | notify_min_severity
  | notify_send_timeout_seconds
  | notify_email_enabled
  | notify_email_smtp_host
  | notify_email_smtp_port
  | notify_email_use_tls
  | notify_email_username
  | notify_email_password_ref
  | notify_email_from
  | notify_email_to
  | notify_chat_enabled
  | notify_chat_kind
  | notify_chat_webhook_ref
  | notify_chat_telegram_chat_id
  | watch_enabled
  | watch_interval_seconds
  | watch_capacity_warn_percent
  | watch_capacity_critical_percent
  | watch_days_to_full_warn
  | watch_scan_stale_hours
  deriving DecidableEq, Repr

/-- The types of the fields, an integer and a float with its bounds. -/
inductive FieldKind where
  | bool
  | int (ge : Int) (le : Option Int)
  | float (gt : Int) (le : Option Int)
  | str
  | opt_str
  | str_tuple
  deriving DecidableEq, Repr

/-- The values of the fields. -/
inductive FieldValue where
  | none
  | bool (b : Bool)
  | int (n : Int)
  | float (x : Json.FloatLit)
  | str (s : String)
  | tuple (xs : List String)
  deriving DecidableEq

/-- One declaration of the class. -/
structure FieldInfo where
  name : String
  kind : FieldKind
  default : FieldValue

/-- The declarations. -/
def Field.info : Field → FieldInfo
  | .database_url => ⟨"database_url", .str, .str "sqlite+aiosqlite:///:memory:"⟩
  | .ingest_max_batch => ⟨"ingest_max_batch", .int 1 none, .int 5000⟩
  | .ingest_proxy_secret => ⟨"ingest_proxy_secret", .opt_str, .none⟩
  | .db_echo => ⟨"db_echo", .bool, .bool false⟩
  | .auto_create_schema => ⟨"auto_create_schema", .bool, .bool false⟩
  | .settings_store_key_ref => ⟨"settings_store_key_ref", .opt_str, .none⟩
  | .settings_store_refresh_seconds =>
    ⟨"settings_store_refresh_seconds", .float 0 none, .float ⟨"15.0".toList, by decide⟩⟩
  | .auth_providers => ⟨"auth_providers", .str_tuple, .tuple ["local", "forward", "oidc"]⟩
  | .session_ttl_seconds => ⟨"session_ttl_seconds", .int 60 none, .int 43200⟩
  | .mfa_freshness_seconds => ⟨"mfa_freshness_seconds", .int 30 none, .int 300⟩
  | .trusted_forward_proxy_cidrs => ⟨"trusted_forward_proxy_cidrs", .str_tuple, .tuple []⟩
  | .oidc_issuer => ⟨"oidc_issuer", .opt_str, .none⟩
  | .oidc_client_id => ⟨"oidc_client_id", .opt_str, .none⟩
  | .session_cookie_secure => ⟨"session_cookie_secure", .bool, .bool true⟩
  | .web_dist => ⟨"web_dist", .opt_str, .none⟩
  | .treemap_max_nodes => ⟨"treemap_max_nodes", .int 1 (some 2000), .int 200⟩
  | .top_n_max => ⟨"top_n_max", .int 1 (some 1000), .int 100⟩
  | .growth_max_buckets => ⟨"growth_max_buckets", .int 2 (some 5000), .int 500⟩
  | .onboarding_completed => ⟨"onboarding_completed", .bool, .bool false⟩
  | .remediation_enabled => ⟨"remediation_enabled", .bool, .bool false⟩
  | .remediation_blast_cap => ⟨"remediation_blast_cap", .int 1 none, .int 100⟩
  | .remediation_job_ttl_seconds => ⟨"remediation_job_ttl_seconds", .int 30 none, .int 300⟩
  | .remediation_signing_algorithm => ⟨"remediation_signing_algorithm", .str, .str "ed25519"⟩
  | .remediation_signing_key_ref => ⟨"remediation_signing_key_ref", .opt_str, .none⟩
  | .remediation_signing_key_id => ⟨"remediation_signing_key_id", .str, .str "orchestrator-v1"⟩
  | .quarantine_retention_days => ⟨"quarantine_retention_days", .int 1 none, .int 7⟩
  | .preview_enabled => ⟨"preview_enabled", .bool, .bool false⟩
  | .preview_local_fetch => ⟨"preview_local_fetch", .bool, .bool false⟩
  | .preview_sandbox_runtime => ⟨"preview_sandbox_runtime", .str, .str "runsc"⟩
  | .preview_sandbox_image => ⟨"preview_sandbox_image", .str, .str "fathom-preview:local"⟩
  | .preview_cpu_limit => ⟨"preview_cpu_limit", .float 0 none, .float ⟨"1.0".toList, by decide⟩⟩
  | .preview_mem_bytes => ⟨"preview_mem_bytes", .int 67108864 none, .int 536870912⟩
  | .preview_timeout_seconds =>
    ⟨"preview_timeout_seconds", .float 0 (some 120), .float ⟨"10.0".toList, by decide⟩⟩
  | .preview_max_pages => ⟨"preview_max_pages", .int 1 (some 500), .int 50⟩
  | .preview_max_decompressed_bytes =>
    ⟨"preview_max_decompressed_bytes", .int 1048576 none, .int 104857600⟩
  | .preview_max_input_bytes => ⟨"preview_max_input_bytes", .int 1024 none, .int 268435456⟩
  | .preview_cache_ttl_seconds => ⟨"preview_cache_ttl_seconds", .int 60 none, .int 1800⟩
  | .preview_cache_max_entries => ⟨"preview_cache_max_entries", .int 1 none, .int 256⟩
  | .preview_cache_key_ref => ⟨"preview_cache_key_ref", .opt_str, .none⟩
  | .preview_grant_ttl_seconds => ⟨"preview_grant_ttl_seconds", .int 5 (some 600), .int 60⟩
  | .preview_grant_signing_key_ref => ⟨"preview_grant_signing_key_ref", .opt_str, .none⟩
  | .preview_grant_key_id => ⟨"preview_grant_key_id", .str, .str "preview-v1"⟩
  | .preview_worker_url => ⟨"preview_worker_url", .opt_str, .none⟩
  | .preview_worker_enabled => ⟨"preview_worker_enabled", .bool, .bool false⟩
  | .browse_signing_key_ref => ⟨"browse_signing_key_ref", .opt_str, .none⟩
  | .browse_grant_key_id => ⟨"browse_grant_key_id", .str, .str "browse-v1"⟩
  | .browse_request_ttl_seconds => ⟨"browse_request_ttl_seconds", .int 5 (some 300), .int 30⟩
  | .agent_deployment_enabled => ⟨"agent_deployment_enabled", .bool, .bool false⟩
  | .agent_deployment_ca_cert_ref => ⟨"agent_deployment_ca_cert_ref", .opt_str, .none⟩
  | .agent_deployment_ca_key_ref => ⟨"agent_deployment_ca_key_ref", .opt_str, .none⟩
  | .agent_deployment_cert_days => ⟨"agent_deployment_cert_days", .int 1 (some 3650), .int 825⟩
  | .agent_deployment_ingest_url =>
    ⟨"agent_deployment_ingest_url", .str, .str "https://proxy:9443/api/v1/agents/ingest"⟩
  | .agent_deployment_proxy_host_ip => ⟨"agent_deployment_proxy_host_ip", .opt_str, .none⟩
  | .agent_deployment_core_base_url => ⟨"agent_deployment_core_base_url", .opt_str, .none⟩
  | .agent_deployment_image => ⟨"agent_deployment_image", .str, .str "fathom:local"⟩
  | .agent_deployment_image_archive_path => ⟨"agent_deployment_image_archive_path", .opt_str, .none⟩
  | .agent_deployment_max_concurrent =>
    ⟨"agent_deployment_max_concurrent", .int 1 (some 16), .int 3⟩
  | .agent_deployment_enroll_ttl_seconds =>
    ⟨"agent_deployment_enroll_ttl_seconds", .int 60 (some 3600), .int 900⟩
  | .organize_enabled => ⟨"organize_enabled", .bool, .bool false⟩
  | .inference_provider => ⟨"inference_provider", .str, .str "ollama"⟩
  | .inference_model => ⟨"inference_model", .str, .str "llama3.2:3b"⟩
  | .organize_model => ⟨"organize_model", .opt_str, .none⟩
  | .inference_ollama_url => ⟨"inference_ollama_url", .str, .str "http://127.0.0.1:11434"⟩
  | .inference_timeout_seconds =>
    ⟨"inference_timeout_seconds", .float 0 (some 600), .float ⟨"120.0".toList, by decide⟩⟩
  | .inference_allow_egress => ⟨"inference_allow_egress", .bool, .bool false⟩
  | .inference_openai_url => ⟨"inference_openai_url", .str, .str "https://api.openai.com/v1"⟩
  | .inference_openai_key_ref => ⟨"inference_openai_key_ref", .opt_str, .none⟩
  | .inference_openai_api_key => ⟨"inference_openai_api_key", .opt_str, .none⟩
  | .inference_anthropic_url => ⟨"inference_anthropic_url", .str, .str "https://api.anthropic.com"⟩
  | .inference_anthropic_key_ref => ⟨"inference_anthropic_key_ref", .opt_str, .none⟩
  | .inference_anthropic_api_key => ⟨"inference_anthropic_api_key", .opt_str, .none⟩
  | .inference_anthropic_version => ⟨"inference_anthropic_version", .str, .str "2023-06-01"⟩
  | .concierge_enabled => ⟨"concierge_enabled", .bool, .bool false⟩
  | .concierge_model => ⟨"concierge_model", .opt_str, .none⟩
  | .concierge_context_max_rows => ⟨"concierge_context_max_rows", .int 1 (some 500), .int 50⟩
  | .concierge_embeddings_enabled => ⟨"concierge_embeddings_enabled", .bool, .bool false⟩
  | .concierge_embedding_provider => ⟨"concierge_embedding_provider", .str, .str "ollama"⟩
  | .concierge_embedding_url => ⟨"concierge_embedding_url", .opt_str, .none⟩
  | .concierge_embedding_key_ref => ⟨"concierge_embedding_key_ref", .opt_str, .none⟩
  | .concierge_embedding_api_key => ⟨"concierge_embedding_api_key", .opt_str, .none⟩
  | .concierge_embedding_model => ⟨"concierge_embedding_model", .str, .str "nomic-embed-text"⟩
  | .concierge_embedding_dim => ⟨"concierge_embedding_dim", .int 1 (some 4096), .int 768⟩
  | .concierge_embedding_interval_seconds =>
    ⟨"concierge_embedding_interval_seconds", .float 0 none, .float ⟨"300.0".toList, by decide⟩⟩
  | .concierge_embedding_batch => ⟨"concierge_embedding_batch", .int 1 (some 10000), .int 512⟩
  | .change_log_retention_enabled => ⟨"change_log_retention_enabled", .bool, .bool false⟩
  | .change_log_retention_days => ⟨"change_log_retention_days", .int 1 none, .int 90⟩
  | .change_log_prune_interval_seconds =>
    ⟨"change_log_prune_interval_seconds", .float 0 none, .float ⟨"86400.0".toList, by decide⟩⟩
  | .scan_coordinator_enabled => ⟨"scan_coordinator_enabled", .bool, .bool false⟩
  | .scan_coordinator_max_concurrent_heavy =>
    ⟨"scan_coordinator_max_concurrent_heavy", .int 1 none, .int 1⟩
  | .scan_coordinator_heavy_entries => ⟨"scan_coordinator_heavy_entries", .int 1 none, .int 500000⟩
  | .scan_coordinator_lease_ttl_seconds =>
    ⟨"scan_coordinator_lease_ttl_seconds", .int 60 none, .int 21600⟩
  | .scan_coordinator_retry_after_seconds =>
    ⟨"scan_coordinator_retry_after_seconds", .int 60 none, .int 1800⟩
  | .notifications_enabled => ⟨"notifications_enabled", .bool, .bool false⟩
  | .notification_retention_days => ⟨"notification_retention_days", .int 1 none, .int 30⟩
  | .notify_outbound_categories =>
    ⟨"notify_outbound_categories", .str_tuple, .tuple ["problem", "security"]⟩
  | .notify_min_severity => ⟨"notify_min_severity", .str, .str "warning"⟩
  | .notify_send_timeout_seconds =>
    ⟨"notify_send_timeout_seconds", .float 0 (some 120), .float ⟨"10.0".toList, by decide⟩⟩
  | .notify_email_enabled => ⟨"notify_email_enabled", .bool, .bool false⟩
  | .notify_email_smtp_host => ⟨"notify_email_smtp_host", .opt_str, .none⟩
  | .notify_email_smtp_port => ⟨"notify_email_smtp_port", .int 1 (some 65535), .int 587⟩
  | .notify_email_use_tls => ⟨"notify_email_use_tls", .bool, .bool true⟩
  | .notify_email_username => ⟨"notify_email_username", .opt_str, .none⟩
  | .notify_email_password_ref => ⟨"notify_email_password_ref", .opt_str, .none⟩
  | .notify_email_from => ⟨"notify_email_from", .opt_str, .none⟩
  | .notify_email_to => ⟨"notify_email_to", .str_tuple, .tuple []⟩
  | .notify_chat_enabled => ⟨"notify_chat_enabled", .bool, .bool false⟩
  | .notify_chat_kind => ⟨"notify_chat_kind", .str, .str "discord"⟩
  | .notify_chat_webhook_ref => ⟨"notify_chat_webhook_ref", .opt_str, .none⟩
  | .notify_chat_telegram_chat_id => ⟨"notify_chat_telegram_chat_id", .opt_str, .none⟩
  | .watch_enabled => ⟨"watch_enabled", .bool, .bool false⟩
  | .watch_interval_seconds =>
    ⟨"watch_interval_seconds", .float 0 none, .float ⟨"3600.0".toList, by decide⟩⟩
  | .watch_capacity_warn_percent => ⟨"watch_capacity_warn_percent", .int 1 (some 100), .int 90⟩
  | .watch_capacity_critical_percent =>
    ⟨"watch_capacity_critical_percent", .int 1 (some 100), .int 97⟩
  | .watch_days_to_full_warn => ⟨"watch_days_to_full_warn", .int 1 (some 3650), .int 14⟩
  | .watch_scan_stale_hours => ⟨"watch_scan_stale_hours", .int 0 (some 8760), .int 36⟩

/-! ## Validation -/

/-- The conversions to the scalar types, and the comparisons of floats with a bound. -/
structure Coercions where
  to_bool : Json.Value → Option Bool
  to_int : Json.Value → Option Int
  to_float : Json.Value → Option Json.FloatLit
  float_gt : Json.FloatLit → Int → Bool
  float_le : Json.FloatLit → Int → Bool
  to_bool_bool : ∀ b, to_bool (.bool b) = some b
  to_int_int : ∀ n, to_int (.int n) = some n
  to_float_float : ∀ x, to_float (.float x) = some x

/-- The texts of a list of texts. -/
def texts : List Json.Value → Option (List String)
  | [] => some []
  | .str s :: rest => (texts rest).map fun xs => s :: xs
  | _ :: _ => none

/-- A value of a type, from a raw one. -/
def FieldKind.validate (c : Coercions) : FieldKind → Json.Value → Option FieldValue
  | .bool, raw => (c.to_bool raw).map FieldValue.bool
  | .int ge le, raw =>
    (c.to_int raw).bind fun n => if ge ≤ n ∧ le.all (fun bound => n ≤ bound) then some (.int n) else none
  | .float gt le, raw =>
    (c.to_float raw).bind fun x => if c.float_gt x gt && le.all (c.float_le x) then some (.float x) else none
  | .str, raw =>
    match raw with
    | .str s => some (.str s)
    | _ => none
  | .opt_str, raw =>
    match raw with
    | .null => some .none
    | .str s => some (.str s)
    | _ => none
  | .str_tuple, raw =>
    match raw with
    | .arr xs => (texts xs).map FieldValue.tuple
    | _ => none

/-- `model_dump(mode="json")`, of one value. -/
def FieldValue.dump : FieldValue → Json.Value
  | .none => .null
  | .bool b => .bool b
  | .int n => .int n
  | .float x => .float x
  | .str s => .str s
  | .tuple xs => .arr (xs.map Json.Value.str)

theorem texts_map (xs : List String) : texts (xs.map Json.Value.str) = some xs := by
  induction xs with
  | nil => rfl
  | cons s xs ih =>
      rw [List.map_cons, texts, ih]
      rfl

/-- A validated value is valid as it is dumped. -/
theorem FieldKind.validate_dump (c : Coercions) (kind : FieldKind) (raw : Json.Value) (v : FieldValue)
    (h : kind.validate c raw = some v) : kind.validate c v.dump = some v := by
  unfold FieldKind.validate at h
  cases kind with
  | bool =>
      obtain ⟨b, _, rfl⟩ := Option.map_eq_some_iff.mp h
      exact congrArg (Option.map FieldValue.bool) (c.to_bool_bool b)
  | int ge le =>
      obtain ⟨n, _, hn⟩ := Option.bind_eq_some_iff.mp h
      split_ifs at hn with hbounds
      rw [← Option.some.inj hn]
      unfold FieldKind.validate
      dsimp only [FieldValue.dump]
      rw [c.to_int_int, Option.bind_some, if_pos hbounds]
  | float gt le =>
      obtain ⟨x, _, hx⟩ := Option.bind_eq_some_iff.mp h
      split_ifs at hx with hbounds
      rw [← Option.some.inj hx]
      unfold FieldKind.validate
      dsimp only [FieldValue.dump]
      rw [c.to_float_float, Option.bind_some, if_pos hbounds]
  | str =>
      cases raw with
      | str s =>
          rw [← Option.some.inj h]
          rfl
      | _ => exact absurd h (by simp)
  | opt_str =>
      cases raw with
      | null =>
          rw [← Option.some.inj h]
          rfl
      | str s =>
          rw [← Option.some.inj h]
          rfl
      | _ => exact absurd h (by simp)
  | str_tuple =>
      cases raw with
      | arr xs =>
          obtain ⟨ss, _, rfl⟩ := Option.map_eq_some_iff.mp h
          exact congrArg (Option.map FieldValue.tuple) (texts_map ss)
      | _ => exact absurd h (by simp)

/-- The fields in the order of their declarations. -/
def Field.all : List Field := (List.range 115).map Field.ofNat

theorem Field.mem_all (f : Field) : f ∈ Field.all := by
  have hlt : f.ctorIdx < 115 := by cases f <;> decide
  exact List.mem_map.mpr ⟨f.ctorIdx, List.mem_range.mpr hlt, Field.ofNat_ctorIdx f⟩

/-- The class, as a schema. -/
def schema (c : Coercions) : Schema Field Json.Value FieldValue where
  fields := Field.all
  complete := Field.mem_all
  validate := fun f raw => f.info.kind.validate c raw
  dump := FieldValue.dump
  stable := fun f raw v h => f.info.kind.validate_dump c raw v h

/-- A `Settings` object: all its values are valid. -/
abbrev Settings (c : Coercions) := (schema c).Record

end Fathom.Config
