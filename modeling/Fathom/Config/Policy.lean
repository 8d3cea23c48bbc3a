/-
**The policies of the settings** (`SETTING_POLICIES`): which fields may be set in the
application, and which are kept as secrets.

Of a policy only what a write reads is here; what the settings page shows is left out.
-/
import Fathom.Config.Fields

set_option autoImplicit false

namespace Fathom.Config

/-- `SettingPolicy`, as far as a write reads it. -/
structure SettingPolicy where
  editable : Bool := true
  is_secret : Bool := false
  label : Option String := none
  deriving DecidableEq, Repr

/-- `SETTING_POLICIES`: no entry, no write. -/
def Field.policy : Field → Option SettingPolicy
  | .treemap_max_nodes => some {}
  | .top_n_max => some {}
  | .growth_max_buckets => some {}
  | .onboarding_completed => some { label := some "Onboarding completed" }
  | .mfa_freshness_seconds => some {}
  | .session_ttl_seconds => some {}
  | .ingest_max_batch => some {}
  | .ingest_proxy_secret => some { is_secret := true }
  | .inference_provider => some { label := some "Inference provider" }
  | .inference_model => some { label := some "Inference model" }
  | .inference_allow_egress => some { label := some "Allow cloud egress" }
  | .inference_timeout_seconds => some {}
  | .inference_ollama_url => some { label := some "Ollama URL" }
  | .inference_openai_url => some { label := some "OpenAI endpoint URL" }
  | .inference_openai_api_key => some { is_secret := true, label := some "OpenAI API key" }
  | .inference_openai_key_ref => some { label := some "OpenAI key — secret reference (advanced)" }
  | .inference_anthropic_url => some { label := some "Anthropic endpoint URL" }
  | .inference_anthropic_api_key => some { is_secret := true, label := some "Anthropic API key" }
  | .inference_anthropic_key_ref =>
    some { label := some "Anthropic key — secret reference (advanced)" }
  | .inference_anthropic_version => some { label := some "Anthropic API version" }
  | .organize_enabled => some {}
  | .organize_model => some { label := some "Organize model (override)" }
  | .concierge_enabled => some {}
  | .concierge_model => some { label := some "Concierge model (override)" }
  | .concierge_context_max_rows => some {}
  | .concierge_embeddings_enabled => some {}
  | .concierge_embedding_provider => some { label := some "Embedding provider" }
  | .concierge_embedding_model => some {}
  | .concierge_embedding_url => some { label := some "Embedding endpoint URL" }
  | .concierge_embedding_api_key => some { is_secret := true, label := some "Embedding API key" }
  | .concierge_embedding_key_ref =>
    some { label := some "Embedding key — secret reference (advanced)" }
  | .remediation_enabled => some {}
  | .remediation_blast_cap => some {}
  | .preview_enabled => some {}
  | .preview_timeout_seconds => some {}
  | .preview_max_pages => some {}
  | .preview_max_input_bytes => some {}
  | .scan_coordinator_enabled => some {}
  | .scan_coordinator_max_concurrent_heavy => some {}
  | .scan_coordinator_heavy_entries => some {}
  | .scan_coordinator_lease_ttl_seconds => some {}
  | .scan_coordinator_retry_after_seconds => some {}
  | .notifications_enabled => some {}
  | .notification_retention_days => some {}
  | .notify_outbound_categories => some {}
  | .notify_min_severity => some {}
  | .notify_send_timeout_seconds => some {}
  | .notify_email_enabled => some { label := some "Email channel" }
  | .notify_email_smtp_host => some { label := some "SMTP host" }
  | .notify_email_smtp_port => some { label := some "SMTP port" }
  | .notify_email_use_tls => some { label := some "SMTP STARTTLS" }
  | .notify_email_username => some { label := some "SMTP username" }
  | .notify_email_password_ref => some { label := some "SMTP password (secret reference)" }
  | .notify_email_from => some { label := some "Email from address" }
  | .notify_email_to => some { label := some "Email recipients" }
  | .notify_chat_enabled => some { label := some "Chat channel" }
  | .notify_chat_kind => some { label := some "Chat kind" }
  | .notify_chat_webhook_ref => some { label := some "Chat webhook / token (secret reference)" }
  | .notify_chat_telegram_chat_id => some { label := some "Telegram chat id" }
  | .watch_enabled => some {}
  | .watch_interval_seconds => some {}
  | .watch_capacity_warn_percent => some {}
  | .watch_capacity_critical_percent => some {}
  | .watch_days_to_full_warn => some {}
  | .change_log_retention_enabled => some {}
  | .change_log_retention_days => some {}
  | _ => none

/-- Whether a field is stored as a secret. -/
def Field.is_secret (f : Field) : Bool := f.policy.any SettingPolicy.is_secret

/-- A secret is an optional text. -/
theorem kind_of_secret (f : Field) (h : f.is_secret = true) : f.info.kind = .opt_str := by
  have hall : ∀ g ∈ Field.all, g.is_secret = true → g.info.kind = .opt_str := by decide
  exact hall f f.mem_all h

/-- The fields a write of the provider touches are not secrets. -/
theorem provider_not_secret :
    Field.is_secret .inference_provider = false ∧ Field.is_secret .inference_model = false := by decide

end Fathom.Config
