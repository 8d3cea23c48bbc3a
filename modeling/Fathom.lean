import Fathom.Actor.Listener
import Fathom.Audit.Tamper
import Fathom.Audit.Checkpoint
import Fathom.Remediation.Delivery
import Fathom.Api.Execute
import Fathom.Api.Survival
import Fathom.Audit.Tamper
import Fathom.Remediation.Delivery
import Fathom.Agent.Confirmed
import Fathom.Agent.Reappear
import Fathom.Agent.Owed
import Fathom.Read.Finalize
import Fathom.Scan.Cap
import Fathom.Auth.StepUp
import Fathom.Preview.Integrity
import Fathom.Browse.Channels
import Fathom.Actor.Blast
import Fathom.Organize.Confine
import Fathom.Organize.Layout
import Fathom.Api.Idempotent
import Fathom.Api.AdminUsers
import Fathom.Adapters.TrueNas
import Fathom.Agent.ZfsDiff
import Fathom.Backends.Sftp
import Fathom.Browse.Subtree
import Fathom.Catalogue.Rebuild
import Fathom.Read.Downsample
import Fathom.Read.Recompute
import Fathom.Read.Streaming
import Fathom.Agent.Unicode
import Fathom.Agent.Excludes
import Fathom.Concierge.HotFolders
import Fathom.Concierge.Freshness
import Fathom.Concierge.Forecast
import Fathom.Config.Rollback
import Fathom.Deploy.Enrollment
import Fathom.Deploy.Volumes
import Fathom.Notify.Bell
import Fathom.Preview.Cache
import Fathom.Read.Pages
import Fathom.Reconcile.Sample
import Fathom.Risk.Classify
import Fathom.Security.Joins
import Fathom.Security.Prefixes
import Fathom.Deploy.Engine
