import ModelServing.Lib.Run
import ModelServing.Lib.OrderedDict
import ModelServing.Lib.Chunks
import ModelServing.Lib.ObjectHeap
import ModelServing.Cache.Manager
import ModelServing.Cache.Calls
import ModelServing.Cache.Ownership
import ModelServing.Cache.Effects
import ModelServing.Cache.TokenMap
import ModelServing.Cache.Translation
import ModelServing.Engine.Scheduler
import ModelServing.Engine.Ledger
import ModelServing.Engine.Selection
import ModelServing.Engine.Conservation
import ModelServing.Engine.Sampling
import ModelServing.Engine.Batching
import ModelServing.Engine.Transitions
import ModelServing.Engine.Operations
import ModelServing.Engine.Batch
import ModelServing.Engine.CacheAgreement
import ModelServing.Api.Isolation
import ModelServing.Engine.Coverage
import ModelServing.Engine.Transparency
import ModelServing.Api.Agreement
import ModelServing.Cache.Accounting
import ModelServing.Engine.Lifecycle
import ModelServing.Engine.Load
import ModelServing.Engine.Fairness
import ModelServing.Engine.Policy
import ModelServing.Engine.Repeated
import ModelServing.Api.Rendering
import ModelServing.Api.Events
import ModelServing.Api.Filters
import ModelServing.Api.Handlers
import ModelServing.Api.Modes
import ModelServing.Api.Window
import ModelServing.Api.Scraping
import ModelServing.Cache.Eviction
import ModelServing.Cache.Extension
import ModelServing.Engine.Admission
import ModelServing.Engine.Capacity
import ModelServing.Api.Deployment
import ModelServing.Api.Dashboards
