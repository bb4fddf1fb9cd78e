import MinMcp.Core.LTS
import MinMcp.Core.Json.RoundTrip
import MinMcp.L3Protocol.DotSegments
import MinMcp.L3Protocol.SseResponse
import MinMcp.L2Machine.Project
import MinMcp.L4App.UserSupplied
import MinMcp.L4App.RateLimit
import MinMcp.L4App.PreflightSound
import MinMcp.L4App.PaginateHonest
import MinMcp.L2Machine.AuditResume
import MinMcp.L2Machine.AuditTamper
import MinMcp.L5Concurrency.AuditLog
import MinMcp.L4App.Workflow
import MinMcp.L4App.Hidden
import MinMcp.L4App.ToolIds
import MinMcp.L4App.Filters
import MinMcp.L4App.SpecBody
import MinMcp.L5Concurrency.Mediation
import MinMcp.L5Concurrency.ReadCache
import MinMcp.L5Concurrency.HttpSession
import MinMcp.L5Concurrency.StdioMux
import MinMcp.L5Concurrency.Served
import MinMcp.L5Concurrency.ResourceRoutes
import MinMcp.L5Concurrency.Fingerprint
import MinMcp.L5Concurrency.CacheTransparent
import MinMcp.L4App.CallAudit
import MinMcp.L4App.DoubleEncoded
import MinMcp.L5Concurrency.RequestIsolation
import MinMcp.L5Concurrency.Introspection
import MinMcp.L5Concurrency.UsageCounts
import MinMcp.L5Concurrency.ScopedSearch
import MinMcp.L5Concurrency.CatalogSwap
import MinMcp.L5Concurrency.StdioEnd
import MinMcp.L5Concurrency.StdioPipes
import MinMcp.L4App.SpecParams
import MinMcp.L4App.PaginateOnce
import MinMcp.L4App.Prompts
import MinMcp.L5Concurrency.MarkedParams
import MinMcp.L4App.StripFields
import MinMcp.L4App.BreakerRuns
import MinMcp.L4App.RefusedCall
import MinMcp.L5Concurrency.RateTasks
import MinMcp.L4App.CallerKeys
import MinMcp.L4App.Drift
import MinMcp.L4App.DataFlow
import MinMcp.L2Machine.Union
import MinMcp.L2Machine.Wildcards
import MinMcp.L4App.OperationIds
import MinMcp.L4App.QueryWire
import MinMcp.L4App.SpecRequest
import MinMcp.L4App.SpecSize
import MinMcp.L4App.LocalRefs
import MinMcp.L4App.BindingCheck
import MinMcp.L4App.ArgumentRoutes
import MinMcp.L4App.OverlayOrder
import MinMcp.L4App.Minify
import MinMcp.L4App.FormFields
import MinMcp.L4App.Secrets
import MinMcp.L4App.Timestamp
import MinMcp.L4App.Compaction
import MinMcp.L4App.SearchRank
import MinMcp.L4App.Details
import MinMcp.L5Concurrency.VerdictLife
import MinMcp.L5Concurrency.KeyTrust
import MinMcp.L5Concurrency.UpstreamSlots
import MinMcp.L5Concurrency.OAuthTokens
import MinMcp.L5Concurrency.VaultReads
import MinMcp.L5Concurrency.Respawn
import MinMcp.L5Concurrency.Negotiation
import MinMcp.L5Concurrency.HttpFront
import MinMcp.L3Protocol.Redirects
import MinMcp.L5Concurrency.Startup
import MinMcp.L4App.AccessReport
import MinMcp.L4App.LintReport
import MinMcp.L4App.Shadow
import MinMcp.L4App.IdempotencyKey
import MinMcp.L1Encoding.Uuid
