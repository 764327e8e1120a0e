import Ears.Runs
import Ears.Base64
import Ears.AckTree
import Ears.AckTally
import Ears.AckOutcome
import Ears.AckRepeat
import Ears.AckSubtree
import Ears.Tenant
import Ears.GoLib
import Ears.HeapTree
import Ears.Event
import Ears.EventFrozen
import Ears.Md5
import Ears.Json
import Ears.Route
import Ears.Fiber
import Ears.PluginManager
import Ears.LiveRoute
import Ears.RoutingTable
import Ears.TableInvariant
import Ears.TableEntries
import Ears.TableRefinement
import Ears.TableConcurrency
import Ears.GlobalSync
import Ears.Shutdown
import Ears.SyncCheck
import Ears.AddRouteFailure
import Ears.RouteRegistration
import Ears.Replicas
import Ears.DeltaSync
import Ears.RegisteredRoutes
import Ears.Blocks
import Ears.RouteHash
import Ears.Receivers
import Ears.PluginCalls
import Ears.PluginIdentity
import Ears.ReceiverConcurrency
import Ears.PluginStop
import Ears.Sharder
import Ears.KinesisShards
import Ears.KinesisCheckpoint
import Ears.TokenBucket
import Ears.RedisLimiter
import Ears.AdaptiveLimiter
import Ears.JwtAuthorization
import Ears.CredentialVault
import Ears.Programs
import Ears.HeapPrograms
import Ears.EventPrograms
import Ears.FanOut
import Ears.LibraryFilters
import Ears.FilterChain
import Ears.PathLens
import Ears.EventScope
import Ears.FilterScope
import Ears.EventDelivery
import Ears.RouteIsolation
import Ears.AckConservation
import Ears.JsInterpreter
import Ears.JsIsolation
import Ears.JsonHeap
import Ears.PatternMatch
import Ears.ExactArrayMatch
import Ears.PathReading
import Ears.ArrayAccess
import Ears.Positions
import Ears.PathWriting
import Ears.PathOutcome
import Ears.Expressions
import Ears.PathPanics
import Ears.BracketPaths
import Ears.PathGrammar
import Ears.JsonTrees
import Ears.Expansion
import Ears.Floats
import Ears.ActiveNodes
import Ears.QuotaBackends
import Ears.RateLimiterContract
import Ears.AdaptiveTuning
import Ears.Lru
import Ears.Dedup
import Ears.Batch
import Ears.MergeValues
import Ears.ComparisonTrees
import Ears.EncodeDecode
import Ears.TuningLoop
import Ears.MetricCounters
import Ears.BatchSend
import Ears.BatchSenders
import Ears.StopDeadlock
import Ears.RouteTimes
import Ears.WsTokens
import Ears.RuntimePool
import Ears.CheckpointStart
import Ears.BraceTemplates
import Ears.TemplateExpansion
import Ears.TransformLeaves
import Ears.StorageKeys
import Ears.Timestamps
import Ears.DeliveryOutcome
import Ears.SqsReceiver
import Ears.ApiManager
import Ears.ApiMediation
import Ears.ApiAccess
import Ears.ApiEvents
import Ears.ApiTenants
import Ears.KeyedStore
import Ears.RouteStorage
import Ears.QuotaSync
