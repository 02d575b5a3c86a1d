import SukkalMsg.ActionRuns
import SukkalMsg.JobLedger
import SukkalMsg.OrderedScan
import SukkalMsg.Names
import SukkalMsg.Binjson
import SukkalMsg.Text
import SukkalMsg.Store
import SukkalMsg.Receipts
import SukkalMsg.BoundedTable
import SukkalMsg.QueueRecord
import SukkalMsg.QueueTake
import SukkalMsg.QueueSettlement
import SukkalMsg.QueueRuns
import SukkalMsg.QueueGroups
import SukkalMsg.QueueGuarantees
import SukkalMsg.TwoGenerations
import SukkalMsg.Dedup
import SukkalMsg.DedupWindow
import SukkalMsg.PublishHandler
import SukkalMsg.IdempotentPublish
import SukkalMsg.PipelineKeys
import SukkalMsg.Retention
import SukkalMsg.PushRegistry
import SukkalMsg.Pusher
import SukkalMsg.PushHandlers
import SukkalMsg.PusherSteps
import SukkalMsg.Deliveries
import SukkalMsg.PushRuns
import SukkalMsg.PushStart
import SukkalMsg.ReplySettlement
import SukkalMsg.StoreSteps
import SukkalMsg.TableSteps
import SukkalMsg.PushProgress
import SukkalMsg.RegistryAgreement
import SukkalMsg.PumpSleep
import SukkalMsg.PushRestart
import SukkalMsg.Policies
import SukkalMsg.Listings
import SukkalMsg.Requests
import SukkalMsg.Routes
import SukkalMsg.StoreCalls
import SukkalMsg.RequestCalls
import SukkalMsg.ReceiptBounds
import SukkalMsg.Encoding
import SukkalMsg.TakeFaults
import SukkalMsg.Legibility
import SukkalMsg.PublishRefusals
import SukkalMsg.HighWater
import SukkalMsg.ReceiptMap
import SukkalMsg.PyBinjson
import SukkalMsg.PyBinjsonRoundTrip
import SukkalMsg.SelfDelimiting
import SukkalMsg.WireGrammar
import SukkalMsg.AcceptedBodies
import SukkalMsg.PyProtocol
import SukkalMsg.ShapeCounts
import SukkalMsg.MessageSurvival
import SukkalMsg.PyTransport
import SukkalMsg.QueryStrings
import SukkalMsg.GuardedHeaders
import SukkalMsg.HttpReplies
import SukkalMsg.WorkerReplies
import SukkalMsg.WorkerVerdicts
import SukkalMsg.ClientRetries
import SukkalMsg.SubscriberReplies
import SukkalMsg.RepeatedCalls
import SukkalMsg.RepeatedJobs
import SukkalMsg.RepeatedPublishes
import SukkalMsg.RetrySafety
import SukkalMsg.Boundaries
import SukkalMsg.TrimmedReads
import SukkalMsg.KeyedSweep
import SukkalMsg.RetentionTurns
import SukkalMsg.RetentionSweep
import SukkalMsg.TimedMarks
import SukkalMsg.PublishMarks
import SukkalMsg.AgeRetention
import SukkalMsg.TakeTurns
import SukkalMsg.CompleteTakes
import SukkalMsg.LeaseZero
import SukkalMsg.RefusedSends
import SukkalMsg.FailedPublishes
import SukkalMsg.SplitLists
import SukkalMsg.Patterns
import SukkalMsg.NameGrammar
import SukkalMsg.Regexes
import SukkalMsg.ClientNames
import SukkalMsg.QueryEscapes
import SukkalMsg.RetryDelays
import SukkalMsg.ClockSteps
import SukkalMsg.RoundRobin
import SukkalMsg.Offers
import SukkalMsg.FairTurns
import SukkalMsg.FairRuns
import SukkalMsg.Fairness
import SukkalMsg.RequeuedEnvelopes
import SukkalMsg.TrimFaults
import SukkalMsg.PassRules
import SukkalMsg.EngineNames
import SukkalMsg.SubscriptionStarts
import SukkalMsg.JsonText
import SukkalMsg.Renderer
import SukkalMsg.RenderSteps
import SukkalMsg.RenderedJson
import SukkalMsg.Envelopes
import SukkalMsg.PyDecodeErrors
import SukkalMsg.PyEncodeErrors
import SukkalMsg.StoredRecords
import SukkalMsg.PublishUrls
import SukkalMsg.DistinctIds
import SukkalMsg.InFlight
import SukkalMsg.PipelineRuns
import SukkalMsg.StagePublishes
import SukkalMsg.OncePipelines
import SukkalMsg.Windows
import SukkalMsg.LogWindows
import SukkalMsg.Conveyances
import SukkalMsg.Additions
import SukkalMsg.OneAccount
import SukkalMsg.Isolation
import SukkalMsg.OfferedNames
import SukkalMsg.Bystanders
import SukkalMsg.Wakeups
import SukkalMsg.FruitlessTakes
import SukkalMsg.FruitlessSearches
import SukkalMsg.RestingPasses
import SukkalMsg.Flights
import SukkalMsg.HeldLogs
import SukkalMsg.Openings
import SukkalMsg.WasmPlan
import SukkalMsg.PlanCoverage
import SukkalMsg.PlanCreations
import SukkalMsg.Correlations
import SukkalMsg.RequestReply
import SukkalMsg.TextEnvelopes
import SukkalMsg.HeaderPosts
import SukkalMsg.AnsweredRequests
import SukkalMsg.OneReply
