import Munarium.Std.Text
import Munarium.Core.Types
import Munarium.Core.Ledger
import Munarium.Core.Calendar
import Munarium.Core.When
import Munarium.Lib.FirstSeen
import Munarium.Lib.Intervals
import Munarium.Core.Timeline
import Munarium.Core.PolicyRevision
import Munarium.Core.Promises
import Munarium.Lib.Forest
import Munarium.Store.Counters
import Munarium.Store.PromiseReads
import Munarium.Store.GovernanceChain
import Munarium.Server.Interleaving
import Munarium.Server.Canon
import Munarium.Server.ChronologyCanon
import Munarium.Std.Regex
import Munarium.Core.Gates
import Munarium.Evidence.Purge
import Munarium.Evidence.SealRetry
import Munarium.Budget.Corrections
import Munarium.Platform.EventRuns
import Munarium.Platform.ActionRuns
import Munarium.Platform.AuthorityRuns
import Munarium.Retrieval.FusionLaws
import Munarium.Retrieval.MergeOracle
import Munarium.Retrieval.IndexIdentity
import Munarium.Retrieval.CollectionRuns
import Munarium.Retrieval.LegacyIndex
import Munarium.Retrieval.SourceRace
import Munarium.Builds.JobRuns
import Munarium.Builds.BindingRuns
import Munarium.Builds.SingleFlight
import Munarium.Datastore.CanonicalForm
import Munarium.Datastore.Vector
import Munarium.Datastore.L1Runs
import Munarium.Server.CommandRuns
import Munarium.Server.PlanRuns
import Munarium.Server.CompositionRows
import Munarium.Runbooks.Cutovers
import Munarium.Runbooks.Settlement
import Munarium.Core.Slices
import Munarium.Core.Composer
import Munarium.Server.AssertionChecks
import Munarium.Server.FactLayers
import Munarium.Server.Selections
import Munarium.Server.IdempotencyRecords
import Munarium.Budget.MoneyRuns
import Munarium.Budget.GuardedRuns
import Munarium.Platform.ReplayRuns
import Munarium.Budget.Charges
import Munarium.Server.CitationScan
import Munarium.Server.QuoteScan
import Munarium.Retrieval.NumberFragments
import Munarium.Retrieval.CandidateQuery
import Munarium.Retrieval.ChunkContent
import Munarium.Datastore.TokenCover
import Munarium.Evidence.RowPages
import Munarium.Platform.CheckpointRuns
import Munarium.Core.KeyPatterns
import Munarium.Core.SimilarityRatio
import Munarium.Store.BackendRuns
import Munarium.Server.CollectionService
