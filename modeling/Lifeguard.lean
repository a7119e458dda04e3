import Lifeguard.Lib.Table
import Lifeguard.Lib.Rounds
import Lifeguard.Lib.CheckLoop
import Lifeguard.Names
import Lifeguard.Effects
import Lifeguard.Errors
import Lifeguard.ModuleSafety
import Lifeguard.Constructors
import Lifeguard.Mro
import Lifeguard.SafetyResolver
import Lifeguard.Resolution
import Lifeguard.CandidateTheory
import Lifeguard.PromotionTheory
import Lifeguard.PromotionRun
import Lifeguard.MissingDep
import Lifeguard.ImportedClearing
import Lifeguard.CsrGraph
import Lifeguard.CsrTraversal
import Lifeguard.CsrCycles
import Lifeguard.CsrLevels
import Lifeguard.ManualOverride
import Lifeguard.Project
import Lifeguard.Calls
import Lifeguard.CallGraph
import Lifeguard.CallTheory
import Lifeguard.CallGraphTheory
import Lifeguard.ConstructorParity
import Lifeguard.Settling
import Lifeguard.FailedCallee
import Lifeguard.ImportedChain
import Lifeguard.ReadOrder
import Lifeguard.Lockstep
import Lifeguard.MutationDispatch
import Lifeguard.CallArgs
import Lifeguard.ArgBinding
import Lifeguard.Cache
import Lifeguard.PropertyCandidates
import Lifeguard.CacheWire
import Lifeguard.CacheContents
import Lifeguard.CacheFraming
import Lifeguard.CacheRecords
import Lifeguard.CacheRoundTrip
import Lifeguard.CacheCanonical
import Lifeguard.Lib.Chain
import Lifeguard.Lib.Growth
import Lifeguard.Lib.Levels
import Lifeguard.ImportGraph
import Lifeguard.ReExportMap
import Lifeguard.ResolvedProgram
import Lifeguard.LazyPolicy
import Lifeguard.PolicyWrites
import Lifeguard.EntryGuards
import Lifeguard.PolicyInvariants
import Lifeguard.ChainGuards
import Lifeguard.PolicyOrder
import Lifeguard.CandidateOrder
import Lifeguard.PromotionFixpoint
import Lifeguard.RecordMerge
import Lifeguard.Lib.Saturation
import Lifeguard.MutatedParams
import Lifeguard.Lib.Propagation
import Lifeguard.ReExportPropagation
import Lifeguard.ConstructorFold
import Lifeguard.ImportConservation
import Lifeguard.ImportCollector
import Lifeguard.MainGuard
import Lifeguard.StarExports
import Lifeguard.StarExpansion
import Lifeguard.Cursor
import Lifeguard.Definitions
import Lifeguard.KnownFunctions
import Lifeguard.Bindings
import Lifeguard.SourceAnalyzer
import Lifeguard.StatementAnalyzer
import Lifeguard.Lookups
import Lifeguard.TableAgreement
import Lifeguard.EffectScopes
import Lifeguard.StatementAgreement
import Lifeguard.GuardedEffects
import Lifeguard.ScopeResolution
import Lifeguard.StarRanking
import Lifeguard.ReExportChains
import Lifeguard.ChainRoutes
import Lifeguard.Lib.C3
import Lifeguard.MroTheory
import Lifeguard.CsrComponents
import Lifeguard.RaiseCatching
import Lifeguard.AliasTargets
import Lifeguard.StaleAliases
import Lifeguard.NameSearches
import Lifeguard.Lib.Search
import Lifeguard.SubclassRegistration
import Lifeguard.Lib.DiGraph
import Lifeguard.NameGraph
import Lifeguard.Lib.Compaction
import Lifeguard.Paths
import Lifeguard.Lib.Least
import Lifeguard.SourceMap
import Lifeguard.CacheReader
import Lifeguard.Discovery
import Lifeguard.ImplicitImports
import Lifeguard.FindSources
import Lifeguard.CacheMerge
import Lifeguard.Reduce
import Lifeguard.ReduceErrors
import Lifeguard.ReduceVerdicts
import Lifeguard.ReportedModules
import Lifeguard.Lib.Interleaving
import Lifeguard.Lib.LoggedChecks
import Lifeguard.ModuleScope
import Lifeguard.ScopeWorkers
import Lifeguard.ScopeErrors
import Lifeguard.CleanScopes
import Lifeguard.Lib.Grouping
import Lifeguard.LibraryFacts
import Lifeguard.CacheBuild
import Lifeguard.LibraryRecords
import Lifeguard.EntryUpdates
import Lifeguard.LibraryRuns
import Lifeguard.CacheDeterminism
import Lifeguard.ReportedEffects
import Lifeguard.SourceClosure
