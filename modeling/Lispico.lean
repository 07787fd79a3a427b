import Lispico.Core.ListRefinement
import Lispico.Core.VectorRefinement
import Lispico.Core.HashMapRuns
import Lispico.Core.HashMapListing
import Lispico.Core.HashMapCharges
import Lispico.Core.TrieInvariant
import Lispico.Core.Env
import Lispico.Core.EnvKeys
import Lispico.Core.EnvWrites
import Lispico.Core.EnvEvolution
import Lispico.VM.SiteCache
import Lispico.VM.SiteCoherence
import Lispico.Core.Error
import Lispico.Core.Dialect
import Lispico.Core.Scope
import Lispico.Lib.Comp
import Lispico.Core.Eval
import Lispico.Core.Evaluator
import Lispico.Core.LoopEffects
import Lispico.Core.Fingerprint
import Lispico.VM.Chunk
import Lispico.VM.Machine
import Lispico.Lib.Invariant
import Lispico.Core.CaughtErrors
import Lispico.VM.Handlers
import Lispico.VM.Reentry
import Lispico.Lib.Int64
import Lispico.Meter.Charge
import Lispico.Meter.ChargeRaces
import Lispico.Meter.Lease
import Lispico.Meter.Affords
import Lispico.Meter.LeaseConservation
import Lispico.Meter.PollLedger
import Lispico.Meter.Settlement
import Lispico.Meter.SettlementRuns
import Lispico.Core.RetainedSlots
import Lispico.Core.RetainedCharges
import Lispico.Core.RetainedLimits
import Lispico.Core.MergeOrder
import Lispico.Core.RegistrationTracks
import Lispico.Core.RegistrationReplay
import Lispico.Core.RegistrationAbort
import Lispico.Lib.Guarded
import Lispico.Lib.Beside
import Lispico.Reader.Budget
import Lispico.Reader.Datum
import Lispico.Reader.Scanner
import Lispico.Reader.Parser
import Lispico.Reader.Read
import Lispico.Reader.Enough
import Lispico.Reader.ScanFunded
import Lispico.Reader.CountPass
import Lispico.Reader.Capacities
import Lispico.Reader.ParseFunded
import Lispico.Reader.GuardedRead
import Lispico.Reader.Settling
import Lispico.Reader.BudgetRuns
import Lispico.Reader.StoredLiterals
import Lispico.Reader.PooledCharges
import Lispico.Reader.Lexemes
import Lispico.Reader.ScanPrinted
import Lispico.Reader.LexPrinted
import Lispico.Reader.RoundTrip
import Lispico.Runtime.DialectIdentity
import Lispico.Plugins.Fsm
import Lispico.Plugins.FsmEvaluators
import Lispico.Runtime.CallCache
import Lispico.Runtime.CallCoherence
import Lispico.Runtime.EpochSweeps
import Lispico.Runtime.LazyTemplate
import Lispico.Runtime.PluginOps
import Lispico.Core.EnvBindings
import Lispico.Core.RegistrationUndo
import Lispico.Runtime.Rollback
import Lispico.Runtime.FailedOperations
import Lispico.Runtime.HostBindings
import Lispico.Runtime.TemplateEntries
import Lispico.Runtime.LazyEager
import Lispico.Runtime.StdlibLoad
import Lispico.Runtime.DeferredStdlib
import Lispico.Runtime.Unloading
import Lispico.Core.MacroExpand
import Lispico.Core.MacroRebind
import Lispico.Core.Equality
import Lispico.Core.FingerprintEqual
import Lispico.Core.EqualsBounded
import Lispico.VM.ConstantPool
import Lispico.Core.Printing
import Lispico.VM.PrivateMeter
import Lispico.Runtime.ResultCharges
import Lispico.Runtime.ResultChargeRuns
import Lispico.Core.NestedElements
import Lispico.Core.LiteralCosts
import Lispico.VM.FoldedLiterals
import Lispico.VM.FoldedLiteralRuns
import Lispico.VM.ReductionLedger
import Lispico.VM.FusedNative
import Lispico.VM.FusedAgreement
import Lispico.Core.BuiltinBudget
import Lispico.Plugins.Range
import Lispico.Core.GoValue
import Lispico.Plugins.JsonNumber
import Lispico.VM.NativeOperators
import Lispico.Lib.Counters
import Lispico.Meter.LimitMeter
import Lispico.Plugins.Sandbox
