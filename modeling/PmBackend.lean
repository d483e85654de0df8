import PmBackend.Shared.ByteMemory
import PmBackend.Model.Backend
import PmBackend.Model.Recovery
import PmBackend.CaslistRefinement
import PmBackend.Geometry
import PmBackend.RecoveryLists
import PmBackend.SlotOwnership
import PmBackend.FreeOrLive
import PmBackend.BlockReuse
import PmBackend.FailedPuts
import PmBackend.UpdateTargets
import PmBackend.Reopen
import PmBackend.CommitSeal
import PmBackend.RecoveryScan
import PmBackend.LogOverflow
import PmBackend.PutBounds
import PmBackend.Durability
import PmBackend.UpdateLists
import PmBackend.ReplayAgreement
import PmBackend.AbortUndo
import PmBackend.CallOrder
import PmBackend.ReopenContents
import PmBackend.GeometryExact
import PmBackend.LogDecoding
import PmBackend.SingleTransactions
import PmBackend.RoundTrips
import PmBackend.MetaRoundTrips
import PmBackend.BlockOverruns
import PmBackend.InPlaceExecution
import PmBackend.PathAgreement
import PmBackend.RecoveryBounds
import PmBackend.BlocksAlike
import PmBackend.LogsAlike
import PmBackend.NewBlocksAlike
import PmBackend.ExecutionsAlike
import PmBackend.ExecutedLengths
import PmBackend.AbortsAlike
import PmBackend.CallsAlike
import PmBackend.Conflicts
import PmBackend.IteratorRuns
import PmBackend.PushOrder
import PmBackend.IndependentExecutions
import PmBackend.Interruptions
import PmBackend.RecoveryRestarts
import PmBackend.StaleBytes
import PmBackend.Shared.Transactions
import PmBackend.OpenTransactions
import PmBackend.LedgerCalls
import PmBackend.LedgerRuns
import PmBackend.CrashRecovery
import PmBackend.CrashPoints
import PmBackend.CallCrashes
import PmBackend.BlockCrashes
import PmBackend.CallAtomicity
import PmBackend.CrashRuns
import PmBackend.RecoveryGaps
import PmBackend.CrashAtomicity
import PmBackend.NewStores
import PmBackend.HeaderPage
import PmBackend.Openings
import PmBackend.StoreHistories
import PmBackend.KilledCreations
