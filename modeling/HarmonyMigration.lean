import HarmonyMigration.BridgeClaims.Reentry
import HarmonyMigration.BridgeClaims.Safety
import HarmonyMigration.Tree.BatchTree
import HarmonyMigration.Airdrop.Contract
import HarmonyMigration.Airdrop.Invariant
import HarmonyMigration.Lib.Slices
import HarmonyMigration.Tree.Builders
import HarmonyMigration.Tree.Keccak256
import HarmonyMigration.Allocation.Pool
import HarmonyMigration.Allocation.Split
import HarmonyMigration.Release.Plan
import HarmonyMigration.Lib.Runs
import HarmonyMigration.Release.Restore
import HarmonyMigration.Release.SendCalldata
import HarmonyMigration.Lib.FileTree
import HarmonyMigration.Packages.Record
import HarmonyMigration.Packages.Quarantine
import HarmonyMigration.Packages.CrashSafety
import HarmonyMigration.Packages.RecordSafety
import HarmonyMigration.BridgeClaims.Build
import HarmonyMigration.BridgeClaims.Approvals
import HarmonyMigration.Lib.Bisect
import HarmonyMigration.Messages.Collect
import HarmonyMigration.Messages.Plan
import HarmonyMigration.Messages.Scan
import HarmonyMigration.Messages.Ledger
import HarmonyMigration.Messages.Reconcile
import HarmonyMigration.Claims.Basic
import HarmonyMigration.Claims.StagePolicy
import HarmonyMigration.Routing.StageFile
import HarmonyMigration.Claims.StageRows
import HarmonyMigration.Claims.Wone
import HarmonyMigration.Claims.WoneOverlay
import HarmonyMigration.Claims.Residual
import HarmonyMigration.Airdrop.Crosscheck
import HarmonyMigration.Airdrop.CrosscheckPass
import HarmonyMigration.Airdrop.SafeTx
import HarmonyMigration.Routing.ProRata
import HarmonyMigration.Routing.Compile
import HarmonyMigration.Routing.Load
import HarmonyMigration.Routing.Apply
import HarmonyMigration.Routing.Main
import HarmonyMigration.Lib.Loader
import HarmonyMigration.Routing.LoadFacts
import HarmonyMigration.Routing.SourceRun
import HarmonyMigration.Routing.Conservation
import HarmonyMigration.Routing.Deductions
import HarmonyMigration.Routing.FileOrder
import HarmonyMigration.Routing.Exceptions
import HarmonyMigration.Routing.FileOrderExact
import HarmonyMigration.Claims.VaultShares
import HarmonyMigration.Claims.VaultSharesRun
import HarmonyMigration.Receipts.Database
import HarmonyMigration.Receipts.HistoryGuard
import HarmonyMigration.Receipts.SumReceipts
import HarmonyMigration.Receipts.CountedOnce
import HarmonyMigration.Receipts.LookupSnapshot
import HarmonyMigration.Receipts.Coverage
import HarmonyMigration.Lib.Group
import HarmonyMigration.Receipts.OutgoingScan
import HarmonyMigration.Receipts.Rebuild
import HarmonyMigration.Receipts.RebuildRun
import HarmonyMigration.Receipts.Provenance
import HarmonyMigration.Receipts.Evaluate
import HarmonyMigration.Receipts.EvaluateSound
import HarmonyMigration.Claims.ClaimsVerify
import HarmonyMigration.Claims.VerifyOverlay
import HarmonyMigration.Archive.Build
import HarmonyMigration.Archive.Tables
import HarmonyMigration.Lib.Json
import HarmonyMigration.Lib.Lines
import HarmonyMigration.Lib.Resumable
import HarmonyMigration.Archive.ScanStage
import HarmonyMigration.Archive.ScanResume
import HarmonyMigration.Archive.TraceStage
import HarmonyMigration.Archive.TraceResume
import HarmonyMigration.Archive.Resume
import HarmonyMigration.Allocation.PoolConserved
import HarmonyMigration.Allocation.Exclusions
import HarmonyMigration.Airdrop.WriteRun
import HarmonyMigration.BridgeClaims.Executable
import HarmonyMigration.Tree.Completeness
import HarmonyMigration.BridgeClaims.ApproveCalls
import HarmonyMigration.Airdrop.ParseAmount
import HarmonyMigration.Airdrop.RandomSelect
import HarmonyMigration.Airdrop.SelectBatch
import HarmonyMigration.Airdrop.MultiSend
import HarmonyMigration.Airdrop.DepositBatch
import HarmonyMigration.Claims.WoneAllocation
import HarmonyMigration.Routing.LargestRemainder
import HarmonyMigration.Airdrop.One1
import HarmonyMigration.Routing.NonIssuance
import HarmonyMigration.Lib.Rlp
import HarmonyMigration.ContractReview.RlpWrapper
import HarmonyMigration.Messages.CollectExact
import HarmonyMigration.ContractReview.SecureKey
import HarmonyMigration.Claims.SupplyLedger
import HarmonyMigration.Claims.SupplyLedgerMerge
import HarmonyMigration.Claims.SupplyLedgerExact
import HarmonyMigration.Lib.Abi
import HarmonyMigration.Release.Calldata
import HarmonyMigration.Messages.OftPayload
import HarmonyMigration.Release.CalldataExact
import HarmonyMigration.Airdrop.VaultPlan
import HarmonyMigration.Airdrop.VaultDecode
import HarmonyMigration.Airdrop.VaultRun
import HarmonyMigration.Airdrop.VaultPlanExact
import HarmonyMigration.BridgeClaims.ClaimLists
import HarmonyMigration.BridgeClaims.ClaimListsExact
import HarmonyMigration.BridgeClaims.ClaimListsRead
import HarmonyMigration.Routing.Readiness
import HarmonyMigration.ContractReview.Bech32
import HarmonyMigration.Archive.AttributeReceipts
import HarmonyMigration.Archive.Links
import HarmonyMigration.Archive.ImportExport
import HarmonyMigration.Archive.ImportExportExact
import HarmonyMigration.Archive.AbandonedBlocks
import HarmonyMigration.Archive.AbandonedBlocksSearch
import HarmonyMigration.Archive.AbandonedBlocksExact
import HarmonyMigration.Lib.Worklist
import HarmonyMigration.Routing.ExchangeRouting
import HarmonyMigration.Routing.ExchangeRoutingSound
import HarmonyMigration.Exchange.Accounting
import HarmonyMigration.Exchange.Summary
import HarmonyMigration.Exchange.AccountingCloses
import HarmonyMigration.Activity.Directional
import HarmonyMigration.Activity.DirectionalExact
import HarmonyMigration.Lib.ModArith
import HarmonyMigration.Lib.Pratt
import HarmonyMigration.Lib.ShortWeierstrass
import HarmonyMigration.Lib.Ecdsa
import HarmonyMigration.Exchange.Secp256k1
import HarmonyMigration.Exchange.PointArithmetic
import HarmonyMigration.Exchange.Recover
import HarmonyMigration.Exchange.RecoverSound
import HarmonyMigration.Exchange.RecoverSigned
import HarmonyMigration.Exchange.JacobianAffine
import HarmonyMigration.Archive.SignedValue
import HarmonyMigration.Archive.InternalTransfers
import HarmonyMigration.Activity.LocateTransition
import HarmonyMigration.Activity.ExtendActivity
import HarmonyMigration.Cutoff.ClaimsDiff
import HarmonyMigration.Cutoff.ClaimsDiffMerge
import HarmonyMigration.Cutoff.ClaimsDiffExact
import HarmonyMigration.Claims.StagePolicyVerify
import HarmonyMigration.Claims.StagePolicyVerifyExact
import HarmonyMigration.Claims.EligibilityVerify
import HarmonyMigration.Claims.EligibilityVerifyExact
import HarmonyMigration.Lib.FirstPage
import HarmonyMigration.Activity.AccountActivityRpc
import HarmonyMigration.Activity.AccountActivityRpcExact
import HarmonyMigration.Activity.AccountActivityRuns
import HarmonyMigration.Routing.Draws
import HarmonyMigration.Routing.Totals
import HarmonyMigration.Lib.Publish
import HarmonyMigration.Routing.Outputs
import HarmonyMigration.Lib.MaximalRuns
import HarmonyMigration.Receipts.CoverageExact
import HarmonyMigration.Holders.VerifyExact
import HarmonyMigration.Claims.WonePass
import HarmonyMigration.Activity.AccountActivityBodies
import HarmonyMigration.Vault.PlanRuns
import HarmonyMigration.Claims.EligibilityApply
