import ShareTracker.LedgerInvariant
import ShareTracker.NetYears
import ShareTracker.RegistryRounding
import ShareTracker.WalkAgreement
import ShareTracker.TransferConservation
import ShareTracker.Lib.FlooredWalk
import ShareTracker.Lib.StableSort
import ShareTracker.Lib.Apportion
import ShareTracker.TaxYear
import ShareTracker.Fraction
import ShareTracker.LockoutTracker
import ShareTracker.CorporateActions
import ShareTracker.PriceBasis
import ShareTracker.ValuationBasis
import ShareTracker.HoldingPeriod
import ShareTracker.Drp
import ShareTracker.DrpConservation
import ShareTracker.WholeHolding
import ShareTracker.WholeHoldingRun
import ShareTracker.SettledRuns
import ShareTracker.PriceFetches
import ShareTracker.UnitScales
import ShareTracker.Renames
import ShareTracker.SaleReadings
import ShareTracker.HeldTimeline
import ShareTracker.HeldViews
import ShareTracker.Lib.Tally
import ShareTracker.Performance
import ShareTracker.Substitutions
import ShareTracker.PerformanceLegs
import ShareTracker.Lib.Drawdown
import ShareTracker.RealisedGains
import ShareTracker.DisposalSchedule
import ShareTracker.LoginCeiling
import ShareTracker.DrpUndo
import ShareTracker.UnpricedListings
import ShareTracker.AmitPairing
import ShareTracker.AmitYears
import ShareTracker.TradeRules
import ShareTracker.HealthPrices
import ShareTracker.WhatIfSale
import ShareTracker.SessionCookies
import ShareTracker.IdentitySegments
import ShareTracker.WholeShares
import ShareTracker.SettlementProvenance
import ShareTracker.RolloverConsistency
import ShareTracker.StatedCloses
import ShareTracker.RangeCompleteness
import ShareTracker.Lib.NextSearch
import ShareTracker.Scheduler
import ShareTracker.Lib.FractionalFill
import ShareTracker.LossAwareIndexation
import ShareTracker.Lib.DecimalText
import ShareTracker.PerShare
import ShareTracker.DistributionCalendar
import ShareTracker.OperationRates
import ShareTracker.TaxSummary
import ShareTracker.TaxReport
import ShareTracker.Lib.Bisection
import ShareTracker.MoneyWeighted
import ShareTracker.ReturnRoots
import ShareTracker.Lib.RebasedBalance
import ShareTracker.TransferGroups
import ShareTracker.ActivityLedger
import ShareTracker.ActivityBalance
import ShareTracker.RowHistory
import ShareTracker.Lib.LongestRun
import ShareTracker.DuplicateSeries
import ShareTracker.AmitCoverage
import ShareTracker.CredentialRedaction
import ShareTracker.BackupRetention
import ShareTracker.RateFeed
import ShareTracker.LoginSource
import ShareTracker.StrictDecimals
import ShareTracker.LiveQuotes
import ShareTracker.SnapshotDate
import ShareTracker.CentRows
import ShareTracker.RoundingRefusals
import ShareTracker.ParcelOrder
import ShareTracker.RepeatedSettlement
import ShareTracker.Lib.CheapestFill
import ShareTracker.ParcelOptimiser
import ShareTracker.PickedUnits
import ShareTracker.DiscountShare
import ShareTracker.LeastGain
import ShareTracker.MulDiv
import ShareTracker.Apportionment
import ShareTracker.CumulativeShares
import ShareTracker.BackDatedEdits
import ShareTracker.RolloverMirror
import ShareTracker.ExactCounts
import ShareTracker.WindowRatios
import ShareTracker.SameDaySales
import ShareTracker.PicksAddUp
import ShareTracker.SellRecount
import ShareTracker.EmptyingSells
import ShareTracker.ActivityParcels
import ShareTracker.ActivityAgreement
import ShareTracker.JobRuns
import ShareTracker.JobSchedule
import ShareTracker.PriceAlerts
import ShareTracker.PeriodPerformance
import ShareTracker.SnapshotRows
import ShareTracker.SnapshotFreshness
import ShareTracker.SnapshotCatchUp
import ShareTracker.RequestGuard
import ShareTracker.HealthDuplicates
