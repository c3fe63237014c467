import PqFl.Runs
import PqFl.ListUpdate
import PqFl.SeparatedKeys
import PqFl.Identifiers
import PqFl.Timestamps
import PqFl.StoreRecords
import PqFl.StateStore
import PqFl.ClientRegistry
import PqFl.CryptoEngine
import PqFl.Aggregation
import PqFl.Services
import PqFl.Server
import PqFl.Binary32
import PqFl.TenantIsolation
import PqFl.JobLedger
import PqFl.JobSteps
import PqFl.Configuration
import PqFl.JobRuns
import PqFl.WeightBuffer
import PqFl.LeaseOwnership
import PqFl.RoundCredit
import PqFl.SubmissionTracking
import PqFl.JobProgress
import PqFl.PendingSubmissions
import PqFl.JobSeparation
import PqFl.AcceptedSubmissions
import PqFl.SessionContexts
import PqFl.Codes
import PqFl.FixedWidth
import PqFl.TimestampOrder
import PqFl.StoreRuns
import PqFl.ModelVersions
import PqFl.JobLifecycle
import PqFl.LeaseLifecycle
import PqFl.StateFile
import PqFl.JsonValues
import PqFl.Durability
import PqFl.FileReplacement
import PqFl.ExactArithmetic
import PqFl.SortedSums
import PqFl.KrumResilience
import PqFl.SampleWeights
import PqFl.Rounding
import PqFl.ThresholdRounds
import PqFl.RoundCompletion
import PqFl.GlobalModelStream
import PqFl.StreamEvents
import PqFl.StreamSafety
import PqFl.LatestModels
import PqFl.StreamDelivery
import PqFl.ServerStore
import PqFl.ClientNames
import PqFl.BindingSteps
import PqFl.CertificateBinding
import PqFl.ModelSteps
import PqFl.PythonClient
import PqFl.RetainedKeys
import PqFl.RotationCrashes
import PqFl.WorkerSteps
import PqFl.OrphanTasks
import PqFl.TruthfulTasks
import PqFl.WorkerRecords
import PqFl.CheckpointWrites
import PqFl.KeyVersions
import PqFl.FailedSaves
import PqFl.StateLoading
import PqFl.ActiveVersions
import PqFl.BaseModels
import PqFl.ModelAgreement
import PqFl.RecordedRounds
import PqFl.RollbackFidelity
import PqFl.TaskLifecycle
import PqFl.LiveLeases
import PqFl.RoundCapacity
import PqFl.CheckpointPaths
import PqFl.TaskIdentifiers
import PqFl.RecordIdentifiers
import PqFl.FailedRollbacks
import PqFl.NestedMaps
import PqFl.RejectedAttempts
import PqFl.SubmissionRecords
import PqFl.ForeignRegistrations
import PqFl.SubmissionAccounts
import PqFl.ServerSteps
import PqFl.TrainerBindings
import PqFl.AuditLog
import PqFl.ReissuedLeases
import PqFl.PredictedAcceptance
import PqFl.AggregationOrder
import PqFl.TrimmedMeans
import PqFl.CheckedLoops
import PqFl.KrumLoops
import PqFl.KrumSelection
import PqFl.SignedUpdates
import PqFl.Upserts
import PqFl.KeyedRecords
import PqFl.BufferHistories
import PqFl.Calendar
import PqFl.LeaseTimes
import PqFl.PeerIdentities
import PqFl.PrivateScopes
import PqFl.Unwinding
import PqFl.ClientPayloads
import PqFl.StreamedModels
import PqFl.JobCompletion
import PqFl.TrainerVisits
import PqFl.ListVectors
import PqFl.ServerOptimizer
import PqFl.ClippedVectors
import PqFl.NoiseCalibration
import PqFl.MomentumBounds
import PqFl.BufferSteps
import PqFl.PayloadSources
import PqFl.Refinement
import PqFl.ScopeRuns
import PqFl.ClosedRounds
import PqFl.HeavyBall
import PqFl.ModelBounds
import PqFl.Budgets
import PqFl.Draining
