import SlhaV2.MachineWord
import SlhaV2.ByteBuffer
import SlhaV2.GuardedRun
import SlhaV2.SlotVector
import SlhaV2.FloatingPoint
import SlhaV2.PressureSignal
import SlhaV2.ByteBudget
import SlhaV2.ControlLoop
import SlhaV2.TileCodec
import SlhaV2.PhysicalCache
import SlhaV2.ResidencyGraph
import SlhaV2.PhysicalSteps
import SlhaV2.SlotOperations
import SlhaV2.CacheOperations
import SlhaV2.CacheWrites
import SlhaV2.CacheRuns
import SlhaV2.HardBudget
import SlhaV2.ControlPlanes
import SlhaV2.LogicalContext
import SlhaV2.ContextRuns
import SlhaV2.PageTransition
import SlhaV2.PageRuns
import SlhaV2.OrderedMap
import SlhaV2.BlockMap
import SlhaV2.DeviceArena
import SlhaV2.ArenaSteps
import SlhaV2.ArenaRuns
import SlhaV2.SlhaTile
import SlhaV2.HostFile
import SlhaV2.EventLog
import SlhaV2.Framing
import SlhaV2.EventLogRuns
import SlhaV2.LogSessions
import SlhaV2.CcosCache
import SlhaV2.CcosSteps
import SlhaV2.CcosRuns
import SlhaV2.DurableEviction
import SlhaV2.LogRecovery
import SlhaV2.FoldHash
import SlhaV2.LogCorruption
import SlhaV2.ParentForest
import SlhaV2.BudgetRuns
import SlhaV2.FrameReader
import SlhaV2.IeeeFloat
import SlhaV2.SingleFloat
import SlhaV2.LatentCodecs
import SlhaV2.LatentQuantisers
import SlhaV2.CheckedSteps
import SlhaV2.Incoherence
import SlhaV2.JacobiEigen
import SlhaV2.Learned
import SlhaV2.WeightsFile
import SlhaV2.WeightsIntegrity
import SlhaV2.ExactValues
import SlhaV2.DecimalText
import SlhaV2.Documents
import SlhaV2.JsonGrammar
import SlhaV2.JsonValue
import SlhaV2.Utf8Text
import SlhaV2.JsonParser
import SlhaV2.JsonScanner
import SlhaV2.JsonNumbers
import SlhaV2.JsonStrings
import SlhaV2.JsonParsing
import SlhaV2.JsonAcceptance
import SlhaV2.JsonPrinting
import SlhaV2.PrintedLine
import SlhaV2.DocumentText
import SlhaV2.Exchanges
import SlhaV2.McpTools
import SlhaV2.McpServer
import SlhaV2.McpSession
import SlhaV2.Coordinator
import SlhaV2.AntiThrash
import SlhaV2.MirroredCells
import SlhaV2.GpuPipeline
import SlhaV2.Quarantine
import SlhaV2.HandleRegistries
import SlhaV2.TileStore
import SlhaV2.TileStoreRuns
import SlhaV2.FlatRows
import SlhaV2.Calibration
import SlhaV2.CalibrationFiles
import SlhaV2.CalibrationRuns
import SlhaV2.CalibrationVerdict
import SlhaV2.CalibrationManifest
import SlhaV2.ManifestRuns
import SlhaV2.ByteReader
import SlhaV2.RankReader
import SlhaV2.RankFormat
import SlhaV2.RankCollector
import SlhaV2.RankDataset
import SlhaV2.RankAgreement
import SlhaV2.ElasticFfi
import SlhaV2.ExternalK
import SlhaV2.OffloadCycle
import SlhaV2.QuiescentCycle
import SlhaV2.ResidencyTargets
import SlhaV2.DenseWrites
import SlhaV2.PageRollback
import SlhaV2.FirstFit
import SlhaV2.BudgetLadder
import SlhaV2.SinkEviction
import SlhaV2.ScaleFit
import SlhaV2.FitPartition
import SlhaV2.PackedLatent
import SlhaV2.CodecLevels
import SlhaV2.NearestCodes
import SlhaV2.StepBound
import SlhaV2.FloatRounding
import SlhaV2.ModelReload
import SlhaV2.ReservedBytes
import SlhaV2.ReservingReader
import SlhaV2.RankCapacity
import SlhaV2.WalshTransform
import SlhaV2.ExactHadamard
import SlhaV2.PrintedDepth
import SlhaV2.LateRejection
import SlhaV2.WatermarkResponse
import SlhaV2.CorrectionDrop
import SlhaV2.TopRanks
import SlhaV2.RankTraining
import SlhaV2.AtomicPrograms
import SlhaV2.OutputContract
import SlhaV2.ThreadSchedules
import SlhaV2.ByteMemory
import SlhaV2.KTransform
import SlhaV2.RoundtripRows
import SlhaV2.CopyModes
import SlhaV2.PassThrough
import SlhaV2.ShimState
import SlhaV2.LayerTables
import SlhaV2.Reinitialization
import SlhaV2.RankOrders
import SlhaV2.ScoreOracle
import SlhaV2.DecimalNumerals
import SlhaV2.LayerMasks
import SlhaV2.LayerSelections
import SlhaV2.SecureHash
import SlhaV2.Sha256Copies
import SlhaV2.HashBlocks
import SlhaV2.HashStreams
import SlhaV2.SignResidual
import SlhaV2.ReportDiff
import SlhaV2.TieGroups
import SlhaV2.RankMetrics
import SlhaV2.CalibrationReads
import SlhaV2.RoundingLimits
import SlhaV2.ReplaceScaling
import SlhaV2.ScoreScale
import SlhaV2.ScoreKernel
import SlhaV2.RankObjective
import SlhaV2.RankDescent
import SlhaV2.VectorRegisters
import SlhaV2.VectorKernels
import SlhaV2.VectorGroups
import SlhaV2.VectorScores
import SlhaV2.PrefixChecks
import SlhaV2.TierGraphs
import SlhaV2.PhasedTransactions
import SlhaV2.ScoreAgreement
import SlhaV2.BackendAgreement
import SlhaV2.ScaleNumbers
import SlhaV2.ScaleSearch
import SlhaV2.ScaleLayers
import SlhaV2.ScaleFiles
