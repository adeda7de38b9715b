import NyaQueue.Lib.BigEndian
import NyaQueue.Lib.Slice
import NyaQueue.Lib.CircularBuffer
import NyaQueue.Lib.BoundedQueue
import NyaQueue.Lib.Runs
import NyaQueue.Lib.Accounting
import NyaQueue.Lib.Decimal
import NyaQueue.Lib.Batches
import NyaQueue.Lib.StableQueue
import NyaQueue.Lib.Checked
import NyaQueue.Message
import NyaQueue.WireFormat
import NyaQueue.Codec
import NyaQueue.Wal
import NyaQueue.EntryRing
import NyaQueue.PriorityIndex
import NyaQueue.Partition
import NyaQueue.Appends
import NyaQueue.ReadBack
import NyaQueue.Retention
import NyaQueue.TimeRetention
import NyaQueue.SizeRetention
import NyaQueue.ReadSafety
import NyaQueue.FailedWrites
import NyaQueue.Scheduler
import NyaQueue.PriorityAccounting
import NyaQueue.PriorityDelivery
import NyaQueue.PriorityConcurrent
import NyaQueue.PriorityInvariant
import NyaQueue.PriorityAlone
import NyaQueue.PriorityDrain
import NyaQueue.PriorityThreshold
import NyaQueue.PromoteStale
import NyaQueue.OffsetStore
import NyaQueue.OffsetMap
import NyaQueue.OffsetDurability
import NyaQueue.SessionThreads
import NyaQueue.SessionExpiry
import NyaQueue.Config
import NyaQueue.Broker
import NyaQueue.Produce
import NyaQueue.PublishBatch
import NyaQueue.BatchGoroutines
import NyaQueue.BatchBookkeeping
import NyaQueue.Consume
import NyaQueue.FifoDelivery
import NyaQueue.FifoContract
import NyaQueue.FifoProgress
import NyaQueue.ValueFidelity
import NyaQueue.CommitFloor
import NyaQueue.Transport
import NyaQueue.ProduceOutcomes
import NyaQueue.ClientRetries
import NyaQueue.BufferedProducer
import NyaQueue.ProducerErrors
import NyaQueue.Lib.Protobuf
import NyaQueue.ServerConsume
import NyaQueue.FetchLimit
import NyaQueue.ProducerBuffer
import NyaQueue.FailedDelivery
import NyaQueue.Rebuild
import NyaQueue.ConsumeOffsets
import NyaQueue.LevelOrder
import NyaQueue.Lib.FilePath
import NyaQueue.TopicFiles
import NyaQueue.TopicDeletion
import NyaQueue.TopicRaces
import NyaQueue.Lib.Lru
import NyaQueue.Balancer
import NyaQueue.BalancerRange
import NyaQueue.Lib.AcquireRelease
import NyaQueue.Inflight
import NyaQueue.MetricsCollector
import NyaQueue.ProduceCounters
import NyaQueue.TopicMetrics
import NyaQueue.MetricWindows
import NyaQueue.LoadPredictor
import NyaQueue.LoadRange
import NyaQueue.PredictionAlignment
import NyaQueue.ConfigRaces
import NyaQueue.Lib.CasLoop
import NyaQueue.RuntimeSetters
import NyaQueue.PsaMirror
import NyaQueue.PsaClaims
import NyaQueue.InflightGrowth
import NyaQueue.RejectedPublish
import NyaQueue.Lib.Latch
import NyaQueue.DqnWatchdog
import NyaQueue.ExactFloat
import NyaQueue.Optimizer
import NyaQueue.OptimizerRollback
import NyaQueue.OptimizerBounds
import NyaQueue.Hysteresis
import NyaQueue.RoundRobinFairness
import NyaQueue.Lib.Shuffle
import NyaQueue.Sampler
import NyaQueue.GridSelect
import NyaQueue.Lib.Toeplitz
import NyaQueue.LevinsonDurbin
import NyaQueue.Lib.Moments
import NyaQueue.Lasso
import NyaQueue.Pca
import NyaQueue.DqnState
import NyaQueue.RunningNormalizer
import NyaQueue.OverloadRouting
import NyaQueue.RequestedPriority
import NyaQueue.ConsumeAgreement
import NyaQueue.RingRefinement
import NyaQueue.RingBufferValues
import NyaQueue.ReplayBuffer
import NyaQueue.PrioritizedReplay
import NyaQueue.ConsumerWorker
import NyaQueue.ExperiencePipeline
import NyaQueue.PriorityRestart
