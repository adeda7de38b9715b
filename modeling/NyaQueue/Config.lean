import Mathlib.Data.List.Basic

/-!
# Broker configuration

Model of `Config` and its validator in `pkg/broker/config.go`.  The validator
collects every rule a field breaks.
-/

set_option autoImplicit false

namespace NyaQueue

inductive SyncPolicy where
  | everyWrite
  | interval
  | none
  deriving DecidableEq, Repr

/-- Durations are in nanoseconds. -/
structure Config where
  segmentMaxBytes : Int
  segmentMaxCount : Int
  retentionMaxBytes : Int
  retentionMaxAge : Int
  flushIntervalMs : Int
  syncPolicy : SyncPolicy
  compressionType : Int
  maxConnections : Int
  recvBufferBytes : Int
  sendBufferBytes : Int
  maxMessageBytes : Int
  readTimeoutMs : Int
  writeTimeoutMs : Int
  numNetworkGoroutines : Int
  numIOGoroutines : Int
  maxQueuedRequests : Int
  batchSize : Int
  batchMemoryBytes : Int
  lingerMs : Int
  fetchMinBytes : Int
  fetchMaxWaitMs : Int
  maxFetchBytes : Int
  consumerSessionTimeoutMs : Int
  deriving DecidableEq, Repr

inductive Rule where
  | gte (bound : Int)
  | lte (bound : Int)
  deriving DecidableEq, Repr

def Rule.Holds (value : Int) : Rule → Prop
  | .gte bound => bound ≤ value
  | .lte bound => value ≤ bound

instance ruleHoldsDecidable (value : Int) : ∀ rule : Rule, Decidable (rule.Holds value)
  | .gte bound => inferInstanceAs (Decidable (bound ≤ value))
  | .lte bound => inferInstanceAs (Decidable (value ≤ bound))

structure PropertyRules where
  name : String
  value : Config → Int
  rules : List Rule

/-- A rule that a property breaks. -/
structure RuleError where
  name : String
  rule : Rule
  deriving DecidableEq, Repr

def configValidator : List PropertyRules := [
  ⟨"segment_max_bytes", Config.segmentMaxBytes, [.gte (1024 * 1024), .lte (64 * 1024 * 1024)]⟩,
  ⟨"segment_max_count", Config.segmentMaxCount, [.gte 1]⟩,
  ⟨"retention_max_bytes", Config.retentionMaxBytes, [.gte (1024 * 1024)]⟩,
  ⟨"flush_interval_ms", Config.flushIntervalMs, [.gte 1, .lte 60000]⟩,
  ⟨"compression_type", Config.compressionType, [.gte 0, .lte 3]⟩,
  ⟨"max_connections", Config.maxConnections, [.gte 1, .lte 65535]⟩,
  ⟨"recv_buffer_bytes", Config.recvBufferBytes, [.gte 1024]⟩,
  ⟨"send_buffer_bytes", Config.sendBufferBytes, [.gte 1024]⟩,
  ⟨"max_message_bytes", Config.maxMessageBytes, [.gte 1024]⟩,
  ⟨"num_network_goroutines", Config.numNetworkGoroutines, [.gte 1, .lte 256]⟩,
  ⟨"num_io_goroutines", Config.numIOGoroutines, [.gte 1, .lte 256]⟩,
  ⟨"max_queued_requests", Config.maxQueuedRequests, [.gte 1]⟩,
  ⟨"batch_size", Config.batchSize, [.gte 1]⟩,
  ⟨"batch_memory_bytes", Config.batchMemoryBytes, [.gte 1024, .lte (64 * 1024 * 1024)]⟩,
  ⟨"fetch_min_bytes", Config.fetchMinBytes, [.gte 1]⟩,
  ⟨"fetch_max_wait_ms", Config.fetchMaxWaitMs, [.gte 1]⟩,
  ⟨"consumer_session_timeout_ms", Config.consumerSessionTimeoutMs, [.gte 1000]⟩]

def PropertyRules.check (c : Config) (p : PropertyRules) : List RuleError :=
  (p.rules.filter fun rule => ¬ rule.Holds (p.value c)).map fun rule => ⟨p.name, rule⟩

def Config.validate (c : Config) : Except (List RuleError) Unit :=
  match configValidator.flatMap (PropertyRules.check c) with
  | [] => .ok ()
  | errors => .error errors

def defaultConfig : Config where
  segmentMaxBytes := 20 * 1024 * 1024
  segmentMaxCount := 100
  retentionMaxBytes := 1024 * 1024 * 1024
  retentionMaxAge := 168 * 3600 * 1000000000
  flushIntervalMs := 1000
  syncPolicy := .interval
  compressionType := 0
  maxConnections := 1024
  recvBufferBytes := 65536
  sendBufferBytes := 65536
  maxMessageBytes := 1024 * 1024
  readTimeoutMs := 30000
  writeTimeoutMs := 30000
  numNetworkGoroutines := 4
  numIOGoroutines := 4
  maxQueuedRequests := 500
  batchSize := 100
  batchMemoryBytes := 65536
  lingerMs := 5
  fetchMinBytes := 1
  fetchMaxWaitMs := 500
  maxFetchBytes := 1024 * 1024
  consumerSessionTimeoutMs := 30000

theorem Config.validate_ok_iff (c : Config) :
    c.validate = .ok () ↔ ∀ p ∈ configValidator, ∀ rule ∈ p.rules, rule.Holds (p.value c) := by
  have broken : configValidator.flatMap (PropertyRules.check c) = [] ↔
      ∀ p ∈ configValidator, ∀ rule ∈ p.rules, rule.Holds (p.value c) := by
    simp only [List.flatMap_eq_nil_iff, PropertyRules.check, List.map_eq_nil_iff,
      List.filter_eq_nil_iff, decide_eq_true_eq, not_not]
  rw [← broken, validate]
  cases configValidator.flatMap (PropertyRules.check c) with
  | nil => simp
  | cons error rest => simp

theorem defaultConfig_valid : defaultConfig.validate = .ok () := by decide

end NyaQueue
