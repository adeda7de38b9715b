import NyaQueue.Broker

/-!
# The produce paths of the transports

Model of `NewServer` and `Server.Produce` (`pkg/transport/server.go`), of
`mapBrokerError` (`errors.go`), of `handleProduce` (`http_server.go`) and of
`Produce` and `ProduceBatch` of the client (`client.go`).  One call of the
client meets the server several times; between two attempts the broker is
whatever everybody else has made of it.
-/

set_option autoImplicit false

namespace NyaQueue

/-- The status codes of the errors that a produce handler returns. -/
inductive StatusCode where
  | resourceExhausted
  /-- the code of an error that carries no status -/
  | unknown
  deriving DecidableEq

/-- The status of what `mapBrokerError` returns.  The "topic %q not found" of a
publish is not the sentinel error that is mapped to `NotFound`. -/
def mapBrokerError : PublishError → StatusCode
  | .throttled => .resourceExhausted
  | _ => .unknown

structure ProduceMessage where
  key : Bytes
  value : Bytes
  priority : UInt32
  deriving DecidableEq

structure ProduceRequest where
  topic : Bytes
  key : Bytes := []
  value : Bytes := []
  priority : UInt32 := 0
  messages : List ProduceMessage := []

structure ProduceResult where
  partition : Int32
  offset : Int64

structure ProduceResponse where
  partition : Int32 := 0
  offset : Int64 := 0
  results : List ProduceResult := []

/-- What the texts of the produce errors name. -/
inductive ProduceContext where
  /-- produce topic=%s -/
  | single (topic : Bytes)
  /-- produce-batch topic=%s count=%d -/
  | batch (topic : Bytes) (count : Nat)
  deriving DecidableEq

inductive RpcError where
  /-- server overloaded: max queued requests reached -/
  | overloaded
  | broker (context : ProduceContext) (cause : PublishError)
  deriving DecidableEq

def RpcError.code : RpcError → StatusCode
  | .overloaded => .resourceExhausted
  | .broker _ cause => mapBrokerError cause

/-- The message that the broker gets for a message of a request. -/
def ProduceMessage.toMessage (now : Int64) (m : ProduceMessage) : Message where
  header := { priority := m.priority.toUInt8, timestamp := now, produceTime := 0, appendTime := 0 }
  key := m.key
  value := m.value

/-- What a produce handler meets: the snapshot it loads, the clock, and the
outcome of the steps of its publish. -/
structure HandlerEnv where
  snap : ConfigSnapshot
  now : Int64
  publish : PublishEnv
  batch : BatchEnv

structure Server where
  /-- the capacity of the request semaphore -/
  reqSem : Option Nat
  maxRecvMsgSize : Int
  maxSendMsgSize : Int

def newServer (cfg : Config) : Server where
  reqSem := if 0 < cfg.maxQueuedRequests then some cfg.maxQueuedRequests.toNat else none
  maxRecvMsgSize := cfg.maxMessageBytes + 1024
  maxSendMsgSize := cfg.maxFetchBytes + 1024

def allFailed (results : List PublishResult) : Bool := results.all fun r => r.err.isSome

namespace Server

/-- The interceptor around every handler; `inFlight` requests hold the
semaphore. -/
def semaphoreInterceptor {α : Type} (s : Server) (inFlight : Nat) (b : Broker)
    (handler : Except RpcError α × Broker) : Except RpcError α × Broker :=
  match s.reqSem with
  | none => handler
  | some capacity => if inFlight < capacity then handler else (.error .overloaded, b)

def produceSingle (b : Broker) (req : ProduceRequest) (env : HandlerEnv) :
    Except RpcError ProduceResponse × Broker :=
  let msg := ProduceMessage.toMessage env.now ⟨req.key, req.value, req.priority⟩
  match Broker.publishWith env.snap b req.topic msg env.publish with
  | (.error cause, _, b') => (.error (.broker (.single req.topic) cause), b')
  | (.ok (partition, offset), _, b') =>
      (.ok { partition := Int32.ofInt partition, offset := int64OfOffset offset }, b')

/-- The answer of `produceBatch` to the results of its `PublishBatch`. -/
def batchAnswer (req : ProduceRequest) (batchResults : List PublishResult) :
    Except RpcError ProduceResponse :=
  let results := batchResults.map fun r =>
    { partition := Int32.ofInt r.partition, offset := int64OfOffset r.offset }
  match batchResults.findSome? PublishResult.err with
  | some firstErr =>
      if allFailed batchResults then
        .error (.broker (.batch req.topic req.messages.length) firstErr)
      else .ok { results := results }
  | none => .ok { results := results }

def produceBatch (b : Broker) (req : ProduceRequest) (env : HandlerEnv) :
    Except RpcError ProduceResponse × Broker :=
  let msgs := req.messages.map (ProduceMessage.toMessage env.now)
  let published := Broker.publishBatchWith env.snap b req.topic msgs env.batch
  (batchAnswer req published.1, published.2)

def produce (b : Broker) (req : ProduceRequest) (env : HandlerEnv) :
    Except RpcError ProduceResponse × Broker :=
  if 0 < req.messages.length then produceBatch b req env else produceSingle b req env

end Server

/-! ## The HTTP server -/

/-- The records of an HTTP request have the fields of a `ProduceMessage`. -/
abbrev HTTPProduceRecord := ProduceMessage

structure HTTPProduceResult where
  partition : Int
  offset : Int64

inductive HTTPProduceAnswer where
  /-- status 200 -/
  | ok (results : List HTTPProduceResult)
  /-- status 400, the body cannot be decoded -/
  | badRequest
  /-- status 500 -/
  | internalServerError (cause : PublishError)

namespace HTTPServer

/-- The loop over the results, with those already converted. -/
def produceAnswer : List HTTPProduceResult → List PublishResult → HTTPProduceAnswer
  | results, [] => .ok results
  | results, br :: rest =>
      match br.err with
      | some cause => .internalServerError cause
      | none => produceAnswer (results ++ [⟨br.partition, int64OfOffset br.offset⟩]) rest

/-- `handleProduce`; a body that is too long or no request decodes to `none`. -/
def handleProduce (b : Broker) (topic : Bytes) (body : Option (List HTTPProduceRecord))
    (env : HandlerEnv) : HTTPProduceAnswer × Broker :=
  match body with
  | none => (.badRequest, b)
  | some records =>
      let msgs := records.map (ProduceMessage.toMessage env.now)
      let published := Broker.publishBatchWith env.snap b topic msgs env.batch
      (produceAnswer [] published.1, published.2)

end HTTPServer

/-! ## The client -/

inductive ClientError where
  | refused (context : ProduceContext) (cause : RpcError)
  /-- the context ended between two attempts -/
  | context
  /-- … (exhausted retries) -/
  | exhausted (context : ProduceContext) (cause : Option RpcError)
  deriving DecidableEq

/-- What one attempt of the client meets: the broker and the requests in flight
when it arrives, the steps of its handler, and whether the context ends before
the next attempt. -/
structure Attempt where
  broker : Broker
  inFlight : Nat
  handler : HandlerEnv
  cancelled : Bool

namespace Client

def produceMaxRetries : Nat := 3

/-- One RPC; the RPC layer hands on what the server answers. -/
def call (s : Server) (req : ProduceRequest) (attempt : Attempt) :
    Except RpcError ProduceResponse × Broker :=
  s.semaphoreInterceptor attempt.inFlight attempt.broker
    (Server.produce attempt.broker req attempt.handler)

/-- The retry loop with `left` attempts left; also says how many were made. -/
def retry (s : Server) (req : ProduceRequest) (context : ProduceContext)
    (attempts : Nat → Attempt) :
    Nat → Nat → Option RpcError → Except ClientError ProduceResponse × Nat
  | 0, attempt, lastErr => (.error (.exhausted context lastErr), attempt)
  | left + 1, attempt, _ =>
      match (call s req (attempts attempt)).1 with
      | .ok resp => (.ok resp, attempt + 1)
      | .error err =>
          if err.code ≠ .resourceExhausted then (.error (.refused context err), attempt + 1)
          else if (attempts attempt).cancelled then (.error .context, attempt + 1)
          else retry s req context attempts left (attempt + 1) (some err)

def produceRequest (topic key value : Bytes) (priority : UInt32) : ProduceRequest where
  topic := topic
  key := key
  value := value
  priority := priority

def batchRequest (topic : Bytes) (msgs : List ProduceMessage) : ProduceRequest where
  topic := topic
  messages := msgs

def produce (s : Server) (topic key value : Bytes) (priority : UInt32)
    (attempts : Nat → Attempt) : Except ClientError (Int32 × Int64) × Nat :=
  let ended := retry s (produceRequest topic key value priority) (.single topic) attempts
    produceMaxRetries 0 none
  (ended.1.map fun resp => (resp.partition, resp.offset), ended.2)

def produceBatch (s : Server) (topic : Bytes) (msgs : List ProduceMessage)
    (attempts : Nat → Attempt) : Except ClientError (List ProduceResult) × Nat :=
  let ended := retry s (batchRequest topic msgs) (.batch topic msgs.length) attempts
    produceMaxRetries 0 none
  (ended.1.map fun resp => resp.results, ended.2)

end Client

end NyaQueue
