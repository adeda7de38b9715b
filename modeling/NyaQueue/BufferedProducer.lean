import NyaQueue.Transport
import NyaQueue.Lib.Runs

/-!
# The buffered producer

Model of `BufferedProducer` (`pkg/transport/client.go`).  A call works on the
buffer under the lock and gives the lock back before it hands a batch to
`ProduceBatch`.  Any number of calls, and of goroutines that the linger timer
has started, are under way at once; how each `ProduceBatch` ends is up to the
environment, which also accounts for the context that `Close` cancels.
-/

set_option autoImplicit false

namespace NyaQueue

/-- send batch topic=%q count=%d -/
structure SendError where
  topic : Bytes
  count : Nat
  cause : ClientError
  deriving DecidableEq

inductive ProducerError where
  /-- buffered producer: closed -/
  | closed
  /-- buffered producer async error -/
  | async (cause : SendError)
  /-- buffered producer flush on memory pressure -/
  | memoryPressure (cause : SendError)
  /-- buffered producer: batch memory limit exceeded -/
  | memoryExceeded
  | send (cause : SendError)
  deriving DecidableEq

structure BufferedProducer where
  topic : Bytes
  batchSize : Int
  maxMemoryBytes : Int
  linger : Int
  buf : List ProduceMessage
  bufBytes : Nat
  /-- the linger timer, and whether it has still to fire -/
  timer : Option Bool
  asyncErr : Option SendError
  closed : Bool

def newBufferedProducer (topic : Bytes) (batchSize linger maxMemoryBytes : Int) :
    BufferedProducer where
  topic := topic
  batchSize := batchSize
  maxMemoryBytes := maxMemoryBytes
  linger := linger
  buf := []
  bufBytes := 0
  timer := none
  asyncErr := none
  closed := false

/-- How a call leaves the lock. -/
inductive Release where
  | returns (err : Option ProducerError)
  /-- hands a batch to `send`; `again` if the call then starts over -/
  | hands (batch : List ProduceMessage) (again : Bool)

namespace BufferedProducer

/-- The buffer is swapped out and the timer stopped. -/
def swapOut (p : BufferedProducer) : BufferedProducer :=
  { p with buf := [], bufBytes := 0, timer := none }

/-- `Send` until it gives the lock back. -/
def send (p : BufferedProducer) (m : ProduceMessage) : Release × BufferedProducer :=
  if p.closed then (.returns (some .closed), p)
  else
    match p.asyncErr with
    | some err => (.returns (some (.async err)), { p with asyncErr := none })
    | none =>
        let msgBytes := m.key.length + m.value.length
        if 0 < p.maxMemoryBytes ∧ p.maxMemoryBytes < p.bufBytes + msgBytes ∧ 0 < p.buf.length then
          (.hands p.buf true, p.swapOut)
        else if 0 < p.maxMemoryBytes ∧ p.maxMemoryBytes < msgBytes then
          (.returns (some .memoryExceeded), p)
        else
          let p := { p with buf := p.buf ++ [m], bufBytes := p.bufBytes + msgBytes }
          if p.batchSize ≤ p.buf.length ∨
              (0 < p.maxMemoryBytes ∧ p.maxMemoryBytes ≤ p.bufBytes) then
            (.hands p.buf false, p.swapOut)
          else if p.timer = none ∧ 0 < p.linger then (.returns none, { p with timer := some true })
          else (.returns none, p)

def flush (p : BufferedProducer) : Release × BufferedProducer :=
  if p.buf.length = 0 then (.returns none, p) else (.hands p.buf false, p.swapOut)

def close (p : BufferedProducer) : Release × BufferedProducer :=
  if p.closed then (.returns none, p)
  else
    let swapped := { p.swapOut with closed := true }
    if p.buf.length = 0 then (.returns none, swapped) else (.hands p.buf false, swapped)

/-- The end of `flushFromTimer` after a failed flush. -/
def park (p : BufferedProducer) (err : SendError) : BufferedProducer :=
  match p.asyncErr with
  | none => { p with asyncErr := some err }
  | some _ => p

end BufferedProducer

/-! ## Calls under way -/

inductive ProducerCall where
  | send (m : ProduceMessage)
  | flush
  | close
  deriving DecidableEq

def BufferedProducer.locked (p : BufferedProducer) : ProducerCall → Release × BufferedProducer
  | .send m => p.send m
  | .flush => p.flush
  | .close => p.close

inductive ProducerThread where
  | idle
  /-- a call that waits for the lock -/
  | locking (call : ProducerCall)
  /-- a call whose `ProduceBatch` is under way -/
  | sending (call : ProducerCall) (batch : List ProduceMessage) (again : Bool)
  /-- `flushFromTimer`, waiting for the lock -/
  | fired
  /-- … with its `ProduceBatch` under way -/
  | flushing (batch : List ProduceMessage)
  /-- … waiting for the lock to park its error -/
  | parking (err : SendError)
  deriving DecidableEq

structure ProducerRun where
  producer : BufferedProducer
  threads : Nat → ProducerThread
  /-- the batches whose `ProduceBatch` has returned, with what it returned -/
  outcomes : List (List ProduceMessage × Option ClientError)
  /-- the calls that have returned, with what they returned -/
  returned : List (ProducerCall × Option ProducerError)

inductive ProducerEvent where
  | start (thread : Nat) (call : ProducerCall)
  /-- the linger timer fires and starts a goroutine -/
  | fire (thread : Nat)
  | lock (thread : Nat)
  /-- the `ProduceBatch` of a thread returns -/
  | answer (thread : Nat) (err : Option ClientError)

namespace ProducerRun

def begin (p : BufferedProducer) : ProducerRun where
  producer := p
  threads _ := .idle
  outcomes := []
  returned := []

def setThread (s : ProducerRun) (thread : Nat) (t : ProducerThread) : ProducerRun :=
  { s with threads := Function.update s.threads thread t }

def finish (s : ProducerRun) (thread : Nat) (call : ProducerCall) (err : Option ProducerError) :
    ProducerRun :=
  { s.setThread thread .idle with returned := s.returned ++ [(call, err)] }

def lockCall (s : ProducerRun) (thread : Nat) (call : ProducerCall) : ProducerRun :=
  let released := s.producer.locked call
  let s := { s with producer := released.2 }
  match released.1 with
  | .returns err => s.finish thread call err
  | .hands batch again => s.setThread thread (.sending call batch again)

def lockTimer (s : ProducerRun) (thread : Nat) : ProducerRun :=
  let released := s.producer.flush
  let s := { s with producer := released.2 }
  match released.1 with
  | .returns _ => s.setThread thread .idle
  | .hands batch _ => s.setThread thread (.flushing batch)

/-- The error of `send` for a failed `ProduceBatch`. -/
def sendError (s : ProducerRun) (batch : List ProduceMessage) (cause : ClientError) : SendError :=
  ⟨s.producer.topic, batch.length, cause⟩

def answerCall (s : ProducerRun) (thread : Nat) (call : ProducerCall) (batch : List ProduceMessage)
    (again : Bool) (err : Option ClientError) : ProducerRun :=
  let s := { s with outcomes := s.outcomes ++ [(batch, err)] }
  match err with
  | none => if again then s.setThread thread (.locking call) else s.finish thread call none
  | some cause =>
      let wrapped := s.sendError batch cause
      s.finish thread call (some (if again then .memoryPressure wrapped else .send wrapped))

def answerTimer (s : ProducerRun) (thread : Nat) (batch : List ProduceMessage)
    (err : Option ClientError) : ProducerRun :=
  let s := { s with outcomes := s.outcomes ++ [(batch, err)] }
  match err with
  | none => s.setThread thread .idle
  | some cause => s.setThread thread (.parking (s.sendError batch cause))

def step (s : ProducerRun) : ProducerEvent → ProducerRun
  | .start thread call =>
      match s.threads thread with
      | .idle => s.setThread thread (.locking call)
      | _ => s
  | .fire thread =>
      match s.threads thread, s.producer.timer with
      | .idle, some true =>
          { s.setThread thread .fired with producer := { s.producer with timer := some false } }
      | _, _ => s
  | .lock thread =>
      match s.threads thread with
      | .locking call => s.lockCall thread call
      | .fired => s.lockTimer thread
      | .parking err => { s.setThread thread .idle with producer := s.producer.park err }
      | _ => s
  | .answer thread err =>
      match s.threads thread with
      | .sending call batch again => s.answerCall thread call batch again err
      | .flushing batch => s.answerTimer thread batch err
      | _ => s

end ProducerRun

end NyaQueue
