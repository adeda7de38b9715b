import NyaQueue.ProduceOutcomes

/-!
# The retries of the client

`Produce` and `ProduceBatch` of the client try again when the server answers
`ResourceExhausted`.  The server gives that answer, like every other error,
only when the attempt has stored nothing; so what a call stores is stored by its
last attempt.
-/

set_option autoImplicit false

namespace NyaQueue

namespace Broker

/-! ## What one request stores -/

theorem gained_of_logs {b b' : Broker} {name : Bytes} {id : Int}
    (same : ∀ p, b.partition? name id = some p →
      ∃ q, b'.partition? name id = some q ∧ q.log = p.log) : gained b b' name id = [] := by
  unfold gained
  cases before : b.partition? name id with
  | none => rfl
  | some p =>
    obtain ⟨q, after, log⟩ := same p before
    rw [after]
    dsimp only
    rw [log, Nat.sub_self]
    rfl

theorem gained_self (b : Broker) (name : Bytes) (id : Int) : gained b b name id = [] :=
  gained_of_logs fun p there => ⟨p, there, rfl⟩

theorem mem_gained_of_stored {call : BatchCall} {b b' : Broker} {name : Bytes} {i : Nat} {id : Int}
    {offset : Nat} (member : (i, id, offset) ∈ call.stored b b' name) :
    offset ∈ gained b b' name id := by
  unfold BatchCall.stored at member
  obtain ⟨id', -, inside⟩ := List.mem_flatMap.mp member
  obtain ⟨⟨i', offset'⟩, zipped, same⟩ := List.mem_map.mp inside
  cases same
  exact (List.of_mem_zip zipped).2

section Publish

variable {snap : ConfigSnapshot} {b b' : Broker} {name : Bytes} {msg msg' : Message}
  {env : PublishEnv}

theorem partition?_setPartition_ne {t : Topic} (there : b.topics name = some t) {partIdx id : Int}
    {p : Partition} (found : t.partition partIdx = .ok p) (other : id ≠ partIdx) (q : Partition) :
    (b.setTopic name (t.setPartition partIdx q)).partition? name id = b.partition? name id := by
  have valid := ((t.partition_ok_iff partIdx p).mp found).1
  rw [partition?_of_topic (setTopic_topics_self ..), partition?_of_topic there,
    Topic.partition_setPartition_ne valid other]

theorem partition?_setPartition_self (b : Broker) (name : Bytes) {t : Topic} {partIdx : Int}
    {p : Partition} (found : t.partition partIdx = .ok p) (q : Partition) :
    (b.setTopic name (t.setPartition partIdx q)).partition? name partIdx = some q := by
  rw [partition?_of_topic (setTopic_topics_self ..), Topic.partition_setPartition_self found]
  rfl

theorem gained_of_refused {t t' : Topic} (there : b.topics name = some t) (refused : t.Refused t')
    (id : Int) : gained b (b.setTopic name t') name id = [] := by
  apply gained_of_logs
  intro p before
  rw [partition?_of_topic there] at before
  cases found : t.partition id with
  | error bounds =>
    rw [found] at before
    cases before
  | ok p' =>
    rw [found] at before
    cases before
    obtain ⟨q, found', log⟩ := refused.log found
    refine ⟨q, ?_, log⟩
    rw [partition?_of_topic (setTopic_topics_self ..), found']
    rfl

theorem publishWith_missing (snap : ConfigSnapshot) (missing : b.topics name = none)
    (msg : Message) (env : PublishEnv) :
    (publishWith snap b name msg env).2.2 = b ∧
      ∃ cause, (publishWith snap b name msg env).1 = .error cause := by
  unfold publishWith
  simp only [missing]
  split
  · exact ⟨rfl, _, rfl⟩
  · split
    · exact ⟨rfl, _, rfl⟩
    · exact ⟨rfl, _, rfl⟩

theorem publishWith_refused {cause : PublishError}
    (refused : publishWith snap b name msg env = (.error cause, msg', b')) (id : Int) :
    gained b b' name id = [] := by
  cases there : b.topics name with
  | none =>
    have unchanged := (publishWith_missing snap there msg env).1
    rw [refused] at unchanged
    obtain rfl : b' = b := unchanged
    exact gained_self b' name id
  | some t =>
    rcases publishWith_cases snap there msg env with
      ⟨cause', msg'', t', result, left⟩ | ⟨offset, msg'', p, q, stored, -, result, -, -⟩
    · rw [result] at refused
      cases refused
      exact gained_of_refused there left id
    · rw [result] at refused
      cases refused

/-- The record at `offset` of partition `id` is that of `msg`. -/
def Holds (codec : Codec) (appendTime : Int64) (b : Broker) (name : Bytes) (id : Int) (offset : Nat)
    (msg : Message) : Prop :=
  ∃ q stored, b.partition? name id = some q ∧ StoredAs codec msg stored ∧
    q.log.recordAt offset = some (stored.stamp appendTime).layout

theorem publishWith_stored {id : Int} {offset : Nat}
    (success : publishWith snap b name msg env = (.ok (id, offset), msg', b')) :
    (∀ id' offset', offset' ∈ gained b b' name id' ↔ id' = id ∧ offset' = offset) ∧
      Holds snap.codec env.append.appendTime b' name id offset msg := by
  cases there : b.topics name with
  | none =>
    obtain ⟨-, cause, failed⟩ := publishWith_missing snap there msg env
    rw [success] at failed
    cases failed
  | some t =>
    rcases publishWith_cases snap there msg env with
      ⟨cause, msg'', t', result, -⟩ | ⟨offset', msg'', p, q, stored, found, result, form, ran⟩
    · rw [result] at success
      cases success
    · rw [result] at success
      cases success
      obtain ⟨range, -, next, -, records, -⟩ := Partition.appendBatch_records (by simp) ran
      have grown := AppendCall.run_grown (.plain [stored] env.append) ran
      have offset_eq : offset = p.log.nextIndex := by
        rw [← next]
        exact (List.cons.inj range).1
      have after := partition?_setPartition_self b name found q
      refine ⟨?_, q, stored, after, form, ?_⟩
      · intro id' offset'
        by_cases chosen : id' = env.partIdx
        · subst chosen
          have before : b.partition? name env.partIdx = some p := by
            rw [partition?_of_topic there, found]
            rfl
          have one : q.log.nextIndex - p.log.nextIndex = 1 := by
            rw [grown]
            exact Nat.add_sub_cancel_left ..
          rw [gained, before, after]
          dsimp only
          rw [one, offset_eq]
          simp
        · have nothing :
              gained b (b.setTopic name (t.setPartition env.partIdx q)) name id' = [] :=
            gained_of_logs fun p' before =>
              ⟨p', (partition?_setPartition_ne there found chosen q).trans before, rfl⟩
          rw [nothing]
          simp [chosen]
      · have record := records 0 stored rfl
        rwa [Nat.add_zero, next, ← offset_eq] at record

end Publish

end Broker

/-! ## An error means that nothing is stored -/

section Request

variable {s : Server} {b b' : Broker} {req : ProduceRequest} {env : HandlerEnv} {err : RpcError}

theorem produceSingle_refused (refused : Server.produceSingle b req env = (.error err, b'))
    (id : Int) : Broker.gained b b' req.topic id = [] := by
  unfold Server.produceSingle at refused
  dsimp only at refused
  split at refused
  · rename_i failed
    cases refused
    exact Broker.publishWith_refused failed id
  · cases refused

theorem produceBatch_refused (refused : Server.produceBatch b req env = (.error err, b'))
    (id : Int) : Broker.gained b b' req.topic id = [] := by
  have failed : (Server.produceBatch b req env).1.isOk = false := by
    rw [refused]
    rfl
  rw [Bool.eq_false_iff, ne_eq, produceBatch_isOk_iff] at failed
  obtain rfl : (Server.produceBatch b req env).2 = b' := by rw [refused]
  have books := Broker.publishBatchWith_bookkeeping env.snap b req.topic (req.batchCall env).msgs
    env.batch
  apply List.eq_nil_iff_forall_not_mem.mpr
  intro offset member
  obtain ⟨i, stored⟩ := (books.accounted id offset).mp member
  obtain ⟨m, q, at_i, -, -⟩ := books.carried i id offset stored
  obtain ⟨inside, -⟩ := List.getElem?_eq_some_iff.mp at_i
  have inside' := inside
  rw [batchCall_length req env] at inside'
  exact failed (.inr ⟨i, inside', (produceBatch_stores_iff b req env inside').mp
    ⟨id, offset, stored⟩⟩)

theorem produce_refused (refused : Server.produce b req env = (.error err, b')) (id : Int) :
    Broker.gained b b' req.topic id = [] := by
  unfold Server.produce at refused
  split at refused
  · exact produceBatch_refused refused id
  · exact produceSingle_refused refused id

theorem call_cases (s : Server) (req : ProduceRequest) (attempt : Attempt) :
    Client.call s req attempt = Server.produce attempt.broker req attempt.handler ∨
      Client.call s req attempt = (.error .overloaded, attempt.broker) := by
  unfold Client.call Server.semaphoreInterceptor
  cases s.reqSem with
  | none => exact .inl rfl
  | some capacity =>
    dsimp only
    split
    · exact .inl rfl
    · exact .inr rfl

theorem call_refused {attempt : Attempt}
    (refused : (Client.call s req attempt).1 = .error err) (id : Int) :
    Broker.gained attempt.broker (Client.call s req attempt).2 req.topic id = [] := by
  rcases call_cases s req attempt with handled | overloaded
  · rw [handled] at refused ⊢
    exact produce_refused (Prod.ext refused rfl) id
  · rw [overloaded]
    exact Broker.gained_self ..

theorem call_served {attempt : Attempt} {resp : ProduceResponse}
    (success : (Client.call s req attempt).1 = .ok resp) :
    Client.call s req attempt = Server.produce attempt.broker req attempt.handler := by
  rcases call_cases s req attempt with handled | overloaded
  · exact handled
  · rw [overloaded] at success
    cases success

end Request

/-! ## The retry loop -/

section Retry

variable (s : Server) (req : ProduceRequest) (context : ProduceContext) (attempts : Nat → Attempt)

theorem retry_failed (left : Nat) : ∀ (attempt : Nat) (lastErr : Option RpcError) (k : Nat),
    attempt ≤ k → k + 1 < (Client.retry s req context attempts left attempt lastErr).2 →
      ∃ err, (Client.call s req (attempts k)).1 = .error err := by
  induction left with
  | zero =>
    intro attempt lastErr k later before
    simp only [Client.retry] at before
    omega
  | succ left ih =>
    intro attempt lastErr k later before
    unfold Client.retry at before
    cases answer : (Client.call s req (attempts attempt)).1 with
    | ok resp =>
      simp only [answer] at before
      omega
    | error err =>
      simp only [answer] at before
      split at before
      · dsimp only at before
        omega
      · split at before
        · dsimp only at before
          omega
        · rcases Nat.eq_or_lt_of_le later with rfl | behind
          · exact ⟨err, answer⟩
          · exact ih (attempt + 1) (some err) k behind before

theorem retry_ok (left : Nat) : ∀ (attempt : Nat) (lastErr : Option RpcError)
    (resp : ProduceResponse), (Client.retry s req context attempts left attempt lastErr).1 = .ok resp →
      ∃ last, (Client.retry s req context attempts left attempt lastErr).2 = last + 1 ∧
        (Client.call s req (attempts last)).1 = .ok resp := by
  induction left with
  | zero =>
    intro attempt lastErr resp success
    cases success
  | succ left ih =>
    intro attempt lastErr resp success
    unfold Client.retry at success ⊢
    cases answer : (Client.call s req (attempts attempt)).1 with
    | ok resp' =>
      simp only [answer] at success ⊢
      cases success
      exact ⟨attempt, rfl, answer⟩
    | error err =>
      simp only [answer] at success ⊢
      split at success
      · cases success
      · rename_i exhausted
        rw [if_neg exhausted]
        split at success
        · cases success
        · rename_i waiting
          rw [if_neg waiting]
          exact ih (attempt + 1) (some err) resp success

end Retry

/-! ## What a call stores -/

namespace Client

/-- Where the first `made` attempts of a call have stored a record: the attempt,
the partition and the offset. -/
def places (s : Server) (req : ProduceRequest) (attempts : Nat → Attempt) (made : Nat) :
    Set (Nat × Int × Nat) :=
  {place | place.1 < made ∧ place.2.2 ∈ Broker.gained (attempts place.1).broker
    (call s req (attempts place.1)).2 req.topic place.2.1}

/-- Where they have stored message `i` of a batch. -/
def placesOf (s : Server) (req : ProduceRequest) (attempts : Nat → Attempt) (made i : Nat) :
    Set (Nat × Int × Nat) :=
  {place | place.1 < made ∧ (i, place.2) ∈ (req.batchCall (attempts place.1).handler).stored
    (attempts place.1).broker (call s req (attempts place.1)).2 req.topic}

theorem placesOf_subset (s : Server) (req : ProduceRequest) (attempts : Nat → Attempt)
    (made i : Nat) : placesOf s req attempts made i ⊆ places s req attempts made :=
  fun _ stored => ⟨stored.1, Broker.mem_gained_of_stored stored.2⟩

section Places

variable {s : Server} {req : ProduceRequest} {context : ProduceContext} {attempts : Nat → Attempt}
  {left : Nat}

theorem place_last {place : Nat × Int × Nat}
    (there : place ∈ places s req attempts (retry s req context attempts left 0 none).2) :
    place.1 + 1 = (retry s req context attempts left 0 none).2 ∧
      call s req (attempts place.1) = Server.produce (attempts place.1).broker req
        (attempts place.1).handler ∧
      ∃ resp, (Server.produce (attempts place.1).broker req (attempts place.1).handler).1 =
        .ok resp := by
  obtain ⟨made, member⟩ := there
  cases answer : (call s req (attempts place.1)).1 with
  | error err =>
    rw [call_refused answer] at member
    cases member
  | ok resp =>
    have served := call_served answer
    rw [served] at answer
    refine ⟨?_, served, resp, answer⟩
    by_contra earlier
    obtain ⟨err, failed⟩ := retry_failed s req context attempts left 0 none place.1
      (Nat.zero_le _) (by omega)
    rw [served, answer] at failed
    cases failed

theorem produce_single (b : Broker) (topic key value : Bytes) (priority : UInt32)
    (env : HandlerEnv) :
    Server.produce b (produceRequest topic key value priority) env =
      Server.produceSingle b (produceRequest topic key value priority) env := rfl

theorem produceSingle_ok {b b' : Broker} {env : HandlerEnv} {resp : ProduceResponse}
    (success : Server.produceSingle b req env = (.ok resp, b')) :
    ∃ id offset, resp.partition = Int32.ofInt id ∧ resp.offset = int64OfOffset offset ∧
      (∀ id' offset', offset' ∈ Broker.gained b b' req.topic id' ↔ id' = id ∧ offset' = offset) ∧
      Broker.Holds env.snap.codec env.publish.append.appendTime b' req.topic id offset
        (ProduceMessage.toMessage env.now ⟨req.key, req.value, req.priority⟩) := by
  unfold Server.produceSingle at success
  dsimp only at success
  split at success
  · cases success
  · rename_i id offset msg b'' published
    cases success
    obtain ⟨gained, holds⟩ := Broker.publishWith_stored published
    exact ⟨id, offset, rfl, rfl, gained, holds⟩

theorem batch_place_unique {b : Broker} {env : HandlerEnv} {i : Nat}
    (inside : i < req.messages.length) {place place' : Int × Nat}
    (stored : (i, place) ∈ (req.batchCall env).stored b (Server.produceBatch b req env).2 req.topic)
    (stored' : (i, place') ∈ (req.batchCall env).stored b (Server.produceBatch b req env).2
      req.topic) : place = place' := by
  have books := Broker.publishBatchWith_bookkeeping env.snap b req.topic (req.batchCall env).msgs
    env.batch
  have inside' : i < (Broker.publishBatchWith env.snap b req.topic (req.batchCall env).msgs
      env.batch).1.length := by
    rw [books.one_each]
    exact batchCall_length req env ▸ inside
  have result := List.getElem?_eq_getElem inside'
  obtain ⟨-, partition, offset⟩ := (books.acknowledged i _ result place.1 place.2).mp stored
  obtain ⟨-, partition', offset'⟩ := (books.acknowledged i _ result place'.1 place'.2).mp stored'
  exact Prod.ext (partition.trans partition'.symm) (offset.trans offset'.symm)

theorem places_single {topic key value : Bytes} {priority : UInt32} :
    (places s (produceRequest topic key value priority) attempts (retry s
      (produceRequest topic key value priority) context attempts left 0 none).2).Subsingleton := by
  rintro ⟨k, id, offset⟩ there ⟨k', id', offset'⟩ there'
  obtain ⟨last, served, resp, success⟩ := place_last there
  obtain ⟨last', -, -⟩ := place_last there'
  dsimp only at last last' served success
  obtain rfl : k = k' := by omega
  rw [produce_single] at served success
  obtain ⟨id₀, offset₀, -, -, gained, -⟩ := produceSingle_ok (Prod.ext success rfl)
  have member := there.2
  have member' := there'.2
  rw [served] at member member'
  obtain ⟨rfl, rfl⟩ := (gained id offset).mp member
  obtain ⟨rfl, rfl⟩ := (gained id' offset').mp member'
  rfl

theorem placesOf_batch {topic : Bytes} {msgs : List ProduceMessage} {i : Nat}
    (inside : i < msgs.length) :
    (placesOf s (batchRequest topic msgs) attempts
      (retry s (batchRequest topic msgs) context attempts left 0 none).2 i).Subsingleton := by
  have batch : 0 < (batchRequest topic msgs).messages.length := Nat.zero_lt_of_lt inside
  rintro ⟨k, place⟩ there ⟨k', place'⟩ there'
  obtain ⟨last, served, -⟩ := place_last (placesOf_subset _ _ _ _ _ there)
  obtain ⟨last', -, -⟩ := place_last (placesOf_subset _ _ _ _ _ there')
  dsimp only at last last' served
  obtain rfl : k = k' := by omega
  rw [Server.produce, if_pos batch] at served
  have stored := there.2
  have stored' := there'.2
  rw [served] at stored stored'
  exact Prod.ext rfl (batch_place_unique inside stored stored')

end Places

/-- Over all attempts of a call, whatever the server and the broker do in
between, a message is stored at most once; a `Produce` that succeeds has stored
its message once, where it says. -/
theorem retries_never_duplicate (s : Server) (topic : Bytes) (attempts : Nat → Attempt) :
    (∀ (key value : Bytes) (priority : UInt32),
      let req := produceRequest topic key value priority
      let run := produce s topic key value priority attempts
      (places s req attempts run.2).Subsingleton ∧
        ∀ partition offset, run.1 = .ok (partition, offset) →
          ∃ k id o, places s req attempts run.2 = {(k, id, o)} ∧
            partition = Int32.ofInt id ∧ offset = int64OfOffset o ∧
            Broker.Holds (attempts k).handler.snap.codec
              (attempts k).handler.publish.append.appendTime (call s req (attempts k)).2 topic id o
              (ProduceMessage.toMessage (attempts k).handler.now ⟨key, value, priority⟩)) ∧
    ∀ (msgs : List ProduceMessage), ∀ i < msgs.length,
      (placesOf s (batchRequest topic msgs) attempts (produceBatch s topic msgs attempts).2
        i).Subsingleton := by
  refine ⟨?_, fun msgs i inside => placesOf_batch inside⟩
  intro key value priority
  refine ⟨places_single, ?_⟩
  intro partition offset success
  unfold produce at success ⊢
  dsimp only at success ⊢
  cases ended : (retry s (produceRequest topic key value priority) (.single topic) attempts
      produceMaxRetries 0 none).1 with
  | error err =>
      rw [ended] at success
      cases success
  | ok resp =>
      rw [ended] at success
      cases success
      obtain ⟨last, made, answer⟩ := retry_ok _ _ _ _ _ _ _ _ ended
      have served := call_served answer
      rw [produce_single] at served
      rw [served] at answer
      obtain ⟨id, o, partition, offset, gained, holds⟩ := produceSingle_ok (Prod.ext answer rfl)
      refine ⟨last, id, o, ?_, partition, offset, by rw [served]; exact holds⟩
      refine places_single.eq_singleton_of_mem ⟨?_, ?_⟩
      · rw [made]
        exact Nat.lt_succ_self last
      · dsimp only
        rw [served]
        exact (gained id o).mpr ⟨rfl, rfl⟩

/-- A server with one place for requests, which is taken when the first attempt
arrives; the second one is throttled. -/
def busyServer : Server := newServer { defaultConfig with maxQueuedRequests := 1 }

def sampleAttempts (k : Nat) : Attempt where
  broker := Broker.twoPartitions
  inFlight := if k = 0 then 1 else 0
  handler := { plainHandler Broker.twoPartitions with publish := ⟨0, k = 1, 8, steadyEnv 9⟩ }
  cancelled := false

theorem retries_never_duplicate_third_attempt :
    produce busyServer [116] [] [118] 0 sampleAttempts = (.ok (0, 1), 3) ∧
      ∃ k id o, places busyServer (produceRequest [116] [] [118] 0) sampleAttempts 3 =
        {(k, id, o)} ∧ (0 : Int32) = Int32.ofInt id ∧ (1 : Int64) = int64OfOffset o := by
  have ran : produce busyServer [116] [] [118] 0 sampleAttempts = (.ok (0, 1), 3) := by
    decide +kernel
  obtain ⟨k, id, o, stored, partition, offset, -⟩ :=
    ((retries_never_duplicate busyServer [116] sampleAttempts).1 [] [118] 0).2 0 1 (by rw [ran])
  rw [ran] at stored
  exact ⟨ran, k, id, o, stored, partition, offset⟩

end Client

end NyaQueue
