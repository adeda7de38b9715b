import NyaQueue.ProduceOutcomes

/-!
# From the requested priority to the level

A produce request carries a 32-bit priority.  On both transports the header of
the message keeps its low eight bits, and `Add` clamps these to the ten levels.
The requested priority is clamped as a whole exactly when the two conversions
commute.
-/

set_option autoImplicit false

namespace NyaQueue

/-! ## The two conversions -/

/-- The requested priority, clamped to the levels. -/
def requestedLevel (priority : UInt32) : Level :=
  ⟨min priority.toNat 9, by change _ < 10; omega⟩

theorem clampLevel_val (priority : Nat) : (clampLevel priority).val = min priority 9 := by
  unfold clampLevel
  rw [if_neg (by omega)]
  split
  · rename_i inside
    change (priority : Int).toNat = min priority 9
    omega
  · rename_i outside
    change 9 = min priority 9
    omega

theorem clampLevel_narrow_iff (priority : UInt32) :
    clampLevel priority.toUInt8.toNat = requestedLevel priority ↔
      priority.toNat < 256 ∨ 9 ≤ priority.toNat % 256 := by
  rw [Fin.ext_iff, clampLevel_val, UInt32.toNat_toUInt8]
  change min (priority.toNat % 2 ^ 8) 9 = min priority.toNat 9 ↔ _
  omega

/-! ## What an append does to the index -/

theorem indexMessages_append (now : Time) (earlier later : List (Message × Nat)) :
    ∀ pi : PriorityIndex, indexMessages now (earlier ++ later) pi =
      indexMessages now later (indexMessages now earlier pi) := by
  induction earlier with
  | nil => intro pi; rfl
  | cons entry rest ih => intro pi; exact ih _

/-- `pi'` is `pi` with `e` at the back of a level, for which a full level gives
up its oldest entry. -/
def PriorityIndex.Queued (pi pi' : PriorityIndex) (level : Level) (e : PendingEntry) : Prop :=
  pi'.contents = Function.update pi.contents level
    (BoundedQueue.push (pi.levels level).ring.cap (pi.contents level) e).1

/-- An append has turned `p` into `q`, and among its insertions, one for each
offset it has used, the one for `offset` was made at `level`. -/
def Partition.QueuedAt (p q : Partition) (offset : Nat) (level : Level) : Prop :=
  ∃ (now : Time) (pi after : PriorityIndex) (m : Message) (earlier later : List (Message × Nat)),
    p.priorityIndex = some pi ∧
    (earlier ++ (m, offset) :: later).map Prod.snd =
      List.range' p.nextOffset (q.nextOffset - p.nextOffset) ∧
    (indexMessages now earlier pi).Queued after level ⟨int64OfOffset offset, now⟩ ∧
    q.priorityIndex = some (indexMessages now later after)

theorem AppendCall.queuedAt {p q : Partition} {call : AppendCall} {offsets : List Nat}
    (success : call.run p = (.ok offsets, q)) {pi : PriorityIndex}
    (indexed : p.priorityIndex = some pi) {j offset : Nat} {m : Message}
    (at_j : call.msgs[j]? = some m) (handed : offsets[j]? = some offset) :
    p.QueuedAt q offset (clampLevel m.header.priority.toNat) := by
  rcases run_ok success with ⟨-, rfl, -⟩ | ⟨batch, log, -, -, -, -, rfl, rfl⟩
  · cases handed
  · generalize insertions : call.msgs.zip (List.range' p.nextOffset call.msgs.length) = entries
    have own : entries[j]? = some (m, offset) := by
      rw [← insertions]
      exact List.getElem?_zip_eq_some.mpr ⟨at_j, handed⟩
    obtain ⟨inside, here⟩ := List.getElem?_eq_some_iff.mp own
    have split : entries.take j ++ (m, offset) :: entries.drop (j + 1) = entries := by
      rw [← here, List.getElem_cons_drop, List.take_append_drop]
    refine ⟨call.env.indexTime, pi,
      ((indexMessages call.env.indexTime (entries.take j) pi).add m.header.priority.toNat
        (int64OfOffset offset) call.env.indexTime).1, m, entries.take j, entries.drop (j + 1),
      indexed, ?_, PriorityIndex.add_contents .., ?_⟩
    · have used : (p.stored log call.msgs call.env.indexTime).nextOffset - p.nextOffset =
          call.msgs.length := Nat.add_sub_cancel_left ..
      rw [split, used, ← insertions, List.map_snd_zip (by rw [List.length_range'])]
    · have update : (p.stored log call.msgs call.env.indexTime).priorityIndex =
          some (indexMessages call.env.indexTime entries pi) := by
        simp only [Partition.stored, indexed, insertions, Option.map_some]
      rw [update, ← split, indexMessages_append, split]
      rfl

theorem Partition.QueuedAt.level_unique {p q : Partition} {pi : PriorityIndex}
    (indexed : p.priorityIndex = some pi) (empty : ∀ l, pi.contents l = [])
    (one : q.nextOffset = p.nextOffset + 1) {offset : Nat} {level level' : Level}
    (queued : p.QueuedAt q offset level) (queued' : p.QueuedAt q offset level') :
    level = level' := by
  -- the insertion is the only one, so the index afterwards is the one it leaves
  have alone : ∀ l, p.QueuedAt q offset l → ∃ after e, q.priorityIndex = some after ∧
      after.contents = Function.update pi.contents l [e] := by
    rintro l ⟨now, pi', after, m, earlier, later, indexed', numbers, pushed, index⟩
    cases indexed.symm.trans indexed'
    rw [one, Nat.add_sub_cancel_left] at numbers
    have count := congrArg List.length numbers
    simp only [List.length_map, List.length_append, List.length_cons, List.length_range'] at count
    obtain rfl : earlier = [] := List.length_eq_zero_iff.mp (by omega)
    obtain rfl : later = [] := List.length_eq_zero_iff.mp (by omega)
    refine ⟨after, ⟨int64OfOffset offset, now⟩, index, ?_⟩
    have room : ¬BoundedQueue.Full (pi.levels l).ring.cap ([] : List PendingEntry) := by
      rintro ⟨positive, reached⟩
      rw [List.length_nil] at reached
      omega
    unfold PriorityIndex.Queued at pushed
    simp only [indexMessages] at pushed
    rw [pushed, empty l, BoundedQueue.push_of_room room, List.nil_append]
  obtain ⟨after, e, index, contents⟩ := alone level queued
  obtain ⟨after', e', index', contents'⟩ := alone level' queued'
  cases index.symm.trans index'
  by_contra different
  have filled := congrFun (contents.symm.trans contents') level
  rw [Function.update_self, Function.update_of_ne different, empty level] at filled
  cases filled

namespace Broker

/-- Every partition of the topic has an index. -/
def PriorityMode (b : Broker) (topic : Bytes) : Prop :=
  ∀ t p, b.topics topic = some t → p ∈ t.partitions → ∃ pi, p.priorityIndex = some pi

theorem PriorityMode.indexed {b : Broker} {topic : Bytes} (mode : b.PriorityMode topic) {t : Topic}
    (there : b.topics topic = some t) {id : Int} {p : Partition} (found : t.partition id = .ok p) :
    ∃ pi, p.priorityIndex = some pi :=
  mode t p there (List.mem_of_getElem? ((t.partition_ok_iff id p).mp found).2)

/-- The message stored at `offset` of partition `id` was queued at `level`. -/
def Queues (b b' : Broker) (topic : Bytes) (id : Int) (offset : Nat) (level : Level) : Prop :=
  ∃ p q, b.partition? topic id = some p ∧ b'.partition? topic id = some q ∧
    p.QueuedAt q offset level

end Broker

theorem encodedGroup_header {snap : ConfigSnapshot} {m written : Message}
    (encoded : encodedGroup snap [m] = .ok [written]) : written.header = m.header := by
  unfold encodedGroup at encoded
  split at encoded
  · obtain ⟨packed, later, same, -, -⟩ := encodeValues_cons encoded
    cases same
    rfl
  · cases encoded
    rfl

theorem appendPartitionBatch_queues {snap : ConfigSnapshot} {t : Topic} {partIdx : Int}
    {msgs : List Message} {env : AppendEnv} {offsets : List Nat}
    (success : (appendPartitionBatch snap t partIdx msgs env).1 = .ok offsets)
    (mode : ∀ p, t.partition partIdx = .ok p → ∃ pi, p.priorityIndex = some pi)
    {j offset : Nat} {m : Message} (at_j : msgs[j]? = some m)
    (handed : offsets[j]? = some offset) :
    ∃ p q, t.partition partIdx = .ok p ∧
      (appendPartitionBatch snap t partIdx msgs env).2.partition partIdx = .ok q ∧
      p.QueuedAt q offset (clampLevel m.header.priority.toNat) := by
  rcases appendPartitionBatch_cases snap t partIdx msgs env with
    ⟨cause, t', result, -⟩ |
      ⟨offsets', p, q, there, result, ⟨-, ran⟩ | ⟨-, stored, encoded, ran⟩⟩
  · rw [result] at success
    cases success
  · rw [result] at success ⊢
    cases success
    obtain ⟨pi, indexed⟩ := mode p there
    refine ⟨p, q, there, Topic.partition_setPartition_self there q, ?_⟩
    exact AppendCall.queuedAt (show (AppendCall.compressed msgs snap.codec env).run p = _ from ran)
      indexed at_j handed
  · rw [result] at success ⊢
    cases success
    obtain ⟨pi, indexed⟩ := mode p there
    obtain ⟨written, at_j', form⟩ := encodedGroup_getElem? encoded at_j
    refine ⟨p, q, there, Topic.partition_setPartition_self there q, ?_⟩
    rw [← encodedGroup_header form]
    exact AppendCall.queuedAt (show (AppendCall.plain stored env).run p = _ from ran)
      indexed at_j' handed

/-! ## The two transports -/

namespace Broker

theorem publishWith_queues {snap : ConfigSnapshot} {b b' : Broker} {topic : Bytes}
    {msg msg' : Message} {env : PublishEnv} {id : Int} {offset : Nat}
    (mode : b.PriorityMode topic)
    (success : publishWith snap b topic msg env = (.ok (id, offset), msg', b')) :
    b.Queues b' topic id offset (clampLevel msg.header.priority.toNat) := by
  cases there : b.topics topic with
  | none =>
    unfold publishWith at success
    split at success
    · cases success
    · split at success
      · cases success
      · simp only [there] at success
        cases success
  | some t =>
    rcases publishWith_cases snap there msg env with
      ⟨cause, msg'', t', result, -⟩ | ⟨offset', msg'', p, q, stored, found, result, form, ran⟩
    · rw [result] at success
      cases success
    · rw [result] at success
      cases success
      obtain ⟨pi, indexed⟩ := mode.indexed there found
      refine ⟨p, q, ?_, ?_, ?_⟩
      · rw [partition?_of_topic there, found]
        rfl
      · rw [partition?_of_topic (setTopic_topics_self ..),
          Topic.partition_setPartition_self found]
        rfl
      · rw [← form.priority]
        have first : [stored][0]? = some stored := rfl
        exact AppendCall.queuedAt (show (AppendCall.plain [stored] env.append).run p = _ from ran)
          indexed first rfl

theorem publishBatchWith_queues (call : BatchCall) {b : Broker} {topic : Bytes}
    (mode : b.PriorityMode topic) {i : Nat} {m : Message} {r : PublishResult}
    (at_i : call.msgs[i]? = some m)
    (result : (publishBatchWith call.snap b topic call.msgs call.env).1[i]? = some r)
    (clean : r.err = none) :
    b.Queues (publishBatchWith call.snap b topic call.msgs call.env).2 topic r.partition r.offset
      (clampLevel m.header.priority.toNat) := by
  have books := publishBatchWith_bookkeeping call.snap b topic call.msgs call.env
  have stored := (books.acknowledged i r result r.partition r.offset).mpr ⟨clean, rfl, rfl⟩
  cases there : b.topics topic with
  | none =>
    have accepts := (result_clean_iff call result).mp clean
    obtain ⟨t, -, there', -⟩ := accepts
    rw [there] at there'
    cases there'
  | some t =>
    obtain ⟨s, ended, final⟩ := publishBatchWith_ended call.snap there call.msgs call.env
    rw [final] at stored ⊢
    have there' : (b.setTopic topic s.topic).topics topic = some s.topic :=
      setTopic_topics_self ..
    obtain ⟨offsets, j, success, position, handed⟩ :=
      (mem_stored_iff ended there there' i r.partition r.offset).mp stored
    -- the group of the message, and its place there
    obtain ⟨⟨m', i'⟩, place, rfl⟩ : ∃ entry, (call.members r.partition)[j]? = some entry ∧
        entry.2 = i := by
      rw [List.getElem?_map, Option.map_eq_some_iff] at position
      exact position
    obtain ⟨m₀, at_i', passed, here, rfl⟩ :=
      (mem_group_iff ..).mp (List.mem_of_getElem? place)
    cases at_i.symm.trans at_i'
    have used : r.partition ∈ call.keys :=
      (mem_groupKeys_iff ..).mpr ⟨i', m, at_i, passed, here⟩
    have group : ((call.members r.partition).map Prod.fst)[j]? =
        some (m.stampProduce call.env.produceTime) := by
      rw [List.getElem?_map, place]
      rfl
    have after := ended.partitions r.partition
    rw [if_pos used] at after
    unfold BatchCall.attempt at success after
    split at success
    · rename_i admitted
      rw [if_pos admitted] at after
      obtain ⟨p, q, found, found', queued⟩ := appendPartitionBatch_queues success
        (fun p found => mode.indexed there found) group handed
      refine ⟨p, q, ?_, ?_, queued⟩
      · rw [partition?_of_topic there, found]
        rfl
      · rw [partition?_of_topic there', after, found']
        rfl
    · cases success

end Broker

inductive ProducePath where
  | grpc
  | http
  deriving DecidableEq

namespace ProducePath

/-- The message of a request without a list, if it is accepted: the priority
requested, the partition and the offset. -/
def acceptedSingle (b : Broker) (req : ProduceRequest) (env : HandlerEnv) :
    List (UInt32 × Int × Nat) :=
  ((Broker.publishWith env.snap b req.topic
    (ProduceMessage.toMessage env.now ⟨req.key, req.value, req.priority⟩)
      env.publish).1.toOption.map fun stored => (req.priority, stored.1, stored.2)).toList

/-- The messages of a list that are accepted. -/
def acceptedBatch (b : Broker) (req : ProduceRequest) (env : HandlerEnv) :
    List (UInt32 × Int × Nat) :=
  let published := Broker.publishBatchWith env.snap b req.topic
    (req.messages.map (ProduceMessage.toMessage env.now)) env.batch
  ((req.messages.zip published.1).filter fun entry => entry.2.err.isNone).map fun entry =>
    (entry.1.priority, entry.2.partition, entry.2.offset)

def accepted (b : Broker) (req : ProduceRequest) (env : HandlerEnv) :
    ProducePath → List (UInt32 × Int × Nat)
  | .grpc => if 0 < req.messages.length then acceptedBatch b req env else acceptedSingle b req env
  | .http => acceptedBatch b req env

/-- The broker after the request. -/
def after (b : Broker) (req : ProduceRequest) (env : HandlerEnv) : ProducePath → Broker
  | .grpc => (Server.produce b req env).2
  | .http => (HTTPServer.handleProduce b req.topic (some req.messages) env).2

/-- A message that is accepted with this priority is queued at the level the
priority asks for, whatever the broker and the rest of the request. -/
def QueuesAsRequested (path : ProducePath) (priority : UInt32) : Prop :=
  ∀ (b : Broker) (req : ProduceRequest) (env : HandlerEnv), b.PriorityMode req.topic →
    ∀ (id : Int) (offset : Nat), (priority, id, offset) ∈ path.accepted b req env →
      b.Queues (path.after b req env) req.topic id offset (requestedLevel priority)

section Accepted

variable {b : Broker} {req : ProduceRequest} {env : HandlerEnv} {priority : UInt32} {id : Int}
  {offset : Nat}

theorem acceptedSingle_queued (mode : b.PriorityMode req.topic)
    (member : (priority, id, offset) ∈ acceptedSingle b req env) :
    b.Queues (Server.produceSingle b req env).2 req.topic id offset
      (clampLevel priority.toUInt8.toNat) := by
  unfold acceptedSingle at member
  unfold Server.produceSingle
  generalize arrived : ProduceMessage.toMessage env.now ⟨req.key, req.value, req.priority⟩ = msg
    at member ⊢
  have header : msg.header.priority = req.priority.toUInt8 := by
    rw [← arrived]
    rfl
  rcases published : Broker.publishWith env.snap b req.topic msg env.publish with
    ⟨cause | ⟨id', offset'⟩, msg', b'⟩
  · rw [published] at member
    cases member
  · simp only [published, Except.toOption, Option.map_some, Option.toList_some,
      List.mem_singleton, Prod.mk.injEq] at member
    obtain ⟨rfl, rfl, rfl⟩ := member
    simp only [published]
    rw [← header]
    exact Broker.publishWith_queues mode published

theorem acceptedBatch_queued (mode : b.PriorityMode req.topic)
    (member : (priority, id, offset) ∈ acceptedBatch b req env) :
    b.Queues (Server.produceBatch b req env).2 req.topic id offset
      (clampLevel priority.toUInt8.toNat) := by
  unfold acceptedBatch at member
  obtain ⟨⟨m, r⟩, inside, same⟩ := List.mem_map.mp member
  obtain ⟨rfl, rest⟩ := Prod.mk.inj same
  obtain ⟨rfl, rfl⟩ := Prod.mk.inj rest
  obtain ⟨zipped, clean⟩ := List.mem_filter.mp inside
  obtain ⟨i, at_i⟩ := List.mem_iff_getElem?.mp zipped
  obtain ⟨at_m, result⟩ := List.getElem?_zip_eq_some.mp at_i
  have at_msg : (req.batchCall env).msgs[i]? = some (m.toMessage env.now) := by
    rw [ProduceRequest.batchCall, List.getElem?_map, at_m]
    rfl
  have queued := Broker.publishBatchWith_queues (req.batchCall env) mode at_msg result
    (Option.isNone_iff_eq_none.mp clean)
  have header : (m.toMessage env.now).header.priority = m.priority.toUInt8 := rfl
  rw [header] at queued
  exact queued

theorem accepted_queued (path : ProducePath) (mode : b.PriorityMode req.topic)
    (member : (priority, id, offset) ∈ path.accepted b req env) :
    b.Queues (path.after b req env) req.topic id offset
      (clampLevel priority.toUInt8.toNat) := by
  cases path with
  | grpc =>
    unfold accepted at member
    unfold after Server.produce
    by_cases listed : 0 < req.messages.length
    · simp only [if_pos listed] at member ⊢
      exact acceptedBatch_queued mode member
    · simp only [if_neg listed] at member ⊢
      exact acceptedSingle_queued mode member
  | http =>
    unfold accepted at member
    unfold after
    rw [handleProduce_broker]
    exact acceptedBatch_queued mode member

end Accepted

/-! ## A new topic -/

/-- A broker with a priority topic of one partition. -/
def newTopic : Broker :=
  let b := Broker.new sampleLibrary defaultConfig none
  (b.createTopic [116] .strictPriority [Log.empty]).getD b

/-- One message of the priority given, for either transport. -/
def oneMessage (path : ProducePath) (priority : UInt32) : ProduceRequest where
  topic := [116]
  value := [118]
  priority := priority
  messages := if path = .http then [⟨[], [118], priority⟩] else []

theorem newTopic_indexed : newTopic.PriorityMode [116] := by
  intro t p there member
  cases there
  have only : p = { Partition.new 0 Log.empty .strictPriority with batchCodec := none } :=
    List.mem_singleton.mp member
  exact ⟨newPriorityIndex 50000, by rw [only]; rfl⟩

variable (path : ProducePath) (priority : UInt32)

theorem oneMessage_accepted :
    (priority, 0, 1) ∈ path.accepted newTopic (oneMessage path priority)
      (plainHandler newTopic) := by
  cases path with
  | grpc => exact List.mem_singleton.mpr rfl
  | http => exact List.mem_singleton.mpr rfl

theorem oneMessage_stored :
    (newTopic.partition? [116] 0).map Partition.nextOffset = some 1 ∧
      ((path.after newTopic (oneMessage path priority) (plainHandler newTopic)).partition? [116]
        0).map Partition.nextOffset = some 2 := by
  cases path with
  | grpc => exact ⟨rfl, rfl⟩
  | http => exact ⟨rfl, rfl⟩

theorem oneMessage_level_unique {level level' : Level}
    (queued : newTopic.Queues (path.after newTopic (oneMessage path priority)
      (plainHandler newTopic)) [116] 0 1 level)
    (queued' : newTopic.Queues (path.after newTopic (oneMessage path priority)
      (plainHandler newTopic)) [116] 0 1 level') : level = level' := by
  obtain ⟨before, after⟩ := oneMessage_stored path priority
  obtain ⟨p, q, there, there', at_level⟩ := queued
  obtain ⟨p', q', again, again', at_level'⟩ := queued'
  cases there.symm.trans again
  cases there'.symm.trans again'
  rw [there, Option.map_some, Option.some.injEq] at before
  rw [there', Option.map_some, Option.some.injEq] at after
  have indexed : p.priorityIndex = some (newPriorityIndex 50000) := by
    have found : newTopic.partition? [116] 0 =
      some { Partition.new 0 Log.empty .strictPriority with batchCodec := none } := rfl
    cases there.symm.trans found
    rfl
  exact at_level.level_unique indexed (PriorityIndex.newPriorityIndex_contents _) (by omega) at_level'

/-- On either transport a priority is clamped to the levels exactly when its
low eight bits are: it fits in them, or they are at least the highest level. -/
theorem queued_as_requested_iff (path : ProducePath) (priority : UInt32) :
    path.QueuesAsRequested priority ↔ priority.toNat < 256 ∨ 9 ≤ priority.toNat % 256 := by
  rw [← clampLevel_narrow_iff]
  constructor
  · intro asRequested
    have accepted := oneMessage_accepted path priority
    have queued := asRequested newTopic (oneMessage path priority) (plainHandler newTopic)
      newTopic_indexed 0 1 accepted
    exact oneMessage_level_unique path priority
      (path.accepted_queued newTopic_indexed accepted) queued
  · intro commute b req env mode id offset member
    rw [← commute]
    exact path.accepted_queued mode member

/-- On both transports a request for priority 256 is queued at the lowest level
and not at the highest, so it waits behind a request for priority 1. -/
theorem priority_wraps :
    requestedLevel 256 = 9 ∧ requestedLevel 1 = 1 ∧ ∀ path : ProducePath,
      newTopic.Queues (path.after newTopic (oneMessage path 256) (plainHandler newTopic))
        [116] 0 1 0 ∧
      ¬newTopic.Queues (path.after newTopic (oneMessage path 256) (plainHandler newTopic))
        [116] 0 1 (requestedLevel 256) ∧
      newTopic.Queues (path.after newTopic (oneMessage path 1) (plainHandler newTopic))
        [116] 0 1 1 := by
  have lowest : clampLevel (256 : UInt32).toUInt8.toNat = 0 := by decide
  have second : clampLevel (1 : UInt32).toUInt8.toNat = 1 := by decide
  have highest : requestedLevel 256 = 9 := by decide
  refine ⟨highest, by decide, fun path => ?_⟩
  have queued := path.accepted_queued newTopic_indexed (oneMessage_accepted path 256)
  have queued' := path.accepted_queued newTopic_indexed (oneMessage_accepted path 1)
  rw [lowest] at queued
  rw [second] at queued'
  refine ⟨queued, fun asRequested => ?_, queued'⟩
  have same := oneMessage_level_unique path 256 queued asRequested
  rw [highest] at same
  exact absurd same (by decide)

end ProducePath

end NyaQueue
