import NyaQueue.FifoContract
import NyaQueue.ProduceOutcomes

/-!
# Messages after a publish that failed

`Publish` and `PublishBatch` work on the caller's messages: compression
overwrites the value in place before the topic lookup, the backpressure check
or the write can still fail.  This module says what a call leaves in a message,
and when a message that was rejected still has its key and value.
-/

set_option autoImplicit false

namespace NyaQueue

/-- `m'` has the key and the value of `m`. -/
structure SameContent (m m' : Message) : Prop where
  key : m'.key = m.key
  value : m'.value = m.value

theorem SameContent.refl (m : Message) : SameContent m m := ⟨rfl, rfl⟩

/-! ## What a batch leaves -/

/-- The loop that compresses the values of a group in place; it stops at the
first value that the codec refuses. -/
def encodeInPlace (codec : Codec) : List Message → Option CodecError × List Message
  | [] => (none, [])
  | m :: rest =>
      match codec.encode m.value with
      | .error cause => (some cause, m :: rest)
      | .ok packed =>
          let later := encodeInPlace codec rest
          (later.1, { m with value := packed } :: later.2)

theorem encodeValues_eq_inPlace (codec : Codec) (msgs : List Message) :
    encodeValues codec msgs = match (encodeInPlace codec msgs).1 with
      | some cause => .error cause
      | none => .ok (encodeInPlace codec msgs).2 := by
  induction msgs with
  | nil => rfl
  | cons m rest ih =>
    rw [encodeValues, encodeInPlace]
    cases codec.encode m.value with
    | error cause => rfl
    | ok packed =>
      simp only [ih]
      cases (encodeInPlace codec rest).1 <;> rfl

/-- The messages of a group as `appendPartitionBatch` leaves them. -/
def appendPartitionBatchLeaves (snap : ConfigSnapshot) (t : Topic) (partIdx : Int)
    (msgs : List Message) (env : AppendEnv) : List Message :=
  match t.partition partIdx with
  | .error _ => msgs
  | .ok _ =>
      if snap.cfg.compressionType ≠ compressionNone ∧ 1 < msgs.length then
        msgs.map fun m => m.stamp env.appendTime
      else if snap.cfg.compressionType ≠ compressionNone then
        let packed := encodeInPlace snap.codec msgs
        match packed.1 with
        | some _ => packed.2
        | none => packed.2.map fun m => m.stamp env.appendTime
      else msgs.map fun m => m.stamp env.appendTime

namespace Broker

/-- The messages of a group after its turn. -/
def BatchCall.groupLeft (call : BatchCall) (t : Topic) (partIdx : Int) : List Message :=
  let msgs := (call.members partIdx).map Prod.fst
  if call.keys.length = 1 ∨ call.env.gate partIdx = true then
    appendPartitionBatchLeaves call.snap t partIdx msgs (call.env.append partIdx)
  else msgs

/-- Message `m` at position `i` as `PublishBatch` leaves it.  Groups share
neither messages nor partitions, so only its own group touches it. -/
def BatchCall.left (call : BatchCall) (b : Broker) (name : Bytes) (i : Nat) (m : Message) :
    Message :=
  match b.topics name with
  | none => m
  | some t =>
      if tooLarge call.snap.cfg m then m
      else
        let m := m.stampProduce call.env.produceTime
        match ((call.members (call.env.partIdx i)).map Prod.snd).idxOf? i with
        | none => m
        | some j => (call.groupLeft t (call.env.partIdx i)).getD j m

/-- Message `m` at position `i` is alone in its group, and its value is
compressed to `packed` before the write to `p`. -/
structure BatchCall.Packs (call : BatchCall) (b : Broker) (name : Bytes) (i : Nat) (m : Message)
    (packed : Bytes) (t : Topic) (p : Partition) : Prop where
  compressed : call.snap.cfg.compressionType ≠ compressionNone
  encoded : call.snap.codec.encode m.value = .ok packed
  small : tooLarge call.snap.cfg m = false
  accepting : call.env.throttled i = false
  alone : (call.members (call.env.partIdx i)).length = 1
  topic : b.topics name = some t
  slot : call.keys.length = 1 ∨ call.env.gate (call.env.partIdx i) = true
  partition : t.partition (call.env.partIdx i) = .ok p

variable {call : BatchCall} {b : Broker} {name : Bytes} {i : Nat} {m : Message}

variable {id : Int} {t : Topic} {p : Partition} {packed : Bytes}

theorem exists_position (here : call.env.partIdx i = id) (at_i : call.msgs[i]? = some m)
    (clean : (call.check i m).err = none) :
    ∃ j, ((call.members id).map Prod.snd).idxOf? i = some j ∧
      (call.members id)[j]? = some (m.stampProduce call.env.produceTime, i) := by
  have member : (m.stampProduce call.env.produceTime, i) ∈ call.members id :=
    (mem_group_iff ..).mpr ⟨m, at_i, clean, here, rfl⟩
  have listed : i ∈ (call.members id).map Prod.snd := List.mem_map.mpr ⟨_, member, rfl⟩
  cases position : ((call.members id).map Prod.snd).idxOf? i with
  | none => exact absurd listed (List.idxOf?_eq_none_iff.mp position)
  | some j =>
    obtain ⟨inside, at_j, -⟩ := List.idxOf?_eq_some_iff.mp position
    rw [List.length_map] at inside
    rw [List.getElem_map] at at_j
    have found := List.getElem_mem inside
    refine ⟨j, rfl, ?_⟩
    rw [List.getElem?_eq_getElem inside]
    cases entry : (call.members id)[j] with
    | mk m' k =>
      rw [entry] at at_j found
      obtain rfl : k = i := at_j
      obtain ⟨m₀, at_k, -, -, rfl⟩ := (mem_group_iff ..).mp found
      rw [at_i] at at_k
      cases at_k
      rfl

theorem position_of_failed (at_i : call.msgs[i]? = some m)
    (failed : (call.check i m).err ≠ none) :
    ((call.members (call.env.partIdx i)).map Prod.snd).idxOf? i = none := by
  rw [List.idxOf?_eq_none_iff]
  intro member
  obtain ⟨⟨m', k⟩, inside, rfl⟩ := List.mem_map.mp member
  obtain ⟨m₀, at_k, passed, -, -⟩ := (mem_group_iff ..).mp inside
  rw [at_i] at at_k
  cases at_k
  exact failed passed

variable (snap : ConfigSnapshot)

theorem appendPartitionBatchLeaves_of_kept (t : Topic) (partIdx : Int) {msgs : List Message}
    (env : AppendEnv) (kept : snap.cfg.compressionType = compressionNone ∨ 1 < msgs.length ∨
      ∀ p, t.partition partIdx ≠ .ok p) {j : Nat} {m : Message} (at_j : msgs[j]? = some m) :
    ∃ m', (appendPartitionBatchLeaves snap t partIdx msgs env)[j]? = some m' ∧
      SameContent m m' := by
  have stamped : ∃ m', (msgs.map fun m => m.stamp env.appendTime)[j]? = some m' ∧
      SameContent m m' :=
    ⟨m.stamp env.appendTime, by rw [List.getElem?_map, at_j]; rfl, rfl, rfl⟩
  unfold appendPartitionBatchLeaves
  cases found : t.partition partIdx with
  | error bounds => exact ⟨m, at_j, .refl m⟩
  | ok p =>
    dsimp only
    split
    · exact stamped
    · rename_i single
      split
      · rename_i compressed
        rcases kept with plain | many | missing
        · exact absurd plain compressed
        · exact absurd ⟨compressed, many⟩ single
        · exact absurd found (missing p)
      · exact stamped

theorem appendPartitionBatchLeaves_single {partIdx : Int} (found : t.partition partIdx = .ok p)
    (compressed : snap.cfg.compressionType ≠ compressionNone) (m : Message) (env : AppendEnv) :
    appendPartitionBatchLeaves snap t partIdx [m] env = match snap.codec.encode m.value with
      | .error _ => [m]
      | .ok packed => [({ m with value := packed } : Message).stamp env.appendTime] := by
  have single : ¬ (snap.cfg.compressionType ≠ compressionNone ∧ 1 < [m].length) := by simp
  unfold appendPartitionBatchLeaves
  simp only [found]
  rw [if_neg single, if_pos compressed]
  unfold encodeInPlace
  cases snap.codec.encode m.value <;> rfl

theorem members_of_alone (here : call.env.partIdx i = id) (at_i : call.msgs[i]? = some m)
    (clean : (call.check i m).err = none) (alone : (call.members id).length = 1) :
    call.members id = [(m.stampProduce call.env.produceTime, i)] := by
  obtain ⟨only, single⟩ := List.length_eq_one_iff.mp alone
  have member : (m.stampProduce call.env.produceTime, i) ∈ call.members id :=
    (mem_group_iff ..).mpr ⟨m, at_i, clean, here, rfl⟩
  rw [single, List.mem_singleton] at member
  rw [single, member]

/-- What the group of a message leaves in it: the message as it was, or with the
value that the codec made of it. -/
theorem groupLeft_cases (here : call.env.partIdx i = id) (at_i : call.msgs[i]? = some m)
    (clean : (call.check i m).err = none) {j : Nat}
    (at_j : (call.members id)[j]? = some (m.stampProduce call.env.produceTime, i)) :
    (∃ m', (call.groupLeft t id)[j]? = some m' ∧ SameContent m m') ∨
    ∃ packed p, call.snap.cfg.compressionType ≠ compressionNone ∧
      call.snap.codec.encode m.value = .ok packed ∧ (call.members id).length = 1 ∧
      (call.keys.length = 1 ∨ call.env.gate id = true) ∧ t.partition id = .ok p := by
  have listed : ((call.members id).map Prod.fst)[j]? =
      some (m.stampProduce call.env.produceTime) := by
    rw [List.getElem?_map, at_j]
    rfl
  unfold BatchCall.groupLeft
  by_cases slot : call.keys.length = 1 ∨ call.env.gate id = true
  · rw [if_pos slot]
    by_cases kept : call.snap.cfg.compressionType = compressionNone ∨
        1 < ((call.members id).map Prod.fst).length ∨ ∀ p, t.partition id ≠ .ok p
    · obtain ⟨m', left, same⟩ :=
        appendPartitionBatchLeaves_of_kept call.snap t id (call.env.append id) kept listed
      exact .inl ⟨m', left, same.key, same.value⟩
    · obtain ⟨compressed, few, found⟩ : call.snap.cfg.compressionType ≠ compressionNone ∧
          ¬ 1 < ((call.members id).map Prod.fst).length ∧ ¬ ∀ p, t.partition id ≠ .ok p := by
        simpa only [not_or] using kept
      obtain ⟨p, there⟩ := not_forall_not.mp found
      have alone : (call.members id).length = 1 := by
        have := (List.getElem?_eq_some_iff.mp at_j).1
        rw [List.length_map] at few
        omega
      cases encoded : call.snap.codec.encode m.value with
      | error cause =>
        refine .inl ⟨m.stampProduce call.env.produceTime, ?_, rfl, rfl⟩
        have single := members_of_alone here at_i clean alone
        have first : j = 0 := by
          have := (List.getElem?_eq_some_iff.mp at_j).1
          omega
        have value : (m.stampProduce call.env.produceTime).value = m.value := rfl
        rw [single, List.map_singleton, appendPartitionBatchLeaves_single call.snap there compressed,
          value, encoded, first]
        rfl
      | ok packed => exact .inr ⟨packed, p, compressed, rfl, alone, slot, there⟩
  · rw [if_neg slot]
    exact .inl ⟨_, listed, rfl, rfl⟩

theorem left_same_or_packed (at_i : call.msgs[i]? = some m) :
    SameContent m (call.left b name i m) ∨ ∃ packed t p, call.Packs b name i m packed t p := by
  unfold BatchCall.left
  cases there : b.topics name with
  | none => exact .inl (.refl m)
  | some t =>
    dsimp only
    cases large : tooLarge call.snap.cfg m with
    | true => exact .inl (.refl m)
    | false =>
      rw [if_neg Bool.false_ne_true]
      by_cases clean : (call.check i m).err = none
      · obtain ⟨j, position, at_j⟩ := exists_position rfl at_i clean
        have accepting := ((checkMessage_clean_iff ..).mp clean).2
        rw [position]
        rcases groupLeft_cases (t := t) rfl at_i clean at_j with
          ⟨m', left, same⟩ | ⟨packed, p, compressed, encoded, alone, slot, found⟩
        · left
          simp only [List.getD_eq_getElem?_getD, left, Option.getD_some]
          exact same
        · exact .inr ⟨packed, t, p, compressed, encoded, large, accepting, alone, there, slot,
            found⟩
      · rw [position_of_failed at_i clean]
        exact .inl ⟨rfl, rfl⟩

theorem BatchCall.Packs.clean (packs : call.Packs b name i m packed t p) :
    (call.check i m).err = none :=
  (checkMessage_clean_iff ..).mpr ⟨packs.small, packs.accepting⟩

theorem left_of_packs (at_i : call.msgs[i]? = some m) (packs : call.Packs b name i m packed t p) :
    (call.left b name i m).key = m.key ∧ (call.left b name i m).value = packed := by
  have single := members_of_alone rfl at_i packs.clean packs.alone
  have value : (m.stampProduce call.env.produceTime).value = m.value := rfl
  have position : ([(m.stampProduce call.env.produceTime, i)].map Prod.snd).idxOf? i = some 0 := by
    simp [List.idxOf?_cons]
  unfold BatchCall.left BatchCall.groupLeft
  simp only [packs.topic, packs.small, single, position]
  rw [if_pos packs.slot, List.map_singleton,
    appendPartitionBatchLeaves_single call.snap packs.partition packs.compressed, value,
    packs.encoded]
  exact ⟨rfl, rfl⟩

theorem accepts_of_packs_iff (at_i : call.msgs[i]? = some m)
    (packs : call.Packs b name i m packed t p) : call.Accepts b name i ↔
      p.Writable 1 (call.env.append (call.env.partIdx i)).disk := by
  constructor
  · rintro ⟨t', m', topic, -, -, -, admits⟩
    obtain ⟨p', found, -, writable⟩ := admits.written
    cases packs.topic.symm.trans topic
    cases packs.partition.symm.trans found
    rwa [packs.alone] at writable
  · intro writable
    refine ⟨t, m, packs.topic, at_i, packs.small, packs.accepting, packs.slot, p, packs.partition,
      ?_, packs.alone.symm ▸ writable⟩
    have single := members_of_alone rfl at_i packs.clean packs.alone
    have value : (m.stampProduce call.env.produceTime).value = m.value := rfl
    simp [Encodable, usesBatch, encodedGroup, single, encodeValues, value, packs.encoded,
      packs.compressed]

/-- A message at risk: it is compressed for itself to something else, and the
log cannot be written. -/
def BatchCall.Exposed (call : BatchCall) (b : Broker) (name : Bytes) (i : Nat) (m : Message) :
    Prop :=
  ∃ packed t p, call.Packs b name i m packed t p ∧ packed ≠ m.value ∧
    ¬ p.Writable 1 (call.env.append (call.env.partIdx i)).disk

theorem batch_reusable_iff (at_i : call.msgs[i]? = some m) {r : PublishResult}
    (result : (publishBatchWith call.snap b name call.msgs call.env).1[i]? = some r) :
    (r.err ≠ none → SameContent m (call.left b name i m)) ↔ ¬ call.Exposed b name i m := by
  have accepted := result_clean_iff call result
  constructor
  · rintro reusable ⟨packed, t, p, packs, changed, stuck⟩
    have rejected : r.err ≠ none := by
      rw [ne_eq, accepted, accepts_of_packs_iff at_i packs]
      exact stuck
    exact changed ((left_of_packs at_i packs).2.symm.trans (reusable rejected).value)
  · intro safe rejected
    rcases left_same_or_packed at_i with same | ⟨packed, t, p, packs⟩
    · exact same
    · obtain ⟨key, value⟩ := left_of_packs at_i packs
      by_cases same : packed = m.value
      · exact ⟨key, value.trans same⟩
      · refine absurd ⟨packed, t, p, packs, same, fun writable => rejected ?_⟩ safe
        rw [accepted, accepts_of_packs_iff at_i packs]
        exact writable

/-! ## What `Publish` leaves -/

/-- The publish gets to a partition whose log can be written. -/
def Written (b : Broker) (name : Bytes) (env : PublishEnv) : Prop :=
  ∃ t p, b.topics name = some t ∧ env.throttled = false ∧ t.partition env.partIdx = .ok p ∧
    p.Writable 1 env.append.disk

/-- A message at risk: it is compressed to something else, and not stored. -/
def PublishExposed (snap : ConfigSnapshot) (b : Broker) (name : Bytes) (msg : Message)
    (env : PublishEnv) : Prop :=
  tooLarge snap.cfg msg = false ∧
    (∃ packed, snap.codec.encode msg.value = .ok packed ∧ packed ≠ msg.value) ∧
    ¬ b.Written name env

theorem publishWith_of_packed {snap : ConfigSnapshot} (b : Broker) (name : Bytes) {msg : Message}
    (env : PublishEnv) (small : tooLarge snap.cfg msg = false)
    (encoded : snap.codec.encode msg.value = .ok packed) :
    (publishWith snap b name msg env).2.1.key = msg.key ∧
      (publishWith snap b name msg env).2.1.value = packed ∧
      ((∃ cause, (publishWith snap b name msg env).1 = .error cause) ↔ ¬ b.Written name env) := by
  unfold publishWith Written
  rw [if_neg (by simp [small])]
  simp only [encoded]
  cases there : b.topics name with
  | none => exact ⟨rfl, rfl, by simp⟩
  | some t =>
    dsimp only
    cases throttled : env.throttled with
    | true => exact ⟨rfl, rfl, by simp⟩
    | false =>
      rw [if_neg Bool.false_ne_true]
      cases found : t.partition env.partIdx with
      | error bounds => exact ⟨rfl, rfl, by simp [found]⟩
      | ok p =>
        have ran := (AppendCall.plain
          [({ msg with value := packed } : Message).stampProduce env.produceTime]
          env.append).run_ok_iff p (by simp [AppendCall.msgs])
        simp only [AppendCall.run, AppendCall.batch, AppendCall.msgs, AppendCall.env,
          Except.ok.injEq, exists_eq', true_and, List.length_singleton] at ran
        simp only [Option.some.injEq, true_and, exists_and_left, exists_eq_left', found,
          Except.ok.injEq, ← ran]
        cases (p.appendBatch [({ msg with value := packed } : Message).stampProduce
          env.produceTime] env.append).1 with
        | error cause => exact ⟨rfl, rfl, by simp⟩
        | ok offsets => exact ⟨rfl, rfl, by simp⟩

theorem publish_reusable_iff (b : Broker) (name : Bytes) (msg : Message) (env : PublishEnv) :
    ((∃ cause, (publishWith snap b name msg env).1 = .error cause) →
      SameContent msg (publishWith snap b name msg env).2.1) ↔
      ¬ PublishExposed snap b name msg env := by
  cases large : tooLarge snap.cfg msg with
  | true =>
    have result : (publishWith snap b name msg env).2.1 = msg := by
      rw [publishWith, if_pos large]
    simp [PublishExposed, large, result, SameContent.refl]
  | false =>
    cases encoded : snap.codec.encode msg.value with
    | error cause =>
      have result : (publishWith snap b name msg env).2.1 = msg := by
        rw [publishWith, if_neg (by simp [large])]
        simp only [encoded]
      simp [PublishExposed, encoded, result, SameContent.refl]
    | ok packed =>
      obtain ⟨key, value, rejected⟩ := publishWith_of_packed b name env large encoded
      rw [rejected]
      constructor
      · rintro reusable ⟨-, ⟨packed', encoded', changed⟩, unwritten⟩
        cases encoded.symm.trans encoded'
        exact changed (value.symm.trans (reusable unwritten).value)
      · intro safe unwritten
        by_cases same : packed = msg.value
        · exact ⟨key, value.trans same⟩
        · exact absurd ⟨large, ⟨packed, encoded, same⟩, unwritten⟩ safe

/-- A message that `Publish` or `PublishBatch` rejects has kept its key and
value, except where it was compressed to something else before the call failed:
by `Publish` whenever it is not written, by `PublishBatch` when it is alone in
its group and the log cannot be written. -/
theorem rejected_message_kept_iff (b : Broker) (name : Bytes) :
    (∀ (snap : ConfigSnapshot) (msg : Message) (env : PublishEnv),
      ((∃ cause, (publishWith snap b name msg env).1 = .error cause) →
        SameContent msg (publishWith snap b name msg env).2.1) ↔
        ¬ PublishExposed snap b name msg env) ∧
    ∀ (call : BatchCall) (i : Nat) (m : Message) (r : PublishResult),
      call.msgs[i]? = some m →
      (publishBatchWith call.snap b name call.msgs call.env).1[i]? = some r →
      ((r.err ≠ none → SameContent m (call.left b name i m)) ↔ ¬ call.Exposed b name i m) :=
  ⟨fun snap msg env => publish_reusable_iff snap b name msg env,
    fun _ _ _ _ at_i result => batch_reusable_iff at_i result⟩

/-- A throttled publish leaves the snappy block in the message, so that
publishing it again stores the block as the value: consumers get the block.  A
batch of one message whose write fails leaves it there as well. -/
theorem rejected_publish_spoils_message :
    let b := sampleTopic compressionSnappy .fifo
    let m := sampleMessage 5 7 118
    let first := b.publish [116] m ⟨0, true, 8, steadyEnv 9⟩
    let retry := b.publish [116] first.2.1 ⟨0, false, 8, steadyEnv 9⟩
    let call : BatchCall := ⟨b.snap, [m], ⟨8, fun _ => 0, fun _ => false, fun _ => true,
      fun _ => { steadyEnv 9 with disk := false }⟩⟩
    (first.1 = .error .throttled ∧ m.value = [118] ∧ first.2.1.value = [1, 0, 118] ∧
      retry.1 = .ok (0, 1) ∧
      (retry.2.2.consumeFrom [116] 0 1 0).1.map (fun found => found.1.value) =
        .ok [1, 0, 118]) ∧
    (publishBatchWith call.snap b [116] call.msgs call.env).1.map PublishResult.err =
      [some (.append 0 (.walWriteBatch .writeFailed))] ∧
    (call.left b [116] 0 m).value = [1, 0, 118] := by
  decide +kernel

end Broker

end NyaQueue
