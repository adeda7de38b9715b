import NyaQueue.FifoContract

/-!
# Values come back as they were published

Runs of publishes and config changes on one FIFO topic.  A publish writes with
the snapshot it has loaded, which may have been replaced since; `ConsumeFrom`
decodes with the current one; a compressed batch is decoded with the codec the
partition got when the topic was created.  The run keeps a list of what has
been acknowledged, to be compared with what `ConsumeFrom` returns.
-/

set_option autoImplicit false

namespace NyaQueue

/-- A message whose publish has been acknowledged, and whether it was written
in a group compressed as a whole. -/
structure Acked where
  partIdx : Int
  offset : Nat
  key : Bytes
  value : Bytes
  batched : Bool
  deriving DecidableEq

/-- `loaded` holds every snapshot that has been current; a call works with one
of them, given by its position. -/
structure ValueRun where
  broker : Broker
  loaded : List ConfigSnapshot
  acked : List Acked

inductive ValueEvent where
  | publish (loaded : Nat) (msg : Message) (env : PublishEnv)
  | publishGroup (loaded : Nat) (partIdx : Int) (msgs : List Message) (env : AppendEnv)
  | applyConfig (cfg : Config)
  | consumeFrom (partIdx : Int) (offset : Nat) (threshold : Int)

def acks (partIdx : Int) (batched : Bool) (msgs : List Message) (offsets : List Nat) :
    List Acked :=
  List.zipWith (fun m offset => ⟨partIdx, offset, m.key, m.value, batched⟩) msgs offsets

namespace ValueRun

def start (b : Broker) : ValueRun where
  broker := b
  loaded := [b.snap]
  acked := []

/-- `Publish`, working with the snapshot `snap`. -/
def publish (s : ValueRun) (name : Bytes) (snap : ConfigSnapshot) (msg : Message)
    (env : PublishEnv) : ValueRun :=
  match Broker.publishWith snap s.broker name msg env with
  | (.error _, _, b) => { s with broker := b }
  | (.ok (partIdx, offset), _, b) =>
      { s with broker := b, acked := s.acked ++ acks partIdx false [msg] [offset] }

/-- One group of a `PublishBatch` that works with the snapshot `snap`. -/
def publishGroup (s : ValueRun) (name : Bytes) (snap : ConfigSnapshot) (partIdx : Int)
    (msgs : List Message) (env : AppendEnv) : ValueRun :=
  match s.broker.topics name with
  | none => s
  | some t =>
      match appendPartitionBatch snap t partIdx msgs env with
      | (.error _, t') => { s with broker := s.broker.setTopic name t' }
      | (.ok offsets, t') =>
          { s with
            broker := s.broker.setTopic name t'
            acked := s.acked ++ acks partIdx (usesBatch snap msgs) msgs offsets }

def applyConfig (lib : CodecLibrary) (s : ValueRun) (cfg : Config) : ValueRun :=
  let b := (Broker.applyConfig lib s.broker cfg).2
  { s with broker := b, loaded := s.loaded ++ [b.snap] }

def step (lib : CodecLibrary) (name : Bytes) (s : ValueRun) : ValueEvent → ValueRun
  | .publish loaded msg env =>
      match s.loaded[loaded]? with
      | none => s
      | some snap => s.publish name snap msg env
  | .publishGroup loaded partIdx msgs env =>
      match s.loaded[loaded]? with
      | none => s
      | some snap => s.publishGroup name snap partIdx msgs env
  | .applyConfig cfg => s.applyConfig lib cfg
  | .consumeFrom partIdx offset threshold =>
      { s with broker := (s.broker.consumeFrom name partIdx offset threshold).2 }

/-- Every acknowledged message comes back from its offset with its key and value. -/
def Faithful (name : Bytes) (s : ValueRun) : Prop :=
  ∀ a ∈ s.acked, ∀ threshold, ∃ m,
    (s.broker.consumeFrom name a.partIdx a.offset threshold).1 = .ok (m, a.offset + 1) ∧
      m.key = a.key ∧ m.value = a.value

/-- What the fields of a record can hold of a message stored on its own: its
first byte is not that of a batch or a redirect, and its key is not too long. -/
def Storable (m : Message) : Prop := PlainPriority m ∧ m.key.length < 2 ^ 32

instance storableDecidable (m : Message) : Decidable (Storable m) :=
  inferInstanceAs (Decidable (_ ∧ _))

/-- The condition under which a step keeps the values: messages stored on their
own are written with the compression type that is current, groups compressed as
a whole with the type the topic was created with, and the type is only changed
while no message is stored on its own. -/
def Compatible (created : Int) (s : ValueRun) : ValueEvent → Prop
  | .publish loaded msg _ => ∀ snap, s.loaded[loaded]? = some snap →
      snap.cfg.compressionType = s.broker.snap.cfg.compressionType ∧ Storable msg
  | .publishGroup loaded _ msgs _ => ∀ snap, s.loaded[loaded]? = some snap →
      if usesBatch snap msgs then
        snap.cfg.compressionType = created ∧ msgs.length < 2 ^ 32 ∧
          ∀ m ∈ msgs, m.encodedSize < 2 ^ 32
      else snap.cfg.compressionType = s.broker.snap.cfg.compressionType ∧ ∀ m ∈ msgs, Storable m
  | .applyConfig cfg => cfg.validate = .ok () →
      cfg.compressionType = s.broker.snap.cfg.compressionType ∨ ∀ a ∈ s.acked, a.batched = true
  | .consumeFrom _ _ _ => True

/-! ## The invariant -/

/-- The record at the offset of `a` still holds its key and value; a value
stored on its own is encoded with the compression type given. -/
def Kept (lib : CodecLibrary) (compressionType : Int) (p : Partition) (a : Acked) : Prop :=
  ∃ raw, p.read a.offset = .ok raw ∧ raw.key = a.key ∧ raw.batchDecoded = a.batched ∧
    if a.batched then raw.value = a.value
    else (newCodec lib compressionType).encode a.value = .ok raw.value

def Coherent (lib : CodecLibrary) (snap : ConfigSnapshot) : Prop :=
  snap.codec = newCodec lib snap.cfg.compressionType

structure Inv (lib : CodecLibrary) (created : Int) (name : Bytes) (s : ValueRun) : Prop where
  snap : Coherent lib s.broker.snap
  loaded : ∀ snap ∈ s.loaded, Coherent lib snap
  scheduler : s.broker.schedulers name = some .fifo
  topic : ∃ t, s.broker.topics name = some t ∧
    (∀ id p, t.partition id = .ok p → p.Ahead ∧
      (created ≠ compressionNone → p.batchCodec = some (newCodec lib created))) ∧
    ∀ a ∈ s.acked, ∃ p, t.partition a.partIdx = .ok p ∧
      Kept lib s.broker.snap.cfg.compressionType p a

section Steps

variable {lib : CodecLibrary} {created : Int} {name : Bytes} {s : ValueRun} {a : Acked}
  {p q : Partition}

variable {compressionType partIdx : Int} {msgs : List Message} {offsets : List Nat}

theorem Kept.grow (kept : Kept lib compressionType p a) (grown : p.Extends q) :
    Kept lib compressionType q a := by
  obtain ⟨raw, read, rest⟩ := kept
  exact ⟨raw, Partition.read_of_extends grown read, rest⟩

theorem Kept.retype (kept : Kept lib compressionType p a) (batched : a.batched = true)
    (compressionType' : Int) : Kept lib compressionType' p a := by
  obtain ⟨raw, read, key, decoded, value⟩ := kept
  refine ⟨raw, read, key, decoded, ?_⟩
  rw [batched] at value ⊢
  exact value

theorem inv_append (inv : Inv lib created name s) {t t' : Topic}
    (there : s.broker.topics name = some t) (appended : t.Appended t') (new : List Acked)
    (kept : ∀ a ∈ new, ∃ p', t'.partition a.partIdx = .ok p' ∧
      Kept lib s.broker.snap.cfg.compressionType p' a) :
    Inv lib created name
      { s with broker := s.broker.setTopic name t', acked := s.acked ++ new } := by
  obtain ⟨t₀, there₀, partitions, old⟩ := inv.topic
  rw [there] at there₀
  cases there₀
  refine ⟨inv.snap, inv.loaded, inv.scheduler, t', by simp, ?_, ?_⟩
  · intro id p' found'
    obtain ⟨p, found⟩ := appended.partition_inv found'
    obtain ⟨ahead, codec⟩ := partitions id p found
    obtain ⟨grown, ahead'⟩ := appended.grown found found'
    exact ⟨ahead' ahead, fun compressed => grown.codec.trans (codec compressed)⟩
  · intro a member
    rcases List.mem_append.mp member with before | now
    · obtain ⟨p, found, kept⟩ := old a before
      obtain ⟨p', found'⟩ := appended.partition_of found
      exact ⟨p', found', kept.grow (appended.grown found found').1⟩
    · exact kept a now

theorem mem_acks {batched : Bool} (member : a ∈ acks partIdx batched msgs offsets) :
    ∃ (i : Nat) (m : Message) (offset : Nat), msgs[i]? = some m ∧ offsets[i]? = some offset ∧
      a = ⟨partIdx, offset, m.key, m.value, batched⟩ := by
  obtain ⟨i, at_i⟩ := List.mem_iff_getElem?.mp member
  rw [acks, List.getElem?_zipWith] at at_i
  cases message : msgs[i]? with
  | none => simp [message] at at_i
  | some m =>
    cases position : offsets[i]? with
    | none => simp [message, position] at at_i
    | some offset =>
      simp only [message, position, Option.some.injEq] at at_i
      exact ⟨i, m, offset, message, position, at_i.symm⟩

theorem acks_mem {i : Nat} {m : Message} {offset : Nat} (message : msgs[i]? = some m)
    (position : offsets[i]? = some offset) (partIdx : Int) (batched : Bool) :
    ⟨partIdx, offset, m.key, m.value, batched⟩ ∈ acks partIdx batched msgs offsets := by
  refine List.mem_iff_getElem?.mpr ⟨i, ?_⟩
  rw [acks, List.getElem?_zipWith, message, position]

theorem kept_plain {stored : List Message} {env : AppendEnv}
    (encoded : List.Forall₂ (StoredAs (newCodec lib compressionType)) msgs stored)
    (success : p.appendBatch stored env = (.ok offsets, q)) (storable : ∀ m ∈ msgs, Storable m)
    (member : a ∈ acks partIdx false msgs offsets) :
    a.partIdx = partIdx ∧ Kept lib compressionType q a := by
  obtain ⟨i, m, offset, message, position, rfl⟩ := mem_acks member
  obtain ⟨inside, rfl⟩ := List.getElem?_eq_some_iff.mp message
  have inside' : i < stored.length := encoded.length_eq ▸ inside
  have written : StoredAs _ msgs[i] stored[i] := encoded.get inside inside'
  obtain ⟨plain, short⟩ := storable _ (List.getElem_mem inside)
  have plain' : PlainPriority stored[i] := by
    unfold PlainPriority
    rw [written.priority]
    exact plain
  obtain ⟨offset', position', read⟩ := Partition.read_of_appendBatch success
    (List.getElem?_eq_getElem inside') plain' (written.key ▸ short)
  rw [position] at position'
  cases position'
  exact ⟨rfl, _, read, written.key, rfl, written.value⟩

theorem kept_batch {env : AppendEnv} {codec : Codec} (inverts : codec.Inverts)
    (installed : p.batchCodec = some codec) (count : msgs.length < 2 ^ 32)
    (sizes : ∀ m ∈ msgs, m.encodedSize < 2 ^ 32)
    (success : p.appendBatchCompressed msgs codec env = (.ok offsets, q))
    (member : a ∈ acks partIdx true msgs offsets) (compressionType : Int) :
    a.partIdx = partIdx ∧ Kept lib compressionType q a := by
  obtain ⟨i, m, offset, message, position, rfl⟩ := mem_acks member
  have nonempty : msgs ≠ [] := List.ne_nil_of_mem (List.mem_of_getElem? message)
  obtain ⟨inside, -⟩ := List.getElem?_eq_some_iff.mp message
  obtain ⟨-, -, range, -⟩ := Partition.appendBatchCompressed_records nonempty success
  rw [range, List.getElem?_range' inside, Nat.one_mul] at position
  cases position
  have read := Partition.read_of_appendBatchCompressed nonempty inverts installed count sizes
    success message
  exact ⟨rfl, _, read, rfl, rfl, rfl⟩

theorem inv_acknowledge (inv : Inv lib created name s) {t : Topic}
    (there : s.broker.topics name = some t) (found : t.partition partIdx = .ok p)
    (call : AppendCall) (success : call.run p = (.ok offsets, q)) (new : List Acked)
    (kept : ∀ a ∈ new, a.partIdx = partIdx ∧ Kept lib s.broker.snap.cfg.compressionType q a) :
    Inv lib created name { s with
      broker := s.broker.setTopic name (t.setPartition partIdx q)
      acked := s.acked ++ new } := by
  apply inv_append inv there (.of_run found call success) new
  intro a member
  obtain ⟨here, kept⟩ := kept a member
  exact ⟨q, here ▸ Topic.partition_setPartition_self found q, kept⟩

theorem inv_refuse (inv : Inv lib created name s) {t t' : Topic}
    (there : s.broker.topics name = some t) (appended : t.Appended t') :
    Inv lib created name { s with broker := s.broker.setTopic name t' } := by
  have kept := inv_append inv there appended [] (by simp)
  rw [List.append_nil] at kept
  exact kept

theorem inv_publish (inv : Inv lib created name s) {snap : ConfigSnapshot}
    (coherent : Coherent lib snap)
    (current : snap.cfg.compressionType = s.broker.snap.cfg.compressionType) {msg : Message}
    (storable : Storable msg) (env : PublishEnv) :
    Inv lib created name (s.publish name snap msg env) := by
  obtain ⟨t, there, -⟩ := inv.topic
  unfold publish
  rcases Broker.publishWith_cases snap there msg env with
    ⟨cause, msg', t', result, refused⟩ |
    ⟨offset, msg', p, q, stored, found, result, written, success⟩
  · rw [result]
    exact inv_refuse inv there refused.appended
  · have codec : snap.codec = newCodec lib snap.cfg.compressionType := coherent
    rw [codec, current] at written
    rw [result]
    refine inv_acknowledge inv there found (.plain [stored] env.append) success _ ?_
    intro a member
    exact kept_plain (.cons written .nil) success (by simpa using storable) member

theorem inv_publishGroup (inverts : lib.Inverts) (inv : Inv lib created name s)
    {snap : ConfigSnapshot} (coherent : Coherent lib snap) (partIdx : Int)
    (allowed : if usesBatch snap msgs then
        snap.cfg.compressionType = created ∧ msgs.length < 2 ^ 32 ∧
          ∀ m ∈ msgs, m.encodedSize < 2 ^ 32
      else snap.cfg.compressionType = s.broker.snap.cfg.compressionType ∧
        ∀ m ∈ msgs, Storable m) (env : AppendEnv) :
    Inv lib created name (s.publishGroup name snap partIdx msgs env) := by
  obtain ⟨t, there, partitions, -⟩ := inv.topic
  have codec : snap.codec = newCodec lib snap.cfg.compressionType := coherent
  unfold publishGroup
  rw [there]
  dsimp only
  rcases appendPartitionBatch_cases snap t partIdx msgs env with
    ⟨cause, t', result, refused⟩ |
    ⟨offsets, p, q, found, result, ⟨whole, success⟩ | ⟨single, stored, encoded, success⟩⟩
  · rw [result]
    exact inv_refuse inv there refused.appended
  · rw [if_pos whole] at allowed
    obtain ⟨same, count, sizes⟩ := allowed
    have compressed : created ≠ compressionNone := same ▸ (of_decide_eq_true whole).1
    have installed := (partitions partIdx p found).2 compressed
    rw [← same, ← codec] at installed
    rw [result, whole]
    refine inv_acknowledge inv there found (.compressed msgs snap.codec env) success _ ?_
    intro a member
    exact kept_batch (codec ▸ newCodec_inverts inverts _) installed count sizes success member _
  · rw [if_neg (by simp [single])] at allowed
    obtain ⟨current, storable⟩ := allowed
    have written := encodedGroup_stored coherent encoded
    rw [codec, current] at written
    rw [result, single]
    refine inv_acknowledge inv there found (.plain stored env) success _ ?_
    intro a member
    exact kept_plain written success storable member

theorem applyConfig_cases (coherent : Coherent lib s.broker.snap) (cfg : Config) :
    (Broker.applyConfig lib s.broker cfg).2 = s.broker ∨
    (cfg.validate = .ok () ∧ ∃ snap, Coherent lib snap ∧ snap.cfg = cfg ∧
      (Broker.applyConfig lib s.broker cfg).2 = { s.broker with snap := snap }) := by
  unfold Broker.applyConfig
  cases valid : cfg.validate with
  | error errors => exact .inl rfl
  | ok _ =>
    dsimp only
    split
    · exact .inl rfl
    · refine .inr ⟨rfl, _, ?_, rfl, rfl⟩
      unfold Coherent
      dsimp only
      split
      · rfl
      · rename_i same
        rw [not_not.mp same]
        exact coherent

theorem inv_applyConfig (inv : Inv lib created name s) {cfg : Config}
    (allowed : cfg.validate = .ok () →
      cfg.compressionType = s.broker.snap.cfg.compressionType ∨ ∀ a ∈ s.acked, a.batched = true) :
    Inv lib created name (s.applyConfig lib cfg) := by
  obtain ⟨t, there, partitions, old⟩ := inv.topic
  unfold applyConfig
  rcases applyConfig_cases inv.snap cfg with same | ⟨valid, snap, coherent, rfl, changed⟩
  · rw [same]
    refine ⟨inv.snap, ?_, inv.scheduler, inv.topic⟩
    intro snap member
    rcases List.mem_append.mp member with before | now
    · exact inv.loaded snap before
    · rw [List.mem_singleton.mp now]
      exact inv.snap
  · rw [changed]
    refine ⟨coherent, ?_, inv.scheduler, t, there, partitions, ?_⟩
    · intro snap' member
      rcases List.mem_append.mp member with before | now
      · exact inv.loaded snap' before
      · rw [List.mem_singleton.mp now]
        exact coherent
    · intro a member
      obtain ⟨p, found, kept⟩ := old a member
      refine ⟨p, found, ?_⟩
      rcases allowed valid with same | batched
      · exact same ▸ kept
      · exact kept.retype (batched a member) _

theorem inv_consumeFrom (inv : Inv lib created name s) (partIdx : Int) (offset : Nat)
    (threshold : Int) :
    (s.broker.consumeFrom name partIdx offset threshold).2 = s.broker := by
  obtain ⟨t, there, -⟩ := inv.topic
  cases found : t.partition partIdx with
  | error bounds =>
    unfold Broker.consumeFrom
    simp only [there, found]
  | ok p => rw [Broker.consumeFrom_fifo inv.scheduler there found]

theorem inv_step (inverts : lib.Inverts) (inv : Inv lib created name s) {event : ValueEvent}
    (compatible : Compatible created s event) : Inv lib created name (s.step lib name event) := by
  cases event with
  | publish loaded msg env =>
    simp only [step]
    cases at_loaded : s.loaded[loaded]? with
    | none => exact inv
    | some snap =>
      obtain ⟨current, storable⟩ := compatible snap at_loaded
      exact inv_publish inv (inv.loaded snap (List.mem_of_getElem? at_loaded)) current
        storable env
  | publishGroup loaded partIdx msgs env =>
    simp only [step]
    cases at_loaded : s.loaded[loaded]? with
    | none => exact inv
    | some snap =>
      exact inv_publishGroup inverts inv (inv.loaded snap (List.mem_of_getElem? at_loaded))
        partIdx (compatible snap at_loaded) env
  | applyConfig cfg => exact inv_applyConfig inv compatible
  | consumeFrom partIdx offset threshold =>
    simp only [step, inv_consumeFrom inv]
    exact inv

theorem Inv.faithful (inverts : lib.Inverts) (inv : Inv lib created name s) :
    Faithful name s := by
  intro a member threshold
  obtain ⟨t, there, partitions, old⟩ := inv.topic
  obtain ⟨p, found, raw, read, key, decoded, value⟩ := old a member
  have ahead := (partitions a.partIdx p found).1
  have below : ¬ p.highWaterMark < a.offset := by
    have bound := (Partition.read_bounds read).2
    unfold Partition.Ahead at ahead
    unfold Partition.highWaterMark
    split <;> omega
  have decompressed : ∃ m, s.broker.decompressMessage raw = .ok m ∧ m.key = a.key ∧
      m.value = a.value := by
    unfold Broker.decompressMessage
    rw [decoded]
    cases batched : a.batched with
    | true =>
      rw [batched] at value
      exact ⟨raw, rfl, key, value⟩
    | false =>
      rw [batched] at value
      have codec : s.broker.snap.codec = newCodec lib s.broker.snap.cfg.compressionType := inv.snap
      rw [codec, newCodec_inverts inverts _ _ _ value]
      exact ⟨_, rfl, key, rfl⟩
  obtain ⟨m, outcome, rest⟩ := decompressed
  refine ⟨m, ?_, rest⟩
  rw [Broker.consumeFrom_fifo inv.scheduler there found, Partition.fifoNext, if_neg below, read]
  dsimp only
  rw [outcome]

end Steps

/-! ## Whole runs -/

theorem coherent_new (lib : CodecLibrary) (cfg : Config) (store : Option OffsetStore) :
    Coherent lib (Broker.new lib cfg store).snap := rfl

theorem inv_start {lib : CodecLibrary} {b b' : Broker} {name : Bytes} {logs : List Log}
    (coherent : Coherent lib b.snap) (created : b.createTopic name .fifo logs = some b') :
    Inv lib b.snap.cfg.compressionType name (start b') := by
  obtain ⟨snap, -, scheduler, t, there, partitions⟩ := Broker.createTopic_ok created
  have coherent' : Coherent lib b'.snap := snap ▸ coherent
  refine ⟨coherent', ?_, scheduler, t, there, ?_, ?_⟩
  · intro snap' member
    rw [List.mem_singleton.mp member]
    exact coherent'
  · intro id p found
    obtain ⟨log, rfl⟩ := partitions id p found
    refine ⟨Partition.ahead_opened .., ?_⟩
    intro compressed
    have codec : b.snap.codec = newCodec lib b.snap.cfg.compressionType := coherent
    rw [← codec]
    exact if_pos compressed
  · intro a member
    cases member

/-- In a run whose steps are all compatible, `ConsumeFrom` returns every
acknowledged message as it was published. -/
theorem compatible_run_keeps_values {lib : CodecLibrary} (inverts : lib.Inverts) {b b' : Broker}
    {name : Bytes} {logs : List Log} (coherent : Coherent lib b.snap)
    (created : b.createTopic name .fifo logs = some b') (events : List ValueEvent)
    (compatible : Runs.Guarded (step lib name) (Compatible b.snap.cfg.compressionType)
      (start b') events) :
    ∀ s ∈ Runs.states (step lib name) (start b') events, Faithful name s := by
  intro s reached
  have inv := Runs.invariant_states
    (fun (s : ValueRun) _ (inv : Inv lib b.snap.cfg.compressionType name s) allowed =>
      inv_step inverts inv allowed) events (start b') (inv_start coherent created) compatible s
    reached
  exact inv.faithful inverts

/-- Publishes around a config change that leaves the compression type alone. -/
def sampleChange : List ValueEvent :=
  [.publish 0 (sampleMessage 5 7 118) ⟨0, false, 8, steadyEnv 9⟩,
   .applyConfig { defaultConfig with compressionType := compressionSnappy, batchSize := 200 },
   .publishGroup 0 0 [sampleMessage 3 7 119] (steadyEnv 9),
   .publish 1 (sampleMessage 5 7 120) ⟨0, false, 8, steadyEnv 9⟩]

theorem sampleChange_compatible :
    Runs.Guarded (step sampleLibrary [116]) (Compatible compressionSnappy)
      (start (sampleTopic compressionSnappy .fifo)) sampleChange := by
  refine ⟨?_, fun _ => .inl rfl, ?_, ?_, trivial⟩
  all_goals
    intro snap loaded
    cases loaded
    decide

theorem compatible_run_keeps_values_sample :
    (Runs.final (step sampleLibrary [116]) (start (sampleTopic compressionSnappy .fifo))
      sampleChange).acked.map Acked.value = [[118], [119], [120]] ∧
    Faithful [116] (Runs.final (step sampleLibrary [116])
      (start (sampleTopic compressionSnappy .fifo)) sampleChange) :=
  ⟨by decide, compatible_run_keeps_values sampleLibrary_inverts (coherent_new ..)
    (sampleTopic_created compressionSnappy .fifo) sampleChange sampleChange_compatible _
    (Runs.final_mem_states ..)⟩

/-- A message published without compression cannot be consumed any more once
the compression type is changed. -/
theorem applyConfig_loses_value :
    let events : List ValueEvent :=
      [.publish 0 (sampleMessage 5 7 118) ⟨0, false, 8, steadyEnv 9⟩,
       .applyConfig { defaultConfig with compressionType := compressionSnappy }]
    let s := Runs.final (step sampleLibrary [116]) (start (sampleTopic compressionNone .fifo)) events
    sampleLibrary.Inverts ∧
    ({ defaultConfig with compressionType := compressionSnappy } : Config).validate = .ok () ∧
    s.acked = [⟨0, 1, [107], [118], false⟩] ∧
    (s.broker.consumeFrom [116] 0 1 0).1 =
      .error (.decompressMessage "s2: corrupt input") ∧
    ¬ Faithful [116] s := by
  intro events s
  have acked : s.acked = [⟨0, 1, [107], [118], false⟩] := by decide
  have lost : (s.broker.consumeFrom [116] 0 1 0).1 =
      .error (.decompressMessage "s2: corrupt input") := by decide
  refine ⟨sampleLibrary_inverts, by decide, acked, lost, ?_⟩
  intro faithful
  obtain ⟨m, result, -⟩ := faithful ⟨0, 1, [107], [118], false⟩ (by rw [acked]; simp) 0
  rw [lost] at result
  cases result

/-! ## Whole batches -/

theorem takesGroups {lib : CodecLibrary} (name : Bytes) (loaded : Nat) (snap : ConfigSnapshot) :
    Broker.TakesGroups (step lib name) broker (.publishGroup loaded) snap name
      (fun s => s.loaded[loaded]? = some snap)
      (fun s partIdx offset m => ∃ batched,
        ⟨partIdx, offset, m.key, m.value, batched⟩ ∈ s.acked) where
  fits_step := by
    intro s t partIdx msgs env current there
    simp only [step, current, publishGroup, there]
    split <;> exact current
  broker_step := by
    intro s t partIdx msgs env current there
    simp only [step, current, publishGroup, there]
    split <;> (rename_i result; rw [result])
  acked_kept := by
    rintro s t partIdx msgs env id offset m current there ⟨batched, member⟩
    refine ⟨batched, ?_⟩
    simp only [step, current, publishGroup, there]
    split
    · exact member
    · exact List.mem_append_left _ member
  acked_ok := by
    intro s t partIdx msgs env offsets current there success j m offset message position
    refine ⟨usesBatch snap msgs, ?_⟩
    simp only [step, current, publishGroup, there]
    split
    · rename_i result
      rw [result] at success
      cases success
    · rename_i result
      rw [result] at success
      cases success
      exact List.mem_append_right _ (acks_mem message position _ _)

/-- `PublishBatch` is a run of its groups, and every message it reports without
an error is acknowledged there under the partition and offset reported. -/
theorem publishBatch_acks (lib : CodecLibrary) {snap : ConfigSnapshot} {s : ValueRun}
    {loaded : Nat} (current : s.loaded[loaded]? = some snap) {name : Bytes} {t : Topic}
    (there : s.broker.topics name = some t) (msgs : List Message) (env : BatchEnv) :
    let keys := Broker.groupKeys snap.cfg env msgs
    let s' := Runs.final (step lib name) s
      (Broker.groupEvents (.publishGroup loaded) snap.cfg env msgs (keys.length = 1) keys)
    let published := Broker.publishBatchWith snap s.broker name msgs env
    s'.broker = published.2 ∧
      ∀ (i : Nat) (m : Message) (r : PublishResult), msgs[i]? = some m →
        published.1[i]? = some r → r.err = none →
        ∃ batched, ⟨r.partition, r.offset, m.key, m.value, batched⟩ ∈ s'.acked :=
  (Broker.publishBatch_run (takesGroups name loaded snap) current there msgs env).2

end ValueRun

end NyaQueue
