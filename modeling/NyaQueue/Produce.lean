import NyaQueue.Broker
import NyaQueue.Retention

/-!
# What a publish does to a topic

`Publish` and each group of a `PublishBatch` come down to at most one append
call on one partition.  What every append call preserves is therefore preserved
by every publish.
-/

set_option autoImplicit false

namespace NyaQueue

namespace Topic

theorem partition_ok_iff (t : Topic) (id : Int) (p : Partition) :
    t.partition id = .ok p ↔ 0 ≤ id ∧ t.partitions[id.toNat]? = some p := by
  unfold partition
  by_cases negative : id < 0
  · rw [if_pos negative]
    constructor
    · intro impossible
      cases impossible
    · rintro ⟨positive, -⟩
      omega
  · rw [if_neg negative]
    cases t.partitions[id.toNat]? with
    | none => simp
    | some q => simp [Int.not_lt.mp negative]

variable {t t' : Topic} {id : Int} {p : Partition}

theorem partition_setPartition_self (there : t.partition id = .ok p) (q : Partition) :
    (t.setPartition id q).partition id = .ok q := by
  rw [partition_ok_iff] at there ⊢
  obtain ⟨positive, at_id⟩ := there
  obtain ⟨inside, -⟩ := List.getElem?_eq_some_iff.mp at_id
  exact ⟨positive, List.getElem?_set_self inside⟩

theorem partition_setPartition_ne {id' : Int} (valid : 0 ≤ id) (different : id' ≠ id)
    (q : Partition) :
    (t.setPartition id q).partition id' = t.partition id' := by
  have count : (t.setPartition id q).partitions.length = t.partitions.length :=
    List.length_set
  unfold partition
  by_cases negative : id' < 0
  · rw [if_pos negative, if_pos negative, count]
  · rw [if_neg negative, if_neg negative, count]
    have elsewhere : id.toNat ≠ id'.toNat := by omega
    have same : (t.setPartition id q).partitions[id'.toNat]? = t.partitions[id'.toNat]? :=
      List.getElem?_set_ne elsewhere
    rw [same]

theorem setPartition_same (there : t.partition id = .ok p) : t.setPartition id p = t := by
  obtain ⟨-, at_id⟩ := (t.partition_ok_iff id p).mp there
  obtain ⟨inside, rfl⟩ := List.getElem?_eq_some_iff.mp at_id
  unfold setPartition
  rw [List.set_getElem_self]

theorem ext_partition (name : t.name = t'.name) (count : t.partitions.length = t'.partitions.length)
    (same : ∀ id, t.partition id = t'.partition id) : t = t' := by
  have partitions : t.partitions = t'.partitions := by
    apply List.ext_getElem?
    intro i
    by_cases inside : i < t.partitions.length
    · have here : t.partition i = .ok t.partitions[i] :=
        (t.partition_ok_iff ..).mpr ⟨by omega, List.getElem?_eq_getElem inside⟩
      rw [same] at here
      rw [List.getElem?_eq_getElem inside]
      exact ((t'.partition_ok_iff ..).mp here).2.symm
    · rw [List.getElem?_eq_none (by omega), List.getElem?_eq_none (by omega)]
  cases t
  cases t'
  cases name
  cases partitions
  rfl

/-- `t'` is `t` after one append call on one partition, or `t` itself. -/
inductive Appended (t : Topic) : Topic → Prop where
  | none : Appended t t
  | call {id : Int} {p : Partition} (there : t.partition id = .ok p) (call : AppendCall) :
      Appended t (t.setPartition id (call.run p).2)

theorem Appended.of_run {q : Partition} (there : t.partition id = .ok p) (call : AppendCall)
    {result : Except AppendError (List Nat)} (ran : call.run p = (result, q)) :
    t.Appended (t.setPartition id q) := by
  have appended := Appended.call there call
  rw [ran] at appended
  exact appended

theorem Appended.partition (appended : t.Appended t') (there : t.partition id = .ok p) :
    t'.partition id = .ok p ∨ ∃ call : AppendCall, t'.partition id = .ok (call.run p).2 := by
  cases appended with
  | none => exact .inl there
  | @call id' p' there' call =>
    by_cases same : id = id'
    · subst same
      rw [there] at there'
      cases there'
      exact .inr ⟨call, partition_setPartition_self there _⟩
    · have valid := ((t.partition_ok_iff id' p').mp there').1
      exact .inl ((partition_setPartition_ne valid same _).trans there)

theorem Appended.length (appended : t.Appended t') :
    t'.partitions.length = t.partitions.length := by
  cases appended with
  | none => rfl
  | call there call => exact List.length_set

theorem Appended.partition_inv (appended : t.Appended t') {p' : Partition}
    (there : t'.partition id = .ok p') : ∃ p, t.partition id = .ok p := by
  rw [partition_ok_iff] at there
  obtain ⟨positive, at_id⟩ := there
  obtain ⟨inside, -⟩ := List.getElem?_eq_some_iff.mp at_id
  rw [appended.length] at inside
  exact ⟨t.partitions[id.toNat], (t.partition_ok_iff _ _).mpr
    ⟨positive, List.getElem?_eq_getElem inside⟩⟩

theorem Appended.grown (appended : t.Appended t') {p' : Partition} (there : t.partition id = .ok p)
    (there' : t'.partition id = .ok p') :
    p.Extends p' ∧ (p.Ahead → p'.Ahead) := by
  rcases appended.partition there with same | ⟨call, ran⟩
  · rw [same] at there'
    cases there'
    exact ⟨Partition.Extends.refl _, fun ahead => ahead⟩
  · rw [ran] at there'
    cases there'
    exact ⟨p.extends_run call, fun ahead => Partition.ahead_append ahead call⟩

theorem Appended.partition_of (appended : t.Appended t') (there : t.partition id = .ok p) :
    ∃ p', t'.partition id = .ok p' := by
  rcases appended.partition there with same | ⟨call, ran⟩
  · exact ⟨_, same⟩
  · exact ⟨_, ran⟩

/-- `t'` is `t` after an append call that has failed, or `t` itself. -/
inductive Refused (t : Topic) : Topic → Prop where
  | none : Refused t t
  | call {id : Int} {p q : Partition} {cause : AppendError} (there : t.partition id = .ok p)
      (call : AppendCall) (failed : call.run p = (.error cause, q)) :
      Refused t (t.setPartition id q)

theorem Refused.appended (refused : t.Refused t') : t.Appended t' := by
  cases refused with
  | none => exact .none
  | call there call failed => exact .of_run there call failed

theorem Refused.log (refused : t.Refused t') (there : t.partition id = .ok p) :
    ∃ q, t'.partition id = .ok q ∧ q.log = p.log := by
  cases refused with
  | none => exact ⟨p, there, rfl⟩
  | @call id' p' q cause there' call failed =>
    by_cases same : id = id'
    · subst same
      rw [there] at there'
      cases there'
      exact ⟨q, partition_setPartition_self there q, call.run_error failed⟩
    · have valid := ((t.partition_ok_iff id' p').mp there').1
      exact ⟨p, (partition_setPartition_ne valid same q).trans there, rfl⟩

end Topic

/-- `stored` is what is written for `m`: the value is encoded. -/
structure StoredAs (codec : Codec) (m stored : Message) : Prop where
  key : stored.key = m.key
  priority : stored.header.priority = m.header.priority
  value : codec.encode m.value = .ok stored.value

theorem encodeValues_cons {codec : Codec} {m : Message} {rest stored : List Message}
    (encoded : encodeValues codec (m :: rest) = .ok stored) :
    ∃ packed later, stored = { m with value := packed } :: later ∧
      codec.encode m.value = .ok packed ∧ encodeValues codec rest = .ok later := by
  rw [encodeValues] at encoded
  cases first : codec.encode m.value with
  | error cause =>
    rw [first] at encoded
    cases encoded
  | ok packed =>
    rw [first] at encoded
    dsimp only at encoded
    cases following : encodeValues codec rest with
    | error cause =>
      rw [following] at encoded
      cases encoded
    | ok later =>
      rw [following] at encoded
      cases encoded
      exact ⟨packed, later, rfl, rfl, rfl⟩

theorem encodeValues_stored (codec : Codec) (msgs : List Message) : ∀ stored : List Message,
    encodeValues codec msgs = .ok stored → List.Forall₂ (StoredAs codec) msgs stored := by
  induction msgs with
  | nil =>
    intro stored encoded
    cases encoded
    exact .nil
  | cons m rest ih =>
    intro stored encoded
    obtain ⟨packed, later, rfl, own, following⟩ := encodeValues_cons encoded
    exact .cons ⟨rfl, rfl, own⟩ (ih later following)

/-- Whether a group is compressed as a whole. -/
def usesBatch (snap : ConfigSnapshot) (msgs : List Message) : Bool :=
  decide (snap.cfg.compressionType ≠ compressionNone ∧ 1 < msgs.length)

/-- What is written for a group that is not compressed as a whole. -/
def encodedGroup (snap : ConfigSnapshot) (msgs : List Message) : Except CodecError (List Message) :=
  if snap.cfg.compressionType ≠ compressionNone then encodeValues snap.codec msgs else .ok msgs

variable {snap : ConfigSnapshot} {msgs : List Message}

theorem encodedGroup_length {stored : List Message} (encoded : encodedGroup snap msgs = .ok stored) :
    stored.length = msgs.length := by
  unfold encodedGroup at encoded
  split at encoded
  · exact (encodeValues_stored snap.codec msgs stored encoded).length_eq.symm
  · cases encoded
    rfl

theorem encodedGroup_stored {lib : CodecLibrary}
    (coherent : snap.codec = newCodec lib snap.cfg.compressionType) {stored : List Message}
    (encoded : encodedGroup snap msgs = .ok stored) :
    List.Forall₂ (StoredAs snap.codec) msgs stored := by
  unfold encodedGroup at encoded
  split at encoded
  · exact encodeValues_stored snap.codec msgs stored encoded
  · rename_i none
    cases encoded
    rw [coherent, not_not.mp none]
    exact List.forall₂_same.mpr fun m _ => ⟨rfl, rfl, rfl⟩

/-- The append of a group: refused, or acknowledged as one of the two kinds. -/
theorem appendPartitionBatch_cases (snap : ConfigSnapshot) (t : Topic) (partIdx : Int)
    (msgs : List Message) (env : AppendEnv) :
    (∃ cause t', appendPartitionBatch snap t partIdx msgs env = (.error cause, t') ∧
      t.Refused t') ∨
    ∃ offsets p q, t.partition partIdx = .ok p ∧
      appendPartitionBatch snap t partIdx msgs env =
        (.ok offsets, t.setPartition partIdx q) ∧
      ((usesBatch snap msgs = true ∧
        p.appendBatchCompressed msgs snap.codec env = (.ok offsets, q)) ∨
      (usesBatch snap msgs = false ∧ ∃ stored, encodedGroup snap msgs = .ok stored ∧
        p.appendBatch stored env = (.ok offsets, q))) := by
  unfold appendPartitionBatch
  cases found : t.partition partIdx with
  | error bounds => exact .inl ⟨_, t, rfl, .none⟩
  | ok p =>
    dsimp only
    by_cases whole : snap.cfg.compressionType ≠ compressionNone ∧ 1 < msgs.length
    · rw [if_pos whole]
      cases appended : p.appendBatchCompressed msgs snap.codec env with
      | mk result q =>
        cases result with
        | error cause =>
          exact .inl ⟨_, _, rfl, .call found (.compressed msgs snap.codec env) appended⟩
        | ok offsets =>
          exact .inr ⟨offsets, p, q, rfl, rfl, .inl ⟨decide_eq_true whole, appended⟩⟩
    · rw [if_neg whole]
      split
      · exact .inl ⟨_, t, rfl, .none⟩
      · rename_i stored encoded
        cases appended : p.appendBatch stored env with
        | mk result q =>
          cases result with
          | error cause => exact .inl ⟨_, _, rfl, .call found (.plain stored env) appended⟩
          | ok offsets =>
            exact .inr ⟨offsets, p, q, rfl, rfl,
              .inr ⟨decide_eq_false whole, stored, encoded, appended⟩⟩

theorem appendPartitionBatch_run (snap : ConfigSnapshot) (t : Topic) (partIdx : Int)
    (msgs : List Message) (env : AppendEnv) :
    (∃ cause t', appendPartitionBatch snap t partIdx msgs env = (.error cause, t') ∧
      t.Refused t') ∨
    ∃ offsets p q, ∃ call : AppendCall, t.partition partIdx = .ok p ∧
      appendPartitionBatch snap t partIdx msgs env = (.ok offsets, t.setPartition partIdx q) ∧
      call.run p = (.ok offsets, q) ∧ offsets.length = msgs.length := by
  rcases appendPartitionBatch_cases snap t partIdx msgs env with
    refused | ⟨offsets, p, q, found, result, ⟨-, ran⟩ | ⟨-, stored, encoded, ran⟩⟩
  · exact .inl refused
  · exact .inr ⟨offsets, p, q, .compressed msgs snap.codec env, found, result, ran,
      (AppendCall.compressed msgs snap.codec env).run_length ran⟩
  · refine .inr ⟨offsets, p, q, .plain stored env, found, result, ran, ?_⟩
    rw [← encodedGroup_length encoded]
    exact (AppendCall.plain stored env).run_length ran

theorem appendPartitionBatch_length {t : Topic} {partIdx : Int} {env : AppendEnv}
    {offsets : List Nat}
    (success : (appendPartitionBatch snap t partIdx msgs env).1 = .ok offsets) :
    offsets.length = msgs.length := by
  rcases appendPartitionBatch_run snap t partIdx msgs env with
    ⟨cause, t', result, -⟩ | ⟨offsets', p, q, call, -, result, -, length⟩
  · rw [result] at success
    cases success
  · rw [result] at success
    cases success
    exact length

theorem appendPartitionBatch_appended (snap : ConfigSnapshot) (t : Topic) (partIdx : Int)
    (msgs : List Message) (env : AppendEnv) :
    t.Appended (appendPartitionBatch snap t partIdx msgs env).2 := by
  rcases appendPartitionBatch_run snap t partIdx msgs env with
    ⟨cause, t', result, refused⟩ | ⟨offsets, p, q, call, found, result, ran, -⟩
  · rw [result]
    exact refused.appended
  · rw [result]
    exact .of_run found call ran

namespace Broker

@[simp] theorem setTopic_topics_self (b : Broker) (name : Bytes) (t : Topic) :
    (b.setTopic name t).topics name = some t :=
  Function.update_self ..

@[simp] theorem setTopic_snap (b : Broker) (name : Bytes) (t : Topic) :
    (b.setTopic name t).snap = b.snap := rfl

@[simp] theorem setTopic_offsetStore (b : Broker) (name : Bytes) (t : Topic) :
    (b.setTopic name t).offsetStore = b.offsetStore := rfl

@[simp] theorem setTopic_setTopic (b : Broker) (name : Bytes) (t t' : Topic) :
    (b.setTopic name t).setTopic name t' = b.setTopic name t' := by
  unfold setTopic
  rw [Function.update_idem]

variable {b : Broker} {name : Bytes} {t : Topic}

theorem setTopic_same (there : b.topics name = some t) :
    b.setTopic name t = b := by
  unfold setTopic
  rw [← there, Function.update_eq_self]

/-- A topic that has just been created: each partition is opened on its log. -/
theorem createTopic_ok {b' : Broker} {mode : ScheduleMode} {logs : List Log}
    (created : b.createTopic name mode logs = some b') :
    b'.snap = b.snap ∧ b'.offsetStore = b.offsetStore ∧ b'.schedulers name = some mode ∧
      ∃ t, b'.topics name = some t ∧ ∀ id p, t.partition id = .ok p →
        ∃ log, p = Partition.opened id log mode
          (if b.snap.cfg.compressionType ≠ compressionNone then some b.snap.codec else none) := by
  unfold createTopic at created
  cases absent : b.topics name with
  | some t =>
    rw [absent] at created
    cases created
  | none =>
    rw [absent] at created
    cases created
    refine ⟨rfl, rfl, Function.update_self .., _, setTopic_topics_self .., ?_⟩
    intro id p found
    obtain ⟨valid, at_id⟩ := (Topic.partition_ok_iff ..).mp found
    rw [List.getElem?_mapIdx, Option.map_eq_some_iff] at at_id
    obtain ⟨log, -, rfl⟩ := at_id
    refine ⟨log, ?_⟩
    rw [Partition.opened, Int.toNat_of_nonneg valid]

theorem publishWith_cases (snap : ConfigSnapshot) (there : b.topics name = some t) (msg : Message)
    (env : PublishEnv) :
    (∃ cause msg' t', publishWith snap b name msg env = (.error cause, msg', b.setTopic name t') ∧
      t.Refused t') ∨
    ∃ offset msg' p q stored, t.partition env.partIdx = .ok p ∧
      publishWith snap b name msg env =
        (.ok (env.partIdx, offset), msg', b.setTopic name (t.setPartition env.partIdx q)) ∧
      StoredAs snap.codec msg stored ∧ p.appendBatch [stored] env.append = (.ok [offset], q) := by
  have idle : b.setTopic name t = b := setTopic_same there
  unfold publishWith
  split
  · exact .inl ⟨_, _, t, by rw [idle], .none⟩
  · split
    · exact .inl ⟨_, _, t, by rw [idle], .none⟩
    · rename_i packed encoded
      simp only [there]
      split
      · exact .inl ⟨_, _, t, by rw [idle], .none⟩
      · cases found : t.partition env.partIdx with
        | error bounds => exact .inl ⟨_, _, t, by rw [idle], .none⟩
        | ok p =>
          have written : StoredAs snap.codec msg
              (({ msg with value := packed } : Message).stampProduce env.produceTime) :=
            ⟨rfl, rfl, encoded⟩
          dsimp only
          cases appended : p.appendBatch
              [({ msg with value := packed } : Message).stampProduce env.produceTime]
              env.append with
          | mk result q =>
            cases result with
            | error cause =>
              exact .inl ⟨_, _, _, rfl, .call found (.plain _ env.append) appended⟩
            | ok offsets =>
              have range := (Partition.appendBatch_records (by simp) appended).1
              rw [List.length_singleton] at range
              subst range
              exact .inr ⟨p.nextOffset, _, p, q, _, rfl, rfl, written, appended⟩

theorem publishWith_appended (snap : ConfigSnapshot) (there : b.topics name = some t)
    (msg : Message) (env : PublishEnv) :
    ∃ t', t.Appended t' ∧ (publishWith snap b name msg env).2.2 = b.setTopic name t' := by
  rcases publishWith_cases snap there msg env with
    ⟨cause, msg', t', result, refused⟩ | ⟨offset, msg', p, q, stored, found, result, -, ran⟩
  · exact ⟨t', refused.appended, by rw [result]⟩
  · exact ⟨_, .of_run found (.plain [stored] env.append) ran, by rw [result]⟩

theorem publishWith_offsetStore (snap : ConfigSnapshot) (b : Broker) (name : Bytes)
    (msg : Message) (env : PublishEnv) (store : Option OffsetStore) :
    (publishWith snap { b with offsetStore := store } name msg env).2.2 =
      { (publishWith snap b name msg env).2.2 with offsetStore := store } := by
  unfold publishWith
  split
  · rfl
  · split
    · rfl
    · dsimp only
      cases b.topics name with
      | none => rfl
      | some t =>
        dsimp only
        split
        · rfl
        · cases t.partition env.partIdx with
          | error bounds => rfl
          | ok p =>
            dsimp only
            split <;> rfl

theorem publishWith_store (snap : ConfigSnapshot) (b : Broker) (name : Bytes)
    (msg : Message) (env : PublishEnv) :
    (publishWith snap b name msg env).2.2.offsetStore = b.offsetStore := by
  have same := congrArg Broker.offsetStore
    (publishWith_offsetStore snap b name msg env b.offsetStore)
  exact same

end Broker

end NyaQueue
