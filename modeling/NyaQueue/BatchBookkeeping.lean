import NyaQueue.BatchGoroutines

/-!
# The results of `PublishBatch`

The messages of a batch are regrouped by partition, appended by goroutines and
their offsets scattered back through the saved positions.  What a call has
stored is read off the logs: the records that a partition has gained, in order,
are those of its group.  The results are then compared with that.
-/

set_option autoImplicit false

namespace NyaQueue

/-- The record at `offset` is one that is written for `m`: its own encoding, or
its place in a compressed batch. -/
inductive Carries (snap : ConfigSnapshot) (appendTime : Int64) (log : Log) (offset : Nat)
    (m : Message) : Prop where
  | plain (stored : Message) (form : encodedGroup snap [m] = .ok [stored])
      (record : log.recordAt offset = some (stored.stamp appendTime).layout)
  | batched (members : List Message) (packed : Bytes) (base j : Nat)
      (place : members[j]? = some m) (position : offset = base + j)
      (payload : snap.codec.encode (frames (members.map fun m => m.stamp appendTime)) = .ok packed)
      (leader : log.recordAt base = some (leaderRecord members.length packed))
      (redirect : j ≠ 0 → log.recordAt offset = some (redirectRecord base j))

namespace Broker

def partition? (b : Broker) (name : Bytes) (id : Int) : Option Partition :=
  (b.topics name).bind fun t => (t.partition id).toOption

/-- The offsets of the records that a partition has gained. -/
def gained (b b' : Broker) (name : Bytes) (id : Int) : List Nat :=
  match b.partition? name id, b'.partition? name id with
  | some p, some q => List.range' p.log.nextIndex (q.log.nextIndex - p.log.nextIndex)
  | _, _ => []

/-- The positions of the messages that a call has stored, with the partition
and the offset of their records. -/
def BatchCall.stored (call : BatchCall) (b b' : Broker) (name : Bytes) : List (Nat × Int × Nat) :=
  call.keys.flatMap fun id =>
    (((call.members id).map Prod.snd).zip (gained b b' name id)).map fun entry =>
      (entry.1, id, entry.2)

/-- The results of a call account for what it has stored. -/
structure Bookkeeping (call : BatchCall) (b b' : Broker) (name : Bytes)
    (results : List PublishResult) : Prop where
  one_each : results.length = call.msgs.length
  /-- the records gained are those of the messages stored, each one's own -/
  accounted : ∀ (id : Int) (offset : Nat), offset ∈ gained b b' name id ↔
    ∃ i, (i, id, offset) ∈ call.stored b b' name
  carried : ∀ (i : Nat) (id : Int) (offset : Nat), (i, id, offset) ∈ call.stored b b' name →
    ∃ m q, call.msgs[i]? = some m ∧ b'.partition? name id = some q ∧
      Carries call.snap (call.env.append id).appendTime q.log offset
        (m.stampProduce call.env.produceTime)
  once : (call.stored b b' name).Nodup
  /-- stored, where the result says so, and nowhere else -/
  acknowledged : ∀ (i : Nat) (r : PublishResult), results[i]? = some r → ∀ id offset,
    (i, id, offset) ∈ call.stored b b' name ↔
      r.err = none ∧ id = r.partition ∧ offset = r.offset
  distinct : ∀ (i j : Nat) (r r' : PublishResult), i ≠ j → results[i]? = some r →
    results[j]? = some r' → r.err = none → r'.err = none → (r.partition, r.offset) ≠ (r'.partition, r'.offset)
  increasing : ∀ (i j : Nat) (r r' : PublishResult), i < j → results[i]? = some r →
    results[j]? = some r' → r.err = none → r'.err = none → r.partition = r'.partition → r.offset < r'.offset
  /-- nothing happens to the other topics -/
  others : ∀ other : Bytes, other ≠ name → b'.topics other = b.topics other

/-! ## What a group leaves in its log -/

end Broker

theorem AppendCall.run_grown (call : AppendCall) {p q : Partition} {offsets : List Nat}
    (success : call.run p = (.ok offsets, q)) :
    q.log.nextIndex = p.log.nextIndex + call.msgs.length := by
  rcases run_ok success with ⟨empty, -, rfl⟩ | ⟨batch, log, -, written, length, -, -, rfl⟩
  · rw [empty]
    rfl
  · rw [← length]
    exact Log.nextIndex_writeBatch written

variable {snap : ConfigSnapshot} {msgs : List Message}

theorem appendPartitionBatch_refused {t : Topic} {partIdx : Int} {env : AppendEnv}
    {cause : PublishError}
    (refused : (appendPartitionBatch snap t partIdx msgs env).1 = .error cause) {p : Partition}
    (there : t.partition partIdx = .ok p) :
    ∃ q, (appendPartitionBatch snap t partIdx msgs env).2.partition partIdx = .ok q ∧
      q.log = p.log := by
  rcases appendPartitionBatch_cases snap t partIdx msgs env with
    ⟨cause', t', result, left⟩ | ⟨offsets, p', q, -, result, -⟩
  · rw [result]
    exact left.log there
  · rw [result] at refused
    cases refused

theorem encodeValues_getElem? (codec : Codec) (msgs : List Message) : ∀ stored : List Message,
    encodeValues codec msgs = .ok stored → ∀ (j : Nat) (m : Message), msgs[j]? = some m →
      ∃ written, stored[j]? = some written ∧ encodeValues codec [m] = .ok [written] := by
  induction msgs with
  | nil =>
    intro stored encoded j m impossible
    cases impossible
  | cons first rest ih =>
    intro stored encoded j m at_j
    obtain ⟨packed, later, rfl, own, following⟩ := encodeValues_cons encoded
    cases j with
    | zero =>
      rw [List.getElem?_cons_zero] at at_j
      cases at_j
      exact ⟨_, rfl, by simp only [encodeValues, own]⟩
    | succ j => exact ih later following j m at_j

theorem encodedGroup_getElem? {stored : List Message}
    (encoded : encodedGroup snap msgs = .ok stored) {j : Nat} {m : Message}
    (at_j : msgs[j]? = some m) :
    ∃ written, stored[j]? = some written ∧ encodedGroup snap [m] = .ok [written] := by
  unfold encodedGroup at encoded ⊢
  split at encoded
  · rename_i compressing
    rw [if_pos compressing]
    exact encodeValues_getElem? snap.codec msgs stored encoded j m at_j
  · rename_i plain
    rw [if_neg plain]
    cases encoded
    exact ⟨m, at_j, rfl⟩

theorem appendPartitionBatch_acknowledged {t : Topic} {partIdx : Int} {env : AppendEnv}
    {offsets : List Nat} (nonempty : msgs ≠ [])
    (success : (appendPartitionBatch snap t partIdx msgs env).1 = .ok offsets) :
    ∃ p q, t.partition partIdx = .ok p ∧
      (appendPartitionBatch snap t partIdx msgs env).2.partition partIdx = .ok q ∧
      offsets = List.range' p.log.nextIndex msgs.length ∧
      q.log.nextIndex = p.log.nextIndex + msgs.length ∧
      ∀ (j : Nat) (m : Message), msgs[j]? = some m →
        Carries snap env.appendTime q.log (p.log.nextIndex + j) m := by
  rcases appendPartitionBatch_cases snap t partIdx msgs env with
    ⟨cause, t', result, -⟩ |
      ⟨offsets', p, q, there, result, ⟨-, ran⟩ | ⟨-, stored, encoded, ran⟩⟩
  · rw [result] at success
    cases success
  · rw [result] at success ⊢
    cases success
    obtain ⟨packed, payload, rfl, -, next, -, leader, redirect⟩ :=
      Partition.appendBatchCompressed_records nonempty ran
    have grown := AppendCall.run_grown (.compressed msgs snap.codec env) ran
    refine ⟨p, q, there, Topic.partition_setPartition_self there q, by rw [next], grown, ?_⟩
    intro j m at_j
    rw [next] at leader redirect
    refine .batched msgs packed p.log.nextIndex j at_j rfl payload leader ?_
    intro follows
    obtain ⟨inside, -⟩ := List.getElem?_eq_some_iff.mp at_j
    obtain ⟨i, rfl⟩ := Nat.exists_eq_succ_of_ne_zero follows
    exact redirect i inside
  · rw [result] at success ⊢
    cases success
    have length := encodedGroup_length encoded
    have some : stored ≠ [] := by
      rintro rfl
      exact nonempty (List.length_eq_zero_iff.mp length.symm)
    obtain ⟨rfl, -, next, -, records, -⟩ := Partition.appendBatch_records some ran
    have grown := AppendCall.run_grown (.plain stored env) ran
    refine ⟨p, q, there, Topic.partition_setPartition_self there q, by rw [next, length],
      grown.trans (by rw [← length]; rfl), ?_⟩
    intro j m at_j
    obtain ⟨written, at_j', form⟩ := encodedGroup_getElem? encoded at_j
    rw [← next]
    exact .plain written form (records j written at_j')

namespace Broker

theorem members_sorted (call : BatchCall) (id : Int) :
    ((call.members id).map Prod.snd).Pairwise (· < ·) := by
  have positions : (call.members id).map Prod.snd = List.map Prod.snd (call.msgs.zipIdx.filter
      fun entry => (checkMessage call.snap.cfg call.env entry.2 entry.1).err.isNone ∧
        call.env.partIdx entry.2 = id) := by
    rw [BatchCall.members, group, List.map_map]
    rfl
  rw [positions]
  have all : (call.msgs.zipIdx.map Prod.snd).Pairwise (· < ·) := by
    rw [List.zipIdx_map_snd]
    exact List.pairwise_lt_range'
  exact all.sublist (List.filter_sublist.map Prod.snd)

theorem position_unique {call : BatchCall} {id : Int} {i j k : Nat}
    (at_j : ((call.members id).map Prod.snd)[j]? = some i)
    (at_k : ((call.members id).map Prod.snd)[k]? = some i) : j = k := by
  have distinct : ((call.members id).map Prod.snd).Nodup :=
    (members_sorted call id).imp Nat.ne_of_lt
  obtain ⟨inside, -⟩ := List.getElem?_eq_some_iff.mp at_j
  exact (List.getElem?_inj inside distinct).mp (at_j.trans at_k.symm)

theorem position_lt {call : BatchCall} {id : Int} {i i' j j' : Nat}
    (at_j : ((call.members id).map Prod.snd)[j]? = some i)
    (at_j' : ((call.members id).map Prod.snd)[j']? = some i') (order : i < i') : j < j' := by
  obtain ⟨inside, rfl⟩ := List.getElem?_eq_some_iff.mp at_j
  obtain ⟨inside', rfl⟩ := List.getElem?_eq_some_iff.mp at_j'
  by_contra behind
  rcases Nat.lt_or_eq_of_le (Nat.not_lt.mp behind) with earlier | rfl
  · have := List.pairwise_iff_getElem.mp (members_sorted call id) j' j inside' inside earlier
    omega
  · omega

section Attempt

variable {call : BatchCall} {t : Topic} {id : Int}

theorem members_ne_nil (used : id ∈ call.keys) : (call.members id).map Prod.fst ≠ [] := by
  obtain ⟨i, m, at_i, clean, here⟩ := (mem_groupKeys_iff ..).mp used
  have member : (m.stampProduce call.env.produceTime, i) ∈ call.members id :=
    (mem_group_iff ..).mpr ⟨m, at_i, clean, here, rfl⟩
  intro none
  rw [List.map_eq_nil_iff.mp none] at member
  cases member

theorem attempt_ok (used : id ∈ call.keys) {offsets : List Nat}
    (success : (call.attempt t id).1 = .ok offsets) :
    ∃ p q, t.partition id = .ok p ∧ (call.attempt t id).2.partition id = .ok q ∧
      offsets = List.range' p.log.nextIndex (call.members id).length ∧
      q.log.nextIndex = p.log.nextIndex + (call.members id).length ∧
      ∀ (j : Nat) (m : Message), ((call.members id).map Prod.fst)[j]? = some m →
        Carries call.snap (call.env.append id).appendTime q.log (p.log.nextIndex + j) m := by
  unfold BatchCall.attempt at success ⊢
  split at success
  · rename_i admitted
    rw [if_pos admitted]
    obtain ⟨p, q, there, there', range, grown, carried⟩ :=
      appendPartitionBatch_acknowledged (members_ne_nil used) success
    rw [List.length_map] at range grown
    exact ⟨p, q, there, there', range, grown, carried⟩
  · cases success

theorem attempt_error {cause : PublishError} (refused : (call.attempt t id).1 = .error cause)
    {p : Partition} (there : t.partition id = .ok p) :
    ∃ q, (call.attempt t id).2.partition id = .ok q ∧ q.log = p.log := by
  unfold BatchCall.attempt at refused ⊢
  split at refused
  · rename_i admitted
    rw [if_pos admitted]
    exact appendPartitionBatch_refused refused there
  · rename_i blocked
    rw [if_neg blocked]
    exact ⟨p, there, rfl⟩

end Attempt

/-! ## What the logs have gained -/

section Ended

variable {call : BatchCall} {t : Topic} {s : BatchRun} {b b' : Broker} {name : Bytes}

theorem partition?_of_topic (there : b.topics name = some t) (id : Int) :
    b.partition? name id = (t.partition id).toOption := by
  rw [partition?, there]
  rfl

variable {id : Int} {i : Nat} {r : PublishResult}

theorem gained_unused (ended : Ended call t s) (there : b.topics name = some t)
    (there' : b'.topics name = some s.topic) (unused : id ∉ call.keys) :
    gained b b' name id = [] := by
  have same := ended.partitions id
  rw [if_neg unused] at same
  rw [gained, partition?_of_topic there, partition?_of_topic there', same]
  cases t.partition id with
  | error bounds => rfl
  | ok p => simp [Except.toOption]

theorem gained_used (ended : Ended call t s) (there : b.topics name = some t)
    (there' : b'.topics name = some s.topic) (used : id ∈ call.keys) :
    gained b b' name id = (call.attempt t id).1.toOption.getD [] := by
  have after := ended.partitions id
  rw [if_pos used] at after
  rw [gained, partition?_of_topic there, partition?_of_topic there', after]
  cases outcome : (call.attempt t id).1 with
  | ok offsets =>
    obtain ⟨p, q, found, found', rfl, grown, -⟩ := attempt_ok used outcome
    rw [found, found']
    simp [Except.toOption, grown]
  | error cause =>
    cases found : t.partition id with
    | error bounds => rfl
    | ok p =>
      obtain ⟨q, found', same⟩ := attempt_error outcome found
      rw [found']
      simp [Except.toOption, same]

theorem mem_stored_iff (ended : Ended call t s) (there : b.topics name = some t)
    (there' : b'.topics name = some s.topic) (i : Nat) (id : Int) (offset : Nat) :
    (i, id, offset) ∈ call.stored b b' name ↔
      ∃ (offsets : List Nat) (j : Nat), (call.attempt t id).1 = .ok offsets ∧
        ((call.members id).map Prod.snd)[j]? = some i ∧ offsets[j]? = some offset := by
  unfold BatchCall.stored
  rw [List.mem_flatMap]
  constructor
  · rintro ⟨id', used, member⟩
    obtain ⟨⟨i', offset'⟩, inside, same⟩ := List.mem_map.mp member
    cases same
    obtain ⟨j, at_j⟩ := List.mem_iff_getElem?.mp inside
    obtain ⟨position, handed⟩ := List.getElem?_zip_eq_some.mp at_j
    rw [gained_used ended there there' used] at handed
    cases outcome : (call.attempt t id).1 with
    | ok offsets =>
      rw [outcome] at handed
      exact ⟨offsets, j, rfl, position, handed⟩
    | error cause =>
      rw [outcome] at handed
      cases handed
  · rintro ⟨offsets, j, outcome, position, handed⟩
    have used : id ∈ call.keys := by
      by_contra unused
      exact not_mem_members_of_keys unused i (List.mem_of_getElem? position)
    refine ⟨id, used, List.mem_map.mpr ⟨(i, offset), ?_, rfl⟩⟩
    refine List.mem_iff_getElem?.mpr ⟨j, List.getElem?_zip_eq_some.mpr ⟨position, ?_⟩⟩
    rw [gained_used ended there there' used, outcome]
    exact handed

theorem entered_of_position {offsets : List Nat} {j : Nat} {m : Message}
    (at_i : call.msgs[i]? = some m) (outcome : (call.attempt t id).1 = .ok offsets)
    (position : ((call.members id).map Prod.snd)[j]? = some i) :
    let r := entered (call.attempt t (call.env.partIdx i)).1 (call.members (call.env.partIdx i)) i
      (call.check i m)
    r.err = none ∧ r.partition = id ∧ offsets[j]? = some r.offset := by
  obtain ⟨⟨m', k⟩, member, rfl⟩ := List.mem_map.mp (List.mem_of_getElem? position)
  obtain ⟨m₀, at_k, clean, rfl, -⟩ := (mem_group_iff ..).mp member
  rw [at_i] at at_k
  cases at_k
  have used : call.env.partIdx k ∈ call.keys :=
    (mem_groupKeys_iff ..).mpr ⟨k, m, at_i, clean, rfl⟩
  obtain ⟨p, q, _, _, range, _⟩ := attempt_ok used outcome
  obtain ⟨inside, -⟩ := List.getElem?_eq_some_iff.mp position
  have count : offsets.length = ((call.members (call.env.partIdx k)).map Prod.snd).length := by
    rw [range, List.length_range', List.length_map]
  have first : ((call.members (call.env.partIdx k)).map Prod.snd).idxOf? k = some j := by
    cases found : ((call.members (call.env.partIdx k)).map Prod.snd).idxOf? k with
    | none => exact absurd (List.mem_of_getElem? position) (List.idxOf?_eq_none_iff.mp found)
    | some j' =>
      obtain ⟨inside', at_j', -⟩ := List.idxOf?_eq_some_iff.mp found
      rw [position_unique position (List.getElem?_eq_some_iff.mpr ⟨inside', at_j'⟩)]
  have result : entered (call.attempt t (call.env.partIdx k)).1
      (call.members (call.env.partIdx k)) k (call.check k m) =
        { partition := call.env.partIdx k, offset := offsets.getD j 0 } := by
    unfold entered
    rw [first, outcome, BatchCall.check, checkMessage_passed clean]
  dsimp only
  rw [result]
  refine ⟨rfl, rfl, ?_⟩
  show offsets[j]? = some (offsets.getD j 0)
  rw [List.getD_eq_getElem?_getD, List.getElem?_eq_getElem (count ▸ inside), Option.getD_some]

theorem entered_ok {m : Message} (at_i : call.msgs[i]? = some m)
    (result : r = entered (call.attempt t (call.env.partIdx i)).1
      (call.members (call.env.partIdx i)) i (call.check i m)) (clean : r.err = none) :
    ∃ (offsets : List Nat) (j : Nat), (call.attempt t r.partition).1 = .ok offsets ∧
      ((call.members r.partition).map Prod.snd)[j]? = some i ∧ offsets[j]? = some r.offset := by
  cases found : ((call.members (call.env.partIdx i)).map Prod.snd).idxOf? i with
  | none =>
    have outside := List.idxOf?_eq_none_iff.mp found
    rw [entered_of_not_mem outside] at result
    rw [result] at clean
    have member : (m.stampProduce call.env.produceTime, i) ∈ call.members (call.env.partIdx i) :=
      (mem_group_iff ..).mpr ⟨m, at_i, clean, rfl, rfl⟩
    exact absurd (List.mem_map.mpr ⟨_, member, rfl⟩) outside
  | some j =>
    obtain ⟨inside, at_j, -⟩ := List.idxOf?_eq_some_iff.mp found
    have position := List.getElem?_eq_some_iff.mpr ⟨inside, at_j⟩
    cases outcome : (call.attempt t (call.env.partIdx i)).1 with
    | error cause =>
      rw [entered, found, outcome] at result
      rw [result] at clean
      cases clean
    | ok offsets =>
      obtain ⟨-, partition, handed⟩ := entered_of_position at_i outcome position
      rw [← result] at partition handed
      rw [partition]
      exact ⟨offsets, j, outcome, position, handed⟩

theorem gained_le (ended : Ended call t s) (there : b.topics name = some t)
    (there' : b'.topics name = some s.topic) (used : id ∈ call.keys) :
    (gained b b' name id).length ≤ ((call.members id).map Prod.snd).length := by
  rw [gained_used ended there there' used, List.length_map]
  cases outcome : (call.attempt t id).1 with
  | error cause => exact Nat.zero_le _
  | ok offsets =>
    obtain ⟨p, q, _, _, range, _⟩ := attempt_ok used outcome
    simp [Except.toOption, range]

theorem stored_once (ended : Ended call t s) (there : b.topics name = some t)
    (there' : b'.topics name = some s.topic) : (call.stored b b' name).Nodup := by
  unfold BatchCall.stored
  refine List.nodup_flatMap.mpr ⟨?_, ?_⟩
  · intro id used
    have offsets : (((call.members id).map Prod.snd).zip (gained b b' name id)).Nodup := by
      apply List.Nodup.of_map Prod.snd
      rw [List.map_snd_zip (gained_le ended there there' used), gained]
      split
      · exact List.nodup_range'
      · exact List.nodup_nil
    refine offsets.map ?_
    rintro ⟨i, offset⟩ ⟨i', offset'⟩ same
    cases same
    rfl
  · refine (List.nodup_dedup _).imp ?_
    intro id id' different entry member member'
    obtain ⟨_, -, rfl⟩ := List.mem_map.mp member
    obtain ⟨_, -, same⟩ := List.mem_map.mp member'
    exact different (congrArg (fun entry => entry.2.1) same).symm

theorem stored_accounted (ended : Ended call t s) (there : b.topics name = some t)
    (there' : b'.topics name = some s.topic) (id : Int) (offset : Nat) :
    offset ∈ gained b b' name id ↔ ∃ i, (i, id, offset) ∈ call.stored b b' name := by
  simp only [mem_stored_iff ended there there']
  constructor
  · intro member
    by_cases used : id ∈ call.keys
    · rw [gained_used ended there there' used] at member
      cases outcome : (call.attempt t id).1 with
      | error cause =>
        rw [outcome] at member
        cases member
      | ok offsets =>
        rw [outcome] at member
        obtain ⟨j, at_j⟩ := List.mem_iff_getElem?.mp member
        obtain ⟨p, q, _, _, range, _⟩ := attempt_ok used outcome
        obtain ⟨inside, -⟩ := List.getElem?_eq_some_iff.mp at_j
        have inside' : j < ((call.members id).map Prod.snd).length := by
          rw [List.length_map]
          simpa [Except.toOption, range] using inside
        exact ⟨_, offsets, j, rfl, List.getElem?_eq_getElem inside', at_j⟩
    · rw [gained_unused ended there there' used] at member
      cases member
  · rintro ⟨i, offsets, j, outcome, position, handed⟩
    have used : id ∈ call.keys := by
      by_contra unused
      exact not_mem_members_of_keys unused i (List.mem_of_getElem? position)
    rw [gained_used ended there there' used, outcome]
    exact List.mem_of_getElem? handed

theorem stored_carried (ended : Ended call t s) (there : b.topics name = some t)
    (there' : b'.topics name = some s.topic) {offset : Nat}
    (member : (i, id, offset) ∈ call.stored b b' name) :
    ∃ m q, call.msgs[i]? = some m ∧ b'.partition? name id = some q ∧
      Carries call.snap (call.env.append id).appendTime q.log offset
        (m.stampProduce call.env.produceTime) := by
  obtain ⟨offsets, j, outcome, position, handed⟩ := (mem_stored_iff ended there there' ..).mp member
  have used : id ∈ call.keys := by
    by_contra unused
    exact not_mem_members_of_keys unused i (List.mem_of_getElem? position)
  obtain ⟨p, q, found, found', rfl, -, carried⟩ := attempt_ok used outcome
  rw [List.getElem?_map, Option.map_eq_some_iff] at position
  obtain ⟨⟨m', k⟩, at_j, rfl⟩ := position
  obtain ⟨m, at_k, -, -, rfl⟩ := (mem_group_iff ..).mp (List.mem_of_getElem? at_j)
  have after := ended.partitions id
  rw [if_pos used, found'] at after
  refine ⟨m, q, at_k, ?_, ?_⟩
  · rw [partition?_of_topic there', after]
    rfl
  · obtain ⟨inside, rfl⟩ := List.getElem?_eq_some_iff.mp handed
    rw [List.getElem_range', Nat.one_mul]
    apply carried
    rw [List.getElem?_map, at_j]
    rfl

theorem ended_length (ended : Ended call t s) : s.results.length = call.msgs.length := by
  have same : ∀ i, s.results.length ≤ i ↔ call.msgs.length ≤ i := by
    intro i
    rw [← List.getElem?_eq_none_iff, ← List.getElem?_eq_none_iff, ended.results,
      Option.map_eq_none_iff]
  exact Nat.le_antisymm ((same _).mpr (Nat.le_refl _)) ((same _).mp (Nat.le_refl _))

theorem result_position (ended : Ended call t s) (result : s.results[i]? = some r)
    (clean : r.err = none) :
    ∃ (p : Partition) (j : Nat), t.partition r.partition = .ok p ∧
      ((call.members r.partition).map Prod.snd)[j]? = some i ∧
      r.offset = p.log.nextIndex + j := by
  rw [ended.results i, Option.map_eq_some_iff] at result
  obtain ⟨m, at_i, same⟩ := result
  obtain ⟨offsets, j, outcome, position, handed⟩ := entered_ok at_i same.symm clean
  have used : r.partition ∈ call.keys := by
    by_contra unused
    exact not_mem_members_of_keys unused i (List.mem_of_getElem? position)
  obtain ⟨p, q, found, -, rfl, -⟩ := attempt_ok used outcome
  obtain ⟨inside, offset⟩ := List.getElem?_eq_some_iff.mp handed
  refine ⟨p, j, found, position, ?_⟩
  rw [← offset, List.getElem_range', Nat.one_mul]

theorem offsets_increasing (ended : Ended call t s) {j : Nat} {r' : PublishResult} (order : i < j)
    (result : s.results[i]? = some r) (result' : s.results[j]? = some r') (clean : r.err = none)
    (clean' : r'.err = none) (same : r.partition = r'.partition) :
    r.offset < r'.offset := by
  obtain ⟨p, k, found, position, offset⟩ := result_position ended result clean
  obtain ⟨p', k', found', position', offset'⟩ := result_position ended result' clean'
  rw [same, found'] at found
  cases found
  rw [same] at position
  have := position_lt position position' order
  omega

theorem bookkeeping_of_ended (ended : Ended call t s) (there : b.topics name = some t) :
    Bookkeeping call b (b.setTopic name s.topic) name s.results := by
  have there' : (b.setTopic name s.topic).topics name = some s.topic := setTopic_topics_self ..
  refine ⟨ended_length ended, stored_accounted ended there there', ?_,
    stored_once ended there there', ?_, ?_, ?_, ?_⟩
  · intro i id offset member
    exact stored_carried ended there there' member
  · intro i r result id offset
    rw [mem_stored_iff ended there there']
    rw [ended.results i, Option.map_eq_some_iff] at result
    obtain ⟨m, at_i, rfl⟩ := result
    constructor
    · rintro ⟨offsets, j, outcome, position, handed⟩
      obtain ⟨clean, partition, handed'⟩ := entered_of_position at_i outcome position
      exact ⟨clean, partition.symm, Option.some.inj (handed.symm.trans handed')⟩
    · rintro ⟨clean, rfl, rfl⟩
      exact entered_ok at_i rfl clean
  · intro i j r r' different result result' clean clean' same
    obtain ⟨partition, offset⟩ := Prod.mk.inj same
    rcases Nat.lt_or_gt_of_ne different with before | behind
    · have := offsets_increasing ended before result result' clean clean' partition
      omega
    · have := offsets_increasing ended behind result' result clean' clean partition.symm
      omega
  · intro i j r r' order result result' clean clean' same
    exact offsets_increasing ended order result result' clean clean' same
  · intro other different
    exact Function.update_of_ne different ..

end Ended

theorem bookkeeping_of_missing (call : BatchCall) {b : Broker} {name : Bytes}
    (missing : b.topics name = none) : Bookkeeping call b b name
      (call.msgs.map fun _ => { err := some (.topicNotFound name) }) := by
  have nothing : ∀ id, gained b b name id = [] := by
    intro id
    rw [gained, partition?, missing]
    rfl
  have empty : call.stored b b name = [] := by
    simp [BatchCall.stored, nothing]
  have failed : ∀ (i : Nat) (r : PublishResult),
      (call.msgs.map fun _ => ({ err := some (.topicNotFound name) } : PublishResult))[i]? =
        some r → r.err ≠ none := by
    intro i r result clean
    rw [List.getElem?_map, Option.map_eq_some_iff] at result
    obtain ⟨m, -, rfl⟩ := result
    cases clean
  refine ⟨List.length_map _, ?_, ?_, ?_, ?_, ?_, ?_, fun _ _ => rfl⟩
  · intro id offset
    rw [nothing, empty]
    simp
  · intro i id offset member
    rw [empty] at member
    cases member
  · rw [empty]
    exact List.nodup_nil
  · intro i r result id offset
    rw [empty]
    simp [failed i r result]
  · intro i j r r' _ result _ clean
    exact absurd clean (failed i r result)
  · intro i j r r' _ result _ clean
    exact absurd clean (failed i r result)

theorem publishBatchWith_bookkeeping (snap : ConfigSnapshot) (b : Broker) (topicName : Bytes)
    (msgs : List Message) (env : BatchEnv) :
    Bookkeeping ⟨snap, msgs, env⟩ b (publishBatchWith snap b topicName msgs env).2 topicName
      (publishBatchWith snap b topicName msgs env).1 := by
  cases there : b.topics topicName with
  | none =>
    unfold publishBatchWith
    simp only [there]
    exact bookkeeping_of_missing ⟨snap, msgs, env⟩ there
  | some t =>
    obtain ⟨s, ended, result⟩ := publishBatchWith_ended snap there msgs env
    rw [result]
    exact bookkeeping_of_ended ended there

/-- However the goroutines of a `PublishBatch` are scheduled, and whichever of
the messages, acquisitions and appends are refused, its results say which
messages are stored and where. -/
theorem publishBatch_bookkeeping {snap : ConfigSnapshot} {b b' : Broker} {topicName : Bytes}
    {msgs : List Message} {env : BatchEnv} {schedule : List Int} {results : List PublishResult}
    (ran : publishBatchScheduled snap b topicName msgs env schedule = some (results, b')) :
    Bookkeeping ⟨snap, msgs, env⟩ b b' topicName results := by
  have bookkeeping := publishBatchWith_bookkeeping snap b topicName msgs env
  rw [← publishBatchScheduled_eq ran] at bookkeeping
  exact bookkeeping

/-- A topic of two partitions for messages of at most two bytes. -/
def twoPartitions : Broker :=
  let b := Broker.new sampleLibrary { defaultConfig with maxMessageBytes := 2 } none
  (b.createTopic [116] .fifo [Log.empty, Log.empty]).getD b

/-- Writes to the second partition fail, and the third message is throttled. -/
def mixedEnv : BatchEnv where
  produceTime := 8
  partIdx i := if i = 1 then 1 else 0
  throttled i := i = 2
  gate _ := true
  append id := { steadyEnv 9 with disk := id = 0 }

def mixedMessages : List Message :=
  [sampleMessage 5 7 118, sampleMessage 5 7 118, sampleMessage 5 7 118,
    { sampleMessage 5 7 118 with value := [118, 118] }, sampleMessage 5 7 118]

theorem publishBatch_bookkeeping_mixed : ∃ results b',
    publishBatchScheduled twoPartitions.snap twoPartitions [116] mixedMessages mixedEnv
      [0, 1, 1, 0] = some (results, b') ∧
    results.map (fun r => (r.offset, r.err.isNone)) =
      [(1, true), (0, false), (0, false), (0, false), (2, true)] ∧
    Bookkeeping ⟨twoPartitions.snap, mixedMessages, mixedEnv⟩ twoPartitions b' [116] results := by
  have finished : (publishBatchScheduled twoPartitions.snap twoPartitions [116] mixedMessages
      mixedEnv [0, 1, 1, 0]).map (fun out => out.1.map fun r => (r.offset, r.err.isNone)) =
        some [(1, true), (0, false), (0, false), (0, false), (2, true)] := by decide +kernel
  obtain ⟨⟨results, b'⟩, ran, shown⟩ := Option.map_eq_some_iff.mp finished
  exact ⟨results, b', ran, shown, publishBatch_bookkeeping ran⟩

end Broker

end NyaQueue
