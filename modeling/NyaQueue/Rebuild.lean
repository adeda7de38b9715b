import NyaQueue.TimeRetention
import NyaQueue.PriorityAccounting
import NyaQueue.Lib.Runs

/-!
# Rebuilding the priority index from the log

`Rebuild` decodes every record that is not committed as a plain header and
adds it to the index, while an append took the priorities from the messages in
memory.  The two agree on plain records.  A leader record starts with its magic
byte where the priority should be, and a redirect is too short for a header.
-/

set_option autoImplicit false

namespace NyaQueue

open BigEndian

/-! ## A sequence of `Add` calls -/

namespace PriorityIndex

def addAll : List (Int × PendingEntry) → PriorityIndex → PriorityIndex
  | [], pi => pi
  | (priority, e) :: rest, pi => addAll rest (pi.add priority e.walOffset e.arrivedAt).1

/-- The entries of a list that go to a level. -/
def atLevel (entries : List (Int × PendingEntry)) (l : Level) : List PendingEntry :=
  (entries.filter fun entry => clampLevel entry.1 = l).map Prod.snd

theorem atLevel_cons (priority : Int) (e : PendingEntry) (rest : List (Int × PendingEntry))
    (l : Level) :
    atLevel ((priority, e) :: rest) l =
      if clampLevel priority = l then e :: atLevel rest l else atLevel rest l := by
  unfold atLevel
  rw [List.filter_cons]
  by_cases here : clampLevel priority = l
  · simp [here]
  · simp [here]

variable (entries : List (Int × PendingEntry))

theorem atLevel_append (more : List (Int × PendingEntry)) (l : Level) :
    atLevel (entries ++ more) l = atLevel entries l ++ atLevel more l := by
  simp [atLevel]

theorem addAll_append (more : List (Int × PendingEntry)) : ∀ pi : PriorityIndex,
    addAll (entries ++ more) pi = addAll more (addAll entries pi) := by
  induction entries with
  | nil => intro pi; rfl
  | cons entry rest ih => intro pi; exact ih _

theorem addAll_contents {capacity : Nat} :
    ∀ pi : PriorityIndex, pi.Capacity capacity →
      (capacity = 0 ∨ ∀ l, (pi.contents l).length + (atLevel entries l).length ≤ capacity) →
      ∀ l, (addAll entries pi).contents l = pi.contents l ++ atLevel entries l := by
  induction entries with
  | nil => intro pi _ _ l; simp [addAll, atLevel]
  | cons entry rest ih =>
    intro pi same room l
    obtain ⟨priority, e⟩ := entry
    have open_ : ¬ BoundedQueue.Full capacity (pi.contents (clampLevel priority)) := by
      rintro ⟨positive, full⟩
      rcases room with zero | fits
      · omega
      · have here := fits (clampLevel priority)
        rw [atLevel_cons, if_pos rfl, List.length_cons] at here
        omega
    have added := pi.add_contents priority e.walOffset e.arrivedAt
    rw [same (clampLevel priority), BoundedQueue.push_of_room open_] at added
    have after : ∀ k, (pi.add priority e.walOffset e.arrivedAt).1.contents k =
        pi.contents k ++ if clampLevel priority = k then [e] else [] := by
      intro k
      rw [added]
      by_cases here : clampLevel priority = k
      · rw [← here, Function.update_self, if_pos rfl]
      · rw [Function.update_of_ne (Ne.symm here), if_neg here, List.append_nil]
    have room' : capacity = 0 ∨ ∀ k,
        ((pi.add priority e.walOffset e.arrivedAt).1.contents k).length +
          (atLevel rest k).length ≤ capacity := by
      refine room.imp_right fun fits k => ?_
      have here := fits k
      rw [atLevel_cons] at here
      rw [after, List.length_append]
      split at here
      · rename_i at_k
        rw [if_pos at_k]
        simp only [List.length_cons, List.length_nil] at here ⊢
        omega
      · rename_i elsewhere
        rw [if_neg elsewhere]
        simpa using here
    rw [addAll, ih _ (add_capacity same _ _ _) room' l, after, atLevel_cons, List.append_assoc]
    by_cases here : clampLevel priority = l
    · rw [if_pos here, if_pos here, List.singleton_append]
    · rw [if_neg here, if_neg here, List.nil_append]

theorem mem_addAll_contents :
    ∀ (pi : PriorityIndex) (l : Level) (e : PendingEntry), e ∈ (addAll entries pi).contents l →
      e ∈ pi.contents l ∨ e ∈ atLevel entries l := by
  induction entries with
  | nil => intro pi l e member; exact .inl member
  | cons entry rest ih =>
    intro pi l e member
    obtain ⟨priority, first⟩ := entry
    rw [atLevel_cons]
    rcases ih _ l e member with queued | later
    · rw [add_contents] at queued
      by_cases here : clampLevel priority = l
      · rw [here, Function.update_self] at queued
        rw [if_pos here]
        have kept := (BoundedQueue.push_conserves _ (pi.contents l) _).mem_iff.mp
          (List.mem_append_left _ queued)
        rcases List.mem_append.mp kept with old | pushed
        · exact .inl old
        · rw [List.mem_singleton.mp pushed]
          exact .inr List.mem_cons_self
      · rw [Function.update_of_ne (Ne.symm here)] at queued
        exact .inl queued
    · right
      split
      · exact List.mem_cons_of_mem _ later
      · exact later

end PriorityIndex

/-! ## The loop -/

inductive RebuildError where
  /-- rebuild read offset %d -/
  | read (offset : Nat) (cause : WalError)
  /-- rebuild unmarshal header offset %d -/
  | unmarshalHeader (offset : Nat) (cause : MessageError)
  deriving DecidableEq

/-- The loop of `Rebuild` over `fuel` offsets from `off` on; `time.Unix` of the
timestamp stands for the arrival. -/
def rebuildLoop (log : Log) (isCommitted : Nat → Bool) :
    Nat → Nat → PriorityIndex → Except RebuildError Unit × PriorityIndex
  | 0, _, pi => (.ok (), pi)
  | fuel + 1, off, pi =>
      match log.read off with
      | .error cause => (.error (.read off cause), pi)
      | .ok data =>
          if isCommitted off then rebuildLoop log isCommitted fuel (off + 1) pi
          else
            match unmarshalHeader data with
            | .error cause => (.error (.unmarshalHeader off cause), pi)
            | .ok hdr =>
                rebuildLoop log isCommitted fuel (off + 1)
                  (pi.add hdr.priority.toNat (int64OfOffset off) hdr.timestamp.toInt).1

def Partition.rebuild (p : Partition) (startOffset : Nat) (isCommitted : Nat → Bool) :
    Except RebuildError Unit × Partition :=
  match p.priorityIndex with
  | none => (.ok (), p)
  | some pi =>
      let result := rebuildLoop p.log isCommitted (p.nextOffset - startOffset) startOffset pi
      (result.1, { p with priorityIndex := some result.2 })

/-- What the loop adds for one record, if it gets past it. -/
def decodedEntry (isCommitted : Nat → Bool) (off : Nat) (data : Bytes) :
    List (Int × PendingEntry) :=
  if isCommitted off then []
  else
    match unmarshalHeader data with
    | .error _ => []
    | .ok hdr => [(hdr.priority.toNat, ⟨int64OfOffset off, hdr.timestamp.toInt⟩)]

def decodedEntries (isCommitted : Nat → Bool) : Nat → List Bytes → List (Int × PendingEntry)
  | _, [] => []
  | off, data :: rest =>
      decodedEntry isCommitted off data ++ decodedEntries isCommitted (off + 1) rest

/-- Every record that is not committed is long enough for a header. -/
def Decodable (isCommitted : Nat → Bool) (off : Nat) (records : List Bytes) : Prop :=
  ∀ j data, records[j]? = some data → isCommitted (off + j) = false → headerSize ≤ data.length

theorem forall_uncommitted_cons {α : Type} (P : α → Prop) (isCommitted : Nat → Bool) (off : Nat)
    (x : α) (rest : List α) :
    (∀ j y, (x :: rest)[j]? = some y → isCommitted (off + j) = false → P y) ↔
      (isCommitted off = false → P x) ∧
        ∀ j y, rest[j]? = some y → isCommitted (off + 1 + j) = false → P y := by
  have shifted : ∀ j, off + (j + 1) = off + 1 + j := fun j => by omega
  constructor
  · intro holds
    refine ⟨holds 0 x rfl, ?_⟩
    intro j y at_j uncommitted
    exact holds (j + 1) y at_j ((shifted j).symm ▸ uncommitted)
  · rintro ⟨first, later⟩ j y at_j uncommitted
    cases j with
    | zero =>
      cases at_j
      exact first uncommitted
    | succ j => exact later j y at_j (shifted j ▸ uncommitted)

variable (isCommitted : Nat → Bool)

theorem decodable_cons (off : Nat) (data : Bytes) (rest : List Bytes) :
    Decodable isCommitted off (data :: rest) ↔
      (isCommitted off = false → headerSize ≤ data.length) ∧
        Decodable isCommitted (off + 1) rest :=
  forall_uncommitted_cons (fun record : Bytes => headerSize ≤ record.length) isCommitted off data rest

theorem rebuildLoop_outcome {log : Log} (records : List Bytes) :
    ∀ (off : Nat) (pi : PriorityIndex),
      (∀ j data, records[j]? = some data → log.read (off + j) = .ok data) →
      (Decodable isCommitted off records ∧
        rebuildLoop log isCommitted records.length off pi =
          (.ok (), PriorityIndex.addAll (decodedEntries isCommitted off records) pi)) ∨
      (¬ Decodable isCommitted off records ∧
        ∃ error, (rebuildLoop log isCommitted records.length off pi).1 = .error error) := by
  induction records with
  | nil =>
    intro off pi _
    refine .inl ⟨?_, rfl⟩
    intro j data at_j
    cases at_j
  | cons data rest ih =>
    intro off pi stored
    have here : log.read off = .ok data := stored 0 data rfl
    have later : ∀ j data', rest[j]? = some data' → log.read (off + 1 + j) = .ok data' := by
      intro j data' at_j
      rw [Nat.add_assoc, Nat.add_comm 1 j]
      exact stored (j + 1) data' at_j
    rw [decodable_cons, List.length_cons, rebuildLoop, here, decodedEntries, decodedEntry]
    dsimp only
    cases committed : isCommitted off with
    | true =>
      rw [if_pos rfl, if_pos rfl, List.nil_append]
      simp only [Bool.true_eq_false, false_implies, true_and]
      exact ih (off + 1) pi later
    | false =>
      rw [if_neg Bool.false_ne_true, if_neg Bool.false_ne_true]
      by_cases short : data.length < headerSize
      · right
        have failed : unmarshalHeader data = .error (.headerTooShort data.length) := by
          rw [unmarshalHeader, if_pos short]
        refine ⟨fun decodable => absurd (decodable.1 rfl) (Nat.not_le.mpr short), ?_⟩
        rw [failed]
        exact ⟨_, rfl⟩
      · obtain ⟨hdr, decoded⟩ : ∃ hdr, unmarshalHeader data = .ok hdr := by
          rw [unmarshalHeader, if_neg short]
          exact ⟨_, rfl⟩
        rw [decoded]
        simp only [Nat.not_lt.mp short, implies_true, true_and, List.singleton_append,
          PriorityIndex.addAll]
        exact ih (off + 1) _ later

theorem mem_decodedEntries {isCommitted : Nat → Bool} {entry : Int × PendingEntry}
    (records : List Bytes) : ∀ off : Nat, entry ∈ decodedEntries isCommitted off records →
      ∃ j data hdr, records[j]? = some data ∧ unmarshalHeader data = .ok hdr ∧
        entry.1 = hdr.priority.toNat ∧ entry.2.walOffset = int64OfOffset (off + j) := by
  induction records with
  | nil => intro off member; cases member
  | cons data rest ih =>
    intro off member
    rcases List.mem_append.mp member with here | later
    · refine ⟨0, data, ?_⟩
      unfold decodedEntry at here
      split at here
      · cases here
      · cases decoded : unmarshalHeader data with
        | error cause =>
          rw [decoded] at here
          cases here
        | ok hdr =>
          rw [decoded] at here
          rw [List.mem_singleton.mp here]
          exact ⟨hdr, rfl, rfl, rfl, rfl⟩
    · obtain ⟨j, data', hdr, at_j, decoded, priority, offset⟩ := ih (off + 1) later
      refine ⟨j + 1, data', hdr, at_j, decoded, priority, ?_⟩
      rw [offset]
      congr 1
      omega

/-! ## What the index should hold -/

/-- The offsets, from `off` on, whose message goes to a level and that are not
committed. -/
def uncommittedAt (isCommitted : Nat → Bool) (off : Nat) (msgs : List Message) (l : Level) :
    List Nat :=
  ((msgs.zipIdx off).filter fun entry =>
    !isCommitted entry.2 && decide (messageLevel entry.1 = l)).map Prod.snd

theorem uncommittedAt_cons (off : Nat) (m : Message) (rest : List Message) (l : Level) :
    uncommittedAt isCommitted off (m :: rest) l =
      (if isCommitted off = false ∧ messageLevel m = l then [off] else []) ++
        uncommittedAt isCommitted (off + 1) rest l := by
  unfold uncommittedAt
  rw [List.zipIdx_cons, List.filter_cons]
  cases isCommitted off with
  | true => simp
  | false =>
    by_cases here : messageLevel m = l
    · simp [here]
    · simp [here]

theorem mem_uncommittedAt {isCommitted : Nat → Bool} {off : Nat} {msgs : List Message} {l : Level}
    {j : Nat} {m : Message} (at_j : msgs[j]? = some m) (uncommitted : isCommitted (off + j) = false)
    (level : messageLevel m = l) : off + j ∈ uncommittedAt isCommitted off msgs l := by
  refine List.mem_map.mpr ⟨(m, off + j), List.mem_filter.mpr ⟨?_, ?_⟩, rfl⟩
  · rw [List.mk_mem_zipIdx_iff_le_and_getElem?_sub]
    refine ⟨Nat.le_add_right .., ?_⟩
    rw [Nat.add_sub_cancel_left]
    exact at_j
  · simp [uncommitted, level]

namespace StoredRecord

/-- The message that the record's own offset stands for. -/
def own : StoredRecord → Option Message
  | .plain m => some m
  | .leader msgs _ => msgs.head?
  | .redirect m _ _ => some m

/-- The record holds its own message at the level of `m`. -/
def At (record : StoredRecord) (m : Message) : Prop :=
  record.own.map messageLevel = some (messageLevel m)

/-- The records that `Rebuild` decodes to the level of their message: plain
ones, and the leaders that are long enough and whose first message goes to the
highest level. -/
def Rebuildable : StoredRecord → Prop
  | .plain _ => True
  | .leader msgs packed => 20 ≤ packed.length ∧ msgs.head?.map messageLevel = some (Fin.last 9)
  | .redirect _ _ _ => False

theorem leader_length (msgs : List Message) (packed : Bytes) :
    (StoredRecord.leader msgs packed).bytes.length = 5 + packed.length := by
  simp only [bytes, leaderRecord, List.length_cons, List.length_append, putUint32_length]
  omega

theorem redirect_short (m : Message) (base index : Nat) :
    (StoredRecord.redirect m base index).bytes.length < headerSize := by
  simp only [bytes, redirectRecord, List.length_cons, List.length_append, putUint64_length,
    putUint32_length]
  decide

theorem leader_level {msgs : List Message} {packed : Bytes} {hdr : MessageHeader}
    (decoded : unmarshalHeader (StoredRecord.leader msgs packed).bytes = .ok hdr) :
    clampLevel hdr.priority.toNat = Fin.last 9 := by
  unfold unmarshalHeader at decoded
  split at decoded
  · cases decoded
  · cases decoded
    change clampLevel walBatchMagic.toNat = Fin.last 9
    decide

theorem Rebuildable.decodes {record : StoredRecord} (rebuildable : record.Rebuildable)
    {m : Message} (at_m : record.At m) :
    headerSize ≤ record.bytes.length ∧
    ∃ hdr, unmarshalHeader record.bytes = .ok hdr ∧
      clampLevel hdr.priority.toNat = messageLevel m := by
  cases record with
  | plain m' =>
    have same : messageLevel m' = messageLevel m := Option.some.inj at_m
    have decoded : unmarshalHeader (StoredRecord.plain m').bytes = .ok m'.header :=
      m'.unmarshalHeader_layout
    refine ⟨?_, m'.header, decoded, same⟩
    by_contra short
    rw [unmarshalHeader, if_pos (Nat.not_le.mp short)] at decoded
    cases decoded
  | leader msgs packed =>
    obtain ⟨long, highest⟩ := rebuildable
    have enough : headerSize ≤ (StoredRecord.leader msgs packed).bytes.length := by
      rw [leader_length]
      change 25 ≤ _
      omega
    obtain ⟨hdr, decoded⟩ :
        ∃ hdr, unmarshalHeader (StoredRecord.leader msgs packed).bytes = .ok hdr := by
      rw [unmarshalHeader, if_neg (Nat.not_lt.mpr enough)]
      exact ⟨_, rfl⟩
    refine ⟨enough, hdr, decoded, ?_⟩
    rw [leader_level decoded]
    exact Option.some.inj (highest.symm.trans at_m)
  | redirect m' base index => exact rebuildable.elim

end StoredRecord

/-- Every record that is not committed can be rebuilt. -/
def AllRebuildable (isCommitted : Nat → Bool) (off : Nat) (records : List StoredRecord) : Prop :=
  ∀ j record, records[j]? = some record → isCommitted (off + j) = false → record.Rebuildable

section Records

variable {isCommitted : Nat → Bool} {records : List StoredRecord} {msgs : List Message} {off : Nat}

theorem AllRebuildable.tail {record : StoredRecord}
    (rebuildable : AllRebuildable isCommitted off (record :: records)) :
    AllRebuildable isCommitted (off + 1) records :=
  ((forall_uncommitted_cons StoredRecord.Rebuildable isCommitted off record records).mp
    rebuildable).2

theorem decodable_of_rebuildable (holds : List.Forall₂ StoredRecord.At records msgs)
    (rebuildable : AllRebuildable isCommitted off records) :
    Decodable isCommitted off (records.map StoredRecord.bytes) := by
  intro j data at_j uncommitted
  rw [List.getElem?_map, Option.map_eq_some_iff] at at_j
  obtain ⟨record, at_j, rfl⟩ := at_j
  obtain ⟨inside, same⟩ := List.getElem?_eq_some_iff.mp at_j
  have at_m := List.Forall₂.get holds inside (holds.length_eq ▸ inside)
  rw [List.get_eq_getElem, same] at at_m
  exact ((rebuildable j record at_j uncommitted).decodes at_m).1

theorem atLevel_decodedEntries (holds : List.Forall₂ StoredRecord.At records msgs) :
    ∀ off, AllRebuildable isCommitted off records → ∀ l,
      (PriorityIndex.atLevel
          (decodedEntries isCommitted off (records.map StoredRecord.bytes)) l).map
        PendingEntry.walOffset =
      (uncommittedAt isCommitted off msgs l).map int64OfOffset := by
  induction holds with
  | nil => intro off _ l; rfl
  | @cons record m records msgs at_m holds ih =>
    intro off rebuildable l
    have later := ih (off + 1) rebuildable.tail l
    rw [List.map_cons, decodedEntries, decodedEntry, uncommittedAt_cons, List.map_append, ← later]
    cases committed : isCommitted off with
    | true => simp
    | false =>
      obtain ⟨-, hdr, decoded, level⟩ :=
        (rebuildable 0 record rfl committed).decodes at_m
      rw [if_neg Bool.false_ne_true, decoded]
      simp only [List.singleton_append, PriorityIndex.atLevel_cons, level, true_and]
      split
      · rfl
      · rfl

/-- Conversely, if every record decodes and every offset is found at the level
of its message, then all records can be rebuilt. -/
theorem rebuildable_of_found (holds : List.Forall₂ StoredRecord.At records msgs)
    (fits : off + records.length < 2 ^ 64)
    (decodable : Decodable isCommitted off (records.map StoredRecord.bytes))
    (found : ∀ l, ∀ o ∈ uncommittedAt isCommitted off msgs l, int64OfOffset o ∈
      (PriorityIndex.atLevel
        (decodedEntries isCommitted off (records.map StoredRecord.bytes)) l).map
          PendingEntry.walOffset) :
    AllRebuildable isCommitted off records := by
  intro j record at_j uncommitted
  have bytes_at : (records.map StoredRecord.bytes)[j]? = some record.bytes := by
    rw [List.getElem?_map, at_j]
    rfl
  have long := decodable j record.bytes bytes_at uncommitted
  cases record with
  | plain m => trivial
  | redirect m base index => exact absurd long (Nat.not_le.mpr (StoredRecord.redirect_short ..))
  | leader first packed =>
    rw [StoredRecord.leader_length] at long
    change 25 ≤ _ at long
    obtain ⟨inside, same⟩ := List.getElem?_eq_some_iff.mp at_j
    have inside' : j < msgs.length := holds.length_eq ▸ inside
    have at_m := List.Forall₂.get holds inside inside'
    rw [List.get_eq_getElem, same, List.get_eq_getElem] at at_m
    have expected := found _ _ (mem_uncommittedAt (l := messageLevel msgs[j])
      (List.getElem?_eq_getElem inside') uncommitted rfl)
    -- the entry with this offset was decoded from this record, so it is at the highest level
    obtain ⟨e, queued, offset⟩ := List.mem_map.mp expected
    obtain ⟨entry, member, rfl⟩ := List.mem_map.mp queued
    obtain ⟨decodedHere, level⟩ := List.mem_filter.mp member
    obtain ⟨k, data, hdr, at_k, decoded, priority, offset'⟩ :=
      mem_decodedEntries _ _ decodedHere
    have inside_k := (List.getElem?_eq_some_iff.mp at_k).1
    rw [List.length_map] at inside_k
    have numbers : off + j = off + k := by
      have both := congrArg offsetOfInt64 (offset'.symm.trans offset)
      rw [offsetOfInt64_int64OfOffset (by omega), offsetOfInt64_int64OfOffset (by omega)] at both
      exact both.symm
    obtain rfl : j = k := by omega
    cases bytes_at.symm.trans at_k
    rw [priority, StoredRecord.leader_level decoded, decide_eq_true_eq] at level
    refine ⟨by omega, ?_⟩
    change first.head?.map messageLevel = some (messageLevel msgs[j]) at at_m
    rw [at_m, ← level]

end Records

/-! ## Logs written by successful appends -/

namespace AppendCall

def after (p : Partition) (call : AppendCall) : Partition := (call.run p).2

def Succeeds (p : Partition) (call : AppendCall) : Prop :=
  ∃ offsets, (call.run p).1 = .ok offsets

theorem annotatedBatch_at (base : Nat) (packed : Bytes) (env : AppendEnv) (msgs : List Message) :
    List.Forall₂ StoredRecord.At
      (annotatedBatch base packed (msgs.map fun m => m.stamp env.appendTime)) msgs := by
  cases msgs with
  | nil => exact .nil
  | cons first rest =>
    rw [List.map_cons, annotatedBatch]
    refine .cons rfl ?_
    have redirects : ∀ (rest : List Message) (i : Nat), List.Forall₂ StoredRecord.At
        (((rest.map fun m => m.stamp env.appendTime).zipIdx i).map fun entry =>
          StoredRecord.redirect entry.1 base entry.2) rest := by
      intro rest
      induction rest with
      | nil => intro i; exact .nil
      | cons m later ih =>
        intro i
        rw [List.map_cons, List.zipIdx_cons, List.map_cons]
        exact .cons rfl (ih (i + 1))
    exact redirects rest 1

theorem annotated_at {p : Partition} {call : AppendCall} (succeeds : call.Succeeds p) :
    List.Forall₂ StoredRecord.At (call.annotated p) call.msgs := by
  obtain ⟨offsets, success⟩ := succeeds
  cases call with
  | plain msgs env =>
    simp only [annotated, success, AppendCall.msgs]
    rw [List.forall₂_map_left_iff, List.forall₂_same]
    exact fun m _ => rfl
  | compressed msgs codec env =>
    simp only [annotated, success, AppendCall.msgs]
    by_cases empty : msgs = []
    · subst empty
      cases codec.encode (batchPayload [] env) <;> exact .nil
    · rcases p.appendBatchCompressed_cases empty codec env with
        ⟨cause, -, failed⟩ | ⟨packed, encoded, -⟩
      · change (p.appendBatchCompressed msgs codec env).1 = _ at success
        rw [failed] at success
        cases success
      · rw [encoded]
        exact annotatedBatch_at ..

/-- What the index update of the call adds. -/
def added (off : Nat) (call : AppendCall) : List (Int × PendingEntry) :=
  (call.msgs.zip (List.range' off call.msgs.length)).map fun entry =>
    (entry.1.header.priority.toNat, indexEntry call.env.indexTime entry)

theorem indexMessages_eq_addAll (now : Time) (entries : List (Message × Nat)) :
    ∀ pi : PriorityIndex, indexMessages now entries pi =
      PriorityIndex.addAll
        (entries.map fun entry => (entry.1.header.priority.toNat, indexEntry now entry)) pi := by
  induction entries with
  | nil => intro pi; rfl
  | cons entry rest ih => intro pi; exact ih _

theorem succeeds_after {p : Partition} {call : AppendCall} (succeeds : call.Succeeds p)
    (inStep : p.nextOffset = p.log.nextIndex) :
    (call.after p).nextOffset = p.nextOffset + call.msgs.length ∧
    (call.after p).nextOffset = (call.after p).log.nextIndex ∧
    (call.after p).priorityIndex =
      p.priorityIndex.map (PriorityIndex.addAll (call.added p.nextOffset)) := by
  obtain ⟨offsets, success⟩ := succeeds
  have ran : call.run p = (.ok offsets, call.after p) := Prod.ext success rfl
  rcases run_ok ran with ⟨empty, -, same⟩ | ⟨batch, log, -, written, length, -, -, stored⟩
  · rw [same, added, empty]
    refine ⟨rfl, inStep, ?_⟩
    cases p.priorityIndex <;> rfl
  · rw [stored]
    refine ⟨rfl, ?_, ?_⟩
    · have next := Log.nextIndex_writeBatch written
      simp only [Partition.stored, Partition.advance]
      omega
    · simp only [Partition.stored]
      congr 1
      funext pi
      exact indexMessages_eq_addAll ..

end AppendCall

/-- The messages of a sequence of calls. -/
def publishedBy (calls : List AppendCall) : List Message := calls.flatMap AppendCall.msgs

/-- What the index updates of a sequence of calls add. -/
def addedBy : Nat → List AppendCall → List (Int × PendingEntry)
  | _, [] => []
  | off, call :: rest => call.added off ++ addedBy (off + call.msgs.length) rest

namespace Partition

/-- All calls of a sequence succeed. -/
def AppendsSucceed (p : Partition) (calls : List AppendCall) : Prop :=
  Runs.Guarded AppendCall.after (fun p call => call.Succeeds p) p calls

theorem appends_succeed (calls : List AppendCall) : ∀ p : Partition,
    p.AppendsSucceed calls → p.nextOffset = p.log.nextIndex →
      List.Forall₂ StoredRecord.At (p.history calls) (publishedBy calls) ∧
      (p.appends calls).nextOffset = (p.appends calls).log.nextIndex ∧
      (p.appends calls).priorityIndex =
        p.priorityIndex.map (PriorityIndex.addAll (addedBy p.nextOffset calls)) := by
  induction calls with
  | nil =>
    intro p _ inStep
    refine ⟨.nil, inStep, ?_⟩
    change p.priorityIndex = _
    cases p.priorityIndex <;> rfl
  | cons call rest ih =>
    intro p succeed inStep
    obtain ⟨advanced, inStep', indexed⟩ := AppendCall.succeeds_after succeed.1 inStep
    obtain ⟨holds, next, index⟩ := ih (call.after p) succeed.2 inStep'
    refine ⟨List.rel_append (AppendCall.annotated_at succeed.1) holds, next, ?_⟩
    change ((call.after p).appends rest).priorityIndex = _
    rw [index, indexed, advanced, Option.map_map, addedBy]
    congr 1
    funext pi
    exact (PriorityIndex.addAll_append ..).symm

end Partition

/-! ### The index that the appends leave -/

theorem uncommittedAt_append (isCommitted : Nat → Bool) (off : Nat) (msgs more : List Message)
    (l : Level) :
    uncommittedAt isCommitted off (msgs ++ more) l =
      uncommittedAt isCommitted off msgs l ++
        uncommittedAt isCommitted (off + msgs.length) more l := by
  simp [uncommittedAt, List.zipIdx_append]

theorem atLevel_added (call : AppendCall) (off : Nat) (l : Level) :
    (PriorityIndex.atLevel (call.added off) l).map PendingEntry.walOffset =
      (uncommittedAt (fun _ => false) off call.msgs l).map int64OfOffset := by
  unfold AppendCall.added
  generalize call.msgs = msgs
  induction msgs generalizing off with
  | nil => rfl
  | cons m rest ih =>
    rw [List.length_cons, List.range'_succ, List.zip_cons_cons, List.map_cons,
      PriorityIndex.atLevel_cons, uncommittedAt_cons, List.map_append, ← ih (off + 1)]
    dsimp only
    rw [show clampLevel m.header.priority.toNat = messageLevel m from rfl]
    by_cases here : messageLevel m = l
    · rw [if_pos here, if_pos ⟨rfl, here⟩]
      rfl
    · rw [if_neg here, if_neg fun both => here both.2]
      rfl

theorem atLevel_addedBy (calls : List AppendCall) (l : Level) : ∀ off : Nat,
    (PriorityIndex.atLevel (addedBy off calls) l).map PendingEntry.walOffset =
      (uncommittedAt (fun _ => false) off (publishedBy calls) l).map int64OfOffset := by
  induction calls with
  | nil => intro off; rfl
  | cons call rest ih =>
    intro off
    have messages : publishedBy (call :: rest) = call.msgs ++ publishedBy rest :=
      List.flatMap_cons
    rw [addedBy, PriorityIndex.atLevel_append, List.map_append, atLevel_added, ih, messages,
      uncommittedAt_append, List.map_append]

theorem filter_uncommittedAt (isCommitted : Nat → Bool) (l : Level) (msgs : List Message) :
    ∀ off, off + msgs.length < 2 ^ 64 →
      (((uncommittedAt (fun _ => false) off msgs l).map int64OfOffset).filter
        fun o => !isCommitted (offsetOfInt64 o)) =
      (uncommittedAt isCommitted off msgs l).map int64OfOffset := by
  induction msgs with
  | nil => intro off _; rfl
  | cons m rest ih =>
    intro off fits
    rw [List.length_cons] at fits
    rw [uncommittedAt_cons, uncommittedAt_cons, List.map_append, List.filter_append,
      List.map_append, ih (off + 1) (by omega)]
    congr 1
    by_cases here : messageLevel m = l
    · rw [if_pos ⟨rfl, here⟩, List.map_singleton, List.filter_singleton,
        offsetOfInt64_int64OfOffset (by omega)]
      cases isCommitted off <;> simp [here]
    · rw [if_neg fun both => here both.2, if_neg fun both => here both.2]
      rfl

/-! ## Rebuilding -/

/-- The purpose of `Rebuild`: no error, and at each level the offsets that are
not committed and whose message belongs there, in increasing order. -/
structure Restored (isCommitted : Nat → Bool) (msgs : List Message)
    (result : Except RebuildError Unit × Partition) : Prop where
  ok : result.1 = .ok ()
  levels : ∀ pi, result.2.priorityIndex = some pi → ∀ l,
    (pi.contents l).map PendingEntry.walOffset =
      (uncommittedAt isCommitted 1 msgs l).map int64OfOffset

namespace Partition

/-- The partition with another index in place of its own. -/
def withIndex (p : Partition) (pi : PriorityIndex) : Partition :=
  { p with priorityIndex := some pi }

section Rebuild

variable {p : Partition} {records : List StoredRecord} {isCommitted : Nat → Bool}
  {emptied : PriorityIndex}

theorem rebuild_outcome (first : p.log.firstIndex = 1)
    (entries : p.log.entries = records.map StoredRecord.bytes)
    (inStep : p.nextOffset = p.log.nextIndex) (isCommitted : Nat → Bool)
    (emptied : PriorityIndex) :
    let data := records.map StoredRecord.bytes
    (Decodable isCommitted 1 data ∧ (p.withIndex emptied).rebuild 1 isCommitted =
      (.ok (), p.withIndex
        (PriorityIndex.addAll (decodedEntries isCommitted 1 data) emptied))) ∨
    (¬ Decodable isCommitted 1 data ∧
      ∃ error, ((p.withIndex emptied).rebuild 1 isCommitted).1 = .error error) := by
  intro data
  have length : (p.withIndex emptied).nextOffset - 1 = data.length := by
    change p.nextOffset - 1 = _
    rw [inStep, Log.nextIndex, first, entries]
    exact Nat.add_sub_cancel_left ..
  have stored : ∀ j bytes, data[j]? = some bytes → p.log.read (1 + j) = .ok bytes := by
    intro j bytes at_j
    rw [List.getElem?_map, Option.map_eq_some_iff] at at_j
    obtain ⟨record, at_j, rfl⟩ := at_j
    rw [Log.read_ok_iff]
    exact recordAt_of_history first entries at_j
  simp only [rebuild, withIndex] at length ⊢
  rw [length]
  rcases rebuildLoop_outcome isCommitted data 1 emptied stored with
    ⟨decodable, success⟩ | ⟨undecodable, error, failed⟩
  · rw [success]
    exact .inl ⟨decodable, rfl⟩
  · exact .inr ⟨undecodable, error, failed⟩

theorem restored_iff {msgs : List Message} {capacity : Nat} (first : p.log.firstIndex = 1)
    (entries : p.log.entries = records.map StoredRecord.bytes)
    (inStep : p.nextOffset = p.log.nextIndex)
    (holds : List.Forall₂ StoredRecord.At records msgs) (empty : ∀ l, emptied.contents l = [])
    (same : emptied.Capacity capacity)
    (enough : capacity = 0 ∨ ∀ l, (uncommittedAt isCommitted 1 msgs l).length ≤ capacity) :
    Restored isCommitted msgs ((p.withIndex emptied).rebuild 1 isCommitted) ↔
      AllRebuildable isCommitted 1 records := by
  have fits : 1 + records.length < 2 ^ 64 := by
    have := p.log.next_fits
    rw [first, entries, List.length_map] at this
    exact this
  constructor
  · rintro ⟨ok, levels⟩
    rcases rebuild_outcome first entries inStep isCommitted emptied with
      ⟨decodable, success⟩ | ⟨-, error, failed⟩
    · refine rebuildable_of_found holds fits decodable ?_
      intro l o expected
      rw [success] at levels
      have there : int64OfOffset o ∈ (uncommittedAt isCommitted 1 msgs l).map int64OfOffset :=
        List.mem_map_of_mem expected
      rw [← levels _ rfl l] at there
      obtain ⟨e, queued, offset⟩ := List.mem_map.mp there
      rcases PriorityIndex.mem_addAll_contents _ emptied l e queued with old | added
      · rw [empty] at old
        cases old
      · rw [← offset]
        exact List.mem_map_of_mem added
    · rw [failed] at ok
      cases ok
  · intro rebuildable
    have found := atLevel_decodedEntries holds 1 rebuildable
    rcases rebuild_outcome first entries inStep isCommitted emptied with
      ⟨-, success⟩ | ⟨undecodable, -⟩
    · rw [success]
      refine ⟨rfl, ?_⟩
      intro pi indexed l
      cases indexed
      have room : capacity = 0 ∨ ∀ l, (emptied.contents l).length + (PriorityIndex.atLevel
          (decodedEntries isCommitted 1 (records.map StoredRecord.bytes)) l).length ≤
            capacity := by
        refine enough.imp_right fun fits l => ?_
        have count := congrArg List.length (found l)
        rw [List.length_map, List.length_map] at count
        rw [empty, count]
        simpa using fits l
      rw [PriorityIndex.addAll_contents _ emptied same room, empty, List.nil_append, found]
    · exact absurd (decodable_of_rebuildable holds rebuildable) undecodable

end Rebuild

theorem appended_index {id : Int} {log : Log} {mode : ScheduleMode} {codec : Option Codec}
    {calls : List AppendCall} {pi : PriorityIndex}
    (indexed : (opened id log mode codec).priorityIndex.map
      (PriorityIndex.addAll (addedBy 1 calls)) = some pi)
    (bounded : ∀ l, (uncommittedAt (fun _ => false) 1 (publishedBy calls) l).length ≤ 50000)
    (l : Level) :
    (pi.contents l).map PendingEntry.walOffset =
      (uncommittedAt (fun _ => false) 1 (publishedBy calls) l).map int64OfOffset := by
  obtain ⟨fresh, opened_, rfl⟩ := Option.map_eq_some_iff.mp indexed
  have new : fresh = newPriorityIndex 50000 := by
    simp only [opened, Partition.new] at opened_
    split at opened_
    · cases opened_
    · exact (Option.some.inj opened_).symm
  have room : ∀ k, (fresh.contents k).length + (PriorityIndex.atLevel (addedBy 1 calls) k).length ≤
      50000 := by
    intro k
    have count := congrArg List.length (atLevel_addedBy calls k 1)
    rw [List.length_map, List.length_map] at count
    rw [count, new, PriorityIndex.newPriorityIndex_contents]
    simpa using bounded k
  have same : fresh.Capacity 50000 := new ▸ PriorityIndex.newPriorityIndex_capacity 50000
  rw [PriorityIndex.addAll_contents _ fresh same (.inr room), new,
    PriorityIndex.newPriorityIndex_contents, List.nil_append, atLevel_addedBy]

/-- On a log written by successful appends `Rebuild` restores the index exactly
when every offset that is not committed has a record that can be rebuilt.  What
it restores is what the appends themselves left, as long as no level overflowed,
without the committed offsets. -/
theorem rebuild_restores_iff (id : Int) (mode : ScheduleMode) (codec : Option Codec)
    (calls : List AppendCall) (succeed : (opened id Log.empty mode codec).AppendsSucceed calls)
    (isCommitted : Nat → Bool) (emptied : PriorityIndex) (capacity : Nat)
    (empty : ∀ l, emptied.contents l = []) (same : emptied.Capacity capacity)
    (enough : capacity = 0 ∨
      ∀ l, (uncommittedAt isCommitted 1 (publishedBy calls) l).length ≤ capacity) :
    let p := (opened id Log.empty mode codec).appends calls
    (Restored isCommitted (publishedBy calls) ((p.withIndex emptied).rebuild 1 isCommitted) ↔
      AllRebuildable isCommitted 1 ((opened id Log.empty mode codec).history calls)) ∧
    ∀ pi, p.priorityIndex = some pi →
      (∀ l, (uncommittedAt (fun _ => false) 1 (publishedBy calls) l).length ≤ 50000) →
      ∀ l, (((pi.contents l).map PendingEntry.walOffset).filter
          fun o => !isCommitted (offsetOfInt64 o)) =
        (uncommittedAt isCommitted 1 (publishedBy calls) l).map int64OfOffset := by
  intro p
  obtain ⟨first, entries⟩ := appends_entries calls (opened id Log.empty mode codec)
  obtain ⟨holds, inStep, index⟩ := appends_succeed calls _ succeed rfl
  refine ⟨restored_iff first entries inStep holds empty same enough, ?_⟩
  intro pi indexed bounded l
  have length : 1 + (publishedBy calls).length < 2 ^ 64 := by
    have next := p.log.next_fits
    rw [show p.log.firstIndex = 1 from first, show p.log.entries = _ from entries,
      List.length_append, List.length_map, holds.length_eq] at next
    exact Nat.lt_of_le_of_lt (by simp [opened, Partition.new, Log.empty]) next
  rw [appended_index (index ▸ indexed) bounded l]
  exact filter_uncommittedAt isCommitted l (publishedBy calls) 1 length

theorem rebuild_restores_iff_plain :
    let calls := [AppendCall.plain [sampleMessage 5 7 118] (steadyEnv 9)]
    let p := (opened 0 Log.empty .strictPriority none).appends calls
    Restored (fun _ => false) (publishedBy calls)
        ((p.withIndex (newPriorityIndex 50000)).rebuild 1 fun _ => false) ↔
      AllRebuildable (fun _ => false) 1
        ((opened 0 Log.empty .strictPriority none).history calls) :=
  (rebuild_restores_iff 0 .strictPriority none
    [AppendCall.plain [sampleMessage 5 7 118] (steadyEnv 9)] ⟨⟨[1], rfl⟩, trivial⟩
    (fun _ => false) (newPriorityIndex 50000) 50000
    (PriorityIndex.newPriorityIndex_contents 50000) (PriorityIndex.newPriorityIndex_capacity 50000)
    (.inr (by decide))).1

/-- A compressed batch of two messages of priority 5: the leader is put at the
highest level, and the redirect stops `Rebuild`. -/
theorem rebuild_stops_at_redirect :
    let pair := [sampleMessage 5 7 118, sampleMessage 5 7 119]
    let call := AppendCall.compressed pair noopCodec (steadyEnv 9)
    let p := (opened 0 Log.empty .strictPriority (some noopCodec)).appends [call]
    let result := (p.withIndex (newPriorityIndex 50000)).rebuild 1 fun _ => false
    (call.run (opened 0 Log.empty .strictPriority (some noopCodec))).1 = .ok [1, 2] ∧
    result.1 = .error (.unmarshalHeader 2 (.headerTooShort 13)) ∧
    result.2.priorityIndex.map (fun pi => (pi.contents 9).map PendingEntry.walOffset) =
      some [1] ∧
    ¬ Restored (fun _ => false) pair result := by
  intro pair call p result
  have outcome : result.1 = .error (.unmarshalHeader 2 (.headerTooShort 13)) ∧
      result.2.priorityIndex.map (fun pi => (pi.contents 9).map PendingEntry.walOffset) =
        some [1] := by decide +kernel
  refine ⟨by decide +kernel, outcome.1, outcome.2, ?_⟩
  intro restored
  cases outcome.1.symm.trans restored.ok

end Partition

end NyaQueue
