import NyaQueue.ReadBack
import NyaQueue.Scheduler
import NyaQueue.PriorityAccounting
import NyaQueue.Lib.Runs

/-!
# Order within a priority level

An append hands out its offsets and writes the log under the lock of the
partition; it inserts its messages into the index afterwards, one by one, when
another append may already have inserted later offsets.  The steps here are the
critical section of an append, one insertion, and the visit of one level by a
running `Next`.  No record is ever removed, so a `Next` that pops an entry reads
its record in the same step.
-/

set_option autoImplicit false

namespace NyaQueue

namespace AppendCall

/-- The critical section of an append; the index is not yet updated. -/
def write (p : Partition) (call : AppendCall) : Except AppendError (List Nat) × Partition :=
  let result := call.run { p with priorityIndex := none }
  (result.1, { result.2 with priorityIndex := p.priorityIndex })

/-- The insertions that are left to do after it. -/
def insertions (p : Partition) (call : AppendCall) : List (Message × Nat) :=
  match (call.write p).1 with
  | .error _ => []
  | .ok offsets => call.msgs.zip offsets

theorem run_eq_write (p : Partition) (call : AppendCall) :
    call.run p = ((call.write p).1, { (call.write p).2 with
      priorityIndex := p.priorityIndex.map
        (indexMessages call.env.indexTime (call.insertions p)) }) := by
  have idle : p.priorityIndex.map (indexMessages call.env.indexTime []) = p.priorityIndex := by
    cases p.priorityIndex <;> rfl
  by_cases empty : call.msgs = []
  · simp only [insertions, write, call.run_empty _ empty, empty, List.zip_nil_left, idle]
  · cases call with
    | plain msgs env =>
      change msgs ≠ [] at empty
      simp only [insertions, write, run, Partition.appendBatch, List.isEmpty_eq_false_iff.mpr empty,
        Bool.false_eq_true, if_false, AppendCall.msgs, AppendCall.env] at idle ⊢
      cases p.log.writeBatch (assemble env 0 p.nextOffset msgs) env.disk with
      | error cause => simp only [idle]; rfl
      | ok log => simp only [assemble_offsets]; rfl
    | compressed msgs codec env =>
      change msgs ≠ [] at empty
      simp only [insertions, write, run, p.appendBatchCompressed_eq empty,
        Partition.appendBatchCompressed_eq _ empty, AppendCall.msgs, AppendCall.env] at idle ⊢
      cases codec.encode (batchPayload msgs env) with
      | error cause => simp only [idle]
      | ok packed =>
        have same : ({ p with priorityIndex := none } : Partition).compressedBatch msgs packed =
            p.compressedBatch msgs packed := rfl
        simp only [same, p.compressedBatch_offsets empty packed]
        cases p.log.writeBatch (p.compressedBatch msgs packed) env.disk with
        | error cause => simp only [idle]; rfl
        | ok log => rfl

end AppendCall

/-- What the critical section does with the offsets: those of the insertions
are the next ones, and they are gone. -/
theorem AppendCall.write_offsets (p : Partition) (call : AppendCall) :
    (call.insertions p).map Prod.snd =
        List.range' p.nextOffset (call.insertions p).length ∧
      p.nextOffset + (call.insertions p).length ≤ (call.write p).2.nextOffset ∧
      ∀ entry ∈ call.insertions p, entry.2 < 2 ^ 64 := by
  cases ran : call.run { p with priorityIndex := none } with
  | mk result q =>
    have after : (call.write p).2.nextOffset = q.nextOffset := by
      simp only [write, ran]
    rw [after]
    cases result with
    | error cause =>
      have nothing : call.insertions p = [] := by
        simp only [insertions, write, ran]
      have ahead : p.nextOffset ≤ q.nextOffset := by
        have cases_ := call.run_after { p with priorityIndex := none }
        rw [ran] at cases_
        rcases cases_ with same | moved | ⟨batch, log, -, -, stored⟩
        · exact Nat.le_of_eq (congrArg Partition.nextOffset same).symm
        · rw [show q = _ from moved]
          exact Nat.le_add_right ..
        · rw [show q = _ from stored]
          exact Nat.le_add_right ..
      rw [nothing]
      exact ⟨rfl, ahead, fun _ member => (by cases member)⟩
    | ok offsets =>
      have zipped : call.insertions p = call.msgs.zip offsets := by
        simp only [insertions, write, ran]
      have numbers : offsets = List.range' p.nextOffset call.msgs.length ∧
          q.nextOffset = p.nextOffset + call.msgs.length := by
        rcases run_ok ran with ⟨empty, rfl, rfl⟩ | ⟨batch, log, -, -, -, -, rfl, rfl⟩
        · rw [empty]
          exact ⟨rfl, rfl⟩
        · exact ⟨rfl, rfl⟩
      have length : (call.msgs.zip offsets).length = call.msgs.length := by
        rw [numbers.1, List.length_zip, List.length_range', Nat.min_self]
      rw [zipped, length, List.map_snd_zip (by rw [numbers.1, List.length_range'])]
      refine ⟨numbers.1, Nat.le_of_eq numbers.2.symm, ?_⟩
      intro entry member
      have inside := (Partition.run_offsets ran entry.2 (List.of_mem_zip member).2).2.2
      have fits := q.log.next_fits
      unfold Log.nextIndex at inside
      omega

/-! ## Appends and consumers at work -/

structure OrderRun where
  partition : Partition
  /-- the insertions that each append has left, and their time -/
  producers : Nat → List (Message × Nat) × Time
  /-- the levels that each running `Next` has still to visit -/
  consumers : Nat → Option (List Level)
  written : List (Message × Nat)
  inserted : List (Message × Nat)
  /-- the offsets returned by `Next`, with the level they were popped from -/
  returned : List (Level × Nat)

inductive OrderEvent where
  /-- the critical section of an append -/
  | write (id : Nat) (call : AppendCall)
  /-- the next insertion of an append -/
  | insert (id : Nat)
  | next (id : Nat)
  /-- a running `Next` visits a level -/
  | visit (id : Nat)

namespace OrderRun

def opened (p : Partition) : OrderRun where
  partition := p
  producers _ := ([], 0)
  consumers _ := none
  written := []
  inserted := []
  returned := []

def setIndex (s : OrderRun) (pi : PriorityIndex) : OrderRun :=
  { s with partition := { s.partition with priorityIndex := some pi } }

def setConsumer (s : OrderRun) (id : Nat) (tried : Option (List Level)) : OrderRun :=
  { s with consumers := Function.update s.consumers id tried }

/-- `Next` has popped an entry, and returns it unless the read fails. -/
def deliver (s : OrderRun) (level : Level) (e : PendingEntry) : OrderRun :=
  match s.partition.read (offsetOfInt64 e.walOffset) with
  | .error _ => s
  | .ok _ => { s with returned := s.returned ++ [(level, offsetOfInt64 e.walOffset)] }

/-- An append inserts an entry and has `rest` left. -/
def insertEntry (s : OrderRun) (id : Nat) (entry : Message × Nat) (rest : List (Message × Nat))
    (now : Time) : OrderRun :=
  { s with
    partition := { s.partition with
      priorityIndex := s.partition.priorityIndex.map (indexMessages now [entry]) }
    producers := Function.update s.producers id (rest, now)
    inserted := s.inserted ++ [entry] }

def step (s : OrderRun) : OrderEvent → OrderRun
  | .write id call =>
      match (s.producers id).1 with
      | _ :: _ => s
      | [] =>
          { s with
            partition := (call.write s.partition).2
            producers := Function.update s.producers id
              (call.insertions s.partition, call.env.indexTime)
            written := s.written ++ call.insertions s.partition }
  | .insert id =>
      match s.producers id with
      | ([], _) => s
      | (entry :: rest, now) => s.insertEntry id entry rest now
  | .next id =>
      match s.consumers id, s.partition.priorityIndex with
      | none, some _ => s.setConsumer id (some (levelsDownTo 0))
      | _, _ => s
  | .visit id =>
      match s.consumers id, s.partition.priorityIndex with
      | some [], _ => s.setConsumer id none
      | some (p :: rest), some pi =>
          let popped := (pi.levels p).pop
          match popped.2 with
          | none => s.setConsumer id (some rest)
          | some e =>
              ((s.setIndex ((pi.setLevel p popped.1).addTotal (-1))).setConsumer id none).deliver p e
      | _, _ => s

/-! ## Calls that nobody interrupts -/

/-- The offset that a `Next` returns. -/
def offsetsOf : NextResult → List Nat
  | .ok (_, offset) => [offset]
  | .error _ => []

theorem visits_alone {pi : PriorityIndex} (id : Nat) (tried : List Level) : ∀ s : OrderRun,
    s.partition.priorityIndex = some pi → s.consumers id = some tried →
    let next := s.partition.popNext fun pi => pi.popFirst tried
    ∃ s', Runs.Repeats step (.visit id) s s' ∧ s'.partition = next.2 ∧ s'.consumers id = none ∧
      s'.returned.map Prod.snd = s.returned.map Prod.snd ++ offsetsOf next.1 := by
  induction tried with
  | nil =>
    intro s indexed running next
    refine ⟨s.setConsumer id none, Runs.Repeats.head ?_, ?_, Function.update_self .., ?_⟩
    · have last : s.step (.visit id) = s.setConsumer id none := by
        simp only [step, running]
      rw [last]
      exact .refl ..
    · simp only [next, Partition.popNext, indexed, PriorityIndex.popFirst]
      rw [← indexed]
      rfl
    · simp only [next, Partition.popNext, indexed, PriorityIndex.popFirst, offsetsOf,
        List.append_nil]
      rfl
  | cons p rest ih =>
    intro s indexed running next
    cases queued : pi.contents p with
    | nil =>
      have nothing := PriorityLevel.pop_of_empty queued
      have skips : s.step (.visit id) = s.setConsumer id (some rest) := by
        simp only [step, running, indexed, nothing]
      obtain ⟨s', runs, same, ended, returned⟩ :=
        ih (s.setConsumer id (some rest)) indexed (Function.update_self ..)
      have shorter : next = s.partition.popNext fun pi => pi.popFirst rest := by
        simp only [next, Partition.popNext, indexed, PriorityIndex.popFirst, nothing]
      rw [shorter]
      refine ⟨s', Runs.Repeats.head ?_, same, ended, returned⟩
      rw [skips]
      exact runs
    | cons e others =>
      have front := (PriorityLevel.pop_of_cons queued).1
      have pops : s.step (.visit id) = ((s.setIndex ((pi.setLevel p
          (pi.levels p).pop.1).addTotal (-1))).setConsumer id none).deliver p e := by
        simp only [step, running, indexed, front]
      refine ⟨_, Runs.Repeats.head (by rw [pops]; exact .refl ..), ?_⟩
      have same : ((s.setIndex ((pi.setLevel p (pi.levels p).pop.1).addTotal (-1))).setConsumer
          id none).partition.read (offsetOfInt64 e.walOffset) =
          s.partition.read (offsetOfInt64 e.walOffset) := rfl
      simp only [next, Partition.popNext, indexed, PriorityIndex.popFirst, front, deliver, same]
      cases s.partition.read (offsetOfInt64 e.walOffset) with
      | error cause => exact ⟨rfl, Function.update_self .., (List.append_nil _).symm⟩
      | ok msg => exact ⟨rfl, Function.update_self .., List.map_append⟩

theorem inserts_alone (id : Nat) (now : Time) (left : List (Message × Nat)) : ∀ s : OrderRun,
    s.producers id = (left, now) →
    ∃ s', Runs.Repeats step (.insert id) s s' ∧ (s'.producers id).1 = [] ∧
      s'.partition = { s.partition with
        priorityIndex := s.partition.priorityIndex.map (indexMessages now left) } := by
  induction left with
  | nil =>
    intro s idle
    refine ⟨s, .refl .., by rw [idle], ?_⟩
    have same : s.partition.priorityIndex.map (indexMessages now []) =
        s.partition.priorityIndex := by
      cases s.partition.priorityIndex <;> rfl
    rw [same]
  | cons entry rest ih =>
    intro s busy
    have first : s.step (.insert id) = s.insertEntry id entry rest now := by
      simp only [step, busy]
    obtain ⟨s', runs, done, same⟩ :=
      ih (s.insertEntry id entry rest now) (Function.update_self ..)
    refine ⟨s', Runs.Repeats.head (by rw [first]; exact runs), done, ?_⟩
    rw [same]
    simp only [insertEntry, Option.map_map]
    rfl

variable {s : OrderRun}

theorem append_alone {id : Nat} (idle : (s.producers id).1 = []) (call : AppendCall) :
    ∃ s', Runs.Repeats step (.insert id) (s.step (.write id call)) s' ∧
      (s'.producers id).1 = [] ∧ s'.partition = (call.run s.partition).2 := by
  have wrote : s.step (.write id call) =
      { s with
        partition := (call.write s.partition).2
        producers := Function.update s.producers id
          (call.insertions s.partition, call.env.indexTime)
        written := s.written ++ call.insertions s.partition } := by
    simp only [step, idle]
  obtain ⟨s', runs, done, same⟩ := inserts_alone id call.env.indexTime
    (call.insertions s.partition) (s.step (.write id call))
    (by rw [wrote]; exact Function.update_self ..)
  refine ⟨s', runs, done, ?_⟩
  rw [same, wrote, call.run_eq_write]
  rfl

/-! ## Order -/

/-- A later append must not insert before an earlier one at the same level:
what is inserted is behind everything inserted at its level so far. -/
def InsertsInOrder (s : OrderRun) : OrderEvent → Prop
  | .insert id => ∀ entry ∈ (s.producers id).1.head?,
      ∀ other ∈ s.inserted, messageLevel other.1 = messageLevel entry.1 → other.2 < entry.2
  | _ => True

instance insertsInOrderDecidable (s : OrderRun) :
    ∀ event : OrderEvent, Decidable (s.InsertsInOrder event)
  | .insert id => inferInstanceAs (Decidable (∀ entry ∈ (s.producers id).1.head?,
      ∀ other ∈ s.inserted, messageLevel other.1 = messageLevel entry.1 → other.2 < entry.2))
  | .write _ _ => isTrue trivial
  | .next _ => isTrue trivial
  | .visit _ => isTrue trivial

/-- The messages of a level are returned in the order of their offsets. -/
def ReturnsInOrder (s : OrderRun) : Prop :=
  (s.returned.map Prod.snd).Pairwise fun o o' => ∀ m m', (m, o) ∈ s.written →
    (m', o') ∈ s.written → messageLevel m = messageLevel m' → o < o'

/-- The entries that wait at a level. -/
def waiting (s : OrderRun) (l : Level) : List PendingEntry :=
  s.partition.priorityIndex.elim [] fun pi => pi.contents l

def returnedAt (s : OrderRun) (l : Level) : List Nat :=
  (s.returned.filter fun entry => entry.1 = l).map Prod.snd

/-- The offsets of a level: those already returned, then those that wait. -/
def levelOffsets (s : OrderRun) (l : Level) : List Nat :=
  s.returnedAt l ++ (s.waiting l).map fun e => offsetOfInt64 e.walOffset

/-- What has been written: offsets that ascend and have been handed out. -/
structure Numbered (s : OrderRun) : Prop where
  ascending : (s.written.map Prod.snd).Pairwise (· < ·)
  handedOut : ∀ entry ∈ s.written, entry.2 < s.partition.nextOffset
  small : ∀ entry ∈ s.written, entry.2 < 2 ^ 64
  pending : ∀ id, ∀ entry ∈ (s.producers id).1, entry ∈ s.written
  inserted : ∀ entry ∈ s.inserted, entry ∈ s.written

/-- Everything at a level, or returned from it, was inserted there, and in the
order of the offsets. -/
structure Ordered (s : OrderRun) : Prop where
  numbered : s.Numbered
  known : ∀ l, ∀ o ∈ s.levelOffsets l, ∃ m, (m, o) ∈ s.inserted ∧ messageLevel m = l
  order : ∀ l, (s.levelOffsets l).Pairwise (· < ·)

theorem pairwise_of_levels {returned : List (Level × Nat)}
    (levels : ∀ l, ((returned.filter fun entry => entry.1 = l).map Prod.snd).Pairwise (· < ·)) :
    returned.Pairwise fun a b => a.1 = b.1 → a.2 < b.2 := by
  induction returned with
  | nil => exact .nil
  | cons a rest ih =>
    refine List.pairwise_cons.mpr ⟨?_, ih fun l => ?_⟩
    · intro b member same
      have here := levels a.1
      rw [List.filter_cons_of_pos (by simp), List.map_cons, List.pairwise_cons] at here
      refine here.1 b.2 (List.mem_map_of_mem (List.mem_filter.mpr ⟨member, ?_⟩))
      exact decide_eq_true same.symm
    · have here := levels l
      rw [List.filter_cons] at here
      split at here
      · exact (List.pairwise_cons.mp here).2
      · exact here

theorem Numbered.message_unique (numbered : s.Numbered) {m m' : Message} {o : Nat}
    (first : (m, o) ∈ s.written) (second : (m', o) ∈ s.written) : m = m' := by
  have distinct : (s.written.map Prod.snd).Nodup :=
    numbered.ascending.imp fun less => Nat.ne_of_lt less
  have same := List.inj_on_of_nodup_map distinct first second rfl
  exact congrArg Prod.fst same

theorem Ordered.returned (ordered : s.Ordered) {entry : Level × Nat} (member : entry ∈ s.returned) :
    ∃ m, (m, entry.2) ∈ s.inserted ∧ messageLevel m = entry.1 := by
  apply ordered.known entry.1
  refine List.mem_append_left _ (List.mem_map_of_mem (List.mem_filter.mpr ⟨member, ?_⟩))
  exact decide_eq_true rfl

theorem Ordered.returnsInOrder (ordered : s.Ordered) : s.ReturnsInOrder := by
  have pairs : s.returned.Pairwise fun a b => a.1 = b.1 → a.2 < b.2 :=
    pairwise_of_levels fun l => (List.pairwise_append.mp (ordered.order l)).1
  unfold ReturnsInOrder
  rw [List.pairwise_map]
  refine pairs.imp_of_mem ?_
  intro a b memberA memberB less m m' writtenA writtenB sameLevel
  obtain ⟨n, insertedA, levelA⟩ := ordered.returned memberA
  obtain ⟨n', insertedB, levelB⟩ := ordered.returned memberB
  have first := ordered.numbered.message_unique writtenA
    (ordered.numbered.inserted _ insertedA)
  have second := ordered.numbered.message_unique writtenB
    (ordered.numbered.inserted _ insertedB)
  apply less
  rw [← levelA, ← levelB, ← first, ← second, sameLevel]

/-! ### The steps -/

section Steps

variable {s : OrderRun}

theorem ordered_opened (p : Partition) (drained : ∀ pi, p.priorityIndex = some pi →
    ∀ l, pi.contents l = []) : (opened p).Ordered := by
  have nothing : ∀ l, (opened p).levelOffsets l = [] := by
    intro l
    unfold levelOffsets waiting
    change [] ++ (p.priorityIndex.elim [] fun pi => pi.contents l).map _ = []
    cases indexed : p.priorityIndex with
    | none => rfl
    | some pi => simp [drained pi indexed l]
  refine ⟨⟨.nil, ?_, ?_, ?_, ?_⟩, ?_, ?_⟩
  · intro entry member; cases member
  · intro entry member; cases member
  · intro id entry member; cases member
  · intro entry member; cases member
  · intro l o member
    rw [nothing] at member
    cases member
  · intro l
    rw [nothing]
    exact .nil

theorem Ordered.of_sublist {s' : OrderRun} (ordered : s.Ordered) (numbered : s'.Numbered)
    (inserted : s'.inserted = s.inserted)
    (fewer : ∀ l, (s'.levelOffsets l).Sublist (s.levelOffsets l)) : s'.Ordered := by
  refine ⟨numbered, ?_, ?_⟩
  · intro l o member
    rw [inserted]
    exact ordered.known l o ((fewer l).subset member)
  · intro l
    exact (ordered.order l).sublist (fewer l)

theorem ordered_write (ordered : s.Ordered) (id : Nat) (call : AppendCall) :
    (s.step (.write id call)).Ordered := by
  simp only [step]
  cases busy : (s.producers id).1 with
  | cons entry rest => exact ordered
  | nil =>
    obtain ⟨offsets, advanced, small⟩ := call.write_offsets s.partition
    have numbered := ordered.numbered
    refine ordered.of_sublist ⟨?_, ?_, ?_, ?_, ?_⟩ rfl fun l => List.Sublist.refl _
    · dsimp only
      rw [List.map_append, offsets, List.pairwise_append]
      refine ⟨numbered.ascending, List.pairwise_lt_range', ?_⟩
      intro o old o' new
      obtain ⟨entry, member, rfl⟩ := List.mem_map.mp old
      have := numbered.handedOut entry member
      have := (List.mem_range'_1.mp new).1
      omega
    · intro entry member
      dsimp only
      rcases List.mem_append.mp member with old | new
      · have := numbered.handedOut entry old
        omega
      · have inside : entry.2 ∈ (call.insertions s.partition).map Prod.snd :=
          List.mem_map_of_mem new
        rw [offsets] at inside
        have := (List.mem_range'_1.mp inside).2
        omega
    · intro entry member
      rcases List.mem_append.mp member with old | new
      · exact numbered.small entry old
      · exact small entry new
    · intro id' entry member
      dsimp only at member ⊢
      by_cases same : id' = id
      · rw [same, Function.update_self] at member
        exact List.mem_append_right _ member
      · rw [Function.update_of_ne same] at member
        exact List.mem_append_left _ (numbered.pending id' entry member)
    · intro entry member
      exact List.mem_append_left _ (numbered.inserted entry member)

theorem indexMessages_contents (now : Time) (entry : Message × Nat) (pi : PriorityIndex)
    (l : Level) : ((indexMessages now [entry] pi).contents l).Sublist
      (pi.contents l ++ if messageLevel entry.1 = l then [indexEntry now entry] else []) := by
  have level : clampLevel entry.1.header.priority.toNat = messageLevel entry.1 := rfl
  change ((pi.add entry.1.header.priority.toNat (int64OfOffset entry.2) now).1.contents l).Sublist _
  rw [PriorityIndex.add_contents, level]
  by_cases here : messageLevel entry.1 = l
  · rw [if_pos here, ← here, Function.update_self]
    unfold BoundedQueue.push
    split
    · exact (List.tail_sublist _).append (List.Sublist.refl _)
    · exact List.Sublist.refl _
  · rw [if_neg here, List.append_nil, Function.update_of_ne (Ne.symm here)]

theorem levelOffsets_inserted (s : OrderRun) (id : Nat) {entry : Message × Nat}
    (small : entry.2 < 2 ^ 64) (rest : List (Message × Nat)) (now : Time) (l : Level) :
    ((s.insertEntry id entry rest now).levelOffsets l).Sublist
      (s.levelOffsets l ++ if messageLevel entry.1 = l then [entry.2] else []) := by
  have offset : offsetOfInt64 (indexEntry now entry).walOffset = entry.2 :=
    offsetOfInt64_int64OfOffset small
  unfold levelOffsets
  rw [List.append_assoc]
  refine (List.Sublist.refl _).append ?_
  unfold waiting insertEntry
  dsimp only
  cases s.partition.priorityIndex with
  | none => exact List.nil_sublist _
  | some pi =>
    have added := (indexMessages_contents now entry pi l).map
      fun e => offsetOfInt64 e.walOffset
    rw [List.map_append] at added
    refine added.trans ?_
    by_cases here : messageLevel entry.1 = l
    · simp only [if_pos here, List.map_singleton, offset, Option.elim_some]
      exact List.Sublist.refl _
    · simp only [if_neg here, List.map_nil, Option.elim_some]
      exact List.Sublist.refl _

theorem ordered_insert (ordered : s.Ordered) (id : Nat) (guard : s.InsertsInOrder (.insert id)) :
    (s.step (.insert id)).Ordered := by
  have numbered := ordered.numbered
  cases busy : s.producers id with
  | mk left now =>
    cases left with
    | nil =>
      have idle : s.step (.insert id) = s := by simp only [step, busy]
      rw [idle]
      exact ordered
    | cons entry rest =>
      have after : s.step (.insert id) = s.insertEntry id entry rest now := by
        simp only [step, busy]
      have written : entry ∈ s.written :=
        numbered.pending id entry (by rw [busy]; exact List.mem_cons_self)
      have more := s.levelOffsets_inserted id (numbered.small entry written) rest now
      rw [after]
      refine ⟨⟨numbered.ascending, numbered.handedOut, numbered.small, ?_, ?_⟩, ?_, ?_⟩
      · intro id' other member
        change other ∈ (Function.update s.producers id (rest, now) id').1 at member
        apply numbered.pending id' other
        by_cases same : id' = id
        · rw [same, Function.update_self] at member
          rw [same, busy]
          exact List.mem_cons_of_mem _ member
        · rw [Function.update_of_ne same] at member
          exact member
      · intro other member
        rcases List.mem_append.mp member with old | new
        · exact numbered.inserted other old
        · rw [List.mem_singleton.mp new]
          exact written
      · intro l o member
        rcases List.mem_append.mp ((more l).subset member) with old | new
        · obtain ⟨m, inserted, level⟩ := ordered.known l o old
          exact ⟨m, List.mem_append_left _ inserted, level⟩
        · split at new
          · rename_i level
            rw [List.mem_singleton.mp new]
            exact ⟨entry.1, List.mem_append_right _ List.mem_cons_self, level⟩
          · cases new
      · intro l
        refine List.Pairwise.sublist (more l) (List.pairwise_append.mpr
          ⟨ordered.order l, ?_, ?_⟩)
        · split
          · exact List.pairwise_singleton ..
          · exact .nil
        · intro o old o' new
          split at new
          · rename_i level
            obtain ⟨m, inserted, same⟩ := ordered.known l o old
            rw [List.mem_singleton.mp new]
            exact guard entry (by rw [busy]; rfl) (m, o) inserted (same.trans level.symm)
          · cases new

theorem Numbered.of_eq {s' : OrderRun} (numbered : s.Numbered) (written : s'.written = s.written)
    (next : s'.partition.nextOffset = s.partition.nextOffset)
    (producers : s'.producers = s.producers) (inserted : s'.inserted = s.inserted) :
    s'.Numbered := by
  obtain ⟨ascending, handedOut, small, pending, known⟩ := numbered
  constructor
  · rwa [written]
  · rwa [written, next]
  · rwa [written]
  · rwa [written, producers]
  · rwa [written, inserted]

theorem Ordered.setConsumer (ordered : s.Ordered) (id : Nat) (tried : Option (List Level)) :
    (s.setConsumer id tried).Ordered :=
  ordered.of_sublist (ordered.numbered.of_eq rfl rfl rfl rfl) rfl fun _ => List.Sublist.refl _

theorem deliver_inserted (s : OrderRun) (level : Level) (e : PendingEntry) :
    (s.deliver level e).inserted = s.inserted := by
  unfold deliver
  split <;> rfl

theorem Numbered.deliver (numbered : s.Numbered) (level : Level) (e : PendingEntry) :
    (s.deliver level e).Numbered := by
  unfold OrderRun.deliver
  split
  · exact numbered
  · exact numbered.of_eq rfl rfl rfl rfl

theorem levelOffsets_deliver {pi : PriorityIndex} (indexed : s.partition.priorityIndex = some pi)
    {level : Level} {e : PendingEntry} {rest : List PendingEntry}
    (queued : pi.contents level = e :: rest) (id : Nat) (l : Level) :
    ((((s.setIndex ((pi.setLevel level (pi.levels level).pop.1).addTotal (-1))).setConsumer id
      none).deliver level e).levelOffsets l).Sublist (s.levelOffsets l) := by
  have contents := PriorityIndex.pop_contents queued
  have before : s.levelOffsets l =
      s.returnedAt l ++ (pi.contents l).map fun e => offsetOfInt64 e.walOffset := by
    rw [levelOffsets, waiting, indexed]
    rfl
  rw [before]
  have waits : ∀ s' : OrderRun, s'.partition.priorityIndex =
      some ((pi.setLevel level (pi.levels level).pop.1).addTotal (-1)) →
      s'.waiting l = Function.update pi.contents level rest l := by
    intro s' indexed'
    rw [waiting, indexed', ← contents]
    rfl
  unfold deliver
  split
  · rw [levelOffsets, waits _ rfl]
    refine (List.Sublist.refl _).append (List.Sublist.map _ ?_)
    by_cases here : l = level
    · rw [here, Function.update_self, queued]
      exact List.sublist_cons_self ..
    · rw [Function.update_of_ne here]
  · rw [levelOffsets, waits _ rfl, returnedAt]
    change List.Sublist (List.map Prod.snd (List.filter _ (s.returned ++ [(level, _)])) ++ _) _
    rw [List.filter_append, List.map_append, List.append_assoc]
    refine (List.Sublist.refl _).append ?_
    by_cases here : l = level
    · rw [here, Function.update_self, queued]
      simp
    · rw [Function.update_of_ne here, List.filter_cons_of_neg (by simpa using Ne.symm here)]
      exact List.Sublist.refl _

theorem ordered_visit (ordered : s.Ordered) (id : Nat) : (s.step (.visit id)).Ordered := by
  simp only [step]
  split
  · exact ordered.setConsumer id none
  · rename_i level rest pi _ indexed
    cases queued : pi.contents level with
    | nil =>
      rw [PriorityLevel.pop_of_empty queued]
      exact ordered.setConsumer id (some rest)
    | cons e others =>
      rw [(PriorityLevel.pop_of_cons queued).1]
      refine ordered.of_sublist (Numbered.deliver ?_ level e) (deliver_inserted ..)
        (levelOffsets_deliver indexed queued id)
      exact ordered.numbered.of_eq rfl rfl rfl rfl
  · exact ordered

theorem ordered_step (ordered : s.Ordered) (event : OrderEvent) (guard : s.InsertsInOrder event) :
    (s.step event).Ordered := by
  cases event with
  | write id call => exact ordered_write ordered id call
  | insert id => exact ordered_insert ordered id guard
  | next id =>
    simp only [step]
    split
    · exact ordered.setConsumer id _
    · exact ordered
  | visit id => exact ordered_visit ordered id

end Steps

/-- As long as every insertion is behind the others of its level, the messages
of a level are returned in the order of their offsets, whatever the interleaving. -/
theorem run_returns_in_order (p : Partition)
    (drained : ∀ pi, p.priorityIndex = some pi → ∀ l, pi.contents l = [])
    (events : List OrderEvent) (guarded : Runs.Guarded step InsertsInOrder (opened p) events) :
    ∀ s ∈ Runs.states step (opened p) events, s.ReturnsInOrder := by
  intro s member
  have ordered : s.Ordered := Runs.invariant_states
    (fun (s : OrderRun) event (ordered : s.Ordered) guard => ordered_step ordered event guard)
    events _ (ordered_opened p drained) guarded s member
  exact ordered.returnsInOrder

/-- A fresh partition with strict priority. -/
def freshPriority : Partition := Partition.new 0 Log.empty .strictPriority

/-- Two appends of one message of priority 5; `second` inserts first if `late`
is set, and then two `Next` calls visit their levels down to the fifth. -/
def twoAppends (late : Bool) : List OrderEvent :=
  [.write 0 (.plain [sampleMessage 5 7 118] (steadyEnv 9)),
   .write 1 (.plain [sampleMessage 5 8 119] (steadyEnv 9))] ++
  (if late then [.insert 1, .insert 0] else [.insert 0, .insert 1]) ++
  .next 0 :: List.replicate 5 (.visit 0) ++ .next 0 :: List.replicate 5 (.visit 0)

theorem run_returns_in_order_two :
    Runs.Guarded step InsertsInOrder (opened freshPriority) (twoAppends false) ∧
      ∀ s ∈ Runs.states step (opened freshPriority) (twoAppends false), s.ReturnsInOrder := by
  have guarded : Runs.Guarded step InsertsInOrder (opened freshPriority) (twoAppends false) := by
    decide +kernel
  refine ⟨guarded, run_returns_in_order freshPriority ?_ (twoAppends false) guarded⟩
  intro pi indexed l
  cases indexed
  rfl

/-- The append that wrote offset 1 inserts after the one that wrote offset 2:
`Next` returns offset 2 first. -/
theorem late_insertion_reorders :
    let s := Runs.final step (opened freshPriority) (twoAppends true)
    s.written.map (fun entry => (messageLevel entry.1, entry.2)) = [(5, 1), (5, 2)] ∧
    s.returned = [(5, 2), (5, 1)] ∧ ¬ s.ReturnsInOrder := by
  intro s
  have outcome : s.written.map (fun entry => (messageLevel entry.1, entry.2)) = [(5, 1), (5, 2)] ∧
      s.returned = [(5, 2), (5, 1)] := by decide +kernel
  refine ⟨outcome.1, outcome.2, ?_⟩
  intro ordered
  have level : ∀ o, ((5 : Level), o) ∈ s.written.map (fun entry => (messageLevel entry.1, entry.2)) →
      ∃ m, (m, o) ∈ s.written ∧ messageLevel m = 5 := by
    intro o member
    obtain ⟨entry, written, same⟩ := List.mem_map.mp member
    obtain ⟨first, rfl⟩ := Prod.mk.inj same
    exact ⟨entry.1, written, first⟩
  rw [outcome.1] at level
  obtain ⟨m, written, at5⟩ := level 1 (by simp)
  obtain ⟨m', written', at5'⟩ := level 2 (by simp)
  rw [ReturnsInOrder, outcome.2] at ordered
  have less := (List.pairwise_cons.mp ordered).1 1 (by simp) m' m written' written
    (at5'.trans at5.symm)
  omega

end OrderRun

end NyaQueue
