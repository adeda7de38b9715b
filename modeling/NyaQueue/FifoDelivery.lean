import NyaQueue.Produce
import NyaQueue.Lib.Runs

/-!
# Delivery on FIFO topics

Publishers and consumer groups on one topic, interleaved.  A `ConsumeBatch`
call is taken apart into the steps other goroutines can come between: it loads
its offset, tests the high-water mark, reads, and commits at the end.  A
publish is one append under the lock of the partition; each group of a
`PublishBatch` is one of its own.
-/

set_option autoImplicit false

namespace NyaQueue

/-- A reader of the topic: consumer group and partition. -/
abbrev Reader := Bytes × Int

inductive ConsumePhase where
  | check
  | read
  | commit
  deriving DecidableEq

/-- The local variables of a running `ConsumeBatch`. -/
structure ConsumeCall where
  left : Nat
  currentOffset : Nat
  msgs : List Message
  phase : ConsumePhase

inductive FifoEvent where
  | publish (msg : Message) (env : PublishEnv)
  | publishGroup (partIdx : Int) (msgs : List Message) (env : AppendEnv)
  | consume (reader : Reader) (maxMessages : Int)
  | advance (reader : Reader) (now : Time) (written : Bool)

structure FifoRun where
  broker : Broker
  calls : Reader → Option ConsumeCall
  delivered : Reader → List Message

namespace FifoRun

variable (name : Bytes)

def start (b : Broker) : FifoRun where
  broker := b
  calls _ := none
  delivered _ := []

def setCall (s : FifoRun) (reader : Reader) (call : Option ConsumeCall) : FifoRun :=
  { s with calls := Function.update s.calls reader call }

/-- The loop of `ConsumeBatch` is left: without a message the call is over. -/
def leave (s : FifoRun) (reader : Reader) (call : ConsumeCall) : FifoRun :=
  s.setCall reader (if call.msgs = [] then none else some { call with phase := .commit })

/-- The first half of a round: is there anything at the current offset? -/
def check (s : FifoRun) (reader : Reader) (call : ConsumeCall) (p : Partition) : FifoRun :=
  if call.left = 0 then s.leave reader call
  else if p.highWaterMark < call.currentOffset then s.leave reader call
  else s.setCall reader (some { call with phase := .read })

/-- The second half of a round: read and decompress the message. -/
def read (s : FifoRun) (reader : Reader) (call : ConsumeCall) (p : Partition) : FifoRun :=
  match p.read call.currentOffset with
  | .error _ => s.leave reader call
  | .ok raw =>
      match s.broker.decompressMessage raw with
      | .error _ => s.leave reader call
      | .ok msg => s.setCall reader (some {
          left := call.left - 1
          currentOffset := call.currentOffset + 1
          msgs := call.msgs ++ [msg]
          phase := .check })

/-- The commit; the messages are returned whether or not it reports an error. -/
def commit (s : FifoRun) (reader : Reader) (call : ConsumeCall) (now : Time) (written : Bool) :
    FifoRun where
  broker := (s.broker.commit reader.1 name reader.2 (int64OfOffset call.currentOffset) now written).2
  calls := Function.update s.calls reader none
  delivered := Function.update s.delivered reader (s.delivered reader ++ call.msgs)

/-- The next step of a running call. -/
def advance (s : FifoRun) (reader : Reader) (call : ConsumeCall) (now : Time) (written : Bool) :
    FifoRun :=
  match (s.broker.topics name).bind fun t => (t.partition reader.2).toOption with
  | none => s.setCall reader none
  | some p =>
      match call.phase with
      | .check => s.check reader call p
      | .read => s.read reader call p
      | .commit => s.commit name reader call now written

def step (s : FifoRun) : FifoEvent → FifoRun
  | .publish msg env => { s with broker := (s.broker.publish name msg env).2.2 }
  | .publishGroup partIdx msgs env =>
      match s.broker.topics name with
      | none => s
      | some t => { s with
          broker := s.broker.setTopic name
            (appendPartitionBatch s.broker.snap t partIdx msgs env).2 }
  | .consume reader maxMessages =>
      match s.calls reader with
      | some _ => s
      | none => s.setCall reader (some {
          left := maxMessages.toNat
          currentOffset := s.broker.startOffset reader.1 name reader.2
          msgs := []
          phase := .check })
  | .advance reader now written =>
      match s.calls reader with
      | none => s
      | some call => s.advance name reader call now written

end FifoRun

/-- A FIFO topic with an offset store that nobody has committed to yet. -/
structure FreshTopic (b : Broker) (name : Bytes) : Prop where
  topic : ∃ t, b.topics name = some t ∧ ∀ id p, t.partition id = .ok p → p.Ahead
  scheduler : b.schedulers name = some .fifo
  store : ∃ s, b.offsetStore = some s ∧
    ∀ group partIdx, ∃ cause, s.load group name partIdx = .error cause

/-- The messages are what reading offsets `1, 2, …` gives, decompressed. -/
def ReadsOf (b : Broker) (p : Partition) (msgs : List Message) : Prop :=
  ∀ (j : Nat) (m : Message), msgs[j]? = some m →
    ∃ raw, p.read (j + 1) = .ok raw ∧ b.decompressMessage raw = .ok m

theorem readsOf_nil (b : Broker) (p : Partition) : ReadsOf b p [] := by
  intro j m at_j
  cases at_j

variable {b : Broker} {p : Partition} {msgs : List Message}

theorem ReadsOf.append (reads : ReadsOf b p msgs) {raw m : Message}
    (read : p.read (msgs.length + 1) = .ok raw) (decompressed : b.decompressMessage raw = .ok m) :
    ReadsOf b p (msgs ++ [m]) := by
  intro j m' at_j
  rcases Nat.lt_trichotomy j msgs.length with before | rfl | after
  · rw [List.getElem?_append_left before] at at_j
    exact reads j m' at_j
  · rw [List.getElem?_append_right (Nat.le_refl _), Nat.sub_self] at at_j
    cases at_j
    exact ⟨raw, read, decompressed⟩
  · rw [List.getElem?_eq_none (by simp; omega)] at at_j
    cases at_j

theorem ReadsOf.grow {b' : Broker} (snap : b'.snap = b.snap) {q : Partition} (grown : p.Extends q)
    (reads : ReadsOf b p msgs) :
    ReadsOf b' q msgs := by
  intro j m at_j
  obtain ⟨raw, read, decompressed⟩ := reads j m at_j
  refine ⟨raw, Partition.read_of_extends grown read, ?_⟩
  rw [← decompressed]
  unfold Broker.decompressMessage
  rw [snap]

theorem ReadsOf.left {later : List Message} (reads : ReadsOf b p (msgs ++ later)) :
    ReadsOf b p msgs := by
  intro j m at_j
  obtain ⟨inside, -⟩ := List.getElem?_eq_some_iff.mp at_j
  exact reads j m (by rw [List.getElem?_append_left inside, at_j])

theorem ReadsOf.forall₂ (reads : ReadsOf b p msgs) :
    List.Forall₂ (fun offset m => ∃ raw, p.read offset = .ok raw ∧
      b.decompressMessage raw = .ok m) (List.range' 1 msgs.length) msgs := by
  refine List.forall₂_iff_get.mpr ⟨List.length_range', ?_⟩
  intro j inside inside'
  have read := reads j _ (List.getElem?_eq_getElem inside')
  simpa [Nat.add_comm] using read

theorem ReadsOf.bound (reads : ReadsOf b p msgs) (nonempty : msgs ≠ []) :
    msgs.length < p.log.nextIndex := by
  have positive := List.length_pos_of_ne_nil nonempty
  have last : msgs.length - 1 + 1 = msgs.length := by omega
  have at_last : msgs[msgs.length - 1]? = some msgs[msgs.length - 1] :=
    List.getElem?_eq_getElem (by omega)
  obtain ⟨raw, read, -⟩ := reads _ _ at_last
  rw [last] at read
  exact (Partition.read_bounds read).2

namespace FifoRun

/-! ## The invariant -/

/-- Everything a reader has been or is about to be given. -/
def received (s : FifoRun) (reader : Reader) : List Message :=
  s.delivered reader ++ ((s.calls reader).map ConsumeCall.msgs).getD []

/-- What holds of one reader of a partition. -/
structure ReaderInv (name : Bytes) (s : FifoRun) (store : OffsetStore) (p : Partition)
    (reader : Reader) : Prop where
  reads : ReadsOf s.broker p (s.received reader)
  offset : ∀ call, s.calls reader = some call →
    call.currentOffset = (s.received reader).length + 1
  pending : ∀ call, s.calls reader = some call → call.phase = .commit → call.msgs ≠ []
  stored : (s.delivered reader = [] ∧ ∃ cause, store.load reader.1 name reader.2 = .error cause) ∨
    (s.delivered reader ≠ [] ∧ store.load reader.1 name reader.2 =
      .ok (int64OfOffset ((s.delivered reader).length + 1)))

structure Inv (name : Bytes) (s : FifoRun) : Prop where
  topic : ∃ t store, s.broker.topics name = some t ∧ s.broker.offsetStore = some store ∧
    ∀ id p, t.partition id = .ok p →
      p.Ahead ∧ ∀ group, ReaderInv name s store p (group, id)

section Steps

variable {name : Bytes} {s s' : FifoRun} {store store' : OffsetStore} {p q : Partition}
  {reader : Reader}

/-- A step that leaves the call, the deliveries and the committed offset of a
reader alone, and only adds records. -/
theorem ReaderInv.frame (inv : ReaderInv name s store p reader)
    (snap : s'.broker.snap = s.broker.snap) (grown : p.Extends q)
    (call : s'.calls reader = s.calls reader)
    (delivered : s'.delivered reader = s.delivered reader)
    (load : store'.load reader.1 name reader.2 = store.load reader.1 name reader.2) :
    ReaderInv name s' store' q reader := by
  have received : s'.received reader = s.received reader := by
    rw [FifoRun.received, FifoRun.received, call, delivered]
  refine ⟨?_, ?_, ?_, ?_⟩
  · rw [received]
    exact inv.reads.grow snap grown
  · rw [call, received]
    exact inv.offset
  · rw [call]
    exact inv.pending
  · rw [delivered, load]
    exact inv.stored

theorem inv_append (inv : Inv name s) {t t' : Topic} (there : s.broker.topics name = some t)
    (appended : t.Appended t') :
    Inv name { s with broker := s.broker.setTopic name t' } := by
  obtain ⟨t₀, store, there₀, stored, readers⟩ := inv.topic
  rw [there] at there₀
  cases there₀
  refine ⟨t', store, by simp, by simpa using stored, ?_⟩
  intro id p' there'
  obtain ⟨p, before⟩ := appended.partition_inv there'
  obtain ⟨ahead, inv⟩ := readers id p before
  have grown := appended.grown before there'
  exact ⟨grown.2 ahead, fun group => (inv group).frame rfl grown.1 rfl rfl rfl⟩

theorem inv_setCall (inv : Inv name s) (reader : Reader) (call : Option ConsumeCall)
    (own : ∀ t store p, s.broker.topics name = some t → s.broker.offsetStore = some store →
      t.partition reader.2 = .ok p → ReaderInv name s store p reader →
      ReaderInv name (s.setCall reader call) store p reader) :
    Inv name (s.setCall reader call) := by
  obtain ⟨t, store, there, stored, readers⟩ := inv.topic
  refine ⟨t, store, there, stored, ?_⟩
  intro id p found
  obtain ⟨ahead, inv⟩ := readers id p found
  refine ⟨ahead, ?_⟩
  intro group
  by_cases same : (group, id) = reader
  · subst same
    exact own t store p there stored found (inv group)
  · exact (inv group).frame rfl (Partition.Extends.refl p) (Function.update_of_ne same ..) rfl rfl

variable {call : ConsumeCall}

theorem received_of_call (running : s.calls reader = some call) :
    s.received reader = s.delivered reader ++ call.msgs := by
  rw [received, running]
  rfl

theorem received_of_idle (idle : s.calls reader = none) :
    s.received reader = s.delivered reader := by
  rw [received, idle]
  exact List.append_nil _

theorem setCall_self (s : FifoRun) (reader : Reader) (call : Option ConsumeCall) :
    (s.setCall reader call).calls reader = call :=
  Function.update_self ..

theorem ReaderInv.rephase (inv : ReaderInv name s store p reader) {call' : ConsumeCall}
    (running : s.calls reader = some call) (msgs : call'.msgs = call.msgs)
    (offset : call'.currentOffset = call.currentOffset)
    (pending : call'.phase = .commit → call.msgs ≠ []) :
    ReaderInv name (s.setCall reader (some call')) store p reader := by
  have received : (s.setCall reader (some call')).received reader = s.received reader := by
    rw [received_of_call (setCall_self s reader _), received_of_call running, msgs]
    rfl
  refine ⟨received ▸ inv.reads, ?_, ?_, inv.stored⟩
  · intro c same
    rw [setCall_self] at same
    cases same
    rw [received, offset]
    exact inv.offset call running
  · intro c same commits
    rw [setCall_self] at same
    cases same
    rw [msgs]
    exact pending commits

theorem ReaderInv.finish (inv : ReaderInv name s store p reader)
    (running : s.calls reader = some call) (none : call.msgs = []) :
    ReaderInv name (s.setCall reader Option.none) store p reader := by
  have received : (s.setCall reader Option.none).received reader = s.received reader := by
    rw [received_of_idle (setCall_self s reader _), received_of_call running, none,
      List.append_nil]
    rfl
  refine ⟨received ▸ inv.reads, ?_, ?_, inv.stored⟩
  · intro c same
    rw [setCall_self] at same
    cases same
  · intro c same
    rw [setCall_self] at same
    cases same

theorem inv_leave (inv : Inv name s) (running : s.calls reader = some call) :
    Inv name (s.leave reader call) := by
  apply inv_setCall inv
  intro t store p _ _ _ own
  by_cases none : call.msgs = []
  · rw [if_pos none]
    exact own.finish running none
  · rw [if_neg none]
    exact own.rephase running rfl rfl fun _ => none

theorem inv_check (inv : Inv name s) (running : s.calls reader = some call) (p : Partition) :
    Inv name (s.check reader call p) := by
  unfold check
  split
  · exact inv_leave inv running
  · split
    · exact inv_leave inv running
    · apply inv_setCall inv
      intro t store p _ _ _ own
      exact own.rephase running rfl rfl fun impossible => by cases impossible

theorem inv_read (inv : Inv name s) (running : s.calls reader = some call) {t : Topic}
    (there : s.broker.topics name = some t) (found : t.partition reader.2 = .ok p) :
    Inv name (s.read reader call p) := by
  unfold read
  cases result : p.read call.currentOffset with
  | error cause => exact inv_leave inv running
  | ok raw =>
    dsimp only
    cases decompressed : s.broker.decompressMessage raw with
    | error cause => exact inv_leave inv running
    | ok msg =>
      apply inv_setCall inv
      intro t' store p' there' _ found' own
      rw [there] at there'
      cases there'
      rw [found] at found'
      cases found'
      have before := received_of_call running
      have position := own.offset call running
      refine ⟨?_, ?_, ?_, own.stored⟩
      · rw [received_of_call (setCall_self s reader _)]
        have extended := own.reads.append (position ▸ result) decompressed
        rw [before, List.append_assoc] at extended
        exact extended
      · intro c same
        rw [setCall_self] at same
        cases same
        rw [received_of_call (setCall_self s reader _), position, before]
        simp [setCall]
        omega
      · intro c same commits
        rw [setCall_self] at same
        cases same
        cases commits

theorem ReaderInv.startOffset (own : ReaderInv name s store p reader)
    (idle : s.calls reader = none) (stored : s.broker.offsetStore = some store) :
    s.broker.startOffset reader.1 name reader.2 = (s.delivered reader).length + 1 := by
  unfold Broker.startOffset
  rw [stored]
  dsimp only
  rcases own.stored with ⟨nothing, cause, load⟩ | ⟨nonempty, load⟩
  · rw [load, nothing]
    rfl
  · rw [load]
    have reads := own.reads
    rw [received_of_idle idle] at reads
    have bound := reads.bound nonempty
    have fits := p.log.next_fits
    unfold Log.nextIndex at bound
    exact offsetOfInt64_int64OfOffset (by omega)

theorem inv_consume (inv : Inv name s) (idle : s.calls reader = none) (maxMessages : Int) :
    Inv name (s.setCall reader (some {
      left := maxMessages.toNat
      currentOffset := s.broker.startOffset reader.1 name reader.2
      msgs := []
      phase := .check })) := by
  apply inv_setCall inv
  intro t store p _ stored found own
  have reads := own.reads
  rw [received_of_idle idle] at reads
  refine ⟨?_, ?_, ?_, own.stored⟩
  · rw [received_of_call (setCall_self s reader _), List.append_nil]
    exact reads
  · intro c same
    rw [setCall_self] at same
    cases same
    rw [received_of_call (setCall_self s reader _), List.append_nil]
    exact own.startOffset idle stored
  · intro c same commits
    rw [setCall_self] at same
    cases same
    cases commits

theorem commit_offsetStore (name : Bytes) (b : Broker) {store : OffsetStore}
    (stored : b.offsetStore = some store) (group : Bytes) (partIdx : Int) (offset : Int64)
    (now : Time) (written : Bool) :
    (b.commit group name partIdx offset now written).2 =
      { b with offsetStore := some (store.commit group name partIdx offset now written).2 } := by
  unfold Broker.commit
  rw [stored]

theorem inv_commit (inv : Inv name s) (running : s.calls reader = some call)
    (commits : call.phase = .commit) (now : Time) (written : Bool) :
    Inv name (s.commit name reader call now written) := by
  obtain ⟨t, store, there, stored, readers⟩ := inv.topic
  have broker := commit_offsetStore name s.broker stored reader.1 reader.2
    (int64OfOffset call.currentOffset) now written
  refine ⟨t, (store.commit reader.1 name reader.2 (int64OfOffset call.currentOffset) now written).2,
    ?_, ?_, ?_⟩
  · simp only [commit, broker]
    exact there
  · simp only [commit, broker]
  · intro id p found
    obtain ⟨ahead, inv⟩ := readers id p found
    refine ⟨ahead, ?_⟩
    intro group
    by_cases same : (group, id) = reader
    · subst same
      have own := inv group
      have before := received_of_call running
      have idle : (s.commit name (group, id) call now written).calls (group, id) = none :=
        Function.update_self ..
      have delivered : (s.commit name (group, id) call now written).delivered (group, id) =
          s.received (group, id) :=
        (Function.update_self ..).trans before.symm
      have after := (received_of_idle idle).trans delivered
      refine ⟨?_, ?_, ?_, .inr ⟨?_, ?_⟩⟩
      · rw [after]
        exact own.reads.grow (by simp only [commit, broker]) (Partition.Extends.refl p)
      · intro c running'
        rw [idle] at running'
        cases running'
      · intro c running'
        rw [idle] at running'
        cases running'
      · rw [delivered, before]
        exact fun none => own.pending call running commits (List.append_eq_nil_iff.mp none).2
      · rw [delivered, OffsetStore.load_commit_self, own.offset call running]
    · refine (inv group).frame (by simp only [commit, broker]) (Partition.Extends.refl p)
        (Function.update_of_ne same ..) (Function.update_of_ne same ..)
        (OffsetStore.load_commit_other store ?_ _ now written)
      rintro ⟨partitions, groups⟩
      exact same (Prod.ext groups partitions)

theorem inv_advance (inv : Inv name s) (running : s.calls reader = some call) (now : Time)
    (written : Bool) : Inv name (s.advance name reader call now written) := by
  obtain ⟨t, store, there, stored, readers⟩ := inv.topic
  unfold advance
  rw [there]
  dsimp only [Option.bind_some]
  cases found : t.partition reader.2 with
  | error bounds =>
    apply inv_setCall inv
    intro t' store' p there' _ found'
    rw [there] at there'
    cases there'
    rw [found] at found'
    cases found'
  | ok p =>
    cases phase : call.phase with
    | check => exact inv_check inv running p
    | read => exact inv_read inv running there found
    | commit => exact inv_commit inv running phase now written

theorem inv_step (inv : Inv name s) (event : FifoEvent) : Inv name (s.step name event) := by
  obtain ⟨t, store, there, -, -⟩ := inv.topic
  cases event with
  | publish msg env =>
    obtain ⟨t', appended, result⟩ := Broker.publishWith_appended s.broker.snap there msg env
    simp only [step, Broker.publish, result]
    exact inv_append inv there appended
  | publishGroup partIdx msgs env =>
    simp only [step, there]
    exact inv_append inv there (appendPartitionBatch_appended _ t partIdx msgs env)
  | consume reader maxMessages =>
    cases idle : s.calls reader with
    | some call => simpa only [step, idle] using inv
    | none => simpa only [step, idle] using inv_consume inv idle maxMessages
  | advance reader now written =>
    cases running : s.calls reader with
    | none => simpa only [step, running] using inv
    | some call => simpa only [step, running] using inv_advance inv running now written

end Steps

end FifoRun

end NyaQueue
