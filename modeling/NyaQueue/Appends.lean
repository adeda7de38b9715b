import NyaQueue.Partition

/-!
# What the append calls write

One lemma for each append routine says everything a call can do: which records
a successful call adds, and that a failed one leaves the log alone but has
handed out its offsets.  The later modules use these and the growth relation
`Extends`, never the routines themselves.
-/

set_option autoImplicit false

namespace NyaQueue

open BigEndian Slice

/-! ## Assembled batches -/

theorem Log.inOrder_iff (batch : List (Nat × Bytes)) : ∀ next : Nat,
    Log.InOrder next batch ↔ batch.map Prod.fst = List.range' next batch.length := by
  induction batch with
  | nil => intro next; simp [Log.InOrder]
  | cons entry rest ih =>
    intro next
    obtain ⟨index, data⟩ := entry
    simp only [Log.InOrder, ih, List.map_cons, List.length_cons, List.range'_succ,
      List.cons.injEq]

theorem assemble_offsets (env : AppendEnv) (msgs : List Message) : ∀ i next : Nat,
    (assemble env i next msgs).map Prod.fst = List.range' next msgs.length := by
  induction msgs with
  | nil => intro i next; rfl
  | cons m rest ih =>
    intro i next
    simp only [assemble, List.map_cons, List.length_cons, List.range'_succ, ih]

theorem assemble_records (env : AppendEnv) (msgs : List Message) : ∀ i next : Nat,
    (assemble env i next msgs).map Prod.snd =
      msgs.map fun m => (m.stamp env.appendTime).layout := by
  induction msgs with
  | nil => intro i next; rfl
  | cons m rest ih =>
    intro i next
    simp only [assemble, List.map_cons, Message.marshalPooled_eq_layout, ih]

theorem assemble_length (env : AppendEnv) (msgs : List Message) (i next : Nat) :
    (assemble env i next msgs).length = msgs.length := by
  have := congrArg List.length (assemble_offsets env msgs i next)
  simpa using this

theorem redirects_offsets (base count : Nat) : ∀ i next : Nat,
    (redirects base i next count).map Prod.fst = List.range' next count := by
  induction count with
  | zero => intro i next; rfl
  | succ count ih =>
    intro i next
    simp only [redirects, List.map_cons, List.range'_succ, ih]

theorem redirects_records (base count : Nat) : ∀ i next : Nat,
    (redirects base i next count).map Prod.snd =
      (List.range' i count).map (redirectRecord base) := by
  induction count with
  | zero => intro i next; rfl
  | succ count ih =>
    intro i next
    simp only [redirects, List.map_cons, List.range'_succ, ih]

/-- The records of a compressed batch: the leader and its redirects. -/
def batchRecords (baseOffset count : Nat) (compressed : Bytes) : List Bytes :=
  leaderRecord count compressed :: (List.range' 1 (count - 1)).map (redirectRecord baseOffset)

/-- The bytes a compressed batch is made of before compression. -/
def frames (msgs : List Message) : Bytes :=
  msgs.flatMap fun m => putUint32 (UInt32.ofNat m.layout.length) ++ m.layout

theorem frames_cons (m : Message) (rest : List Message) :
    frames (m :: rest) =
      putUint32 (UInt32.ofNat m.layout.length) ++ (m.layout ++ frames rest) := by
  simp [frames]

theorem totalPayload_cons (m : Message) (rest : List Message) :
    totalPayload (m :: rest) = m.layout.length + 4 + totalPayload rest := by
  simp [totalPayload, Message.layout_length]

theorem fillPayload_frames (msgs : List Message) : ∀ (written stale : Bytes) (off : Nat),
    off = written.length → stale.length = totalPayload msgs →
      fillPayload (written ++ stale) off msgs = written ++ frames msgs := by
  induction msgs with
  | nil =>
    intro written stale off _ size
    have : stale = [] := List.length_eq_zero_iff.mp size
    simp [fillPayload, frames, this]
  | cons m rest ih =>
    intro written stale off position size
    rw [totalPayload_cons] at size
    have prefixed := overwrite_written written stale
      (putUint32 (UInt32.ofNat m.layout.length)) off position (by simp; omega)
    have encoded := overwrite_written (written ++ putUint32 (UInt32.ofNat m.layout.length))
      (stale.drop 4) m.layout (off + 4) (by simp; omega) (by simp; omega)
    simp only [fillPayload, Message.marshal_eq_layout]
    rw [prefixed, putUint32_length, encoded, frames_cons]
    rw [ih _ _ _ (by simp; omega) (by simp; omega)]
    simp only [List.append_assoc]

/-! ## The two append routines -/

/-- The payload `AppendBatchCompressed` hands to the codec. -/
def batchPayload (msgs : List Message) (env : AppendEnv) : Bytes :=
  frames (msgs.map fun m => m.stamp env.appendTime)

namespace Partition

theorem appendBatch_empty (p : Partition) (env : AppendEnv) :
    p.appendBatch [] env = (.ok [], p) := rfl

theorem appendBatchCompressed_empty (p : Partition) (codec : Codec) (env : AppendEnv) :
    p.appendBatchCompressed [] codec env = (.ok [], p) := rfl

variable {msgs : List Message}

theorem appendBatch_cases (p : Partition) (nonempty : msgs ≠ []) (env : AppendEnv) :
    (∃ cause, p.log.writeBatch (assemble env 0 p.nextOffset msgs) env.disk = .error cause ∧
      p.appendBatch msgs env = (.error (.walWriteBatch cause), p.advance msgs.length)) ∨
    ∃ log, p.log.writeBatch (assemble env 0 p.nextOffset msgs) env.disk = .ok log ∧
      p.appendBatch msgs env =
        (.ok (List.range' p.nextOffset msgs.length), p.stored log msgs env.indexTime) := by
  have some : msgs.isEmpty = false := by simpa using nonempty
  unfold appendBatch
  simp only [some, Bool.false_eq_true, if_false, assemble_offsets]
  cases p.log.writeBatch (assemble env 0 p.nextOffset msgs) env.disk with
  | error cause => exact .inl ⟨cause, rfl, rfl⟩
  | ok log => exact .inr ⟨log, rfl, rfl⟩

/-- The numbered records of one compressed append. -/
def compressedBatch (p : Partition) (msgs : List Message) (compressed : Bytes) :
    List (Nat × Bytes) :=
  (p.nextOffset, leaderRecord msgs.length compressed) ::
    redirects p.nextOffset 1 (p.nextOffset + 1) (msgs.length - 1)

theorem compressedBatch_offsets (p : Partition) (nonempty : msgs ≠ []) (compressed : Bytes) :
    (p.compressedBatch msgs compressed).map Prod.fst =
      List.range' p.nextOffset msgs.length := by
  obtain ⟨count, length⟩ : ∃ count, msgs.length = count + 1 :=
    Nat.exists_eq_succ_of_ne_zero (by simpa using nonempty)
  rw [compressedBatch, List.map_cons, redirects_offsets, length, List.range'_succ]
  rfl

theorem compressedBatch_records (p : Partition) (msgs : List Message) (compressed : Bytes) :
    (p.compressedBatch msgs compressed).map Prod.snd =
      batchRecords p.nextOffset msgs.length compressed := by
  rw [compressedBatch, List.map_cons, redirects_records]
  rfl

theorem compressedBatch_length (p : Partition) (nonempty : msgs ≠ []) (compressed : Bytes) :
    (p.compressedBatch msgs compressed).length = msgs.length := by
  have := congrArg List.length (p.compressedBatch_offsets nonempty compressed)
  simpa using this

theorem appendBatchCompressed_eq (p : Partition) (nonempty : msgs ≠ []) (codec : Codec)
    (env : AppendEnv) :
    p.appendBatchCompressed msgs codec env =
      match codec.encode (batchPayload msgs env) with
      | .error cause => (.error (.batchCompress cause), p)
      | .ok compressed =>
        match p.log.writeBatch (p.compressedBatch msgs compressed) env.disk with
        | .error cause => (.error (.walWriteCompressed cause), p.advance msgs.length)
        | .ok log => (.ok ((p.compressedBatch msgs compressed).map Prod.fst),
            p.stored log msgs env.indexTime) := by
  have some : msgs.isEmpty = false := by simpa using nonempty
  have filled := fillPayload_frames (msgs.map fun m => m.stamp env.appendTime) []
    (List.replicate (totalPayload (msgs.map fun m => m.stamp env.appendTime)) 0) 0 rfl
    List.length_replicate
  rw [List.nil_append, List.nil_append] at filled
  unfold appendBatchCompressed
  simp only [some, Bool.false_eq_true, if_false, filled]
  rfl

theorem appendBatchCompressed_cases (p : Partition) (nonempty : msgs ≠ []) (codec : Codec)
    (env : AppendEnv) :
    (∃ cause, codec.encode (batchPayload msgs env) = .error cause ∧
      p.appendBatchCompressed msgs codec env = (.error (.batchCompress cause), p)) ∨
    ∃ packed, codec.encode (batchPayload msgs env) = .ok packed ∧
      ((∃ cause, p.log.writeBatch (p.compressedBatch msgs packed) env.disk = .error cause ∧
        p.appendBatchCompressed msgs codec env =
          (.error (.walWriteCompressed cause), p.advance msgs.length)) ∨
      ∃ log, p.log.writeBatch (p.compressedBatch msgs packed) env.disk = .ok log ∧
        p.appendBatchCompressed msgs codec env =
          (.ok (List.range' p.nextOffset msgs.length), p.stored log msgs env.indexTime)) := by
  rw [p.appendBatchCompressed_eq nonempty codec env]
  cases codec.encode (batchPayload msgs env) with
  | error cause => exact .inl ⟨cause, rfl, rfl⟩
  | ok packed =>
    refine .inr ⟨packed, rfl, ?_⟩
    dsimp only
    rw [p.compressedBatch_offsets nonempty packed]
    cases p.log.writeBatch (p.compressedBatch msgs packed) env.disk with
    | error cause => exact .inl ⟨cause, rfl, rfl⟩
    | ok log => exact .inr ⟨log, rfl, rfl⟩

end Partition

/-! ## Growth -/

/-- One append call, with everything its caller and its environment decide. -/
inductive AppendCall where
  | plain (msgs : List Message) (env : AppendEnv)
  | compressed (msgs : List Message) (codec : Codec) (env : AppendEnv)

namespace AppendCall

def msgs : AppendCall → List Message
  | .plain msgs _ => msgs
  | .compressed msgs _ _ => msgs

def env : AppendCall → AppendEnv
  | .plain _ env => env
  | .compressed _ _ env => env

def run (p : Partition) : AppendCall → Except AppendError (List Nat) × Partition
  | .plain msgs env => p.appendBatch msgs env
  | .compressed msgs codec env => p.appendBatchCompressed msgs codec env

/-- The numbered records the call would write, if its codec does not fail. -/
def batch (p : Partition) : AppendCall → Except AppendError (List (Nat × Bytes))
  | .plain msgs env => .ok (assemble env 0 p.nextOffset msgs)
  | .compressed msgs codec env =>
      match codec.encode (batchPayload msgs env) with
      | .error cause => .error (.batchCompress cause)
      | .ok packed => .ok (p.compressedBatch msgs packed)

theorem run_empty (p : Partition) (call : AppendCall) (empty : call.msgs = []) :
    call.run p = (.ok [], p) := by
  cases call with
  | plain msgs env =>
    simp only [AppendCall.msgs] at empty
    rw [run, empty, Partition.appendBatch_empty]
  | compressed msgs codec env =>
    simp only [AppendCall.msgs] at empty
    rw [run, empty, Partition.appendBatchCompressed_empty]

theorem run_cases (p : Partition) (call : AppendCall) (nonempty : call.msgs ≠ []) :
    (∃ error, call.batch p = .error error ∧ call.run p = (.error error, p)) ∨
    ∃ batch, call.batch p = .ok batch ∧ batch.length = call.msgs.length ∧
      batch.map Prod.fst = List.range' p.nextOffset call.msgs.length ∧
      ((∃ cause error, p.log.writeBatch batch call.env.disk = .error cause ∧
        call.run p = (.error error, p.advance call.msgs.length)) ∨
      ∃ log, p.log.writeBatch batch call.env.disk = .ok log ∧
        call.run p = (.ok (List.range' p.nextOffset call.msgs.length),
          p.stored log call.msgs call.env.indexTime)) := by
  cases call with
  | plain msgs env =>
    refine .inr ⟨_, rfl, assemble_length env msgs 0 p.nextOffset,
      assemble_offsets env msgs 0 p.nextOffset, ?_⟩
    rcases p.appendBatch_cases nonempty env with ⟨cause, failed, result⟩ | ⟨log, written, result⟩
    · exact .inl ⟨cause, _, failed, result⟩
    · exact .inr ⟨log, written, result⟩
  | compressed msgs codec env =>
    change msgs ≠ [] at nonempty
    rcases p.appendBatchCompressed_cases nonempty codec env with
      ⟨cause, failed, result⟩ | ⟨packed, encoded, outcome⟩
    · exact .inl ⟨_, by simp only [batch]; rw [failed], result⟩
    · refine .inr ⟨p.compressedBatch msgs packed, by simp only [batch]; rw [encoded],
        p.compressedBatch_length nonempty packed,
        p.compressedBatch_offsets nonempty packed, ?_⟩
      rcases outcome with ⟨cause, failed, result⟩ | ⟨log, written, result⟩
      · exact .inl ⟨cause, _, failed, result⟩
      · exact .inr ⟨log, written, result⟩

/-- What an append leaves behind: the partition as it was, offsets that are
gone, or the messages stored. -/
theorem run_after (p : Partition) (call : AppendCall) :
    (call.run p).2 = p ∨ (call.run p).2 = p.advance call.msgs.length ∨
    ∃ batch log, p.log.writeBatch batch call.env.disk = .ok log ∧
      batch.length = call.msgs.length ∧
      (call.run p).2 = p.stored log call.msgs call.env.indexTime := by
  by_cases empty : call.msgs = []
  · left
    rw [call.run_empty p empty]
  · rcases call.run_cases p empty with ⟨error, -, result⟩ | ⟨batch, -, length, -, outcome⟩
    · left
      rw [result]
    · rcases outcome with ⟨cause, error, -, result⟩ | ⟨log, written, result⟩
      · right; left
        rw [result]
      · right; right
        exact ⟨batch, log, written, length, by rw [result]⟩

variable {p q : Partition}

theorem run_error (call : AppendCall) {cause : AppendError}
    (failed : call.run p = (.error cause, q)) : q.log = p.log := by
  by_cases empty : call.msgs = []
  · rw [call.run_empty p empty] at failed
    cases failed
  · rcases call.run_cases p empty with ⟨error, -, result⟩ | ⟨batch, -, -, -, outcome⟩
    · rw [result] at failed
      cases failed
      rfl
    · rcases outcome with ⟨cause', error, -, result⟩ | ⟨log, -, result⟩
      · rw [result] at failed
        cases failed
        rfl
      · rw [result] at failed
        cases failed

theorem run_ok {call : AppendCall} {offsets : List Nat} (success : call.run p = (.ok offsets, q)) :
    (call.msgs = [] ∧ offsets = [] ∧ q = p) ∨
    ∃ batch log, call.msgs ≠ [] ∧ p.log.writeBatch batch call.env.disk = .ok log ∧
      batch.length = call.msgs.length ∧
      batch.map Prod.fst = List.range' p.nextOffset call.msgs.length ∧
      offsets = List.range' p.nextOffset call.msgs.length ∧
      q = p.stored log call.msgs call.env.indexTime := by
  by_cases empty : call.msgs = []
  · rw [call.run_empty p empty] at success
    cases success
    exact .inl ⟨empty, rfl, rfl⟩
  · rcases call.run_cases p empty with ⟨error, -, result⟩ | ⟨batch, -, length, indices, outcome⟩
    · rw [result] at success
      cases success
    · rcases outcome with ⟨cause, error, -, result⟩ | ⟨log, written, result⟩
      · rw [result] at success
        cases success
      · rw [result] at success
        cases success
        exact .inr ⟨batch, log, empty, written, length, indices, rfl, rfl⟩

theorem run_length (call : AppendCall) {offsets : List Nat}
    (success : call.run p = (.ok offsets, q)) : offsets.length = call.msgs.length := by
  rcases run_ok success with ⟨empty, rfl, -⟩ | ⟨batch, log, -, -, -, -, rfl, -⟩
  · rw [empty]
    rfl
  · exact List.length_range'

end AppendCall

namespace Partition

/-- `q` holds at least the records of `p` and decodes batches the same way. -/
structure Extends (p q : Partition) : Prop where
  codec : q.batchCodec = p.batchCodec
  records : ∀ offset data, p.log.recordAt offset = some data → q.log.recordAt offset = some data

theorem Extends.refl (p : Partition) : p.Extends p := ⟨rfl, fun _ _ stored => stored⟩

theorem Extends.trans {p q r : Partition} (first : p.Extends q) (second : q.Extends r) :
    p.Extends r :=
  ⟨second.codec.trans first.codec,
    fun offset data stored => second.records offset data (first.records offset data stored)⟩

theorem extends_stored {p : Partition} {log : Log} {batch : List (Nat × Bytes)} {disk : Bool}
    (written : p.log.writeBatch batch disk = .ok log) (msgs : List Message) (now : Time) :
    p.Extends (p.stored log msgs now) := by
  refine ⟨rfl, ?_⟩
  intro offset data stored
  have inside := Log.recordAt_bounds stored
  exact (Log.recordAt_writeBatch_old written inside.2).trans stored

theorem nextOffset_of_written {p : Partition} {log : Log} {batch : List (Nat × Bytes)}
    {disk : Bool} {count : Nat} (written : p.log.writeBatch batch disk = .ok log)
    (offsets : batch.map Prod.fst = List.range' p.nextOffset count) (positive : 0 < count) :
    p.nextOffset = p.log.nextIndex := by
  obtain ⟨-, ordered, -, -⟩ := Log.writeBatch_ok written
  rw [Log.inOrder_iff, offsets] at ordered
  have same : batch.length = count := by
    have := congrArg List.length offsets
    simpa using this
  obtain ⟨rest, length⟩ : ∃ rest, count = rest + 1 := ⟨count - 1, by omega⟩
  rw [same, length, List.range'_succ, List.range'_succ] at ordered
  exact (List.cons.inj ordered).1

theorem extends_run (p : Partition) (call : AppendCall) : p.Extends (call.run p).2 := by
  rcases call.run_after p with same | ahead | ⟨batch, log, written, -, stored⟩
  · rw [same]
    exact Extends.refl p
  · rw [ahead]
    exact ⟨rfl, fun _ _ stored => stored⟩
  · rw [stored]
    exact extends_stored written _ _

theorem run_offsets {p q : Partition} {call : AppendCall} {offsets : List Nat}
    (success : call.run p = (.ok offsets, q)) (offset : Nat) (member : offset ∈ offsets) :
    p.log.nextIndex ≤ offsets.headD 0 ∧ offsets.headD 0 ≤ offset ∧ offset < q.log.nextIndex := by
  rcases AppendCall.run_ok success with
    ⟨-, rfl, -⟩ | ⟨batch, log, nonempty, written, length, indices, rfl, rfl⟩
  · cases member
  · have positive : 0 < call.msgs.length := List.length_pos_of_ne_nil nonempty
    have next := nextOffset_of_written written indices positive
    have grown := Log.nextIndex_writeBatch written
    have inside := List.mem_range'_1.mp member
    obtain ⟨rest, count⟩ : ∃ rest, call.msgs.length = rest + 1 :=
      ⟨call.msgs.length - 1, by omega⟩
    rw [count, List.range'_succ, List.headD_cons]
    simp only [stored]
    omega

/-- A whole sequence of append calls. -/
def appends (p : Partition) (calls : List AppendCall) : Partition :=
  calls.foldl (fun p call => (call.run p).2) p

theorem extends_appends (calls : List AppendCall) : ∀ p : Partition, p.Extends (p.appends calls) := by
  induction calls with
  | nil => intro p; exact Extends.refl p
  | cons call rest ih =>
    intro p
    exact (p.extends_run call).trans (ih (call.run p).2)

end Partition

end NyaQueue
