import NyaQueue.Produce
import NyaQueue.Lib.Runs

/-!
# `PublishBatch` as a run of its groups

`PublishBatch` forms one group of messages a partition and appends the groups
in any order.  In a model whose events are single groups it is therefore a run:
`TakesGroups` says what such a model has to provide, and `publishBatch_run`
what follows from it for the broker and for the results of the call.
-/

set_option autoImplicit false

namespace NyaQueue

namespace Broker

section Groups

variable (cfg : Config) (env : BatchEnv) (msgs : List Message)

theorem mem_group_iff (partIdx : Int) (m' : Message) (i : Nat) :
    (m', i) ∈ group cfg env msgs partIdx ↔ ∃ m, msgs[i]? = some m ∧
      (checkMessage cfg env i m).err = none ∧ env.partIdx i = partIdx ∧
      m' = m.stampProduce env.produceTime := by
  unfold group
  rw [List.mem_map]
  constructor
  · rintro ⟨⟨m, k⟩, inside, same⟩
    obtain ⟨rfl, rfl⟩ := Prod.mk.inj same
    obtain ⟨there, chosen⟩ := List.mem_filter.mp inside
    have both := of_decide_eq_true chosen
    exact ⟨m, List.mem_zipIdx_iff_getElem?.mp there, Option.isNone_iff_eq_none.mp both.1, both.2,
      rfl⟩
  · rintro ⟨m, at_i, clean, here, rfl⟩
    refine ⟨(m, i), List.mem_filter.mpr ⟨List.mem_zipIdx_iff_getElem?.mpr at_i, ?_⟩, rfl⟩
    exact decide_eq_true ⟨Option.isNone_iff_eq_none.mpr clean, here⟩

theorem mem_groupKeys_iff (partIdx : Int) : partIdx ∈ groupKeys cfg env msgs ↔
    ∃ i m, msgs[i]? = some m ∧ (checkMessage cfg env i m).err = none ∧
      env.partIdx i = partIdx := by
  unfold groupKeys
  rw [List.mem_dedup, List.mem_map]
  constructor
  · rintro ⟨⟨m, i⟩, inside, rfl⟩
    obtain ⟨there, clean⟩ := List.mem_filter.mp inside
    exact ⟨i, m, List.mem_zipIdx_iff_getElem?.mp there, Option.isNone_iff_eq_none.mp clean, rfl⟩
  · rintro ⟨i, m, at_i, clean, rfl⟩
    refine ⟨(m, i), List.mem_filter.mpr ⟨List.mem_zipIdx_iff_getElem?.mpr at_i, ?_⟩, rfl⟩
    exact Option.isNone_iff_eq_none.mpr clean

theorem checkMessage_passed {cfg : Config} {env : BatchEnv} {i : Nat} {m : Message}
    (clean : (checkMessage cfg env i m).err = none) :
    checkMessage cfg env i m = { partition := env.partIdx i } := by
  unfold checkMessage at clean ⊢
  split at clean
  · cases clean
  · rename_i small
    split at clean
    · cases clean
    · rename_i accepting
      rw [if_neg small, if_neg accepting]

theorem settle_getElem? (outcome : Except PublishError (List Nat)) (batch : List (Message × Nat))
    (results : List PublishResult) (i : Nat) :
    (settle outcome batch results)[i]? = results[i]?.map fun result =>
      match (batch.map Prod.snd).idxOf? i with
      | none => result
      | some j =>
        match outcome with
        | .error cause => { result with err := some cause }
        | .ok offsets => { result with offset := offsets.getD j 0 } := by
  rw [settle]
  exact List.getElem?_mapIdx

end Groups

/-! ## What the results say -/

/-- The messages without an error have passed the checks, and those whose
partition is not among the `remaining` ones are acknowledged. -/
def Recorded (cfg : Config) (env : BatchEnv) (msgs : List Message) (results : List PublishResult)
    (acked : Int → Nat → Message → Prop) (remaining : List Int) : Prop :=
  ∀ (i : Nat) (m : Message) (r : PublishResult), msgs[i]? = some m → results[i]? = some r →
    r.err = none → (checkMessage cfg env i m).err = none ∧ r.partition = env.partIdx i ∧
      (env.partIdx i ∈ remaining ∨
        acked r.partition r.offset (m.stampProduce env.produceTime))

section Recorded

variable {cfg : Config} {env : BatchEnv} {msgs : List Message}

theorem recorded_checked (cfg : Config) (env : BatchEnv) (msgs : List Message)
    (acked : Int → Nat → Message → Prop) :
    Recorded cfg env msgs (msgs.mapIdx fun i m => checkMessage cfg env i m) acked
      (groupKeys cfg env msgs) := by
  intro i m r at_i result clean
  rw [List.getElem?_mapIdx, at_i] at result
  obtain rfl : checkMessage cfg env i m = r := Option.some.inj result
  exact ⟨clean, by rw [checkMessage_passed clean],
    .inl ((mem_groupKeys_iff ..).mpr ⟨i, m, at_i, clean, rfl⟩)⟩

theorem Recorded.settle {results : List PublishResult} {acked acked' : Int → Nat → Message → Prop}
    {partIdx : Int} {rest : List Int}
    (recorded : Recorded cfg env msgs results acked (partIdx :: rest))
    {outcome : Except PublishError (List Nat)}
    (grown : ∀ id offset m, acked id offset m → acked' id offset m)
    (acknowledged : ∀ offsets, outcome = .ok offsets →
      offsets.length = (group cfg env msgs partIdx).length ∧
      ∀ (j : Nat) (m : Message) (offset : Nat),
        ((group cfg env msgs partIdx).map Prod.fst)[j]? = some m → offsets[j]? = some offset →
          acked' partIdx offset m) :
    Recorded cfg env msgs (Broker.settle outcome (group cfg env msgs partIdx) results) acked'
      rest := by
  intro i m r at_i result clean
  rw [settle_getElem?, Option.map_eq_some_iff] at result
  obtain ⟨r₀, result₀, settled⟩ := result
  cases position : ((group cfg env msgs partIdx).map Prod.snd).idxOf? i with
  | none =>
    rw [position] at settled
    cases settled
    obtain ⟨passed, partition, waiting | there⟩ := recorded i m r₀ at_i result₀ clean
    · refine ⟨passed, partition, .inl ?_⟩
      rcases List.mem_cons.mp waiting with here | later
      · have outside := List.idxOf?_eq_none_iff.mp position
        have member := (mem_group_iff ..).mpr ⟨m, at_i, passed, here, rfl⟩
        exact absurd (List.mem_map.mpr ⟨_, member, rfl⟩) outside
      · exact later
    · exact ⟨passed, partition, .inr (grown _ _ _ there)⟩
  | some j =>
    rw [position] at settled
    cases outcome with
    | error cause =>
      cases settled
      cases clean
    | ok offsets =>
      cases settled
      obtain ⟨passed, partition, -⟩ := recorded i m r₀ at_i result₀ clean
      obtain ⟨count, recorded'⟩ := acknowledged offsets rfl
      obtain ⟨inside, at_j, -⟩ := List.idxOf?_eq_some_iff.mp position
      rw [List.length_map] at inside
      rw [List.getElem_map] at at_j
      have member : ((group cfg env msgs partIdx)[j].1, i) ∈ group cfg env msgs partIdx := by
        rw [← at_j]
        exact List.getElem_mem inside
      obtain ⟨m', at_i', -, here, stamped⟩ := (mem_group_iff ..).mp member
      rw [at_i] at at_i'
      cases at_i'
      refine ⟨passed, partition, .inr ?_⟩
      rw [partition, here]
      apply recorded' j
      · rw [List.getElem?_map, List.getElem?_eq_getElem inside, ← stamped]
        rfl
      · show offsets[j]? = some (offsets.getD j 0)
        rw [List.getD_eq_getElem?_getD, List.getElem?_eq_getElem (count ▸ inside),
          Option.getD_some]

end Recorded

/-! ## The run -/

/-- The groups of a `PublishBatch` that reach their partition, as events. -/
def groupEvents {ε : Type} (event : Int → List Message → AppendEnv → ε) (cfg : Config)
    (env : BatchEnv) (msgs : List Message) (single : Bool) (chosen : List Int) : List ε :=
  (chosen.filter fun partIdx => single ∨ env.gate partIdx).map fun partIdx =>
    event partIdx ((group cfg env msgs partIdx).map Prod.fst) (env.append partIdx)

/-- A model that takes a group appended with the snapshot `snap` as one event:
in the states that `fits`, the event does to the broker what the append does,
and what it acknowledges stays `acked`. -/
structure TakesGroups {σ ε : Type} (step : σ → ε → σ) (broker : σ → Broker)
    (event : Int → List Message → AppendEnv → ε) (snap : ConfigSnapshot) (name : Bytes)
    (fits : σ → Prop) (acked : σ → Int → Nat → Message → Prop) : Prop where
  fits_step : ∀ s t partIdx msgs env, fits s → (broker s).topics name = some t →
    fits (step s (event partIdx msgs env))
  broker_step : ∀ s t partIdx msgs env, fits s → (broker s).topics name = some t →
    broker (step s (event partIdx msgs env)) =
      (broker s).setTopic name (appendPartitionBatch snap t partIdx msgs env).2
  acked_kept : ∀ s t partIdx msgs env id offset m, fits s → (broker s).topics name = some t →
    acked s id offset m → acked (step s (event partIdx msgs env)) id offset m
  acked_ok : ∀ s t partIdx msgs env offsets, fits s → (broker s).topics name = some t →
    (appendPartitionBatch snap t partIdx msgs env).1 = .ok offsets →
    ∀ (j : Nat) (m : Message) (offset : Nat), msgs[j]? = some m → offsets[j]? = some offset →
      acked (step s (event partIdx msgs env)) partIdx offset m

section Run

variable {σ ε : Type} {step : σ → ε → σ} {broker : σ → Broker}
  {event : Int → List Message → AppendEnv → ε} {snap : ConfigSnapshot} {name : Bytes}
  {fits : σ → Prop} {acked : σ → Int → Nat → Message → Prop}

theorem appendGroups_run (takes : TakesGroups step broker event snap name fits acked)
    (env : BatchEnv) (msgs : List Message) (single : Bool) (chosen : List Int) (s : σ) (t : Topic)
    (results : List PublishResult) (fitting : fits s) (there : (broker s).topics name = some t)
    (recorded : Recorded snap.cfg env msgs results (acked s) chosen) :
    let s' := Runs.final step s (groupEvents event snap.cfg env msgs single chosen)
    let appended := appendGroups snap env msgs single chosen results t
    fits s' ∧ broker s' = (broker s).setTopic name appended.2 ∧
      Recorded snap.cfg env msgs appended.1 (acked s') [] := by
  induction chosen generalizing s t results with
  | nil => exact ⟨fitting, (setTopic_same there).symm, recorded⟩
  | cons partIdx rest ih =>
    unfold groupEvents appendGroups
    by_cases admitted : single ∨ env.gate partIdx
    · rw [List.filter_cons_of_pos (by simpa using admitted), if_pos admitted, List.map_cons,
        Runs.final_cons]
      have after := takes.broker_step s t partIdx ((group snap.cfg env msgs partIdx).map Prod.fst)
        (env.append partIdx) fitting there
      have acknowledged : ∀ offsets, (appendPartitionBatch snap t partIdx
          ((group snap.cfg env msgs partIdx).map Prod.fst) (env.append partIdx)).1 =
            .ok offsets → _ := fun offsets success =>
        And.intro ((appendPartitionBatch_length success).trans (List.length_map _))
          (takes.acked_ok s t _ _ _ offsets fitting there success)
      obtain ⟨fits', broker', recorded'⟩ := ih _ _ _ (takes.fits_step s t _ _ _ fitting there)
        (by rw [after, setTopic_topics_self])
        (recorded.settle (fun id offset m => takes.acked_kept s t _ _ _ id offset m fitting there)
          acknowledged)
      refine ⟨fits', broker'.trans ?_, recorded'⟩
      rw [after, setTopic_setTopic]
    · rw [List.filter_cons_of_neg (by simpa using admitted), if_neg admitted]
      refine ih s t _ fitting there (recorded.settle (fun _ _ _ there => there) ?_)
      intro offsets impossible
      cases impossible

/-- `PublishBatch` is a run of its groups, and every message it reports without
an error is acknowledged there under the partition and offset reported. -/
theorem publishBatch_run (takes : TakesGroups step broker event snap name fits acked) {s : σ}
    (fitting : fits s) {t : Topic} (there : (broker s).topics name = some t)
    (msgs : List Message) (env : BatchEnv) :
    let keys := groupKeys snap.cfg env msgs
    let s' := Runs.final step s (groupEvents event snap.cfg env msgs (keys.length = 1) keys)
    let published := publishBatchWith snap (broker s) name msgs env
    fits s' ∧ broker s' = published.2 ∧
      ∀ (i : Nat) (m : Message) (r : PublishResult), msgs[i]? = some m →
        published.1[i]? = some r → r.err = none →
        acked s' r.partition r.offset (m.stampProduce env.produceTime) := by
  unfold publishBatchWith
  simp only [there]
  obtain ⟨fits', broker', recorded⟩ := appendGroups_run takes env msgs
    ((groupKeys snap.cfg env msgs).length = 1) (groupKeys snap.cfg env msgs) s t _ fitting there
    (recorded_checked snap.cfg env msgs (acked s))
  refine ⟨fits', broker', ?_⟩
  intro i m r at_i result clean
  obtain ⟨-, -, impossible | there⟩ := recorded i m r at_i result clean
  · cases impossible
  · exact there

end Run

end Broker

end NyaQueue
