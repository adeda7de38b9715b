import NyaQueue.MetricsCollector
import NyaQueue.Lib.Runs
import NyaQueue.Lib.Threads

/-!
# The windows of `Collect`

Calls of `Collect` and of the `Record` functions that run at the same time: each
critical section is one step, and a `Collect` has one for every partition and a
last one in which it saves the counters.  The deltas of a `Collect` are the events
of its window.
-/

set_option autoImplicit false

namespace NyaQueue

open MetricsCollector

/-- What a `Collect` has found for a partition since the one before. -/
def MetricsCollector.Collecting.deltaAt (c : Collecting) (p : Nat) : PartCounters :=
  ((c.readings.filter fun entry => entry.1 = p).map fun entry => entry.2.delta).sum

inductive CollectEvent where
  /-- `RecordProduce`, or `RecordProduceBatch` of `n` messages -/
  | produce (p n : Nat)
  | consume (p : Nat)
  | remove (p : Nat)
  /-- a `Collect` of these partitions starts -/
  | begin (partIDs : List Nat) (now : Int)
  /-- the Collect that started as number `i` reads its next partition -/
  | read (i : Nat)
  /-- it has read all of them, saves the counters and returns -/
  | save (i : Nat)

structure CollectRun where
  metrics : MetricsCollector
  /-- the calls of `Collect` by their start, with `none` for those that have returned -/
  running : List (Option Collecting)
  /-- the calls that have returned, the last one first -/
  completed : List Collecting
  /-- the events recorded for a partition, and those of them that came after the
  last `Collect` returned -/
  recorded : Nat → PartCounters
  since : Nat → PartCounters

namespace CollectRun

def start (metrics : MetricsCollector) : CollectRun where
  metrics := metrics
  running := []
  completed := []
  recorded _ := 0
  since _ := 0

/-- The events that the completed calls of `Collect` have found for a partition. -/
def counted (s : CollectRun) (p : Nat) : PartCounters :=
  (s.completed.map fun c => c.deltaAt p).sum

def record (s : CollectRun) (metrics : MetricsCollector) (p : Nat) (delta : PartCounters) :
    CollectRun :=
  { s with
    metrics := metrics
    recorded := Function.update s.recorded p (s.recorded p + delta)
    since := Function.update s.since p (s.since p + delta) }

/-- The `Collect` number `i`, while it is under way. -/
def collecting (s : CollectRun) (i : Nat) : Option Collecting := (s.running[i]?).join

def step (s : CollectRun) : CollectEvent → CollectRun
  | .produce p n => s.record (s.metrics.recordProduceBatch p n) p (.produced n)
  | .consume p => s.record (s.metrics.recordConsume p) p .consumed
  | .remove p => { s with metrics := s.metrics.removePartition p }
  | .begin partIDs now =>
      let started := s.metrics.beginCollect partIDs now
      { s with metrics := started.2, running := s.running ++ [some started.1] }
  | .read i =>
      match s.collecting i with
      | none => s
      | some c => { s with running := s.running.set i (some (c.readNext s.metrics)) }
  | .save i =>
      match s.collecting i with
      | none => s
      | some c =>
          if c.left = [] then
            { s with
              metrics := s.metrics.savePrevCounters
              running := s.running.set i none
              completed := c :: s.completed
              since := fun _ => 0 }
          else s

/-! ## A `Collect` alone -/

theorem collecting_eq_some {s : CollectRun} {i : Nat} {c : Collecting} :
    s.collecting i = some c ↔ s.running[i]? = some (some c) := by
  simp [collecting, Option.join_eq_some_iff]

theorem collecting_set {s : CollectRun} {i : Nat} {c : Collecting}
    (here : s.collecting i = some c) (after : Option Collecting) (j : Nat) :
    ((s.running.set i after)[j]?).join = if j = i then after else s.collecting j := by
  rw [Threads.get_set (collecting_eq_some.mp here)]
  split_ifs <;> rfl

theorem read_all (i : Nat) (left : List Nat) : ∀ (s : CollectRun) (c : Collecting),
    s.collecting i = some c → c.left = left →
      let s' := Runs.final step s (List.replicate left.length (.read i))
      s'.collecting i = some { c with
          left := []
          readings := c.readings ++ left.map fun p => (p, s.metrics.read p) } ∧
        s'.metrics = s.metrics ∧ s'.completed = s.completed := by
  induction left with
  | nil =>
    rintro s ⟨elapsed, produced, consumed, _, readings⟩ here rfl
    simpa [Runs.final] using here
  | cons p rest ih =>
    rintro s ⟨elapsed, produced, consumed, _, readings⟩ here rfl
    have next := ih (s.step (.read i))
      ⟨elapsed, produced, consumed, rest, readings ++ [(p, s.metrics.read p)]⟩
    simp only [step, here, Collecting.readNext] at next
    have moved := next (by rw [collecting, collecting_set here, if_pos rfl]) trivial
    simpa [Runs.final, step, here, Collecting.readNext, List.replicate_succ] using moved

theorem collect_alone (s : CollectRun) (partIDs : List Nat) (now : Int) :
    let i := s.running.length
    let s' := Runs.final step s
      (.begin partIDs now :: List.replicate partIDs.length (.read i) ++ [.save i])
    s'.metrics = (s.metrics.collect partIDs now).2 ∧
      ∃ c, s'.completed = c :: s.completed ∧ c.metrics = (s.metrics.collect partIDs now).1 := by
  dsimp only
  rw [List.cons_append, Runs.final_cons, Runs.final_append]
  have started : (s.step (.begin partIDs now)).collecting s.running.length =
      some (s.metrics.beginCollect partIDs now).1 := by
    simp [step, collecting]
  obtain ⟨here, metrics, completed⟩ := read_all s.running.length partIDs _ _ started rfl
  generalize Runs.final step (s.step (.begin partIDs now))
    (List.replicate partIDs.length (.read s.running.length)) = s' at here metrics completed ⊢
  have ended : Runs.final step s' [.save s.running.length] = s'.step (.save s.running.length) := rfl
  rw [ended]
  simp only [step, here, if_true, metrics, completed]
  exact ⟨rfl, _, rfl, rfl⟩

/-! ## No event is lost -/

/-- The events of a broker with one topic, of `n` partitions. -/
def OneTopic (n : Nat) (_ : CollectRun) : CollectEvent → Prop
  | .produce p _ => p < n
  | .consume p => p < n
  | .remove _ => False
  | .begin partIDs _ => partIDs = List.range n
  | _ => True

def underway (s : CollectRun) : List Collecting := s.running.filterMap id

/-- No event is recorded for a partition that a `Collect` has read and not yet
saved, and no second `Collect` reads it. -/
def Undisturbed (s : CollectRun) : CollectEvent → Prop
  | .produce p _ => ∀ c ∈ s.underway, p ∉ c.readings.map Prod.fst
  | .consume p => ∀ c ∈ s.underway, p ∉ c.readings.map Prod.fst
  | .read i => ∀ c ∈ s.collecting i, ∀ p ∈ c.left.head?, ∀ c' ∈ s.underway,
      p ∉ c'.readings.map Prod.fst
  | _ => True

instance oneTopicDecidable (n : Nat) (s : CollectRun) : ∀ e, Decidable (OneTopic n s e)
  | .produce p _ => inferInstanceAs (Decidable (p < n))
  | .consume p => inferInstanceAs (Decidable (p < n))
  | .remove _ => isFalse not_false
  | .begin partIDs _ => inferInstanceAs (Decidable (partIDs = List.range n))
  | .read _ => isTrue trivial
  | .save _ => isTrue trivial

instance undisturbedDecidable (s : CollectRun) : ∀ e, Decidable (s.Undisturbed e)
  | .produce p _ => inferInstanceAs (Decidable (∀ c ∈ s.underway, p ∉ c.readings.map Prod.fst))
  | .consume p => inferInstanceAs (Decidable (∀ c ∈ s.underway, p ∉ c.readings.map Prod.fst))
  | .remove _ => isTrue trivial
  | .begin _ _ => isTrue trivial
  | .read i => inferInstanceAs (Decidable (∀ c ∈ s.collecting i, ∀ p ∈ c.left.head?,
      ∀ c' ∈ s.underway, p ∉ c'.readings.map Prod.fst))
  | .save _ => isTrue trivial

/-- Every recorded event is in the window of exactly one `Collect`, or still to be
found by the next one. -/
def Complete (s : CollectRun) : Prop := ∀ p, s.counted p + s.since p = s.recorded p

/-- A `Collect` that has read the first `k` of `n` partitions, as they are now. -/
def ReadsFirst (mc : MetricsCollector) (n k : Nat) (c : Collecting) : Prop :=
  k ≤ n ∧ c.left = List.range' k (n - k) ∧
    c.readings = (List.range k).map fun p => (p, mc.read p)

structure Inv (n : Nat) (s : CollectRun) : Prop where
  recorded : ∀ p, s.recorded p = s.metrics.countersAt p
  counted : ∀ p, s.counted p = s.metrics.previousAt p
  since : ∀ p, s.since p = s.metrics.countersAt p - s.metrics.previousAt p
  outside : ∀ p, n ≤ p → s.metrics.countersAt p = 0 ∧ s.metrics.previousAt p = 0
  reading : ∀ i c, s.collecting i = some c → ∃ k, ReadsFirst s.metrics n k c
  /-- at most one of them has begun to read -/
  alone : ∀ i j c c', s.collecting i = some c → s.collecting j = some c' → i ≠ j →
    c.readings = [] ∨ c'.readings = []

theorem filter_range_eq (k p : Nat) :
    ((List.range k).filter fun q => q = p) = if p < k then [p] else [] := by
  rw [List.filter_eq, List.nodup_range.count]
  simp only [List.mem_range]
  split <;> rfl

section Reads

variable {mc mc' : MetricsCollector} {n k : Nat} {c : Collecting}

theorem ReadsFirst.readings_fst (first : ReadsFirst mc n k c) :
    c.readings.map Prod.fst = List.range k := by
  simp [first.2.2, Function.comp_def]

theorem ReadsFirst.deltaAt (first : ReadsFirst mc n k c) (p : Nat) :
    c.deltaAt p = if p < k then mc.countersAt p - mc.previousAt p else 0 := by
  rw [Collecting.deltaAt, first.2.2, List.filter_map, List.map_map]
  have chosen := filter_range_eq k p
  simp only [Function.comp_def, delta_read, chosen]
  split <;> simp

theorem ReadsFirst.congr (first : ReadsFirst mc n k c)
    (same : ∀ p < k, mc'.read p = mc.read p) : ReadsFirst mc' n k c := by
  refine ⟨first.1, first.2.1, first.2.2.trans (List.map_congr_left ?_)⟩
  intro p member
  rw [same p (List.mem_range.mp member)]

theorem ReadsFirst.readNext (first : ReadsFirst mc n k c) {p : Nat} (next : c.left.head? = some p) :
    p = k ∧ ReadsFirst mc n (k + 1) (c.readNext mc) := by
  obtain ⟨bound, left, readings⟩ := first
  have more : k < n := by
    by_contra all
    have none : n - k = 0 := by omega
    rw [left, none] at next
    cases next
  obtain ⟨m, count⟩ : ∃ m, n - k = m + 1 := ⟨n - k - 1, by omega⟩
  rw [count, List.range'_succ] at left
  have here : p = k := by
    rw [left] at next
    exact (Option.some.inj next).symm
  refine ⟨here, more, ?_, ?_⟩
  · simp only [Collecting.readNext, left]
    congr 1
    omega
  · simp only [Collecting.readNext, left, readings, List.range_succ, List.map_append]
    rfl

theorem ReadsFirst.all (first : ReadsFirst mc n k c) (done : c.left = []) : k = n := by
  have length := congrArg List.length (first.2.1.symm.trans done)
  simp only [List.length_range', List.length_nil] at length
  have := first.1
  omega

theorem ReadsFirst.readings_eq_nil (first : ReadsFirst mc n k c) : c.readings = [] ↔ k = 0 := by
  simp [first.2.2]

end Reads

section Step

variable {n : Nat} {s : CollectRun}

theorem Inv.complete (inv : Inv n s) : Complete s := by
  intro p
  rw [inv.counted, inv.since, inv.recorded]
  ext <;> simp

theorem inv_start (n : Nat) (now : Int) : Inv n (start (.new now)) where
  recorded _ := rfl
  counted _ := rfl
  since _ := rfl
  outside _ _ := ⟨rfl, rfl⟩
  reading i c here := by simp [collecting, start] at here
  alone i j c c' here := by simp [collecting, start] at here

theorem mem_underway {i : Nat} {c : Collecting} (here : s.collecting i = some c) :
    c ∈ s.underway := by
  have running := List.mem_of_getElem? (collecting_eq_some.mp here)
  simpa [underway] using running

theorem Inv.record (inv : Inv n s) {metrics : MetricsCollector} {p : Nat} {delta : PartCounters}
    (small : p < n)
    (counters : ∀ q, metrics.countersAt q =
      if q = p then s.metrics.countersAt q + delta else s.metrics.countersAt q)
    (previous : ∀ q, metrics.previousAt q = s.metrics.previousAt q)
    (unread : ∀ c ∈ s.underway, p ∉ c.readings.map Prod.fst) :
    Inv n (s.record metrics p delta) := by
  refine ⟨?_, fun q => (inv.counted q).trans (previous q).symm, ?_, ?_, ?_, inv.alone⟩
  · intro q
    simp only [CollectRun.record, counters]
    by_cases here : q = p
    · subst here
      simp [inv.recorded]
    · simp [here, inv.recorded]
  · intro q
    simp only [CollectRun.record, counters, previous]
    by_cases here : q = p
    · subst here
      simp only [Function.update_self, inv.since]
      ext <;> simp <;> omega
    · simp [here, inv.since]
  · intro q large
    have other : q ≠ p := by omega
    simpa [CollectRun.record, counters, previous, other] using inv.outside q large
  · intro i c here
    obtain ⟨k, first⟩ := inv.reading i c here
    refine ⟨k, first.congr fun q early => ?_⟩
    have other : q ≠ p := by
      rintro rfl
      exact unread c (mem_underway here) (by simpa [first.readings_fst] using early)
    simp [CollectRun.record, MetricsCollector.read, counters, previous, other]

theorem collecting_begin (s : CollectRun) (partIDs : List Nat) (now : Int) (i : Nat) :
    (s.step (.begin partIDs now)).collecting i =
      if i = s.running.length then some (s.metrics.beginCollect partIDs now).1
      else s.collecting i := by
  simp only [step, collecting]
  by_cases last : i = s.running.length
  · subst last
    simp
  · rw [if_neg last]
    by_cases inside : i < s.running.length
    · rw [List.getElem?_append_left inside]
    · rw [List.getElem?_eq_none (by simp; omega), List.getElem?_eq_none (by omega)]

theorem Inv.begin (inv : Inv n s) (now : Int) : Inv n (s.step (.begin (List.range n) now)) := by
  refine ⟨inv.recorded, inv.counted, inv.since, inv.outside, ?_, ?_⟩
  · intro i c here
    rw [collecting_begin] at here
    split at here
    · cases here
      exact ⟨0, Nat.zero_le n, List.range_eq_range', rfl⟩
    · exact inv.reading i c here
  · intro i j c c' here here' different
    rw [collecting_begin] at here here'
    split at here
    · cases here
      exact .inl rfl
    · split at here'
      · cases here'
        exact .inr rfl
      · exact inv.alone i j c c' here here' different

theorem Inv.read (inv : Inv n s) {i : Nat} (undisturbed : s.Undisturbed (.read i)) :
    Inv n (s.step (.read i)) := by
  cases here : s.collecting i with
  | none => simpa only [step, here] using inv
  | some c =>
    obtain ⟨k, first⟩ := inv.reading i c here
    simp only [step, here]
    cases next : c.left.head? with
    | none =>
      have same : c.readNext s.metrics = c := by
        simp only [Collecting.readNext, List.head?_eq_none_iff.mp next]
      obtain ⟨inside, entry⟩ := List.getElem?_eq_some_iff.mp (collecting_eq_some.mp here)
      rw [same, ← entry, List.set_getElem_self]
      exact inv
    | some p =>
      obtain ⟨rfl, read⟩ := first.readNext next
      -- another call that has begun to read would have read partition 0
      have others : ∀ j c', s.collecting j = some c' → j ≠ i → c'.readings = [] := by
        intro j c' there different
        obtain ⟨k', first'⟩ := inv.reading j c' there
        rcases inv.alone j i c' c there here different with none | none
        · exact none
        · have zero := first.readings_eq_nil.mp none
          have unread := undisturbed c here p next c' (mem_underway there)
          rw [first'.readings_fst, List.mem_range] at unread
          rw [first'.readings_eq_nil]
          omega
      refine ⟨inv.recorded, inv.counted, inv.since, inv.outside, ?_, ?_⟩
      · intro j c' there
        rw [collecting, collecting_set here] at there
        split at there
        · cases there
          exact ⟨p + 1, read⟩
        · exact inv.reading j c' there
      · intro j j' c₁ c₂ there there' different
        rw [collecting, collecting_set here] at there there'
        split at there
        · rw [if_neg (by omega)] at there'
          exact .inr (others j' c₂ there' (by omega))
        · rename_i other
          exact .inl (others j c₁ there other)

theorem Inv.save (inv : Inv n s) (i : Nat) : Inv n (s.step (.save i)) := by
  cases here : s.collecting i with
  | none => simpa only [step, here] using inv
  | some c =>
    simp only [step, here]
    split
    · rename_i done
      obtain ⟨k, first⟩ := inv.reading i c here
      obtain rfl := first.all done
      have left : ∀ j c', ((s.running.set i none)[j]?).join = some c' →
          j ≠ i ∧ s.collecting j = some c' := by
        intro j c' there
        rw [collecting_set here] at there
        split at there
        · cases there
        · rename_i other
          exact ⟨other, there⟩
      refine ⟨inv.recorded, ?_, ?_, ?_, ?_, ?_⟩
      · intro p
        have before := inv.counted p
        simp only [CollectRun.counted, List.map_cons, List.sum_cons, first.deltaAt,
          previousAt_savePrevCounters] at before ⊢
        rw [before]
        split
        · ext <;> simp
        · have outside := inv.outside p (by omega)
          rw [outside.1, outside.2]
          simp
      · intro p
        simp
      · intro p large
        simpa using (inv.outside p large).1
      · intro j c' there
        obtain ⟨other, running⟩ := left j c' there
        obtain ⟨k', first'⟩ := inv.reading j c' running
        -- with a partition to read, this call has not begun
        have idle : k' = 0 := by
          rcases inv.alone j i c' c running here other with none | none
          · exact first'.readings_eq_nil.mp none
          · have bound := first'.1
            have := first.readings_eq_nil.mp none
            omega
        subst idle
        exact ⟨0, first'.congr fun p early => by omega⟩
      · intro j j' c₁ c₂ there there' different
        exact inv.alone j j' c₁ c₂ (left j c₁ there).2 (left j' c₂ there').2 different
    · exact inv

theorem Inv.step (inv : Inv n s) {e : CollectEvent} (topic : OneTopic n s e)
    (undisturbed : s.Undisturbed e) : Inv n (s.step e) := by
  cases e with
  | produce p count =>
    exact inv.record topic (fun _ => by simp) (fun _ => by simp) undisturbed
  | consume p => exact inv.record topic (fun _ => by simp) (fun _ => by simp) undisturbed
  | remove p => exact topic.elim
  | begin partIDs now =>
    obtain rfl := topic
    exact inv.begin now
  | read i => exact inv.read undisturbed
  | save i => exact inv.save i

end Step

/-- With one topic, no event is lost or counted twice in a run whose partitions
are left alone between the reading and the saving of each `Collect`. -/
theorem windows_complete_of_undisturbed (n : Nat) (now : Int) (events : List CollectEvent)
    (alone : Runs.Guarded step (fun s e => OneTopic n s e ∧ s.Undisturbed e) (start (.new now))
      events) :
    ∀ s ∈ Runs.states step (start (.new now)) events, Complete s := by
  intro s member
  have keep : ∀ s e, Inv n s → OneTopic n s e ∧ s.Undisturbed e → Inv n (s.step e) :=
    fun s e inv alone => inv.step alone.1 alone.2
  exact (Runs.invariant_states keep events _ (inv_start n now) alone s member).complete

/-- Two partitions, events on both, and two calls of `Collect`. -/
def twoWindows : List CollectEvent :=
  [.produce 0 5, .produce 1 2, .begin [0, 1] 1, .consume 0, .read 0, .consume 1, .read 0, .save 0,
    .produce 0 3, .begin [0, 1] 2, .read 1, .read 1, .save 1]

theorem windows_complete_two :
    Runs.Guarded step (fun s e => OneTopic 2 s e ∧ s.Undisturbed e) (start (.new 0)) twoWindows ∧
    ∀ s ∈ Runs.states step (start (.new 0)) twoWindows, Complete s := by
  have alone : Runs.Guarded step (fun s e => OneTopic 2 s e ∧ s.Undisturbed e) (start (.new 0))
    twoWindows := by decide +kernel
  exact ⟨alone, windows_complete_of_undisturbed 2 0 twoWindows alone⟩

/-- A message is produced after `Collect` has read the partition, and before it
saves. -/
def betweenReadAndSave : List CollectEvent :=
  [.begin [0] 1, .read 0, .produce 0 1, .save 0, .begin [0] 2, .read 1, .save 1]

/-- Two calls of `Collect` have completed, and neither has the message in its window. -/
theorem event_between_windows :
    let s := Runs.final step (start (.new 0)) betweenReadAndSave
    Runs.Guarded step (OneTopic 1) (start (.new 0)) betweenReadAndSave ∧
    s.recorded 0 = .produced 1 ∧ s.completed.length = 2 ∧ s.counted 0 = 0 ∧ s.since 0 = 0 ∧
      ¬Complete s := by
  have outcome : Runs.Guarded step (OneTopic 1) (start (.new 0)) betweenReadAndSave ∧
      (Runs.final step (start (.new 0)) betweenReadAndSave).recorded 0 = .produced 1 ∧
      (Runs.final step (start (.new 0)) betweenReadAndSave).completed.length = 2 ∧
      (Runs.final step (start (.new 0)) betweenReadAndSave).counted 0 = 0 ∧
      (Runs.final step (start (.new 0)) betweenReadAndSave).since 0 = 0 := by decide +kernel
  obtain ⟨topic, recorded, completed, counted, since⟩ := outcome
  refine ⟨topic, recorded, completed, counted, since, fun complete => ?_⟩
  have sum := complete 0
  rw [counted, since, recorded] at sum
  cases sum

end CollectRun

end NyaQueue
