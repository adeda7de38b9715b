import NyaQueue.PriorityConcurrent
import NyaQueue.Lib.Runs

/-!
# Calls without interruption

The interleaved index compared with the index that takes one call at a time: a
call that finds no level locked and runs to its end alone does to the index
what the operation of `PriorityIndex` does, and returns the same.  Each loop of
a call has one lemma, by induction over what is left of it.
-/

set_option autoImplicit false

namespace NyaQueue

/-- The operation of `PriorityIndex` that a call is, with the thread it leaves. -/
def IndexCall.run (pi : PriorityIndex) : IndexCall → PriorityIndex × Thread
  | .add priority offset arrivedAt =>
      let added := pi.add priority offset arrivedAt
      (added.1, .addReturned ⟨offset, arrivedAt⟩ added.2)
  | .popHighest => (pi.popHighest.1, .popReturned pi.popHighest.2)
  | .popWithThreshold threshold =>
      let popped := pi.popWithThreshold threshold.val
      (popped.1, .popReturned popped.2)
  | .promoteStale now ttl => (pi.promoteStale now ttl, .promoteReturned)

theorem levelsBelow_nodup (threshold : Int) : (levelsBelow threshold).Nodup :=
  (List.nodup_finRange maxPriority).filter _

namespace PriorityIndex

theorem setLevel_setLevel (pi : PriorityIndex) (p : Level) (lv lv' : PriorityLevel) :
    (pi.setLevel p lv).setLevel p lv' = pi.setLevel p lv' := by
  unfold setLevel
  rw [Function.update_idem]

theorem addTotal_addTotal (pi : PriorityIndex) (delta delta' : Int64) :
    (pi.addTotal delta).addTotal delta' = pi.addTotal (delta + delta') := by
  unfold addTotal
  rw [Int64.add_assoc]

theorem addTotal_levels (pi : PriorityIndex) (delta : Int64) :
    (pi.addTotal delta).levels = pi.levels := rfl

theorem addTotal_setLevel (pi : PriorityIndex) (delta : Int64) (p : Level) (lv : PriorityLevel) :
    (pi.addTotal delta).setLevel p lv = (pi.setLevel p lv).addTotal delta := rfl

/-- The pushes of one round of `PromoteStale`: the count of the level is left
for later. -/
def receive (pi : PriorityIndex) (up : Level) (stale : List PendingEntry) : PriorityIndex :=
  let pushed := pushStale (pi.levels up).ring stale
  (pi.setLevel up { ring := pushed.1, count := (pi.levels up).count }).addTotal
    (-Int64.ofNat pushed.2.length)

theorem receive_nil (pi : PriorityIndex) (up : Level) : pi.receive up [] = pi := by
  simp [receive, pushStale, setLevel, addTotal]

theorem receive_cons_free {pi : PriorityIndex} {up : Level} {e : PendingEntry}
    (free : ((pi.levels up).ring.pushBack e).2 = none) (stale : List PendingEntry) :
    pi.receive up (e :: stale) =
      (pi.setLevel up { ring := ((pi.levels up).ring.pushBack e).1
                        count := (pi.levels up).count }).receive up stale := by
  simp only [receive, pushStale, free, Option.toList_none, List.nil_append,
    setLevel_levels_self, setLevel_setLevel]

theorem receive_cons_full {pi : PriorityIndex} {up : Level} {e old : PendingEntry}
    (full : ((pi.levels up).ring.pushBack e).2 = some old) (stale : List PendingEntry) :
    pi.receive up (e :: stale) =
      ((pi.setLevel up { ring := ((pi.levels up).ring.pushBack e).1
                         count := (pi.levels up).count }).addTotal (-1)).receive up stale := by
  have one : ∀ n : Nat, -Int64.ofNat (n + 1) = -1 + -Int64.ofNat n := by
    intro n
    rw [Int64.ofNat_add, Int64.neg_add, Int64.sub_eq_add_neg, Int64.add_comm]
    rfl
  simp only [receive, pushStale, full, Option.toList_some, List.singleton_append,
    List.length_cons, one, addTotal_levels, addTotal_setLevel, setLevel_levels_self,
    setLevel_setLevel, addTotal_addTotal]

theorem promoteLevel_eq (pi : PriorityIndex) (now : Time) (ttl : Int) (p : Fin 9) :
    pi.promoteLevel now ttl p =
      let kept := pi.setLevel p.castSucc ((pi.levels p.castSucc).keepFresh now ttl)
      if (pi.levels p.castSucc).stale now ttl = [] then kept
      else
        let received := kept.receive p.succ ((pi.levels p.castSucc).stale now ttl)
        received.setLevel p.succ
          { ring := (received.levels p.succ).ring
            count := Int32.ofNat (received.levels p.succ).ring.size } := by
  unfold promoteLevel receive
  dsimp only
  split
  · rfl
  · simp only [addTotal_levels, addTotal_setLevel, setLevel_levels_self, setLevel_setLevel]

end PriorityIndex

namespace Machine

/-- Thread `i` gets from `t` to `t'` on its own. -/
def Reaches (i : Nat) (m : Machine) (t : Thread) (m' : Machine) (t' : Thread) : Prop :=
  Runs.Repeats step (.run i) (m.resume i t) (m'.resume i t')

section Alone

variable {m m' m'' : Machine} {i : Nat} {t t' t'' : Thread}

@[simp] theorem resume_resume (m : Machine) (i : Nat) (t t' : Thread) :
    (m.resume i t).resume i t' = m.resume i t' := by
  unfold resume
  rw [List.set_set]

@[simp] theorem resume_index (m : Machine) (i : Nat) (t : Thread) :
    (m.resume i t).index = m.index := rfl

@[simp] theorem resume_owner (m : Machine) (i : Nat) (t : Thread) :
    (m.resume i t).owner = m.owner := rfl

@[simp] theorem resume_setLevel (m : Machine) (i : Nat) (t : Thread) (p : Level)
    (lv : PriorityLevel) : (m.resume i t).setLevel p lv = (m.setLevel p lv).resume i t := rfl

@[simp] theorem resume_addTotal (m : Machine) (i : Nat) (t : Thread) (delta : Int64) :
    (m.resume i t).addTotal delta = (m.addTotal delta).resume i t := rfl

@[simp] theorem resume_setOwner (m : Machine) (i : Nat) (t : Thread) (p : Level)
    (owner : Option Nat) :
    (m.resume i t).setOwner p owner = (m.setOwner p owner).resume i t := rfl

@[simp] theorem resume_drop (m : Machine) (i : Nat) (t : Thread) (e : Option PendingEntry) :
    (m.resume i t).drop e = (m.drop e).resume i t := rfl

theorem drop_none (m : Machine) : m.drop none = m := by
  simp [drop]

theorem Reaches.refl : Reaches i m t m t := Runs.Repeats.refl ..

theorem Reaches.trans (first : Reaches i m t m' t') (second : Reaches i m' t' m'' t'') :
    Reaches i m t m'' t'' :=
  Runs.Repeats.trans first second

theorem Reaches.head (inside : i < m.threads.length)
    (one : (m.resume i t).stepThread i t = m'.resume i t') (rest : Reaches i m' t' m'' t'') :
    Reaches i m t m'' t'' := by
  have at_i : (m.resume i t).threads[i]? = some t := List.getElem?_set_self inside
  refine Runs.Repeats.head ?_
  simp only [step, at_i]
  rw [one]
  exact rest

theorem Reaches.single (inside : i < m.threads.length)
    (one : (m.resume i t).stepThread i t = m'.resume i t') : Reaches i m t m' t' :=
  .head inside one .refl

theorem add_alone (inside : i < m.threads.length) {p : Level} (free : m.owner p = none)
    (e : PendingEntry) :
    ((m.index.levels p).push e).2 = none ∧
      Reaches i m (.add p e) ((m.setLevel p ((m.index.levels p).push e).1).addTotal 1)
        (.addReturned e true) ∨
    ∃ old, ((m.index.levels p).push e).2 = some old ∧
      Reaches i m (.add p e) ((m.setLevel p ((m.index.levels p).push e).1).drop (some old))
        (.addReturned e false) := by
  cases pushed : ((m.index.levels p).push e).2 with
  | some old =>
    refine .inr ⟨old, rfl, .single inside ?_⟩
    simp [stepThread, stepAdd, free, pushed]
  | none =>
    have first : Reaches i m (.add p e) (m.setLevel p ((m.index.levels p).push e).1)
        (.addTotal e) := .single inside (by simp [stepThread, stepAdd, free, pushed])
    exact .inl ⟨rfl, first.trans (.single inside (by simp [stepThread]))⟩

/-! ## Pops -/

theorem popHigh_alone (inside : i < m.threads.length) (free : ∀ p, m.owner p = none)
    (tried below : List Level) :
    (∃ e, (m.index.popFirst tried).2 = some e ∧
      Reaches i m (.popHigh tried below) { m with index := (m.index.popFirst tried).1 }
        (.popReturned (some e))) ∨
    (m.index.popFirst tried = (m.index, none) ∧
      Reaches i m (.popHigh tried below) m (.peek none below)) := by
  induction tried with
  | nil => exact .inr ⟨rfl, .single inside (by simp [stepThread])⟩
  | cons p tried ih =>
    rw [PriorityIndex.popFirst]
    cases popped : (m.index.levels p).pop.2 with
    | some e =>
      have first : Reaches i m (.popHigh (p :: tried) below)
          (m.setLevel p (m.index.levels p).pop.1) (.popTotal e) :=
        .single inside (by simp [stepThread, stepPop, free, popped])
      exact .inl ⟨e, rfl, first.trans (.single inside (by simp [stepThread]; rfl))⟩
    | none =>
      have skip : (m.resume i (.popHigh (p :: tried) below)).stepThread i
          (.popHigh (p :: tried) below) = m.resume i (.popHigh tried below) := by
        simp [stepThread, stepPop, free, popped]
      rcases ih with ⟨e, result, later⟩ | ⟨result, later⟩
      · exact .inl ⟨e, result, .head inside skip later⟩
      · exact .inr ⟨result, .head inside skip later⟩

/-- The best level so far stays locked by thread `i`. -/
def lockBest (m : Machine) (i : Nat) : Option (Level × Time) → Machine
  | none => m
  | some (p, _) => m.setOwner p (some i)

theorem lockBest_index (best : Option (Level × Time)) : (m.lockBest i best).index = m.index := by
  rcases best with _ | ⟨q, time⟩ <;> rfl

theorem lockBest_threads (best : Option (Level × Time)) :
    (m.lockBest i best).threads = m.threads := by
  rcases best with _ | ⟨q, time⟩ <;> rfl

theorem lockBest_owner (free : ∀ p, m.owner p = none) {p : Level} {best : Option (Level × Time)}
    (apart : ∀ q time, best = some (q, time) → q ≠ p) : (m.lockBest i best).owner p = none := by
  rcases best with _ | ⟨q, time⟩
  · exact free p
  · exact (Function.update_of_ne (apart q time rfl).symm ..).trans (free p)

theorem lockBest_switch (free : ∀ p, m.owner p = none) (q : Level) (time : Time) :
    (m.lockBest i (some (q, time))).setOwner q none = m := by
  unfold lockBest setOwner
  rw [Function.update_idem, Function.update_eq_self_iff.mpr (free q).symm]

theorem round_alone (free : ∀ p, m.owner p = none) {p : Level} (best : Option (Level × Time))
    (apart : ∀ q time, best = some (q, time) → q ≠ p) (tried : List Level) :
    ((m.lockBest i best).resume i (.peek best (p :: tried))).stepThread i
        (.peek best (p :: tried)) =
      (m.lockBest i (m.index.oldestFront best [p])).resume i
        (.peek (m.index.oldestFront best [p]) tried) := by
  have unlocked := lockBest_owner (i := i) free apart
  simp only [stepThread, stepPeek, resume_owner, unlocked, if_true, resume_index, lockBest_index,
    PriorityIndex.oldestFront]
  cases (m.index.levels p).ring.peekFront with
  | none => exact resume_resume ..
  | some e =>
    rcases best with _ | ⟨q, time⟩
    · simp only [resume_setOwner, resume_resume]
      rfl
    · by_cases older : e.arrivedAt < time
      · simp only [older, if_true, resume_setOwner, resume_resume, lockBest_switch free]
        rfl
      · simp only [older, if_false, resume_resume]

theorem oldestFront_cons (pi : PriorityIndex) (best : Option (Level × Time)) (p : Level)
    (tried : List Level) :
    pi.oldestFront best (p :: tried) = pi.oldestFront (pi.oldestFront best [p]) tried := by
  simp only [PriorityIndex.oldestFront]
  split
  · rfl
  · rcases best with _ | ⟨q, time⟩
    · rfl
    · dsimp only
      split <;> rfl

theorem oldestFront_single (pi : PriorityIndex) (best : Option (Level × Time)) (p : Level) :
    pi.oldestFront best [p] = best ∨ ∃ time, pi.oldestFront best [p] = some (p, time) := by
  simp only [PriorityIndex.oldestFront]
  cases (pi.levels p).ring.peekFront with
  | none => exact .inl rfl
  | some e =>
    rcases best with _ | ⟨q, time⟩
    · exact .inr ⟨_, rfl⟩
    · dsimp only
      split
      · exact .inr ⟨_, rfl⟩
      · exact .inl rfl

theorem peek_alone (inside : i < m.threads.length) (free : ∀ p, m.owner p = none)
    (tried : List Level) (best : Option (Level × Time)) (distinct : tried.Nodup)
    (apart : ∀ q time, best = some (q, time) → q ∉ tried) :
    Reaches i (m.lockBest i best) (.peek best tried)
      (m.lockBest i (m.index.oldestFront best tried))
      (.peek (m.index.oldestFront best tried) []) := by
  induction tried generalizing best with
  | nil => exact .refl
  | cons p tried ih =>
    obtain ⟨fresh, distinct⟩ := List.nodup_cons.mp distinct
    have round := round_alone (i := i) free best
      (fun q time chosen => List.ne_of_not_mem_cons (apart q time chosen)) tried
    rw [oldestFront_cons]
    refine .head ((lockBest_threads best).symm ▸ inside) round (ih _ distinct ?_)
    intro q time chosen
    rcases oldestFront_single m.index best p with same | ⟨time', switched⟩
    · rw [same] at chosen
      exact List.not_mem_of_not_mem_cons (apart q time chosen)
    · rw [switched] at chosen
      cases chosen
      exact fresh

theorem best_alone (inside : i < m.threads.length) (free : ∀ p, m.owner p = none) {p : Level}
    {time : Time} {e : PendingEntry} (front : (m.index.levels p).pop.2 = some e) :
    Reaches i (m.lockBest i (some (p, time))) (.peek (some (p, time)) [])
      ((m.setLevel p (m.index.levels p).pop.1).addTotal (-1)) (.popReturned (some e)) := by
  have popped : (m.index.levels p).ring.popFront.2 = some e ∧ (m.index.levels p).pop.1 =
      { ring := (m.index.levels p).ring.popFront.1, count := (m.index.levels p).count - 1 } := by
    unfold PriorityLevel.pop at front ⊢
    cases top : (m.index.levels p).ring.popFront.2 with
    | none => simp [top] at front
    | some e' =>
      simp only [top, Option.some.injEq] at front ⊢
      exact ⟨front, trivial⟩
  have unlocked := lockBest_switch (i := i) free p time
  have first : Reaches i (m.lockBest i (some (p, time))) (.peek (some (p, time)) [])
      (m.setLevel p (m.index.levels p).pop.1) (.popTotal e) := by
    refine .single inside ?_
    simp only [stepThread, stepBest, resume_index, lockBest_index, resume_setLevel,
      resume_setOwner, resume_resume, popped.1, Option.getD_some, popped.2]
    exact congrArg (fun m' : Machine => (m'.setLevel p _).resume i (.popTotal e)) unlocked
  exact first.trans (.single inside (by simp [stepThread]))

/-! ## `PromoteStale` -/

theorem push_alone (inside : i < m.threads.length) (now : Time) (ttl : Int) (p : Fin 9)
    (stale : List PendingEntry) (todo : List (Fin 9)) :
    ∃ evicted, Reaches i m (.promotePush now ttl p stale todo)
      { m with index := m.index.receive p.succ stale, evicted := evicted }
      (.promotePush now ttl p [] todo) := by
  induction stale generalizing m with
  | nil =>
    refine ⟨m.evicted, ?_⟩
    rw [PriorityIndex.receive_nil]
    exact .refl
  | cons e stale ih =>
    cases pushed : ((m.index.levels p.succ).ring.pushBack e).2 with
    | none =>
      rw [PriorityIndex.receive_cons_free pushed]
      obtain ⟨evicted, rest⟩ := @ih (m.setLevel p.succ _) inside
      refine ⟨evicted, .head inside ?_ rest⟩
      simp only [stepThread, stepPush, resume_index, pushed, resume_setLevel, drop_none,
        resume_resume]
    | some old =>
      rw [PriorityIndex.receive_cons_full pushed]
      obtain ⟨evicted, rest⟩ :=
        @ih (((m.setLevel p.succ _).drop (some old)).addTotal (-1)) inside
      have first : Reaches i m (.promotePush now ttl p (e :: stale) todo)
          ((m.setLevel p.succ _).drop (some old)) (.promoteEvicted now ttl p stale todo) :=
        .single inside (by simp [stepThread, stepPush, pushed]; rfl)
      refine ⟨evicted, first.trans (.head inside ?_ rest)⟩
      simp [stepThread]

theorem promoteUp_alone (inside : i < m.threads.length) (free : ∀ p, m.owner p = none)
    (now : Time) (ttl : Int) (p : Fin 9) (stale : List PendingEntry) (todo : List (Fin 9)) :
    ∃ evicted, Reaches i m (.promoteUp now ttl p stale todo)
      { m with
        index :=
          let received := m.index.receive p.succ stale
          received.setLevel p.succ
            { ring := (received.levels p.succ).ring
              count := Int32.ofNat (received.levels p.succ).ring.size }
        evicted := evicted }
      (.promote now ttl todo) := by
  have lock : Reaches i m (.promoteUp now ttl p stale todo) (m.setOwner p.succ (some i))
      (.promotePush now ttl p stale todo) :=
    .single inside (by simp [stepThread, stepLockUp, free])
  obtain ⟨evicted, pushes⟩ := push_alone (m := m.setOwner p.succ (some i)) inside now ttl p stale
    todo
  refine ⟨evicted, lock.trans (pushes.trans (.single inside ?_))⟩
  have unlocked : Function.update (Function.update m.owner p.succ (some i)) p.succ none =
      m.owner := by
    rw [Function.update_idem, Function.update_eq_self_iff.mpr (free _).symm]
  simp only [stepThread, stepUnlockUp, resume_index, resume_setLevel, resume_setOwner,
    resume_resume]
  simp only [setLevel, setOwner, unlocked]

theorem promoteLevel_alone (inside : i < m.threads.length) (free : ∀ p, m.owner p = none)
    (now : Time) (ttl : Int) (p : Fin 9) (todo : List (Fin 9)) :
    ∃ evicted, Reaches i m (.promote now ttl (p :: todo))
      { m with index := m.index.promoteLevel now ttl p, evicted := evicted }
      (.promote now ttl todo) := by
  rw [PriorityIndex.promoteLevel_eq]
  dsimp only
  by_cases nothing : (m.index.levels p.castSucc).stale now ttl = []
  · refine ⟨m.evicted, .single inside ?_⟩
    simp only [stepThread, stepTake, resume_owner, free, if_true, resume_index, nothing,
      resume_setLevel, resume_resume]
    rfl
  · rw [if_neg nothing]
    have take : Reaches i m (.promote now ttl (p :: todo)) (m.setLevel p.castSucc _)
        (.promoteUp now ttl p _ todo) := .single inside (by
      simp only [stepThread, stepTake, resume_owner, free, if_true, resume_index, nothing,
        if_false, resume_setLevel, resume_resume]
      rfl)
    obtain ⟨evicted, rest⟩ := promoteUp_alone (m := m.setLevel p.castSucc _) inside free now ttl
      p _ todo
    exact ⟨evicted, take.trans rest⟩

theorem promote_alone (inside : i < m.threads.length) (free : ∀ p, m.owner p = none)
    (now : Time) (ttl : Int) (todo : List (Fin 9)) :
    ∃ evicted, Reaches i m (.promote now ttl todo)
      { m with
        index := todo.foldl (fun pi p => pi.promoteLevel now ttl p) m.index
        evicted := evicted }
      .promoteReturned := by
  induction todo generalizing m with
  | nil => exact ⟨m.evicted, .single inside (by simp [stepThread])⟩
  | cons p todo ih =>
    obtain ⟨evicted, round⟩ := promoteLevel_alone inside free now ttl p todo
    obtain ⟨evicted', rest⟩ := @ih { m with
      index := m.index.promoteLevel now ttl p
      evicted := evicted } inside free
    exact ⟨evicted', round.trans rest⟩

theorem popHighest_alone (inside : i < m.threads.length) (free : ∀ p, m.owner p = none) :
    Reaches i m (Thread.start .popHighest) { m with index := m.index.popHighest.1 }
      (.popReturned m.index.popHighest.2) := by
  unfold PriorityIndex.popHighest
  rcases popHigh_alone inside free (levelsDownTo 0) [] with ⟨e, result, ends⟩ | ⟨result, high⟩
  · rw [result]
    exact ends
  · rw [result]
    exact high.trans (.single inside (by simp [stepThread]))

theorem popWithThreshold_alone (inside : i < m.threads.length) (free : ∀ p, m.owner p = none)
    (threshold : Fin 11) :
    Reaches i m (Thread.start (.popWithThreshold threshold))
      { m with index := (m.index.popWithThreshold threshold.val).1 }
      (.popReturned (m.index.popWithThreshold threshold.val).2) := by
  unfold PriorityIndex.popWithThreshold
  dsimp only
  rcases popHigh_alone inside free (levelsDownTo threshold.val) (levelsBelow threshold.val) with
    ⟨e, result, ends⟩ | ⟨result, high⟩
  · rw [result]
    exact ends
  · have peeked := peek_alone inside free (levelsBelow threshold.val) none
      (levelsBelow_nodup threshold.val) (by simp)
    rw [result]
    dsimp only
    cases found : m.index.oldestFront none (levelsBelow threshold.val) with
    | none =>
      rw [found] at peeked
      exact high.trans (peeked.trans (.single inside (by simp [stepThread, lockBest])))
    | some best =>
      obtain ⟨p, time⟩ := best
      rw [found] at peeked
      rcases m.index.oldestFront_queued _ none p time found with impossible | ⟨e, rest, queued⟩
      · cases impossible
      · have front := (PriorityLevel.pop_of_cons queued).1
        dsimp only
        rw [front]
        exact high.trans (peeked.trans (best_alone inside free front))

theorem start_alone (inside : i < m.threads.length) (free : ∀ p, m.owner p = none)
    (call : IndexCall) :
    ∃ evicted, Reaches i m (Thread.start call)
      { m with index := (call.run m.index).1, evicted := evicted } (call.run m.index).2 := by
  cases call with
  | add priority offset arrivedAt =>
    unfold IndexCall.run PriorityIndex.add
    dsimp only
    rcases add_alone inside (free (clampLevel priority)) ⟨offset, arrivedAt⟩ with
      ⟨pushed, ends⟩ | ⟨old, pushed, ends⟩
    · rw [pushed]
      exact ⟨m.evicted, ends⟩
    · rw [pushed]
      exact ⟨_, ends⟩
  | popHighest => exact ⟨m.evicted, popHighest_alone inside free⟩
  | popWithThreshold threshold => exact ⟨m.evicted, popWithThreshold_alone inside free threshold⟩
  | promoteStale now ttl =>
    simp only [IndexCall.run, Thread.start, PriorityIndex.promoteStale]
    exact promote_alone inside free now ttl (List.finRange 9).reverse

end Alone

theorem call_alone (m : Machine) (free : ∀ p, m.owner p = none) (call : IndexCall) :
    ∃ n evicted, Runs.final step m (.start call :: List.replicate n (.run m.threads.length)) =
      { index := (call.run m.index).1
        owner := m.owner
        threads := m.threads ++ [(call.run m.index).2]
        evicted := evicted } := by
  obtain ⟨evicted, n, ends⟩ := start_alone (i := m.threads.length)
    (m := { m with threads := m.threads ++ [Thread.start call] }) (by simp) free call
  refine ⟨n, evicted, ?_⟩
  simp only [resume, List.set_append_right _ _ (Nat.le_refl _), Nat.sub_self, List.set_cons_zero]
    at ends
  exact ends

theorem call_alone_first :
    let call := IndexCall.popWithThreshold 3
    ∃ n evicted, Runs.final step (init 2) (.start call :: List.replicate n (.run 0)) =
      { index := (call.run (init 2).index).1
        owner := fun _ => none
        threads := [(call.run (init 2).index).2]
        evicted := evicted } :=
  call_alone (init 2) (fun _ => rfl) (.popWithThreshold 3)

end Machine

end NyaQueue
