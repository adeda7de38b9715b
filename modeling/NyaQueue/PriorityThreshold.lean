import NyaQueue.PriorityDrain

/-!
# What `PopWithThreshold` takes

A level at or above the threshold is served like `PopHighest` serves it.  Below
the threshold the front that arrived first goes, the lowest level on ties.  As
long as the arrival times of the additions do not decrease, each level is
sorted by arrival and that front is the oldest pending entry of all.
-/

set_option autoImplicit false

namespace NyaQueue

namespace PriorityIndex

/-! ## The scan below the threshold -/

/-- Level `p` has the oldest front of the levels seen, and the lowest one of
that time. -/
structure OldestOf (pi : PriorityIndex) (seen : List Level) (p : Level) (time : Time) : Prop where
  member : p ∈ seen
  front : ∃ e rest, pi.contents p = e :: rest ∧ e.arrivedAt = time
  least : ∀ q ∈ seen, ∀ e rest, pi.contents q = e :: rest → time ≤ e.arrivedAt
  lowest : ∀ q ∈ seen, q < p → ∀ e rest, pi.contents q = e :: rest → time < e.arrivedAt

/-- What the running best of the scan says about the levels seen. -/
def Leads (pi : PriorityIndex) (seen : List Level) : Option (Level × Time) → Prop
  | none => ∀ q ∈ seen, pi.contents q = []
  | some (p, time) => pi.OldestOf seen p time

variable {pi : PriorityIndex} {seen : List Level} {p : Level}

theorem oldestFront_of_empty (best : Option (Level × Time)) (rest : List Level)
    (empty : pi.contents p = []) :
    pi.oldestFront best (p :: rest) = pi.oldestFront best rest := by
  rw [oldestFront, EntryRing.peekFront_eq_head?, show (pi.levels p).ring.linearize = [] from empty]
  rfl

variable {e : PendingEntry} {queue : List PendingEntry}

theorem oldestFront_of_first (rest : List Level) (queued : pi.contents p = e :: queue) :
    pi.oldestFront none (p :: rest) = pi.oldestFront (some (p, e.arrivedAt)) rest := by
  rw [oldestFront, EntryRing.peekFront_eq_head?,
    show (pi.levels p).ring.linearize = e :: queue from queued]
  rfl

theorem oldestFront_of_next (best : Level × Time) (rest : List Level)
    (queued : pi.contents p = e :: queue) :
    pi.oldestFront (some best) (p :: rest) =
      pi.oldestFront (some (if e.arrivedAt < best.2 then (p, e.arrivedAt) else best)) rest := by
  rw [oldestFront, EntryRing.peekFront_eq_head?,
    show (pi.levels p).ring.linearize = e :: queue from queued]
  dsimp only [List.head?_cons]
  split <;> rfl

theorem forall_mem_concat {property : Level → Prop} :
    (∀ q ∈ seen ++ [p], property q) ↔ (∀ q ∈ seen, property q) ∧ property p := by
  rw [List.forall_mem_append, List.forall_mem_singleton]

theorem Leads.skip {best : Option (Level × Time)} (leads : pi.Leads seen best)
    (empty : pi.contents p = []) : pi.Leads (seen ++ [p]) best := by
  cases best with
  | none => exact forall_mem_concat.mpr ⟨leads, empty⟩
  | some best =>
    have no_front : ∀ e rest, pi.contents p ≠ e :: rest := by
      intro e rest queued
      rw [empty] at queued
      cases queued
    exact
      { member := List.mem_append_left _ leads.member
        front := leads.front
        least := forall_mem_concat.mpr
          ⟨leads.least, fun e rest queued => absurd queued (no_front e rest)⟩
        lowest := forall_mem_concat.mpr
          ⟨leads.lowest, fun _ e rest queued => absurd queued (no_front e rest)⟩ }

theorem leads_of_older (queued : pi.contents p = e :: queue)
    (older : ∀ q ∈ seen, ∀ e' rest, pi.contents q = e' :: rest → e.arrivedAt < e'.arrivedAt) :
    pi.Leads (seen ++ [p]) (some (p, e.arrivedAt)) where
  member := by simp
  front := ⟨e, queue, queued, rfl⟩
  least := by
    refine forall_mem_concat.mpr
      ⟨fun q member e' rest here => le_of_lt (older q member e' rest here), ?_⟩
    intro e' rest here
    rw [queued] at here
    cases here
    exact le_refl _
  lowest := forall_mem_concat.mpr
    ⟨fun q member _ e' rest here => older q member e' rest here,
      fun below => absurd below (lt_irrefl p)⟩

theorem Leads.first (leads : pi.Leads seen none) (queued : pi.contents p = e :: queue) :
    pi.Leads (seen ++ [p]) (some (p, e.arrivedAt)) := by
  refine leads_of_older queued fun q member e' rest here => ?_
  rw [leads q member] at here
  cases here

theorem Leads.next {best : Level × Time} (leads : pi.Leads seen (some best))
    (higher : ∀ q ∈ seen, q < p) (queued : pi.contents p = e :: queue) :
    pi.Leads (seen ++ [p])
      (some (if e.arrivedAt < best.2 then (p, e.arrivedAt) else best)) := by
  obtain ⟨q, time⟩ := best
  dsimp only
  by_cases older : e.arrivedAt < time
  · -- every level seen so far is at least as young as the old best
    rw [if_pos older]
    exact leads_of_older queued fun r member e' rest here =>
      lt_of_lt_of_le older (leads.least r member e' rest here)
  · rw [if_neg older]
    refine ⟨List.mem_append_left _ leads.member, leads.front,
      forall_mem_concat.mpr ⟨leads.least, ?_⟩, forall_mem_concat.mpr ⟨leads.lowest, ?_⟩⟩
    · intro e' rest here
      rw [queued] at here
      cases here
      exact le_of_not_gt older
    · intro below
      exact absurd (below.trans (higher q leads.member)) (lt_irrefl p)

theorem oldestFront_leads (tried : List Level) :
    ∀ (seen : List Level) (best : Option (Level × Time)), pi.Leads seen best →
      (seen ++ tried).Pairwise (· < ·) → pi.Leads (seen ++ tried) (pi.oldestFront best tried) := by
  induction tried with
  | nil =>
    intro seen best leads _
    rw [List.append_nil]
    exact leads
  | cons p rest ih =>
    intro seen best leads sorted
    have split : seen ++ p :: rest = (seen ++ [p]) ++ rest := by simp
    have higher : ∀ q ∈ seen, q < p := fun q member =>
      (List.pairwise_append.mp sorted).2.2 q member p List.mem_cons_self
    rw [split] at sorted ⊢
    cases queued : pi.contents p with
    | nil =>
      rw [oldestFront_of_empty best rest queued]
      exact ih _ _ (leads.skip queued) sorted
    | cons e queue =>
      cases best with
      | none =>
        rw [oldestFront_of_first rest queued]
        exact ih _ _ (leads.first queued) sorted
      | some best =>
        rw [oldestFront_of_next best rest queued]
        exact ih _ _ (leads.next higher queued) sorted

theorem mem_levelsBelow {threshold : Int} {p : Level} :
    p ∈ levelsBelow threshold ↔ (p.val : Int) < threshold := by
  simp [levelsBelow]

theorem oldestFront_levelsBelow (pi : PriorityIndex) (threshold : Int) :
    pi.Leads (levelsBelow threshold) (pi.oldestFront none (levelsBelow threshold)) := by
  have sorted : (levelsBelow threshold).Pairwise (· < ·) :=
    (List.pairwise_lt_finRange maxPriority).filter _
  exact oldestFront_leads (levelsBelow threshold) [] none (fun q member => by cases member) sorted

/-! ## Levels sorted by arrival -/

/-- Every level is sorted by arrival, and no entry is younger than an addition
still to come. -/
structure Chronological (pi : PriorityIndex) (later : List Time) : Prop where
  sorted : ∀ p, (pi.contents p).Pairwise fun first second => first.arrivedAt ≤ second.arrivedAt
  before : ∀ p, ∀ e ∈ pi.contents p, ∀ time ∈ later, e.arrivedAt ≤ time

inductive IndexOp where
  | add (call : AddCall)
  | popHighest
  | popWithThreshold (threshold : Nat)

def IndexOp.time : IndexOp → Option Time
  | .add call => some call.arrivedAt
  | .popHighest => none
  | .popWithThreshold _ => none

def apply (pi : PriorityIndex) : IndexOp → PriorityIndex
  | .add call => pi.addCall call
  | .popHighest => pi.popHighest.1
  | .popWithThreshold threshold => (pi.popWithThreshold threshold).1

theorem TakesFront.sublist {pi : PriorityIndex} {result : PriorityIndex × Option PendingEntry}
    (pops : pi.TakesFront result) (p : Level) :
    (result.1.contents p).Sublist (pi.contents p) := by
  rcases pops with same | ⟨q, e, rest, queued, -, index⟩
  · rw [same]
  · rw [index, pop_contents queued]
    by_cases here : p = q
    · subst here
      rw [Function.update_self, queued]
      exact List.sublist_cons_self e rest
    · rw [Function.update_of_ne here]

theorem Chronological.pop {later : List Time} (chronological : pi.Chronological later)
    {result : PriorityIndex × Option PendingEntry} (pops : pi.TakesFront result) :
    result.1.Chronological later where
  sorted p := (chronological.sorted p).sublist (pops.sublist p)
  before p e member := chronological.before p e ((pops.sublist p).mem member)

theorem addCall_sublist (pi : PriorityIndex) (call : AddCall) (p : Level) :
    ((pi.addCall call).contents p).Sublist (pi.contents p ++ [call.item.2]) := by
  rw [addCall, add_contents]
  by_cases here : p = clampLevel call.priority
  · subst here
    rw [Function.update_self]
    exact BoundedQueue.push_sublist ..
  · rw [Function.update_of_ne here]
    exact List.sublist_append_left ..

theorem Chronological.add {later : List Time} {call : AddCall}
    (chronological : pi.Chronological (call.arrivedAt :: later))
    (ahead : ∀ time ∈ later, call.arrivedAt ≤ time) :
    (pi.addCall call).Chronological later where
  sorted p := by
    refine List.Pairwise.sublist (pi.addCall_sublist call p) (List.pairwise_append.mpr
      ⟨chronological.sorted p, List.pairwise_singleton .., ?_⟩)
    intro e queued new last
    rw [List.mem_singleton.mp last]
    exact chronological.before p e queued _ List.mem_cons_self
  before p e member time due := by
    rcases List.mem_append.mp ((pi.addCall_sublist call p).mem member) with queued | last
    · exact chronological.before p e queued time (List.mem_cons_of_mem _ due)
    · rw [List.mem_singleton.mp last]
      exact ahead time due

theorem chronological_new (maxPerLevel : Int) (later : List Time) :
    (newPriorityIndex maxPerLevel).Chronological later where
  sorted p := by
    rw [newPriorityIndex_contents]
    exact List.Pairwise.nil
  before p e member := by
    rw [newPriorityIndex_contents] at member
    cases member

theorem Chronological.run (ops : List IndexOp) :
    ∀ {pi : PriorityIndex}, (ops.filterMap IndexOp.time).Pairwise (· ≤ ·) →
      pi.Chronological (ops.filterMap IndexOp.time) →
      (Runs.final apply pi ops).Chronological [] := by
  induction ops with
  | nil => intro pi _ chronological; exact chronological
  | cons op rest ih =>
    intro pi ordered chronological
    cases op with
    | add call =>
      obtain ⟨ahead, later⟩ := List.pairwise_cons.mp ordered
      exact ih later (chronological.add ahead)
    | popHighest => exact ih ordered (chronological.pop (pi.popFirst_takesFront _))
    | popWithThreshold threshold =>
      exact ih ordered (chronological.pop (pi.popWithThreshold_takesFront threshold))

/-! ## The selection -/

theorem eq_of_highest {p q : Level} (p_queued : pi.contents p ≠ []) (q_queued : pi.contents q ≠ [])
    (above_p : ∀ r, p < r → pi.contents r = []) (above_q : ∀ r, q < r → pi.contents r = []) :
    p = q := by
  rcases lt_trichotomy p q with below | same | above
  · exact absurd (above_p q below) q_queued
  · exact same
  · exact absurd (above_q p above) p_queued

theorem popWithThreshold_of_high {threshold : Nat}
    (queued : ∃ p : Level, threshold ≤ p.val ∧ pi.contents p ≠ []) :
    pi.popWithThreshold threshold = pi.popHighest := by
  obtain ⟨r, reaches, r_queued⟩ := queued
  rcases pi.popFirst_levelsDownTo threshold with
    ⟨empty, -⟩ | ⟨p, e, rest, -, p_queued, above_p, taken⟩
  · exact absurd (empty r (by exact_mod_cast reaches)) r_queued
  rcases pi.popFirst_levelsDownTo 0 with ⟨empty, -⟩ | ⟨q, e', rest', -, q_queued, above_q, highest⟩
  · exact absurd (empty r (by omega)) r_queued
  -- both loops stop at the highest non-empty level
  have same : p = q := eq_of_highest (by rw [p_queued]; exact List.cons_ne_nil e rest)
    (by rw [q_queued]; exact List.cons_ne_nil e' rest') above_p above_q
  subst same
  rw [p_queued] at q_queued
  obtain ⟨rfl, rfl⟩ := List.cons.inj q_queued
  rw [popHighest, highest]
  simp only [popWithThreshold, taken]

theorem popWithThreshold_of_low {threshold : Nat}
    (empty : ∀ p : Level, threshold ≤ p.val → pi.contents p = []) :
    ((∀ p, pi.contents p = []) ∧ pi.popWithThreshold threshold = (pi, none)) ∨
    ∃ p e rest, pi.contents p = e :: rest ∧
      pi.OldestOf (levelsBelow threshold) p e.arrivedAt ∧
      pi.popWithThreshold threshold =
        ((pi.setLevel p (pi.levels p).pop.1).addTotal (-1), some e) := by
  rcases pi.popFirst_levelsDownTo threshold with ⟨-, nothing⟩ | ⟨p, e, rest, reaches, queued, -⟩
  · have leads := pi.oldestFront_levelsBelow threshold
    cases scanned : pi.oldestFront none (levelsBelow threshold) with
    | none =>
      rw [scanned] at leads
      refine .inl ⟨?_, by simp only [popWithThreshold, nothing, scanned]⟩
      intro p
      by_cases reaches : threshold ≤ p.val
      · exact empty p reaches
      · exact leads p (mem_levelsBelow.mpr (by omega))
    | some best =>
      obtain ⟨p, time⟩ := best
      rw [scanned] at leads
      obtain ⟨e, rest, queued, rfl⟩ := leads.front
      refine .inr ⟨p, e, rest, queued, leads, ?_⟩
      simp only [popWithThreshold, nothing, scanned, (PriorityLevel.pop_of_cons queued).1]
  · rw [empty p (by exact_mod_cast reaches)] at queued
    cases queued

theorem Chronological.front_least (chronological : pi.Chronological []) {other : PendingEntry}
    {rest : List PendingEntry} (queued : pi.contents p = e :: rest) (member : other ∈ pi.contents p) :
    e.arrivedAt ≤ other.arrivedAt := by
  have sorted := chronological.sorted p
  rw [queued] at sorted member
  rcases List.mem_cons.mp member with rfl | behind
  · exact le_refl _
  · exact (List.pairwise_cons.mp sorted).1 other behind

/-- What `PopWithThreshold` does to an index. -/
structure Selects (pi : PriorityIndex) (threshold : Nat) : Prop where
  empty_iff : (pi.popWithThreshold threshold).2 = none ↔ ∀ p, pi.contents p = []
  high : (∃ p : Level, threshold ≤ p.val ∧ pi.contents p ≠ []) →
    pi.popWithThreshold threshold = pi.popHighest
  low : (∀ p : Level, threshold ≤ p.val → pi.contents p = []) → (∃ p, pi.contents p ≠ []) →
    ∃ p e rest, pi.contents p = e :: rest ∧ (pi.popWithThreshold threshold).2 = some e ∧
      (pi.popWithThreshold threshold).1.contents = Function.update pi.contents p rest ∧
      (∀ q, ∀ other ∈ pi.contents q, e.arrivedAt ≤ other.arrivedAt) ∧
      ∀ q < p, ∀ other ∈ pi.contents q, e.arrivedAt < other.arrivedAt
  /-- only the returned entry goes -/
  others : pi.popWithThreshold threshold = (pi, none) ∨
    ∃ p e rest, pi.contents p = e :: rest ∧ (pi.popWithThreshold threshold).2 = some e ∧
      (pi.popWithThreshold threshold).1.contents = Function.update pi.contents p rest

theorem popWithThreshold_others (pi : PriorityIndex) (threshold : Nat) :
    pi.popWithThreshold threshold = (pi, none) ∨
    ∃ p e rest, pi.contents p = e :: rest ∧ (pi.popWithThreshold threshold).2 = some e ∧
      (pi.popWithThreshold threshold).1.contents = Function.update pi.contents p rest := by
  rcases pi.popWithThreshold_takesFront threshold with
    nothing | ⟨p, e, rest, queued, front, index⟩
  · exact .inl nothing
  · refine .inr ⟨p, e, rest, queued, front, ?_⟩
    rw [index, pop_contents queued]

theorem popWithThreshold_none_iff (pi : PriorityIndex) (threshold : Nat) :
    (pi.popWithThreshold threshold).2 = none ↔ ∀ p, pi.contents p = [] := by
  constructor
  · intro nothing
    by_cases low : ∀ p : Level, threshold ≤ p.val → pi.contents p = []
    · rcases popWithThreshold_of_low low with ⟨empty, -⟩ | ⟨p, e, rest, -, -, taken⟩
      · exact empty
      · rw [taken] at nothing
        cases nothing
    · push Not at low
      rw [popWithThreshold_of_high low, popHighest] at nothing
      obtain ⟨r, -, queued⟩ := low
      rcases pi.popFirst_levelsDownTo 0 with ⟨empty, -⟩ | ⟨p, e, rest, -, -, -, taken⟩
      · exact absurd (empty r (by omega)) queued
      · rw [taken] at nothing
        cases nothing
  · intro empty
    rcases pi.popWithThreshold_others threshold with same | ⟨p, e, rest, queued, -⟩
    · rw [same]
    · rw [empty p] at queued
      cases queued

theorem Chronological.selects (chronological : pi.Chronological []) (threshold : Nat) :
    pi.Selects threshold where
  empty_iff := pi.popWithThreshold_none_iff threshold
  high := popWithThreshold_of_high
  low := by
    intro low some_queued
    obtain ⟨r, r_queued⟩ := some_queued
    rcases popWithThreshold_of_low low with ⟨empty, -⟩ | ⟨p, e, rest, queued, oldest, taken⟩
    · exact absurd (empty r) r_queued
    refine ⟨p, e, rest, queued, by rw [taken], by rw [taken, pop_contents queued], ?_, ?_⟩
    · intro q other member
      obtain ⟨front, behind, q_queued⟩ :=
        List.exists_cons_of_ne_nil (List.ne_nil_of_mem member)
      have below : q ∈ levelsBelow threshold := by
        rw [mem_levelsBelow]
        by_contra reaches
        rw [low q (by omega)] at member
        cases member
      exact (oldest.least q below front behind q_queued).trans
        (chronological.front_least q_queued member)
    · intro q lower other member
      obtain ⟨front, behind, q_queued⟩ :=
        List.exists_cons_of_ne_nil (List.ne_nil_of_mem member)
      have below : q ∈ levelsBelow threshold := by
        have := mem_levelsBelow.mp oldest.member
        have : q.val < p.val := lower
        rw [mem_levelsBelow]
        omega
      exact lt_of_lt_of_le (oldest.lowest q below lower front behind q_queued)
        (chronological.front_least q_queued member)
  others := pi.popWithThreshold_others threshold

theorem popWithThreshold_zero (pi : PriorityIndex) :
    pi.popWithThreshold 0 = pi.popHighest := by
  by_cases queued : ∃ p, pi.contents p ≠ []
  · obtain ⟨p, some_queued⟩ := queued
    exact popWithThreshold_of_high ⟨p, Nat.zero_le _, some_queued⟩
  · push Not at queued
    rcases pi.popFirst_levelsDownTo 0 with ⟨-, nothing⟩ | ⟨p, e, rest, -, found, -⟩
    · rcases pi.popWithThreshold_others 0 with same | ⟨p, e, rest, found, -⟩
      · rw [popHighest, nothing]
        exact same
      · rw [queued p] at found
        cases found
    · rw [queued p] at found
      cases found

/-- After additions with non-decreasing arrival times and any pops,
`PopWithThreshold` fails on an empty index only, agrees with `PopHighest` when
a level at or above the threshold has an entry, and otherwise takes the oldest
of all pending entries, from the lowest level on ties. -/
theorem popWithThreshold_selects (maxPerLevel : Int) (ops : List IndexOp)
    (ordered : (ops.filterMap IndexOp.time).Pairwise (· ≤ ·)) :
    (∀ threshold : Nat,
      (Runs.final apply (newPriorityIndex maxPerLevel) ops).Selects threshold) ∧
    (Runs.final apply (newPriorityIndex maxPerLevel) ops).popWithThreshold 0 =
      (Runs.final apply (newPriorityIndex maxPerLevel) ops).popHighest := by
  have chronological := (chronological_new maxPerLevel (ops.filterMap IndexOp.time)).run ops ordered
  exact ⟨chronological.selects, popWithThreshold_zero _⟩

def sampleOps : List IndexOp :=
  [.add ⟨3, 10, 5⟩, .add ⟨1, 11, 5⟩, .add ⟨8, 12, 6⟩, .popWithThreshold 7, .add ⟨1, 13, 9⟩]

/-- Two levels below the threshold whose fronts arrived together. -/
theorem popWithThreshold_selects_sample :
    (Runs.final apply (newPriorityIndex 4) sampleOps).Selects 7 ∧
      ((Runs.final apply (newPriorityIndex 4) sampleOps).popWithThreshold 7).2 =
        some ⟨11, 5⟩ :=
  ⟨(popWithThreshold_selects 4 sampleOps (by decide)).1 7, by decide +kernel⟩

end PriorityIndex

end NyaQueue
