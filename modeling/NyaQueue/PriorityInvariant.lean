import NyaQueue.PriorityConcurrent
import NyaQueue.Lib.Runs
import NyaQueue.Lib.Threads

/-!
# Accounting under concurrency

The invariant of the interleaved index.  A level that nobody is pushing to has
an exact count; `total` is the number of queued entries corrected by what each
running call still has to add or subtract; and every entry ever added is
queued, in the hands of a call, or dropped.  Each kind of step is shown to keep
the invariant through one of three rules: it changes one level that no other
call has locked, or no level at all, or nothing but its own thread.
-/

set_option autoImplicit false

namespace NyaQueue

open Accounting

namespace Machine

structure Inv (m : Machine) : Prop where
  locked : ∀ (i : Nat) (t : Thread) (p : Level), m.threads[i]? = some t → t.holds = some p →
    m.owner p = some i
  counts : ∀ p : Level, (∀ (i : Nat) (t : Thread), m.threads[i]? = some t → t.pushing ≠ some p) →
    (m.index.levels p).Exact
  total : m.index.total = Int64.ofInt (m.size + m.sum Thread.surplus)
  entries : m.sum Thread.inserted =
    m.index.pending + m.sum Thread.taken + m.sum Thread.held + m.evicted
  front : ∀ (i : Nat) (t : Thread) (p : Level), m.threads[i]? = some t → t.best = some p →
    m.index.contents p ≠ []

theorem addTotal_zero (pi : PriorityIndex) : pi = pi.addTotal (Int64.ofInt 0) := by
  simp [PriorityIndex.addTotal]

theorem best_holds {t : Thread} {p : Level} (best : t.best = some p) : t.holds = some p := by
  cases t with
  | peek chosen tried =>
    cases chosen with
    | none => cases best
    | some level => exact best
  | _ => cases best

theorem pushing_holds {t : Thread} {p : Level} (pushing : t.pushing = some p) :
    t.holds = some p := by
  cases t with
  | promotePush => exact pushing
  | promoteEvicted => exact pushing
  | _ => cases pushing

theorem sum_resume {M : Type} [AddCommMonoid M] {m : Machine} {i : Nat} {t : Thread}
    (at_i : m.threads[i]? = some t) (t' : Thread) (f : Thread → M) :
    ((m.threads.set i t').map f).sum + f t = m.sum f + f t' :=
  sum_set_add f t' m.threads i t at_i

/-- The arithmetic of one step: a thread moves entries between its own hands, one
level (from `queue` to `queue'`) and the dropped ones. -/
theorem entries_of_counts
    {inserted inserted' taken taken' held held' pending pending' evicted dropped :
      Multiset PendingEntry}
    {a a' b b' c c' queue queue' : Multiset PendingEntry}
    (before : inserted = pending + taken + held + evicted)
    (insert : inserted' + a = inserted + a') (take : taken' + b = taken + b')
    (hold : held' + c = held + c') (moved : a' + b + c + queue = a + b' + c' + queue' + dropped)
    (level : pending' + queue = pending + queue') :
    inserted' = pending' + taken' + held' + (evicted + dropped) := by
  ext e
  have := congrArg (Multiset.count e) before
  have := congrArg (Multiset.count e) insert
  have := congrArg (Multiset.count e) take
  have := congrArg (Multiset.count e) hold
  have := congrArg (Multiset.count e) moved
  have := congrArg (Multiset.count e) level
  simp only [Multiset.count_add] at *
  omega

section Move

variable {m : Machine} {i : Nat} {t t' : Thread} {owner : Level → Option Nat}

theorem locked_set (inv : m.Inv) (mine : ∀ q, t'.holds = some q → owner q = some i)
    (others : ∀ q j, j ≠ i → m.owner q = some j → owner q = some j) :
    ∀ (j : Nat) (u : Thread) (q : Level), (m.threads.set i t')[j]? = some u →
      u.holds = some q → owner q = some j := by
  intro j u q at_j holds
  rcases Threads.of_set at_j with ⟨rfl, rfl⟩ | ⟨different, before⟩
  · exact mine q holds
  · exact others q j different (inv.locked j u q before holds)

/-- A step that leaves all levels alone: an update of `total`, a lock taken or
given back, or nothing but progress of the thread. -/
theorem Inv.quiet (inv : m.Inv) (at_i : m.threads[i]? = some t) (change : Int)
    {index : PriorityIndex} (updated : index = m.index.addTotal (Int64.ofInt change))
    (mine : ∀ q, t'.holds = some q → owner q = some i)
    (others : ∀ q j, j ≠ i → m.owner q = some j → owner q = some j)
    (pushing : ∀ q, t.pushing = some q → t'.pushing = some q)
    (total : t'.surplus = t.surplus + change)
    (entries : t'.inserted + t.taken + t.held = t.inserted + t'.taken + t'.held)
    (front : ∀ q, t'.best = some q → m.index.contents q ≠ []) :
    Inv { index := index, owner := owner, threads := m.threads.set i t',
          evicted := m.evicted } := by
  subst updated
  refine ⟨locked_set inv mine others, ?_, ?_, ?_, ?_⟩
  · intro p idle
    apply inv.counts p
    intro j u at_j pushes
    by_cases same : j = i
    · subst same
      rw [at_i] at at_j
      cases at_j
      exact idle j t' (Threads.set_self at_i t') (pushing p pushes)
    · exact idle j u ((List.getElem?_set_ne (Ne.symm same)).trans at_j) pushes
  · have changed := sum_resume at_i t' Thread.surplus
    change m.index.total + Int64.ofInt change = _
    rw [inv.total, ← Int64.ofInt_add]
    refine congrArg Int64.ofInt ?_
    change m.size + m.sum Thread.surplus + change =
      m.size + ((m.threads.set i t').map Thread.surplus).sum
    omega
  · have inserted := sum_resume at_i t' Thread.inserted
    have taken := sum_resume at_i t' Thread.taken
    have held := sum_resume at_i t' Thread.held
    have before := inv.entries
    have moved : t'.inserted + t.taken + t.held + 0 =
        t.inserted + t'.taken + t'.held + 0 + 0 := by simpa using entries
    have conserved := entries_of_counts before inserted taken held moved
      (rfl : m.index.pending + 0 = m.index.pending + 0)
    rwa [add_zero] at conserved
  · intro j u p at_j best
    rcases Threads.of_set at_j with ⟨rfl, rfl⟩ | ⟨-, before⟩
    · exact front p best
    · exact inv.front j u p before best

theorem size_setLevel (m : Machine) (p : Level) (lv : PriorityLevel) :
    (m.setLevel p lv).size + (m.index.contents p).length = m.size + lv.ring.linearize.length := by
  have replaced := sum_update_add (fun q => ((m.index.contents q).length : Int)) p
    (lv.ring.linearize.length : Int)
  have lengths : (fun q => (((m.setLevel p lv).index.contents q).length : Int)) =
      Function.update (fun q => ((m.index.contents q).length : Int)) p
        (lv.ring.linearize.length : Int) := by
    funext q
    change (((m.index.setLevel p lv).contents q).length : Int) = _
    rw [PriorityIndex.setLevel_contents]
    by_cases same : q = p
    · subst same
      rw [Function.update_self, Function.update_self]
    · rw [Function.update_of_ne same, Function.update_of_ne same]
  unfold size
  rw [lengths]
  exact replaced

variable {p : Level}

theorem Inv.atLevel (inv : m.Inv) (at_i : m.threads[i]? = some t) {lv : PriorityLevel}
    {evicted dropped : Multiset PendingEntry} (drops : evicted = m.evicted + dropped)
    (allowed : m.owner p = none ∨ m.owner p = some i)
    (mine : ∀ q, t'.holds = some q → owner q = some i)
    (others : ∀ q j, j ≠ i → m.owner q = some j → owner q = some j)
    (pushing : ∀ q, t.pushing = some q → q = p) (exact : t'.pushing ≠ some p → lv.Exact)
    (total : (lv.ring.linearize.length : Int) + t'.surplus =
      (m.index.contents p).length + t.surplus)
    (entries : t'.inserted + t.taken + t.held + (m.index.contents p : Multiset PendingEntry) =
      t.inserted + t'.taken + t'.held + (lv.ring.linearize : Multiset PendingEntry) + dropped)
    (front : t'.best = none) :
    Inv { index := m.index.setLevel p lv, owner := owner, threads := m.threads.set i t',
          evicted := evicted } := by
  subst drops
  refine ⟨locked_set inv mine others, ?_, ?_, ?_, ?_⟩
  · intro q idle
    by_cases here : q = p
    · subst here
      rw [PriorityIndex.setLevel_levels_self]
      exact exact (idle i t' (Threads.set_self at_i t'))
    · rw [PriorityIndex.setLevel_levels_ne _ here]
      apply inv.counts q
      intro j u at_j pushes
      by_cases same : j = i
      · subst same
        rw [at_i] at at_j
        cases at_j
        exact here (pushing q pushes)
      · exact idle j u ((List.getElem?_set_ne (Ne.symm same)).trans at_j) pushes
  · have changed := sum_resume at_i t' Thread.surplus
    have sized := m.size_setLevel p lv
    change m.index.total = _
    rw [inv.total]
    refine congrArg Int64.ofInt ?_
    change m.size + m.sum Thread.surplus =
      (m.setLevel p lv).size + ((m.threads.set i t').map Thread.surplus).sum
    omega
  · exact entries_of_counts inv.entries (sum_resume at_i t' Thread.inserted)
      (sum_resume at_i t' Thread.taken) (sum_resume at_i t' Thread.held) entries
      (PriorityIndex.pending_of_update (m.index.setLevel_contents p lv))
  · intro j u q at_j best
    rcases Threads.of_set at_j with ⟨-, rfl⟩ | ⟨different, before⟩
    · rw [front] at best
      cases best
    · -- the level another thread is about to pop is locked by that thread
      have elsewhere : q ≠ p := by
        rintro rfl
        have owned := inv.locked j u q before (best_holds best)
        rcases allowed with free | own
        · rw [free] at owned
          cases owned
        · rw [own] at owned
          exact different (Option.some.inj owned).symm
      simp only [PriorityIndex.contents, PriorityIndex.setLevel_levels_ne _ elsewhere]
      exact inv.front j u q before best

theorem Inv.progress (inv : m.Inv) (at_i : m.threads[i]? = some t)
    (mine : t'.holds = t.holds) (pushing : t.pushing = none)
    (surplus : t'.surplus = t.surplus)
    (entries : t'.inserted + t.taken + t.held = t.inserted + t'.taken + t'.held)
    (front : t'.best = t.best) : (m.resume i t').Inv := by
  refine inv.quiet at_i 0 (addTotal_zero _) ?_ (fun _ _ _ owned => owned) ?_
    (by rw [surplus, Int.add_zero]) entries ?_
  · intro q holds
    exact inv.locked i t q at_i (mine.symm.trans holds)
  · intro q pushes
    rw [pushing] at pushes
    cases pushes
  · intro q best
    exact inv.front i t q at_i (front.symm.trans best)

theorem Inv.exact_of_free (inv : m.Inv) (free : m.owner p = none) :
    (m.index.levels p).Exact := by
  apply inv.counts p
  intro j u at_j pushes
  have owned := inv.locked j u p at_j (pushing_holds pushes)
  rw [free] at owned
  cases owned

/-! ## The steps of each call -/

theorem Inv.stepAdd (inv : m.Inv) {e : PendingEntry} (at_i : m.threads[i]? = some (.add p e)) :
    (m.stepAdd i p e).Inv := by
  unfold Machine.stepAdd
  by_cases free : m.owner p = none
  · rw [if_pos free]
    have exact := inv.exact_of_free free
    have conserved := (m.index.levels p).push_conserves e
    have length := (m.index.levels p).push_length e
    dsimp only
    cases evicted : ((m.index.levels p).push e).2 with
    | some old =>
      rw [evicted] at conserved length
      simp only [Option.toList_some, List.length_singleton] at length
      refine inv.atLevel at_i rfl (.inl free) (by simp [Thread.holds]) (fun _ _ _ owned => owned)
        (by simp [Thread.pushing]) (fun _ => exact.push e) ?_ ?_ rfl
      · simp only [Thread.surplus, PriorityIndex.contents]
        omega
      · simp only [Thread.inserted, Thread.taken, Thread.held, add_zero, zero_add]
        rw [conserved, add_comm]
        rfl
    | none =>
      rw [evicted] at conserved length
      simp only [Option.toList_none, List.length_nil] at length
      refine inv.atLevel at_i (add_zero _).symm (.inl free) (by simp [Thread.holds])
        (fun _ _ _ owned => owned) (by simp [Thread.pushing]) (fun _ => exact.push e) ?_ ?_ rfl
      · simp only [Thread.surplus, PriorityIndex.contents]
        omega
      · simp only [Thread.inserted, Thread.taken, Thread.held, add_zero, zero_add]
        simp only [Option.toList_none, Multiset.coe_nil, add_zero] at conserved
        rw [conserved, add_comm]
        rfl
  · rw [if_neg free]
    exact inv

theorem Inv.stepPop (inv : m.Inv) {tried below : List Level}
    (at_i : m.threads[i]? = some (.popHigh (p :: tried) below)) :
    (m.stepPop i p tried below).Inv := by
  unfold Machine.stepPop
  by_cases free : m.owner p = none
  · rw [if_pos free]
    cases queued : (m.index.levels p).ring.linearize with
    | nil =>
      rw [PriorityLevel.pop_of_empty queued]
      exact inv.progress at_i rfl rfl rfl rfl rfl
    | cons e rest =>
      obtain ⟨front, tail, -, -⟩ := PriorityLevel.pop_of_cons queued
      dsimp only
      rw [front]
      refine inv.atLevel at_i (add_zero _).symm (.inl free) (by simp [Thread.holds])
        (fun _ _ _ owned => owned) (by simp [Thread.pushing])
        (fun _ => (inv.exact_of_free free).pop queued) ?_ ?_ rfl
      · simp only [Thread.surplus, PriorityIndex.contents, tail, queued, List.length_cons]
        omega
      · simp only [Thread.inserted, Thread.taken, Thread.held, add_zero, zero_add,
          PriorityIndex.contents, tail, queued]
        rfl
  · rw [if_neg free]
    exact inv

theorem owner_kept (own : owner p = none ∨ owner p = some i) (next : Option Nat) (q : Level)
    (j : Nat) (different : j ≠ i) (owned : owner q = some j) :
    Function.update owner p next q = some j := by
  by_cases same : q = p
  · subst same
    rcases own with free | own
    · rw [free] at owned
      cases owned
    · rw [own] at owned
      exact absurd (Option.some.inj owned).symm different
  · rw [Function.update_of_ne same, owned]

theorem Inv.stepBest (inv : m.Inv) {bestTime : Time}
    (at_i : m.threads[i]? = some (.peek (some (p, bestTime)) [])) : (m.stepBest i p).Inv := by
  have own := inv.locked i _ p at_i rfl
  obtain ⟨e, rest, queued⟩ := List.exists_cons_of_ne_nil (inv.front i _ p at_i rfl)
  obtain ⟨front, tail, -⟩ := EntryRing.popFront_of_cons queued
  have exact : (m.index.levels p).Exact := by
    apply inv.counts p
    intro j u at_j pushes
    -- the only thread that holds the level is this one, and it is not pushing
    have owned := inv.locked j u p at_j (pushing_holds pushes)
    rw [own] at owned
    cases owned
    rw [at_i] at at_j
    cases at_j
    cases pushes
  unfold Machine.stepBest
  dsimp only
  rw [front]
  refine inv.atLevel at_i (add_zero _).symm (.inr own) (by simp [Thread.holds])
    (owner_kept (.inr own) none) (by simp [Thread.pushing]) ?_ ?_ ?_ rfl
  · intro _
    have level := exact.pop queued
    unfold PriorityLevel.pop at level
    dsimp only at level
    rwa [front] at level
  · simp only [Thread.surplus, PriorityIndex.contents, tail] at queued ⊢
    rw [queued, List.length_cons]
    omega
  · simp only [Thread.inserted, Thread.taken, Thread.held, add_zero, zero_add, Option.getD_some,
      tail, queued]
    rfl

theorem Inv.stepPeek (inv : m.Inv) {best : Option (Level × Time)} {tried : List Level}
    (at_i : m.threads[i]? = some (.peek best (p :: tried))) :
    (m.stepPeek i best p tried).Inv := by
  unfold Machine.stepPeek
  by_cases free : m.owner p = none
  · rw [if_pos free, EntryRing.peekFront_eq_head?]
    have stay : (m.resume i (.peek best tried)).Inv :=
      inv.progress at_i (by cases best <;> rfl) rfl rfl rfl (by cases best <;> rfl)
    cases queued : (m.index.levels p).ring.linearize with
    | nil => exact stay
    | cons e rest =>
      have filled : m.index.contents p ≠ [] := by
        rw [PriorityIndex.contents, queued]
        exact List.cons_ne_nil e rest
      -- whichever lock is given back, the thread goes on with the one of `p`
      have advance : ∀ owner : Level → Option Nat,
          (∀ q j, j ≠ i → m.owner q = some j → owner q = some j) → owner p = none →
          Inv { m with
            owner := Function.update owner p (some i)
            threads := m.threads.set i (.peek (some (p, e.arrivedAt)) tried) } := by
        intro owner others released
        refine inv.quiet at_i 0 (addTotal_zero _) ?_ ?_ (by simp [Thread.pushing])
          rfl rfl ?_
        · intro q holds
          cases holds
          exact Function.update_self ..
        · intro q j different owned
          exact owner_kept (.inl released) (some i) q j different (others q j different owned)
        · intro q best
          cases best
          exact filled
      cases best with
      | none => exact advance m.owner (fun _ _ _ owned => owned) free
      | some chosen =>
        obtain ⟨q, bestTime⟩ := chosen
        dsimp only [List.head?_cons]
        split
        · refine advance (Function.update m.owner q none) ?_ ?_
          · exact owner_kept (.inr (inv.locked i _ q at_i rfl)) none
          · by_cases same : p = q
            · subst same
              exact Function.update_self ..
            · rw [Function.update_of_ne same, free]
        · exact stay
  · rw [if_neg free]
    exact inv

variable {now : Time} {ttl : Int} {up : Fin 9} {stale : List PendingEntry}
  {todo : List (Fin 9)}

theorem Inv.stepTake (inv : m.Inv) (at_i : m.threads[i]? = some (.promote now ttl (up :: todo))) :
    (m.stepTake i now ttl up todo).Inv := by
  unfold Machine.stepTake
  by_cases free : m.owner up.castSucc = none
  · rw [if_pos free]
    dsimp only
    have kept := (m.index.levels up.castSucc).keepFresh_linearize now ttl
    have split := (m.index.levels up.castSucc).stale_add_fresh now ttl
    have lengths := congrArg Multiset.card split
    simp only [Multiset.card_add, Multiset.coe_card] at lengths
    by_cases none : (m.index.levels up.castSucc).stale now ttl = []
    · rw [if_pos none]
      rw [none] at split lengths
      refine inv.atLevel at_i (add_zero _).symm (.inl free) (by simp [Thread.holds])
        (fun _ _ _ owned => owned) (by simp [Thread.pushing]) (fun _ => ?_) ?_ ?_ rfl
      · rw [PriorityLevel.Exact, kept]
        rfl
      · simp only [Thread.surplus, PriorityIndex.contents, kept]
        simp only [List.length_nil] at lengths
        omega
      · simp only [Thread.inserted, Thread.taken, Thread.held, add_zero, zero_add, kept]
        rw [Multiset.coe_nil, zero_add] at split
        exact split.symm
    · rw [if_neg none]
      refine inv.atLevel at_i (add_zero _).symm (.inl free) (by simp [Thread.holds])
        (fun _ _ _ owned => owned) (by simp [Thread.pushing]) (fun _ => ?_) ?_ ?_ rfl
      · rw [PriorityLevel.Exact, kept]
        rfl
      · simp only [Thread.surplus, PriorityIndex.contents, kept]
        omega
      · simp only [Thread.inserted, Thread.taken, Thread.held, add_zero, zero_add, kept]
        exact split.symm
  · rw [if_neg free]
    exact inv

theorem Inv.stepLockUp (inv : m.Inv)
    (at_i : m.threads[i]? = some (.promoteUp now ttl up stale todo)) :
    (m.stepLockUp i now ttl up stale todo).Inv := by
  unfold Machine.stepLockUp
  by_cases free : m.owner up.succ = none
  · rw [if_pos free]
    refine inv.quiet at_i 0 (addTotal_zero _) ?_ (owner_kept (.inl free) (some i))
      (by simp [Thread.pushing]) (by simp [Thread.surplus]) rfl (by simp [Thread.best])
    intro q holds
    cases holds
    exact Function.update_self ..
  · rw [if_neg free]
    exact inv

theorem Inv.stepPush (inv : m.Inv) {e : PendingEntry}
    (at_i : m.threads[i]? = some (.promotePush now ttl up (e :: stale) todo)) :
    (m.stepPush i now ttl up e stale todo).Inv := by
  have own := inv.locked i _ up.succ at_i rfl
  have conserved := (m.index.levels up.succ).ring.pushBack_conserves e
  have lengths := congrArg Multiset.card conserved
  simp only [Multiset.card_add, Multiset.coe_card, Multiset.card_singleton] at lengths
  have held : ∀ q, some up.succ = some q → m.owner q = some i := by
    rintro q ⟨rfl⟩
    exact own
  -- whether or not an entry is dropped, the books of the pushed one are the same
  have balance : (0 : Multiset PendingEntry) + 0 + (e :: stale : List PendingEntry) +
      (m.index.contents up.succ : Multiset PendingEntry) = 0 + 0 + (stale : Multiset PendingEntry) +
      (((m.index.levels up.succ).ring.pushBack e).1.linearize : Multiset PendingEntry) +
      (((m.index.levels up.succ).ring.pushBack e).2.toList : Multiset PendingEntry) := by
    rw [add_assoc (0 + 0 + (stale : Multiset PendingEntry)), conserved, ← Multiset.cons_coe,
      ← Multiset.singleton_add, PriorityIndex.contents]
    abel
  unfold Machine.stepPush
  dsimp only
  cases evicted : ((m.index.levels up.succ).ring.pushBack e).2 with
  | some old =>
    rw [evicted] at balance lengths
    refine inv.atLevel at_i rfl (.inr own) held (fun _ _ _ owned => owned)
      (by simp [Thread.pushing]) (by simp [Thread.pushing]) ?_ balance rfl
    simp only [Thread.surplus, PriorityIndex.contents, List.length_cons]
    simp only [Option.toList_some, List.length_singleton] at lengths
    omega
  | none =>
    rw [evicted] at balance lengths
    refine inv.atLevel at_i rfl (.inr own) held (fun _ _ _ owned => owned)
      (by simp [Thread.pushing]) (by simp [Thread.pushing]) ?_ balance rfl
    simp only [Thread.surplus, PriorityIndex.contents, List.length_cons]
    simp only [Option.toList_none, List.length_nil] at lengths
    omega

theorem Inv.stepUnlockUp (inv : m.Inv)
    (at_i : m.threads[i]? = some (.promotePush now ttl up [] todo)) :
    (m.stepUnlockUp i now ttl up todo).Inv := by
  have own := inv.locked i _ up.succ at_i rfl
  unfold Machine.stepUnlockUp
  refine inv.atLevel at_i (add_zero _).symm (.inr own) (by simp [Thread.holds])
    (owner_kept (.inr own) none) (by simp [Thread.pushing]) ?_ ?_ ?_ rfl
  · intro _
    rw [PriorityLevel.Exact, EntryRing.linearize_length]
  · simp [Thread.surplus, PriorityIndex.contents]
  · simp [Thread.inserted, Thread.taken, Thread.held, PriorityIndex.contents]

theorem Inv.account (inv : m.Inv) (at_i : m.threads[i]? = some t) (change : Int) {delta : Int64}
    (same : delta = Int64.ofInt change) (holds : t'.holds = t.holds)
    (pushing : t'.pushing = t.pushing) (surplus : t'.surplus = t.surplus + change)
    (entries : t'.inserted + t.taken + t.held = t.inserted + t'.taken + t'.held)
    (front : t'.best = none) : ((m.addTotal delta).resume i t').Inv := by
  subst same
  refine inv.quiet at_i change rfl ?_ (fun _ _ _ owned => owned)
    (fun _ pushes => pushing.trans pushes) surplus entries ?_
  · intro q held
    exact inv.locked i t q at_i (holds.symm.trans held)
  · intro q best
    rw [front] at best
    cases best

theorem Inv.stepThread (inv : m.Inv) (at_i : m.threads[i]? = some t) :
    (m.stepThread i t).Inv := by
  have minusOne : (-1 : Int64) = Int64.ofInt (-1) := by decide
  cases t with
  | add p e => exact inv.stepAdd at_i
  | addTotal e => exact inv.account at_i 1 (by decide) rfl rfl rfl rfl rfl
  | addReturned e free => exact inv
  | popHigh tried below =>
    cases tried with
    | nil => exact inv.progress at_i rfl rfl rfl rfl rfl
    | cons p tried => exact inv.stepPop at_i
  | peek best tried =>
    cases tried with
    | cons p tried => exact inv.stepPeek at_i
    | nil =>
      cases best with
      | none => exact inv.progress at_i rfl rfl rfl rfl rfl
      | some chosen => exact inv.stepBest at_i
  | popTotal e => exact inv.account at_i (-1) minusOne rfl rfl rfl rfl rfl
  | popReturned result => exact inv
  | promote now ttl todo =>
    cases todo with
    | nil => exact inv.progress at_i rfl rfl rfl rfl rfl
    | cons up todo => exact inv.stepTake at_i
  | promoteUp now ttl up stale todo => exact inv.stepLockUp at_i
  | promotePush now ttl up stale todo =>
    cases stale with
    | nil => exact inv.stepUnlockUp at_i
    | cons e stale => exact inv.stepPush at_i
  | promoteEvicted now ttl up stale todo =>
    exact inv.account at_i (-1) minusOne rfl rfl (by simp [Thread.surplus]) rfl rfl
  | promoteReturned => exact inv

end Move

/-! ## Whole runs -/

theorem inv_init (maxPerLevel : Int) : (init maxPerLevel).Inv := by
  refine ⟨by simp [init], fun p _ => rfl, ?_, ?_, by simp [init]⟩
  · simp [init, newPriorityIndex, size, sum, PriorityIndex.contents, EntryRing.new_linearize]
  · simp [init, sum, PriorityIndex.newPriorityIndex_pending]

theorem thread_start {threads : List Thread} {call : IndexCall} {j : Nat} {u : Thread}
    (at_j : (threads ++ [Thread.start call])[j]? = some u) :
    threads[j]? = some u ∨ u = Thread.start call := by
  rw [List.getElem?_append] at at_j
  split at at_j
  · exact .inl at_j
  · exact .inr (List.mem_singleton.mp (List.mem_of_getElem? at_j))

theorem start_idle (call : IndexCall) :
    (Thread.start call).holds = none ∧ (Thread.start call).best = none ∧
      (Thread.start call).surplus = 0 ∧ (Thread.start call).inserted = 0 ∧
      (Thread.start call).taken = 0 ∧ (Thread.start call).held = 0 := by
  cases call <;> exact ⟨rfl, rfl, rfl, rfl, rfl, rfl⟩

variable {m : Machine}

theorem Inv.start (inv : m.Inv) (call : IndexCall) : (m.step (.start call)).Inv := by
  obtain ⟨holds, best, surplus, inserted, taken, held⟩ := start_idle call
  have unchanged : ∀ {M : Type} [AddCommMonoid M] (f : Thread → M), f (Thread.start call) = 0 →
      (m.step (.start call)).sum f = m.sum f := by
    intro M _ f zero
    simp [sum, step, zero]
  refine ⟨?_, ?_, ?_, ?_, ?_⟩
  · intro j u p at_j held
    rcases thread_start at_j with before | rfl
    · exact inv.locked j u p before held
    · rw [holds] at held
      cases held
  · intro p idle
    apply inv.counts p
    intro j u at_j
    obtain ⟨inside, -⟩ := List.getElem?_eq_some_iff.mp at_j
    exact idle j u ((List.getElem?_append_left inside).trans at_j)
  · rw [unchanged _ surplus]
    exact inv.total
  · rw [unchanged _ inserted, unchanged _ taken, unchanged _ held]
    exact inv.entries
  · intro j u p at_j front
    rcases thread_start at_j with before | rfl
    · exact inv.front j u p before front
    · rw [best] at front
      cases front

theorem Inv.step (inv : m.Inv) (event : MachineEvent) : (m.step event).Inv := by
  cases event with
  | start call => exact inv.start call
  | run i =>
    cases at_i : m.threads[i]? with
    | none => simpa only [Machine.step, at_i] using inv
    | some t => simpa only [Machine.step, at_i] using inv.stepThread at_i

theorem returned_idle {t : Thread} (returned : t.returned = true) :
    t.pushing = none ∧ t.surplus = 0 := by
  cases t with
  | addReturned => exact ⟨rfl, rfl⟩
  | popReturned => exact ⟨rfl, rfl⟩
  | promoteReturned => exact ⟨rfl, rfl⟩
  | _ => cases returned

/-- The counters agree with the rings, as machine integers and, as long as the
numbers fit, exactly. -/
structure Settled (m : Machine) : Prop where
  count : ∀ p, (m.index.levels p).count = Int32.ofNat (m.index.levels p).ring.size
  total : m.index.total = Int64.ofInt (∑ p, ((m.index.levels p).ring.size : Int))
  countExact : ∀ p, (m.index.levels p).ring.size < 2 ^ 31 →
    (m.index.levels p).count.toInt = (m.index.levels p).ring.size
  totalExact : ∑ p, ((m.index.levels p).ring.size : Int) < 2 ^ 63 →
    m.index.total.toInt = ∑ p, ((m.index.levels p).ring.size : Int)

/-- Every added entry is in one place: queued, taken by one pop, dropped, or in
the local list of a running promotion. -/
def Conserved (m : Machine) : Prop :=
  ∀ e, (m.sum Thread.inserted).count e = m.index.pending.count e +
    (m.sum Thread.taken).count e + m.evicted.count e + (m.sum Thread.held).count e

theorem Inv.settled (inv : m.Inv) (quiet : m.Quiescent) : m.Settled := by
  have count : ∀ p, (m.index.levels p).count = Int32.ofNat (m.index.levels p).ring.size := by
    intro p
    rw [← EntryRing.linearize_length]
    apply inv.counts p
    intro j u at_j pushes
    rw [(returned_idle (quiet u (List.mem_of_getElem? at_j))).1] at pushes
    cases pushes
  have total : m.index.total = Int64.ofInt (∑ p, ((m.index.levels p).ring.size : Int)) := by
    have none : m.sum Thread.surplus = 0 := by
      apply List.sum_eq_zero
      intro value member
      obtain ⟨u, there, rfl⟩ := List.mem_map.mp member
      exact (returned_idle (quiet u there)).2
    rw [inv.total, none, Int.add_zero, size]
    simp only [PriorityIndex.contents, EntryRing.linearize_length]
  refine ⟨count, total, ?_, ?_⟩
  · intro p fits
    rw [count p, Int32.toInt_ofNat_of_lt fits]
  · intro fits
    have positive : 0 ≤ ∑ p, ((m.index.levels p).ring.size : Int) :=
      Finset.sum_nonneg fun p _ => Int.natCast_nonneg _
    rw [total, Int64.toInt_ofInt_of_le (by omega) (by omega)]

theorem Inv.conserved (inv : m.Inv) : m.Conserved := by
  intro e
  rw [inv.entries, Multiset.count_add, Multiset.count_add, Multiset.count_add]
  omega

/-- In every state of every interleaving no entry is lost or duplicated, and
whenever no call is in progress the counters agree with the rings. -/
theorem interleaving_accounts (maxPerLevel : Int) (events : List MachineEvent) :
    ∀ m ∈ Runs.states step (init maxPerLevel) events,
      m.Conserved ∧ (m.Quiescent → m.Settled) := by
  intro m reached
  have inv := Runs.invariant_of_step (fun (s : Machine) event (inv : s.Inv) => inv.step event)
    events _ (inv_init maxPerLevel) m reached
  exact ⟨inv.conserved, inv.settled⟩

/-- Two adds, a pop and a promotion, interleaved. -/
def sampleInterleaving : List MachineEvent :=
  [.start (.add 5 1 100), .start (.add 5 2 101), .start .popHighest, .start (.promoteStale 500 10),
   .run 0, .run 1, .run 2, .run 2, .run 1, .run 0] ++
    (List.replicate 16 [.run 2, .run 3]).flatten

theorem interleaving_accounts_sample :
    let m := Runs.final step (init 2) sampleInterleaving
    m.Quiescent ∧ m.sum Thread.taken = {⟨1, 100⟩} ∧ m.Conserved ∧ m.Settled := by
  intro m
  have accounts := interleaving_accounts 2 sampleInterleaving m (Runs.final_mem_states ..)
  have quiet : m.Quiescent := by
    unfold Quiescent
    decide
  exact ⟨quiet, by decide, accounts.1, accounts.2 quiet⟩

end Machine

end NyaQueue
