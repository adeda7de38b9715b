import NyaQueue.PriorityAccounting
import NyaQueue.PriorityAlone

/-!
# Promotion of stale entries

`PromoteStale` visits the levels from the second highest down.  Each visit
edits two rings in place: the stale entries leave the visited level and are
pushed to the one above, which was visited before and is not visited again.
The loop invariant says, for the level reached, what the levels above it, the
level itself and the levels below it hold.
-/

set_option autoImplicit false

namespace NyaQueue

theorem EntryRing.pushBack_length (r : EntryRing) (e : PendingEntry) :
    (r.pushBack e).2.toList.length + (r.pushBack e).1.linearize.length =
      r.linearize.length + 1 := by
  rw [Nat.add_comm]
  simpa using congrArg Multiset.card (r.pushBack_conserves e)

/-! ## The pushes of one visit -/

theorem pushStale_cap (stale : List PendingEntry) : ∀ ring : EntryRing,
    (pushStale ring stale).1.cap = ring.cap := by
  induction stale with
  | nil => intro ring; rfl
  | cons e rest ih => intro ring; exact (ih _).trans (ring.pushBack_cap e)

theorem pushStale_linearize (stale : List PendingEntry) : ∀ ring : EntryRing,
    (pushStale ring stale).1.linearize =
      BoundedQueue.newest ring.cap (ring.linearize ++ stale) := by
  induction stale with
  | nil =>
    intro ring
    rw [List.append_nil, BoundedQueue.newest_of_fits ring.fits]
    rfl
  | cons e rest ih =>
    intro ring
    have later := ih (ring.pushBack e).1
    rw [ring.pushBack_cap, ring.pushBack_linearize, BoundedQueue.push_of_fits ring.fits,
      BoundedQueue.newest_append, List.append_assoc] at later
    exact later

theorem pushStale_length (stale : List PendingEntry) : ∀ ring : EntryRing,
    (pushStale ring stale).2.length + (pushStale ring stale).1.linearize.length =
      ring.linearize.length + stale.length := by
  induction stale with
  | nil => intro ring; exact Nat.zero_add _
  | cons e rest ih =>
    intro ring
    have first := ring.pushBack_length e
    have later := ih (ring.pushBack e).1
    simp only [pushStale, List.length_append, List.length_cons]
    omega

namespace PriorityIndex

/-- The capacity is the same for all levels and every count is exact. -/
structure Sound (capacity : Nat) (pi : PriorityIndex) : Prop where
  capacity : pi.Capacity capacity
  exact : ∀ p, (pi.levels p).Exact

variable {capacity : Nat} {pi : PriorityIndex}

theorem Sound.setLevel (sound : pi.Sound capacity) (p : Level) {lv : PriorityLevel}
    (cap : lv.ring.cap = capacity) (exact : lv.Exact) : (pi.setLevel p lv).Sound capacity where
  capacity := sound.capacity.setLevel p cap
  exact q := by
    by_cases same : q = p
    · subst same
      rw [setLevel_levels_self]
      exact exact
    · rw [setLevel_levels_ne pi same]
      exact sound.exact q

theorem Sound.addTotal (sound : pi.Sound capacity) (delta : Int64) :
    (pi.addTotal delta).Sound capacity := ⟨sound.capacity, sound.exact⟩

theorem Sound.fits (sound : pi.Sound capacity) (p : Level) :
    BoundedQueue.Fits capacity (pi.contents p) := by
  have ring := (pi.levels p).ring.fits
  rw [sound.capacity p] at ring
  exact ring

/-! ## One visit -/

/-- What the visit of level `p` changes. -/
structure MovesUp (capacity : Nat) (now : Time) (ttl : Int) (p : Fin 9)
    (pi after : PriorityIndex) : Prop where
  contents : after.contents =
    Function.update
      (Function.update pi.contents p.castSucc ((pi.levels p.castSucc).fresh now ttl)) p.succ
      (BoundedQueue.newest capacity
        (pi.contents p.succ ++ (pi.levels p.castSucc).stale now ttl))
  total : after.total = pi.total -
    Int64.ofNat ((pi.contents p.succ ++ (pi.levels p.castSucc).stale now ttl).length -
      (BoundedQueue.newest capacity
        (pi.contents p.succ ++ (pi.levels p.castSucc).stale now ttl)).length)
  sound : after.Sound capacity

theorem keepFresh_sound (sound : pi.Sound capacity) (now : Time) (ttl : Int) (p : Level) :
    (pi.setLevel p ((pi.levels p).keepFresh now ttl)).Sound capacity := by
  refine sound.setLevel p (sound.capacity p) ?_
  unfold PriorityLevel.Exact
  rw [PriorityLevel.keepFresh_linearize]
  rfl

theorem keepFresh_contents (pi : PriorityIndex) (now : Time) (ttl : Int) (p : Level) :
    (pi.setLevel p ((pi.levels p).keepFresh now ttl)).contents =
      Function.update pi.contents p ((pi.levels p).fresh now ttl) := by
  rw [setLevel_contents, PriorityLevel.keepFresh_linearize]

theorem promoteLevel_movesUp (sound : pi.Sound capacity) (now : Time) (ttl : Int) (p : Fin 9) :
    MovesUp capacity now ttl p pi (pi.promoteLevel now ttl p) := by
  have apart : p.succ ≠ p.castSucc := Fin.castSucc_lt_succ.ne'
  have kept := keepFresh_sound sound now ttl p.castSucc
  have kept_contents := pi.keepFresh_contents now ttl p.castSucc
  by_cases none : (pi.levels p.castSucc).stale now ttl = []
  · -- nothing to push: the upper level is not touched
    have unchanged : pi.promoteLevel now ttl p =
        pi.setLevel p.castSucc ((pi.levels p.castSucc).keepFresh now ttl) := if_pos none
    rw [unchanged]
    refine ⟨?_, ?_, kept⟩
    · rw [kept_contents, none, List.append_nil, BoundedQueue.newest_of_fits (sound.fits p.succ)]
      refine (Function.update_eq_self_iff.mpr ?_).symm
      rw [Function.update_of_ne apart]
    · rw [none, List.append_nil, BoundedQueue.newest_of_fits (sound.fits p.succ), Nat.sub_self]
      exact (Int64.sub_zero _).symm
  · -- the upper ring is the one from before the visit
    have ring : ((pi.setLevel p.castSucc ((pi.levels p.castSucc).keepFresh now ttl)).levels
        p.succ).ring = (pi.levels p.succ).ring := by
      rw [setLevel_levels_ne pi apart]
    have pushed := pushStale_linearize ((pi.levels p.castSucc).stale now ttl)
      (pi.levels p.succ).ring
    have length := pushStale_length ((pi.levels p.castSucc).stale now ttl)
      (pi.levels p.succ).ring
    have cap := pushStale_cap ((pi.levels p.castSucc).stale now ttl) (pi.levels p.succ).ring
    rw [sound.capacity p.succ] at pushed cap
    have promoted : pi.promoteLevel now ttl p = _ := if_neg none
    rw [promoted, ring]
    refine ⟨?_, ?_, (kept.setLevel p.succ cap ?_).addTotal _⟩
    · rw [addTotal_contents, setLevel_contents, kept_contents, pushed]
      rfl
    · have evicted : (pushStale (pi.levels p.succ).ring
          ((pi.levels p.castSucc).stale now ttl)).2.length =
          (pi.contents p.succ ++ (pi.levels p.castSucc).stale now ttl).length -
            (BoundedQueue.newest capacity
              (pi.contents p.succ ++ (pi.levels p.castSucc).stale now ttl)).length := by
        rw [pushed] at length
        rw [List.length_append]
        exact Nat.eq_sub_of_add_eq length
      rw [← evicted]
      exact (Int64.sub_eq_add_neg ..).symm
    · unfold PriorityLevel.Exact
      rw [EntryRing.linearize_length]

/-! ## The whole loop -/

/-- What a level keeps: its fresh entries; the highest level keeps all. -/
def kept (pi : PriorityIndex) (now : Time) (ttl : Int) (p : Level) : List PendingEntry :=
  if p = Fin.last 9 then pi.contents p else (pi.levels p).fresh now ttl

/-- What a level receives: the stale entries of the level below. -/
def incoming (pi : PriorityIndex) (now : Time) (ttl : Int) : Level → List PendingEntry :=
  Fin.cases [] fun below : Fin 9 => (pi.levels below.castSucc).stale now ttl

/-- The number of entries that do not fit into a level. -/
def cut (capacity : Nat) (pi : PriorityIndex) (now : Time) (ttl : Int) (p : Level) : Nat :=
  (pi.kept now ttl p ++ pi.incoming now ttl p).length -
    (BoundedQueue.newest capacity (pi.kept now ttl p ++ pi.incoming now ttl p)).length

theorem kept_castSucc (pi : PriorityIndex) (now : Time) (ttl : Int) (p : Fin 9) :
    pi.kept now ttl p.castSucc = (pi.levels p.castSucc).fresh now ttl :=
  if_neg p.castSucc_lt_last.ne

theorem incoming_zero (pi : PriorityIndex) (now : Time) (ttl : Int) :
    pi.incoming now ttl 0 = [] := rfl

theorem incoming_succ (pi : PriorityIndex) (now : Time) (ttl : Int) (p : Fin 9) :
    pi.incoming now ttl p.succ = (pi.levels p.castSucc).stale now ttl := rfl

theorem kept_fits (sound : pi.Sound capacity) (now : Time) (ttl : Int) (p : Level) :
    BoundedQueue.Fits capacity (pi.kept now ttl p) := by
  intro positive
  refine Nat.le_trans ?_ (sound.fits p positive)
  unfold kept
  split
  · exact le_refl _
  · exact List.length_filter_le ..

/-- The loop has visited the levels from `8` down to `reached`. -/
structure Progress (capacity : Nat) (pi : PriorityIndex) (now : Time) (ttl : Int) (reached : Nat)
    (after : PriorityIndex) : Prop where
  above : ∀ p : Level, reached < p.val → after.contents p =
    BoundedQueue.newest capacity (pi.kept now ttl p ++ pi.incoming now ttl p)
  here : ∀ p : Level, p.val = reached → after.contents p = pi.kept now ttl p
  below : ∀ p : Level, p.val < reached → after.contents p = pi.contents p
  total : after.total = pi.total -
    Int64.ofNat (∑ p : Level, if reached < p.val then pi.cut capacity now ttl p else 0)
  sound : after.Sound capacity

theorem progress_start (sound : pi.Sound capacity) (now : Time) (ttl : Int) :
    Progress capacity pi now ttl 9 pi where
  above p impossible := absurd p.isLt (by change ¬ p.val < 10; omega)
  here p last := by
    rw [kept, if_pos (Fin.ext last)]
  below p _ := rfl
  total := by
    have none : ∀ p : Level, ¬ 9 < p.val := fun p => by
      have : p.val < 10 := p.isLt
      omega
    simp only [none, if_false, Finset.sum_const_zero]
    exact (Int64.sub_zero _).symm
  sound := sound

theorem cut_above (capacity : Nat) (pi : PriorityIndex) (now : Time) (ttl : Int) (p : Fin 9) :
    (∑ q : Level, if p.val < q.val then pi.cut capacity now ttl q else 0) =
      (∑ q : Level, if p.val + 1 < q.val then pi.cut capacity now ttl q else 0) +
        pi.cut capacity now ttl p.succ := by
  have replaced := Accounting.sum_update_add
    (fun q : Level => if p.val + 1 < q.val then pi.cut capacity now ttl q else 0) p.succ
    (pi.cut capacity now ttl p.succ)
  rw [if_neg (by simp), Nat.add_zero] at replaced
  rw [← replaced]
  refine Finset.sum_congr rfl fun q _ => ?_
  by_cases same : q = p.succ
  · subst same
    rw [Function.update_self, if_pos (by simp)]
  · have other : q.val ≠ p.val + 1 := fun equal => same (Fin.ext equal)
    rw [Function.update_of_ne same]
    by_cases higher : p.val < q.val
    · rw [if_pos higher, if_pos (by omega)]
    · rw [if_neg higher, if_neg (by omega)]

theorem Progress.visit {now : Time} {ttl : Int} {p : Fin 9} {after : PriorityIndex}
    (progress : Progress capacity pi now ttl (p.val + 1) after) :
    Progress capacity pi now ttl p.val (after.promoteLevel now ttl p) := by
  have moves := promoteLevel_movesUp progress.sound now ttl p
  have low : after.contents p.castSucc = pi.contents p.castSucc :=
    progress.below p.castSucc (by simp)
  have stale : (after.levels p.castSucc).stale now ttl = pi.incoming now ttl p.succ := by
    rw [incoming_succ]
    exact congrArg (List.filter _) low
  have fresh : (after.levels p.castSucc).fresh now ttl = pi.kept now ttl p.castSucc := by
    rw [kept_castSucc]
    exact congrArg (List.filter _) low
  have up : after.contents p.succ = pi.kept now ttl p.succ := progress.here p.succ (by simp)
  have contents := moves.contents
  have total := moves.total
  rw [stale, fresh, up] at contents
  rw [stale, up, progress.total] at total
  have lower_ne : ∀ q : Level, q.val ≤ p.val → q ≠ p.succ := by
    rintro q atMost rfl
    simp at atMost
  refine ⟨?_, ?_, ?_, ?_, moves.sound⟩
  · intro q higher
    rw [contents]
    by_cases same : q = p.succ
    · subst same
      rw [Function.update_self]
    · have other : q.val ≠ p.val + 1 := fun equal => same (Fin.ext equal)
      have not_low : q ≠ p.castSucc := by
        rintro rfl
        simp at higher
      rw [Function.update_of_ne same, Function.update_of_ne not_low]
      exact progress.above q (by omega)
  · intro q equal
    have same : q = p.castSucc := Fin.ext equal
    rw [contents, Function.update_of_ne (lower_ne q (Nat.le_of_eq equal)), same,
      Function.update_self]
  · intro q lower
    have not_low : q ≠ p.castSucc := by
      rintro rfl
      simp at lower
    rw [contents, Function.update_of_ne (lower_ne q (Nat.le_of_lt lower)),
      Function.update_of_ne not_low]
    exact progress.below q (by omega)
  · rw [total, cut_above, Int64.ofNat_add]
    exact Int64.sub_sub _ _ _

theorem progress_drop (sound : pi.Sound capacity) (now : Time) (ttl : Int) (visited : Nat) :
    ∀ reached, reached + visited = 9 → Progress capacity pi now ttl reached
      (((List.finRange 9).drop reached).foldr (fun p after => after.promoteLevel now ttl p) pi) := by
  induction visited with
  | zero =>
    intro reached all
    rw [List.drop_eq_nil_of_le (by simp; omega), show reached = 9 from all]
    exact progress_start sound now ttl
  | succ visited ih =>
    intro reached all
    have inside : reached < 9 := by omega
    have earlier := ih (reached + 1) (by omega)
    have next : (List.finRange 9).drop reached =
        ⟨reached, inside⟩ :: (List.finRange 9).drop (reached + 1) := by
      rw [List.drop_eq_getElem_cons (by simpa using inside), List.getElem_finRange]
      rfl
    rw [next, List.foldr_cons]
    exact Progress.visit (p := ⟨reached, inside⟩) earlier

theorem promoteStale_progress (sound : pi.Sound capacity) (now : Time) (ttl : Int) :
    Progress capacity pi now ttl 0 (pi.promoteStale now ttl) := by
  have loop := progress_drop sound now ttl 9 0 rfl
  rw [List.drop_zero] at loop
  rw [promoteStale, List.foldl_reverse]
  exact loop

/-! ## The result -/

/-- Every stale entry is one level higher, behind what that level kept. -/
structure Promoted (capacity : Nat) (pi : PriorityIndex) (now : Time) (ttl : Int)
    (after : PriorityIndex) : Prop where
  contents : ∀ p, after.contents p =
    BoundedQueue.newest capacity (pi.kept now ttl p ++ pi.incoming now ttl p)
  counts : ∀ p, (after.levels p).count = Int32.ofNat (after.contents p).length ∧
    ((after.contents p).length < 2 ^ 31 →
      (after.levels p).count.toInt = (after.contents p).length)
  total : after.total = pi.total - Int64.ofNat (∑ p : Level, pi.cut capacity now ttl p)

theorem lowest_fits (sound : pi.Sound capacity) (now : Time) (ttl : Int) :
    BoundedQueue.newest capacity (pi.kept now ttl 0 ++ pi.incoming now ttl 0) =
      pi.kept now ttl 0 := by
  rw [incoming_zero, List.append_nil, BoundedQueue.newest_of_fits (kept_fits sound now ttl 0)]

theorem promoteStale_promoted (sound : pi.Sound capacity) (now : Time) (ttl : Int) :
    Promoted capacity pi now ttl (pi.promoteStale now ttl) := by
  have progress := promoteStale_progress sound now ttl
  refine ⟨?_, ?_, ?_⟩
  · intro p
    by_cases lowest : p = 0
    · subst lowest
      rw [lowest_fits sound]
      exact progress.here 0 rfl
    · exact progress.above p (Nat.pos_of_ne_zero fun zero => lowest (Fin.ext zero))
  · intro p
    have count := progress.sound.exact p
    refine ⟨count, fun small => ?_⟩
    rw [count]
    exact Int32.toInt_ofNat_of_lt small
  · have nothing : pi.cut capacity now ttl 0 = 0 := by
      rw [cut, lowest_fits sound, incoming_zero, List.append_nil, Nat.sub_self]
    have all : (∑ p : Level, if 0 < p.val then pi.cut capacity now ttl p else 0) =
        ∑ p : Level, pi.cut capacity now ttl p := by
      refine Finset.sum_congr rfl fun p _ => ?_
      by_cases lowest : p = 0
      · subst lowest
        exact nothing.symm
      · rw [if_pos (Nat.pos_of_ne_zero fun zero => lowest (Fin.ext zero))]
    rw [progress.total, all]

theorem sound_new (maxPerLevel : Int) :
    (newPriorityIndex maxPerLevel).Sound maxPerLevel.toNat :=
  ⟨newPriorityIndex_capacity maxPerLevel, fun _ => rfl⟩

theorem Sound.pops (sound : pi.Sound capacity) {result : PriorityIndex × Option PendingEntry}
    (pops : pi.TakesFront result) : result.1.Sound capacity := by
  refine ⟨pops.capacity sound.capacity, ?_⟩
  rcases pops with nothing | ⟨p, e, rest, queued, -, index⟩
  · rw [nothing]
    exact sound.exact
  · rw [index]
    have cap := (PriorityLevel.pop_of_cons queued).2.2.1
    exact (sound.setLevel p (cap.trans (sound.capacity p)) ((sound.exact p).pop queued)).exact

theorem Sound.add (sound : pi.Sound capacity) (priority : Int) (offset : Int64) (time : Time) :
    (pi.add priority offset time).1.Sound capacity := by
  have pushed := sound.setLevel (clampLevel priority)
    (((pi.levels (clampLevel priority)).push_cap ⟨offset, time⟩).trans (sound.capacity _))
    ((sound.exact (clampLevel priority)).push ⟨offset, time⟩)
  unfold PriorityIndex.add
  dsimp only
  split
  · exact pushed
  · exact pushed.addTotal 1

/-- The index after a call. -/
def afterCall (pi : PriorityIndex) (call : IndexCall) : PriorityIndex := (call.run pi).1

theorem Sound.call (sound : pi.Sound capacity) (call : IndexCall) :
    (pi.afterCall call).Sound capacity := by
  cases call with
  | add priority offset arrivedAt => exact sound.add priority offset arrivedAt
  | popHighest => exact sound.pops (pi.popFirst_takesFront (levelsDownTo 0))
  | popWithThreshold threshold => exact sound.pops (pi.popWithThreshold_takesFront threshold.val)
  | promoteStale now ttl =>
    simp only [afterCall, IndexCall.run]
    exact (promoteStale_progress sound now ttl).sound

/-- Every sequence of calls leaves an index with one capacity and exact counts,
and on such an index `PromoteStale` moves each stale entry up by exactly one
level, drops what does not fit there from the front, and keeps the counts and
the total in step. -/
theorem promoteStale_moves_up :
    (∀ (maxPerLevel : Int) (calls : List IndexCall),
      (Runs.final afterCall (newPriorityIndex maxPerLevel) calls).Sound maxPerLevel.toNat) ∧
    ∀ (capacity : Nat) (pi : PriorityIndex), pi.Sound capacity → ∀ (now : Time) (ttl : Int),
      Promoted capacity pi now ttl (pi.promoteStale now ttl) := by
  refine ⟨?_, fun _ _ sound => promoteStale_promoted sound⟩
  intro maxPerLevel calls
  have keep : ∀ (pi : PriorityIndex) (call : IndexCall), pi.Sound maxPerLevel.toNat →
      (pi.afterCall call).Sound maxPerLevel.toNat := fun _ call sound => sound.call call
  exact Runs.invariant_final keep calls _ (sound_new maxPerLevel)

def staleSample : List IndexCall :=
  [.add 9 1 0, .add 9 2 50, .add 8 3 0, .add 8 4 90, .add 7 5 0, .add 7 6 95]

/-- Levels of capacity two: level `9` drops its oldest entry, and the entry
that reaches level `8` stays there. -/
theorem promoteStale_moves_up_sample :
    (let pi := Runs.final afterCall (newPriorityIndex 2) staleSample
     Promoted 2 pi 100 40 (pi.promoteStale 100 40)) ∧
    (let pi := Runs.final afterCall (newPriorityIndex 2) staleSample
     (pi.promoteStale 100 40).contents 9 = [⟨2, 50⟩, ⟨3, 0⟩] ∧
       (pi.promoteStale 100 40).contents 8 = [⟨4, 90⟩, ⟨5, 0⟩] ∧
       (pi.promoteStale 100 40).total = 5) :=
  ⟨promoteStale_moves_up.2 2 _ (promoteStale_moves_up.1 2 staleSample) 100 40, by decide +kernel⟩

end PriorityIndex

end NyaQueue
