import NyaQueue.Lib.Moments

/-!
# The running normaliser

Model of `RunningNormalizer` (`pkg/nn/normalizer.go`) in exact arithmetic.  It keeps
a running mean and a running sum of squared deviations for each place of a vector;
after any observations these are the mean and the sum for the values observed, so a
normalised value is its distance from the mean in sample deviations.  A slice of any
length can be handed in; one of another length than the normaliser's is not counted.
-/

set_option autoImplicit false

namespace NyaQueue

structure RunningNormalizer (F : Type) (size : Nat) where
  count : Nat
  mean : Fin size → F
  m2 : Fin size → F

namespace RunningNormalizer

variable {F : Type} [Field F] {size : Nat}

/-- `NewRunningNormalizer` -/
def new : RunningNormalizer F size := ⟨0, fun _ => 0, fun _ => 0⟩

/-- `Observe`, for a vector of the right size. -/
def observe (rn : RunningNormalizer F size) (x : Fin size → F) : RunningNormalizer F size :=
  let n : F := (rn.count + 1 : Nat)
  let mean := fun i => rn.mean i + (x i - rn.mean i) / n
  { count := rn.count + 1
    mean := mean
    m2 := fun i => rn.m2 i + (x i - rn.mean i) * (x i - mean i) }

/-- Added to a deviation before a division by it. -/
def minStd : F := 1 / 100000000

theorem minStd_pos [LinearOrder F] [IsStrictOrderedRing F] : (0 : F) < minStd := by
  unfold minStd
  positivity

def normalizeInPlace [LinearOrder F] [SquareRoot F] (rn : RunningNormalizer F size)
    (x : Fin size → F) : Fin size → F :=
  if rn.count < 2 then fun _ => 0
  else fun i => (x i - rn.mean i) /
    (SquareRoot.sqrt (rn.m2 i / (rn.count - 1)) + minStd)

/-- What is known after the observations `xs`. -/
def knowing (xs : List (Fin size → F)) : RunningNormalizer F size where
  count := xs.length
  mean := fun i => Moments.mean (xs.map fun x => x i)
  m2 := fun i => Moments.squares (xs.map fun x => x i)

theorem knowing_concat [CharZero F] (xs : List (Fin size → F)) (x : Fin size → F) :
    (knowing xs).observe x = knowing (xs ++ [x]) := by
  have means : ∀ i, Moments.mean (xs.map fun x => x i) +
      (x i - Moments.mean (xs.map fun x => x i)) / ((xs.length + 1 : Nat) : F) =
      Moments.mean ((xs ++ [x]).map fun x => x i) := by
    intro i
    rw [List.map_append, List.map_singleton, Moments.mean_concat, List.length_map]
    push_cast
    rfl
  unfold observe knowing
  dsimp only
  congr 1
  · simp
  · funext i
    exact means i
  · funext i
    rw [means, List.map_append, List.map_singleton, Moments.squares_concat]

theorem observe_all [CharZero F] (xs : List (Fin size → F)) :
    xs.foldl observe (new : RunningNormalizer F size) = knowing xs := by
  induction xs using List.reverseRecOn with
  | nil => simp [knowing, new, Moments.mean, Moments.squares]
  | append_singleton xs x ih =>
    rw [List.foldl_concat, ih, knowing_concat]

theorem lt_normalizeInPlace_iff [LinearOrder F] [IsStrictOrderedRing F] [SquareRoot F]
    (xs : List (Fin size → F)) (x : Fin size → F) (i : Fin size) {bound : F}
    (nonneg : 0 ≤ bound) :
    bound < (knowing xs).normalizeInPlace x i ↔ 2 ≤ xs.length ∧
      bound * (Moments.stdDev (xs.map fun x => x i) + minStd) <
        x i - Moments.mean (xs.map fun x => x i) := by
  unfold normalizeInPlace
  by_cases early : (knowing xs).count < 2
  · rw [if_pos early]
    exact ⟨fun positive => absurd positive (not_lt.mpr nonneg),
      fun both => absurd early (Nat.not_lt.mpr both.1)⟩
  · have deviation : SquareRoot.sqrt ((knowing xs).m2 i / ((knowing xs).count - 1)) =
        Moments.stdDev (xs.map fun x => x i) := by
      rw [Moments.stdDev, List.length_map]
      rfl
    have positive : 0 < Moments.stdDev (xs.map fun x => x i) + minStd :=
      add_pos_of_nonneg_of_pos (Moments.stdDev_nonneg _) minStd_pos
    rw [if_neg early, deviation, lt_div_iff₀ positive]
    exact ⟨fun above => ⟨Nat.not_lt.mp early, above⟩, fun both => both.2⟩

/-! ## Slices -/

/-- `Observe`: a slice of another length is ignored. -/
def observeSlice (rn : RunningNormalizer F size) (x : List F) : RunningNormalizer F size :=
  if fits : x.length = size then rn.observe fun i => x.get (i.cast fits.symm) else rn

/-- The variance that `NormalizeInPlace` takes the root of. -/
def variance (rn : RunningNormalizer F size) (i : Fin size) : F := rn.m2 i / (rn.count - 1)

/-- `NormalizeInPlace` of a slice, whatever function stands for the square root. -/
def normalizeSlice (sqrt : F → F) (rn : RunningNormalizer F size) (x : List F) : List F :=
  if rn.count < 2 then x.map fun _ => 0
  else x.mapIdx fun i v =>
    if inside : i < size then
      (v - rn.mean ⟨i, inside⟩) / (sqrt (rn.variance ⟨i, inside⟩) + minStd)
    else v

theorem normalizeSlice_ofFn [LinearOrder F] [SquareRoot F] (rn : RunningNormalizer F size)
    (x : Fin size → F) :
    rn.normalizeSlice SquareRoot.sqrt (List.ofFn x) = List.ofFn (rn.normalizeInPlace x) := by
  unfold normalizeSlice normalizeInPlace
  split
  · rw [List.map_ofFn]
    rfl
  · apply List.ext_getElem
    · simp
    · intro i first second
      rw [List.length_ofFn] at second
      simp [second, variance]

/-- The vectors that have the right length. -/
def accepted (size : Nat) (xs : List (List F)) : List (List F) :=
  xs.filter fun x => x.length = size

/-- The components at one place. -/
def column (xs : List (List F)) (i : Nat) : List F := xs.map fun x => x.getD i 0

/-- The slice as a vector. -/
def vector (x : List F) : Fin size → F := fun i => x.getD i 0

theorem observeSlice_all (xs : List (List F)) : ∀ rn : RunningNormalizer F size,
    xs.foldl observeSlice rn =
      ((accepted size xs).map vector).foldl observe rn := by
  induction xs with
  | nil => intro rn; rfl
  | cons x rest ih =>
    intro rn
    rw [List.foldl_cons, ih]
    by_cases fits : x.length = size
    · have same : (fun i : Fin size => x.get (i.cast fits.symm)) = vector x := by
        funext i
        have inside : (i : Nat) < x.length := fits ▸ i.isLt
        simp [vector, List.getD, List.getElem?_eq_getElem inside]
      have taken : accepted size (x :: rest) = x :: accepted size rest :=
        List.filter_cons_of_pos (decide_eq_true fits)
      rw [taken, observeSlice, dif_pos fits, same]
      rfl
    · have dropped : accepted size (x :: rest) = accepted size rest :=
        List.filter_cons_of_neg (by simpa using fits)
      rw [dropped, observeSlice, dif_neg fits]

theorem observeSlice_knowing [CharZero F] (xs : List (List F)) :
    xs.foldl observeSlice (new : RunningNormalizer F size) =
      knowing ((accepted size xs).map vector) := by
  rw [observeSlice_all, observe_all]

/-- After any slices, count, mean and squares are those of the slices that have the
right length, and what is normalised is divided by their sample deviation. -/
theorem statistics_exact [LinearOrder F] [IsStrictOrderedRing F] (size : Nat)
    (xs : List (List F)) :
    let rn : RunningNormalizer F size := xs.foldl observeSlice new
    rn.count = (accepted size xs).length ∧
    (∀ i : Fin size,
      rn.mean i = Moments.mean (column (accepted size xs) i) ∧
      rn.m2 i = Moments.squares (column (accepted size xs) i) ∧
      0 ≤ rn.m2 i) ∧
    (2 ≤ (accepted size xs).length → ∀ (sqrt : F → F) (x : List F),
      rn.normalizeSlice sqrt x = x.mapIdx fun i v =>
        if i < size then
          (v - Moments.mean (column (accepted size xs) i)) /
            (sqrt (Moments.variance (column (accepted size xs) i)) + minStd)
        else v) := by
  intro rn
  have all : rn = knowing ((accepted size xs).map vector) := observeSlice_knowing xs
  have components : ∀ i : Fin size,
      ((accepted size xs).map vector).map (fun x => x i) = column (accepted size xs) i := by
    intro i
    rw [List.map_map]
    rfl
  have count : rn.count = (accepted size xs).length := by
    rw [all]
    exact List.length_map _
  have mean : ∀ i, rn.mean i = Moments.mean (column (accepted size xs) i) := by
    intro i
    rw [all, ← components]
    rfl
  have m2 : ∀ i, rn.m2 i = Moments.squares (column (accepted size xs) i) := by
    intro i
    rw [all, ← components]
    rfl
  refine ⟨count, fun i => ⟨mean i, m2 i, ?_⟩, ?_⟩
  · rw [m2]
    exact Moments.squares_nonneg _
  · intro enough sqrt x
    rw [normalizeSlice, if_neg (by omega)]
    congr 1
    funext i v
    split
    · rename_i inside
      rw [mean, variance, m2, count, Moments.variance, column, List.length_map]
    · rfl

/-- Three slices, one of which is too long. -/
theorem statistics_exact_two :
    accepted 1 [[1], [5, 6], [(3 : Rat)]] = [[1], [3]] ∧
    ([[1], [5, 6], [(3 : Rat)]].foldl observeSlice (new : RunningNormalizer Rat 1)).count = 2 ∧
    ([[1], [5, 6], [(3 : Rat)]].foldl observeSlice (new : RunningNormalizer Rat 1)).m2 0 =
      Moments.squares [1, 3] :=
  ⟨by decide, (statistics_exact 1 [[1], [5, 6], [(3 : Rat)]]).1,
    ((statistics_exact 1 [[1], [5, 6], [(3 : Rat)]]).2.1 0).2.1⟩

end RunningNormalizer

end NyaQueue
