import NyaQueue.Lib.Greatest
import NyaQueue.Lib.Moments
import NyaQueue.Lib.Runs
import Mathlib.Algebra.BigOperators.Field
import Mathlib.Algebra.BigOperators.Fin
import Mathlib.Data.Matrix.Mul
import Mathlib.Tactic.Linarith

/-!
# Selecting parameters with the Lasso

Model of `SelectParameters` (`pkg/preprocessing/lasso.go`) in exact arithmetic,
for `n` configurations of `d` parameters.  Coordinate descent keeps the residual up
to date in place.  Each update is the minimiser along its coordinate for a column
whose squares add up to `n`; those of a standardised column add up to `n - 1`.
-/

set_option autoImplicit false

namespace NyaQueue

open Moments

namespace Lasso

section Model

variable {F : Type} [Field F] [LinearOrder F] {n d : Nat}

def softThreshold (x lambda : F) : F :=
  if lambda < x then x - lambda else if x < -lambda then x + lambda else 0

/-- A column centred and scaled, or only centred if it hardly varies. -/
def standardise [SquareRoot F] (column : Fin n → F) : Fin n → F :=
  let m := mean (List.ofFn column)
  let sd := stdDev (List.ofFn column)
  let sd := if sd < 1 / 10 ^ 10 then 1 else sd
  fun i => (column i - m) / sd

/-- The columns of the standardised design. -/
def design [SquareRoot F] (configs : Fin n → Fin d → F) : Fin d → Fin n → F := fun j =>
  standardise fun i => configs i j

/-- `Y` -/
def centred (throughputs : Fin n → F) : Fin n → F := fun i =>
  throughputs i - mean (List.ofFn throughputs)

/-- What the descent overwrites. -/
structure Descent (F : Type) (n d : Nat) where
  beta : Fin d → F
  residual : Fin n → F

/-- `floats.AddScaled` -/
def addScaled (dst : Fin n → F) (alpha : F) (s : Fin n → F) : Fin n → F := fun i =>
  dst i + alpha * s i

/-- One coordinate update. -/
def update (cols : Fin d → Fin n → F) (alpha : F) (s : Descent F n d) (j : Fin d) :
    Descent F n d :=
  let residual := addScaled s.residual (s.beta j) (cols j)
  let rho := (cols j ⬝ᵥ residual) / n
  let b := softThreshold rho alpha
  { beta := Function.update s.beta j b
    residual := addScaled residual (-b) (cols j) }

/-- The loop over the coordinates, with the greatest change so far. -/
def sweepFrom (cols : Fin d → Fin n → F) (alpha : F) :
    List (Fin d) → Descent F n d → F → Descent F n d × F
  | [], s, maxChange => (s, maxChange)
  | j :: rest, s, maxChange =>
      let s' := update cols alpha s j
      let change := |s'.beta j - s.beta j|
      sweepFrom cols alpha rest s' (if maxChange < change then change else maxChange)

def sweep (cols : Fin d → Fin n → F) (alpha : F) (s : Descent F n d) : Descent F n d × F :=
  sweepFrom cols alpha (List.finRange d) s 0

/-- The sweeps, until one changes little or none is left. -/
def descend (cols : Fin d → Fin n → F) (alpha : F) : Nat → Descent F n d → Descent F n d
  | 0, s => s
  | left + 1, s =>
      let swept := sweep cols alpha s
      if swept.2 < 1 / 10 ^ 6 then swept.1 else descend cols alpha left swept.1

def maxIter : Nat := 1000

def start (Y : Fin n → F) : Descent F n d := ⟨fun _ => 0, Y⟩

/-- `SelectParameters`: the parameters with a coefficient, and their weights relative
to the greatest. -/
def selectParameters [SquareRoot F] (configs : Fin n → Fin d → F) (throughputs : Fin n → F)
    (alpha : F) : List (Fin d) × List F :=
  if n = 0 then ([], [])
  else
    let beta := (descend (design configs) alpha maxIter (start (centred throughputs))).beta
    let indices := (List.finRange d).filter fun j => 1 / 10 ^ 8 < |beta j|
    let weights := indices.map fun j => |beta j|
    let maxW := weights.foldl max 0
    (indices, if 0 < maxW then weights.map fun w => 1 / maxW * w else weights)

end Model

section Residual

variable {F : Type} [Field F] [LinearOrder F] {n d : Nat} {cols : Fin d → Fin n → F} {alpha : F}

/-- `Y - X β` -/
def remainder (cols : Fin d → Fin n → F) (Y : Fin n → F) (beta : Fin d → F) : Fin n → F := fun i =>
  Y i - ∑ j, beta j * cols j i

/-- The residual is what the coefficients leave of the response. -/
def Tracks (cols : Fin d → Fin n → F) (Y : Fin n → F) (s : Descent F n d) : Prop :=
  s.residual = remainder cols Y s.beta

omit [LinearOrder F] in
theorem remainder_update (Y : Fin n → F) (beta : Fin d → F) (j : Fin d) (b : F) (i : Fin n) :
    remainder cols Y (Function.update beta j b) i =
      remainder cols Y beta i + beta j * cols j i - b * cols j i := by
  have others : ∑ t, Function.update beta j b t * cols t i =
      ∑ t, beta t * cols t i + (b - beta j) * cols j i := by
    have split : ∀ t, Function.update beta j b t * cols t i =
        beta t * cols t i + (if t = j then (b - beta j) * cols j i else 0) := by
      intro t
      by_cases same : t = j
      · subst same
        rw [Function.update_self, if_pos rfl]
        ring
      · rw [Function.update_of_ne same, if_neg same, add_zero]
    rw [Finset.sum_congr rfl fun t _ => split t, Finset.sum_add_distrib, Finset.sum_ite_eq',
      if_pos (Finset.mem_univ j)]
  rw [remainder, others, remainder]
  ring

variable {Y : Fin n → F} {s : Descent F n d}

theorem Tracks.update (tracks : Tracks cols Y s) (j : Fin d) :
    Tracks cols Y (update cols alpha s j) := by
  funext i
  simp only [Lasso.update, addScaled]
  rw [remainder_update, tracks]
  ring

omit [LinearOrder F] in
theorem tracks_start (Y : Fin n → F) : Tracks cols Y (start Y : Descent F n d) := by
  funext i
  simp [start, remainder]

/-! ## Sweeps as runs of updates -/

variable (js : List (Fin d))

theorem sweepFrom_state : ∀ (s : Descent F n d) (maxChange : F),
    (sweepFrom cols alpha js s maxChange).1 = Runs.final (update cols alpha) s js := by
  induction js with
  | nil => intro s maxChange; rfl
  | cons j rest ih =>
    intro s maxChange
    rw [sweepFrom, ih]
    rfl

theorem sweep_state (s : Descent F n d) :
    (sweep cols alpha s).1 = Runs.final (update cols alpha) s (List.finRange d) :=
  sweepFrom_state (List.finRange d) s 0

theorem Tracks.final (tracks : Tracks cols Y s) (js : List (Fin d)) :
    Tracks cols Y (Runs.final (Lasso.update cols alpha) s js) :=
  Runs.invariant_final (fun s j (holds : Tracks cols Y s) => holds.update j) js s tracks

theorem descend_run (left : Nat) : ∀ s : Descent F n d,
    ∃ sweeps ≤ left, descend cols alpha left s =
      Runs.final (update cols alpha) s (List.replicate sweeps (List.finRange d)).flatten := by
  induction left with
  | zero => intro s; exact ⟨0, Nat.le_refl 0, rfl⟩
  | succ left ih =>
    intro s
    rw [descend, sweep_state]
    split
    · refine ⟨1, Nat.succ_le_succ (Nat.zero_le left), ?_⟩
      rw [List.replicate_one, List.flatten_singleton]
    · obtain ⟨sweeps, few, run⟩ := ih (Runs.final (update cols alpha) s (List.finRange d))
      refine ⟨sweeps + 1, Nat.succ_le_succ few, ?_⟩
      rw [run, List.replicate_succ, List.flatten_cons, Runs.final_append]

theorem Tracks.descend (tracks : Tracks cols Y s) (left : Nat) :
    Tracks cols Y (descend cols alpha left s) := by
  obtain ⟨sweeps, -, run⟩ : ∃ sweeps ≤ left, Lasso.descend cols alpha left s =
      Runs.final (Lasso.update cols alpha) s (List.replicate sweeps (List.finRange d)).flatten :=
    descend_run left s
  rw [run]
  exact tracks.final _

/-! ## States that a sweep leaves alone -/

theorem final_beta_of_notMem {t : Fin d} (other : t ∉ js) :
    ∀ s : Descent F n d, (Runs.final (update cols alpha) s js).beta t = s.beta t := by
  induction js with
  | nil => intro s; rfl
  | cons j rest ih =>
    intro s
    obtain ⟨different, later⟩ := List.ne_and_not_mem_of_not_mem_cons other
    rw [Runs.final_cons, ih later]
    exact Function.update_of_ne different _ _

theorem update_eq_self {j : Fin d} (same : (update cols alpha s j).beta j = s.beta j) :
    update cols alpha s j = s := by
  have chosen : softThreshold ((cols j ⬝ᵥ addScaled s.residual (s.beta j) (cols j)) / n) alpha =
      s.beta j := by
    simpa only [update, Function.update_self] using same
  unfold update
  dsimp only
  rw [chosen, Function.update_eq_self]
  congr 1
  funext i
  simp only [addScaled]
  ring

/-- Coefficients that a sweep over distinct coordinates leaves unchanged are left
unchanged by each of its updates. -/
theorem update_fixed (distinct : js.Nodup)
    (unchanged : (Runs.final (update cols alpha) s js).beta = s.beta) :
    ∀ j ∈ js, (update cols alpha s j).beta j = s.beta j := by
  induction js with
  | nil => intro j none; cases none
  | cons j rest ih =>
    obtain ⟨once, distinct'⟩ := List.nodup_cons.mp distinct
    rw [Runs.final_cons] at unchanged
    have here : (update cols alpha s j).beta j = s.beta j := by
      rw [← unchanged, final_beta_of_notMem rest once]
    rw [update_eq_self here] at unchanged
    intro t member
    rcases List.mem_cons.mp member with rfl | later
    · exact here
    · exact ih distinct' unchanged t later

end Residual

section Optimality

variable {F : Type} [Field F] [LinearOrder F] [IsStrictOrderedRing F] {n d : Nat}
  {cols : Fin d → Fin n → F} {Y : Fin n → F} {alpha : F}

/-- The optimality conditions of `(1 / 2n) |Y - X β|² + alpha |β|₁`. -/
structure Optimal (cols : Fin d → Fin n → F) (Y : Fin n → F) (alpha : F) (beta : Fin d → F) :
    Prop where
  positive : ∀ j, 0 < beta j → (cols j ⬝ᵥ remainder cols Y beta) / n = alpha
  negative : ∀ j, beta j < 0 → (cols j ⬝ᵥ remainder cols Y beta) / n = -alpha
  zero : ∀ j, beta j = 0 → -alpha ≤ (cols j ⬝ᵥ remainder cols Y beta) / n ∧
    (cols j ⬝ᵥ remainder cols Y beta) / n ≤ alpha

theorem softThreshold_cases {x b : F} (result : softThreshold x alpha = b) :
    (0 < b ∧ x = b + alpha) ∨ (b < 0 ∧ x = b - alpha) ∨ (b = 0 ∧ -alpha ≤ x ∧ x ≤ alpha) := by
  unfold softThreshold at result
  split at result
  · left
    constructor <;> linarith
  · split at result
    · right
      left
      constructor <;> linarith
    · right
      right
      refine ⟨result.symm, ?_, ?_⟩ <;> linarith

omit [LinearOrder F] [IsStrictOrderedRing F] in
theorem dot_addScaled (v : Fin n → F) (b : F) (col : Fin n → F) :
    (col ⬝ᵥ addScaled v b col) / n = (col ⬝ᵥ v) / n + b * ((col ⬝ᵥ col) / n) := by
  have expanded : col ⬝ᵥ addScaled v b col = col ⬝ᵥ v + b * (col ⬝ᵥ col) := by
    simp only [dotProduct, addScaled, Finset.mul_sum, ← Finset.sum_add_distrib]
    refine Finset.sum_congr rfl fun i _ => ?_
    ring
  rw [expanded]
  ring

/-- Each coefficient is the soft threshold of its coordinate. -/
def Fixed (cols : Fin d → Fin n → F) (Y : Fin n → F) (alpha : F) (beta : Fin d → F) : Prop :=
  ∀ j, softThreshold ((cols j ⬝ᵥ remainder cols Y beta) / n +
    beta j * ((cols j ⬝ᵥ cols j) / n)) alpha = beta j

omit [IsStrictOrderedRing F] in
theorem fixed_of_sweep {s : Descent F n d} (tracks : Tracks cols Y s)
    (unchanged : (sweep cols alpha s).1.beta = s.beta) : Fixed cols Y alpha s.beta := by
  rw [sweep_state] at unchanged
  intro j
  have kept := update_fixed (List.finRange d) (List.nodup_finRange d) unchanged j
    (List.mem_finRange j)
  simp only [update, Function.update_self, dot_addScaled] at kept
  rw [tracks] at kept
  exact kept

section Fixed

variable {beta : Fin d → F} (short : ∀ j, (cols j ⬝ᵥ cols j) / n < 1)
  (fixed : Fixed cols Y alpha beta)

include fixed

theorem mul_dot_remainder (j : Fin d) :
    beta j * ((cols j ⬝ᵥ remainder cols Y beta) / n) =
      alpha * |beta j| + beta j * beta j * (1 - (cols j ⬝ᵥ cols j) / n) := by
  rcases softThreshold_cases (fixed j) with ⟨up, value⟩ | ⟨down, value⟩ | ⟨zero, -, -⟩
  · rw [abs_of_pos up]
    linear_combination beta j * value
  · rw [abs_of_neg down]
    linear_combination beta j * value
  · rw [zero]
    simp

include short

/-- A fixed point that is optimal has no coefficients: one that is not zero leaves
its column correlated with the residual by more than the penalty. -/
theorem optimal_iff_zero : Optimal cols Y alpha beta ↔ ∀ j, beta j = 0 := by
  constructor
  · intro optimal j
    have gap := short j
    rcases softThreshold_cases (fixed j) with ⟨up, value⟩ | ⟨down, value⟩ | ⟨zero, -, -⟩
    · have wanted := optimal.positive j up
      nlinarith
    · have wanted := optimal.negative j down
      nlinarith
    · exact zero
  · intro zero
    refine ⟨fun j up => ?_, fun j down => ?_, fun j _ => ?_⟩
    · rw [zero j] at up
      exact absurd up (lt_irrefl 0)
    · rw [zero j] at down
      exact absurd down (lt_irrefl 0)
    · have here := fixed j
      rw [zero j, zero_mul, add_zero] at here
      rcases softThreshold_cases here with ⟨up, -⟩ | ⟨down, -⟩ | ⟨-, low, high⟩
      · exact absurd up (lt_irrefl 0)
      · exact absurd down (lt_irrefl 0)
      · exact ⟨low, high⟩

omit [LinearOrder F] [IsStrictOrderedRing F] fixed short in
theorem fit_dot (beta : Fin d → F) (v : Fin n → F) :
    (fun i => ∑ j, beta j * cols j i) ⬝ᵥ v = ∑ j, beta j * (cols j ⬝ᵥ v) := by
  simp only [dotProduct, Finset.sum_mul, Finset.mul_sum]
  rw [Finset.sum_comm]
  refine Finset.sum_congr rfl fun j _ => Finset.sum_congr rfl fun i _ => ?_
  ring

omit fixed short in
theorem sum_mul_dot_remainder (beta : Fin d → F) :
    ∑ j, beta j * ((cols j ⬝ᵥ remainder cols Y beta) / n) ≤
      ∑ j, beta j * ((cols j ⬝ᵥ Y) / n) := by
  have scale : ∀ v : Fin n → F, ∑ j, beta j * ((cols j ⬝ᵥ v) / n) =
      ((fun i => ∑ j, beta j * cols j i) ⬝ᵥ v) / n := by
    intro v
    rw [fit_dot, Finset.sum_div]
    refine Finset.sum_congr rfl fun j _ => ?_
    ring
  have less : (fun i => ∑ j, beta j * cols j i) ⬝ᵥ remainder cols Y beta ≤
      (fun i => ∑ j, beta j * cols j i) ⬝ᵥ Y := by
    refine Finset.sum_le_sum fun i _ => ?_
    unfold remainder
    nlinarith [mul_self_nonneg (∑ j, beta j * cols j i)]
  rw [scale, scale]
  exact div_le_div_of_nonneg_right less (Nat.cast_nonneg n)

/-- A fixed point has no coefficients exactly when the penalty covers what every
column has in common with the response. -/
theorem zero_iff_covered : (∀ j, beta j = 0) ↔ ∀ j, |(cols j ⬝ᵥ Y) / n| ≤ alpha := by
  constructor
  · intro zero j
    have bare : remainder cols Y beta = Y := by
      funext i
      simp [remainder, zero]
    have here := fixed j
    rw [bare, zero j, zero_mul, add_zero] at here
    rcases softThreshold_cases here with ⟨up, -⟩ | ⟨down, -⟩ | ⟨-, low, high⟩
    · exact absurd up (lt_irrefl 0)
    · exact absurd down (lt_irrefl 0)
    · exact abs_le.mpr ⟨low, high⟩
  · intro covered
    -- summed over the coordinates, the shrinkage of `mul_dot_remainder` has nothing to come from
    have shrunk : ∀ j ∈ Finset.univ, 0 ≤ beta j * beta j * (1 - (cols j ⬝ᵥ cols j) / n) :=
      fun j _ => mul_nonneg (mul_self_nonneg _) (sub_nonneg.mpr (short j).le)
    have bounded : ∑ j, beta j * ((cols j ⬝ᵥ Y) / n) ≤ ∑ j, alpha * |beta j| := by
      refine Finset.sum_le_sum fun j _ => ?_
      calc beta j * ((cols j ⬝ᵥ Y) / n) ≤ |beta j * ((cols j ⬝ᵥ Y) / n)| := le_abs_self _
        _ = |(cols j ⬝ᵥ Y) / n| * |beta j| := by rw [abs_mul, mul_comm]
        _ ≤ alpha * |beta j| := mul_le_mul_of_nonneg_right (covered j) (abs_nonneg _)
    have total : ∑ j, beta j * ((cols j ⬝ᵥ remainder cols Y beta) / n) =
        ∑ j, alpha * |beta j| + ∑ j, beta j * beta j * (1 - (cols j ⬝ᵥ cols j) / n) := by
      rw [← Finset.sum_add_distrib]
      exact Finset.sum_congr rfl fun j _ => mul_dot_remainder fixed j
    have less : ∑ j, beta j * ((cols j ⬝ᵥ remainder cols Y beta) / n) ≤
        ∑ j, beta j * ((cols j ⬝ᵥ Y) / n) := sum_mul_dot_remainder beta
    have none : ∑ j, beta j * beta j * (1 - (cols j ⬝ᵥ cols j) / n) = 0 :=
      le_antisymm (by linarith) (Finset.sum_nonneg shrunk)
    intro j
    have here := (Finset.sum_eq_zero_iff_of_nonneg shrunk).mp none j (Finset.mem_univ j)
    rcases mul_eq_zero.mp here with square | full
    · exact mul_self_eq_zero.mp square
    · exact absurd full (sub_pos.mpr (short j)).ne'

end Fixed

/-! ## Standardised columns -/

variable [SquareRoot F]

omit [LinearOrder F] [IsStrictOrderedRing F] [SquareRoot F] in
theorem sum_deviations_eq (column : Fin n → F) :
    ∑ i, (column i - mean (List.ofFn column)) * (column i - mean (List.ofFn column)) =
      squares (List.ofFn column) := by
  rw [squares, List.map_ofFn, List.sum_ofFn]
  rfl

theorem squares_ofFn (column : Fin (n + 1) → F) :
    squares (List.ofFn column) = n * (stdDev (List.ofFn column) * stdDev (List.ofFn column)) := by
  rw [stdDev_mul_self (by simp), List.length_ofFn]
  push_cast
  rw [add_sub_cancel_right]
  cases n with
  | zero =>
    have alone : squares (List.ofFn column) = 0 := by
      simp [squares, mean]
    rw [alone]
    simp
  | succ n =>
    have size : ((n + 1 : Nat) : F) ≠ 0 := by exact_mod_cast Nat.succ_ne_zero n
    field_simp

theorem standardise_short (column : Fin n → F) :
    (standardise column ⬝ᵥ standardise column) / n < 1 := by
  cases n with
  | zero => simp
  | succ n =>
    have size : (0 : F) < (n + 1 : Nat) := by exact_mod_cast Nat.succ_pos n
    have rows : (0 : F) ≤ n := Nat.cast_nonneg n
    have variance := squares_ofFn column
    have deviation := stdDev_nonneg (List.ofFn column)
    rw [div_lt_one size]
    refine lt_of_le_of_lt (b := (n : F)) ?_ (by push_cast; linarith)
    unfold standardise
    dsimp only
    generalize stdDev (List.ofFn column) = sd at *
    have scaled : ∀ sd' : F, (fun i => (column i - mean (List.ofFn column)) / sd') ⬝ᵥ
        (fun i => (column i - mean (List.ofFn column)) / sd') =
        squares (List.ofFn column) / (sd' * sd') := by
      intro sd'
      rw [← sum_deviations_eq, Finset.sum_div]
      refine Finset.sum_congr rfl fun i _ => ?_
      ring
    rw [scaled, variance]
    split
    · rename_i flat
      have small : sd ≤ 1 := flat.le.trans (by norm_num)
      have product : sd * sd ≤ 1 := by nlinarith
      rw [mul_one, div_one]
      nlinarith
    · rename_i varies
      have positive : 0 < sd := lt_of_lt_of_le (by norm_num) (not_lt.mp varies)
      rw [mul_div_assoc, div_self (mul_pos positive positive).ne', mul_one]

/-- The parameters selected come in order, each with a weight of at most one, which
the greatest of them has. -/
theorem selectParameters_weights (configs : Fin n → Fin d → F) (throughputs : Fin n → F)
    (alpha : F) :
    let selected := selectParameters configs throughputs alpha
    selected.1.Pairwise (· < ·) ∧ selected.2.length = selected.1.length ∧
      (∀ w ∈ selected.2, 0 < w ∧ w ≤ 1) ∧ (selected.1 ≠ [] → 1 ∈ selected.2) := by
  unfold selectParameters
  split
  · exact ⟨.nil, rfl, List.forall_mem_nil _, fun none => absurd rfl none⟩
  · dsimp only
    generalize (descend (design configs) alpha maxIter (start (centred throughputs))).beta = beta
    generalize chosen : ((List.finRange d).filter fun j => 1 / 10 ^ 8 < |beta j|) = indices
    have ordered : indices.Pairwise (· < ·) := by
      rw [← chosen]
      exact (List.pairwise_lt_finRange d).filter _
    have weigh : ∀ w ∈ indices.map fun j => |beta j|, 0 < w := by
      intro w member
      obtain ⟨j, inside, rfl⟩ := List.mem_map.mp member
      rw [← chosen, List.mem_filter, decide_eq_true_eq] at inside
      exact lt_trans (by positivity) inside.2
    have length : (indices.map fun j => |beta j|).length = indices.length := List.length_map _
    have none : (indices.map fun j => |beta j|) = [] → indices = [] := List.map_eq_nil_iff.mp
    generalize (indices.map fun j => |beta j|) = weights at weigh length none ⊢
    have scaled : (if 0 < weights.foldl max 0 then
        weights.map fun w => 1 / weights.foldl max 0 * w else weights) =
        Greatest.relative weights := by
      simp only [one_div_mul_eq_div]
      rfl
    rw [scaled]
    exact ⟨ordered, (Greatest.length_relative weights).trans length,
      Greatest.relative_bounds weigh,
      fun some => Greatest.one_mem_relative weigh fun empty => some (none empty)⟩

theorem selectParameters_weights_two :
    let s := selectParameters (fun (i : Fin 2) (_ : Fin 1) => (i.val : ℝ)) (fun i => i.val) (1 / 10)
    s.2.length = s.1.length ∧ ∀ w ∈ s.2, 0 < w ∧ w ≤ 1 :=
  have weights := selectParameters_weights _ _ _
  ⟨weights.2.1, weights.2.2.1⟩

/-- After every coordinate update, and so at the end of the descent, the residual is
what the coefficients leave of the response.  Coefficients that a full sweep leaves
unchanged are optimal exactly when the penalty covers what each standardised column
has in common with the response; then they are all zero. -/
theorem fixed_optimal_iff_covered (configs : Fin n → Fin d → F) (throughputs : Fin n → F)
    (alpha : F) :
    (∀ js, ∀ s ∈ Runs.states (update (design configs) alpha) (start (centred throughputs)) js,
      Tracks (design configs) (centred throughputs) s) ∧
    (∀ left, Tracks (design configs) (centred throughputs)
      (descend (design configs) alpha left (start (centred throughputs)))) ∧
    ∀ s : Descent F n d, Tracks (design configs) (centred throughputs) s →
      (sweep (design configs) alpha s).1.beta = s.beta →
      (Optimal (design configs) (centred throughputs) alpha s.beta ↔
        ∀ j, |(design configs j ⬝ᵥ centred throughputs) / n| ≤ alpha) := by
  refine ⟨fun js => ?_, fun left => (tracks_start _).descend left, fun s tracks unchanged => ?_⟩
  · exact Runs.invariant_of_step (fun s j tracks => Tracks.update tracks j) js _
      (tracks_start (centred throughputs))
  · have short : ∀ j, (design configs j ⬝ᵥ design configs j) / n < 1 :=
      fun j => standardise_short fun i => configs i j
    have fixed := fixed_of_sweep tracks unchanged
    rw [optimal_iff_zero short fixed, zero_iff_covered short fixed]

end Optimality

/-! ## A fixed point that is not optimal -/

/-- Three settings of one parameter. -/
def threeConfigs : Fin 3 → Fin 1 → ℝ := fun i _ => i.val

def threeThroughputs : Fin 3 → ℝ := fun i => 1 + 3 * i.val

theorem design_three : design threeConfigs = fun _ i => (i.val : ℝ) - 1 := by
  have average : mean (List.ofFn fun i => threeConfigs i 0) = 1 := by
    simp [mean, threeConfigs]
    norm_num
  have deviation : stdDev (List.ofFn fun i => threeConfigs i 0) = 1 := by
    rw [stdDev, squares, average]
    simp [threeConfigs, SquareRoot.sqrt]
    norm_num
  funext j i
  rw [Subsingleton.elim j 0, design, standardise, average, deviation]
  norm_num [threeConfigs]

theorem centred_three : centred threeThroughputs = fun i => 3 * (i.val : ℝ) - 3 := by
  have average : mean (List.ofFn threeThroughputs) = 4 := by
    simp [mean, threeThroughputs]
    norm_num
  funext i
  rw [centred, average, threeThroughputs]
  ring

theorem sweep_three {s : Descent ℝ 3 1} (alpha : ℝ)
    (tracks : Tracks (fun _ i => (i.val : ℝ) - 1) (fun i => 3 * (i.val : ℝ) - 3) s) :
    (sweep (fun _ i => (i.val : ℝ) - 1) alpha s).1.beta = fun _ => softThreshold 2 alpha := by
  funext j
  rw [Subsingleton.elim j 0, sweep_state]
  have rho : ((fun i : Fin 3 => (i.val : ℝ) - 1) ⬝ᵥ
      addScaled s.residual (s.beta 0) fun i => (i.val : ℝ) - 1) / (3 : Nat) = 2 := by
    rw [tracks]
    simp [dotProduct, addScaled, remainder, Fin.sum_univ_succ]
    ring
  simp only [List.finRange_succ, List.finRange_zero, List.map_nil, Runs.final, List.foldl_cons,
    List.foldl_nil, update, Function.update_self, rho]

/-- With a penalty of 2 the coefficient stays at zero, and that is optimal. -/
theorem lasso_optimal_when_covered :
    Optimal (design threeConfigs) (centred threeThroughputs) 2 (fun _ => 0) := by
  refine ((fixed_optimal_iff_covered threeConfigs threeThroughputs 2).2.2
    (start (centred threeThroughputs)) (tracks_start _) ?_).mpr fun j => ?_
  · have nothing : softThreshold 2 (2 : ℝ) = 0 := by
      norm_num [softThreshold]
    rw [design_three, centred_three, sweep_three 2 (tracks_start _), nothing]
    rfl
  · rw [design_three, centred_three]
    simp [dotProduct, Fin.sum_univ_succ]
    norm_num

/-- The throughput grows by three with each step of the parameter.  The second sweep
changes nothing, with a coefficient of 3/2 that leaves the column correlated with the
residual by 1, twice the penalty. -/
theorem lasso_stops_short :
    ∃ s : Descent ℝ 3 1, Tracks (design threeConfigs) (centred threeThroughputs) s ∧
      s = (sweep (design threeConfigs) (1 / 2) (start (centred threeThroughputs))).1 ∧
      (sweep (design threeConfigs) (1 / 2) s).1.beta = s.beta ∧
      ¬ Optimal (design threeConfigs) (centred threeThroughputs) (1 / 2) s.beta := by
  rw [design_three, centred_three]
  have first := sweep_three (1 / 2) (tracks_start fun i => 3 * (i.val : ℝ) - 3)
  have tracks : Tracks (fun _ i => (i.val : ℝ) - 1) (fun i => 3 * (i.val : ℝ) - 3)
      (sweep (fun _ i => (i.val : ℝ) - 1) (1 / 2)
        (start fun i => 3 * (i.val : ℝ) - 3 : Descent ℝ 3 1)).1 := by
    rw [sweep_state]
    exact (tracks_start _).final _
  refine ⟨_, tracks, rfl, (sweep_three (1 / 2) tracks).trans first.symm, ?_⟩
  have coefficient : softThreshold 2 (1 / 2 : ℝ) = 3 / 2 := by
    norm_num [softThreshold]
  rw [first, coefficient]
  intro optimal
  have left := optimal.positive 0 (by norm_num)
  simp [dotProduct, remainder, Fin.sum_univ_succ] at left
  norm_num at left

end Lasso

end NyaQueue
