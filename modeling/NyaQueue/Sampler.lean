import NyaQueue.Lib.Shuffle
import Mathlib.Data.List.FinRange
import Mathlib.Algebra.Order.Field.Basic
import Mathlib.Data.Rat.Cast.Order
import Mathlib.Tactic.Linarith
import Mathlib.Tactic.FieldSimp

/-!
# Sampling configurations

Model of `GenerateConfigs` and `latinHypercubeColumn`
(`pkg/preprocessing/sampler.go`) in exact arithmetic.  The numbers drawn by
`rand.Float64` and by `rand.Shuffle` are arguments, one set of them for each
column.
-/

set_option autoImplicit false

namespace NyaQueue

structure ParamRange (F : Type) where
  min : F
  max : F

/-- What is drawn for one column: the position inside each stratum, and the
numbers that the shuffle draws. -/
structure ColumnDraws (F : Type) where
  uniform : Nat → F
  swaps : Nat → Nat

namespace Sampler

section
variable {F : Type} [Field F]

def latinHypercubeColumn (n : Nat) (draws : ColumnDraws F) : Fin n → F :=
  Shuffle.shuffle draws.swaps fun i => ((i : Nat) + draws.uniform i) / n

def generateConfigs (paramRanges : List (ParamRange F)) (n : Nat) (draws : Nat → ColumnDraws F) :
    List (List F) :=
  (List.finRange n).map fun i => paramRanges.mapIdx fun j r =>
    r.min + latinHypercubeColumn n (draws j) i * (r.max - r.min)

/-- Row `i` has `v` in column `j`. -/
def HasValue (configs : List (List F)) (i j : Nat) (v : F) : Prop :=
  ∃ row, configs[i]? = some row ∧ row[j]? = some v

theorem hasValue_generateConfigs {paramRanges : List (ParamRange F)} {n j : Nat}
    {draws : Nat → ColumnDraws F} {r : ParamRange F} (range : paramRanges[j]? = some r)
    (i : Nat) (v : F) :
    HasValue (generateConfigs paramRanges n draws) i j v ↔
      ∃ inside : i < n,
        v = r.min + latinHypercubeColumn n (draws j) ⟨i, inside⟩ * (r.max - r.min) := by
  unfold HasValue generateConfigs
  constructor
  · rintro ⟨row, at_i, at_j⟩
    rw [List.getElem?_map, Option.map_eq_some_iff] at at_i
    obtain ⟨position, found, rfl⟩ := at_i
    obtain ⟨inside, same⟩ := List.getElem?_eq_some_iff.mp found
    rw [List.getElem_finRange] at same
    rw [List.getElem?_mapIdx, range] at at_j
    subst same
    exact ⟨by simpa using inside, (Option.some.inj at_j).symm⟩
  · rintro ⟨inside, rfl⟩
    refine ⟨paramRanges.mapIdx fun j r =>
      r.min + latinHypercubeColumn n (draws j) ⟨i, inside⟩ * (r.max - r.min), ?_, ?_⟩
    · rw [List.getElem?_map, List.getElem?_eq_getElem (by simpa using inside),
        List.getElem_finRange]
      rfl
    · rw [List.getElem?_mapIdx, range]
      rfl

end

section
variable {F : Type} [Field F] [LinearOrder F] [IsStrictOrderedRing F]

/-- The value is in the half-open stratum `s` of `n` equal ones. -/
def InStratum (r : ParamRange F) (n s : Nat) (v : F) : Prop :=
  r.min + s * ((r.max - r.min) / n) ≤ v ∧ v < r.min + (s + 1) * ((r.max - r.min) / n)

/-- A position in the unit interval that was drawn in stratum `k` is scaled into
stratum `k` of the range and into no other. -/
theorem inStratum_iff {r : ParamRange F} (proper : r.min < r.max) {n : Nat} (positive : 1 ≤ n)
    {u : F} (low : 0 ≤ u) (high : u < 1) (k s : Nat) :
    InStratum r n s (r.min + ((k : F) + u) / n * (r.max - r.min)) ↔ k = s := by
  have size : (0 : F) < n := by exact_mod_cast positive
  have width : 0 < (r.max - r.min) / n := div_pos (sub_pos.mpr proper) size
  have moved : ((k : F) + u) / n * (r.max - r.min) = (k + u) * ((r.max - r.min) / n) := by
    field_simp
  unfold InStratum
  rw [moved, add_le_add_iff_left, add_lt_add_iff_left, mul_le_mul_iff_left₀ width,
    mul_lt_mul_iff_left₀ width]
  constructor
  · rintro ⟨above, below⟩
    have le : s < k + 1 := by
      have : (s : F) < (k + 1 : Nat) := by push_cast; linarith
      exact_mod_cast this
    have ge : k < s + 1 := by
      have : (k : F) < (s + 1 : Nat) := by push_cast; linarith
      exact_mod_cast this
    omega
  · rintro rfl
    constructor <;> linarith

omit [IsStrictOrderedRing F] in
theorem latinHypercubeColumn_strata {n : Nat} (draws : ColumnDraws F)
    (unit : ∀ i, 0 ≤ draws.uniform i ∧ draws.uniform i < 1) :
    ∃ (σ : Equiv.Perm (Fin n)) (u : Fin n → F), (∀ i, 0 ≤ u i ∧ u i < 1) ∧
      ∀ i, latinHypercubeColumn n draws i = (((σ i : Nat) : F) + u i) / n := by
  obtain ⟨σ, reordered⟩ := Shuffle.shuffle_reorders draws.swaps
    fun i : Fin n => (((i : Nat) : F) + draws.uniform i) / n
  exact ⟨σ, fun i => draws.uniform (σ i), fun i => unit (σ i), fun i => congrFun reordered i⟩

/-- Whatever is drawn, the samples are one for each stratum: there is a row for
each parameter and stratum, and only one. -/
theorem generateConfigs_stratified (paramRanges : List (ParamRange F)) {n : Nat}
    (positive : 1 ≤ n) (proper : ∀ r ∈ paramRanges, r.min < r.max) (draws : Nat → ColumnDraws F)
    (unit : ∀ j i, 0 ≤ (draws j).uniform i ∧ (draws j).uniform i < 1) :
    (generateConfigs paramRanges n draws).length = n ∧
    (∀ row ∈ generateConfigs paramRanges n draws, row.length = paramRanges.length) ∧
    ∀ j r, paramRanges[j]? = some r → ∀ s < n,
      ∃! i, ∃ v, HasValue (generateConfigs paramRanges n draws) i j v ∧ InStratum r n s v := by
  refine ⟨by simp [generateConfigs], ?_, ?_⟩
  · intro row member
    obtain ⟨i, -, rfl⟩ := List.mem_map.mp member
    exact List.length_mapIdx
  · intro j r range s inside
    obtain ⟨σ, u, bounds, sample⟩ := latinHypercubeColumn_strata (n := n) (draws j) (unit j)
    have stratum : ∀ i : Fin n, InStratum r n s
        (r.min + latinHypercubeColumn n (draws j) i * (r.max - r.min)) ↔ (σ i : Nat) = s := by
      intro i
      obtain ⟨low, high⟩ := bounds i
      rw [sample]
      exact inStratum_iff (proper r (List.mem_of_getElem? range)) positive low high _ _
    refine ⟨σ.symm ⟨s, inside⟩, ?_, ?_⟩
    · refine ⟨_, (hasValue_generateConfigs range _ _).mpr ⟨Fin.is_lt _, rfl⟩, ?_⟩
      rw [Fin.eta, stratum, Equiv.apply_symm_apply]
    · rintro i ⟨v, there, within⟩
      obtain ⟨valid, rfl⟩ := (hasValue_generateConfigs range _ _).mp there
      have landed : σ ⟨i, valid⟩ = ⟨s, inside⟩ := Fin.ext ((stratum ⟨i, valid⟩).mp within)
      rw [← landed, Equiv.symm_apply_apply]

/-- Two samples of a parameter between 10 and 20, drawn at the middle of their
strata and then swapped. -/
theorem generateConfigs_stratified_two :
    generateConfigs [⟨10, 20⟩] 2 (fun _ => ⟨fun _ => (1 / 2 : Rat), fun _ => 0⟩) =
      [[35 / 2], [25 / 2]] ∧
    ∃! i, ∃ v : Rat, HasValue (generateConfigs [⟨10, 20⟩] 2
      (fun _ => ⟨fun _ => 1 / 2, fun _ => 0⟩)) i 0 v ∧ InStratum ⟨10, 20⟩ 2 1 v :=
  ⟨by decide +kernel, (generateConfigs_stratified [⟨10, 20⟩] (by decide) (by decide)
    (fun _ => ⟨fun _ => 1 / 2, fun _ => 0⟩) (by intro j i; norm_num)).2.2 0 _ rfl 1 (by decide)⟩

end

end Sampler

end NyaQueue
