import NyaQueue.GridSelect
import Mathlib.Algebra.BigOperators.Fin
import Mathlib.Algebra.BigOperators.Ring.Finset
import Mathlib.Tactic.LinearCombination
import Mathlib.Tactic.Ring

/-!
# Selecting representative configurations

Model of `SelectRepresentative` (`pkg/preprocessing/pca.go`) in exact arithmetic,
for `n` configurations of `d` parameters.  The decomposition of the centred data is
an argument; `VTo` gives the matrix with the right singular vectors as its columns.
The basis is read off its rows, so the projection is that on the principal
components only where a row of the matrix does for its column.
-/

set_option autoImplicit false

namespace NyaQueue

/-- `mat.Dense` -/
structure Dense (F : Type) where
  rows : Nat
  cols : Nat
  entry : Nat → Nat → F

/-- `At`, which panics out of range. -/
def Dense.at? {F : Type} (m : Dense F) (i j : Nat) : Option F :=
  if i < m.rows ∧ j < m.cols then some (m.entry i j) else none

namespace Pca

section Model

variable {F : Type} [Field F] {n d : Nat}

/-- `data`: the configurations less the mean of each parameter. -/
def centre (configs : Fin n → Fin d → F) : Fin n → Fin d → F := fun i j =>
  configs i j - (∑ row, configs row j) / n

def numPC (d : Nat) : Nat := if d < 2 then d else 2

/-- `pcBasis`, copied element by element; `none` if an access is out of range. -/
def pcBasis? (vt : Dense F) (numPC d : Nat) : Option (Dense F) :=
  if (List.range numPC).all fun i => (List.range d).all fun j => (vt.at? i j).isSome then
    some ⟨numPC, d, fun i j => (vt.at? i j).getD 0⟩
  else none

/-- `projected.Mul(data, pcBasis.T())` -/
def project (data : Fin n → Fin d → F) (pcBasis : Dense F) : Fin n → Fin pcBasis.rows → F :=
  fun i j => ∑ l, data i l * pcBasis.entry j l

/-- The projected matrix; `none` if an access is out of range. -/
def projected? (configs : Fin n → Fin d → F) (vt : Dense F) :
    Option (Σ width, Fin n → Fin width → F) :=
  (pcBasis? vt (numPC d) d).map fun pcBasis => ⟨pcBasis.rows, project (centre configs) pcBasis⟩

/-- `SelectRepresentative`; `svd` has `VTo` of the decomposition, or nothing if it
failed, and the result is `none` for a panic. -/
def selectRepresentative [LinearOrder F] (configs : Fin n → Fin d → F) (k : Nat)
    (svd : Option (Dense F)) : Option (List (Fin d → F)) :=
  if n ≤ k then some (List.ofFn configs)
  else if d = 0 then some ((List.ofFn configs).take k)
  else
    match svd with
    | none => some ((List.ofFn configs).take k)
    | some vt =>
        match projected? configs vt with
        | none => none
        | some projected =>
            (GridSelect.gridSelect projected.2 k).mapM fun idx => (List.ofFn configs)[idx]?

end Model

/-! ## The decomposition -/

section Svd

variable {F : Type} [Field F] [LinearOrder F] {n d : Nat}

/-- A thin singular value decomposition of the data. -/
structure ThinSvd (data : Fin n → Fin d → F) where
  u : Fin n → Nat → F
  s : Nat → F
  v : Nat → Nat → F
  factors : ∀ i (l : Fin d), data i l = ∑ t ∈ Finset.range (min n d), u i t * s t * v l t
  u_orthonormal : ∀ t < min n d, ∀ t' < min n d, ∑ i, u i t * u i t' = if t = t' then 1 else 0
  v_orthonormal : ∀ t < min n d, ∀ t' < min n d,
    ∑ l : Fin d, v l t * v l t' = if t = t' then 1 else 0
  nonneg : ∀ t < min n d, 0 ≤ s t
  descending : ∀ t < min n d, ∀ t' ≤ t, s t ≤ s t'

variable {data : Fin n → Fin d → F}

/-- `VTo`: the right singular vectors are the columns. -/
def ThinSvd.vTo (svd : ThinSvd data) : Dense F := ⟨d, min n d, svd.v⟩

theorem ThinSvd.data_mul (svd : ThinSvd data) (i : Fin n) (x : Fin d → F) :
    ∑ l, data i l * x l =
      ∑ t ∈ Finset.range (min n d), svd.u i t * (svd.s t * ∑ l : Fin d, svd.v l t * x l) := by
  simp only [svd.factors, Finset.sum_mul, Finset.mul_sum]
  rw [Finset.sum_comm]
  refine Finset.sum_congr rfl fun t _ => Finset.sum_congr rfl fun l _ => ?_
  ring

theorem ThinSvd.independent (svd : ThinSvd data) {c : Nat → F}
    (vanishes : ∀ i, ∑ t ∈ Finset.range (min n d), svd.u i t * c t = 0) {t : Nat}
    (inside : t < min n d) : c t = 0 := by
  have collapsed : ∑ i, svd.u i t * ∑ t' ∈ Finset.range (min n d), svd.u i t' * c t' = c t := by
    simp only [Finset.mul_sum]
    rw [Finset.sum_comm]
    have column : ∀ t' ∈ Finset.range (min n d), ∑ i, svd.u i t * (svd.u i t' * c t') =
        if t = t' then c t else 0 := by
      intro t' member
      have product : ∑ i, svd.u i t * (svd.u i t' * c t') =
          (∑ i, svd.u i t * svd.u i t') * c t' := by
        rw [Finset.sum_mul]
        refine Finset.sum_congr rfl fun i _ => ?_
        ring
      rw [product, svd.u_orthonormal t inside t' (Finset.mem_range.mp member)]
      split
      · rename_i same
        rw [one_mul, same]
      · exact zero_mul _
    rw [Finset.sum_congr rfl column, Finset.sum_ite_eq, if_pos (Finset.mem_range.mpr inside)]
  rw [← collapsed]
  exact Finset.sum_eq_zero fun i _ => by rw [vanishes i, mul_zero]

end Svd

/-! ## The projection -/

section Projection

variable {F : Type} [Field F] [LinearOrder F] {n d : Nat}

theorem numPC_le (d : Nat) : numPC d ≤ d := by
  unfold numPC
  split <;> omega

omit [LinearOrder F] in
theorem pcBasis?_eq (columns : 1 ≤ d) (v : Nat → Nat → F) :
    pcBasis? ⟨d, min n d, v⟩ (numPC d) d =
      if d ≤ n then some ⟨numPC d, d, fun i j => ((⟨d, min n d, v⟩ : Dense F).at? i j).getD 0⟩
      else none := by
  have rows := numPC_le d
  have first : 0 < numPC d := by
    unfold numPC
    split <;> omega
  unfold pcBasis?
  have range : ((List.range (numPC d)).all fun i => (List.range d).all fun j =>
      ((⟨d, min n d, v⟩ : Dense F).at? i j).isSome) = true ↔ d ≤ n := by
    simp only [List.all_eq_true, List.mem_range]
    constructor
    · intro inside
      have last := inside 0 first (d - 1) (by omega)
      unfold Dense.at? at last
      split at last
      · rename_i bounds
        have narrow : d - 1 < min n d := bounds.2
        omega
      · cases last
    · intro wide i top j below
      have bounds : i < d ∧ j < min n d := by
        constructor <;> omega
      rw [Dense.at?, if_pos bounds]
      rfl
  simp only [range]

omit [LinearOrder F] in
theorem projected?_of_le (columns : 1 ≤ d) (wide : d ≤ n) (configs : Fin n → Fin d → F)
    (v : Nat → Nat → F) :
    ∃ projected : Fin n → Fin (numPC d) → F,
      projected? configs ⟨d, min n d, v⟩ = some ⟨numPC d, projected⟩ ∧
      ∀ i j, projected i j = ∑ l : Fin d, centre configs i l * v j l := by
  refine ⟨fun i j => ∑ l : Fin d, centre configs i l *
    ((⟨d, min n d, v⟩ : Dense F).at? j l).getD 0, ?_, ?_⟩
  · rw [projected?, pcBasis?_eq columns, if_pos wide]
    rfl
  · intro i j
    refine Finset.sum_congr rfl fun l _ => ?_
    have rows := numPC_le d
    have bounds : j.val < d ∧ l.val < min n d := by
      constructor <;> omega
    rw [Dense.at?, if_pos bounds]
    rfl

/-- The matrix is read in range, and its entries are the inner products of the
centred rows with the first columns of `V`. -/
def ProjectsOnComponents (configs : Fin n → Fin d → F) (vt : Dense F) : Prop :=
  ∃ projected : Fin n → Fin (numPC d) → F, projected? configs vt = some ⟨numPC d, projected⟩ ∧
    ∀ i j, projected i j = ∑ l : Fin d, centre configs i l * vt.entry l j

omit [LinearOrder F] in
theorem projected?_of_lt (columns : 1 ≤ d) (narrow : n < d) (configs : Fin n → Fin d → F)
    (v : Nat → Nat → F) : projected? configs ⟨d, min n d, v⟩ = none := by
  rw [projected?, pcBasis?_eq columns, if_neg (Nat.not_le.mpr narrow)]
  rfl

omit [Field F] [LinearOrder F] in
theorem mapM_getElem? (rows : List (Fin d → F)) (selected : List Nat)
    (inside : ∀ i ∈ selected, i < rows.length) :
    ∃ picked, (selected.mapM fun idx => rows[idx]?) = some picked ∧
      picked.length = selected.length := by
  induction selected with
  | nil => exact ⟨[], rfl, rfl⟩
  | cons i rest ih =>
    obtain ⟨picked, found, length⟩ := ih fun i' later => inside i' (List.mem_cons_of_mem _ later)
    have here := List.getElem?_eq_getElem (inside i (List.mem_cons_self ..))
    refine ⟨rows.get ⟨i, inside i (List.mem_cons_self ..)⟩ :: picked, ?_, congrArg (· + 1) length⟩
    rw [List.mapM_cons, here, found]
    rfl

theorem selectRepresentative_cases {k : Nat} (more : k < n) (columns : 1 ≤ d)
    (configs : Fin n → Fin d → F) (v : Nat → Nat → F) :
    (n < d ∧ selectRepresentative configs k (some ⟨d, min n d, v⟩) = none) ∨
    (d ≤ n ∧ ∃ picked, selectRepresentative configs k (some ⟨d, min n d, v⟩) = some picked ∧
      picked.length = k) := by
  unfold selectRepresentative
  rw [if_neg (Nat.not_le.mpr more), if_neg (by omega)]
  dsimp only
  rcases Nat.lt_or_ge n d with narrow | wide
  · left
    rw [projected?_of_lt columns narrow]
    exact ⟨narrow, rfl⟩
  · right
    obtain ⟨projected, returned, -⟩ := projected?_of_le columns wide configs v
    obtain ⟨picked, found, length⟩ := mapM_getElem? (List.ofFn configs)
      (GridSelect.gridSelect projected k)
      (by rw [List.length_ofFn]
          exact fun i => GridSelect.lt_of_mem_gridSelect projected)
    rw [returned]
    exact ⟨wide, picked, found, length.trans (GridSelect.length_gridSelect projected more)⟩

/-- In the coordinates of the decomposition: a row of `V` and a column give the same
inner products with the data exactly when they agree on the singular vectors in which
the data vary. -/
theorem ThinSvd.row_eq_column_iff {data : Fin n → Fin d → F} (svd : ThinSvd data) (wide : d ≤ n)
    {j : Nat} (inside : j < d) :
    (∀ i, ∑ l : Fin d, data i l * svd.v j l = ∑ l : Fin d, data i l * svd.v l j) ↔
      ∀ t < d, svd.s t ≠ 0 → ∑ l : Fin d, svd.v j l * svd.v l t = if j = t then 1 else 0 := by
  have thin : min n d = d := Nat.min_eq_right wide
  have column : ∀ t < d, ∑ l : Fin d, svd.v l t * svd.v l j = if j = t then 1 else 0 := by
    intro t below
    rw [svd.v_orthonormal t (by omega) j (by omega)]
    exact if_congr eq_comm rfl rfl
  have swapped : ∀ t, ∑ l : Fin d, svd.v l t * svd.v j l = ∑ l : Fin d, svd.v j l * svd.v l t :=
    fun t => Finset.sum_congr rfl fun l _ => mul_comm _ _
  have row : ∀ i, ∑ l : Fin d, data i l * svd.v j l =
      ∑ t ∈ Finset.range (min n d), svd.u i t * (svd.s t * ∑ l : Fin d, svd.v j l * svd.v l t) := by
    intro i
    rw [svd.data_mul]
    exact Finset.sum_congr rfl fun t _ => by rw [swapped]
  constructor
  · intro same t below varies
    have vanishes : ∀ i, ∑ t ∈ Finset.range (min n d), svd.u i t *
        (svd.s t * (∑ l : Fin d, svd.v j l * svd.v l t - ∑ l : Fin d, svd.v l t * svd.v l j)) =
          0 := by
      intro i
      have difference := sub_eq_zero.mpr (same i)
      rw [row, svd.data_mul, ← Finset.sum_sub_distrib] at difference
      rw [← difference]
      refine Finset.sum_congr rfl fun t _ => ?_
      ring
    have zero := svd.independent
      (c := fun t => svd.s t *
        (∑ l : Fin d, svd.v j l * svd.v l t - ∑ l : Fin d, svd.v l t * svd.v l j))
      vanishes (t := t) (by omega)
    rw [← column t below]
    exact sub_eq_zero.mp ((mul_eq_zero.mp zero).resolve_left varies)
  · intro agree i
    rw [row, svd.data_mul]
    refine Finset.sum_congr rfl fun t member => ?_
    have below : t < d := by
      have := Finset.mem_range.mp member
      omega
    by_cases flat : svd.s t = 0
    · rw [flat, zero_mul, zero_mul]
    · rw [agree t below flat, column t below]

/-- The projection is that on the principal components exactly when there are at
least as many configurations as parameters and each row of `V` that is read meets
the singular vectors in which the data vary as its column would: it is one with its
own and orthogonal to the others. -/
theorem projects_on_components_iff {k : Nat} (more : k < n) (columns : 1 ≤ d)
    (configs : Fin n → Fin d → F) (svd : ThinSvd (centre configs)) :
    ((selectRepresentative configs k (some svd.vTo)).isSome ↔ d ≤ n) ∧
    (ProjectsOnComponents configs svd.vTo ↔
      d ≤ n ∧ ∀ j < min 2 d, ∀ t < d, svd.s t ≠ 0 →
        ∑ l : Fin d, svd.v j l * svd.v l t = if j = t then 1 else 0) := by
  have outcome : (selectRepresentative configs k (some svd.vTo)).isSome ↔ d ≤ n := by
    rcases selectRepresentative_cases more columns configs svd.v with
      ⟨narrow, panics⟩ | ⟨wide, picked, returned, -⟩
    · rw [ThinSvd.vTo, panics]
      exact ⟨(by intro none; cases none), fun wide => absurd narrow (Nat.not_lt.mpr wide)⟩
    · rw [ThinSvd.vTo, returned]
      exact ⟨fun _ => wide, fun _ => rfl⟩
  refine ⟨outcome, ?_⟩
  have two : numPC d = min 2 d := by
    unfold numPC
    split <;> omega
  by_cases wide : d ≤ n
  · obtain ⟨projected, returned, entries⟩ := projected?_of_le columns wide configs svd.v
    have rows : (∀ i j, projected i j = ∑ l : Fin d, centre configs i l * svd.v l j) ↔
        ∀ j < min 2 d, ∀ t < d, svd.s t ≠ 0 →
          ∑ l : Fin d, svd.v j l * svd.v l t = if j = t then 1 else 0 := by
      constructor
      · intro components j below
        refine (svd.row_eq_column_iff wide (by omega)).mp fun i => ?_
        exact (entries i ⟨j, by omega⟩).symm.trans (components i ⟨j, by omega⟩)
      · intro agree i j
        have below : j.val < min 2 d := by
          have := j.isLt
          omega
        rw [entries]
        exact (svd.row_eq_column_iff wide (by omega)).mpr (agree j below) i
    constructor
    · rintro ⟨other, returned', components⟩
      have same : projected = other := by
        have equal := returned.symm.trans returned'
        cases equal
        rfl
      subst same
      exact ⟨wide, rows.mp components⟩
    · rintro ⟨-, agree⟩
      exact ⟨projected, returned, rows.mpr agree⟩
  · constructor
    · rintro ⟨projected, returned, -⟩
      rw [ThinSvd.vTo, projected?_of_lt columns (Nat.not_le.mp wide)] at returned
      cases returned
    · rintro ⟨wide', -⟩
      exact absurd wide' wide

/-! ## Where it fails -/

/-- Four configurations of two parameters, centred already. -/
def fourConfigs : Fin 4 → Fin 2 → Rat := fun i j =>
  (([[2, 11], [-10, -5], [10, 5], [-2, -11]] : List (List Rat)).getD i []).getD j 0

def fourSvd : ThinSvd (centre fourConfigs) where
  u i t := (([[1, 1], [-1, 1], [1, -1], [-1, -1]] : List (List Rat)).getD i []).getD t 0 / 2
  s t := ([20, 10] : List Rat).getD t 0
  v l t := (([[3, -4], [4, 3]] : List (List Rat)).getD l []).getD t 0 / 5
  factors := by decide +kernel
  u_orthonormal := by decide +kernel
  v_orthonormal := by decide +kernel
  nonneg := by decide +kernel
  descending := by decide +kernel

/-- Four configurations of five parameters. -/
def wideConfigs : Fin 4 → Fin 5 → Rat := fun i j =>
  (([[3, 2, 1], [-3, 2, -1], [3, -2, -1], [-3, -2, 1]] : List (List Rat)).getD i []).getD j 0

def wideSvd : ThinSvd (centre wideConfigs) where
  u i t := (([[1, 1, 1, 1], [-1, 1, -1, 1], [1, -1, -1, 1], [-1, -1, 1, 1]] :
    List (List Rat)).getD i []).getD t 0 / 2
  s t := ([6, 4, 2] : List Rat).getD t 0
  v l t := if l = t then 1 else 0
  factors := by decide +kernel
  u_orthonormal := by decide +kernel
  v_orthonormal := by decide +kernel
  nonneg := by decide +kernel
  descending := by decide +kernel

/-- With more parameters than configurations the basis is read out of range; with a
decomposition whose singular vectors are not symmetric, the first entry of the
projection is not the component of the first configuration. -/
theorem projection_off_components :
    selectRepresentative wideConfigs 2 (some wideSvd.vTo) = none ∧
      ¬ ProjectsOnComponents wideConfigs wideSvd.vTo ∧
      ¬ ProjectsOnComponents fourConfigs fourSvd.vTo := by
  have panics : projected? wideConfigs wideSvd.vTo = none :=
    projected?_of_lt (by decide) (by decide) wideConfigs wideSvd.v
  refine ⟨by rfl, ?_, ?_⟩
  · rintro ⟨projected, returned, -⟩
    rw [panics] at returned
    cases returned
  · rintro ⟨projected, returned, components⟩
    obtain ⟨other, returned', entries⟩ :=
      projected?_of_le (by decide) (by decide) fourConfigs fourSvd.v
    have same : other = projected := by
      have equal := returned'.symm.trans returned
      cases equal
      rfl
    subst same
    let first : Fin (numPC 2) := ⟨0, by decide⟩
    have row : other 0 first = -38 / 5 := (entries 0 first).trans (by decide +kernel)
    have component : other 0 first = 10 := (components 0 first).trans (by decide +kernel)
    rw [row] at component
    exact absurd component (by decide +kernel)

/-- Four configurations of one parameter. -/
def lineConfigs : Fin 4 → Fin 1 → Rat := fun i _ => if i.val < 2 then 1 else -1

def lineSvd : ThinSvd (centre lineConfigs) where
  u i _ := if i.val < 2 then 1 / 2 else -1 / 2
  s _ := 2
  v _ _ := 1
  factors := by decide +kernel
  u_orthonormal := by decide +kernel
  v_orthonormal := by decide +kernel
  nonneg := by decide +kernel
  descending := by decide +kernel

/-- With one parameter the only row is the only column. -/
theorem projects_on_components_of_one :
    (selectRepresentative lineConfigs 2 (some lineSvd.vTo)).isSome ∧
      ProjectsOnComponents lineConfigs lineSvd.vTo := by
  obtain ⟨returns, projects⟩ := projects_on_components_iff (k := 2) (by decide) (by decide)
    lineConfigs lineSvd
  exact ⟨returns.mpr (by decide), projects.mpr ⟨by decide, by decide +kernel⟩⟩

end Projection

end Pca

end NyaQueue
