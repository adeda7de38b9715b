import Mathlib.Algebra.Order.Field.Basic
import Mathlib.Data.List.Sort
import Mathlib.Data.Rat.Cast.Order
import Mathlib.Tactic.NormNum

/-!
# Grid selection

Model of `gridSelect` (`pkg/preprocessing/pca.go`) in exact arithmetic: the
bounding box of the projected points is covered by a square grid of targets, and
each target takes the nearest point that no earlier one has taken.
-/

set_option autoImplicit false

namespace NyaQueue

namespace GridSelect

/-- `int(math.Ceil(math.Sqrt(float64(k))))` -/
def ceilSqrt (k : Nat) : Nat := if k.sqrt * k.sqrt = k then k.sqrt else k.sqrt + 1

variable {F : Type} [Field F] [LinearOrder F] {n numPC : Nat}

/-- The loop that lowers `mins[j]`, which starts at infinity. -/
def least : List F → Option F → Option F
  | [], best => best
  | v :: rest, none => least rest (some v)
  | v :: rest, some best => least rest (some (if v < best then v else best))

/-- The loop that raises `maxs[j]`. -/
def greatest : List F → Option F → Option F
  | [], best => best
  | v :: rest, none => greatest rest (some v)
  | v :: rest, some best => greatest rest (some (if best < v then v else best))

/-- Coordinate `j` of a target, at step `i` of `gridSize`; without points there is
no box, and no point to select either. -/
def coordinate (projected : Fin n → Fin numPC → F) (gridSize : Nat) (j : Fin numPC) (i : Nat) :
    F :=
  let values := (List.finRange n).map fun row => projected row j
  let low := (least values none).getD 0
  let high := (greatest values none).getD 0
  low + (high - low) * i / gridSize

/-- The target in row `i` and column `j` of the grid; further coordinates stay zero. -/
def target (projected : Fin n → Fin numPC → F) (gridSize i j : Nat) : Fin numPC → F := fun axis =>
  if axis.val = 0 then coordinate projected gridSize axis i
  else if axis.val = 1 then coordinate projected gridSize axis j
  else 0

def targets (projected : Fin n → Fin numPC → F) (gridSize : Nat) : List (Fin numPC → F) :=
  (List.range gridSize).flatMap fun i => (List.range gridSize).map fun j =>
    target projected gridSize i j

/-- The squared distance of a point to a target. -/
def dist (projected : Fin n → Fin numPC → F) (t : Fin numPC → F) (i : Fin n) : F :=
  (List.finRange numPC).foldl (fun sum j => sum + (projected i j - t j) * (projected i j - t j)) 0

/-- The search for the nearest point, with `bestIdx` and `bestDist` once there are
any; `used` has the points selected so far. -/
def nearestFrom (distance : Fin n → F) (used : List (Fin n)) :
    List (Fin n) → Option (Fin n × F) → Option (Fin n × F)
  | [], best => best
  | i :: rest, best =>
      if i ∈ used then nearestFrom distance used rest best
      else if best.all fun b => distance i < b.2 then
        nearestFrom distance used rest (some (i, distance i))
      else nearestFrom distance used rest best

def nearest (distance : Fin n → F) (used : List (Fin n)) : Option (Fin n) :=
  (nearestFrom distance used (List.finRange n) none).map Prod.fst

/-- The loop over the targets. -/
def selectFrom (projected : Fin n → Fin numPC → F) (k : Nat) :
    List (Fin numPC → F) → List (Fin n) → List (Fin n)
  | [], selected => selected
  | t :: rest, selected =>
      if k ≤ selected.length then selected
      else
        match nearest (dist projected t) selected with
        | none => selectFrom projected k rest selected
        | some i => selectFrom projected k rest (selected ++ [i])

def gridSelect (projected : Fin n → Fin numPC → F) (k : Nat) : List Nat :=
  ((selectFrom projected k (targets projected (ceilSqrt k)) []).map Fin.val).insertionSort (· ≤ ·)

/-! ## The grid -/

theorem le_ceilSqrt_mul_self (k : Nat) : k ≤ ceilSqrt k * ceilSqrt k := by
  unfold ceilSqrt
  split
  · rename_i square
    exact square.ge
  · exact (Nat.lt_succ_sqrt k).le

theorem length_targets (projected : Fin n → Fin numPC → F) (gridSize : Nat) :
    (targets projected gridSize).length = gridSize * gridSize := by
  simp [targets]

theorem targets_cons {projected : Fin n → Fin numPC → F} {gridSize : Nat} (positive : 0 < gridSize) :
    ∃ rest, targets projected gridSize = target projected gridSize 0 0 :: rest := by
  cases gridSize with
  | zero => exact absurd positive (Nat.lt_irrefl 0)
  | succ g =>
    unfold targets
    rw [List.range_succ_eq_map, List.flatMap_cons, List.map_cons]
    exact ⟨_, rfl⟩

/-! ## The nearest point -/

section Nearest

variable {distance : Fin n → F} {used : List (Fin n)}

/-- What the search knows of the points it has seen. -/
inductive Incumbent (distance : Fin n → F) (used seen : List (Fin n)) : Option (Fin n × F) → Prop
  | empty (taken : ∀ i ∈ seen, i ∈ used) : Incumbent distance used seen none
  | held {b : Fin n} (free : b ∉ used) (closest : ∀ i ∈ seen, i ∉ used → distance b ≤ distance i) :
      Incumbent distance used seen (some (b, distance b))

omit [Field F] in
theorem nearestFrom_incumbent (rest : List (Fin n)) : ∀ (seen : List (Fin n))
    (best : Option (Fin n × F)), Incumbent distance used seen best →
      Incumbent distance used (seen ++ rest) (nearestFrom distance used rest best) := by
  induction rest with
  | nil =>
    intro seen best incumbent
    rw [List.append_nil]
    exact incumbent
  | cons i rest ih =>
    intro seen best incumbent
    have grown : seen ++ i :: rest = seen ++ [i] ++ rest := by simp
    rw [grown, nearestFrom]
    split
    · rename_i taken
      apply ih
      cases incumbent with
      | empty all =>
        refine .empty fun i' seen' => ?_
        rcases List.mem_append.mp seen' with before | here
        · exact all i' before
        · rw [List.mem_singleton.mp here]
          exact taken
      | held free closest =>
        refine .held free fun i' seen' free' => ?_
        rcases List.mem_append.mp seen' with before | here
        · exact closest i' before free'
        · rw [List.mem_singleton.mp here] at free'
          exact absurd taken free'
    · rename_i free
      cases incumbent with
      | empty all =>
        rw [Option.all_none, if_pos rfl]
        apply ih
        refine .held free fun i' seen' free' => ?_
        rcases List.mem_append.mp seen' with before | here
        · exact absurd (all i' before) free'
        · rw [List.mem_singleton.mp here]
      | @held b kept closest =>
        split
        · rename_i nearer
          have nearer : distance i < distance b := by simpa using nearer
          apply ih
          refine .held free fun i' seen' free' => ?_
          rcases List.mem_append.mp seen' with before | here
          · exact nearer.le.trans (closest i' before free')
          · rw [List.mem_singleton.mp here]
        · rename_i farther
          have farther : distance b ≤ distance i := by simpa using farther
          apply ih
          refine .held kept fun i' seen' free' => ?_
          rcases List.mem_append.mp seen' with before | here
          · exact closest i' before free'
          · rw [List.mem_singleton.mp here]
            exact farther

omit [Field F] in
theorem nearest_spec (room : used.length < n) :
    ∃ i, nearest distance used = some i ∧ i ∉ used ∧ ∀ i' ∉ used, distance i ≤ distance i' := by
  have incumbent : Incumbent distance used (List.finRange n)
      (nearestFrom distance used (List.finRange n) none) :=
    nearestFrom_incumbent (List.finRange n) [] none (.empty (by simp))
  unfold nearest
  cases found : nearestFrom distance used (List.finRange n) none with
  | none =>
    rw [found] at incumbent
    cases incumbent with
    | empty taken =>
      have fits := (List.subperm_of_subset (List.nodup_finRange n) taken).length_le
      rw [List.length_finRange] at fits
      omega
  | some best =>
    rw [found] at incumbent
    cases incumbent with
    | held free closest =>
      exact ⟨_, rfl, free, fun i' free' => closest i' (List.mem_finRange i') free'⟩

end Nearest

/-! ## The loop over the targets -/

section Loop

variable {projected : Fin n → Fin numPC → F} {k : Nat}

theorem selectFrom_spec (room : k < n) (ts : List (Fin numPC → F)) : ∀ selected : List (Fin n),
    selected.Nodup → selected.length ≤ k →
      (selectFrom projected k ts selected).Nodup ∧
      (selectFrom projected k ts selected).length = min k (selected.length + ts.length) ∧
      selected <+: selectFrom projected k ts selected := by
  induction ts with
  | nil =>
    intro selected distinct few
    refine ⟨distinct, ?_, List.prefix_rfl⟩
    rw [selectFrom, List.length_nil]
    omega
  | cons t rest ih =>
    intro selected distinct few
    rw [selectFrom, List.length_cons]
    split
    · refine ⟨distinct, by omega, List.prefix_rfl⟩
    · rename_i wanted
      obtain ⟨i, found, free, -⟩ : ∃ i, nearest (dist projected t) selected = some i ∧
          i ∉ selected ∧ ∀ i' ∉ selected, dist projected t i ≤ dist projected t i' :=
        nearest_spec (by omega)
      have distinct' : (selected ++ [i]).Nodup := by
        refine List.nodup_append.mpr ⟨distinct, List.nodup_singleton i, ?_⟩
        intro a member b single same
        rw [List.mem_singleton.mp single] at same
        exact free (same ▸ member)
      have size : (selected ++ [i]).length = selected.length + 1 := by simp
      obtain ⟨nodup, length, extends'⟩ := ih (selected ++ [i]) distinct' (by omega)
      rw [found]
      refine ⟨nodup, ?_, (List.prefix_append selected [i]).trans extends'⟩
      rw [length, size]
      congr 1
      omega

theorem selectFrom_first (wanted : 1 ≤ k) (room : k < n) (t : Fin numPC → F)
    (rest : List (Fin numPC → F)) :
    ∃ i ∈ selectFrom projected k (t :: rest) [],
      ∀ i', dist projected t i ≤ dist projected t i' := by
  obtain ⟨i, found, -, closest⟩ : ∃ i, nearest (dist projected t) [] = some i ∧ i ∉ [] ∧
      ∀ i' ∉ [], dist projected t i ≤ dist projected t i' :=
    nearest_spec (show ([] : List (Fin n)).length < n from Nat.lt_of_le_of_lt (Nat.zero_le k) room)
  have first : selectFrom projected k (t :: rest) [] = selectFrom projected k rest [i] := by
    rw [selectFrom, if_neg (by simp; omega), found]
    rfl
  obtain ⟨-, -, kept⟩ := selectFrom_spec room rest [i] (List.nodup_singleton i) wanted
  rw [first]
  exact ⟨i, kept.subset (List.mem_singleton_self i), fun i' => closest i' List.not_mem_nil⟩

end Loop

section Selection

variable (projected : Fin n → Fin numPC → F) {k : Nat}

theorem mem_gridSelect (i : Nat) : i ∈ gridSelect projected k ↔
    ∃ point ∈ selectFrom projected k (targets projected (ceilSqrt k)) [], point.val = i := by
  rw [gridSelect, List.mem_insertionSort, List.mem_map]

theorem lt_of_mem_gridSelect {i : Nat} (member : i ∈ gridSelect projected k) : i < n := by
  obtain ⟨point, -, rfl⟩ := (mem_gridSelect projected i).mp member
  exact point.isLt

theorem selectFrom_targets (room : k < n) :
    (selectFrom projected k (targets projected (ceilSqrt k)) []).Nodup ∧
    (selectFrom projected k (targets projected (ceilSqrt k)) []).length = k := by
  obtain ⟨distinct, length, -⟩ : (selectFrom projected k (targets projected (ceilSqrt k)) []).Nodup ∧
      (selectFrom projected k (targets projected (ceilSqrt k)) []).length =
        min k (0 + (targets projected (ceilSqrt k)).length) ∧ _ :=
    selectFrom_spec room _ [] List.nodup_nil (Nat.zero_le k)
  have enough := le_ceilSqrt_mul_self k
  rw [length_targets] at length
  exact ⟨distinct, by omega⟩

theorem length_gridSelect (room : k < n) : (gridSelect projected k).length = k := by
  rw [gridSelect, List.length_insertionSort, List.length_map]
  exact (selectFrom_targets projected room).2

theorem gridSelect_increasing (room : k < n) : (gridSelect projected k).Pairwise (· < ·) := by
  have sorted := List.pairwise_insertionSort (· ≤ ·)
    ((selectFrom projected k (targets projected (ceilSqrt k)) []).map Fin.val)
  have nodup : (gridSelect projected k).Nodup := (List.perm_insertionSort _ _).nodup_iff.mpr
    ((selectFrom_targets projected room).1.map Fin.val_injective)
  exact (sorted.and nodup).imp fun both => Nat.lt_of_le_of_ne both.1 both.2

/-- Of more than `k` points exactly `k` are selected, in increasing order, and one
nearest to the first target is among them. -/
theorem gridSelect_selects (wanted : 1 ≤ k) (room : k < n) :
    (gridSelect projected k).Pairwise (· < ·) ∧ (gridSelect projected k).length = k ∧
    (∀ i ∈ gridSelect projected k, i < n) ∧
    ∃ first rest, targets projected (ceilSqrt k) = first :: rest ∧
      ∃ i : Fin n, i.val ∈ gridSelect projected k ∧
        ∀ i', dist projected first i ≤ dist projected first i' := by
  refine ⟨gridSelect_increasing projected room, length_gridSelect projected room,
    fun i => lt_of_mem_gridSelect projected, ?_⟩
  have enough := le_ceilSqrt_mul_self k
  have positive : 0 < ceilSqrt k := by
    by_contra none
    have zero : ceilSqrt k = 0 := by omega
    rw [zero] at enough
    omega
  obtain ⟨rest, grid⟩ : ∃ rest, targets projected (ceilSqrt k) =
      target projected (ceilSqrt k) 0 0 :: rest := targets_cons positive
  refine ⟨_, rest, grid, ?_⟩
  obtain ⟨i, member, closest⟩ : ∃ i ∈ selectFrom projected k
      (target projected (ceilSqrt k) 0 0 :: rest) [],
      ∀ i', dist projected (target projected (ceilSqrt k) 0 0) i ≤
        dist projected (target projected (ceilSqrt k) 0 0) i' :=
    selectFrom_first wanted room _ rest
  refine ⟨i, (mem_gridSelect projected i).mpr ⟨i, ?_, rfl⟩, closest⟩
  rw [grid]
  exact member

end Selection

/-- Two of three points on a line. -/
theorem gridSelect_selects_two :
    gridSelect (fun (i : Fin 3) (_ : Fin 1) => ([4, 1, 2] : List Rat).getD i 0) 2 = [1, 2] ∧
      (gridSelect (fun (i : Fin 3) (_ : Fin 1) => ([4, 1, 2] : List Rat).getD i 0) 2).length = 2 :=
  ⟨by decide +kernel, (gridSelect_selects _ (by decide) (by decide)).2.1⟩

end GridSelect

end NyaQueue
