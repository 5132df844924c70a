import Mathlib.Algebra.Order.Round
import Mathlib.Data.List.GetD
import Mathlib.Data.List.Sort
import Mathlib.Data.Rat.Floor

/-!
# Percentiles of a sample

The value at a rounded rank of the sorted sample, over any linear order.  Three facts make
it a percentile: the rank stays inside the sample, a higher quantile has no lower value,
and the order in which the sample was taken does not matter.
-/

namespace Percentile

/-- Round to the nearest integer, ties away from zero. -/
def roundHalfAway (x : ℚ) : ℤ := if 0 ≤ x then ⌊x + 1 / 2⌋ else ⌈x - 1 / 2⌉

theorem roundHalfAway_of_nonneg {x : ℚ} (h : 0 ≤ x) : roundHalfAway x = ⌊x + 1 / 2⌋ := if_pos h

/-- Rounding is monotone above zero. -/
theorem roundHalfAway_mono {x y : ℚ} (hx : 0 ≤ x) (hxy : x ≤ y) :
    roundHalfAway x ≤ roundHalfAway y := by
  rw [roundHalfAway_of_nonneg hx, roundHalfAway_of_nonneg (hx.trans hxy)]
  exact Int.floor_le_floor (by linarith)

/-- The rank of the quantile `q` in a sample of size `n`. -/
def rank (q : ℚ) (n : Nat) : Nat := min (roundHalfAway (q * ((n - 1 : Nat) : ℚ))).toNat (n - 1)

theorem rank_lt {q : ℚ} {n : Nat} (hn : 0 < n) : rank q n < n := by
  have hle : rank q n ≤ n - 1 := Nat.min_le_right _ _
  omega

theorem rank_mono {q q' : ℚ} (hq : 0 ≤ q) (hqq' : q ≤ q') (n : Nat) : rank q n ≤ rank q' n := by
  have hsize : (0 : ℚ) ≤ ((n - 1 : Nat) : ℚ) := Nat.cast_nonneg _
  have hround := roundHalfAway_mono (mul_nonneg hq hsize) (mul_le_mul_of_nonneg_right hqq' hsize)
  exact min_le_min_right _ (Int.toNat_le_toNat hround)

section Sample

variable {α : Type*} [LE α] [DecidableLE α]

/-- The sample in ascending order. -/
def sorted (sample : List α) : List α := sample.insertionSort (· ≤ ·)

theorem length_sorted (sample : List α) : (sorted sample).length = sample.length :=
  List.length_insertionSort _ _

theorem mem_sorted {sample : List α} {x : α} : x ∈ sorted sample ↔ x ∈ sample :=
  List.mem_insertionSort _

theorem sorted_getD_mem (sample : List α) (default : α) {i : Nat} (hi : i < sample.length) :
    (sorted sample).getD i default ∈ sample := by
  have hi' : i < (sorted sample).length := by rwa [length_sorted]
  rw [List.getD_eq_getElem _ _ hi']
  exact mem_sorted.mp (List.getElem_mem hi')

variable [Std.IsLinearOrder α]

/-- The order of the sample does not matter. -/
theorem sorted_eq_of_perm {sample sample' : List α} (h : sample.Perm sample') :
    sorted sample = sorted sample' := by
  have hperm : (sorted sample).Perm (sorted sample') :=
    (List.perm_insertionSort _ sample).trans (h.trans (List.perm_insertionSort _ sample').symm)
  exact hperm.eq_of_pairwise' (List.pairwise_insertionSort _ sample)
    (List.pairwise_insertionSort _ sample')

/-- A later place of the sorted sample holds no smaller value. -/
theorem sorted_getD_le (sample : List α) (default : α) {i j : Nat} (hij : i ≤ j)
    (hj : j < sample.length) :
    (sorted sample).getD i default ≤ (sorted sample).getD j default := by
  have hj' : j < (sorted sample).length := by rwa [length_sorted]
  have hi' : i < (sorted sample).length := Nat.lt_of_le_of_lt hij hj'
  rw [List.getD_eq_getElem _ _ hi', List.getD_eq_getElem _ _ hj']
  rcases Nat.lt_or_eq_of_le hij with hlt | heq
  · exact List.pairwise_iff_getElem.mp (List.pairwise_insertionSort (· ≤ ·) sample) i j hi' hj' hlt
  · simp only [heq]
    exact Std.le_refl _

end Sample

end Percentile
