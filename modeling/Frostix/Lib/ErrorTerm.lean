import Mathlib

/-!
Drawing with an error term. Every step goes on by one along the long axis, of length `M`,
and lowers the error by the length `m` of the short one; when it would become negative, the
step also goes on along the short axis and raises the error by `M`. -/
namespace ErrorTerm

/-- The error after `k` steps along the long and `j` along the short axis. -/
structure Balanced (M m k j err : Int) : Prop where
  nonneg : 0 ≤ err
  lt : err < M
  sum : err = M / 2 - k * m + j * M

variable {M m k j err : Int}

theorem Balanced.start (hM : 0 < M) : Balanced M m 0 0 (M / 2) := ⟨by omega, by omega, by simp⟩

theorem Balanced.longStep (h : Balanced M m k j err) (hm : 0 ≤ m) (hle : m ≤ err) :
    Balanced M m (k + 1) j (err - m) := by
  have hlt := h.lt
  refine ⟨by omega, by omega, ?_⟩
  rw [h.sum]
  ring

theorem Balanced.bothStep (h : Balanced M m k j err) (hm : m ≤ M) (hlt : err < m) :
    Balanced M m (k + 1) (j + 1) (err - m + M) := by
  have hnonneg := h.nonneg
  refine ⟨by omega, by omega, ?_⟩
  rw [h.sum]
  ring

theorem Balanced.range (h : Balanced M m k j err) (hm : 0 ≤ m) (hk : 0 ≤ k) (hkM : k ≤ M) : 0 ≤ j ∧ j ≤ m := by
  have hnonneg := h.nonneg
  have hlt := h.lt
  have hsum := h.sum
  have hM : 0 < M := by omega
  have hlo : 0 ≤ k * m := Int.mul_nonneg hk hm
  have hhi : k * m ≤ M * m := Int.mul_le_mul_of_nonneg_right hkM hm
  constructor
  · by_contra hneg
    have hj : j * M ≤ -1 * M := Int.mul_le_mul_of_nonneg_right (by omega) hM.le
    omega
  · by_contra hbig
    have hj : (m + 1) * M ≤ j * M := Int.mul_le_mul_of_nonneg_right (by omega) hM.le
    rw [Int.add_mul, Int.one_mul, Int.mul_comm m M] at hj
    omega

theorem Balanced.arrives (h : Balanced M m M j err) : j = m := by
  have hnonneg := h.nonneg
  have hlt := h.lt
  have hM : 0 < M := by omega
  have hsum : err = M / 2 + (j - m) * M := by
    rw [h.sum]
    ring
  rcases lt_trichotomy j m with hless | heq | hmore
  · have hj : (j - m) * M ≤ -1 * M := Int.mul_le_mul_of_nonneg_right (by omega) hM.le
    omega
  · exact heq
  · have hj : 1 * M ≤ (j - m) * M := Int.mul_le_mul_of_nonneg_right (by omega) hM.le
    omega

end ErrorTerm
