import Mathlib

/-!
Left-to-right search for the lowest block of `count` consecutive positions that
satisfy a predicate, with one counter that is reset at every failing position. -/
namespace RunSearch

/-- `count` consecutive positions from `start` satisfy `free`. -/
def IsRun (free : Nat → Prop) (count start : Nat) : Prop := ∀ i < count, free (start + i)

/-- The run at `start` ends within `[0, n)` and no run begins below it. -/
structure LowestRun (free : Nat → Prop) (count n start : Nat) : Prop where
  run : IsRun free count start
  fits : start + count ≤ n
  lowest : ∀ s < start, ¬ IsRun free count s

/-- The state of the search before position `n`: the counter `found` is the
length of the free stretch that ends at `n`, and no run has been completed. -/
structure Scanned (free : Nat → Prop) (count n found : Nat) : Prop where
  short : found < count
  le : found ≤ n
  stretch : ∀ i, n - found ≤ i → i < n → free i
  maximal : found < n → ¬ free (n - found - 1)
  noRun : ∀ s, s + count ≤ n → ¬ IsRun free count s

theorem Scanned.zero {free : Nat → Prop} {count : Nat} (h : 0 < count) :
    Scanned free count 0 0 := by
  refine ⟨h, le_rfl, ?_, ?_, ?_⟩
  · intro i _ hi
    omega
  · intro hi
    omega
  · intro s hs
    omega

theorem Scanned.reset {free : Nat → Prop} {count n found : Nat}
    (h : Scanned free count n found) (hn : ¬ free n) : Scanned free count (n + 1) 0 := by
  refine ⟨by have := h.short; omega, by omega, ?_, ?_, ?_⟩
  · intro i _ _
    omega
  · intro _
    simpa using hn
  · intro s hs hrun
    by_cases hlast : s + count ≤ n
    · exact h.noRun s hlast hrun
    · have hc := h.short
      have hfree := hrun (n - s) (by omega)
      rw [show s + (n - s) = n by omega] at hfree
      exact hn hfree

/-- A free position either lengthens the stretch or completes the lowest run. -/
theorem Scanned.advance {free : Nat → Prop} {count n found : Nat}
    (h : Scanned free count n found) (hn : free n) :
    (found + 1 < count ∧ Scanned free count (n + 1) (found + 1)) ∨
      (found + 1 = count ∧ LowestRun free count (n + 1) (n + 1 - count)) := by
  have hs := h.short
  have hle := h.le
  have stretch : ∀ i, n - found ≤ i → i < n + 1 → free i := by
    intro i hi hin
    rcases Nat.lt_succ_iff_lt_or_eq.mp hin with hlt | rfl
    · exact h.stretch i hi hlt
    · exact hn
  have noRun : ∀ s, s + count ≤ n + 1 → s < n - found → ¬ IsRun free count s := by
    intro s hsn hlt hrun
    by_cases hin : s + count ≤ n
    · exact h.noRun s hin hrun
    · have hbad := h.maximal (by omega)
      have hfree := hrun (n - found - 1 - s) (by omega)
      rw [show s + (n - found - 1 - s) = n - found - 1 by omega] at hfree
      exact hbad hfree
  by_cases hlast : found + 1 = count
  · refine Or.inr ⟨hlast, ?_, by omega, ?_⟩
    · intro i hi
      exact stretch _ (by omega) (by omega)
    · intro s hlt
      exact noRun s (by omega) (by omega)
  · refine Or.inl ⟨by omega, by omega, by omega, ?_, ?_, ?_⟩
    · intro i hi hin
      exact stretch i (by omega) hin
    · intro hlt
      have hbad := h.maximal (by omega)
      rwa [show n + 1 - (found + 1) - 1 = n - found - 1 by omega]
    · intro s hsn
      by_cases hlt : s < n - found
      · exact noRun s hsn hlt
      · omega

theorem LowestRun.mono {free : Nat → Prop} {count n m start : Nat}
    (h : LowestRun free count n start) (hnm : n ≤ m) : LowestRun free count m start :=
  ⟨h.run, h.fits.trans hnm, h.lowest⟩

end RunSearch
