import Mathlib.Data.Nat.Nth

/-!
Numbers taken from a set, always the least one. What has been taken after a while depends on how
many there were only. -/
namespace Lowest

variable {P Q R : Nat → Prop} [DecidablePred P] {s t : Nat}

/-- `Q` is `P` without its `s` least members. -/
def Without (P Q : Nat → Prop) [DecidablePred P] (s : Nat) : Prop := ∀ b, Q b ↔ P b ∧ s ≤ Nat.count P b

theorem Without.refl (P : Nat → Prop) [DecidablePred P] : Without P P 0 :=
  fun _ => (and_iff_left (Nat.zero_le _)).symm

theorem Without.of_least {b : Nat} (hb : P b) (hleast : ∀ c < b, ¬ P c) (hQ : ∀ c, Q c ↔ P c ∧ c ≠ b) :
    Without P Q 1 := by
  have hzero : Nat.count P b = 0 := Nat.count_iff_forall_not.mpr hleast
  intro c
  rw [hQ c, Nat.one_le_iff_ne_zero]
  refine and_congr_right fun hc => not_congr ⟨fun heq => by rw [heq, hzero], fun hcount => ?_⟩
  exact Nat.count_injective hc hb (hcount.trans hzero.symm)

variable [DecidablePred Q]

theorem Without.count (h : Without P Q s) (b : Nat) : Nat.count Q b = Nat.count P b - s := by
  induction b with
  | zero => rw [Nat.count_zero, Nat.count_zero, Nat.zero_sub]
  | succ b ih =>
      rw [Nat.count_succ, Nat.count_succ, ih]
      by_cases hP : P b
      · by_cases hs : s ≤ Nat.count P b
        · rw [if_pos hP, if_pos ((h b).mpr ⟨hP, hs⟩)]
          omega
        · rw [if_pos hP, if_neg fun hQ => hs ((h b).mp hQ).2]
          omega
      · rw [if_neg hP, if_neg fun hQ => hP ((h b).mp hQ).1]
        rfl

theorem Without.trans (h : Without P Q s) (h' : Without Q R t) : Without P R (s + t) := by
  intro b
  rw [h' b, h b, h.count b, and_assoc]
  refine and_congr_right fun _ => ?_
  omega

theorem Without.nth_zero (h : Without P Q s) (hsome : ∃ b, Q b) : Nat.nth Q 0 = Nat.nth P s := by
  have hmem : Q (Nat.nth Q 0) := by
    rw [Nat.nth_zero_of_exists hsome]
    exact Nat.find_spec hsome
  obtain ⟨hP, hs⟩ := (h _).mp hmem
  have hcount : Nat.count P (Nat.nth Q 0) = s := by
    have hzero := h.count (Nat.nth Q 0)
    rw [Nat.count_nth_zero] at hzero
    omega
  rw [← Nat.nth_count hP, hcount]

end Lowest
