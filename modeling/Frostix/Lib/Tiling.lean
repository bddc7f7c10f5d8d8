import Mathlib

/-!
Lists of intervals that tile an interval: each starts where the one before it
ends. The intervals are the values of any type with a start and a length. -/
namespace Tiling

variable {β : Type*} {lo len : β → Nat}

/-- The intervals of the list cover `[s, e)` without gap or overlap, in order. -/
def Tiles (lo len : β → Nat) : Nat → List β → Nat → Prop
  | s, [], e => s = e
  | s, b :: bs, e => lo b = s ∧ Tiles lo len (s + len b) bs e

theorem Tiles.append {s e : Nat} {xs ys : List β} :
    Tiles lo len s (xs ++ ys) e ↔ ∃ mid, Tiles lo len s xs mid ∧ Tiles lo len mid ys e := by
  induction xs generalizing s with
  | nil => simp [Tiles]
  | cons x xs ih =>
      simp only [List.cons_append, Tiles, ih]
      constructor
      · rintro ⟨hlo, mid, hxs, hys⟩
        exact ⟨mid, ⟨hlo, hxs⟩, hys⟩
      · rintro ⟨mid, ⟨hlo, hxs⟩, hys⟩
        exact ⟨hlo, mid, hxs, hys⟩

theorem Tiles.le {s e : Nat} {bs : List β} (h : Tiles lo len s bs e) : s ≤ e := by
  induction bs generalizing s with
  | nil => exact Nat.le_of_eq h
  | cons b bs ih => exact le_trans (Nat.le_add_right s (len b)) (ih h.2)

theorem Tiles.end_unique {s e e' : Nat} {bs : List β} (h : Tiles lo len s bs e)
    (h' : Tiles lo len s bs e') : e = e' := by
  induction bs generalizing s with
  | nil => exact Eq.trans (Eq.symm h) h'
  | cons b bs ih => exact ih h.2 h'.2

theorem Tiles.mem_bounds {s e : Nat} {bs : List β} (h : Tiles lo len s bs e) {b : β}
    (hb : b ∈ bs) : s ≤ lo b ∧ lo b + len b ≤ e := by
  obtain ⟨xs, ys, rfl⟩ := List.mem_iff_append.mp hb
  obtain ⟨mid, hxs, hlo, hys⟩ := Tiles.append.mp h
  have hle := hxs.le
  have hle' := hys.le
  exact ⟨by omega, by omega⟩

theorem Tiles.around {s e : Nat} {xs ys : List β} {c : β}
    (h : Tiles lo len s (xs ++ c :: ys) e) :
    Tiles lo len s xs (lo c) ∧ Tiles lo len (lo c + len c) ys e ∧
      (∀ x ∈ xs, lo x + len x ≤ lo c) ∧ ∀ y ∈ ys, lo c + len c ≤ lo y := by
  obtain ⟨mid, hxs, rfl, hys⟩ := Tiles.append.mp h
  exact ⟨hxs, hys, fun x hx => (hxs.mem_bounds hx).2, fun y hy => (hys.mem_bounds hy).1⟩

theorem Tiles.eq_or_apart {s e : Nat} {bs : List β} (h : Tiles lo len s bs e) {b c : β}
    (hb : b ∈ bs) (hc : c ∈ bs) : b = c ∨ lo b + len b ≤ lo c ∨ lo c + len c ≤ lo b := by
  obtain ⟨xs, ys, rfl⟩ := List.mem_iff_append.mp hb
  obtain ⟨-, -, hbefore, hafter⟩ := h.around
  rcases List.mem_append.mp hc with hx | hy
  · exact Or.inr (Or.inr (hbefore c hx))
  · rcases List.mem_cons.mp hy with rfl | hy
    · exact Or.inl rfl
    · exact Or.inr (Or.inl (hafter c hy))

theorem Tiles.eq_of_lo {s e : Nat} {bs : List β} (h : Tiles lo len s bs e)
    (hpos : ∀ b, 0 < len b) {b c : β} (hb : b ∈ bs) (hc : c ∈ bs) (heq : lo b = lo c) : b = c := by
  have hbpos := hpos b
  have hcpos := hpos c
  rcases h.eq_or_apart hb hc with rfl | hapart | hapart
  · rfl
  · omega
  · omega

/-- Between multiples of `k`, all starts are multiples of `k` exactly if all lengths are. -/
theorem Tiles.dvd_lo_iff {s e k : Nat} {bs : List β} (h : Tiles lo len s bs e) (hs : k ∣ s) (he : k ∣ e) :
    (∀ b ∈ bs, k ∣ lo b) ↔ ∀ b ∈ bs, k ∣ len b := by
  induction bs generalizing s with
  | nil => simp
  | cons b bs ih =>
      obtain ⟨hlo, hrest⟩ := h
      have hiff : k ∣ s + len b → ((∀ c ∈ bs, k ∣ lo c) ↔ ∀ c ∈ bs, k ∣ len c) := ih hrest
      rw [List.forall_mem_cons, List.forall_mem_cons, hlo]
      constructor
      · rintro ⟨-, hall⟩
        have hmid : k ∣ s + len b := by
          cases bs with
          | nil => rwa [show s + len b = e from hrest]
          | cons c cs =>
              rw [← hrest.1]
              exact hall c List.mem_cons_self
        exact ⟨(Nat.dvd_add_right hs).mp hmid, (hiff hmid).mp hall⟩
      · rintro ⟨hb, hall⟩
        exact ⟨hs, (hiff (Nat.dvd_add hs hb)).mpr hall⟩

theorem Tiles.length_mul_le {s e k : Nat} {bs : List β} (h : Tiles lo len s bs e)
    (hmin : ∀ b, k ≤ len b) : s + bs.length * k ≤ e := by
  induction bs generalizing s with
  | nil => simpa using h.le
  | cons b bs ih =>
      have hrest := ih h.2
      have hb := hmin b
      rw [List.length_cons, Nat.succ_mul]
      omega

end Tiling
