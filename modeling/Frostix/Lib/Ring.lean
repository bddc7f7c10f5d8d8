import Mathlib

/-! Ring buffers: a fixed number of slots and two indices that go around. Head and tail
are equal when the ring is empty, so one slot always stays unused. -/
namespace Ring

variable {α : Type*} {N : Nat} [NeZero N]

/-- The contents of `n` slots from `head` on. -/
def window (slots : Fin N → α) (head : Fin N) (n : Nat) : List α :=
  (List.range n).map fun i => slots (head + Fin.ofNat N i)

def count (head tail : Fin N) : Nat := (tail - head).val

theorem length_window (slots : Fin N → α) (head : Fin N) (n : Nat) :
    (window slots head n).length = n := by
  simp [window]

omit [NeZero N] in
theorem count_lt (head tail : Fin N) : count head tail < N := (tail - head).isLt

theorem add_count (head tail : Fin N) : head + Fin.ofNat N (count head tail) = tail := by
  rw [count, Fin.ofNat_val_eq_self]
  exact add_sub_cancel head tail

theorem count_eq_zero {head tail : Fin N} : count head tail = 0 ↔ head = tail := by
  rw [count, Fin.val_eq_zero_iff, sub_eq_zero, eq_comm]

theorem add_ofNat_ne {head : Fin N} {i j : Nat} (hi : i < N) (hj : j < N) (hne : i ≠ j) :
    head + Fin.ofNat N i ≠ head + Fin.ofNat N j := by
  intro heq
  have hval := congrArg Fin.val (add_left_cancel heq)
  simp only [Fin.val_ofNat, Nat.mod_eq_of_lt hi, Nat.mod_eq_of_lt hj] at hval
  exact hne hval

theorem window_update (slots : Fin N → α) (head : Fin N) {n k : Nat} (hk : k < N) (hn : n ≤ k) (c : α) :
    window (Function.update slots (head + Fin.ofNat N k) c) head n = window slots head n := by
  refine List.map_congr_left fun i hi => ?_
  have hlt := List.mem_range.mp hi
  exact Function.update_of_ne (add_ofNat_ne (by omega) hk (by omega)) _ _

theorem window_succ (slots : Fin N → α) (head : Fin N) (n : Nat) :
    window slots head (n + 1) = slots head :: window slots (head + 1) n := by
  unfold window
  rw [List.range_succ_eq_map, List.map_cons, List.map_map]
  congr 1
  · congr 1
    exact add_zero head
  · refine List.map_congr_left fun i _ => ?_
    have hsucc : Fin.ofNat N (i + 1) = 1 + Fin.ofNat N i := by
      apply Fin.ext
      simp [Fin.val_add, Nat.add_comm]
    change slots (head + Fin.ofNat N (i + 1)) = slots (head + 1 + Fin.ofNat N i)
    rw [hsucc, add_assoc]

theorem window_push (slots : Fin N → α) {head tail : Fin N} (c : α) :
    window (Function.update slots tail c) head (count head tail + 1) =
      window slots head (count head tail) ++ [c] := by
  have hlt := count_lt head tail
  have hlast : window (Function.update slots tail c) head (count head tail) =
      window slots head (count head tail) := by
    have h := window_update slots head hlt le_rfl c
    rwa [add_count] at h
  unfold window at hlast ⊢
  rw [List.range_succ, List.map_append, hlast, List.map_singleton, add_count, Function.update_self]

theorem count_push {head tail : Fin N} (hroom : count head tail + 1 < N) :
    count head (tail + 1) = count head tail + 1 := by
  unfold count at hroom ⊢
  rw [add_sub_right_comm, Fin.val_add, Fin.val_one', Nat.mod_eq_of_lt (by omega : 1 < N),
    Nat.mod_eq_of_lt hroom]

theorem count_push_full {head tail : Fin N} (hfull : count head tail + 1 = N) :
    count head (tail + 1) = 0 := by
  unfold count at hfull ⊢
  rw [add_sub_right_comm, Fin.val_add]
  rcases Nat.lt_or_ge 1 N with hlt | hge
  · rw [Fin.val_one', Nat.mod_eq_of_lt hlt, hfull, Nat.mod_self]
  · have hone : N = 1 := by omega
    subst hone
    exact Nat.mod_one _

theorem count_pop {head tail : Fin N} (hne : head ≠ tail) :
    count (head + 1) tail + 1 = count head tail := by
  have hpos := Nat.pos_of_ne_zero fun h => hne (count_eq_zero.mp h)
  have hlt := count_lt head tail
  unfold count at hpos hlt ⊢
  rw [← sub_sub, Fin.val_sub_one_of_ne_zero]
  · omega
  · exact Fin.pos_iff_ne_zero.mp hpos

end Ring
