import Mathlib

/-!
Fixed-width arithmetic over unbounded numbers. Unsigned words are naturals and
every operation that can overflow reduces its result with `wrap`; signed words are
integers reduced with `sint`. The point where the hardware wraps is visible in the
definition that uses it. -/
namespace Machine32

def wrap (n : Nat) : Nat := n % 2 ^ 32

def wsub (a b : Nat) : Nat := wrap (a + (2 ^ 32 - b % 2 ^ 32))

/-- Clearing the bits below a power of two `k`. -/
def alignDown (a k : Nat) : Nat := a / k * k

/-- Rounding up to a power of two `k` as `(a + k - 1) & ~(k - 1)` does: the sum
wraps before its low bits are cleared. -/
def alignUp (a k : Nat) : Nat := wrap (a + (k - 1)) / k * k

/-- The least multiple of `k` from `a` on, without overflow. -/
def roundUp (a k : Nat) : Nat := (a + (k - 1)) / k * k

/-- Reduction of an exact result to a signed 32-bit word in two's complement. -/
def sint (x : Int) : Int := x.bmod (2 ^ 32)

def u16 (x : Int) : UInt16 := UInt16.ofNat (x % 65536).toNat

theorem wrap_lt (n : Nat) : wrap n < 2 ^ 32 := Nat.mod_lt _ (by decide)

@[simp] theorem wrap_of_lt {n : Nat} (h : n < 2 ^ 32) : wrap n = n := Nat.mod_eq_of_lt h

theorem wrap_le (n : Nat) : wrap n ≤ n := Nat.mod_le _ _

theorem wsub_of_le {a b : Nat} (ha : a < 2 ^ 32) (h : b ≤ a) : wsub a b = a - b := by
  have hb : b % 2 ^ 32 = b := Nat.mod_eq_of_lt (lt_of_le_of_lt h ha)
  unfold wsub wrap
  omega

theorem alignDown_le (a k : Nat) : alignDown a k ≤ a := Nat.div_mul_le_self a k

theorem alignUp_of_lt {a k : Nat} (h : a + (k - 1) < 2 ^ 32) :
    alignUp a k = (a + (k - 1)) / k * k := by
  rw [alignUp, wrap_of_lt h]

theorem dvd_roundUp (a k : Nat) : k ∣ roundUp a k := Dvd.intro_left _ rfl

theorem le_roundUp (a : Nat) {k : Nat} (hk : 0 < k) : a ≤ roundUp a k := by
  have hsplit := Nat.div_add_mod (a + (k - 1)) k
  have hmod := Nat.mod_lt (a + (k - 1)) hk
  rw [Nat.mul_comm] at hsplit
  unfold roundUp
  omega

theorem roundUp_le {a k n : Nat} (hk : 0 < k) (ha : a ≤ n) (hn : k ∣ n) : roundUp a k ≤ n := by
  obtain ⟨q, rfl⟩ := hn
  have hlt : (a + (k - 1)) / k < q + 1 := by
    rw [Nat.div_lt_iff_lt_mul hk, Nat.succ_mul, Nat.mul_comm q]
    omega
  rw [roundUp, Nat.mul_comm k q]
  exact Nat.mul_le_mul_right _ (Nat.le_of_lt_succ hlt)

theorem alignUp_eq_roundUp {a k : Nat} (hk : 0 < k) (h : a + k ≤ 2 ^ 32) : alignUp a k = roundUp a k :=
  alignUp_of_lt (by omega)

theorem alignUp_eq_zero {a k : Nat} (ha : a < 2 ^ 32) (hk : k < 2 ^ 32) (h : 2 ^ 32 < a + k) :
    alignUp a k = 0 := by
  have hlt : wrap (a + (k - 1)) < k := by
    unfold wrap
    omega
  rw [alignUp, Nat.div_eq_of_lt hlt, Nat.zero_mul]

theorem sint_of_range {x : Int} (hlo : -2 ^ 31 ≤ x) (hhi : x < 2 ^ 31) : sint x = x := by
  unfold sint
  rw [Int.bmod_eq_of_le] <;> omega

theorem toNat_u16 (x : Int) : ((u16 x).toNat : Int) = x % 65536 := by
  have hlo := Int.emod_nonneg x (show (65536 : Int) ≠ 0 by decide)
  have hhi := Int.emod_lt_of_pos x (show (0 : Int) < 65536 by decide)
  rw [u16, UInt16.toNat_ofNat']
  omega

theorem toNat_u16_sint (x : Int) : ((u16 (sint x)).toNat : Int) = x % 65536 := by
  rw [toNat_u16, sint, Int.bmod_def]
  split <;> omega

theorem toNat_u16_of_range {x : Int} (hlo : 0 ≤ x) (hhi : x < 65536) : ((u16 x).toNat : Int) = x := by
  rw [toNat_u16, Int.emod_eq_of_lt hlo hhi]

end Machine32
