import Frostix.Lib.Loop

/-!
Byte-addressed memory with little-endian 32-bit accesses at any alignment. Every
store comes with the value read back and with a frame lemma. -/
namespace ByteMemory

abbrev Mem := Nat → BitVec 8

/-- The four bytes from `a`, least significant first. -/
def load32 (m : Mem) (a : Nat) : Nat :=
  (m a).toNat + 2 ^ 8 * (m (a + 1)).toNat + 2 ^ 16 * (m (a + 2)).toNat + 2 ^ 24 * (m (a + 3)).toNat

def load64 (m : Mem) (a : Nat) : Nat := load32 m a + 2 ^ 32 * load32 m (a + 4)

/-- The byte of `v` with weight `2 ^ (8 * i)`. -/
def byteOf (v i : Nat) : BitVec 8 := BitVec.ofNat 8 (v / 2 ^ (8 * i))

def store32 (m : Mem) (a v : Nat) : Mem := fun x =>
  if a ≤ x ∧ x < a + 4 then byteOf v (x - a) else m x

def store8 (m : Mem) (a : Nat) (b : BitVec 8) : Mem := fun x => if x = a then b else m x

def memset (m : Mem) (a : Nat) (b : BitVec 8) (n : Nat) : Mem := fun x =>
  if a ≤ x ∧ x < a + n then b else m x

def memcpy (m : Mem) (dst src n : Nat) : Mem :=
  (List.range n).foldl (fun m i => store8 m (dst + i) (m (src + i))) m

/-- The memories agree on `[a, a + n)`. -/
def Same (m m' : Mem) (a n : Nat) : Prop := ∀ x, a ≤ x → x < a + n → m' x = m x

theorem Same.refl (m : Mem) (a n : Nat) : Same m m a n := fun _ _ _ => rfl

theorem Same.trans {m₁ m₂ m₃ : Mem} {a n : Nat} (h : Same m₁ m₂ a n) (h' : Same m₂ m₃ a n) :
    Same m₁ m₃ a n := fun x hlo hhi => (h' x hlo hhi).trans (h x hlo hhi)

theorem Same.mono {m m' : Mem} {a n b k : Nat} (h : Same m m' a n) (hlo : a ≤ b)
    (hhi : b + k ≤ a + n) : Same m m' b k := fun x hx hxn => h x (by omega) (by omega)

theorem load32_lt (m : Mem) (a : Nat) : load32 m a < 2 ^ 32 := by
  have h0 := (m a).isLt
  have h1 := (m (a + 1)).isLt
  have h2 := (m (a + 2)).isLt
  have h3 := (m (a + 3)).isLt
  unfold load32
  omega

theorem load32_congr {m m' : Mem} {a : Nat} (h : Same m m' a 4) : load32 m' a = load32 m a := by
  unfold load32
  rw [h a le_rfl (by omega), h (a + 1) (by omega) (by omega), h (a + 2) (by omega) (by omega),
    h (a + 3) (by omega) (by omega)]

theorem load64_congr {m m' : Mem} {a : Nat} (h : Same m m' a 8) : load64 m' a = load64 m a := by
  unfold load64
  rw [load32_congr (h.mono le_rfl (by omega)), load32_congr (h.mono (by omega) (by omega))]

theorem store32_frame (m : Mem) (a v : Nat) {b n : Nat} (h : b + n ≤ a ∨ a + 4 ≤ b) :
    Same m (store32 m a v) b n := by
  intro x hlo hhi
  rw [store32, if_neg (by omega)]

theorem store8_frame (m : Mem) (a : Nat) (c : BitVec 8) {b n : Nat} (h : b + n ≤ a ∨ a < b) :
    Same m (store8 m a c) b n := by
  intro x hlo hhi
  rw [store8, if_neg (by omega)]

theorem memset_frame (m : Mem) (a : Nat) (c : BitVec 8) (k : Nat) {b n : Nat}
    (h : b + n ≤ a ∨ a + k ≤ b) : Same m (memset m a c k) b n := by
  intro x hlo hhi
  rw [memset, if_neg (by omega)]

theorem load32_store32 (m : Mem) (a : Nat) {v : Nat} (hv : v < 2 ^ 32) :
    load32 (store32 m a v) a = v := by
  unfold load32 store32 byteOf
  rw [if_pos (by omega), if_pos (by omega), if_pos (by omega), if_pos (by omega)]
  simp only [Nat.sub_self, Nat.add_sub_cancel_left, BitVec.toNat_ofNat]
  omega

theorem load32_store32_of_apart (m : Mem) {a b : Nat} (v : Nat) (h : b + 4 ≤ a ∨ a + 4 ≤ b) :
    load32 (store32 m a v) b = load32 m b := load32_congr (store32_frame m a v h)

theorem load32_store8_of_apart (m : Mem) {a b : Nat} (c : BitVec 8) (h : b + 4 ≤ a ∨ a < b) :
    load32 (store8 m a c) b = load32 m b := load32_congr (store8_frame m a c h)

theorem store32_apply_of_apart (m : Mem) {a x : Nat} (v : Nat) (h : x < a ∨ a + 4 ≤ x) :
    store32 m a v x = m x := by
  rw [store32, if_neg (by omega)]

theorem memcpy_apply (m : Mem) (dst src n : Nat) (h : dst + n ≤ src ∨ src + n ≤ dst) (x : Nat) :
    memcpy m dst src n x = if dst ≤ x ∧ x < dst + n then m (src + (x - dst)) else m x := by
  unfold memcpy
  revert x
  apply Loop.foldl_range (fun k (m' : Mem) => k ≤ n → ∀ x,
    m' x = if dst ≤ x ∧ x < dst + k then m (src + (x - dst)) else m x) (n := n)
  · intro _ x
    rw [if_neg (by omega)]
  · intro k hk m' hinv hle x
    have hsrc : m' (src + k) = m (src + k) := by
      rw [hinv (by omega), if_neg (by omega)]
    rw [store8, hsrc]
    by_cases hx : x = dst + k
    · rw [if_pos hx, if_pos (by omega), show src + (x - dst) = src + k by omega]
    · rw [if_neg hx, hinv (by omega)]
      exact if_congr (by omega) rfl rfl
  · exact le_rfl

end ByteMemory
