import Frostix.Kernel

/-!
The physical page allocator: `g_physical_allocator` and the operations on it.
A set bit means an allocated page. The bitmap array is kept as a function of the
byte index; only the bytes below `size` belong to it. -/
namespace Frostix.Pmm
open Machine32

/-- `bitmap_allocator_t`. `bitsAddr` is the address held in the pointer `bits`,
`bits` the bytes it points to. -/
structure BitmapAllocator where
  bitsAddr : Nat
  bits : Nat → BitVec 8
  size : Nat
  totalPages : Nat
  freePages : Nat
  usedPages : Nat

/-- `1 << (bit % 8)` as a byte. -/
def bitMask (bit : Nat) : BitVec 8 := 1#8 <<< (bit % 8)

def bitmapSetBit (p : BitmapAllocator) (bit : Nat) : BitmapAllocator :=
  if p.size ≤ bit / 8 then p
  else { p with bits := Function.update p.bits (bit / 8) (p.bits (bit / 8) ||| bitMask bit) }

def bitmapClearBit (p : BitmapAllocator) (bit : Nat) : BitmapAllocator :=
  if p.size ≤ bit / 8 then p
  else { p with bits := Function.update p.bits (bit / 8) (p.bits (bit / 8) &&& ~~~bitMask bit) }

def bitmapTestBit (p : BitmapAllocator) (bit : Nat) : Bool :=
  if p.size ≤ bit / 8 then false else p.bits (bit / 8) &&& bitMask bit != 0#8

/-- `(u32)-1`, the result of an unsuccessful search. -/
def noBit : Nat := 2 ^ 32 - 1

/-- The inner loop of `bitmap_find_free_bit`: the first clear bit of one byte. -/
def firstClearIn (p : BitmapAllocator) (byte : Nat) : Option Nat :=
  (List.range 8).findSome? fun bit =>
    if p.bits byte &&& bitMask bit = 0#8 then some (wrap (byte * 8 + bit)) else none

def bitmapFindFreeBit (p : BitmapAllocator) : Nat :=
  ((List.range p.size).findSome? fun byte =>
    if p.bits byte ≠ 0xFF#8 then firstClearIn p byte else none).getD noBit

/-- One iteration of the inner loop of `bitmap_find_free_bits`; `error` is the
early return with the start of the run. -/
def scanBit (p : BitmapAllocator) (count byte found bit : Nat) : Except Nat Nat :=
  if bitmapTestBit p (wrap (byte * 8 + bit)) then .ok 0
  else if wrap (found + 1) = count then .error (wsub (wrap (byte * 8 + bit + 1)) count)
  else .ok (wrap (found + 1))

/-- One iteration of the outer loop: a full byte is skipped and resets the counter. -/
def scanByte (p : BitmapAllocator) (count found byte : Nat) : Except Nat Nat :=
  if p.bits byte = 0xFF#8 then .ok 0
  else (List.range 8).foldlM (scanBit p count byte) found

def bitmapFindFreeBits (p : BitmapAllocator) (count : Nat) : Nat :=
  if count = 0 then noBit
  else match (List.range p.size).foldlM (scanByte p count) 0 with
    | .error start => start
    | .ok _ => noBit

/-- `free_pages -= count; used_pages += count`. -/
def countTaken (p : BitmapAllocator) (count : Nat) : BitmapAllocator :=
  { p with freePages := p.freePages - count, usedPages := wrap (p.usedPages + count) }

def pmmAllocPage (p : BitmapAllocator) : Nat × BitmapAllocator :=
  if p.freePages = 0 then (0, p)
  else
    let bit := bitmapFindFreeBit p
    if bit = noBit then (0, p)
    else (wrap (bit * 4096), countTaken (bitmapSetBit p bit) 1)

/-- The marking loop of `pmm_alloc_pages`. -/
def setRun (p : BitmapAllocator) (start count : Nat) : BitmapAllocator :=
  (List.range count).foldl (fun q i => bitmapSetBit q (wrap (start + i))) p

def pmmAllocPages (p : BitmapAllocator) (count : Nat) : Nat × BitmapAllocator :=
  if p.freePages < count then (0, p)
  else
    let start := bitmapFindFreeBits p count
    if start = noBit then (0, p)
    else (wrap (start * 4096), countTaken (setRun p start count) count)

/-- The common body of both frees: a set bit is cleared and counted, `used_pages`
saturates at zero while `free_pages` does not. -/
def releasePage (p : BitmapAllocator) (bit : Nat) : BitmapAllocator :=
  if bitmapTestBit p bit then
    let q := bitmapClearBit p bit
    { q with
      freePages := wrap (q.freePages + 1)
      usedPages := if 0 < q.usedPages then q.usedPages - 1 else q.usedPages }
  else p

def pmmFreePage (p : BitmapAllocator) (addr : Nat) : BitmapAllocator :=
  if addr = 0 then p else releasePage p (addr / 4096)

def pmmFreePages (p : BitmapAllocator) (addr count : Nat) : BitmapAllocator :=
  if addr = 0 ∨ count = 0 then p
  else (List.range count).foldl (fun q i => releasePage q (wrap (addr / 4096 + i))) p

def pmmGetTotalPages (p : BitmapAllocator) : Nat := p.totalPages

def pmmGetFreePages (p : BitmapAllocator) : Nat := p.freePages

inductive PmmOp where
  | allocPage
  | allocPages (count : Nat)
  | freePage (addr : Nat)
  | freePages (addr count : Nat)

/-- Result and successor of one call. A free returns nothing, written as 0. -/
def PmmOp.exec (p : BitmapAllocator) : PmmOp → Nat × BitmapAllocator
  | .allocPage => pmmAllocPage p
  | .allocPages count => pmmAllocPages p count
  | .freePage addr => (0, pmmFreePage p addr)
  | .freePages addr count => (0, pmmFreePages p addr count)

/-- The bit of page `b`, without the bounds check of `bitmap_test_bit`. -/
def bitAt (p : BitmapAllocator) (b : Nat) : Bool := (p.bits (b / 8)).getLsbD (b % 8)

theorem getLsbD_bitMask (b j : Nat) : (bitMask b).getLsbD j = decide (j = b % 8) := by
  have hb : b % 8 < 8 := Nat.mod_lt _ (by decide)
  unfold bitMask
  by_cases hj : j < 8
  · interval_cases hm : b % 8 <;> interval_cases j <;> rfl
  · rw [BitVec.getLsbD_of_ge _ _ (by omega)]
    simp only [Bool.false_eq, decide_eq_false_iff_not]
    omega

theorem and_bitMask_eq_zero (x : BitVec 8) (b : Nat) :
    x &&& bitMask b = 0#8 ↔ x.getLsbD (b % 8) = false := by
  constructor
  · intro h
    have hbit := congrArg (fun y => BitVec.getLsbD y (b % 8)) h
    simpa [BitVec.getLsbD_and, getLsbD_bitMask] using hbit
  · intro h
    apply BitVec.eq_of_getLsbD_eq
    intro j hj
    by_cases hjb : j = b % 8
    · simp [BitVec.getLsbD_and, hjb, h]
    · simp [BitVec.getLsbD_and, getLsbD_bitMask, hjb]

theorem bitmapTestBit_eq (p : BitmapAllocator) (b : Nat) :
    bitmapTestBit p b = (decide (b < p.size * 8) && bitAt p b) := by
  unfold bitmapTestBit bitAt
  by_cases hb : p.size ≤ b / 8
  · simp [hb, show ¬ b < p.size * 8 by omega]
  · have hlt : b < p.size * 8 := by omega
    simp only [hb, if_false, hlt, decide_true, Bool.true_and]
    rw [Bool.eq_iff_iff, bne_iff_ne, ne_eq, and_bitMask_eq_zero, Bool.not_eq_false]

theorem bitAt_update (p : BitmapAllocator) (b c : Nat) (x : BitVec 8) :
    bitAt { p with bits := Function.update p.bits (b / 8) x } c =
      if c / 8 = b / 8 then x.getLsbD (c % 8) else bitAt p c := by
  unfold bitAt
  by_cases h : c / 8 = b / 8
  · simp [h]
  · simp [h]

theorem bitAt_setBit {p : BitmapAllocator} {b : Nat} (hb : b < p.size * 8) (c : Nat) :
    bitAt (bitmapSetBit p b) c = (decide (c = b) || bitAt p c) := by
  rw [bitmapSetBit, if_neg (by omega), bitAt_update]
  by_cases h : c / 8 = b / 8
  · have hiff : c % 8 = b % 8 ↔ c = b := by omega
    simp only [h, if_true, BitVec.getLsbD_or, getLsbD_bitMask, hiff, bitAt]
    exact Bool.or_comm _ _
  · have hne : c ≠ b := fun hcb => h (by rw [hcb])
    simp [h, hne]

theorem bitAt_clearBit {p : BitmapAllocator} {b : Nat} (hb : b < p.size * 8) (c : Nat) :
    bitAt (bitmapClearBit p b) c = (!decide (c = b) && bitAt p c) := by
  rw [bitmapClearBit, if_neg (by omega), bitAt_update]
  by_cases h : c / 8 = b / 8
  · have hiff : c % 8 = b % 8 ↔ c = b := by omega
    have hlt : c % 8 < 8 := Nat.mod_lt _ (by decide)
    simp only [h, if_true, BitVec.getLsbD_and, BitVec.getLsbD_not, getLsbD_bitMask, hiff, hlt,
      decide_true, Bool.true_and, bitAt]
    exact Bool.and_comm _ _
  · have hne : c ≠ b := fun hcb => h (by rw [hcb])
    simp [h, hne]

@[simp] theorem bitmapSetBit_size (p : BitmapAllocator) (b : Nat) :
    (bitmapSetBit p b).size = p.size := by
  unfold bitmapSetBit
  split <;> rfl

@[simp] theorem bitmapSetBit_totalPages (p : BitmapAllocator) (b : Nat) :
    (bitmapSetBit p b).totalPages = p.totalPages := by
  unfold bitmapSetBit
  split <;> rfl

@[simp] theorem bitmapSetBit_freePages (p : BitmapAllocator) (b : Nat) :
    (bitmapSetBit p b).freePages = p.freePages := by
  unfold bitmapSetBit
  split <;> rfl

@[simp] theorem bitmapSetBit_usedPages (p : BitmapAllocator) (b : Nat) :
    (bitmapSetBit p b).usedPages = p.usedPages := by
  unfold bitmapSetBit
  split <;> rfl

@[simp] theorem bitmapSetBit_bitsAddr (p : BitmapAllocator) (b : Nat) :
    (bitmapSetBit p b).bitsAddr = p.bitsAddr := by
  unfold bitmapSetBit
  split <;> rfl

@[simp] theorem bitmapClearBit_bitsAddr (p : BitmapAllocator) (b : Nat) :
    (bitmapClearBit p b).bitsAddr = p.bitsAddr := by
  unfold bitmapClearBit
  split <;> rfl

@[simp] theorem bitmapClearBit_size (p : BitmapAllocator) (b : Nat) :
    (bitmapClearBit p b).size = p.size := by
  unfold bitmapClearBit
  split <;> rfl

@[simp] theorem bitmapClearBit_totalPages (p : BitmapAllocator) (b : Nat) :
    (bitmapClearBit p b).totalPages = p.totalPages := by
  unfold bitmapClearBit
  split <;> rfl

@[simp] theorem bitmapClearBit_freePages (p : BitmapAllocator) (b : Nat) :
    (bitmapClearBit p b).freePages = p.freePages := by
  unfold bitmapClearBit
  split <;> rfl

@[simp] theorem bitmapClearBit_usedPages (p : BitmapAllocator) (b : Nat) :
    (bitmapClearBit p b).usedPages = p.usedPages := by
  unfold bitmapClearBit
  split <;> rfl

end Frostix.Pmm
