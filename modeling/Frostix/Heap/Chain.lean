import Frostix.Heap.Model
import Frostix.Lib.Tiling

/-!
The block list that the headers in memory describe. `Chain` ties a list of
blocks to the headers with both link directions, `Layout` adds that the blocks
tile the heap. The operations on headers become operations on the list. -/
namespace Frostix.Heap
open Machine32 ByteMemory Tiling

structure Block where
  addr : Nat
  size : Nat
  free : Bool

def Block.len (b : Block) : Nat := sizeofBlock + b.size

def Block.payload (b : Block) : Nat := b.addr + sizeofBlock

/-- The header at `b.addr` has these contents. -/
structure Header (m : Mem) (b : Block) (prev next : Nat) : Prop where
  next_eq : blockNext m b.addr = next
  prev_eq : blockPrev m b.addr = prev
  size_eq : blockSize m b.addr = b.size
  free_eq : blockFree m b.addr = b.free
  magic_eq : blockMagic m b.addr = heapMagic

/-- The address of the first block, or `next` when there is none. -/
def headAddr : List Block → Nat → Nat
  | [], next => next
  | b :: _, _ => b.addr

/-- The address of the last block, or `prev` when there is none. -/
def lastAddr (prev : Nat) : List Block → Nat
  | [] => prev
  | b :: bs => lastAddr b.addr bs

/-- The blocks are linked in both directions between `prev` and `next`. -/
def Chain (m : Mem) : Nat → List Block → Nat → Prop
  | _, [], _ => True
  | prev, b :: bs, next => Header m b prev (headAddr bs next) ∧ Chain m b.addr bs next

/-- The list is linked from 0 to 0 and tiles the heap up to `e`. -/
structure Layout (m : Mem) (bs : List Block) (e : Nat) : Prop where
  chain : Chain m 0 bs 0
  tiles : Tiles Block.addr Block.len heapStart bs e
  bound : e < 2 ^ 32

def NoAdjacentFree (bs : List Block) : Prop :=
  (bs.map Block.free).IsChain fun b c => ¬ (b = true ∧ c = true)

def used (bs : List Block) : List Block := bs.filter fun b => !b.free

/-- The payloads of these blocks have the same bytes in both memories. -/
def KeepsPayloads (bs : List Block) (m m' : Mem) : Prop :=
  ∀ b ∈ bs, Same m m' b.payload b.size

theorem KeepsPayloads.refl (bs : List Block) (m : Mem) : KeepsPayloads bs m m :=
  fun _ _ => Same.refl _ _ _

theorem KeepsPayloads.trans {bs : List Block} {m₁ m₂ m₃ : Mem} (h : KeepsPayloads bs m₁ m₂)
    (h' : KeepsPayloads bs m₂ m₃) : KeepsPayloads bs m₁ m₃ :=
  fun b hb => (h b hb).trans (h' b hb)

theorem mem_used {bs : List Block} {b : Block} : b ∈ used bs ↔ b ∈ bs ∧ b.free = false := by
  simp [used]

theorem used_append (xs ys : List Block) : used (xs ++ ys) = used xs ++ used ys :=
  List.filter_append ..

theorem used_cons_free {b : Block} (h : b.free = true) (bs : List Block) :
    used (b :: bs) = used bs := by
  simp [used, h]

section Stores

variable (m : Mem) (a v : Nat) {b n : Nat}

theorem setNext_frame (h : b + n ≤ a ∨ a + 20 ≤ b) : Same m (setNext m a v) b n :=
  store32_frame m a v (by omega)

theorem setPrev_frame (h : b + n ≤ a ∨ a + 20 ≤ b) : Same m (setPrev m a v) b n :=
  store32_frame m (a + 4) v (by omega)

theorem setSize_frame (h : b + n ≤ a ∨ a + 20 ≤ b) : Same m (setSize m a v) b n :=
  store32_frame m (a + 8) v (by omega)

theorem setFree_frame (c : Bool) (h : b + n ≤ a ∨ a + 20 ≤ b) : Same m (setFree m a c) b n :=
  store8_frame m (a + 12) _ (by omega)

theorem setMagic_frame (h : b + n ≤ a ∨ a + 20 ≤ b) : Same m (setMagic m a v) b n :=
  store32_frame m (a + 16) v (by omega)

end Stores

section Headers

variable {m m' : Mem} {b : Block} {prev next : Nat}

theorem Header.congr (h : Header m b prev next) (hsame : Same m m' b.addr 20) :
    Header m' b prev next := by
  refine ⟨?_, ?_, ?_, ?_, ?_⟩
  · exact (load32_congr (hsame.mono (by omega) (by omega))).trans h.next_eq
  · exact (load32_congr (hsame.mono (by omega) (by omega))).trans h.prev_eq
  · exact (load32_congr (hsame.mono (by omega) (by omega))).trans h.size_eq
  · rw [← h.free_eq, blockFree, blockFree, hsame (b.addr + 12) (by omega) (by omega)]
  · exact (load32_congr (hsame.mono (by omega) (by omega))).trans h.magic_eq

theorem Header.setNext (h : Header m b prev next) {v : Nat} (hv : v < 2 ^ 32) :
    Header (setNext m b.addr v) b prev v := by
  refine ⟨load32_store32 m _ hv, ?_, ?_, ?_, ?_⟩
  · exact (load32_store32_of_apart m v (by omega)).trans h.prev_eq
  · exact (load32_store32_of_apart m v (by omega)).trans h.size_eq
  · rw [← h.free_eq, blockFree, Heap.setNext, store32_apply_of_apart m v (by omega), blockFree]
  · exact (load32_store32_of_apart m v (by omega)).trans h.magic_eq

theorem Header.setPrev (h : Header m b prev next) {v : Nat} (hv : v < 2 ^ 32) :
    Header (setPrev m b.addr v) b v next := by
  refine ⟨?_, load32_store32 m _ hv, ?_, ?_, ?_⟩
  · exact (load32_store32_of_apart m v (by omega)).trans h.next_eq
  · exact (load32_store32_of_apart m v (by omega)).trans h.size_eq
  · rw [← h.free_eq, blockFree, Heap.setPrev, store32_apply_of_apart m v (by omega), blockFree]
  · exact (load32_store32_of_apart m v (by omega)).trans h.magic_eq

theorem Header.setSize (h : Header m b prev next) {v : Nat} (hv : v < 2 ^ 32) :
    Header (setSize m b.addr v) { b with size := v } prev next := by
  refine ⟨?_, ?_, load32_store32 m _ hv, ?_, ?_⟩
  · exact (load32_store32_of_apart m v (by dsimp only; omega)).trans h.next_eq
  · exact (load32_store32_of_apart m v (by dsimp only; omega)).trans h.prev_eq
  · rw [← h.free_eq, blockFree, Heap.setSize, store32_apply_of_apart m v (by dsimp only; omega), blockFree]
  · exact (load32_store32_of_apart m v (by dsimp only; omega)).trans h.magic_eq

theorem Header.setFree (h : Header m b prev next) (c : Bool) :
    Header (setFree m b.addr c) { b with free := c } prev next := by
  refine ⟨?_, ?_, ?_, ?_, ?_⟩
  · exact (load32_store8_of_apart m _ (by dsimp only; omega)).trans h.next_eq
  · exact (load32_store8_of_apart m _ (by dsimp only; omega)).trans h.prev_eq
  · exact (load32_store8_of_apart m _ (by dsimp only; omega)).trans h.size_eq
  · cases c with
    | true => simp [blockFree, Heap.setFree, store8]
    | false => simp [blockFree, Heap.setFree, store8]
  · exact (load32_store8_of_apart m _ (by dsimp only; omega)).trans h.magic_eq

/-- The field stores of a new free block, in the order of `kmalloc`. -/
def writeHeader (m : Mem) (a next prev size : Nat) : Mem :=
  setMagic (setFree (setSize (setPrev (setNext m a next) a prev) a size) a true) a heapMagic

theorem writeHeader_frame (m : Mem) (a next prev size : Nat) {c n : Nat}
    (h : c + n ≤ a ∨ a + 20 ≤ c) : Same m (writeHeader m a next prev size) c n :=
  ((((setNext_frame m a next h).trans (setPrev_frame _ a prev h)).trans
    (setSize_frame _ a size h)).trans (setFree_frame _ a true h)).trans
    (setMagic_frame _ a heapMagic h)

theorem writeHeader_header (m : Mem) {a n p s : Nat} (hn : n < 2 ^ 32) (hp : p < 2 ^ 32)
    (hs : s < 2 ^ 32) : Header (writeHeader m a n p s) ⟨a, s, true⟩ p n := by
  unfold writeHeader Heap.setMagic Heap.setFree Heap.setSize Heap.setPrev Heap.setNext
  refine ⟨?_, ?_, ?_, ?_, load32_store32 _ _ (by decide)⟩
  · simp only [blockNext]
    rw [load32_store32_of_apart _ _ (by omega), load32_store8_of_apart _ _ (by omega),
      load32_store32_of_apart _ _ (by omega), load32_store32_of_apart _ _ (by omega),
      load32_store32 _ _ hn]
  · simp only [blockPrev]
    rw [load32_store32_of_apart _ _ (by omega), load32_store8_of_apart _ _ (by omega),
      load32_store32_of_apart _ _ (by omega), load32_store32 _ _ hp]
  · simp only [blockSize]
    rw [load32_store32_of_apart _ _ (by omega), load32_store8_of_apart _ _ (by omega),
      load32_store32 _ _ hs]
  · simp only [blockFree]
    rw [store32_apply_of_apart _ _ (by omega)]
    simp [store8]

end Headers

theorem headAddr_append (xs ys : List Block) (e : Nat) :
    headAddr (xs ++ ys) e = headAddr xs (headAddr ys e) := by
  cases xs with
  | nil => rfl
  | cons x xs => rfl

theorem lastAddr_append (p : Nat) (xs ys : List Block) :
    lastAddr p (xs ++ ys) = lastAddr (lastAddr p xs) ys := by
  induction xs generalizing p with
  | nil => rfl
  | cons x xs ih => exact ih x.addr

theorem Chain.append {m : Mem} {p e : Nat} {xs ys : List Block} :
    Chain m p (xs ++ ys) e ↔ Chain m p xs (headAddr ys e) ∧ Chain m (lastAddr p xs) ys e := by
  induction xs generalizing p with
  | nil => simp [Chain, lastAddr]
  | cons x xs ih =>
      simp only [List.cons_append, Chain, ih, headAddr_append, lastAddr, and_assoc]

theorem Chain.congr {m m' : Mem} {p e : Nat} {bs : List Block} (h : Chain m p bs e)
    (hsame : ∀ b ∈ bs, Same m m' b.addr 20) : Chain m' p bs e := by
  induction bs generalizing p with
  | nil => trivial
  | cons b bs ih =>
      refine ⟨h.1.congr (hsame b List.mem_cons_self), ih h.2 ?_⟩
      exact fun c hc => hsame c (List.mem_cons_of_mem b hc)

/-- `if (next) next->prev = p`, where `next` is the first block of the list. -/
def relinkHead (m : Mem) (p : Nat) : List Block → Mem
  | [] => m
  | b :: _ => setPrev m b.addr p

theorem relinkHead_frame {m : Mem} {p s e a n : Nat} {bs : List Block}
    (ht : Tiles Block.addr Block.len s bs e) (h : a + n ≤ s ∨ ∃ b ∈ bs, a = b.payload ∧ n = b.size) :
    Same m (relinkHead m p bs) a n := by
  cases bs with
  | nil => exact Same.refl m a n
  | cons c cs =>
      refine setPrev_frame m c.addr p ?_
      have hc := ht.1
      rcases h with hle | ⟨b, hb, rfl, rfl⟩
      · omega
      · right
        have hle := (ht.mem_bounds hb).1
        unfold Block.payload sizeofBlock
        omega

theorem Chain.relinkHead {m : Mem} {p s e n : Nat} {bs : List Block} (h : Chain m p bs n)
    (ht : Tiles Block.addr Block.len s bs e) {p' : Nat} (hp : p' < 2 ^ 32) :
    Chain (relinkHead m p' bs) p' bs n := by
  cases bs with
  | nil => trivial
  | cons b bs =>
      refine ⟨h.1.setPrev hp, h.2.congr ?_⟩
      intro c hc
      have hle := (ht.2.mem_bounds hc).1
      refine setPrev_frame m b.addr p' ?_
      have hb := ht.1
      unfold Block.len sizeofBlock at hle
      omega

theorem Layout.addr_bounds {m : Mem} {bs : List Block} {e : Nat} (h : Layout m bs e) {b : Block}
    (hb : b ∈ bs) : heapStart ≤ b.addr ∧ b.addr + 20 + b.size ≤ e := by
  have hbounds := h.tiles.mem_bounds hb
  unfold Block.len sizeofBlock at hbounds
  omega

theorem Layout.headAddr_lt {m : Mem} (xs : List Block) {ys : List Block} {e : Nat} (h : Layout m (xs ++ ys) e) :
    headAddr ys 0 < 2 ^ 32 := by
  cases ys with
  | nil => exact Nat.two_pow_pos 32
  | cons y ys =>
      have hy := h.addr_bounds (List.mem_append_right xs List.mem_cons_self)
      have he := h.bound
      change y.addr < 2 ^ 32
      omega

/-- The conditional relinking of the source is `relinkHead`. -/
theorem Layout.relink_eq {m : Mem} (xs ys : List Block) {e : Nat} (h : Layout m (xs ++ ys) e)
    (m' : Mem) (p : Nat) :
    (if headAddr ys 0 ≠ 0 then setPrev m' (headAddr ys 0) p else m') = relinkHead m' p ys := by
  cases ys with
  | nil => rfl
  | cons y ys =>
      have hy := h.addr_bounds (List.mem_append_right xs List.mem_cons_self)
      unfold heapStart at hy
      exact if_pos (by change y.addr ≠ 0; omega)

theorem Layout.replace {m : Mem} (m' : Mem) (xs cs zs ys : List Block) {lo hi e : Nat}
    (h : Layout m (xs ++ (cs ++ ys)) e) (hcs : Tiles Block.addr Block.len lo cs hi)
    (hzs : Tiles Block.addr Block.len lo zs hi) (hne : cs ≠ []) (hne' : zs ≠ [])
    (hx : ∀ x ∈ xs, Same m m' x.addr 20) (hz : Chain m' (lastAddr 0 xs) zs (headAddr ys 0))
    (hy : Chain m' (lastAddr 0 (xs ++ zs)) ys 0) : Layout m' (xs ++ (zs ++ ys)) e := by
  obtain ⟨c, cs', rfl⟩ := List.exists_cons_of_ne_nil hne
  obtain ⟨z, zs', rfl⟩ := List.exists_cons_of_ne_nil hne'
  have haddr : z.addr = c.addr := hzs.1.trans hcs.1.symm
  refine ⟨?_, ?_, h.bound⟩
  · rw [Chain.append, Chain.append]
    rw [lastAddr_append] at hy
    refine ⟨?_, hz, hy⟩
    have hxs := (Chain.append.mp h.chain).1.congr hx
    rw [List.cons_append, headAddr] at hxs ⊢
    rw [haddr]
    exact hxs
  · obtain ⟨mid, hxt, hrest⟩ := Tiles.append.mp h.tiles
    obtain ⟨mid', hct, hyt⟩ := Tiles.append.mp hrest
    have hmid : mid = lo := hct.1.symm.trans hcs.1
    subst hmid
    have hend : mid' = hi := hct.end_unique hcs
    subst hend
    exact Tiles.append.mpr ⟨_, hxt, Tiles.append.mpr ⟨_, hzs, hyt⟩⟩

end Frostix.Heap
