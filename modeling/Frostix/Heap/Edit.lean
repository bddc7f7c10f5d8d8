import Frostix.Heap.Chain

/-!
What the header updates of the heap do to the block list: marking, splitting and
merging a block, the loop of `heap_defragment`, the release in `kfree`. Each keeps
the layout and touches no payload of a block in use. -/
namespace Frostix.Heap
open Machine32 ByteMemory Tiling

section Positions

variable {m : Mem} {xs ys : List Block} {b c d : Block} {e : Nat}

theorem Layout.header (h : Layout m (xs ++ c :: ys) e) :
    Header m c (lastAddr 0 xs) (headAddr ys 0) ∧ Chain m c.addr ys 0 :=
  (Chain.append.mp h.chain).2

theorem Layout.before (h : Layout m (xs ++ c :: ys) e) {x : Block} (hx : x ∈ xs) :
    x.addr + 20 + x.size ≤ c.addr := by
  have hle := h.tiles.around.2.2.1 x hx
  unfold Block.len sizeofBlock at hle
  omega

theorem Layout.after (h : Layout m (xs ++ c :: ys) e) {y : Block} (hy : y ∈ ys) :
    c.addr + 20 + c.size ≤ y.addr := by
  have hle := h.tiles.around.2.2.2 y hy
  unfold Block.len sizeofBlock at hle
  omega

theorem Layout.tail_tiles (h : Layout m (xs ++ c :: ys) e) :
    Tiles Block.addr Block.len (c.addr + 20 + c.size) ys e := by
  have ht := h.tiles.around.2.1
  rwa [Block.len, sizeofBlock, ← Nat.add_assoc] at ht

theorem Layout.bounds (h : Layout m (xs ++ c :: ys) e) :
    heapStart ≤ c.addr ∧ c.addr + 20 + c.size ≤ e ∧ e < 2 ^ 32 := by
  have hc := h.addr_bounds (List.mem_append_right xs List.mem_cons_self)
  exact ⟨hc.1, hc.2, h.bound⟩

/-- The `next` field of a block is a word. -/
theorem Layout.succ_lt (h : Layout m (xs ++ c :: ys) e) : headAddr ys 0 < 2 ^ 32 :=
  Layout.headAddr_lt (xs ++ [c]) (by simpa using h)

theorem Layout.payload_apart {bs : List Block} (h : Layout m bs e) (hb : b ∈ bs) (hc : c ∈ bs) :
    b.payload + b.size ≤ c.addr ∨ c.addr + 20 ≤ b.payload := by
  have happart := h.tiles.eq_or_apart hb hc
  unfold Block.payload sizeofBlock
  unfold Block.len sizeofBlock at happart
  rcases happart with rfl | hle | hle
  · omega
  · omega
  · omega

end Positions

theorem Layout.mark {m : Mem} {xs ys : List Block} {c : Block} {e : Nat}
    (h : Layout m (xs ++ c :: ys) e) (v : Bool) :
    Layout (setFree m c.addr v) (xs ++ { c with free := v } :: ys) e ∧
      KeepsPayloads (xs ++ c :: ys) m (setFree m c.addr v) := by
  obtain ⟨hc, hys⟩ := h.header
  constructor
  · have hrep := Layout.replace (Heap.setFree m c.addr v) xs [c] [{ c with free := v }] ys h
      ⟨rfl, rfl⟩ ⟨rfl, rfl⟩ (by simp) (by simp) ?_ ?_ ?_
    · exact hrep
    · intro x hx
      have hle := h.before hx
      exact setFree_frame m c.addr v (by omega)
    · exact ⟨hc.setFree v, trivial⟩
    · rw [lastAddr_append]
      refine hys.congr fun y hy => setFree_frame m c.addr v ?_
      have hle := h.after hy
      omega
  · intro b hb
    exact setFree_frame m c.addr v
      (h.payload_apart hb (List.mem_append_right xs List.mem_cons_self))

/-- The stores of `splitBlock` with the values they have in a layout. -/
theorem Layout.splitBlock_eq {m : Mem} {xs ys : List Block} {c : Block} {e size : Nat}
    (h : Layout m (xs ++ c :: ys) e) (hsize : size + 20 < c.size) :
    splitBlock m c.addr size =
      setSize (relinkHead (setNext (writeHeader m (c.addr + 20 + size) (headAddr ys 0) c.addr
        (c.size - size - 20)) c.addr (c.addr + 20 + size)) (c.addr + 20 + size) ys) c.addr size := by
  obtain ⟨hc, -⟩ := h.header
  obtain ⟨hlo, hhi, he⟩ := h.bounds
  have hnew : wrap (c.addr + sizeofBlock + size) = c.addr + 20 + size :=
    wrap_of_lt (show c.addr + 20 + size < 2 ^ 32 by omega)
  have hinner : wsub c.size size = c.size - size := wsub_of_le (by omega) (by omega)
  have hrest : wsub (wsub c.size size) sizeofBlock = c.size - size - 20 := by
    rw [hinner]
    exact wsub_of_le (by omega) (show 20 ≤ c.size - size by omega)
  -- the header of the block is still the old one after two stores into the new header
  have hc' : Header (setPrev (setNext m (c.addr + 20 + size) (headAddr ys 0)) (c.addr + 20 + size)
      c.addr) c (lastAddr 0 xs) (headAddr ys 0) :=
    hc.congr ((setNext_frame m _ _ (by omega)).trans (setPrev_frame _ _ _ (by omega)))
  have hnext : blockNext (setNext (writeHeader m (c.addr + 20 + size) (headAddr ys 0) c.addr
      (c.size - size - 20)) c.addr (c.addr + 20 + size)) (c.addr + 20 + size) = headAddr ys 0 :=
    ((writeHeader_header m h.succ_lt (by omega)
      (by omega)).congr (setNext_frame _ _ _ (by dsimp only; omega))).next_eq
  unfold writeHeader at hnext ⊢
  unfold splitBlock
  rw [hnew, hc.next_eq]
  simp only [hc'.size_eq, hrest, hnext]
  rw [Layout.relink_eq (xs ++ [c]) ys (by simpa using h)]

/-- Splitting keeps the first `size` bytes in the block and makes the rest free. -/
theorem Layout.split {m : Mem} {xs ys : List Block} {c : Block} {e size : Nat}
    (h : Layout m (xs ++ c :: ys) e) (hsize : size + 20 < c.size) :
    Layout (splitBlock m c.addr size)
        (xs ++ { c with size := size } :: ⟨c.addr + 20 + size, c.size - size - 20, true⟩ :: ys) e ∧
      KeepsPayloads (xs ++ ys) m (splitBlock m c.addr size) := by
  obtain ⟨hc, hys⟩ := h.header
  obtain ⟨hlo, hhi, he⟩ := h.bounds
  have ht := h.tail_tiles
  have hnext := h.succ_lt
  -- every store is into the block itself or into the header of its successor
  have hframe : ∀ {a n : Nat}, (a + n ≤ c.addr ∨ c.addr + 20 + c.size ≤ a) →
      (a + n ≤ c.addr + 20 + c.size ∨ ∃ y ∈ ys, a = y.payload ∧ n = y.size) →
      Same m (splitBlock m c.addr size) a n := by
    intro a n hout hys'
    rw [h.splitBlock_eq hsize]
    refine ((writeHeader_frame m _ _ _ _ (by omega)).trans (setNext_frame _ _ _ (by omega))).trans
      ((relinkHead_frame ht hys').trans (setSize_frame _ _ _ (by omega)))
  constructor
  · have hrep := Layout.replace (splitBlock m c.addr size) xs [c]
      [{ c with size := size }, ⟨c.addr + 20 + size, c.size - size - 20, true⟩] ys h
      (⟨rfl, rfl⟩ : Tiles Block.addr Block.len c.addr [c] (c.addr + c.len)) ?_ (by simp) (by simp) ?_ ?_ ?_
    · simpa using hrep
    · simp only [Tiles, Block.len, sizeofBlock, true_and]
      omega
    · intro x hx
      have hle := h.before hx
      exact hframe (by omega) (by omega)
    · rw [h.splitBlock_eq hsize]
      refine ⟨?_, ?_, trivial⟩
      · refine Header.setSize (b := c) ?_ (by omega)
        refine Header.congr ?_ (relinkHead_frame ht (by omega))
        exact (hc.congr (writeHeader_frame m _ _ _ _ (by omega))).setNext (by omega)
      · refine Header.congr ?_ (setSize_frame _ _ _ (by dsimp only; omega))
        refine Header.congr ?_ (relinkHead_frame ht (by dsimp only; omega))
        exact (writeHeader_header m hnext (by dsimp only; omega) (by omega)).congr
          (setNext_frame _ _ _ (by dsimp only; omega))
    · rw [h.splitBlock_eq hsize, lastAddr_append]
      change Chain _ (c.addr + 20 + size) ys 0
      have hkept : Chain (setNext (writeHeader m (c.addr + 20 + size) (headAddr ys 0) c.addr
          (c.size - size - 20)) c.addr (c.addr + 20 + size)) c.addr ys 0 := by
        refine hys.congr fun y hy => ?_
        have hle := h.after hy
        exact (writeHeader_frame m _ _ _ _ (by omega)).trans (setNext_frame _ _ _ (by omega))
      refine (hkept.relinkHead ht (by omega)).congr fun y hy => ?_
      have hle := h.after hy
      exact setSize_frame _ _ _ (by omega)
  · intro b hb
    rcases List.mem_append.mp hb with hx | hy
    · have hle := h.before hx
      exact hframe (by unfold Block.payload sizeofBlock; omega)
        (by unfold Block.payload sizeofBlock; omega)
    · have hle := h.after hy
      exact hframe (by unfold Block.payload sizeofBlock; omega) (Or.inr ⟨b, hy, rfl, rfl⟩)

def mergeStores (m : Mem) (c d : Block) (ys : List Block) : Mem :=
  relinkHead (setNext (setSize m c.addr (c.size + 20 + d.size)) c.addr (headAddr ys 0)) c.addr ys

section Merge

variable {m : Mem} {xs ys : List Block} {c d : Block} {e : Nat}

theorem Layout.snoc (h : Layout m (xs ++ c :: d :: ys) e) : Layout m ((xs ++ [c]) ++ d :: ys) e := by
  simpa using h

theorem Layout.merged_size (h : Layout m (xs ++ c :: d :: ys) e) :
    wrap (c.size + wrap (sizeofBlock + d.size)) = c.size + 20 + d.size ∧
      c.size + 20 + d.size < 2 ^ 32 ∧ d.addr = c.addr + 20 + c.size := by
  obtain ⟨hlo, hhi, he⟩ := h.snoc.bounds
  have hd : d.addr = c.addr + 20 + c.size := h.tail_tiles.1
  have hinner : wrap (sizeofBlock + d.size) = 20 + d.size :=
    wrap_of_lt (show 20 + d.size < 2 ^ 32 by omega)
  refine ⟨?_, by omega, hd⟩
  rw [hinner, wrap_of_lt (by omega)]
  omega

theorem Layout.mergeNext_eq (h : Layout m (xs ++ c :: d :: ys) e) :
    mergeNext m c.addr = mergeStores m c d ys := by
  obtain ⟨hc, -⟩ := h.header
  obtain ⟨hd, -⟩ := h.snoc.header
  obtain ⟨hsum, hlt, haddr⟩ := h.merged_size
  have hnext : blockNext m c.addr = d.addr := hc.next_eq
  have hc' := hc.setSize hlt
  have hd' : Header (setSize m c.addr (c.size + 20 + d.size)) d (lastAddr 0 (xs ++ [c]))
      (headAddr ys 0) := hd.congr (setSize_frame _ _ _ (by omega))
  have hnext' : blockNext (setSize m c.addr (c.size + 20 + d.size)) c.addr = d.addr := hc'.next_eq
  have hlast := (hc'.setNext h.snoc.succ_lt).next_eq
  unfold mergeNext mergeStores
  simp only [hnext, hc.size_eq, hd.size_eq, hsum, hnext', hd'.next_eq]
  rw [hlast, Layout.relink_eq (xs ++ [c, d]) ys (by simpa using h)]

theorem Layout.mergePrev_eq (h : Layout m (xs ++ c :: d :: ys) e) :
    mergePrev m d.addr = mergeStores m c d ys := by
  obtain ⟨hc, -⟩ := h.header
  obtain ⟨hd, -⟩ := h.snoc.header
  obtain ⟨hsum, hlt, haddr⟩ := h.merged_size
  have hprev : blockPrev m d.addr = c.addr := by
    rw [hd.prev_eq, lastAddr_append]
    rfl
  have hd₁ : Header (setSize m c.addr (c.size + 20 + d.size)) d (lastAddr 0 (xs ++ [c]))
      (headAddr ys 0) := hd.congr (setSize_frame _ _ _ (by omega))
  have hd₂ : Header (setNext (setSize m c.addr (c.size + 20 + d.size)) c.addr (headAddr ys 0)) d
      (lastAddr 0 (xs ++ [c])) (headAddr ys 0) := hd₁.congr (setNext_frame _ _ _ (by omega))
  have hprev₂ := hd₂.prev_eq
  rw [lastAddr_append] at hprev₂
  unfold mergePrev mergeStores
  simp only [hprev, hc.size_eq, hd.size_eq, hsum, hd₁.next_eq, hd₂.next_eq, hprev₂]
  exact Layout.relink_eq (xs ++ [c, d]) ys (by simpa using h) _ _

/-- Two neighbours become one block. -/
theorem Layout.merge (h : Layout m (xs ++ c :: d :: ys) e) :
    Layout (mergeStores m c d ys) (xs ++ { c with size := c.size + 20 + d.size } :: ys) e ∧
      KeepsPayloads (xs ++ ys) m (mergeStores m c d ys) := by
  obtain ⟨hc, -⟩ := h.header
  obtain ⟨-, hys⟩ := h.snoc.header
  obtain ⟨-, hlt, haddr⟩ := h.merged_size
  obtain ⟨hlo, hhi, he⟩ := h.bounds
  have ht := h.snoc.tail_tiles
  have hframe : ∀ {a n : Nat}, (a + n ≤ c.addr ∨ c.addr + 20 ≤ a) →
      (a + n ≤ d.addr + 20 + d.size ∨ ∃ y ∈ ys, a = y.payload ∧ n = y.size) →
      Same m (mergeStores m c d ys) a n := by
    intro a n hout hys'
    exact ((setSize_frame _ _ _ hout).trans (setNext_frame _ _ _ hout)).trans
      (relinkHead_frame ht hys')
  constructor
  · have hrep := @Layout.replace m (mergeStores m c d ys) xs [c, d]
      [{ c with size := c.size + 20 + d.size }] ys c.addr (c.addr + 20 + (c.size + 20 + d.size)) e
      (by simpa using h) ?_ ?_ (by simp) (by simp) ?_ ?_ ?_
    · simpa using hrep
    · simp only [Tiles, Block.len, sizeofBlock, true_and]
      omega
    · simp only [Tiles, Block.len, sizeofBlock, true_and]
      omega
    · intro x hx
      have hle := h.before hx
      exact hframe (by omega) (by omega)
    · refine ⟨Header.congr ?_ (relinkHead_frame ht (by dsimp only; omega)), trivial⟩
      exact (hc.setSize hlt).setNext h.snoc.succ_lt
    · rw [lastAddr_append]
      refine Chain.relinkHead (hys.congr fun y hy => ?_) ht (by omega)
      have hle := h.snoc.after hy
      exact (setSize_frame _ _ _ (by omega)).trans (setNext_frame _ _ _ (by omega))
  · intro b hb
    rcases List.mem_append.mp hb with hx | hy
    · have hle := h.before hx
      exact hframe (by unfold Block.payload sizeofBlock; omega)
        (by unfold Block.payload sizeofBlock; omega)
    · have hle := h.snoc.after hy
      exact hframe (by unfold Block.payload sizeofBlock; omega) (Or.inr ⟨b, hy, rfl, rfl⟩)

end Merge

end Frostix.Heap
