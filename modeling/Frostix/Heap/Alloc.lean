import Frostix.Heap.Walk

/-!
Specification of the allocation functions. After a successful expansion two free
blocks may touch: the new one and its predecessor. The invariant of the recursion
in `kmalloc` is that in this case no older block fits, so the retry takes the new
block, or the heap is defragmented before the next expansion. -/
namespace Frostix.Heap
open Machine32 ByteMemory Tiling

variable {σ : Type}

/-- The block list of the heap is `bs`. -/
structure Good (h : KernelHeap σ) (bs : List Block) : Prop where
  layout : Layout h.mem bs h.currentEnd
  head : h.head = headAddr bs 0
  aligned : h.currentEnd % 4096 = 0
  started : heapStart < h.currentEnd

theorem Good.ne_nil {h : KernelHeap σ} {bs : List Block} (hg : Good h bs) : bs ≠ [] := by
  rintro rfl
  have hend : heapStart = h.currentEnd := hg.layout.tiles
  exact absurd hg.started (by omega)

theorem Good.head_eq {h : KernelHeap σ} {bs : List Block} (hg : Good h bs) : h.head = heapStart := by
  obtain ⟨b, bs, rfl⟩ := List.exists_cons_of_ne_nil hg.ne_nil
  rw [hg.head]
  exact hg.layout.tiles.1

/-- What the heap relies on in its page functions: an attempt to back `n` pages at the
end `e` of the heap comes back, and one that succeeds is for at least one page below
4 GiB. `Ok` is what the page functions keep of their own state. -/
def Grows (ops : PageOps σ) (Ok : Nat → σ → Prop) : Prop :=
  ∀ e n s, Ok e s → e % 4096 = 0 → heapStart ≤ e → n < 2 ^ 20 →
    (∃ s', expandOnce ops s e n = some (false, s') ∧ Ok e s') ∨
      ∃ s', expandOnce ops s e n = some (true, s') ∧ 0 < n ∧ e + n * 4096 < 2 ^ 32 ∧
        Ok (e + n * 4096) s'

theorem newBlock_frame (m : Mem) (a size : Nat) {c n : Nat} (h : c + n ≤ a) :
    Same m (newBlock m a size) c n := by
  have h' : c + n ≤ a ∨ a + 20 ≤ c := Or.inl h
  exact (((((memset_frame m a 0#8 size (by omega)).trans (setSize_frame _ a _ h')).trans
    (setFree_frame _ a true h')).trans (setNext_frame _ a 0 h')).trans
    (setPrev_frame _ a 0 h')).trans (setMagic_frame _ a _ h')

theorem newBlock_header (m : Mem) {a size : Nat} (hsize : 20 ≤ size) (hlt : size < 2 ^ 32) :
    Header (newBlock m a size) ⟨a, size - 20, true⟩ 0 0 := by
  have hrest : wsub size sizeofBlock = size - 20 := wsub_of_le hlt hsize
  unfold newBlock
  rw [hrest]
  unfold setMagic setPrev setNext setFree setSize
  refine ⟨?_, ?_, ?_, ?_, load32_store32 _ _ (by decide)⟩
  · simp only [blockNext]
    rw [load32_store32_of_apart _ _ (by omega), load32_store32_of_apart _ _ (by omega),
      load32_store32 _ _ (by decide)]
  · simp only [blockPrev]
    rw [load32_store32_of_apart _ _ (by omega), load32_store32 _ _ (by decide)]
  · simp only [blockSize]
    rw [load32_store32_of_apart _ _ (by omega), load32_store32_of_apart _ _ (by omega),
      load32_store32_of_apart _ _ (by omega), load32_store8_of_apart _ _ (by omega),
      load32_store32 _ _ (by omega)]
  · simp only [blockFree]
    rw [store32_apply_of_apart _ _ (by omega), store32_apply_of_apart _ _ (by omega),
      store32_apply_of_apart _ _ (by omega)]
    simp [store8]

theorem Layout.setLastNext {m : Mem} {ds : List Block} {l : Block} {e v : Nat}
    (h : Layout m (ds ++ [l]) e) (hv : v < 2 ^ 32) :
    Chain (setNext m l.addr v) 0 (ds ++ [l]) v := by
  obtain ⟨hl, -⟩ := h.header
  refine Chain.append.mpr ⟨?_, hl.setNext hv, trivial⟩
  refine (Chain.append.mp h.chain).1.congr fun x hx => setNext_frame m l.addr v ?_
  have hle := h.before hx
  omega

theorem Layout.head_ne_zero {m : Mem} {ds : List Block} {l : Block} {e : Nat} (h : Layout m (ds ++ [l]) e) :
    headAddr (ds ++ [l]) 0 ≠ 0 := by
  cases ds with
  | nil => exact @Layout.addr_ne_zero _ [] _ _ _ h
  | cons d ds => exact @Layout.addr_ne_zero _ [] _ _ _ h

theorem Layout.lastBlock_head {m : Mem} {ds : List Block} {l : Block} {e : Nat} (h : Layout m (ds ++ [l]) e) :
    lastBlock m walkFuel (headAddr (ds ++ [l]) 0) = some l.addr := by
  cases ds with
  | nil => exact h.lastBlock_spec [] [] l walkFuel (by decide)
  | cons d ds =>
      have hspec := h.lastBlock_spec (ds ++ [l]) [] d walkFuel
        (Nat.lt_of_succ_lt (by simpa using h.length_lt))
      rw [lastAddr_append] at hspec
      exact hspec

theorem headAddr_concat (ds : List Block) (l b : Block) :
    headAddr (ds ++ [l]) 0 = headAddr (ds ++ [l] ++ [b]) 0 := by
  cases ds with
  | nil => rfl
  | cons d ds => rfl

/-- The new pages become a free block at the end of the list. -/
theorem appendBlock_spec {h : KernelHeap σ} {bs : List Block} (size : Nat)
    (hlay : Layout h.mem bs h.currentEnd) (hhead : h.head = headAddr bs 0) (hsize : 20 ≤ size)
    (hfit : h.currentEnd + size < 2 ^ 32) :
    ∃ h', appendBlock h size = some h' ∧
      Layout h'.mem (bs ++ [⟨h.currentEnd, size - 20, true⟩]) h'.currentEnd ∧
      h'.head = headAddr (bs ++ [⟨h.currentEnd, size - 20, true⟩]) 0 ∧
      h'.currentEnd = h.currentEnd + size ∧ h'.env = h.env ∧ KeepsPayloads bs h.mem h'.mem := by
  have hwrap : wrap (h.currentEnd + size) = h.currentEnd + size := wrap_of_lt hfit
  have htiles : Tiles Block.addr Block.len heapStart (bs ++ [⟨h.currentEnd, size - 20, true⟩])
      (h.currentEnd + size) := by
    refine Tiles.append.mpr ⟨h.currentEnd, hlay.tiles, rfl, ?_⟩
    simp only [Tiles, Block.len, sizeofBlock]
    omega
  have hnew := newBlock_header h.mem (a := h.currentEnd) hsize (by omega)
  have hbelow : ∀ b ∈ bs, Same h.mem (newBlock h.mem h.currentEnd size) b.addr (20 + b.size) := by
    intro b hb
    have hle := (hlay.addr_bounds hb).2
    exact newBlock_frame h.mem _ size (by omega)
  rcases List.eq_nil_or_concat bs with rfl | ⟨ds, l, rfl⟩
  · have hzero : h.head = 0 := hhead
    refine ⟨⟨newBlock h.mem h.currentEnd size, h.currentEnd, h.currentEnd + size, h.env⟩, ?_,
      ⟨⟨hnew, trivial⟩, htiles, hfit⟩, rfl, rfl, rfl, fun b hb => absurd hb List.not_mem_nil⟩
    rw [appendBlock, if_pos hzero, hwrap]
  · rw [List.concat_eq_append] at *
    -- the old blocks are where they were, and the walk still ends at the last one
    have hlay₁ : Layout (newBlock h.mem h.currentEnd size) (ds ++ [l]) h.currentEnd :=
      ⟨hlay.chain.congr fun b hb => (hbelow b hb).mono (by omega) (by omega), hlay.tiles, hlay.bound⟩
    have hlast : lastBlock (newBlock h.mem h.currentEnd size) walkFuel h.head = some l.addr := by
      rw [hhead]
      exact hlay₁.lastBlock_head
    have hl := hlay.addr_bounds (b := l) (by simp)
    have hhead' : h.head ≠ 0 := by
      rw [hhead]
      exact hlay.head_ne_zero
    have hframe : ∀ {a n : Nat}, a + n ≤ h.currentEnd → (a + n ≤ l.addr ∨ l.addr + 20 ≤ a) →
        Same (newBlock h.mem h.currentEnd size) (setPrev (setNext (newBlock h.mem h.currentEnd size)
          l.addr h.currentEnd) h.currentEnd l.addr) a n := by
      intro a n hle hout
      exact (setNext_frame _ _ _ hout).trans (setPrev_frame _ _ _ (by omega))
    refine ⟨⟨setPrev (setNext (newBlock h.mem h.currentEnd size) l.addr h.currentEnd) h.currentEnd l.addr,
      h.head, h.currentEnd + size, h.env⟩, ?_, ⟨?_, htiles, hfit⟩, ?_, rfl, rfl, ?_⟩
    · rw [appendBlock, if_neg hhead', hlast, hwrap]
      rfl
    · refine Chain.append.mpr ⟨?_, ?_, trivial⟩
      · refine (hlay₁.setLastNext (v := h.currentEnd) (by omega)).congr fun b hb => ?_
        have hle := (hlay.addr_bounds hb).2
        exact setPrev_frame _ _ _ (by omega)
      · rw [lastAddr_append]
        exact (hnew.congr (setNext_frame _ _ _ (by dsimp only; omega))).setPrev
          (show l.addr < 2 ^ 32 by omega)
    · change h.head = _
      rw [hhead]
      exact headAddr_concat ds l _
    · intro b hb
      have hle := (hlay.addr_bounds hb).2
      refine ((hbelow b hb).mono (by unfold Block.payload sizeofBlock; omega)
        (by unfold Block.payload sizeofBlock; omega)).trans (hframe ?_ ?_)
      · unfold Block.payload sizeofBlock
        omega
      · exact hlay.payload_apart hb (by simp)

section Expand

variable {ops : PageOps σ} {Ok : Nat → σ → Prop}

/-- A list that starts below `e`; it may still be empty, as in `heap_init`. -/
structure Growable (Ok : Nat → σ → Prop) (h : KernelHeap σ) (bs : List Block) : Prop where
  layout : Layout h.mem bs h.currentEnd
  head : h.head = headAddr bs 0
  aligned : h.currentEnd % 4096 = 0
  ok : Ok h.currentEnd h.env

/-- `heap_expand` adds one free block at the end, or leaves the heap alone. -/
theorem expandRetry_spec (hops : Grows ops Ok) {size : Nat} (hpages : size % 4096 = 0)
    (hlt : size < 2 ^ 32) (retries : Nat) :
    ∀ {h : KernelHeap σ} {bs : List Block}, Growable Ok h bs →
      (∃ h', expandRetry ops size retries h = some (.outOfMemory, h') ∧ h'.mem = h.mem ∧
        h'.currentEnd = h.currentEnd ∧ Growable Ok h' bs) ∨
      ∃ h' b, expandRetry ops size retries h = some (.ok, h') ∧ b.free = true ∧ b.addr = h.currentEnd ∧
        Growable Ok h' (bs ++ [b]) ∧ h'.currentEnd = h.currentEnd + size ∧ 4096 ≤ size ∧
        KeepsPayloads bs h.mem h'.mem := by
  induction retries with
  | zero => exact fun {h} {bs} hg => Or.inl ⟨h, rfl, rfl, rfl, hg⟩
  | succ retries ih =>
      intro h bs hg
      rw [expandRetry]
      have hstart := hg.layout.tiles.le
      rcases hops h.currentEnd (size / 4096) h.env hg.ok hg.aligned hstart (by omega) with
        ⟨s', hrun, hok⟩ | ⟨s', hrun, hpos, hfit, hok⟩
      · rw [hrun]
        have hg' : Growable Ok { h with env := s' } bs := ⟨hg.layout, hg.head, hg.aligned, hok⟩
        simpa using ih hg'
      · right
        have hsize : size / 4096 * 4096 = size := by omega
        rw [hsize] at hfit hok
        obtain ⟨h', happ, hlay, hhead, hend, henv, hkeep⟩ :=
          appendBlock_spec (h := { h with env := s' }) size hg.layout hg.head (by omega) hfit
        refine ⟨h', _, ?_, rfl, rfl, ⟨hlay, hhead, ?_, ?_⟩, hend, by omega, hkeep⟩
        · rw [hrun]
          simp [happ]
        · have haligned := hg.aligned
          simp only at hend
          omega
        · rw [hend, henv]
          exact hok

theorem heapExpand_spec (hops : Grows ops Ok) {h : KernelHeap σ} {bs : List Block}
    (hg : Growable Ok h bs) (additionalSize : Nat) :
    (∃ h', heapExpand ops h additionalSize = some (.outOfMemory, h') ∧ h'.mem = h.mem ∧
        h'.currentEnd = h.currentEnd ∧ Growable Ok h' bs) ∨
      ∃ h' b, heapExpand ops h additionalSize = some (.ok, h') ∧ b.free = true ∧
        b.addr = h.currentEnd ∧ Growable Ok h' (bs ++ [b]) ∧ h.currentEnd + 4096 ≤ h'.currentEnd ∧
        KeepsPayloads bs h.mem h'.mem := by
  have hsum := wrap_lt (wrap (additionalSize + sizeofBlock) + (4096 - 1))
  have hmod : alignUp (wrap (additionalSize + sizeofBlock)) 4096 % 4096 = 0 := Nat.mul_mod_left _ _
  have hlt : alignUp (wrap (additionalSize + sizeofBlock)) 4096 < 2 ^ 32 :=
    lt_of_le_of_lt (Nat.div_mul_le_self _ _) hsum
  rcases expandRetry_spec hops hmod hlt 3 hg with hfail | ⟨h', b, hrun, hb, hba, hg', hend, hmin, hkeep⟩
  · exact Or.inl hfail
  · exact Or.inr ⟨h', b, hrun, hb, hba, hg', by omega, hkeep⟩

theorem Growable.good {h : KernelHeap σ} {bs : List Block} (hg : Growable Ok h bs)
    (hstart : heapStart < h.currentEnd) : Good h bs := ⟨hg.layout, hg.head, hg.aligned, hstart⟩

/-- A successful `heap_init` leaves one free block. -/
theorem heapInit_spec (hops : Grows ops Ok) {mem : Mem} {env : σ} {h : KernelHeap σ}
    (hok : Ok heapStart env) (hinit : heapInit ops mem env = some (.ok, h)) :
    ∃ b, Good h [b] ∧ b.free = true ∧ Ok h.currentEnd h.env := by
  have hg : Growable Ok ⟨mem, 0, heapStart, env⟩ [] :=
    ⟨⟨trivial, rfl, show heapStart < 2 ^ 32 by decide⟩, rfl, show heapStart % 4096 = 0 by decide, hok⟩
  unfold heapInit at hinit
  rcases heapExpand_spec hops hg initialHeapSize with ⟨h', hrun, -⟩ | ⟨h', b, hrun, hb, -, hg', hend, -⟩
  · rw [hrun] at hinit
    simp at hinit
  · rw [hrun] at hinit
    cases hinit
    simp only at hend
    exact ⟨b, hg'.good (by omega), hb, hg'.ok⟩

/-- The free blocks touch nowhere, or only at the last block while no other block
fits the request. -/
def Retrying (bs : List Block) (size : Nat) : Prop :=
  NoAdjacentFree bs ∨
    ∃ ds d, bs = ds ++ [d] ∧ NoAdjacentFree ds ∧ ∀ x ∈ ds, ¬ x.Fits size

/-- What `kmalloc` returns: 0 with the same blocks in use, or the payload of a block
that was not in use before. -/
inductive Allocated (bs : List Block) (size : Nat) (ptr : Nat) (h' : KernelHeap σ) : Prop
  | failed (bs' : List Block) : ptr = 0 → Good h' bs' → NoAdjacentFree bs' → used bs' = used bs →
      Allocated bs size ptr h'
  | served (xs : List Block) (b : Block) (ys : List Block) : ptr = b.payload → b.free = false →
      size ≤ b.size → Good h' (xs ++ b :: ys) → NoAdjacentFree (xs ++ b :: ys) →
      used (xs ++ ys) = used bs → Allocated bs size ptr h'

theorem Allocated.congr {bs bs₀ : List Block} {size ptr : Nat} {h' : KernelHeap σ}
    (h : Allocated bs size ptr h') (hused : used bs = used bs₀) : Allocated bs₀ size ptr h' := by
  cases h with
  | failed bs' hp hg hno hu => exact .failed bs' hp hg hno (hu.trans hused)
  | served xs b ys hp hb hs hg hno hu => exact .served xs b ys hp hb hs hg hno (hu.trans hused)

theorem Good.firstFit {h : KernelHeap σ} {bs : List Block} (hg : Good h bs) (size : Nat) :
    (firstFit h.mem size walkFuel h.head = some 0 ∧ ∀ b ∈ bs, ¬ b.Fits size) ∨
      ∃ ps c qs, bs = ps ++ c :: qs ∧ c.Fits size ∧ (∀ p ∈ ps, ¬ p.Fits size) ∧
        firstFit h.mem size walkFuel h.head = some c.addr := by
  rw [hg.head]
  exact hg.layout.firstFit_spec size bs [] walkFuel hg.layout.length_lt

/-- Taking the first block that fits. -/
theorem Good.take {h : KernelHeap σ} {ps qs : List Block} {c : Block} {size : Nat}
    (hg : Good h (ps ++ c :: qs)) (hfit : c.Fits size)
    (hretry : Retrying (ps ++ c :: qs) size) :
    Allocated (ps ++ c :: qs) size (wrap (c.addr + sizeofBlock))
        { h with mem := takeBlock h.mem c.addr size } ∧
      KeepsPayloads (used (ps ++ c :: qs)) h.mem (takeBlock h.mem c.addr size) := by
  obtain ⟨b, zs, hlay, haddr, hfree, hsize, -, hzs, hkeep⟩ := hg.layout.take hfit
  obtain ⟨hlo, hhi, he⟩ := hg.layout.bounds
  have husedzs : used zs = [] := by
    rcases hzs with rfl | ⟨z, rfl, hz⟩
    · rfl
    · exact used_cons_free hz []
  have hused : used (ps ++ (zs ++ qs)) = used (ps ++ c :: qs) := by
    rw [used_append, used_append, husedzs, used_append, used_cons_free hfit.1]
    rfl
  refine ⟨.served ps b (zs ++ qs) ?_ hfree hsize ⟨hlay, ?_, hg.aligned, hg.started⟩ ?_ hused, ?_⟩
  · rw [wrap_of_lt (by unfold sizeofBlock; omega), Block.payload, haddr]
  · change h.head = _
    rw [hg.head, headAddr_append, headAddr_append]
    exact congrArg (headAddr ps) haddr.symm
  · rw [noAdjacentFree_used hfree]
    rcases hretry with hno | ⟨ds, d, heq, hno, hds⟩
    · obtain ⟨hleft, hright⟩ := noAdjacentFree_split.mp hno
      refine ⟨(List.isChain_append.mp (by simpa [NoAdjacentFree] using hleft)).1, ?_⟩
      rw [noAdjacentFree_cons_free] at hright
      rcases hzs with rfl | ⟨z, rfl, hz⟩
      · exact hright.2
      · exact noAdjacentFree_cons_free.mpr ⟨by simpa [hfit.1, hz] using hright.1, hright.2⟩
    · -- nothing before the new block fits, so it is the new block that was found
      have hlast : ps = ds ∧ c = d ∧ qs = [] := by
        rcases List.eq_nil_or_concat qs with rfl | ⟨qs', q, rfl⟩
        · obtain ⟨rfl, hcd⟩ := List.append_inj' heq rfl
          exact ⟨rfl, by simpa using hcd, rfl⟩
        · rw [List.concat_eq_append, ← List.cons_append, ← List.append_assoc] at heq
          obtain ⟨rfl, -⟩ := List.append_inj' heq rfl
          exact absurd hfit (hds c (by simp))
      obtain ⟨rfl, rfl, rfl⟩ := hlast
      refine ⟨hno, ?_⟩
      rcases hzs with rfl | ⟨z, rfl, -⟩
      · exact List.isChain_nil
      · exact List.isChain_singleton _
  · intro u hu
    rw [← hused] at hu
    rw [used_append, used_append, husedzs, List.nil_append, ← used_append] at hu
    exact hkeep u (mem_used.mp hu).1

def coalesced : List Block → List Block
  | [] => []
  | c :: cs => coalesce c cs

theorem Good.defragment_coalesced {h : KernelHeap σ} {bs : List Block} (hg : Good h bs) :
    ∃ mem, heapDefragment h = some { h with mem } ∧ Good { h with mem } (coalesced bs) ∧
      KeepsPayloads (used bs) h.mem mem := by
  obtain ⟨c, ys, rfl⟩ := List.exists_cons_of_ne_nil hg.ne_nil
  obtain ⟨m', hrun, hlay, hkeep⟩ := hg.layout.defragmentFrom_spec ys h.mem [] c walkFuel
    (Nat.lt_of_succ_lt (by simpa using hg.layout.length_lt))
  obtain ⟨-, d, ds, heq, -⟩ := coalesce_noAdjacentFree c ys
  refine ⟨m', ?_, ⟨hlay, ?_, hg.aligned, hg.started⟩, hkeep⟩
  · rw [heapDefragment, hg.head]
    change (defragmentFrom h.mem walkFuel c.addr).bind _ = _
    rw [hrun]
    rfl
  · change h.head = headAddr (coalesce c ys) 0
    rw [hg.head_eq, heq]
    rw [List.nil_append, heq] at hlay
    exact hlay.tiles.1.symm

theorem Good.defragment {h : KernelHeap σ} {bs : List Block} (hg : Good h bs) :
    ∃ h' bs', heapDefragment h = some h' ∧ Good h' bs' ∧ NoAdjacentFree bs' ∧
      used bs' = used bs ∧ h'.currentEnd = h.currentEnd ∧ h'.env = h.env ∧
      KeepsPayloads (used bs) h.mem h'.mem := by
  obtain ⟨mem, hrun, hg', hkeep⟩ := hg.defragment_coalesced
  obtain ⟨c, ys, rfl⟩ := List.exists_cons_of_ne_nil hg.ne_nil
  exact ⟨{ h with mem }, coalesce c ys, hrun, hg', (coalesce_noAdjacentFree c ys).1, used_coalesce c ys,
    rfl, rfl, hkeep⟩

/-- `kmalloc` returns, keeps the heap in order and touches no payload in use. -/
theorem kmallocFuel_spec (hops : Grows ops Ok) {size : Nat} (fuel : Nat) :
    ∀ {h : KernelHeap σ} {bs : List Block}, Good h bs → Ok h.currentEnd h.env → Retrying bs size →
      2 ^ 32 - h.currentEnd < fuel * 4096 → (size = 0 → NoAdjacentFree bs) →
      ∃ ptr h', kmallocFuel ops size fuel h = some (ptr, h') ∧ Allocated bs size ptr h' ∧
        Ok h'.currentEnd h'.env ∧ KeepsPayloads (used bs) h.mem h'.mem := by
  induction fuel with
  | zero =>
      intro h bs hg _ _ hfuel
      have he := hg.layout.bound
      omega
  | succ fuel ih =>
      intro h bs hg hok hretry hfuel hzero
      rw [kmallocFuel]
      by_cases hsize : size = 0
      · rw [if_pos hsize]
        exact ⟨0, h, rfl, .failed bs rfl hg (hzero hsize) rfl, hok, KeepsPayloads.refl _ _⟩
      rw [if_neg hsize]
      rcases hg.firstFit size with ⟨hnone, hall⟩ | ⟨ps, c, qs, rfl, hfit, -, hsome⟩
      · obtain ⟨h₁, bs₁, hdef, hg₁, hno₁, hused₁, hend₁, henv₁, hkeep₁⟩ := hg.defragment
        have hok₁ : Ok h₁.currentEnd h₁.env := by
          rw [hend₁, henv₁]
          exact hok
        rw [hnone]
        simp only [Option.bind_eq_bind, Option.bind_some, ne_eq, not_true_eq_false, if_false, hdef]
        rcases hg₁.firstFit size with ⟨hnone₁, hall₁⟩ | ⟨ps, c, qs, rfl, hfit, -, hsome⟩
        · rw [hnone₁]
          simp only [Option.bind_some, not_true_eq_false, if_false]
          have hgrow : Growable Ok _ bs₁ := ⟨hg₁.layout, hg₁.head, hg₁.aligned, hok₁⟩
          rcases heapExpand_spec hops hgrow (wrap (size + sizeofBlock)) with ⟨h₂, hrun, hmem, hend₂, hg₂⟩ |
              ⟨h₂, b, hrun, hb, -, hg₂, hend₂, hkeep₂⟩
          · rw [hrun]
            refine ⟨0, h₂, rfl, .failed bs₁ rfl (hg₂.good ?_) hno₁ hused₁, hg₂.ok, ?_⟩
            · rw [hend₂]
              exact hg₁.started
            · rw [hmem]
              exact hkeep₁
          · rw [hrun]
            simp only [Option.bind_some, not_true_eq_false, if_false]
            have hstart := hg₁.started
            have hused₂ : used (bs₁ ++ [b]) = used bs := by
              rw [used_append, used_cons_free hb, hused₁]
              exact List.append_nil _
            have hbound := hg₂.layout.bound
            obtain ⟨ptr, h', hrun', halloc, hok', hkeep'⟩ := ih (hg₂.good (by omega)) hg₂.ok
              (Or.inr ⟨bs₁, b, rfl, hno₁, hall₁⟩) (by omega) (fun hz => absurd hz hsize)
            refine ⟨ptr, h', hrun', halloc.congr hused₂, hok', ?_⟩
            rw [hused₂] at hkeep'
            refine hkeep₁.trans (KeepsPayloads.trans (fun c hc => hkeep₂ c ?_) hkeep')
            rw [← hused₁] at hc
            exact (mem_used.mp hc).1
        · have hne := hg₁.layout.addr_ne_zero
          obtain ⟨halloc, hkeep⟩ := hg₁.take hfit (Or.inl hno₁)
          rw [hsome]
          simp only [Option.bind_some, hne, not_false_eq_true, if_true]
          rw [hused₁] at hkeep
          exact ⟨_, _, rfl, halloc.congr hused₁, hok₁, hkeep₁.trans hkeep⟩
      · have hne := hg.layout.addr_ne_zero
        obtain ⟨halloc, hkeep⟩ := hg.take hfit hretry
        rw [hsome]
        simp only [Option.bind_eq_bind, Option.bind_some, ne_eq, hne, not_false_eq_true, if_true]
        exact ⟨_, _, rfl, halloc, hok, hkeep⟩

theorem kmalloc_spec (hops : Grows ops Ok) {h : KernelHeap σ} {bs : List Block} (hg : Good h bs)
    (hno : NoAdjacentFree bs) (hok : Ok h.currentEnd h.env) (size : Nat) :
    ∃ ptr h', kmalloc ops h size = some (ptr, h') ∧ Allocated bs size ptr h' ∧
      Ok h'.currentEnd h'.env ∧ KeepsPayloads (used bs) h.mem h'.mem :=
  kmallocFuel_spec hops walkFuel hg hok (Or.inl hno) (by unfold walkFuel; omega) fun _ => hno

theorem Good.kmalloc_fits {h : KernelHeap σ} {bs : List Block} (hg : Good h bs) (hno : NoAdjacentFree bs)
    {size : Nat} (hsize : size ≠ 0) {d : Block} (hd : d ∈ bs) (hfit : d.Fits size) :
    ∃ ptr mem, kmalloc ops h size = some (ptr, { h with mem }) ∧ ptr ≠ 0 ∧
      Allocated bs size ptr { h with mem } := by
  rw [kmalloc, show walkFuel = (walkFuel - 1) + 1 from rfl, kmallocFuel, if_neg hsize]
  rcases hg.firstFit size with ⟨-, hall⟩ | ⟨ps, c, qs, rfl, hc, -, hsome⟩
  · exact absurd hfit (hall d hd)
  · have hne := hg.layout.addr_ne_zero
    rw [hsome]
    simp only [Option.bind_eq_bind, Option.bind_some, ne_eq, hne, not_false_eq_true, if_true]
    have hbounds := hg.layout.addr_bounds (b := c) (by simp)
    have hend := hg.layout.bound
    refine ⟨_, _, rfl, ?_, (hg.take hc (Or.inl hno)).1⟩
    rw [wrap_of_lt (by unfold sizeofBlock; omega)]
    unfold sizeofBlock
    omega

theorem Good.write {h : KernelHeap σ} {bs : List Block} (hg : Good h bs) {b : Block} (hb : b ∈ bs)
    {m : Mem} (hm : ∀ x, x < b.payload ∨ b.payload + b.size ≤ x → m x = h.mem x) :
    Good { h with mem := m } bs ∧ ∀ c ∈ bs, c ≠ b → Same h.mem m c.payload c.size := by
  refine ⟨⟨⟨hg.layout.chain.congr ?_, hg.layout.tiles, hg.layout.bound⟩, hg.head, hg.aligned,
    hg.started⟩, ?_⟩
  · intro c hc x hlo hhi
    have happart := hg.layout.payload_apart hb hc
    exact hm x (by omega)
  · intro c hc hne x hlo hhi
    have happart := hg.layout.tiles.eq_or_apart hc hb
    unfold Block.len at happart
    unfold Block.payload at hlo hhi hm
    rcases happart with heq | hle
    · exact absurd heq hne
    · exact hm x (by omega)

theorem Good.wsub_payload {h : KernelHeap σ} {bs : List Block} (hg : Good h bs) {b : Block}
    (hb : b ∈ bs) : b.payload ≠ 0 ∧ b.payload < 2 ^ 32 ∧ wsub b.payload sizeofBlock = b.addr := by
  obtain ⟨hlo, hhi⟩ := hg.layout.addr_bounds hb
  have he := hg.layout.bound
  unfold Block.payload sizeofBlock
  unfold heapStart at hlo
  refine ⟨by omega, by omega, ?_⟩
  rw [wsub_of_le (by omega) (by omega)]
  omega

theorem Good.kfree {h : KernelHeap σ} {xs ys : List Block} {b : Block} (hg : Good h (xs ++ b :: ys))
    (hb : b.free = false) (hno : NoAdjacentFree (xs ++ b :: ys)) :
    ∃ bs, Good (kfree h b.payload) bs ∧ NoAdjacentFree bs ∧ used bs = used (xs ++ ys) ∧
      (∃ d ∈ bs, d.free = true ∧ b.size ≤ d.size) ∧
      (kfree h b.payload).currentEnd = h.currentEnd ∧ (kfree h b.payload).env = h.env ∧
      KeepsPayloads (used (xs ++ ys)) h.mem (kfree h b.payload).mem := by
  obtain ⟨hne, -, hsub⟩ := hg.wsub_payload (b := b) (by simp)
  obtain ⟨bs, hlay, hno', hused, hroom, hkeep⟩ := hg.layout.release hb hno
  have heq : Heap.kfree h b.payload = { h with mem := releaseBlock h.mem b.addr } := by
    rw [Heap.kfree, if_neg hne, hsub]
  rw [heq]
  refine ⟨bs, ⟨hlay, ?_, hg.aligned, hg.started⟩, hno', hused, hroom, rfl, rfl, hkeep⟩
  change h.head = headAddr bs 0
  have hstarted := hg.started
  cases bs with
  | nil =>
      have hend : heapStart = h.currentEnd := hlay.tiles
      omega
  | cons c cs =>
      rw [hg.head_eq]
      exact hlay.tiles.1.symm

end Expand

end Frostix.Heap
