import Frostix.Heap.Calloc
import Frostix.Heap.Stale

/-!
The alignment of the heap. `HEAP_ALIGN` rounds up to 4, but no function uses it: a block is split
at the size that was asked for. The address of a header is the sum of all lengths below it, so
the headers stay on multiples of 4 as long as every split is at one. -/
namespace Frostix.Heap
open Machine32 ByteMemory Tiling

variable {σ : Type}

/-- Every header is at a multiple of 4, and so is every pointer that was returned. -/
structure Aligned (s : History σ) : Prop where
  headers : ∃ bs, Tiled s.client bs ∧ ∀ b ∈ bs, 4 ∣ b.addr
  returned : ∀ p ∈ s.returned, 4 ∣ p

/-- A request that shifts no header: it is a multiple of 4, or it is refused, or the free block that
serves it is not split. -/
def OnGrid (ops : PageOps σ) (h : KernelHeap σ) (bs : List Block) (size : Nat) : Prop :=
  4 ∣ size ∨ Refuses ops h bs size ∨ (source h bs size).size ≤ size + 20

/-- The size that a call asks `kmalloc` for; 0 without such a call. -/
def HeapOp.request : HeapOp → Nat
  | .kmalloc size => size
  | .kcalloc num size => wrap (num * size)
  | .krealloc _ size => size
  | .kfree _ => 0
  | .write _ _ _ => 0

def HeapOp.KeepsGrid (ops : PageOps σ) (h : KernelHeap σ) (op : HeapOp) : Prop :=
  ∀ bs, Good h bs → OnGrid ops h bs op.request

def CallStep (ops : PageOps σ) (s : History σ) (op : HeapOp) (s' : History σ) : Prop :=
  op.Allowed s.client ∧ ∃ r c, op.asServed.exec ops s.client = some (r, c) ∧ s' = ⟨c, r :: s.returned⟩

def GridStep (ops : PageOps σ) (s : History σ) (op : HeapOp) (s' : History σ) : Prop :=
  CallStep ops s op s' ∧ op.KeepsGrid ops s.client.heap

def Grid (bs : List Block) : Prop := ∀ b ∈ used bs, 4 ∣ b.addr ∧ 4 ∣ b.size

section Lists
variable {h : KernelHeap σ} {bs : List Block} {size : Nat}

theorem Block.dvd_len_iff (b : Block) : 4 ∣ b.len ↔ 4 ∣ b.size := by
  unfold Block.len sizeofBlock
  omega

theorem dvd_heapStart : 4 ∣ heapStart := by decide

theorem Good.dvd_end (hg : Good h bs) : 4 ∣ h.currentEnd := by
  have hpage := hg.aligned
  omega

theorem Good.dvd_addr_iff (hg : Good h bs) : (∀ b ∈ bs, 4 ∣ b.addr) ↔ ∀ b ∈ bs, 4 ∣ b.size := by
  rw [hg.layout.tiles.dvd_lo_iff dvd_heapStart hg.dvd_end]
  simp only [Block.dvd_len_iff]

theorem dvd_addr_of_grid {s e : Nat} (htiles : Tiles Block.addr Block.len s bs e) (hno : NoAdjacentFree bs)
    (hs : 4 ∣ s) (hgrid : Grid bs) : ∀ b ∈ bs, 4 ∣ b.addr := by
  induction bs generalizing s with
  | nil => exact fun b hb => absurd hb List.not_mem_nil
  | cons b bs ih =>
      obtain ⟨haddr, hrest⟩ := htiles
      have hno' : NoAdjacentFree bs := (noAdjacentFree_cons_free.mp hno).2
      have hgrid' : Grid bs := fun c hc => hgrid c (mem_used.mpr
        ⟨List.mem_cons_of_mem _ (mem_used.mp hc).1, (mem_used.mp hc).2⟩)
      have htail : ∀ c ∈ bs, 4 ∣ c.addr := by
        cases hb : b.free with
        | false =>
            have hsize := (hgrid b (mem_used.mpr ⟨List.mem_cons_self, hb⟩)).2
            exact ih hrest hno' (Nat.dvd_add hs (b.dvd_len_iff.mpr hsize)) hgrid'
        | true =>
            cases bs with
            | nil => exact fun c hc => absurd hc List.not_mem_nil
            | cons d ds =>
                have hd : d.free = false := by
                  have hpair := (noAdjacentFree_cons_free.mp hno).1 d rfl
                  simpa [hb] using hpair
                have hdaddr := (hgrid' d (mem_used.mpr ⟨List.mem_cons_self, hd⟩)).1
                rw [hrest.1] at hdaddr
                exact ih hrest hno' hdaddr hgrid'
      intro c hc
      rcases List.mem_cons.mp hc with rfl | hc
      · rwa [haddr]
      · exact htail c hc

theorem Good.grid_iff (hg : Good h bs) (hno : NoAdjacentFree bs) : Grid bs ↔ ∀ b ∈ bs, 4 ∣ b.addr := by
  constructor
  · exact dvd_addr_of_grid hg.layout.tiles hno dvd_heapStart
  · intro hall b hb
    exact ⟨hall b (mem_used.mp hb).1, hg.dvd_addr_iff.mp hall b (mem_used.mp hb).1⟩

theorem exists_addr_of_mem_coalesce (cs : List Block) :
    ∀ (b : Block), ∀ d ∈ coalesce b cs, ∃ c ∈ b :: cs, d.addr = c.addr := by
  induction cs with
  | nil => exact fun b d hd => ⟨d, hd, rfl⟩
  | cons c cs ih =>
      intro b d hd
      rw [coalesce] at hd
      split_ifs at hd with hboth
      · obtain ⟨x, hx, hdx⟩ := ih _ d hd
        rcases List.mem_cons.mp hx with rfl | hx
        · exact ⟨b, List.mem_cons_self, hdx⟩
        · exact ⟨x, List.mem_cons_of_mem _ (List.mem_cons_of_mem _ hx), hdx⟩
      · rcases List.mem_cons.mp hd with rfl | hd
        · exact ⟨d, List.mem_cons_self, rfl⟩
        · obtain ⟨x, hx, hdx⟩ := ih c d hd
          exact ⟨x, List.mem_cons_of_mem _ hx, hdx⟩

theorem Good.coalesced_aligned (hg : Good h bs) (hall : ∀ b ∈ bs, 4 ∣ b.addr) :
    ∀ b ∈ coalesced bs, 4 ∣ b.addr ∧ 4 ∣ b.size := by
  obtain ⟨mem, -, hg', -⟩ := hg.defragment_coalesced
  have haddr : ∀ b ∈ coalesced bs, 4 ∣ b.addr := by
    obtain ⟨c, cs, rfl⟩ := List.exists_cons_of_ne_nil hg.ne_nil
    intro b hb
    obtain ⟨d, hd, hbd⟩ := exists_addr_of_mem_coalesce cs c b hb
    rw [hbd]
    exact hall d hd
  exact fun b hb => ⟨haddr b hb, hg'.dvd_addr_iff.mp haddr b hb⟩

theorem Good.source_aligned (hg : Good h bs) (hall : ∀ b ∈ bs, 4 ∣ b.addr) (size : Nat) :
    4 ∣ (source h bs size).addr ∧ 4 ∣ (source h bs size).size := by
  rw [source]
  cases hfound : found bs size with
  | none =>
      have hpages := mallocBytes_mod size
      exact ⟨hg.dvd_end, by rw [Option.getD_none]; dsimp only; omega⟩
  | some c =>
      rcases (found_spec hfound).2 with hlist | hcoalesced
      · exact ⟨hall c hlist, hg.dvd_addr_iff.mp hall c hlist⟩
      · exact hg.coalesced_aligned hall c hcoalesced

theorem Block.dvd_takenSize_iff {c : Block} (hc : 4 ∣ c.size) :
    4 ∣ c.takenSize size ↔ 4 ∣ size ∨ c.size ≤ size + 20 := by
  rw [Block.takenSize]
  split_ifs with hsplit
  · omega
  · exact iff_of_true hc (Or.inr (not_lt.mp hsplit))

end Lists

section Calls
variable {ops : PageOps σ} {Ok : Nat → σ → Prop} {h : KernelHeap σ} {s s' : Client σ} {bs : List Block}
  {size r : Nat}

theorem onGrid_zero : OnGrid ops h bs 0 := Or.inl (dvd_zero 4)

/-- What `kmalloc` returns on the grid: null with the same blocks in use for a request on the
grid, or a block at a multiple of 4 whose size is one exactly if the request is on the grid. -/
inductive GridResult (ops : PageOps σ) (h : KernelHeap σ) (bs : List Block) (size ptr : Nat) (h' : KernelHeap σ) :
    Prop
  | null (bs' : List Block) : ptr = 0 → OnGrid ops h bs size → Good h' bs' → NoAdjacentFree bs' →
      used bs' = used bs → GridResult ops h bs size ptr h'
  | block (xs : List Block) (b : Block) (ys : List Block) : ptr = b.payload → b.free = false → size ≤ b.size →
      Good h' (xs ++ b :: ys) → NoAdjacentFree (xs ++ b :: ys) → used (xs ++ ys) = used bs → 4 ∣ b.addr →
      (4 ∣ b.size ↔ OnGrid ops h bs size) → GridResult ops h bs size ptr h'

theorem Good.kmalloc_grid (hg : Good h bs) (hno : NoAdjacentFree bs) (hops : Grows ops Ok)
    (hok : Ok h.currentEnd h.env) (hgrid : Grid bs) {ptr : Nat} {h' : KernelHeap σ}
    (halloc : Allocated bs size ptr h') (hrun : Heap.kmalloc ops h size = some (ptr, h')) :
    GridResult ops h bs size ptr h' := by
  have hall := (hg.grid_iff hno).mp hgrid
  by_cases hsize : size = 0
  · subst hsize
    have hzero : Heap.kmalloc ops h 0 = some (0, h) := rfl
    cases hzero.symm.trans hrun
    exact .null bs rfl onGrid_zero hg hno rfl
  rcases kmalloc_served_or_refused hops hg hok hsize with ⟨hrefuses, h₁, hrun₁⟩ | ⟨hnot, h₁, bs₁, b, hrun₁, hb⟩
  · cases hrun₁.symm.trans hrun
    cases halloc with
    | failed bs' hp hg' hno' hu => exact .null bs' rfl (Or.inr (Or.inl hrefuses)) hg' hno' hu
    | served xs b ys hp hb hs hg' hno' hu => exact absurd hp.symm (hg'.wsub_payload (b := b) (by simp)).1
  · cases hrun₁.symm.trans hrun
    cases halloc with
    | failed bs' hp hg' hno' hu => exact absurd hp hb.payload_ne_zero
    | served xs c ys hp hc hs hg' hno' hu =>
        -- both describe the block behind the same pointer
        obtain rfl : bs₁ = xs ++ c :: ys := Layout.unique bs₁ hb.good.layout.chain hg'.layout.chain
          hb.good.layout.tiles hg'.layout.tiles
        obtain rfl : b = c := hg'.layout.tiles.eq_of_lo (fun d => by unfold Block.len sizeofBlock; omega)
          hb.mem (by simp) (Nat.add_right_cancel hp)
        obtain ⟨haddr, hsource⟩ := hg.source_aligned hall size
        refine .block xs b ys rfl hc hs hg' hno' hu (by rw [hb.addr_eq]; exact haddr) ?_
        rw [hb.size_eq, Block.dvd_takenSize_iff hsource]
        refine or_congr Iff.rfl ⟨Or.inr, ?_⟩
        rintro (hrefuses | hwhole)
        · exact absurd hrefuses hnot
        · exact hwhole

theorem GridResult.dvd {ptr : Nat} {h' : KernelHeap σ} (hres : GridResult ops h bs size ptr h') : 4 ∣ ptr := by
  cases hres with
  | null bs' hp _ _ _ _ =>
      rw [hp]
      exact dvd_zero 4
  | block xs b ys hp _ _ _ _ _ haddr _ =>
      rw [hp, Block.payload]
      exact Nat.dvd_add haddr (by decide)

theorem grid_of_used_append {xs ys : List Block} {b : Block} (hb : b.free = false)
    (hused : used (xs ++ ys) = used bs) (hgrid : Grid bs) (haddr : 4 ∣ b.addr) :
    Grid (xs ++ b :: ys) ↔ 4 ∣ b.size := by
  constructor
  · intro hall
    exact (hall b (mem_used.mpr ⟨by simp, hb⟩)).2
  · intro hsize d hd
    obtain ⟨hmem, hfree⟩ := mem_used.mp hd
    by_cases hdb : d = b
    · rw [hdb]
      exact ⟨haddr, hsize⟩
    · refine hgrid d ?_
      rw [← hused]
      exact mem_used.mpr ⟨mem_of_split_of_ne hmem hdb, hfree⟩

theorem grid_congr {bs' : List Block} (hused : used bs' = used bs) (hgrid : Grid bs) : Grid bs' := by
  intro b hb
  rw [hused] at hb
  exact hgrid b hb

theorem GridResult.grid_iff {ptr : Nat} {h' : KernelHeap σ} (hres : GridResult ops h bs size ptr h')
    (hgrid : Grid bs) : ∃ bs', Good h' bs' ∧ (Grid bs' ↔ OnGrid ops h bs size) := by
  cases hres with
  | null bs' _ hon hg' _ hu => exact ⟨bs', hg', iff_of_true (grid_congr hu hgrid) hon⟩
  | block xs b ys _ hb _ hg' _ hu haddr hiff =>
      exact ⟨xs ++ b :: ys, hg', (grid_of_used_append hb hu hgrid haddr).trans hiff⟩

/-- `kfree` of a live pointer keeps the grid. -/
theorem Integrity.kfree_grid (hint : Integrity s bs) (hgrid : Grid bs) {ptr : Nat} (hptr : s.Holds ptr) :
    ∃ bs', Good (Heap.kfree s.heap ptr) bs' ∧ Grid bs' := by
  rcases hptr with rfl | ⟨n, hn⟩
  · exact ⟨bs, hint.good, hgrid⟩
  obtain ⟨us, b, vs, rfl, hb, rfl, -⟩ := hint.split hn
  obtain ⟨bs', hg', -, hused, -⟩ := hint.good.kfree hb hint.separated
  refine ⟨bs', hg', fun d hd => hgrid d ?_⟩
  rw [hused] at hd
  refine mem_used.mpr ⟨?_, (mem_used.mp hd).2⟩
  rcases List.mem_append.mp (mem_used.mp hd).1 with hu | hv
  · exact List.mem_append_left _ hu
  · exact List.mem_append_right _ (List.mem_cons_of_mem _ hv)

theorem Integrity.kmalloc_grid (hint : Integrity s bs) (hops : Grows ops Ok)
    (hok : Ok s.heap.currentEnd s.heap.env) (hgrid : Grid bs) (size : Nat) :
    ∃ ptr h', Heap.kmalloc ops s.heap size = some (ptr, h') ∧ Allocated bs size ptr h' ∧
      Ok h'.currentEnd h'.env ∧ KeepsPayloads (used bs) s.heap.mem h'.mem ∧
      GridResult ops s.heap bs size ptr h' := by
  obtain ⟨ptr, h', hrun, halloc, hok', hkeep⟩ := kmalloc_spec hops hint.good hint.separated hok size
  exact ⟨ptr, h', hrun, halloc, hok', hkeep,
    hint.good.kmalloc_grid hint.separated hops hok hgrid halloc hrun⟩

/-- `kcalloc` clears bytes inside the block. -/
theorem Integrity.kcalloc_grid (hint : Integrity s bs) (hops : Grows ops Ok)
    (hok : Ok s.heap.currentEnd s.heap.env) (hgrid : Grid bs) {num size : Nat} {h' : KernelHeap σ}
    (hrun : Heap.kcalloc ops s.heap num size = some (r, h')) :
    4 ∣ r ∧ ∃ bs', Good h' bs' ∧ (Grid bs' ↔ OnGrid ops s.heap bs (wrap (num * size))) := by
  rw [Heap.kcalloc] at hrun
  by_cases hzero : wrap (num * size) = 0
  · rw [if_pos hzero] at hrun
    cases hrun
    rw [hzero]
    exact ⟨dvd_zero 4, bs, hint.good, iff_of_true hgrid onGrid_zero⟩
  obtain ⟨ptr, h₁, hcall, -, -, -, hres⟩ := hint.kmalloc_grid hops hok hgrid (wrap (num * size))
  rw [if_neg hzero, hcall] at hrun
  simp only [Option.bind_eq_bind, Option.bind_some] at hrun
  by_cases hnull : ptr = 0
  · rw [if_neg (not_not.mpr hnull)] at hrun
    cases hrun
    exact ⟨hres.dvd, hres.grid_iff hgrid⟩
  · rw [if_pos hnull] at hrun
    cases hrun
    refine ⟨hres.dvd, ?_⟩
    cases hres with
    | null bs' hp _ _ _ _ => exact absurd hp hnull
    | block xs b ys hp hb hroom hg' _ hu haddr hiff =>
        subst hp
        obtain ⟨hg'', -⟩ := hg'.write (b := b) (by simp)
          (m := memset h₁.mem b.payload 0#8 (wrap (num * size))) (fun x hx => by rw [memset, if_neg (by omega)])
        exact ⟨xs ++ b :: ys, hg'', (grid_of_used_append hb hu hgrid haddr).trans hiff⟩

/-- `krealloc` of a live pointer copies into the new block and frees the old one. -/
theorem Integrity.krealloc_grid (hint : Integrity s bs) (hops : Grows ops Ok)
    (hok : Ok s.heap.currentEnd s.heap.env) (hgrid : Grid bs) {ptr size : Nat} (hptr : s.Holds ptr)
    {h' : KernelHeap σ} (hrun : Heap.krealloc ops s.heap ptr size = some (r, h')) :
    4 ∣ r ∧ ∃ bs', Good h' bs' ∧ (Grid bs' ↔ OnGrid ops s.heap bs size) := by
  obtain ⟨new, h₁, hcall, halloc, hok₁, hkeep, hres⟩ := hint.kmalloc_grid hops hok hgrid size
  by_cases hnull : ptr = 0
  · rw [Heap.krealloc, if_pos hnull, hcall] at hrun
    cases hrun
    exact ⟨hres.dvd, hres.grid_iff hgrid⟩
  by_cases hsize : size = 0
  · rw [Heap.krealloc, if_neg hnull, if_pos hsize] at hrun
    cases hrun
    obtain ⟨bs', hg', hgrid'⟩ := hint.kfree_grid hgrid hptr
    rw [hsize]
    exact ⟨dvd_zero 4, bs', hg', iff_of_true hgrid' onGrid_zero⟩
  rcases hptr with hzero | ⟨n, hn⟩
  · exact absurd hzero hnull
  obtain ⟨c, hc, rfl, -⟩ := hint.served ptr n hn
  rw [hint.krealloc_eq hc hsize hcall] at hrun
  have hall := hint.allocated halloc le_rfl
  cases hres with
  | null bs' hp hon hg' _ hu =>
      rw [if_pos hp] at hrun
      cases hrun
      exact ⟨dvd_zero 4, bs', hg', iff_of_true (grid_congr hu hgrid) hon⟩
  | block xs b ys hp hb hroom hg' _ hu haddr hiff =>
      subst hp
      have hbnz := (hg'.wsub_payload (b := b) (by simp)).1
      rw [if_neg hbnz] at hrun
      cases hrun
      obtain ⟨bs₁, hint₁⟩ := hall
      obtain rfl : bs₁ = xs ++ b :: ys := Layout.unique bs₁ hint₁.good.layout.chain hg'.layout.chain
        hint₁.good.layout.tiles hg'.layout.tiles
      rw [← hu] at hc
      have hlive : track s.live b.payload size = (b.payload, size) :: s.live := if_neg hbnz
      rw [hlive] at hint₁
      obtain ⟨⟨bs₂, hint₂, hmem, hsub⟩, -⟩ := @Integrity.move σ Ok _ _ _ _ _ _ _ hint₁ hok₁ hc
        ⟨n, List.mem_cons_of_mem _ hn⟩ hroom hb (hkeep c (by rw [← hu]; exact hc))
      have hcsize : blockSize h₁.mem c.addr = c.size := by
        have hcin : c ∈ xs ++ b :: ys := by
          rcases List.mem_append.mp (mem_used.mp hc).1 with hx | hy
          · exact List.mem_append_left _ hx
          · exact List.mem_append_right _ (List.mem_cons_of_mem _ hy)
        obtain ⟨prev, next, hheader⟩ := hg'.header hcin
        exact hheader.size_eq
      rw [hcsize]
      refine ⟨by rw [Block.payload]; exact Nat.dvd_add haddr (by decide), bs₂, hint₂.good, ?_⟩
      rw [← hiff, ← grid_of_used_append hb hu hgrid haddr]
      constructor
      · exact fun hgrid₂ => (grid_of_used_append hb hu hgrid haddr).mpr (hgrid₂ b hmem).2
      · exact fun hgrid₁ d hd => hgrid₁ d (hsub d hd)

theorem Integrity.step_grid (hint : Integrity s bs) (hops : Grows ops Ok)
    (hok : Ok s.heap.currentEnd s.heap.env) (hgrid : Grid bs) {op : HeapOp} (hop : op.Allowed s)
    (hrun : op.exec ops s = some (r, s')) :
    4 ∣ r ∧ ∃ bs', Good s'.heap bs' ∧ (Grid bs' ↔ OnGrid ops s.heap bs op.request) := by
  cases op with
  | kmalloc size =>
      obtain ⟨ptr, h', hcall, -, -, -, hres⟩ := hint.kmalloc_grid hops hok hgrid size
      rw [HeapOp.exec, hcall] at hrun
      cases hrun
      exact ⟨hres.dvd, hres.grid_iff hgrid⟩
  | kcalloc num size =>
      obtain ⟨⟨ptr, h'⟩, hcall, hrest⟩ := Option.bind_eq_some_iff.mp hrun
      cases hrest
      exact hint.kcalloc_grid hops hok hgrid hcall
  | krealloc ptr size =>
      obtain ⟨⟨new, h'⟩, hcall, hrest⟩ := Option.bind_eq_some_iff.mp hrun
      cases hrest
      exact hint.krealloc_grid hops hok hgrid hop.2 hcall
  | kfree ptr =>
      cases hrun
      obtain ⟨bs', hg', hgrid'⟩ := hint.kfree_grid hgrid hop
      exact ⟨dvd_zero 4, bs', hg', iff_of_true hgrid' onGrid_zero⟩
  | write ptr i v =>
      cases hrun
      obtain ⟨n, hn, hi⟩ := hop
      obtain ⟨b, hb, rfl, hroom⟩ := hint.served ptr n hn
      obtain ⟨hg', -⟩ := hint.good.write (mem_used.mp hb).1 (m := store8 s.heap.mem (b.payload + i) v)
        (fun x hx => by rw [store8, if_neg (by omega)])
      exact ⟨dvd_zero 4, bs, hg', iff_of_true hgrid onGrid_zero⟩

end Calls

section Runs
variable {ops : PageOps σ} {Ok : Nat → σ → Prop}

structure Gridded (Ok : Nat → σ → Prop) (s : History σ) : Prop where
  blocks : ∃ bs, Integrity s.client bs ∧ Grid bs
  ok : Ok s.client.heap.currentEnd s.client.heap.env
  returned : ∀ p ∈ s.returned, 4 ∣ p

theorem Gridded.aligned {s : History σ} (h : Gridded Ok s) : Aligned s := by
  obtain ⟨bs, hint, hgrid⟩ := h.blocks
  exact ⟨⟨bs, hint.tiled, (hint.good.grid_iff hint.separated).mp hgrid⟩, h.returned⟩

theorem HeapOp.asServed_request (op : HeapOp) : op.asServed.request = op.request := by
  cases op with
  | kcalloc num size =>
      change wrap (wrap (num * size) * 1) = wrap (num * size)
      rw [Nat.mul_one, wrap_of_lt (wrap_lt _)]
  | kmalloc size => rfl
  | krealloc ptr size => rfl
  | kfree ptr => rfl
  | write ptr i v => rfl

theorem Tiled.unique {s : Client σ} {bs cs : List Block} (hb : Tiled s bs) (hc : Integrity s cs) : bs = cs :=
  Layout.unique bs hb.linked hc.good.layout.chain hb.tiles hc.good.layout.tiles

theorem Gridded.step (hops : Grows ops Ok) {s s' : History σ} {op : HeapOp} (hs : Gridded Ok s)
    (hstep : CallStep ops s op s') :
    (Aligned s' ↔ op.KeepsGrid ops s.client.heap) ∧ (op.KeepsGrid ops s.client.heap → Gridded Ok s') := by
  obtain ⟨hop, r, c, hrun, rfl⟩ := hstep
  obtain ⟨bs, hint, hgrid⟩ := hs.blocks
  obtain ⟨r', c', hrun', hout, -⟩ := hint.step hops hs.ok hop.asServed (asServed_noOverflow op)
  cases hrun.symm.trans hrun'
  obtain ⟨hr, bs', hg', hiff⟩ := hint.step_grid hops hs.ok hgrid hop.asServed hrun
  rw [op.asServed_request] at hiff
  obtain ⟨bs₁, hint'⟩ := hout.integrity
  obtain rfl : bs₁ = bs' := Layout.unique bs₁ hint'.good.layout.chain hg'.layout.chain
    hint'.good.layout.tiles hg'.layout.tiles
  have hkeeps : op.KeepsGrid ops s.client.heap ↔ OnGrid ops s.client.heap bs op.request := by
    refine ⟨fun hall => hall bs hint.good, fun hon cs hcs => ?_⟩
    obtain rfl : cs = bs := Layout.unique cs hcs.layout.chain hint.good.layout.chain hcs.layout.tiles
      hint.good.layout.tiles
    exact hon
  have hgridded : op.KeepsGrid ops s.client.heap → Gridded Ok ⟨c, r :: s.returned⟩ := by
    intro hall
    refine ⟨⟨bs₁, hint', hiff.mpr (hkeeps.mp hall)⟩, hout.ok, ?_⟩
    intro p hp
    rcases List.mem_cons.mp hp with rfl | hp
    · exact hr
    · exact hs.returned p hp
  refine ⟨⟨?_, fun hall => (hgridded hall).aligned⟩, hgridded⟩
  rintro ⟨⟨cs, htiled, hcs⟩, -⟩
  obtain rfl : cs = bs₁ := htiled.unique hint'
  exact hkeeps.mpr (hiff.mp ((hint'.good.grid_iff hint'.separated).mpr hcs))

theorem gridded_of_run (hops : Grows ops Ok) {mem : Mem} {env : σ} {h : KernelHeap σ} (hok : Ok heapStart env)
    (hinit : heapInit ops mem env = some (.ok, h)) {s : History σ}
    (run : Transition.Run (GridStep ops) ⟨⟨h, []⟩, []⟩ s) : Gridded Ok s := by
  refine run.invariant (fun _ _ _ hstep hs => (hs.step hops hstep.1).2 hstep.2) ?_
  obtain ⟨b, hg, hb, hok'⟩ := heapInit_spec hops hok hinit
  refine ⟨⟨[b], ⟨hg, List.isChain_singleton _, nofun, List.nodup_nil⟩, ?_⟩, hok', nofun⟩
  intro d hd
  rw [used_cons_free hb] at hd
  cases hd

/-- In every run whose requests are on the grid all headers and all returned pointers are multiples
of 4, and a further call keeps them so exactly if its request is on the grid. -/
theorem heap_run_aligned (hops : Grows ops Ok) {mem : Mem} {env : σ} {h : KernelHeap σ} (hok : Ok heapStart env)
    (hinit : heapInit ops mem env = some (.ok, h)) {s : History σ}
    (run : Transition.Run (GridStep ops) ⟨⟨h, []⟩, []⟩ s) :
    Aligned s ∧ ∀ op s', CallStep ops s op s' → (Aligned s' ↔ op.KeepsGrid ops s.client.heap) := by
  have hs := gridded_of_run hops hok hinit run
  exact ⟨hs.aligned, fun op s' hstep => (hs.step hops hstep).1⟩

end Runs

/-- `kmalloc(1)` splits the first block at an odd address, and the next pointer is odd. -/
theorem kmalloc_one_misaligned :
    ∃ h s, heapInit freshPages (fun _ => 0#8) () = some (.ok, h) ∧
      Transition.Run (CallStep freshPages) ⟨⟨h, []⟩, []⟩ s ∧ ¬ Aligned s := by
  obtain ⟨h, hinit, hfirst⟩ := freshPages_init
  have hsome : (freshRun [.kmalloc 4, .kmalloc 1]).isSome := by decide +kernel
  obtain ⟨c₂, h₂⟩ := Option.isSome_iff_exists.mp hsome
  obtain ⟨c₁, r₂, h₁, e₂⟩ := freshRun_cons h₂
  obtain ⟨c₀, r₁, h₀, e₁⟩ := freshRun_cons h₁
  cases hfirst.symm.trans h₀
  have hresult : ((freshRun [.kmalloc 1]).bind fun c => ((HeapOp.kmalloc 4).exec freshPages c).map Prod.fst) =
      some 0xD0000029 := by decide +kernel
  rw [h₁, Option.bind_some, e₂] at hresult
  have hr₂ : r₂ = 0xD0000029 := Option.some.inj hresult
  have run : Transition.Run (CallStep freshPages) ⟨⟨h, []⟩, []⟩ ⟨c₂, [r₂, r₁]⟩ :=
    ((Transition.Run.refl _).snoc (a := .kmalloc 1) ⟨show 1 < 2 ^ 32 by decide, r₁, c₁, e₁, rfl⟩).snoc
      (a := .kmalloc 4) ⟨show 4 < 2 ^ 32 by decide, r₂, c₂, e₂, rfl⟩
  refine ⟨h, _, hinit, run, fun haligned => ?_⟩
  have hdvd := haligned.returned r₂ (by simp)
  rw [hr₂] at hdvd
  exact absurd hdvd (by decide)

theorem heap_run_aligned_small :
    ∃ h s, heapInit freshPages (fun _ => 0#8) () = some (.ok, h) ∧
      Transition.Run (GridStep freshPages) ⟨⟨h, []⟩, []⟩ s ∧ s.client.live = [(0xD0000014, 100)] ∧
      Aligned s ∧ ∀ op s', CallStep freshPages s op s' →
        (Aligned s' ↔ op.KeepsGrid freshPages s.client.heap) := by
  obtain ⟨h, hinit, hfirst⟩ := freshPages_init
  have hrun : (freshRun [.kmalloc 100]).map (fun s => s.live) = some [(0xD0000014, 100)] := by
    decide +kernel
  obtain ⟨c, hc, hlive⟩ := Option.map_eq_some_iff.mp hrun
  obtain ⟨t, r, ht, hexec⟩ := freshRun_cons hc
  cases hfirst.symm.trans ht
  have hon : ∀ bs, Good h bs → OnGrid freshPages h bs 100 := fun _ _ => Or.inl (by decide)
  have run : Transition.Run (GridStep freshPages) ⟨⟨h, []⟩, []⟩ ⟨c, [r]⟩ :=
    (Transition.Run.refl _).snoc (a := .kmalloc 100) ⟨⟨show 100 < 2 ^ 32 by decide, r, c, hexec, rfl⟩, hon⟩
  exact ⟨h, ⟨c, [r]⟩, hinit, run, hlive, heap_run_aligned freshPages_grows trivial hinit run⟩

end Frostix.Heap
