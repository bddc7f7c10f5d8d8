import Frostix.Heap.Alloc
import Frostix.Lib.Transition

/-!
Runs of the heap with its clients. Each allocation is recorded with the size that
was asked for; frees and reallocations name live pointers, and clients may write
anywhere inside what they asked for. -/
namespace Frostix.Heap
open Machine32 ByteMemory Tiling

structure Client (σ : Type) where
  heap : KernelHeap σ
  live : List (Nat × Nat)

/-- A call of the heap interface, or a client's store into its own allocation. -/
inductive HeapOp where
  | kmalloc (size : Nat)
  | kcalloc (num size : Nat)
  | krealloc (ptr size : Nat)
  | kfree (ptr : Nat)
  | write (ptr i : Nat) (v : BitVec 8)

variable {σ : Type}

def track (live : List (Nat × Nat)) (ptr size : Nat) : List (Nat × Nat) :=
  if ptr = 0 then live else (ptr, size) :: live

/-- The allocations without `ptr`. -/
def untrack (live : List (Nat × Nat)) (ptr : Nat) : List (Nat × Nat) :=
  live.filter fun a => a.1 ≠ ptr

/-- Result and successor of one call, with the bookkeeping of what is live. -/
def HeapOp.exec (ops : PageOps σ) (s : Client σ) : HeapOp → Option (Nat × Client σ)
  | .kmalloc size => do
      let (ptr, h) ← Heap.kmalloc ops s.heap size
      some (ptr, ⟨h, track s.live ptr size⟩)
  | .kcalloc num size => do
      let (ptr, h) ← Heap.kcalloc ops s.heap num size
      some (ptr, ⟨h, track s.live ptr (num * size)⟩)
  | .krealloc ptr size => do
      let (new, h) ← Heap.krealloc ops s.heap ptr size
      let live := if new = 0 ∧ size ≠ 0 then s.live else untrack s.live ptr
      some (new, ⟨h, track live new size⟩)
  | .kfree ptr => some (0, ⟨Heap.kfree s.heap ptr, untrack s.live ptr⟩)
  | .write ptr i v => some (0, ⟨{ s.heap with mem := store8 s.heap.mem (ptr + i) v }, s.live⟩)

def HeapOp.target : HeapOp → Nat
  | .kmalloc _ => 0
  | .kcalloc _ _ => 0
  | .krealloc ptr _ => ptr
  | .kfree ptr => ptr
  | .write ptr _ _ => ptr

def Client.Holds (s : Client σ) (ptr : Nat) : Prop := ptr = 0 ∨ ∃ n, (ptr, n) ∈ s.live

def HeapOp.Allowed (s : Client σ) : HeapOp → Prop
  | .kmalloc size => size < 2 ^ 32
  | .kcalloc num size => num < 2 ^ 32 ∧ size < 2 ^ 32
  | .krealloc ptr size => size < 2 ^ 32 ∧ s.Holds ptr
  | .kfree ptr => s.Holds ptr
  | .write ptr i _ => ∃ n, (ptr, n) ∈ s.live ∧ i < n

/-- The product in `kcalloc` fits in a word. -/
def HeapOp.NoOverflow : HeapOp → Prop
  | .kmalloc _ => True
  | .kcalloc num size => num * size < 2 ^ 32
  | .krealloc _ _ => True
  | .kfree _ => True
  | .write _ _ _ => True

def HeapStep (ops : PageOps σ) (s : Client σ) (op : HeapOp) (s' : Client σ) : Prop :=
  op.Allowed s ∧ ∃ r, op.exec ops s = some (r, s')

/-- The same without an overflowing `kcalloc`. -/
def CheckedStep (ops : PageOps σ) (s : Client σ) (op : HeapOp) (s' : Client σ) : Prop :=
  HeapStep ops s op s' ∧ op.NoOverflow

/-- The heap with its clients is described by the block list `bs`. -/
structure Integrity (s : Client σ) (bs : List Block) : Prop where
  good : Good s.heap bs
  separated : NoAdjacentFree bs
  served : ∀ p n, (p, n) ∈ s.live → ∃ b ∈ used bs, b.payload = p ∧ n ≤ b.size
  distinct : (s.live.map Prod.fst).Nodup

structure Outcome (Ok : Nat → σ → Prop) (s : Client σ) (target : Nat) (s' : Client σ) : Prop where
  integrity : ∃ bs, Integrity s' bs
  ok : Ok s'.heap.currentEnd s'.heap.env
  frame : ∀ p n, (p, n) ∈ s.live → p ≠ target → Same s.heap.mem s'.heap.mem p n

theorem mem_untrack {live : List (Nat × Nat)} {ptr p n : Nat} :
    (p, n) ∈ untrack live ptr ↔ (p, n) ∈ live ∧ p ≠ ptr := by
  simp [untrack]

theorem untrack_distinct {live : List (Nat × Nat)} (h : (live.map Prod.fst).Nodup) (ptr : Nat) :
    ((untrack live ptr).map Prod.fst).Nodup :=
  h.sublist (List.filter_sublist.map Prod.fst)

theorem Integrity.same {s : Client σ} {bs : List Block} (h : Integrity s bs) {m : Mem}
    (hkeep : KeepsPayloads (used bs) s.heap.mem m) {p n : Nat} (hp : (p, n) ∈ s.live) :
    Same s.heap.mem m p n := by
  obtain ⟨b, hb, rfl, hn⟩ := h.served p n hp
  exact (hkeep b hb).mono le_rfl (by omega)

theorem Integrity.split {s : Client σ} {bs : List Block} (h : Integrity s bs) {p n : Nat}
    (hp : (p, n) ∈ s.live) :
    ∃ us b vs, bs = us ++ b :: vs ∧ b.free = false ∧ b.payload = p ∧ n ≤ b.size := by
  obtain ⟨b, hb, hpay, hn⟩ := h.served p n hp
  obtain ⟨hmem, hfree⟩ := mem_used.mp hb
  obtain ⟨us, vs, rfl⟩ := List.append_of_mem hmem
  exact ⟨us, b, vs, rfl, hfree, hpay, hn⟩

/-- A block other than `b` is found before or behind it. -/
theorem mem_of_split_of_ne {us vs : List Block} {b d : Block} (hd : d ∈ us ++ b :: vs)
    (hne : d ≠ b) : d ∈ us ++ vs := by
  rcases List.mem_append.mp hd with hu | hv
  · exact List.mem_append_left _ hu
  · rcases List.mem_cons.mp hv with rfl | hv
    · exact absurd rfl hne
    · exact List.mem_append_right _ hv

/-- A block before or behind `b` has another address. -/
theorem Layout.payload_ne {m : Mem} {xs ys : List Block} {b d : Block} {e : Nat}
    (h : Layout m (xs ++ b :: ys) e) (hd : d ∈ xs ++ ys) : d.payload ≠ b.payload := by
  unfold Block.payload
  rcases List.mem_append.mp hd with hx | hy
  · have hle := h.before hx
    omega
  · have hle := h.after hy
    omega

section Calls

variable {ops : PageOps σ} {Ok : Nat → σ → Prop} {s : Client σ} {bs : List Block}

/-- After an allocation the new pointer is live with any size up to the request. -/
theorem Integrity.allocated (h : Integrity s bs) {size n ptr : Nat} {h' : KernelHeap σ}
    (halloc : Allocated bs size ptr h') (hn : n ≤ size) :
    ∃ bs', Integrity ⟨h', track s.live ptr n⟩ bs' := by
  cases halloc with
  | failed bs' hp hg hno hu =>
      subst hp
      refine ⟨bs', hg, hno, ?_, h.distinct⟩
      intro q k hq
      rw [hu]
      exact h.served q k hq
  | served xs b ys hp hb hs hg hno hu =>
      subst hp
      have hnz := (hg.wsub_payload (b := b) (by simp)).1
      have hold : ∀ q k, (q, k) ∈ s.live → ∃ d ∈ used (xs ++ ys), d.payload = q ∧ k ≤ d.size := by
        intro q k hq
        rw [hu]
        exact h.served q k hq
      refine ⟨xs ++ b :: ys, hg, hno, ?_, ?_⟩
      · intro q k hq
        simp only [track, if_neg hnz] at hq
        rcases List.mem_cons.mp hq with heq | hq
        · cases heq
          exact ⟨b, mem_used.mpr ⟨by simp, hb⟩, rfl, by omega⟩
        · obtain ⟨d, hd, hpay, hk⟩ := hold q k hq
          refine ⟨d, ?_, hpay, hk⟩
          rw [used_append] at hd ⊢
          rcases List.mem_append.mp hd with hx | hy
          · exact List.mem_append_left _ hx
          · refine List.mem_append_right _ (mem_used.mpr ⟨?_, (mem_used.mp hy).2⟩)
            exact List.mem_cons_of_mem _ (mem_used.mp hy).1
      · simp only [track, if_neg hnz, List.map_cons, List.nodup_cons]
        refine ⟨?_, h.distinct⟩
        -- the new block is at an address where nothing was in use
        intro hmem
        obtain ⟨⟨q, k⟩, hq, heq⟩ := List.mem_map.mp hmem
        obtain ⟨d, hd, hpay, -⟩ := hold q k hq
        exact hg.layout.payload_ne (mem_used.mp hd).1 (hpay.trans heq)

theorem Integrity.kmalloc (h : Integrity s bs) (hops : Grows ops Ok)
    (hok : Ok s.heap.currentEnd s.heap.env) (size : Nat) :
    ∃ r s', (HeapOp.kmalloc size).exec ops s = some (r, s') ∧ Outcome Ok s 0 s' := by
  obtain ⟨ptr, h', hrun, halloc, hok', hkeep⟩ := kmalloc_spec hops h.good h.separated hok size
  refine ⟨ptr, ⟨h', track s.live ptr size⟩, ?_, h.allocated halloc le_rfl, hok', ?_⟩
  · simp [HeapOp.exec, hrun]
  · exact fun p n hp _ => h.same hkeep hp

theorem Integrity.kcalloc (h : Integrity s bs) (hops : Grows ops Ok)
    (hok : Ok s.heap.currentEnd s.heap.env) {num size : Nat} (hsize : num * size < 2 ^ 32) :
    ∃ r s', (HeapOp.kcalloc num size).exec ops s = some (r, s') ∧ Outcome Ok s 0 s' := by
  have hwrap : wrap (num * size) = num * size := wrap_of_lt hsize
  by_cases hzero : num * size = 0
  · refine ⟨0, s, ?_, ⟨bs, h⟩, hok, fun p n _ _ => Same.refl _ _ _⟩
    simp [HeapOp.exec, Heap.kcalloc, hzero, wrap, track]
  obtain ⟨ptr, h', hrun, halloc, hok', hkeep⟩ :=
    kmalloc_spec hops h.good h.separated hok (num * size)
  cases halloc with
  | failed bs' hp hg hno hu =>
      refine ⟨ptr, ⟨h', track s.live ptr (num * size)⟩, ?_,
        h.allocated (.failed bs' hp hg hno hu) le_rfl, hok', fun p n hp _ => h.same hkeep hp⟩
      simp [HeapOp.exec, Heap.kcalloc, hwrap, hzero, hrun, hp]
  | served xs b ys hp hb hs hg hno hu =>
      have hnz := (hg.wsub_payload (b := b) (by simp)).1
      -- the cleared bytes are inside the new block
      obtain ⟨hg', hother⟩ := hg.write (b := b) (by simp) (m := memset h'.mem b.payload 0#8 (num * size))
        (fun x hx => by rw [memset, if_neg (by omega)])
      refine ⟨ptr, ⟨{ h' with mem := memset h'.mem ptr 0#8 (num * size) },
        track s.live ptr (num * size)⟩, ?_, ?_, hok', ?_⟩
      · simp [HeapOp.exec, Heap.kcalloc, hwrap, hzero, hrun, hp, hnz]
      · rw [hp] at *
        exact h.allocated (.served xs b ys rfl hb hs hg' hno hu) le_rfl
      · intro p n hlive _
        rw [hp]
        refine (h.same hkeep hlive).trans ?_
        obtain ⟨d, hd, rfl, hn⟩ := h.served p n hlive
        rw [← hu] at hd
        have hmem := (mem_used.mp hd).1
        refine (hother d ?_ ?_).mono le_rfl (by omega)
        · rcases List.mem_append.mp hmem with hx | hy
          · exact List.mem_append_left _ hx
          · exact List.mem_append_right _ (List.mem_cons_of_mem _ hy)
        · rintro rfl
          exact hg.layout.payload_ne hmem rfl

theorem Integrity.kfree (h : Integrity s bs) (hok : Ok s.heap.currentEnd s.heap.env) {ptr : Nat}
    (hptr : s.Holds ptr) :
    Outcome Ok s ptr ⟨Heap.kfree s.heap ptr, untrack s.live ptr⟩ := by
  by_cases hzero : ptr = 0
  · subst hzero
    refine ⟨⟨bs, h.good, h.separated, ?_, untrack_distinct h.distinct 0⟩, hok,
      fun p n _ _ => Same.refl _ _ _⟩
    exact fun p n hp => h.served p n (mem_untrack.mp hp).1
  rcases hptr with hnull | ⟨n, hn⟩
  · exact absurd hnull hzero
  obtain ⟨us, b, vs, rfl, hb, rfl, -⟩ := h.split hn
  obtain ⟨bs', hg', hno', hused, -, hend, henv, hkeep⟩ := h.good.kfree hb h.separated
  have hothers : ∀ q k, (q, k) ∈ s.live → q ≠ b.payload →
      ∃ d ∈ used (us ++ vs), d.payload = q ∧ k ≤ d.size := by
    intro q k hq hne
    obtain ⟨d, hd, rfl, hk⟩ := h.served q k hq
    obtain ⟨hmem, hdf⟩ := mem_used.mp hd
    refine ⟨d, mem_used.mpr ⟨mem_of_split_of_ne hmem ?_, hdf⟩, rfl, hk⟩
    rintro rfl
    exact hne rfl
  refine ⟨⟨bs', hg', hno', ?_, untrack_distinct h.distinct _⟩, ?_, ?_⟩
  · intro q k hq
    obtain ⟨hlive, hne⟩ := mem_untrack.mp hq
    rw [hused]
    exact hothers q k hlive hne
  · simp only [hend, henv]
    exact hok
  · intro q k hq hne
    obtain ⟨d, hd, rfl, hk⟩ := hothers q k hq hne
    exact (hkeep d hd).mono le_rfl (by omega)

theorem Integrity.write (h : Integrity s bs) (hok : Ok s.heap.currentEnd s.heap.env) {ptr i n : Nat}
    {v : BitVec 8} (hptr : (ptr, n) ∈ s.live) (hi : i < n) :
    Outcome Ok s ptr ⟨{ s.heap with mem := store8 s.heap.mem (ptr + i) v }, s.live⟩ := by
  obtain ⟨b, hb, rfl, hn⟩ := h.served ptr n hptr
  obtain ⟨hg', hother⟩ := h.good.write (mem_used.mp hb).1 (m := store8 s.heap.mem (b.payload + i) v)
    (fun x hx => by rw [store8, if_neg (by omega)])
  refine ⟨⟨bs, hg', h.separated, h.served, h.distinct⟩, hok, ?_⟩
  intro q k hq hne
  obtain ⟨d, hd, rfl, hk⟩ := h.served q k hq
  refine (hother d (mem_used.mp hd).1 ?_).mono le_rfl (by omega)
  rintro rfl
  exact hne rfl

/-- The content property of `krealloc` on a live pointer `p` and a size above 0: the
copy is made and `p` is released, or nothing happens to `p`. -/
structure Moved (s : Client σ) (p size r : Nat) (s' : Client σ) : Prop where
  done : r ≠ 0 →
    (∀ i < min (blockSize s.heap.mem (p - sizeofBlock)) size, s'.heap.mem (r + i) = s.heap.mem (p + i)) ∧
      (∀ n, (p, n) ∉ s'.live) ∧
      ∀ bs, Good s'.heap bs → ∀ b ∈ bs, b.payload = p → b.free = true
  failed : r = 0 → ∀ n, (p, n) ∈ s.live → (p, n) ∈ s'.live ∧ Same s.heap.mem s'.heap.mem p n

/-- A layout determines its block list. -/
theorem Layout.unique {m : Mem} {e : Nat} (bs : List Block) :
    ∀ {p p' t : Nat} {cs : List Block}, Chain m p bs 0 → Chain m p' cs 0 →
      Tiles Block.addr Block.len t bs e → Tiles Block.addr Block.len t cs e → bs = cs := by
  induction bs with
  | nil =>
      intro p p' t cs _ _ hb hc
      cases cs with
      | nil => rfl
      | cons c cs =>
          have hle := (hc.mem_bounds List.mem_cons_self).2
          have hlo := hc.1
          have hend : t = e := hb
          unfold Block.len sizeofBlock at hle
          omega
  | cons b bs ih =>
      intro p p' t cs hbc hcc hb hc
      cases cs with
      | nil =>
          have hle := (hb.mem_bounds List.mem_cons_self).2
          have hlo := hb.1
          have hend : t = e := hc
          unfold Block.len sizeofBlock at hle
          omega
      | cons c cs =>
          have haddr : b.addr = c.addr := hb.1.trans hc.1.symm
          have hsize : b.size = c.size := by
            rw [← hbc.1.size_eq, ← hcc.1.size_eq, haddr]
          have hfree : b.free = c.free := by
            rw [← hbc.1.free_eq, ← hcc.1.free_eq, haddr]
          obtain ⟨a, n, f⟩ := b
          obtain ⟨a', n', f'⟩ := c
          simp only at haddr hsize hfree
          subst haddr hsize hfree
          rw [ih hbc.2 hcc.2 hb.2 hc.2]

theorem Integrity.kmalloc_fits (h : Integrity s bs) {size : Nat} (hsize : size ≠ 0) {d : Block} (hd : d ∈ bs)
    (hfit : d.Fits size) :
    ∃ r mem, (HeapOp.kmalloc size).exec ops s = some (r, ⟨{ s.heap with mem }, track s.live r size⟩) ∧
      r ≠ 0 ∧ ∃ bs', Integrity ⟨{ s.heap with mem }, track s.live r size⟩ bs' := by
  obtain ⟨r, mem, hrun, hne, halloc⟩ := @Good.kmalloc_fits _ ops _ _ h.good h.separated _ hsize _ hd hfit
  refine ⟨r, mem, ?_, hne, h.allocated halloc le_rfl⟩
  simp [HeapOp.exec, hrun]

theorem Integrity.kfree_room (h : Integrity s bs) {ptr n : Nat} (hptr : (ptr, n) ∈ s.live) :
    ∃ bs', Integrity ⟨Heap.kfree s.heap ptr, untrack s.live ptr⟩ bs' ∧ ∃ d ∈ bs', d.Fits n := by
  obtain ⟨⟨bs₁, h₁⟩, -, -⟩ := @Integrity.kfree _ (fun _ _ => True) _ _ h trivial _ (Or.inr ⟨n, hptr⟩)
  obtain ⟨us, b, vs, rfl, hb, rfl, hn⟩ := h.split hptr
  obtain ⟨bs₂, hg₂, -, -, ⟨d, hd, hfree, hsize⟩, -⟩ := h.good.kfree hb h.separated
  obtain rfl : bs₁ = bs₂ :=
    Layout.unique bs₁ h₁.good.layout.chain hg₂.layout.chain h₁.good.layout.tiles hg₂.layout.tiles
  exact ⟨bs₁, h₁, d, hd, hfree, le_trans hn hsize⟩

/-- The last part of `krealloc`: the payload is copied into the new block and the old
block is released. -/
theorem Integrity.move {xs ys : List Block} {b c : Block} {m₀ : Mem} {size : Nat}
    (h : Integrity s (xs ++ b :: ys)) (hok : Ok s.heap.currentEnd s.heap.env)
    (hc : c ∈ used (xs ++ ys)) (hclive : ∃ n, (c.payload, n) ∈ s.live) (hsize : size ≤ b.size)
    (hb : b.free = false) (hsame : Same m₀ s.heap.mem c.payload c.size) :
    let h' := Heap.kfree { s.heap with mem := memcpy s.heap.mem b.payload c.payload (min c.size size) }
      c.payload
    (∃ bs, Integrity (⟨h', untrack s.live c.payload⟩ : Client σ) bs ∧ b ∈ used bs ∧
        ∀ d ∈ used bs, d ∈ used (xs ++ b :: ys)) ∧ Ok h'.currentEnd h'.env ∧
      (∀ q k, (q, k) ∈ s.live → q ≠ c.payload → q ≠ b.payload → Same s.heap.mem h'.mem q k) ∧
      (∀ i < min c.size size, h'.mem (b.payload + i) = m₀ (c.payload + i)) ∧
      ∀ bs, Good h' bs → ∀ d ∈ bs, d.payload = c.payload → d.free = true := by
  intro h'
  obtain ⟨hcmem, hcfree⟩ := mem_used.mp hc
  have hne : c ≠ b := by
    rintro rfl
    exact h.good.layout.payload_ne hcmem rfl
  have hcin : c ∈ xs ++ b :: ys := by
    rcases List.mem_append.mp hcmem with hx | hy
    · exact List.mem_append_left _ hx
    · exact List.mem_append_right _ (List.mem_cons_of_mem _ hy)
  have hapart := h.good.layout.tiles.eq_or_apart hcin (show b ∈ xs ++ b :: ys by simp)
  have hcopy := memcpy_apply s.heap.mem b.payload c.payload (min c.size size) (by
    unfold Block.payload sizeofBlock
    unfold Block.len sizeofBlock at hapart
    rcases hapart with heq | hle
    · exact absurd heq hne
    · omega)
  -- only the payload of the new block is written
  obtain ⟨hg₁, hother⟩ := h.good.write (b := b) (by simp)
    (m := memcpy s.heap.mem b.payload c.payload (min c.size size)) (fun x hx => by
      rw [hcopy, if_neg (by omega)])
  have h₁ : Integrity (⟨{ s.heap with mem := memcpy s.heap.mem b.payload c.payload (min c.size size) },
      s.live⟩ : Client σ) (xs ++ b :: ys) := ⟨hg₁, h.separated, h.served, h.distinct⟩
  have hfreed : Outcome Ok _ c.payload _ := h₁.kfree hok (Or.inr hclive)
  obtain ⟨us, vs, heq⟩ := List.append_of_mem hcin
  rw [heq] at hg₁
  obtain ⟨bs', hg', hno', hused, -, -, -, hkeep⟩ := hg₁.kfree hcfree (by rw [← heq]; exact h.separated)
  have hbin : b ∈ used (us ++ vs) := by
    refine mem_used.mpr ⟨mem_of_split_of_ne (b := c) ?_ (Ne.symm hne), hb⟩
    rw [← heq]
    simp
  refine ⟨?_, hfreed.ok, ?_, ?_, ?_⟩
  · obtain ⟨bs₁, hint⟩ := hfreed.integrity
    obtain rfl : bs₁ = bs' := Layout.unique bs₁ hint.good.layout.chain hg'.layout.chain
      hint.good.layout.tiles hg'.layout.tiles
    refine ⟨bs₁, hint, by rw [hused]; exact hbin, fun d hd => ?_⟩
    rw [hused] at hd
    rw [heq]
    refine mem_used.mpr ⟨?_, (mem_used.mp hd).2⟩
    rcases List.mem_append.mp (mem_used.mp hd).1 with hu | hv
    · exact List.mem_append_left _ hu
    · exact List.mem_append_right _ (List.mem_cons_of_mem _ hv)
  · intro q k hq hqc hqb
    refine Same.trans ?_ (hfreed.frame q k hq hqc)
    obtain ⟨d, hd, rfl, hk⟩ := h.served q k hq
    refine (hother d (mem_used.mp hd).1 ?_).mono le_rfl (by omega)
    rintro rfl
    exact hqb rfl
  · intro i hi
    have hkept := hkeep b hbin (b.payload + i) (by omega) (by omega)
    change h'.mem (b.payload + i) = _
    rw [hkept]
    change memcpy s.heap.mem b.payload c.payload (min c.size size) (b.payload + i) = _
    rw [hcopy, if_pos (by omega), show c.payload + (b.payload + i - b.payload) = c.payload + i by omega]
    exact hsame _ (by omega) (by omega)
  · intro bs hbs d hd hpay
    have hbs' : bs = bs' :=
      Layout.unique bs hbs.layout.chain hg'.layout.chain hbs.layout.tiles hg'.layout.tiles
    subst hbs'
    by_contra hdf
    have hdused : d ∈ used bs := mem_used.mpr ⟨hd, by simpa using hdf⟩
    rw [hused] at hdused
    exact hg₁.layout.payload_ne (mem_used.mp hdused).1 hpay

theorem Good.header {h : KernelHeap σ} (hg : Good h bs) {c : Block} (hc : c ∈ bs) :
    ∃ prev next, Header h.mem c prev next := by
  obtain ⟨us, vs, rfl⟩ := List.append_of_mem hc
  exact ⟨_, _, hg.layout.header.1⟩

/-- `krealloc` on a block in use and a size above 0, behind its call of `kmalloc`. -/
theorem Integrity.krealloc_eq (h : Integrity s bs) {c : Block} (hc : c ∈ used bs) {size : Nat} (hsize : size ≠ 0)
    {r : Nat} {h' : KernelHeap σ} (hrun : Heap.kmalloc ops s.heap size = some (r, h')) :
    Heap.krealloc ops s.heap c.payload size = some (if r = 0 then (0, h') else
      (r, Heap.kfree { h' with mem := memcpy h'.mem r c.payload (min (blockSize h'.mem c.addr) size) }
        c.payload)) := by
  obtain ⟨hcmem, hcfree⟩ := mem_used.mp hc
  obtain ⟨hnz, -, hsub⟩ := h.good.wsub_payload hcmem
  obtain ⟨prev, next, hheader⟩ := h.good.header hcmem
  have hguard : ¬ (blockMagic s.heap.mem c.addr ≠ heapMagic ∨ blockFree s.heap.mem c.addr = true) := by
    rw [hheader.magic_eq, hheader.free_eq, hcfree]
    simp
  rw [Heap.krealloc, if_neg hnz, if_neg hsize]
  simp only [hsub, if_neg hguard, hrun, Option.bind_eq_bind, Option.bind_some]
  split_ifs with hr
  · rfl
  · rfl

theorem Integrity.krealloc (h : Integrity s bs) (hops : Grows ops Ok)
    (hok : Ok s.heap.currentEnd s.heap.env) {ptr : Nat} (size : Nat) (hptr : s.Holds ptr) :
    ∃ r s', (HeapOp.krealloc ptr size).exec ops s = some (r, s') ∧ Outcome Ok s ptr s' ∧
      (ptr ≠ 0 → 0 < size → Moved s ptr size r s') := by
  by_cases hnull : ptr = 0
  · subst hnull
    obtain ⟨ptr, h', hrun, halloc, hok', hkeep⟩ := kmalloc_spec hops h.good h.separated hok size
    have hsame : untrack s.live 0 = s.live := by
      refine List.filter_eq_self.mpr ?_
      rintro ⟨p, n⟩ hp
      obtain ⟨b, hb, rfl, -⟩ := h.served p n hp
      simpa using (h.good.wsub_payload (mem_used.mp hb).1).1
    refine ⟨ptr, ⟨h', track s.live ptr size⟩, ?_,
      ⟨h.allocated halloc le_rfl, hok', fun p n hp _ => h.same hkeep hp⟩, fun hne => absurd rfl hne⟩
    simp [HeapOp.exec, Heap.krealloc, hrun, hsame]
  rcases hptr with hzero | ⟨n, hn⟩
  · exact absurd hzero hnull
  by_cases hsize : size = 0
  · subst hsize
    refine ⟨0, ⟨Heap.kfree s.heap ptr, untrack s.live ptr⟩, ?_, h.kfree hok (Or.inr ⟨n, hn⟩),
      fun _ hlt => absurd hlt (lt_irrefl 0)⟩
    simp [HeapOp.exec, Heap.krealloc, hnull, track]
  obtain ⟨c, hc, rfl, hcn⟩ := h.served ptr n hn
  obtain ⟨hcmem, hcfree⟩ := mem_used.mp hc
  obtain ⟨prev, next, hheader⟩ := h.good.header hcmem
  have hbsize : blockSize s.heap.mem (c.payload - sizeofBlock) = c.size := by
    rw [show c.payload - sizeofBlock = c.addr from Nat.add_sub_cancel ..]
    exact hheader.size_eq
  obtain ⟨ptr, h', hrun, halloc, hok', hkeep⟩ := kmalloc_spec hops h.good h.separated hok size
  have hall := h.allocated halloc le_rfl
  have hcall := h.krealloc_eq hc hsize hrun
  cases halloc with
  | failed bs' hp hg hno hu =>
      subst hp
      refine ⟨0, ⟨h', s.live⟩, ?_, ⟨by simpa [track] using hall, hok', fun p n hp _ => h.same hkeep hp⟩,
        fun _ _ => ⟨fun hne => absurd rfl hne, fun _ k hk => ⟨hk, h.same hkeep hk⟩⟩⟩
      simp [HeapOp.exec, hcall, hsize, track]
  | served xs b ys hp hb hs hg hno hu =>
      subst hp
      obtain ⟨hbnz, -, -⟩ := hg.wsub_payload (b := b) (by simp)
      rw [← hu] at hc
      have hcne : c.payload ≠ b.payload := hg.layout.payload_ne (mem_used.mp hc).1
      obtain ⟨bs₁, h₁⟩ := hall
      have heq : bs₁ = xs ++ b :: ys :=
        Layout.unique bs₁ h₁.good.layout.chain hg.layout.chain h₁.good.layout.tiles hg.layout.tiles
      subst heq
      have hlive₁ : track s.live b.payload size = (b.payload, size) :: s.live := if_neg hbnz
      rw [hlive₁] at h₁
      obtain ⟨hint, hok₁, hframe, hcopy, hgone⟩ := @Integrity.move σ Ok _ _ _ _ _ _ _ h₁ hok' hc
        ⟨n, List.mem_cons_of_mem _ hn⟩ hs hb (hkeep c (by rw [← hu]; exact hc))
      have hlive₂ : untrack ((b.payload, size) :: s.live) c.payload =
          (b.payload, size) :: untrack s.live c.payload := by
        simp [untrack, hcne.symm]
      have hsize' : blockSize h'.mem c.addr = c.size := by
        have hcin : c ∈ xs ++ b :: ys := by
          rcases List.mem_append.mp (mem_used.mp hc).1 with hx | hy
          · exact List.mem_append_left _ hx
          · exact List.mem_append_right _ (List.mem_cons_of_mem _ hy)
        obtain ⟨prev', next', hheader'⟩ := hg.header hcin
        exact hheader'.size_eq
      rw [hlive₂] at hint
      obtain ⟨bs', hint, -⟩ := hint
      refine ⟨b.payload, _, ?_, ⟨⟨bs', hint⟩, hok₁, ?_⟩,
        fun _ _ => ⟨fun _ => ⟨?_, ?_, hgone⟩, fun hz => absurd hz hbnz⟩⟩
      · simp [HeapOp.exec, hcall, hbnz, hsize', track]
      · intro q k hq hqne
        refine (h.same hkeep hq).trans (hframe q k (List.mem_cons_of_mem _ hq) hqne ?_)
        have hnodup := h₁.distinct
        rw [List.map_cons, List.nodup_cons] at hnodup
        rintro rfl
        exact hnodup.1 (List.mem_map.mpr ⟨_, hq, rfl⟩)
      · rw [hbsize]
        exact hcopy
      · intro k hk
        rcases List.mem_cons.mp hk with heq | hk
        · exact hcne (congrArg Prod.fst heq)
        · exact (mem_untrack.mp hk).2 rfl

theorem Integrity.step (h : Integrity s bs) (hops : Grows ops Ok)
    (hok : Ok s.heap.currentEnd s.heap.env) {op : HeapOp} (hop : op.Allowed s) (hfit : op.NoOverflow) :
    ∃ r s', op.exec ops s = some (r, s') ∧ Outcome Ok s op.target s' ∧
      ∀ p size, op = .krealloc p size → p ≠ 0 → 0 < size → Moved s p size r s' := by
  cases op with
  | kmalloc size =>
      obtain ⟨r, s', hrun, hout⟩ := h.kmalloc hops hok size
      exact ⟨r, s', hrun, hout, nofun⟩
  | kcalloc num size =>
      obtain ⟨r, s', hrun, hout⟩ := h.kcalloc hops hok hfit
      exact ⟨r, s', hrun, hout, nofun⟩
  | krealloc ptr size =>
      obtain ⟨r, s', hrun, hout, hmoved⟩ := h.krealloc hops hok size hop.2
      refine ⟨r, s', hrun, hout, ?_⟩
      rintro p n heq
      cases heq
      exact hmoved
  | kfree ptr => exact ⟨0, _, rfl, h.kfree hok hop, nofun⟩
  | write ptr i v =>
      obtain ⟨n, hn, hi⟩ := hop
      exact ⟨0, _, rfl, h.write hok hn hi, nofun⟩

end Calls

structure Tiled (s : Client σ) (bs : List Block) : Prop where
  head : s.heap.head = heapStart
  linked : Chain s.heap.mem 0 bs 0
  tiles : Tiles Block.addr Block.len heapStart bs s.heap.currentEnd
  separated : NoAdjacentFree bs
  served : ∀ p n, (p, n) ∈ s.live →
    ∃ b ∈ bs, b.payload = p ∧ b.free = false ∧ n ≤ b.size ∧ ∀ c ∈ bs, c.payload = p → c = b

theorem Integrity.tiled {s : Client σ} {bs : List Block} (h : Integrity s bs) : Tiled s bs := by
  refine ⟨h.good.head_eq, h.good.layout.chain, h.good.layout.tiles, h.separated, ?_⟩
  intro p n hp
  obtain ⟨b, hb, rfl, hn⟩ := h.served p n hp
  obtain ⟨hmem, hfree⟩ := mem_used.mp hb
  refine ⟨b, hmem, rfl, hfree, hn, ?_⟩
  intro c hc hpay
  exact h.good.layout.tiles.eq_of_lo (fun d => by unfold Block.len sizeofBlock; omega) hc hmem
    (Nat.add_right_cancel hpay)

theorem Integrity.totalSize {s : Client σ} {bs : List Block} (h : Integrity s bs) :
    heapGetTotalSize s.heap = some (s.heap.currentEnd - heapStart) := by
  unfold heapGetTotalSize
  rw [h.good.head]
  exact h.good.layout.totalSizeFrom_spec bs [] heapStart 0 walkFuel h.good.layout.length_lt
    h.good.layout.tiles (Nat.zero_add _)

/-- What holds in every state of a run without an overflowing `kcalloc`. -/
def Running (Ok : Nat → σ → Prop) (s : Client σ) : Prop :=
  (∃ bs, Integrity s bs) ∧ Ok s.heap.currentEnd s.heap.env

theorem running_of_run {ops : PageOps σ} {Ok : Nat → σ → Prop} (hops : Grows ops Ok) {mem : Mem}
    {env : σ} {h : KernelHeap σ} (hok : Ok heapStart env)
    (hinit : heapInit ops mem env = some (.ok, h)) {s : Client σ}
    (run : Transition.Run (CheckedStep ops) ⟨h, []⟩ s) : Running Ok s := by
  refine run.invariant ?_ ?_
  · rintro s op t ⟨⟨hop, r, hrun⟩, hfit⟩ ⟨⟨bs, hint⟩, hok⟩
    obtain ⟨r', t', hrun', hout, -⟩ := hint.step hops hok hop hfit
    cases hrun.symm.trans hrun'
    exact ⟨hout.integrity, hout.ok⟩
  · obtain ⟨b, hg, hb, hok'⟩ := heapInit_spec hops hok hinit
    exact ⟨⟨[b], hg, List.isChain_singleton _, nofun, List.nodup_nil⟩, hok'⟩

/-- In every run without an overflowing `kcalloc` the blocks tile the heap, live
pointers have blocks of the requested size, and every call comes back. -/
theorem heap_run_tiled {ops : PageOps σ} {Ok : Nat → σ → Prop} (hops : Grows ops Ok) {mem : Mem}
    {env : σ} {h : KernelHeap σ} (hok : Ok heapStart env)
    (hinit : heapInit ops mem env = some (.ok, h)) {s : Client σ}
    (run : Transition.Run (CheckedStep ops) ⟨h, []⟩ s) :
    (∃ bs, Tiled s bs) ∧ heapGetTotalSize s.heap = some (s.heap.currentEnd - heapStart) ∧
      ∀ op : HeapOp, op.Allowed s → op.NoOverflow → ∃ r s', op.exec ops s = some (r, s') := by
  obtain ⟨⟨bs, hint⟩, hok'⟩ := running_of_run hops hok hinit run
  refine ⟨⟨bs, hint.tiled⟩, hint.totalSize, ?_⟩
  intro op hop hfit
  obtain ⟨r, s', hrun, -⟩ := hint.step hops hok' hop hfit
  exact ⟨r, s', hrun⟩

/-- In every such run a call changes no byte of any other live allocation, and
`krealloc` moves the contents or leaves everything as it is. -/
theorem heap_run_frame {ops : PageOps σ} {Ok : Nat → σ → Prop} (hops : Grows ops Ok) {mem : Mem}
    {env : σ} {h : KernelHeap σ} (hok : Ok heapStart env)
    (hinit : heapInit ops mem env = some (.ok, h)) {s s' : Client σ} {op : HeapOp} {r : Nat}
    (run : Transition.Run (CheckedStep ops) ⟨h, []⟩ s) (hop : op.Allowed s) (hfit : op.NoOverflow)
    (hrun : op.exec ops s = some (r, s')) :
    (∀ p n, (p, n) ∈ s.live → p ≠ op.target → Same s.heap.mem s'.heap.mem p n) ∧
      ∀ p size, op = .krealloc p size → p ≠ 0 → 0 < size → Moved s p size r s' := by
  obtain ⟨⟨bs, hint⟩, hok'⟩ := running_of_run hops hok hinit run
  obtain ⟨r', t, hrun', hout, hmoved⟩ := hint.step hops hok' hop hfit
  cases hrun.symm.trans hrun'
  exact ⟨hout.frame, hmoved⟩

/-- The page functions may answer anything, as long as no page is handed out for a
request of none and the heap is not mapped past 4 GiB. -/
theorem Grows.of_outcomes {ops : PageOps σ} (hzero : ∀ s, (ops.pmmAllocPages s 0).1 = 0)
    (hreturn : ∀ s virt phys count flags, ops.vmmMapPages s virt phys count flags ≠ none)
    (hfits : ∀ s virt phys count flags s', ops.vmmMapPages s virt phys count flags = some (.ok, s') →
      virt + count * 4096 < 2 ^ 32) : Grows ops fun _ _ => True := by
  intro e n s _ _ _ _
  unfold expandOnce
  by_cases hphys : (ops.pmmAllocPages s n).1 = 0
  · exact Or.inl ⟨_, if_pos hphys, trivial⟩
  obtain ⟨⟨status, s'⟩, hmap⟩ := Option.ne_none_iff_exists'.mp (hreturn (ops.pmmAllocPages s n).2 e
    (ops.pmmAllocPages s n).1 n (pageFlagPresent + pageFlagRw))
  simp only [hphys, if_false, hmap, Option.bind_eq_bind, Option.bind_some]
  by_cases hstatus : status = .ok
  · subst hstatus
    refine Or.inr ⟨s', if_neg fun hc => hc rfl, ?_, hfits _ _ _ _ _ _ hmap, trivial⟩
    rcases Nat.eq_zero_or_pos n with rfl | hpos
    · exact absurd (hzero s) hphys
    · exact hpos
  · exact Or.inl ⟨_, if_pos hstatus, trivial⟩

def freshPages : PageOps Unit where
  pmmAllocPages := fun _ count => (if count = 0 then 0 else 0x400000, ())
  vmmMapPages := fun _ virt _ count _ =>
    some (if virt + count * 4096 < 2 ^ 32 then .ok else .alreadyMapped, ())
  pmmFreePages := fun _ _ _ => ()

theorem freshPages_grows : Grows freshPages fun _ _ => True := by
  refine Grows.of_outcomes (fun _ => rfl) (fun _ _ _ _ _ => Option.some_ne_none _) ?_
  intro _ virt _ count _ _ hmap
  by_contra hle
  simp only [freshPages, if_neg hle] at hmap
  cases hmap

/-- The state after `heap_init` and some calls, from cleared memory. -/
def freshRun : List HeapOp → Option (Client Unit) :=
  Transition.execAll (fun op s => op.exec freshPages s)
    ((heapInit freshPages (fun _ => 0#8) ()).map fun x => ⟨x.2, []⟩)

theorem freshPages_init :
    ∃ h, heapInit freshPages (fun _ => 0#8) () = some (.ok, h) ∧ freshRun [] = some ⟨h, []⟩ := by
  have hstatus : (heapInit freshPages (fun _ => 0#8) ()).map Prod.fst = some .ok := by decide +kernel
  obtain ⟨⟨status, h⟩, hrun, rfl⟩ := Option.map_eq_some_iff.mp hstatus
  exact ⟨h, hrun, by rw [freshRun, Transition.execAll, hrun]; rfl⟩

theorem freshRun_cons {op : HeapOp} {earlier : List HeapOp} {s : Client Unit}
    (h : freshRun (op :: earlier) = some s) :
    ∃ t r, freshRun earlier = some t ∧ op.exec freshPages t = some (r, s) :=
  Transition.execAll_cons h

/-- `kcalloc(0x10000, 0x10001)` asks for more than 4 GiB and gets 64 KiB: no block
list gives it what it asked for. -/
theorem kcalloc_overflow_untiled :
    ∃ h s, heapInit freshPages (fun _ => 0#8) () = some (.ok, h) ∧
      Transition.Run (HeapStep freshPages) ⟨h, []⟩ s ∧ ∀ bs, ¬ Tiled s bs := by
  obtain ⟨h, hinit, hfirst⟩ := freshPages_init
  have hrun : (freshRun [.kcalloc 0x10000 0x10001]).map (fun s => (s.live, s.heap.currentEnd)) =
      some ([(0xD0000014, 0x100010000)], 0xD0401000) := by decide +kernel
  obtain ⟨s, hs, hdata⟩ := Option.map_eq_some_iff.mp hrun
  obtain ⟨t, r, ht, hexec⟩ := freshRun_cons hs
  cases hfirst.symm.trans ht
  refine ⟨h, s, hinit, (Transition.Run.refl _).snoc (a := .kcalloc 0x10000 0x10001)
    ⟨⟨by decide, by decide⟩, r, hexec⟩, ?_⟩
  intro bs htiled
  obtain ⟨hlive, hend⟩ := Prod.mk.inj hdata
  obtain ⟨b, hb, -, -, hn, -⟩ := htiled.served 0xD0000014 0x100010000 (by rw [hlive]; simp)
  have hbounds := htiled.tiles.mem_bounds hb
  rw [hend] at hbounds
  unfold Block.len sizeofBlock at hbounds
  omega

/-- The next `kmalloc` writes a header into what the overflowing `kcalloc` promised. -/
theorem kcalloc_overflow_overwritten :
    ∃ h s s' r, heapInit freshPages (fun _ => 0#8) () = some (.ok, h) ∧
      Transition.Run (HeapStep freshPages) ⟨h, []⟩ s ∧
      (HeapOp.kmalloc 16).exec freshPages s = some (r, s') ∧
      (0xD0000014, 0x100010000) ∈ s.live ∧ 0xD0000014 ≠ (HeapOp.kmalloc 16).target ∧
      ¬ Same s.heap.mem s'.heap.mem 0xD0000014 0x100010000 := by
  obtain ⟨h, hinit, hfirst⟩ := freshPages_init
  have hrun : (freshRun [.kcalloc 0x10000 0x10001]).map (fun s => (s.live, s.heap.mem 0xD0010020)) =
      some ([(0xD0000014, 0x100010000)], 1#8) := by decide +kernel
  have hrun' : (freshRun [.kmalloc 16, .kcalloc 0x10000 0x10001]).map
      (fun s => s.heap.mem 0xD0010020) = some 0#8 := by decide +kernel
  obtain ⟨s', hs', hbyte'⟩ := Option.map_eq_some_iff.mp hrun'
  obtain ⟨s, r, hs, hexec'⟩ := freshRun_cons hs'
  obtain ⟨t, r₀, ht, hexec⟩ := freshRun_cons hs
  cases hfirst.symm.trans ht
  rw [hs] at hrun
  obtain ⟨hlive, hbyte⟩ := Prod.mk.inj (Option.some.inj hrun)
  refine ⟨h, s, s', r, hinit, (Transition.Run.refl _).snoc (a := .kcalloc 0x10000 0x10001)
    ⟨⟨by decide, by decide⟩, r₀, hexec⟩, hexec', by rw [hlive]; simp, by decide, ?_⟩
  intro hsame
  have hkept := hsame 0xD0010020 (by decide) (by decide)
  rw [hbyte, hbyte'] at hkept
  exact absurd hkept (by decide)

/-- One allocation, and its contents after it is moved. -/
theorem heap_run_tiled_small :
    ∃ h s, heapInit freshPages (fun _ => 0#8) () = some (.ok, h) ∧
      Transition.Run (CheckedStep freshPages) ⟨h, []⟩ s ∧ s.live = [(0xD0000014, 100)] ∧
      (∃ bs, Tiled s bs) ∧ heapGetTotalSize s.heap = some (s.heap.currentEnd - heapStart) := by
  obtain ⟨h, hinit, hfirst⟩ := freshPages_init
  have hrun : (freshRun [.kmalloc 100]).map (fun s => s.live) = some [(0xD0000014, 100)] := by
    decide +kernel
  obtain ⟨s, hs, hlive⟩ := Option.map_eq_some_iff.mp hrun
  obtain ⟨t, r, ht, hexec⟩ := freshRun_cons hs
  cases hfirst.symm.trans ht
  have hsteps : Transition.Run (CheckedStep freshPages) ⟨h, []⟩ s :=
    (Transition.Run.refl _).snoc (a := .kmalloc 100)
      ⟨⟨show 100 < 2 ^ 32 by decide, r, hexec⟩, trivial⟩
  obtain ⟨htiled, htotal, -⟩ := heap_run_tiled freshPages_grows trivial hinit hsteps
  exact ⟨h, s, hinit, hsteps, hlive, htiled, htotal⟩

theorem heap_run_frame_small :
    ∃ h s s' r, heapInit freshPages (fun _ => 0#8) () = some (.ok, h) ∧
      Transition.Run (CheckedStep freshPages) ⟨h, []⟩ s ∧ s.live = [(0xD0000014, 100)] ∧
      (HeapOp.krealloc 0xD0000014 200).exec freshPages s = some (r, s') ∧
      Moved s 0xD0000014 200 r s' := by
  obtain ⟨h, hinit, hfirst⟩ := freshPages_init
  have hrun : (freshRun [.kmalloc 100]).map (fun s => s.live) = some [(0xD0000014, 100)] := by
    decide +kernel
  have hrun' : (freshRun [.krealloc 0xD0000014 200, .kmalloc 100]).isSome := by decide +kernel
  obtain ⟨s', hs'⟩ := Option.isSome_iff_exists.mp hrun'
  obtain ⟨s, r, hs, hexec'⟩ := freshRun_cons hs'
  obtain ⟨t, r₀, ht, hexec⟩ := freshRun_cons hs
  cases hfirst.symm.trans ht
  rw [hs] at hrun
  have hlive : s.live = [(0xD0000014, 100)] := Option.some.inj hrun
  have hsteps : Transition.Run (CheckedStep freshPages) ⟨h, []⟩ s :=
    (Transition.Run.refl _).snoc (a := .kmalloc 100)
      ⟨⟨show 100 < 2 ^ 32 by decide, r₀, hexec⟩, trivial⟩
  have hop : (HeapOp.krealloc 0xD0000014 200).Allowed s :=
    ⟨by decide, Or.inr ⟨100, by rw [hlive]; simp⟩⟩
  obtain ⟨-, hmoved⟩ := heap_run_frame freshPages_grows trivial hinit hsteps hop trivial hexec'
  exact ⟨h, s, s', r, hinit, hsteps, hlive, hexec', hmoved _ _ rfl (by decide) (by decide)⟩

end Frostix.Heap
