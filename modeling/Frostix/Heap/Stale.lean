import Frostix.Heap.Runs

/-!
`kfree` on a pointer that was freed before. The function notices a bad magic or a set free
flag, logs it and goes on. Nothing happens as long as the block is still in the list; once
it was merged into a neighbour, its old header is merged a second time through links that
are out of date. `krealloc` makes the same test and returns. -/
namespace Frostix.Heap
open Machine32 ByteMemory Tiling

variable {σ : Type}

/-- The clients of the heap and every pointer that was handed out. -/
structure History (σ : Type) where
  client : Client σ
  returned : List Nat

/-- What `kcalloc` passes on: the recorded size is the one that `kmalloc` was asked for. -/
def HeapOp.asServed : HeapOp → HeapOp
  | .kcalloc num size => .kcalloc (wrap (num * size)) 1
  | op => op

/-- A call of a client, or a `kfree` of a pointer that is not allocated. -/
inductive HistoryOp where
  | call (op : HeapOp)
  | freeAgain (ptr : Nat)

/-- The pointer was handed out and is not the payload of an allocated block. -/
def History.Stale (s : History σ) (ptr : Nat) : Prop :=
  ptr ≠ 0 ∧ ptr ∈ s.returned ∧ ∀ bs, Good s.client.heap bs → ∀ b ∈ bs, b.payload = ptr → b.free = true

/-- The tests that `kfree` makes on the old header: one of them is logged. -/
def Logged (m : Mem) (ptr : Nat) : Prop :=
  blockMagic m (wsub ptr sizeofBlock) ≠ heapMagic ∨ blockFree m (wsub ptr sizeofBlock) = true

/-- The block at `b` is one that `kfree` merges with. -/
def Mergeable (m : Mem) (b : Nat) : Prop := b ≠ 0 ∧ blockFree m b = true ∧ blockMagic m b = heapMagic

/-- An old link that `kfree` can look at: it is null, or the header it leads to lies in the heap,
where it can be read without a page fault, and is none to merge with. -/
def Followable (h : KernelHeap σ) (m : Mem) (link : Nat) : Prop :=
  link = 0 ∨ heapStart ≤ link ∧ link + sizeofBlock ≤ h.currentEnd ∧ ¬ Mergeable m link

/-- The old header of a block that is gone can do no harm: it looks bad or free, its flag lies
in no header of the list, and with the flag set both of its links can be looked at. -/
def Inert (h : KernelHeap σ) (bs : List Block) (ptr : Nat) : Prop :=
  let b := wsub ptr sizeofBlock
  let m := setFree h.mem b true
  Logged h.mem ptr ∧ (∀ c ∈ bs, b + 12 < c.addr ∨ c.addr + 20 ≤ b + 12) ∧
    Followable h m (blockNext m b) ∧ Followable h m (blockPrev m b)

/-- When a second `kfree` is harmless: the block is still in the list, or its header is inert. -/
def Harmless (h : KernelHeap σ) (ptr : Nat) : Prop :=
  ∀ bs, Good h bs → (∃ b ∈ bs, b.payload = ptr) ∨ Inert h bs ptr

/-- What `kfree` is to do with a stale pointer: it notices, and the list of blocks with their
sizes and flags stays what it is. -/
structure Rejects (h : KernelHeap σ) (ptr : Nat) : Prop where
  logged : Logged h.mem ptr
  unchanged : ∀ bs, Good h bs → Good (kfree h ptr) bs
  total : heapGetTotalSize (kfree h ptr) = heapGetTotalSize h

/-- A step: any call, with sizes as they are served, or a harmless `kfree` of a stale pointer. -/
def HarmlessStep (ops : PageOps σ) (s : History σ) : HistoryOp → History σ → Prop
  | .call op, s' => op.Allowed s.client ∧
      ∃ r c, op.asServed.exec ops s.client = some (r, c) ∧ s' = ⟨c, r :: s.returned⟩
  | .freeAgain ptr, s' => s.Stale ptr ∧ Harmless s.client.heap ptr ∧
      s' = ⟨⟨kfree s.client.heap ptr, s.client.live⟩, s.returned⟩

section Calls
variable {ops : PageOps σ} {Ok : Nat → σ → Prop}

theorem HeapOp.Allowed.asServed {op : HeapOp} {s : Client σ} (h : op.Allowed s) : op.asServed.Allowed s := by
  cases op with
  | kcalloc num size => exact ⟨wrap_lt _, by decide⟩
  | kmalloc size => exact h
  | krealloc ptr size => exact h
  | kfree ptr => exact h
  | write ptr i v => exact h

theorem asServed_noOverflow (op : HeapOp) : op.asServed.NoOverflow := by
  cases op with
  | kcalloc num size =>
      change wrap (num * size) * 1 < 2 ^ 32
      rw [Nat.mul_one]
      exact wrap_lt _
  | kmalloc size => trivial
  | krealloc ptr size => trivial
  | kfree ptr => trivial
  | write ptr i v => trivial

end Calls

section Reject
variable {m : Mem} {h : KernelHeap σ} {bs : List Block}

theorem mergeFreeNext_of_not {b : Nat} (hnot : ¬ Mergeable m (blockNext m b)) :
    mergeFreeNext m b = m := if_neg hnot

theorem mergeFreePrev_of_not {b : Nat} (hnot : ¬ Mergeable m (blockPrev m b)) :
    mergeFreePrev m b = m := if_neg hnot

theorem releaseBlock_of_not {b : Nat} (hnext : ¬ Mergeable (setFree m b true) (blockNext (setFree m b true) b))
    (hprev : ¬ Mergeable (setFree m b true) (blockPrev (setFree m b true) b)) :
    releaseBlock m b = setFree m b true := by
  rw [releaseBlock, mergeFreeNext_of_not hnext, mergeFreePrev_of_not hprev]

theorem Followable.not_mergeable {link : Nat} (hlink : Followable h m link) : ¬ Mergeable m link := by
  rcases hlink with rfl | ⟨-, -, hnot⟩
  · exact fun hmerge => hmerge.1 rfl
  · exact hnot

/-- The neighbours of a free block are in use. -/
theorem Layout.release_free {xs ys : List Block} {b : Block} {e : Nat} (hlay : Layout m (xs ++ b :: ys) e)
    (hb : b.free = true) (hno : NoAdjacentFree (xs ++ b :: ys)) :
    Layout (releaseBlock m b.addr) (xs ++ b :: ys) e := by
  obtain ⟨hmark, -⟩ := hlay.mark true
  have hsame : ({ b with free := true } : Block) = b := by rw [← hb]
  rw [hsame] at hmark
  obtain ⟨hheader, -⟩ := hmark.header
  obtain ⟨hleft, hright⟩ := noAdjacentFree_split.mp hno
  rw [releaseBlock_of_not]
  · exact hmark
  · rw [hheader.next_eq]
    rintro ⟨hne, hfree, -⟩
    cases ys with
    | nil => exact hne rfl
    | cons y ys =>
        have hy := hmark.snoc.header.1.free_eq
        have hpair := (noAdjacentFree_cons_free.mp hright).1 y rfl
        exact hpair ⟨hb, hy.symm.trans hfree⟩
  · rw [hheader.prev_eq]
    rintro ⟨hne, hfree, -⟩
    rcases List.eq_nil_or_concat xs with rfl | ⟨xs', x, rfl⟩
    · exact hne rfl
    · rw [List.concat_eq_append] at hmark hleft hfree
      have hlast : lastAddr 0 (xs' ++ [x]) = x.addr := by
        rw [lastAddr_append]
        rfl
      rw [hlast] at hfree
      have hx : blockFree (setFree m b.addr true) x.addr = x.free := by
        have hlay' : Layout (setFree m b.addr true) (xs' ++ x :: b :: ys) e := by simpa using hmark
        exact hlay'.header.1.free_eq
      rw [List.append_assoc] at hleft
      have hpair := (noAdjacentFree_cons_free.mp (noAdjacentFree_split.mp hleft).2).1 b rfl
      exact hpair ⟨hx.symm.trans hfree, hb⟩

theorem kfree_eq {ptr : Nat} (hne : ptr ≠ 0) :
    kfree h ptr = { h with mem := releaseBlock h.mem (wsub ptr sizeofBlock) } := if_neg hne

/-- A harmless second `kfree` leaves the list alone. -/
theorem Good.kfree_stale (hg : Good h bs) (hno : NoAdjacentFree bs) {ptr : Nat} (hne : ptr ≠ 0)
    (hstale : ∀ b ∈ bs, b.payload = ptr → b.free = true) (hharm : Harmless h ptr) :
    Logged h.mem ptr ∧ Good (Heap.kfree h ptr) bs := by
  rw [kfree_eq hne]
  rcases hharm bs hg with ⟨b, hb, rfl⟩ | ⟨hlogged, hflag, hnext, hprev⟩
  · obtain ⟨-, -, hsub⟩ := hg.wsub_payload hb
    have hfree := hstale b hb rfl
    obtain ⟨xs, ys, rfl⟩ := List.append_of_mem hb
    rw [Logged, hsub]
    refine ⟨Or.inr (hg.layout.header.1.free_eq.trans hfree), ?_, hg.head, hg.aligned, hg.started⟩
    exact hg.layout.release_free hfree hno
  · rw [releaseBlock_of_not hnext.not_mergeable hprev.not_mergeable]
    refine ⟨hlogged, ⟨hg.layout.chain.congr ?_, hg.layout.tiles, hg.layout.bound⟩, hg.head, hg.aligned,
      hg.started⟩
    intro c hc
    have hout := hflag c hc
    exact store8_frame h.mem _ _ (by omega)

theorem Integrity.freeAgain {s : Client σ} (hint : Integrity s bs) {ptr : Nat} (hne : ptr ≠ 0)
    (hstale : ∀ bs, Good s.heap bs → ∀ b ∈ bs, b.payload = ptr → b.free = true)
    (hharm : Harmless s.heap ptr) :
    Logged s.heap.mem ptr ∧ Integrity ⟨Heap.kfree s.heap ptr, s.live⟩ bs := by
  obtain ⟨hlogged, hg⟩ := hint.good.kfree_stale hint.separated hne (hstale bs hint.good) hharm
  exact ⟨hlogged, hg, hint.separated, hint.served, hint.distinct⟩

theorem kfree_currentEnd (h : KernelHeap σ) (ptr : Nat) :
    (kfree h ptr).currentEnd = h.currentEnd ∧ (kfree h ptr).env = h.env := by
  rw [kfree]
  split_ifs
  · exact ⟨rfl, rfl⟩
  · exact ⟨rfl, rfl⟩

end Reject

section Runs
variable {ops : PageOps σ} {Ok : Nat → σ → Prop}

theorem HarmlessStep.integrity (hops : Grows ops Ok) {s s' : History σ} {op : HistoryOp}
    (hstep : HarmlessStep ops s op s') (hs : Running Ok s.client) : Running Ok s'.client := by
  obtain ⟨⟨bs, hint⟩, hok⟩ := hs
  cases op with
  | call op =>
      obtain ⟨hop, r, c, hrun, rfl⟩ := hstep
      obtain ⟨r', c', hrun', hout, -⟩ := hint.step hops hok hop.asServed (asServed_noOverflow op)
      cases hrun.symm.trans hrun'
      exact ⟨hout.integrity, hout.ok⟩
  | freeAgain ptr =>
      obtain ⟨⟨hne, -, hstale⟩, hharm, rfl⟩ := hstep
      obtain ⟨hend, henv⟩ := kfree_currentEnd s.client.heap ptr
      refine ⟨⟨bs, (hint.freeAgain hne hstale hharm).2⟩, ?_⟩
      simp only [hend, henv]
      exact hok

theorem running_of_history (hops : Grows ops Ok) {mem : Mem} {env : σ} {h : KernelHeap σ}
    (hok : Ok heapStart env)
    (hinit : heapInit ops mem env = some (.ok, h)) {s : History σ}
    (run : Transition.Run (HarmlessStep ops) ⟨⟨h, []⟩, []⟩ s) : Running Ok s.client := by
  refine run.invariant (fun _ _ _ hstep hs => hstep.integrity hops hs) ?_
  obtain ⟨b, hg, -, hok'⟩ := heapInit_spec hops hok hinit
  exact ⟨⟨[b], hg, List.isChain_singleton _, nofun, List.nodup_nil⟩, hok'⟩

/-- In every run whose second frees are harmless, the blocks tile the heap in every state, and
a further harmless `kfree` of a stale pointer is noticed and changes nothing in the list. -/
theorem stale_kfree_rejected (hops : Grows ops Ok) {mem : Mem} {env : σ} {h : KernelHeap σ}
    (hok : Ok heapStart env)
    (hinit : heapInit ops mem env = some (.ok, h)) {s : History σ}
    (run : Transition.Run (HarmlessStep ops) ⟨⟨h, []⟩, []⟩ s) :
    (∃ bs, Tiled s.client bs) ∧
      heapGetTotalSize s.client.heap = some (s.client.heap.currentEnd - heapStart) ∧
      ∀ ptr, s.Stale ptr → Harmless s.client.heap ptr → Rejects s.client.heap ptr := by
  obtain ⟨⟨bs, hint⟩, -⟩ := running_of_history hops hok hinit run
  refine ⟨⟨bs, hint.tiled⟩, hint.totalSize, ?_⟩
  rintro ptr ⟨hne, -, hstale⟩ hharm
  obtain ⟨hlogged, hint'⟩ := hint.freeAgain hne hstale hharm
  refine ⟨hlogged, ?_, ?_⟩
  · intro cs hcs
    obtain rfl : cs = bs := Layout.unique cs hcs.layout.chain hint.good.layout.chain hcs.layout.tiles
      hint.good.layout.tiles
    exact hint'.good
  · have htotal := hint'.totalSize
    rw [(kfree_currentEnd s.client.heap ptr).1] at htotal
    rw [htotal, hint.totalSize]

theorem Integrity.stale_of_kfree {s : Client σ} {bs : List Block} (hint : Integrity s bs) {ptr n : Nat}
    (hptr : (ptr, n) ∈ s.live) :
    ∀ cs, Good (Heap.kfree s.heap ptr) cs → ∀ b ∈ cs, b.payload = ptr → b.free = true := by
  obtain ⟨us, b, vs, rfl, hb, rfl, -⟩ := hint.split hptr
  obtain ⟨bs', hg', -, hused, -⟩ := hint.good.kfree hb hint.separated
  intro cs hcs d hd hpay
  obtain rfl : cs = bs' := Layout.unique cs hcs.layout.chain hg'.layout.chain hcs.layout.tiles hg'.layout.tiles
  by_contra hdf
  have hdused : d ∈ used cs := mem_used.mpr ⟨hd, by simpa using hdf⟩
  rw [hused] at hdused
  exact hint.good.layout.payload_ne (mem_used.mp hdused).1 hpay

end Runs

/-- Three blocks of 16 bytes; the first is freed and then the second, which the first absorbs. -/
def mergedRun : List HeapOp :=
  [.kfree 0xD0000038, .kfree 0xD0000014, .kmalloc 16, .kmalloc 16, .kmalloc 16]

theorem HarmlessStep.of_exec {ops : PageOps σ} {op : HeapOp} {c c' : Client σ} {r : Nat} {returned : List Nat}
    (hop : op.Allowed c) (hexec : op.asServed.exec ops c = some (r, c')) :
    HarmlessStep ops ⟨c, returned⟩ (.call op) ⟨c', r :: returned⟩ := ⟨hop, r, c', hexec, rfl⟩

theorem allowed_kmalloc_sixteen (c : Client σ) : (HeapOp.kmalloc 16).Allowed c := show 16 < 2 ^ 32 by decide

theorem allowed_kfree {c : Client σ} {ptr n : Nat} (hlive : (ptr, n) ∈ c.live) : (HeapOp.kfree ptr).Allowed c :=
  Or.inr ⟨n, hlive⟩

/-- The run up to the first of the two frees, and what is allocated there. -/
theorem mergedRun_start :
    ∃ h c r r', heapInit freshPages (fun _ => 0#8) () = some (.ok, h) ∧
      freshRun [.kfree 0xD0000014, .kmalloc 16, .kmalloc 16, .kmalloc 16] = some c ∧
      Transition.Run (HarmlessStep freshPages) ⟨⟨h, []⟩, []⟩ ⟨c, [r, r', 0xD0000038, 0xD0000014]⟩ ∧
      (0xD0000038, 16) ∈ c.live := by
  obtain ⟨h, hinit, hfirst⟩ := freshPages_init
  have hsome : (freshRun [.kfree 0xD0000014, .kmalloc 16, .kmalloc 16, .kmalloc 16]).isSome := by decide +kernel
  obtain ⟨c₄, h₄⟩ := Option.isSome_iff_exists.mp hsome
  obtain ⟨c₃, r₄, h₃, e₄⟩ := freshRun_cons h₄
  obtain ⟨c₂, r₃, h₂, e₃⟩ := freshRun_cons h₃
  obtain ⟨c₁, r₂, h₁, e₂⟩ := freshRun_cons h₂
  obtain ⟨c₀, r₁, h₀, e₁⟩ := freshRun_cons h₁
  cases hfirst.symm.trans h₀
  have hlive₃ : (freshRun [.kmalloc 16, .kmalloc 16, .kmalloc 16]).map (fun s => s.live) =
      some [(0xD000005C, 16), (0xD0000038, 16), (0xD0000014, 16)] := by decide +kernel
  have hlive₄ : (freshRun [.kfree 0xD0000014, .kmalloc 16, .kmalloc 16, .kmalloc 16]).map (fun s => s.live) =
      some [(0xD000005C, 16), (0xD0000038, 16)] := by decide +kernel
  have hresult₁ : ((freshRun []).bind fun c => ((HeapOp.kmalloc 16).exec freshPages c).map Prod.fst) =
      some 0xD0000014 := by decide +kernel
  have hresult₂ : ((freshRun [.kmalloc 16]).bind fun c =>
    ((HeapOp.kmalloc 16).exec freshPages c).map Prod.fst) =
      some 0xD0000038 := by decide +kernel
  rw [h₃] at hlive₃
  rw [h₄] at hlive₄
  rw [h₀, Option.bind_some, e₁] at hresult₁
  rw [h₁, Option.bind_some, e₂] at hresult₂
  have hr₁ : r₁ = 0xD0000014 := Option.some.inj hresult₁
  have hr₂ : r₂ = 0xD0000038 := Option.some.inj hresult₂
  have hc₃ : c₃.live = [(0xD000005C, 16), (0xD0000038, 16), (0xD0000014, 16)] := Option.some.inj hlive₃
  have hc₄ : c₄.live = [(0xD000005C, 16), (0xD0000038, 16)] := Option.some.inj hlive₄
  have hfreed : (0xD0000014, 16) ∈ c₃.live := by
    rw [hc₃]
    simp
  have hmem : (0xD0000038, 16) ∈ c₄.live := by
    rw [hc₄]
    simp
  have run₀ : Transition.Run (HarmlessStep freshPages) ⟨⟨h, []⟩, []⟩ ⟨⟨h, []⟩, []⟩ := Transition.Run.refl _
  have run₁ := run₀.snoc (HarmlessStep.of_exec (allowed_kmalloc_sixteen _) e₁)
  have run₂ := run₁.snoc (HarmlessStep.of_exec (allowed_kmalloc_sixteen _) e₂)
  have run₃ := run₂.snoc (HarmlessStep.of_exec (allowed_kmalloc_sixteen _) e₃)
  have run₄ := run₃.snoc (HarmlessStep.of_exec (allowed_kfree hfreed) e₄)
  rw [hr₁, hr₂] at run₄
  exact ⟨h, c₄, r₄, r₃, hinit, h₄, run₄, hmem⟩

theorem mergedRun_history :
    ∃ h s, heapInit freshPages (fun _ => 0#8) () = some (.ok, h) ∧ freshRun mergedRun = some s.client ∧
      Transition.Run (HarmlessStep freshPages) ⟨⟨h, []⟩, []⟩ s ∧ s.Stale 0xD0000038 := by
  obtain ⟨h, c, r, r', hinit, hrun, run, hmem⟩ := mergedRun_start
  have hsome : (freshRun mergedRun).isSome := by decide +kernel
  obtain ⟨c', hrun'⟩ := Option.isSome_iff_exists.mp hsome
  obtain ⟨c₄, r₅, h₄, e₅⟩ := freshRun_cons hrun'
  cases hrun.symm.trans h₄
  obtain ⟨⟨bs, hint⟩, -⟩ := running_of_history freshPages_grows trivial hinit run
  have hstale := hint.stale_of_kfree hmem
  have hreturned : 0xD0000038 ∈ [r₅, r, r', 0xD0000038, 0xD0000014] := by simp
  have hheap : c'.heap = Heap.kfree c.heap 0xD0000038 := by
    cases e₅
    rfl
  rw [← hheap] at hstale
  exact ⟨h, ⟨c', _⟩, hinit, hrun', run.snoc (HarmlessStep.of_exec (allowed_kfree hmem) e₅), by decide,
    hreturned, hstale⟩

/-- The second `kfree` of the merged block adds its size to the first block once more, so the
blocks come to more than the heap. -/
theorem stale_kfree_corrupts :
    ∃ h s, heapInit freshPages (fun _ => 0#8) () = some (.ok, h) ∧
      Transition.Run (HarmlessStep freshPages) ⟨⟨h, []⟩, []⟩ s ∧ s.Stale 0xD0000038 ∧
      ¬ Rejects s.client.heap 0xD0000038 := by
  obtain ⟨h, s, hinit, hs, run, hstale⟩ := mergedRun_history
  refine ⟨h, s, hinit, run, hstale, fun hrejects => ?_⟩
  have hbefore : (freshRun mergedRun).bind (fun c => heapGetTotalSize c.heap) = some 0x401000 := by
    decide +kernel
  have hafter : (freshRun mergedRun).bind (fun c => heapGetTotalSize (kfree c.heap 0xD0000038)) =
      some 0x401024 := by decide +kernel
  rw [hs, Option.bind_some] at hbefore hafter
  have htotal := hrejects.total
  rw [hbefore, hafter] at htotal
  exact absurd htotal (by decide)

/-- The first block is still in the list when it is freed again. -/
theorem stale_kfree_rejected_merged :
    ∃ h s, heapInit freshPages (fun _ => 0#8) () = some (.ok, h) ∧
      Transition.Run (HarmlessStep freshPages) ⟨⟨h, []⟩, []⟩ s ∧
      (∃ bs, Tiled s.client bs) ∧
      heapGetTotalSize s.client.heap = some (s.client.heap.currentEnd - heapStart) ∧
      ∀ ptr, s.Stale ptr → Harmless s.client.heap ptr → Rejects s.client.heap ptr := by
  obtain ⟨h, s, hinit, -, run, -⟩ := mergedRun_history
  exact ⟨h, s, hinit, run, stale_kfree_rejected freshPages_grows trivial hinit run⟩

end Frostix.Heap
