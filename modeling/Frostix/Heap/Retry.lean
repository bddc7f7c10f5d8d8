import Frostix.Heap.Runs
import Frostix.Lib.While

/-!
The retry of `kmalloc`. A pass that finds no block grows the heap and starts again. The
pass behind an expansion finds the new block, unless the size is within 39 bytes of 4 GiB:
there the sums of the size and the two headers wrap, one page is added whatever was asked
for, and the passes go on until the page functions refuse. -/
namespace Frostix.Heap
open Machine32 ByteMemory Tiling While

variable {σ : Type}

/-- One pass of `kmalloc`; the next one starts after a successful expansion. -/
def mallocPass (ops : PageOps σ) (size : Nat) (h : KernelHeap σ) :
    Option (While.Outcome (KernelHeap σ) (Nat × KernelHeap σ)) := do
  let current ← firstFit h.mem size walkFuel h.head
  if current ≠ 0 then
    some (.stop (wrap (current + sizeofBlock), { h with mem := takeBlock h.mem current size }))
  else
    let h ← heapDefragment h
    let current ← firstFit h.mem size walkFuel h.head
    if current ≠ 0 then
      some (.stop (wrap (current + sizeofBlock), { h with mem := takeBlock h.mem current size }))
    else
      let (status, h) ← heapExpand ops h (wrap (size + sizeofBlock))
      if status ≠ .ok then some (.stop (0, h)) else some (.next h)

/-- The bytes that `kmalloc` asks the page functions for. -/
def mallocBytes (size : Nat) : Nat := alignUp (wrap (wrap (size + sizeofBlock) + sizeofBlock)) 4096

/-- Whether one of the next attempts backs `numPages` pages at `e`. -/
def backs (ops : PageOps σ) (e numPages : Nat) : Nat → σ → Option Bool
  | 0, _ => some false
  | retries + 1, s => do
      let (done, s) ← expandOnce ops s e numPages
      if done then some true else backs ops e numPages retries s

/-- What the retry is to achieve: `kmalloc` returns, the pass behind an expansion returns a
block, and without a block no free one is large enough, the expansion was refused and the
heap ends where it did. -/
structure OneExpansion (ops : PageOps σ) (h : KernelHeap σ) (bs : List Block) (size : Nat) : Prop where
  returns : ∃ ptr h', kmalloc ops h size = some (ptr, h')
  once : ∀ t, mallocPass ops size h = some (.next t) →
    ∃ ptr h', mallocPass ops size t = some (.stop (ptr, h')) ∧ ptr ≠ 0
  null : ∀ h', kmalloc ops h size = some (0, h') → (∀ b ∈ coalesced bs, ¬ b.Fits size) ∧
    backs ops h.currentEnd (mallocBytes size / 4096) 3 h.env = some false ∧ h'.currentEnd = h.currentEnd

structure Serves (h : KernelHeap σ) (bs : List Block) (b : Block) (size : Nat) : Prop where
  good : Good h bs
  mem : b ∈ bs
  inUse : b.free = false
  room : size ≤ b.size

/-- A block that was taken from the free block `c`. -/
structure TakenFrom (c : Block) (h : KernelHeap σ) (bs : List Block) (b : Block) (size : Nat) : Prop
    extends Serves h bs b size where
  addr_eq : b.addr = c.addr
  size_eq : b.size = c.takenSize size

instance (b : Block) (size : Nat) : Decidable (b.Fits size) := inferInstanceAs (Decidable (_ ∧ _))

/-- The block that the two searches of a pass come to: the first that fits, in the list as it is or
else in the coalesced one. -/
def found (bs : List Block) (size : Nat) : Option Block :=
  (bs.find? fun b => b.Fits size).or ((coalesced bs).find? fun b => b.Fits size)

/-- The free block that serves a request: one that is found, or the new one at the end of the heap. -/
def source (h : KernelHeap σ) (bs : List Block) (size : Nat) : Block :=
  (found bs size).getD ⟨h.currentEnd, mallocBytes size - 20, true⟩

section Passes
variable {ops : PageOps σ} {Ok : Nat → σ → Prop} {h : KernelHeap σ} {bs : List Block} {size : Nat}

/-- `kmalloc` repeats its pass. -/
theorem kmallocFuel_eq_iterate (hsize : size ≠ 0) (fuel : Nat) (h : KernelHeap σ) :
    kmallocFuel ops size fuel h = iterate (mallocPass ops size) fuel h := by
  induction fuel generalizing h with
  | zero => rfl
  | succ fuel ih =>
      rw [kmallocFuel, if_neg hsize, iterate, mallocPass]
      cases firstFit h.mem size walkFuel h.head with
      | none => rfl
      | some current =>
          simp only [Option.bind_eq_bind, Option.bind_some]
          split_ifs with hfound
          · rfl
          · cases heapDefragment h with
            | none => rfl
            | some h₁ =>
                simp only [Option.bind_some]
                cases firstFit h₁.mem size walkFuel h₁.head with
                | none => rfl
                | some current₁ =>
                    simp only [Option.bind_some]
                    split_ifs with hfound₁
                    · rfl
                    · cases heapExpand ops h₁ (wrap (size + sizeofBlock)) with
                      | none => rfl
                      | some r =>
                          obtain ⟨status, h₂⟩ := r
                          simp only [Option.bind_some]
                          split_ifs with hstatus
                          · rfl
                          · exact ih h₂

theorem mallocBytes_of_le (hsize : size + 40 ≤ 2 ^ 32) :
    mallocBytes size = 0 ∨ size + 40 ≤ mallocBytes size := by
  unfold mallocBytes alignUp wrap sizeofBlock
  omega

theorem mallocBytes_of_lt (hsize : 2 ^ 32 < size + 40) (hlt : size < 2 ^ 32) : mallocBytes size = 4096 := by
  unfold mallocBytes alignUp wrap sizeofBlock
  omega

theorem fits_of_bytes {d : Block} (hsize : size + 40 ≤ 2 ^ 32) (hfree : d.free = true)
    (hbytes : d.size + 20 = mallocBytes size) : d.Fits size := by
  refine ⟨hfree, ?_⟩
  rcases mallocBytes_of_le hsize with hzero | hle
  · omega
  · omega

theorem mallocBytes_mod (size : Nat) : mallocBytes size % 4096 = 0 := Nat.mul_mod_left _ _

theorem mallocBytes_lt (size : Nat) : mallocBytes size < 2 ^ 32 :=
  lt_of_le_of_lt (Nat.div_mul_le_self _ _) (wrap_lt _)

theorem Serves.size_le {b : Block} (hs : Serves h bs b size) : size + 40 ≤ 2 ^ 32 := by
  have hbounds := hs.good.layout.addr_bounds hs.mem
  have hend := hs.good.layout.bound
  have hroom := hs.room
  unfold heapStart at hbounds
  omega

theorem expandRetry_ok_iff (hops : Grows ops Ok) {bytes : Nat} (hpages : bytes % 4096 = 0)
    (hlt : bytes < 2 ^ 32)
    (retries : Nat) :
    ∀ {h : KernelHeap σ}, Growable Ok h bs → ∃ b, backs ops h.currentEnd (bytes / 4096) retries h.env = some b ∧
      (b = true ↔ ∃ h', expandRetry ops bytes retries h = some (.ok, h')) := by
  induction retries with
  | zero =>
      intro h _
      refine ⟨false, rfl, iff_of_false Bool.false_ne_true ?_⟩
      rintro ⟨h', hrun⟩
      cases hrun
  | succ retries ih =>
      intro h hg
      rw [backs, expandRetry]
      rcases hops h.currentEnd (bytes / 4096) h.env hg.ok hg.aligned hg.layout.tiles.le (by omega) with
        ⟨s', hrun, hok⟩ | ⟨s', hrun, hpos, hfit, -⟩
      · rw [hrun]
        exact ih (h := { h with env := s' }) ⟨hg.layout, hg.head, hg.aligned, hok⟩
      · have hbytes : bytes / 4096 * 4096 = bytes := by omega
        rw [hbytes] at hfit
        obtain ⟨h', happ, -⟩ :=
          @appendBlock_spec _ { h with env := s' } bs bytes hg.layout hg.head (by omega) hfit
        refine ⟨true, by rw [hrun]; rfl, iff_of_true rfl ⟨h', ?_⟩⟩
        rw [hrun]
        simp [happ]

theorem exists_fits_coalesce (cs : List Block) :
    ∀ (b : Block), (∃ c ∈ b :: cs, c.Fits size) → ∃ d ∈ coalesce b cs, d.Fits size := by
  induction cs with
  | nil => exact fun b h => h
  | cons c cs ih =>
      rintro b ⟨x, hx, hfit⟩
      rw [coalesce]
      split_ifs with hboth
      · rw [Bool.and_eq_true] at hboth
        refine ih _ ?_
        have hmerged : b = x ∨ c = x → ∃ y ∈ { b with size := b.size + 20 + c.size } :: cs, y.Fits size := by
          intro hxor
          refine ⟨_, List.mem_cons_self, hboth.1, ?_⟩
          have hle := hfit.2
          dsimp only
          rcases hxor with rfl | rfl <;> omega
        rcases List.mem_cons.mp hx with rfl | hx
        · exact hmerged (Or.inl rfl)
        · rcases List.mem_cons.mp hx with rfl | hx
          · exact hmerged (Or.inr rfl)
          · exact ⟨x, List.mem_cons_of_mem _ hx, hfit⟩
      · rcases List.mem_cons.mp hx with rfl | hx
        · exact ⟨x, List.mem_cons_self, hfit⟩
        · obtain ⟨d, hd, hdfit⟩ := ih c ⟨x, hx, hfit⟩
          exact ⟨d, List.mem_cons_of_mem _ hd, hdfit⟩

theorem exists_fits_coalesced {c : Block} (hc : c ∈ bs) (hfit : c.Fits size) :
    ∃ d ∈ coalesced bs, d.Fits size := by
  cases bs with
  | nil => cases hc
  | cons b cs => exact exists_fits_coalesce cs b ⟨c, hc, hfit⟩

theorem found_of_list {ps qs : List Block} {c : Block} (hfit : c.Fits size) (hps : ∀ p ∈ ps, ¬ p.Fits size) :
    found (ps ++ c :: qs) size = some c := by
  have hfind : (ps ++ c :: qs).find? (fun b => b.Fits size) = some c := by
    refine List.find?_eq_some_iff_append.mpr ⟨by simpa using hfit, ps, qs, rfl, ?_⟩
    intro p hp
    simpa using hps p hp
  rw [found, hfind, Option.some_or]

theorem find?_fits_eq_none : bs.find? (fun b => b.Fits size) = none ↔ ∀ b ∈ bs, ¬ b.Fits size := by
  simp

theorem found_of_coalesced {ps qs : List Block} {c : Block} (hnone : ∀ b ∈ bs, ¬ b.Fits size)
    (heq : coalesced bs = ps ++ c :: qs) (hfit : c.Fits size) (hps : ∀ p ∈ ps, ¬ p.Fits size) :
    found bs size = some c := by
  rw [found, find?_fits_eq_none.mpr hnone, Option.none_or, heq]
  refine List.find?_eq_some_iff_append.mpr ⟨by simpa using hfit, ps, qs, rfl, ?_⟩
  intro p hp
  simpa using hps p hp

theorem found_eq_none (hnone : ∀ b ∈ coalesced bs, ¬ b.Fits size) : found bs size = none := by
  have hlist : ∀ b ∈ bs, ¬ b.Fits size := by
    intro b hb hfit
    obtain ⟨d, hd, hdfit⟩ := exists_fits_coalesced hb hfit
    exact hnone d hd hdfit
  rw [found, find?_fits_eq_none.mpr hlist, find?_fits_eq_none.mpr hnone]
  rfl

theorem found_spec {c : Block} (h : found bs size = some c) : c.Fits size ∧ (c ∈ bs ∨ c ∈ coalesced bs) := by
  rcases Option.or_eq_some_iff.mp h with hlist | ⟨-, hcoalesced⟩
  · exact ⟨by simpa using List.find?_some hlist, Or.inl (List.mem_of_find?_eq_some hlist)⟩
  · exact ⟨by simpa using List.find?_some hcoalesced, Or.inr (List.mem_of_find?_eq_some hcoalesced)⟩

theorem Good.serves {ps qs : List Block} {c : Block} (hg : Good h (ps ++ c :: qs)) (hfit : c.Fits size) :
    ∃ bs' b, wrap (c.addr + sizeofBlock) = b.payload ∧
      TakenFrom c { h with mem := takeBlock h.mem c.addr size } bs' b size := by
  obtain ⟨b, zs, hlay, haddr, hfree, hroom, htaken, -, -⟩ := hg.layout.take hfit
  obtain ⟨-, hhi, he⟩ := hg.layout.bounds
  refine ⟨ps ++ b :: (zs ++ qs), b, ?_,
    ⟨⟨⟨hlay, ?_, hg.aligned, hg.started⟩, by simp, hfree, hroom⟩, haddr, htaken⟩⟩
  · rw [wrap_of_lt (by unfold sizeofBlock; omega), Block.payload, haddr]
  · change h.head = _
    rw [hg.head, headAddr_append, headAddr_append]
    exact congrArg (headAddr ps) haddr.symm

/-- The three ends of a pass. -/
theorem mallocPass_spec (hops : Grows ops Ok) (hg : Good h bs) (hok : Ok h.currentEnd h.env) (size : Nat) :
    (∃ c, found bs size = some c ∧
        ∃ h' bs' b, mallocPass ops size h = some (.stop (b.payload, h')) ∧ TakenFrom c h' bs' b size) ∨
      (∀ b ∈ coalesced bs, ¬ b.Fits size) ∧
        (backs ops h.currentEnd (mallocBytes size / 4096) 3 h.env = some false ∧
            (∃ h', mallocPass ops size h = some (.stop (0, h')) ∧ h'.currentEnd = h.currentEnd ∧
              Good h' (coalesced bs)) ∨
          backs ops h.currentEnd (mallocBytes size / 4096) 3 h.env = some true ∧
            ∃ t d, mallocPass ops size h = some (.next t) ∧ Good t (coalesced bs ++ [d]) ∧ d.free = true ∧
              d.addr = h.currentEnd ∧ d.size + 20 = mallocBytes size ∧ h.currentEnd + 4096 ≤ t.currentEnd ∧
              Ok t.currentEnd t.env) := by
  rw [mallocPass]
  rcases hg.firstFit size with ⟨hnone, hall⟩ | ⟨ps, c, qs, rfl, hfit, hps, hsome⟩
  · obtain ⟨mem, hdef, hg₁, -⟩ := hg.defragment_coalesced
    rw [hnone]
    simp only [Option.bind_eq_bind, Option.bind_some, ne_eq, not_true_eq_false, if_false, hdef]
    rcases hg₁.firstFit size with ⟨hnone₁, hall₁⟩ | ⟨ps, c, qs, heq, hfit, hps, hsome⟩
    · right
      rw [hnone₁]
      simp only [Option.bind_some, not_true_eq_false, if_false]
      refine ⟨hall₁, ?_⟩
      have hgrow : Growable Ok { h with mem } (coalesced bs) := ⟨hg₁.layout, hg₁.head, hg₁.aligned, hok⟩
      obtain ⟨b, hbacks, hb⟩ := expandRetry_ok_iff hops (mallocBytes_mod size) (mallocBytes_lt size) 3 hgrow
      have hrunEq : heapExpand ops { h with mem } (wrap (size + sizeofBlock)) =
          expandRetry ops (mallocBytes size) 3 { h with mem } := rfl
      rcases expandRetry_spec hops (mallocBytes_mod size) (mallocBytes_lt size) 3 hgrow with
        ⟨h₂, hrun, -, hend, hg₂⟩ | ⟨h₂, d, hrun, hd, hdaddr, hg₂, hend, hmin, -⟩
      · left
        have hfalse : b = false := by
          rw [← Bool.not_eq_true, hb]
          rintro ⟨h', hrun'⟩
          cases hrun.symm.trans hrun'
        refine ⟨by rw [← hfalse]; exact hbacks, h₂, ?_, hend, hg₂.good (by rw [hend]; exact hg₁.started)⟩
        rw [hrunEq, hrun]
        rfl
      · right
        have htiles := hg₂.layout.tiles
        obtain ⟨mid, htil, hlast⟩ := Tiles.append.mp htiles
        have hmid : mid = h.currentEnd := htil.end_unique hg₁.layout.tiles
        have hsize : d.size + 20 = mallocBytes size := by
          have hnil : mid + d.len = h₂.currentEnd := hlast.2
          unfold Block.len sizeofBlock at hnil
          have hend' : h₂.currentEnd = h.currentEnd + mallocBytes size := hend
          omega
        have hend' : h₂.currentEnd = h.currentEnd + mallocBytes size := hend
        have hstart : heapStart < h.currentEnd := hg.started
        refine ⟨by rw [hbacks, hb.mpr ⟨h₂, hrun⟩], h₂, d, ?_, hg₂.good (by omega), hd, hdaddr, hsize,
          by omega, hg₂.ok⟩
        rw [hrunEq, hrun]
        rfl
    · left
      refine ⟨c, found_of_coalesced hall heq hfit hps, ?_⟩
      rw [heq] at hg₁
      have hne := hg₁.layout.addr_ne_zero
      obtain ⟨bs', b, hptr, hserves⟩ := hg₁.serves hfit
      rw [hsome]
      simp only [Option.bind_some, hne, not_false_eq_true, if_true, hptr]
      exact ⟨_, bs', b, rfl, hserves⟩
  · left
    refine ⟨c, found_of_list hfit hps, ?_⟩
    have hne := hg.layout.addr_ne_zero
    obtain ⟨bs', b, hptr, hserves⟩ := hg.serves hfit
    rw [hsome]
    simp only [Option.bind_eq_bind, Option.bind_some, ne_eq, hne, not_false_eq_true, if_true, hptr]
    exact ⟨_, bs', b, rfl, hserves⟩

theorem kmalloc_of_stop (hsize : size ≠ 0) {r : Nat × KernelHeap σ}
    (hstop : mallocPass ops size h = some (.stop r)) : kmalloc ops h size = some r := by
  rw [kmalloc, kmallocFuel_eq_iterate hsize, show walkFuel = (walkFuel - 1) + 1 from rfl, iterate, hstop]

theorem kmalloc_of_next (hsize : size ≠ 0) {t : KernelHeap σ} {r : Nat × KernelHeap σ}
    (hnext : mallocPass ops size h = some (.next t)) (hstop : mallocPass ops size t = some (.stop r)) :
    kmalloc ops h size = some r := by
  rw [kmalloc, kmallocFuel_eq_iterate hsize, show walkFuel = (walkFuel - 2) + 1 + 1 from rfl, iterate, hnext]
  dsimp only
  rw [iterate, hstop]

theorem mallocPass_after {t : KernelHeap σ} {d : Block} (hg : Good t (bs ++ [d])) (hd : d.Fits size)
    (hnone : ∀ b ∈ bs, ¬ b.Fits size) :
    ∃ h' bs' b, mallocPass ops size t = some (.stop (b.payload, h')) ∧ TakenFrom d h' bs' b size := by
  rw [mallocPass]
  rcases hg.firstFit size with ⟨-, hall⟩ | ⟨ps, c, qs, heq, hfit, -, hsome⟩
  · exact absurd hd (hall d (by simp))
  · obtain rfl : c = d := by
      have hmem : c ∈ bs ++ [d] := by
        rw [heq]
        simp
      rcases List.mem_append.mp hmem with hc | hc
      · exact absurd hfit (hnone c hc)
      · exact List.mem_singleton.mp hc
    rw [heq] at hg
    have hne := hg.layout.addr_ne_zero
    obtain ⟨bs', b, hptr, hserves⟩ := hg.serves hfit
    rw [hsome]
    simp only [Option.bind_eq_bind, Option.bind_some, ne_eq, hne, not_false_eq_true, if_true, hptr]
    exact ⟨_, bs', b, rfl, hserves⟩

theorem mallocPass_stop_env {ptr : Nat} {h' : KernelHeap σ}
    (hstop : mallocPass ops size h = some (.stop (ptr, h'))) (hptr : ptr ≠ 0) : h'.env = h.env := by
  obtain ⟨current, -, hstop⟩ := Option.bind_eq_some_iff.mp hstop
  split_ifs at hstop with hfound
  · cases hstop
    rfl
  obtain ⟨h₁, hdef, hstop⟩ := Option.bind_eq_some_iff.mp hstop
  obtain ⟨mem, -, hmem⟩ := Option.bind_eq_some_iff.mp hdef
  cases hmem
  obtain ⟨current₁, -, hstop⟩ := Option.bind_eq_some_iff.mp hstop
  split_ifs at hstop with hfound₁
  · cases hstop
    rfl
  obtain ⟨⟨status, h₂⟩, -, hstop⟩ := Option.bind_eq_some_iff.mp hstop
  dsimp only at hstop
  split_ifs at hstop with hstatus
  · cases hstop
    exact absurd rfl hptr
  · cases hstop

theorem mallocPass_next {t : KernelHeap σ} (hnext : mallocPass ops size h = some (.next t)) :
    ∃ mem, heapExpand ops { h with mem } (wrap (size + sizeofBlock)) = some (.ok, t) := by
  obtain ⟨current, -, hnext⟩ := Option.bind_eq_some_iff.mp hnext
  split_ifs at hnext with hfound
  · cases hnext
  obtain ⟨h₁, hdef, hnext⟩ := Option.bind_eq_some_iff.mp hnext
  obtain ⟨mem, -, hmem⟩ := Option.bind_eq_some_iff.mp hdef
  cases hmem
  obtain ⟨current₁, -, hnext⟩ := Option.bind_eq_some_iff.mp hnext
  split_ifs at hnext with hfound₁
  · cases hnext
  obtain ⟨⟨status, h₂⟩, hexpand, hnext⟩ := Option.bind_eq_some_iff.mp hnext
  dsimp only at hnext
  split_ifs at hnext with hstatus
  · cases hnext
  · cases hnext
    obtain rfl : status = .ok := not_not.mp hstatus
    exact ⟨mem, hexpand⟩

/-- What `kmalloc` has asked of the page functions when it returns a block: nothing, or the heap
has grown. -/
theorem kmalloc_env (hops : Grows ops Ok) (hg : Good h bs) (hok : Ok h.currentEnd h.env) (hpos : size ≠ 0)
    (hsize : size + 40 ≤ 2 ^ 32) {ptr : Nat} {h' : KernelHeap σ} (hrun : kmalloc ops h size = some (ptr, h'))
    (hptr : ptr ≠ 0) :
    ((∃ b ∈ coalesced bs, b.Fits size) ∧ h'.env = h.env) ∨ (∀ b ∈ coalesced bs, ¬ b.Fits size) ∧
      ∃ mem t, heapExpand ops { h with mem } (wrap (size + sizeofBlock)) = some (.ok, t) ∧ h'.env = t.env := by
  rcases mallocPass_spec hops hg hok size with ⟨c, hc, h₁, bs', b, hstop, hs⟩ | ⟨hall, hend⟩
  · cases (kmalloc_of_stop hpos hstop).symm.trans hrun
    obtain ⟨hfit, hmem⟩ := found_spec hc
    refine Or.inl ⟨?_, mallocPass_stop_env hstop hptr⟩
    exact hmem.elim (fun hmem => exists_fits_coalesced hmem hfit) fun hmem => ⟨c, hmem, hfit⟩
  rcases hend with ⟨-, h₁, hstop, -, -⟩ | ⟨-, t, d, hnext, hgt, hdfree, -, hdsize, -, -⟩
  · cases (kmalloc_of_stop hpos hstop).symm.trans hrun
    exact absurd rfl hptr
  · have hfit := fits_of_bytes hsize hdfree hdsize
    obtain ⟨h₁, bs', b, hstop, -⟩ := @mallocPass_after _ ops _ _ _ _ hgt hfit hall
    cases (kmalloc_of_next hpos hnext hstop).symm.trans hrun
    obtain ⟨mem, hexpand⟩ := mallocPass_next hnext
    exact Or.inr ⟨hall, mem, t, hexpand, mallocPass_stop_env hstop hptr⟩

theorem Serves.payload_ne_zero {h' : KernelHeap σ} {b : Block} (hs : Serves h' bs b size) : b.payload ≠ 0 :=
  (hs.good.wsub_payload hs.mem).1

theorem OneExpansion.of_le (hops : Grows ops Ok) (hg : Good h bs) (hok : Ok h.currentEnd h.env)
    (hpos : size ≠ 0) (hsize : size + 40 ≤ 2 ^ 32) : OneExpansion ops h bs size := by
  rcases mallocPass_spec hops hg hok size with ⟨c, -, h', bs', b, hrun, hs⟩ | ⟨hall, hend⟩
  · have hcall := kmalloc_of_stop hpos hrun
    refine ⟨⟨_, _, hcall⟩, fun t hnext => ?_, fun h'' hnull => ?_⟩
    · cases hrun.symm.trans hnext
    · exact absurd (congrArg Prod.fst (Option.some.inj (hcall.symm.trans hnull))) hs.payload_ne_zero
  rcases hend with ⟨hrefused, h', hrun, hend, -⟩ | ⟨-, t, d, hnext, hgt, hdfree, -, hdsize, -, -⟩
  · have hcall := kmalloc_of_stop hpos hrun
    refine ⟨⟨_, _, hcall⟩, fun t hnext => ?_, fun h'' hnull => ?_⟩
    · cases hrun.symm.trans hnext
    · cases hcall.symm.trans hnull
      exact ⟨hall, hrefused, hend⟩
  · have hfit := fits_of_bytes hsize hdfree hdsize
    obtain ⟨h', bs', b, hrun, hs⟩ := @mallocPass_after _ ops _ _ _ _ hgt hfit hall
    have hcall := kmalloc_of_next hpos hnext hrun
    refine ⟨⟨_, _, hcall⟩, fun t' hnext' => ?_, fun h'' hnull => ?_⟩
    · cases hnext.symm.trans hnext'
      exact ⟨_, h', hrun, hs.payload_ne_zero⟩
    · exact absurd (congrArg Prod.fst (Option.some.inj (hcall.symm.trans hnull))) hs.payload_ne_zero

theorem mallocPass_no_block (hops : Grows ops Ok) (hg : Good h bs) (hok : Ok h.currentEnd h.env)
    (hsize : 2 ^ 32 < size + 40) {ptr : Nat} {h' : KernelHeap σ}
    (hstop : mallocPass ops size h = some (.stop (ptr, h'))) : ptr = 0 := by
  rcases mallocPass_spec hops hg hok size with
    ⟨c, -, h'', bs', b, -, hs⟩ | ⟨-, ⟨-, h'', hrun, -⟩ | ⟨-, t, d, hrun, -⟩⟩
  · exact absurd hs.size_le (by omega)
  · cases hstop.symm.trans hrun
    rfl
  · cases hstop.symm.trans hrun

/-- With sums that wrap everything depends on the first expansion: the one page that it adds
is too small. -/
theorem OneExpansion.iff_of_lt (hops : Grows ops Ok) (hg : Good h bs) (hok : Ok h.currentEnd h.env)
    (hlt : size < 2 ^ 32) (hsize : 2 ^ 32 < size + 40) :
    OneExpansion ops h bs size ↔ backs ops h.currentEnd 1 3 h.env = some false := by
  have hbytes := mallocBytes_of_lt hsize hlt
  have hpos : size ≠ 0 := by omega
  have hspec := mallocPass_spec hops hg hok size
  rw [hbytes] at hspec
  rcases hspec with ⟨c, -, h', bs', b, -, hs⟩ | ⟨hall, hend⟩
  · exact absurd hs.size_le (by omega)
  rcases hend with ⟨hrefused, h', hrun, hend, -⟩ | ⟨hbacked, t, d, hnext, hgt, -, -, -, -, hokt⟩
  · refine iff_of_true ?_ hrefused
    have hcall := kmalloc_of_stop hpos hrun
    refine ⟨⟨_, _, hcall⟩, fun t hnext => ?_, fun h'' hnull => ?_⟩
    · cases hrun.symm.trans hnext
    · cases hcall.symm.trans hnull
      rw [hbytes]
      exact ⟨hall, hrefused, hend⟩
  · refine iff_of_false ?_ ?_
    · intro hone
      obtain ⟨ptr, h', hstop, hptr⟩ := hone.once t hnext
      exact hptr (mallocPass_no_block hops hgt hokt hsize hstop)
    · rw [hbacked]
      decide

/-- One expansion is enough for every size up to 40 bytes below 4 GiB, and for the larger
ones exactly if the page functions refuse it. -/
theorem kmalloc_expands_once_iff (hops : Grows ops Ok) (hg : Good h bs) (hok : Ok h.currentEnd h.env)
    (hpos : 0 < size) (hlt : size < 2 ^ 32) :
    OneExpansion ops h bs size ↔ size + 40 ≤ 2 ^ 32 ∨ backs ops h.currentEnd 1 3 h.env = some false := by
  rcases Nat.lt_or_ge (2 ^ 32) (size + 40) with hwrap | hle
  · rw [OneExpansion.iff_of_lt hops hg hok hlt hwrap]
    exact (or_iff_right (not_le.mpr hwrap)).symm
  · exact iff_of_true (.of_le hops hg hok hpos.ne' hle) (Or.inl hle)

end Passes

theorem freshPages_end {h : KernelHeap Unit} (hinit : heapInit freshPages (fun _ => 0#8) () = some (.ok, h)) :
    h.currentEnd = 0xD0401000 := by
  have hend : (heapInit freshPages (fun _ => 0#8) ()).map (fun r => r.2.currentEnd) = some 0xD0401000 := by
    decide +kernel
  rw [hinit] at hend
  exact Option.some.inj hend

/-- `kmalloc(0xFFFFFFFF)` on the fresh heap: the first expansion adds a page, and the pass
behind it finds no block. -/
theorem kmalloc_expands_in_vain :
    ∃ h b, heapInit freshPages (fun _ => 0#8) () = some (.ok, h) ∧ Good h [b] ∧
      ¬ OneExpansion freshPages h [b] 0xFFFFFFFF := by
  obtain ⟨h, hinit, -⟩ := freshPages_init
  obtain ⟨b, hg, -, hok⟩ := heapInit_spec freshPages_grows trivial hinit
  refine ⟨h, b, hinit, hg, ?_⟩
  rw [OneExpansion.iff_of_lt freshPages_grows hg hok (by decide) (by decide), freshPages_end hinit]
  change ¬ backs freshPages 0xD0401000 1 3 () = some false
  decide

theorem kmalloc_expands_once_fresh :
    ∃ h b, heapInit freshPages (fun _ => 0#8) () = some (.ok, h) ∧
      (OneExpansion freshPages h [b] 0x500000 ↔
        0x500000 + 40 ≤ 2 ^ 32 ∨ backs freshPages h.currentEnd 1 3 h.env = some false) := by
  obtain ⟨h, hinit, -⟩ := freshPages_init
  obtain ⟨b, hg, -, hok⟩ := heapInit_spec freshPages_grows trivial hinit
  exact ⟨h, b, hinit, kmalloc_expands_once_iff freshPages_grows hg hok (by decide) (by decide)⟩

end Frostix.Heap
