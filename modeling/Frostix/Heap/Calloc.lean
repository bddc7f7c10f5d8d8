import Frostix.Heap.Retry

/-!
`kcalloc` multiplies in 32 bits and asks `kmalloc` for the product. When the product wraps
to a size that can be served, the caller gets a block that is smaller than what it asked
for. Whether a size can be served is known before the call. -/
namespace Frostix.Heap
open Machine32 ByteMemory While

variable {σ : Type} {ops : PageOps σ} {Ok : Nat → σ → Prop} {h : KernelHeap σ} {bs : List Block} {size : Nat}

/-- `kmalloc` has no block for `size`: no free block is large enough, also after merging, and
the page functions refuse. Sizes near 4 GiB are never served. -/
def Refuses (ops : PageOps σ) (h : KernelHeap σ) (bs : List Block) (size : Nat) : Prop :=
  2 ^ 32 < size + 40 ∨
    (∀ b ∈ coalesced bs, ¬ b.Fits size) ∧
      backs ops h.currentEnd (mallocBytes size / 4096) 3 h.env = some false

/-- What `kcalloc` is to achieve: it returns, and a pointer that it returns is that of a block
in use with room for the exact product, all zero. -/
def CallocServes (ops : PageOps σ) (h : KernelHeap σ) (num size : Nat) : Prop :=
  ∃ ptr h', kcalloc ops h num size = some (ptr, h') ∧
    (ptr ≠ 0 → ∃ bs b, ptr = b.payload ∧ Serves h' bs b (num * size) ∧
      ∀ i < num * size, h'.mem (ptr + i) = 0#8)

theorem Serves.lt {b : Block} (hs : Serves h bs b size) : size < 2 ^ 32 := by
  have hle := hs.size_le
  omega

theorem iterate_mallocPass_null (hops : Grows ops Ok) (hsize : 2 ^ 32 < size + 40) (fuel : Nat) :
    ∀ {h : KernelHeap σ} {bs : List Block}, Good h bs → Ok h.currentEnd h.env →
      2 ^ 32 - h.currentEnd < fuel * 4096 → ∃ h', iterate (mallocPass ops size) fuel h = some (0, h') := by
  induction fuel with
  | zero =>
      intro h bs hg _ hfuel
      have hend := hg.layout.bound
      omega
  | succ fuel ih =>
      intro h bs hg hok hfuel
      rw [iterate]
      rcases mallocPass_spec hops hg hok size with ⟨c, -, h', bs', b, -, hs⟩ |
        ⟨-, ⟨-, h', hrun, -⟩ | ⟨-, t, d, hrun, hgt, -, -, -, hend, hokt⟩⟩
      · exact absurd hs.size_le (by omega)
      · rw [hrun]
        exact ⟨h', rfl⟩
      · rw [hrun]
        have hbound := hgt.layout.bound
        exact ih hgt hokt (by omega)

/-- `kmalloc` returns, and it returns null exactly if it `Refuses` the size; otherwise the block is taken
from its `source`. -/
theorem kmalloc_served_or_refused (hops : Grows ops Ok) (hg : Good h bs) (hok : Ok h.currentEnd h.env)
    (hpos : size ≠ 0) :
    (Refuses ops h bs size ∧ ∃ h', kmalloc ops h size = some (0, h')) ∨
      ¬ Refuses ops h bs size ∧
        ∃ h' bs' b, kmalloc ops h size = some (b.payload, h') ∧ TakenFrom (source h bs size) h' bs' b size := by
  rcases Nat.lt_or_ge (2 ^ 32) (size + 40) with hwrap | hle
  · left
    refine ⟨Or.inl hwrap, ?_⟩
    rw [kmalloc, kmallocFuel_eq_iterate hpos]
    exact iterate_mallocPass_null hops hwrap walkFuel hg hok (by unfold walkFuel; omega)
  rcases mallocPass_spec hops hg hok size with ⟨c, hfound, h', bs', b, hrun, hs⟩ | ⟨hall, hend⟩
  · right
    have hsource : source h bs size = c := by rw [source, hfound, Option.getD_some]
    refine ⟨?_, h', bs', b, kmalloc_of_stop hpos hrun, by rw [hsource]; exact hs⟩
    rintro (hwrap | ⟨hall, -⟩)
    · exact absurd hle (not_le.mpr hwrap)
    · rw [found_eq_none hall] at hfound
      cases hfound
  rcases hend with ⟨hrefused, h', hrun, -⟩ | ⟨hbacked, t, d, hnext, hgt, hdfree, hdaddr, hdsize, -, -⟩
  · exact Or.inl ⟨Or.inr ⟨hall, hrefused⟩, h', kmalloc_of_stop hpos hrun⟩
  · right
    have hfit : d.Fits size := by
      refine ⟨hdfree, ?_⟩
      rcases mallocBytes_of_le hle with hzero | hbytes
      · omega
      · omega
    obtain ⟨h', bs', b, hrun, hs⟩ := @mallocPass_after _ ops _ _ _ _ hgt hfit hall
    have hsource : source h bs size = d := by
      obtain ⟨addr, dsize, free⟩ := d
      obtain rfl : dsize = mallocBytes size - 20 := by
        simp only at hdsize
        omega
      rw [source, found_eq_none hall, Option.getD_none, ← hdaddr, ← hdfree]
    refine ⟨?_, h', bs', b, kmalloc_of_next hpos hnext hrun, by rw [hsource]; exact hs⟩
    rintro (hwrap | ⟨-, hrefused⟩)
    · exact absurd hle (not_le.mpr hwrap)
    · rw [hbacked] at hrefused
      cases hrefused

theorem Serves.clear {b : Block} (hs : Serves h bs b size) :
    Serves { h with mem := memset h.mem b.payload 0#8 size } bs b size ∧
      ∀ i < size, memset h.mem b.payload 0#8 size (b.payload + i) = 0#8 := by
  have hroom := hs.room
  obtain ⟨hg, -⟩ := hs.good.write (m := memset h.mem b.payload 0#8 size) hs.mem
    (fun x hx => by rw [memset, if_neg (by omega)])
  refine ⟨⟨hg, hs.mem, hs.inUse, hs.room⟩, fun i hi => ?_⟩
  rw [memset, if_pos (by omega)]

/-- `kcalloc` keeps its promise exactly if the product fits in a word, or what is left of it
is 0 or refused. -/
theorem kcalloc_serves_iff (hops : Grows ops Ok) (hg : Good h bs) (hok : Ok h.currentEnd h.env)
    (num size : Nat) :
    CallocServes ops h num size ↔
      num * size < 2 ^ 32 ∨ wrap (num * size) = 0 ∨ Refuses ops h bs (wrap (num * size)) := by
  by_cases hzero : wrap (num * size) = 0
  · refine iff_of_true ⟨0, h, ?_, fun hne => absurd rfl hne⟩ (Or.inr (Or.inl hzero))
    rw [kcalloc, if_pos hzero]
  rcases kmalloc_served_or_refused hops hg hok hzero with ⟨hrefuses, h', hrun⟩ | ⟨hnot, h', bs', b, hrun, hs⟩
  · refine iff_of_true ⟨0, h', ?_, fun hne => absurd rfl hne⟩ (Or.inr (Or.inr hrefuses))
    rw [kcalloc, if_neg hzero, hrun]
    rfl
  · have hne : b.payload ≠ 0 := hs.payload_ne_zero
    have hcall : kcalloc ops h num size =
        some (b.payload, { h' with mem := memset h'.mem b.payload 0#8 (wrap (num * size)) }) := by
      rw [kcalloc, if_neg hzero, hrun]
      simp [hne]
    constructor
    · rintro ⟨ptr, h'', hcall', hserves⟩
      cases hcall.symm.trans hcall'
      obtain ⟨cs, c, -, hc, -⟩ := hserves hne
      exact Or.inl hc.lt
    · rintro (hfit | hz | hr)
      · obtain ⟨hs', hclear⟩ := hs.toServes.clear
        rw [wrap_of_lt hfit] at hs' hclear hcall
        exact ⟨b.payload, _, hcall, fun _ => ⟨bs', b, rfl, hs', hclear⟩⟩
      · exact absurd hz hzero
      · exact absurd hr hnot

/-- `kcalloc(0x10000, 0x10001)` on the fresh heap returns a pointer, although no block has the
4 GiB and 64 KiB that it was asked for. -/
theorem kcalloc_wraps :
    ∃ h b, heapInit freshPages (fun _ => 0#8) () = some (.ok, h) ∧ Good h [b] ∧
      ¬ CallocServes freshPages h 0x10000 0x10001 := by
  obtain ⟨h, hinit, -⟩ := freshPages_init
  obtain ⟨b, hg, -, -⟩ := heapInit_spec freshPages_grows trivial hinit
  refine ⟨h, b, hinit, hg, ?_⟩
  have hptr : ((heapInit freshPages (fun _ => 0#8) ()).bind fun r =>
      (kcalloc freshPages r.2 0x10000 0x10001).map Prod.fst) = some 0xD0000014 := by decide +kernel
  rw [hinit, Option.bind_some] at hptr
  rintro ⟨ptr, h', hcall, hserves⟩
  rw [hcall] at hptr
  obtain rfl : ptr = 0xD0000014 := Option.some.inj hptr
  obtain ⟨cs, c, -, hc, -⟩ := hserves (by decide)
  exact absurd hc.lt (by decide)

theorem kcalloc_serves_fresh :
    ∃ h b, heapInit freshPages (fun _ => 0#8) () = some (.ok, h) ∧
      (CallocServes freshPages h 10 20 ↔
        10 * 20 < 2 ^ 32 ∨ wrap (10 * 20) = 0 ∨ Refuses freshPages h [b] (wrap (10 * 20))) := by
  obtain ⟨h, hinit, -⟩ := freshPages_init
  obtain ⟨b, hg, -, hok⟩ := heapInit_spec freshPages_grows trivial hinit
  exact ⟨h, b, hinit, kcalloc_serves_iff freshPages_grows hg hok 10 20⟩

end Frostix.Heap
