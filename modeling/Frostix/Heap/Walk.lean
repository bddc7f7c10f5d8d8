import Frostix.Heap.Edit

/-!
The loops over the block list: first fit, `heap_defragment`, the walk to the last
block, the sum of the sizes, and the release in `kfree`, which looks at both
neighbours. -/
namespace Frostix.Heap
open Machine32 ByteMemory Tiling

theorem Layout.length_lt {m : Mem} {bs : List Block} {e : Nat} (h : Layout m bs e) :
    bs.length < walkFuel := by
  have hlen := h.tiles.length_mul_le (k := 20) fun b => Nat.le_add_right 20 b.size
  have he := h.bound
  unfold walkFuel
  omega

theorem Layout.addr_ne_zero {m : Mem} {xs ys : List Block} {c : Block} {e : Nat}
    (h : Layout m (xs ++ c :: ys) e) : c.addr ≠ 0 := by
  have hlo := h.bounds.1
  unfold heapStart at hlo
  omega

/-- The block can serve a request of `size` bytes. -/
def Block.Fits (b : Block) (size : Nat) : Prop := b.free = true ∧ size ≤ b.size

/-- The search returns the first block that fits, or 0 when none does. -/
theorem Layout.firstFit_spec {m : Mem} {e : Nat} (size : Nat) (ys : List Block) :
    ∀ (xs : List Block) (fuel : Nat), Layout m (xs ++ ys) e → ys.length < fuel →
      (firstFit m size fuel (headAddr ys 0) = some 0 ∧ ∀ y ∈ ys, ¬ y.Fits size) ∨
      ∃ ps c qs, ys = ps ++ c :: qs ∧ c.Fits size ∧ (∀ p ∈ ps, ¬ p.Fits size) ∧
        firstFit m size fuel (headAddr ys 0) = some c.addr := by
  induction ys with
  | nil =>
      intro xs fuel h hfuel
      obtain ⟨k, rfl⟩ := Nat.exists_eq_add_one.mpr (Nat.zero_lt_of_lt hfuel)
      exact Or.inl ⟨rfl, nofun⟩
  | cons y ys ih =>
      intro xs fuel h hfuel
      obtain ⟨k, rfl⟩ := Nat.exists_eq_add_one.mpr (Nat.zero_lt_of_lt hfuel)
      obtain ⟨hy, -⟩ := h.header
      have hstep : firstFit m size (k + 1) y.addr =
          if y.free = true ∧ size ≤ y.size then some y.addr
          else firstFit m size k (headAddr ys 0) := by
        rw [firstFit, if_neg h.addr_ne_zero, hy.free_eq, hy.size_eq, hy.magic_eq, hy.next_eq]
        simp
      change (firstFit m size (k + 1) y.addr = some 0 ∧ _) ∨ _
      by_cases hfit : y.free = true ∧ size ≤ y.size
      · right
        refine ⟨[], y, ys, rfl, hfit, nofun, ?_⟩
        change firstFit m size (k + 1) y.addr = some y.addr
        rw [hstep, if_pos hfit]
      · rw [if_neg hfit] at hstep
        have hrest := ih (xs ++ [y]) k (by simpa using h) (by simpa using hfuel)
        rcases hrest with ⟨hnone, hall⟩ | ⟨ps, c, qs, rfl, hc, hps, hsome⟩
        · left
          refine ⟨hstep.trans hnone, ?_⟩
          intro z hz
          rcases List.mem_cons.mp hz with rfl | hz
          · exact hfit
          · exact hall z hz
        · right
          refine ⟨y :: ps, c, qs, rfl, hc, ?_, hstep.trans hsome⟩
          intro p hp
          rcases List.mem_cons.mp hp with rfl | hp
          · exact hfit
          · exact hps p hp

def Block.takenSize (c : Block) (size : Nat) : Nat := if size + 20 < c.size then size else c.size

/-- `takeBlock` on a block that fits: it is in use afterwards, possibly shorter with
a free block behind it. -/
theorem Layout.take {m : Mem} {xs ys : List Block} {c : Block} {e size : Nat}
    (h : Layout m (xs ++ c :: ys) e) (hfit : c.Fits size) :
    ∃ b zs, Layout (takeBlock m c.addr size) (xs ++ b :: (zs ++ ys)) e ∧ b.addr = c.addr ∧
      b.free = false ∧ size ≤ b.size ∧ b.size = c.takenSize size ∧
      (zs = [] ∨ ∃ z, zs = [z] ∧ z.free = true) ∧
      KeepsPayloads (xs ++ ys) m (takeBlock m c.addr size) := by
  obtain ⟨hc, -⟩ := h.header
  obtain ⟨hlo, hhi, he⟩ := h.bounds
  have hfits := hfit.2
  have hsub : ∀ (zs : List Block) {d b : Block}, b ∈ xs ++ ys →
      b ∈ xs ++ d :: (zs ++ ys) := by
    intro zs d b hb
    rcases List.mem_append.mp hb with hx | hy
    · exact List.mem_append_left _ hx
    · exact List.mem_append_right _ (List.mem_cons_of_mem _ (List.mem_append_right _ hy))
  unfold takeBlock
  rw [hc.size_eq]
  by_cases hsplit : wrap (size + sizeofBlock) < c.size
  · rw [if_pos hsplit]
    have hsize : size + 20 < c.size := by
      by_cases hsmall : size + 20 < 2 ^ 32
      · rwa [show size + sizeofBlock = size + 20 from rfl, wrap_of_lt hsmall] at hsplit
      · unfold heapStart at hlo
        omega
    obtain ⟨hlay, hkeep⟩ := h.split hsize
    obtain ⟨hlay', hkeep'⟩ := hlay.mark false
    refine ⟨⟨c.addr, size, false⟩, [⟨c.addr + 20 + size, c.size - size - 20, true⟩],
      by simpa using hlay', rfl, rfl, le_rfl, (if_pos hsize).symm, Or.inr ⟨_, rfl, rfl⟩, ?_⟩
    exact hkeep.trans fun b hb => hkeep' b (hsub [_] hb)
  · rw [if_neg hsplit]
    have hwhole : ¬ size + 20 < c.size := by
      intro hsize
      rw [show size + sizeofBlock = size + 20 from rfl, wrap_of_lt (by omega)] at hsplit
      exact hsplit hsize
    obtain ⟨hlay', hkeep'⟩ := h.mark false
    exact ⟨⟨c.addr, c.size, false⟩, [], by simpa using hlay', rfl, rfl, hfits, (if_neg hwhole).symm,
      Or.inl rfl, fun b hb => hkeep' b (hsub [] hb)⟩

/-- `b` and the blocks behind it with neighbouring free blocks merged. -/
def coalesce : Block → List Block → List Block
  | b, [] => [b]
  | b, c :: cs =>
      if b.free && c.free then coalesce { b with size := b.size + 20 + c.size } cs
      else b :: coalesce c cs

theorem used_coalesce (b : Block) (cs : List Block) : used (coalesce b cs) = used (b :: cs) := by
  induction cs generalizing b with
  | nil => rfl
  | cons c cs ih =>
      rw [coalesce]
      split
      · rename_i hfree
        rw [Bool.and_eq_true] at hfree
        rw [ih, used_cons_free (b := { b with size := b.size + 20 + c.size }) hfree.1,
          used_cons_free hfree.1, used_cons_free hfree.2]
      · simp only [used, List.filter_cons] at ih ⊢
        rw [ih]

theorem coalesce_noAdjacentFree (b : Block) (cs : List Block) :
    NoAdjacentFree (coalesce b cs) ∧ ∃ d ds, coalesce b cs = d :: ds ∧ d.free = b.free := by
  induction cs generalizing b with
  | nil => exact ⟨List.isChain_singleton _, b, [], rfl, rfl⟩
  | cons c cs ih =>
      rw [coalesce]
      split
      · exact ih { b with size := b.size + 20 + c.size }
      · rename_i hnot
        obtain ⟨hchain, d, ds, heq, hd⟩ := ih c
        refine ⟨?_, b, coalesce c cs, rfl, rfl⟩
        rw [heq] at hchain ⊢
        refine List.isChain_cons_cons.mpr ⟨?_, hchain⟩
        rw [hd]
        simpa using hnot

/-- The loop of `heap_defragment` computes `coalesce`. -/
theorem Layout.defragmentFrom_spec {e : Nat} (ys : List Block) :
    ∀ (m : Mem) (xs : List Block) (c : Block) (fuel : Nat), Layout m (xs ++ c :: ys) e →
      ys.length < fuel →
      ∃ m', defragmentFrom m fuel c.addr = some m' ∧ Layout m' (xs ++ coalesce c ys) e ∧
        KeepsPayloads (used (xs ++ c :: ys)) m m' := by
  induction ys with
  | nil =>
      intro m xs c fuel h hfuel
      obtain ⟨k, rfl⟩ := Nat.exists_eq_add_one.mpr (Nat.zero_lt_of_lt hfuel)
      refine ⟨m, ?_, h, KeepsPayloads.refl _ m⟩
      rw [defragmentFrom, h.header.1.next_eq]
      exact if_neg fun hc => hc.2 rfl
  | cons d ys ih =>
      intro m xs c fuel h hfuel
      obtain ⟨k, rfl⟩ := Nat.exists_eq_add_one.mpr (Nat.zero_lt_of_lt hfuel)
      obtain ⟨hc, -⟩ := h.header
      obtain ⟨hd, -⟩ := h.snoc.header
      have hnext : blockNext m c.addr = d.addr := hc.next_eq
      have hlen : ys.length < k := by simpa using hfuel
      rw [defragmentFrom, hnext, if_pos ⟨h.addr_ne_zero, h.snoc.addr_ne_zero⟩, hc.free_eq, hd.free_eq,
        hc.magic_eq, hd.magic_eq, coalesce]
      by_cases hboth : c.free = true ∧ d.free = true
      · rw [if_pos ⟨hboth.1, hboth.2, rfl, rfl⟩, if_pos (by simp [hboth]), h.mergeNext_eq]
        obtain ⟨hlay, hkeep⟩ := h.merge
        obtain ⟨m', hrun, hlay', hkeep'⟩ := ih _ xs { c with size := c.size + 20 + d.size } k hlay hlen
        refine ⟨m', hrun, hlay', ?_⟩
        have hused : used (xs ++ c :: d :: ys) = used (xs ++ ys) := by
          rw [used_append, used_cons_free hboth.1, used_cons_free hboth.2, used_append]
        have hused' : used (xs ++ { c with size := c.size + 20 + d.size } :: ys) = used (xs ++ ys) := by
          rw [used_append, used_cons_free (b := { c with size := c.size + 20 + d.size }) hboth.1,
            used_append]
        rw [hused'] at hkeep'
        rw [hused]
        exact KeepsPayloads.trans (fun b hb => hkeep b (mem_used.mp hb).1) hkeep'
      · rw [if_neg fun hall => hboth ⟨hall.1, hall.2.1⟩, if_neg (by simpa using hboth)]
        obtain ⟨m', hrun, hlay', hkeep'⟩ := ih m (xs ++ [c]) d k h.snoc hlen
        refine ⟨m', hrun, by simpa using hlay', ?_⟩
        simpa using hkeep'

theorem Layout.lastBlock_spec {m : Mem} {e : Nat} (ys : List Block) :
    ∀ (xs : List Block) (c : Block) (fuel : Nat), Layout m (xs ++ c :: ys) e → ys.length < fuel →
      lastBlock m fuel c.addr = some (lastAddr c.addr ys) := by
  induction ys with
  | nil =>
      intro xs c fuel h hfuel
      obtain ⟨k, rfl⟩ := Nat.exists_eq_add_one.mpr (Nat.zero_lt_of_lt hfuel)
      rw [lastBlock, h.header.1.next_eq]
      rfl
  | cons d ys ih =>
      intro xs c fuel h hfuel
      obtain ⟨k, rfl⟩ := Nat.exists_eq_add_one.mpr (Nat.zero_lt_of_lt hfuel)
      have hnext : blockNext m c.addr = d.addr := h.header.1.next_eq
      rw [lastBlock, hnext, if_pos h.snoc.addr_ne_zero]
      exact ih (xs ++ [c]) d k h.snoc (by simpa using hfuel)

theorem Layout.totalSizeFrom_spec {m : Mem} {e : Nat} (ys : List Block) :
    ∀ (xs : List Block) (s total fuel : Nat), Layout m (xs ++ ys) e → ys.length < fuel →
      Tiles Block.addr Block.len s ys e → total + heapStart = s →
      totalSizeFrom m fuel (headAddr ys 0) total = some (e - heapStart) := by
  induction ys with
  | nil =>
      intro xs s total fuel h hfuel ht hsum
      obtain ⟨k, rfl⟩ := Nat.exists_eq_add_one.mpr (Nat.zero_lt_of_lt hfuel)
      have hs : s = e := ht
      have htotal : total = e - heapStart := by omega
      rw [totalSizeFrom, headAddr, if_pos rfl, htotal]
  | cons y ys ih =>
      intro xs s total fuel h hfuel ht hsum
      obtain ⟨k, rfl⟩ := Nat.exists_eq_add_one.mpr (Nat.zero_lt_of_lt hfuel)
      obtain ⟨hy, -⟩ := h.header
      obtain ⟨hlo, hhi, he⟩ := h.bounds
      have hs : y.addr = s := ht.1
      have hinner : wrap (y.size + sizeofBlock) = y.size + 20 :=
        wrap_of_lt (show y.size + 20 < 2 ^ 32 by omega)
      rw [headAddr, totalSizeFrom, if_neg h.addr_ne_zero, hy.next_eq, hy.size_eq, hinner,
        wrap_of_lt (by omega)]
      refine ih (xs ++ [y]) (s + y.len) _ k (by simpa using h) (by simpa using hfuel) ht.2 ?_
      unfold Block.len sizeofBlock
      omega

theorem noAdjacentFree_cons_free {b : Block} {ys : List Block} :
    NoAdjacentFree (b :: ys) ↔ (∀ y ∈ ys.head?, ¬ (b.free = true ∧ y.free = true)) ∧
      NoAdjacentFree ys := by
  unfold NoAdjacentFree
  rw [List.map_cons, List.isChain_cons]
  simp

theorem noAdjacentFree_split {xs ys : List Block} {c : Block} :
    NoAdjacentFree (xs ++ c :: ys) ↔ NoAdjacentFree (xs ++ [c]) ∧ NoAdjacentFree (c :: ys) := by
  unfold NoAdjacentFree
  simp only [List.map_append, List.map_cons, List.map_nil]
  exact List.isChain_split

theorem noAdjacentFree_used {xs ys : List Block} {c : Block} (hc : c.free = false) :
    NoAdjacentFree (xs ++ c :: ys) ↔ NoAdjacentFree xs ∧ NoAdjacentFree ys := by
  unfold NoAdjacentFree
  simp [List.isChain_append, List.isChain_cons, hc]

/-- The first half of `kfree`: the block is free, and so is not the one behind it. -/
theorem Layout.releaseNext {m : Mem} {xs ys : List Block} {b : Block} {e : Nat}
    (h : Layout m (xs ++ b :: ys) e) (hys : NoAdjacentFree ys) :
    ∃ b' ys', Layout (mergeFreeNext (setFree m b.addr true) b.addr) (xs ++ b' :: ys') e ∧
      b'.addr = b.addr ∧ b'.free = true ∧ b.size ≤ b'.size ∧ NoAdjacentFree (b' :: ys') ∧ used ys' = used ys ∧
      KeepsPayloads (used (xs ++ ys)) m (mergeFreeNext (setFree m b.addr true) b.addr) := by
  obtain ⟨hlay, hkeep⟩ := h.mark true
  obtain ⟨hb, -⟩ := hlay.header
  have hkeep' : KeepsPayloads (used (xs ++ ys)) m (setFree m b.addr true) := by
    intro c hc
    refine hkeep c ?_
    rcases List.mem_append.mp (mem_used.mp hc).1 with hx | hy
    · exact List.mem_append_left _ hx
    · exact List.mem_append_right _ (List.mem_cons_of_mem _ hy)
  have hnext : blockNext (setFree m b.addr true) b.addr = headAddr ys 0 := hb.next_eq
  unfold mergeFreeNext
  rw [hnext]
  cases ys with
  | nil =>
      rw [if_neg fun hc => hc.1 rfl]
      exact ⟨{ b with free := true }, [], hlay, rfl, rfl, le_rfl, List.isChain_singleton _, rfl, hkeep'⟩
  | cons d ys =>
      obtain ⟨hd, -⟩ := hlay.snoc.header
      rw [headAddr, hd.free_eq, hd.magic_eq]
      cases hdf : d.free with
      | false =>
          rw [if_neg fun hc => by simp at hc]
          exact ⟨{ b with free := true }, d :: ys, hlay, rfl, rfl, le_rfl,
            noAdjacentFree_cons_free.mpr ⟨by simp [hdf], hys⟩, rfl, hkeep'⟩
      | true =>
          obtain ⟨hmerged, hkeep₂⟩ := hlay.merge
          rw [if_pos ⟨hlay.snoc.addr_ne_zero, rfl, rfl⟩, hlay.mergeNext_eq]
          refine ⟨_, ys, hmerged, rfl, rfl, by dsimp only; omega, ?_, (used_cons_free hdf ys).symm, ?_⟩
          · refine noAdjacentFree_cons_free.mpr ?_
            have hold := noAdjacentFree_cons_free.mp hys
            simpa [hdf] using hold
          · refine hkeep'.trans fun c hc => hkeep₂ c ?_
            rw [used_append, used_cons_free hdf, ← used_append] at hc
            exact (mem_used.mp hc).1

/-- `kfree` on a block in use: the block is gone from the list of blocks in use, a free block
has its size at least, and no two free blocks touch. -/
theorem Layout.release {m : Mem} {xs ys : List Block} {b : Block} {e : Nat}
    (h : Layout m (xs ++ b :: ys) e) (hb : b.free = false) (hno : NoAdjacentFree (xs ++ b :: ys)) :
    ∃ bs, Layout (releaseBlock m b.addr) bs e ∧ NoAdjacentFree bs ∧ used bs = used (xs ++ ys) ∧
      (∃ d ∈ bs, d.free = true ∧ b.size ≤ d.size) ∧
      KeepsPayloads (used (xs ++ ys)) m (releaseBlock m b.addr) := by
  obtain ⟨hnoxs, hnoys⟩ := (noAdjacentFree_used hb).mp hno
  obtain ⟨b', ys', hlay, haddr, hfree, hsize, hno', hused, hkeep⟩ := h.releaseNext hnoys
  obtain ⟨hb', -⟩ := hlay.header
  have husedys : used (b' :: ys') = used ys := (used_cons_free hfree ys').trans hused
  unfold releaseBlock
  generalize mergeFreeNext (setFree m b.addr true) b.addr = m' at *
  unfold mergeFreePrev
  have hprev : blockPrev m' b.addr = lastAddr 0 xs := haddr ▸ hb'.prev_eq
  rw [hprev]
  rcases List.eq_nil_or_concat xs with rfl | ⟨xs', p, rfl⟩
  · rw [if_neg fun hc => hc.1 rfl]
    refine ⟨b' :: ys', hlay, hno', husedys, ⟨b', List.mem_cons_self, hfree, hsize⟩, hkeep⟩
  · rw [List.concat_eq_append] at *
    have hlay' : Layout m' (xs' ++ p :: b' :: ys') e := by simpa using hlay
    obtain ⟨hp, -⟩ := hlay'.header
    have hlast : lastAddr 0 (xs' ++ [p]) = p.addr := by
      rw [lastAddr_append]
      rfl
    rw [hlast, hp.free_eq, hp.magic_eq]
    cases hpf : p.free with
    | false =>
        rw [if_neg fun hc => by simp at hc]
        refine ⟨xs' ++ [p] ++ b' :: ys', hlay, ?_, ?_, ⟨b', by simp, hfree, hsize⟩, hkeep⟩
        · rw [List.append_assoc, List.singleton_append, noAdjacentFree_used hpf]
          exact ⟨((noAdjacentFree_used hpf).mp hnoxs).1, hno'⟩
        · rw [used_append, husedys, ← used_append]
    | true =>
        obtain ⟨hmerged, hkeep₂⟩ := hlay'.merge
        rw [if_pos ⟨hlay'.addr_ne_zero, rfl, rfl⟩, ← haddr, hlay'.mergePrev_eq]
        have hgone : used (xs' ++ [p] ++ ys) = used (xs' ++ ys') := by
          rw [used_append, used_append, used_cons_free hpf, ← hused, used_append]
          simp [used]
        refine ⟨_, hmerged, ?_, ?_, ⟨_, List.mem_append_right _ List.mem_cons_self, hpf, ?_⟩, ?_⟩
        · refine noAdjacentFree_split.mpr ⟨?_, ?_⟩
          · simpa [NoAdjacentFree] using hnoxs
          · rw [noAdjacentFree_cons_free] at hno' ⊢
            simpa [hpf, hfree] using hno'
        · rw [hgone, used_append, used_cons_free (by exact hpf), used_append]
        · dsimp only
          omega
        · rw [hgone] at hkeep ⊢
          exact hkeep.trans fun c hc => hkeep₂ c (mem_used.mp hc).1

end Frostix.Heap
