import Frostix.Services.Kernel
import Frostix.Vma.Ops

/-!
The page loops of `mmap_anonymous` on the real kernel. A page of an immediate mapping gets
a frame of its own; the rollback unmaps the pages before the one that failed, and gives
back the frame of that one only. -/
namespace Frostix.Vma
open Machine32 Pmm Vmm Services

def withPages (k : Kernel) (m : Machine) (handed : List Nat) : Kernel := { k.setMachine m with handed }

/-- The frames `g 0`, …, `g (i - 1)`, the last one first. -/
def frames (g : Nat → Nat) (i : Nat) : List Nat := ((List.range i).map g).reverse

theorem frames_succ (g : Nat → Nat) (i : Nat) : frames g (i + 1) = g i :: frames g i := by
  simp [frames, List.range_succ]

theorem frames_congr {g g' : Nat → Nat} {i : Nat} (h : ∀ j < i, g' j = g j) : frames g' i = frames g i := by
  unfold frames
  congr 1
  exact List.map_congr_left fun j hj => h j (List.mem_range.mp hj)

section Loops

variable {k : Kernel} {mₛ m : Machine} {page n : Nat} {H : List Nat}

theorem unmapPages_wiped {L : List Nat} (h : Sound m) {c : Nat} (hlast : page + c < pageLimit) :
    ∃ m', unmapPages kernelOps (page * 4096) c (withPages k m L) = some (withPages k m' L) ∧
      Wiped m m' page c := by
  induction c with
  | zero => exact ⟨m, rfl, Wiped.start h page⟩
  | succ c ih =>
      obtain ⟨m₁, hrun, hw⟩ := ih (by omega)
      have hdiv : (page + c) * 4096 / 4096 = page + c := Nat.mul_div_cancel _ (by decide)
      have hlt := hlast
      unfold pageLimit at hlt
      have hwrap : wrap (page * 4096 + c * 4096) = (page + c) * 4096 := by
        rw [wrap_of_lt (by omega), Nat.add_mul]
      obtain ⟨st, m₂, hstep, hc⟩ := @vmmUnmapPage_anywhere _ hw.sound ((page + c) * 4096)
        (by rw [hdiv]; omega)
      rw [hdiv] at hc
      refine ⟨m₂, ?_, hw.clear (by omega) hc⟩
      have hops : kernelOps.vmmUnmapPage (withPages k m₁ L) ((page + c) * 4096) =
          some (st, withPages k m₂ L) := by
        change (vmmUnmapPage m₁ ((page + c) * 4096)).map _ = _
        rw [hstep]
        rfl
      rw [unmapPages, hrun]
      simp only [Option.bind_eq_bind, Option.bind_some, hwrap]
      rw [hops]
      rfl

/-- What the loop of `VM_MAP_IMMEDIATE` leaves. -/
inductive Filled (k : Kernel) (mₛ : Machine) (H : List Nat) (page n : Nat) (st : KernelStatus)
    (k' : Kernel) : Prop
  | done (m' : Machine) (g : Nat → Nat) : st = .ok → k' = withPages k m' (frames g n ++ H) →
      Laid mₛ m' page n g → Filled k mₛ H page n st k'
  | failed (m' : Machine) (g : Nat → Nat) (i : Nat) : st ≠ .ok → k' = withPages k m' (frames g i ++ H) →
      Quiet {q | page ≤ q ∧ q < page + n} mₛ m' → Filled k mₛ H page n st k'

/-- The rollback after `i` pages. -/
theorem Filled.rollback (h₀ : Booted mₛ) {i : Nat} {g : Nat → Nat} {m : Machine} (h : Laid mₛ m page i g)
    (hi : i < n) (hlast : page + n < pageLimit) {st : KernelStatus} (hst : st ≠ .ok) :
    ∃ k', (do
        let env ← unmapPages kernelOps (page * 4096) i (withPages k m (frames g i ++ H))
        some (st, env)) = some (st, k') ∧ Filled k mₛ H page n st k' := by
  obtain ⟨m', hrun, hw⟩ := unmapPages_wiped (k := k) (L := frames g i ++ H) h.sound
    (c := i) (by omega : page + i < pageLimit)
  have hquiet := h.wiped h₀.toSound (by omega) hw
  refine ⟨withPages k m' (frames g i ++ H), ?_, .failed m' g i hst rfl ?_⟩
  · rw [hrun]
    rfl
  · exact hquiet.mono fun q hq => ⟨hq.1, lt_trans hq.2 (by omega)⟩

def Apart (m : Machine) (page n : Nat) : Prop := Set.InjOn (fun j => m.tr (page + j)) (Set.Iio n)

theorem apart_of_laid {g : Nat → Nat} (h : Laid mₛ m page n g) (hinj : Set.InjOn g (Set.Iio n)) :
    Apart m page n := by
  intro j hj l hl heq
  refine hinj hj hl ?_
  have hjl : m.tr (page + j) = m.tr (page + l) := heq
  rw [h.done j hj, h.done l hl] at hjl
  exact Option.some.inj hjl

theorem injOn_update {g : Nat → Nat} {i f : Nat} (hinj : Set.InjOn g (Set.Iio i)) (hnew : ∀ j < i, g j ≠ f) :
    Set.InjOn (Function.update g i f) (Set.Iio (i + 1)) := by
  have hnot : i ∉ Set.Iio i := lt_irrefl i
  have hset : Set.Iio (i + 1) = insert i (Set.Iio i) := Order.Iio_succ_eq_insert i
  rw [hset, Set.injOn_insert hnot, Function.update_self]
  constructor
  · refine hinj.congr fun j hj => ?_
    exact (Function.update_of_ne (Nat.ne_of_lt hj) _ _).symm
  · rintro ⟨j, hj, hjf⟩
    rw [Function.update_of_ne (Nat.ne_of_lt hj)] at hjf
    exact hnew j hj hjf

theorem mapImmediate_spec (h₀ : Booted mₛ) (hlast : page + n < pageLimit) (left : Nat) :
    ∀ (i : Nat) (m : Machine) (g : Nat → Nat), i + left = n → Laid mₛ m page i g → Set.InjOn g (Set.Iio i) →
      ∃ st k', mapImmediate kernelOps (page * 4096) left i (withPages k m (frames g i ++ H)) = some (st, k') ∧
        Filled k mₛ H page n st k' ∧ (st = .ok → Apart k'.machine page n) := by
  induction left with
  | zero =>
      intro i m g hi hlaid hinj
      obtain rfl : i = n := hi
      exact ⟨.ok, _, rfl, .done m g rfl rfl hlaid, fun _ => apart_of_laid hlaid hinj⟩
  | succ left ih =>
      intro i m g hi hlaid hinj
      have hin : i < n := by omega
      have hlt := hlast
      unfold pageLimit at hlt
      have hdiv : (page + i) * 4096 / 4096 = page + i := Nat.mul_div_cancel _ (by decide)
      have hwrap : wrap (page * 4096 + i * 4096) = (page + i) * 4096 := by
        rw [wrap_of_lt (by omega), Nat.add_mul]
      rw [mapImmediate, hwrap]
      rw [show kernelOps.pmmAllocPage = Kernel.allocPage from rfl]
      rcases allocPage_spec (k := withPages k m (frames g i ++ H)) hlaid.sound with
        ⟨halloc, -⟩ | ⟨f, q, halloc, hpos, hword, ht, hq⟩
      · rw [halloc]
        obtain ⟨k', hrun, hfilled⟩ := Filled.rollback (k := k) (H := H) h₀ hlaid hin hlast
          (nofun : KernelStatus.outOfMemory ≠ .ok)
        exact ⟨.outOfMemory, k', hrun, hfilled, nofun⟩
      change Taken m.pmm q f 1 at ht
      have hfdiv : f * 4096 / 4096 = f := Nat.mul_div_cancel f (by decide)
      have hfree : Free m.pmm f := by simpa using ht.was_free 0 (by decide)
      have htake := hlaid.sound.take ht hq
      have howned := hlaid.sound.taken_owned ht le_rfl (Nat.lt_succ_self f)
      have hlaid₁ := hlaid.setPmm htake.sound htake.total htake.free
      rw [halloc]
      simp only [if_neg (by omega : ¬ f * 4096 = 0)]
      change ∃ st k', ((vmmMapPage { m with pmm := q } ((page + i) * 4096) (f * 4096)
        (pageFlagPresent + pageFlagRw)).map _ >>= _) = _ ∧ _
      rcases @vmmMapPage_anywhere _ htake.sound ((page + i) * 4096) (f * 4096) _ (by omega)
        (by omega) (by rw [hfdiv]; exact howned) (by decide : (pageFlagPresent + pageFlagRw) % 2 = 1) with
        ⟨st, hst, hrun, -⟩ | ⟨m', hrun, hm⟩
      · rw [hrun]
        simp only [Option.map_some, Option.bind_eq_bind, Option.bind_some, if_pos hst]
        obtain ⟨q', hback, hsound, htotal, hfree'⟩ := freePage_spec
          (k := withPages k { m with pmm := q } (f :: (frames g i ++ H))) htake.sound howned
        have hlaid' : Laid mₛ { m with pmm := q' } page i g := by
          refine hlaid.setPmm hsound (htotal.trans htake.total) fun b hb => ?_
          rcases (hfree' b).mp hb with hb | rfl
          · exact htake.free b hb
          · exact hfree
        obtain ⟨k', hroll, hfilled⟩ := Filled.rollback (k := k) (H := H) h₀ hlaid' hin hlast hst
        refine ⟨st, k', ?_, hfilled, fun hok => absurd hok hst⟩
        change (unmapPages kernelOps (page * 4096) i
          ((withPages k { m with pmm := q } (f :: (frames g i ++ H))).freePage (f * 4096)) >>= _) = _
        rw [hback]
        simp only [withPages, List.erase_cons_head]
        exact hroll
      · rw [hrun]
        simp only [Option.map_some, Option.bind_eq_bind, Option.bind_some, ne_eq, not_true_eq_false, if_false]
        rw [hdiv, hfdiv] at hm
        have hside : page + i < windowPage ↔ page < windowPage := by
          have hne := hm.ne_window (hlaid₁.toQuiet.booted h₀) howned
          cases i with
          | zero => rfl
          | succ j =>
              have hprev := hlaid.side j (Nat.lt_succ_self j)
              omega
        have hnew : Function.update g i f i = f := Function.update_self ..
        have hold : ∀ j < i, Function.update g i f j = g j := fun j hj =>
          Function.update_of_ne (Nat.ne_of_lt hj) _ _
        have hinj' : Set.InjOn (Function.update g i f) (Set.Iio (i + 1)) := by
          refine injOn_update hinj fun j hj heq => ?_
          exact (hlaid.fresh j hj).2 (heq ▸ hfree)
        obtain ⟨st, k', hrest, hfilled⟩ := ih (i + 1) m' (Function.update g i f) (by omega)
          ((hlaid₁.congr hold).map (by omega) (by rw [hnew]; exact hm) hside
            (by rw [hnew]; exact hlaid.free f hfree) (by rw [hnew]; exact howned)) hinj'
        rw [frames_succ, hnew, frames_congr hold] at hrest
        exact ⟨st, k', hrest, hfilled⟩

end Loops

end Frostix.Vma
