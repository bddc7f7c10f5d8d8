import Frostix.Heap.Runs
import Frostix.Vmm.Quiet

/-!
The heap on the real page functions. `heap_expand` takes a run of frames and maps it behind
the end of the heap; when that fails the run is unmapped and given back, and only the new
page tables remain. -/
namespace Frostix.Services
open Machine32 Pmm Vmm

/-- The page allocator and `vmm_map_pages` on one machine. -/
def machinePages : Heap.PageOps Machine where
  pmmAllocPages m count :=
    let (phys, pmm) := pmmAllocPages m.pmm count
    (phys, { m with pmm })
  vmmMapPages := vmmMapPages
  pmmFreePages m phys count := { m with pmm := pmmFreePages m.pmm phys count }

/-- `n` pages from `page` on, below the window, are backed by the frames from `a` on. -/
structure Backed (m m' : Machine) (page n a : Nat) : Prop where
  pos : 0 < n
  below : page + n ≤ windowPage
  quiet : Quiet {q | page ≤ q ∧ q < windowPage} m m'
  done : ∀ j < n, m'.tr (page + j) = some (a + j)
  owned : ∀ j < n, Owned m' (a + j)
  fresh : ∀ j < n, Free m.pmm (a + j)

def Obstacle (m : Machine) (page n : Nat) : Prop :=
  windowPage < page + n ∨ ∃ j < n, m.tr (page + j) ≠ none ∨ m.table ((page + j) / 1024) = none

section Mapping

variable {m₀ m : Machine} {page a n : Nat}

theorem obstacle_of_refused {i : Nat} {g : Nat → Nat} (h₀ : Sound m₀) (h : Laid m₀ m page i g) (hi : i < n)
    (hlast : page + i < windowPage)
    (hwhy : (∃ f, m.tr (page + i) = some f ∧ f ≠ g i) ∨
      m.table ((page + i) / 1024) = none ∧ ∀ b, ¬ Free m.pmm b) : Obstacle m₀ page n := by
  refine Or.inr ⟨i, hi, ?_⟩
  rcases hwhy with ⟨f, hf, -⟩ | ⟨hnone, -⟩
  · left
    intro hempty
    have hlt : page + i < pageLimit := lt_trans hlast (by decide)
    have hside : page + i < windowPage ↔ page < windowPage := by omega
    rw [h.empty _ hlt (Or.inr le_rfl) (Or.inr hside) hempty] at hf
    cases hf
  · right
    by_contra hsome
    obtain ⟨t, ht⟩ := Option.ne_none_iff_exists'.mp hsome
    rw [h.toQuiet.keepsTable h₀ (div_page hlast) ht] at hnone
    cases hnone

/-- The loop of `vmm_map_pages` over a run of frames that the caller owns. -/
theorem mapPagesFrom_spec (h₀ : Booted m₀) (hfit : a + n ≤ 2 ^ 20) {flags : Nat} (hflags : flags % 2 = 1)
    (left : Nat) :
    ∀ (i : Nat) (m : Machine), i + left = n → page + i ≤ windowPage → Laid m₀ m page i (a + ·) →
      (∀ j < n, Owned m (a + j) ∧ Free m₀.pmm (a + j)) →
      (Obstacle m₀ page n ∧ ∃ st m', st ≠ .ok ∧
        mapPagesFrom (page * 4096) (a * 4096) flags left i m = some (st, m') ∧
        Quiet {q | page ≤ q ∧ q < windowPage} m₀ m' ∧ ∀ j < n, Owned m' (a + j)) ∨
      ∃ m', mapPagesFrom (page * 4096) (a * 4096) flags left i m = some (.ok, m') ∧
        page + n ≤ windowPage ∧ Laid m₀ m' page n (a + ·) ∧ ∀ j < n, Owned m' (a + j) := by
  induction left with
  | zero =>
      intro i m hi hbelow hlaid howned
      obtain rfl : i = n := hi
      exact Or.inr ⟨m, rfl, hbelow, hlaid, fun j hj => (howned j hj).1⟩
  | succ left ih =>
      intro i m hi hbelow hlaid howned
      have hin : i < n := by omega
      have hbelow' := hbelow
      unfold windowPage at hbelow'
      have hvirt : wrap (page * 4096 + i * 4096) = (page + i) * 4096 := by
        rw [wrap_of_lt (by omega), Nat.add_mul]
      have hphys : wrap (a * 4096 + i * 4096) = (a + i) * 4096 := by
        rw [wrap_of_lt (by omega), Nat.add_mul]
      have hdivV : (page + i) * 4096 / 4096 = page + i := Nat.mul_div_cancel _ (by decide)
      have hdivP : (a + i) * 4096 / 4096 = a + i := Nat.mul_div_cancel _ (by decide)
      have hpageDiv : page * 4096 / 4096 = page := Nat.mul_div_cancel _ (by decide)
      have hlimit : page + i < pageLimit := lt_of_le_of_lt hbelow (by decide)
      obtain ⟨hown, hfree⟩ := howned i hin
      rw [mapPagesFrom, hvirt, hphys]
      rcases @vmmMapPage_anywhere _ hlaid.sound ((page + i) * 4096) ((a + i) * 4096) _
        (by omega) (by omega) (by rw [hdivP]; exact hown) hflags with ⟨st, hst, hrun, hwhy⟩ | ⟨m', hrun, hm⟩
      · left
        rw [hdivV, hdivP] at hwhy
        obtain ⟨m', hback, hw⟩ := @unmapFirst_wiped _ i hlaid.sound (page * 4096)
          (Nat.mul_mod_left _ _) (by rw [hpageDiv]; exact hlimit)
        rw [hpageDiv] at hw
        refine ⟨?_, st, m', hst, ?_, (hlaid.wiped h₀.toSound hlimit hw).mono
            fun q hq => ⟨hq.1, lt_of_lt_of_le hq.2 hbelow⟩,
          fun j hj => hw.owned (howned j hj).1⟩
        · rcases Nat.lt_or_eq_of_le hbelow with hlt | heq
          · exact obstacle_of_refused h₀.toSound hlaid hin hlt hwhy
          · exact Or.inl (by omega)
        · rw [hrun]
          simp only [Option.bind_eq_bind, Option.bind_some, if_pos hst]
          rw [hback]
          rfl
      · rw [hdivV, hdivP] at hm
        -- the window is refused: its first page shows the first page table
        have hlt : page + i < windowPage := by
          rcases Nat.lt_or_eq_of_le hbelow with hlt | heq
          · exact hlt
          · exact absurd heq (hm.ne_window (hlaid.toQuiet.booted h₀) hown)
        have hlaid' := hlaid.map hlimit hm (by omega) hfree hown
        have howned' : ∀ j < n, Owned m' (a + j) ∧ Free m₀.pmm (a + j) := fun j hj =>
          ⟨hm.owned (howned j hj).1 (Or.inl hlt), (howned j hj).2⟩
        rw [hrun]
        simp only [Option.bind_eq_bind, Option.bind_some, ne_eq, not_true_eq_false, if_false]
        exact ih (i + 1) m' (by omega) (by omega) hlaid' howned'

/-- One attempt of `heap_expand`. It succeeds when there is a run of frames and nothing is in
the way. -/
theorem expandOnce_spec (h : Booted m) {e : Nat} (haligned : e % 4096 = 0) (hbelow : e ≤ windowPage * 4096)
    (n : Nat) :
    (∃ m', Heap.expandOnce machinePages m e n = some (false, m') ∧
      Quiet {q | e / 4096 ≤ q ∧ q < windowPage} m m' ∧
        (0 < n → (∀ s, ¬ RunSearch.IsRun (Free m.pmm) n s) ∨ Obstacle m (e / 4096) n)) ∨
      ∃ m' a, Heap.expandOnce machinePages m e n = some (true, m') ∧ Backed m m' (e / 4096) n a := by
  have hpage : e / 4096 * 4096 = e := by omega
  unfold Heap.expandOnce machinePages
  dsimp only
  rcases pmmAllocPages_spec h.pmm n with ⟨hrun, hnone⟩ | ⟨a, q, hrun, hpos, -, ht, hq⟩
  · rw [hrun]
    exact Or.inl ⟨m, rfl, Quiet.refl _ h.toSound, fun hpos => Or.inl (hnone hpos)⟩
  have hapos := ht.pos
  have hfits := ht.fits
  have htotal := h.pmm.total_le
  have hquiet := h.toSound.take ht hq
  have hfresh : ∀ j < n, Free m.pmm (a + j) := ht.was_free
  have hlaid : Laid m { m with pmm := q } (e / 4096) 0 (a + ·) :=
    (Laid.start h.toSound (e / 4096) (a + ·)).setPmm hquiet.sound hquiet.total hquiet.free
  have howned : ∀ j < n, Owned { m with pmm := q } (a + j) ∧ Free m.pmm (a + j) := fun j hj =>
    ⟨h.toSound.taken_owned ht (by omega) (by omega), hfresh j hj⟩
  rw [hrun]
  simp only [if_neg (by omega : ¬ a * 4096 = 0), vmmMapPages]
  have hspec := @mapPagesFrom_spec _ (e / 4096) a n h (by omega : a + n ≤ 2 ^ 20) _
    (by decide : (pageFlagPresent + pageFlagRw) % 2 = 1) n 0 _ (Nat.zero_add n) (by omega) hlaid howned
  rw [hpage] at hspec
  rcases hspec with ⟨hobstacle, st, m', hst, hmap, hq', hown'⟩ | ⟨m', hmap, hend, hlaid', hown'⟩
  · left
    rw [hmap]
    simp only [Option.bind_eq_bind, Option.bind_some, if_pos hst]
    obtain ⟨hsound, hfree, htotal'⟩ := hq'.sound.giveBack (a := a) (n := n) (by
      intro f hlo hhi
      obtain ⟨j, rfl⟩ := Nat.exists_eq_add_of_le hlo
      exact hown' j (by omega))
    refine ⟨_, rfl, ⟨hsound, hq'.cr3, htotal'.trans hq'.total, ?_, hq'.tables, hq'.kept, hq'.empty⟩,
      fun _ => Or.inr hobstacle⟩
    intro f hf
    rcases (hfree f).mp hf with hf | ⟨hlo, hhi⟩
    · exact hq'.free f hf
    · obtain ⟨j, rfl⟩ := Nat.exists_eq_add_of_le hlo
      exact hfresh j (by omega)
  · right
    rw [hmap]
    exact ⟨m', a, rfl, hpos, hend, hlaid'.toQuiet.mono fun q hq => ⟨hq.1, lt_of_lt_of_le hq.2 hend⟩,
      hlaid'.done, hown', hfresh⟩

end Mapping

/-- What the page functions keep: the heap ends below the window, an attempt that fails is
quiet, and one that succeeds backs the new pages. -/
theorem machinePages_grows {Ok : Nat → Machine → Prop}
    (hbooted : ∀ e m, Ok e m → Booted m ∧ e ≤ windowPage * 4096)
    (hfailed : ∀ e m m', Ok e m → Quiet {q | e / 4096 ≤ q ∧ q < windowPage} m m' → Ok e m')
    (hdone : ∀ e m m' n a, Ok e m → Backed m m' (e / 4096) n a → Ok (e + n * 4096) m') :
    Heap.Grows machinePages Ok := by
  intro e n m hok haligned _ _
  obtain ⟨hm, hbelow⟩ := hbooted e m hok
  rcases expandOnce_spec hm haligned hbelow n with ⟨m', hrun, hquiet, -⟩ | ⟨m', a, hrun, hbacked⟩
  · exact Or.inl ⟨m', hrun, hfailed e m m' hok hquiet⟩
  · have hend := hbacked.below
    unfold windowPage at hend
    exact Or.inr ⟨m', hrun, hbacked.pos, by omega, hdone e m m' n a hok hbacked⟩

end Frostix.Services
