import Frostix.Services.Kernel
import Frostix.Vma.Unmap

/-!
`munmap_range` on the real kernel. An area struct that was freed leaves room in the heap for
the next one, so once a page is unmapped no allocation maps anything. What is removed is
exactly the range, unless the call loses the areas before it. -/
namespace Frostix.Vma
open Machine32 LinkedStore Pmm Vmm Heap Services

/-- The address is in the area, which has these flags and this page offset there. -/
def Region.Covers (r : Region) (x flags off : Nat) : Prop :=
  r.start ≤ x ∧ x < r.stop ∧ r.flags = flags ∧ wrap (r.pgoff + (x - r.start) / 4096) = off

def Covers (cs : List (Nat × Region)) (x flags off : Nat) : Prop := ∃ c ∈ cs, c.2.Covers x flags off

theorem Covers.append {xs ys : List (Nat × Region)} {x flags off : Nat} :
    Covers (xs ++ ys) x flags off ↔ Covers xs x flags off ∨ Covers ys x flags off := by
  simp only [Covers, List.mem_append, or_and_right, exists_or]

theorem Covers.cons {c : Nat × Region} {ys : List (Nat × Region)} {x flags off : Nat} :
    Covers (c :: ys) x flags off ↔ c.2.Covers x flags off ∨ Covers ys x flags off := by
  simp only [Covers, List.mem_cons, or_and_right, exists_or, exists_eq_left]

theorem Covers.nil {x flags off : Nat} : ¬ Covers [] x flags off := by simp [Covers]

section Cuts

variable {r : Region} {addr x flags off : Nat}

theorem Region.covers_lower (hhi : addr ≤ r.stop) :
    (r.lower addr).Covers x flags off ↔ r.Covers x flags off ∧ x < addr := by
  unfold Region.Covers Region.lower
  dsimp only
  constructor
  · rintro ⟨h1, h2, h3, h4⟩
    exact ⟨⟨h1, lt_of_lt_of_le h2 hhi, h3, h4⟩, h2⟩
  · rintro ⟨⟨h1, -, h3, h4⟩, h2⟩
    exact ⟨h1, h2, h3, h4⟩

theorem Region.covers_upper (hstart : r.start % 4096 = 0) (haddr : addr % 4096 = 0) (hlo : r.start ≤ addr) :
    (r.upper addr).Covers x flags off ↔ r.Covers x flags off ∧ addr ≤ x := by
  have hoff : addr ≤ x → wrap (wrap (r.pgoff + (addr - r.start) / 4096) + (x - addr) / 4096) =
      wrap (r.pgoff + (x - r.start) / 4096) := by
    intro hx
    have hsum : (addr - r.start) / 4096 + (x - addr) / 4096 = (x - r.start) / 4096 := by omega
    rw [← hsum, ← Nat.add_assoc]
    unfold wrap
    omega
  unfold Region.Covers Region.upper
  dsimp only
  constructor
  · rintro ⟨h1, h2, h3, h4⟩
    exact ⟨⟨le_trans hlo h1, h2, h3, (hoff h1).symm.trans h4⟩, h1⟩
  · rintro ⟨⟨-, h2, h3, h4⟩, h1⟩
    exact ⟨h1, h2, h3, (hoff h1).trans h4⟩

end Cuts

theorem Ordered.start_le {c : Nat × Region} {ys : List (Nat × Region)}
    (h : Ordered (c :: ys)) {x flags off : Nat} (hx : Covers ys x flags off) : c.2.stop ≤ x := by
  obtain ⟨d, hd, hle, -⟩ := hx
  exact le_trans ((List.pairwise_cons.mp h.sorted).1 d hd) hle

/-- A loop that knows what is before it takes away what is below `stop`. -/
theorem Trimmed.covers {stop : Nat} (halign : stop % 4096 = 0) {ps qs rest cs' : List (Nat × Region)}
    {st : KernelStatus} (h : Trimmed stop ps qs rest st cs') (hqs : ps = qs) (hst : st = .ok)
    (hord : Ordered rest) (x flags off : Nat) :
    Covers cs' x flags off ↔ Covers qs x flags off ∨ Covers rest x flags off ∧ stop ≤ x := by
  induction h with
  | nil qs => simp [Covers.nil]
  | behind qs c rest hle =>
      rw [Covers.append]
      refine or_congr_right (iff_self_and.mpr fun hx => ?_)
      rcases Covers.cons.mp hx with hx | hx
      · exact le_trans hle hx.1
      · have hstop := hord.start_le hx
        have hpos := (hord.valid c List.mem_cons_self).2.2.1
        omega
  | failed qs c rest _ _ => cases hst
  | split qs c rest u hlt hend =>
      have hc := hord.valid c List.mem_cons_self
      have hrest : Covers rest x flags off → stop ≤ x := fun hx => le_trans hend.le (hord.start_le hx)
      rw [hqs, Covers.append, Covers.cons, Covers.cons, Region.covers_upper hc.1 halign hlt.le]
      tauto
  | drop qs c rest cs' st hend htrim ih =>
      have htail : Ordered rest := (@Ordered.of_append [c] rest hord).2.1
      have hc : c.2.Covers x flags off → ¬ stop ≤ x := fun hx => not_le.mpr (lt_of_lt_of_le hx.2.1 hend)
      rw [ih rfl hst htail, hqs, Covers.cons]
      tauto

/-- What is removed from the areas is what they cover in the range. -/
def RemovesRange (cs cs' : List (Nat × Region)) (start stop : Nat) : Prop :=
  ∀ x flags off, Covers cs' x flags off ↔ Covers cs x flags off ∧ (x < start ∨ stop ≤ x)

theorem removesRange_refl {cs : List (Nat × Region)} {start stop : Nat}
    (h : ∀ c ∈ cs, c.2.stop ≤ start ∨ stop ≤ c.2.start) : RemovesRange cs cs start stop := by
  intro x flags off
  refine iff_self_and.mpr ?_
  rintro ⟨c, hc, hle, hlt, -⟩
  rcases h c hc with hstop | hstart
  · exact Or.inl (by omega)
  · exact Or.inr (by omega)

theorem Trimmed.forgets {stop : Nat} (halign : stop % 4096 = 0)
    {xs ys cs' : List (Nat × Region)} {c : Nat × Region}
    (h : Trimmed stop [] xs (c :: ys) .ok cs') (hord : Ordered (c :: ys)) (hlt : c.2.start < stop)
    {x flags off : Nat} (hx : Covers cs' x flags off) : stop ≤ x := by
  have htail : Ordered ys := (@Ordered.of_append [c] ys hord).2.1
  cases h with
  | behind _ _ _ hle => exact absurd hle (not_le.mpr hlt)
  | split _ _ _ u _ hend =>
      rcases Covers.cons.mp hx with hx | hx
      · exact hx.1
      · exact le_trans hend.le (hord.start_le hx)
  | drop _ _ _ _ _ hend htrim =>
      rcases (htrim.covers halign rfl rfl htail x flags off).mp hx with hnil | ⟨-, hle⟩
      · exact absurd hnil Covers.nil
      · exact hle

section Removal

variable {start stop : Nat} {xs ys cs' : List (Nat × Region)} {c : Nat × Region}

/-- The first area is cut at `start`. -/
theorem Trimmed.removesRange_cut {u : Nat} (hstart : start % 4096 = 0) (hstop : stop % 4096 = 0)
    (hord : Ordered (xs ++ c :: ys)) (hxs : ∀ x ∈ xs, x.2.stop ≤ start) (hlo : c.2.start < start)
    (hin : start < c.2.stop)
    (h : Trimmed stop (xs ++ [(c.1, c.2.lower start)]) (xs ++ [(c.1, c.2.lower start)])
      ((u, c.2.upper start) :: ys) .ok cs') (hlt : start < stop) :
    RemovesRange (xs ++ c :: ys) cs' start stop := by
  obtain ⟨-, hcys, -⟩ := hord.of_append
  have hc := hcys.valid c List.mem_cons_self
  have hupper : Ordered ((u, c.2.upper start) :: ys) :=
    @Ordered.shrink [] ys c.1 u c.2 hcys (c.2.upper start) ⟨hstart, hc.2.1, hin, hc.2.2.2⟩ hlo.le le_rfl
  intro x flags off
  have hbefore : Covers xs x flags off → x < start := by
    rintro ⟨d, hd, -, hlt', -⟩
    exact lt_of_lt_of_le hlt' (hxs d hd)
  have hbehind : Covers ys x flags off → start ≤ x := fun hx => le_trans hin.le (hcys.start_le hx)
  rw [h.covers hstop rfl rfl hupper, Covers.append, Covers.append, Covers.cons, Covers.cons, Covers.cons,
    Region.covers_lower hin.le, Region.covers_upper hc.1 hstart hlo.le]
  have hnil : ¬ Covers [] x flags off := Covers.nil
  have hside : stop ≤ x → ¬ x < start := fun hle => not_lt.mpr (le_trans hlt.le hle)
  have hside' : start ≤ x ↔ ¬ x < start := not_lt.symm
  tauto

theorem Trimmed.removesRange_first (hstop : stop % 4096 = 0) (hord : Ordered (c :: ys))
    (hge : start ≤ c.2.start)
    (h : Trimmed stop [] [] (c :: ys) .ok cs') : RemovesRange (c :: ys) cs' start stop := by
  intro x flags off
  have hpos := (hord.valid c List.mem_cons_self).2.2.1
  have hbehind : Covers (c :: ys) x flags off → ¬ x < start := by
    intro hx
    rcases Covers.cons.mp hx with hx | hx
    · exact not_lt.mpr (le_trans hge hx.1)
    · exact not_lt.mpr (le_trans (le_trans hge hpos.le) (hord.start_le hx))
  have hnil : ¬ Covers [] x flags off := Covers.nil
  rw [h.covers hstop rfl rfl hord]
  tauto

theorem Trimmed.not_removesRange (hstop : stop % 4096 = 0) (hord : Ordered (xs ++ c :: ys)) (hne : xs ≠ [])
    (hxs : ∀ x ∈ xs, x.2.stop ≤ start) (hlt : start < stop) (hcut : c.2.start < stop)
    (h : Trimmed stop [] xs (c :: ys) .ok cs') : ¬ RemovesRange (xs ++ c :: ys) cs' start stop := by
  obtain ⟨d, ds, rfl⟩ := List.exists_cons_of_ne_nil hne
  have hd := hord.valid d (by simp)
  have hbelow := hxs d List.mem_cons_self
  intro hremoves
  have hold : Covers (d :: ds ++ c :: ys) d.2.start d.2.flags
      (wrap (d.2.pgoff + (d.2.start - d.2.start) / 4096)) :=
    ⟨d, by simp, le_rfl, hd.2.2.1, rfl, rfl⟩
  have hnew := (hremoves _ _ _).mpr ⟨hold, Or.inl (lt_of_lt_of_le hd.2.2.1 hbelow)⟩
  have hle := h.forgets hstop hord.of_append.2.1 hcut hnew
  have hpos := hd.2.2.1
  omega

end Removal

/-- The kernel that holds the structs at `A`: the `mm_struct` at `root` and area structs of at
least twenty bytes. -/
structure Hosted (root : Nat) (A : Set Nat) (k : Kernel) : Prop where
  integrity : ∃ bs, Integrity k.heap bs
  booted : Booted k.machine
  below : k.heap.heap.currentEnd ≤ windowPage * 4096
  live : ∀ a ∈ A, ∃ n, (a, n) ∈ k.heap.live ∧ (a ≠ root → sizeofArea ≤ n)

/-- The same after the pages of `U` were unmapped, perhaps those of the kernel itself. -/
structure Busy (root : Nat) (U A : Set Nat) (k : Kernel) : Prop where
  integrity : ∃ bs, Integrity k.heap bs
  sound : Sound k.machine
  gone : ∀ va ∈ U, va < 2 ^ 32 ∧ k.machine.tr (va / 4096) = none
  hosted : U = ∅ → Hosted root A k
  live : ∀ a ∈ A, ∃ n, (a, n) ∈ k.heap.live ∧ (a ≠ root → sizeofArea ≤ n)

structure Ready (root : Nat) (U A : Set Nat) (k : Kernel) : Prop extends Busy root U A k where
  room : U = ∅ ∨ ∃ bs, Integrity k.heap bs ∧ ∃ d ∈ bs, d.Fits sizeofArea

variable {root : Nat} {U A : Set Nat} {k : Kernel}

theorem Hosted.busy (h : Hosted root A k) : Busy root ∅ A k :=
  ⟨h.integrity, h.booted.toSound, nofun, fun _ => h, h.live⟩

/-- The pages below the heap are translated as in `m`. -/
def KeepsLow (m m' : Machine) : Prop := ∀ page < heapStart / 4096, m'.tr page = m.tr page

theorem KeepsLow.quiet {m m' m'' : Machine} (h : KeepsLow m m') {first : Nat}
    (hfirst : heapStart / 4096 ≤ first)
    (hq : Quiet {q | first ≤ q ∧ q < windowPage} m' m'') : KeepsLow m m'' := by
  intro page hpage
  have hbelow : page < windowPage := lt_trans hpage (by decide)
  have hout : page ∉ {q | first ≤ q ∧ q < windowPage} :=
    fun hin => absurd hin.1 (not_le.mpr (lt_of_lt_of_le hpage hfirst))
  rw [← h page hpage]
  cases hold : m'.tr page with
  | none => exact hq.empty (fun q hq => hq.2) page hbelow hout hold
  | some f =>
      rcases hq.kept page (lt_trans hbelow (by decide)) f hold with hnew | ⟨hin, -⟩
      · exact hnew
      · exact absurd hin hout

/-- The structs at `A` are live allocations, the areas among them of at least twenty bytes. -/
def Held (root : Nat) (A : Set Nat) (k : Kernel) : Prop :=
  ∀ a ∈ A, ∃ n, (a, n) ∈ k.heap.live ∧ (a ≠ root → sizeofArea ≤ n)

theorem Hosted.kmalloc (h : Hosted root A k) {Ok : Nat → Machine → Prop} (hgrows : Grows machinePages Ok)
    (hok : Ok k.heap.heap.currentEnd k.machine) :
    ∃ p k', kernelOps.kmalloc k sizeofArea = some (p, k') ∧ (∃ bs, Integrity k'.heap bs) ∧
      Ok k'.heap.heap.currentEnd k'.machine ∧
      ((p = 0 ∧ Held root A k') ∨ (p ≠ 0 ∧ p < 2 ^ 32 ∧ p ∉ A ∧ Held root (insert p A) k')) := by
  obtain ⟨bs, hint⟩ := h.integrity
  obtain ⟨r, c, hrun, ⟨bs', hint'⟩, hc, hok'⟩ := kmalloc_kernel hint hgrows hok sizeofArea
  exact ⟨r, _, hrun, ⟨bs', hint'⟩, hok',
    live_track hint' hc (Q := fun a n => a ≠ root → sizeofArea ≤ n) (fun _ => le_rfl) h.live⟩

theorem Hosted.alloc (h : Hosted root A k) :
    ∃ p k', kernelOps.kmalloc k sizeofArea = some (p, k') ∧ KeepsLow k.machine k'.machine ∧
      ((p = 0 ∧ Hosted root A k') ∨ (p ≠ 0 ∧ p < 2 ^ 32 ∧ p ∉ A ∧ Hosted root (insert p A) k')) := by
  have hgrows : Grows machinePages fun e m => Booted m ∧ e % 4096 = 0 ∧ heapStart ≤ e ∧ e ≤ windowPage * 4096 ∧
      KeepsLow k.machine m := by
    refine machinePages_grows (fun _ _ hok => ⟨hok.1, hok.2.2.2.1⟩) ?_ ?_
    · rintro e m m' ⟨hbooted, haligned, hstart, hbelow, hlow⟩ hquiet
      exact ⟨hquiet.booted hbooted, haligned, hstart, hbelow, hlow.quiet (Nat.div_le_div_right hstart) hquiet⟩
    · rintro e m m' n a ⟨hbooted, haligned, hstart, -, hlow⟩ hbacked
      have hbelow := hbacked.below
      exact ⟨hbacked.quiet.booted hbooted, by omega, by omega, by omega,
        hlow.quiet (Nat.div_le_div_right hstart) hbacked.quiet⟩
  obtain ⟨bs, hint⟩ := h.integrity
  obtain ⟨p, k', hrun, hint', ⟨hbooted, -, -, hbelow, hlow⟩, hcase⟩ := h.kmalloc hgrows
    ⟨h.booted, hint.good.aligned, hint.good.started.le, h.below, fun _ _ => rfl⟩
  refine ⟨p, k', hrun, hlow, hcase.imp (fun hnull => ⟨hnull.1, ?_⟩) fun hnew => ?_⟩
  · exact ⟨hint', hbooted, hbelow, hnull.2⟩
  · exact ⟨hnew.1, hnew.2.1, hnew.2.2.1, hint', hbooted, hbelow, hnew.2.2.2⟩

theorem Ready.alloc (h : Ready root U A k) :
    ∃ p k', kernelOps.kmalloc k sizeofArea = some (p, k') ∧
      ((p = 0 ∧ Busy root U A k') ∨ (p ≠ 0 ∧ p < 2 ^ 32 ∧ p ∉ A ∧ Busy root U (insert p A) k')) := by
  rcases h.room with rfl | ⟨bs, hint, d, hd, hfit⟩
  · obtain ⟨p, k', hrun, -, hcase⟩ := (h.hosted rfl).alloc
    refine ⟨p, k', hrun, hcase.imp (fun hnull => ⟨hnull.1, hnull.2.busy⟩) fun hnew => ?_⟩
    exact ⟨hnew.1, hnew.2.1, hnew.2.2.1, hnew.2.2.2.busy⟩
  · obtain ⟨r, mem, hrun, -, hint'⟩ := @Heap.Integrity.kmalloc_fits _ machinePages _ _ hint _
      (by decide) _ hd hfit
    have hrunOps : kernelOps.kmalloc k sizeofArea =
        some (r, { k with heap := ⟨{ k.heap.heap with mem }, track k.heap.live r sizeofArea⟩ }) := by
      simp only [kernelOps, hrun, Option.map_some]
    obtain ⟨bs', hint''⟩ := hint'
    refine ⟨r, _, hrunOps, ?_⟩
    rcases live_track hint'' rfl (Q := fun a n => a ≠ root → sizeofArea ≤ n) (fun _ => le_rfl) h.live with
      ⟨hr, hlive⟩ | ⟨hr, hword, hnew, hlive⟩
    · exact Or.inl ⟨hr, ⟨bs', hint''⟩, h.sound, h.gone,
        fun hU => ⟨⟨bs', hint''⟩, (h.hosted hU).booted, (h.hosted hU).below, hlive⟩, hlive⟩
    · exact Or.inr ⟨hr, hword, hnew, ⟨bs', hint''⟩, h.sound, h.gone,
        fun hU => ⟨⟨bs', hint''⟩, (h.hosted hU).booted, (h.hosted hU).below, hlive⟩, hlive⟩

theorem Busy.free (h : Busy root U A k) {p : Nat} (hp : p ∈ A) (hne : p ≠ root) :
    Ready root U (A \ {p}) (kernelOps.kfree k p) := by
  obtain ⟨bs, hint⟩ := h.integrity
  obtain ⟨n, hn, hsize⟩ := h.live p hp
  obtain ⟨bs', hint', d, hd, hfree, hfit⟩ := hint.kfree_room hn
  have henv : (Heap.kfree k.heap.heap p).env = k.machine := by
    unfold Heap.kfree
    split <;> rfl
  have hend : (Heap.kfree k.heap.heap p).currentEnd = k.heap.heap.currentEnd := by
    unfold Heap.kfree
    split <;> rfl
  have hmachine : (kernelOps.kfree k p).machine = k.machine := henv
  have hlive : ∀ a ∈ A \ {p}, ∃ n, (a, n) ∈ untrack k.heap.live p ∧ (a ≠ root → sizeofArea ≤ n) := by
    rintro a ⟨ha, hap⟩
    obtain ⟨m, hm, hq⟩ := h.live a ha
    exact ⟨m, mem_untrack.mpr ⟨hm, hap⟩, hq⟩
  refine ⟨⟨⟨bs', hint'⟩, ?_, ?_, ?_, hlive⟩, Or.inr ⟨bs', hint', d, hd, hfree, le_trans (hsize hne) hfit⟩⟩
  · rw [hmachine]
    exact h.sound
  · rw [hmachine]
    exact h.gone
  · intro hU
    refine ⟨⟨bs', hint'⟩, ?_, ?_, hlive⟩
    · rw [hmachine]
      exact (h.hosted hU).booted
    · exact le_of_eq_of_le hend (h.hosted hU).below

theorem Busy.unmap (h : Busy root U A k) {va : Nat} (hva : va + 4096 < 2 ^ 32) :
    ∃ st k', kernelOps.vmmUnmapPage k va = some (st, k') ∧ Busy root (insert va U) A k' := by
  obtain ⟨st, m', hrun, hc⟩ := @vmmUnmapPage_anywhere _ h.sound va (by
    unfold pageLimit
    omega)
  refine ⟨st, k.setMachine m', ?_, integrity_setMachine h.integrity m', hc.sound, ?_, ?_, h.live⟩
  · simp only [kernelOps, hrun, Option.map_some]
  · rintro b (rfl | hb)
    · exact ⟨by omega, hc.gone⟩
    · obtain ⟨hlt, hnone⟩ := h.gone b hb
      refine ⟨hlt, Option.eq_none_iff_forall_ne_some.mpr fun f hf => ?_⟩
      have hold := hc.fewer (b / 4096) (page_lt_limit hlt) f hf
      rw [hnone] at hold
      cases hold
  · intro hU
    exact absurd (Set.mem_insert va U) (hU ▸ Set.notMem_empty va)

theorem kernel_unmapping (root : Nat) :
    Unmapping kernelOps root (Busy root) (Ready root) fun va => va + 4096 < 2 ^ 32 where
  start _ _ h := ⟨h, Or.inl rfl⟩
  leave _ _ _ h := h.toBusy
  alloc _ _ _ h := h.alloc
  unmap _ _ hva _ _ h := h.unmap hva
  free _ _ _ _ h hp hne := h.free hp hne

/-- The list is the old one without the range, and no page that was removed is present. -/
def UnmapsExactly (cs : List (Nat × Region)) (start stop : Nat) (mm' : Mm Kernel) : Prop :=
  ∃ cs', Listed mm' cs' ∧ RemovesRange cs cs' start stop ∧
    ∀ page, start ≤ page * 4096 → page * 4096 < stop → InAreas cs (page * 4096) →
      mm'.env.machine.tr page = none

theorem Hosted.areas_zero {mm : Mm Kernel} (h : Owns (Hosted mm.self) mm) : mm.areas 0 = none := by
  by_contra hsome
  obtain ⟨bs, hint⟩ := h.ok.integrity
  obtain ⟨n, hn, -⟩ := h.ok.live 0 (Or.inr hsome)
  obtain ⟨b, hb, hzero, -⟩ := hint.served 0 n hn
  exact (hint.good.wsub_payload (mem_used.mp hb).1).1 hzero

/-- `munmap_range` returns, and when it returns `KERNEL_OK` it has removed exactly the range if
and only if it did not lose the areas before it. -/
theorem munmap_exact_iff {mm : Mm Kernel} {cs : List (Nat × Region)} {addr len : Nat} (hl : Listed mm cs)
    (hown : Owns (Hosted mm.self) mm) (hlen : 0 < len) (hfit : addr + len + 4095 < 2 ^ 32) :
    (∃ st mm', munmapRange kernelOps mm addr len = some (st, mm')) ∧
      ∀ mm', munmapRange kernelOps mm addr len = some (.ok, mm') →
        (UnmapsExactly cs (alignDown addr 4096) (alignUp (addr + len) 4096) mm' ↔ MunmapSafe mm addr len) := by
  have hlinked := listed_iff.mp hl
  have hwrap : wrap (addr + len) = addr + len := wrap_of_lt (by omega)
  have hstop := alignUp_mod (addr + len)
  have hstart : alignDown addr 4096 % 4096 = 0 := Nat.mul_mod_left _ _
  have hmax := alignUp_lt (addr + len)
  have hlt : alignDown addr 4096 < alignUp (addr + len) 4096 := by
    have hup : wrap (addr + len + (4096 - 1)) = addr + len + 4095 := wrap_of_lt hfit
    unfold alignDown alignUp
    rw [hup]
    omega
  obtain ⟨st, mm', cs', lost', U', hrun, hremoved, hleft, hmem⟩ := @munmapRange_removes _ _ _ _ _ _ _
    (kernel_unmapping mm.self) _ _ hlinked (hown.imp fun _ _ h => h.busy) rfl addr len hlen.ne' (by
      rw [hwrap]
      intro va hva _ hlt' _
      omega)
  refine ⟨⟨st, mm', hrun⟩, ?_⟩
  intro mm'' hrun'
  cases hrun.symm.trans hrun'
  have hsafe : ∀ {xs ys : List (Nat × Region)} {c : Nat × Region}, cs = xs ++ c :: ys →
      (∀ x ∈ xs, x.2.stop ≤ alignDown addr 4096) → alignDown addr 4096 < c.2.stop →
      (MunmapSafe mm addr len ↔
        xs = [] ∨ c.2.start < alignDown addr 4096 ∨ alignUp (addr + len) 4096 ≤ c.2.start) := by
    intro xs ys c heq hxs hin
    rw [← hwrap]
    exact (heq ▸ hlinked).munmapSafe_iff hxs hin
  have hempty : (∀ c ∈ cs, c.2.stop ≤ alignDown addr 4096) → MunmapSafe mm addr len := by
    intro hall v a hv ha
    have hzero : v = 0 := by
      rw [findVma, hl.head] at hv
      rcases Seg.findFrom_spec (alignDown addr 4096) cs listFuel hl.seg hl.ordered.length_lt_fuel with
        ⟨hnone, -⟩ | ⟨xs, c, ys, rfl, -, hin, -⟩
      · exact Option.some.inj (hv.symm.trans hnone)
      · exact absurd (hall c (by simp)) (not_le.mpr hin)
    rw [hzero, Hosted.areas_zero hown] at ha
    cases ha
  rw [hwrap] at hremoved hmem
  generalize alignUp (addr + len) 4096 = stop at *
  generalize alignDown addr 4096 = start at *
  have hexact : MunmapSafe mm addr len → RemovesRange cs cs' start stop → UnmapsExactly cs start stop mm' := by
    intro hs hremoves
    obtain rfl : lost' = 0 := hleft.kept hs
    refine ⟨cs', listed_iff.mpr hleft.linked, hremoves, ?_⟩
    intro page hge hlt' hin
    have hgone := (hleft.owns.ok.gone _ (hmem rfl (page * 4096) (Nat.mul_mod_left _ _) hge hlt' hin)).2
    rwa [Nat.mul_div_cancel page (by decide)] at hgone
  cases hremoved with
  | none _ hall =>
      have hs := hempty hall
      exact iff_of_true (hexact hs (removesRange_refl fun c hc => Or.inl (hall c hc))) hs
  | cut xs c ys u _ _ hxs hlo hin htrim =>
      have hs := (hsafe rfl hxs hin).mpr (Or.inr (Or.inl hlo))
      exact iff_of_true (hexact hs (htrim.removesRange_cut hstart hstop hl.ordered hxs hlo hin hlt)) hs
  | whole xs c ys _ _ hxs hge hin htrim =>
      have hiff := hsafe rfl hxs hin
      by_cases hs : MunmapSafe mm addr len
      · refine iff_of_true (hexact hs ?_) hs
        rcases hiff.mp hs with rfl | hlo | hbehind
        · exact htrim.removesRange_first hstop hl.ordered hge
        · exact absurd hge (not_le.mpr hlo)
        · cases htrim with
          | behind =>
              refine removesRange_refl fun d hd => ?_
              rcases List.mem_append.mp hd with hd | hd
              · exact Or.inl (hxs d hd)
              · exact Or.inr (hbehind.trans (hl.ordered.of_append.2.1.head_le hd))
          | split _ _ _ _ hcut _ => exact absurd hbehind (not_le.mpr hcut)
          | drop _ _ _ _ _ hend _ =>
              have hpos := (hl.ordered.valid c (by simp)).2.2.1
              omega
      · refine iff_of_false ?_ hs
        -- the list that is left is the one the loop made, without the areas before the range
        rintro ⟨ds, hds, hremoves, -⟩
        obtain rfl : ds = cs' := seg_unique ds cs' hds.seg hleft.linked.seg
          (hds.head.symm.trans hleft.linked.head)
        rw [hiff, not_or, not_or, not_le] at hs
        exact htrim.not_removesRange hstop hl.ordered hs.1 hxs hlt hs.2.2 hremoves

/-- Eight frames with the directory in frame 5 and the first page table in frame 2. -/
def bootMachine : Machine :=
  { pmm :=
      { bitsAddr := 0x200000, bits := fun _ => 0x25#8, size := 1, totalPages := 8, freePages := 5, usedPages := 3 }
    frames := fun f i =>
      if f = 5 ∧ i = 1023 then 0x5003#32 else if f = 5 ∧ i = 0 then 0x2003#32 else 0
    cr3 := 5, kernelPageDirectory := 5, pagingEnabled := true }

theorem bootMachine_table {i : Nat} (hi : i < 1023) : bootMachine.table i = if i = 0 then some 2 else none := by
  by_cases hzero : i = 0
  · subst hzero
    decide
  · have hword : bootMachine.word 5 i = 0 := by
      simp [Machine.word, bootMachine, hi.ne, hzero]
    unfold Machine.table
    rw [show bootMachine.cr3 = 5 from rfl, hword, if_neg hzero]
    rfl

theorem bootMachine_booted : Booted bootMachine := by
  refine ⟨⟨rfl, ⟨by decide, by decide, by decide, ?_, by decide, by decide⟩, ⟨by decide, ?_, ?_, ?_⟩,
    by decide⟩,
    by decide⟩
  · intro b hb hbs
    exact absurd hbs (Nat.not_lt.mpr hb)
  · intro i hi f hf
    rw [bootMachine_table hi] at hf
    split at hf
    · cases hf
      decide
    · cases hf
  · intro i hi j hj f hf hf'
    rw [bootMachine_table hi] at hf
    rw [bootMachine_table hj] at hf'
    split at hf <;> split at hf' <;> simp_all
  · intro i hi hf
    rw [bootMachine_table hi] at hf
    split at hf <;> cases hf

def smallHeap : Client Unit :=
  (freshRun [.kmalloc 20, .kmalloc 20, .kmalloc 8]).getD ⟨⟨fun _ => 0#8, 0, 0, ()⟩, []⟩

theorem smallHeap_live :
    smallHeap.live = [(0xD0000058, 20), (0xD0000030, 20), (0xD0000014, 8)] ∧
      smallHeap.heap.currentEnd = 0xD0401000 := by
  decide +kernel

theorem smallHeap_integrity : ∃ bs, Integrity smallHeap bs := by
  obtain ⟨h, hinit, hfirst⟩ := freshPages_init
  have hrun : (freshRun [.kmalloc 20, .kmalloc 20, .kmalloc 8]).isSome := by decide +kernel
  obtain ⟨s, hs⟩ := Option.isSome_iff_exists.mp hrun
  obtain ⟨s₂, r₂, hs₂, hexec₂⟩ := freshRun_cons hs
  obtain ⟨s₁, r₁, hs₁, hexec₁⟩ := freshRun_cons hs₂
  obtain ⟨s₀, r₀, hs₀, hexec₀⟩ := freshRun_cons hs₁
  cases hfirst.symm.trans hs₀
  have hsteps : Transition.Run (CheckedStep freshPages) ⟨h, []⟩ s :=
    (((Transition.Run.refl _).snoc (a := .kmalloc 8) ⟨⟨show 8 < 2 ^ 32 by decide, r₀, hexec₀⟩, trivial⟩).snoc
      (a := .kmalloc 20) ⟨⟨show 20 < 2 ^ 32 by decide, r₁, hexec₁⟩, trivial⟩).snoc
      (a := .kmalloc 20) ⟨⟨show 20 < 2 ^ 32 by decide, r₂, hexec₂⟩, trivial⟩
  have hheap : smallHeap = s := by rw [smallHeap, hs, Option.getD_some]
  rw [hheap]
  exact (running_of_run freshPages_grows trivial hinit hsteps).1

def smallMm : Mm Kernel where
  self := 0xD0000014
  areas := Function.update (Function.update (fun _ => none) 0xD0000030
    (some ⟨0x20000000, 0x20001000, 0x20000, 19, 0xD0000058⟩)) 0xD0000058
    (some ⟨0x30000000, 0x30001000, 0x30000, 19, 0⟩)
  mmap := 0xD0000030
  mapCount := 2
  env := ⟨⟨⟨smallHeap.heap.mem, smallHeap.heap.head, smallHeap.heap.currentEnd, bootMachine⟩,
    smallHeap.live⟩, []⟩

def smallAreas : List (Nat × Region) :=
  [(0xD0000030, ⟨0x20000000, 0x20001000, 0x20000, 19⟩), (0xD0000058, ⟨0x30000000, 0x30001000, 0x30000, 19⟩)]

theorem smallMm_listed : Listed smallMm smallAreas := by
  refine ⟨rfl, ⟨by decide, rfl, by decide, rfl, trivial⟩, ⟨?_, ?_⟩, rfl⟩
  · intro c hc
    rcases List.mem_pair.mp hc with rfl | rfl
    · exact ⟨by decide, by decide, by decide, by decide⟩
    · exact ⟨by decide, by decide, by decide, by decide⟩
  · exact List.pairwise_pair.mpr (by decide)

theorem smallMm_hosted : Owns (Hosted smallMm.self) smallMm := by
  obtain ⟨hlive, hend⟩ := smallHeap_live
  obtain ⟨bs, hint⟩ := smallHeap_integrity
  refine ⟨rfl, ⟨bs, ⟨⟨hint.good.layout, hint.good.head, hint.good.aligned, hint.good.started⟩, hint.separated,
    hint.served, hint.distinct⟩⟩, bootMachine_booted, ?_, ?_⟩
  · exact le_of_eq_of_le hend (by decide)
  · change ∀ a ∈ smallMm.structs, ∃ n, (a, n) ∈ smallHeap.live ∧ _
    rw [hlive]
    intro a ha
    by_cases hself : a = 0xD0000014
    · exact ⟨8, by simp [hself], fun hne => absurd hself hne⟩
    · have hsome : smallMm.areas a ≠ none := ha.resolve_left hself
      refine ⟨20, ?_, fun _ => le_rfl⟩
      by_cases h1 : a = 0xD0000030
      · simp [h1]
      · by_cases h2 : a = 0xD0000058
        · simp [h2]
        · refine absurd ?_ hsome
          simp [smallMm, Function.update, h1, h2]

theorem munmap_exact_first :
    ∃ mm', munmapRange kernelOps smallMm 0x20000000 0x1000 = some (.ok, mm') ∧
      UnmapsExactly smallAreas 0x20000000 0x20001000 mm' := by
  obtain ⟨⟨st, mm', hrun⟩, hiff⟩ := @munmap_exact_iff _ _ 0x20000000 0x1000
    smallMm_listed smallMm_hosted (by decide) (by decide)
  have hst : (munmapRange kernelOps smallMm 0x20000000 0x1000).map Prod.fst = some .ok := by decide +kernel
  rw [hrun] at hst
  cases hst
  refine ⟨mm', hrun, (hiff mm' hrun).mpr ?_⟩
  intro v a hv _
  have hfind : findVma smallMm 0x20000000 = some 0xD0000030 := by decide +kernel
  exact Or.inl (Option.some.inj (hv.symm.trans hfind))

/-- Unmapping the second of two areas loses the first. -/
theorem munmap_loses_first :
    ¬ ∀ (mm : Mm Kernel) (cs : List (Nat × Region)) (addr len : Nat), Listed mm cs → Owns (Hosted mm.self) mm →
      0 < len → addr + len + 4095 < 2 ^ 32 → ∀ mm', munmapRange kernelOps mm addr len = some (.ok, mm') →
      UnmapsExactly cs (alignDown addr 4096) (alignUp (addr + len) 4096) mm' := by
  intro h
  have hrun : (munmapRange kernelOps smallMm 0x30000000 0x1000).map (fun x => (x.1, x.2.mmap, x.2.mapCount)) =
      some (.ok, 0, 1) := by decide +kernel
  obtain ⟨⟨st, mm'⟩, hmm', hdata⟩ := Option.map_eq_some_iff.mp hrun
  simp only [Prod.mk.injEq] at hdata
  obtain ⟨rfl, hhead, hcount⟩ := hdata
  obtain ⟨cs', hl, -⟩ := h smallMm smallAreas 0x30000000 0x1000 smallMm_listed smallMm_hosted (by decide)
    (by decide)
    mm' hmm'
  cases cs' with
  | nil => exact absurd (hl.count.symm.trans hcount) (by decide)
  | cons c cs => exact hl.seg.1 (hl.head.symm.trans hhead)

end Frostix.Vma
