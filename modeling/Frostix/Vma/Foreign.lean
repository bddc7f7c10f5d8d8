import Frostix.Pmm.Spent
import Frostix.Vma.Mmap
import Frostix.Vma.Runs
import Frostix.Vma.Shape

/-!
Runs of the calls on one address space as the page tables see them. A mapping is the
address space's own when an immediate mapping made it; all others are foreign. The calls
unmap whatever is present in an area, so foreign mappings stay only in runs that remove no
area around them. -/
namespace Frostix.Vma
open Machine32 Pmm Vmm Heap Services

structure Steady (e : Nat) (m : Machine) : Prop where
  booted : Booted m
  aligned : e % 4096 = 0
  below : e ≤ windowPage * 4096

/-- The kernel between two calls, with the structs at `A`. -/
def Settled : Set Nat → Kernel → Prop := KernelOk Steady fun _ => True

/-- No page of `D` outside `own` is mapped to a free frame. -/
def Firm (own D : Set Nat) (m : Machine) : Prop :=
  ∀ q, q ∉ own → q ∈ D → ∀ f, m.tr q = some f → ¬ Free m.pmm f

/-- Unmapping the page at `va` takes no present mapping away but those of `own`. -/
def Removable (own : Set Nat) (m : Machine) (va : Nat) : Prop :=
  ∀ q < pageLimit, q ∉ own → Touches (va / 4096) q → m.tr q = none

def behindHeap (k : Kernel) : Set Nat := {q | k.heap.heap.currentEnd / 4096 ≤ q ∧ q < windowPage}

/-- Neither where the heap may grow nor in the range of an immediate mapping is a foreign page
mapped to a free frame, and unmapping the areas in the range takes no foreign page away. -/
def MmOp.Careful (mm : Mm Kernel) (own : Set Nat) : MmOp → Prop
  | .mmap addr len flags => Firm own (behindHeap mm.env) mm.env.machine ∧
      (immediate flags = true → ∀ start stop, placeArea mm addr len = some (.ok (start, stop)) →
        Firm own {q | start ≤ q * 4096 ∧ q * 4096 < stop} mm.env.machine)
  | .munmap addr len => len ≠ 0 → Firm own (behindHeap mm.env) mm.env.machine ∧
      ∀ va, va % 4096 = 0 → alignDown addr 4096 ≤ va → va < alignUp (wrap (addr + len)) 4096 →
        mm.Contains va → Removable own mm.env.machine va

def CarefulDestroy (mm : Mm Kernel) (own : Set Nat) : Prop :=
  ∀ va, va % 4096 = 0 → mm.Contains va → Removable own mm.env.machine va

def KeepsForeign (own : Set Nat) (k k' : Kernel) : Prop :=
  ∀ q < pageLimit, q ∉ own → ∀ f, k.machine.tr q = some f → k'.machine.tr q = some f

/-- Since `m₀`, where the heap ended at `e₀`, the pages of `P` kept their translations. -/
structure During (P : Set Nat) (m₀ : Machine) (e₀ e : Nat) (m : Machine) : Prop where
  spared : Spared P m₀ m
  aligned : e % 4096 = 0
  grown : e₀ ≤ e
  below : e ≤ windowPage * 4096

section Calls

variable {P : Set Nat} {m₀ : Machine} {e₀ : Nat} {R : List Nat → Prop}

theorem During.start {e : Nat} {m : Machine} (P : Set Nat) (h : Steady e m) : During P m e e m :=
  ⟨Spared.refl P h.booted, h.aligned, le_rfl, h.below⟩

theorem During.steady {e : Nat} {m : Machine} (h : During P m₀ e₀ e m) : Steady e m :=
  ⟨h.spared.booted, h.aligned, h.below⟩

theorem during_grows
    (hfirm : ∀ q ∈ P, e₀ / 4096 ≤ q → q < windowPage → ∀ f, m₀.tr q = some f → ¬ Free m₀.pmm f) :
    Grows machinePages (During P m₀ e₀) := by
  have hquiet : ∀ e m m', During P m₀ e₀ e m → Quiet {q | e / 4096 ≤ q ∧ q < windowPage} m m' →
      Spared P m₀ m' := by
    intro e m m' h hq
    refine h.spared.quiet hq fun q hP hD => hfirm q hP ?_ hD.2
    exact le_trans (Nat.div_le_div_right h.grown) hD.1
  refine machinePages_grows (fun e m h => ⟨h.spared.booted, h.below⟩)
    (fun e m m' h hq => ⟨hquiet e m m' h hq, h.aligned, h.grown, h.below⟩) ?_
  intro e m m' n a h hbacked
  have haligned := h.aligned
  have hgrown := h.grown
  have hend := hbacked.below
  exact ⟨hquiet e m m' h hbacked.quiet, by omega, by omega, by omega⟩

theorem steady_grows : Grows machinePages Steady := by
  refine machinePages_grows (fun e m h => ⟨h.booted, h.below⟩)
    (fun e m m' h hq => ⟨hq.booted h.booted, h.aligned, h.below⟩) ?_
  intro e m m' n a h hbacked
  have haligned := h.aligned
  have hend := hbacked.below
  exact ⟨hbacked.quiet.booted h.booted, by omega, by omega⟩

/-- Pages are unmapped that take no page of `P` away. -/
theorem during_unmaps (h₀ : Booted m₀) (hwindow : windowPage ∈ P) {Q : Nat → Prop}
    (hlimit : ∀ va, Q va → va + 4096 < 2 ^ 32)
    (hloose : ∀ va, Q va → ∀ q ∈ P, q < pageLimit → Touches (va / 4096) q → m₀.tr q = none) :
    Unmaps kernelOps (KernelOk (During P m₀ e₀) R) Q := by
  refine kernelOps_unmaps ?_ (fun e m h => h.spared.booted.toSound) ?_
  · intro va hva
    have hlt := hlimit va hva
    unfold pageLimit
    omega
  · intro e m m' va hva h hc
    exact ⟨h.spared.clear h₀ hwindow hc (hloose va hva), h.aligned, h.grown, h.below⟩

theorem Filled.quiet {k k' : Kernel} {page n : Nat} {H : List Nat} {st : KernelStatus} {mₛ : Machine}
    (h : Filled k mₛ H page n st k') :
    ∃ m' handed, k' = withPages k m' handed ∧ Quiet {q | page ≤ q ∧ q < page + n} mₛ m' := by
  cases h with
  | done m' g _ hk' hlaid => exact ⟨m', _, hk', hlaid.toQuiet⟩
  | failed m' g i _ hk' hq => exact ⟨m', _, hk', hq⟩

theorem during_maps {start stop : Nat} (hs1 : start % 4096 = 0) (hs2 : stop % 4096 = 0) (hlt : start < stop)
    (hmax : stop < 2 ^ 32)
    (hfirm : ∀ q ∈ P, start ≤ q * 4096 → q * 4096 < stop → ∀ f, m₀.tr q = some f → ¬ Free m₀.pmm f) :
    MapsImmediate kernelOps (KernelOk (During P m₀ e₀) fun _ => True) (KernelOk (During P m₀ e₀) fun _ => True)
      (KernelOk (During P m₀ e₀) fun _ => True) start stop := by
  intro A k hk
  obtain ⟨st, k', hrun, hfilled, -⟩ := @mapImmediate_grown A k start stop ⟨hk.ok.spared.booted, fun _ hf => hf⟩
    hs1 hlt hmax
  obtain ⟨m', handed, hk', hq⟩ := hfilled.quiet
  have hkept : KernelOk (During P m₀ e₀) (fun _ => True) A k' := by
    rw [hk']
    refine ⟨integrity_setMachine hk.integrity m', ⟨hk.ok.spared.quiet hq ?_, hk.ok.aligned, hk.ok.grown,
      hk.ok.below⟩, hk.live, trivial⟩
    rintro q hP ⟨hlo, hhi⟩
    exact hfirm q hP (by omega) (by omega)
  exact ⟨st, k', hrun, fun _ => hkept, fun _ => hkept⟩

end Calls

section Space

variable {mm mm' : Mm Kernel} {own : Set Nat} {k' : Kernel}

theorem Owns.during (h : Owns Settled mm) (own : Set Nat) :
    Owns (KernelOk (During ownᶜ mm.env.machine mm.env.heap.heap.currentEnd) fun _ => True) mm :=
  ⟨h.self_apart, h.ok.integrity, During.start ownᶜ h.ok.ok, h.ok.live, trivial⟩

theorem settled_of_during {P : Set Nat} {m₀ : Machine} {e₀ : Nat} {A : Set Nat} {k : Kernel}
    (h : KernelOk (During P m₀ e₀) (fun _ => True) A k) : Settled A k :=
  ⟨h.integrity, h.ok.steady, h.live, trivial⟩

theorem During.keeps {e : Nat} {k : Kernel} {e₀ : Nat} (h : During ownᶜ k.machine e₀ e k'.machine) :
    KeepsForeign own k k' :=
  fun q hq hown f hf => h.spared.tr q hown hq f hf

/-- A careful call leaves the list in shape and the foreign pages where they are. -/
theorem MmOp.careful_spec (hshape : Shape mm) (hown : Owns Settled mm) (hwindow : windowPage ∉ own) {op : MmOp}
    (hop : op.Careful mm own) {st : KernelStatus} (hrun : op.exec kernelOps mm = some (st, mm')) :
    Shape mm' ∧ Owns Settled mm' ∧ KeepsForeign own mm.env mm'.env := by
  have hduring := hown.during own
  suffices h : Shape mm' ∧
      Owns (KernelOk (During ownᶜ mm.env.machine mm.env.heap.heap.currentEnd) fun _ => True) mm' from
    ⟨h.1, h.2.imp fun _ _ => settled_of_during, h.2.ok.ok.keeps⟩
  cases op with
  | mmap addr len flags =>
      obtain ⟨hheap, hrange⟩ := hop
      have hops : Allocator kernelOps
          (KernelOk (During ownᶜ mm.env.machine mm.env.heap.heap.currentEnd) fun _ => True) :=
        kernelOps_allocator (during_grows fun q hq hlo hhi => hheap q hq ⟨hlo, hhi⟩)
      obtain ⟨⟨⟨st', out⟩, mm''⟩, hmap, heq⟩ := Option.map_eq_some_iff.mp hrun
      cases heq
      obtain ⟨hshape', hown', -⟩ := hshape.mmapAnonymous hops (fun _ _ hs => hs) hduring
        (fun start stop hplace hs1 hs2 hlt hmax hflag => during_maps hs1 hs2 hlt hmax
          fun q hq hlo hhi => hrange hflag start stop hplace q hq ⟨hlo, hhi⟩) hmap
      exact ⟨hshape', hown'⟩
  | munmap addr len =>
      by_cases hlen : len = 0
      · rw [MmOp.exec, Vma.munmapRange, if_pos hlen] at hrun
        cases hrun
        exact ⟨hshape, hduring⟩
      obtain ⟨hheap, hrange⟩ := hop hlen
      have hops : Allocator kernelOps
          (KernelOk (During ownᶜ mm.env.machine mm.env.heap.heap.currentEnd) fun _ => True) :=
        kernelOps_allocator (during_grows fun q hq hlo hhi => hheap q hq ⟨hlo, hhi⟩)
      exact hshape.munmapRange hops hduring (during_unmaps hown.ok.ok.booted hwindow (fun va hva => hva.2.1)
        fun va hva q hq hlt => hrange va hva.1 hva.2.2.1 hva.2.2.2.1 hva.2.2.2.2 q hlt hq) hrun

theorem mmDestroy_careful (hshape : Shape mm) (hown : Owns Settled mm) (hwindow : windowPage ∉ own)
    (hcareful : CarefulDestroy mm own) (hrun : mmDestroy kernelOps mm = some k') :
    KeepsForeign own mm.env k' := by
  obtain ⟨A, hk'⟩ := hshape.mmDestroy kernelOps_frees (hown.during own)
    (during_unmaps hown.ok.ok.booted hwindow (fun va hva => hva.2.1)
      fun va hva q hq hlt => hcareful va hva.1 hva.2.2 q hlt hq) hrun
  exact hk'.ok.keeps

end Space

/-- An address space with its own pages: those that an immediate mapping mapped for it and
that are still mapped as it left them. -/
structure Space where
  mm : Mm Kernel
  own : Set Nat

def MmOp.range (mm : Mm Kernel) (st : KernelStatus) : MmOp → Set Nat
  | .mmap addr len flags => {q | st = .ok ∧ immediate flags = true ∧
      ∃ start stop, placeArea mm addr len = some (.ok (start, stop)) ∧ start ≤ q * 4096 ∧ q * 4096 < stop}
  | .munmap _ _ => ∅

/-- After a step that mapped the pages of `made`. -/
def Space.after (s : Space) (mm' : Mm Kernel) (made : Set Nat) : Space :=
  ⟨mm', {q | q ∈ s.own ∧ mm'.env.machine.tr q = s.mm.env.machine.tr q} ∪ made⟩

/-- A call that meets `C`, or the rest of the kernel, which may do anything but free the structs. -/
inductive SpaceStep (C : Mm Kernel → Set Nat → MmOp → Prop) (s : Space) : Option MmOp → Space → Prop
  | call (op : MmOp) (st : KernelStatus) (mm' : Mm Kernel) : C s.mm s.own op →
      op.exec kernelOps s.mm = some (st, mm') →
      SpaceStep C s (some op) (s.after mm' {q | q ∈ op.range s.mm st ∧ s.mm.env.machine.tr q = none})
  | others (k' : Kernel) : Settled s.mm.structs k' → SpaceStep C s none (s.after { s.mm with env := k' } ∅)

/-- The run invariant: the first page of the window shows a page table of the kernel. -/
structure SpaceOk (s : Space) : Prop where
  shape : Shape s.mm
  owns : Owns Settled s.mm
  window : windowPage ∉ s.own

theorem SpaceOk.window_after {s : Space} (h : SpaceOk s) (mm' : Mm Kernel) {made : Set Nat}
    (hmade : windowPage ∉ made) : windowPage ∉ (s.after mm' made).own := by
  rintro (⟨hown, -⟩ | hin)
  · exact h.window hown
  · exact hmade hin

theorem SpaceOk.step {s s' : Space} {op : Option MmOp} (h : SpaceOk s) (hstep : SpaceStep MmOp.Careful s op s') :
    SpaceOk s' := by
  cases hstep with
  | call op st mm' hop hrun =>
      obtain ⟨hshape, howns, -⟩ := MmOp.careful_spec h.shape h.owns h.window hop hrun
      refine ⟨hshape, howns, h.window_after mm' ?_⟩
      rintro ⟨-, hnone⟩
      have hbooted := h.owns.ok.ok.booted
      exact hbooted.firstTable ((hbooted.tr_window (q := windowPage) le_rfl (by decide)).symm.trans hnone)
  | others k' hk' =>
      exact ⟨h.shape.setEnv k', ⟨h.owns.self_apart, hk'⟩, h.window_after _ (Set.notMem_empty _)⟩

theorem created_owns {R : List Nat → Prop} {k : Kernel} (hk : KernelOk Steady R ∅ k) {mm₀ : Mm Kernel}
    (hcreate : mmCreate kernelOps k = some mm₀) (hself : mm₀.self ≠ 0) :
    Linked 0 mm₀ [] ∧ Owns (KernelOk Steady R) mm₀ := by
  obtain ⟨p, s', hrun, hcase⟩ := (kernelOps_allocator steady_grows).kmalloc 8 hk
  rw [mmCreate, hrun] at hcreate
  cases hcreate
  rcases hcase with ⟨hp, -⟩ | ⟨-, -, -, hok⟩
  · exact absurd hp hself
  · refine ⟨⟨rfl, trivial, ⟨fun _ hc => absurd hc List.not_mem_nil, List.Pairwise.nil⟩, rfl⟩, rfl, ?_⟩
    have hset : Mm.structs (⟨p, fun _ => none, 0, 0, s'⟩ : Mm Kernel) = insert p ∅ := by
      ext a
      simp [Mm.structs]
    rw [hset]
    exact hok

/-- In every run of careful calls, with anything else that the kernel does between them: a
careful call and a careful destruction keep every mapping that no immediate mapping of this
address space made. -/
theorem vma_run_keeps_foreign {k : Kernel} (hk : Settled ∅ k) {mm₀ : Mm Kernel}
    (hcreate : mmCreate kernelOps k = some mm₀) (hself : mm₀.self ≠ 0) {s : Space}
    (run : Transition.Run (SpaceStep MmOp.Careful) ⟨mm₀, ∅⟩ s) :
    (∀ (op : MmOp) st mm', op.Careful s.mm s.own → op.exec kernelOps s.mm = some (st, mm') →
      KeepsForeign s.own s.mm.env mm'.env) ∧
    ∀ k', CarefulDestroy s.mm s.own → mmDestroy kernelOps s.mm = some k' → KeepsForeign s.own s.mm.env k' := by
  obtain ⟨hl, howns⟩ := created_owns hk hcreate hself
  have hstart : SpaceOk ⟨mm₀, ∅⟩ := ⟨.linked 0 [] hl, howns, Set.notMem_empty _⟩
  have hok : SpaceOk s := run.invariant (fun _ _ _ hstep h => h.step hstep) hstart
  refine ⟨fun op st mm' hop hrun => ?_, fun k' hcareful hrun => ?_⟩
  · exact (MmOp.careful_spec hok.shape hok.owns hok.window hop hrun).2.2
  · exact mmDestroy_careful hok.shape hok.owns hok.window hcareful hrun

def kernelOn (m : Machine) : Kernel := kernelOps.kfree (smallMm.env.setMachine m) 0xD0000058

theorem small_live : (0xD0000058, 20) ∈ smallHeap.live := by
  rw [smallHeap_live.1]
  exact List.mem_cons_self

theorem kernelOn_settled {m : Machine} (h : Booted m) : Settled ∅ (kernelOn m) := by
  obtain ⟨-, hint, -, hbelow, -⟩ := smallMm_hosted
  have hsettled : Settled {0xD0000058} (smallMm.env.setMachine m) := by
    refine ⟨integrity_setMachine hint m, ⟨h, ?_, hbelow⟩, ?_, trivial⟩
    · obtain ⟨bs, hint⟩ := hint
      exact hint.good.aligned
    · rintro a rfl
      exact ⟨20, small_live⟩
  have hfreed := kernelOps_frees {0xD0000058} _ 0xD0000058 hsettled rfl
  rwa [Set.sdiff_self] at hfreed

theorem kmalloc_in_place {k : Kernel} {bs : List Block} (hint : Integrity k.heap bs) {n : Nat} (hn : n ≠ 0)
    {d : Block} (hd : d ∈ bs) (hfit : d.Fits n) :
    ∃ r k', kernelOps.kmalloc k n = some (r, k') ∧ r ≠ 0 ∧ k'.machine = k.machine := by
  obtain ⟨r, mem, hrun, hne, -⟩ := @Heap.Integrity.kmalloc_fits _ machinePages _ _ hint _ hn _ hd hfit
  refine ⟨r, { k with heap := ⟨{ k.heap.heap with mem }, track k.heap.live r n⟩ }, ?_, hne, rfl⟩
  simp only [kernelOps, hrun, Option.map_some]

theorem kernelOn_create (m : Machine) :
    ∃ mm₀, mmCreate kernelOps (kernelOn m) = some mm₀ ∧ mm₀.self ≠ 0 ∧ mm₀.env.machine = m := by
  obtain ⟨-, hint, -⟩ := smallMm_hosted
  obtain ⟨bs, hint⟩ := integrity_setMachine hint m
  obtain ⟨bs', hint', d, hd, hfree, hsize⟩ := hint.kfree_room small_live
  have hmachine : (kernelOn m).machine = m := by
    change (Heap.kfree (smallMm.env.setMachine m).heap.heap 0xD0000058).env = m
    unfold Heap.kfree
    split <;> rfl
  have hint'' : Integrity (kernelOn m).heap bs' := hint'
  obtain ⟨r, k', hmalloc, hne, hsame⟩ := kmalloc_in_place hint'' (n := 8) (by decide) hd
    ⟨hfree, le_trans (by decide) hsize⟩
  refine ⟨⟨r, fun _ => none, 0, 0, k'⟩, ?_, hne, hsame.trans hmachine⟩
  rw [mmCreate, hmalloc]
  rfl

theorem bootMachine_tr {q : Nat} (hq : q < windowPage) : bootMachine.tr q = none := by
  have hdiv : q / 1024 < 1023 := div_page hq
  rw [Machine.tr, bootMachine_table hdiv]
  by_cases hzero : q / 1024 = 0
  · rw [if_pos hzero]
    have hword : bootMachine.word 2 (q % 1024) = 0 := by simp [Machine.word, bootMachine]
    change decode (bootMachine.word 2 (q % 1024)) = none
    rw [hword]
    rfl
  · rw [if_neg hzero]
    rfl

/-- The small machine with the page at 1 MiB mapped to itself, and one free frame. -/
def identityMachine : Machine :=
  { bootMachine with
    pmm :=
      { bitsAddr := 0x200000, bits := fun _ => 0xFD#8, size := 1, totalPages := 8, freePages := 1, usedPages := 7 }
    frames := fun f i => if f = 2 ∧ i = 256 then 0x100003#32 else bootMachine.frames f i }

theorem identityMachine_table : identityMachine.table = bootMachine.table := by
  have hword : ∀ i, identityMachine.word 5 i = bootMachine.word 5 i := by
    intro i
    simp [Machine.word, identityMachine]
  funext i
  exact congrArg decode (hword i)

theorem identityMachine_booted : Booted identityMachine := by
  obtain ⟨⟨henabled, -, ⟨hself, -, hapart, hdir⟩, -⟩, hfirst⟩ := bootMachine_booted
  rw [← identityMachine_table] at hself hapart hdir hfirst
  refine ⟨⟨henabled, ⟨by decide, by decide, by decide, ?_, by decide, by decide⟩, ⟨hself, ?_, hapart, hdir⟩,
    by decide⟩, hfirst⟩
  · intro b hb hbs
    exact absurd hbs (Nat.not_lt.mpr hb)
  · intro i hi f hf
    rw [identityMachine_table, bootMachine_table hi] at hf
    split at hf
    · cases hf
      decide
    · cases hf

theorem identityMachine_tr {q : Nat} (hq : q < windowPage) (hne : q ≠ 256) : identityMachine.tr q = none := by
  rw [Machine.tr, identityMachine_table, bootMachine_table (div_page hq)]
  by_cases hzero : q / 1024 = 0
  · rw [if_pos hzero]
    have hindex : q % 1024 ≠ 256 := by omega
    have hword : identityMachine.word 2 (q % 1024) = 0 := by
      simp [Machine.word, identityMachine, bootMachine, hindex]
    change decode (identityMachine.word 2 (q % 1024)) = none
    rw [hword]
    rfl
  · rw [if_neg hzero]
    rfl

/-- The page behind the foreign one is mapped at once, which takes the last frame, and unmapped. -/
theorem vma_run_keeps_foreign_small :
    ∃ mm₀ s mm', Settled ∅ (kernelOn identityMachine) ∧ mmCreate kernelOps (kernelOn identityMachine) = some mm₀ ∧
      mm₀.self ≠ 0 ∧ Transition.Run (SpaceStep MmOp.Careful) ⟨mm₀, ∅⟩ s ∧ 257 ∈ s.own ∧ 256 ∉ s.own ∧
      (MmOp.munmap 0x101000 4096).Careful s.mm s.own ∧
      (MmOp.munmap 0x101000 4096).exec kernelOps s.mm = some (.ok, mm') ∧ mm'.env.machine.tr 257 = none ∧
      mm'.env.machine.tr 256 = some 256 := by
  obtain ⟨mm₀, hcreate, hself, hmachine⟩ := kernelOn_create identityMachine
  have hsettled := kernelOn_settled identityMachine_booted
  have hmap : ((mmCreate kernelOps (kernelOn identityMachine)).bind fun mm =>
      MmOp.exec kernelOps mm (.mmap 0x101000 4096 0x10003)).map (fun x => (x.1, x.2.env.machine.pmm.freePages,
        x.2.env.machine.tr 256)) = some (.ok, 0, some 256) := by
    decide +kernel
  have hboth : ((mmCreate kernelOps (kernelOn identityMachine)).bind fun mm =>
      (MmOp.exec kernelOps mm (.mmap 0x101000 4096 0x10003)).bind fun x =>
        MmOp.exec kernelOps x.2 (.munmap 0x101000 4096)).map (fun x => (x.1, x.2.env.machine.tr 257)) =
      some (.ok, none) := by decide +kernel
  rw [hcreate, Option.bind_some] at hmap hboth
  obtain ⟨⟨st, mm⟩, hexec, hdata⟩ := Option.map_eq_some_iff.mp hmap
  simp only [Prod.mk.injEq] at hdata
  obtain ⟨rfl, hnofree, hkept⟩ := hdata
  rw [hexec, Option.bind_some] at hboth
  obtain ⟨⟨st', mm'⟩, hexec', hdata⟩ := Option.map_eq_some_iff.mp hboth
  obtain ⟨rfl, hgone⟩ := Prod.mk.inj hdata
  have hstarted : heapStart / 4096 ≤ mm₀.env.heap.heap.currentEnd / 4096 := by
    obtain ⟨bs, hint⟩ := (created_owns hsettled hcreate hself).2.ok.integrity
    have hstart := hint.good.started
    exact Nat.div_le_div_right hstart.le
  have hcareful : MmOp.Careful mm₀ ∅ (.mmap 0x101000 4096 0x10003) := by
    refine ⟨?_, fun _ start stop hplace => ?_⟩
    · rintro q - ⟨hlo, hq⟩ f hf
      have hheap : 256 < heapStart / 4096 := by decide
      rw [hmachine, identityMachine_tr hq (by omega)] at hf
      cases hf
    · obtain ⟨rfl, rfl⟩ := placeArea_fixed (by decide) hplace
      rintro q - ⟨hlo, hhi⟩ f hf
      have hpage : q = 257 := by
        change 0x101000 ≤ q * 4096 at hlo
        change q * 4096 < 0x102000 at hhi
        omega
      rw [hmachine, hpage, identityMachine_tr (by decide) (by decide)] at hf
      cases hf
  have hstart : Transition.Run (SpaceStep MmOp.Careful) ⟨mm₀, ∅⟩ ⟨mm₀, ∅⟩ := .refl _
  have hsteps := hstart.snoc (SpaceStep.call (.mmap 0x101000 4096 0x10003) .ok mm hcareful hexec)
  obtain ⟨s, hs⟩ : ∃ s, s = Space.after ⟨mm₀, ∅⟩ mm {q | q ∈ MmOp.range mm₀ .ok (.mmap 0x101000 4096 0x10003) ∧
    mm₀.env.machine.tr q = none} := ⟨_, rfl⟩
  rw [← hs] at hsteps
  have hmm : s.mm = mm := congrArg Space.mm hs
  have hown : 257 ∈ s.own := by
    rw [hs]
    refine Or.inr ⟨⟨rfl, by decide, 0x101000, 0x102000, rfl, by decide, by decide⟩, ?_⟩
    rw [hmachine]
    exact identityMachine_tr (by decide) (by decide)
  have hforeign : 256 ∉ s.own := by
    rw [hs]
    rintro (⟨hold, -⟩ | ⟨⟨-, -, start, stop, hplace, hlo, -⟩, -⟩)
    · exact Set.notMem_empty _ hold
    · obtain ⟨rfl, rfl⟩ := placeArea_fixed (by decide) hplace
      exact absurd hlo (by decide)
  have hunmap : (MmOp.munmap 0x101000 4096).Careful s.mm s.own := by
    obtain ⟨hl, howns⟩ := created_owns hsettled hcreate hself
    obtain ⟨-, howns', -⟩ := MmOp.careful_spec (.linked 0 [] hl) howns (Set.notMem_empty _) hcareful hexec
    rw [hmm]
    refine fun _ => ⟨fun q _ _ f _ hfree => ?_, fun va _ hlo hhi _ q _ hq htouch => ?_⟩
    · -- no frame is free
      have hpos := howns'.ok.ok.booted.pmm.exists_free_iff.mp ⟨f, hfree⟩
      omega
    · change 0x101000 ≤ va at hlo
      change va < 0x102000 at hhi
      have hpage : va / 4096 = 257 := by omega
      rcases htouch with rfl | ⟨hwindow, -⟩
      · exact absurd (hpage ▸ hown) hq
      · rw [hpage] at hwindow
        exact absurd hwindow (by decide)
  rw [← hmm] at hexec' hkept
  have hkeeps := (vma_run_keeps_foreign hsettled hcreate hself hsteps).1 _ .ok mm' hunmap hexec'
  exact ⟨mm₀, s, mm', hsettled, hcreate, hself, hsteps, hown, hforeign, hunmap, hexec', hgone,
    hkeeps 256 (by decide) hforeign 256 hkept⟩

/-- An area that was never mapped is placed around that page and removed again. -/
theorem vma_run_unmaps_foreign :
    ¬ ∀ (k : Kernel) (mm₀ : Mm Kernel) (s : Space), Settled ∅ k → mmCreate kernelOps k = some mm₀ → mm₀.self ≠ 0 →
      Transition.Run (SpaceStep fun _ _ _ => True) ⟨mm₀, ∅⟩ s →
      (∀ (op : MmOp) st mm', op.exec kernelOps s.mm = some (st, mm') → KeepsForeign s.own s.mm.env mm'.env) ∧
      ∀ k', mmDestroy kernelOps s.mm = some k' → KeepsForeign s.own s.mm.env k' := by
  intro h
  obtain ⟨mm₀, hcreate, hself, -⟩ := kernelOn_create identityMachine
  have hfirst : ((mmCreate kernelOps (kernelOn identityMachine)).bind fun mm =>
      MmOp.exec kernelOps mm (.mmap 0x100000 4096 3)).map (fun x => x.2.env.machine.tr 256) = some (some 256) := by
    decide +kernel
  have hsecond : ((mmCreate kernelOps (kernelOn identityMachine)).bind fun mm =>
      (MmOp.exec kernelOps mm (.mmap 0x100000 4096 3)).bind fun x =>
        MmOp.exec kernelOps x.2 (.munmap 0x100000 4096)).map (fun x => x.2.env.machine.tr 256) = some none := by
    decide +kernel
  rw [hcreate, Option.bind_some] at hfirst hsecond
  obtain ⟨⟨st, mm⟩, hexec, hbefore⟩ := Option.map_eq_some_iff.mp hfirst
  rw [hexec, Option.bind_some] at hsecond
  obtain ⟨⟨st', mm'⟩, hexec', hafter⟩ := Option.map_eq_some_iff.mp hsecond
  have hstart : Transition.Run (SpaceStep fun _ _ _ => True) ⟨mm₀, ∅⟩ ⟨mm₀, ∅⟩ := .refl _
  have hsteps := hstart.snoc
    (SpaceStep.call (.mmap 0x100000 4096 3) st mm trivial hexec)
  obtain ⟨hkeeps, -⟩ := h _ mm₀ _ (kernelOn_settled identityMachine_booted) hcreate hself hsteps
  have hforeign : 256 ∉ (Space.after ⟨mm₀, ∅⟩ mm {q | q ∈ MmOp.range mm₀ st (.mmap 0x100000 4096 3) ∧
      mm₀.env.machine.tr q = none}).own := by
    rintro (⟨hown, -⟩ | ⟨⟨-, hflag, -⟩, -⟩)
    · exact Set.notMem_empty _ hown
    · exact absurd hflag (by decide)
  have hkept := hkeeps (.munmap 0x100000 4096) st' mm' hexec' 256 (by decide) hforeign 256 hbefore
  exact absurd (hafter.symm.trans hkept) (by decide)

end Frostix.Vma
