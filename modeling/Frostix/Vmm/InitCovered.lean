import Frostix.Vmm.InitMapped

/-!
Whether everything the kernel goes on using is mapped once `vmm_init` returns `KERNEL_OK`.
The page counts are computed from the sizes alone, so a range that does not start at a page
boundary can end in a page that nobody asks for; and where a page table is refused, most
of the loops go on without it. -/
namespace Frostix.Vmm
open Machine32 Pmm Quota

/-- `multiboot_info_t` lies in frames that are not handed out, and outside the directory. -/
def InfoKept (m : Machine) (mbi : Nat) : Prop :=
  ∀ k < sizeofInfo, ¬ Free m.pmm (wrap (mbi + k) / 4096) ∧
    wrap (mbi + k) / 4096 ≠ m.kernelPageDirectory

def Needed (m : Machine) (inputs : InitInputs) (x : Nat) : Prop :=
  x < 2 ^ 32 ∧
    ((0x00100000 ≤ x ∧ x < inputs.kernelEnd) ∨
      (m.pmm.bitsAddr ≤ x ∧ x < m.pmm.bitsAddr + m.pmm.size) ∨
      x < 0x00100000 ∨
      (inputs.vbeIsAvailable = true ∧ inputs.framebufferAddr ≤ x ∧
        x < inputs.framebufferAddr + inputs.framebufferSize) ∨
      (inputs.multibootInfoPtr ≠ 0 ∧ m.hasVbeInfo inputs.multibootInfoPtr = true ∧
        ((inputs.multibootInfoPtr ≤ x ∧ x < inputs.multibootInfoPtr + sizeofInfo) ∨
          (m.vbeControlInfo inputs.multibootInfoPtr ≤ x ∧
            x < m.vbeControlInfo inputs.multibootInfoPtr + sizeofVbeControlInfo) ∨
          (m.vbeModeInfo inputs.multibootInfoPtr ≤ x ∧
            x < m.vbeModeInfo inputs.multibootInfoPtr + sizeofVbeModeInfo))))

/-- Paging is on in the directory, which maps itself, and every needed byte is mapped
at its own address. -/
structure BootMapped (m : Machine) (inputs : InitInputs) (m' : Machine) : Prop where
  enabled : m'.pagingEnabled = true
  inUse : m'.cr3 = m.kernelPageDirectory
  selfMap : m'.table 1023 = some m'.cr3
  identity : ∀ x, Needed m inputs x → m'.tr (x / 4096) = some (x / 4096)

/-- The tables of the bitmap's pages and of the first 4 MiB are granted, so that
`vmm_init` does not return early. -/
def Completes (m : Machine) (inputs : InitInputs) : Prop :=
  (∀ p ∈ bitmapPages m, tableOf p ∈ grantedTables m (requestedPages m inputs)) ∧
    0 ∈ grantedTables m (requestedPages m inputs)

/-- Every needed byte lies below the recursive window in a page that is asked for and whose
table is granted. -/
def AllServed (m : Machine) (inputs : InitInputs) : Prop :=
  ∀ x, Needed m inputs x → x / 4096 < windowPage ∧ PageServed m (requestedPages m inputs) (x / 4096)

section Run
variable {start m : Machine} {pages : List Nat} {inputs : InitInputs}

theorem Requested.u32At (h : Requested start m pages) {addr : Nat}
    (hsafe : ∀ k < 4, ¬ Free start.pmm (wrap (addr + k) / 4096) ∧
      wrap (addr + k) / 4096 ≠ start.kernelPageDirectory) : m.u32At addr = start.u32At addr := by
  have hbyte : ∀ k < 4, m.byte (addr + k) = start.byte (addr + k) := by
    intro k hk
    unfold Machine.byte
    rw [h.kept _ _ (hsafe k hk).1 (hsafe k hk).2]
  unfold Machine.u32At
  rw [hbyte 1 (by decide), hbyte 2 (by decide), hbyte 3 (by decide),
    show m.byte addr = start.byte addr from hbyte 0 (by decide)]

theorem InfoKept.field {mbi : Nat} (h : InfoKept start mbi) {offset : Nat}
    (hin : offset + 4 ≤ sizeofInfo) : ∀ k < 4,
      ¬ Free start.pmm (wrap (mbi + offset + k) / 4096) ∧
        wrap (mbi + offset + k) / 4096 ≠ start.kernelPageDirectory := by
  intro k hk
  rw [Nat.add_assoc]
  exact h (offset + k) (by omega)

theorem alignDown_page (x : Nat) : alignDown x 4096 / 4096 = x / 4096 := Nat.mul_div_cancel _ (by decide)

theorem Requested.mapVbeInfo (h : Requested start m pages)
    (hdir : ¬ Free start.pmm start.kernelPageDirectory)
    (hinfo : inputs.multibootInfoPtr ≠ 0 → InfoKept start inputs.multibootInfoPtr) :
    ∃ m', mapVbeInfo inputs m = some m' ∧ Requested start m' (pages ++ vbeInfoPages start inputs) := by
  unfold Vmm.mapVbeInfo vbeInfoPages
  dsimp only
  by_cases hmbi : inputs.multibootInfoPtr = 0
  · rw [if_neg fun hc => hc.1 hmbi, if_neg fun hc => hc.1 hmbi, List.append_nil]
    exact ⟨m, rfl, h⟩
  have hkept := hinfo hmbi
  have hflags : m.hasVbeInfo inputs.multibootInfoPtr = start.hasVbeInfo inputs.multibootInfoPtr :=
    congrArg (fun flags => flags.testBit 11) (h.u32At (@InfoKept.field _ _ hkept 0 (by decide)))
  rw [hflags]
  by_cases hvbe : inputs.multibootInfoPtr ≠ 0 ∧ start.hasVbeInfo inputs.multibootInfoPtr = true
  · rw [if_pos hvbe, if_pos hvbe]
    obtain ⟨m₁, hrun₁, h₁⟩ := h.mapIgnoring hdir inputs.multibootInfoPtr (pagesFor sizeofInfo) 0
    have hcontrol : m₁.vbeControlInfo inputs.multibootInfoPtr = start.vbeControlInfo inputs.multibootInfoPtr :=
      h₁.u32At (hkept.field (by decide))
    obtain ⟨m₂, hrun₂, h₂⟩ := h₁.mapIgnoring hdir (start.vbeControlInfo inputs.multibootInfoPtr)
      (pagesFor sizeofVbeControlInfo) 0
    have hmode : m₂.vbeModeInfo inputs.multibootInfoPtr = start.vbeModeInfo inputs.multibootInfoPtr :=
      h₂.u32At (hkept.field (by decide))
    obtain ⟨m₃, hrun₃, h₃⟩ := h₂.mapIgnoring hdir (start.vbeModeInfo inputs.multibootInfoPtr)
      (pagesFor sizeofVbeModeInfo) 0
    have hmodes := lt_of_le_of_lt (alignDown_le _ 4096)
      (wrap_lt (inputs.videoModesPtr / 2 ^ 16 * 16 + inputs.videoModesPtr % 2 ^ 16))
    obtain ⟨status₄, m₄, hrun₄, h₄, -⟩ := h₃.mapPage hdir hmodes
    have hoem := lt_of_le_of_lt (alignDown_le inputs.oemStringPtr 4096) inputs.oemStringPtr_lt
    obtain ⟨status₅, m₅, hrun₅, h₅, -⟩ := h₄.mapPage hdir hoem
    rw [alignDown_page] at h₄ h₅
    refine ⟨m₅, ?_, ?_⟩
    · simp only [Option.bind_eq_bind, Option.bind_some, hrun₁, hcontrol, hrun₂, hmode, hrun₃, hrun₄, hrun₅]
    · simpa only [List.append_assoc, alignDown_page] using h₅
  · rw [if_neg hvbe, if_neg hvbe, List.append_nil]
    exact ⟨m, rfl, h⟩

/-- The cleared directory maps nothing. -/
theorem clearedDirectory (hoff : m.pagingEnabled = false) (hpmm : WellFormed m.pmm) :
    Requested m (m.clearFrame m.kernelPageDirectory) [] := by
  obtain ⟨hword, -, hsame, hon⟩ := clearFrame_spec m m.kernelPageDirectory
  have hdirectory := clearFrame_kernelPageDirectory m m.kernelPageDirectory
  have hnone : ∀ t < 1024, (m.clearFrame m.kernelPageDirectory).dirTable t = none := by
    intro t ht
    unfold Machine.dirTable
    rw [hdirectory, hword, if_pos ⟨rfl, ht⟩]
    rfl
  constructor
  case off => exact hon.trans hoff
  case directory => exact hdirectory
  case pmm => rwa [hsame]
  case bitsAddr => rw [hsame]
  case size => rw [hsame]
  case budget =>
      rw [hsame]
      rfl
  case free =>
      rw [hsame]
      exact fun b hb => hb
  case kept =>
      intro f i _ hf
      rw [hword, if_neg fun hc => hf hc.1]
  case held_iff =>
      intro t ht
      exact iff_of_false (not_not.mpr (hnone t ht)) (Finset.notMem_empty t)
  case fresh =>
      intro t ht f hf
      rw [hnone t ht] at hf
      cases hf
  case apart =>
      intro s hs t _ f hf
      rw [hnone s hs] at hf
      cases hf
  case within => exact fun p hp => absurd hp.1 List.not_mem_nil
  case mapped =>
      intro t ht f hf
      rw [hnone t ht] at hf
      cases hf
  case unmapped =>
      intro t ht f hf
      rw [hnone t ht] at hf
      cases hf

/-- The part of `vmm_init` behind the framebuffer. -/
theorem Requested.finish (h : Requested start m pages)
    (hdir : ¬ Free start.pmm start.kernelPageDirectory)
    (hinfo : inputs.multibootInfoPtr ≠ 0 → InfoKept start inputs.multibootInfoPtr) :
    ∃ status m', (if (lowTable m).1 ≠ .ok then some ((lowTable m).1, (lowTable m).2.2)
        else (Vmm.mapVbeInfo inputs (fillLow (lowTable m).2.1 (lowTable m).2.2)).bind fun m =>
          some (.ok, m.enablePaging)) = some (status, m') ∧
      (status = .ok ↔ 0 ∈ grantedTables start (pages ++ List.range 256)) ∧
      (status = .ok → ∃ m₁, m' = m₁.enablePaging ∧
        Requested start m₁ (pages ++ List.range 256 ++ vbeInfoPages start inputs)) := by
  obtain ⟨status, f, m₁, hrun, hstatus, hlow⟩ := h.low hdir
  rw [hrun]
  dsimp only
  by_cases hok : status = .ok
  · rw [if_neg (not_not.mpr hok)]
    obtain ⟨m₂, hrun₂, h₂⟩ := (hlow hok).mapVbeInfo hdir hinfo
    rw [hrun₂, Option.bind_some]
    exact ⟨.ok, m₂.enablePaging, rfl, iff_of_true rfl (hstatus.mp hok), fun _ => ⟨m₂, rfl, h₂⟩⟩
  · rw [if_pos hok]
    exact ⟨status, m₁, rfl, hstatus, fun hc => absurd hc hok⟩

/-- The tables that `Completes` asks for are settled when their pages are asked for. -/
theorem completes_iff (m : Machine) (inputs : InitInputs) : Completes m inputs ↔
    (∀ p ∈ bitmapPages m, tableOf p ∈ grantedTables m (kernelPages inputs ++ bitmapPages m)) ∧
      0 ∈ grantedTables m (kernelPages inputs ++ bitmapPages m ++ framebufferPages inputs ++ List.range 256) := by
  unfold Completes requestedPages
  refine and_congr (forall₂_congr fun p hp => ?_) ?_
  · rw [List.append_assoc, List.append_assoc]
    exact mem_granted_append_iff (List.mem_append_right _ hp)
  · have hzero : (0 : Nat) ∈ List.range 256 := List.mem_range.mpr (by decide)
    exact mem_granted_append_iff (List.mem_append_right _ hzero)

/-- `vmm_init` always returns: `KERNEL_OK` exactly if it completes, and then every page has
been asked for. -/
theorem vmmInit_spec (hoff : m.pagingEnabled = false) (hpmm : WellFormed m.pmm)
    (hdir : ¬ Free m.pmm m.kernelPageDirectory)
    (hinfo : inputs.multibootInfoPtr ≠ 0 → InfoKept m inputs.multibootInfoPtr) :
    ∃ status m', vmmInit inputs m = some (status, m') ∧ (status = .ok ↔ Completes m inputs) ∧
      (status = .ok → ∃ m₁, m' = m₁.enablePaging ∧ Requested m m₁ (requestedPages m inputs)) := by
  obtain ⟨m₁, hrun₁, h₁⟩ := (clearedDirectory hoff hpmm).mapIgnoring hdir 0x00100000
    (pagesFor (wsub inputs.kernelEnd 0x00100000)) 0
  obtain ⟨status₂, m₂, hrun₂, hstatus₂, h₂⟩ := h₁.mapOrReturn hdir m.pmm.bitsAddr (pagesFor m.pmm.size) 0
  rw [List.nil_append] at hstatus₂ h₂
  unfold vmmInit
  dsimp only
  rw [hrun₁, Option.bind_eq_bind, Option.bind_some, h₁.bitsAddr, h₁.size, hrun₂, Option.bind_eq_bind,
    Option.bind_some, completes_iff]
  dsimp only
  by_cases hok : status₂ = .ok
  · rw [if_neg (not_not.mpr hok)]
    have hbitmap := hstatus₂.mp hok
    cases havailable : inputs.vbeIsAvailable with
    | true =>
        obtain ⟨m₃, hrun₃, h₃⟩ := (h₂ hok).mapIgnoring hdir inputs.framebufferAddr
          (pagesFor inputs.framebufferSize) 0
        have hpages : framebufferPages inputs =
            pagesFrom inputs.framebufferAddr 0 (pagesFor inputs.framebufferSize) := if_pos havailable
        rw [← hpages] at h₃
        obtain ⟨status, m', hrun, hstatus, hend⟩ := h₃.finish hdir hinfo
        rw [if_pos rfl, hrun₃, Option.bind_some]
        exact ⟨status, m', hrun, hstatus.trans (and_iff_right hbitmap).symm, hend⟩
    | false =>
        have hpages : framebufferPages inputs = [] := if_neg (by rw [havailable]; exact Bool.false_ne_true)
        have h₃ := h₂ hok
        rw [← List.append_nil (_ ++ _), ← hpages] at h₃
        obtain ⟨status, m', hrun, hstatus, hend⟩ := h₃.finish hdir hinfo
        rw [if_neg Bool.false_ne_true, Option.bind_some]
        exact ⟨status, m', hrun, hstatus.trans (and_iff_right hbitmap).symm, hend⟩
  · rw [if_pos hok]
    exact ⟨status₂, m₂, rfl, iff_of_false hok fun hc => hok (hstatus₂.mpr hc.1), fun hc => absurd hc hok⟩

end Run

section Translation
variable {start m : Machine} {pages : List Nat}

theorem enablePaging_word (f i : Nat) : m.enablePaging.word f i =
    if f = m.kernelPageDirectory ∧ i = 1023 then makeEntry (m.kernelPageDirectory * 4096) initFlags % 2 ^ 32
    else m.word f i := word_setWord m m.kernelPageDirectory 1023 _ f i

theorem enablePaging_selfMap (hsmall : m.kernelPageDirectory < 2 ^ 20) :
    m.enablePaging.table 1023 = some m.kernelPageDirectory := by
  have hcr3 : m.enablePaging.cr3 = m.kernelPageDirectory := rfl
  unfold Machine.table
  rw [hcr3, enablePaging_word, if_pos ⟨rfl, rfl⟩, Nat.mod_eq_of_lt (makeEntry_lt (by omega) initFlags)]
  refine decode_eq_some.mpr ⟨present_makeEntry initFlags_odd, ?_⟩
  rw [entryFrame_makeEntry, Nat.mul_div_cancel _ (by decide)]

theorem enablePaging_table {t : Nat} (ht : t ≠ 1023) : m.enablePaging.table t = m.dirTable t := by
  have hcr3 : m.enablePaging.cr3 = m.kernelPageDirectory := rfl
  unfold Machine.table Machine.dirTable
  rw [hcr3, enablePaging_word, if_neg fun hc => ht hc.2]

theorem Requested.identity_iff (h : Requested start m pages)
    (hdir : ¬ Free start.pmm start.kernelPageDirectory) {p : Nat} (hp : p < windowPage) :
    m.enablePaging.tr p = some p ↔ PageServed start pages p := by
  have hdiv := div_page hp
  have hpage : p / 1024 * 1024 + p % 1024 = p := by omega
  have htable : m.enablePaging.table (p / 1024) = m.dirTable (p / 1024) := enablePaging_table (by omega)
  cases hf : m.dirTable (p / 1024) with
  | none =>
      rw [tr_of_no_table (htable.trans hf)]
      refine iff_of_false (by simp) fun hserved => ?_
      exact (h.held_iff (p / 1024) (by omega)).mpr hserved.2 hf
  | some f =>
      have hfdir := Mapping.ne_directory h hdir (by omega) hf
      have hslot : m.enablePaging.slot f (p % 1024) = m.slot f (p % 1024) := by
        unfold Machine.slot
        rw [enablePaging_word, if_neg fun hc => hfdir hc.1]
      rw [tr_of_table (htable.trans hf), hslot]
      by_cases hserved : PageServed start pages p
      · refine iff_of_true ?_ hserved
        have hmapped := h.mapped _ (by omega) f hf (p % 1024) (by omega) (by rwa [hpage])
        rwa [hpage] at hmapped
      · refine iff_of_false ?_ hserved
        rw [h.unmapped _ (by omega) f hf (p % 1024) (by omega) (by rwa [hpage])]
        exact fun hc => by cases hc

/-- In the window the translation shows the page tables, which are not there themselves
if the managed memory ends below it. -/
theorem Requested.window_ne (h : Requested start m pages) (hwf : WellFormed start.pmm)
    (hbelow : start.pmm.totalPages ≤ windowPage) (hkpd : start.kernelPageDirectory < windowPage)
    {p : Nat} (hp : windowPage ≤ p) (hlt : p < 2 ^ 20) : m.enablePaging.tr p ≠ some p := by
  have hkpd' : m.kernelPageDirectory < windowPage := by rwa [h.directory]
  have hsmall : m.kernelPageDirectory < 2 ^ 20 := hkpd'.trans (by decide)
  have hdiv : p / 1024 = 1023 := by
    unfold windowPage at hp
    omega
  have hself : m.enablePaging.table (p / 1024) = some m.kernelPageDirectory := by
    rw [hdiv]
    exact enablePaging_selfMap hsmall
  have hslot : m.enablePaging.slot m.kernelPageDirectory (p % 1024) = m.enablePaging.table (p % 1024) := rfl
  rw [tr_of_table hself, hslot]
  by_cases hlast : p % 1024 = 1023
  · rw [hlast, enablePaging_selfMap hsmall]
    exact fun hc => absurd (Option.some.inj hc) (by omega)
  · rw [enablePaging_table hlast]
    intro hc
    have hfree := (h.fresh _ (by omega) p hc).1
    have hbound := (hwf.free_bounds hfree).2
    omega

end Translation

/-- For every page allocator, kernel, framebuffer and placement of the multiboot and VBE
information: `vmm_init` returns, and if it says `KERNEL_OK` everything needed is mapped,
provided that every needed byte lies in a page that is asked for and whose table is
granted. Where the directory and the managed memory lie below the recursive window the
proviso is necessary. -/
theorem vmm_init_mapped_iff {m : Machine} {inputs : InitInputs} (hoff : m.pagingEnabled = false)
    (hpmm : WellFormed m.pmm) (hdir : bitmapTestBit m.pmm m.kernelPageDirectory = true)
    (hframe : m.kernelPageDirectory < 2 ^ 20)
    (hinfo : inputs.multibootInfoPtr ≠ 0 → InfoKept m inputs.multibootInfoPtr) :
    ∃ status m', vmmInit inputs m = some (status, m') ∧
      ((Completes m inputs → AllServed m inputs) → status = .ok → BootMapped m inputs m') ∧
      (m.pmm.totalPages ≤ windowPage → m.kernelPageDirectory < windowPage →
        ((status = .ok → BootMapped m inputs m') ↔ (Completes m inputs → AllServed m inputs))) := by
  have hfree : ¬ Free m.pmm m.kernelPageDirectory := (testBit_iff.mp hdir).2
  obtain ⟨status, m', hrun, hstatus, hend⟩ := vmmInit_spec hoff hpmm hfree hinfo
  have hmapped : (Completes m inputs → AllServed m inputs) → status = .ok → BootMapped m inputs m' := by
    intro hall hok
    obtain ⟨m₁, rfl, hreq⟩ := hend hok
    refine ⟨rfl, hreq.directory, ?_, fun x hx => ?_⟩
    · exact enablePaging_selfMap (by rwa [hreq.directory])
    · obtain ⟨hlow, hserved⟩ := hall (hstatus.mp hok) x hx
      exact (hreq.identity_iff hfree hlow).mpr hserved
  refine ⟨status, m', hrun, hmapped, fun hbelow hkpd => ⟨fun hboot hcomplete x hx => ?_, hmapped⟩⟩
  have hok := hstatus.mpr hcomplete
  obtain ⟨m₁, rfl, hreq⟩ := hend hok
  have hx' := (hboot hok).identity x hx
  have hlow : x / 4096 < windowPage := by
    by_contra hge
    have hlt := hx.1
    exact hreq.window_ne hpmm hbelow hkpd (Nat.not_lt.mp hge) (by omega) hx'
  exact ⟨hlow, (hreq.identity_iff hfree hlow).mp hx'⟩

/-- The page allocator of a machine with 2 MiB: the kernel ends at 0x180000, and the page
behind it holds the bitmap. -/
def bootAllocator : BitmapAllocator :=
  { bitsAddr := 0x180000
    bits := fun i => if i < 48 then 0xFF#8 else if i = 48 then 0x01#8 else if i < 64 then 0x00#8 else 0xFF#8
    size := 4096, totalPages := 512, freePages := 127, usedPages := 385 }

theorem bootAllocator_free (b : Nat) : Free bootAllocator b ↔ 385 ≤ b ∧ b < 512 := by
  have hbits : bitAt bootAllocator b =
      (if b / 8 < 48 then 0xFF#8 else if b / 8 = 48 then 0x01#8 else if b / 8 < 64 then 0x00#8
        else 0xFF#8).getLsbD (b % 8) := rfl
  have hlt : b % 8 < 8 := Nat.mod_lt _ (by decide)
  have hfull : (0xFF#8).getLsbD (b % 8) = true := by interval_cases b % 8 <;> rfl
  have hsize : bootAllocator.size = 4096 := rfl
  unfold Free
  rw [hbits, hsize]
  split_ifs
  · simp only [hfull, Bool.true_eq_false, and_false, false_iff]
    omega
  · have hfirst : (0x01#8).getLsbD (b % 8) = false ↔ b % 8 ≠ 0 := by interval_cases b % 8 <;> decide
    rw [hfirst]
    omega
  · simp only [BitVec.getLsbD_zero, and_true]
    omega
  · simp only [hfull, Bool.true_eq_false, and_false, false_iff]
    omega

theorem bootAllocator_wellFormed : WellFormed bootAllocator := by
  refine ⟨by decide, by decide, by decide, ?_, ?_, rfl⟩
  · intro b hb hbs
    rw [← Bool.not_eq_false]
    intro hclear
    have hfree := (bootAllocator_free b).mp ⟨hbs, hclear⟩
    exact absurd hfree.2 (Nat.not_lt.mpr hb)
  · have hset : freeSet bootAllocator = Finset.Ico 385 512 := by
      ext b
      rw [mem_freeSet, bootAllocator_free, Finset.mem_Ico]
    rw [hset, Nat.card_Ico]
    rfl

/-- The directory is in the kernel, and the boot loader has put its information at 0x9000. -/
def bootState : Machine :=
  { pmm := bootAllocator
    frames := fun f i =>
      if f = 9 then (if i = 0 then 0x800 else if i = 18 then 0x9100 else if i = 19 then 0x9400 else 0) else 0
    cr3 := 0, kernelPageDirectory := 0x110, pagingEnabled := false }

def bootInputs (framebufferAddr : Nat) : InitInputs :=
  { kernelEnd := 0x180000, vbeIsAvailable := true, framebufferAddr, framebufferSize := 0x1000
    videoModesPtr := 0, oemStringPtr := 0, oemStringPtr_lt := by decide, multibootInfoPtr := 0x9000 }

theorem bootState_infoKept : InfoKept bootState 0x9000 := by
  intro k hk
  have hsize : sizeofInfo = 118 := rfl
  have hframe : wrap (0x9000 + k) / 4096 = 9 := by
    unfold wrap
    omega
  rw [hframe]
  refine ⟨fun hfree => ?_, by decide⟩
  have hbound := (bootAllocator_free 9).mp hfree
  omega

theorem bootInputs_requested {addr : Nat} (haddr : addr < 2 ^ 32) :
    requestedPages bootState (bootInputs addr) =
      List.range' 256 128 ++ [384] ++ [addr / 4096] ++ List.range 256 ++ [9, 9, 9, 0, 0] := by
  have hkernel : kernelPages (bootInputs 0) = List.range' 256 128 := by decide +kernel
  have hbitmap : bitmapPages bootState = [384] := by decide
  have hframebuffer : framebufferPages (bootInputs addr) = [addr / 4096] := by
    have hone : pagesFrom addr 0 (pagesFor 0x1000) = [wrap (addr + 0 * 4096) / 4096] := rfl
    rw [show framebufferPages (bootInputs addr) = pagesFrom addr 0 (pagesFor 0x1000) from rfl, hone,
      Nat.zero_mul, Nat.add_zero, wrap_of_lt haddr]
  have hinfo : vbeInfoPages bootState (bootInputs 0) = [9, 9, 9, 0, 0] := by decide +kernel
  unfold requestedPages
  rw [show kernelPages (bootInputs addr) = kernelPages (bootInputs 0) from rfl, hkernel, hbitmap, hframebuffer,
    show vbeInfoPages bootState (bootInputs addr) = vbeInfoPages bootState (bootInputs 0) from rfl, hinfo]

theorem bootInputs_served {addr page : Nat} (haddr : addr < 2 ^ 32) :
    PageServed bootState (requestedPages bootState (bootInputs addr)) page ↔
      page < 385 ∨ page = addr / 4096 := by
  have hmem : ∀ p, p ∈ requestedPages bootState (bootInputs addr) ↔ p < 385 ∨ p = addr / 4096 := by
    intro p
    rw [bootInputs_requested haddr]
    simp only [List.mem_append, List.mem_range'_1, List.mem_range, List.mem_cons, List.not_mem_nil, or_false]
    omega
  have hkeys : ((requestedPages bootState (bootInputs addr)).map tableOf).toFinset ⊆
      {0, tableOf (addr / 4096)} := by
    intro t ht
    obtain ⟨p, hp, rfl⟩ := List.mem_map.mp (List.mem_toFinset.mp ht)
    rcases (hmem p).mp hp with hlow | rfl
    · rw [show tableOf p = 0 by unfold tableOf; omega]
      exact Finset.mem_insert_self _ _
    · exact Finset.mem_insert_of_mem (Finset.mem_singleton_self _)
  have hgranted : granted tableOf bootState.pmm.freePages (requestedPages bootState (bootInputs addr)) =
      ((requestedPages bootState (bootInputs addr)).map tableOf).toFinset :=
    granted_eq_image ((Finset.card_le_card hkeys).trans (Finset.card_le_two.trans (by decide)))
  unfold PageServed Served
  rw [hgranted, hmem, and_iff_left_iff_imp, ← hmem]
  exact fun hp => List.mem_toFinset.mpr (List.mem_map_of_mem hp)

theorem bootInputs_completes {addr : Nat} (haddr : addr < 2 ^ 32) : Completes bootState (bootInputs addr) := by
  have hbitmap : bitmapPages bootState = [384] := by decide
  refine ⟨fun p hp => ?_, ((bootInputs_served haddr).mpr (Or.inl (by decide : 0 < 385))).2⟩
  rw [hbitmap, List.mem_singleton] at hp
  exact ((bootInputs_served haddr).mpr (Or.inl (by omega))).2

theorem bootInputs_allServed {addr : Nat} (haddr : addr < 0xFFC00000) (haligned : addr % 4096 = 0) :
    AllServed bootState (bootInputs addr) := by
  have hcontrol : bootState.vbeControlInfo 0x9000 = 0x9100 := by decide
  have hmode : bootState.vbeModeInfo 0x9000 = 0x9400 := by decide
  have hwindow : windowPage = 1047552 := rfl
  rintro x ⟨-, hx⟩
  have hpage : x / 4096 < 385 ∨ x / 4096 = addr / 4096 := by
    rcases hx with ⟨-, hx⟩ | ⟨-, hx⟩ | hx | ⟨-, hlo, hhi⟩ | ⟨-, -, hx⟩
    · have hend : (bootInputs addr).kernelEnd = 0x180000 := rfl
      omega
    · have hend : bootState.pmm.bitsAddr + bootState.pmm.size = 0x181000 := rfl
      omega
    · omega
    · have hstart : (bootInputs addr).framebufferAddr = addr := rfl
      have hsize : (bootInputs addr).framebufferSize = 0x1000 := rfl
      omega
    · have hmbi : (bootInputs addr).multibootInfoPtr = 0x9000 := rfl
      rw [hmbi, hcontrol, hmode] at hx
      unfold sizeofInfo sizeofVbeControlInfo sizeofVbeModeInfo at hx
      omega
  exact ⟨by omega, (bootInputs_served (by omega)).mpr hpage⟩

theorem vmm_init_mapped_aligned :
    ∃ m', vmmInit (bootInputs 0xE0000000) bootState = some (.ok, m') ∧
      BootMapped bootState (bootInputs 0xE0000000) m' := by
  obtain ⟨status, m', hrun, hmapped, -⟩ := @vmm_init_mapped_iff bootState (bootInputs 0xE0000000) rfl
    bootAllocator_wellFormed (by decide) (by decide) fun _ => bootState_infoKept
  have hdir : bitmapTestBit bootState.pmm bootState.kernelPageDirectory = true := by decide
  obtain ⟨status', m'', hrun', hstatus, -⟩ := @vmmInit_spec bootState (bootInputs 0xE0000000) rfl
    bootAllocator_wellFormed (testBit_iff.mp hdir).2 fun _ => bootState_infoKept
  rw [hrun] at hrun'
  cases hrun'
  have hok := hstatus.mpr (bootInputs_completes (by decide))
  refine ⟨m', by rw [hrun, hok], hmapped (fun _ => bootInputs_allServed (by decide) (by decide)) hok⟩

/-- A framebuffer of one page that does not start at a page boundary lies in two pages, and
only the first is mapped. -/
theorem vmm_init_leaves_hole :
    ¬ ∀ (m : Machine) (inputs : InitInputs) (m' : Machine), m.pagingEnabled = false → WellFormed m.pmm →
      bitmapTestBit m.pmm m.kernelPageDirectory = true → m.kernelPageDirectory < windowPage →
      InfoKept m inputs.multibootInfoPtr → vmmInit inputs m = some (.ok, m') → BootMapped m inputs m' := by
  intro hclaim
  have hdir : bitmapTestBit bootState.pmm bootState.kernelPageDirectory = true := by decide
  obtain ⟨status, m', hrun, hstatus, hend⟩ := @vmmInit_spec bootState (bootInputs 0xE0000800) rfl
    bootAllocator_wellFormed (testBit_iff.mp hdir).2 fun _ => bootState_infoKept
  have hok := hstatus.mpr (bootInputs_completes (by decide))
  subst hok
  obtain ⟨m₁, rfl, hreq⟩ := hend rfl
  have hboot := hclaim _ _ _ rfl bootAllocator_wellFormed hdir (by decide) bootState_infoKept hrun
  have hneeded : Needed bootState (bootInputs 0xE0000800) 0xE0001000 :=
    ⟨by decide, Or.inr (Or.inr (Or.inr (Or.inl ⟨rfl, by decide, by decide⟩)))⟩
  have hserved := (hreq.identity_iff (testBit_iff.mp hdir).2 (by decide)).mp (hboot.identity _ hneeded)
  rcases (bootInputs_served (by decide)).mp hserved with hlow | heq
  · exact absurd hlow (by decide)
  · exact absurd heq (by decide)

end Frostix.Vmm
