import Frostix.Lib.Quota
import Frostix.Pmm.Init
import Frostix.Vmm.Branches

/-!
`vmm_init`: the kernel directory is cleared, ranges of physical memory are mapped at
their own addresses and paging is switched on. Until then all tables are reached by their
physical addresses, and a mapping that fails for want of a page table is mostly ignored. -/
namespace Frostix.Vmm
open Machine32 Pmm

/-- What `vmm_init` reads besides the directory and the page allocator: the end of the
kernel, the VBE device and the pointer to `multiboot_info_t`. -/
structure InitInputs where
  /-- `&_kernel_end`. -/
  kernelEnd : Nat
  vbeIsAvailable : Bool
  framebufferAddr : Nat
  framebufferSize : Nat
  /-- `control_info.video_modes_ptr` of the device, a segment and an offset. -/
  videoModesPtr : Nat
  oemStringPtr : Nat
  oemStringPtr_lt : oemStringPtr < 2 ^ 32
  /-- `_multiboot_info_ptr`. -/
  multibootInfoPtr : Nat

/-- `sizeof(vbe_control_info_t)`. -/
def sizeofVbeControlInfo : Nat := 512

/-- `sizeof(vbe_mode_info_t)`. -/
def sizeofVbeModeInfo : Nat := 255

/-- `PAGE_FLAG_PRESENT | PAGE_FLAG_RW`. -/
def initFlags : Nat := pageFlagPresent + pageFlagRw

def Machine.byte (m : Machine) (addr : Nat) : Nat :=
  m.word (wrap addr / 4096) (wrap addr % 4096 / 4) / 256 ^ (wrap addr % 4) % 256

def Machine.u32At (m : Machine) (addr : Nat) : Nat :=
  m.byte addr + m.byte (addr + 1) * 2 ^ 8 + m.byte (addr + 2) * 2 ^ 16 + m.byte (addr + 3) * 2 ^ 24

/-- `mbi->flags & (1 << 11)`. -/
def Machine.hasVbeInfo (m : Machine) (mbi : Nat) : Bool := (m.u32At mbi).testBit 11

/-- `mbi->vbe_control_info`. -/
def Machine.vbeControlInfo (m : Machine) (mbi : Nat) : Nat := m.u32At (mbi + 72)

/-- `mbi->vbe_mode_info`. -/
def Machine.vbeModeInfo (m : Machine) (mbi : Nat) : Nat := m.u32At (mbi + 76)

/-- `ALIGN_UP(size, PAGE_SIZE) / PAGE_SIZE`. -/
def pagesFor (size : Nat) : Nat := alignUp size 4096 / 4096

/-- A mapping loop that ignores the status, from page `i` with `left` pages to go. -/
def mapIgnoring (start : Nat) : Nat → Nat → Machine → Option Machine
  | 0, _, m => some m
  | left + 1, i, m => do
      let (_, m) ← vmmMapPage m (wrap (start + i * 4096)) (wrap (start + i * 4096)) initFlags
      mapIgnoring start left (i + 1) m

/-- The loop over the bitmap, which returns the status of a failed mapping. -/
def mapOrReturn (start : Nat) : Nat → Nat → Machine → Option (KernelStatus × Machine)
  | 0, _, m => some (.ok, m)
  | left + 1, i, m => do
      let (status, m) ← vmmMapPage m (wrap (start + i * 4096)) (wrap (start + i * 4096)) initFlags
      if status ≠ .ok then some (status, m) else mapOrReturn start left (i + 1) m

/-- The page table of the first 4 MiB, allocated if it is missing, and its frame. -/
def lowTable (m : Machine) : KernelStatus × Nat × Machine :=
  let pde := m.word m.kernelPageDirectory 0
  if present pde then (.ok, entryFrame pde, m)
  else
    let (lowPtPhys, pmm) := pmmAllocPage m.pmm
    let m := { m with pmm }
    if lowPtPhys = 0 then (.outOfMemory, 0, m)
    else
      let m := m.setWord m.kernelPageDirectory 0 (makeEntry lowPtPhys initFlags)
      (.ok, lowPtPhys / 4096, m.clearFrame (lowPtPhys / 4096))

def fillLow (lowPt : Nat) (m : Machine) : Machine :=
  (List.range 256).foldl (fun m i =>
    if present (m.word lowPt i) then m else m.setWord lowPt i (makeEntry (i * 4096) initFlags)) m

/-- The multiboot and VBE information, and the two pages it points to. -/
def mapVbeInfo (inputs : InitInputs) (m : Machine) : Option Machine := do
  let mbi := inputs.multibootInfoPtr
  if mbi ≠ 0 ∧ m.hasVbeInfo mbi then
    let m ← mapIgnoring mbi (pagesFor sizeofInfo) 0 m
    let m ← mapIgnoring (m.vbeControlInfo mbi) (pagesFor sizeofVbeControlInfo) 0 m
    let m ← mapIgnoring (m.vbeModeInfo mbi) (pagesFor sizeofVbeModeInfo) 0 m
    let seg := inputs.videoModesPtr / 2 ^ 16
    let off := inputs.videoModesPtr % 2 ^ 16
    let videoModesAddr := alignDown (wrap (seg * 16 + off)) 4096
    let (_, m) ← vmmMapPage m videoModesAddr videoModesAddr initFlags
    let oemStringAddr := alignDown inputs.oemStringPtr 4096
    let (_, m) ← vmmMapPage m oemStringAddr oemStringAddr initFlags
    some m
  else some m

/-- `vmm_switch_directory(&kernel_page_directory)` and `vmm_enable_paging()` after the last
entry of the directory has been set to the directory itself. -/
def Machine.enablePaging (m : Machine) : Machine :=
  { m.setWord m.kernelPageDirectory 1023 (makeEntry (m.kernelPageDirectory * 4096) initFlags) with
    cr3 := m.kernelPageDirectory, pagingEnabled := true }

def vmmInit (inputs : InitInputs) (m : Machine) : Option (KernelStatus × Machine) := do
  let m := m.clearFrame m.kernelPageDirectory
  let kernelStart := 0x00100000
  let kernelSize := wsub inputs.kernelEnd kernelStart
  let m ← mapIgnoring kernelStart (pagesFor kernelSize) 0 m
  let (status, m) ← mapOrReturn m.pmm.bitsAddr (pagesFor m.pmm.size) 0 m
  if status ≠ .ok then some (status, m)
  else do
    let m ← if inputs.vbeIsAvailable then
        mapIgnoring inputs.framebufferAddr (pagesFor inputs.framebufferSize) 0 m
      else some m
    let (status, lowPt, m) := lowTable m
    if status ≠ .ok then some (status, m)
    else do
      let m ← mapVbeInfo inputs (fillLow lowPt m)
      some (.ok, m.enablePaging)

def tableOf (page : Nat) : Nat := page / 1024

/-- The pages of a mapping loop from page `i` on. -/
def pagesFrom (start i n : Nat) : List Nat :=
  (List.range' i n).map fun k => wrap (start + k * 4096) / 4096

/-- `[1 MiB, _kernel_end)`. -/
def kernelPages (inputs : InitInputs) : List Nat :=
  pagesFrom 0x00100000 0 (pagesFor (wsub inputs.kernelEnd 0x00100000))

def bitmapPages (m : Machine) : List Nat := pagesFrom m.pmm.bitsAddr 0 (pagesFor m.pmm.size)

def framebufferPages (inputs : InitInputs) : List Nat :=
  if inputs.vbeIsAvailable then pagesFrom inputs.framebufferAddr 0 (pagesFor inputs.framebufferSize)
  else []

/-- What `mapVbeInfo` asks for. -/
def vbeInfoPages (m : Machine) (inputs : InitInputs) : List Nat :=
  if inputs.multibootInfoPtr ≠ 0 ∧ m.hasVbeInfo inputs.multibootInfoPtr then
    pagesFrom inputs.multibootInfoPtr 0 (pagesFor sizeofInfo) ++
      pagesFrom (m.vbeControlInfo inputs.multibootInfoPtr) 0 (pagesFor sizeofVbeControlInfo) ++
      pagesFrom (m.vbeModeInfo inputs.multibootInfoPtr) 0 (pagesFor sizeofVbeModeInfo) ++
      [wrap (inputs.videoModesPtr / 2 ^ 16 * 16 + inputs.videoModesPtr % 2 ^ 16) / 4096] ++
      [inputs.oemStringPtr / 4096]
  else []

/-- The pages that `vmm_init` maps if it gets the page tables, in its order. The ranges are
cut into pages at their own start addresses, not at page boundaries. -/
def requestedPages (m : Machine) (inputs : InitInputs) : List Nat :=
  kernelPages inputs ++ bitmapPages m ++ framebufferPages inputs ++ List.range 256 ++
    vbeInfoPages m inputs

end Frostix.Vmm
