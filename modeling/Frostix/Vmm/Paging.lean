import Frostix.Pmm.Bitmap

/-!
Two-level 32-bit paging and the mapping functions. Physical memory is a function
of frame number and 32-bit word index. With paging enabled every access of the
kernel goes through the walk, also the accesses to the page tables themselves
through the recursive slot; an access that finds a non-present entry is a page
fault and ends the computation with `none`. The TLB is taken to be coherent. -/
namespace Frostix.Vmm
open Machine32 Pmm

structure Machine where
  pmm : BitmapAllocator
  frames : Nat → Nat → BitVec 32
  /-- Frame of the page directory that the processor uses. -/
  cr3 : Nat
  /-- Frame of the static array `kernel_page_directory`. -/
  kernelPageDirectory : Nat
  pagingEnabled : Bool

/-- `PAGE_RECURSIVE_PD`. -/
def pageRecursivePd : Nat := 0xFFFFF000

/-- `PAGE_RECURSIVE_PT_BASE`. -/
def pageRecursivePtBase : Nat := 0xFFC00000

/-- `entry & PAGE_FLAG_PRESENT`. -/
def present (e : Nat) : Bool := e % 2 == 1

/-- The frame number in an entry, `(entry & ~0xFFF) >> 12`. -/
def entryFrame (e : Nat) : Nat := e / 4096

/-- `(phys & ~0xFFF) | (flags & PTE_FLAGS_MASK)`; the two parts share no bit. -/
def makeEntry (phys flags : Nat) : Nat := phys / 4096 * 4096 + flags % 8

def Machine.word (m : Machine) (frame i : Nat) : Nat := (m.frames frame i).toNat

def Machine.setWord (m : Machine) (frame i v : Nat) : Machine :=
  { m with frames := fun f j => if f = frame ∧ j = i then BitVec.ofNat 32 v else m.frames f j }

/-- The two-level walk: frame and word index of a virtual address. -/
def Machine.walk (m : Machine) (va : Nat) : Option (Nat × Nat) :=
  let pde := m.word m.cr3 (va / 2 ^ 22)
  if present pde then
    let pte := m.word (entryFrame pde) (va / 4096 % 1024)
    if present pte then some (entryFrame pte, va % 4096 / 4) else none
  else none

def Machine.load (m : Machine) (va : Nat) : Option Nat :=
  (m.walk va).map fun (frame, i) => m.word frame i

def Machine.store (m : Machine) (va v : Nat) : Option Machine :=
  (m.walk va).map fun (frame, i) => m.setWord frame i v

/-- `memset(page, 0, PAGE_SIZE)` through the walk. -/
def Machine.clearPage (m : Machine) (va : Nat) : Option Machine :=
  (List.range 1024).foldlM (fun m i => m.store (va + 4 * i) 0) m

def Machine.clearFrame (m : Machine) (frame : Nat) : Machine :=
  (List.range 1024).foldl (fun m i => m.setWord frame i 0) m

def pdIndex (virt : Nat) : Nat := virt / 2 ^ 22

def ptIndex (virt : Nat) : Nat := virt / 4096 % 1024

/-- The address of `pd[pd_index]` in the recursive window. -/
def pdSlot (virt : Nat) : Nat := pageRecursivePd + 4 * pdIndex virt

/-- The page of the recursive window that shows the page table of `virt`. -/
def ptWindow (virt : Nat) : Nat := pageRecursivePtBase + pdIndex virt * 4096

/-- The address of `pt[pt_index]` in the recursive window. -/
def ptSlot (virt : Nat) : Nat := ptWindow virt + 4 * ptIndex virt

/-- The first part of `vmm_map_page` with paging enabled: a missing page table is
allocated, entered in the directory and cleared through the window. -/
def ensureTable (m : Machine) (virt : Nat) : Option (KernelStatus × Machine) := do
  let pde ← m.load (pdSlot virt)
  if present pde then some (.ok, m)
  else
    let (ptPhys, pmm) := pmmAllocPage m.pmm
    let m := { m with pmm }
    if ptPhys = 0 then some (.outOfMemory, m)
    else do
      let m ← m.store (pdSlot virt) (makeEntry ptPhys (pageFlagPresent + pageFlagRw))
      let m ← m.clearPage (ptWindow virt)
      some (.ok, m)

/-- The first part of `vmm_map_page` before paging is enabled. -/
def ensureTableDirect (m : Machine) (virt : Nat) : KernelStatus × Machine :=
  let pde := m.word m.kernelPageDirectory (pdIndex virt)
  if present pde then (.ok, m)
  else
    let (ptPhys, pmm) := pmmAllocPage m.pmm
    let m := { m with pmm }
    if ptPhys = 0 then (.outOfMemory, m)
    else
      let m := m.setWord m.kernelPageDirectory (pdIndex virt)
        (makeEntry ptPhys (pageFlagPresent + pageFlagRw))
      (.ok, m.clearFrame (ptPhys / 4096))

/-- `vmm_map_page`: with paging enabled a page that is present with another frame is
refused, before that it is overwritten. -/
def vmmMapPage (m : Machine) (virt phys flags : Nat) : Option (KernelStatus × Machine) :=
  if m.pagingEnabled then do
    let (st, m) ← ensureTable m virt
    if st ≠ .ok then some (st, m)
    else do
      let pte ← m.load (ptSlot virt)
      if present pte ∧ entryFrame pte ≠ phys / 4096 then some (.alreadyMapped, m)
      else do
        let m ← m.store (ptSlot virt) (makeEntry phys flags)
        some (.ok, m)
  else
    let (st, m) := ensureTableDirect m virt
    if st ≠ .ok then some (st, m)
    else
      let table := entryFrame (m.word m.kernelPageDirectory (pdIndex virt))
      some (.ok, m.setWord table (ptIndex virt) (makeEntry phys flags))

def vmmUnmapPage (m : Machine) (virt : Nat) : Option (KernelStatus × Machine) :=
  if m.pagingEnabled then do
    let pde ← m.load (pdSlot virt)
    if present pde then do
      let pte ← m.load (ptSlot virt)
      if present pte then do
        let m ← m.store (ptSlot virt) 0
        some (.ok, m)
      else some (.invalidParam, m)
    else some (.invalidParam, m)
  else
    let pde := m.word m.kernelPageDirectory (pdIndex virt)
    if present pde then
      if present (m.word (entryFrame pde) (ptIndex virt)) then
        some (.ok, m.setWord (entryFrame pde) (ptIndex virt) 0)
      else some (.invalidParam, m)
    else some (.invalidParam, m)

def vmmGetPhysicalAddr (m : Machine) (virt : Nat) : Option Nat :=
  if m.pagingEnabled then do
    let pde ← m.load (pdSlot virt)
    if present pde then do
      let pte ← m.load (ptSlot virt)
      if present pte then some (entryFrame pte * 4096 + virt % 4096) else some 0
    else some 0
  else
    let pde := m.word m.kernelPageDirectory (pdIndex virt)
    if present pde then
      let pte := m.word (entryFrame pde) (ptIndex virt)
      if present pte then some (entryFrame pte * 4096 + virt % 4096) else some 0
    else some 0

/-- The rollback of `vmm_map_pages`: the first `n` pages are unmapped, whatever
`vmm_unmap_page` says. -/
def unmapFirst (virt : Nat) : Nat → Machine → Option Machine
  | 0, m => some m
  | n + 1, m => do
      let m ← unmapFirst virt n m
      let (_, m) ← vmmUnmapPage m (wrap (virt + n * 4096))
      some m

/-- The loop of `vmm_map_pages` from page `i` with `left` pages to go. -/
def mapPagesFrom (virt phys flags : Nat) : Nat → Nat → Machine → Option (KernelStatus × Machine)
  | 0, _, m => some (.ok, m)
  | left + 1, i, m => do
      let (st, m) ← vmmMapPage m (wrap (virt + i * 4096)) (wrap (phys + i * 4096)) flags
      if st ≠ .ok then
        let m ← unmapFirst virt i m
        some (st, m)
      else mapPagesFrom virt phys flags left (i + 1) m

def vmmMapPages (m : Machine) (virt phys count flags : Nat) : Option (KernelStatus × Machine) :=
  mapPagesFrom virt phys flags count 0 m

end Frostix.Vmm
