import Frostix.Vmm.Translation

/-!
The functions of the paging code that work on ranges of pages: `vmm_is_range_mapped`,
`vmm_map_if_not_mapped` and `vmm_unmap_pages`. They are loops over the functions for one
page, and the last one also takes empty page tables out of the directory. -/
namespace Frostix.Vmm
open Machine32 Pmm

/-- The loop of `vmm_is_range_mapped`. -/
def rangeMappedFrom (m : Machine) (stop : Nat) : Nat → Nat → Option Bool
  | 0, _ => none
  | fuel + 1, addr =>
      if addr < stop then do
        let phys ← vmmGetPhysicalAddr m addr
        if phys = 0 then some false else rangeMappedFrom m stop fuel (wrap (addr + 4096))
      else some true

def rangeFuel : Nat := 2 ^ 20 + 1

def vmmIsRangeMapped (m : Machine) (virtStart size : Nat) : Option Bool :=
  if size = 0 then some false
  else
    let start := alignDown virtStart 4096
    let stop := alignUp (wrap (virtStart + size)) 4096
    rangeMappedFrom m stop rangeFuel start

/-- The loop of `vmm_map_if_not_mapped` from page `i` with `left` pages to go. The address
0 is what the lookup gives for a page that is not mapped. -/
def mapMissingFrom (start : Nat) : Nat → Nat → Machine → Option (KernelStatus × Machine)
  | 0, _, m => some (.ok, m)
  | left + 1, i, m => do
      let va := wrap (start + i * 4096)
      let currentPhys ← vmmGetPhysicalAddr m va
      if currentPhys = 0 then
        let (status, m) ← vmmMapPage m va va (pageFlagPresent + pageFlagRw + pageFlagGlobal)
        if status ≠ .ok then some (status, m) else mapMissingFrom start left (i + 1) m
      else if currentPhys ≠ va then some (.invalidParam, m)
      else mapMissingFrom start left (i + 1) m

def vmmMapIfNotMapped (m : Machine) (physStart size : Nat) : Option (KernelStatus × Machine) :=
  let start := alignDown physStart 4096
  let stop := alignUp (wrap (physStart + size)) 4096
  mapMissingFrom start (wsub stop start / 4096) 0 m

/-- The first loop of `vmm_unmap_pages`. -/
def unmapPagesFrom (virt : Nat) : Nat → Nat → Machine → Option (KernelStatus × Machine)
  | 0, _, m => some (.ok, m)
  | left + 1, i, m => do
      let (status, m) ← vmmUnmapPage m (wrap (virt + i * 4096))
      if status ≠ .ok then some (status, m) else unmapPagesFrom virt left (i + 1) m

/-- Whether a page table has no present entry, read through the window from entry `j` on.
The loop stops at the first present entry. -/
def tableEmptyFrom (m : Machine) (pt : Nat) : Nat → Nat → Option Bool
  | 0, _ => some true
  | left + 1, j => do
      let pte ← m.load (pt + 4 * j)
      if present pte then some false else tableEmptyFrom m pt left (j + 1)

/-- One iteration of the second loop of `vmm_unmap_pages`: an empty page table is taken out
of the directory and its frame is given back. -/
def reclaimTable (m : Machine) (virt : Nat) : Option Machine := do
  let empty ← tableEmptyFrom m (ptWindow virt) 1024 0
  if empty then
    let pde ← m.load (pdSlot virt)
    if present pde then
      let m ← m.store (pdSlot virt) 0
      some { m with pmm := pmmFreePage m.pmm (entryFrame pde * 4096) }
    else some m
  else some m

def reclaimFrom (virt : Nat) : Nat → Nat → Machine → Option Machine
  | 0, _, m => some m
  | left + 1, i, m => do
      let m ← reclaimTable m (wrap (virt + i * 4096))
      reclaimFrom virt left (i + 1) m

def vmmUnmapPages (m : Machine) (virt count : Nat) : Option (KernelStatus × Machine) := do
  let (status, m) ← unmapPagesFrom virt count 0 m
  if status ≠ .ok then some (status, m)
  else if m.pagingEnabled then do
    let m ← reclaimFrom virt count 0 m
    some (.ok, m)
  else some (.ok, m)

end Frostix.Vmm
