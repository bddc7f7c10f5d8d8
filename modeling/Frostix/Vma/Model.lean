import Frostix.Services

/-!
Virtual memory areas. The structs live in a store indexed by their addresses; an
address without a struct is not allocated, so that following a pointer to a struct
that was given to `vm_area_free` ends the computation. The functions of the heap,
the page allocator and the paging code are a parameter. -/
namespace Frostix.Vma
open Machine32

/-- `vm_area_struct`. -/
structure VmArea where
  vmStart : Nat
  vmEnd : Nat
  vmPgoff : Nat
  vmFlags : Nat
  vmNext : Nat
  deriving DecidableEq

/-- `VM_ANON`. -/
def vmAnon : Nat := 16

/-- `VM_MAP_IMMEDIATE` is bit 16. -/
def immediate (flags : Nat) : Bool := flags.testBit 16

/-- `VM_ANON | (flags & (VM_READ | VM_WRITE | VM_EXEC | VM_SHARED))`. -/
def areaFlags (flags : Nat) : Nat := vmAnon + flags % 16

/-- `sizeof(vm_area_struct)`. -/
def sizeofArea : Nat := 20

/-- The `mm_struct` at address `self` with the area structs that are allocated, and what
the functions below it work on. -/
structure Mm (σ : Type) where
  self : Nat
  areas : Nat → Option VmArea
  mmap : Nat
  mapCount : Nat
  env : σ

def listFuel : Nat := 2 ^ 32

def searchStart : Nat := 0x20000000

def searchEnd : Nat := 0xF0000000

variable {σ : Type}

/-- The walk of `unmapped_area`, with the candidate address. -/
def unmappedFrom (areas : Nat → Option VmArea) (need : Nat) : Nat → Nat → Nat → Option Nat
  | 0, _, _ => none
  | fuel + 1, v, addr =>
      if v = 0 then some (if wrap (addr + need) < searchEnd then addr else 0)
      else do
        let a ← areas v
        if addr < a.vmStart ∧ addr ≤ a.vmStart ∧ need ≤ wsub a.vmStart addr then some addr
        else
          let addr := if addr < a.vmEnd then alignUp a.vmEnd 4096 else addr
          if searchEnd ≤ wrap (addr + need) then some 0
          else unmappedFrom areas need fuel a.vmNext addr

def unmappedArea (mm : Mm σ) (len : Nat) : Option Nat :=
  if len = 0 then some 0
  else if mm.mmap = 0 then
    some (if wrap (searchStart + alignUp len 4096) < searchEnd then searchStart else 0)
  else unmappedFrom mm.areas (alignUp len 4096) listFuel mm.mmap searchStart

/-- `find_vma` from a given struct on. -/
def findFrom (areas : Nat → Option VmArea) (addr : Nat) : Nat → Nat → Option Nat
  | 0, _ => none
  | fuel + 1, v =>
      if v = 0 then some 0
      else do
        let a ← areas v
        if addr < a.vmEnd then some v else findFrom areas addr fuel a.vmNext

def findVma (mm : Mm σ) (addr : Nat) : Option Nat := findFrom mm.areas addr listFuel mm.mmap

/-- The walk of `insert_vm_struct`: `prev` and `cur` where the walk stops. -/
def insertFrom (areas : Nat → Option VmArea) (start : Nat) : Nat → Nat → Nat → Option (Nat × Nat)
  | 0, _, _ => none
  | fuel + 1, prev, cur =>
      if cur = 0 then some (prev, 0)
      else do
        let a ← areas cur
        if a.vmStart < start then insertFrom areas start fuel cur a.vmNext else some (prev, cur)

/-- `cur && cur->vm_start < stop`. -/
def startsBelow (areas : Nat → Option VmArea) (cur stop : Nat) : Option Bool :=
  if cur = 0 then some false else (areas cur).map fun c => decide (c.vmStart < stop)

/-- `insert_vm_struct`; `false` is the result -1. Before a head that stays, the area is
linked and then compared with itself. -/
def insertVmStruct (mm : Mm σ) (vma : Nat) : Option (Bool × Mm σ) := do
  let a ← mm.areas vma
  if a.vmEnd ≤ a.vmStart then some (false, mm)
  else if mm.mmap = 0 then
    some (true, { mm with
      areas := Function.update mm.areas vma (some { a with vmNext := 0 })
      mmap := vma
      mapCount := wrap (mm.mapCount + 1) })
  else
    let (prev, cur) ← insertFrom mm.areas a.vmStart listFuel 0 mm.mmap
    if prev = 0 then
      -- the walk stopped at the head, which exists
      let c ← mm.areas cur
      if c.vmStart < a.vmEnd then some (false, mm)
      else
        let mm := { mm with
          areas := Function.update mm.areas vma (some { a with vmNext := mm.mmap })
          mmap := vma }
        let head ← mm.areas mm.mmap
        if head.vmStart < a.vmEnd then some (false, mm)
        else some (true, { mm with mapCount := wrap (mm.mapCount + 1) })
    else
      let p ← mm.areas prev
      if a.vmStart < p.vmEnd then some (false, mm)
      else
        let overlaps ← startsBelow mm.areas cur a.vmEnd
        if overlaps then some (false, mm)
        else
          let areas := Function.update mm.areas vma (some { a with vmNext := p.vmNext })
          some (true, { mm with
            areas := Function.update areas prev (some { p with vmNext := vma })
            mapCount := wrap (mm.mapCount + 1) })

/-- The walk of `remove_vm_struct`; `prev` is 0 at the head. -/
def removeFrom (mm : Mm σ) (vma : Nat) : Nat → Nat → Nat → Option (Mm σ)
  | 0, _, _ => none
  | fuel + 1, prev, cur =>
      if cur = 0 then some mm
      else do
        let c ← mm.areas cur
        if cur = vma then
          if prev = 0 then
            some { mm with
              mmap := c.vmNext
              mapCount := wsub mm.mapCount 1
              areas := Function.update mm.areas cur (some { c with vmNext := 0 }) }
          else do
            let p ← mm.areas prev
            some { mm with
              mapCount := wsub mm.mapCount 1
              areas := Function.update (Function.update mm.areas prev
                (some { p with vmNext := c.vmNext })) cur (some { c with vmNext := 0 }) }
        else removeFrom mm vma fuel cur c.vmNext

def removeVmStruct (mm : Mm σ) (vma : Nat) : Option (Mm σ) :=
  removeFrom mm vma listFuel 0 mm.mmap

section Operations

variable (ops : MmOps σ)

/-- `vm_area_alloc`: the struct is cleared. -/
def vmAreaAlloc (mm : Mm σ) : Option (Nat × Mm σ) := do
  let (v, env) ← ops.kmalloc mm.env sizeofArea
  if v = 0 then some (0, { mm with env })
  else some (v, { mm with env, areas := Function.update mm.areas v (some ⟨0, 0, 0, 0, 0⟩) })

def vmAreaFree (mm : Mm σ) (v : Nat) : Mm σ :=
  if v = 0 then mm
  else { mm with env := ops.kfree mm.env v, areas := Function.update mm.areas v none }

/-- `split_vma_at`: the address of the upper part, or 0. -/
def splitVmaAt (mm : Mm σ) (vma addr : Nat) : Option (Nat × Mm σ) := do
  let a ← mm.areas vma
  if addr ≤ a.vmStart ∨ a.vmEnd ≤ addr then some (0, mm)
  else
    let (upper, mm) ← vmAreaAlloc ops mm
    if upper = 0 then some (0, mm)
    else
      let areas := Function.update mm.areas upper (some
        ⟨addr, a.vmEnd, wrap (a.vmPgoff + (addr - a.vmStart) / 4096), a.vmFlags, a.vmNext⟩)
      some (upper, { mm with
        areas := Function.update areas vma (some { a with vmEnd := addr, vmNext := upper })
        mapCount := wrap (mm.mapCount + 1) })

/-- `for (i = 0; i < pages; ++i) vmm_unmap_page(virt + i * PAGE_SIZE)`. -/
def unmapPages (virt : Nat) : Nat → σ → Option σ
  | 0, env => some env
  | n + 1, env => do
      let env ← unmapPages virt n env
      let (_, env) ← ops.vmmUnmapPage env (wrap (virt + n * 4096))
      some env

/-- The loop of `VM_MAP_IMMEDIATE` from page `i` with `left` pages to go. A failure
unmaps the pages before it. -/
def mapImmediate (start : Nat) : Nat → Nat → σ → Option (KernelStatus × σ)
  | 0, _, env => some (.ok, env)
  | left + 1, i, env => do
      let (phys, env) := ops.pmmAllocPage env
      if phys = 0 then
        let env ← unmapPages ops start i env
        some (.outOfMemory, env)
      else
        let (st, env) ← ops.vmmMapPage env (wrap (start + i * 4096)) phys (pageFlagPresent + pageFlagRw)
        if st ≠ .ok then
          let env ← unmapPages ops start i (ops.pmmFreePage env phys)
          some (st, env)
        else mapImmediate start left (i + 1) env

/-- Where `mmap_anonymous` wants to put the area, or the status it refuses with. -/
def placeArea (mm : Mm σ) (addr len : Nat) : Option (Except KernelStatus (Nat × Nat)) := do
  if len = 0 then some (.error .invalidParam)
  else
    let start := alignDown addr 4096
    let stop := alignUp (wrap (addr + len)) 4096
    if stop ≤ start ∧ addr ≠ 0 then some (.error .invalidParam)
    else if addr = 0 then
      let candidate ← unmappedArea mm len
      if candidate = 0 then some (.error .outOfMemory)
      else
        let stop := wrap (candidate + alignUp len 4096)
        if stop ≤ candidate then some (.error .invalidParam) else some (.ok (candidate, stop))
    else if start = 0 then some (.error .invalidParam)
    else some (.ok (start, stop))

/-- `mmap_anonymous`: the status and, on success, the start of the mapping. -/
def mmapAnonymous (mm : Mm σ) (addr len flags : Nat) : Option ((KernelStatus × Nat) × Mm σ) := do
  match ← placeArea mm addr len with
  | .error status => some ((status, 0), mm)
  | .ok (start, stop) =>
      let (vma, mm) ← vmAreaAlloc ops mm
      if vma = 0 then some ((.outOfMemory, 0), mm)
      else
        let mm := { mm with areas := Function.update mm.areas vma (some
          ⟨start, stop, start / 4096, areaFlags flags, 0⟩) }
        let (inserted, mm) ← insertVmStruct mm vma
        if !inserted then some ((.alreadyMapped, 0), vmAreaFree ops mm vma)
        else if immediate flags then
          let (status, env) ← mapImmediate ops start ((stop - start) / 4096) 0 mm.env
          let mm := { mm with env }
          if status ≠ .ok then
            let mm ← removeVmStruct mm vma
            some ((status, 0), vmAreaFree ops mm vma)
          else some ((.ok, start), mm)
        else some ((.ok, start), mm)

/-- `vma_pages`. -/
def VmArea.pages (a : VmArea) : Nat := wsub a.vmEnd a.vmStart / 4096

/-- `if (prev) prev->vm_next = next; else mm->mmap = next; mm->map_count--`. -/
def unlinkAfter (mm : Mm σ) (prev next : Nat) : Option (Mm σ) :=
  if prev = 0 then some { mm with mmap := next, mapCount := wsub mm.mapCount 1 }
  else do
    let p ← mm.areas prev
    some { mm with
      areas := Function.update mm.areas prev (some { p with vmNext := next })
      mapCount := wsub mm.mapCount 1 }

/-- The loop of `munmap_range`. -/
def munmapFrom (stop : Nat) : Nat → Nat → Nat → Mm σ → Option (KernelStatus × Mm σ)
  | 0, _, _, _ => none
  | fuel + 1, prev, v, mm =>
      if v = 0 then some (.ok, mm)
      else do
        let a ← mm.areas v
        if stop ≤ a.vmStart then some (.ok, mm)
        else if stop < a.vmEnd then
          let (upper, mm) ← splitVmaAt ops mm v stop
          if upper = 0 then some (.outOfMemory, mm)
          else
            let lower ← mm.areas v
            let env ← unmapPages ops lower.vmStart lower.pages mm.env
            let mm ← unlinkAfter { mm with env } prev upper
            some (.ok, vmAreaFree ops mm v)
        else
          let env ← unmapPages ops a.vmStart a.pages mm.env
          let mm ← unlinkAfter { mm with env } prev a.vmNext
          munmapFrom stop fuel prev a.vmNext (vmAreaFree ops mm v)

/-- `munmap_range`; `prev` is known only when the first area is split. -/
def munmapRange (mm : Mm σ) (addr len : Nat) : Option (KernelStatus × Mm σ) := do
  if len = 0 then some (.invalidParam, mm)
  else
    let start := alignDown addr 4096
    let stop := alignUp (wrap (addr + len)) 4096
    let v ← findVma mm start
    if v = 0 then some (.ok, mm)
    else
      let a ← mm.areas v
      if a.vmStart < start ∧ start < a.vmEnd then
        let (upper, mm) ← splitVmaAt ops mm v start
        if upper = 0 then some (.outOfMemory, mm) else munmapFrom ops stop listFuel v upper mm
      else munmapFrom ops stop listFuel 0 v mm

/-- The loop of `mm_destroy`. -/
def destroyFrom : Nat → Nat → Mm σ → Option (Mm σ)
  | 0, _, _ => none
  | fuel + 1, v, mm =>
      if v = 0 then some mm
      else do
        let a ← mm.areas v
        let env ← unmapPages ops a.vmStart a.pages mm.env
        destroyFrom fuel a.vmNext (vmAreaFree ops { mm with env } v)

/-- `mm_create`; `self` is 0 when there is no memory. -/
def mmCreate (env : σ) : Option (Mm σ) := do
  let (self, env) ← ops.kmalloc env 8
  some ⟨self, fun _ => none, 0, 0, env⟩

def mmDestroy (mm : Mm σ) : Option σ := do
  let mm ← destroyFrom ops listFuel mm.mmap mm
  some (ops.kfree mm.env mm.self)

end Operations

end Frostix.Vma
