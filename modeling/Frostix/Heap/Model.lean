import Frostix.Kernel
import Frostix.Lib.ByteMemory

/-!
The kernel heap. Block headers live in the same byte memory as the payloads, so
the memory is the state and the block list is read from it. The page functions
behind `heap_expand` are a parameter: a page fault inside them is `none`, and so
is a walk that does not end. -/
namespace Frostix.Heap
open Machine32 ByteMemory

/-- `sizeof(struct heap_block)`. -/
def sizeofBlock : Nat := 20

/-- `HEAP_MAGIC`. -/
def heapMagic : Nat := 0xDEADBEEF

/-- `HEAP_START`. -/
def heapStart : Nat := 0xD0000000

/-- `INITIAL_HEAP_SIZE`. -/
def initialHeapSize : Nat := 4 * 1024 * 1024

def blockNext (m : Mem) (a : Nat) : Nat := load32 m a

def blockPrev (m : Mem) (a : Nat) : Nat := load32 m (a + 4)

def blockSize (m : Mem) (a : Nat) : Nat := load32 m (a + 8)

/-- The byte of a `bool`, any value but 0 counts as true. -/
def blockFree (m : Mem) (a : Nat) : Bool := m (a + 12) != 0#8

def blockMagic (m : Mem) (a : Nat) : Nat := load32 m (a + 16)

def setNext (m : Mem) (a v : Nat) : Mem := store32 m a v

def setPrev (m : Mem) (a v : Nat) : Mem := store32 m (a + 4) v

def setSize (m : Mem) (a v : Nat) : Mem := store32 m (a + 8) v

def setFree (m : Mem) (a : Nat) (b : Bool) : Mem := store8 m (a + 12) (if b then 1#8 else 0#8)

def setMagic (m : Mem) (a v : Nat) : Mem := store32 m (a + 16) v

/-- `heap_head`, `heap_current_end`, the memory and whatever the page functions
work on. -/
structure KernelHeap (σ : Type) where
  mem : Mem
  head : Nat
  currentEnd : Nat
  env : σ

/-- The functions of the page allocator and the paging code that the heap calls. -/
structure PageOps (σ : Type) where
  pmmAllocPages : σ → Nat → Nat × σ
  /-- Arguments: virtual address, physical address, count, flags. -/
  vmmMapPages : σ → Nat → Nat → Nat → Nat → Option (KernelStatus × σ)
  pmmFreePages : σ → Nat → Nat → σ

def walkFuel : Nat := 2 ^ 32

section Operations

variable {σ : Type} (ops : PageOps σ)

/-- `while (last->next) last = last->next`. -/
def lastBlock (m : Mem) : Nat → Nat → Option Nat
  | 0, _ => none
  | fuel + 1, last =>
      if blockNext m last ≠ 0 then lastBlock m fuel (blockNext m last) else some last

/-- One attempt of `heap_expand` to back `numPages` pages at the end of the heap;
`false` is the `continue` of the retry loop. -/
def expandOnce (s : σ) (currentEnd numPages : Nat) : Option (Bool × σ) :=
  let (phys, s) := ops.pmmAllocPages s numPages
  if phys = 0 then some (false, s)
  else do
    let (status, s) ← ops.vmmMapPages s currentEnd phys numPages (pageFlagPresent + pageFlagRw)
    if status ≠ .ok then some (false, ops.pmmFreePages s phys numPages)
    else some (true, s)

/-- The header that `heap_expand` writes into the cleared pages. -/
def newBlock (m : Mem) (a size : Nat) : Mem :=
  let m := memset m a 0#8 size
  let m := setSize m a (wsub size sizeofBlock)
  let m := setFree m a true
  let m := setNext m a 0
  let m := setPrev m a 0
  setMagic m a heapMagic

def appendBlock (h : KernelHeap σ) (size : Nat) : Option (KernelHeap σ) := do
  let a := h.currentEnd
  let m := newBlock h.mem a size
  if h.head = 0 then
    some { h with mem := m, head := a, currentEnd := wrap (a + size) }
  else
    let last ← lastBlock m walkFuel h.head
    some { h with mem := setPrev (setNext m last a) a last, currentEnd := wrap (a + size) }

/-- The retry loop of `heap_expand`. -/
def expandRetry (size : Nat) : Nat → KernelHeap σ → Option (KernelStatus × KernelHeap σ)
  | 0, h => some (.outOfMemory, h)
  | retries + 1, h => do
      let (done, env) ← expandOnce ops h.env h.currentEnd (size / 4096)
      let h := { h with env }
      if done then
        let h ← appendBlock h size
        some (.ok, h)
      else expandRetry size retries h

def heapExpand (h : KernelHeap σ) (additionalSize : Nat) : Option (KernelStatus × KernelHeap σ) :=
  expandRetry ops (alignUp (wrap (additionalSize + sizeofBlock)) 4096) 3 h

def heapInit (mem : Mem) (env : σ) : Option (KernelStatus × KernelHeap σ) :=
  heapExpand ops ⟨mem, 0, heapStart, env⟩ initialHeapSize

def mergeNext (m : Mem) (b : Nat) : Mem :=
  let m := setSize m b (wrap (blockSize m b + wrap (sizeofBlock + blockSize m (blockNext m b))))
  let m := setNext m b (blockNext m (blockNext m b))
  if blockNext m b ≠ 0 then setPrev m (blockNext m b) b else m

/-- The loop of `heap_defragment`. -/
def defragmentFrom (m : Mem) : Nat → Nat → Option Mem
  | 0, _ => none
  | fuel + 1, current =>
      if current ≠ 0 ∧ blockNext m current ≠ 0 then
        if blockFree m current ∧ blockFree m (blockNext m current) ∧
            blockMagic m current = heapMagic ∧ blockMagic m (blockNext m current) = heapMagic then
          defragmentFrom (mergeNext m current) fuel current
        else defragmentFrom m fuel (blockNext m current)
      else some m

def heapDefragment (h : KernelHeap σ) : Option (KernelHeap σ) := do
  let mem ← defragmentFrom h.mem walkFuel h.head
  some { h with mem }

/-- The search of `kmalloc`: the first free block that is large enough, or 0. -/
def firstFit (m : Mem) (size : Nat) : Nat → Nat → Option Nat
  | 0, _ => none
  | fuel + 1, current =>
      if current = 0 then some 0
      else if blockFree m current ∧ size ≤ blockSize m current ∧ blockMagic m current = heapMagic then
        some current
      else firstFit m size fuel (blockNext m current)

def splitBlock (m : Mem) (current size : Nat) : Mem :=
  let new := wrap (current + sizeofBlock + size)
  let m := setNext m new (blockNext m current)
  let m := setPrev m new current
  let m := setSize m new (wsub (wsub (blockSize m current) size) sizeofBlock)
  let m := setFree m new true
  let m := setMagic m new heapMagic
  let m := setNext m current new
  let m := if blockNext m new ≠ 0 then setPrev m (blockNext m new) new else m
  setSize m current size

/-- The body of both search loops of `kmalloc` once a block is found. -/
def takeBlock (m : Mem) (current size : Nat) : Mem :=
  let m := if wrap (size + sizeofBlock) < blockSize m current then splitBlock m current size else m
  setFree m current false

/-- `kmalloc`; the recursion after a successful expansion is on `fuel`. -/
def kmallocFuel (size : Nat) : Nat → KernelHeap σ → Option (Nat × KernelHeap σ)
  | 0, _ => none
  | fuel + 1, h =>
      if size = 0 then some (0, h)
      else do
        let current ← firstFit h.mem size walkFuel h.head
        if current ≠ 0 then
          some (wrap (current + sizeofBlock), { h with mem := takeBlock h.mem current size })
        else
          let h ← heapDefragment h
          let current ← firstFit h.mem size walkFuel h.head
          if current ≠ 0 then
            some (wrap (current + sizeofBlock), { h with mem := takeBlock h.mem current size })
          else
            let (status, h) ← heapExpand ops h (wrap (size + sizeofBlock))
            if status ≠ .ok then some (0, h) else kmallocFuel size fuel h

def kmalloc (h : KernelHeap σ) (size : Nat) : Option (Nat × KernelHeap σ) := kmallocFuel ops size walkFuel h

/-- `kcalloc`; the product is computed in 32 bits. -/
def kcalloc (h : KernelHeap σ) (num size : Nat) : Option (Nat × KernelHeap σ) :=
  let totalSize := wrap (num * size)
  if totalSize = 0 then some (0, h)
  else do
    let (ptr, h) ← kmalloc ops h totalSize
    if ptr ≠ 0 then some (ptr, { h with mem := memset h.mem ptr 0#8 totalSize }) else some (ptr, h)

def mergePrev (m : Mem) (b : Nat) : Mem :=
  let p := blockPrev m b
  let m := setSize m p (wrap (blockSize m p + wrap (sizeofBlock + blockSize m b)))
  let m := setNext m p (blockNext m b)
  if blockNext m b ≠ 0 then setPrev m (blockNext m b) (blockPrev m b) else m

def mergeFreeNext (m : Mem) (b : Nat) : Mem :=
  if blockNext m b ≠ 0 ∧ blockFree m (blockNext m b) ∧ blockMagic m (blockNext m b) = heapMagic then
    mergeNext m b
  else m

def mergeFreePrev (m : Mem) (b : Nat) : Mem :=
  if blockPrev m b ≠ 0 ∧ blockFree m (blockPrev m b) ∧ blockMagic m (blockPrev m b) = heapMagic then
    mergePrev m b
  else m

/-- The header updates of `kfree`. A bad magic or a double free is only logged. -/
def releaseBlock (m : Mem) (b : Nat) : Mem :=
  mergeFreePrev (mergeFreeNext (setFree m b true) b) b

def kfree (h : KernelHeap σ) (ptr : Nat) : KernelHeap σ :=
  if ptr = 0 then h else { h with mem := releaseBlock h.mem (wsub ptr sizeofBlock) }

def krealloc (h : KernelHeap σ) (ptr newSize : Nat) : Option (Nat × KernelHeap σ) :=
  if ptr = 0 then kmalloc ops h newSize
  else if newSize = 0 then some (0, kfree h ptr)
  else
    let block := wsub ptr sizeofBlock
    if blockMagic h.mem block ≠ heapMagic ∨ blockFree h.mem block then some (0, h)
    else do
      let (newPtr, h) ← kmalloc ops h newSize
      if newPtr = 0 then some (0, h)
      else
        let copySize := min (blockSize h.mem block) newSize
        some (newPtr, kfree { h with mem := memcpy h.mem newPtr ptr copySize } ptr)

/-- The loop of `heap_get_total_size`. -/
def totalSizeFrom (m : Mem) : Nat → Nat → Nat → Option Nat
  | 0, _, _ => none
  | fuel + 1, current, total =>
      if current = 0 then some total
      else totalSizeFrom m fuel (blockNext m current)
        (wrap (total + wrap (blockSize m current + sizeofBlock)))

def heapGetTotalSize (h : KernelHeap σ) : Option Nat := totalSizeFrom h.mem walkFuel h.head 0

/-- The loop of `heap_get_free_size`. -/
def freeSizeFrom (m : Mem) : Nat → Nat → Nat → Option Nat
  | 0, _, _ => none
  | fuel + 1, current, freeSize =>
      if current = 0 then some freeSize
      else freeSizeFrom m fuel (blockNext m current)
        (if blockFree m current then wrap (freeSize + blockSize m current) else freeSize)

def heapGetFreeSize (h : KernelHeap σ) : Option Nat := freeSizeFrom h.mem walkFuel h.head 0

end Operations

end Frostix.Heap
