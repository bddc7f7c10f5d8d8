import Frostix.Lib.ByteMemory
import Frostix.Services

/-!
The slab allocator. A slab is one page: its `struct slab` and its objects live in byte
memory, with the free objects linked through their first word. The descriptors of the
caches are a store indexed by their addresses, and the circular lists that link slabs
and caches are lists of addresses, of which a slab is on at most one. -/
namespace Frostix.Slab
open Machine32 ByteMemory

/-- `sizeof(struct slab)`. -/
def sizeofSlab : Nat := 20

/-- `sizeof(struct kmem_cache)`. -/
def sizeofCache : Nat := 56

/-- `SLAB_MIN_ALIGN`. -/
def slabMinAlign : Nat := 8

/-- `SLAB_VIRT_START`. -/
def slabVirtStart : Nat := 0xE0000000

def slabCache (m : Mem) (slab : Nat) : Nat := load32 m slab

def slabFreelist (m : Mem) (slab : Nat) : Nat := load32 m (slab + 4)

def slabInuse (m : Mem) (slab : Nat) : Nat := load32 m (slab + 8)

def setCache (m : Mem) (slab v : Nat) : Mem := store32 m slab v

def setFreelist (m : Mem) (slab v : Nat) : Mem := store32 m (slab + 4) v

def setInuse (m : Mem) (slab v : Nat) : Mem := store32 m (slab + 8) v

def getNextFree (m : Mem) (obj : Nat) : Nat := load32 m obj

def setNextFree (m : Mem) (obj next : Nat) : Mem := store32 m obj next

def objToSlab (obj : Nat) : Nat := alignDown obj 4096

/-- `struct kmem_cache`, without its name and flags, which only the log reads. -/
structure KmemCache where
  objectSize : Nat
  align : Nat
  ctor : Option (Mem → Nat → Mem)
  objectsPerSlab : Nat
  slabsFull : List Nat
  slabsPartial : List Nat
  slabsFree : List Nat

/-- `list_del` of a slab: it leaves the list that it is on. -/
def KmemCache.unlink (c : KmemCache) (slab : Nat) : KmemCache :=
  { c with
    slabsFull := c.slabsFull.erase slab
    slabsPartial := c.slabsPartial.erase slab
    slabsFree := c.slabsFree.erase slab }

/-- `kmem_caches`, `next_slab_virt`, the descriptors, the memory of the slabs and what the
functions below work on. -/
structure Slabs (σ : Type) where
  mem : Mem
  nextSlabVirt : Nat
  caches : Nat → Option KmemCache
  kmemCaches : List Nat
  env : σ

/-- `slab_init` with the static initialisers. -/
def slabInit {σ : Type} (mem : Mem) (env : σ) : Slabs σ := ⟨mem, slabVirtStart, fun _ => none, [], env⟩

def Slabs.setCache {σ : Type} (s : Slabs σ) (cache : Nat) (c : KmemCache) : Slabs σ :=
  { s with caches := Function.update s.caches cache (some c) }

/-- The offset of the first object, computed for a slab at address 0. -/
def firstObjOff (align : Nat) : Nat := alignUp sizeofSlab align

def linkObjects (m : Mem) (objOff objectSize n : Nat) : Mem × Nat :=
  (List.range n).foldl (fun (m, prev) i =>
    let obj := wrap (objOff + wrap (i * objectSize))
    (setNextFree m obj prev, obj)) (m, 0)

/-- What `new_slab` writes into the page. -/
def buildSlab (m : Mem) (cache : Nat) (c : KmemCache) (virt : Nat) : Mem :=
  let m := memset m virt 0#8 sizeofSlab
  let m := setCache m virt cache
  let m := setInuse m virt 0
  let objOff := alignUp (wrap (virt + sizeofSlab)) c.align
  let (m, prev) := linkObjects m objOff c.objectSize c.objectsPerSlab
  setFreelist m virt prev

/-- An object is taken from the free list, cleared and constructed. An empty free list
fails the assertion. -/
def popObject (m : Mem) (c : KmemCache) (slab : Nat) : Option (Nat × Mem) :=
  let obj := slabFreelist m slab
  if obj = 0 then none
  else
    let m := setFreelist m slab (getNextFree m obj)
    let m := setInuse m slab (wrap (slabInuse m slab + 1))
    let m := memset m obj 0#8 c.objectSize
    match c.ctor with
    | none => some (obj, m)
    | some construct => some (obj, construct m obj)

def pushObject (m : Mem) (slab obj : Nat) : Mem :=
  setFreelist (setNextFree m obj (slabFreelist m slab)) slab obj

section Operations

variable {σ : Type} (ops : MmOps σ)

inductive Backing where
  | noFrame
  | refused
  | mapped
  deriving DecidableEq

/-- A frame for a slab at `virt`; a frame that cannot be mapped is given back. -/
def backSlab (env : σ) (virt : Nat) : Option (Backing × σ) :=
  let (phys, env) := ops.pmmAllocPage env
  if phys = 0 then some (.noFrame, env)
  else do
    let (st, env) ← ops.vmmMapPage env virt phys (pageFlagPresent + pageFlagRw + pageFlagGlobal)
    if st ≠ .ok then some (.refused, ops.pmmFreePage env phys) else some (.mapped, env)

/-- `new_slab`; `false` is the result -1. The address is used up once there is a frame. -/
def newSlab (s : Slabs σ) (cache : Nat) : Option (Bool × Slabs σ) := do
  let virt := s.nextSlabVirt
  let (backing, env) ← backSlab ops s.env virt
  match backing with
  | .noFrame => some (false, { s with env })
  | .refused => some (false, { s with env, nextSlabVirt := wrap (virt + 4096) })
  | .mapped =>
      let c ← s.caches cache
      let s := { s with
        env, nextSlabVirt := wrap (virt + 4096), mem := buildSlab s.mem cache c virt }
      some (true, s.setCache cache { c with slabsPartial := c.slabsPartial ++ [virt] })

/-- `kmem_cache_create`; the name is given by its length, and `none` is a null pointer. A
zero object size faults in the division. -/
def kmemCacheCreate (s : Slabs σ) (name : Option Nat) (size align : Nat)
    (ctor : Option (Mem → Nat → Mem)) : Option (Nat × Slabs σ) :=
  match name with
  | none => some (0, s)
  | some len =>
      if size = 0 ∨ align < slabMinAlign ∨ align &&& (align - 1) ≠ 0 then some (0, s)
      else do
        let (cache, env) ← ops.kmalloc s.env (wrap (sizeofCache + (len + 1)))
        if cache = 0 then some (0, { s with env })
        else
          let objectSize := alignUp size align
          let avail := wsub 4096 (firstObjOff align)
          if objectSize = 0 then none
          else if avail / objectSize = 0 then some (0, { s with env := ops.kfree env cache })
          else
            let s := { s with env, kmemCaches := s.kmemCaches ++ [cache] }
            some (cache, s.setCache cache ⟨objectSize, align, ctor, avail / objectSize, [], [], []⟩)

/-- The list that `kmem_cache_alloc` takes a slab from. -/
def KmemCache.source (c : KmemCache) : List Nat :=
  if c.slabsPartial.isEmpty then c.slabsFree else c.slabsPartial

/-- The second half of `kmem_cache_alloc`: an object of the first slab of the list. Only a
slab that became full changes its list. -/
def allocFrom (s : Slabs σ) (cache : Nat) : Option (Nat × Slabs σ) := do
  let c ← s.caches cache
  let slab ← c.source.head?
  let (obj, mem) ← popObject s.mem c slab
  let s := { s with mem }
  if slabInuse mem slab = c.objectsPerSlab then
    let c := c.unlink slab
    some (obj, s.setCache cache { c with slabsFull := c.slabsFull ++ [slab] })
  else some (obj, s)

def kmemCacheAlloc (s : Slabs σ) (cache : Nat) : Option (Nat × Slabs σ) :=
  if cache = 0 then some (0, s)
  else do
    let c ← s.caches cache
    if c.source.isEmpty then
      let (ready, s) ← newSlab ops s cache
      if ready then allocFrom s cache else some (0, s)
    else allocFrom s cache

def kmemCacheFree (s : Slabs σ) (cache obj : Nat) : Option (Slabs σ) :=
  if cache = 0 ∨ obj = 0 then some s
  else
    let slab := objToSlab obj
    if slabCache s.mem slab ≠ cache then some s
    else
      let s := { s with mem := pushObject s.mem slab obj }
      if slabInuse s.mem slab = 0 then some s
      else do
        let s := { s with mem := setInuse s.mem slab (wsub (slabInuse s.mem slab) 1) }
        let c ← s.caches cache
        let c := c.unlink slab
        if slabInuse s.mem slab = 0 then
          some (s.setCache cache { c with slabsFree := c.slabsFree ++ [slab] })
        else some (s.setCache cache { c with slabsPartial := c.slabsPartial ++ [slab] })

/-- The frame of a slab is looked up, the page is unmapped and the frame is freed. -/
def releaseSlab (env : σ) (slab : Nat) : Option σ := do
  let phys ← ops.vmmGetPhysicalAddr env slab
  let (_, env) ← ops.vmmUnmapPage env slab
  some (ops.pmmFreePage env (alignDown phys 4096))

def releaseSlabs : List Nat → σ → Option σ
  | [], env => some env
  | slab :: rest, env => do
      let env ← releaseSlab ops env slab
      releaseSlabs rest env

def kmemCacheShrink (s : Slabs σ) (cache : Nat) : Option (Slabs σ) :=
  if cache = 0 then some s
  else do
    let c ← s.caches cache
    let env ← releaseSlabs ops c.slabsFree s.env
    some ({ s with env }.setCache cache { c with slabsFree := [] })

/-- `kmem_cache_destroy`. The page that holds the descriptor is unmapped and its frame is
freed, although the descriptor came from `kmalloc`. -/
def kmemCacheDestroy (s : Slabs σ) (cache : Nat) : Option (Slabs σ) :=
  if cache = 0 then some s
  else do
    let c ← s.caches cache
    let s ← if c.slabsFull.isEmpty ∧ c.slabsPartial.isEmpty then some s else kmemCacheShrink ops s cache
    let c ← s.caches cache
    let env ← releaseSlabs ops (c.slabsFull ++ c.slabsPartial ++ c.slabsFree) s.env
    let phys ← ops.vmmGetPhysicalAddr env cache
    let (_, env) ← ops.vmmUnmapPage env cache
    some { s with
      env := ops.pmmFreePage env phys
      caches := Function.update s.caches cache none
      kmemCaches := s.kmemCaches.erase cache }

end Operations

end Frostix.Slab
