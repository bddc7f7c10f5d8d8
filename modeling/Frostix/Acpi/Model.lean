import Frostix.Kernel
import Frostix.Lib.ByteMemory

/-!
ACPI tables: finding the root pointer and the root table, caching the tables that it
lists, and looking a table up. The firmware's memory does not change. A read of an entry
outside the root table, a read outside the cache and a read of a table that is not mapped
end the call with a `Fault`. -/
namespace Frostix.Acpi
open Machine32 ByteMemory

/-- `MAX_TABLES`. -/
def maxTables : Nat := 32

/-- `sizeof(sdt_header_t)`. -/
def sizeofHeader : Nat := 36

/-- `UINT32_MAX`. -/
def uint32Max : Nat := 0xFFFFFFFF

/-- Characters as the little-endian number that their bytes make; comparing signatures
compares these. -/
def tag (s : List Char) : Nat := s.foldr (fun c n => c.toNat + 256 * n) 0

/-- The firmware's memory and what the ACPI code calls: `mapped` says whether a byte is
mapped at its own address. -/
structure Platform (σ : Type) where
  mem : Mem
  mapped : σ → Nat → Bool
  vmmMapIfNotMapped : σ → Nat → Nat → KernelStatus × σ
  kcalloc : σ → Nat → Nat → Nat × σ

inductive Fault where
  | entry (i : Nat)
  | slot (i : Nat)
  | table (addr : Nat)
  deriving DecidableEq

/-- `acpi_context_t`; a null `tables` is `none`. -/
structure AcpiContext where
  rsdp : Nat
  sdtPtr : Nat
  entrySize : Nat
  numEntries : Nat
  tables : Option (Vector Nat 32)

/-- The static initialiser of `acpi_ctx`. -/
def AcpiContext.zero : AcpiContext := ⟨0, 0, 0, 0, none⟩

def acpiChecksum (m : Mem) (table length : Nat) : BitVec 8 :=
  (List.range length).foldl (fun sum i => sum + m (wrap (table + i))) 0#8

def findRsdpFrom (m : Mem) : Nat → Nat → Option Nat
  | 0, _ => none
  | left + 1, ptr =>
      if load64 m ptr = tag ['R', 'S', 'D', ' ', 'P', 'T', 'R', ' '] ∧ acpiChecksum m ptr 20 = 0#8 then some ptr
      else findRsdpFrom m left (ptr + 16)

/-- The candidates in an area leave room for the 20 bytes of the first version. -/
def findRsdpIn (m : Mem) (start size : Nat) : Option Nat := findRsdpFrom m ((size - 20) / 16 + 1) start

/-- `acpi_find_rsdp`: the EBDA, whose segment is at 0x40E, and the BIOS area. -/
def acpiFindRsdp (m : Mem) : Option Nat :=
  let ebda := 16 * ((m 0x40E).toNat + 256 * (m 0x40F).toNat)
  let first := if ebda = 0 then none else findRsdpIn m ebda 1024
  first.or (findRsdpIn m 0xE0000 0x20000)

def sdtAddress (m : Mem) (rsdp : Nat) : Option (Nat × Bool) :=
  if 2 ≤ (m (rsdp + 15)).toNat then
    if acpiChecksum m rsdp (load32 m (rsdp + 20)) ≠ 0#8 then none
    else if uint32Max < load64 m (rsdp + 24) then none
    else some (load64 m (rsdp + 24), true)
  else some (load32 m (rsdp + 16), false)

structure Sdt where
  phys : Nat
  len : Nat
  isXsdt : Bool
  deriving DecidableEq

section Init

variable {σ : Type} (p : Platform σ)

/-- The first half of `acpi_init`: map the root table and check its signature and its
checksum. The result also has the root pointer. -/
def openSdt (env : σ) : Option Sdt × Nat × σ :=
  match acpiFindRsdp p.mem with
  | none => (none, 0, env)
  | some rsdp =>
      match sdtAddress p.mem rsdp with
      | none => (none, rsdp, env)
      | some (sdtPhys, isXsdt) =>
          let (st, env) := p.vmmMapIfNotMapped env sdtPhys 4096
          let expected := if isXsdt then tag ['X', 'S', 'D', 'T'] else tag ['R', 'S', 'D', 'T']
          if st ≠ .ok ∨ load32 p.mem sdtPhys ≠ expected then (none, rsdp, env)
          else
            let sdtLen := load32 p.mem (wrap (sdtPhys + 4))
            let (st, env) := p.vmmMapIfNotMapped env sdtPhys sdtLen
            if st ≠ .ok ∨ acpiChecksum p.mem sdtPhys sdtLen ≠ 0#8 then (none, rsdp, env)
            else (some ⟨sdtPhys, sdtLen, isXsdt⟩, rsdp, env)

def AcpiContext.sdtLength (m : Mem) (ctx : AcpiContext) : Nat := load32 m (wsub ctx.sdtPtr 32)

def AcpiContext.entry (m : Mem) (ctx : AcpiContext) (i : Nat) : Nat :=
  let ptr := wrap (ctx.sdtPtr + i * ctx.entrySize)
  if ctx.entrySize = 8 then load64 m ptr else load32 m ptr

def readEntry (m : Mem) (ctx : AcpiContext) (i : Nat) : Except Fault Nat :=
  if sizeofHeader + (i + 1) * ctx.entrySize ≤ ctx.sdtLength m then .ok (ctx.entry m i) else .error (.entry i)

/-- Does the table of an entry go into the cache? Its header and then the whole table are
mapped and checked. -/
def loadTable (env : σ) (tablePhys : Nat) : Bool × σ :=
  if uint32Max < tablePhys then (false, env)
  else
    let (st, env) := p.vmmMapIfNotMapped env tablePhys 4096
    if st ≠ .ok then (false, env)
    else if acpiChecksum p.mem tablePhys sizeofHeader ≠ 0#8 then (false, env)
    else
      let tableLen := load32 p.mem (wrap (tablePhys + 4))
      let (st, env) := p.vmmMapIfNotMapped env tablePhys tableLen
      if st ≠ .ok then (false, env) else (acpiChecksum p.mem tablePhys tableLen == 0#8, env)

/-- The caching loop: so many entries are left, from position `i` on. -/
def cacheTables (ctx : AcpiContext) : Nat → Nat → Nat → Vector Nat 32 → σ → Except Fault (Vector Nat 32 × σ)
  | 0, _, _, tables, env => .ok (tables, env)
  | left + 1, i, cached, tables, env =>
      if h : cached < 32 then do
        let tablePhys ← readEntry p.mem ctx i
        let (valid, env) := loadTable p env tablePhys
        if valid then cacheTables ctx left (i + 1) (cached + 1) (tables.set cached tablePhys) env
        else cacheTables ctx left (i + 1) cached tables env
      else .ok (tables, env)

/-- The context with the root table entered. The entries are counted by an unsigned
subtraction. -/
def AcpiContext.setSdt (ctx : AcpiContext) (sdt : Sdt) : AcpiContext :=
  let entrySize := if sdt.isXsdt then 8 else 4
  { ctx with
    sdtPtr := wrap (sdt.phys + sizeofHeader)
    entrySize
    numEntries := wsub sdt.len sizeofHeader / entrySize }

/-- `acpi_init` up to the cached tables. -/
def acpiInit (env : σ) : Except Fault (AcpiContext × σ) :=
  let (sdt, rsdp, env) := openSdt p env
  let ctx := { AcpiContext.zero with rsdp }
  match sdt with
  | none => .ok (ctx, env)
  | some sdt =>
      let ctx := ctx.setSdt sdt
      let (ptr, env) := p.kcalloc env maxTables 4
      if ptr = 0 then .ok (ctx, env)
      else do
        let (tables, env) ← cacheTables p ctx ctx.numEntries 0 0 (Vector.replicate 32 0) env
        return ({ ctx with tables := some tables }, env)

/-- Every byte of the table is mapped: its header, and as much as the header says. -/
def tableMapped (env : σ) (table : Nat) : Bool :=
  (List.range (max sizeofHeader (load32 p.mem (wrap (table + 4))))).all fun k => p.mapped env (wrap (table + k))

/-- The first loop of `acpi_get_table`; 0 is no table. -/
def searchCache (env : σ) (tables : Vector Nat 32) (sig : Nat) : Nat → Nat → Except Fault Nat
  | 0, _ => .ok 0
  | left + 1, i =>
      if h : i < 32 then
        if tables[i] = 0 then searchCache env tables sig left (i + 1)
        else if tableMapped p env tables[i] = false then .error (.table tables[i])
        else if load32 p.mem tables[i] = sig then .ok tables[i]
        else searchCache env tables sig left (i + 1)
      else .error (.slot i)

def walkEntries (env : σ) (ctx : AcpiContext) (sig : Nat) : Nat → Nat → Except Fault Nat
  | 0, _ => .ok 0
  | left + 1, i => do
      let tableAddr ← readEntry p.mem ctx i
      if uint32Max < tableAddr then walkEntries env ctx sig left (i + 1)
      else if tableMapped p env tableAddr = false then .error (.table tableAddr)
      else if acpiChecksum p.mem tableAddr (load32 p.mem (wrap (tableAddr + 4))) = 0#8 ∧
          load32 p.mem tableAddr = sig then .ok tableAddr
      else walkEntries env ctx sig left (i + 1)

/-- `acpi_get_table`, for a signature that is not null. -/
def acpiGetTable (env : σ) (ctx : AcpiContext) (sig : Nat) : Except Fault Nat :=
  if ctx.rsdp = 0 then .ok 0
  else do
    let cached ← match ctx.tables with
      | none => .ok 0
      | some tables => searchCache p env tables sig ctx.numEntries 0
    if cached ≠ 0 then return cached else walkEntries p env ctx sig ctx.numEntries 0

end Init

end Frostix.Acpi
