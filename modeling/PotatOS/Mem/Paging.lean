import PotatOS.Kernel

/-!
# Page tables (`paging.c`, `map.c`)

A page tree is named by the address of its PML4 in the direct map. The four
nested loops of `map_pages` and `alloc_pages` differ only in what they do at a
leaf, so `forPages` takes the leaf as an argument. `kmalloc` is a parameter.
-/

namespace PotatOS.Mem

open Memory

def pflagPresent : Nat := 1
def pflagWrite : Nat := 2
def pflagUser : Nat := 4

/-- `table[i]` of an array of 8-byte entries. -/
def entryAt (m : Mem) (table i : Nat) : Nat := load m (table + 8 * i) 8

def setEntry (table i v : Nat) : KernelM Unit :=
  modify fun k => k.setMem (store k.mem (table + 8 * i) 8 v)

/-- Where the table that an entry points to is seen in the direct map. -/
def tableOf (hhdm entry : Nat) : Nat := add64 (pageAlignDown entry) hhdm

/-- `virt_addr & ~TOPBITS`. -/
def lowBits (virt : Nat) : Nat := virt &&& 0xFFFFFFFFFFFF

def pml1Index (virt : Nat) : Nat := (virt >>> 12) &&& 511
def pml2Index (virt : Nat) : Nat := (virt >>> (12 + 9)) &&& 511
def pml3Index (virt : Nat) : Nat := (virt >>> (12 + 18)) &&& 511
def pml4Index (virt : Nat) : Nat := (virt >>> (12 + 27)) &&& 511

/-- The loops of the source return in their first round. -/
def virtToPhys (k : Kernel) (pml4Addr virtAddr : Nat) : Nat :=
  let virt := lowBits virtAddr
  let pml4e := entryAt k.mem pml4Addr (pml4Index virt)
  if pml4e = 0 then 0xDEAD
  else
    let pml3e := entryAt k.mem (tableOf k.hhdm pml4e) (pml3Index virt)
    if pml3e = 0 then 0xDEAD
    else
      let pml2e := entryAt k.mem (tableOf k.hhdm pml3e) (pml2Index virt)
      if pml2e = 0 then 0xDEAD
      else
        let pml1e := entryAt k.mem (tableOf k.hhdm pml2e) (pml1Index virt)
        if pml1e = 0 then 0xDEAD
        else add64 (pageAlignDown pml1e) (virt - pageAlignDown virt)

/-- The indices of the lower loops, the next frame and the pages left. -/
structure Walk where
  pml3 : Nat
  pml2 : Nat
  pml1 : Nat
  phys : Nat
  num : Nat
  deriving DecidableEq, Repr

section tables

variable (kmalloc : Owner → Nat → KernelM Nat)

/-- The table below entry `i` of `table`, made when the entry is empty. -/
def tableAt (pml4Addr table i flags : Nat) : KernelM Nat := do
  if entryAt (← get).mem table i = 0 then
    let frame ← kmalloc (.table pml4Addr) 1
    setEntry table i frame
    let next := add64 (entryAt (← get).mem table i) (← get).hhdm
    kuMemset next 0 4096
    setEntry table i (entryAt (← get).mem table i ||| (flags ||| pflagPresent ||| pflagWrite ||| pflagUser))
    return next
  else return tableOf (← get).hhdm (entryAt (← get).mem table i)

section loops

variable (pml4Addr flags : Nat) (leaf : Nat → Nat → Walk → KernelM (Option Walk))

def forPml1 (pml1Addr : Nat) (w : Walk) : KernelM (Option Walk) := do
  let r ← Prog.forIndex (leaf pml1Addr) (512 - w.pml1) w.pml1 w
  return r.map fun w => { w with pml1 := 0 }

/-- A loop over the entries of a table, with the loop `inner` over the next
level in its body. -/
def forTables (inner : Nat → Walk → KernelM (Option Walk)) (table start : Nat) (w : Walk) :
    KernelM (Option Walk) :=
  Prog.forIndex (fun i w => do inner (← tableAt kmalloc pml4Addr table i flags) w) (512 - start) start w

def forPml2 (pml2Addr : Nat) (w : Walk) : KernelM (Option Walk) := do
  let r ← forTables kmalloc pml4Addr flags (forPml1 leaf) pml2Addr w.pml2 w
  return r.map fun w => { w with pml2 := 0 }

def forPml3 (pml3Addr : Nat) (w : Walk) : KernelM (Option Walk) := do
  let r ← forTables kmalloc pml4Addr flags (forPml2 kmalloc pml4Addr flags leaf) pml3Addr w.pml3 w
  return r.map fun w => { w with pml3 := 0 }

/-- The loops over all four levels; the code halts when the address space ends. -/
def forPages (virtAddr phys num : Nat) : KernelM Unit := do
  let virt := lowBits virtAddr
  let w : Walk :=
    { pml3 := pml3Index virt, pml2 := pml2Index virt, pml1 := pml1Index virt, phys := phys, num := num }
  match ← forTables kmalloc pml4Addr flags (forPml3 kmalloc pml4Addr flags leaf) pml4Addr (pml4Index virt) w with
  | none => return
  | some _ => Prog.stop .halt

end loops

def mapLeaf (flags pml1Addr pml1 : Nat) (w : Walk) : KernelM (Option Walk) := do
  setEntry pml1Addr pml1 (w.phys ||| flags)
  let w := { w with num := sub64 w.num 1, phys := add64 w.phys 4096 }
  return if w.num = 0 then none else some w

def mapPages (pml4Addr virtAddr physAddr numPages flags : Nat) : KernelM Unit :=
  forPages kmalloc pml4Addr flags (mapLeaf flags) virtAddr physAddr numPages

def allocLeaf (owner : Owner) (flags pml1Addr pml1 : Nat) (w : Walk) : KernelM (Option Walk) := do
  let phys ← kmalloc owner 1
  kuMemset (add64 phys (← get).hhdm) 0 4096
  setEntry pml1Addr pml1 (phys ||| flags)
  let w := { w with num := sub64 w.num 1 }
  return if w.num = 0 then none else some w

/-- `owner` is what the frames are for. The loops carry no physical address. -/
def allocPages (owner : Owner) (pml4Addr virtAddr numPages flags : Nat) : KernelM Unit :=
  forPages kmalloc pml4Addr flags (allocLeaf kmalloc owner flags) virtAddr 0 numPages

/-! ### The mappings every tree gets -/

def kernelStackPages : Nat := 2
def kernelStackAddr : Nat := 0xFFFFFFFFFFFFF000 - kernelStackPages * 4096

def mapKernel (pml4 : Nat) : KernelM Unit := do
  let image := (← get).image
  mapPages kmalloc pml4 (pageAlignDown image.kernelStart)
    (add64 image.physicalBase (sub64 image.kernelStart image.virtualBase))
    (pageAlignUp (sub64 image.writeallowedStart image.kernelStart) / 4096) pflagPresent
  mapPages kmalloc pml4 (pageAlignDown image.writeallowedStart)
    (add64 image.physicalBase (sub64 image.writeallowedStart image.virtualBase))
    (pageAlignUp (sub64 image.kernelEnd image.writeallowedStart) / 4096) (pflagPresent ||| pflagWrite)
  allocPages kmalloc .kernelStack pml4 kernelStackAddr kernelStackPages (pflagPresent ||| pflagWrite)

/-- The entries that `map_sections` maps. -/
def isMapped : MemmapType → Bool
  | .usable | .bootloaderReclaimable | .framebuffer | .kernelAndModules | .acpiNvs | .acpiReclaimable => true
  | .reserved | .badMemory => false

def mapSections (pml4 : Nat) : List MemmapEntry → KernelM Unit
  | [] => return
  | entry :: rest => do
    if isMapped entry.type then
      mapPages kmalloc pml4 (add64 entry.base (← get).hhdm) entry.base (entry.length / 4096)
        (pflagPresent ||| pflagWrite)
    mapSections pml4 rest

def mapAll (pml4 : Nat) : KernelM Unit := do
  mapKernel kmalloc pml4
  mapSections kmalloc pml4 (← get).memmap

def initPagingTask : KernelM Nat := do
  let frame ← kmalloc .pml4 1
  let pml4Virt := add64 frame (← get).hhdm
  kuMemset pml4Virt 0 4096
  mapAll kmalloc pml4Virt
  return pml4Virt

def initPaging : KernelM Unit := do
  let pml4Virt ← initPagingTask kmalloc
  modify fun k => { k with cr3 := sub64 pml4Virt k.hhdm }

/-- `map_apic_into_task` of `apic.c`. -/
def mapApicIntoTask (taskCr3Phys : Nat) : KernelM Unit := do
  let k ← get
  mapPages kmalloc (add64 taskCr3Phys k.hhdm) (add64 k.ioapicAddr k.hhdm) k.ioapicAddr 1
    (pflagPresent ||| pflagWrite)
  mapPages kmalloc (add64 taskCr3Phys k.hhdm) k.lapicAddr (sub64 k.lapicAddr k.hhdm) 1
    (pflagPresent ||| pflagWrite)

end tables

end PotatOS.Mem
