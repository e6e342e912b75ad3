import PotatOS.Lib.Memory
import PotatOS.Lib.Program
import PotatOS.Lib.Word

/-!
# The kernel record

`Kernel` holds the fields of `kernel.h` that the modelled code reads and the
memory the kernel sees through the direct map: physical byte `p` is
`mem (p + hhdm)`. Addresses and 64-bit values are natural numbers; sums that
can pass `2 ^ 64` are reduced where the code computes them.
-/

namespace PotatOS

open Memory

/-- `LIMINE_MEMMAP_*`. -/
inductive MemmapType where
  | usable | reserved | acpiReclaimable | acpiNvs | badMemory | bootloaderReclaimable
  | kernelAndModules | framebuffer
  deriving DecidableEq, Repr

/-- `struct limine_memmap_entry`. The entry is a range of 64-bit addresses. -/
structure MemmapEntry where
  base : Nat
  length : Nat
  type : MemmapType
  fits : base + length ≤ 2 ^ 64
  deriving DecidableEq, Repr

/-- Who asked `kmalloc` for a run. Ghost: no code reads it. -/
inductive Owner where
  | heap
  | pml4
  /-- A lower table of the page tree at this address. -/
  | table (pml4 : Nat)
  | kernelStack
  | image (pid : Nat)
  | stack (pid : Nat)
  | arguments (pid : Nat)
  | mmap (pid : Nat)
  deriving DecidableEq, Repr

/-- A run of `pages` frames from physical address `addr` that `kmalloc` returned. -/
structure Grant where
  owner : Owner
  addr : Nat
  pages : Nat
  deriving DecidableEq, Repr

/-- `struct limine_kernel_address_response` and the symbols of `linker.ld`. -/
structure KernelImage where
  physicalBase : Nat
  virtualBase : Nat
  kernelStart : Nat
  writeallowedStart : Nat
  kernelEnd : Nat
  deriving DecidableEq, Repr

structure Kernel where
  mem : Mem
  memmap : List MemmapEntry
  hhdm : Nat
  totalMemoryAllocated : Nat
  lastFreedPage : Int
  lastFreedSection : Int
  lastFreedNumPages : Nat
  kheapStart : Nat
  cr3 : Nat
  lapicAddr : Nat
  ioapicAddr : Nat
  image : KernelImage
  /-- Ghost: the runs returned by `kmalloc` so far, oldest first. -/
  granted : List Grant

abbrev KernelM := Prog Kernel

namespace Kernel

/-- Physical byte `p`. -/
def phys (k : Kernel) (p : Nat) : UInt8 := k.mem (p + k.hhdm)

def setMem (k : Kernel) (m : Mem) : Kernel := { k with mem := m }

@[simp] theorem setMem_mem (k : Kernel) (m : Mem) : (k.setMem m).mem = m := rfl
@[simp] theorem setMem_setMem (k : Kernel) (m m' : Mem) : (k.setMem m).setMem m' = k.setMem m' := rfl
@[simp] theorem setMem_memmap (k : Kernel) (m : Mem) : (k.setMem m).memmap = k.memmap := rfl
@[simp] theorem setMem_hhdm (k : Kernel) (m : Mem) : (k.setMem m).hhdm = k.hhdm := rfl
@[simp] theorem setMem_granted (k : Kernel) (m : Mem) : (k.setMem m).granted = k.granted := rfl
@[simp] theorem setMem_kheapStart (k : Kernel) (m : Mem) : (k.setMem m).kheapStart = k.kheapStart := rfl

end Kernel

/-- `PAGE_ALIGN_UP`. -/
def pageAlignUp (x : Nat) : Nat := add64 x 4095 / 4096 * 4096

/-- `PAGE_ALIGN_DOWN`. -/
def pageAlignDown (x : Nat) : Nat := x / 4096 * 4096

/-- `ku_memset`. -/
def kuMemset (array : Nat) (value : UInt8) (size : Nat) : KernelM Unit :=
  modify fun k => k.setMem (fill k.mem array size value)

end PotatOS
