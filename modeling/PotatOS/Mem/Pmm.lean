import PotatOS.Kernel

/-!
# The physical memory allocator (`pmm.c`)

Each usable section keeps a bitmap in its own first page. A set bit `f` marks
frame `f` after the bitmap as handed out. `section_index` is used by the source
only to select a memory map entry, so the functions here take the entry.
-/

namespace PotatOS.Mem

open Memory

/-- The loop never changes `n`: a first test that fails repeats forever. -/
def getBitmapReserved (entry : MemmapEntry) : KernelM Nat :=
  let n := 1
  if n * 4096 * 8 > sub64 (entry.length / 4096) n then pure (n * 4096)
  else Prog.stop .hang

def initSingleBitmap (entry : MemmapEntry) : KernelM Unit := do
  if entry.type ≠ .usable then return
  kuMemset (entry.base + (← get).hhdm) 0 entry.length

def initBitmaps : List MemmapEntry → KernelM Unit
  | [] => pure ()
  | entry :: rest => do
    initSingleBitmap entry
    initBitmaps rest

def initPMM : KernelM Unit := do
  initBitmaps (← get).memmap
  modify fun k => { k with lastFreedSection := -1, lastFreedPage := -1 }

/-- The bit of frame `pageFrameNumber` in the bitmap of `entry`. -/
def bitmapBit (m : Mem) (bitmapStart pageFrameNumber : Nat) : Bool :=
  ((m (bitmapStart + pageFrameNumber / 8)).toNat >>> (pageFrameNumber % 8)) &&& 1 = 1

def allocatePage (entry : MemmapEntry) (pageFrameNumber : Nat) : KernelM Unit :=
  modify fun k =>
    let currentByte := entry.base + k.hhdm + pageFrameNumber / 8
    let bit := pageFrameNumber % 8
    let orValue := if bit ≠ 0 then 1 <<< bit else 1
    k.setMem (store k.mem currentByte 1 ((k.mem currentByte).toNat ||| orValue))

def allocatePages (entry : MemmapEntry) (pageFrameNumber : Nat) : Nat → KernelM Unit
  | 0 => pure ()
  | n + 1 => do
    allocatePage entry pageFrameNumber
    allocatePages entry (pageFrameNumber + 1) n

/-- Frames of `entry` that the search looks at: whole bitmap bytes only. -/
def pagesInSection (entry : MemmapEntry) (bitmapReserved : Nat) : Nat :=
  sub64 entry.length bitmapReserved / 4096 / 8 * 8

def checkPagesAvaliable (k : Kernel) (entry : MemmapEntry)
    (pageFrameNumber numPages bitmapReserved : Nat) : Bool :=
  let topPage := add64 pageFrameNumber numPages
  if topPage > pagesInSection entry bitmapReserved then false
  else if entry.type ≠ .usable then false
  else if pagesInSection entry bitmapReserved < numPages then false
  else (List.range (topPage - pageFrameNumber)).all fun i =>
    !bitmapBit k.mem (entry.base + k.hhdm) (pageFrameNumber + i)

/-- The two inner loops of `kmalloc`: the first frame of `entry` whose run is free. -/
def firstAvaliable (k : Kernel) (entry : MemmapEntry) (numPages bitmapReserved : Nat) : Option Nat :=
  (List.range (sub64 entry.length bitmapReserved / 4096 / 8)).findSome? fun bitmapByte =>
    (List.range 8).findSome? fun bitmapBit =>
      if checkPagesAvaliable k entry (bitmapBit + bitmapByte * 8) numPages bitmapReserved
      then some (bitmapBit + bitmapByte * 8) else none

/-- What `kmalloc` does with the run it found. The field `granted` is ghost. -/
def takeRun (owner : Owner) (entry : MemmapEntry) (frame numPages bitmapReserved : Nat) :
    KernelM Nat := do
  allocatePages entry frame numPages
  let addr := entry.base + frame * 4096 + bitmapReserved
  kuMemset (addr + (← get).hhdm) 0 (numPages * 4096)
  modify fun k =>
    { k with totalMemoryAllocated := add64 k.totalMemoryAllocated (numPages * 4096)
             granted := k.granted ++ [⟨owner, addr, numPages⟩] }
  return addr

def searchSections (owner : Owner) (numPages : Nat) : List MemmapEntry → KernelM Nat
  | [] => Prog.stop .halt
  | entry :: rest =>
    if entry.type ≠ .usable then searchSections owner numPages rest
    else do
      let bitmapReserved ← getBitmapReserved entry
      match firstAvaliable (← get) entry numPages bitmapReserved with
      | some frame => takeRun owner entry frame numPages bitmapReserved
      | none => searchSections owner numPages rest

/-- The guard of the shortcut that reuses the last freed run. -/
def lastFreedFits (k : Kernel) (numPages : Nat) : Bool :=
  k.lastFreedPage ≠ -1 && numPages < k.lastFreedNumPages

def kmalloc (owner : Owner) (numPages : Nat) : KernelM Nat := do
  if numPages < 1 then Prog.stop .halt
  else
    let k ← get
    if lastFreedFits k numPages then
      match k.memmap[k.lastFreedSection.toNat]? with
      | none => Prog.stop .fault
      | some entry =>
        allocatePages entry k.lastFreedPage.toNat numPages
        let bitmapReserved ← getBitmapReserved entry
        let addr := entry.base + k.lastFreedPage.toNat * 4096 + bitmapReserved
        modify fun k => { k with granted := k.granted ++ [⟨owner, addr, numPages⟩] }
        return addr
    else searchSections owner numPages k.memmap

end PotatOS.Mem
