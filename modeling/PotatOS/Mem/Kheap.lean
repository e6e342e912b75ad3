import PotatOS.Kernel

/-!
# The kernel heap (`kheap.c`)

A heap is a chain of pools in memory. `Pool` is the packed 26-byte header; the
block of a pool starts right behind it. `kmalloc` is a parameter.
-/

namespace PotatOS.Mem

open Memory

/-- `sizeof(Pool)`: the struct is packed and `data` has no size. -/
def sizeofPool : Nat := 26

structure Pool where
  verify : Nat
  size : Nat
  requiredSize : Nat
  nextPool : Nat
  free : Bool
  deriving DecidableEq, Repr

def loadPool (m : Mem) (a : Nat) : Pool :=
  { verify := load m a 1
    size := load m (a + 1) 8
    requiredSize := load m (a + 9) 8
    nextPool := load m (a + 17) 8
    free := load m (a + 25) 1 ≠ 0 }

def setVerify (m : Mem) (a v : Nat) : Mem := store m a 1 v
def setSize (m : Mem) (a v : Nat) : Mem := store m (a + 1) 8 v
def setRequiredSize (m : Mem) (a v : Nat) : Mem := store m (a + 9) 8 v
def setNextPool (m : Mem) (a v : Nat) : Mem := store m (a + 17) 8 v
def setFree (m : Mem) (a : Nat) (v : Bool) : Mem := store m (a + 25) 1 v.toNat

/-- `*(Pool*) a = pool`. -/
def storePool (m : Mem) (a : Nat) (pool : Pool) : Mem :=
  setFree (setNextPool (setRequiredSize (setSize (setVerify m a pool.verify) a pool.size) a
    pool.requiredSize) a pool.nextPool) a pool.free

def createPool (size requiredSize nextPool : Nat) (free : Bool) : Pool :=
  { verify := 69, size := sub64 size 1, requiredSize, nextPool, free }

def splitPool (poolAddr size : Nat) : KernelM Nat := do
  let pool := loadPool (← get).mem poolAddr
  let newPool := add64 (add64 poolAddr pool.requiredSize) 1
  let newPoolSize := add64 sizeofPool size
  modify fun k => k.setMem (storePool k.mem newPool
    (createPool (sub64 pool.size pool.requiredSize) newPoolSize pool.nextPool false))
  modify fun k => k.setMem (setSize k.mem poolAddr (loadPool k.mem poolAddr).requiredSize)
  modify fun k => k.setMem (setNextPool k.mem poolAddr newPool)
  return newPool

section heap

variable (kmalloc : Owner → Nat → KernelM Nat)

def initKheap : KernelM Unit := do
  let run ← kmalloc .heap 2
  modify fun k => { k with kheapStart := add64 run k.hhdm }
  modify fun k => k.setMem (storePool k.mem k.kheapStart (createPool 8192 sizeofPool 0 true))

/-- The last branch of `malloc`: a new run of pages behind the last pool. -/
def growHeap (thisPool size : Nat) : KernelM Nat := do
  let newPoolSize := pageAlignUp (add64 size sizeofPool)
  let run ← kmalloc .heap (newPoolSize / 4096)
  let nextPool := add64 run (← get).hhdm
  modify fun k => k.setMem (setNextPool k.mem thisPool nextPool)
  modify fun k => k.setMem (storePool k.mem nextPool
    (createPool newPoolSize (add64 size sizeofPool) 0 false))
  return nextPool + sizeofPool

/-- The loop of `malloc`. The first argument bounds its iterations. -/
def mallocFrom (size : Nat) : Nat → Nat → KernelM Nat
  | 0, _ => Prog.stop .hang
  | fuel + 1, thisPool => do
    let pool := loadPool (← get).mem thisPool
    if pool.free && pool.size > add64 size sizeofPool then
      modify fun k => k.setMem (setFree k.mem thisPool false)
      modify fun k => k.setMem (setRequiredSize k.mem thisPool (add64 size sizeofPool))
      return thisPool + sizeofPool
    else if pool.size > add64 (add64 pool.requiredSize size) sizeofPool then
      let newPool ← splitPool thisPool size
      return newPool + sizeofPool
    else if pool.nextPool = 0 then growHeap kmalloc thisPool size
    else mallocFrom size fuel pool.nextPool

/-- A chain that does not repeat an address has at most `2 ^ 64` pools. -/
def malloc (size : Nat) : KernelM Nat := do
  mallocFrom kmalloc size (2 ^ 64) (← get).kheapStart

end heap

def free (addr : Nat) : KernelM Unit := do
  let thisPool := sub64 addr sizeofPool
  if (loadPool (← get).mem thisPool).verify ≠ 69 then Prog.stop .halt
  else
    modify fun k => k.setMem (setFree k.mem thisPool true)
    modify fun k => k.setMem (setRequiredSize k.mem thisPool sizeofPool)

end PotatOS.Mem
