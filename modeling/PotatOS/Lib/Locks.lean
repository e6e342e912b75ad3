import PotatOS.Lib.Program
import Mathlib.Logic.Function.Basic

/-!
# Programs that take spinlocks

The state says which core holds a lock. While one core runs, the others stand
still, so a lock that is taken when it is wanted stays taken.
-/

namespace PotatOS.Locks

open Prog

variable {ι κ σ α : Type}

/-- The data, and who holds which lock. -/
structure Locked (ι κ σ : Type) where
  data : σ
  holder : ι → Option κ

abbrev LockM (ι κ σ : Type) := Prog (Locked ι κ σ)

def allFree : ι → Option κ := fun _ => none

def access (x : Prog σ α) : LockM ι κ σ α := fun s =>
  match x s.data with
  | .error reason => .error reason
  | .ok (a, data) => .ok (a, { s with data := data })

section access

variable {data data' : σ} {holder : ι → Option κ} {x : Prog σ α}

theorem access_run {a : α} (run : x data = .ok (a, data')) : access x ⟨data, holder⟩ = .ok (a, ⟨data', holder⟩) := by
  simp [access, run]

theorem access_error {reason : Stop} (run : x data = .error reason) :
    access x (⟨data, holder⟩ : Locked ι κ σ) = .error reason := by
  simp [access, run]

end access

section locks

variable [DecidableEq ι]

def spinlockAquire (core : κ) (lock : ι) : LockM ι κ σ Unit := fun s =>
  match s.holder lock with
  | some _ => .error .hang
  | none => .ok ((), { s with holder := Function.update s.holder lock (some core) })

def spinlockRelease (lock : ι) : LockM ι κ σ Unit :=
  modify fun s => { s with holder := Function.update s.holder lock none }

variable {data : σ} {holder : ι → Option κ} {lock : ι} {core : κ}

theorem aquire_run (released : holder lock = none) :
    spinlockAquire core lock ⟨data, holder⟩ = .ok ((), ⟨data, Function.update holder lock (some core)⟩) := by
  simp [spinlockAquire, released]

theorem aquire_spins {owner : κ} (taken : holder lock = some owner) :
    spinlockAquire core lock (⟨data, holder⟩ : Locked ι κ σ) = .error .hang := by
  simp [spinlockAquire, taken]

theorem release_run :
    spinlockRelease lock ⟨data, holder⟩ = .ok ((), (⟨data, Function.update holder lock none⟩ : Locked ι κ σ)) := rfl

@[simp] theorem release_aquired (released : holder lock = none) :
    Function.update (Function.update holder lock (some core)) lock none = holder := by
  rw [Function.update_idem, ← released, Function.update_eq_self]

end locks

end PotatOS.Locks
