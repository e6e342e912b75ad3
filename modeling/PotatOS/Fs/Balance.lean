import PotatOS.Fs.Blocks
import PotatOS.Fs.Drives
import PotatOS.Mem.KheapRuns

/-!
# The balance of the heap

A call is balanced when the live blocks are the same before and after it. Every
program of `Blocks` has a bound on the blocks it gains, and the bounds add up
along a call.
-/

namespace PotatOS.Fs.Blocks

open Memory Prog

/-- The live blocks are exactly the same, in some order. -/
def Balanced (s t : Machine) : Prop := t.live.Perm s.live

/-- At least `n` more blocks than before, and the same tasks. -/
structure Gained (n : Int) (s t : Machine) : Prop where
  tasks : t.tasks = s.tasks
  blocks : s.live.length + n ≤ t.live.length

/-- A returning run gains at least `n` blocks. -/
def Gains {α : Type} (x : MachineM α) (n : Int) : Prop := ∀ s a t, x s = .ok (a, t) → Gained n s t

section gains

variable {α β : Type} {x : MachineM α} {m n : Int} {s t u : Machine}

theorem Gained.trans (first : Gained m s t) (second : Gained n t u) : Gained (m + n) s u :=
  ⟨second.tasks.trans first.tasks, by have h := first.blocks; have h' := second.blocks; omega⟩

theorem Gained.mono (gained : Gained n s t) (less : m ≤ n) : Gained m s t :=
  ⟨gained.tasks, by have h := gained.blocks; omega⟩

theorem Gained.unbalanced (gained : Gained n s t) (positive : 0 < n) : ¬ Balanced s t := by
  intro balanced
  have same := balanced.length_eq
  have more := gained.blocks
  omega

theorem Gains.bind {f : α → MachineM β} (first : Gains x m) (rest : ∀ a, Gains (f a) n) : Gains (x >>= f) (m + n) := by
  intro s b u run
  obtain ⟨a, t, step, run⟩ := bind_ok run
  exact (first s a t step).trans (rest a t b u run)

theorem Gains.seq {f : α → MachineM β} (first : Gains x 0) (rest : ∀ a, Gains (f a) n) : Gains (x >>= f) n := by
  have whole := first.bind rest
  rwa [Int.zero_add] at whole

theorem Gains.ite {c : Prop} [Decidable c] {y : MachineM α} (yes : Gains x n) (no : Gains y n) :
    Gains (if c then x else y) n := by
  split
  · exact yes
  · exact no

theorem Gains.mono (gains : Gains x n) (less : m ≤ n) : Gains x m := fun s a t run => (gains s a t run).mono less

theorem gains_pure (a : α) : Gains (pure a) 0 := by
  intro s b t run
  obtain ⟨-, rfl⟩ := pure_ok run
  exact ⟨rfl, by omega⟩

theorem gains_get : Gains (get : MachineM Machine) 0 := by
  intro s b t run
  obtain ⟨-, rfl⟩ := get_ok run
  exact ⟨rfl, by omega⟩

theorem gains_stop (reason : Stop) : Gains (Prog.stop reason : MachineM α) n := fun _ _ _ run => (stop_ok run).elim

theorem gains_modify {f : Machine → Machine} (tasks : ∀ s, (f s).tasks = s.tasks) (live : ∀ s, (f s).live = s.live) :
    Gains (modify f : MachineM PUnit) 0 := by
  intro s b t run
  obtain rfl := modify_ok run
  exact ⟨tasks s, by rw [live]; omega⟩

theorem onVfs_ok {x : VfsM α} {a : α} (run : onVfs x s = .ok (a, t)) : ∃ v, x s.vfs = .ok (a, v) ∧ { s with vfs := v } = t := by
  unfold onVfs at run
  split at run
  · rename_i b v step
    obtain ⟨rfl, rfl⟩ := Prod.mk.inj (Except.ok.inj run)
    exact ⟨v, step, rfl⟩
  · cases run

theorem onHeap_ok {x : KernelM α} {a : α} (run : onHeap x s = .ok (a, t)) :
    ∃ k, x s.kernel = .ok (a, k) ∧ { s with kernel := k } = t := by
  unfold onHeap at run
  split at run
  · rename_i b k step
    obtain ⟨rfl, rfl⟩ := Prod.mk.inj (Except.ok.inj run)
    exact ⟨k, step, rfl⟩
  · cases run

theorem gains_onVfs (x : VfsM α) : Gains (onVfs x) 0 := by
  intro s a t run
  obtain ⟨v, -, rfl⟩ := onVfs_ok run
  exact ⟨rfl, by simp⟩

theorem gains_putBytes (a : Nat) (bytes : List UInt8) : Gains (putBytes a bytes) 0 := gains_modify (fun _ => rfl) fun _ => rfl

theorem freeBlock_ok {addr : Nat} {r : Unit} (run : freeBlock addr s = .ok (r, t)) :
    ∃ k, Mem.free addr s.kernel = .ok ((), k) ∧ { s with kernel := k, live := s.live.eraseP (·.1 = addr) } = t := by
  obtain ⟨⟨⟩, s₁, step, run⟩ := bind_ok run
  obtain ⟨k, freed, rfl⟩ := onHeap_ok step
  exact ⟨k, freed, modify_ok run⟩

theorem gains_freeBlock (addr : Nat) : Gains (freeBlock addr) (-1) := by
  intro s a t run
  obtain ⟨k, -, rfl⟩ := freeBlock_ok run
  refine ⟨rfl, ?_⟩
  have fewer : s.live.length ≤ (s.live.eraseP (·.1 = addr)).length + 1 := by
    rw [List.length_eraseP]
    split <;> omega
  dsimp only
  omega

end gains

section calls

variable {kmalloc : Owner → Nat → KernelM Nat} {beyond : Nat → UInt8} {s t : Machine} {path : Name} {flags : OpenFlags}
  {mode : UInt8}

theorem mallocBlock_ok {size p : Nat} (run : mallocBlock kmalloc size s = .ok (p, t)) :
    ∃ k, Mem.malloc kmalloc size s.kernel = .ok (p, k) ∧ { s with kernel := k, live := (p, size) :: s.live } = t := by
  obtain ⟨q, s₁, step, run⟩ := bind_ok run
  obtain ⟨k, got, rfl⟩ := onHeap_ok step
  rw [bind_eq (run_modify _)] at run
  obtain ⟨rfl, rfl⟩ := pure_ok run
  exact ⟨k, got, rfl⟩

theorem gains_mallocBlock (size : Nat) : Gains (mallocBlock kmalloc size) 1 := by
  intro s p t run
  obtain ⟨k, -, rfl⟩ := mallocBlock_ok run
  exact ⟨rfl, by simp⟩

theorem gains_placeObjects (first : Nat) (sizes : List Nat) : Gains (placeObjects kmalloc first sizes) 0 := by
  induction sizes generalizing first with
  | nil => exact gains_pure _
  | cons size rest ih =>
    refine ((gains_mallocBlock size).mono (by decide)).seq fun p => ?_
    exact .seq (gains_modify (fun _ => rfl) fun _ => rfl) fun _ => ih _

theorem gains_newObjects (sizes : List Nat) : Gains (newObjects kmalloc sizes) 0 := gains_get.seq fun _ => gains_placeObjects _ _

theorem gains_cutComponent (newPath : Nat) : Gains (cutComponent newPath) 0 := by
  refine gains_get.seq fun s => ?_
  dsimp only
  split
  · exact gains_stop _
  · exact (gains_putBytes _ _).seq fun _ => gains_pure _

theorem gains_findDir (fs : FileSystem) (currentObj : Nat) (name : Name) :
    Gains (findDir kmalloc fs flags currentObj name) 0 := by
  refine (gains_onVfs _).seq fun thisDir => .ite (.ite ?_ (gains_pure _)) (gains_pure _)
  refine ((gains_newObjects _).seq fun _ => gains_onVfs _).seq fun _ => ?_
  exact (gains_onVfs _).seq fun _ => gains_pure _

theorem gains_findFile (fs : FileSystem) (currentObj : Nat) (name : Name) :
    Gains (findFile kmalloc fs flags currentObj name) 0 := by
  refine (gains_onVfs _).seq fun thisFile => .ite (.ite ?_ (gains_pure _)) (gains_pure _)
  refine ((gains_newObjects _).seq fun _ => gains_onVfs _).seq fun _ => ?_
  exact (gains_onVfs _).seq fun _ => gains_pure _

theorem gains_openFile (fs : FileSystem) (file : Nat) : Gains (openFile kmalloc fs file mode) 0 := by
  refine gains_get.seq fun s => ?_
  split
  · exact (gains_newObjects _).seq fun _ => gains_onVfs _
  · exact gains_onVfs _

theorem gains_openWalk (fs : FileSystem) (base rounds i currentObj : Nat) :
    Gains (openWalk kmalloc beyond fs flags mode path base rounds i currentObj) 0 := by
  induction rounds generalizing i currentObj with
  | zero =>
    unfold openWalk
    exact .ite (gains_pure _) (gains_stop _)
  | succ rounds ih =>
    unfold openWalk
    refine .ite (gains_pure _) ((gains_cutComponent _).seq fun cut => .ite ?_ ?_)
    · refine (gains_findDir _ _ _).seq fun found => ?_
      cases found with
      | none => exact gains_pure _
      | some thisDir => exact (gains_onVfs _).seq fun next => ih _ _
    · refine (gains_findFile _ _ _).seq fun found => ?_
      cases found with
      | none => exact gains_pure _
      | some thisFile => exact (gains_openFile _ _).seq fun _ => gains_pure _

theorem gains_deviceWalk (fs : FileSystem) (operations : DeviceOps) (base rounds i currentObj : Nat) :
    Gains (deviceWalk kmalloc beyond fs operations path base rounds i currentObj) 0 := by
  induction rounds generalizing i currentObj with
  | zero =>
    unfold deviceWalk
    exact .ite (gains_pure _) (gains_stop _)
  | succ rounds ih =>
    unfold deviceWalk
    refine .ite (gains_pure _) ((gains_cutComponent _).seq fun cut => (gains_onVfs _).seq fun found => .ite ?_ ?_)
    · exact .ite (gains_pure _) ((gains_onVfs _).seq fun next => ih _ _)
    · refine .ite (gains_pure _) (((gains_newObjects _).seq fun _ => gains_onVfs _).seq fun _ => ?_)
      exact (gains_onVfs _).seq fun _ => gains_pure _

end calls

/-! ### The paths without a block of their own -/

/-- The path needs no longer copy, and the call ends before its walk. -/
def Clean (v : Vfs) (path : Name) : Prop :=
  ¬ NotAbsolute path ∧ (isDriveLetter (path.getD 0 0) = false ∨ (v.drives (driveNum (path.getD 0 0))).present = false)

section paths

variable {kmalloc : Owner → Nat → KernelM Nat} {beyond : Nat → UInt8} {s t : Machine} {path : Name} {flags : OpenFlags}
  {mode : UInt8}

/-- What `extendPath` takes. -/
def extension (path : Name) : Int := if NotAbsolute path then 1 else 0

theorem extension_nonneg (path : Name) : 0 ≤ extension path := by
  unfold extension
  split <;> decide

theorem putBytes_ok {a : Nat} {bytes : List UInt8} {r : Unit} (run : putBytes a bytes s = .ok (r, t)) :
    { s with kernel := s.kernel.setMem (writeBytes s.kernel.mem a bytes) } = t := modify_ok run

theorem extendPath_ok {p : Name} (run : extendPath kmalloc path s = .ok (p, t)) :
    p = absolutePath s.vfs.currentDir path ∧ t.vfs = s.vfs ∧ Gained (extension path) s t ∧ (¬ NotAbsolute path → t = s) := by
  unfold extendPath at run
  rw [bind_eq run_get] at run
  split at run
  · rename_i longer
    change NotAbsolute path at longer
    have one : extension path = 1 := if_pos longer
    rw [absolutePath_eq, if_pos longer, one]
    split at run
    · rename_i leading
      obtain ⟨pathExt, s₁, got, run⟩ := bind_ok run
      obtain ⟨⟨⟩, s₂, first, run⟩ := bind_ok run
      obtain ⟨⟨⟩, s₃, second, run⟩ := bind_ok run
      obtain ⟨⟨⟩, s₄, third, run⟩ := bind_ok run
      obtain ⟨rfl, rfl⟩ := pure_ok run
      obtain ⟨k, -, rfl⟩ := mallocBlock_ok got
      obtain rfl := putBytes_ok first
      obtain rfl := putBytes_ok second
      obtain rfl := putBytes_ok third
      exact ⟨by rw [if_pos leading], rfl, ⟨rfl, by simp⟩, fun absolute => (absolute longer).elim⟩
    · rename_i leading
      obtain ⟨pathExt, s₁, got, run⟩ := bind_ok run
      obtain ⟨⟨⟩, s₂, first, run⟩ := bind_ok run
      obtain ⟨⟨⟩, s₃, second, run⟩ := bind_ok run
      obtain ⟨rfl, rfl⟩ := pure_ok run
      obtain ⟨k, -, rfl⟩ := mallocBlock_ok got
      obtain rfl := putBytes_ok first
      obtain rfl := putBytes_ok second
      exact ⟨by rw [if_neg leading], rfl, ⟨rfl, by simp⟩, fun absolute => (absolute longer).elim⟩
  · rename_i longer
    change ¬ NotAbsolute path at longer
    obtain ⟨rfl, rfl⟩ := pure_ok run
    have zero : extension path = 0 := if_neg longer
    exact ⟨(absolutePath_absolute longer).symm, rfl, ⟨rfl, by omega⟩, fun _ => rfl⟩

theorem copyPath_ok {base : Nat} (run : copyPath kmalloc path s = .ok (base, t)) :
    t.vfs = s.vfs ∧ t.tasks = s.tasks ∧ t.live = (base, path.length) :: s.live := by
  unfold copyPath at run
  obtain ⟨newPath, s₁, got, run⟩ := bind_ok run
  obtain ⟨⟨⟩, s₂, first, run⟩ := bind_ok run
  obtain ⟨⟨⟩, s₃, second, run⟩ := bind_ok run
  obtain ⟨rfl, rfl⟩ := pure_ok run
  obtain ⟨k, -, rfl⟩ := mallocBlock_ok got
  obtain rfl := putBytes_ok first
  obtain rfl := putBytes_ok second
  exact ⟨rfl, rfl, rfl⟩

theorem copyPath_freed {base : Nat} {r : Unit} {u : Machine} (copied : copyPath kmalloc path s = .ok (base, t))
    (freed : freeBlock base t = .ok (r, u)) : u.tasks = s.tasks ∧ u.live = s.live := by
  obtain ⟨-, tasks, live⟩ := copyPath_ok copied
  obtain ⟨k, -, rfl⟩ := freeBlock_ok freed
  exact ⟨tasks, by simp [live]⟩

/-- With a clean path nothing stays behind, with any other at least one block. -/
structure Accounts (path : Name) (s t : Machine) : Prop where
  clean : Clean s.vfs path → t.tasks = s.tasks ∧ t.live = s.live
  leaks : ¬ Clean s.vfs path → Gained 1 s t

theorem Accounts.tasks (accounts : Accounts path s t) : t.tasks = s.tasks := by
  by_cases clean : Clean s.vfs path
  · exact (accounts.clean clean).1
  · exact (accounts.leaks clean).tasks

theorem Accounts.balanced_iff (accounts : Accounts path s t) : Balanced s t ↔ Clean s.vfs path := by
  constructor
  · intro balanced
    by_contra leaks
    exact (accounts.leaks leaks).unbalanced (by decide) balanced
  · intro clean
    rw [Balanced, (accounts.clean clean).2]

theorem Clean.absent {v : Vfs} (clean : Clean v path) (letter : isDriveLetter (path.getD 0 0) = true) :
    (v.drives (driveNum (path.getD 0 0))).present = false := by
  refine clean.2.resolve_left fun no => ?_
  rw [letter] at no
  cases no

theorem Accounts.noLetter {u : Machine} {p : Name} (extended : extendPath kmalloc path s = .ok (p, t))
    (letter : ¬ isDriveLetter (p.getD 0 0) = true) (same : t = u) : Accounts path s u := by
  obtain ⟨rfl, -, gained, absolute⟩ := extendPath_ok extended
  subst same
  refine ⟨fun clean => by rw [absolute clean.1]; exact ⟨rfl, rfl⟩, fun unclean => gained.mono ?_⟩
  have longer : NotAbsolute path := by
    by_contra short
    rw [absolutePath_absolute short] at letter
    exact unclean ⟨short, .inl (by simpa using letter)⟩
  exact (if_pos longer : extension path = 1).ge

theorem Accounts.noDrive {u w : Machine} {p : Name} {base : Nat} {r : Unit} (extended : extendPath kmalloc path s = .ok (p, t))
    (copied : copyPath kmalloc p t = .ok (base, u)) (absent : ¬ (u.vfs.drives (driveNum (p.getD 0 0))).present = true)
    (freed : freeBlock base u = .ok (r, w)) : Accounts path s w := by
  obtain ⟨rfl, vfs, gained, absolute⟩ := extendPath_ok extended
  obtain ⟨tasks, live⟩ := copyPath_freed copied freed
  rw [(copyPath_ok copied).1, vfs] at absent
  constructor
  · intro clean
    rw [tasks, live, absolute clean.1]
    exact ⟨rfl, rfl⟩
  · intro unclean
    have longer : NotAbsolute path := by
      by_contra short
      rw [absolutePath_absolute short] at absent
      exact unclean ⟨short, .inr (by simpa using absent)⟩
    have one : extension path = 1 := if_pos longer
    rw [one] at gained
    exact ⟨tasks.trans gained.tasks, by rw [live]; exact gained.blocks⟩

/-- The call keeps the copy and whatever follows gains `n`. -/
theorem Accounts.copied {u w : Machine} {p : Name} {base : Nat} {n : Int} (extended : extendPath kmalloc path s = .ok (p, t))
    (letter : isDriveLetter (p.getD 0 0) = true) (copied : copyPath kmalloc p t = .ok (base, u))
    (present : (u.vfs.drives (driveNum (p.getD 0 0))).present = true) (rest : Gained n u w) :
    ¬ Clean s.vfs path ∧ Gained (n + 1) s w := by
  obtain ⟨rfl, vfs, gained, -⟩ := extendPath_ok extended
  obtain ⟨vfs', tasks, live⟩ := copyPath_ok copied
  constructor
  · intro clean
    rw [vfs', vfs] at present
    rw [absolutePath_absolute clean.1] at letter present
    rw [clean.absent letter] at present
    cases present
  · have one : Gained 1 t u := ⟨tasks, by simp [live]⟩
    have whole := (gained.trans one).trans rest
    exact whole.mono (by have := extension_nonneg path; omega)

theorem resolve_accounts {r : Option Resolved} (run : resolve kmalloc beyond path flags mode s = .ok (r, t)) :
    Accounts path s t ∧ (r ≠ none → ¬ Clean s.vfs path) := by
  unfold resolve at run
  obtain ⟨p, s₁, extended, run⟩ := bind_ok run
  dsimp only at run
  split at run
  · rename_i letter
    obtain ⟨rfl, same⟩ := pure_ok run
    exact ⟨.noLetter extended (by simpa using letter) same, fun some => (some rfl).elim⟩
  rename_i letter
  obtain ⟨base, s₂, copied, run⟩ := bind_ok run
  rw [bind_eq run_get] at run
  split at run
  · rename_i absent
    obtain ⟨⟨⟩, s₃, freed, run⟩ := bind_ok run
    obtain ⟨rfl, rfl⟩ := pure_ok run
    exact ⟨.noDrive extended copied (by simpa using absent) freed, fun some => (some rfl).elim⟩
  rename_i present
  have rest : Gained 0 s₂ t := by
    obtain ⟨root, s₃, found, run⟩ := bind_ok run
    obtain ⟨currentObj, s₄, opened, run⟩ := bind_ok run
    obtain ⟨walked, s₅, walk, run⟩ := bind_ok run
    have before := ((gains_onVfs _ _ _ _ found).trans (gains_onVfs _ _ _ _ opened)).trans (gains_openWalk _ _ _ _ _ _ _ _ walk)
    cases walked with
    | none =>
      obtain ⟨-, rfl⟩ := pure_ok run
      exact before
    | some reached =>
      obtain ⟨-, rfl⟩ := pure_ok run
      exact before
  obtain ⟨unclean, gained⟩ := Accounts.copied extended (by simpa using letter) copied (by simpa using present) rest
  exact ⟨⟨fun clean => (unclean clean).elim, fun _ => gained⟩, fun _ => unclean⟩

theorem gains_finishOpen (r : Resolved) : Gains (finishOpen kmalloc mode r) 0 := by
  refine (gains_freeBlock _).bind (n := 1) fun _ => ?_
  refine (gains_mallocBlock _).bind (n := 0) fun newFile => ?_
  refine (gains_putBytes _ _).seq fun _ => (gains_putBytes _ _).seq fun _ => (gains_putBytes _ _).seq fun _ => ?_
  refine .seq (gains_modify (fun _ => rfl) fun _ => rfl) fun _ => gains_get.seq fun u => ?_
  split
  · exact gains_stop _
  · exact (gains_putBytes _ _).seq fun _ => gains_pure _

theorem vfsOpen_accounts {r : Option File} (run : vfsOpen kmalloc beyond path flags mode s = .ok (r, t)) :
    Accounts path s t ∧ (r ≠ none → ¬ Clean s.vfs path) := by
  obtain ⟨resolved, s₁, step, run⟩ := bind_ok run
  obtain ⟨accounts, unclean⟩ := resolve_accounts step
  cases resolved with
  | none =>
    obtain ⟨rfl, rfl⟩ := pure_ok run
    exact ⟨accounts, fun some => (some rfl).elim⟩
  | some resolved =>
    obtain ⟨f, s₂, finished, run⟩ := bind_ok run
    obtain ⟨rfl, rfl⟩ := pure_ok run
    have leaks := unclean (by simp)
    exact ⟨⟨fun clean => (leaks clean).elim, fun _ => (accounts.leaks leaks).trans (gains_finishOpen _ _ _ _ finished)⟩,
      fun _ => leaks⟩

/-- Whatever a device gives back, it is at most one block. -/
theorem gains_closeFile (fs : FileSystem) (file : Nat) : Gains (closeFile fs file) (-1) := by
  refine (gains_onVfs _).seq fun _ => gains_get.seq fun u => ?_
  dsimp only
  split
  · exact gains_freeBlock _
  · exact (gains_pure _).mono (by decide)

theorem gains_vfsClose (f : File) : Gains (vfsClose f) (-1) := gains_get.seq fun _ => gains_closeFile _ _

theorem tempfsClose_ok {fs fs' : TempFs} {file : Nat} {r : Unit} (run : tempfsClose file fs = .ok (r, fs')) : fs' = fs := by
  unfold tempfsClose at run
  by_cases null : file = 0
  · subst null
    cases run
  · rw [bind_eq (inode_run null)] at run
    split at run
    · exact (stop_ok run).elim
    · exact (pure_ok run).2.symm

theorem vfsClose_regular {f : File} {r : Unit} (regular : (s.vfs.tempFs.inodes f.privateData).type ≠ filetypeDevice)
    (run : vfsClose f s = .ok (r, t)) : Gained 0 s t := by
  unfold vfsClose closeFile at run
  rw [bind_eq run_get] at run
  obtain ⟨⟨⟩, s₁, step, run⟩ := bind_ok run
  obtain ⟨v, closed, rfl⟩ := onVfs_ok step
  have same : v.tempFs = s.vfs.tempFs := by
    cases fs : (s.vfs.drives (driveNum f.driveChar)).fs with
    | null =>
      rw [fs] at closed
      cases closed
    | tempFs =>
      rw [fs] at closed
      obtain ⟨t, close, rfl⟩ := call_ok closed
      exact tempfsClose_ok close
  rw [bind_eq run_get] at run
  dsimp only at run
  rw [same, if_neg fun device => regular device.1] at run
  obtain ⟨-, rfl⟩ := pure_ok run
  exact ⟨rfl, by simp⟩

theorem createDevice_accounts {operations : DeviceOps} {status : Nat} (failed : status ≠ 0)
    (run : createDevice kmalloc beyond path operations s = .ok (status, t)) : Accounts path s t := by
  unfold createDevice at run
  obtain ⟨p, s₁, extended, run⟩ := bind_ok run
  dsimp only at run
  split at run
  · rename_i letter
    exact .noLetter extended (by simpa using letter) (pure_ok run).2
  rename_i letter
  obtain ⟨base, s₂, copied, run⟩ := bind_ok run
  rw [bind_eq run_get] at run
  split at run
  · -- The empty drive has the number of TempFS, too.
    rename_i other
    refine (other ?_).elim
    cases (s₂.vfs.drives (driveNum (p.getD 0 0))).fs <;> rfl
  split at run
  · rename_i absent
    obtain ⟨⟨⟩, s₃, freed, run⟩ := bind_ok run
    obtain ⟨-, rfl⟩ := pure_ok run
    exact .noDrive extended copied (by simpa using absent) freed
  rename_i present
  have rest : Gained 0 s₂ t := by
    obtain ⟨root, s₃, found, run⟩ := bind_ok run
    obtain ⟨currentObj, s₄, opened, run⟩ := bind_ok run
    obtain ⟨walked, s₅, walk, run⟩ := bind_ok run
    cases walked with
    | error e =>
      obtain ⟨-, rfl⟩ := pure_ok run
      exact ((gains_onVfs _ _ _ _ found).trans (gains_onVfs _ _ _ _ opened)).trans (gains_deviceWalk _ _ _ _ _ _ _ _ _ walk)
    | ok i =>
      obtain ⟨⟨⟩, s₆, -, run⟩ := bind_ok run
      exact (failed (pure_ok run).1.symm).elim
  obtain ⟨unclean, gained⟩ := Accounts.copied extended (by simpa using letter) copied (by simpa using present) rest
  exact ⟨fun clean => (unclean clean).elim, fun _ => gained⟩

theorem gains_readInto (f : File) (buffer maxLen : Nat) : Gains (readInto f buffer maxLen) 0 := by
  refine gains_get.seq fun s => (gains_onVfs _).seq fun pair => ?_
  exact .seq (gains_modify (fun _ => rfl) fun _ => rfl) fun _ => gains_pure _

theorem spawn_accounts {launch : Nat → MachineM Unit} {status : Nat} (failed : status ≠ 0)
    (run : spawn kmalloc beyond launch path s = .ok (status, t)) : Accounts path s t := by
  obtain ⟨r, s₁, opened, run⟩ := bind_ok run
  obtain ⟨accounts, unclean⟩ := vfsOpen_accounts opened
  cases r with
  | none =>
    obtain ⟨-, rfl⟩ := pure_ok run
    exact accounts
  | some f =>
    have leaks := unclean (by simp)
    refine ⟨fun clean => (leaks clean).elim, fun _ => ?_⟩
    obtain ⟨flength, s₂, measured, run⟩ := bind_ok run
    obtain ⟨buffer, s₃, got, run⟩ := bind_ok run
    obtain ⟨answer, s₄, filled, run⟩ := bind_ok run
    have before := ((accounts.leaks leaks).trans (gains_onVfs _ _ _ _ measured)).trans
      ((gains_mallocBlock _ _ _ _ got).trans (gains_readInto _ _ _ _ _ _ filled))
    split at run
    · obtain ⟨⟨⟩, s₅, closed, run⟩ := bind_ok run
      obtain ⟨-, rfl⟩ := pure_ok run
      exact before.trans (gains_vfsClose _ _ _ _ closed)
    · obtain ⟨⟨⟩, s₅, closed, run⟩ := bind_ok run
      rw [bind_eq run_get] at run
      split at run
      · obtain ⟨-, rfl⟩ := pure_ok run
        exact before.trans (gains_vfsClose _ _ _ _ closed)
      · obtain ⟨⟨⟩, s₆, -, run⟩ := bind_ok run
        exact (failed (pure_ok run).1.symm).elim

end paths

/-- The exact balance of the calls, in any state: only a clean path leaves nothing behind, and an opened file
leaves its `File` behind even when it is closed. -/
theorem calls_balanced_iff (kmalloc : Owner → Nat → KernelM Nat) (beyond : Nat → UInt8) (s : Machine) (path : Name) :
    (∀ mode t, vfsOpen kmalloc beyond path {} mode s = .ok (none, t) → (Balanced s t ↔ Clean s.vfs path)) ∧
    (∀ operations status t, createDevice kmalloc beyond path operations s = .ok (status, t) → status ≠ 0 →
      (Balanced s t ↔ Clean s.vfs path)) ∧
    (∀ mode f t u, vfsOpen kmalloc beyond path {} mode s = .ok (some f, t) →
      (t.vfs.tempFs.inodes f.privateData).type ≠ filetypeDevice → vfsClose f t = .ok ((), u) → ¬ Balanced s u) ∧
    (∀ launch status t, spawn kmalloc beyond launch path s = .ok (status, t) → status ≠ 0 →
      t.tasks = s.tasks ∧ (Balanced s t ↔ Clean s.vfs path)) := by
  refine ⟨fun mode t run => (vfsOpen_accounts run).1.balanced_iff,
    fun operations status t run failed => (createDevice_accounts failed run).balanced_iff,
    fun mode f t u run regular closed => ?_,
    fun launch status t run failed => ⟨(spawn_accounts failed run).tasks, (spawn_accounts failed run).balanced_iff⟩⟩
  obtain ⟨accounts, unclean⟩ := vfsOpen_accounts run
  have gained := (accounts.leaks (unclean (by simp))).trans (vfsClose_regular regular closed)
  exact gained.unbalanced (by decide)

/-- The heap of a small machine, and drive `R` with the file `f`. -/
def startMachine : Machine :=
  { vfs := {}, kernel := Mem.smallMachineReady, tasks := ⟨⟨0, []⟩, ⟨0, []⟩⟩, live := [], place := fun _ => 0 }

def withFile : MachineM Unit := do
  onHeap (Mem.initKheap Mem.pmm.kmalloc)
  let _ ← mountNew Mem.pmm.kmalloc 82
  let _ ← vfsOpen Mem.pmm.kmalloc (fun _ => 0) [82, 58, 47, 102] { creat := true } 3

/-- `S:/a`, on a drive that is not there, and `R:/f`. -/
def absentPath : Name := [83, 58, 47, 97]
def filePath : Name := [82, 58, 47, 102]

theorem calls_balanced_iff_withFile : ∃ s, withFile startMachine = .ok ((), s) ∧
    (∃ t, vfsOpen Mem.pmm.kmalloc (fun _ => 0) absentPath {} 1 s = .ok (none, t) ∧ Balanced s t) ∧
    (∃ t, createDevice Mem.pmm.kmalloc (fun _ => 0) absentPath {} s = .ok (3, t) ∧ Balanced s t) ∧
    (∃ f t u, vfsOpen Mem.pmm.kmalloc (fun _ => 0) filePath {} 1 s = .ok (some f, t) ∧ vfsClose f t = .ok ((), u) ∧
      ¬ Balanced s u) ∧
    ∃ t, spawn Mem.pmm.kmalloc (fun _ => 0) (fun _ => pure ()) absentPath s = .ok (2, t) ∧ t.tasks = s.tasks ∧ Balanced s t := by
  have check : returns withFile startMachine (fun _ s =>
      decide ((s.vfs.drives 18).present = false) &&
      returns (vfsOpen Mem.pmm.kmalloc (fun _ => 0) absentPath {} 1) s (fun r _ => decide (r = none)) &&
      returns (createDevice Mem.pmm.kmalloc (fun _ => 0) absentPath {}) s (fun r _ => decide (r = 3)) &&
      returns (vfsOpen Mem.pmm.kmalloc (fun _ => 0) filePath {} 1) s (fun r t => decide (∃ f ∈ r,
        (t.vfs.tempFs.inodes f.privateData).type ≠ filetypeDevice ∧ returns (vfsClose f) t (fun _ _ => true) = true)) &&
      returns (spawn Mem.pmm.kmalloc (fun _ => 0) (fun _ => pure ()) absentPath) s (fun r _ => decide (r = 2))) = true := by
    decide +kernel
  obtain ⟨⟨⟩, s, run, check⟩ := returns_iff.mp check
  simp only [Bool.and_eq_true, returns_iff, decide_eq_true_eq] at check
  obtain ⟨⟨⟨⟨absent, _, t, opened, rfl⟩, _, t', created, rfl⟩, _, t'', found, f, rfl, regular, ⟨⟩, u, closed, -⟩,
    _, t₃, spawned, rfl⟩ := check
  have clean : Clean s.vfs absentPath := ⟨by decide, .inr absent⟩
  obtain ⟨opens, creates, -, spawns⟩ := calls_balanced_iff Mem.pmm.kmalloc (fun _ => 0) s absentPath
  obtain ⟨-, -, closes, -⟩ := calls_balanced_iff Mem.pmm.kmalloc (fun _ => 0) s filePath
  have last := spawns _ _ _ spawned (by decide)
  exact ⟨s, run, ⟨t, opened, (opens _ _ opened).mpr clean⟩, ⟨t', created, (creates _ _ _ created (by decide)).mpr clean⟩,
    ⟨f, t'', u, found, closed, closes _ _ _ _ found regular closed⟩, t₃, spawned, last.1, last.2.mpr clean⟩

/-- A path that is not found leaves its copy, a file that is opened and closed its `File`, and so with the other calls. -/
theorem open_leaves_blocks : ∃ s, withFile startMachine = .ok ((), s) ∧
    (∃ t, vfsOpen Mem.pmm.kmalloc (fun _ => 0) [82, 58, 47, 97] {} 1 s = .ok (none, t) ∧ ¬ Balanced s t) ∧
    (∃ t, createDevice Mem.pmm.kmalloc (fun _ => 0) filePath {} s = .ok (1, t) ∧ ¬ Balanced s t) ∧
    (∃ f t u, vfsOpen Mem.pmm.kmalloc (fun _ => 0) filePath {} 1 s = .ok (some f, t) ∧ vfsClose f t = .ok ((), u) ∧
      ¬ Balanced s u) ∧
    ∃ t, spawn Mem.pmm.kmalloc (fun _ => 0) (fun _ => pure ()) filePath s = .ok (1, t) ∧ ¬ Balanced s t := by
  have check : returns withFile startMachine (fun _ s =>
      returns (vfsOpen Mem.pmm.kmalloc (fun _ => 0) [82, 58, 47, 97] {} 1) s
        (fun r t => decide (r = none ∧ t.live.length ≠ s.live.length)) &&
      returns (createDevice Mem.pmm.kmalloc (fun _ => 0) filePath {}) s
        (fun r t => decide (r = 1 ∧ t.live.length ≠ s.live.length)) &&
      returns (vfsOpen Mem.pmm.kmalloc (fun _ => 0) filePath {} 1) s (fun r t => decide (∃ f ∈ r,
        returns (vfsClose f) t (fun _ u => decide (u.live.length ≠ s.live.length)) = true)) &&
      returns (spawn Mem.pmm.kmalloc (fun _ => 0) (fun _ => pure ()) filePath) s
        (fun r t => decide (r = 1 ∧ t.live.length ≠ s.live.length))) = true := by
    decide +kernel
  obtain ⟨⟨⟩, s, run, check⟩ := returns_iff.mp check
  simp only [Bool.and_eq_true, returns_iff, decide_eq_true_eq] at check
  obtain ⟨⟨⟨⟨_, t, opened, rfl, longer⟩, _, t', created, rfl, longer'⟩, _, t'', found, f, rfl, ⟨⟩, u, closed, longer''⟩,
    _, t₃, spawned, rfl, longer₃⟩ := check
  exact ⟨s, run, ⟨t, opened, fun same => longer same.length_eq⟩, ⟨t', created, fun same => longer' same.length_eq⟩,
    ⟨f, t'', u, found, closed, fun same => longer'' same.length_eq⟩, t₃, spawned, fun same => longer₃ same.length_eq⟩

end PotatOS.Fs.Blocks
