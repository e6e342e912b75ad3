import Mathlib.Logic.Function.Basic
import Mathlib.Tactic.IntervalCases

/-!
# Starting the other processors (`smp.c`)

`init_smp` takes `init_lock` before it starts a core, and the core gives the
lock back at the end of `ap_entry`: the lock is handed from core to core. A
state says where every core stands, and any core may take the next step. The
counter of the loop in `init_smp` is local and moves with the write before it.
-/

namespace PotatOS.Processors

/-- `Spinlock`, an `atomic_flag`. -/
abbrev Spinlock := Bool

/-- Where the boot processor stands in `init_smp`. -/
inductive BootAt where
  /-- `kstatusf` before the loop. -/
  | announce
  /-- `spinlock_aquire` in the round for core `i`. -/
  | aquire (i : Nat)
  /-- About to write the `goto_address` of core `i`. -/
  | startCore (i : Nat)
  /-- `spinlock_aquire` after the loop. -/
  | aquireLast
  | report
  | returned
  deriving DecidableEq, Repr

/-- The statements of `ap_entry`; those that only print are left out. -/
inductive ApStatement where
  | disableInterrupts | createSystemSegmentDescriptor | loadGdt | reloadSegments | loadTss | loadIdt
  | switchPageTree | allocPages | switchStack | initLocalApic | initLapicTimer | getCurrentProcessor
  | spinlockRelease | halt
  deriving DecidableEq, Repr

def apEntry : List ApStatement :=
  [.disableInterrupts, .createSystemSegmentDescriptor, .loadGdt, .reloadSegments, .loadTss, .loadIdt,
    .switchPageTree, .allocPages, .switchStack, .initLocalApic, .initLapicTimer, .getCurrentProcessor,
    .spinlockRelease, .halt]

/-- An application processor waits for its `goto_address` or has the given statements left. -/
inductive ApAt where
  | waiting
  | entry (left : List ApStatement)
  deriving DecidableEq, Repr

/-- The lock, which `goto_address` is written, and where each core stands. Core 0 boots. -/
structure Smp where
  initLock : Spinlock := false
  gotoAddress : Nat → Bool := fun _ => false
  boot : BootAt := .announce
  ap : Nat → ApAt := fun _ => .waiting

/-- The test of the loop in `init_smp` with counter `i`. -/
def nextRound (cpuCount i : Nat) : BootAt := if i < cpuCount then .aquire i else .aquireLast

/-- A step of the boot processor. A round of `spinlock_aquire` is one test-and-set. -/
def bootStep (cpuCount : Nat) (s : Smp) : Smp :=
  match s.boot with
  | .announce => { s with boot := nextRound cpuCount 1 }
  | .aquire i => { s with initLock := true, boot := if s.initLock then .aquire i else .startCore i }
  | .startCore i =>
    { s with gotoAddress := Function.update s.gotoAddress i true, boot := nextRound cpuCount (i + 1) }
  | .aquireLast => { s with initLock := true, boot := if s.initLock then .aquireLast else .report }
  | .report => { s with boot := .returned }
  | .returned => s

/-- A step of core `c`: part of its statement, or the end of it when `finishes`. -/
def apStep (c : Nat) (finishes : Bool) (s : Smp) : Smp :=
  match s.ap c with
  | .waiting => if s.gotoAddress c then { s with ap := Function.update s.ap c (.entry apEntry) } else s
  | .entry [] => s
  | .entry (.halt :: _) => s
  | .entry (.spinlockRelease :: left) =>
    if finishes then { s with initLock := false, ap := Function.update s.ap c (.entry left) } else s
  | .entry (_ :: left) => if finishes then { s with ap := Function.update s.ap c (.entry left) } else s

/-- The states that an interleaving of the cores' steps can reach. -/
inductive SmpRun (cpuCount : Nat) : Smp → Prop where
  | start : SmpRun cpuCount {}
  | boot {s : Smp} (before : SmpRun cpuCount s) : SmpRun cpuCount (bootStep cpuCount s)
  | ap {s : Smp} (before : SmpRun cpuCount s) (c : Nat) (known : 0 < c ∧ c < cpuCount) (finishes : Bool) :
    SmpRun cpuCount (apStep c finishes s)

/-- The core runs code other than spinning on `init_lock`, waiting for its `goto_address` or the final halt. -/
def Active (s : Smp) (c : Nat) : Prop :=
  if c = 0 then s.boot ≠ .aquireLast ∧ ∀ i, s.boot ≠ .aquire i
  else s.ap c ≠ .waiting ∧ s.ap c ≠ .entry [.halt]

/-- The core is inside `alloc_pages`, and so inside its calls of `kmalloc`. -/
def InAllocPages (s : Smp) (c : Nat) : Prop := ∃ left, s.ap c = .entry (.allocPages :: left)

/-- The core has cleared the lock. -/
def Released (s : Smp) (c : Nat) : Prop := s.ap c = .entry [.halt]

/-! ### Who has the token -/

def Settled (s : Smp) (n : Nat) : Prop := ∀ c, 0 < c → c < n → Released s c

/-- The cores from `n` on were not started. -/
def Unstarted (s : Smp) (n : Nat) : Prop := ∀ c, n ≤ c → s.gotoAddress c = false ∧ s.ap c = .waiting

/-- Core `n - 1` has the token: it was started and is not done. -/
structure Working (s : Smp) (n : Nat) : Prop where
  held : s.initLock = true
  some : 1 < n
  below : Settled s (n - 1)
  goto : s.gotoAddress (n - 1) = true
  left : s.ap (n - 1) = .waiting ∨ ∃ k < 13, s.ap (n - 1) = .entry (apEntry.drop k)

/-- The first core that was not started. -/
def frontier (cpuCount : Nat) : BootAt → Nat
  | .announce => 1
  | .aquire i | .startCore i => i
  | .aquireLast | .report | .returned => max 1 cpuCount

def BootAt.Spins : BootAt → Prop
  | .aquire _ | .aquireLast => True
  | _ => False

/-- The boot processor took the lock and has not handed it on. -/
def BootAt.holdsLock : BootAt → Bool
  | .announce | .aquire _ | .aquireLast => false
  | .startCore _ | .report | .returned => true

def BootAt.InLoop (cpuCount : Nat) : BootAt → Prop
  | .aquire i | .startCore i => 1 ≤ i ∧ i < cpuCount
  | _ => True

structure TokenInv (cpuCount : Nat) (s : Smp) : Prop where
  inLoop : s.boot.InLoop cpuCount
  unstarted : Unstarted s (frontier cpuCount s.boot)
  token : Settled s (frontier cpuCount s.boot) ∧ s.initLock = s.boot.holdsLock ∨
    s.boot.Spins ∧ Working s (frontier cpuCount s.boot)

variable {cpuCount n c : Nat} {s : Smp}

theorem tokenInv_nextRound {lock : Spinlock} {goto : Nat → Bool} (some : 1 ≤ n) (few : n ≤ max 1 cpuCount)
    (unstarted : Unstarted ⟨lock, goto, .announce, s.ap⟩ n)
    (token : Settled s n ∧ lock = false ∨ Working ⟨lock, goto, .announce, s.ap⟩ n) :
    TokenInv cpuCount ⟨lock, goto, nextRound cpuCount n, s.ap⟩ := by
  have next : ∀ boot : BootAt, boot.Spins → boot.holdsLock = false → frontier cpuCount boot = n →
      boot.InLoop cpuCount → TokenInv cpuCount ⟨lock, goto, boot, s.ap⟩ := by
    intro boot spins holds here inLoop
    refine ⟨inLoop, here.symm ▸ unstarted, ?_⟩
    rcases token with ⟨settled, free⟩ | working
    · exact .inl ⟨here.symm ▸ settled, free.trans holds.symm⟩
    · refine .inr ⟨spins, ?_⟩
      show Working ⟨lock, goto, boot, s.ap⟩ (frontier cpuCount boot)
      rw [here]
      exact ⟨working.held, working.some, working.below, working.goto, working.left⟩
  unfold nextRound
  by_cases more : n < cpuCount
  · rw [if_pos more]
    exact next _ trivial rfl rfl ⟨some, more⟩
  · rw [if_neg more]
    exact next _ trivial rfl (show max 1 cpuCount = n by omega) trivial

/-- A wait for the lock: it goes on while a core works, and takes the lock when the core is done. -/
theorem tokenInv_aquire {after : BootAt} (inv : TokenInv cpuCount s) (spins : s.boot.Spins)
    (inLoop : after.InLoop cpuCount) (holds : after.holdsLock = true)
    (same : frontier cpuCount after = frontier cpuCount s.boot) :
    TokenInv cpuCount { s with initLock := true, boot := if s.initLock then s.boot else after } := by
  have free : s.boot.holdsLock = false := by
    cases boot : s.boot <;> rw [boot] at spins <;> first | rfl | exact spins.elim
  rcases inv.token with ⟨settled, lock⟩ | ⟨-, working⟩
  · rw [lock, free]
    refine ⟨inLoop, ?_, .inl ⟨?_, holds.symm⟩⟩
    · show Unstarted _ (frontier cpuCount after)
      rw [same]
      exact inv.unstarted
    · show Settled _ (frontier cpuCount after)
      rw [same]
      exact settled
  · rw [working.held]
    exact ⟨inv.inLoop, inv.unstarted,
      .inr ⟨spins, rfl, working.some, working.below, working.goto, working.left⟩⟩

theorem tokenInv_boot (inv : TokenInv cpuCount s) : TokenInv cpuCount (bootStep cpuCount s) := by
  obtain ⟨inLoop, unstarted, token⟩ := id inv
  unfold bootStep
  cases boot : s.boot with
  | announce =>
    rw [boot] at unstarted token
    refine tokenInv_nextRound le_rfl (Nat.le_max_left ..) unstarted ?_
    exact token.imp id fun impossible => impossible.1.elim
  | aquire i =>
    rw [boot] at inLoop
    have spins : s.boot.Spins := by rw [boot]; trivial
    have inside : (BootAt.startCore i).InLoop cpuCount := inLoop
    have same : frontier cpuCount (.startCore i) = frontier cpuCount s.boot := by rw [boot]; rfl
    have step := tokenInv_aquire inv spins inside rfl same
    rwa [boot] at step
  | startCore i =>
    rw [boot] at inLoop unstarted token
    obtain ⟨settled, lock⟩ := token.resolve_right fun impossible => impossible.1
    have started : Function.update s.gotoAddress i true i = true := Function.update_self ..
    refine tokenInv_nextRound (by omega) (by have := inLoop.2; omega) (fun c above => ?_) (.inr ?_)
    · have before := unstarted c (Nat.le_of_succ_le above)
      exact ⟨(Function.update_of_ne (by omega) ..).trans before.1, before.2⟩
    · exact ⟨lock, Nat.succ_lt_succ inLoop.1, settled, started, .inl (unstarted i le_rfl).2⟩
  | aquireLast =>
    have spins : s.boot.Spins := by rw [boot]; trivial
    have inside : BootAt.report.InLoop cpuCount := trivial
    have same : frontier cpuCount .report = frontier cpuCount s.boot := by rw [boot]; rfl
    have step := tokenInv_aquire inv spins inside rfl same
    rwa [boot] at step
  | report =>
    rw [boot] at unstarted token
    exact ⟨trivial, unstarted, .inl (token.resolve_right fun impossible => impossible.1)⟩
  | returned => exact inv

theorem apStep_idle (finishes : Bool) (idle : Released s c ∨ s.gotoAddress c = false ∧ s.ap c = .waiting) :
    apStep c finishes s = s := by
  unfold apStep
  rcases idle with done | ⟨absent, waiting⟩
  · rw [done]
  · rw [waiting]
    simp [absent]

theorem apStep_entry {k : Nat} (more : k < 13) (here : s.ap c = .entry (apEntry.drop k)) :
    apStep c false s = s ∧ apStep c true s = { s with
      initLock := if k = 12 then false else s.initLock
      ap := Function.update s.ap c (.entry (apEntry.drop (k + 1))) } := by
  unfold apStep
  rw [here]
  interval_cases k <;> exact ⟨rfl, rfl⟩

/-- A step of the core that holds the token. -/
theorem tokenInv_working (inv : TokenInv cpuCount s) (frontier : frontier cpuCount s.boot = n) (spins : s.boot.Spins)
    (working : Working s n) (finishes : Bool) : TokenInv cpuCount (apStep (n - 1) finishes s) := by
  have some := working.some
  have unstarted := inv.unstarted
  rw [frontier] at unstarted
  have free : s.boot.holdsLock = false := by
    cases boot : s.boot <;> rw [boot] at spins <;> first | rfl | exact spins.elim
  -- The other cores stay where they are.
  have later : ∀ there, ∀ c, n ≤ c →
      s.gotoAddress c = false ∧ Function.update s.ap (n - 1) there c = .waiting := by
    intro there c above
    exact ⟨(unstarted c above).1, (Function.update_of_ne (by omega) ..).trans (unstarted c above).2⟩
  have below : ∀ there, ∀ c, 0 < c → c < n - 1 → Function.update s.ap (n - 1) there c = .entry [.halt] := by
    intro there c positive small
    exact (Function.update_of_ne (by omega) ..).trans (working.below c positive small)
  subst frontier
  rcases working.left with waiting | ⟨k, more, here⟩
  · have step : apStep (Processors.frontier cpuCount s.boot - 1) finishes s =
        { s with ap := Function.update s.ap (Processors.frontier cpuCount s.boot - 1) (.entry (apEntry.drop 0)) } := by
      unfold apStep
      rw [waiting]
      simp [working.goto]
    rw [step]
    exact ⟨inv.inLoop, later _, .inr ⟨spins, working.held, some, below _, working.goto,
      .inr ⟨0, by omega, Function.update_self ..⟩⟩⟩
  · obtain ⟨stays, ends⟩ := apStep_entry more here
    cases finishes with
    | false =>
      rw [stays]
      exact inv
    | true =>
      rw [ends]
      refine ⟨inv.inLoop, later _, ?_⟩
      by_cases last : k = 12
      · subst k
        refine .inl ⟨fun c positive small => ?_, free.symm⟩
        by_cases mine : c = Processors.frontier cpuCount s.boot - 1
        · subst c
          exact Function.update_self ..
        · exact below _ c positive (by have : c < Processors.frontier cpuCount s.boot := small; omega)
      · exact .inr ⟨spins, (if_neg last).trans working.held, some, below _, working.goto,
          .inr ⟨k + 1, by omega, Function.update_self ..⟩⟩

theorem tokenInv_ap (inv : TokenInv cpuCount s) (positive : 0 < c) (finishes : Bool) :
    TokenInv cpuCount (apStep c finishes s) := by
  by_cases above : frontier cpuCount s.boot ≤ c
  · rw [apStep_idle finishes (.inr (inv.unstarted c above))]
    exact inv
  · rcases inv.token with ⟨settled, -⟩ | ⟨spins, working⟩
    · rw [apStep_idle finishes (.inl (settled c positive (by omega)))]
      exact inv
    · by_cases mine : c = frontier cpuCount s.boot - 1
      · subst c
        exact tokenInv_working inv rfl spins working finishes
      · rw [apStep_idle finishes (.inl (working.below c positive (by omega)))]
        exact inv

theorem SmpRun.inv (run : SmpRun cpuCount s) : TokenInv cpuCount s := by
  induction run with
  | start =>
    refine ⟨trivial, fun _ _ => ⟨rfl, rfl⟩, .inl ⟨fun c positive small => ?_, rfl⟩⟩
    have : c < 1 := small
    omega
  | boot before ih => exact tokenInv_boot ih
  | ap before c known finishes ih => exact tokenInv_ap ih known.1 finishes

/-! ### One core at a time -/

/-- The only core that can be active: the boot processor when it does not wait for the lock, else the
core that was started last. -/
def tokenHolder (cpuCount : Nat) (s : Smp) (c : Nat) : Prop :=
  c = 0 ∧ ¬ s.boot.Spins ∨ 0 < c ∧ s.boot.Spins ∧ c + 1 = frontier cpuCount s.boot

theorem TokenInv.holder (inv : TokenInv cpuCount s) (active : Active s c) : tokenHolder cpuCount s c := by
  unfold Active at active
  split at active
  · rename_i boots
    refine .inl ⟨boots, fun spins => ?_⟩
    cases boot : s.boot with
    | aquire i => exact active.2 i boot
    | aquireLast => exact active.1 boot
    | _ =>
      rw [boot] at spins
      exact spins
  · rename_i applies
    have small : c < frontier cpuCount s.boot := by
      by_contra above
      exact active.1 (inv.unstarted c (by omega)).2
    rcases inv.token with ⟨settled, -⟩ | ⟨spins, working⟩
    · exact absurd (settled c (by omega) small) active.2
    · refine .inr ⟨by omega, spins, ?_⟩
      by_contra other
      exact active.2 (working.below c (by omega) (by omega))

/-- In every interleaving at most one core is active, so no core is in `alloc_pages` while another is
active, and after `init_smp` returned every application processor has released the lock. -/
theorem smp_bringUp_serial (run : SmpRun cpuCount s) :
    (∀ c d, Active s c → Active s d → c = d) ∧
    (∀ c d, 0 < c → InAllocPages s c → Active s d → d = c) ∧
    (s.boot = .report ∨ s.boot = .returned → ∀ c, 0 < c → c < cpuCount → Released s c) := by
  have inv := run.inv
  have single : ∀ c d, Active s c → Active s d → c = d := by
    intro c d first second
    rcases inv.holder first with ⟨rfl, waits⟩ | ⟨_, spins, here⟩
    · rcases inv.holder second with ⟨rfl, _⟩ | ⟨_, spins, _⟩
      · rfl
      · exact absurd spins waits
    · rcases inv.holder second with ⟨_, waits⟩ | ⟨_, _, there⟩
      · exact absurd spins waits
      · omega
  refine ⟨single, ?_, ?_⟩
  · rintro c d positive ⟨left, here⟩ active
    refine single d c active ?_
    rw [Active, if_neg (by omega), here]
    exact ⟨fun impossible => (by cases impossible), fun impossible => (by cases impossible)⟩
  · intro after c positive known
    have done : ¬ s.boot.Spins ∧ frontier cpuCount s.boot = max 1 cpuCount := by
      rcases after with boot | boot <;> rw [boot] <;> exact ⟨id, rfl⟩
    obtain ⟨settled, -⟩ := inv.token.resolve_right fun impossible => done.1 impossible.1
    exact settled c positive (by rw [done.2]; omega)

/-- The cores take their steps in a given order; the boot processor is core 0. -/
def runSchedule (cpuCount : Nat) : List (Nat × Bool) → Smp → Smp
  | [], s => s
  | (c, finishes) :: rest, s =>
    runSchedule cpuCount rest (if c = 0 then bootStep cpuCount s else apStep c finishes s)

theorem SmpRun.schedule {schedule : List (Nat × Bool)} (run : SmpRun cpuCount s)
    (known : ∀ a ∈ schedule, a.1 = 0 ∨ a.1 < cpuCount) : SmpRun cpuCount (runSchedule cpuCount schedule s) := by
  induction schedule generalizing s with
  | nil => exact run
  | cons a rest ih =>
    apply ih
    · by_cases boots : a.1 = 0
      · rw [if_pos boots]
        exact .boot run
      · rw [if_neg boots]
        have small := (known a (List.mem_cons_self ..)).resolve_left boots
        exact .ap run a.1 ⟨by omega, small⟩ a.2
    · exact fun b inside => known b (List.mem_cons_of_mem a inside)

/-- Core 1 of two is started, spins once more than it has to and runs `ap_entry` to its end. -/
def twoCores : List (Nat × Bool) :=
  List.replicate 3 (0, true) ++ (1, true) :: (0, true) :: (1, false) :: List.replicate 13 (1, true) ++
    List.replicate 2 (0, true)

theorem smp_bringUp_serial_twoCores :
    (runSchedule 2 twoCores {}).boot = .returned ∧ Released (runSchedule 2 twoCores {}) 1 := by
  have run : SmpRun 2 (runSchedule 2 twoCores {}) := SmpRun.start.schedule (by decide)
  have returned : (runSchedule 2 twoCores {}).boot = .returned := by decide
  exact ⟨returned, (smp_bringUp_serial run).2.2 (.inr returned) 1 (by decide) (by decide)⟩

end PotatOS.Processors
