import PotatOS.Tasks.Exit
import Mathlib.Data.List.Perm.Subperm

/-!
# What each core gets over a run

Sections of `task_select` on any number of cores, with creations, first
executions and exits between them. The wrap test never comes true, so the index
of a core only grows: a task that a core left does not come back to that core.
-/

namespace PotatOS.Tasks

open Mem Prog

/-- A run with the tasks that each core got, in order. -/
inductive GotRun (start : Tasklist) : Tasklist → (Nat → List Nat) → Prop where
  | start : GotRun start start fun _ => []
  | select {s s' : Tasklist} {got : Nat → List Nat} {r : Option Nat} (cpu : Nat) (before : GotRun start s got)
      (known : cpu < s.currentTasks.length) (h : selectSection cpu s = .ok (r, s')) :
      GotRun start s' (Function.update got cpu (got cpu ++ r.toList))
  | create {s s' : Tasklist} {got : Nat → List Nat} {pml4Addr entryPoint userStack pid : Nat} {flags : UInt8} (cpu : Nat)
      (before : GotRun start s got) (h : createTask cpu pml4Addr entryPoint userStack flags s = .ok (pid, s')) :
      GotRun start s' got
  | adopt {s s' : Tasklist} {got : Nat → List Nat} {pid mmapUpto errno argc argv : Nat} (cpu : Nat)
      (before : GotRun start s got) (h : adoptTask cpu pid mmapUpto errno argc argv s = .ok ((), s')) :
      GotRun start s' got
  | firstExec {s s' : Tasklist} {got : Nat → List Nat} {pid : Nat} (before : GotRun start s got)
      (h : taskDisableFirstExec pid s = .ok ((), s')) : GotRun start s' got
  | exit {s s' : Tasklist} {got : Nat → List Nat} {exitCode : Nat} (cpu : Nat) (before : GotRun start s got)
      (h : syscallExit cpu exitCode s = .ok ((), s')) : GotRun start s' got

/-- The list may grow, and no core moves. -/
def Still (s s' : Tasklist) : Prop := s.list.length ≤ s'.list.length ∧ s'.currentTasks = s.currentTasks

section still

variable {s s' : Tasklist} {cpu : Nat}

theorem still_modifyTask {pid : Nat} {f : Task → Task} (h : modifyTask pid f s = .ok ((), s')) : Still s s' := by
  obtain ⟨_, rfl⟩ := modifyTask_ok h
  simp [Still, Vec.length]

theorem still_createTask {pml4Addr entryPoint userStack pid : Nat} {flags : UInt8}
    (h : createTask cpu pml4Addr entryPoint userStack flags s = .ok (pid, s')) : Still s s' :=
  ⟨(grown_createTask h).1, (createTask_settled h).2.1⟩

theorem still_adoptTask {pid mmapUpto errno argc argv : Nat}
    (h : adoptTask cpu pid mmapUpto errno argc argv s = .ok ((), s')) : Still s s' := by
  unfold adoptTask at h
  rw [bind_eq run_get] at h
  exact still_modifyTask h

theorem still_syscallExit {exitCode : Nat} (h : syscallExit cpu exitCode s = .ok ((), s')) : Still s s' := by
  refine ⟨(grown_syscallExit h).1, ?_⟩
  cases current : getCurrentTask s cpu with
  | none =>
    unfold syscallExit at h
    rw [bind_eq run_get, bind_eq run_get, current] at h
    rw [(pure_ok h).2]
  | some task =>
    by_cases user : task.isUser = true
    · exact (syscallExit_settled current user h).1
    · unfold syscallExit at h
      rw [bind_eq run_get, bind_eq run_get, current] at h
      dsimp only at h
      rw [if_pos (by simpa using user)] at h
      rw [(pure_ok h).2]

/-- One section on a list of two tasks or more: the core moves to the next index, whatever it gets. -/
theorem section_moves {r : Option Nat} (known : cpu < s.currentTasks.length) (many : 2 ≤ s.list.length)
    (h : selectSection cpu s = .ok (r, s')) :
    currentIndex s' cpu = currentIndex s cpu + 1 ∧ currentIndex s cpu + 1 < s.list.length ∧
      (∀ other ≠ cpu, currentIndex s' other = currentIndex s other) ∧ ∀ pid, r = some pid → pid = currentIndex s cpu + 1 := by
  have inside : currentIndex s cpu < s.list.length := by
    by_contra past
    unfold selectSection modifyTask at h
    rw [bind_eq run_get, bind_error (by rw [bind_eq run_get, if_neg past]; rfl)] at h
    cases h
  have index : currentIndex (candidateState s cpu) cpu = currentIndex s cpu + 1 := currentIndex_moveTo known
  have others : ∀ other ≠ cpu, currentIndex (candidateState s cpu) other = currentIndex s other := fun other away =>
    currentIndex_moveTo_other away
  rw [selectSection_eq known inside (by omega)] at h
  cases found : getTask (candidateState s cpu) (currentIndex s cpu + 1) with
  | none =>
    rw [found] at h
    cases h
  | some task =>
    rw [found] at h
    have more := getTask_lt found
    simp only [candidateState, length_moveTo, length_clearRunning] at more
    dsimp only at h
    split at h
    · obtain ⟨rfl, rfl⟩ := Prod.mk.inj (Except.ok.inj h)
      exact ⟨index, more, others, fun pid same => (Option.some.inj same).symm⟩
    · obtain ⟨rfl, rfl⟩ := Prod.mk.inj (Except.ok.inj h)
      exact ⟨index, more, others, fun pid same => by cases same⟩

end still

/-- The tasks of core `cpu` so far lie between its first index and its present one. -/
structure Ascending (start s : Tasklist) (cpu : Nat) (got : List Nat) : Prop where
  many : 2 ≤ s.list.length
  known : cpu < s.currentTasks.length
  onward : currentIndex start cpu ≤ currentIndex s cpu
  sorted : got.Pairwise (· < ·)
  between : ∀ pid ∈ got, currentIndex start cpu < pid ∧ pid ≤ currentIndex s cpu ∧ pid < s.list.length

namespace Ascending

variable {start s s' : Tasklist} {cpu : Nat} {got : List Nat}

theorem still (before : Ascending start s cpu got) (kept : Still s s') : Ascending start s' cpu got := by
  obtain ⟨longer, cores⟩ := kept
  have index : currentIndex s' cpu = currentIndex s cpu := by rw [currentIndex, cores]; rfl
  refine ⟨Nat.le_trans before.many longer, by rw [cores]; exact before.known, by rw [index]; exact before.onward,
    before.sorted, fun pid listed => ?_⟩
  obtain ⟨above, below, inside⟩ := before.between pid listed
  exact ⟨above, by rw [index]; exact below, Nat.lt_of_lt_of_le inside longer⟩

theorem other {mover : Nat} {r : Option Nat} (before : Ascending start s cpu got) (away : cpu ≠ mover)
    (known : mover < s.currentTasks.length) (h : selectSection mover s = .ok (r, s')) : Ascending start s' cpu got := by
  obtain ⟨longer, cores⟩ := grown_selectSection h
  have index := (section_moves known before.many h).2.2.1 cpu away
  refine ⟨Nat.le_trans before.many longer, by rw [cores]; exact before.known, by rw [index]; exact before.onward,
    before.sorted, fun pid listed => ?_⟩
  obtain ⟨above, below, inside⟩ := before.between pid listed
  exact ⟨above, by rw [index]; exact below, Nat.lt_of_lt_of_le inside longer⟩

theorem own {r : Option Nat} (before : Ascending start s cpu got) (h : selectSection cpu s = .ok (r, s')) :
    Ascending start s' cpu (got ++ r.toList) := by
  obtain ⟨longer, cores⟩ := grown_selectSection h
  obtain ⟨index, more, _, taken⟩ := section_moves before.known before.many h
  have onward := before.onward
  refine ⟨Nat.le_trans before.many longer, by rw [cores]; exact before.known, by omega, ?_, fun pid listed => ?_⟩
  · rw [List.pairwise_append]
    refine ⟨before.sorted, ?_, fun old earlier new here => ?_⟩
    · cases r <;> simp
    · rw [taken new (Option.mem_toList.mp here)]
      have below := (before.between old earlier).2.1
      omega
  · rcases List.mem_append.mp listed with earlier | here
    · obtain ⟨above, below, inside⟩ := before.between pid earlier
      exact ⟨above, by omega, Nat.lt_of_lt_of_le inside longer⟩
    · rw [taken pid (Option.mem_toList.mp here), index]
      exact ⟨by omega, Nat.le_refl _, Nat.lt_of_lt_of_le more longer⟩

end Ascending

/-- From two tasks on, the tasks that a core gets increase: it gets no task twice, and fewer tasks than there are. -/
theorem core_gets_ascending {start s : Tasklist} {got : Nat → List Nat} (many : 2 ≤ start.list.length)
    (run : GotRun start s got) {cpu : Nat} (known : cpu < start.currentTasks.length) :
    (got cpu).Pairwise (· < ·) ∧ (∀ pid ∈ got cpu, currentIndex start cpu < pid ∧ pid < s.list.length) ∧
      (got cpu).length < s.list.length := by
  have ascending : Ascending start s cpu (got cpu) := by
    induction run with
    | start => exact ⟨many, known, Nat.le_refl _, List.Pairwise.nil, fun _ listed => by cases listed⟩
    | select mover before inside h ih =>
      by_cases mine : cpu = mover
      · subst mine
        rw [Function.update_self]
        exact ih.own h
      · rw [Function.update_of_ne mine]
        exact ih.other mine inside h
    | create mover before h ih => exact ih.still (still_createTask h)
    | adopt mover before h ih => exact ih.still (still_adoptTask h)
    | firstExec before h ih => exact ih.still (still_modifyTask h)
    | exit mover before h ih => exact ih.still (still_syscallExit h)
  refine ⟨ascending.sorted, fun pid listed => ?_, ?_⟩
  · obtain ⟨above, _, inside⟩ := ascending.between pid listed
    exact ⟨above, inside⟩
  · -- The tasks are distinct numbers from 1 on.
    have distinct : (got cpu).Nodup := ascending.sorted.imp fun less => Nat.ne_of_lt less
    have listed : got cpu ⊆ List.range' 1 (s.list.length - 1) := by
      intro pid member
      obtain ⟨above, _, inside⟩ := ascending.between pid member
      rw [List.mem_range'_1]
      omega
    have short := (List.Nodup.subperm distinct listed).length_le
    rw [List.length_range'] at short
    have some := ascending.many
    omega

/-- One core gets the two tasks behind the first one. -/
theorem core_gets_ascending_threeTasks : ∃ s got, GotRun siblingSpawned s got ∧ got 0 = [1, 2] ∧
    (got 0).length < s.list.length := by
  have first : GotRun siblingSpawned childSelected _ :=
    .select 0 .start (by decide) (show selectSection 0 _ = .ok (some 1, _) from rfl)
  have second := GotRun.select 0 first (by decide) (show selectSection 0 childSelected = .ok (some 2, _) from rfl)
  exact ⟨_, _, second, rfl, (core_gets_ascending (by decide) second (by decide)).2.2⟩

end PotatOS.Tasks
