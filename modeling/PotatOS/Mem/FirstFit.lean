import PotatOS.Mem.KheapRuns

/-!
# `kmalloc` searches first fit

The loops over entries, bitmap bytes and bits are one search over the frames of
the usable entries in map order. `kmalloc_first_fit` says which run a call
returns, which bits it sets, and that it halts when there is no run.
-/

namespace PotatOS.Mem

open Memory Prog

/-- The usable entries do not overlap and have 1 to 32768 pages each. -/
structure UsableMap (memmap : List MemmapEntry) : Prop where
  apart : (usableEntries memmap).Pairwise fun e f => Apart e.base e.length f.base f.length
  sized : ∀ e ∈ memmap, e.type = .usable → 1 ≤ e.length / 4096 ∧ e.length / 4096 ≤ 32768

theorem UsableMap.entries_apart {memmap : List MemmapEntry} (map : UsableMap memmap) {e f : MemmapEntry}
    (he : e ∈ memmap) (hf : f ∈ memmap) (usable : e.type = .usable) (usable' : f.type = .usable) (other : e ≠ f) :
    Apart e.base e.length f.base f.length := by
  have symmetric : Std.Symm fun e f : MemmapEntry => Apart e.base e.length f.base f.length :=
    ⟨fun _ _ => apart_comm.mp⟩
  exact map.apart.forall (mem_usableEntries.mpr ⟨he, usable⟩) (mem_usableEntries.mpr ⟨hf, usable'⟩) other

/-- Entry `entry` is the first usable one with `n` free frames in a row, and `f` is the lowest frame they start at. -/
structure FirstFit (k : Kernel) (sections : List MemmapEntry) (n : Nat) (entry : MemmapEntry) (f : Nat) : Prop where
  usable : entry.type = .usable
  first : ∃ before after, sections = before ++ entry :: after ∧
    ∀ e ∈ before, e.type = .usable → ∀ g, ¬ RunFree k e g n
  free : RunFree k entry f n
  lowest : ∀ g < f, ¬ RunFree k entry g n

/-- No usable entry has `n` free frames in a row. -/
def NoRun (k : Kernel) (sections : List MemmapEntry) (n : Nat) : Prop :=
  ∀ e ∈ sections, e.type = .usable → ∀ f, ¬ RunFree k e f n

/-- A call marks the frames of its run, in the bitmap of its entry and nowhere else. -/
def SetsRun (k k' : Kernel) (entry : MemmapEntry) (f n : Nat) : Prop :=
  ∀ e ∈ k.memmap, e.type = .usable → ∀ g < 32768, Bitmap.bit k'.mem (e.base + k.hhdm) g =
    (decide (e = entry ∧ f ≤ g ∧ g < f + n) || Bitmap.bit k.mem (e.base + k.hhdm) g)

/-! ### The loops over one entry -/

theorem range_bytes (bytes : Nat) :
    List.range (bytes * 8) = (List.range bytes).flatMap fun byte => (List.range 8).map (· + byte * 8) := by
  induction bytes with
  | zero => rfl
  | succ bytes ih =>
    have last : List.range (bytes + 1) = List.range bytes ++ [bytes] := List.range_succ
    rw [Nat.succ_mul, List.range_add, ih, last, List.flatMap_append, List.flatMap_singleton]
    apply congrArg
    apply List.map_congr_left
    intro bit _
    exact Nat.add_comm ..

section entry

variable {k : Kernel} {entry : MemmapEntry} {n : Nat} (usable : entry.type = .usable)
  (some : 1 ≤ entry.length / 4096) (few : entry.length / 4096 ≤ 32768)
include some

theorem firstAvaliable_eq : firstAvaliable k entry n 4096 =
    (List.range (tracked entry)).find? fun f => checkPagesAvaliable k entry f n 4096 := by
  have fits := entry.fits
  unfold firstAvaliable tracked
  rw [sub64_of_le (by omega), range_bytes, List.find?_flatMap]
  apply congrArg (List.findSome? · _)
  funext byte
  rw [← List.findSome?_guard, List.findSome?_map]
  rfl

include usable few

theorem firstAvaliable_iff {f : Nat} (pages : 1 ≤ n) : firstAvaliable k entry n 4096 = Option.some f ↔
    RunFree k entry f n ∧ ∀ g < f, ¬ RunFree k entry g n := by
  have small := tracked_lt few
  have check {g : Nat} (inside : g ≤ tracked entry) := checkPagesAvaliable_iff (k := k) (f := g) (n := n) usable some few
    (by omega)
  rw [firstAvaliable_eq some, List.find?_range_eq_some]
  constructor
  · rintro ⟨avaliable, inside, lower⟩
    have inside := List.mem_range.mp inside
    refine ⟨(check (by omega)).mp avaliable, fun g less free => ?_⟩
    have missed := lower g less
    rw [(check (by omega)).mpr free] at missed
    cases missed
  · rintro ⟨free, lower⟩
    have inside : f < tracked entry := by
      have := free.1
      omega
    refine ⟨(check (by omega)).mpr free, List.mem_range.mpr inside, fun g less => ?_⟩
    cases avaliable : checkPagesAvaliable k entry g n 4096 with
    | false => rfl
    | true => exact absurd ((check (by omega)).mp avaliable) (lower g less)

theorem firstAvaliable_none (pages : 1 ≤ n) : firstAvaliable k entry n 4096 = Option.none ↔
    ∀ f, ¬ RunFree k entry f n := by
  have small := tracked_lt few
  rw [firstAvaliable_eq some, List.find?_range_eq_none]
  constructor
  · intro missed f free
    have inside := free.1
    have busy := missed f (by omega)
    rw [(checkPagesAvaliable_iff usable some few (by omega)).mpr free] at busy
    cases busy
  · intro none f inside
    cases avaliable : checkPagesAvaliable k entry f n 4096 with
    | false => rfl
    | true => exact absurd ((checkPagesAvaliable_iff usable some few (by omega)).mp avaliable) (none f)

end entry

/-! ### The loop over the entries -/

section search

variable {k : Kernel} {sections : List MemmapEntry} {entry : MemmapEntry} {n f : Nat}

theorem searchSections_skip (owner : Owner) {e : MemmapEntry} {rest : List MemmapEntry} (pages : 1 ≤ n)
    (sized : e.type = .usable → 1 ≤ e.length / 4096 ∧ e.length / 4096 ≤ 32768)
    (none : e.type = .usable → ∀ g, ¬ RunFree k e g n) :
    searchSections owner n (e :: rest) k = searchSections owner n rest k := by
  rw [searchSections]
  split
  · rfl
  · rename_i usable
    have usable : e.type = .usable := by simpa using usable
    obtain ⟨some, few⟩ := sized usable
    rw [bind_eq (getBitmapReserved_eq k some few), bind_eq run_get,
      (firstAvaliable_none usable some few pages).mpr (none usable)]

theorem searchSections_halts (owner : Owner) (pages : 1 ≤ n)
    (sized : ∀ e ∈ sections, e.type = .usable → 1 ≤ e.length / 4096 ∧ e.length / 4096 ≤ 32768)
    (none : NoRun k sections n) : searchSections owner n sections k = .error .halt := by
  induction sections with
  | nil => rfl
  | cons e rest ih =>
    rw [searchSections_skip owner pages (sized e List.mem_cons_self) (none e List.mem_cons_self)]
    exact ih (fun e inside => sized e (List.mem_cons_of_mem _ inside))
      fun e inside => none e (List.mem_cons_of_mem _ inside)

theorem searchSections_first (owner : Owner) (pages : 1 ≤ n)
    (sized : ∀ e ∈ sections, e.type = .usable → 1 ≤ e.length / 4096 ∧ e.length / 4096 ≤ 32768)
    (fit : FirstFit k sections n entry f) :
    searchSections owner n sections k = .ok (entry.base + f * 4096 + 4096, grantRun k owner entry f n) := by
  obtain ⟨usable, ⟨before, after, rfl, none⟩, free, lowest⟩ := fit
  induction before with
  | nil =>
    obtain ⟨some, few⟩ := sized entry List.mem_cons_self usable
    have found := (firstAvaliable_iff usable some few pages).mpr ⟨free, lowest⟩
    rw [List.nil_append, searchSections, if_neg (by simpa using usable), bind_eq (getBitmapReserved_eq k some few),
      bind_eq run_get, found]
    exact takeRun_eq owner entry f n k
  | cons e before ih =>
    rw [List.cons_append, searchSections_skip owner pages (sized e List.mem_cons_self) (none e List.mem_cons_self)]
    exact ih (fun e inside => none e (List.mem_cons_of_mem _ inside))
      fun e inside => sized e (List.mem_cons_of_mem _ inside)

/-- There is a first fit unless there is no run at all. -/
theorem exists_firstFit (k : Kernel) (sections : List MemmapEntry) (n : Nat) :
    NoRun k sections n ∨ ∃ entry f, FirstFit k sections n entry f := by
  classical
  induction sections with
  | nil => exact .inl fun e inside => by cases inside
  | cons e rest ih =>
    by_cases here : e.type = .usable ∧ ∃ f, RunFree k e f n
    · obtain ⟨usable, some⟩ := here
      refine .inr ⟨e, Nat.find some, usable, ⟨[], rest, rfl, fun e inside => by cases inside⟩, Nat.find_spec some, ?_⟩
      exact fun g less => Nat.find_min some less
    · have missed : e.type = .usable → ∀ f, ¬ RunFree k e f n := fun usable f free => here ⟨usable, f, free⟩
      rcases ih with none | ⟨entry, f, usable, ⟨before, after, rfl, none⟩, free, lowest⟩
      · refine .inl fun e' inside => ?_
        rcases List.mem_cons.mp inside with rfl | inside
        · exact missed
        · exact none e' inside
      · refine .inr ⟨entry, f, usable, ⟨e :: before, after, rfl, fun e' inside => ?_⟩, free, lowest⟩
        rcases List.mem_cons.mp inside with rfl | inside
        · exact missed
        · exact none e' inside

theorem FirstFit.member (fit : FirstFit k sections n entry f) : entry ∈ sections := by
  obtain ⟨before, after, rfl, -⟩ := fit.first
  simp

theorem setsRun_grantRun {owner : Owner} (map : UsableMap k.memmap) (fit : FirstFit k k.memmap n entry f) :
    SetsRun k (grantRun k owner entry f n) entry f n := by
  intro e member usable g small
  obtain ⟨some, few⟩ := map.sized entry fit.member fit.usable
  by_cases same : e = entry
  · subst e
    simpa using bit_grantRun_self small
  · have page : (grantRun k owner entry f n).mem (e.base + g / 8 + k.hhdm) = k.mem (e.base + g / 8 + k.hhdm) :=
      grantRun_other_bitmap (tracked_fits some) (tracked_lt few) fit.free.1
        (map.entries_apart fit.member member fit.usable usable (Ne.symm same)) (map.sized e member usable).1 (by omega)
    rw [Nat.add_right_comm] at page
    simp [same, Bitmap.bit_congr page]

end search

/-! ### Every state that calls can reach -/

/-- `initPMM` turns the shortcut off, and nothing turns it on. -/
theorem PmmRun.shortcut {boot k : Kernel} {runs : List (Nat × Nat)} (run : PmmRun boot k runs) :
    k.lastFreedPage = -1 ∧ k.memmap = boot.memmap := by
  induction run with
  | boot h =>
    unfold initPMM at h
    rw [bind_eq run_get] at h
    obtain ⟨_, _, cleared, h⟩ := bind_ok h
    obtain rfl := modify_ok h
    obtain ⟨_, rfl, _⟩ := initBitmaps_ok cleared
    exact ⟨rfl, rfl⟩
  | kmalloc owner before pages h ih =>
    obtain ⟨_, e, _, _, _, _, f, _, rfl, rfl⟩ := kmalloc_ok ih.1 h
    exact ih
  | write before member inside ih => exact ih

/-- `kmalloc` is an exact first-fit search over the tracked frames of the usable entries. -/
theorem kmalloc_first_fit {boot k : Kernel} {runs : List (Nat × Nat)} (map : UsableMap boot.memmap)
    (run : PmmRun boot k runs) (owner : Owner) (n : Nat) (pages : 1 ≤ n) :
    (∀ entry f, FirstFit k boot.memmap n entry f → ∃ k', SetsRun k k' entry f n ∧
      kmalloc owner n k = .ok (entry.base + f * 4096 + 4096, k')) ∧
    (kmalloc owner n k = .error .halt ↔ NoRun k boot.memmap n) ∧
    ((∃ addr k', kmalloc owner n k = .ok (addr, k')) ↔ ∃ entry f, FirstFit k boot.memmap n entry f) ∧
    ∀ e ∈ boot.memmap, e.type = .usable → ∀ f < tracked e, 2 ^ 64 ≤ f + n →
      checkPagesAvaliable k e f n 4096 = false := by
  obtain ⟨off, same⟩ := run.shortcut
  rw [← same] at map ⊢
  have search : kmalloc owner n k = searchSections owner n k.memmap k := by
    rw [kmalloc, if_neg (by omega), bind_eq run_get, lastFreedFits_false off]
    rfl
  rw [search]
  have found {entry f} (fit : FirstFit k k.memmap n entry f) := searchSections_first owner pages map.sized fit
  have halts (none : NoRun k k.memmap n) := searchSections_halts owner pages map.sized none
  refine ⟨fun entry f fit => ⟨_, setsRun_grantRun map fit, found fit⟩, ⟨fun halted => ?_, halts⟩,
    ⟨fun returns => ?_, fun fits => ?_⟩, fun e member usable f inside wraps => ?_⟩
  · refine (exists_firstFit k k.memmap n).resolve_right ?_
    rintro ⟨entry, f, fit⟩
    rw [found fit] at halted
    cases halted
  · refine (exists_firstFit k k.memmap n).resolve_left fun none => ?_
    obtain ⟨addr, k', returned⟩ := returns
    rw [halts none] at returned
    cases returned
  · obtain ⟨entry, f, fit⟩ := fits
    exact ⟨_, _, found fit⟩
  · obtain ⟨some, few⟩ := map.sized e member usable
    have small := tracked_lt few
    cases avaliable : checkPagesAvaliable k e f n 4096 with
    | false => rfl
    | true =>
      have free := (checkPagesAvaliable_iff usable some few (by omega)).mp avaliable
      have := free.1
      omega

/-- The only section of `smallMachine`. -/
abbrev smallSection : MemmapEntry := ⟨0, 64 * 4096, .usable, smallSection_fits⟩

/-- One frame was handed out; three more start at frame 1. -/
theorem kmalloc_first_fit_smallMachine : ∃ k k', PmmRun smallMachine k [(4096, 1)] ∧
    kmalloc .heap 3 k = .ok (8192, k') ∧ SetsRun k k' smallSection 1 3 := by
  have booted : initPMM smallMachine = .ok ((), smallMachineReady) := rfl
  have taken : kmalloc .heap 1 smallMachineReady = .ok (4096, grantRun smallMachineReady .heap smallSection 0 1) := rfl
  have run : PmmRun smallMachine (grantRun smallMachineReady .heap smallSection 0 1) ([] ++ [(4096, 1)]) :=
    .kmalloc .heap (.boot booted) (by decide) taken
  have map : UsableMap smallMachine.memmap := ⟨by simp [smallMachine, usableEntries], smallMachine_map.sized⟩
  have fit : FirstFit (grantRun smallMachineReady .heap smallSection 0 1) smallMachine.memmap 3 smallSection 1 := by
    refine ⟨rfl, ⟨[], [], rfl, fun e inside => by cases inside⟩, ?_, ?_⟩ <;> unfold RunFree <;> decide
  obtain ⟨k', sets, returned⟩ := (kmalloc_first_fit map run .heap 3 (by decide)).1 smallSection 1 fit
  exact ⟨_, k', run, returned, sets⟩

end PotatOS.Mem
