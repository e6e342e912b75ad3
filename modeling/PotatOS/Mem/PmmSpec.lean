import PotatOS.Lib.Bitmap
import PotatOS.Mem.Pmm

/-!
# What `kmalloc` returns

`kmalloc_ok` says everything a returning call does: which entry and frames it
takes, and the exact state it leaves. Later proofs never unfold the search.
-/

namespace PotatOS.Mem

open Memory Prog

/-- Frames of a section that have a bit, with one page of bitmap. -/
def tracked (entry : MemmapEntry) : Nat := (entry.length - 4096) / 4096 / 8 * 8

theorem getBitmapReserved_ok {entry : MemmapEntry} {k k' : Kernel} {reserved : Nat}
    (h : getBitmapReserved entry k = .ok (reserved, k')) :
    4096 = reserved ∧ k = k' ∧ 1 ≤ entry.length / 4096 ∧ entry.length / 4096 ≤ 32768 := by
  have fits := entry.fits
  unfold getBitmapReserved at h
  split at h
  · rename_i enough
    obtain ⟨rfl, rfl⟩ := pure_ok h
    unfold sub64 at enough
    split at enough
    · exact ⟨rfl, rfl, by omega, by omega⟩
    · omega
  · exact (stop_ok h).elim

theorem getBitmapReserved_eq {entry : MemmapEntry} (k : Kernel) (some : 1 ≤ entry.length / 4096)
    (few : entry.length / 4096 ≤ 32768) : getBitmapReserved entry k = .ok (4096, k) := by
  have fits := entry.fits
  rw [getBitmapReserved, sub64_of_le some, if_pos (by omega)]
  rfl

theorem pagesInSection_eq {entry : MemmapEntry} (some : 1 ≤ entry.length / 4096) :
    pagesInSection entry 4096 = tracked entry := by
  have fits := entry.fits
  rw [pagesInSection, sub64_of_le (by omega), tracked]

theorem tracked_fits {entry : MemmapEntry} (some : 1 ≤ entry.length / 4096) :
    4096 + tracked entry * 4096 ≤ entry.length := by
  unfold tracked
  omega

theorem bitmapBit_eq (m : Mem) (start f : Nat) : bitmapBit m start f = Bitmap.bit m start f := by
  unfold bitmapBit Bitmap.bit Nat.testBit
  rw [Nat.and_comm]
  have bits := Nat.mod_two_eq_zero_or_one ((m (start + f / 8)).toNat >>> (f % 8))
  rw [Nat.one_and_eq_mod_two]
  rcases bits with zero | one
  · simp [zero]
  · simp [one]

theorem allocatePage_eq (entry : MemmapEntry) (f : Nat) (k : Kernel) :
    allocatePage entry f k = .ok ((), k.setMem (Bitmap.mark k.mem (entry.base + k.hhdm) f)) := by
  unfold allocatePage Bitmap.mark
  rw [run_modify]
  by_cases zero : f % 8 = 0
  · simp [zero]
  · simp [zero, Nat.shiftLeft_eq]

theorem allocatePages_eq (entry : MemmapEntry) (f n : Nat) (k : Kernel) :
    allocatePages entry f n k = .ok ((), k.setMem (Bitmap.markRun k.mem (entry.base + k.hhdm) f n)) := by
  induction n generalizing f k with
  | zero => rfl
  | succ n ih =>
    rw [allocatePages, bind_eq (allocatePage_eq entry f k), ih]
    rfl

/-- The section has `n` free frames from `f` on. -/
def RunFree (k : Kernel) (entry : MemmapEntry) (f n : Nat) : Prop :=
  f + n ≤ tracked entry ∧ ∀ i < n, Bitmap.bit k.mem (entry.base + k.hhdm) (f + i) = false

theorem checkPagesAvaliable_iff {k : Kernel} {entry : MemmapEntry} {f n : Nat}
    (usable : entry.type = .usable) (some : 1 ≤ entry.length / 4096) (few : entry.length / 4096 ≤ 32768)
    (frame : f < 2 ^ 64 - 2 ^ 32) :
    checkPagesAvaliable k entry f n 4096 = true ↔ RunFree k entry f n := by
  have room : tracked entry < 32768 := by unfold tracked; omega
  unfold checkPagesAvaliable RunFree
  simp only [pagesInSection_eq some, usable, ne_eq, not_true_eq_false, if_false]
  -- A sum that wraps comes from an `n` above the number of tracked frames.
  by_cases fits : f + n ≤ tracked entry
  · rw [add64_of_lt (by omega), if_neg (by omega), if_neg (by omega)]
    simp [fits, bitmapBit_eq]
  · simp only [fits, false_and, iff_false, Bool.not_eq_true]
    split
    · rfl
    · rename_i small
      unfold add64 at small
      rw [if_pos (by omega)]

theorem firstAvaliable_some {k : Kernel} {entry : MemmapEntry} {n f : Nat}
    (usable : entry.type = .usable) (some : 1 ≤ entry.length / 4096) (few : entry.length / 4096 ≤ 32768)
    (h : firstAvaliable k entry n 4096 = Option.some f) : RunFree k entry f n := by
  have fits := entry.fits
  unfold firstAvaliable at h
  obtain ⟨byte, inBytes, inner⟩ := List.exists_of_findSome?_eq_some h
  obtain ⟨bit, inBits, found⟩ := List.exists_of_findSome?_eq_some inner
  split at found
  · rename_i avaliable
    obtain rfl := Option.some.inj found
    have byteBound := List.mem_range.mp inBytes
    rw [sub64_of_le (by omega)] at byteBound
    have bitBound := List.mem_range.mp inBits
    exact (checkPagesAvaliable_iff usable some few (by omega)).mp avaliable
  · cases found

/-- The state after `n` frames from `f` of `entry` are handed out. -/
def grantRun (k : Kernel) (owner : Owner) (entry : MemmapEntry) (f n : Nat) : Kernel :=
  let addr := entry.base + f * 4096 + 4096
  { k with
    mem := fill (Bitmap.markRun k.mem (entry.base + k.hhdm) f n) (addr + k.hhdm) (n * 4096) 0
    totalMemoryAllocated := add64 k.totalMemoryAllocated (n * 4096)
    granted := k.granted ++ [⟨owner, addr, n⟩] }

theorem takeRun_eq (owner : Owner) (entry : MemmapEntry) (f n : Nat) (k : Kernel) :
    takeRun owner entry f n 4096 k = .ok (entry.base + f * 4096 + 4096, grantRun k owner entry f n) := by
  unfold takeRun
  rw [bind_eq (allocatePages_eq entry f n k)]
  rfl

theorem searchSections_ok {owner : Owner} {n addr : Nat} {sections : List MemmapEntry} {k k' : Kernel}
    (h : searchSections owner n sections k = .ok (addr, k')) :
    ∃ entry ∈ sections, entry.type = .usable ∧ 1 ≤ entry.length / 4096 ∧
      entry.length / 4096 ≤ 32768 ∧ ∃ f, RunFree k entry f n ∧
      addr = entry.base + f * 4096 + 4096 ∧ k' = grantRun k owner entry f n := by
  induction sections with
  | nil => exact (stop_ok h).elim
  | cons entry rest ih =>
    rw [searchSections] at h
    split at h
    · obtain ⟨other, member, found⟩ := ih h
      exact ⟨other, List.mem_cons_of_mem _ member, found⟩
    · rename_i usable
      have usable : entry.type = .usable := by simpa using usable
      obtain ⟨reserved, k₁, sized, h⟩ := bind_ok h
      obtain ⟨rfl, rfl, some, few⟩ := getBitmapReserved_ok sized
      obtain ⟨_, _, same, h⟩ := bind_ok h
      obtain ⟨rfl, rfl⟩ := get_ok same
      cases found : firstAvaliable k entry n 4096 with
      | some f =>
        rw [found] at h
        have taken := (takeRun_eq owner entry f n k).symm.trans h
        obtain ⟨rfl, rfl⟩ := Prod.mk.inj (Except.ok.inj taken)
        exact ⟨entry, List.mem_cons_self, usable, some, few, f,
          firstAvaliable_some usable some few found, rfl, rfl⟩
      | none =>
        rw [found] at h
        obtain ⟨other, member, found⟩ := ih h
        exact ⟨other, List.mem_cons_of_mem _ member, found⟩

/-- The shortcut is off: nothing was ever freed. -/
theorem lastFreedFits_false {k : Kernel} (none : k.lastFreedPage = -1) (n : Nat) :
    lastFreedFits k n = false := by
  simp [lastFreedFits, none]

theorem kmalloc_ok {owner : Owner} {n addr : Nat} {k k' : Kernel} (none : k.lastFreedPage = -1)
    (h : kmalloc owner n k = .ok (addr, k')) :
    1 ≤ n ∧ ∃ entry ∈ k.memmap, entry.type = .usable ∧ 1 ≤ entry.length / 4096 ∧
      entry.length / 4096 ≤ 32768 ∧ ∃ f, RunFree k entry f n ∧
      addr = entry.base + f * 4096 + 4096 ∧ k' = grantRun k owner entry f n := by
  unfold kmalloc at h
  split at h
  · exact (stop_ok h).elim
  · rw [bind_eq run_get, lastFreedFits_false none] at h
    simp only [Bool.false_eq_true, if_false] at h
    exact ⟨by omega, searchSections_ok h⟩

end PotatOS.Mem
