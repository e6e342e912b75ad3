import PotatOS.Mem.PmmSpec

/-!
# The size of a section's bitmap

`get_bitmap_reserved` tests one page of bitmap only: its counter never moves, so
the search ends at once or never.
-/

namespace PotatOS.Mem

open Prog

/-- One round of the loop: the reserved bytes, or nothing and the loop goes on with the
same `n`. The product is one of `uint32_t`, the difference one of `uint64_t`. -/
def sizeRound (length n : Nat) : Option Nat :=
  if n * 4096 * 8 % 2 ^ 32 > sub64 (length / 4096) n then some (n * 4096 % 2 ^ 32) else none

/-- The first `fuel` rounds. -/
def sizeLoop (length n : Nat) : Nat → Option Nat
  | 0 => none
  | fuel + 1 => (sizeRound length n).or (sizeLoop length n fuel)

theorem sizeLoop_succ (length n fuel : Nat) : sizeLoop length n (fuel + 1) = sizeRound length n := by
  induction fuel with
  | zero => simp [sizeLoop]
  | succ fuel ih =>
    rw [sizeLoop, ih]
    cases sizeRound length n <;> rfl

theorem getBitmapReserved_round (entry : MemmapEntry) (k : Kernel) :
    getBitmapReserved entry k = (sizeRound entry.length 1).elim (.error .hang) fun reserved => .ok (reserved, k) := by
  unfold getBitmapReserved sizeRound
  by_cases enough : 1 * 4096 * 8 > sub64 (entry.length / 4096) 1
  · simp [enough]
  · simp [enough]

/-- The call returns what some number of rounds finds. -/
theorem getBitmapReserved_returns_iff {entry : MemmapEntry} {k : Kernel} {reserved : Nat} :
    getBitmapReserved entry k = .ok (reserved, k) ↔ ∃ fuel, sizeLoop entry.length 1 fuel = some reserved := by
  rw [getBitmapReserved_round]
  constructor
  · intro h
    cases round : sizeRound entry.length 1 with
    | none => simp [round] at h
    | some r =>
      obtain rfl : r = reserved := by simpa [round] using h
      exact ⟨1, (sizeLoop_succ _ _ 0).trans round⟩
  · rintro ⟨fuel, found⟩
    cases fuel with
    | zero => cases found
    | succ fuel =>
      rw [sizeLoop_succ] at found
      simp [found]

theorem getBitmapReserved_hangs_iff {entry : MemmapEntry} {k : Kernel} :
    getBitmapReserved entry k = .error .hang ↔ ∀ fuel, sizeLoop entry.length 1 fuel = none := by
  rw [getBitmapReserved_round]
  constructor
  · intro h fuel
    cases fuel with
    | zero => rfl
    | succ fuel =>
      rw [sizeLoop_succ]
      cases round : sizeRound entry.length 1 with
      | none => rfl
      | some r => simp [round] at h
  · intro never
    have round := (sizeLoop_succ _ _ 0).symm.trans (never 1)
    simp [round]

/-- The least number of bitmap pages whose bits outnumber the frames behind them. -/
def LeastBitmap (length n : Nat) : Prop :=
  1 ≤ n ∧ length / 4096 - n < n * 32768 ∧ ∀ m, 1 ≤ m → length / 4096 - m < m * 32768 → n ≤ m

/-- The bitmap of `entry` is found, is the least one, and has a bit of its own for each
frame that the search of `kmalloc` can choose. -/
def BitmapSized (entry : MemmapEntry) (k : Kernel) : Prop :=
  ∃ n, LeastBitmap entry.length n ∧ getBitmapReserved entry k = .ok (4096 * n, k) ∧
    ∀ k' pages f, firstAvaliable k' entry pages (4096 * n) = some f →
      ∀ i < pages, (f + i) / 8 < 4096 * n ∧ 4096 * n + (f + i + 1) * 4096 ≤ entry.length

theorem getBitmapReserved_hang {entry : MemmapEntry} (k : Kernel) (large : 32768 < entry.length / 4096) :
    getBitmapReserved entry k = .error .hang := by
  rw [getBitmapReserved, sub64_of_le (by omega), if_neg (by omega)]
  rfl

/-- Sections of up to 128 MiB have the bitmap they need; larger ones are never sized. -/
theorem bitmap_sized_iff {entry : MemmapEntry} (k : Kernel) (usable : entry.type = .usable)
    (aligned : 4096 ∣ entry.length) (nonempty : 0 < entry.length) :
    BitmapSized entry k ↔ entry.length ≤ 2 ^ 27 := by
  constructor
  · rintro ⟨n, _, sized, _⟩
    by_contra large
    rw [getBitmapReserved_hang k (by omega)] at sized
    cases sized
  · intro small
    have pages : 1 ≤ entry.length / 4096 := by omega
    have few : entry.length / 4096 ≤ 32768 := by omega
    refine ⟨1, ⟨by decide, by omega, fun m least _ => least⟩, getBitmapReserved_eq k pages few, ?_⟩
    intro k' n f found i inside
    obtain ⟨room, _⟩ := firstAvaliable_some usable pages few found
    unfold tracked at room
    omega

theorem fullSection_fits : 0 + 2 ^ 27 ≤ 2 ^ 64 := by decide

/-- A section of 128 MiB. -/
def fullSection : MemmapEntry := ⟨0, 2 ^ 27, .usable, fullSection_fits⟩

theorem bitmap_sized_fullSection : ∃ k, BitmapSized fullSection k :=
  ⟨{ mem := fun _ => 0, memmap := [fullSection], hhdm := 2 ^ 47, totalMemoryAllocated := 0, lastFreedPage := -1,
     lastFreedSection := -1, lastFreedNumPages := 0, kheapStart := 0, cr3 := 0, lapicAddr := 0, ioapicAddr := 0,
     image := ⟨0, 0, 0, 0, 0⟩, granted := [] }, (bitmap_sized_iff _ rfl (by decide) (by decide)).mpr (by decide)⟩

theorem largeSection_fits : 0 + (2 ^ 27 + 4096) ≤ 2 ^ 64 := by decide

/-- One page more. -/
def largeSection : MemmapEntry := ⟨0, 2 ^ 27 + 4096, .usable, largeSection_fits⟩

theorem largeSection_not_sized : largeSection.type = .usable ∧ 4096 ∣ largeSection.length ∧ 0 < largeSection.length ∧
    ∀ k, ¬ BitmapSized largeSection k := by
  refine ⟨rfl, by decide, by decide, ?_⟩
  rintro k ⟨n, _, sized, _⟩
  rw [getBitmapReserved_hang k (by decide)] at sized
  cases sized

theorem searchSections_hangs {entry : MemmapEntry} (owner : Owner) (n : Nat) (rest : List MemmapEntry) (k : Kernel)
    (usable : entry.type = .usable) (large : 2 ^ 27 + 4096 ≤ entry.length) :
    searchSections owner n (entry :: rest) k = .error .hang := by
  rw [searchSections, if_neg (by simp [usable]), bind_error (getBitmapReserved_hang k (by omega))]

end PotatOS.Mem
