import PotatOS.Mem.PmmSpec
import Mathlib.Data.List.Pairwise
import Mathlib.Algebra.BigOperators.Group.List.Basic

/-!
# Safety of the physical allocator

`PmmInv` ties the bitmaps to the runs handed out. It holds after `initPMM`,
every `kmalloc` keeps it, and so does a client that writes inside its own runs.
-/

namespace PotatOS.Mem

open Memory Prog

/-- A memory map `kmalloc` can work on: disjoint entries, and usable ones that
are page aligned with between 1 and 32768 pages. -/
structure WellFormedMap (memmap : List MemmapEntry) : Prop where
  apart : memmap.Pairwise fun e f => Apart e.base e.length f.base f.length
  aligned : ∀ e ∈ memmap, e.type = .usable → e.base % 4096 = 0 ∧ e.length % 4096 = 0
  sized : ∀ e ∈ memmap, e.type = .usable → 1 ≤ e.length / 4096 ∧ e.length / 4096 ≤ 32768

def usableEntries (memmap : List MemmapEntry) : List MemmapEntry :=
  memmap.filter fun e => e.type = .usable

/-- The number of set bits in all bitmaps. -/
def setBits (k : Kernel) : Nat :=
  ((usableEntries k.memmap).map fun e => Bitmap.count k.mem (e.base + k.hhdm) 32768).sum

/-- The bits of `g` in the bitmap of its section are set. -/
def Marked (k : Kernel) (g : Grant) : Prop :=
  ∃ e ∈ k.memmap, e.type = .usable ∧ ∃ f, g.addr = e.base + f * 4096 + 4096 ∧
    f + g.pages ≤ tracked e ∧ ∀ i < g.pages, Bitmap.bit k.mem (e.base + k.hhdm) (f + i) = true

def Grant.Apart (g h : Grant) : Prop := Memory.Apart g.addr (g.pages * 4096) h.addr (h.pages * 4096)

structure PmmInv (k : Kernel) : Prop where
  map : WellFormedMap k.memmap
  noFreed : k.lastFreedPage = -1
  marked : ∀ g ∈ k.granted, Marked k g
  apart : k.granted.Pairwise Grant.Apart
  pages : ∀ g ∈ k.granted, 1 ≤ g.pages
  bits : ∀ e ∈ k.memmap, e.type = .usable → ∀ f < 32768,
    Bitmap.bit k.mem (e.base + k.hhdm) f = true → f < tracked e
  total : k.totalMemoryAllocated = 4096 * setBits k

/-! ### Facts about the map -/

theorem mem_usableEntries {memmap : List MemmapEntry} {e : MemmapEntry} :
    e ∈ usableEntries memmap ↔ e ∈ memmap ∧ e.type = .usable := by
  simp [usableEntries]

theorem WellFormedMap.entries_apart {memmap : List MemmapEntry} (map : WellFormedMap memmap)
    {e f : MemmapEntry} (he : e ∈ memmap) (hf : f ∈ memmap) (other : e ≠ f) :
    Apart e.base e.length f.base f.length := by
  have symmetric : Std.Symm fun e f : MemmapEntry => Apart e.base e.length f.base f.length :=
    ⟨fun _ _ => apart_comm.mp⟩
  exact map.apart.forall he hf other

theorem WellFormedMap.usable_nodup {memmap : List MemmapEntry} (map : WellFormedMap memmap) :
    (usableEntries memmap).Nodup := by
  have apart := map.apart.sublist (List.filter_sublist (p := fun e => e.type = .usable))
  refine List.Pairwise.imp_of_mem ?_ apart
  intro e f he _ separate same
  subst f
  have pages := (map.sized e (mem_usableEntries.mp he).1 (mem_usableEntries.mp he).2).1
  unfold Apart at separate
  omega

theorem WellFormedMap.total_length {memmap : List MemmapEntry} (map : WellFormedMap memmap) :
    ((usableEntries memmap).map (·.length)).sum ≤ 2 ^ 64 := by
  have apart := map.apart.sublist (List.filter_sublist (p := fun e => e.type = .usable))
  have inside : ∀ r ∈ (usableEntries memmap).map (fun e => (e.base, e.length)), r.1 + r.2 ≤ 2 ^ 64 := by
    intro r member
    obtain ⟨e, _, rfl⟩ := List.mem_map.mp member
    exact e.fits
  have bound := Bitmap.sum_lengths_le (List.pairwise_map.mpr apart) inside
  simpa only [List.map_map, Function.comp_def] using bound

theorem tracked_lt {e : MemmapEntry} (few : e.length / 4096 ≤ 32768) : tracked e < 32768 := by
  unfold tracked; omega

/-! ### What handing out a run changes -/

section grant

variable {k : Kernel} {owner : Owner} {e : MemmapEntry} {f n : Nat}

theorem grantRun_zero {x : Nat} (inside : InRange (e.base + f * 4096 + 4096) (n * 4096) x) :
    (grantRun k owner e f n).phys x = 0 := by
  have shifted : InRange (e.base + f * 4096 + 4096 + k.hhdm) (n * 4096) (x + k.hhdm) := by
    unfold InRange at *; omega
  exact fill_inside shifted

theorem grantRun_outside {x : Nat} (fits : f + n ≤ 32768) (notBitmap : ¬ InRange e.base 4096 x)
    (notRun : ¬ InRange (e.base + f * 4096 + 4096) (n * 4096) x) :
    (grantRun k owner e f n).phys x = k.phys x := by
  unfold InRange at notBitmap notRun
  have run : ¬ InRange (e.base + f * 4096 + 4096 + k.hhdm) (n * 4096) (x + k.hhdm) := by
    unfold InRange; omega
  have page : ¬ InRange (e.base + k.hhdm) 4096 (x + k.hhdm) := by unfold InRange; omega
  exact (fill_outside run).trans (Bitmap.markRun_outside (by omega) page)

theorem bit_grantRun_self {g : Nat} (small : g < 32768) :
    Bitmap.bit (grantRun k owner e f n).mem (e.base + k.hhdm) g =
      (decide (f ≤ g ∧ g < f + n) || Bitmap.bit k.mem (e.base + k.hhdm) g) := by
  rw [← Bitmap.bit_markRun]
  exact Bitmap.bit_congr (fill_outside (by unfold InRange; omega))

theorem grantRun_other_bitmap {e' : MemmapEntry} {x : Nat} (room : 4096 + tracked e * 4096 ≤ e.length)
    (few : tracked e < 32768) (free : f + n ≤ tracked e) (separate : Apart e.base e.length e'.base e'.length)
    (pages : 1 ≤ e'.length / 4096) (small : x < 4096) :
    (grantRun k owner e f n).phys (e'.base + x) = k.phys (e'.base + x) := by
  unfold Apart at separate
  refine grantRun_outside (by omega) ?_ ?_
  · unfold InRange; omega
  · unfold InRange; omega

theorem bit_grantRun (map : WellFormedMap k.memmap) (member : e ∈ k.memmap) (usable : e.type = .usable)
    (free : f + n ≤ tracked e) {e' : MemmapEntry} (member' : e' ∈ k.memmap) (usable' : e'.type = .usable)
    {g : Nat} (small : g < 32768) :
    Bitmap.bit (grantRun k owner e f n).mem (e'.base + k.hhdm) g =
      (decide (e' = e ∧ f ≤ g ∧ g < f + n) || Bitmap.bit k.mem (e'.base + k.hhdm) g) := by
  by_cases same : e' = e
  · subst e'
    simpa using bit_grantRun_self small
  · have sized := map.sized e member usable
    have page : (grantRun k owner e f n).mem (e'.base + g / 8 + k.hhdm) = k.mem (e'.base + g / 8 + k.hhdm) :=
      grantRun_other_bitmap (tracked_fits sized.1) (tracked_lt sized.2) free
        (map.entries_apart member member' (Ne.symm same)) (map.sized e' member' usable').1 (by omega)
    rw [Nat.add_right_comm] at page
    simp [same, Bitmap.bit_congr page]

end grant

/-- A sum over distinct entries when one of them grows. -/
theorem sum_map_grow {α : Type} {l : List α} {e : α} {n : Nat} {before after : α → Nat}
    (member : e ∈ l) (nodup : l.Nodup) (grown : after e = before e + n)
    (same : ∀ x ∈ l, x ≠ e → after x = before x) : (l.map after).sum = (l.map before).sum + n := by
  induction l with
  | nil => cases member
  | cons head tail ih =>
    obtain ⟨fresh, rest⟩ := List.nodup_cons.mp nodup
    simp only [List.map_cons, List.sum_cons]
    rcases List.mem_cons.mp member with here | there
    · subst head
      have unchanged : tail.map after = tail.map before := by
        apply List.map_congr_left
        intro x inTail
        exact same x (List.mem_cons_of_mem _ inTail) fun eq => fresh (eq ▸ inTail)
      rw [unchanged, grown]
      omega
    · have different : head ≠ e := fun eq => fresh (eq ▸ there)
      rw [same head List.mem_cons_self different,
        ih there rest fun x inTail => same x (List.mem_cons_of_mem _ inTail)]
      omega

/-! ### The invariant -/

theorem Marked.fits {k : Kernel} {g : Grant} (map : WellFormedMap k.memmap) (marked : Marked k g) :
    ∃ e ∈ k.memmap, e.type = .usable ∧ e.base + 4096 ≤ g.addr ∧
      g.addr + g.pages * 4096 ≤ e.base + e.length := by
  obtain ⟨e, member, usable, f, start, bound, _⟩ := marked
  have room := tracked_fits (map.sized e member usable).1
  exact ⟨e, member, usable, by omega, by omega⟩

theorem Marked.apart {k : Kernel} {g : Grant} (owner : Owner) {e : MemmapEntry} {f n : Nat}
    (map : WellFormedMap k.memmap) (marked : Marked k g) (member : e ∈ k.memmap)
    (usable : e.type = .usable) (free : RunFree k e f n) :
    Grant.Apart g ⟨owner, e.base + f * 4096 + 4096, n⟩ := by
  obtain ⟨e', member', usable', f', start, bound, set⟩ := marked
  have room := tracked_fits (map.sized e member usable).1
  have room' := tracked_fits (map.sized e' member' usable').1
  obtain ⟨fits, clear⟩ := free
  unfold Grant.Apart
  by_cases same : e = e'
  · subst e'
    -- A frame in both runs would have a bit that is both set and clear.
    have separate : Apart f' g.pages f n := by
      apply apart_of_forall
      rintro x ⟨lower, upper⟩ ⟨lower', upper'⟩
      have one := set (x - f') (by omega)
      have zero := clear (x - f) (by omega)
      rw [show f' + (x - f') = x by omega] at one
      rw [show f + (x - f) = x by omega, one] at zero
      cases zero
    unfold Apart at separate ⊢
    dsimp only
    omega
  · have separate := map.entries_apart member member' same
    unfold Apart at separate ⊢
    dsimp only
    omega

theorem setBits_grantRun {k : Kernel} (owner : Owner) {e : MemmapEntry} {f n : Nat}
    (map : WellFormedMap k.memmap) (member : e ∈ k.memmap) (usable : e.type = .usable)
    (free : RunFree k e f n) : setBits (grantRun k owner e f n) = setBits k + n := by
  have sized := map.sized e member usable
  have few := tracked_lt sized.2
  have fits := free.1
  refine sum_map_grow (mem_usableEntries.mpr ⟨member, usable⟩) map.usable_nodup ?_ ?_
  · have marked : Bitmap.count (Bitmap.markRun k.mem (e.base + k.hhdm) f n) (e.base + k.hhdm) 32768 =
        Bitmap.count k.mem (e.base + k.hhdm) 32768 + n := Bitmap.count_markRun (by omega) free.2
    rw [← marked]
    apply Bitmap.count_congr
    intro g small
    exact (bit_grantRun_self small).trans (Bitmap.bit_markRun ..).symm
  · intro e' listed other
    obtain ⟨member', usable'⟩ := mem_usableEntries.mp listed
    apply Bitmap.count_congr
    intro g small
    refine (bit_grantRun map member usable fits member' usable' small).trans ?_
    simp only [other, false_and, decide_false, Bool.false_or]
    rfl

theorem sum_map_slack {α : Type} {l : List α} {count length : α → Nat}
    (each : ∀ x ∈ l, 4096 * count x + 4096 ≤ length x) :
    4096 * (l.map count).sum + 4096 * l.length ≤ (l.map length).sum := by
  induction l with
  | nil => simp
  | cons x rest ih =>
    have head := each x List.mem_cons_self
    have tail := ih fun y member => each y (List.mem_cons_of_mem _ member)
    simp only [List.map_cons, List.sum_cons, List.length_cons]
    linarith

/-- All bitmaps together have too few bits for the byte total to wrap. -/
theorem setBits_bound {k : Kernel} (map : WellFormedMap k.memmap)
    (bits : ∀ e ∈ k.memmap, e.type = .usable → ∀ f < 32768,
      Bitmap.bit k.mem (e.base + k.hhdm) f = true → f < tracked e)
    (some : usableEntries k.memmap ≠ []) : 4096 * setBits k < 2 ^ 64 := by
  have each : ∀ e ∈ usableEntries k.memmap,
      4096 * Bitmap.count k.mem (e.base + k.hhdm) 32768 + 4096 ≤ e.length := by
    intro e listed
    obtain ⟨member, usable⟩ := mem_usableEntries.mp listed
    have counted := Bitmap.count_le (bits e member usable)
    have room := tracked_fits (map.sized e member usable).1
    omega
  have total := sum_map_slack each
  have limit : ((usableEntries k.memmap).map MemmapEntry.length).sum ≤ 2 ^ 64 := map.total_length
  have nonempty := List.length_pos_iff.mpr some
  unfold setBits
  omega

theorem PmmInv.of_kmalloc {k k' : Kernel} {owner : Owner} {n addr : Nat} (inv : PmmInv k)
    (h : kmalloc owner n k = .ok (addr, k')) : PmmInv k' := by
  obtain ⟨one, e, member, usable, pages, few, f, free, rfl, rfl⟩ := kmalloc_ok inv.noFreed h
  have fits := free.1
  have bits : ∀ e' ∈ k.memmap, e'.type = .usable → ∀ g < 32768,
      Bitmap.bit (grantRun k owner e f n).mem (e'.base + k.hhdm) g = true → g < tracked e' := by
    intro e' member' usable' g bound set
    rw [bit_grantRun inv.map member usable fits member' usable' bound, Bool.or_eq_true,
      decide_eq_true_eq] at set
    rcases set with ⟨rfl, _, fresh⟩ | old
    · omega
    · exact inv.bits e' member' usable' g bound old
  refine ⟨inv.map, inv.noFreed, ?_, ?_, ?_, bits, ?_⟩
  · intro g granted
    rcases List.mem_append.mp granted with old | new
    · obtain ⟨e', member', usable', f', start, bound, set⟩ := inv.marked g old
      have small' := tracked_lt (inv.map.sized e' member' usable').2
      exact ⟨e', member', usable', f', start, bound,
        fun i inside => (bit_grantRun inv.map member usable fits member' usable' (by omega)).trans
          (by rw [set i inside, Bool.or_true])⟩
    · obtain rfl := List.mem_singleton.mp new
      refine ⟨e, member, usable, f, rfl, fits, fun i inside => ?_⟩
      dsimp only at inside
      have small := tracked_lt few
      exact (bit_grantRun_self (by omega)).trans (by simp [inside])
  · refine List.pairwise_append.mpr ⟨inv.apart, List.pairwise_singleton _ _, ?_⟩
    intro g old g' new
    obtain rfl := List.mem_singleton.mp new
    exact (inv.marked g old).apart owner inv.map member usable free
  · intro g granted
    rcases List.mem_append.mp granted with old | new
    · exact inv.pages g old
    · obtain rfl := List.mem_singleton.mp new
      exact one
  · have listed : usableEntries k.memmap ≠ [] :=
      List.ne_nil_of_mem (mem_usableEntries.mpr ⟨member, usable⟩)
    have counted := setBits_grantRun owner inv.map member usable free
    have bound := setBits_bound (k := grantRun k owner e f n) inv.map bits listed
    rw [counted] at bound ⊢
    have before := inv.total
    show add64 k.totalMemoryAllocated (n * 4096) = _
    rw [add64_of_lt (by omega)]
    omega

/-! ### Boot and clients -/

theorem initSingleBitmap_eq (e : MemmapEntry) (k : Kernel) :
    initSingleBitmap e k = .ok ((), if e.type = .usable then
      k.setMem (fill k.mem (e.base + k.hhdm) e.length 0) else k) := by
  unfold initSingleBitmap
  by_cases usable : e.type = .usable
  · simp only [usable, ne_eq, not_true_eq_false, if_false, if_true]
    rw [bind_eq run_get]
    rfl
  · simp only [usable, ne_eq, not_false_eq_true, if_true, if_false]
    rfl

theorem initBitmaps_ok {entries : List MemmapEntry} {k k' : Kernel}
    (h : initBitmaps entries k = .ok ((), k')) :
    ∃ m, k' = k.setMem m ∧ (∀ e ∈ entries, e.type = .usable →
      ∀ x, InRange (e.base + k.hhdm) e.length x → m x = 0) ∧ ∀ x, k.mem x = 0 → m x = 0 := by
  induction entries generalizing k with
  | nil =>
    obtain ⟨_, rfl⟩ := pure_ok h
    exact ⟨k.mem, rfl, by simp, fun _ zero => zero⟩
  | cons e rest ih =>
    rw [initBitmaps, bind_eq (initSingleBitmap_eq e k)] at h
    by_cases usable : e.type = .usable
    · rw [if_pos usable] at h
      obtain ⟨m, rfl, cleared, zeros⟩ := ih h
      refine ⟨m, rfl, ?_, fun x zero => zeros x ?_⟩
      · intro e' member usable' x inside
        rcases List.mem_cons.mp member with rfl | there
        · exact zeros x (fill_inside inside)
        · exact cleared e' there usable' x inside
      · by_cases inside : InRange (e.base + k.hhdm) e.length x
        · exact fill_inside inside
        · exact (fill_outside inside).trans zero
    · rw [if_neg usable] at h
      obtain ⟨m, same, cleared, zeros⟩ := ih h
      refine ⟨m, same, ?_, zeros⟩
      intro e' member usable' x inside
      rcases List.mem_cons.mp member with rfl | there
      · exact (usable usable').elim
      · exact cleared e' there usable' x inside

theorem PmmInv.of_initPMM {k k' : Kernel} (map : WellFormedMap k.memmap)
    (none : k.totalMemoryAllocated = 0) (fresh : k.granted = []) (h : initPMM k = .ok ((), k')) :
    PmmInv k' := by
  unfold initPMM at h
  rw [bind_eq run_get] at h
  obtain ⟨_, k₁, cleared, h⟩ := bind_ok h
  obtain rfl := modify_ok h
  obtain ⟨m, rfl, zero, _⟩ := initBitmaps_ok cleared
  have bits : ∀ e ∈ k.memmap, e.type = .usable → ∀ f < 32768, Bitmap.bit m (e.base + k.hhdm) f = false := by
    intro e member usable f small
    have pages := (map.sized e member usable).1
    exact Bitmap.bit_zero (zero e member usable _ ⟨by omega, by omega⟩)
  have counts : ∀ e ∈ usableEntries k.memmap, Bitmap.count m (e.base + k.hhdm) 32768 = 0 := by
    intro e listed
    obtain ⟨member, usable⟩ := mem_usableEntries.mp listed
    refine Nat.le_zero.mp (Bitmap.count_le ?_)
    intro f small set
    rw [bits e member usable f small] at set
    cases set
  refine ⟨map, rfl, by simp [fresh], by simp [fresh], by simp [fresh], ?_, ?_⟩
  · intro e member usable f small set
    have clear := bits e member usable f small
    exact absurd (clear.symm.trans set) (by decide)
  · have zeros : (usableEntries k.memmap).map (fun e => Bitmap.count m (e.base + k.hhdm) 32768) =
        (usableEntries k.memmap).map fun _ => 0 := List.map_congr_left counts
    show k.totalMemoryAllocated = 4096 * ((usableEntries k.memmap).map fun e =>
      Bitmap.count m (e.base + k.hhdm) 32768).sum
    rw [zeros, none]
    simp

/-- Physical byte `p` belongs to a run that `kmalloc` returned. -/
def Granted (k : Kernel) (p : Nat) : Prop := ∃ g ∈ k.granted, InRange g.addr (g.pages * 4096) p

/-- Granted bytes are not in any bitmap, so clients keep the invariant. -/
theorem PmmInv.frame {k k' : Kernel} (inv : PmmInv k) (memmap : k'.memmap = k.memmap)
    (hhdm : k'.hhdm = k.hhdm) (freed : k'.lastFreedPage = k.lastFreedPage)
    (granted : k'.granted = k.granted) (total : k'.totalMemoryAllocated = k.totalMemoryAllocated)
    (same : ∀ p, ¬ Granted k p → k'.phys p = k.phys p) : PmmInv k' := by
  have bits : ∀ e ∈ k.memmap, e.type = .usable → ∀ f < 32768,
      Bitmap.bit k'.mem (e.base + k.hhdm) f = Bitmap.bit k.mem (e.base + k.hhdm) f := by
    intro e member usable f small
    have outside : ¬ Granted k (e.base + f / 8) := by
      rintro ⟨g, taken, inside⟩
      obtain ⟨e', member', usable', lower, upper⟩ := (inv.marked g taken).fits inv.map
      have pages := (inv.map.sized e member usable).1
      unfold InRange at inside
      by_cases here : e = e'
      · subst e'; omega
      · have separate := inv.map.entries_apart member member' here
        unfold Apart at separate
        omega
    apply Bitmap.bit_congr
    have byte := same _ outside
    rw [Kernel.phys, Kernel.phys, hhdm] at byte
    simpa only [Nat.add_right_comm] using byte
  have counts : setBits k' = setBits k := by
    have each : (usableEntries k.memmap).map (fun e => Bitmap.count k'.mem (e.base + k.hhdm) 32768) =
        (usableEntries k.memmap).map fun e => Bitmap.count k.mem (e.base + k.hhdm) 32768 := by
      apply List.map_congr_left
      intro e listed
      obtain ⟨member, usable⟩ := mem_usableEntries.mp listed
      exact Bitmap.count_congr (bits e member usable)
    rw [setBits, setBits, memmap, hhdm, each]
  refine ⟨memmap ▸ inv.map, freed.trans inv.noFreed, ?_, granted ▸ inv.apart, granted ▸ inv.pages, ?_, ?_⟩
  · intro g taken
    obtain ⟨e, member, usable, f, start, bound, set⟩ := inv.marked g (granted ▸ taken)
    have small := tracked_lt (inv.map.sized e member usable).2
    refine ⟨e, memmap ▸ member, usable, f, start, bound, fun i inside => ?_⟩
    rw [hhdm, bits e member usable _ (by omega)]
    exact set i inside
  · intro e member usable f small set
    rw [memmap] at member
    rw [hhdm, bits e member usable f small] at set
    exact inv.bits e member usable f small set
  · rw [total, inv.total, counts]

theorem PmmInv.write {k : Kernel} {p v : Nat} (inv : PmmInv k) (taken : Granted k p) :
    PmmInv (k.setMem (store k.mem (p + k.hhdm) 1 v)) := by
  refine inv.frame rfl rfl rfl rfl rfl fun q outside => store_outside ?_
  have other : q ≠ p := fun same => outside (same ▸ taken)
  show ¬ InRange (p + k.hhdm) 1 (q + k.hhdm)
  unfold InRange
  omega

/-- The states after `initPMM`, with the runs returned so far: calls of
`kmalloc` that return, and writes of clients inside their runs. -/
inductive PmmRun (boot : Kernel) : Kernel → List (Nat × Nat) → Prop where
  | boot {k : Kernel} (h : initPMM boot = .ok ((), k)) : PmmRun boot k []
  | kmalloc {k k' : Kernel} {runs : List (Nat × Nat)} (owner : Owner) {n addr : Nat}
      (before : PmmRun boot k runs) (pages : 1 ≤ n ∧ n < 2 ^ 64)
      (h : kmalloc owner n k = .ok (addr, k')) : PmmRun boot k' (runs ++ [(addr, n)])
  | write {k : Kernel} {runs : List (Nat × Nat)} {run : Nat × Nat} {p v : Nat}
      (before : PmmRun boot k runs) (member : run ∈ runs) (inside : InRange run.1 (run.2 * 4096) p) :
      PmmRun boot (k.setMem (store k.mem (p + k.hhdm) 1 v)) runs

theorem PmmRun.inv {boot k : Kernel} {runs : List (Nat × Nat)} (map : WellFormedMap boot.memmap)
    (none : boot.totalMemoryAllocated = 0) (fresh : boot.granted = []) (run : PmmRun boot k runs) :
    PmmInv k ∧ k.memmap = boot.memmap ∧ k.granted.map (fun g => (g.addr, g.pages)) = runs := by
  induction run with
  | boot h =>
    refine ⟨PmmInv.of_initPMM map none fresh h, ?_⟩
    unfold initPMM at h
    rw [bind_eq run_get] at h
    obtain ⟨_, _, cleared, h⟩ := bind_ok h
    obtain rfl := modify_ok h
    obtain ⟨_, rfl, _⟩ := initBitmaps_ok cleared
    exact ⟨rfl, by simp [fresh]⟩
  | kmalloc owner before pages h ih =>
    obtain ⟨inv, same, ledger⟩ := ih
    refine ⟨inv.of_kmalloc h, ?_⟩
    obtain ⟨_, e, _, _, _, _, f, _, rfl, rfl⟩ := kmalloc_ok inv.noFreed h
    exact ⟨same, by rw [← ledger]; simp [grantRun]⟩
  | write before member inside ih =>
    obtain ⟨inv, same, ledger⟩ := ih
    rw [← ledger] at member
    obtain ⟨g, taken, rfl⟩ := List.mem_map.mp member
    exact ⟨inv.write ⟨g, taken, inside⟩, same, ledger⟩

/-- A returning call: zeroed run inside one usable entry, everything granted
before and every other bitmap unchanged. -/
theorem PmmInv.kmalloc_effect {k k' : Kernel} {owner : Owner} {n addr : Nat} (inv : PmmInv k)
    (h : kmalloc owner n k = .ok (addr, k')) :
    (∀ p, InRange addr (n * 4096) p → k'.phys p = 0) ∧
    (∀ p, Granted k p → k'.phys p = k.phys p) ∧
    ∃ e ∈ k.memmap, e.type = .usable ∧ e.base + 4096 ≤ addr ∧ addr + n * 4096 ≤ e.base + e.length ∧
      ∀ e' ∈ k.memmap, e'.type = .usable → e' ≠ e → ∀ i < 4096,
        k'.phys (e'.base + i) = k.phys (e'.base + i) := by
  obtain ⟨_, e, member, usable, pages, few, f, free, rfl, rfl⟩ := kmalloc_ok inv.noFreed h
  have small := tracked_lt few
  have room := tracked_fits pages
  have fits := free.1
  refine ⟨fun p inside => grantRun_zero inside, ?_, e, member, usable, by omega, by omega, ?_⟩
  · rintro p ⟨g, taken, inside⟩
    obtain ⟨e', member', usable', lower, upper⟩ := (inv.marked g taken).fits inv.map
    have separate := (inv.marked g taken).apart owner inv.map member usable free
    refine grantRun_outside (by omega) ?_ (not_inRange_of_apart separate inside)
    unfold InRange at inside ⊢
    by_cases here : e = e'
    · subst e'; omega
    · have distinct := inv.map.entries_apart member member' here
      unfold Apart at distinct
      omega
  · intro e' member' usable' other i inside
    exact grantRun_other_bitmap room small fits (inv.map.entries_apart member member' (Ne.symm other))
      (inv.map.sized e' member' usable').1 inside

/-- Safety of the physical allocator over whole runs. -/
theorem kmalloc_runs_safe {boot k : Kernel} {runs : List (Nat × Nat)} (map : WellFormedMap boot.memmap)
    (none : boot.totalMemoryAllocated = 0) (fresh : boot.granted = []) (run : PmmRun boot k runs) :
    runs.Pairwise (fun r s => Apart r.1 (r.2 * 4096) s.1 (s.2 * 4096)) ∧
    (∀ r ∈ runs, ∃ e ∈ boot.memmap, e.type = .usable ∧ e.base + 4096 ≤ r.1 ∧
      r.1 + r.2 * 4096 ≤ e.base + e.length) ∧
    (∀ n, lastFreedFits k n = false) ∧
    k.totalMemoryAllocated = 4096 * setBits k ∧
    ∀ owner n addr k', 1 ≤ n → n < 2 ^ 64 → kmalloc owner n k = .ok (addr, k') →
      (∀ p, InRange addr (n * 4096) p → k'.phys p = 0) ∧
      (∀ r ∈ runs, ∀ p, InRange r.1 (r.2 * 4096) p → k'.phys p = k.phys p) ∧
      ∃ e ∈ boot.memmap, e.type = .usable ∧ e.base + 4096 ≤ addr ∧ addr + n * 4096 ≤ e.base + e.length ∧
        ∀ e' ∈ boot.memmap, e'.type = .usable → e' ≠ e → ∀ i < 4096,
          k'.phys (e'.base + i) = k.phys (e'.base + i) := by
  obtain ⟨inv, same, ledger⟩ := run.inv map none fresh
  refine ⟨?_, ?_, lastFreedFits_false inv.noFreed, inv.total, ?_⟩
  · rw [← ledger, List.pairwise_map]
    exact inv.apart
  · intro r member
    rw [← ledger] at member
    obtain ⟨g, taken, rfl⟩ := List.mem_map.mp member
    rw [← same]
    exact (inv.marked g taken).fits inv.map
  · intro owner n addr k' _ _ h
    obtain ⟨zero, kept, inside⟩ := inv.kmalloc_effect h
    refine ⟨zero, ?_, same ▸ inside⟩
    intro r member p here
    rw [← ledger] at member
    obtain ⟨g, taken, rfl⟩ := List.mem_map.mp member
    exact kept p ⟨g, taken, here⟩

theorem smallSection_fits : 0 + 64 * 4096 ≤ 2 ^ 64 := by decide

/-- A machine with one usable section of 64 pages. -/
def smallMachine : Kernel :=
  { mem := fun _ => 0, memmap := [⟨0, 64 * 4096, .usable, smallSection_fits⟩], hhdm := 2 ^ 47,
    totalMemoryAllocated := 0, lastFreedPage := 0, lastFreedSection := 0, lastFreedNumPages := 0,
    kheapStart := 0, cr3 := 0, lapicAddr := 0, ioapicAddr := 0, image := ⟨0, 0, 0, 0, 0⟩, granted := [] }

theorem smallMachine_map : WellFormedMap smallMachine.memmap := by
  refine ⟨by simp [smallMachine], ?_, ?_⟩ <;> simp [smallMachine]

theorem kmalloc_runs_safe_smallMachine : ∃ k, PmmRun smallMachine k [(4096, 1), (8192, 3)] ∧
    k.totalMemoryAllocated = 4096 * setBits k := by
  have run : PmmRun smallMachine _ (([] ++ [(4096, 1)]) ++ [(8192, 3)]) :=
    .kmalloc .heap (.kmalloc .heap (.boot rfl) (by decide) rfl) (by decide) rfl
  exact ⟨_, run, (kmalloc_runs_safe smallMachine_map rfl rfl run).2.2.2.1⟩

end PotatOS.Mem
