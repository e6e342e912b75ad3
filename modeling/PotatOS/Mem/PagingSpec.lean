import PotatOS.Mem.PageTree

/-!
# What the loops of `paging.c` do

`Grows` is what any step of `map_pages` and `alloc_pages` does to the upper
levels: existing entries stay, new tables are empty and hang on entries with
the present, write and user flags. `forPages_spec` is the rule for the four
loops: they visit the pages in order, each at its own leaf entry.
-/

namespace PotatOS.Mem

open Memory Prog

/-- The tables of the tree lie in the runs in `own`; the step touches those in `who`. -/
structure Grows (A : PageAllocator) (own who : Grant → Prop) (root : Nat) (k k' : Kernel) : Prop where
  touches : Touches A who k k'
  ok : TreeOk own k' root
  kept : ∀ d < 3, ∀ n < 512 ^ (d + 1), slot k root d n ≠ 0 → slot k' root d n = slot k root d n
  created : ∀ d < 3, ∀ n < 512 ^ (d + 1), slot k root d n = 0 → slot k' root d n ≠ 0 →
    slot k' root d n &&& 7 = 7

namespace Grows

variable {A : PageAllocator} {own who : Grant → Prop} {root : Nat} {k k' k'' : Kernel}

theorem refl (ready : A.Ready k) (ok : TreeOk own k root) : Grows A own who root k k :=
  ⟨.refl ready, ok, fun _ _ _ _ _ => rfl, fun _ _ _ _ zero some => (some zero).elim⟩

theorem trans (first : Grows A own who root k k') (second : Grows A own who root k' k'') : Grows A own who root k k'' := by
  refine ⟨first.touches.trans second.touches, second.ok, ?_, ?_⟩
  · intro d upper n bound some
    have same := first.kept d upper n bound some
    rw [second.kept d upper n bound (by rwa [same]), same]
  · intro d upper n bound zero some
    by_cases middle : slot k' root d n = 0
    · exact second.created d upper n bound middle some
    · rw [second.kept d upper n bound middle]
      exact first.created d upper n bound zero middle

theorem table (grows : Grows A own who root k k') {d n t : Nat} (depth : d ≤ 3) (bound : n < 512 ^ d)
    (h : table k root d n = some t) : table k' root d n = some t := by
  cases d with
  | zero => exact h
  | succ d =>
    rw [table_succ] at h ⊢
    split at h
    · cases h
    · rename_i some
      have same := grows.kept d (by omega) n bound some
      rw [same, if_neg some, grows.touches.setup.hhdm]
      exact h

end Grows

/-! ### New tables -/

theorem or_low {frame x : Nat} (aligned : frame % 4096 = 0) (small : x < 4096) : frame ||| x = frame + x := by
  have split : frame = 2 ^ 12 * (frame / 4096) := by omega
  rw [split]
  exact (Nat.two_pow_add_eq_or_of_lt (i := 12) small _).symm

/-- The flags that `map_pages` puts on a new table. -/
def tableFlags (flags : Nat) : Nat := flags ||| pflagPresent ||| pflagWrite ||| pflagUser

theorem tableFlags_lt {flags : Nat} (small : flags < 4096) : tableFlags flags < 4096 :=
  Nat.or_lt_two_pow (n := 12) (Nat.or_lt_two_pow (Nat.or_lt_two_pow small (by decide)) (by decide)) (by decide)

theorem or_tableFlags_and (frame flags : Nat) : (frame ||| tableFlags flags) &&& 7 = 7 := by
  have seven : tableFlags flags = flags ||| 7 := by
    unfold tableFlags pflagPresent pflagWrite pflagUser
    rw [Nat.or_assoc, Nat.or_assoc]
    rfl
  rw [seven, ← Nat.or_assoc, Nat.and_or_distrib_right, Nat.and_self]
  apply Nat.eq_of_testBit_eq
  intro i
  simp only [Nat.testBit_or, Nat.testBit_and]
  cases Nat.testBit 7 i <;> simp

section step

variable {A : PageAllocator} {own who : Grant → Prop} {root : Nat} {k k' : Kernel}

theorem TreeOk.fresh_run {owner : Owner} {pages addr : Nat} (ok : TreeOk own k root) (ready : A.Ready k)
    (alloc : Allocates k k' owner pages addr) {d n t x : Nat} (depth : d ≤ 3) (bound : n < 512 ^ d)
    (h : table k root d n = some t) (inside : InRange t 4096 x) :
    ¬ InRange (addr + k.hhdm) (pages * 4096) x := by
  obtain ⟨g, taken, _, lower, upper⟩ := ok.owned d depth n bound t h
  have separate := alloc.fresh g taken
  have some := (A.ledger ready).pages g taken
  unfold Grant.Apart Apart at separate
  unfold InRange at *
  dsimp only at separate
  omega

theorem TreeOk.after_kmalloc {owner : Owner} {pages addr : Nat} (ok : TreeOk own k root)
    (alloc : Allocates k k' owner pages addr) {d n t x : Nat} (depth : d ≤ 3) (bound : n < 512 ^ d)
    (h : table k root d n = some t) (inside : InRange t 4096 x) : k'.mem x = k.mem x := by
  obtain ⟨g, taken, _, lower, upper⟩ := ok.owned d depth n bound t h
  have byte := alloc.kept (x - k.hhdm) ⟨g, taken, by unfold InRange at *; omega⟩
  unfold Kernel.phys at byte
  have shift : x - k.hhdm + k.hhdm = x := by unfold InRange at inside; omega
  rwa [alloc.setup.hhdm, shift] at byte

/-- The memory after a new table at `frame` was entered at entry `i` of table `t`. -/
def linkMem (m : Mem) (hhdm t i frame flags : Nat) : Mem :=
  store (fill (store m (t + 8 * i) 8 frame) (frame + hhdm) 4096 0) (t + 8 * i) 8 (frame ||| tableFlags flags)

theorem tableAt_new {t i flags frame : Nat} (empty : entryAt k.mem t i = 0)
    (got : A.kmalloc (.table root) 1 k = .ok (frame, k')) (small : frame + k'.hhdm < 2 ^ 64)
    (apart : Apart (t + 8 * i) 8 (frame + k'.hhdm) 4096) :
    tableAt A.kmalloc root t i flags k =
      .ok (frame + k'.hhdm, k'.setMem (linkMem k'.mem k'.hhdm t i frame flags)) := by
  have stored : entryAt (store k'.mem (t + 8 * i) 8 frame) t i = frame := load_store_same (by omega)
  have cleared : entryAt (fill (store k'.mem (t + 8 * i) 8 frame) (frame + k'.hhdm) 4096 0) t i = frame :=
    (load_fill_apart apart).trans stored
  unfold tableAt
  rw [bind_eq run_get, if_pos empty, bind_eq got]
  simp only [setEntry, kuMemset]
  rw [bind_eq (run_modify _), bind_eq run_get, bind_eq run_get]
  simp only [Kernel.setMem_mem, Kernel.setMem_hhdm]
  rw [stored, add64_of_lt small, bind_eq (run_modify _), bind_eq run_get]
  simp only [Kernel.setMem_mem]
  rw [cleared, bind_eq (run_modify _)]
  rfl

/-- What `linkMem` leaves and what it writes. -/
theorem linkMem_outside {m : Mem} {hhdm t i frame flags x : Nat} (notEntry : ¬ InRange (t + 8 * i) 8 x)
    (notFrame : ¬ InRange (frame + hhdm) 4096 x) : linkMem m hhdm t i frame flags x = m x := by
  rw [linkMem, store_outside notEntry, fill_outside notFrame, store_outside notEntry]

theorem linkMem_frame {m : Mem} {hhdm t i frame flags x : Nat} (inside : InRange (frame + hhdm) 4096 x)
    (notEntry : ¬ InRange (t + 8 * i) 8 x) : linkMem m hhdm t i frame flags x = 0 := by
  rw [linkMem, store_outside notEntry, fill_inside inside]

theorem linkMem_entry {m : Mem} {hhdm t i frame flags : Nat} (aligned : frame % 4096 = 0)
    (small : flags < 4096) (bound : frame + 4096 ≤ 2 ^ 64) :
    entryAt (linkMem m hhdm t i frame flags) t i = frame + tableFlags flags := by
  have low := tableFlags_lt small
  rw [← or_low aligned low]
  refine load_store_same ?_
  rw [or_low aligned low]
  omega

theorem TreeOk.link {d n t frame flags : Nat} (ok : TreeOk own k root) (ready : A.Ready k)
    (mine : ∀ a, own ⟨.table root, a, 1⟩) (small : flags < 4096) (upper : d < 3) (bound : n < 512 ^ (d + 1))
    (place : table k root d (n / 512) = some t) (empty : slot k root d n = 0)
    (alloc : Allocates k k' (.table root) 1 frame) :
    SlotWrite.Links own k (k'.setMem (linkMem k'.mem k'.hhdm t (n % 512) frame flags)) root d n t
      (frame + k.hhdm) := by
  have mapped := alloc.mapped
  have positive := alloc.positive
  have aligned := alloc.aligned
  have hhdm := alloc.setup.hhdm
  have entry : entryAt (linkMem k'.mem k.hhdm t (n % 512) frame flags) t (n % 512) =
      frame + tableFlags flags := linkMem_entry aligned small (by omega)
  have fresh : ∀ d' ≤ 3, ∀ n' < 512 ^ d', ∀ t', table k root d' n' = some t' → ∀ x, InRange t' 4096 x →
      ¬ InRange (frame + k.hhdm) 4096 x := by
    intro d' depth' n' bound' t' h x inside
    simpa using ok.fresh_run ready alloc depth' bound' h inside
  have low := tableFlags_lt small
  rw [hhdm]
  refine ⟨⟨ok, hhdm, fun _ => alloc.granted, by omega, bound, place, ?_⟩, upper, empty, ?_, ?_, ?_, ?_, ?_⟩
  · intro d' depth' n' bound' t' h x inside other
    rw [Kernel.setMem_mem, linkMem_outside other (fresh d' depth' n' bound' t' h x inside)]
    exact ok.after_kmalloc alloc depth' bound' h inside
  · rw [Kernel.setMem_mem, entry]
    omega
  · rw [Kernel.setMem_mem, entry, tableOf, pageAlignDown]
    have down : (frame + tableFlags flags) / 4096 * 4096 = frame := by omega
    rw [down, add64_of_lt (by omega)]
  · intro x inside
    refine linkMem_frame inside fun hit => ?_
    exact fresh d (by omega) _ (div_lt_pow bound) t place x (by unfold InRange at *; omega) inside
  · exact ⟨⟨.table root, frame, 1⟩, alloc.taken, mine frame, by dsimp only; omega, by dsimp only; omega⟩
  · intro d' depth' n' bound' h
    exact fresh d' depth' n' bound' _ h (frame + k.hhdm) ⟨by omega, by omega⟩ ⟨by omega, by omega⟩

/-- `tableAt` made the table at `next` and hung it on the empty entry `(d, n)`. -/
structure Makes (A : PageAllocator) (own : Grant → Prop) (root d n t flags : Nat) (k : Kernel) (next : Nat)
    (k' : Kernel) : Prop where
  frame : ∃ frame k₁ m, A.kmalloc (.table root) 1 k = .ok (frame, k₁) ∧ next = frame + k.hhdm ∧ k' = k₁.setMem m ∧
    m = linkMem k₁.mem k.hhdm t (n % 512) frame flags ∧
    ∀ x, m x ≠ k₁.mem x → ∃ g ∈ k₁.granted, own g ∧ InRange (g.addr + k₁.hhdm) (g.pages * 4096) x
  link : SlotWrite.Links own k k' root d n t next
  touches : Touches A own k k'
  flags : slot k' root d n &&& 7 = 7

theorem TreeOk.makes {d n t flags frame : Nat} (ok : TreeOk own k root) (ready : A.Ready k)
    (mine : ∀ a, own ⟨.table root, a, 1⟩) (small : flags < 4096) (upper : d < 3) (bound : n < 512 ^ (d + 1))
    (place : table k root d (n / 512) = some t) (empty : slot k root d n = 0)
    (got : A.kmalloc (.table root) 1 k = .ok (frame, k')) :
    tableAt A.kmalloc root t (n % 512) flags k =
      .ok (frame + k.hhdm, k'.setMem (linkMem k'.mem k.hhdm t (n % 512) frame flags)) ∧
      Makes A own root d n t flags k (frame + k.hhdm) (k'.setMem (linkMem k'.mem k.hhdm t (n % 512) frame flags)) := by
  have alloc := A.allocates ready got
  have hhdm := alloc.setup.hhdm
  have mapped := alloc.mapped
  have link := ok.link ready mine small upper bound place empty alloc
  rw [hhdm] at link
  have within : ∀ x, InRange (t + 8 * (n % 512)) 8 x → InRange t 4096 x := by
    intro x inside
    unfold InRange at *
    omega
  have apart : Apart (t + 8 * (n % 512)) 8 (frame + k'.hhdm) 4096 := by
    rw [hhdm]
    refine apart_of_forall fun x inside => ?_
    simpa using ok.fresh_run ready alloc (by omega) (div_lt_pow bound) place (within x inside)
  have run : tableAt A.kmalloc root t (n % 512) flags k = _ :=
    tableAt_new ((slot_of_table place).symm.trans empty) got (by rw [hhdm]; omega) apart
  rw [hhdm] at run apart
  have first : Touches A own k k' := .kmalloc ready got (mine frame)
  have changes : ∀ x, linkMem k'.mem k.hhdm t (n % 512) frame flags x ≠ k'.mem x →
      ∃ g ∈ k'.granted, own g ∧ InRange (g.addr + k'.hhdm) (g.pages * 4096) x := by
    intro x changed
    rw [hhdm]
    by_cases here : InRange (t + 8 * (n % 512)) 8 x
    · obtain ⟨g, taken, own, inside⟩ := ok.entry_owned (by omega) bound place here
      exact ⟨g, first.granted taken, own, inside⟩
    · have inside : InRange (frame + k.hhdm) 4096 x := by
        by_contra far
        exact changed (linkMem_outside here far)
      exact ⟨⟨.table root, frame, 1⟩, alloc.taken, mine frame, by simpa using inside⟩
  refine ⟨run, ⟨frame, k', _, got, rfl, rfl, rfl, changes⟩, link, first.trans (.write first.ready changes), ?_⟩
  · have value : entryAt (linkMem k'.mem k.hhdm t (n % 512) frame flags) t (n % 512) = frame + tableFlags flags :=
      linkMem_entry alloc.aligned small (by omega)
    rw [link.slots.1, Kernel.setMem_mem, value, ← or_low alloc.aligned (tableFlags_lt small)]
    exact or_tableFlags_and frame flags

/-- `tableAt` follows an entry, or makes a table for an empty one. -/
theorem tableAt_sat {d n t flags : Nat} {err : Stop → Prop} (ok : TreeOk own k root) (ready : A.Ready k)
    (mine : ∀ a, own ⟨.table root, a, 1⟩) (small : flags < 4096) (upper : d < 3)
    (bound : n < 512 ^ (d + 1)) (place : table k root d (n / 512) = some t)
    (fails : ∀ e, slot k root d n = 0 → A.kmalloc (.table root) 1 k = .error e → err e) :
    Sat (tableAt A.kmalloc root t (n % 512) flags) k (fun next k' =>
      (k' = k ∧ table k root (d + 1) n = some next) ∨ Makes A own root d n t flags k next k') err := by
  have entry := slot_of_table place
  by_cases empty : slot k root d n = 0
  · cases got : A.kmalloc (.table root) 1 k with
    | error e =>
      have run : tableAt A.kmalloc root t (n % 512) flags k = .error e := by
        unfold tableAt
        rw [bind_eq run_get, if_pos (entry.symm.trans empty), bind_error got]
      exact .of_error run (fails e empty got)
    | ok pair =>
      obtain ⟨run, makes⟩ := ok.makes ready mine small upper bound place empty got
      exact .of_ok run (.inr makes)
  · have run : tableAt A.kmalloc root t (n % 512) flags k =
        .ok (tableOf k.hhdm (entryAt k.mem t (n % 512)), k) := by
      unfold tableAt
      rw [bind_eq run_get, if_neg (by rwa [← entry])]
      rfl
    refine .of_ok run (.inl ⟨rfl, ?_⟩)
    rw [table_succ, if_neg empty, entry]

namespace Makes

variable {d n t flags next : Nat}

theorem grows (makes : Makes A own root d n t flags k next k') (sub : ∀ g, own g → who g) : Grows A own who root k k' := by
  have others := makes.link.slots.2
  refine ⟨makes.touches.mono sub, makes.link.treeOk, ?_, ?_⟩
  · intro d' upper' n' bound' some
    refine others d' (by omega) n' bound' fun same => some ?_
    rw [same.1, same.2, makes.link.empty]
  · intro d' upper' n' bound' zero some
    by_cases same : d' = d ∧ n' = n
    · rw [same.1, same.2]
      exact makes.flags
    · exact (some ((others d' (by omega) n' bound' same).trans zero)).elim

theorem leaves (makes : Makes A own root d n t flags k next k') : ∀ u < 512 ^ 4, slot k' root 3 u = slot k root 3 u := by
  have upper := makes.link.upper
  exact fun u inside => makes.link.slots.2 3 (by omega) u inside (by omega)

end Makes

/-- `tableAt` gives the next table on the way, and leaves every leaf as it is. -/
theorem tableAt_spec {d n t flags : Nat} {err : Stop → Prop} (ok : TreeOk own k root) (ready : A.Ready k)
    (mine : ∀ a, own ⟨.table root, a, 1⟩) (sub : ∀ g, own g → who g) (small : flags < 4096) (upper : d < 3)
    (bound : n < 512 ^ (d + 1)) (place : table k root d (n / 512) = some t)
    (fails : ∀ k e, A.Ready k → A.kmalloc (.table root) 1 k = .error e → err e) :
    Sat (tableAt A.kmalloc root t (n % 512) flags) k (fun next k' => Grows A own who root k k' ∧
      (∀ u < 512 ^ 4, slot k' root 3 u = slot k root 3 u) ∧ table k' root (d + 1) n = some next) err := by
  refine (tableAt_sat ok ready mine small upper bound place fun e _ => fails k e ready).weaken fun next k' after => ?_
  rcases after with ⟨rfl, found⟩ | makes
  · exact ⟨.refl ready ok, fun _ _ => rfl, found⟩
  · exact ⟨makes.grows sub, makes.leaves, makes.link.table_next⟩

end step

/-! ### The loops -/

/-- The number of the page that an address lies in. -/
def pageOf (virtAddr : Nat) : Nat := virtAddr % 2 ^ 48 / 4096

theorem pageOf_lt (virtAddr : Nat) : pageOf virtAddr < 512 ^ 4 := by
  unfold pageOf
  omega

theorem lowBits_eq (virtAddr : Nat) : lowBits virtAddr = virtAddr % 2 ^ 48 :=
  Nat.and_two_pow_sub_one_eq_mod virtAddr 48

theorem index_eq (x shift : Nat) : (x >>> shift) &&& 511 = x / 2 ^ shift % 512 := by
  rw [Nat.shiftRight_eq_div_pow]
  exact Nat.and_two_pow_sub_one_eq_mod _ 9

theorem indices_eq (virtAddr : Nat) :
    pml1Index (lowBits virtAddr) = pageOf virtAddr % 512 ∧
      pml2Index (lowBits virtAddr) = pageOf virtAddr / 512 % 512 ∧
      pml3Index (lowBits virtAddr) = pageOf virtAddr / 512 ^ 2 % 512 ∧
      pml4Index (lowBits virtAddr) = pageOf virtAddr / 512 ^ 3 := by
  unfold pml1Index pml2Index pml3Index pml4Index pageOf
  rw [lowBits_eq, index_eq, index_eq, index_eq, index_eq]
  omega

def Walk.Ok (w : Walk) : Prop := w.pml3 < 512 ∧ w.pml2 < 512 ∧ w.pml1 < 512

/-- What the rule for the loops asks of a leaf action: `inv j phys` holds after
`j` of the `total` pages from page `v`, with `phys` the next frame. -/
structure Visits (A : PageAllocator) (own who : Grant → Prop) (root flags : Nat)
    (leaf : Nat → Nat → Walk → KernelM (Option Walk)) (v total : Nat)
    (inv : Nat → Nat → Kernel → Prop) (err : Stop → Prop) : Prop where
  mine : ∀ a, own ⟨.table root, a, 1⟩
  sub : ∀ g, own g → who g
  small : flags < 4096
  fails : ∀ k e, A.Ready k → A.kmalloc (.table root) 1 k = .error e → err e
  ready : ∀ {j p : Nat} {k : Kernel}, inv j p k → A.Ready k ∧ TreeOk own k root
  stable : ∀ {j p : Nat} {k k' : Kernel}, inv j p k → Grows A own who root k k' →
    (∀ u < 512 ^ 4, slot k' root 3 u = slot k root 3 u) → inv j p k'
  visit : ∀ {j t : Nat} {w : Walk} {k : Kernel}, j < total → v + j < 512 ^ 4 → inv j w.phys k →
    w.num = (total - j) % 2 ^ 64 → w.Ok → table k root 3 ((v + j) / 512) = some t →
    Sat (leaf t ((v + j) % 512) w) k (fun r k' => Grows A own who root k k' ∧ match r with
      | none => j + 1 = total ∧ ∃ p, inv total p k'
      | some w' => j + 1 < total ∧ inv (j + 1) w'.phys k' ∧ w'.num = (total - (j + 1)) % 2 ^ 64 ∧ w'.Ok) err

/-- What the loops themselves need: `enter` is the step to a table on the way to
page `v + j`, where `n` is the entry at depth `d`. -/
structure Enters (A : PageAllocator) (own who : Grant → Prop) (root flags : Nat)
    (leaf : Nat → Nat → Walk → KernelM (Option Walk)) (v total : Nat)
    (inv : Nat → Nat → Kernel → Prop) (err : Stop → Prop) : Prop where
  ready : ∀ {j p : Nat} {k : Kernel}, inv j p k → A.Ready k ∧ TreeOk own k root
  enter : ∀ {j p d n t : Nat} {k : Kernel}, j < total → inv j p k → d < 3 → n < 512 ^ (d + 1) →
    (v + j) / 512 ^ (3 - d) = n → table k root d (n / 512) = some t →
    Sat (tableAt A.kmalloc root t (n % 512) flags) k (fun next k' => Grows A own who root k k' ∧ inv j p k' ∧
      table k' root (d + 1) n = some next) err
  visit : ∀ {j t : Nat} {w : Walk} {k : Kernel}, j < total → v + j < 512 ^ 4 → inv j w.phys k →
    w.num = (total - j) % 2 ^ 64 → w.Ok → table k root 3 ((v + j) / 512) = some t →
    Sat (leaf t ((v + j) % 512) w) k (fun r k' => Grows A own who root k k' ∧ match r with
      | none => j + 1 = total ∧ ∃ p, inv total p k'
      | some w' => j + 1 < total ∧ inv (j + 1) w'.phys k' ∧ w'.num = (total - (j + 1)) % 2 ^ 64 ∧ w'.Ok) err

namespace Visits

variable {A : PageAllocator} {own who : Grant → Prop} {root flags v total : Nat}
  {leaf : Nat → Nat → Walk → KernelM (Option Walk)} {inv : Nat → Nat → Kernel → Prop} {err : Stop → Prop}

theorem enters (visits : Visits A own who root flags leaf v total inv err) :
    Enters A own who root flags leaf v total inv err := by
  refine ⟨visits.ready, ?_, visits.visit⟩
  intro j p d n t k less holds upper bound page place
  obtain ⟨ready, ok⟩ := visits.ready holds
  refine (tableAt_spec ok ready visits.mine visits.sub visits.small upper bound place visits.fails).weaken ?_
  rintro next k' ⟨grows, leaves, found⟩
  exact ⟨grows, visits.stable holds grows leaves, found⟩

/-- The loops stand before page `page`. -/
def Before (v total : Nat) (inv : Nat → Nat → Kernel → Prop) (page : Nat) (w : Walk) (k : Kernel) : Prop :=
  ∃ j, j < total ∧ inv j w.phys k ∧ w.num = (total - j) % 2 ^ 64 ∧ w.Ok ∧ v + j = page

/-- All pages are done. -/
def Done (v total : Nat) (inv : Nat → Nat → Kernel → Prop) (k : Kernel) : Prop :=
  v + total ≤ 512 ^ 4 ∧ ∃ p, inv total p k

/-- A loop over a table at `depth` whose entries stand for `size / 512` pages
each: it runs to the end of its table, or all pages are done. -/
def Covers (A : PageAllocator) (own who : Grant → Prop) (root v total : Nat)
    (inv : Nat → Nat → Kernel → Prop) (err : Stop → Prop) (depth size : Nat) (pos : Walk → Nat)
    (walk : Nat → Walk → KernelM (Option Walk)) : Prop :=
  ∀ {n t : Nat} {w : Walk} {k : Kernel}, n < 512 ^ depth → table k root depth n = some t →
    Before v total inv (n * size + pos w) w k →
    Sat (walk t w) k (fun r k' => Grows A own who root k k' ∧ match r with
      | none => Done v total inv k'
      | some w' => pos w' = 0 ∧ Before v total inv ((n + 1) * size) w' k') err

end Visits

namespace Enters

open Visits

variable {A : PageAllocator} {own who : Grant → Prop} {root flags v total : Nat}
  {leaf : Nat → Nat → Walk → KernelM (Option Walk)} {inv : Nat → Nat → Kernel → Prop} {err : Stop → Prop}

theorem covers_pml1 (enters : Enters A own who root flags leaf v total inv err) :
    Covers A own who root v total inv err 3 512 (fun w => w.pml1) (forPml1 leaf) := by
  intro n t w k bound place before
  obtain ⟨j, less, holds, num, indices, page⟩ := before
  have rounds : w.pml1 + (512 - w.pml1) = 512 := by
    have := indices.2.2
    omega
  refine .bind (.forIndex (fun i w k' => Grows A own who root k k' ∧ Before v total inv (n * 512 + i) w k')
    (fun k' => Grows A own who root k k' ∧ Done v total inv k') rounds ?_ ?_) ?_
  · obtain ⟨ready, ok⟩ := enters.ready holds
    exact ⟨.refl ready ok, j, less, holds, num, indices, page⟩
  · rintro i w k' bounded ⟨grows, j, less, holds, num, indices, page⟩
    have quotient : (v + j) / 512 = n := by omega
    have remainder : (v + j) % 512 = i := by omega
    have space : v + j < 512 ^ 4 := by omega
    have there := grows.table (by omega) bound place
    rw [← quotient] at there
    have step := enters.visit less space holds num indices there
    rw [remainder] at step
    refine step.weaken fun r k'' after => ?_
    cases r with
    | none =>
      obtain ⟨more, all, last⟩ := after
      exact ⟨grows.trans more, by omega, last⟩
    | some w' =>
      obtain ⟨more, less', holds', num', indices'⟩ := after
      exact ⟨grows.trans more, j + 1, less', holds', num', indices', by omega⟩
  · intro r k' after
    refine .pure ?_
    cases r with
    | none => exact after
    | some w' =>
      obtain ⟨grows, j, less, holds, num, indices, page⟩ := after
      exact ⟨grows, rfl, j, less, holds, num, ⟨indices.1, indices.2.1, by show 0 < 512; omega⟩, by omega⟩

theorem sat_tables {depth size : Nat} {pos : Walk → Nat} {inner : Nat → Walk → KernelM (Option Walk)}
    (enters : Enters A own who root flags leaf v total inv err) (upper : depth < 3) (sized : size = 512 ^ (3 - depth))
    (within : ∀ w : Walk, w.Ok → pos w < size)
    (covers : Covers A own who root v total inv err (depth + 1) size pos inner) {n t start : Nat} {w : Walk}
    {k : Kernel} (bound : n < 512 ^ depth) (place : table k root depth n = some t) (inside : start < 512)
    (before : Before v total inv ((n * 512 + start) * size + pos w) w k) :
    Sat (forTables A.kmalloc root flags inner t start w) k (fun r k' => Grows A own who root k k' ∧ match r with
      | none => Done v total inv k'
      | some w' => pos w' = 0 ∧ Before v total inv ((n + 1) * (512 * size)) w' k') err := by
  have rounds : start + (512 - start) = 512 := by omega
  obtain ⟨j₀, less₀, holds₀, num₀, indices₀, page₀⟩ := before
  unfold forTables
  refine (Sat.forIndex (fun i w k' => Grows A own who root k k' ∧
      Before v total inv ((n * 512 + i) * size + pos w) w k' ∧ (start < i → pos w = 0))
    (fun k' => Grows A own who root k k' ∧ Done v total inv k') rounds ?_ ?_).weaken ?_
  rotate_left 2
  · intro r k' after
    cases r with
    | none => exact after
    | some w' =>
      obtain ⟨grows, ⟨j, less, holds, num, indices, page⟩, last⟩ := after
      have zero := last inside
      refine ⟨grows, zero, j, less, holds, num, indices, ?_⟩
      rw [page, zero]
      ring
  · obtain ⟨ready, ok⟩ := enters.ready holds₀
    exact ⟨.refl ready ok, ⟨j₀, less₀, holds₀, num₀, indices₀, page₀⟩, by omega⟩
  · rintro i w k' bounded ⟨grows, ⟨j, less, holds, num, indices, page⟩, _⟩
    have quotient : (n * 512 + i) / 512 = n := by omega
    have remainder : (n * 512 + i) % 512 = i := by omega
    have bound' : n * 512 + i < 512 ^ (depth + 1) := by
      rw [Nat.pow_succ]
      omega
    have entry : (v + j) / 512 ^ (3 - depth) = n * 512 + i := by
      have low := within w indices
      rw [← sized, page, Nat.mul_comm, Nat.mul_add_div (by omega), Nat.div_eq_of_lt low, Nat.add_zero]
    have there := grows.table (by omega) bound place
    rw [← quotient] at there
    have step := enters.enter less holds upper bound' entry there
    rw [remainder] at step
    refine step.bind fun next k₁ made => ?_
    obtain ⟨more, holds', found⟩ := made
    refine (covers bound' found ⟨j, less, holds', num, indices, page⟩).weaken fun r k₂ after => ?_
    cases r with
    | none => exact ⟨(grows.trans more).trans after.1, after.2⟩
    | some w' =>
      obtain ⟨last, zero, j', less', holds'', num', indices', page'⟩ := after
      refine ⟨(grows.trans more).trans last, ⟨j', less', holds'', num', indices', ?_⟩, fun _ => zero⟩
      rw [page', zero]
      ring

/-- One more level of loops. -/
theorem level {depth size : Nat} {pos start : Walk → Nat} {reset : Walk → Walk}
    {inner walk : Nat → Walk → KernelM (Option Walk)}
    (enters : Enters A own who root flags leaf v total inv err) (upper : depth < 3) (sized : size = 512 ^ (3 - depth))
    (within : ∀ w : Walk, w.Ok → pos w < size)
    (covers : Covers A own who root v total inv err (depth + 1) size pos inner)
    (index : ∀ w : Walk, w.Ok → start w < 512)
    (fields : ∀ w : Walk, w.Ok → pos w = 0 → (reset w).Ok ∧ (reset w).phys = w.phys ∧ (reset w).num = w.num ∧
      start (reset w) = 0 ∧ pos (reset w) = 0)
    (walk_eq : ∀ t w, walk t w = do
      let r ← forTables A.kmalloc root flags inner t (start w) w
      return r.map reset) :
    Covers A own who root v total inv err depth (512 * size) (fun w => start w * size + pos w) walk := by
  intro n t w k bound place before
  rw [walk_eq]
  obtain ⟨j, less, holds, num, indices, page⟩ := before
  refine (enters.sat_tables upper sized within covers bound place (index w indices)
    ⟨j, less, holds, num, indices, ?_⟩).bind ?_
  · rw [page]
    ring
  · intro r k' after
    refine .pure ?_
    cases r with
    | none => exact after
    | some w' =>
      obtain ⟨grows, zero, j', less', holds', num', indices', page'⟩ := after
      obtain ⟨kept, phys, left, first, rest⟩ := fields w' indices' zero
      refine ⟨grows, ?_, j', less', by rwa [phys], by rwa [left], kept, page'⟩
      dsimp only
      rw [first, rest]
      omega

theorem covers_pml2 (enters : Enters A own who root flags leaf v total inv err) :
    Covers A own who root v total inv err 2 (512 * 512) (fun w => w.pml2 * 512 + w.pml1)
      (forPml2 A.kmalloc root flags leaf) := by
  refine enters.level (by omega) rfl (fun w ok => ok.2.2) enters.covers_pml1 (fun w ok => ok.2.1) ?_ fun t w => rfl
  intro w ok zero
  exact ⟨⟨ok.1, by show 0 < 512; omega, ok.2.2⟩, rfl, rfl, rfl, zero⟩

theorem covers_pml3 (enters : Enters A own who root flags leaf v total inv err) :
    Covers A own who root v total inv err 1 (512 * (512 * 512))
      (fun w => w.pml3 * (512 * 512) + (w.pml2 * 512 + w.pml1)) (forPml3 A.kmalloc root flags leaf) := by
  refine enters.level (by omega) rfl ?_ enters.covers_pml2 (fun w ok => ok.1) ?_ fun t w => rfl
  · rintro w ⟨_, two, one⟩
    dsimp only
    omega
  · intro w ok zero
    exact ⟨⟨by show 0 < 512; omega, ok.2.1, ok.2.2⟩, rfl, rfl, rfl, zero⟩

/-- The rule for the four loops. A count of 0 pages wraps around to `2 ^ 64`. -/
theorem forPages {num virtAddr phys : Nat} {k : Kernel}
    (enters : Enters A own who root flags leaf (pageOf virtAddr) total inv err) (some : 0 < total)
    (count : num = total % 2 ^ 64) (first : inv 0 phys k) (space : pageOf virtAddr + total ≤ 512 ^ 4 ∨ err .halt) :
    Sat (forPages A.kmalloc root flags leaf virtAddr phys num) k
      (fun _ k' => Grows A own who root k k' ∧ Done (pageOf virtAddr) total inv k') err := by
  obtain ⟨one, two, three, four⟩ := indices_eq virtAddr
  have page := pageOf_lt virtAddr
  have top : pml4Index (lowBits virtAddr) < 512 := by rw [four]; omega
  unfold Mem.forPages
  dsimp only
  refine (enters.sat_tables (by omega) rfl ?_ enters.covers_pml3 (n := 0) (by omega) rfl top
    ⟨0, some, first, count, ?_, ?_⟩).bind fun r k' after => ?_
  · rintro w ⟨three, two, one⟩
    dsimp only
    omega
  · unfold Walk.Ok
    dsimp only
    omega
  · dsimp only
    omega
  · cases r with
    | none => exact .pure after
    | some w' =>
      obtain ⟨_, _, j, less, _, _, _, full⟩ := after
      rcases space with fits | halts
      · omega
      · exact .stop halts

end Enters

theorem forPages_spec {A : PageAllocator} {own who : Grant → Prop} {root flags total num virtAddr phys : Nat}
    {leaf : Nat → Nat → Walk → KernelM (Option Walk)} {inv : Nat → Nat → Kernel → Prop} {err : Stop → Prop}
    {k : Kernel} (visits : Visits A own who root flags leaf (pageOf virtAddr) total inv err)
    (some : 0 < total) (count : num = total % 2 ^ 64) (first : inv 0 phys k)
    (space : pageOf virtAddr + total ≤ 512 ^ 4 ∨ err .halt) :
    Sat (forPages A.kmalloc root flags leaf virtAddr phys num) k
      (fun _ k' => Grows A own who root k k' ∧ Visits.Done (pageOf virtAddr) total inv k') err :=
  visits.enters.forPages some count first space

theorem sub64_count {total j : Nat} (less : j < total) :
    sub64 ((total - j) % 2 ^ 64) 1 = (total - (j + 1)) % 2 ^ 64 := by
  unfold sub64
  split <;> omega

end PotatOS.Mem
