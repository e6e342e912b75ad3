import PotatOS.Mem.KernelImage

/-!
# The direct map (`map_sections`)

`map_sections` maps `length / 4096` pages from the base of every listed entry.
A count of zero wraps, and what lies beyond the last whole page is left out, so
the direct map is complete exactly when the listed entries are whole pages.
-/

namespace PotatOS.Mem

open Memory Prog

/-! ### Running out of memory -/

/-- `kmalloc`, except that running out of memory is told apart from a `halt` of the loops. -/
def marked (kmalloc : Owner → Nat → KernelM Nat) (owner : Owner) (n : Nat) : KernelM Nat := fun k =>
  match kmalloc owner n k with
  | .ok r => .ok r
  | .error _ => .error .fault

theorem marked_sameReturns (kmalloc : Owner → Nat → KernelM Nat) (owner : Owner) (n : Nat) :
    SameReturns (kmalloc owner n) (marked kmalloc owner n) := by
  intro k r
  unfold marked
  cases kmalloc owner n k with
  | ok pair => exact Iff.rfl
  | error e => constructor <;> intro h <;> cases h

theorem marked_error {kmalloc : Owner → Nat → KernelM Nat} {owner : Owner} {n : Nat} {k : Kernel} {e : Stop}
    (h : marked kmalloc owner n k = .error e) : e = .fault := by
  unfold marked at h
  split at h
  · cases h
  · exact (Except.error.inj h).symm

def PageAllocator.marked (A : PageAllocator) : PageAllocator where
  kmalloc := Mem.marked A.kmalloc
  Ready := A.Ready
  ledger := A.ledger
  frame := A.frame
  ready := fun ready h => A.ready ready ((marked_sameReturns _ _ _ _ _).mpr h)
  allocates := fun ready h => A.allocates ready ((marked_sameReturns _ _ _ _ _).mpr h)

section same

variable {kmalloc kmalloc' : Owner → Nat → KernelM Nat} (same : ∀ owner n, SameReturns (kmalloc owner n) (kmalloc' owner n))
include same

theorem tableAt_sameReturns (pml4Addr table i flags : Nat) :
    SameReturns (tableAt kmalloc pml4Addr table i flags) (tableAt kmalloc' pml4Addr table i flags) := by
  apply SameReturns.bind (.refl _)
  intro k
  dsimp only
  split
  · exact (same _ _).bind fun _ => .refl _
  · exact .refl _

theorem forTables_sameReturns {inner inner' : Nat → Walk → KernelM (Option Walk)}
    (body : ∀ t w, SameReturns (inner t w) (inner' t w)) (pml4Addr flags table start : Nat) (w : Walk) :
    SameReturns (forTables kmalloc pml4Addr flags inner table start w)
      (forTables kmalloc' pml4Addr flags inner' table start w) :=
  .forIndex (fun i w => (tableAt_sameReturns same pml4Addr table i flags).bind fun t => body t w) _ _ _

theorem forPages_sameReturns {leaf leaf' : Nat → Nat → Walk → KernelM (Option Walk)}
    (body : ∀ t i w, SameReturns (leaf t i w) (leaf' t i w)) (pml4Addr flags virtAddr phys num : Nat) :
    SameReturns (forPages kmalloc pml4Addr flags leaf virtAddr phys num)
      (forPages kmalloc' pml4Addr flags leaf' virtAddr phys num) := by
  have level₁ : ∀ t w, SameReturns (forPml1 leaf t w) (forPml1 leaf' t w) := fun t w =>
    (SameReturns.forIndex (body t) _ _ w).bind fun _ => .refl _
  have level₂ : ∀ t w, SameReturns (forPml2 kmalloc pml4Addr flags leaf t w)
      (forPml2 kmalloc' pml4Addr flags leaf' t w) := fun t w =>
    (forTables_sameReturns same level₁ pml4Addr flags t w.pml2 w).bind fun _ => .refl _
  have level₃ : ∀ t w, SameReturns (forPml3 kmalloc pml4Addr flags leaf t w)
      (forPml3 kmalloc' pml4Addr flags leaf' t w) := fun t w =>
    (forTables_sameReturns same level₂ pml4Addr flags t w.pml3 w).bind fun _ => .refl _
  exact (forTables_sameReturns same level₃ pml4Addr flags pml4Addr _ _).bind fun _ => .refl _

theorem mapPages_sameReturns (pml4Addr virtAddr physAddr numPages flags : Nat) :
    SameReturns (mapPages kmalloc pml4Addr virtAddr physAddr numPages flags)
      (mapPages kmalloc' pml4Addr virtAddr physAddr numPages flags) :=
  forPages_sameReturns same (fun _ _ _ => .refl _) _ _ _ _ _

theorem allocPages_sameReturns (owner : Owner) (pml4Addr virtAddr numPages flags : Nat) :
    SameReturns (allocPages kmalloc owner pml4Addr virtAddr numPages flags)
      (allocPages kmalloc' owner pml4Addr virtAddr numPages flags) :=
  forPages_sameReturns same (fun _ _ _ => (same owner 1).bind fun _ => .refl _) _ _ _ _ _

theorem mapSections_sameReturns (pml4 : Nat) (entries : List MemmapEntry) :
    SameReturns (mapSections kmalloc pml4 entries) (mapSections kmalloc' pml4 entries) := by
  induction entries with
  | nil => exact .refl _
  | cons entry rest ih =>
    rw [mapSections, mapSections]
    split
    · apply SameReturns.bind (.refl _)
      intro k
      have maps := mapPages_sameReturns same pml4 (add64 entry.base k.hhdm) entry.base (entry.length / 4096)
        (pflagPresent ||| pflagWrite)
      exact maps.bind fun _ => ih
    · exact ih

end same

/-! ### Ranges of pages -/

/-- There is a page to map, and the last one lies in the address space. -/
def RangeFits (virtAddr n : Nat) : Prop := 0 < n ∧ pageOf virtAddr + n ≤ 512 ^ 4

instance (virtAddr n : Nat) : Decidable (RangeFits virtAddr n) := inferInstanceAs (Decidable (_ ∧ _))

section returns

variable {A : PageAllocator} {own who : Grant → Prop} {root : Nat} {k : Kernel} {err : Stop → Prop}
  (refused : ∀ k e owner n, A.Ready k → A.kmalloc owner n k = .error e → err e)
include refused

theorem mapPages_returns {virtAddr phys n flags : Nat} (ready : A.Ready k) (ok : TreeOk own k root)
    (mine : ∀ a, own ⟨.table root, a, 1⟩) (sub : ∀ g, own g → who g) (small : flags < 4096) (count : n < 2 ^ 64)
    (fits : RangeFits virtAddr n) :
    Sat (mapPages A.kmalloc root virtAddr phys n flags) k (fun _ k' => Grows A own who root k k') err := by
  apply (mapPages_spec ready ok mine sub small fits.1 count (.inl fits.2) ?_).weaken
  · exact fun _ _ after => after.1
  · exact fun k e ready => refused k e _ 1 ready

/-- The entries are mapped unless `kmalloc` refuses a frame for a table. -/
theorem mapSections_returns {entries : List MemmapEntry} (ready : A.Ready k) (ok : TreeOk own k root)
    (mine : ∀ a, own ⟨.table root, a, 1⟩) (sub : ∀ g, own g → who g)
    (fits : ∀ e ∈ entries, isMapped e.type → RangeFits (add64 e.base k.hhdm) (e.length / 4096)) :
    Sat (mapSections A.kmalloc root entries) k (fun _ k' => Grows A own who root k k') err := by
  induction entries generalizing k with
  | nil => exact .pure (.refl ready ok)
  | cons entry rest ih =>
    have small := entry.fits
    have rest' : ∀ e ∈ rest, isMapped e.type → RangeFits (add64 e.base k.hhdm) (e.length / 4096) :=
      fun e member => fits e (List.mem_cons_of_mem _ member)
    rw [mapSections]
    split
    · rename_i listed
      apply Sat.bind_get
      apply (mapPages_returns refused ready ok mine sub (by decide) (by omega) (fits entry List.mem_cons_self listed)).bind
      intro _ k₁ first
      rw [← first.touches.setup.hhdm] at rest'
      exact (ih first.touches.ready first.ok rest').weaken fun _ _ => first.trans
    · exact ih ready ok rest'

end returns

/-! ### Leaf entries after `map_sections` -/

/-- What Limine promises about the entries of the memory map. -/
structure LimineMap (entries : List MemmapEntry) : Prop where
  pages : entries.Pairwise fun e f => ∀ a b, InRange e.base e.length a → InRange f.base f.length b →
    a / 4096 ≠ b / 4096
  aligned : ∀ e ∈ entries, e.type = .usable ∨ e.type = .bootloaderReclaimable →
    e.base % 4096 = 0 ∧ e.length % 4096 = 0 ∧ 0 < e.length

/-- The direct map starts on a page and has room for the entries. -/
structure DirectWindow (hhdm : Nat) (entries : List MemmapEntry) : Prop where
  page : hhdm % 4096 = 0
  address : hhdm < 2 ^ 64
  room : ∀ e ∈ entries, isMapped e.type → hhdm % 2 ^ 48 + (e.base + e.length) ≤ 2 ^ 48

theorem DirectWindow.tail {hhdm : Nat} {e : MemmapEntry} {rest : List MemmapEntry}
    (window : DirectWindow hhdm (e :: rest)) : DirectWindow hhdm rest :=
  ⟨window.page, window.address, fun f member => window.room f (List.mem_cons_of_mem _ member)⟩

theorem pageOf_direct {hhdm a : Nat} (page : hhdm % 4096 = 0) (room : hhdm % 2 ^ 48 + a < 2 ^ 48) :
    pageOf (hhdm + a) = pageOf hhdm + a / 4096 := by
  unfold pageOf
  omega

/-- Page `u` is one of the whole pages counted from the base of `e`. -/
def Counted (hhdm : Nat) (e : MemmapEntry) (u : Nat) : Prop :=
  pageOf hhdm + e.base / 4096 ≤ u ∧ u < pageOf hhdm + e.base / 4096 + e.length / 4096

theorem Counted.address {hhdm u : Nat} {e : MemmapEntry} (counted : Counted hhdm e u) :
    ∃ a, InRange e.base e.length a ∧ u = pageOf hhdm + a / 4096 := by
  unfold Counted at counted
  unfold InRange
  exact ⟨e.base + 4096 * (u - (pageOf hhdm + e.base / 4096)), by omega, by omega⟩

/-- No other listed entry has page `u` among its pages. -/
def Alone (hhdm : Nat) (entries : List MemmapEntry) (e : MemmapEntry) (u : Nat) : Prop :=
  ∀ f ∈ entries, isMapped f.type → Counted hhdm f u → f = e

theorem LimineMap.apart {entries : List MemmapEntry} {e f : MemmapEntry} {a b : Nat} (map : LimineMap entries)
    (member : e ∈ entries) (member' : f ∈ entries) (other : e ≠ f) (inside : InRange e.base e.length a)
    (inside' : InRange f.base f.length b) : a / 4096 ≠ b / 4096 := by
  have symmetric : Std.Symm fun e f : MemmapEntry => ∀ a b, InRange e.base e.length a →
      InRange f.base f.length b → a / 4096 ≠ b / 4096 :=
    ⟨fun _ _ apart a b left right => (apart b a right left).symm⟩
  exact map.pages.forall member member' other a b inside inside'

theorem LimineMap.alone {hhdm u : Nat} {entries : List MemmapEntry} {e : MemmapEntry} (map : LimineMap entries)
    (member : e ∈ entries) (counted : Counted hhdm e u) : Alone hhdm entries e u := by
  intro f member' _ counted'
  by_contra other
  obtain ⟨a, inside, here⟩ := counted.address
  obtain ⟨b, inside', there⟩ := counted'.address
  exact map.apart member' member other inside' inside (by omega)

structure SectionLeaves (hhdm root : Nat) (entries : List MemmapEntry) (k k' : Kernel) : Prop where
  some : ∀ e ∈ entries, isMapped e.type → 0 < e.length / 4096
  others : ∀ u < 512 ^ 4, (∀ e ∈ entries, isMapped e.type → ¬ Counted hhdm e u) →
    slot k' root 3 u = slot k root 3 u
  counted : ∀ e ∈ entries, isMapped e.type → ∀ u < 512 ^ 4, Counted hhdm e u → Alone hhdm entries e u →
    slot k' root 3 u = (e.base + 4096 * (u - (pageOf hhdm + e.base / 4096))) % 2 ^ 64 ||| (pflagPresent ||| pflagWrite)

section sections

variable {A : PageAllocator} {root : Nat} {k k' : Kernel}

theorem DirectWindow.start {hhdm : Nat} {entries : List MemmapEntry} (window : DirectWindow hhdm entries)
    {e : MemmapEntry} (member : e ∈ entries) (listed : isMapped e.type) (some : 0 < e.length / 4096) :
    pageOf (add64 e.base hhdm) = pageOf hhdm + e.base / 4096 := by
  have room := window.room e member listed
  have address := window.address
  rw [add64_of_lt (by omega), Nat.add_comm, pageOf_direct window.page (by omega)]

theorem mapSection_ok {entries : List MemmapEntry} {e : MemmapEntry} (ready : A.Ready k) (tree : WellFormedTree k root)
    (window : DirectWindow k.hhdm entries) (member : e ∈ entries) (listed : isMapped e.type)
    (h : mapPages A.kmalloc root (add64 e.base k.hhdm) e.base (e.length / 4096) (pflagPresent ||| pflagWrite) k =
      .ok ((), k')) :
    0 < e.length / 4096 ∧ A.Ready k' ∧ WellFormedTree k' root ∧ k'.hhdm = k.hhdm ∧
      (∀ u < 512 ^ 4, ¬ Counted k.hhdm e u → slot k' root 3 u = slot k root 3 u) ∧
      ∀ u < 512 ^ 4, Counted k.hhdm e u → slot k' root 3 u =
        (e.base + 4096 * (u - (pageOf k.hhdm + e.base / 4096))) % 2 ^ 64 ||| (pflagPresent ||| pflagWrite) := by
  have room := window.room e member listed
  obtain ⟨some, _, grows, leaves⟩ := mapPages_ok ready tree (fun _ => trivial)
    (show ∀ _ : Grant, True → True from fun _ _ => trivial) (by decide) (by omega) h
  rw [window.start member listed some] at leaves
  refine ⟨some, grows.touches.ready, grows.ok, grows.touches.setup.hhdm, ?_, ?_⟩
  · intro u bound outside
    rw [leaves u bound, mappedLeaves]
    exact if_neg outside
  · intro u bound inside
    rw [leaves u bound, mappedLeaves]
    exact if_pos inside

theorem mapSections_leaves {entries : List MemmapEntry} (ready : A.Ready k) (tree : WellFormedTree k root)
    (window : DirectWindow k.hhdm entries) (h : mapSections A.kmalloc root entries k = .ok ((), k')) :
    SectionLeaves k.hhdm root entries k k' ∧ k'.hhdm = k.hhdm := by
  induction entries generalizing k with
  | nil =>
    obtain ⟨_, rfl⟩ := pure_ok h
    exact ⟨⟨fun _ member => (by cases member), fun _ _ _ => rfl, fun _ member => (by cases member)⟩, rfl⟩
  | cons entry rest ih =>
    rw [mapSections] at h
    split at h
    · rename_i listed
      rw [bind_eq run_get] at h
      obtain ⟨_, k₁, maps, h⟩ := bind_ok h
      obtain ⟨some, ready₁, tree₁, hhdm, kept, written⟩ := mapSection_ok ready tree window List.mem_cons_self listed maps
      obtain ⟨later, last⟩ := ih ready₁ tree₁ (hhdm.symm ▸ window.tail) h
      rw [hhdm] at later
      refine ⟨⟨?_, ?_, ?_⟩, last.trans hhdm⟩
      · intro e member mapped
        rcases List.mem_cons.mp member with rfl | member
        · exact some
        · exact later.some e member mapped
      · intro u bound outside
        rw [later.others u bound fun e member => outside e (List.mem_cons_of_mem _ member)]
        exact kept u bound (outside entry List.mem_cons_self listed)
      · intro e member mapped u bound counted alone
        have alone' : Alone k.hhdm rest e u := fun f inside => alone f (List.mem_cons_of_mem _ inside)
        by_cases again : ∃ f ∈ rest, isMapped f.type ∧ Counted k.hhdm f u
        · obtain ⟨f, inside, mapped', counted'⟩ := again
          obtain rfl := alone' f inside mapped' counted'
          exact later.counted f inside mapped u bound counted alone'
        · rcases List.mem_cons.mp member with rfl | member
          · rw [later.others u bound fun f inside mapped' counted' => again ⟨f, inside, mapped', counted'⟩]
            exact written u bound counted
          · exact absurd ⟨e, member, mapped, counted⟩ again
    · rename_i unlisted
      obtain ⟨later, last⟩ := ih ready tree window.tail h
      refine ⟨⟨?_, ?_, ?_⟩, last⟩
      · intro e member mapped
        rcases List.mem_cons.mp member with rfl | member
        · exact absurd mapped unlisted
        · exact later.some e member mapped
      · intro u bound outside
        exact later.others u bound fun e member => outside e (List.mem_cons_of_mem _ member)
      · intro e member mapped
        rcases List.mem_cons.mp member with rfl | member
        · exact absurd mapped unlisted
        · exact fun u bound counted alone => later.counted e member mapped u bound counted fun f inside =>
            alone f (List.mem_cons_of_mem _ inside)

theorem DirectWindow.fits {hhdm : Nat} {entries : List MemmapEntry} (window : DirectWindow hhdm entries)
    (some : ∀ e ∈ entries, isMapped e.type → 0 < e.length / 4096) :
    ∀ e ∈ entries, isMapped e.type → RangeFits (add64 e.base hhdm) (e.length / 4096) := by
  intro e member listed
  have positive := some e member listed
  have room := window.room e member listed
  refine ⟨positive, ?_⟩
  rw [window.start member listed positive]
  unfold pageOf
  omega

end sections

/-! ### The direct map -/

/-- Every address of a listed entry is translated to itself, writable and closed to users, and no page
without such an address is mapped. -/
def SectionsMapped (k : Kernel) (root : Nat) (entries : List MemmapEntry) : Prop :=
  (∀ e ∈ entries, isMapped e.type → ∀ a, InRange e.base e.length a →
    virtToPhys k root (k.hhdm + a) = a ∧ leafFlags k root (k.hhdm + a) = pflagPresent ||| pflagWrite ∧
      leafFlags k root (k.hhdm + a) &&& pflagUser = 0) ∧
  ∀ v, (∀ e ∈ entries, isMapped e.type → ∀ a, InRange e.base e.length a → pageOf (k.hhdm + a) ≠ pageOf v) →
    slot k root 3 (pageOf v) = 0

/-- The listed entries are whole pages. -/
def WholePages (entries : List MemmapEntry) : Prop :=
  ∀ e ∈ entries, isMapped e.type → e.base % 4096 = 0 ∧ e.length % 4096 = 0 ∧ 0 < e.length

section mapped

variable {root hhdm : Nat} {entries : List MemmapEntry} {k k' : Kernel} (window : DirectWindow k'.hhdm entries)
  (leaves : SectionLeaves k'.hhdm root entries k k') (zero : ∀ u, slot k root 3 u = 0)
include window leaves zero

theorem WholePages.mapped (map : LimineMap entries) (whole : WholePages entries) : SectionsMapped k' root entries := by
  have page := window.page
  constructor
  · intro e member listed a inside
    obtain ⟨base, length, _⟩ := whole e member listed
    have room := window.room e member listed
    unfold InRange at inside
    have place : pageOf (k'.hhdm + a) = pageOf k'.hhdm + a / 4096 := pageOf_direct page (by omega)
    have counted : Counted k'.hhdm e (pageOf (k'.hhdm + a)) := by
      unfold Counted
      omega
    have leaf := leaves.counted e member listed _ (pageOf_lt _) counted (map.alone member counted)
    have frame : (e.base + 4096 * (pageOf (k'.hhdm + a) - (pageOf k'.hhdm + e.base / 4096))) % 2 ^ 64 =
        a / 4096 * 4096 := by omega
    rw [frame] at leaf
    obtain ⟨translates, flags⟩ := leaf_translates leaf (by decide) (by decide)
    rw [Nat.mul_mod_left, Nat.zero_or] at flags
    refine ⟨?_, flags, by rw [flags]; rfl⟩
    rw [translates, pageAlignDown, Nat.mul_div_cancel _ (by decide), add64_of_lt (by omega)]
    omega
  · intro v outside
    rw [leaves.others _ (pageOf_lt v) fun e member listed counted => ?_, zero]
    obtain ⟨a, inside, here⟩ := counted.address
    have room := window.room e member listed
    have inside' := inside.2
    apply outside e member listed a inside
    rw [here, pageOf_direct page (by omega)]

theorem SectionsMapped.whole (map : LimineMap entries) (mapped : SectionsMapped k' root entries) : WholePages entries := by
  intro e member listed
  have page := window.page
  have room := window.room e member listed
  have some := leaves.some e member listed
  by_contra partly
  -- the last address lies behind the counted pages
  have place : pageOf (k'.hhdm + (e.base + e.length - 1)) = pageOf k'.hhdm + (e.base + e.length - 1) / 4096 :=
    pageOf_direct page (by omega)
  have last : InRange e.base e.length (e.base + e.length - 1) := by
    unfold InRange
    omega
  have empty := leaves.others _ (pageOf_lt (k'.hhdm + (e.base + e.length - 1))) (by
    intro f member' _ counted
    by_cases here : f = e
    · subst f
      unfold Counted at counted
      omega
    · obtain ⟨b, inside, there⟩ := counted.address
      exact map.apart member' member here inside last (by omega))
  have flags := (mapped.1 e member listed _ last).2.1
  rw [leafFlags_zero (empty.trans (zero _))] at flags
  cases flags

end mapped

/-- No call of `kmalloc` that `map_sections` makes runs out of memory. -/
def EnoughMemory (A : PageAllocator) (root : Nat) (k : Kernel) : Prop :=
  mapSections (marked A.kmalloc) root k.memmap k ≠ .error .fault

/-- When `map_sections` returns with the direct map of the memory map. -/
theorem mapSections_iff {A : PageAllocator} {k : Kernel} {root : Nat} (ready : A.Ready k) (empty : EmptyTree k root)
    (map : LimineMap k.memmap) (window : DirectWindow k.hhdm k.memmap) :
    (∃ k', mapSections A.kmalloc root k.memmap k = .ok ((), k') ∧ SectionsMapped k' root k.memmap) ↔
      WholePages k.memmap ∧ EnoughMemory A root k := by
  obtain ⟨tree, zero⟩ := empty.tree ready
  have same := mapSections_sameReturns (marked_sameReturns A.kmalloc) root k.memmap k
  constructor
  · rintro ⟨k', run, mapped⟩
    obtain ⟨leaves, hhdm⟩ := mapSections_leaves ready tree window run
    rw [← hhdm] at window leaves
    refine ⟨mapped.whole window leaves (zero 3) map, fun out => ?_⟩
    rw [(same _).mp run] at out
    cases out
  · rintro ⟨whole, enough⟩
    have some : ∀ e ∈ k.memmap, isMapped e.type → 0 < e.length / 4096 := by
      intro e member listed
      obtain ⟨_, length, positive⟩ := whole e member listed
      omega
    have returns : Sat (mapSections (marked A.kmalloc) root k.memmap) k
        (fun _ k' => Grows A.marked (fun _ => True) (fun _ => True) root k k') (· = .fault) :=
      mapSections_returns (A := A.marked) (fun _ _ _ _ _ h => marked_error h) ready tree (fun _ => trivial) (fun _ => id)
        (window.fits some)
    cases run : mapSections (marked A.kmalloc) root k.memmap k with
    | error e => exact absurd (run.trans (congrArg _ (returns.error run))) enough
    | ok pair =>
      have run := (same _).mpr run
      obtain ⟨leaves, hhdm⟩ := mapSections_leaves ready tree window run
      rw [← hhdm] at window leaves
      exact ⟨pair.2, run, whole.mapped window leaves (zero 3) map⟩

/-- One usable section of 64 pages. -/
theorem mapSections_iff_treeMachine : ∃ k', mapSections pmm.kmalloc (4096 + 2 ^ 47) treeMachine.memmap treeMachine =
    .ok ((), k') ∧ SectionsMapped k' (4096 + 2 ^ 47) treeMachine.memmap := by
  have empty : EmptyTree treeMachine (4096 + 2 ^ 47) :=
    ⟨⟨.pml4, 4096, 1⟩, List.mem_singleton.mpr rfl, Nat.le_refl 1, rfl, fun _ inside => fill_inside inside⟩
  have map : LimineMap treeMachine.memmap := by
    refine ⟨List.pairwise_singleton _ _, fun e member _ => ?_⟩
    obtain rfl := List.mem_singleton.mp member
    exact ⟨rfl, rfl, by decide⟩
  have window : DirectWindow treeMachine.hhdm treeMachine.memmap := by
    refine ⟨rfl, by decide, fun e member _ => ?_⟩
    obtain rfl := List.mem_singleton.mp member
    decide
  have returns : (mapSections (marked kmalloc) (4096 + 2 ^ 47) treeMachine.memmap treeMachine).toBool = true := by
    decide +kernel
  refine (mapSections_iff treeMachine_ready empty map window).mpr ⟨fun e member _ => ?_, fun out => ?_⟩
  · obtain rfl := List.mem_singleton.mp member
    exact ⟨rfl, rfl, by decide⟩
  · have out : mapSections (marked kmalloc) (4096 + 2 ^ 47) treeMachine.memmap treeMachine = _ := out
    rw [out] at returns
    cases returns

/-- A machine with an ACPI region of one and a half pages. -/
def nvsBoot : Kernel :=
  { smallMachine with
    memmap := [⟨0, 64 * 4096, .usable, smallSection_fits⟩, ⟨0x100000, 0x1800, .acpiNvs, by decide⟩] }

def nvsMachine : Kernel :=
  grantRun { smallMachineReady with memmap := nvsBoot.memmap } .pml4 ⟨0, 64 * 4096, .usable, smallSection_fits⟩ 0 1

theorem nvsMachine_ready : pmm.Ready nvsMachine := by
  have map : WellFormedMap nvsBoot.memmap := by
    refine ⟨?_, ?_, ?_⟩ <;> simp [nvsBoot, Apart]
  have boot : initPMM nvsBoot = .ok ((), { smallMachineReady with memmap := nvsBoot.memmap }) := rfl
  have window : DirectMapped { smallMachineReady with memmap := nvsBoot.memmap } := by
    simp [DirectMapped, nvsBoot, smallMachineReady, smallMachine]
  have run : pmm.kmalloc .pml4 1 { smallMachineReady with memmap := nvsBoot.memmap } = .ok (4096, nvsMachine) := rfl
  exact pmm.ready ⟨PmmInv.of_initPMM map rfl rfl boot, window⟩ run

/-- The second half page of the region is not mapped. -/
theorem mapSections_partial_page : ¬ ∀ (A : PageAllocator) (k : Kernel) (root : Nat), A.Ready k → EmptyTree k root →
    LimineMap k.memmap → DirectWindow k.hhdm k.memmap → EnoughMemory A root k →
    ∃ k', mapSections A.kmalloc root k.memmap k = .ok ((), k') ∧ SectionsMapped k' root k.memmap := by
  intro maps
  have empty : EmptyTree nvsMachine (4096 + 2 ^ 47) :=
    ⟨⟨.pml4, 4096, 1⟩, List.mem_singleton.mpr rfl, Nat.le_refl 1, rfl, fun _ inside => fill_inside inside⟩
  have map : LimineMap nvsMachine.memmap := by
    refine ⟨List.pairwise_pair.mpr fun a b left right => ?_, fun e member => ?_⟩
    · unfold InRange at left right
      dsimp only at left right
      omega
    · rcases List.mem_pair.mp member with rfl | rfl
      · exact fun _ => ⟨rfl, rfl, by decide⟩
      · exact fun listed => by rcases listed with listed | listed <;> cases listed
  have window : DirectWindow nvsMachine.hhdm nvsMachine.memmap := by
    refine ⟨rfl, by decide, fun e member _ => ?_⟩
    rcases List.mem_pair.mp member with rfl | rfl <;> decide
  have flags : (match mapSections (marked kmalloc) (4096 + 2 ^ 47) nvsMachine.memmap nvsMachine with
      | .ok (_, k') => leafFlags k' (4096 + 2 ^ 47) (k'.hhdm + 0x101000) == 0
      | .error _ => false) = true := by
    decide +kernel
  cases run : mapSections (marked kmalloc) (4096 + 2 ^ 47) nvsMachine.memmap nvsMachine with
  | error e => rw [run] at flags; cases flags
  | ok pair =>
    rw [run] at flags
    have enough : EnoughMemory pmm (4096 + 2 ^ 47) nvsMachine := fun out => by cases run.symm.trans out
    obtain ⟨k', run', mapped⟩ := maps pmm nvsMachine (4096 + 2 ^ 47) nvsMachine_ready empty map window enough
    have same := (mapSections_sameReturns (marked_sameReturns kmalloc) _ _ _ _).mp run'
    obtain rfl : pair = ((), k') := Except.ok.inj (run.symm.trans same)
    have listed : ⟨0x100000, 0x1800, .acpiNvs, by decide⟩ ∈ nvsMachine.memmap := List.mem_cons_of_mem _ List.mem_cons_self
    have expected := (mapped.1 _ listed rfl 0x101000 ⟨by decide, by decide⟩).2.1
    rw [beq_iff_eq.mp flags] at expected
    cases expected

end PotatOS.Mem
