import PotatOS.Mem.MapPages

/-!
# The kernel image (`map_kernel`)

`map_kernel` rounds the start of each part down and its length up, and does not
round the physical address at all. The leaf entries after it are exact; what
they mean for the image depends on where `p_writeallowed_start` lies in its page.
-/

namespace PotatOS.KernelImage

/-- The symbols of `linker.ld` and the bootloader's answer. -/
structure Valid (image : KernelImage) : Prop where
  kernelStart : image.kernelStart % 4096 = 0
  physicalBase : image.physicalBase % 4096 = 0 ∧ image.physicalBase < 2 ^ 64
  virtualBase : image.virtualBase = image.kernelStart
  order : image.kernelStart < image.writeallowedStart ∧ image.writeallowedStart < image.kernelEnd
  address : image.kernelEnd < 2 ^ 64

def Holds (image : KernelImage) (a : Nat) : Prop := image.kernelStart ≤ a ∧ a < image.kernelEnd

/-- Where the bootloader put the byte at `a`. -/
def physical (image : KernelImage) (a : Nat) : Nat := add64 image.physicalBase (sub64 a image.virtualBase)

theorem Valid.physical_eq {image : KernelImage} (valid : image.Valid) {a : Nat} (lower : image.kernelStart ≤ a) :
    image.physical a = (image.physicalBase + (a - image.kernelStart)) % 2 ^ 64 := by
  rw [physical, valid.virtualBase, sub64_of_le lower, add64]

/-- The image is not in memory that `kmalloc` gives out. -/
def Outside (image : KernelImage) (memmap : List MemmapEntry) : Prop :=
  ∀ a, image.Holds a → ∀ e ∈ memmap, e.type = .usable → ¬ Memory.InRange e.base e.length (image.physical a)

/-- The numbers of pages of the two parts, as the code computes them. -/
def textPages (image : KernelImage) : Nat :=
  pageAlignUp (sub64 image.writeallowedStart image.kernelStart) / 4096

def dataPages (image : KernelImage) : Nat :=
  pageAlignUp (sub64 image.kernelEnd image.writeallowedStart) / 4096

end PotatOS.KernelImage

namespace PotatOS.Mem

open Memory Prog

/-- A page tree that is one cleared frame. -/
def EmptyTree (k : Kernel) (root : Nat) : Prop :=
  ∃ g ∈ k.granted, 1 ≤ g.pages ∧ root = g.addr + k.hhdm ∧ ∀ x, InRange root 4096 x → k.mem x = 0

theorem EmptyTree.tree {A : PageAllocator} {k : Kernel} {root : Nat} (empty : EmptyTree k root) (ready : A.Ready k) :
    WellFormedTree k root ∧ ∀ d n, slot k root d n = 0 := by
  obtain ⟨g, taken, pages, rfl, zero⟩ := empty
  exact TreeOk.of_zero taken trivial pages ((A.ledger ready).aligned g taken) zero

/-! ### Leaf entries and addresses -/

theorem pageAlignDown_mod (x : Nat) : pageAlignDown x % 4096 = 0 := Nat.mul_mod_left _ _

theorem pages_alignUp {n : Nat} (small : n < 2 ^ 64) (some : 0 < pageAlignUp n / 4096) :
    pageAlignUp n / 4096 * 4096 < n + 4096 ∧ n ≤ pageAlignUp n / 4096 * 4096 := by
  unfold pageAlignUp add64 at *
  omega

theorem or_split {x flags : Nat} (small : flags < 4096) :
    x ||| flags = pageAlignDown x + (x % 4096 ||| flags) := by
  have low : x % 4096 ||| flags < 4096 := Nat.or_lt_two_pow (n := 12) (Nat.mod_lt _ (by decide)) small
  have whole : x = pageAlignDown x ||| x % 4096 := by
    rw [or_low (pageAlignDown_mod x) (Nat.mod_lt _ (by decide)), pageAlignDown]
    omega
  calc x ||| flags = pageAlignDown x ||| (x % 4096 ||| flags) := by rw [← Nat.or_assoc, ← whole]
    _ = _ := or_low (pageAlignDown_mod x) low

/-- What a leaf entry says about the addresses of its page. -/
theorem leaf_translates {k : Kernel} {root a x flags : Nat} (leaf : slot k root 3 (pageOf a) = x ||| flags)
    (small : flags < 4096) (some : 0 < flags) :
    virtToPhys k root a = add64 (pageAlignDown x) (a % 4096) ∧ leafFlags k root a = x % 4096 ||| flags := by
  have low : x % 4096 ||| flags < 4096 := Nat.or_lt_two_pow (n := 12) (Nat.mod_lt _ (by decide)) small
  have more : flags ≤ x % 4096 ||| flags := Nat.right_le_or
  have entry := leaf.trans (or_split small)
  have down : pageAlignDown (pageAlignDown x + (x % 4096 ||| flags)) = pageAlignDown x := by
    unfold pageAlignDown
    omega
  constructor
  · rw [virtToPhys_eq, entry, if_neg (by omega), down]
  · rw [leafFlags, entry]
    unfold pageAlignDown
    omega

theorem leafFlags_zero {k : Kernel} {root a : Nat} (leaf : slot k root 3 (pageOf a) = 0) :
    leafFlags k root a = 0 := by
  rw [leafFlags, leaf]

theorem virtToPhys_high (k : Kernel) (root a : Nat) : virtToPhys k root (a + 2 ^ 48) = virtToPhys k root a := by
  have page : pageOf (a + 2 ^ 48) = pageOf a := by
    unfold pageOf
    omega
  have offset : (a + 2 ^ 48) % 4096 = a % 4096 := by omega
  rw [virtToPhys_eq, virtToPhys_eq, page, offset]

theorem pageOf_run {base n a : Nat} (space : pageOf base + n ≤ 512 ^ 4) (lower : pageAlignDown base ≤ a)
    (near : a < pageAlignDown base + 2 ^ 48) :
    (pageOf base ≤ pageOf a ∧ pageOf a < pageOf base + n ↔ a < pageAlignDown base + n * 4096) ∧
      (a < pageAlignDown base + n * 4096 → pageOf a - pageOf base = (a - pageAlignDown base) / 4096) := by
  unfold pageOf pageAlignDown at *
  constructor <;> omega

theorem pageOf_before {base n a : Nat} (lower : a < pageAlignDown base)
    (near : pageAlignDown base + n * 4096 ≤ pageAlignDown a + 2 ^ 48) :
    ¬ (pageOf base ≤ pageOf a ∧ pageOf a < pageOf base + n) := by
  unfold pageOf pageAlignDown at *
  omega

/-! ### What `map_kernel` writes -/

/-- Page `u` is one of the kernel stack's. -/
def StackPage (u : Nat) : Prop := pageOf kernelStackAddr ≤ u ∧ u < pageOf kernelStackAddr + kernelStackPages

instance (u : Nat) : Decidable (StackPage u) := inferInstanceAs (Decidable (_ ∧ _))

/-- The leaf entry of page `u` before the stack is allocated. The later part wins. -/
def imageLeaf (image : KernelImage) (u : Nat) : Nat :=
  if pageOf image.writeallowedStart ≤ u ∧ u < pageOf image.writeallowedStart + image.dataPages then
    (image.physical image.writeallowedStart + 4096 * (u - pageOf image.writeallowedStart)) % 2 ^ 64 |||
      (pflagPresent ||| pflagWrite)
  else if pageOf image.kernelStart ≤ u ∧ u < pageOf image.kernelStart + image.textPages then
    (image.physical image.kernelStart + 4096 * (u - pageOf image.kernelStart)) % 2 ^ 64 ||| pflagPresent
  else 0

structure ImageLeaves (image : KernelImage) (k' : Kernel) (root : Nat) : Prop where
  ready : pmm.Ready k'
  text : 0 < image.textPages ∧ pageOf image.kernelStart + image.textPages ≤ 512 ^ 4
  data : 0 < image.dataPages ∧ pageOf image.writeallowedStart + image.dataPages ≤ 512 ^ 4
  stack : ∀ u < 512 ^ 4, StackPage u →
    ∃ g ∈ k'.granted, 1 ≤ g.pages ∧ slot k' root 3 u = g.addr ||| (pflagPresent ||| pflagWrite)
  leaf : ∀ u < 512 ^ 4, ¬ StackPage u → slot k' root 3 u = imageLeaf image u

theorem pageOf_alignDown (a : Nat) : pageOf (pageAlignDown a) = pageOf a := by
  unfold pageOf pageAlignDown
  omega

theorem mapKernel_leaves {k k' : Kernel} {root : Nat} (ready : pmm.Ready k) (empty : EmptyTree k root)
    (h : mapKernel kmalloc root k = .ok ((), k')) : ImageLeaves k.image k' root ∧ k'.memmap = k.memmap := by
  obtain ⟨tree, zero⟩ := empty.tree ready
  have pages : ∀ x, pageAlignUp x / 4096 < 2 ^ 64 := by
    intro x
    unfold pageAlignUp add64
    omega
  unfold mapKernel at h
  rw [bind_eq run_get] at h
  obtain ⟨_, k₁, text, h⟩ := bind_ok h
  obtain ⟨_, k₂, data, h⟩ := bind_ok h
  have sub : ∀ _ : Grant, True → True := fun _ _ => trivial
  obtain ⟨some₁, space₁, grows₁, leaves₁⟩ := mapPages_ok ready tree (fun _ => trivial) sub (by decide) (pages _) text
  obtain ⟨some₂, space₂, grows₂, leaves₂⟩ := mapPages_ok grows₁.touches.ready grows₁.ok
    (fun _ => trivial) sub (by decide) (pages _) data
  obtain ⟨grows₃, others, stack⟩ := allocPages_ok grows₂.touches.ready grows₂.ok
    (fun _ => trivial) sub (fun _ => trivial) (by decide) (by decide) (by decide) h
  rw [pageOf_alignDown] at space₁ leaves₁ space₂ leaves₂
  have setup := (grows₁.touches.trans grows₂.touches).trans grows₃.touches
  refine ⟨⟨setup.ready, ⟨some₁, space₁⟩, ⟨some₂, space₂⟩, ?_, ?_⟩, setup.setup.memmap⟩
  · intro u bound inside
    obtain ⟨g, taken, _, single, leaf⟩ := stack u bound inside.1 inside.2
    exact ⟨g, taken, by omega, leaf⟩
  · intro u bound outside
    rw [others u bound outside, leaves₂ u bound, mappedLeaves, leaves₁ u bound, mappedLeaves, zero]
    rfl

/-! ### What this means for the image -/

/-- Every address of the image is translated, the text part is read-only and the pages from the
writable part on are writable. -/
def ImageMapped (image : KernelImage) (k : Kernel) (root : Nat) : Prop :=
  ∀ a, image.Holds a →
    virtToPhys k root a = image.physical a ∧
    (pageAlignDown a + 4096 ≤ image.writeallowedStart → leafFlags k root a = pflagPresent) ∧
    (pageAlignDown image.writeallowedStart ≤ a → leafFlags k root a = pflagPresent ||| pflagWrite) ∧
    leafFlags k root a &&& pflagUser = 0

/-- The writable part starts in the first 4 bytes of a page, not later in its page than the image
ends in its last one, and the image fits in the address space beside the stack. -/
structure Mappable (image : KernelImage) : Prop where
  start : image.writeallowedStart % 4096 < 4
  covered : image.kernelEnd % 4096 = 0 ∨ image.writeallowedStart % 4096 < image.kernelEnd % 4096
  span : image.kernelEnd - image.kernelStart ≤ 2 ^ 48
  besideStack : ∀ a, image.Holds a → ¬ StackPage (pageOf a)

section image

variable {image : KernelImage} {k : Kernel} {root : Nat} (valid : image.Valid) (leaves : ImageLeaves image k root)
include valid leaves

theorem ImageLeaves.textPages_eq : image.textPages * 4096 < image.writeallowedStart - image.kernelStart + 4096 ∧
    image.writeallowedStart - image.kernelStart ≤ image.textPages * 4096 := by
  have order := valid.order
  have address := valid.address
  have some := leaves.text.1
  unfold KernelImage.textPages at *
  rw [sub64_of_le (by omega)] at *
  exact pages_alignUp (by omega) some

theorem ImageLeaves.dataPages_eq : image.dataPages * 4096 < image.kernelEnd - image.writeallowedStart + 4096 ∧
    image.kernelEnd - image.writeallowedStart ≤ image.dataPages * 4096 := by
  have order := valid.order
  have address := valid.address
  have some := leaves.data.1
  unfold KernelImage.dataPages at *
  rw [sub64_of_le (by omega)] at *
  exact pages_alignUp (by omega) some

/-- When the rounded length of the writable part reaches its end. -/
theorem ImageLeaves.covered_iff :
    image.kernelEnd ≤ pageAlignDown image.writeallowedStart + image.dataPages * 4096 ↔
      image.kernelEnd % 4096 = 0 ∨ image.writeallowedStart % 4096 < image.kernelEnd % 4096 := by
  have order := valid.order
  have data := leaves.dataPages_eq valid
  unfold pageAlignDown
  omega

/-- The pages of the writable part. The low bits of its physical address end up among the flags. -/
theorem ImageLeaves.dataPage {a : Nat} (lower : pageAlignDown image.writeallowedStart ≤ a)
    (upper : a < pageAlignDown image.writeallowedStart + image.dataPages * 4096) (beside : ¬ StackPage (pageOf a)) :
    virtToPhys k root a = image.physical a ∧
      leafFlags k root a = image.writeallowedStart % 4096 ||| (pflagPresent ||| pflagWrite) := by
  have order := valid.order
  have start := valid.kernelStart
  have base := valid.physicalBase
  have space := leaves.data.2
  have above : image.kernelStart ≤ a := by unfold pageAlignDown at lower; omega
  obtain ⟨inside, offset⟩ := pageOf_run space lower (by omega)
  have leaf := leaves.leaf (pageOf a) (pageOf_lt a) beside
  rw [imageLeaf, if_pos (inside.mpr upper), offset upper, valid.physical_eq order.1.le] at leaf
  obtain ⟨translates, flags⟩ := leaf_translates leaf (by decide) (by decide)
  rw [translates, flags, valid.physical_eq above]
  clear translates flags leaf inside offset leaves valid
  unfold pageAlignDown at *
  constructor
  · unfold add64
    omega
  · congr 1
    omega

theorem ImageLeaves.textPage {a : Nat} (span : image.kernelEnd - image.kernelStart ≤ 2 ^ 48)
    (lower : image.kernelStart ≤ a) (upper : a < pageAlignDown image.writeallowedStart)
    (beside : ¬ StackPage (pageOf a)) :
    virtToPhys k root a = image.physical a ∧ leafFlags k root a = pflagPresent := by
  have order := valid.order
  have start := valid.kernelStart
  have base := valid.physicalBase
  have text := leaves.textPages_eq valid
  have data := leaves.dataPages_eq valid
  have first : pageAlignDown image.kernelStart = image.kernelStart := by unfold pageAlignDown; omega
  have below : pageAlignDown image.writeallowedStart ≤ image.writeallowedStart := Nat.div_mul_le_self _ _
  have later : ¬ (pageOf image.writeallowedStart ≤ pageOf a ∧
      pageOf a < pageOf image.writeallowedStart + image.dataPages) := by
    have page : image.kernelStart ≤ pageAlignDown a := by unfold pageAlignDown; omega
    have whole := pageAlignDown_mod image.writeallowedStart
    apply pageOf_before upper
    omega
  obtain ⟨inside, offset⟩ := pageOf_run leaves.text.2 (first.le.trans lower) (by omega)
  have leaf := leaves.leaf (pageOf a) (pageOf_lt a) beside
  rw [imageLeaf, if_neg later, if_pos (inside.mpr (by omega)), offset (by omega), first,
    valid.physical_eq (Nat.le_refl _), Nat.sub_self, Nat.add_zero] at leaf
  obtain ⟨translates, flags⟩ := leaf_translates leaf (by decide) (by decide)
  rw [translates, flags, valid.physical_eq lower]
  clear translates flags leaf inside offset leaves valid later
  constructor
  · unfold pageAlignDown add64
    omega
  · have aligned : (image.physicalBase % 2 ^ 64 + 4096 * ((a - image.kernelStart) / 4096)) % 2 ^ 64 % 4096 = 0 := by
      omega
    rw [aligned]
    rfl

theorem Mappable.imageMapped (fits : Mappable image) : ImageMapped image k root := by
  intro a holds
  have order := valid.order
  have beside := fits.besideStack a holds
  by_cases part : a < pageAlignDown image.writeallowedStart
  · obtain ⟨translates, flags⟩ := leaves.textPage valid fits.span holds.1 part beside
    exact ⟨translates, fun _ => flags, fun later => by omega, by rw [flags]; rfl⟩
  · have reach := (leaves.covered_iff valid).mpr fits.covered
    have holds' := holds.2
    obtain ⟨translates, flags⟩ := leaves.dataPage valid (by omega) (by omega) beside
    have low : ∀ n < 4, n ||| (pflagPresent ||| pflagWrite) = pflagPresent ||| pflagWrite := by decide
    rw [low _ fits.start] at flags
    refine ⟨translates, fun earlier => ?_, fun _ => flags, by rw [flags]; rfl⟩
    unfold pageAlignDown at *
    omega

omit valid in
/-- No frame of the image is free memory, so a stack page in the image shows. -/
theorem ImageMapped.besideStack (mapped : ImageMapped image k root)
    (outside : image.Outside k.memmap)
    (a : Nat) (holds : image.Holds a) : ¬ StackPage (pageOf a) := by
  intro inStack
  obtain ⟨g, taken, some, leaf⟩ := leaves.stack (pageOf a) (pageOf_lt a) inStack
  have aligned := (pmm.ledger leaves.ready).aligned g taken
  have window := (pmm.ledger leaves.ready).mapped g taken
  have translates := (leaf_translates leaf (by decide) (by decide)).1
  have down : pageAlignDown g.addr = g.addr := by unfold pageAlignDown; omega
  rw [down, add64_of_lt (by omega), (mapped a holds).1] at translates
  obtain ⟨e, member, usable, lower, upper⟩ := (leaves.ready.1.marked g taken).fits leaves.ready.1.map
  apply outside a holds e member usable
  rw [translates]
  unfold InRange
  omega

theorem ImageMapped.mappable (mapped : ImageMapped image k root)
    (outside : image.Outside k.memmap) :
    Mappable image := by
  have order := valid.order
  have start := valid.kernelStart
  have text := leaves.textPages_eq valid
  have data := leaves.dataPages_eq valid
  have some := leaves.data.1
  have whole := pageAlignDown_mod image.writeallowedStart
  have below : pageAlignDown image.writeallowedStart ≤ image.writeallowedStart := Nat.div_mul_le_self _ _
  have above : image.writeallowedStart < pageAlignDown image.writeallowedStart + 4096 := by
    unfold pageAlignDown
    omega
  have beside := mapped.besideStack leaves outside
  have span : image.kernelEnd - image.kernelStart ≤ 2 ^ 48 := by
    by_contra long
    have first := (mapped image.kernelStart ⟨Nat.le_refl _, by omega⟩).1
    have again := (mapped (image.kernelStart + 2 ^ 48) ⟨by omega, by omega⟩).1
    rw [virtToPhys_high, first, valid.physical_eq (by omega), valid.physical_eq (by omega)] at again
    omega
  refine ⟨?_, ?_, span, beside⟩
  · have holds : image.Holds image.writeallowedStart := ⟨order.1.le, order.2⟩
    have flags := (leaves.dataPage valid below (by unfold pageAlignDown at *; omega) (beside _ holds)).2
    rw [(mapped _ holds).2.2.1 below] at flags
    have low : image.writeallowedStart % 4096 ≤ image.writeallowedStart % 4096 ||| (pflagPresent ||| pflagWrite) :=
      Nat.left_le_or
    rw [← flags] at low
    exact Nat.lt_succ_of_le low
  · apply (leaves.covered_iff valid).mp
    by_contra short
    generalize last : pageAlignDown image.writeallowedStart + image.dataPages * 4096 = a at short
    have holds : image.Holds a := ⟨by omega, by omega⟩
    have down : pageAlignDown a = a := by unfold pageAlignDown; omega
    have later : ¬ (pageOf image.writeallowedStart ≤ pageOf a ∧
        pageOf a < pageOf image.writeallowedStart + image.dataPages) := by
      intro inside
      have place := (pageOf_run leaves.data.2 (a := a) (by omega) (by omega)).1.mp inside
      omega
    have earlier : ¬ (pageOf image.kernelStart ≤ pageOf a ∧ pageOf a < pageOf image.kernelStart + image.textPages) := by
      intro inside
      have first : pageAlignDown image.kernelStart = image.kernelStart := by unfold pageAlignDown; omega
      have place := (pageOf_run leaves.text.2 (a := a) (by omega) (by omega)).1.mp inside
      omega
    have leaf := leaves.leaf (pageOf a) (pageOf_lt a) (beside a holds)
    rw [imageLeaf, if_neg later, if_neg earlier] at leaf
    have flags := (mapped a holds).2.2.1 (by omega)
    rw [leafFlags_zero leaf] at flags
    cases flags

end image

/-- When `map_kernel` gives the image its addresses and permissions. -/
theorem mapKernel_image_iff {k k' : Kernel} {root : Nat} (ready : pmm.Ready k) (empty : EmptyTree k root)
    (valid : k.image.Valid)
    (outside : k.image.Outside k.memmap)
    (h : mapKernel kmalloc root k = .ok ((), k')) : ImageMapped k.image k' root ↔ Mappable k.image := by
  obtain ⟨leaves, memmap⟩ := mapKernel_leaves ready empty h
  rw [← memmap] at outside
  constructor
  · intro mapped
    exact mapped.mappable valid leaves outside
  · intro fits
    exact fits.imageMapped valid leaves

/-- `treeMachine` with a kernel image. -/
def imageMachine (writeallowedStart kernelEnd : Nat) : Kernel :=
  { treeMachine with image := ⟨0x100000, 2 ^ 64 - 2 ^ 31, 2 ^ 64 - 2 ^ 31, writeallowedStart, kernelEnd⟩ }

theorem ready_withImage {k : Kernel} (ready : pmm.Ready k) (image : KernelImage) : pmm.Ready { k with image } :=
  pmm.frame ready rfl rfl rfl rfl rfl fun _ _ => rfl

theorem imageMachine_ready (writeallowedStart kernelEnd : Nat) : pmm.Ready (imageMachine writeallowedStart kernelEnd) :=
  ready_withImage treeMachine_ready _

theorem imageMachine_empty (writeallowedStart kernelEnd : Nat) :
    EmptyTree (imageMachine writeallowedStart kernelEnd) (4096 + 2 ^ 47) := by
  have zero : ∀ x, InRange (4096 + 2 ^ 47) 4096 x → treeMachine.mem x = 0 := fun x inside => fill_inside inside
  have taken : ⟨.pml4, 4096, 1⟩ ∈ treeMachine.granted := List.mem_singleton.mpr rfl
  exact ⟨_, taken, Nat.le_refl 1, rfl, zero⟩

theorem imageMachine_outside {writeallowedStart kernelEnd : Nat} (small : kernelEnd < 2 ^ 64) :
    (imageMachine writeallowedStart kernelEnd).image.Outside (imageMachine writeallowedStart kernelEnd).memmap := by
  intro a holds e member _ inside
  obtain rfl := List.mem_singleton.mp member
  have lower : 2 ^ 64 - 2 ^ 31 ≤ a := holds.1
  have upper : a < kernelEnd := holds.2
  have place : (imageMachine writeallowedStart kernelEnd).image.physical a = 0x100000 + (a - (2 ^ 64 - 2 ^ 31)) := by
    show add64 0x100000 (sub64 a (2 ^ 64 - 2 ^ 31)) = _
    rw [sub64_of_le lower, add64_of_lt (by omega)]
  rw [place] at inside
  unfold InRange at inside
  dsimp only at inside
  omega

/-- A writable part that starts on a page. -/
theorem mapKernel_image_iff_imageMachine : ∃ k', mapKernel kmalloc (4096 + 2 ^ 47)
      (imageMachine (2 ^ 64 - 2 ^ 31 + 0x2000) (2 ^ 64 - 2 ^ 31 + 0x3010)) = .ok ((), k') ∧
    ImageMapped (imageMachine (2 ^ 64 - 2 ^ 31 + 0x2000) (2 ^ 64 - 2 ^ 31 + 0x3010)).image k' (4096 + 2 ^ 47) := by
  generalize machine : imageMachine (2 ^ 64 - 2 ^ 31 + 0x2000) (2 ^ 64 - 2 ^ 31 + 0x3010) = k
  have returns : (mapKernel kmalloc (4096 + 2 ^ 47) k).toBool = true := by
    subst k
    decide +kernel
  cases h : mapKernel kmalloc (4096 + 2 ^ 47) k with
  | error e => rw [h] at returns; cases returns
  | ok pair =>
    subst k
    refine ⟨pair.2, rfl, (mapKernel_image_iff (imageMachine_ready _ _) (imageMachine_empty _ _)
      ⟨by decide, by decide, rfl, by decide, by decide⟩ (imageMachine_outside (by decide)) h).mpr ?_⟩
    refine ⟨by decide, by decide, by decide, fun a holds inStack => ?_⟩
    have lower : 2 ^ 64 - 2 ^ 31 ≤ a := holds.1
    have upper : a < 2 ^ 64 - 2 ^ 31 + 0x3010 := holds.2
    unfold StackPage pageOf kernelStackAddr kernelStackPages at inStack
    omega

/-- A writable part that starts 16 bytes into a page gets a leaf entry with bit 4 of its address. -/
theorem mapKernel_unaligned_data : ¬ ∀ (k k' : Kernel) (root : Nat), pmm.Ready k → EmptyTree k root → k.image.Valid →
    k.image.Outside k.memmap → mapKernel kmalloc root k = .ok ((), k') → ImageMapped k.image k' root := by
  intro exact
  generalize machine : imageMachine (2 ^ 64 - 2 ^ 31 + 0x2010) (2 ^ 64 - 2 ^ 31 + 0x3000) = k at exact
  have flags : (match mapKernel kmalloc (4096 + 2 ^ 47) k with
      | .ok (_, k') => leafFlags k' (4096 + 2 ^ 47) (2 ^ 64 - 2 ^ 31 + 0x2010) == 0x13
      | .error _ => false) = true := by
    subst k
    decide +kernel
  cases h : mapKernel kmalloc (4096 + 2 ^ 47) k with
  | error e => rw [h] at flags; cases flags
  | ok pair =>
    rw [h] at flags
    have flags := beq_iff_eq.mp flags
    subst k
    have mapped := exact _ pair.2 (4096 + 2 ^ 47) (imageMachine_ready _ _) (imageMachine_empty _ _)
      ⟨by decide, by decide, rfl, by decide, by decide⟩ (imageMachine_outside (by decide)) h (2 ^ 64 - 2 ^ 31 + 0x2010)
      ⟨by decide, by decide⟩
    have expected := mapped.2.2.1 (by decide)
    rw [flags] at expected
    cases expected

end PotatOS.Mem
