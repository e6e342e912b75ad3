import PotatOS.Tasks.Arguments

/-!
# Where the segments of a program end up

The image is laid out from the lowest address on and mapped page by page, so it
lies where the headers say when that address starts a page and the segment that
the code takes for the last one ends last.
-/

namespace PotatOS.Tasks

open Memory Mem Prog

/-- What the format asks of the headers. -/
structure ElfRules (bytes : List UInt8) : Prop where
  elf : IsElf bytes
  header : 64 ≤ bytes.length
  table : headersAt bytes + 56 * entryCount bytes ≤ bytes.length
  loadable : ∃ i, Loads bytes i
  ranges : ∀ i, Loads bytes i → (segment bytes i).virtualAddress + (segment bytes i).sizeInMemory ≤ 2 ^ 64
  disjoint : ∀ i j, Loads bytes i → Loads bytes j → i ≠ j →
    Apart (segment bytes i).virtualAddress (segment bytes i).sizeInMemory (segment bytes j).virtualAddress
      (segment bytes j).sizeInMemory
  sizes : ∀ i, Loads bytes i → (segment bytes i).sizeInFile ≤ (segment bytes i).sizeInMemory
  file : ∀ i, Loads bytes i → (segment bytes i).offset + (segment bytes i).sizeInFile ≤ bytes.length
  congruent : ∀ i, Loads bytes i → (segment bytes i).virtualAddress % 4096 = (segment bytes i).offset % 4096

/-- The page of the address is mapped, and the byte behind it is `b`. -/
def Shows (k : Kernel) (root virtAddr : Nat) (b : UInt8) : Prop :=
  slot k root 3 (pageOf virtAddr) &&& pflagPresent ≠ 0 ∧ k.phys (virtToPhys k root virtAddr) = b

instance (k : Kernel) (root virtAddr : Nat) (b : UInt8) : Decidable (Shows k root virtAddr b) :=
  inferInstanceAs (Decidable (_ ∧ _))

/-- Every byte of every loadable segment stands at its address, with zeros behind
the bytes of the file. -/
def SegmentsPlaced (k : Kernel) (root : Nat) (bytes : List UInt8) : Prop :=
  ∀ i, Loads bytes i → ∀ t < (segment bytes i).sizeInMemory,
    Shows k root ((segment bytes i).virtualAddress + t)
      (if t < (segment bytes i).sizeInFile then fileMem bytes ((segment bytes i).offset + t) else 0)

/-- Bytes of a loadable segment lie on the page. -/
def SegmentPage (bytes : List UInt8) (u : Nat) : Prop :=
  ∃ i, Loads bytes i ∧ ∃ t < (segment bytes i).sizeInMemory, u = pageOf ((segment bytes i).virtualAddress + t)

/-- The files that the loader places. -/
structure Placeable (k : Kernel) (bytes : List UInt8) : Prop where
  aligned : (fileImage bytes).first.virtualAddress % 4096 = 0
  last : Loads bytes (lastIndex bytes)
  ends : ∀ i, Loads bytes i → (segment bytes i).virtualAddress + (segment bytes i).sizeInMemory ≤
    ((fileImage bytes).last.virtualAddress + (fileImage bytes).last.sizeInMemory + 4095) / 4096 * 4096
  clear : ∀ u, SegmentPage bytes u → ¬ StackPage u ∧ ¬ ArgumentPage u ∧ ¬ ApicPage k u

/-! ### The copy loop -/

section copy

variable {m : Mem} {buffer copyTo : Nat} {bytes : List UInt8}

theorem placeSegment_effect (window : Window m buffer copyTo bytes) {s : Nat} (bound : s < entryCount bytes)
    (inside : Loads bytes s → SegmentInBounds bytes s) :
    (∀ x, (Loads bytes s → ¬ InRange (copyTo + placeOf bytes s) (segment bytes s).sizeInFile x) →
      placeSegment buffer (add64 buffer (headersAt bytes)) copyTo (fileImage bytes).first.virtualAddress m s x = m x) ∧
    (Loads bytes s → ∀ t < (segment bytes s).sizeInFile,
      placeSegment buffer (add64 buffer (headersAt bytes)) copyTo (fileImage bytes).first.virtualAddress m s
        (copyTo + placeOf bytes s + t) = fileMem bytes ((segment bytes s).offset + t)) := by
  have type := type_eq window.holds (window.table.types s bound)
  unfold placeSegment
  rw [type]
  by_cases loads : (segment bytes s).type = 1
  · rw [if_pos loads]
    obtain ⟨header, file, frames⟩ := inside ⟨bound, loads⟩
    obtain ⟨offset, address, size⟩ := fields_eq window.holds header
    rw [offset, address, size]
    change (segment bytes s).sizeInFile = 0 ∨ placeOf bytes s + _ ≤ _ at frames
    change (∀ x, _ → copy m (add64 copyTo (placeOf bytes s)) _ _ x = m x) ∧
      (_ → ∀ t < _, copy m (add64 copyTo (placeOf bytes s)) _ _ _ = _)
    rcases Nat.eq_zero_or_pos (segment bytes s).sizeInFile with none | some
    · rw [none]
      exact ⟨fun x _ => rfl, fun _ t small => absurd small (Nat.not_lt_zero t)⟩
    · have space := window.frames
      have fits := window.holds.fits
      have apart := window.apart
      have target : add64 copyTo (placeOf bytes s) = copyTo + placeOf bytes s := add64_of_lt (by omega)
      have source : add64 (segment bytes s).offset buffer = buffer + (segment bytes s).offset := by
        rw [add64_comm, add64_of_lt (by omega)]
      rw [target, source]
      refine ⟨fun x far => copy_outside (far ⟨bound, loads⟩), fun _ t small => ?_⟩
      rw [copy_inside (by unfold Apart at *; omega) small, Nat.add_assoc]
      exact window.holds.byte _ (by omega)
  · rw [if_neg loads]
    exact ⟨fun _ _ => rfl, fun both => absurd both.2 loads⟩

theorem placeSegments_effect (window : Window m buffer copyTo bytes)
    (bounds : ∀ i, Loads bytes i → SegmentInBounds bytes i)
    (apart : ∀ i j, Loads bytes i → Loads bytes j → i ≠ j →
      Apart (placeOf bytes i) (segment bytes i).sizeInFile (placeOf bytes j) (segment bytes j).sizeInFile)
    {n s : Nat} (rounds : s + n = entryCount bytes) :
    (∀ x, (∀ i, s ≤ i → Loads bytes i → ¬ InRange (copyTo + placeOf bytes i) (segment bytes i).sizeInFile x) →
      placeSegments buffer (add64 buffer (headersAt bytes)) copyTo (fileImage bytes).first.virtualAddress n s m x = m x) ∧
    (∀ i, s ≤ i → Loads bytes i → ∀ t < (segment bytes i).sizeInFile,
      placeSegments buffer (add64 buffer (headersAt bytes)) copyTo (fileImage bytes).first.virtualAddress n s m
        (copyTo + placeOf bytes i + t) = fileMem bytes ((segment bytes i).offset + t)) := by
  induction n generalizing m s with
  | zero =>
    refine ⟨fun _ _ => rfl, fun i above loads => ?_⟩
    have := loads.1
    omega
  | succ n ih =>
    obtain ⟨others, here⟩ := placeSegment_effect window (s := s) (by omega) (bounds s)
    have next := window.congr fun x far => placeSegment_outside window (s := s) (by omega) (bounds s) far
    obtain ⟨later, values⟩ := ih (s := s + 1) next (by omega)
    refine ⟨fun x far => ?_, fun i above loads t small => ?_⟩
    · rw [placeSegments, later x fun i above => far i (by omega), others x (far s (Nat.le_refl s))]
    · rw [placeSegments]
      rcases Nat.eq_or_lt_of_le above with rfl | more
      · rw [later _ fun j above loads' inside => ?_, here loads t small]
        have separate := apart s j loads loads' (by omega)
        unfold Apart at separate
        unfold InRange at inside
        omega
      · exact values i more loads t small

end copy

/-! ### The layout -/

section layout

variable {bytes : List UInt8} {k : Kernel}

theorem ElfRules.first (rules : ElfRules bytes) : Loads bytes (firstIndex bytes) ∧
    ∀ i, Loads bytes i → (fileImage bytes).first.virtualAddress ≤ (segment bytes i).virtualAddress := by
  obtain ⟨i, loads⟩ := rules.loadable
  rcases firstLoadableSegment_spec (fileMem bytes) (headersAt bytes) (entryCount bytes) with ⟨none, _⟩ | ⟨bound, type, least⟩
  · exact absurd loads.2 (none i loads.1)
  · refine ⟨⟨bound, type⟩, fun j loads' => ?_⟩
    rw [fileImage_first]
    exact least j loads'.1 loads'.2

theorem ElfRules.placeOf_eq (rules : ElfRules bytes) {i : Nat} (loads : Loads bytes i) :
    placeOf bytes i + (fileImage bytes).first.virtualAddress = (segment bytes i).virtualAddress := by
  have least := rules.first.2 i loads
  rw [placeOf, sub64_of_le least]
  omega

theorem ElfRules.tableInFile (rules : ElfRules bytes) : TableInFile bytes := by
  have table := rules.table
  obtain ⟨i, loads⟩ := rules.loadable
  have some := loads.1
  have first := firstLoadableSegment_lt (fileMem bytes) (headersAt bytes) (entryCount bytes)
  have last := lastLoadableSegment_lt (fileMem bytes) (headersAt bytes) (entryCount bytes)
  have each : ∀ i < entryCount bytes, headersAt bytes + 56 * i + 56 ≤ bytes.length := by
    intro i small
    omega
  refine ⟨fun i small => ?_, fun i loads => ?_, each _ ?_, each _ ?_⟩
  · have := each i small
    omega
  · have := each i loads.1
    omega
  · unfold firstIndex
    omega
  · unfold lastIndex
    omega

/-- The pages reach from the first address to the last page, unless the count wraps to 0. -/
theorem pages_room {first last size : Nat} (start : first ≤ last) (limit : last + size ≤ 2 ^ 64)
    (pages : 1 ≤ pageAlignUp (sub64 (add64 last size) first) / 4096) :
    (last + size - first + 4095) / 4096 * 4096 ≤ pageAlignUp (sub64 (add64 last size) first) / 4096 * 4096 := by
  have length : sub64 (add64 last size) first = last + size - first ∨ sub64 (add64 last size) first = 0 := by
    unfold sub64 add64
    split <;> omega
  unfold pageAlignUp add64 at *
  rcases length with same | zero
  · rw [same] at pages ⊢
    omega
  · rw [zero] at pages
    omega

theorem Placeable.room (placeable : Placeable k bytes) (rules : ElfRules bytes) (pages : 1 ≤ (fileImage bytes).pagesToMap)
    {i : Nat} (loads : Loads bytes i) :
    placeOf bytes i + (segment bytes i).sizeInMemory ≤ (fileImage bytes).pagesToMap * 4096 := by
  have place := rules.placeOf_eq loads
  have ends := placeable.ends i loads
  have limit := rules.ranges _ placeable.last
  rw [← fileImage_last] at limit
  have start := rules.first.2 _ placeable.last
  rw [← fileImage_last] at start
  have first := placeable.aligned
  rw [fileImage_pages] at pages ⊢
  have room := pages_room start limit pages
  omega

theorem Placeable.inBounds (placeable : Placeable k bytes) (rules : ElfRules bytes)
    (pages : 1 ≤ (fileImage bytes).pagesToMap) : InBounds bytes := by
  have header := rules.header
  have table := rules.table
  refine ⟨by omega, fun _ => rules.tableInFile, fun _ i loads => ⟨?_, .inr (rules.file i loads), .inr ?_⟩⟩
  · have small := loads.1
    omega
  · have room := placeable.room rules pages loads
    have sizes := rules.sizes i loads
    change placeOf bytes i + _ ≤ _
    omega

theorem ElfRules.pieces_apart (rules : ElfRules bytes) (i j : Nat) (hi : Loads bytes i) (hj : Loads bytes j)
    (other : i ≠ j) :
    Apart (placeOf bytes i) (segment bytes i).sizeInFile (placeOf bytes j) (segment bytes j).sizeInFile := by
  have separate := rules.disjoint i j hi hj other
  have place := rules.placeOf_eq hi
  have place' := rules.placeOf_eq hj
  have sizes := rules.sizes i hi
  have sizes' := rules.sizes j hj
  unfold Apart at *
  omega

end layout

/-! ### The new task -/

section placed

variable {A : PageAllocator} {φ : Type} {fs : FileAccess φ} {s s' : System φ} {live : List (Nat × Nat)}
  {bytes : List UInt8} {argv : List (List UInt8)} {root run : Nat} {k₂ k₃ k₄ : Kernel}

/-- Nothing behind the copy loop touches the frames of the image. -/
theorem Steps.image_kept (steps : Steps A bytes argv s s' root run k₂ k₃ k₄)
    (taken : ⟨.image s.tasks.list.length, run, (fileImage bytes).pagesToMap⟩ ∈ k₂.granted) {x : Nat}
    (inside : InRange (run + s.kernel.hhdm) ((fileImage bytes).pagesToMap * 4096) x) : s'.kernel.mem x = k₂.mem x := by
  have hhdm₂ : k₂.hhdm = s.kernel.hhdm := steps.setup.hhdm
  have hhdm₃ : k₃.hhdm = s.kernel.hhdm := steps.setup₃.hhdm
  have hhdm₄ : k₄.hhdm = s.kernel.hhdm := (steps.setup₃.trans steps.filled.grows.touches.setup).hhdm
  have notTask : ∀ hhdm, ¬ OfTask hhdm root ⟨.image s.tasks.list.length, run, (fileImage bytes).pagesToMap⟩ := by
    rintro hhdm ((owner | ⟨owner, _⟩) | owner) <;> cases owner
  have taken₃ := steps.tree.granted taken
  have taken₄ := steps.filled.grows.touches.granted taken₃
  rw [steps.freed.byte_kept taken₄ (fun heap => by cases heap) (by rw [hhdm₄]; exact inside),
    steps.filled.grows.touches.byte_kept taken₃ (fun own => by
      rcases own with own | owner | owner
      · exact notTask _ own
      · cases owner
      · cases owner) (by rw [hhdm₃]; exact inside),
    steps.tree.byte_kept taken (notTask _) (by rw [hhdm₂]; exact inside)]

theorem Steps.shows_image (steps : Steps A bytes argv s s' root run k₂ k₃ k₄) (placeable : Placeable s.kernel bytes)
    {d : Nat} (near : d < (fileImage bytes).pagesToMap * 4096)
    (mine : SegmentPage bytes (pageOf ((fileImage bytes).first.virtualAddress + d))) :
    Shows s'.kernel root ((fileImage bytes).first.virtualAddress + d) (k₂.mem (run + s.kernel.hhdm + d)) := by
  obtain ⟨k₁, buffer, hhdm₁, copied⟩ := steps.copied
  have frames := copied.frames
  rw [hhdm₁] at frames
  have aligned := placeable.aligned
  have space := steps.filled.space
  change pageOf (fileImage bytes).first.virtualAddress + (fileImage bytes).pagesToMap ≤ 512 ^ 4 at space
  have hhdm : s'.kernel.hhdm = s.kernel.hhdm := steps.final.hhdm
  obtain ⟨page, offset⟩ : pageOf ((fileImage bytes).first.virtualAddress + d) =
      pageOf (fileImage bytes).first.virtualAddress + d / 4096 ∧
      ((fileImage bytes).first.virtualAddress + d) % 4096 = d % 4096 := by
    generalize (fileImage bytes).first.virtualAddress = first at *
    unfold pageOf at *
    omega
  have covers : (fileImage bytes).Covers (pageOf ((fileImage bytes).first.virtualAddress + d)) := by
    unfold Image.Covers InPages
    omega
  obtain ⟨noStack, noArgs, noApic⟩ := placeable.clear _ mine
  have noApic₃ : ¬ ApicPage k₃ (pageOf ((fileImage bytes).first.virtualAddress + d)) := by
    unfold ApicPage at *
    rwa [steps.setup₃.ioapic, steps.setup₃.lapic, steps.setup₃.hhdm]
  have leaf : slot s'.kernel root 3 (pageOf ((fileImage bytes).first.virtualAddress + d)) =
      run + 4096 * (d / 4096) ||| userFlags := by
    rw [steps.slots 3 (by omega) _ (pageOf_lt _),
      steps.filled.loaded _ (pageOf_lt _) covers noStack noArgs noApic₃]
    show (run + 4096 * (_ - pageOf (fileImage bytes).first.virtualAddress)) % 2 ^ 64 ||| userFlags = _
    rw [page, Nat.add_sub_cancel_left, Nat.mod_eq_of_lt (by omega)]
  constructor
  · rw [leaf, Nat.and_or_distrib_right]
    exact fun zero => absurd (Nat.or_eq_zero_iff.mp zero).2 (by decide)
  · rw [phys_of_leaf leaf (by omega) (by decide) (by decide) (by omega), offset, hhdm,
      show run + 4096 * (d / 4096) + d % 4096 + s.kernel.hhdm = run + s.kernel.hhdm + d by omega]
    exact steps.image_kept copied.granted ⟨by omega, by omega⟩

theorem Steps.placed (steps : Steps A bytes argv s s' root run k₂ k₃ k₄) (rules : ElfRules bytes)
    (placeable : Placeable s.kernel bytes) : SegmentsPlaced s'.kernel root bytes := by
  intro i loads t small
  obtain ⟨k₁, buffer, hhdm₁, copied⟩ := steps.copied
  have pages := copied.frames.2.1
  have bounds := placeable.inBounds rules pages
  have room := placeable.room rules pages loads
  have place := rules.placeOf_eq loads
  obtain ⟨m, window, zero, after⟩ := copied.mem
  rw [hhdm₁] at window zero after
  obtain ⟨others, values⟩ := placeSegments_effect window (bounds.segments rules.elf) rules.pieces_apart (Nat.zero_add _)
  have address : (fileImage bytes).first.virtualAddress + (placeOf bytes i + t) = (segment bytes i).virtualAddress + t := by
    omega
  have shows := steps.shows_image placeable (d := placeOf bytes i + t) (by omega)
    ⟨i, loads, t, small, congrArg pageOf address⟩
  rw [address, ← Nat.add_assoc, after] at shows
  split
  · rename_i inFile
    rwa [values i (Nat.zero_le i) loads t inFile] at shows
  · rename_i behind
    rw [others _ fun j _ loads' inside => ?_, zero _ ⟨by omega, by omega⟩] at shows
    · exact shows
    · -- A byte behind the file part of its own segment, or in another segment.
      by_cases same : j = i
      · subst j
        unfold InRange at inside
        omega
      · have separate := rules.disjoint j i loads' loads same
        have place' := rules.placeOf_eq loads'
        have sizes := rules.sizes j loads'
        unfold Apart at separate
        unfold InRange at inside
        omega

end placed

/-! ### Two files -/

theorem ElfRules.of_one {bytes : List UInt8} (one : entryCount bytes = 1) (elf : IsElf bytes)
    (header : 64 ≤ bytes.length) (table : headersAt bytes + 56 ≤ bytes.length) (loads : Loads bytes 0)
    (range : (segment bytes 0).virtualAddress + (segment bytes 0).sizeInMemory ≤ 2 ^ 64)
    (sizes : (segment bytes 0).sizeInFile ≤ (segment bytes 0).sizeInMemory)
    (file : (segment bytes 0).offset + (segment bytes 0).sizeInFile ≤ bytes.length)
    (congruent : (segment bytes 0).virtualAddress % 4096 = (segment bytes 0).offset % 4096) : ElfRules bytes := by
  have only : ∀ i, Loads bytes i → i = 0 := by
    intro i loads
    have := loads.1
    omega
  refine ⟨elf, header, by omega, ⟨0, loads⟩, ?_, ?_, ?_, ?_, ?_⟩
  · intro i listed
    obtain rfl := only i listed
    exact range
  · intro i j hi hj other
    exact absurd ((only i hi).trans (only j hj).symm) other
  · intro i listed
    obtain rfl := only i listed
    exact sizes
  · intro i listed
    obtain rfl := only i listed
    exact file
  · intro i listed
    obtain rfl := only i listed
    exact congruent

theorem plainElf_rules : ElfRules plainElf := by
  apply ElfRules.of_one <;> decide +kernel

theorem plainElf_placeable {k : Kernel} (upper : UpperMap k) : Placeable k plainElf := by
  have one : entryCount plainElf = 1 := by decide +kernel
  refine ⟨by decide +kernel, by decide +kernel, ?_, ?_⟩
  · intro i loads
    obtain rfl : i = 0 := by
      have := loads.1
      omega
    decide +kernel
  · rintro u ⟨i, loads, t, small, here⟩
    obtain rfl : i = 0 := by
      have := loads.1
      omega
    have start : (segment plainElf 0).virtualAddress = 0x400000 := by decide +kernel
    have size : (segment plainElf 0).sizeInMemory = 4096 := by decide +kernel
    obtain rfl : u = 0x400 := by
      rw [start] at here
      rw [size] at small
      unfold pageOf at here
      omega
    exact ⟨by unfold StackPage; decide, by unfold ArgumentPage; decide, fun apic => absurd (upper.apic apic) (by decide)⟩

/-- One byte at an address that does not start a page. -/
def shiftedElf : List UInt8 := oneSegment 120 0x400078 1 1 ++ [0xC3]

def shiftedFiles : FileAccess Unit := filesOf shiftedElf (by decide)

theorem shiftedElf_rules : ElfRules shiftedElf := by
  apply ElfRules.of_one <;> decide +kernel

end PotatOS.Tasks
