import PotatOS.Mem.PagingSpec
import PotatOS.Mem.KheapRuns

/-!
# Page mapping is exact

`mapPages_spec` gives the leaf entries after `map_pages`; `virtToPhys_eq` reads
translations off the leaf entries.
-/

namespace PotatOS.Mem

open Memory Prog

theorem virtToPhys_eq (k : Kernel) (root virtAddr : Nat) :
    virtToPhys k root virtAddr = if slot k root 3 (pageOf virtAddr) = 0 then 0xDEAD
      else add64 (pageAlignDown (slot k root 3 (pageOf virtAddr))) (virtAddr % 4096) := by
  obtain ⟨one, two, three, four⟩ := indices_eq virtAddr
  have page := pageOf_lt virtAddr
  have offset : lowBits virtAddr - pageAlignDown (lowBits virtAddr) = virtAddr % 4096 := by
    rw [lowBits_eq, pageAlignDown]
    omega
  unfold virtToPhys
  dsimp only
  rw [one, two, three, four, offset]
  generalize pageOf virtAddr = u at *
  have step₃ : u / 512 / 512 = u / 512 ^ 2 := by omega
  have step₂ : u / 512 ^ 2 / 512 = u / 512 ^ 3 := by omega
  have last : u / 512 ^ 3 % 512 = u / 512 ^ 3 := by omega
  have slot₀ : slot k root 0 (u / 512 ^ 3) = entryAt k.mem root (u / 512 ^ 3) := by
    rw [slot_of_table rfl, last]
  have slot₁ := slot_succ k root 0 (u / 512 ^ 2)
  have slot₂ := slot_succ k root 1 (u / 512)
  have slot₃ := slot_succ k root 2 u
  rw [step₂] at slot₁
  rw [step₃] at slot₂
  rw [← slot₀]
  by_cases zero₀ : slot k root 0 (u / 512 ^ 3) = 0
  · rw [if_pos zero₀] at slot₁ ⊢
    rw [if_pos slot₁] at slot₂
    rw [if_pos slot₂] at slot₃
    rw [if_pos slot₃]
  rw [if_neg zero₀] at slot₁ ⊢
  rw [← slot₁]
  by_cases zero₁ : slot k root 1 (u / 512 ^ 2) = 0
  · rw [if_pos zero₁] at slot₂ ⊢
    rw [if_pos slot₂] at slot₃
    rw [if_pos slot₃]
  rw [if_neg zero₁] at slot₂ ⊢
  rw [← slot₂]
  by_cases zero₂ : slot k root 2 (u / 512) = 0
  · rw [if_pos zero₂] at slot₃ ⊢
    rw [if_pos slot₃]
  rw [if_neg zero₂] at slot₃ ⊢
  rw [← slot₃]

section leaf

variable {A : PageAllocator} {own who : Grant → Prop} {root : Nat} {k : Kernel}

theorem TreeOk.leafWrite {u t value : Nat} (ok : TreeOk own k root) (bound : u < 512 ^ 4)
    (place : table k root 3 (u / 512) = some t) :
    SlotWrite own k (k.setMem (store k.mem (t + 8 * (u % 512)) 8 value)) root 3 u t := by
  refine ⟨ok, rfl, fun _ taken => taken, by omega, bound, place, ?_⟩
  intro d depth n inside t' _ x _ other
  exact store_outside other

theorem TreeOk.setLeaf {u t v : Nat} (ok : TreeOk own k root) (ready : A.Ready k)
    (sub : ∀ g, own g → who g) (bound : u < 512 ^ 4) (place : table k root 3 (u / 512) = some t) :
    Grows A own who root k (k.setMem (store k.mem (t + 8 * (u % 512)) 8 v)) ∧
      ∀ u' < 512 ^ 4, slot (k.setMem (store k.mem (t + 8 * (u % 512)) 8 v)) root 3 u' =
        if u' = u then v % 2 ^ 64 else slot k root 3 u' := by
  have write : SlotWrite own k (k.setMem (store k.mem (t + 8 * (u % 512)) 8 v)) root 3 u t := ok.leafWrite bound place
  obtain ⟨_, here, others, after⟩ := write.leaf
  have entry : entryAt (store k.mem (t + 8 * (u % 512)) 8 v) t (u % 512) = v % 2 ^ 64 :=
    load_store_self ..
  have touched : Touches A who k (k.setMem (store k.mem (t + 8 * (u % 512)) 8 v)) := by
    refine .write ready fun x changed => ?_
    have inside : InRange (t + 8 * (u % 512)) 8 x := by
      by_contra far
      exact changed (store_outside far)
    obtain ⟨g, taken, mine, here⟩ := ok.entry_owned (by omega) bound place inside
    exact ⟨g, taken, sub g mine, here⟩
  refine ⟨⟨touched, after, ?_, ?_⟩, ?_⟩
  · intro d upper n inside _
    exact others d (by omega) n inside (by omega)
  · intro d upper n inside zero some
    exact (some ((others d (by omega) n inside (by omega)).trans zero)).elim
  · intro u' inside
    by_cases same : u' = u
    · subst u'
      rw [if_pos rfl, here, Kernel.setMem_mem, entry]
    · rw [if_neg same]
      exact others 3 (by omega) u' inside (by omega)

end leaf

/-- The leaf entries after `n` pages were mapped from page `v` to the frames from `phys` on. -/
def mappedLeaves (k : Kernel) (root v phys n flags u : Nat) : Nat :=
  if v ≤ u ∧ u < v + n then (phys + 4096 * (u - v)) % 2 ^ 64 ||| flags else slot k root 3 u

theorem mappedLeaves_succ {k : Kernel} {root v phys j flags u : Nat} :
    mappedLeaves k root v phys (j + 1) flags u =
      if u = v + j then (phys + 4096 * j) % 2 ^ 64 ||| flags else mappedLeaves k root v phys j flags u := by
  unfold mappedLeaves
  by_cases here : u = v + j
  · rw [if_pos here, if_pos (by omega), here, Nat.add_sub_cancel_left]
  · rw [if_neg here]
    exact if_congr (by omega) rfl rfl

section map

variable {A : PageAllocator} {own who : Grant → Prop} {root virtAddr phys n total flags : Nat}
  {err : Stop → Prop} {k : Kernel}

theorem mapLeaf_run (flags t i : Nat) (w : Walk) (k : Kernel) :
    mapLeaf flags t i w k = .ok (if sub64 w.num 1 = 0 then none else
        some { w with num := sub64 w.num 1, phys := add64 w.phys 4096 },
      k.setMem (store k.mem (t + 8 * i) 8 (w.phys ||| flags))) :=
  rfl

theorem or_flags_mod {frame flags : Nat} (small : flags < 4096) :
    (frame ||| flags) % 2 ^ 64 = frame % 2 ^ 64 ||| flags := by
  rw [Nat.or_mod_two_pow, Nat.mod_eq_of_lt (show flags < 2 ^ 64 by omega)]

theorem visits_mapLeaf (k : Kernel) (virtAddr phys : Nat) (mine : ∀ a, own ⟨.table root, a, 1⟩)
    (sub : ∀ g, own g → who g) (small : flags < 4096)
    (count : total ≤ 2 ^ 64) (fails : ∀ k e, A.Ready k → A.kmalloc (.table root) 1 k = .error e → err e) :
    Visits A own who root flags (mapLeaf flags) (pageOf virtAddr) total (fun j p k' =>
      p % 2 ^ 64 = (phys + 4096 * j) % 2 ^ 64 ∧ Grows A own who root k k' ∧
        ∀ u < 512 ^ 4, slot k' root 3 u = mappedLeaves k root (pageOf virtAddr) phys j flags u) err := by
  refine ⟨mine, sub, small, fails, ?_, ?_, ?_⟩
  · rintro j p k' ⟨_, grows, _⟩
    exact ⟨grows.touches.ready, grows.ok⟩
  · rintro j p k₁ k₂ ⟨next, grows, leaves⟩ more same
    exact ⟨next, grows.trans more, fun u inside => (same u inside).trans (leaves u inside)⟩
  · rintro j t w k₁ less inside ⟨next, grows, leaves⟩ num indices place
    obtain ⟨more, written⟩ := grows.ok.setLeaf (v := w.phys ||| flags) grows.touches.ready sub inside place
    have left := sub64_count less
    rw [← num] at left
    have leaves' : ∀ u < 512 ^ 4,
        slot (k₁.setMem (store k₁.mem (t + 8 * ((pageOf virtAddr + j) % 512)) 8 (w.phys ||| flags))) root 3 u =
          mappedLeaves k root (pageOf virtAddr) phys (j + 1) flags u := by
      intro u bound
      rw [written u bound, leaves u bound, mappedLeaves_succ, or_flags_mod small, next]
    refine .of_ok (mapLeaf_run flags t _ w k₁) ⟨more, ?_⟩
    by_cases last : sub64 w.num 1 = 0
    · rw [if_pos last]
      obtain rfl : total = j + 1 := by omega
      exact ⟨rfl, (phys + 4096 * (j + 1)) % 2 ^ 64, Nat.mod_mod _ _, grows.trans more, leaves'⟩
    · rw [if_neg last]
      have advanced : add64 w.phys 4096 % 2 ^ 64 = (phys + 4096 * (j + 1)) % 2 ^ 64 := by
        unfold add64
        omega
      exact ⟨by omega, ⟨advanced, grows.trans more, leaves'⟩, left, indices.1, indices.2⟩

theorem mapPages_total (ready : A.Ready k) (ok : TreeOk own k root) (mine : ∀ a, own ⟨.table root, a, 1⟩)
    (sub : ∀ g, own g → who g) (small : flags < 4096) (some : 0 < total) (count : total ≤ 2 ^ 64)
    (pages : n = total % 2 ^ 64)
    (space : pageOf virtAddr + total ≤ 512 ^ 4 ∨ err .halt)
    (fails : ∀ k e, A.Ready k → A.kmalloc (.table root) 1 k = .error e → err e) :
    Sat (mapPages A.kmalloc root virtAddr phys n flags) k (fun _ k' => Grows A own who root k k' ∧
      pageOf virtAddr + total ≤ 512 ^ 4 ∧
      ∀ u < 512 ^ 4, slot k' root 3 u = mappedLeaves k root (pageOf virtAddr) phys total flags u) err := by
  have visits := visits_mapLeaf k virtAddr phys mine sub small count fails
  have first : (phys % 2 ^ 64 = (phys + 4096 * 0) % 2 ^ 64 ∧ Grows A own who root k k ∧
      ∀ u < 512 ^ 4, slot k root 3 u = mappedLeaves k root (pageOf virtAddr) phys 0 flags u) := by
    refine ⟨rfl, .refl ready ok, fun u _ => ?_⟩
    rw [mappedLeaves, if_neg (by omega)]
  refine (forPages_spec visits some pages first space).weaken ?_
  rintro _ k' ⟨grows, fits, p, _, _, leaves⟩
  exact ⟨grows, fits, leaves⟩

theorem mapPages_spec (ready : A.Ready k) (ok : TreeOk own k root) (mine : ∀ a, own ⟨.table root, a, 1⟩)
    (sub : ∀ g, own g → who g) (small : flags < 4096) (some : 0 < n)
    (count : n < 2 ^ 64) (space : pageOf virtAddr + n ≤ 512 ^ 4 ∨ err .halt)
    (fails : ∀ k e, A.Ready k → A.kmalloc (.table root) 1 k = .error e → err e) :
    Sat (mapPages A.kmalloc root virtAddr phys n flags) k (fun _ k' => Grows A own who root k k' ∧
      ∀ u < 512 ^ 4, slot k' root 3 u = mappedLeaves k root (pageOf virtAddr) phys n flags u) err :=
  (mapPages_total ready ok mine sub small some (by omega) (Nat.mod_eq_of_lt count).symm space fails).weaken
    fun _ _ after => ⟨after.1, after.2.2⟩

/-- What a returning call did. With 0 pages the loops run to the end of the
address space and halt. -/
theorem mapPages_ok {k' : Kernel} (ready : A.Ready k) (ok : TreeOk own k root)
    (mine : ∀ a, own ⟨.table root, a, 1⟩) (sub : ∀ g, own g → who g) (small : flags < 4096)
    (count : n < 2 ^ 64)
    (h : mapPages A.kmalloc root virtAddr phys n flags k = .ok ((), k')) :
    0 < n ∧ pageOf virtAddr + n ≤ 512 ^ 4 ∧ Grows A own who root k k' ∧
      ∀ u < 512 ^ 4, slot k' root 3 u = mappedLeaves k root (pageOf virtAddr) phys n flags u := by
  have anyStop : ∀ (k : Kernel) (e : Stop), A.Ready k → A.kmalloc (.table root) 1 k = .error e → True :=
    fun _ _ _ _ => trivial
  rcases Nat.eq_zero_or_pos n with rfl | some
  · have zero : 0 = 2 ^ 64 % 2 ^ 64 := by decide
    have fits := ((mapPages_total ready ok mine sub small (by decide) (by decide) zero (.inr trivial)
      anyStop).ok h).2.1
    omega
  · have after := (mapPages_total ready ok mine sub small some (by omega) (Nat.mod_eq_of_lt count).symm
      (.inr trivial) anyStop).ok h
    exact ⟨some, after.2.1, after.1, after.2.2⟩

end map

/-! ### `alloc_pages` -/

section alloc

variable {A : PageAllocator} {own who : Grant → Prop} {root : Nat} {k k' : Kernel}

/-- A step that keeps the bytes of the tables. -/
theorem TreeOk.grows_of_same (ok : TreeOk own k root) (touched : Touches A who k k')
    (same : ∀ d ≤ 3, ∀ n < 512 ^ d, ∀ t, table k root d n = some t →
      ∀ x, InRange t 4096 x → k'.mem x = k.mem x) :
    Grows A own who root k k' ∧ ∀ d ≤ 3, ∀ n < 512 ^ (d + 1), slot k' root d n = slot k root d n := by
  obtain ⟨_, slots, after⟩ := ok.frame touched.setup.hhdm (fun _ taken => touched.granted taken) same
  refine ⟨⟨touched, after, ?_, ?_⟩, slots⟩
  · intro d upper n bound _
    exact slots d (by omega) n bound
  · intro d upper n bound zero some
    exact (some ((slots d (by omega) n bound).trans zero)).elim

theorem TreeOk.newFrame {owner : Owner} {frame : Nat} (ok : TreeOk own k root) (ready : A.Ready k)
    (mine : who ⟨owner, frame, 1⟩) (got : A.kmalloc owner 1 k = .ok (frame, k')) :
    Grows A own who root k (k'.setMem (fill k'.mem (frame + k'.hhdm) 4096 0)) ∧
      ∀ d ≤ 3, ∀ n < 512 ^ (d + 1),
        slot (k'.setMem (fill k'.mem (frame + k'.hhdm) 4096 0)) root d n = slot k root d n := by
  have alloc := A.allocates ready got
  have first : Touches A who k k' := .kmalloc ready got mine
  have touched : Touches A who k (k'.setMem (fill k'.mem (frame + k'.hhdm) 4096 0)) := by
    refine first.trans (.write first.ready fun x changed => ?_)
    have inside : InRange (frame + k'.hhdm) 4096 x := by
      by_contra far
      exact changed (fill_outside far)
    exact ⟨⟨owner, frame, 1⟩, alloc.taken, mine, by simpa using inside⟩
  refine ok.grows_of_same touched fun d depth n bound t place x inside => ?_
  have apart := ok.fresh_run ready alloc depth bound place inside
  rw [Kernel.setMem_mem, fill_outside (by rw [alloc.setup.hhdm]; simpa using apart)]
  exact ok.after_kmalloc alloc depth bound place inside

/-- The state after the leaf entry of page `u` was filled with frame `f`. -/
def backedPage (k : Kernel) (t u f flags : Nat) : Kernel :=
  (k.setMem (fill k.mem (f + k.hhdm) 4096 0)).setMem
    (store (fill k.mem (f + k.hhdm) 4096 0) (t + 8 * (u % 512)) 8 (f ||| flags))

/-- What the code does to the tree for one page. -/
theorem TreeOk.backedPage {owner : Owner} {u t f flags : Nat} (ok : TreeOk own k root) (ready : A.Ready k)
    (sub : ∀ g, own g → who g) (mine : who ⟨owner, f, 1⟩) (small : flags < 4096) (bound : u < 512 ^ 4)
    (place : table k root 3 (u / 512) = some t) (got : A.kmalloc owner 1 k = .ok (f, k')) :
    Grows A own who root k (backedPage k' t u f flags) ∧
      (∀ u' < 512 ^ 4, slot (Mem.backedPage k' t u f flags) root 3 u' =
        if u' = u then f ||| flags else slot k root 3 u') ∧
      ∀ d < 3, ∀ n < 512 ^ (d + 1), slot (Mem.backedPage k' t u f flags) root d n = slot k root d n := by
  have alloc := A.allocates ready got
  have mapped := alloc.mapped
  obtain ⟨cleared, slots⟩ := ok.newFrame ready mine got
  have value : f ||| flags < 2 ^ 64 := by
    rw [or_low alloc.aligned small]
    omega
  have place' := cleared.table (by omega) (div_lt_pow bound) place
  obtain ⟨more, written⟩ := cleared.ok.setLeaf (v := f ||| flags) cleared.touches.ready sub bound place'
  rw [Nat.mod_eq_of_lt value] at written
  have write : SlotWrite own _ (Mem.backedPage k' t u f flags) root 3 u t := cleared.ok.leafWrite bound place'
  refine ⟨cleared.trans more, fun u' bound' => ?_, fun d upper n bound' => ?_⟩
  · rw [← slots 3 (by omega) u' bound']
    exact written u' bound'
  · rw [write.leaf.2.2.1 d (by omega) n bound' (by omega)]
    exact slots d (by omega) n bound'

/-- What `alloc_pages` does to a leaf entry. -/
theorem allocLeaf_run {owner : Owner} {u t f flags : Nat} {w : Walk} (ready : A.Ready k)
    (got : A.kmalloc owner 1 k = .ok (f, k')) :
    allocLeaf A.kmalloc owner flags t (u % 512) w k =
      .ok (if sub64 w.num 1 = 0 then none else some { w with num := sub64 w.num 1 }, backedPage k' t u f flags) := by
  have alloc := A.allocates ready got
  have mapped := alloc.mapped
  have start : add64 f k'.hhdm = f + k'.hhdm := by
    rw [alloc.setup.hhdm]
    exact add64_of_lt (by omega)
  rw [allocLeaf, bind_eq got, bind_eq run_get, start]
  rfl

/-- The leaf entries after `j` pages were allocated from page `v` on. -/
def AllocatedLeaves (k k' : Kernel) (owner : Owner) (root v j flags : Nat) : Prop :=
  (∀ u < 512 ^ 4, ¬ (v ≤ u ∧ u < v + j) → slot k' root 3 u = slot k root 3 u) ∧
    ∀ u < 512 ^ 4, v ≤ u → u < v + j →
      ∃ g ∈ k'.granted, g.owner = owner ∧ g.pages = 1 ∧ slot k' root 3 u = g.addr ||| flags

theorem visits_allocLeaf {owner : Owner} {virtAddr total flags : Nat} {err : Stop → Prop} (k : Kernel)
    (mine : ∀ a, own ⟨.table root, a, 1⟩) (sub : ∀ g, own g → who g) (theirs : ∀ a, who ⟨owner, a, 1⟩)
    (small : flags < 4096) (count : total ≤ 2 ^ 64)
    (fails : ∀ k e owner, A.Ready k → A.kmalloc owner 1 k = .error e → err e) :
    Visits A own who root flags (allocLeaf A.kmalloc owner flags) (pageOf virtAddr) total (fun j _ k' =>
      Grows A own who root k k' ∧ AllocatedLeaves k k' owner root (pageOf virtAddr) j flags) err := by
  refine ⟨mine, sub, small, fun k e ready stopped => fails k e _ ready stopped, ?_, ?_, ?_⟩
  · rintro j p k' ⟨grows, _⟩
    exact ⟨grows.touches.ready, grows.ok⟩
  · rintro j p k₁ k₂ ⟨grows, others, pages⟩ more same
    refine ⟨grows.trans more, fun u bound outside => (same u bound).trans (others u bound outside), ?_⟩
    intro u bound lower upper
    obtain ⟨g, taken, owned, single, leaf⟩ := pages u bound lower upper
    exact ⟨g, more.touches.granted taken, owned, single, (same u bound).trans leaf⟩
  · rintro j t w k₁ less inside ⟨grows, others, pages⟩ num indices place
    have ready := grows.touches.ready
    cases got : A.kmalloc owner 1 k₁ with
    | error e => exact .of_error (bind_error got) (fails k₁ e owner ready got)
    | ok pair =>
      obtain ⟨frame, k₂⟩ := pair
      obtain ⟨more, written, _⟩ := grows.ok.backedPage ready sub (theirs frame) small inside place got
      have left := sub64_count less
      rw [← num] at left
      have leaves : AllocatedLeaves k (backedPage k₂ t (pageOf virtAddr + j) frame flags) owner root (pageOf virtAddr)
          (j + 1) flags := by
        constructor
        · intro u bound outside
          rw [written u bound, if_neg (by omega)]
          exact others u bound (by omega)
        · intro u bound lower upper
          rw [written u bound]
          by_cases here : u = pageOf virtAddr + j
          · exact ⟨⟨owner, frame, 1⟩, (A.allocates ready got).taken, rfl, rfl, if_pos here⟩
          · obtain ⟨g, taken, owned, single, leaf⟩ := pages u bound lower (by omega)
            exact ⟨g, more.touches.granted taken, owned, single, (if_neg here).trans leaf⟩
      have whole := grows.trans more
      refine .of_ok (allocLeaf_run ready got) ⟨more, ?_⟩
      by_cases last : sub64 w.num 1 = 0
      · rw [if_pos last]
        obtain rfl : total = j + 1 := by omega
        exact ⟨rfl, 0, whole, leaves⟩
      · rw [if_neg last]
        exact ⟨by omega, ⟨whole, leaves⟩, left, indices.1, indices.2⟩

theorem allocPages_ok {owner : Owner} {virtAddr n flags : Nat} (ready : A.Ready k) (ok : TreeOk own k root)
    (mine : ∀ a, own ⟨.table root, a, 1⟩) (sub : ∀ g, own g → who g) (theirs : ∀ a, who ⟨owner, a, 1⟩)
    (small : flags < 4096) (some : 0 < n) (count : n < 2 ^ 64)
    (h : allocPages A.kmalloc owner root virtAddr n flags k = .ok ((), k')) :
    Grows A own who root k k' ∧ AllocatedLeaves k k' owner root (pageOf virtAddr) n flags := by
  have visits : Visits A own who root flags (allocLeaf A.kmalloc owner flags) (pageOf virtAddr) n (fun j _ k' =>
      Grows A own who root k k' ∧ AllocatedLeaves k k' owner root (pageOf virtAddr) j flags) (fun _ => True) :=
    visits_allocLeaf k mine sub theirs small (by omega) fun _ _ _ _ _ => trivial
  have first : Grows A own who root k k ∧ AllocatedLeaves k k owner root (pageOf virtAddr) 0 flags :=
    ⟨.refl ready ok, fun _ _ _ => rfl, fun u _ lower upper => by omega⟩
  have after := (forPages_spec visits some (Nat.mod_eq_of_lt count).symm first (.inr trivial)).ok h
  obtain ⟨grows, _, _, _, leaves⟩ := after
  exact ⟨grows, leaves⟩

end alloc

/-- A page tree whose tables are distinct frames obtained from `kmalloc`. -/
def WellFormedTree (k : Kernel) (root : Nat) : Prop := TreeOk (fun _ => True) k root

theorem TreeOk.any {own : Grant → Prop} {k : Kernel} {root : Nat} (ok : TreeOk own k root) : WellFormedTree k root := by
  refine ⟨ok.start, fun d depth n bound t place => ?_, ok.distinct⟩
  obtain ⟨g, taken, _, inside⟩ := ok.owned d depth n bound t place
  exact ⟨g, taken, trivial, inside⟩

/-- The low 12 bits of the leaf entry of a page. -/
def leafFlags (k : Kernel) (root virtAddr : Nat) : Nat := slot k root 3 (pageOf virtAddr) % 4096

theorem flags_pos {flags : Nat} (present : flags &&& pflagPresent ≠ 0) : 0 < flags := by
  refine Nat.pos_of_ne_zero ?_
  rintro rfl
  exact present rfl

/-- After `map_pages` the mapped pages translate to the given frames with the
given flags, every other page is as before, and new tables are present,
writable and open to users. `map_pages` stops only when `kmalloc` does. -/
theorem mapPages_exact {A : PageAllocator} {k : Kernel} {root virtAddr phys n flags : Nat}
    (ready : A.Ready k) (tree : WellFormedTree k root) (aligned : phys % 4096 = 0) (some : 1 ≤ n)
    (space : virtAddr % 2 ^ 48 / 4096 + n ≤ 2 ^ 36) (room : phys + n * 4096 < 2 ^ 48) (small : flags < 4096)
    (present : flags &&& pflagPresent ≠ 0) :
    (∀ k', mapPages A.kmalloc root virtAddr phys n flags k = .ok ((), k') →
      (∀ i < n, ∀ x, pageOf x = pageOf virtAddr + i →
        virtToPhys k' root x = phys + i * 4096 + x % 4096 ∧ leafFlags k' root x = flags) ∧
      (∀ d < 3, ∀ m < 512 ^ (d + 1), slot k root d m = 0 → slot k' root d m ≠ 0 →
        slot k' root d m &&& (pflagPresent ||| pflagWrite ||| pflagUser) =
          pflagPresent ||| pflagWrite ||| pflagUser) ∧
      (∀ x, ¬ (pageOf virtAddr ≤ pageOf x ∧ pageOf x < pageOf virtAddr + n) →
        virtToPhys k' root x = virtToPhys k root x ∧ leafFlags k' root x = leafFlags k root x) ∧
      WellFormedTree k' root) ∧
    ∀ e, mapPages A.kmalloc root virtAddr phys n flags k = .error e →
      ∃ k₁, A.Ready k₁ ∧ A.kmalloc (.table root) 1 k₁ = .error e := by
  have spec : Sat (mapPages A.kmalloc root virtAddr phys n flags) k (fun _ k' =>
      Grows A (fun _ => True) (fun _ => True) root k k' ∧
        ∀ u < 512 ^ 4, slot k' root 3 u = mappedLeaves k root (pageOf virtAddr) phys n flags u)
      (fun e => ∃ k₁, A.Ready k₁ ∧ A.kmalloc (.table root) 1 k₁ = .error e) :=
    mapPages_spec ready tree (fun _ => trivial) (fun _ h => h) small (by omega) (by omega)
      (.inl space) fun k e ready stopped => ⟨k, ready, stopped⟩
  refine ⟨fun k' h => ?_, fun e h => spec.error h⟩
  obtain ⟨grows, leaves⟩ := spec.ok h
  have positive := flags_pos present
  refine ⟨?_, grows.created, ?_, grows.ok⟩
  · intro i inside x page
    have bound := pageOf_lt x
    have leaf := leaves (pageOf x) bound
    rw [mappedLeaves, if_pos (by omega), page, Nat.add_sub_cancel_left, Nat.mod_eq_of_lt (by omega),
      or_low (by omega) small] at leaf
    unfold leafFlags
    rw [virtToPhys_eq, page, leaf, if_neg (by omega), pageAlignDown, add64_of_lt (by omega)]
    omega
  · intro x outside
    have leaf := leaves (pageOf x) (pageOf_lt x)
    rw [mappedLeaves, if_neg outside] at leaf
    unfold leafFlags
    rw [virtToPhys_eq, virtToPhys_eq, leaf]
    exact ⟨rfl, rfl⟩

/-- `smallMachine` with one frame given out for a page tree. -/
def treeMachine : Kernel := grantRun smallMachineReady .pml4 ⟨0, 64 * 4096, .usable, smallSection_fits⟩ 0 1

theorem treeMachine_ready : pmm.Ready treeMachine := by
  have run : pmm.kmalloc .pml4 1 smallMachineReady = .ok (4096, treeMachine) := rfl
  exact pmm.ready smallMachineReady_ready run

theorem treeMachine_tree : WellFormedTree treeMachine (4096 + 2 ^ 47) := by
  have zero : ∀ x, InRange (4096 + 2 ^ 47) 4096 x → treeMachine.mem x = 0 := fun x inside => fill_inside inside
  exact (TreeOk.of_zero (g := ⟨.pml4, 4096, 1⟩) (List.mem_singleton.mpr rfl) trivial (by decide) rfl zero).1

theorem mapPages_exact_treeMachine :
    ∃ k', mapPages pmm.kmalloc (4096 + 2 ^ 47) 0x3FF000 0x5000 3 5 treeMachine = .ok ((), k') ∧
      virtToPhys k' (4096 + 2 ^ 47) 0x400010 = 0x6010 := by
  have returns : (mapPages pmm.kmalloc (4096 + 2 ^ 47) 0x3FF000 0x5000 3 5 treeMachine).toBool = true := by
    decide +kernel
  cases h : mapPages pmm.kmalloc (4096 + 2 ^ 47) 0x3FF000 0x5000 3 5 treeMachine with
  | error e => rw [h] at returns; cases returns
  | ok pair =>
    have exact := (mapPages_exact treeMachine_ready treeMachine_tree rfl (by decide) (by decide) (by decide)
      (by decide) (by decide)).1 pair.2 h
    exact ⟨pair.2, rfl, (exact.1 1 (by decide) 0x400010 (by decide)).1⟩

end PotatOS.Mem
