import Mathlib.Data.Finset.Card
import Mathlib.Data.Finset.Image
import PotatOS.Mem.MapPages

/-!
# The frames that `alloc_pages` takes

Frames for pages and frames for tables come from the same allocator, one at a
time. `Backed` is what holds after `j` pages: each of them has a frame of its own
that nobody had before, and every other frame taken so far is a table that was
missing on the way.
-/

namespace PotatOS.Mem

open Memory Prog

/-- The entries at depth `d` on the way to the `n` pages from page `v` on. -/
def onWay (v n d : Nat) : Finset Nat := (Finset.range n).image fun i => (v + i) / 512 ^ (3 - d)

def missingAt (k : Kernel) (root v n d : Nat) : Finset Nat := (onWay v n d).filter fun m => slot k root d m = 0

/-- The number of tables that are missing on the way to the `n` pages from page `v` on. -/
def missingTables (k : Kernel) (root v n : Nat) : Nat :=
  (missingAt k root v n 0).card + (missingAt k root v n 1).card + (missingAt k root v n 2).card

/-- The missing entries that have got a table since. -/
def madeAt (k k' : Kernel) (root v n d : Nat) : Finset Nat :=
  (missingAt k root v n d).filter fun m => slot k' root d m ≠ 0

def madeTables (k k' : Kernel) (root v n : Nat) : Nat :=
  (madeAt k k' root v n 0).card + (madeAt k k' root v n 1).card + (madeAt k k' root v n 2).card

/-- A frame that was handed out after state `k`, reads as zero and is no table. -/
structure FreshFrame (k k' : Kernel) (owner : Owner) (root frame : Nat) : Prop where
  granted : ⟨owner, frame, 1⟩ ∈ k'.granted
  fresh : ∀ g ∈ k.granted, Grant.Apart g ⟨owner, frame, 1⟩
  zero : ∀ p, InRange frame 4096 p → k'.phys p = 0
  noTable : ∀ d ≤ 3, ∀ n < 512 ^ d, ∀ t, table k' root d n = some t → Apart t 4096 (frame + k'.hhdm) 4096

/-- The state after `j` of the `n` pages from page `v` on. -/
structure Backed (A : PageAllocator) (k : Kernel) (owner : Owner) (root v n flags j : Nat) (k' : Kernel)
    (frame : Nat → Nat) : Prop where
  grows : Grows A (fun _ => True) (fun _ => True) root k k'
  others : ∀ u < 512 ^ 4, ¬ (v ≤ u ∧ u < v + j) → slot k' root 3 u = slot k root 3 u
  leaf : ∀ i < j, slot k' root 3 (v + i) = frame i ||| flags
  fresh : ∀ i < j, FreshFrame k k' owner root (frame i)
  distinct : ∀ i < j, ∀ i' < j, frame i = frame i' → i = i'
  ledger : ∃ new, k'.granted = k.granted ++ new ∧ (∀ g ∈ new, g.pages = 1) ∧
    new.length = j + madeTables k k' root v n

section count

variable {k k₁ k₂ : Kernel} {root v n d m : Nat}

theorem onWay_lt (space : v + n ≤ 512 ^ 4) (depth : d ≤ 3) (member : m ∈ onWay v n d) : m < 512 ^ (d + 1) := by
  obtain ⟨i, inside, rfl⟩ := Finset.mem_image.mp member
  have bound := Finset.mem_range.mp inside
  rw [Nat.div_lt_iff_lt_mul (by positivity), ← Nat.pow_add]
  have whole : d + 1 + (3 - d) = 4 := by omega
  rw [whole]
  omega

theorem madeAt_congr (same : ∀ m ∈ onWay v n d, slot k₂ root d m = slot k₁ root d m) :
    madeAt k k₂ root v n d = madeAt k k₁ root v n d := by
  refine Finset.filter_congr fun m member => ?_
  rw [same m (Finset.mem_filter.mp member).1]

theorem madeTables_self : madeTables k k root v n = 0 := by
  have none : ∀ d, madeAt k k root v n d = ∅ := by
    intro d
    refine Finset.filter_eq_empty_iff.mpr fun m member some => ?_
    exact some (Finset.mem_filter.mp member).2
  simp [madeTables, none]

/-- An entry that is empty now was empty from the start. -/
theorem missing_of_empty (kept : slot k root d m ≠ 0 → slot k₁ root d m = slot k root d m)
    (empty : slot k₁ root d m = 0) : slot k root d m = 0 := by
  by_contra some
  exact some ((kept some).symm.trans empty)

/-- One entry on the way has got a table. -/
theorem madeAt_insert (way : m ∈ onWay v n d) (missing : slot k root d m = 0) (before : slot k₁ root d m = 0)
    (after : slot k₂ root d m ≠ 0) (same : ∀ m' ∈ onWay v n d, m' ≠ m → slot k₂ root d m' = slot k₁ root d m') :
    (madeAt k k₂ root v n d).card = (madeAt k k₁ root v n d).card + 1 := by
  have grown : madeAt k k₂ root v n d = insert m (madeAt k k₁ root v n d) := by
    ext m'
    by_cases here : m' = m
    · subst here
      simp [madeAt, missingAt, way, missing, after]
    · simp only [madeAt, missingAt, Finset.mem_insert, Finset.mem_filter, here, false_or]
      refine and_congr_right fun both => ?_
      rw [same m' both.1 here]
  rw [grown, Finset.card_insert_of_notMem]
  simp [madeAt, before]

theorem madeTables_insert (space : v + n ≤ 512 ^ 4) (upper : d < 3) (way : m ∈ onWay v n d)
    (missing : slot k root d m = 0) (before : slot k₁ root d m = 0) (after : slot k₂ root d m ≠ 0)
    (same : ∀ d' ≤ 3, ∀ m' < 512 ^ (d' + 1), ¬ (d' = d ∧ m' = m) → slot k₂ root d' m' = slot k₁ root d' m') :
    madeTables k k₂ root v n = madeTables k k₁ root v n + 1 := by
  have here := madeAt_insert way missing before after fun m' member other =>
    same d (by omega) m' (onWay_lt space (by omega) member) fun both => other both.2
  have others : ∀ d' < 3, d' ≠ d → madeAt k k₂ root v n d' = madeAt k k₁ root v n d' := fun d' upper' other =>
    madeAt_congr fun m' member => same d' (by omega) m' (onWay_lt space (by omega) member) fun both => other both.1
  unfold madeTables
  obtain rfl | rfl | rfl : d = 0 ∨ d = 1 ∨ d = 2 := by omega
  · rw [here, others 1 (by omega) (by omega), others 2 (by omega) (by omega)]
    omega
  · rw [here, others 0 (by omega) (by omega), others 2 (by omega) (by omega)]
    omega
  · rw [here, others 0 (by omega) (by omega), others 1 (by omega) (by omega)]
    omega

theorem madeTables_congr (space : v + n ≤ 512 ^ 4)
    (same : ∀ d < 3, ∀ m < 512 ^ (d + 1), slot k₂ root d m = slot k₁ root d m) :
    madeTables k k₂ root v n = madeTables k k₁ root v n := by
  have each : ∀ d < 3, madeAt k k₂ root v n d = madeAt k k₁ root v n d := fun d upper =>
    madeAt_congr fun m member => same d upper m (onWay_lt space (by omega) member)
  rw [madeTables, each 0 (by omega), each 1 (by omega), each 2 (by omega), madeTables]

theorem madeTables_all (mapped : ∀ i < n, slot k₁ root 3 (v + i) ≠ 0) :
    madeTables k k₁ root v n = missingTables k root v n := by
  have each : ∀ d < 3, madeAt k k₁ root v n d = missingAt k root v n d := by
    intro d upper
    refine Finset.filter_true_of_mem fun m member zero => ?_
    obtain ⟨i, inside, rfl⟩ := Finset.mem_image.mp (Finset.mem_filter.mp member).1
    have below := slot_zero_of_above zero
    rw [Nat.add_sub_cancel' (by omega)] at below
    exact mapped i (Finset.mem_range.mp inside) below
  rw [madeTables, each 0 (by omega), each 1 (by omega), each 2 (by omega), missingTables]

end count

section step

variable {A : PageAllocator} {owner : Owner} {k k₁ k₂ k₃ : Kernel} {root v n flags j : Nat} {frame : Nat → Nat}

theorem FreshFrame.kept {f : Nat} (fresh : FreshFrame k k₁ owner root f) (hhdm : k₂.hhdm = k₁.hhdm)
    (granted : ∀ g ∈ k₁.granted, g ∈ k₂.granted)
    (bytes : ∀ x, InRange (f + k₁.hhdm) 4096 x → k₂.mem x = k₁.mem x)
    (tables : ∀ d ≤ 3, ∀ n < 512 ^ d, ∀ t, table k₂ root d n = some t → Apart t 4096 (f + k₁.hhdm) 4096) :
    FreshFrame k k₂ owner root f := by
  refine ⟨granted _ fresh.granted, fresh.fresh, fun p inside => ?_, ?_⟩
  · have byte := bytes (p + k₁.hhdm) (by unfold InRange at *; omega)
    rw [Kernel.phys, hhdm, byte]
    exact fresh.zero p inside
  · rw [hhdm]
    exact tables

/-- A new run is not the frame, and its bytes are not the frame's. -/
theorem FreshFrame.apart {f addr : Nat} {owner' : Owner} (fresh : FreshFrame k k₁ owner root f)
    (alloc : Allocates k₁ k₂ owner' 1 addr) : Apart f 4096 addr 4096 := by
  have separate := alloc.fresh _ fresh.granted
  unfold Grant.Apart at separate
  simpa using separate

theorem FreshFrame.after_kmalloc {f addr x : Nat} {owner' : Owner} (fresh : FreshFrame k k₁ owner root f)
    (alloc : Allocates k₁ k₂ owner' 1 addr) (inside : InRange (f + k₁.hhdm) 4096 x) : k₂.mem x = k₁.mem x := by
  have byte := alloc.kept (x - k₁.hhdm) ⟨_, fresh.granted, by unfold InRange at *; dsimp only; omega⟩
  have shift : x - k₁.hhdm + k₁.hhdm = x := by
    unfold InRange at inside
    omega
  rwa [Kernel.phys, Kernel.phys, alloc.setup.hhdm, shift] at byte

theorem FreshFrame.makes {f d m t next : Nat} (fresh : FreshFrame k k₁ owner root f) (ready : A.Ready k₁)
    (makes : Makes A (fun _ => True) root d m t flags k₁ next k₂) : FreshFrame k k₂ owner root f := by
  obtain ⟨addr, k₀, _, got, rfl, rfl, rfl, _⟩ := makes.frame
  have alloc := A.allocates ready got
  have link := makes.link
  have upper := link.upper
  have separate := fresh.apart alloc
  have entry := fresh.noTable d (by omega) _ (div_lt_pow link.bound) t link.place
  refine fresh.kept link.hhdm link.granted (fun x inside => ?_) fun d' depth n' bound t' place => ?_
  · rw [Kernel.setMem_mem, linkMem_outside, fresh.after_kmalloc alloc inside]
    · unfold Apart InRange at *
      omega
    · unfold Apart InRange at *
      omega
  · rw [link.tables d' depth n' bound] at place
    split at place
    · obtain rfl := Option.some.inj place
      unfold Apart at *
      omega
    · exact fresh.noTable d' depth n' bound t' place

theorem Backed.makes {d m t next : Nat} (backed : Backed A k owner root v n flags j k₁ frame)
    (space : v + n ≤ 512 ^ 4) (less : j < n) (way : (v + j) / 512 ^ (3 - d) = m)
    (makes : Makes A (fun _ => True) root d m t flags k₁ next k₂) : Backed A k owner root v n flags j k₂ frame := by
  have leaves := makes.leaves
  have link := makes.link
  have ready := backed.grows.touches.ready
  refine ⟨backed.grows.trans (makes.grows fun _ own => own), fun u bound outside => ?_, fun i inside => ?_,
    fun i inside => (backed.fresh i inside).makes ready makes, backed.distinct, ?_⟩
  · rw [leaves u bound]
    exact backed.others u bound outside
  · rw [leaves (v + i) (by omega)]
    exact backed.leaf i inside
  · obtain ⟨new, ledger, single, count⟩ := backed.ledger
    obtain ⟨addr, k₀, _, got, _, rfl, _⟩ := makes.frame
    refine ⟨new ++ [⟨.table root, addr, 1⟩], ?_, ?_, ?_⟩
    · rw [Kernel.setMem_granted, (A.allocates ready got).ledger, ledger, List.append_assoc]
    · simpa [or_imp, forall_and] using single
    · have onTheWay : m ∈ onWay v n d := Finset.mem_image.mpr ⟨j, Finset.mem_range.mpr less, way⟩
      have missing := missing_of_empty (backed.grows.kept d link.upper m link.bound) link.empty
      have after := link.slots.1.trans_ne link.entry
      have made := madeTables_insert space link.upper onTheWay missing link.empty after link.slots.2
      rw [List.length_append, List.length_singleton, count, made]
      omega

theorem Backed.page {t f : Nat} (backed : Backed A k owner root v n flags j k₁ frame) (small : flags < 4096)
    (space : v + n ≤ 512 ^ 4) (less : j < n) (place : table k₁ root 3 ((v + j) / 512) = some t)
    (got : A.kmalloc owner 1 k₁ = .ok (f, k₂)) :
    Backed A k owner root v n flags (j + 1) (backedPage k₂ t (v + j) f flags) fun i => if i = j then f else frame i := by
  have ready := backed.grows.touches.ready
  have alloc := A.allocates ready got
  have hhdm := alloc.setup.hhdm
  obtain ⟨grows, written, upper⟩ := backed.grows.ok.backedPage ready (fun _ own => own) trivial small
    (show v + j < 512 ^ 4 by omega) place got
  generalize after : backedPage k₂ t (v + j) f flags = k₃ at *
  have tables := table_of_slots grows.touches.setup.hhdm upper
  -- A table of the tree is not the new frame.
  have away : ∀ d ≤ 3, ∀ n < 512 ^ d, ∀ t', table k₁ root d n = some t' → Apart t' 4096 (f + k₁.hhdm) 4096 := by
    intro d depth n bound t' place
    refine apart_of_forall fun x inside => ?_
    simpa using backed.grows.ok.fresh_run ready alloc depth bound place inside
  have bound := div_lt_pow (d := 3) (show v + j < 512 ^ 4 by omega)
  have taken : ⟨owner, f, 1⟩ ∈ k₃.granted := by
    rw [← after]
    exact alloc.taken
  have mem : ∀ x, ¬ InRange t 4096 x → k₃.mem x = fill k₂.mem (f + k₁.hhdm) 4096 0 x := by
    intro x outside
    rw [← after, ← hhdm]
    exact store_outside (by unfold InRange at *; omega)
  have old : ∀ i < j, FreshFrame k k₃ owner root (frame i) := by
    intro i inside
    have fresh := backed.fresh i inside
    have separate := fresh.apart alloc
    refine fresh.kept grows.touches.setup.hhdm (fun g => grows.touches.granted) (fun x here => ?_) ?_
    · have entry := fresh.noTable 3 (by omega) _ bound t place
      rw [mem x (by unfold Apart InRange at *; omega), fill_outside (by unfold Apart InRange at *; omega)]
      exact fresh.after_kmalloc alloc here
    · intro d depth n inside t' there
      rw [tables d depth n inside] at there
      exact fresh.noTable d depth n inside t' there
  have new : FreshFrame k k₃ owner root f := by
    refine ⟨taken, fun g before => alloc.fresh g (backed.grows.touches.granted before), fun p inside => ?_, ?_⟩
    · have entry := away 3 (by omega) _ bound t place
      rw [Kernel.phys, grows.touches.setup.hhdm, mem _ (by unfold Apart InRange at *; omega)]
      exact fill_inside (by unfold InRange at *; omega)
    · intro d depth n inside t' there
      rw [tables d depth n inside] at there
      rw [grows.touches.setup.hhdm]
      exact away d depth n inside t' there
  refine ⟨backed.grows.trans grows, fun u inside outside => ?_, fun i inside => ?_, fun i inside => ?_,
    fun i inside i' inside' => ?_, ?_⟩
  · rw [written u inside, if_neg (by omega)]
    exact backed.others u inside (by omega)
  · rw [written (v + i) (by omega)]
    by_cases here : i = j
    · rw [if_pos here, if_pos (by omega)]
    · rw [if_neg here, if_neg (by omega)]
      exact backed.leaf i (by omega)
  · split
    · exact new
    · exact old i (by omega)
  · have differ : ∀ i < j, f ≠ frame i := by
      intro i inside same
      have separate := (backed.fresh i inside).apart alloc
      unfold Apart at separate
      omega
    intro same
    by_cases here : i = j <;> by_cases here' : i' = j
    · rw [here, here']
    · rw [if_pos here, if_neg here'] at same
      exact (differ i' (by omega) same).elim
    · rw [if_neg here, if_pos here'] at same
      exact (differ i (by omega) same.symm).elim
    · rw [if_neg here, if_neg here'] at same
      exact backed.distinct i (by omega) i' (by omega) same
  · obtain ⟨new, ledger, single, count⟩ := backed.ledger
    refine ⟨new ++ [⟨owner, f, 1⟩], ?_, ?_, ?_⟩
    · rw [← after]
      show k₂.granted = _
      rw [alloc.ledger, ledger, List.append_assoc]
    · simpa [or_imp, forall_and] using single
    · rw [List.length_append, List.length_singleton, count, madeTables_congr space upper]
      omega

theorem Backed.start (ready : A.Ready k) (tree : WellFormedTree k root) :
    Backed A k owner root v n flags 0 k fun _ => 0 := by
  refine ⟨.refl ready tree, fun _ _ _ => rfl, fun i inside => absurd inside (Nat.not_lt_zero i),
    fun i inside => absurd inside (Nat.not_lt_zero i), fun i inside => absurd inside (Nat.not_lt_zero i), [], ?_⟩
  simp [madeTables_self]

theorem enters_allocLeaf {virtAddr : Nat} {err : Stop → Prop} (k : Kernel) (small : flags < 4096)
    (space : pageOf virtAddr + n ≤ 512 ^ 4)
    (fails : ∀ k e owner, A.Ready k → A.kmalloc owner 1 k = .error e → err e) :
    Enters A (fun _ => True) (fun _ => True) root flags (allocLeaf A.kmalloc owner flags) (pageOf virtAddr) n
      (fun j _ k' => ∃ frame, Backed A k owner root (pageOf virtAddr) n flags j k' frame) err := by
  refine ⟨?_, ?_, ?_⟩
  · rintro j p k' ⟨frame, backed⟩
    exact ⟨backed.grows.touches.ready, backed.grows.ok⟩
  · rintro j p d m t k₁ less ⟨frame, backed⟩ upper bound way place
    have ready := backed.grows.touches.ready
    refine (tableAt_sat backed.grows.ok ready (fun _ => trivial) small upper bound place
      fun e _ => fails k₁ e _ ready).weaken fun next k₂ after => ?_
    rcases after with ⟨rfl, found⟩ | makes
    · exact ⟨.refl ready backed.grows.ok, ⟨frame, backed⟩, found⟩
    · exact ⟨makes.grows fun _ own => own, ⟨frame, backed.makes space less way makes⟩, makes.link.table_next⟩
  · rintro j t w k₁ less inside ⟨frame, backed⟩ num indices place
    have ready := backed.grows.touches.ready
    cases got : A.kmalloc owner 1 k₁ with
    | error e => exact .of_error (bind_error got) (fails k₁ e owner ready got)
    | ok pair =>
      obtain ⟨f, k₂⟩ := pair
      have next := backed.page small space less place got
      have grows := (backed.grows.ok.backedPage ready (fun _ own => own) trivial small inside place got).1
      have left := sub64_count less
      rw [← num] at left
      refine .of_ok (allocLeaf_run ready got) ⟨grows, ?_⟩
      by_cases last : sub64 w.num 1 = 0
      · rw [if_pos last]
        obtain rfl : n = j + 1 := by omega
        exact ⟨rfl, 0, _, next⟩
      · rw [if_neg last]
        exact ⟨by omega, ⟨_, next⟩, left, indices.1, indices.2⟩

end step

/-- After `alloc_pages` each page of the range has a zeroed frame of its own, which
nobody had before and which is no table; other pages are as before. It took a
frame for each page and one for each missing table, and stops only when `kmalloc` does. -/
theorem allocPages_fresh {A : PageAllocator} {k : Kernel} {owner : Owner} {root virtAddr n flags : Nat}
    (ready : A.Ready k) (tree : WellFormedTree k root) (some : 1 ≤ n)
    (space : virtAddr % 2 ^ 48 / 4096 + n ≤ 2 ^ 36) (small : flags < 4096)
    (present : flags &&& pflagPresent ≠ 0) :
    (∀ k', allocPages A.kmalloc owner root virtAddr n flags k = .ok ((), k') →
      (∃ frame : Nat → Nat, (∀ i < n, ∀ j < n, frame i = frame j → i = j) ∧
        ∀ i < n, FreshFrame k k' owner root (frame i) ∧ ∀ x, pageOf x = pageOf virtAddr + i →
          virtToPhys k' root x = frame i + x % 4096 ∧ leafFlags k' root x = flags) ∧
      (∀ x, ¬ (pageOf virtAddr ≤ pageOf x ∧ pageOf x < pageOf virtAddr + n) →
        virtToPhys k' root x = virtToPhys k root x ∧ leafFlags k' root x = leafFlags k root x) ∧
      (∃ new, k'.granted = k.granted ++ new ∧ (∀ g ∈ new, g.pages = 1) ∧
        new.length = n + missingTables k root (pageOf virtAddr) n) ∧
      WellFormedTree k' root) ∧
    ∀ e, allocPages A.kmalloc owner root virtAddr n flags k = .error e →
      ∃ k₁ owner, A.Ready k₁ ∧ A.kmalloc owner 1 k₁ = .error e := by
  have enters : Enters A (fun _ => True) (fun _ => True) root flags (allocLeaf A.kmalloc owner flags) (pageOf virtAddr) n
      (fun j _ k' => ∃ frame, Backed A k owner root (pageOf virtAddr) n flags j k' frame)
      (fun e => ∃ k₁ owner, A.Ready k₁ ∧ A.kmalloc owner 1 k₁ = .error e) :=
    enters_allocLeaf k small space fun k e owner ready stopped => ⟨k, owner, ready, stopped⟩
  have count : n = n % 2 ^ 64 := by omega
  have spec : Sat (allocPages A.kmalloc owner root virtAddr n flags) k _ _ :=
    enters.forPages some count ⟨fun _ => 0, .start ready tree⟩ (.inl space)
  refine ⟨fun k' h => ?_, fun e h => spec.error h⟩
  obtain ⟨_, _, _, frame, backed⟩ := spec.ok h
  have positive := flags_pos present
  have leaf : ∀ i < n, frame i % 4096 = 0 ∧ frame i + 4096 ≤ 2 ^ 64 ∧
      slot k' root 3 (pageOf virtAddr + i) = frame i + flags := by
    intro i inside
    have granted := (backed.fresh i inside).granted
    have aligned := (A.ledger backed.grows.touches.ready).aligned _ granted
    have mapped := (A.ledger backed.grows.touches.ready).mapped _ granted
    dsimp only at aligned mapped
    exact ⟨aligned, by omega, (backed.leaf i inside).trans (or_low aligned small)⟩
  refine ⟨⟨frame, backed.distinct, fun i inside => ⟨backed.fresh i inside, fun x page => ?_⟩⟩, fun x outside => ?_, ?_,
    backed.grows.ok⟩
  · obtain ⟨aligned, bound, entry⟩ := leaf i inside
    unfold leafFlags
    rw [virtToPhys_eq, page, entry, if_neg (by omega), pageAlignDown, add64_of_lt (by omega)]
    omega
  · have same := backed.others (pageOf x) (pageOf_lt x) outside
    unfold leafFlags
    rw [virtToPhys_eq, virtToPhys_eq, same]
    exact ⟨rfl, rfl⟩
  · obtain ⟨new, ledger, single, taken⟩ := backed.ledger
    refine ⟨new, ledger, single, ?_⟩
    rw [taken, madeTables_all]
    intro i inside
    have entry := (leaf i inside).2.2
    omega

/-- Three pages that need four tables. -/
theorem allocPages_fresh_treeMachine :
    ∃ k', allocPages pmm.kmalloc .kernelStack (4096 + 2 ^ 47) 0x3FF000 3 7 treeMachine = .ok ((), k') ∧
      ∃ new, k'.granted = treeMachine.granted ++ new ∧ new.length = 7 := by
  have check : returns (allocPages pmm.kmalloc .kernelStack (4096 + 2 ^ 47) 0x3FF000 3 7) treeMachine
      (fun _ _ => true) = true := by
    decide +kernel
  obtain ⟨_, k', run, _⟩ := returns_iff.mp check
  have missing : missingTables treeMachine (4096 + 2 ^ 47) (pageOf 0x3FF000) 3 = 4 := by decide +kernel
  have fresh := (allocPages_fresh treeMachine_ready treeMachine_tree (by decide) (by decide) (by decide)
    (by decide)).1 k' run
  obtain ⟨_, _, ⟨new, ledger, _, taken⟩, _⟩ := fresh
  exact ⟨k', run, new, ledger, by rw [taken, missing]⟩

/-! ### The frames that `map_pages` takes -/

/-- `k'` comes from `k` by taking `n` frames for tables; apart from that only bytes
that were handed out changed. -/
inductive Takes (A : PageAllocator) (root : Nat) (k : Kernel) : Nat → Kernel → Prop where
  | start : Takes A root k 0 k
  | table {n frame : Nat} {k₁ k₂ : Kernel} (before : Takes A root k n k₁)
      (got : A.kmalloc (.table root) 1 k₁ = .ok (frame, k₂)) : Takes A root k (n + 1) k₂
  | write {n : Nat} {k₁ : Kernel} {m : Mem} (before : Takes A root k n k₁)
      (owned : ∀ x, m x ≠ k₁.mem x → ∃ g ∈ k₁.granted, InRange (g.addr + k₁.hhdm) (g.pages * 4096) x) :
      Takes A root k n (k₁.setMem m)

/-- `kmalloc` refuses a frame for one of the missing tables. -/
def RefusesTable (A : PageAllocator) (k : Kernel) (root v n : Nat) (e : Stop) : Prop :=
  ∃ taken < missingTables k root v n, ∃ k₁, Takes A root k taken k₁ ∧ A.kmalloc (.table root) 1 k₁ = .error e

section map

variable {A : PageAllocator} {own who : Grant → Prop} {k k₁ k₂ : Kernel} {root v n flags d m t next : Nat}

theorem Takes.makes (takes : Takes A root k (madeTables k k₁ root v n) k₁) (grows : Grows A own who root k k₁)
    (space : v + n ≤ 512 ^ 4) (way : m ∈ onWay v n d) (makes : Makes A own root d m t flags k₁ next k₂) :
    Takes A root k (madeTables k k₂ root v n) k₂ := by
  have link := makes.link
  have missing := missing_of_empty (grows.kept d link.upper m link.bound) link.empty
  have after := link.slots.1.trans_ne link.entry
  rw [madeTables_insert space link.upper way missing link.empty after link.slots.2]
  obtain ⟨frame, k₀, _, got, _, rfl, _, changes⟩ := makes.frame
  refine (takes.table got).write fun x changed => ?_
  obtain ⟨g, taken, _, inside⟩ := changes x changed
  exact ⟨g, taken, inside⟩

theorem madeTables_lt (upper : d < 3) (way : m ∈ onWay v n d) (missing : slot k root d m = 0)
    (empty : slot k₁ root d m = 0) : madeTables k k₁ root v n < missingTables k root v n := by
  have le : ∀ d, (madeAt k k₁ root v n d).card ≤ (missingAt k root v n d).card := fun d =>
    Finset.card_le_card (Finset.filter_subset ..)
  have less : (madeAt k k₁ root v n d).card < (missingAt k root v n d).card := by
    refine Finset.card_lt_card ((Finset.filter_ssubset).mpr ⟨m, ?_, fun some => some empty⟩)
    exact Finset.mem_filter.mpr ⟨way, missing⟩
  have zero := le 0
  have one := le 1
  have two := le 2
  unfold madeTables missingTables
  obtain rfl | rfl | rfl : d = 0 ∨ d = 1 ∨ d = 2 := by omega
  all_goals omega

theorem enters_mapLeaf {virtAddr phys : Nat} (k : Kernel) (mine : ∀ a, own ⟨.table root, a, 1⟩) (sub : ∀ g, own g → who g)
    (small : flags < 4096) (count : n < 2 ^ 64) (space : pageOf virtAddr + n ≤ 512 ^ 4) :
    Enters A own who root flags (mapLeaf flags) (pageOf virtAddr) n (fun j p k' =>
      (p % 2 ^ 64 = (phys + 4096 * j) % 2 ^ 64 ∧ Grows A own who root k k' ∧
        ∀ u < 512 ^ 4, slot k' root 3 u = mappedLeaves k root (pageOf virtAddr) phys j flags u) ∧
      Takes A root k (madeTables k k' root (pageOf virtAddr) n) k') (RefusesTable A k root (pageOf virtAddr) n) := by
  have fails : ∀ k e, A.Ready k → A.kmalloc (.table root) 1 k = .error e → True := fun _ _ _ _ => trivial
  have visits := visits_mapLeaf k virtAddr phys mine sub small (Nat.le_of_lt count) fails
  refine ⟨fun inv => visits.ready inv.1, ?_, ?_⟩
  · intro j p d m t k₁ less inv upper bound way place
    obtain ⟨holds, takes⟩ := inv
    obtain ⟨ready, ok⟩ := visits.ready holds
    have onTheWay : m ∈ onWay (pageOf virtAddr) n d := Finset.mem_image.mpr ⟨j, Finset.mem_range.mpr less, way⟩
    have grows := holds.2.1
    refine (tableAt_sat ok ready mine small upper bound place fun e empty stopped => ?_).weaken fun next k₂ after => ?_
    · have missing := missing_of_empty (grows.kept d upper m bound) empty
      exact ⟨_, madeTables_lt upper onTheWay missing empty, k₁, takes, stopped⟩
    · rcases after with ⟨rfl, found⟩ | makes
      · exact ⟨.refl ready ok, ⟨holds, takes⟩, found⟩
      · have more := makes.grows sub
        exact ⟨more, ⟨visits.stable holds more makes.leaves, takes.makes grows space onTheWay makes⟩, makes.link.table_next⟩
  · intro j t w k₁ less inside inv num indices place
    obtain ⟨holds, takes⟩ := inv
    have ok := (visits.ready holds).2
    have run := mapLeaf_run flags t ((pageOf virtAddr + j) % 512) w k₁
    have write : SlotWrite own k₁ (k₁.setMem (store k₁.mem (t + 8 * ((pageOf virtAddr + j) % 512)) 8 (w.phys ||| flags)))
        root 3 (pageOf virtAddr + j) t := ok.leafWrite inside place
    have upper := write.leaf.2.2.1
    have written : Takes A root k (madeTables k k₁ root (pageOf virtAddr) n)
        (k₁.setMem (store k₁.mem (t + 8 * ((pageOf virtAddr + j) % 512)) 8 (w.phys ||| flags))) := by
      refine takes.write fun x changed => ?_
      have here : InRange (t + 8 * ((pageOf virtAddr + j) % 512)) 8 x := by
        by_contra far
        exact changed (store_outside far)
      obtain ⟨g, taken, _, there⟩ := ok.entry_owned (by omega) inside place here
      exact ⟨g, taken, there⟩
    generalize k₁.setMem (store k₁.mem (t + 8 * ((pageOf virtAddr + j) % 512)) 8 (w.phys ||| flags)) = k₂ at *
    rw [← madeTables_congr space fun d small m bound => upper d (by omega) m bound (by omega)] at written
    obtain ⟨grows, after⟩ := (visits.visit less inside holds num indices place).ok run
    refine .of_ok run ⟨grows, ?_⟩
    by_cases last : sub64 w.num 1 = 0
    · rw [if_pos last] at after ⊢
      obtain ⟨rfl, p, inv⟩ := after
      exact ⟨rfl, p, inv, written⟩
    · rw [if_neg last] at after ⊢
      obtain ⟨more, inv, rest⟩ := after
      exact ⟨more, ⟨inv, written⟩, rest⟩

/-- `map_pages` stops only when it gets no frame for a missing table or runs over the
end of the address space. -/
theorem mapPages_stops {virtAddr phys : Nat} {e : Stop} (ready : A.Ready k) (ok : TreeOk own k root)
    (mine : ∀ a, own ⟨.table root, a, 1⟩) (small : flags < 4096)
    (some : 0 < n) (count : n < 2 ^ 64) (h : mapPages A.kmalloc root virtAddr phys n flags k = .error e) :
    RefusesTable A k root (pageOf virtAddr) n e ∨ 512 ^ 4 < pageOf virtAddr + n := by
  rcases Nat.lt_or_ge (512 ^ 4) (pageOf virtAddr + n) with beyond | space
  · exact .inr beyond
  · have spec : Sat (mapPages A.kmalloc root virtAddr phys n flags) k _ _ :=
      (enters_mapLeaf k mine (fun _ h => h) small count space).forPages some (Nat.mod_eq_of_lt count).symm
        ⟨⟨rfl, .refl ready ok, fun u _ => ?_⟩, madeTables_self.symm ▸ .start⟩ (.inl space)
    · exact .inl (spec.error h)
    · rw [mappedLeaves, if_neg (by omega)]

end map

end PotatOS.Mem
