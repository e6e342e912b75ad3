import PotatOS.Mem.Paging
import PotatOS.Mem.PageAllocator

/-!
# Page trees

The tables of a tree are numbered by depth and position: table `(d, n)` is the
one for the pages whose number starts with `n`, and entry `n` at depth `d` is
found in table `(d, n / 512)`. `TreeOk` says that a tree shares no frame with
itself and lives in granted runs.
-/

namespace PotatOS.Mem

open Memory Prog

/-- The table at depth `d` for node `n`, when it exists. -/
def table (k : Kernel) (root : Nat) : Nat → Nat → Option Nat
  | 0, _ => some root
  | d + 1, n =>
    match table k root d (n / 512) with
    | none => none
    | some t =>
      if entryAt k.mem t (n % 512) = 0 then none else some (tableOf k.hhdm (entryAt k.mem t (n % 512)))

/-- Entry `n` at depth `d`, zero when there is no table for it. The leaf entry
of page `u` is `slot k root 3 u`. -/
def slot (k : Kernel) (root d n : Nat) : Nat :=
  match table k root d (n / 512) with
  | none => 0
  | some t => entryAt k.mem t (n % 512)

theorem slot_of_table {k : Kernel} {root d n t : Nat} (h : table k root d (n / 512) = some t) :
    slot k root d n = entryAt k.mem t (n % 512) := by
  rw [slot, h]

theorem slot_of_none {k : Kernel} {root d n : Nat} (h : table k root d (n / 512) = none) :
    slot k root d n = 0 := by
  rw [slot, h]

theorem slot_lt (k : Kernel) (root d n : Nat) : slot k root d n < 2 ^ 64 := by
  unfold slot
  split
  · decide
  · exact load_lt ..

theorem table_succ (k : Kernel) (root d n : Nat) :
    table k root (d + 1) n = if slot k root d n = 0 then none else some (tableOf k.hhdm (slot k root d n)) := by
  cases h : table k root d (n / 512) with
  | none => simp [table, slot, h]
  | some t => simp [table, slot, h]

theorem slot_succ (k : Kernel) (root d n : Nat) :
    slot k root (d + 1) n = if slot k root d (n / 512) = 0 then 0
      else entryAt k.mem (tableOf k.hhdm (slot k root d (n / 512))) (n % 512) := by
  have below := table_succ k root d (n / 512)
  split at below
  · rename_i zero
    rw [slot_of_none below, if_pos zero]
  · rename_i some
    rw [slot_of_table below, if_neg some]

theorem slot_zero_below {k : Kernel} {root d n : Nat} (zero : slot k root d (n / 512) = 0) : slot k root (d + 1) n = 0 := by
  rw [slot_succ, if_pos zero]

theorem slot_zero_of_above {k : Kernel} {root d u e : Nat} (zero : slot k root d (u / 512 ^ e) = 0) :
    slot k root (d + e) u = 0 := by
  induction e generalizing u with
  | zero => simpa using zero
  | succ e ih =>
    refine slot_zero_below (ih ?_)
    rwa [Nat.div_div_eq_div_mul, ← Nat.pow_succ']

theorem table_of_slots {k k' : Kernel} {root : Nat} (hhdm : k'.hhdm = k.hhdm)
    (same : ∀ d < 3, ∀ n < 512 ^ (d + 1), slot k' root d n = slot k root d n) :
    ∀ d ≤ 3, ∀ n < 512 ^ d, table k' root d n = table k root d n := by
  intro d depth n bound
  cases d with
  | zero => rfl
  | succ d => rw [table_succ, table_succ, same d (by omega) n bound, hhdm]

structure TreeOk (own : Grant → Prop) (k : Kernel) (root : Nat) : Prop where
  start : k.hhdm ≤ root ∧ (root - k.hhdm) % 4096 = 0
  owned : ∀ d ≤ 3, ∀ n < 512 ^ d, ∀ t, table k root d n = some t →
    ∃ g ∈ k.granted, own g ∧ g.addr + k.hhdm ≤ t ∧ t + 4096 ≤ g.addr + k.hhdm + g.pages * 4096
  distinct : ∀ d ≤ 3, ∀ n < 512 ^ d, ∀ d' ≤ 3, ∀ n' < 512 ^ d', ∀ t,
    table k root d n = some t → table k root d' n' = some t → d = d' ∧ n = n'

theorem entryAt_congr {m m' : Mem} {t i : Nat} (small : i < 512)
    (same : ∀ x, InRange t 4096 x → m' x = m x) : entryAt m' t i = entryAt m t i :=
  load_congr fun x inside => same x (by unfold InRange at *; omega)

theorem div_lt_pow {n d : Nat} (bound : n < 512 ^ (d + 1)) : n / 512 < 512 ^ d := by
  rw [Nat.div_lt_iff_lt_mul (by decide)]
  rwa [← Nat.pow_succ]

theorem table_congr {k k' : Kernel} {root : Nat} (hhdm : k'.hhdm = k.hhdm) {d n : Nat} (depth : d ≤ 4)
    (bound : n < 512 ^ d)
    (same : ∀ d' < d, ∀ n' < 512 ^ d', ∀ t, table k root d' n' = some t →
      ∀ x, InRange t 4096 x → k'.mem x = k.mem x) :
    table k' root d n = table k root d n := by
  induction d generalizing n with
  | zero => rfl
  | succ d ih =>
    have above := ih (by omega) (div_lt_pow bound) fun d' less => same d' (by omega)
    cases h : table k root d (n / 512) with
    | none => rw [table, table, above, h]
    | some t =>
      have entry : entryAt k'.mem t (n % 512) = entryAt k.mem t (n % 512) :=
        entryAt_congr (Nat.mod_lt _ (by decide)) (same d (by omega) _ (div_lt_pow bound) t h)
      rw [table, table, above, h]
      simp only [entry, hhdm]

theorem slots_congr {k k' : Kernel} {root : Nat} (hhdm : k'.hhdm = k.hhdm)
    (same : ∀ d ≤ 3, ∀ n < 512 ^ d, ∀ t, table k root d n = some t → ∀ x, InRange t 4096 x → k'.mem x = k.mem x) :
    (∀ d ≤ 3, ∀ n < 512 ^ d, table k' root d n = table k root d n) ∧
      ∀ d ≤ 3, ∀ n < 512 ^ (d + 1), slot k' root d n = slot k root d n := by
  have tables : ∀ d ≤ 3, ∀ n < 512 ^ d, table k' root d n = table k root d n := by
    intro d depth n bound
    exact table_congr hhdm (by omega) bound fun d' less => same d' (by omega)
  refine ⟨tables, fun d depth n bound => ?_⟩
  have above := tables d depth _ (div_lt_pow bound)
  cases h : table k root d (n / 512) with
  | none => rw [slot_of_none h, slot_of_none (above.trans h)]
  | some t =>
    rw [slot_of_table h, slot_of_table (above.trans h)]
    exact entryAt_congr (Nat.mod_lt _ (by decide)) (same d depth _ (div_lt_pow bound) t h)

namespace TreeOk

variable {A : PageAllocator} {own : Grant → Prop} {k k' : Kernel} {root : Nat}

theorem aligned (ok : TreeOk own k root) {d n t : Nat} (depth : d ≤ 3) (bound : n < 512 ^ d)
    (h : table k root d n = some t) : k.hhdm ≤ t ∧ (t - k.hhdm) % 4096 = 0 := by
  obtain ⟨g, _, _, lower, _⟩ := ok.owned d depth n bound t h
  cases d with
  | zero =>
    obtain rfl : root = t := Option.some.inj h
    exact ok.start
  | succ d =>
    rw [table_succ] at h
    split at h
    · cases h
    · obtain rfl := Option.some.inj h
      have small := slot_lt k root d n
      refine ⟨by omega, ?_⟩
      -- A sum that wrapped would lie below the direct map.
      unfold tableOf add64 pageAlignDown at *
      generalize slot k root d n = e at *
      omega

theorem root_lt (ok : TreeOk own k root) (ready : A.Ready k) : root < 2 ^ 64 := by
  obtain ⟨g, taken, _, lower, upper⟩ := ok.owned 0 (by omega) 0 (by omega) _ rfl
  have fits := (A.ledger ready).mapped g taken
  omega

theorem entry_owned (ok : TreeOk own k root) {d n t x : Nat} (depth : d ≤ 3) (bound : n < 512 ^ (d + 1))
    (place : table k root d (n / 512) = some t) (inside : InRange (t + 8 * (n % 512)) 8 x) :
    ∃ g ∈ k.granted, own g ∧ InRange (g.addr + k.hhdm) (g.pages * 4096) x := by
  obtain ⟨g, taken, mine, lower, upper⟩ := ok.owned d depth _ (div_lt_pow bound) t place
  exact ⟨g, taken, mine, by unfold InRange at *; omega⟩

theorem tables_apart (ok : TreeOk own k root) {d n t d' n' t' x : Nat} (depth : d ≤ 3) (bound : n < 512 ^ d)
    (h : table k root d n = some t) (depth' : d' ≤ 3) (bound' : n' < 512 ^ d')
    (h' : table k root d' n' = some t') (other : ¬ (d = d' ∧ n = n')) (inside : InRange t 4096 x) :
    ¬ InRange t' 4096 x := by
  have different : t ≠ t' := by
    rintro rfl
    exact other (ok.distinct d depth n bound d' depth' n' bound' t h h')
  have place := ok.aligned depth bound h
  have place' := ok.aligned depth' bound' h'
  unfold InRange at *
  omega

/-- A cleared frame is a tree without mappings. -/
theorem of_zero {g : Grant} (taken : g ∈ k.granted) (mine : own g) (pages : 1 ≤ g.pages)
    (page : g.addr % 4096 = 0) (zero : ∀ x, InRange (g.addr + k.hhdm) 4096 x → k.mem x = 0) :
    TreeOk own k (g.addr + k.hhdm) ∧ ∀ d n, slot k (g.addr + k.hhdm) d n = 0 := by
  have slots : ∀ d n, slot k (g.addr + k.hhdm) d n = 0 := by
    intro d
    induction d with
    | zero =>
      intro n
      have small : n % 512 < 512 := Nat.mod_lt _ (by decide)
      exact load_zero fun x inside => zero x (by unfold InRange at *; omega)
    | succ d ih => intro n; rw [slot_succ, if_pos (ih _)]
  have tables : ∀ d n, table k (g.addr + k.hhdm) (d + 1) n = none := by
    intro d n
    rw [table_succ, if_pos (slots d n)]
  refine ⟨⟨⟨by omega, by omega⟩, ?_, ?_⟩, slots⟩
  · intro d depth n bound t h
    cases d with
    | zero =>
      obtain rfl := Option.some.inj h
      exact ⟨g, taken, mine, by omega, by omega⟩
    | succ d => rw [tables] at h; cases h
  · intro d depth n bound d' depth' n' bound' t h h'
    cases d with
    | succ d => rw [tables] at h; cases h
    | zero =>
      cases d' with
      | succ d' => rw [tables] at h'; cases h'
      | zero => exact ⟨rfl, by omega⟩

theorem frame (ok : TreeOk own k root) (hhdm : k'.hhdm = k.hhdm) (granted : ∀ g ∈ k.granted, g ∈ k'.granted)
    (same : ∀ d ≤ 3, ∀ n < 512 ^ d, ∀ t, table k root d n = some t →
      ∀ x, InRange t 4096 x → k'.mem x = k.mem x) :
    (∀ d ≤ 3, ∀ n < 512 ^ d, table k' root d n = table k root d n) ∧
      (∀ d ≤ 3, ∀ n < 512 ^ (d + 1), slot k' root d n = slot k root d n) ∧ TreeOk own k' root := by
  obtain ⟨tables, slots⟩ := slots_congr hhdm same
  refine ⟨tables, slots, hhdm.symm ▸ ok.start, ?_, ?_⟩
  · intro d depth n bound t h
    rw [tables d depth n bound] at h
    obtain ⟨g, taken, mine, place⟩ := ok.owned d depth n bound t h
    exact ⟨g, granted g taken, mine, by rwa [hhdm]⟩
  · intro d depth n bound d' depth' n' bound' t h h'
    rw [tables d depth n bound] at h
    rw [tables d' depth' n' bound'] at h'
    exact ok.distinct d depth n bound d' depth' n' bound' t h h'

theorem kept_of_touches {who : Grant → Prop} (ok : TreeOk own k root) (others : ∀ g, own g → ¬ who g)
    (step : Touches A who k k') {d n t x : Nat} (depth : d ≤ 3) (bound : n < 512 ^ d)
    (h : table k root d n = some t) (inside : InRange t 4096 x) : k'.mem x = k.mem x := by
  obtain ⟨g, taken, mine, lower, upper⟩ := ok.owned d depth n bound t h
  exact step.byte_kept taken (others g mine) (by unfold InRange at *; omega)

theorem of_touches {who : Grant → Prop} (ok : TreeOk own k root) (others : ∀ g, own g → ¬ who g)
    (step : Touches A who k k') :
    (∀ d ≤ 3, ∀ n < 512 ^ d, table k' root d n = table k root d n) ∧
      (∀ d ≤ 3, ∀ n < 512 ^ (d + 1), slot k' root d n = slot k root d n) ∧ TreeOk own k' root :=
  ok.frame step.setup.hhdm (fun _ taken => step.granted taken)
    fun _ depth _ bound _ h _ inside => ok.kept_of_touches others step depth bound h inside

end TreeOk

/-! ### Writing one entry -/

/-- A step that changes no table except at entry `(d, n)`, which lies in table `t`. -/
structure SlotWrite (own : Grant → Prop) (k k' : Kernel) (root d n t : Nat) : Prop where
  ok : TreeOk own k root
  hhdm : k'.hhdm = k.hhdm
  granted : ∀ g ∈ k.granted, g ∈ k'.granted
  depth : d ≤ 3
  bound : n < 512 ^ (d + 1)
  place : table k root d (n / 512) = some t
  same : ∀ d' ≤ 3, ∀ n' < 512 ^ d', ∀ t', table k root d' n' = some t' →
    ∀ x, InRange t' 4096 x → ¬ InRange (t + 8 * (n % 512)) 8 x → k'.mem x = k.mem x

namespace SlotWrite

variable {own : Grant → Prop} {k k' : Kernel} {root d n t : Nat}

theorem other_entry (write : SlotWrite own k k' root d n t) {d' n' t' : Nat} (depth : d' ≤ 3)
    (bound : n' < 512 ^ (d' + 1)) (h : table k root d' (n' / 512) = some t') (other : ¬ (d' = d ∧ n' = n)) :
    entryAt k'.mem t' (n' % 512) = entryAt k.mem t' (n' % 512) := by
  refine load_congr fun x inside => ?_
  have here : InRange t' 4096 x := by unfold InRange at *; omega
  refine write.same d' depth _ (div_lt_pow bound) t' h x here fun hit => ?_
  have there : InRange t 4096 x := by unfold InRange at *; omega
  by_cases same : d' = d ∧ n' / 512 = n / 512
  · obtain ⟨rfl, quotient⟩ := same
    obtain rfl : t' = t := by
      rw [quotient] at h
      exact Option.some.inj (h.symm.trans write.place)
    have remainder : n' % 512 ≠ n % 512 := fun eq => other ⟨rfl, by omega⟩
    unfold InRange at inside hit
    omega
  · exact write.ok.tables_apart depth (div_lt_pow bound) h write.depth (div_lt_pow write.bound) write.place
      same here there

theorem leaf (write : SlotWrite own k k' root 3 n t) :
    (∀ d ≤ 3, ∀ n < 512 ^ d, table k' root d n = table k root d n) ∧
      slot k' root 3 n = entryAt k'.mem t (n % 512) ∧
      (∀ d ≤ 3, ∀ n' < 512 ^ (d + 1), ¬ (d = 3 ∧ n' = n) → slot k' root d n' = slot k root d n') ∧
      TreeOk own k' root := by
  have tables : ∀ d ≤ 3, ∀ n < 512 ^ d, table k' root d n = table k root d n := by
    intro d depth
    induction d with
    | zero => intro n' _; rfl
    | succ d ih =>
      intro n' bound
      have above := ih (by omega) _ (div_lt_pow bound)
      cases h : table k root d (n' / 512) with
      | none => rw [table, table, above, h]
      | some t' =>
        have entry := write.other_entry (by omega) bound h (by omega)
        rw [table, table, above, h]
        simp only [entry, write.hhdm]
  have place := tables 3 (by omega) _ (div_lt_pow write.bound)
  refine ⟨tables, slot_of_table (place.trans write.place), ?_, write.hhdm.symm ▸ write.ok.start, ?_, ?_⟩
  · intro d depth n' bound other
    have above := tables d depth _ (div_lt_pow bound)
    cases h : table k root d (n' / 512) with
    | none => rw [slot_of_none h, slot_of_none (above.trans h)]
    | some t' =>
      rw [slot_of_table h, slot_of_table (above.trans h)]
      exact write.other_entry depth bound h other
  · intro d depth n' bound t' h
    rw [tables d depth n' bound] at h
    obtain ⟨g, taken, mine, inside⟩ := write.ok.owned d depth n' bound t' h
    exact ⟨g, write.granted g taken, mine, by rwa [write.hhdm]⟩
  · intro d depth n' bound d' depth' n'' bound' t' h h'
    rw [tables d depth n' bound] at h
    rw [tables d' depth' n'' bound'] at h'
    exact write.ok.distinct d depth n' bound d' depth' n'' bound' t' h h'

/-- What it takes to hang a new table on an empty entry. -/
structure Links (own : Grant → Prop) (k k' : Kernel) (root d n t next : Nat) : Prop
    extends SlotWrite own k k' root d n t where
  upper : d < 3
  empty : slot k root d n = 0
  entry : entryAt k'.mem t (n % 512) ≠ 0
  target : tableOf k.hhdm (entryAt k'.mem t (n % 512)) = next
  zero : ∀ x, InRange next 4096 x → k'.mem x = 0
  mine : ∃ g ∈ k'.granted, own g ∧ g.addr + k.hhdm ≤ next ∧ next + 4096 ≤ g.addr + k.hhdm + g.pages * 4096
  fresh : ∀ d' ≤ 3, ∀ n' < 512 ^ d', table k root d' n' ≠ some next

end SlotWrite

namespace SlotWrite.Links

variable {own : Grant → Prop} {k k' : Kernel} {root d n t next : Nat}

theorem tables (link : Links own k k' root d n t next) :
    ∀ d' ≤ 3, ∀ n' < 512 ^ d', table k' root d' n' =
      if d' = d + 1 ∧ n' = n then some next else table k root d' n' := by
  have below : table k root (d + 1) n = none := by rw [table_succ, if_pos link.empty]
  intro d' depth
  induction d' with
  | zero => intro n' _; rw [if_neg (by omega)]; rfl
  | succ d' ih =>
    intro n' bound
    have above := ih (by omega) _ (div_lt_pow bound)
    by_cases new : d' = d + 1 ∧ n' / 512 = n
    · -- Below the new table there is nothing yet.
      obtain ⟨rfl, rfl⟩ := new
      rw [if_pos ⟨rfl, rfl⟩] at above
      have blank : entryAt k'.mem next (n' % 512) = 0 :=
        load_zero fun x inside => link.zero x (by unfold InRange at *; omega)
      rw [if_neg (by omega), table_succ, table_succ, slot_of_table above, slot_of_none below, blank]
      rfl
    · rw [if_neg new] at above
      by_cases here : d' = d ∧ n' = n
      · obtain ⟨rfl, rfl⟩ := here
        have entry := link.entry
        rw [if_pos ⟨rfl, rfl⟩, table, above, link.place]
        simp only [entry, if_false, link.hhdm, link.target]
      · rw [if_neg (by omega)]
        cases h : table k root d' (n' / 512) with
        | none => rw [table, table, above, h]
        | some t' =>
          have entry := link.other_entry (by omega) bound h here
          rw [table, table, above, h]
          simp only [entry, link.hhdm]

theorem table_next (link : Links own k k' root d n t next) : table k' root (d + 1) n = some next := by
  have upper := link.upper
  rw [link.tables (d + 1) (by omega) n link.bound, if_pos ⟨rfl, rfl⟩]

theorem slots (link : Links own k k' root d n t next) :
    slot k' root d n = entryAt k'.mem t (n % 512) ∧
      ∀ d' ≤ 3, ∀ n' < 512 ^ (d' + 1), ¬ (d' = d ∧ n' = n) → slot k' root d' n' = slot k root d' n' := by
  constructor
  · refine slot_of_table ?_
    rw [link.tables d link.depth _ (div_lt_pow link.bound), if_neg (by omega)]
    exact link.place
  · intro d' depth n' bound other
    have above := link.tables d' depth _ (div_lt_pow bound)
    by_cases new : d' = d + 1 ∧ n' / 512 = n
    · obtain ⟨rfl, rfl⟩ := new
      rw [if_pos ⟨rfl, rfl⟩] at above
      have below : table k root (d + 1) (n' / 512) = none := by rw [table_succ, if_pos link.empty]
      rw [slot_of_table above, slot_of_none below]
      exact load_zero fun x inside => link.zero x (by unfold InRange at *; omega)
    · rw [if_neg new] at above
      cases h : table k root d' (n' / 512) with
      | none => rw [slot_of_none h, slot_of_none (above.trans h)]
      | some t' =>
        rw [slot_of_table h, slot_of_table (above.trans h)]
        exact link.other_entry depth bound h other

theorem treeOk (link : Links own k k' root d n t next) : TreeOk own k' root := by
  refine ⟨link.hhdm.symm ▸ link.ok.start, ?_, ?_⟩
  · intro d' depth n' bound t' h
    rw [link.tables d' depth n' bound] at h
    rw [link.hhdm]
    split at h
    · obtain rfl := Option.some.inj h
      exact link.mine
    · obtain ⟨g, taken, mine, inside⟩ := link.ok.owned d' depth n' bound t' h
      exact ⟨g, link.granted g taken, mine, inside⟩
  · intro d₁ depth₁ n₁ bound₁ d₂ depth₂ n₂ bound₂ t' h₁ h₂
    rw [link.tables d₁ depth₁ n₁ bound₁] at h₁
    rw [link.tables d₂ depth₂ n₂ bound₂] at h₂
    split at h₁ <;> split at h₂
    · omega
    · obtain rfl := Option.some.inj h₁
      exact (link.fresh d₂ depth₂ n₂ bound₂ h₂).elim
    · obtain rfl := Option.some.inj h₂
      exact (link.fresh d₁ depth₁ n₁ bound₁ h₁).elim
    · exact link.ok.distinct d₁ depth₁ n₁ bound₁ d₂ depth₂ n₂ bound₂ t' h₁ h₂

end SlotWrite.Links
end PotatOS.Mem
