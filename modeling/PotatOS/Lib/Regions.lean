import PotatOS.Lib.Program

/-!
# Calls that keep to a region

Objects have addresses that are given out in ascending order, and point at each
other. A call that starts with pointers into a closed region reaches nothing
outside of it but what it allocates. A disjoint region stays as it is, and a
reader there gets the answers it got before.
-/

namespace PotatOS.Regions

/-- A state with objects at addresses up to `used`. `Rest` relates states that agree on what is not an object. -/
structure Store (σ : Type) where
  used : σ → Nat
  Points : σ → Nat → Nat → Prop
  Same : Nat → σ → σ → Prop
  Rest : σ → σ → Prop
  same_refl : ∀ a s, Same a s s
  same_trans : ∀ {a s t u}, Same a s t → Same a t u → Same a s u
  rest_refl : ∀ s, Rest s s
  rest_trans : ∀ {s t u}, Rest s t → Rest t u → Rest s u
  points : ∀ {a b s t}, Same a s t → Points t a b → Points s a b

/-- A pointer into the region, or null. -/
def Within (own : Nat → Prop) (a : Nat) : Prop := a ≠ 0 → own a

variable {σ α β : Type} (M : Store σ)

structure Region (s : σ) (own : Nat → Prop) : Prop where
  known : ∀ a, own a → a ≠ 0 ∧ a ≤ M.used s
  closed : ∀ a b, own a → M.Points s a b → Within own b
  fresh : ∀ a b, M.used s < a → M.Points s a b → b = 0

/-- From `s` to `t` the region `own` grew to `own'`, and only objects there changed. -/
structure Grows (own own' : Nat → Prop) (s t : σ) : Prop where
  region : Region M t own'
  used : M.used s ≤ M.used t
  keeps : ∀ a, own a → own' a
  new : ∀ a, own' a → own a ∨ M.used s < a
  same : ∀ a, ¬ own' a → M.Same a s t
  rest : M.Rest s t

/-- A reader of the region cannot tell `t` from `s`. -/
structure Agrees (own : Nat → Prop) (s t : σ) : Prop where
  used : M.used s ≤ M.used t
  same : ∀ a, own a → M.Same a s t

def Confined (own : Nat → Prop) (s : σ) (x : Prog σ α) (post : α → (Nat → Prop) → Prop) : Prop :=
  ∀ r t, x s = .ok (r, t) → ∃ own', Grows M own own' s t ∧ post r own'

/-- `x` changes nothing, and gives the same where the region is the same. -/
def Steady (own : Nat → Prop) (s : σ) (x : Prog σ α) (post : α → Prop) : Prop :=
  ∀ r t, x s = .ok (r, t) → t = s ∧ post r ∧ ∀ u, Agrees M own s u → x u = .ok (r, u)

def Stable (own : Nat → Prop) (s : σ) (x : Prog σ α) : Prop :=
  ∀ r t, x s = .ok (r, t) → ∀ u, Agrees M own s u → ∃ u', x u = .ok (r, u')

section regions

variable {M} {own own' own'' away : Nat → Prop} {s t u : σ} {a : Nat}

theorem Within.mono (within : Within own a) (keeps : ∀ a, own a → own' a) : Within own' a :=
  fun nonnull => keeps a (within nonnull)

theorem within_null : Within own 0 := fun nonnull => absurd rfl nonnull

theorem Grows.refl (region : Region M s own) : Grows M own own s s where
  region := region
  used := Nat.le_refl _
  keeps := fun _ mine => mine
  new := fun _ mine => .inl mine
  same := fun a _ => M.same_refl a s
  rest := M.rest_refl s

theorem Grows.trans (first : Grows M own own' s t) (second : Grows M own' own'' t u) : Grows M own own'' s u where
  region := second.region
  used := Nat.le_trans first.used second.used
  keeps := fun a mine => second.keeps a (first.keeps a mine)
  new := by
    intro a mine
    rcases second.new a mine with before | later
    · exact first.new a before
    · exact .inr (Nat.lt_of_le_of_lt first.used later)
  same := fun a foreign => M.same_trans (first.same a fun mine => foreign (second.keeps a mine)) (second.same a foreign)
  rest := M.rest_trans first.rest second.rest

/-- A write to an object of the region. -/
theorem Grows.store (region : Region M s own) (mine : own a) (used : M.used s ≤ M.used t)
    (others : ∀ b, b ≠ a → M.Same b s t) (points : ∀ b, M.Points t a b → Within own b) (rest : M.Rest s t) :
    Grows M own own s t where
  region := by
    refine ⟨fun b inside => ?_, fun b c inside reaches => ?_, fun b c beyond reaches => ?_⟩
    · obtain ⟨nonnull, given⟩ := region.known b inside
      exact ⟨nonnull, Nat.le_trans given used⟩
    · by_cases written : b = a
      · subst written
        exact points c reaches
      · exact region.closed b c inside (M.points (others b written) reaches)
    · have other : b ≠ a := by
        rintro rfl
        have given := (region.known b mine).2
        omega
      exact region.fresh b c (by omega) (M.points (others b other) reaches)
  used := used
  keeps := fun _ inside => inside
  new := fun _ inside => .inl inside
  same := by
    intro b foreign
    apply others
    rintro rfl
    exact foreign mine
  rest := rest

/-- A new object, with null pointers. -/
theorem Grows.alloc (region : Region M s own) (used : M.used t = M.used s + 1)
    (others : ∀ b, b ≠ M.used s + 1 → M.Same b s t) (points : ∀ b, M.Points t (M.used s + 1) b → b = 0)
    (rest : M.Rest s t) : Grows M own (fun a => own a ∨ a = M.used s + 1) s t where
  region := by
    refine ⟨fun b inside => ?_, fun b c inside reaches => ?_, fun b c beyond reaches => ?_⟩
    · rcases inside with old | rfl
      · obtain ⟨nonnull, given⟩ := region.known b old
        exact ⟨nonnull, by omega⟩
      · exact ⟨by omega, by omega⟩
    · rcases inside with old | rfl
      · have other : b ≠ M.used s + 1 := by
          have given := (region.known b old).2
          omega
        exact (region.closed b c old (M.points (others b other) reaches)).mono fun _ => .inl
      · rw [points c reaches]
        exact within_null
    · exact region.fresh b c (by omega) (M.points (others b (by omega)) reaches)
  used := by omega
  keeps := fun _ => .inl
  new := by
    rintro b (old | rfl)
    · exact .inl old
    · exact .inr (Nat.lt_succ_self _)
  same := fun b foreign => others b fun new => foreign (.inr new)
  rest := rest

theorem Grows.apart (grows : Grows M own own' s t) (other : Region M s away) (apart : ∀ a, own a → ¬ away a) :
    ∀ a, own' a → ¬ away a := by
  intro a mine foreign
  rcases grows.new a mine with old | new
  · exact apart a old foreign
  · have given := (other.known a foreign).2
    omega

theorem Grows.agrees (grows : Grows M own own' s t) (other : Region M s away) (apart : ∀ a, own a → ¬ away a) :
    Agrees M away s t :=
  ⟨grows.used, fun a foreign => grows.same a fun mine => grows.apart other apart a mine foreign⟩

/-- The frame rule. -/
theorem Grows.frame (grows : Grows M own own' s t) (other : Region M s away) (apart : ∀ a, own a → ¬ away a) :
    Region M t away where
  known := by
    intro a foreign
    obtain ⟨nonnull, given⟩ := other.known a foreign
    exact ⟨nonnull, Nat.le_trans given grows.used⟩
  closed := fun a b foreign reaches => other.closed a b foreign (M.points ((grows.agrees other apart).same a foreign) reaches)
  fresh := grows.region.fresh

theorem Agrees.refl (own : Nat → Prop) (s : σ) : Agrees M own s s := ⟨Nat.le_refl _, fun a _ => M.same_refl a s⟩

theorem Agrees.trans (first : Agrees M own s t) (keeps : ∀ a, own a → own' a) (second : Agrees M own' t u) :
    Agrees M own s u :=
  ⟨Nat.le_trans first.used second.used, fun a mine => M.same_trans (first.same a mine) (second.same a (keeps a mine))⟩

end regions

section rules

variable {M} {own : Nat → Prop} {s : σ} {x : Prog σ α} {f : α → Prog σ β} {a : α}

theorem Confined.pure {post : α → (Nat → Prop) → Prop} (region : Region M s own) (h : post a own) :
    Confined M own s (pure a) post := by
  intro r t run
  obtain ⟨rfl, rfl⟩ := Prog.pure_ok run
  exact ⟨own, .refl region, h⟩

theorem Confined.stop {post : α → (Nat → Prop) → Prop} {reason : Stop} : Confined M own s (Prog.stop reason) post :=
  fun _ _ run => (Prog.stop_ok run).elim

theorem Confined.bind {post : α → (Nat → Prop) → Prop} {last : β → (Nat → Prop) → Prop} (first : Confined M own s x post)
    (rest : ∀ a own' t, Grows M own own' s t → post a own' → Confined M own' t (f a) last) : Confined M own s (x >>= f) last := by
  intro r u run
  obtain ⟨a, t, head, tail⟩ := Prog.bind_ok run
  obtain ⟨own', grows, holds⟩ := first a t head
  obtain ⟨own'', further, reached⟩ := rest a own' t grows holds r u tail
  exact ⟨own'', grows.trans further, reached⟩

theorem Confined.bind_get {f : σ → Prog σ β} {last : β → (Nat → Prop) → Prop} (rest : Confined M own s (f s) last) :
    Confined M own s (get >>= f) last := fun r t run => rest r t run

theorem Confined.imp {post post' : α → (Nat → Prop) → Prop} (h : Confined M own s x post)
    (weaker : ∀ a own', post a own' → post' a own') : Confined M own s x post' := by
  intro r t run
  obtain ⟨own', grows, holds⟩ := h r t run
  exact ⟨own', grows, weaker r own' holds⟩

theorem Steady.pure {post : α → Prop} (h : post a) : Steady M own s (pure a) post := by
  intro r t run
  obtain ⟨rfl, rfl⟩ := Prog.pure_ok run
  exact ⟨rfl, h, fun _ _ => rfl⟩

theorem Steady.stop {post : α → Prop} {reason : Stop} : Steady M own s (Prog.stop reason) post :=
  fun _ _ run => (Prog.stop_ok run).elim

theorem Steady.bind {post : α → Prop} {last : β → Prop} (first : Steady M own s x post)
    (rest : ∀ a, post a → Steady M own s (f a) last) : Steady M own s (x >>= f) last := by
  intro r u run
  obtain ⟨a, t, head, tail⟩ := Prog.bind_ok run
  obtain ⟨rfl, holds, again⟩ := first a t head
  obtain ⟨rfl, reached, after⟩ := rest a holds r u tail
  exact ⟨rfl, reached, fun v agrees => (Prog.bind_eq (again v agrees)).trans (after v agrees)⟩

theorem Steady.confined {post : α → Prop} (h : Steady M own s x post) (region : Region M s own) :
    Confined M own s x fun a own' => post a ∧ own' = own := by
  intro r t run
  obtain ⟨rfl, holds, _⟩ := h r t run
  exact ⟨own, .refl region, holds, rfl⟩

theorem Stable.pure : Stable M own s (pure a) := by
  intro r t run u _
  obtain ⟨rfl, rfl⟩ := Prog.pure_ok run
  exact ⟨u, rfl⟩

theorem Stable.stop {reason : Stop} : Stable M own s (Prog.stop reason : Prog σ α) :=
  fun _ _ run => (Prog.stop_ok run).elim

theorem Stable.bind {post : α → Prop} (first : Steady M own s x post) (rest : ∀ a, post a → Stable M own s (f a)) :
    Stable M own s (x >>= f) := by
  intro r u run v agrees
  obtain ⟨a, t, head, tail⟩ := Prog.bind_ok run
  obtain ⟨rfl, holds, again⟩ := first a t head
  obtain ⟨v', after⟩ := rest a holds r u tail v agrees
  exact ⟨v', (Prog.bind_eq (again v agrees)).trans after⟩

/-- The last call may change something, when nothing is read after it. -/
theorem Stable.bind_pure (first : Stable M own s x) (last : ∀ a, ∃ b, f a = Pure.pure b) : Stable M own s (x >>= f) := by
  intro r u run v agrees
  obtain ⟨a, t, head, tail⟩ := Prog.bind_ok run
  obtain ⟨b, returns⟩ := last a
  rw [returns] at tail
  obtain ⟨rfl, rfl⟩ := Prog.pure_ok tail
  obtain ⟨v', again⟩ := first a t head v agrees
  refine ⟨v', (Prog.bind_eq again).trans ?_⟩
  rw [returns]
  rfl

end rules
end PotatOS.Regions
