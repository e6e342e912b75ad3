import Mathlib.Init

/-!
# Programs that may stop

A C function is a state transformer that either returns or stops. `bind_ok`
takes a returning computation apart; callers never unfold the monad.
-/

namespace PotatOS

/-- The ways a call does not return. -/
inductive Stop where
  /-- `halt()`, after the message the code prints. -/
  | halt
  /-- A loop that never ends. -/
  | hang
  /-- An access through a null pointer. -/
  | fault
  deriving DecidableEq, Repr

abbrev Prog (σ : Type) := StateT σ (Except Stop)

namespace Prog

variable {σ α β : Type} {s t : σ}

def stop (reason : Stop) : Prog σ α := fun _ => .error reason

theorem bind_ok {x : Prog σ α} {f : α → Prog σ β} {r : β × σ} (h : (x >>= f) s = .ok r) :
    ∃ a s', x s = .ok (a, s') ∧ f a s' = .ok r := by
  cases hx : x s with
  | error e => simp [bind, StateT.bind, Except.bind, hx] at h
  | ok pair =>
    obtain ⟨a, s'⟩ := pair
    refine ⟨a, s', rfl, ?_⟩
    simpa [bind, StateT.bind, Except.bind, hx] using h

theorem bind_eq {x : Prog σ α} {f : α → Prog σ β} {a : α} (h : x s = .ok (a, t)) :
    (x >>= f) s = f a t := by
  simp [bind, StateT.bind, Except.bind, h]

theorem bind_error {x : Prog σ α} {f : α → Prog σ β} {e : Stop} (h : x s = .error e) :
    (x >>= f) s = .error e := by
  simp [bind, StateT.bind, Except.bind, h]

theorem pure_ok {a b : α} (h : (pure a : Prog σ α) s = .ok (b, t)) : a = b ∧ s = t :=
  Prod.mk.inj (Except.ok.inj h)

theorem stop_ok {reason : Stop} {r : α × σ} (h : (stop reason : Prog σ α) s = .ok r) : False := by
  simp [stop] at h

theorem get_ok {b : σ} (h : (get : Prog σ σ) s = .ok (b, t)) : s = b ∧ s = t := pure_ok h

theorem modify_ok {f : σ → σ} {u : PUnit} (h : (modify f : Prog σ PUnit) s = .ok (u, t)) : f s = t :=
  (Prod.mk.inj (Except.ok.inj h)).2

@[simp] theorem run_pure (a : α) : (pure a : Prog σ α) s = .ok (a, s) := rfl

@[simp] theorem run_get : (get : Prog σ σ) s = .ok (s, s) := rfl

@[simp] theorem run_modify (f : σ → σ) : (modify f : Prog σ PUnit) s = .ok (⟨⟩, f s) := rfl

@[simp] theorem run_stop (reason : Stop) : (stop reason : Prog σ α) s = .error reason := rfl

/-- The program returns with a result that passes `check`. -/
def returns (x : Prog σ α) (s : σ) (check : α → σ → Bool) : Bool :=
  match x s with
  | .error _ => false
  | .ok (a, t) => check a t

theorem returns_iff {x : Prog σ α} {check : α → σ → Bool} :
    returns x s check = true ↔ ∃ a t, x s = .ok (a, t) ∧ check a t = true := by
  unfold returns
  cases h : x s with
  | error e => simp
  | ok pair =>
    refine ⟨fun passed => ⟨_, _, rfl, passed⟩, ?_⟩
    rintro ⟨a, t, same, passed⟩
    cases same
    exact passed

/-- Run from `s`, the program returns with `post` or stops for a reason in `err`. -/
structure Sat (x : Prog σ α) (s : σ) (post : α → σ → Prop) (err : Stop → Prop) : Prop where
  ok : ∀ {a : α} {t : σ}, x s = .ok (a, t) → post a t
  error : ∀ {e : Stop}, x s = .error e → err e

section rules

variable {post post' : α → σ → Prop} {err err' : Stop → Prop} {x : Prog σ α}

theorem Sat.of_ok {a : α} (h : x s = .ok (a, t)) (holds : post a t) : Sat x s post err := by
  refine ⟨fun h' => ?_, fun h' => ?_⟩
  · obtain ⟨rfl, rfl⟩ := Prod.mk.inj (Except.ok.inj (h.symm.trans h'))
    exact holds
  · rw [h] at h'
    cases h'

theorem Sat.of_error {e : Stop} (h : x s = .error e) (holds : err e) : Sat x s post err := by
  refine ⟨fun h' => ?_, fun h' => ?_⟩
  · rw [h] at h'
    cases h'
  · obtain rfl := Except.error.inj (h.symm.trans h')
    exact holds

theorem Sat.pure {a : α} (h : post a s) : Sat (pure a) s post err := .of_ok (run_pure a) h

theorem Sat.stop {reason : Stop} (h : err reason) : Sat (stop reason : Prog σ α) s post err :=
  .of_error (run_stop reason) h

theorem Sat.imp (sat : Sat x s post err) (weaker : ∀ a t, post a t → post' a t)
    (more : ∀ e, err e → err' e) : Sat x s post' err' :=
  ⟨fun h => weaker _ _ (sat.ok h), fun h => more _ (sat.error h)⟩

theorem Sat.weaken (sat : Sat x s post err) (weaker : ∀ a t, post a t → post' a t) : Sat x s post' err :=
  sat.imp weaker fun _ h => h

theorem Sat.congr {y : Prog σ α} (same : x s = y s) (sat : Sat y s post err) : Sat x s post err :=
  ⟨fun h => sat.ok (same.symm.trans h), fun h => sat.error (same.symm.trans h)⟩

theorem Sat.bind_ok {f : α → Prog σ β} {last : β → σ → Prop} {a : α} (first : x s = .ok (a, t))
    (rest : Sat (f a) t last err) : Sat (x >>= f) s last err := by
  have same : (x >>= f) s = f a t := bind_eq first
  exact ⟨fun run => rest.ok (same.symm.trans run), fun run => rest.error (same.symm.trans run)⟩

theorem Sat.bind {f : α → Prog σ β} {last : β → σ → Prop} (first : Sat x s post err)
    (rest : ∀ a t, post a t → Sat (f a) t last err) : Sat (x >>= f) s last err := by
  cases h : x s with
  | ok pair => exact .bind_ok h (rest pair.1 pair.2 (first.ok h))
  | error e => exact .of_error (bind_error h) (first.error h)

/-- The rule for a step whose result is known from the equation of its run. -/
theorem Sat.bind_run {f : α → Prog σ β} {last : β → σ → Prop} (first : ∀ {e}, x s = .error e → err e)
    (rest : ∀ {a t}, x s = .ok (a, t) → Sat (f a) t last err) : Sat (x >>= f) s last err :=
  (⟨id, first⟩ : Sat x s (fun a t => x s = .ok (a, t)) err).bind fun _ _ run => rest run

theorem Sat.bind_get {f : σ → Prog σ β} {last : β → σ → Prop} (rest : Sat (f s) s last err) :
    Sat ((get : Prog σ σ) >>= f) s last err :=
  ⟨fun run => rest.ok run, fun run => rest.error run⟩

end rules

/-! ### Loops that may return -/

/-- `n` more rounds of `for (; …; i++)` from index `i`. The body gives `none`
when the whole function returns. -/
def forIndex (body : Nat → α → Prog σ (Option α)) : Nat → Nat → α → Prog σ (Option α)
  | 0, _, acc => pure (some acc)
  | n + 1, i, acc => do
    match ← body i acc with
    | none => pure none
    | some acc => forIndex body n (i + 1) acc

/-- The rule for `forIndex`: `inv` holds at the head of each round, `done` when
the function returns. -/
theorem Sat.forIndex {body : Nat → α → Prog σ (Option α)} (inv : Nat → α → σ → Prop) (done : σ → Prop)
    {err : Stop → Prop} {n start last : Nat} {acc : α} (rounds : start + n = last) (first : inv start acc s)
    (round : ∀ i acc s, i < last → inv i acc s → Sat (body i acc) s (fun r t => match r with
      | none => done t
      | some acc => inv (i + 1) acc t) err) :
    Sat (forIndex body n start acc) s (fun r t => match r with
      | none => done t
      | some acc => inv last acc t) err := by
  induction n generalizing start acc s with
  | zero =>
    obtain rfl : start = last := by omega
    exact .pure first
  | succ n ih =>
    refine (round start acc s (by omega) first).bind fun r t next => ?_
    cases r with
    | none => exact .pure next
    | some acc => exact ih (by omega) next

/-! ### Programs that differ in how they stop -/

/-- The programs return the same results from the same states. -/
def SameReturns (x y : Prog σ α) : Prop := ∀ s r, x s = .ok r ↔ y s = .ok r

namespace SameReturns

theorem refl (x : Prog σ α) : SameReturns x x := fun _ _ => Iff.rfl

theorem bind {x y : Prog σ α} {f g : α → Prog σ β} (first : SameReturns x y)
    (rest : ∀ a, SameReturns (f a) (g a)) : SameReturns (x >>= f) (y >>= g) := by
  intro s r
  constructor
  · intro h
    obtain ⟨a, s', run, h⟩ := bind_ok h
    rw [bind_eq ((first s _).mp run)]
    exact (rest a s' r).mp h
  · intro h
    obtain ⟨a, s', run, h⟩ := bind_ok h
    rw [bind_eq ((first s _).mpr run)]
    exact (rest a s' r).mpr h

theorem forIndex {body body' : Nat → α → Prog σ (Option α)} (same : ∀ i acc, SameReturns (body i acc) (body' i acc))
    (n i : Nat) (acc : α) : SameReturns (forIndex body n i acc) (forIndex body' n i acc) := by
  induction n generalizing i acc with
  | zero => exact .refl _
  | succ n ih =>
    refine (same i acc).bind fun r => ?_
    cases r with
    | none => exact .refl _
    | some acc => exact ih (i + 1) acc

end SameReturns

end Prog
end PotatOS
