import PotatOS.Lib.Program

/-!
# Two programs side by side

The state of a `Traced` program survives a stop, so what it did before can be read
off. `Coupled` runs such a program beside a plain one: both return with related
results and states, or both stop for the same reason.
-/

namespace PotatOS

abbrev Traced (σ : Type) := ExceptT Stop (StateM σ)

namespace Traced

variable {σ α β : Type} {s t : σ}

theorem bind_eq {x : Traced σ α} {f : α → Traced σ β} {a : α} (h : x s = (.ok a, t)) :
    (x >>= f) s = f a t := by
  simp [bind, ExceptT.bind, ExceptT.mk, StateT.bind, ExceptT.bindCont, h]

theorem bind_error {x : Traced σ α} {f : α → Traced σ β} {e : Stop} (h : x s = (.error e, t)) :
    (x >>= f) s = (.error e, t) := by
  have unfolded : (x >>= f) s = ExceptT.bindCont f (x s).1 (x s).2 := rfl
  rw [unfolded, h]
  rfl

@[simp] theorem run_pure (a : α) : (pure a : Traced σ α) s = (.ok a, s) := rfl

@[simp] theorem run_get : (get : Traced σ σ) s = (.ok s, s) := rfl

@[simp] theorem run_set (t : σ) : (set t : Traced σ PUnit) s = (.ok ⟨⟩, t) := rfl

@[simp] theorem run_modify (f : σ → σ) : (modify f : Traced σ PUnit) s = (.ok ⟨⟩, f s) := rfl

@[simp] theorem run_throw (e : Stop) : (throw e : Traced σ α) s = (.error e, s) := rfl

end Traced

/-- From `s` and `t`, both programs return with `post`, or both stop for one reason and
the first of them in a state in `stopped`. -/
inductive Coupled {σ τ α β : Type} (x : Traced σ α) (s : σ) (y : Prog τ β) (t : τ)
    (post : α → σ → β → τ → Prop) (stopped : σ → Prop) : Prop
  | returns {a : α} {s' : σ} {b : β} {t' : τ} (left : x s = (.ok a, s')) (right : y t = .ok (b, t'))
      (holds : post a s' b t')
  | stops {e : Stop} {s' : σ} (left : x s = (.error e, s')) (right : y t = .error e) (holds : stopped s')

namespace Coupled

variable {σ τ α β γ δ : Type} {x : Traced σ α} {s s' : σ} {y : Prog τ β} {t t' : τ}
  {post post' : α → σ → β → τ → Prop} {stopped : σ → Prop}

theorem pure {a : α} {b : β} (h : post a s b t) : Coupled (pure a) s (pure b) t post stopped :=
  .returns rfl rfl h

theorem weaken (coupled : Coupled x s y t post stopped) (weaker : ∀ a s b t, post a s b t → post' a s b t) :
    Coupled x s y t post' stopped := by
  cases coupled with
  | returns left right holds => exact .returns left right (weaker _ _ _ _ holds)
  | stops left right holds => exact .stops left right holds

theorem bind {f : α → Traced σ γ} {g : β → Prog τ δ} {last : γ → σ → δ → τ → Prop}
    (first : Coupled x s y t post stopped)
    (rest : ∀ a s b t, post a s b t → Coupled (f a) s (g b) t last stopped) :
    Coupled (x >>= f) s (y >>= g) t last stopped := by
  cases first with
  | returns left right holds =>
    cases rest _ _ _ _ holds with
    | returns left' right' holds' =>
      exact .returns ((Traced.bind_eq left).trans left') ((Prog.bind_eq right).trans right') holds'
    | stops left' right' holds' =>
      exact .stops ((Traced.bind_eq left).trans left') ((Prog.bind_eq right).trans right') holds'
  | stops left right holds => exact .stops (Traced.bind_error left) (Prog.bind_error right) holds

/-- A step on the left only. -/
theorem left {z : Traced σ γ} {f : γ → Traced σ α} {c : γ} (run : z s = (.ok c, s'))
    (rest : Coupled (f c) s' y t post stopped) : Coupled (z >>= f) s y t post stopped := by
  cases rest with
  | returns left right holds => exact .returns ((Traced.bind_eq run).trans left) right holds
  | stops left right holds => exact .stops ((Traced.bind_eq run).trans left) right holds

theorem right {z : Prog τ γ} {g : γ → Prog τ β} {c : γ} (run : z t = .ok (c, t'))
    (rest : Coupled x s (g c) t' post stopped) : Coupled x s (z >>= g) t post stopped := by
  cases rest with
  | returns left right holds => exact .returns left ((Prog.bind_eq run).trans right) holds
  | stops left right holds => exact .stops left ((Prog.bind_eq run).trans right) holds

end Coupled
end PotatOS
