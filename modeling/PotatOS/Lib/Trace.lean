import Mathlib.Init

/-!
# Runs of events

A machine takes one event after another. `Always P` says that `P` holds of every
event of a run, with the states before and after it; the rules compare two such
properties step by step, under an invariant.
-/

namespace PotatOS.Trace

variable {ε σ : Type} (step : ε → σ → Option σ)

/-- The state after the events, if each of them can happen. -/
def after : List ε → σ → Option σ
  | [], s => some s
  | e :: es, s => (step e s).bind (after es)

/-- A run ends at an event that cannot happen. -/
def Always (P : ε → σ → σ → Prop) : List ε → σ → Prop
  | [], _ => True
  | e :: es, s => ∀ s', step e s = some s' → P e s s' ∧ Always P es s'

section rules

variable {step} {P Q : ε → σ → σ → Prop} {inv : σ → Prop} {es : List ε} {s : σ}

/-- `keep` may use what the event satisfies. -/
theorem Always.imp (always : Always step P es s) (start : inv s)
    (keep : ∀ e s s', inv s → step e s = some s' → P e s s' → inv s')
    (each : ∀ e s s', inv s → step e s = some s' → P e s s' → Q e s s') : Always step Q es s := by
  induction es generalizing s with
  | nil => trivial
  | cons e es ih =>
    intro s' next
    have here := (always s' next).1
    exact ⟨each e s s' start next here, ih (always s' next).2 (keep e s s' start next here)⟩

/-- Two properties that agree on each event of a good run. -/
theorem always_iff (inv : σ → Prop) (start : inv s) (keep : ∀ e s s', inv s → step e s = some s' → Q e s s' → inv s')
    (same : ∀ e s s', inv s → step e s = some s' → (P e s s' ↔ Q e s s')) :
    Always step P es s ↔ Always step Q es s := by
  constructor
  · intro always
    exact always.imp start (fun e s s' held next holds => keep e s s' held next ((same e s s' held next).mp holds))
      fun e s s' held next => (same e s s' held next).mp
  · intro always
    exact always.imp start keep fun e s s' held next => (same e s s' held next).mpr

theorem after_inv {s' : σ} (inv : σ → Prop) (start : inv s) (keep : ∀ e s s', inv s → step e s = some s' → inv s')
    (run : after step es s = some s') : inv s' := by
  induction es generalizing s with
  | nil =>
    obtain rfl := Option.some.inj run
    exact start
  | cons e es ih =>
    obtain ⟨t, next, rest⟩ := Option.bind_eq_some_iff.mp run
    exact ih (keep e s t start next) rest

end rules

end PotatOS.Trace
