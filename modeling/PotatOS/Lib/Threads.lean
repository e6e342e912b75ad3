import PotatOS.Lib.Locks
import Mathlib.Logic.Relation

/-!
# Calls under one lock, interleaved

The code of a thread is a tree of single steps on shared data and on spinlocks.
Each core makes calls that begin by taking one common lock and end by releasing
it; between two steps of one core the others may take any number of theirs.
Such a run does what whole calls do, one at a time, in the order in which they
took the lock.
-/

namespace PotatOS.Threads

open Prog Locks

variable {ι κ σ α β ρ : Type}

inductive Thread (ι σ α : Type) where
  | ret (a : α)
  | fault
  | aquire (lock : ι) (rest : Thread ι σ α)
  | release (lock : ι) (rest : Thread ι σ α)
  /-- One step on the data, and what follows from the data before it. -/
  | act (update : σ → σ) (rest : σ → Thread ι σ α)

namespace Thread

def bind : Thread ι σ α → (α → Thread ι σ β) → Thread ι σ β
  | ret a, f => f a
  | fault, _ => fault
  | aquire lock rest, f => aquire lock (rest.bind f)
  | release lock rest, f => release lock (rest.bind f)
  | act update rest, f => act update fun data => (rest data).bind f

instance : Monad (Thread ι σ) where
  pure := ret
  bind := bind

theorem bind_assoc {γ : Type} (t : Thread ι σ α) (f : α → Thread ι σ β) (g : β → Thread ι σ γ) :
    (t >>= f) >>= g = t >>= fun a => f a >>= g := by
  show (t.bind f).bind g = t.bind fun a => (f a).bind g
  induction t with
  | ret a => rfl
  | fault => rfl
  | aquire lock rest ih => exact congrArg (aquire lock) ih
  | release lock rest ih => exact congrArg (release lock) ih
  | act update rest ih => exact congrArg (act update) (funext ih)

def take (lock : ι) : Thread ι σ Unit := aquire lock (ret ())

def drop (lock : ι) : Thread ι σ Unit := release lock (ret ())

def read : Thread ι σ σ := act id ret

def write (update : σ → σ) : Thread ι σ Unit := act update fun _ => ret ()

/-- The thread has nothing to do with `lock`. -/
def Avoids (lock : ι) : Thread ι σ α → Prop
  | ret _ => True
  | fault => True
  | aquire other rest => other ≠ lock ∧ rest.Avoids lock
  | release other rest => other ≠ lock ∧ rest.Avoids lock
  | act _ rest => ∀ data, (rest data).Avoids lock

theorem read_avoids (lock : ι) : (read : Thread ι σ σ).Avoids lock := fun _ => trivial

theorem write_avoids (lock : ι) (update : σ → σ) : (write update).Avoids lock := fun _ => trivial

theorem Avoids.bind {lock : ι} {t : Thread ι σ α} {f : α → Thread ι σ β} (avoids : t.Avoids lock)
    (rest : ∀ a, (f a).Avoids lock) : (t >>= f).Avoids lock := by
  show (t.bind f).Avoids lock
  induction t with
  | ret a => exact rest a
  | fault => trivial
  | aquire other later ih => exact ⟨avoids.1, ih avoids.2⟩
  | release other later ih => exact ⟨avoids.1, ih avoids.2⟩
  | act update later ih => exact fun data => ih data (avoids data)

section run

variable [DecidableEq ι]

/-- The thread alone, while the other cores stand still. -/
def run (core : κ) : Thread ι σ α → LockM ι κ σ α
  | ret a => pure a
  | fault => Prog.stop .fault
  | aquire lock rest => do
    spinlockAquire core lock
    rest.run core
  | release lock rest => do
    spinlockRelease lock
    rest.run core
  | act update rest => fun s => (rest s.data).run core { s with data := update s.data }

theorem run_bind (core : κ) (t : Thread ι σ α) (f : α → Thread ι σ β) (s : Locked ι κ σ) :
    (t >>= f).run core s = (t.run core >>= fun a => (f a).run core) s := by
  show (t.bind f).run core s = _
  induction t generalizing s with
  | ret a => rfl
  | fault => rfl
  | aquire lock rest ih =>
    rw [bind, run, run]
    cases taken : spinlockAquire core lock s with
    | error e => rw [bind_error taken, bind_error (bind_error taken)]
    | ok pair =>
      rw [bind_eq taken, ih]
      cases here : rest.run core pair.2 with
      | error e => rw [bind_error here, bind_error ((bind_eq taken).trans here)]
      | ok next => rw [bind_eq here, bind_eq ((bind_eq taken).trans here)]
  | release lock rest ih =>
    rw [bind, run, run]
    have freed : spinlockRelease (κ := κ) (σ := σ) lock s =
      .ok ((), { s with holder := Function.update s.holder lock none }) := release_run
    rw [bind_eq freed, ih]
    cases here : rest.run core { s with holder := Function.update s.holder lock none } with
    | error e => rw [bind_error here, bind_error ((bind_eq freed).trans here)]
    | ok next => rw [bind_eq here, bind_eq ((bind_eq freed).trans here)]
  | act update rest ih =>
    exact ih s.data { s with data := update s.data }

section rules

variable {core : κ} {s : Locked ι κ σ} {lock : ι}

theorem bind_run {t : Thread ι σ α} {f : α → Thread ι σ β} {a : α} {s' : Locked ι κ σ}
    (h : t.run core s = .ok (a, s')) : (t >>= f).run core s = (f a).run core s' := by
  rw [run_bind, bind_eq h]

theorem bind_run_error {t : Thread ι σ α} {f : α → Thread ι σ β} {e : Stop} (h : t.run core s = .error e) :
    (t >>= f).run core s = .error e := by
  rw [run_bind, bind_error h]

theorem take_run (released : s.holder lock = none) :
    (take lock).run core s = .ok ((), ⟨s.data, Function.update s.holder lock (some core)⟩) :=
  bind_eq (aquire_run released)

theorem drop_run : (drop lock).run core s = .ok ((), ⟨s.data, Function.update s.holder lock none⟩) := rfl

theorem read_run : read.run core s = .ok (s.data, s) := rfl

theorem write_run (update : σ → σ) : (write update).run core s = .ok ((), ⟨update s.data, s.holder⟩) := rfl

end rules

/-- One step of the thread; a core that waits for a lock and one that is done take none. -/
def step (core : κ) : Thread ι σ α → Locked ι κ σ → Option (Thread ι σ α × Locked ι κ σ)
  | ret _, _ => none
  | fault, _ => none
  | aquire lock rest, s =>
    match s.holder lock with
    | some _ => none
    | none => some (rest, { s with holder := Function.update s.holder lock (some core) })
  | release lock rest, s => some (rest, { s with holder := Function.update s.holder lock none })
  | act update rest, s => some (rest s.data, { s with data := update s.data })

theorem run_step {core : κ} {t t' : Thread ι σ α} {s s' : Locked ι κ σ} (next : t.step core s = some (t', s')) :
    t.run core s = t'.run core s' := by
  cases t with
  | ret a => cases next
  | fault => cases next
  | aquire lock rest =>
    rw [step] at next
    cases released : s.holder lock with
    | some owner =>
      rw [released] at next
      cases next
    | none =>
      rw [released] at next
      obtain ⟨rfl, rfl⟩ := Prod.mk.inj (Option.some.inj next)
      rw [run, bind_eq (aquire_run released)]
  | release lock rest =>
    obtain ⟨rfl, rfl⟩ := Prod.mk.inj (Option.some.inj next)
    rw [run, bind_eq release_run]
  | act update rest =>
    obtain ⟨rfl, rfl⟩ := Prod.mk.inj (Option.some.inj next)
    rfl

/-- Any number of steps of one core. -/
abbrev Steps (core : κ) : Thread ι σ α × Locked ι κ σ → Thread ι σ α × Locked ι κ σ → Prop :=
  Relation.ReflTransGen fun p q => p.1.step core p.2 = some q

theorem run_steps {core : κ} {p q : Thread ι σ α × Locked ι κ σ} (steps : Steps core p q) :
    p.1.run core p.2 = q.1.run core q.2 := by
  induction steps with
  | refl => rfl
  | tail _ next ih => exact ih.trans (run_step next)

/-- The thread leaves `lock` alone until it releases it and returns. -/
def Bracketed (lock : ι) : Thread ι σ α → Prop
  | ret _ => True
  | fault => True
  | aquire other rest => other ≠ lock ∧ rest.Bracketed lock
  | release other rest => if other = lock then ∃ a, rest = ret a else rest.Bracketed lock
  | act _ rest => ∀ data, (rest data).Bracketed lock

theorem Bracketed.bind {lock : ι} {t : Thread ι σ α} {f : α → Thread ι σ β} (avoids : t.Avoids lock)
    (rest : ∀ a, (f a).Bracketed lock) : (t >>= f).Bracketed lock := by
  show (t.bind f).Bracketed lock
  induction t with
  | ret a => exact rest a
  | fault => trivial
  | aquire other later ih => exact ⟨avoids.1, ih avoids.2⟩
  | release other later ih =>
    unfold Thread.bind Bracketed
    rw [if_neg avoids.1]
    exact ih avoids.2
  | act update later ih => exact fun data => ih data (avoids data)

theorem Bracketed.last {lock : ι} (a : α) : (do (drop lock : Thread ι σ Unit); return a).Bracketed lock := by
  show ite _ _ _
  rw [if_pos rfl]
  exact ⟨a, rfl⟩

end run

end Thread

/-- Calls of cores that take one lock each. -/
structure Calls (ι κ σ α ρ : Type) where
  lock : ι
  /-- What core `c` may run behind taking the lock. -/
  body : κ → Thread ι σ α → Prop
  /-- What a core keeps of what its calls return. -/
  note : α → ρ → ρ
  /-- When a core may take the lock. -/
  meets : κ → σ → (κ → ρ) → Prop

/-- The data and the locks, what each core runs, and what each core got from its calls. -/
structure Config (ι κ σ α ρ : Type) where
  shared : Locked ι κ σ
  code : κ → Option (Thread ι σ α)
  got : κ → ρ

section calls

variable (calls : Calls ι κ σ α ρ)

/-- What each core will have got when the calls that are over have returned. -/
def Config.settled (s : Config ι κ σ α ρ) (c : κ) : ρ :=
  match s.code c with
  | some (.ret a) => calls.note a (s.got c)
  | _ => s.got c

/-- The core is before its lock or behind it. -/
def Outside (s : Config ι κ σ α ρ) (c : κ) : Prop :=
  s.code c = none ∨ (∃ t, calls.body c t ∧ s.code c = some (.aquire calls.lock t)) ∨ ∃ a, s.code c = some (.ret a)

variable {calls} {s : Config ι κ σ α ρ} {c d : κ} {t : Option (Thread ι σ α)} {shared : Locked ι κ σ} {got : κ → ρ}

theorem settled_inside {u : Thread ι σ α} (here : s.code c = some u) (runs : ∀ a, u ≠ .ret a) :
    s.settled calls c = s.got c := by
  unfold Config.settled
  rw [here]
  cases u with
  | ret a => exact (runs a rfl).elim
  | _ => rfl

/-- While a core has the lock, the others do not step. -/
theorem Outside.waits [DecidableEq ι] {owner : κ} {t t' : Thread ι σ α} {shared' : Locked ι κ σ} (outside : Outside calls s c)
    (held : s.shared.holder calls.lock = some owner) (here : s.code c = some t)
    (next : t.step c s.shared = some (t', shared')) : False := by
  rcases outside with idle | ⟨body, _, waits⟩ | ⟨a, returns⟩
  · rw [idle] at here
    cases here
  · obtain rfl := Option.some.inj (waits.symm.trans here)
    rw [Thread.step, held] at next
    cases next
  · obtain rfl := Option.some.inj (returns.symm.trans here)
    cases next

variable [DecidableEq κ]

theorem settled_other (other : d ≠ c) (same : got d = s.got d) :
    (⟨shared, Function.update s.code c t, got⟩ : Config ι κ σ α ρ).settled calls d = s.settled calls d := by
  unfold Config.settled
  dsimp only
  rw [Function.update_of_ne other, same]

theorem settled_begin {u : Thread ι σ α} (idle : s.code c = none) (runs : ∀ a, u ≠ .ret a) :
    (⟨s.shared, Function.update s.code c (some u), s.got⟩ : Config ι κ σ α ρ).settled calls = s.settled calls := by
  funext d
  by_cases own : d = c
  · subst own
    rw [settled_inside (Function.update_self ..) runs, Config.settled, idle]
  · exact settled_other own rfl

theorem settled_finish {a : α} (here : s.code c = some (.ret a)) :
    (⟨s.shared, Function.update s.code c none, Function.update s.got c (calls.note a (s.got c))⟩ :
      Config ι κ σ α ρ).settled calls = s.settled calls := by
  funext d
  by_cases own : d = c
  · subst own
    simp [Config.settled, here]
  · exact settled_other own (Function.update_of_ne own ..)

theorem Outside.other (other : d ≠ c) (outside : Outside calls s d) :
    Outside calls ⟨shared, Function.update s.code c t, got⟩ d := by
  unfold Outside
  dsimp only
  rw [Function.update_of_ne other]
  exact outside

end calls

section runs

variable [DecidableEq ι] [DecidableEq κ] (calls : Calls ι κ σ α ρ)

def held (c : κ) : ι → Option κ := Function.update allFree calls.lock (some c)

inductive Step (s : Config ι κ σ α ρ) : Config ι κ σ α ρ → Prop where
  | begin (c : κ) {t : Thread ι σ α} (idle : s.code c = none) (known : calls.body c t) :
    Step s ⟨s.shared, Function.update s.code c (some (.aquire calls.lock t)), s.got⟩
  | code (c : κ) {t t' : Thread ι σ α} {shared' : Locked ι κ σ} (here : s.code c = some t)
      (next : t.step c s.shared = some (t', shared'))
      (meets : ∀ body, t = .aquire calls.lock body → calls.meets c s.shared.data (s.settled calls)) :
    Step s ⟨shared', Function.update s.code c (some t'), s.got⟩
  | finish (c : κ) {a : α} (here : s.code c = some (.ret a)) :
    Step s ⟨s.shared, Function.update s.code c none, Function.update s.got c (calls.note a (s.got c))⟩

abbrev Run (start : σ) (got : κ → ρ) : Config ι κ σ α ρ → Prop :=
  Relation.ReflTransGen (Step calls) ⟨⟨start, allFree⟩, fun _ => none, got⟩

/-- Whole calls, one at a time. -/
inductive SerialRun (start : σ) (first : κ → ρ) : σ → (κ → ρ) → Prop where
  | start : SerialRun start first start first
  | call {data data' : σ} {got : κ → ρ} {c : κ} {t : Thread ι σ α} {a : α} (before : SerialRun start first data got)
      (known : calls.body c t) (meets : calls.meets c data got)
      (run : t.run c ⟨data, held calls c⟩ = .ok (a, ⟨data', allFree⟩)) :
    SerialRun start first data' (Function.update got c (calls.note a (got c)))

/-- The bodies leave the lock alone until their end, and leave all locks free. -/
structure Calls.Sound (start : σ) (first : κ → ρ) : Prop where
  bracketed : ∀ {c t}, calls.body c t → t.Bracketed calls.lock
  frees : ∀ {data got c t a} {s : Locked ι κ σ}, SerialRun calls start first data got → calls.body c t →
    calls.meets c data got → t.run c ⟨data, held calls c⟩ = .ok (a, s) → s.holder = allFree

/-- Core `c` runs `t` under the lock: it has come there from the start of a call. -/
structure Inside (s : Config ι κ σ α ρ) (data : σ) (got : κ → ρ) (c : κ) (t : Thread ι σ α) : Prop where
  code : s.code c = some t
  held : s.shared.holder calls.lock = some c
  bracketed : t.Bracketed calls.lock
  call : ∃ body, calls.body c body ∧ calls.meets c data got ∧
    Thread.Steps c (body, ⟨data, Threads.held calls c⟩) (t, s.shared)

/-- The configuration in terms of whole calls: between two calls, or in one of them. -/
inductive Serial (s : Config ι κ σ α ρ) (data : σ) (got : κ → ρ) : Prop where
  | between (shared : s.shared = ⟨data, allFree⟩) (outside : ∀ c, Outside calls s c) (settled : s.settled calls = got)
  | during (c : κ) (t : Thread ι σ α) (inside : Inside calls s data got c t) (outside : ∀ d ≠ c, Outside calls s d)
      (settled : ∀ d ≠ c, s.settled calls d = got d) (own : s.got c = got c)

/-- A call that stops under the lock. -/
structure Stuck (s : Config ι κ σ α ρ) (data : σ) (got : κ → ρ) (c : κ) : Prop where
  stops : ∃ t e, Inside calls s data got c t ∧ t.run c s.shared = .error e
  outside : ∀ d ≠ c, Outside calls s d
  settled : s.settled calls = got

/-- A core waits for the lock that it has itself. -/
structure SelfWait (s : Config ι κ σ α ρ) (c : κ) : Prop where
  held : s.shared.holder calls.lock = some c
  waits : ∃ t, s.code c = some (.aquire calls.lock t)
  outside : ∀ d ≠ c, Outside calls s d

variable {calls} {start : σ} {first : κ → ρ} {s s' : Config ι κ σ α ρ} {data : σ} {got : κ → ρ} {c : κ}

theorem Inside.other {d : κ} {t : Thread ι σ α} {u : Option (Thread ι σ α)} {got' : κ → ρ} (other : c ≠ d)
    (inside : Inside calls s data got c t) : Inside calls ⟨s.shared, Function.update s.code d u, got'⟩ data got c t :=
  ⟨(Function.update_of_ne other ..).trans inside.code, inside.held, inside.bracketed, inside.call⟩

omit [DecidableEq κ] in
/-- Run to its end, the thread completes its call. -/
theorem Inside.whole {t : Thread ι σ α} (inside : Inside calls s data got c t) :
    ∃ body, calls.body c body ∧ calls.meets c data got ∧
      t.run c s.shared = body.run c ⟨data, Threads.held calls c⟩ := by
  obtain ⟨body, known, meets, steps⟩ := inside.call
  exact ⟨body, known, meets, (Thread.run_steps steps).symm⟩

/-- A body that returned with the lock would not have left all locks free. -/
theorem Inside.runs {t : Thread ι σ α} (sound : calls.Sound start first) (before : SerialRun calls start first data got)
    (inside : Inside calls s data got c t) (a : α) : t ≠ .ret a := by
  rintro rfl
  obtain ⟨body, known, meets, run⟩ := inside.whole
  have free := sound.frees before known meets run.symm
  have held := inside.held
  rw [free] at held
  cases held

theorem Serial.begin {t : Thread ι σ α} (serial : Serial calls s data got) (idle : s.code c = none)
    (known : calls.body c t) :
    Serial calls ⟨s.shared, Function.update s.code c (some (.aquire calls.lock t)), s.got⟩ data got := by
  have waits : Outside calls ⟨s.shared, Function.update s.code c (some (.aquire calls.lock t)), s.got⟩ c :=
    .inr (.inl ⟨t, known, Function.update_self ..⟩)
  have same : (⟨s.shared, Function.update s.code c (some (.aquire calls.lock t)), s.got⟩ :
      Config ι κ σ α ρ).settled calls = s.settled calls := settled_begin idle (fun a h => by cases h)
  cases serial with
  | between shared outside settled =>
    refine .between shared (fun d => ?_) (same.trans settled)
    by_cases own : d = c
    · exact own ▸ waits
    · exact (outside d).other own
  | during e u inside outside settled own =>
    have other : e ≠ c := by
      rintro rfl
      rw [inside.code] at idle
      cases idle
    refine .during e u (inside.other other) (fun d away => ?_) (fun d away => (congrFun same d).trans (settled d away)) own
    by_cases here : d = c
    · exact here ▸ waits
    · exact (outside d away).other here

theorem Serial.finish {a : α} (sound : calls.Sound start first) (before : SerialRun calls start first data got)
    (serial : Serial calls s data got) (here : s.code c = some (.ret a)) :
    Serial calls ⟨s.shared, Function.update s.code c none, Function.update s.got c (calls.note a (s.got c))⟩ data got := by
  have same : (⟨s.shared, Function.update s.code c none, Function.update s.got c (calls.note a (s.got c))⟩ :
      Config ι κ σ α ρ).settled calls = s.settled calls := settled_finish here
  cases serial with
  | between shared outside settled =>
    refine .between shared (fun d => ?_) (same.trans settled)
    by_cases own : d = c
    · exact .inl (own ▸ Function.update_self ..)
    · exact (outside d).other own
  | during e u inside outside settled own =>
    have other : e ≠ c := by
      rintro rfl
      exact inside.runs sound before a (Option.some.inj (inside.code.symm.trans here))
    refine .during e u (inside.other other) (fun d away => ?_) (fun d away => (congrFun same d).trans (settled d away))
      ((Function.update_of_ne other ..).trans own)
    by_cases here : d = c
    · exact .inl (here ▸ Function.update_self ..)
    · exact (outside d away).other here

theorem Serial.enter {t t' : Thread ι σ α} {shared' : Locked ι κ σ} (sound : calls.Sound start first)
    (shared : s.shared = ⟨data, allFree⟩)
    (outside : ∀ c, Outside calls s c) (settled : s.settled calls = got) (here : s.code c = some t)
    (next : t.step c s.shared = some (t', shared'))
    (meets : ∀ body, t = .aquire calls.lock body → calls.meets c s.shared.data (s.settled calls)) :
    Serial calls ⟨shared', Function.update s.code c (some t'), s.got⟩ data got := by
  rcases outside c with idle | ⟨body, known, waits⟩ | ⟨a, returns⟩
  · rw [idle] at here
    cases here
  · obtain rfl := Option.some.inj (waits.symm.trans here)
    have may := meets body rfl
    rw [shared] at next may
    obtain ⟨rfl, rfl⟩ := Prod.mk.inj (Option.some.inj next)
    refine .during c body ⟨Function.update_self .., Function.update_self .., sound.bracketed known, body, known,
      settled ▸ may, .refl⟩ (fun d away => (outside d).other away)
      (fun d away => (settled_other away rfl).trans (congrFun settled d)) ?_
    rw [← settled, Config.settled, waits]
  · obtain rfl := Option.some.inj (returns.symm.trans here)
    cases next

/-- A step under the lock stays in the call, or is its last one. -/
theorem Inside.step {t t' : Thread ι σ α} {shared' : Locked ι κ σ} (inside : Inside calls s data got c t)
    (next : t.step c s.shared = some (t', shared')) :
    Inside calls ⟨shared', Function.update s.code c (some t'), s.got⟩ data got c t' ∨
      ∃ a, t' = .ret a ∧ shared'.data = s.shared.data ∧ t.run c s.shared = .ok (a, shared') := by
  have rest := Thread.run_step next
  have bracketed := inside.bracketed
  obtain ⟨body, known, meets, steps⟩ := inside.call
  have more := steps.tail next
  cases t with
  | ret a => cases next
  | fault => cases next
  | aquire lock later =>
    rw [Thread.step] at next
    cases released : s.shared.holder lock with
    | some owner =>
      rw [released] at next
      cases next
    | none =>
      rw [released] at next
      obtain ⟨rfl, rfl⟩ := Prod.mk.inj (Option.some.inj next)
      exact .inl ⟨Function.update_self .., (Function.update_of_ne (Ne.symm bracketed.1) ..).trans inside.held,
        bracketed.2, body, known, meets, more⟩
  | release lock later =>
    obtain ⟨rfl, rfl⟩ := Prod.mk.inj (Option.some.inj next)
    unfold Thread.Bracketed at bracketed
    by_cases last : lock = calls.lock
    · rw [if_pos last] at bracketed
      obtain ⟨a, rfl⟩ := bracketed
      exact .inr ⟨a, rfl, rfl, rest⟩
    · rw [if_neg last] at bracketed
      exact .inl ⟨Function.update_self .., (Function.update_of_ne (Ne.symm last) ..).trans inside.held, bracketed,
        body, known, meets, more⟩
  | act update later =>
    obtain ⟨rfl, rfl⟩ := Prod.mk.inj (Option.some.inj next)
    exact .inl ⟨Function.update_self .., inside.held, bracketed _, body, known, meets, more⟩

theorem Serial.code {t t' : Thread ι σ α} {shared' : Locked ι κ σ} (sound : calls.Sound start first)
    (before : SerialRun calls start first data got) (serial : Serial calls s data got) (here : s.code c = some t)
    (next : t.step c s.shared = some (t', shared'))
    (meets : ∀ body, t = .aquire calls.lock body → calls.meets c s.shared.data (s.settled calls)) :
    ∃ data' got', SerialRun calls start first data' got' ∧
      Serial calls ⟨shared', Function.update s.code c (some t'), s.got⟩ data' got' := by
  cases serial with
  | between shared outside settled =>
    exact ⟨data, got, before, Serial.enter sound shared outside settled here next meets⟩
  | during e u inside outside settled own =>
    by_cases other : c = e
    · subst other
      obtain rfl := Option.some.inj (here.symm.trans inside.code)
      have kept : ∀ d ≠ c, (⟨shared', Function.update s.code c (some t'), s.got⟩ : Config ι κ σ α ρ).settled calls d =
          got d := fun d away => (settled_other away rfl).trans (settled d away)
      rcases inside.step next with still | ⟨a, rfl, same, run⟩
      · exact ⟨data, got, before, .during c t' still (fun d away => (outside d away).other away) kept own⟩
      · obtain ⟨body, known, may, whole⟩ := inside.whole
        have free := sound.frees before known may (whole.symm.trans run)
        obtain ⟨data', holder⟩ := shared'
        dsimp only at free same
        subst free
        refine ⟨data', Function.update got c (calls.note a (got c)), .call before known may (whole.symm.trans run),
          .between rfl (fun d => ?_) (funext fun d => ?_)⟩
        · by_cases mine : d = c
          · exact .inr (.inr ⟨a, mine ▸ Function.update_self ..⟩)
          · exact (outside d mine).other mine
        · by_cases mine : d = c
          · subst mine
            simp [Config.settled, own]
          · rw [Function.update_of_ne mine]
            exact kept d mine
    · exact ((outside c other).waits inside.held here next).elim

/-- Whatever the order of the steps, every configuration is one of a run of whole calls. -/
theorem Run.serial (sound : calls.Sound start first) (run : Run calls start first s) :
    ∃ data got, SerialRun calls start first data got ∧ Serial calls s data got := by
  induction run with
  | refl => exact ⟨start, first, .start, .between rfl (fun c => .inl rfl) rfl⟩
  | tail _ next ih =>
    obtain ⟨data, got, before, serial⟩ := ih
    cases next with
    | begin c idle known => exact ⟨data, got, before, serial.begin idle known⟩
    | code c here next meets => exact serial.code sound before here next meets
    | finish c here => exact ⟨data, got, before, serial.finish sound before here⟩

/-! ### The core that has the lock -/

/-- The steps of this core alone complete its call. -/
theorem Inside.completes {t : Thread ι σ α} {a : α} {last : Locked ι κ σ} (inside : Inside calls s data got c t)
    (run : t.run c s.shared = .ok (a, last)) :
    Relation.ReflTransGen (Step calls) s ⟨last, Function.update s.code c (some (.ret a)), s.got⟩ := by
  induction t generalizing s with
  | ret b =>
    obtain ⟨rfl, rfl⟩ := pure_ok run
    rw [← inside.code, Function.update_eq_self]
  | fault => exact (stop_ok run).elim
  | aquire lock rest ih =>
    have other := inside.bracketed.1
    obtain ⟨⟨⟩, taken, free, later⟩ := bind_ok run
    have next : (Thread.aquire lock rest).step c s.shared = some (rest, taken) := by
      unfold spinlockAquire at free
      rw [Thread.step]
      cases released : s.shared.holder lock with
      | some owner =>
        rw [released] at free
        cases free
      | none =>
        rw [released] at free
        rw [← (Prod.mk.inj (Except.ok.inj free)).2]
    have first : Step calls s ⟨taken, Function.update s.code c (some rest), s.got⟩ :=
      .code c inside.code next fun body same => absurd (Thread.aquire.inj same).1 other
    rcases inside.step next with still | ⟨b, rfl, _, _⟩
    · have more := ih still later
      rw [Function.update_idem] at more
      exact .head first more
    · obtain ⟨rfl, rfl⟩ := pure_ok later
      exact .single first
  | release lock rest ih =>
    have later : rest.run c { s.shared with holder := Function.update s.shared.holder lock none } = .ok (a, last) := run
    have next : (Thread.release lock rest).step c s.shared = some (rest, _) := rfl
    have first : Step calls s ⟨_, Function.update s.code c (some rest), s.got⟩ :=
      .code c inside.code next fun body same => by cases same
    rcases inside.step next with still | ⟨b, rfl, _, _⟩
    · have more := ih still later
      rw [Function.update_idem] at more
      exact .head first more
    · obtain ⟨rfl, rfl⟩ := pure_ok later
      exact .single first
  | act update rest ih =>
    have later : (rest s.shared.data).run c { s.shared with data := update s.shared.data } = .ok (a, last) := run
    have next : (Thread.act update rest).step c s.shared = some (rest s.shared.data, _) := rfl
    have first : Step calls s ⟨_, Function.update s.code c (some (rest s.shared.data)), s.got⟩ :=
      .code c inside.code next fun body same => by cases same
    rcases inside.step next with still | ⟨b, returned, _, _⟩
    · have more := ih _ still later
      rw [Function.update_idem] at more
      exact .head first more
    · rw [returned] at later first
      obtain ⟨rfl, rfl⟩ := pure_ok later
      exact .single first

/-- A call that faults comes to its fault by its own steps. -/
theorem Inside.faults {t : Thread ι σ α} (inside : Inside calls s data got c t)
    (run : t.run c s.shared = .error .fault) :
    ∃ last, Relation.ReflTransGen (Step calls) s ⟨last, Function.update s.code c (some .fault), s.got⟩ := by
  induction t generalizing s with
  | ret b => cases run
  | fault => exact ⟨s.shared, by rw [← inside.code, Function.update_eq_self]⟩
  | aquire lock rest ih =>
    have other := inside.bracketed.1
    rw [Thread.run] at run
    cases released : s.shared.holder lock with
    | some owner =>
      have waits : spinlockAquire c lock s.shared = .error .hang := by
        unfold spinlockAquire
        rw [released]
      rw [bind_error waits] at run
      cases run
    | none =>
      rw [bind_eq (aquire_run released)] at run
      have next : (Thread.aquire lock rest).step c s.shared =
          some (rest, ⟨s.shared.data, Function.update s.shared.holder lock (some c)⟩) := by
        rw [Thread.step, released]
      have first : Step calls s ⟨_, Function.update s.code c (some rest), s.got⟩ :=
        .code c inside.code next fun body same => absurd (Thread.aquire.inj same).1 other
      rcases inside.step next with still | ⟨b, rfl, _, returned⟩
      · obtain ⟨last, more⟩ := ih still run
        rw [Function.update_idem] at more
        exact ⟨last, .head first more⟩
      · cases run
  | release lock rest ih =>
    have next : (Thread.release lock rest).step c s.shared = some (rest, _) := rfl
    have first : Step calls s ⟨_, Function.update s.code c (some rest), s.got⟩ :=
      .code c inside.code next fun body same => by cases same
    rcases inside.step next with still | ⟨b, rfl, _, returned⟩
    · obtain ⟨last, more⟩ := ih still run
      rw [Function.update_idem] at more
      exact ⟨last, .head first more⟩
    · cases run
  | act update rest ih =>
    have next : (Thread.act update rest).step c s.shared = some (rest s.shared.data, _) := rfl
    have first : Step calls s ⟨_, Function.update s.code c (some (rest s.shared.data)), s.got⟩ :=
      .code c inside.code next fun body same => by cases same
    rcases inside.step next with still | ⟨b, _, _, returned⟩
    · obtain ⟨last, more⟩ := ih _ still run
      rw [Function.update_idem] at more
      exact ⟨last, .head first more⟩
    · cases returned.symm.trans run

/-- A core takes the lock while no core has one. -/
theorem enters_call {body : Thread ι σ α} (bracketed : body.Bracketed calls.lock)
    (idle : s.code c = none) (shared : s.shared = ⟨data, allFree⟩) (known : calls.body c body)
    (meets : calls.meets c data (s.settled calls)) :
    Relation.ReflTransGen (Step calls) s ⟨⟨data, held calls c⟩, Function.update s.code c (some body), s.got⟩ ∧
      Inside calls ⟨⟨data, held calls c⟩, Function.update s.code c (some body), s.got⟩ data (s.settled calls) c body := by
  let waiting : Config ι κ σ α ρ := ⟨s.shared, Function.update s.code c (some (.aquire calls.lock body)), s.got⟩
  have begun : Step calls s waiting := .begin c idle known
  have same : waiting.settled calls = s.settled calls := settled_begin idle fun b h => by cases h
  have next : (Thread.aquire calls.lock body).step c waiting.shared = some (body, ⟨data, held calls c⟩) := by
    show (Thread.aquire calls.lock body).step c s.shared = _
    rw [shared]
    rfl
  have taken : Step calls waiting ⟨⟨data, held calls c⟩, Function.update waiting.code c (some body), s.got⟩ := by
    refine .code c (Function.update_self ..) next fun body' _ => ?_
    show calls.meets c s.shared.data (waiting.settled calls)
    rw [same, shared]
    exact meets
  have returned : Function.update waiting.code c (some body) = Function.update s.code c (some body) :=
    Function.update_idem ..
  rw [returned] at taken
  exact ⟨.head begun (.single taken), Function.update_self .., Function.update_self .., bracketed, body, known, meets, .refl⟩

/-- A whole call, while no core has a lock. -/
theorem completes_call {body : Thread ι σ α} {a : α} {data' : σ} (bracketed : body.Bracketed calls.lock)
    (idle : s.code c = none) (shared : s.shared = ⟨data, allFree⟩) (known : calls.body c body)
    (meets : calls.meets c data (s.settled calls)) (run : body.run c ⟨data, held calls c⟩ = .ok (a, ⟨data', allFree⟩)) :
    Relation.ReflTransGen (Step calls) s ⟨⟨data', allFree⟩, Function.update s.code c (some (.ret a)), s.got⟩ := by
  obtain ⟨taken, inside⟩ := enters_call bracketed idle shared known meets
  have rest := inside.completes run
  rw [Function.update_idem] at rest
  exact taken.trans rest

theorem Stuck.step (stuck : Stuck calls s data got c) (next : Step calls s s') :
    Stuck calls s' data got c := by
  obtain ⟨⟨t, e, inside, run⟩, outside, settled⟩ := stuck
  have runs : ∀ a, t ≠ .ret a := by
    rintro a rfl
    cases run
  cases next with
  | begin d idle known =>
    have other : c ≠ d := by
      rintro rfl
      rw [inside.code] at idle
      cases idle
    refine ⟨⟨t, e, inside.other other, run⟩, fun d' away => ?_, (settled_begin idle fun a h => by cases h).trans settled⟩
    by_cases here : d' = d
    · subst here
      exact .inr (.inl ⟨_, known, Function.update_self ..⟩)
    · exact (outside d' away).other here
  | finish d here =>
    have other : c ≠ d := by
      rintro rfl
      exact runs _ (Option.some.inj (inside.code.symm.trans here))
    refine ⟨⟨t, e, inside.other other, run⟩, fun d' away => ?_, (settled_finish here).trans settled⟩
    by_cases there : d' = d
    · exact .inl (there ▸ Function.update_self ..)
    · exact (outside d' away).other there
  | @code d u t' shared' here next meets =>
    by_cases other : d = c
    · subst other
      obtain rfl := Option.some.inj (here.symm.trans inside.code)
      have run' := (Thread.run_step next).symm.trans run
      have runs' : ∀ a, t' ≠ .ret a := by
        rintro a rfl
        cases run'
      rcases inside.step next with still | ⟨a, _, _, returned⟩
      · refine ⟨⟨t', e, still, run'⟩, fun d' away => (outside d' away).other away, ?_⟩
        funext d'
        by_cases mine : d' = d
        · subst mine
          rw [settled_inside (Function.update_self ..) runs', ← settled, settled_inside here runs]
        · rw [settled_other mine rfl, settled]
      · rw [run] at returned
        cases returned
    · exact ((outside d other).waits inside.held here next).elim

/-- A call that stops under the lock keeps it: no call of any core completes from then on. -/
theorem Stuck.forever (stuck : Stuck calls s data got c)
    (later : Relation.ReflTransGen (Step calls) s s') : Stuck calls s' data got c := by
  induction later with
  | refl => exact stuck
  | tail _ next ih => exact ih.step next

theorem SelfWait.step (waiting : SelfWait calls s c) (next : Step calls s s') :
    SelfWait calls s' c ∧ s'.shared = s.shared ∧ s'.settled calls = s.settled calls := by
  obtain ⟨held, ⟨t, waits⟩, outside⟩ := waiting
  cases next with
  | begin d idle known =>
    have other : c ≠ d := by
      rintro rfl
      rw [waits] at idle
      cases idle
    refine ⟨⟨held, ⟨t, (Function.update_of_ne other ..).trans waits⟩, fun d' away => ?_⟩, rfl,
      settled_begin idle fun a h => by cases h⟩
    by_cases here : d' = d
    · subst here
      exact .inr (.inl ⟨_, known, Function.update_self ..⟩)
    · exact (outside d' away).other here
  | finish d here =>
    have other : c ≠ d := by
      rintro rfl
      cases Option.some.inj (waits.symm.trans here)
    refine ⟨⟨held, ⟨t, (Function.update_of_ne other ..).trans waits⟩, fun d' away => ?_⟩, rfl, settled_finish here⟩
    by_cases there : d' = d
    · exact .inl (there ▸ Function.update_self ..)
    · exact (outside d' away).other there
  | @code d u t' shared' here next meets =>
    by_cases other : d = c
    · subst other
      obtain rfl := Option.some.inj (here.symm.trans waits)
      rw [Thread.step, held] at next
      cases next
    · exact ((outside d other).waits held here next).elim

theorem SelfWait.forever (waiting : SelfWait calls s c) (later : Relation.ReflTransGen (Step calls) s s') :
    SelfWait calls s' c ∧ s'.shared = s.shared ∧ s'.settled calls = s.settled calls := by
  induction later with
  | refl => exact ⟨waiting, rfl, rfl⟩
  | tail _ next ih =>
    obtain ⟨still, shared, settled⟩ := ih
    obtain ⟨still', shared', settled'⟩ := still.step next
    exact ⟨still', shared'.trans shared, settled'.trans settled⟩

end runs

end PotatOS.Threads
