import Mathlib.Tactic.SplitIfs

/-!
# A mutex that is not recursive

A state behind a mutex, as one thread sees it: `Guarded` is the state, and whether the thread
holds the mutex. To lock it once more is an error, `Relock`; a thread that does so never goes
on. `locked f` does `f` under a lock guard.

A `Client` is what a thread does with a function of the guarded state: a finite number of calls
of it, each depending on what the ones before have returned.

## The rules

* `locked_of_held`, `locked_of_ok`, `locked_of_error`: what a lock guard does.
* `Client.run_of_error`: a client of a function that fails can do nothing but make no call.
-/

namespace Theory

universe u v

/-- A state, and whether the thread holds the mutex before it. -/
structure Guarded (σ : Type u) where
  /-- The state. -/
  state : σ
  /-- The thread holds the mutex. -/
  held : Bool

/-- The thread has locked a mutex that it holds. -/
inductive Relock where
  /-- The error. -/
  | relock
  deriving DecidableEq

/-- A function of a guarded state. -/
abbrev Action (σ : Type u) (α : Type v) := Guarded σ → Except Relock (α × Guarded σ)

variable {σ : Type u} {α : Type v} {f : Action σ α} {g g' : Guarded σ} {a : α}

/-- `f` under a lock guard: the mutex is locked before, and unlocked behind. -/
def locked (f : Action σ α) (g : Guarded σ) : Except Relock (α × Guarded σ) :=
  if g.held then .error .relock
  else
    match f { g with held := true } with
    | .ok (a, g) => .ok (a, { g with held := false })
    | .error e => .error e

theorem locked_of_held (h : g.held = true) : locked f g = .error .relock := if_pos h

theorem locked_of_ok {s : σ} {b : Bool} (h : g.held = false) (hf : f { g with held := true } = .ok (a, ⟨s, b⟩)) :
    locked f g = .ok (a, ⟨s, false⟩) := by
  simp [locked, h, hf]

theorem locked_of_error (h : g.held = false) {e : Relock} (hf : f { g with held := true } = .error e) :
    locked f g = .error e := by
  simp [locked, h, hf]

/-- Behind a lock guard the mutex is free. -/
theorem held_of_locked (h : locked f g = .ok (a, g')) : g'.held = false := by
  unfold locked at h
  split_ifs at h
  cases hf : f { g with held := true } with
  | error e => simp [hf] at h
  | ok r =>
    simp only [hf, Except.ok.injEq, Prod.mk.injEq] at h
    rw [← h.2]

/-! ### Clients -/

/-- What a thread does with a function that returns an `α`. -/
inductive Client (α : Type v) where
  /-- It makes no more calls. -/
  | done
  /-- It makes a call, and goes on with what this returns. -/
  | call (next : α → Client α)

/-- A client of `f`, with what the calls return. -/
def Client.run (f : Action σ α) : Client α → Action σ (List α)
  | .done, g => .ok ([], g)
  | .call next, g =>
    match f g with
    | .error e => .error e
    | .ok (a, g) =>
      match (next a).run f g with
      | .error e => .error e
      | .ok (as, g) => .ok (a :: as, g)

@[simp] theorem Client.run_done : (Client.done : Client α).run f g = .ok ([], g) := rfl

/-- **A client of a function that fails** fails, unless it makes no call. -/
theorem Client.run_of_error {e : Relock} (h : f g = .error e) {c : Client α} (hc : c ≠ .done) :
    c.run f g = .error e := by
  cases c with
  | done => exact absurd rfl hc
  | call next => simp only [run, h]

end Theory
