import Scrimmage.Theory.Transition

/-!
# Loops that receive

A thread that calls a source again and again, as long as a flag is set, and hands what it has
received to a callback. A call on the source may fail; the loop then goes on or ends.

The flag, and what else happens to the source, are for the system that the loop is part of:
`Receiver.Step` is one step of the loop.

## The rules

* `Step.inHand`: what is handed on is what has been received, in order, but for what is in hand.
* `Step.atMost_le`: once the flag is cleared no more than one thing is handed on.
* `Step.work_lt`: and the loop ends.
* `exists_step`: it can only be stopped by the source.
-/

namespace Theory

universe u v

/-- A source, and what the loop does when a call on it fails. -/
structure Receiver (σ : Type u) (α : Type v) where
  /-- A call on the source: what it returns, if it does not fail. -/
  recv : σ → Option α → σ → Prop
  /-- The loop goes on after a call that fails. -/
  goesOn : Bool

namespace Receiver

variable {σ : Type u} {α : Type v}

/-- Where the loop is. -/
inductive Place (α : Type v) where
  /-- At the test of the flag. -/
  | check
  /-- In a call on the source. -/
  | recv
  /-- Before the callback, with what has been received. -/
  | hand (x : α)
  /-- Behind the loop. -/
  | out

/-- What can be seen of a step. -/
inductive Event (α : Type v) where
  /-- Nothing. -/
  | silent
  /-- Something is received. -/
  | received (x : α)
  /-- The callback is given something. -/
  | handed (x : α)

/-- **The steps.** -/
inductive Step (R : Receiver σ α) (flag : Bool) : σ → Place α → Event α → σ → Place α → Prop where
  | enter (s : σ) : flag = true → Step R flag s .check .silent s .recv
  | leave (s : σ) : flag = false → Step R flag s .check .silent s .out
  | received {s s' : σ} {x : α} : R.recv s (some x) s' → Step R flag s .recv (.received x) s' (.hand x)
  | skip {s s' : σ} : R.recv s none s' → R.goesOn = true → Step R flag s .recv .silent s' .check
  | fail {s s' : σ} : R.recv s none s' → R.goesOn = false → Step R flag s .recv .silent s' .out
  | hand (s : σ) (x : α) : Step R flag s (.hand x) (.handed x) s .check

/-- What is received. -/
def Event.received? : Event α → List α
  | .received x => [x]
  | _ => []

/-- What is handed on. -/
def Event.handed? : Event α → List α
  | .handed x => [x]
  | _ => []

/-- What is in hand. -/
def Place.inHand : Place α → List α
  | .hand x => [x]
  | _ => []

/-- How much can still be handed on once the flag is cleared. -/
def Place.atMost : Place α → ℕ
  | .recv | .hand _ => 1
  | .check | .out => 0

/-- How many steps can still be made once the flag is cleared. -/
def Place.work : Place α → ℕ
  | .recv => 3
  | .hand _ => 2
  | .check => 1
  | .out => 0

theorem Place.atMost_le_one (p : Place α) : p.atMost ≤ 1 := by
  cases p <;> simp [atMost]

variable {R : Receiver σ α} {flag : Bool} {s s' : σ} {p p' : Place α} {e : Event α}

/-- **What is received is in hand until it is handed on.** -/
theorem Step.inHand (h : R.Step flag s p e s' p') : p.inHand ++ e.received? = e.handed? ++ p'.inHand := by
  cases h <;> rfl

/-- A step that receives nothing leaves the source as it is, or is a call on it that fails. -/
theorem Step.source (h : R.Step flag s p e s' p') :
    s' = s ∧ e.received? = [] ∨ R.recv s none s' ∧ e.received? = [] ∨ ∃ x, R.recv s (some x) s' ∧ e.received? = [x] := by
  cases h with
  | enter | leave | hand => exact .inl ⟨rfl, rfl⟩
  | received hx => exact .inr (.inr ⟨_, hx, rfl⟩)
  | skip hx | fail hx => exact .inr (.inl ⟨hx, rfl⟩)

/-- **With the flag cleared** no more is handed on than could be. -/
theorem Step.atMost_le (h : R.Step false s p e s' p') : e.handed?.length + p'.atMost ≤ p.atMost := by
  cases h with
  | enter hflag => cases hflag
  | leave | received | skip | fail | hand => simp [Event.handed?, Place.atMost]

/-- **With the flag cleared** every step is one less to make. -/
theorem Step.work_lt (h : R.Step false s p e s' p') : p'.work < p.work := by
  cases h with
  | enter hflag => cases hflag
  | leave | received | skip | fail | hand => simp [Place.work]

/-- **The loop can go on** unless it is left, or a call on the source does not return. -/
theorem exists_step (flag : Bool) (hout : p ≠ .out) (hrecv : p = .recv → ∃ r s', R.recv s r s') :
    ∃ e s' p', R.Step flag s p e s' p' := by
  cases p with
  | check =>
    cases flag with
    | false => exact ⟨_, _, _, .leave s rfl⟩
    | true => exact ⟨_, _, _, .enter s rfl⟩
  | recv =>
    obtain ⟨r, s', hr⟩ := hrecv rfl
    cases r with
    | some x => exact ⟨_, _, _, .received hr⟩
    | none =>
      cases hgo : R.goesOn with
      | false => exact ⟨_, _, _, .fail hr hgo⟩
      | true => exact ⟨_, _, _, .skip hr hgo⟩
  | hand x => exact ⟨_, _, _, .hand s x⟩
  | out => exact absurd rfl hout

end Receiver

end Theory
