import Scrimmage.Theory.Transition
import Mathlib.Logic.Function.Basic
import Mathlib.Tactic.Common
import Mathlib.Algebra.Order.BigOperators.Group.Finset

/-!
# Critical sections

Threads that share a state behind one mutex. An operation locks the mutex, changes the state
in any number of steps, unlocks, and returns; other threads make steps in between, but none
of them inside a section of its own.

`Body` is what operations do inside: a function of one step. `Body.Completes` is an operation
run alone, from where it is to its end, and `Body.Legal` a sequence of operations one after
the other, with what each returned.

## The rules

* `Legal.answers`: what each operation keeps and returns, all of them do.
* `legal_run`: **operations under a mutex are atomic**. Over every interleaving the calls that
  have returned, in the order in which they returned, are a legal sequence, and while the
  mutex is free the state is the one it leaves.
* `exists_step`: no deadlock. Unless all threads are outside, one of them can go on.
* `length_le_work`: if every section ends, then without new calls all do.
-/

namespace Theory

universe u v

/-- What operations do inside their sections. -/
structure Body (σ ο κ α : Type u) where
  /-- Where an operation begins. -/
  enter : ο → κ
  /-- One step: the state after it, and where the operation is, or what it returns. -/
  step : σ → κ → σ × (κ ⊕ α)

namespace Body

variable {σ ο κ α : Type u} {ι : Type v}

/-- An operation that runs alone to its end. -/
inductive Completes (B : Body σ ο κ α) : σ → κ → σ → α → Prop where
  /-- Its last step. -/
  | last {s s' : σ} {k : κ} {a : α} : B.step s k = (s', .inr a) → Completes B s k s' a
  /-- A step, and the others. -/
  | step {s s' s'' : σ} {k k' : κ} {a : α} : B.step s k = (s', .inl k') → Completes B s' k' s'' a →
    Completes B s k s'' a

/-- **Operations one after the other**, with the threads that called them and what they returned. -/
inductive Legal (B : Body σ ο κ α) (s₀ : σ) : List (ι × ο × α) → σ → Prop where
  /-- None. -/
  | nil : Legal B s₀ [] s₀
  /-- One more. -/
  | snoc {h : List (ι × ο × α)} {s s' : σ} {o : ο} {a : α} (i : ι) : Legal B s₀ h s →
    B.Completes s (B.enter o) s' a → Legal B s₀ (h ++ [(i, o, a)]) s'

/-- **The rule for operations one after the other**: if each, from a state that `I` holds of, leaves
one that it holds of, and returns what `A` says, then so it is for all of them. -/
theorem Legal.answers {B : Body σ ο κ α} {s₀ s : σ} {h : List (ι × ο × α)} {I : List (ι × ο × α) → σ → Prop}
    {A : List (ι × ο × α) → ο → α → Prop} (hlegal : B.Legal s₀ h s) (h0 : I [] s₀)
    (hdone : ∀ h i o a s s', I h s → B.Completes s (B.enter o) s' a → I (h ++ [(i, o, a)]) s' ∧ A h o a) :
    I h s ∧ ∀ pre r post, h = pre ++ r :: post → A pre r.2.1 r.2.2 := by
  induction hlegal with
  | nil => exact ⟨h0, fun pre r post heq => by simp at heq⟩
  | @snoc h s s' o a i _ hcompletes ih =>
    obtain ⟨hI, hA⟩ := hdone h i o a s s' ih.1 hcompletes
    refine ⟨hI, fun pre r post heq => ?_⟩
    rcases List.eq_nil_or_concat post with rfl | ⟨post, r', rfl⟩
    · obtain ⟨rfl, hlast⟩ := List.append_inj' heq rfl
      obtain rfl := (List.cons.inj hlast).1
      exact hA
    · rw [List.concat_eq_append, ← List.cons_append, ← List.append_assoc] at heq
      exact ih.2 pre r post (List.append_inj' heq rfl).1

/-- Where a thread is. -/
inductive Place (ο κ α : Type u) where
  /-- In no operation. -/
  | outside
  /-- At the mutex. -/
  | waiting (o : ο)
  /-- In its section. -/
  | inside (o : ο) (k : κ)
  /-- Done, but for the mutex, which it still holds. -/
  | leaving (o : ο) (a : α)

/-- The state, who holds the mutex, and where the threads are. -/
structure Threads (σ ο κ α : Type u) (ι : Type v) where
  /-- The state. -/
  shared : σ
  /-- The thread that holds the mutex. -/
  owner : Option ι
  /-- Where a thread is. -/
  place : ι → Place ο κ α

/-- All threads are outside. -/
def Threads.create (s : σ) : Threads σ ο κ α ι := ⟨s, none, fun _ => .outside⟩

/-- What can be seen of a step. -/
inductive Event (ο α : Type u) (ι : Type v) where
  /-- Nothing. -/
  | silent
  /-- A thread calls an operation. -/
  | called (i : ι) (o : ο)
  /-- An operation returns. -/
  | returned (i : ι) (o : ο) (a : α)

/-- **The steps.** -/
inductive Step [DecidableEq ι] (B : Body σ ο κ α) : Threads σ ο κ α ι → Event ο α ι → Threads σ ο κ α ι → Prop where
  | call {c : Threads σ ο κ α ι} {i : ι} (o : ο) : c.place i = .outside →
    Step B c (.called i o) { c with place := Function.update c.place i (.waiting o) }
  | lock {c : Threads σ ο κ α ι} {i : ι} {o : ο} : c.place i = .waiting o → c.owner = none →
    Step B c .silent { c with owner := some i, place := Function.update c.place i (.inside o (B.enter o)) }
  | go {c : Threads σ ο κ α ι} {i : ι} {o : ο} {k k' : κ} {s : σ} : c.place i = .inside o k →
    B.step c.shared k = (s, .inl k') →
    Step B c .silent { c with shared := s, place := Function.update c.place i (.inside o k') }
  | finish {c : Threads σ ο κ α ι} {i : ι} {o : ο} {k : κ} {a : α} {s : σ} : c.place i = .inside o k →
    B.step c.shared k = (s, .inr a) →
    Step B c .silent { c with shared := s, place := Function.update c.place i (.leaving o a) }
  | unlock {c : Threads σ ο κ α ι} {i : ι} {o : ο} {a : α} : c.place i = .leaving o a →
    Step B c (.returned i o a) { c with owner := none, place := Function.update c.place i .outside }

/-- The calls that have returned, in order. -/
def returns (trace : List (Event ο α ι)) : List (ι × ο × α) :=
  trace.filterMap fun
    | .returned i o a => some (i, o, a)
    | _ => none

@[simp] theorem returns_append (l l' : List (Event ο α ι)) : returns (l ++ l') = returns l ++ returns l' :=
  List.filterMap_append

@[simp] theorem returns_silent : returns [(.silent : Event ο α ι)] = [] := rfl

@[simp] theorem returns_called (i : ι) (o : ο) : returns [(.called i o : Event ο α ι)] = [] := rfl

/-! ### The invariant -/

/-- A thread without the mutex. -/
def Place.Free : Place ο κ α → Prop
  | .outside | .waiting _ => True
  | .inside _ _ | .leaving _ _ => False

/-- What the thread with the mutex has done of its operation: from the state `s` before, if
it completes from where it is, then it completes. -/
def Place.Since (B : Body σ ο κ α) (s now : σ) : Place ο κ α → Prop
  | .inside o k => ∀ s' a, B.Completes now k s' a → B.Completes s (B.enter o) s' a
  | .leaving o a => B.Completes s (B.enter o) now a
  | .outside | .waiting _ => False

/-- **The invariant**: only the thread with the mutex is in a section, and but for what it has
done there the state is that after the operations that have returned. -/
structure Atomic (B : Body σ ο κ α) (s₀ : σ) (trace : List (Event ο α ι)) (c : Threads σ ο κ α ι) : Prop where
  free : ∀ i, c.owner ≠ some i → (c.place i).Free
  legal : c.owner = none → B.Legal s₀ (returns trace) c.shared
  since : ∀ i, c.owner = some i → ∃ s, B.Legal s₀ (returns trace) s ∧ (c.place i).Since B s c.shared

namespace Atomic

variable {B : Body σ ο κ α} {s₀ : σ} {trace : List (Event ο α ι)} {c c' : Threads σ ο κ α ι} {e : Event ο α ι} {i : ι}

theorem create (B : Body σ ο κ α) (s₀ : σ) : Atomic B s₀ [] (.create s₀ : Threads σ ο κ α ι) where
  free _ _ := trivial
  legal _ := .nil
  since i hi := by cases hi

/-- A thread in a section holds the mutex. -/
theorem owner_eq (h : Atomic B s₀ trace c) (hi : ¬ (c.place i).Free) : c.owner = some i := by
  by_contra hne
  exact hi (h.free i hne)

theorem free_update [DecidableEq ι] {place : ι → Place ο κ α} {x : Place ο κ α} {j : ι} (hj : j ≠ i)
    (h : (place j).Free) : (Function.update place i x j).Free := by
  rwa [Function.update_of_ne hj]

/-- A step inside the section of the thread with the mutex. -/
theorem inSection [DecidableEq ι] (h : Atomic B s₀ trace c) (howner : c.owner = some i) {s : σ} {x : Place ο κ α}
    (hx : ∀ s₁, (c.place i).Since B s₁ c.shared → x.Since B s₁ s) :
    Atomic B s₀ (trace ++ [.silent]) { c with shared := s, place := Function.update c.place i x } := by
  refine ⟨fun j hj => ?_, fun hnone => ?_, fun j hj => ?_⟩
  · have hji : j ≠ i := by rintro rfl; exact hj howner
    exact free_update hji (h.free j hj)
  · exact absurd (howner.symm.trans hnone) (by simp)
  · obtain rfl : i = j := Option.some.inj (howner.symm.trans hj)
    obtain ⟨s₁, hlegal, hsince⟩ := h.since i howner
    simp only [returns_append, returns_silent, List.append_nil, Function.update_self]
    exact ⟨s₁, hlegal, hx s₁ hsince⟩

/-- **Every step keeps the invariant.** -/
theorem step [DecidableEq ι] (h : Atomic B s₀ trace c) (hs : Step B c e c') : Atomic B s₀ (trace ++ [e]) c' := by
  cases hs with
  | @call i o hi =>
    have hne {j : ι} (hj : c.owner = some j) : j ≠ i := by
      rintro rfl
      obtain ⟨s, -, hsince⟩ := h.since j hj
      rw [hi] at hsince
      exact hsince
    refine ⟨fun j hj => ?_, fun hnone => ?_, fun j hj => ?_⟩
    · by_cases hji : j = i
      · subst hji
        simp [Place.Free]
      · exact free_update hji (h.free j hj)
    · rw [returns_append, returns_called, List.append_nil]
      exact h.legal hnone
    · simp only [returns_append, returns_called, List.append_nil, Function.update_of_ne (hne hj)]
      exact h.since j hj
  | @lock i o hi hnone =>
    refine ⟨fun j hj => ?_, (fun hsome => nomatch hsome), fun j hj => ?_⟩
    · have hji : j ≠ i := by rintro rfl; exact hj rfl
      exact free_update hji (h.free j (by simp [hnone]))
    · obtain rfl : i = j := Option.some.inj hj
      simp only [returns_append, returns_silent, List.append_nil, Function.update_self]
      exact ⟨c.shared, h.legal hnone, fun s' a hc => hc⟩
  | @go i o k k' s hi hk =>
    have howner : c.owner = some i := h.owner_eq (by simp [hi, Place.Free])
    exact h.inSection howner fun s₁ hsince => by
      rw [hi] at hsince
      exact fun s' a hc => hsince s' a (.step hk hc)
  | @finish i o k a s hi hk =>
    have howner : c.owner = some i := h.owner_eq (by simp [hi, Place.Free])
    exact h.inSection howner fun s₁ hsince => by
      rw [hi] at hsince
      exact hsince s a (.last hk)
  | @unlock i o a hi =>
    have howner : c.owner = some i := h.owner_eq (by simp [hi, Place.Free])
    obtain ⟨s, hlegal, hsince⟩ := h.since i howner
    rw [hi] at hsince
    refine ⟨fun j _ => ?_, fun _ => ?_, (fun j hj => nomatch hj)⟩
    · by_cases hji : j = i
      · subst hji
        simp [Place.Free]
      · exact free_update hji (h.free j (by simpa [howner] using Ne.symm hji))
    · rw [returns_append]
      exact hlegal.snoc i hsince

/-- **Every run keeps the invariant.** -/
theorem run [DecidableEq ι] (h : Run (Step B) (.create s₀) trace c) : Atomic B s₀ trace c :=
  h.invariant (Atomic B s₀) (create B s₀) fun _ _ _ _ h hs => h.step hs

end Atomic

/-- **Operations under a mutex are atomic**: over every interleaving the calls that have returned, in
the order in which they returned, are operations one after the other, and while the mutex is free
the state is the one after them. -/
theorem legal_run [DecidableEq ι] {B : Body σ ο κ α} {s₀ : σ} {trace : List (Event ο α ι)} {c : Threads σ ο κ α ι}
    (h : Run (Step B) (.create s₀) trace c) :
    ∃ s, B.Legal s₀ (returns trace) s ∧ (c.owner = none → s = c.shared) := by
  have hatomic := Atomic.run h
  cases howner : c.owner with
  | none => exact ⟨c.shared, hatomic.legal howner, fun _ => rfl⟩
  | some i =>
    obtain ⟨s, hlegal, -⟩ := hatomic.since i howner
    exact ⟨s, hlegal, fun hnone => by cases hnone⟩

/-- **No deadlock**: unless all threads are outside, one of those that are not can go on. -/
theorem exists_step [DecidableEq ι] {B : Body σ ο κ α} {s₀ : σ} {trace : List (Event ο α ι)} {c : Threads σ ο κ α ι}
    (h : Run (Step B) (.create s₀) trace c) {i : ι} (hi : c.place i ≠ .outside) :
    ∃ e c', Step B c e c' ∧ ∀ j o, e ≠ .called j o := by
  have hatomic := Atomic.run h
  cases howner : c.owner with
  | none =>
    cases hplace : c.place i with
    | outside => exact absurd hplace hi
    | waiting o => exact ⟨_, _, .lock hplace howner, nofun⟩
    | inside o k =>
      have := hatomic.free i (by simp [howner])
      rw [hplace] at this
      exact this.elim
    | leaving o a => exact ⟨_, _, .unlock hplace, nofun⟩
  | some j =>
    obtain ⟨s, -, hsince⟩ := hatomic.since j howner
    cases hplace : c.place j with
    | outside | waiting o =>
      rw [hplace] at hsince
      exact hsince.elim
    | inside o k =>
      cases hk : B.step c.shared k with
      | mk s' r =>
        cases r with
        | inl k' => exact ⟨_, _, .go hplace hk, nofun⟩
        | inr a => exact ⟨_, _, .finish hplace hk, nofun⟩
    | leaving o a => exact ⟨_, _, .unlock hplace, nofun⟩

/-! ### Work -/

/-- A bound on the steps that a thread has before it, from one on those in a section. -/
def Place.work (B : Body σ ο κ α) (rank : κ → ℕ) : Place ο κ α → ℕ
  | .outside => 0
  | .waiting o => rank (B.enter o) + 3
  | .inside _ k => rank k + 2
  | .leaving _ _ => 1

/-- The steps that all threads have before them. -/
def Threads.work [Fintype ι] (B : Body σ ο κ α) (rank : κ → ℕ) (c : Threads σ ο κ α ι) : ℕ :=
  ∑ i, (c.place i).work B rank

theorem work_update_lt [Fintype ι] [DecidableEq ι] {B : Body σ ο κ α} {rank : κ → ℕ} {place : ι → Place ο κ α} {i : ι}
    {x : Place ο κ α} (hx : x.work B rank < (place i).work B rank) :
    ∑ j, (Function.update place i x j).work B rank < ∑ j, (place j).work B rank := by
  refine Finset.sum_lt_sum (fun j _ => ?_) ⟨i, Finset.mem_univ i, ?_⟩
  · by_cases hji : j = i
    · subst hji
      rw [Function.update_self]
      exact hx.le
    · rw [Function.update_of_ne hji]
  · rwa [Function.update_self]

variable {B : Body σ ο κ α} {rank : κ → ℕ} {c c' : Threads σ ο κ α ι} {e : Event ο α ι}

/-- **Every step but a call lowers the work**, if every step in a section does. -/
theorem Step.work_lt [Fintype ι] [DecidableEq ι] (hrank : ∀ s s' k k', B.step s k = (s', .inl k') → rank k' < rank k)
    (h : Step B c e c') (hcall : ∀ i o, e ≠ .called i o) : c'.work B rank < c.work B rank := by
  cases h with
  | call o _ => exact absurd rfl (hcall _ o)
  | lock hi _ => exact work_update_lt (by simp only [hi, Place.work]; omega)
  | go hi hk => exact work_update_lt (by have := hrank _ _ _ _ hk; simp only [hi, Place.work]; omega)
  | finish hi _ => exact work_update_lt (by simp only [hi, Place.work]; omega)
  | unlock hi => exact work_update_lt (by simp only [hi, Place.work]; omega)

/-- **Calls end**: without new ones there are no more steps than there is work. -/
theorem length_le_work [Fintype ι] [DecidableEq ι]
    (hrank : ∀ s s' k k', B.step s k = (s', .inl k') → rank k' < rank k) {trace : List (Event ο α ι)}
    (h : Run (Step B) c trace c') (hcall : ∀ i o, .called i o ∉ trace) : trace.length + c'.work B rank ≤ c.work B rank := by
  induction h with
  | nil => simp
  | @snoc trace c' c'' e _ hs ih =>
    have ih := ih fun i o hmem => hcall i o (List.mem_append_left _ hmem)
    have hlt := hs.work_lt hrank fun i o he => hcall i o (by simp [he])
    simp only [List.length_append, List.length_singleton]
    omega

end Body

end Theory
