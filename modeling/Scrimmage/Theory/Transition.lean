import Mathlib.Data.Nat.Init

/-!
# Labelled runs

Systems given by a step relation whose steps are labelled with what can be seen of them,
and their finite runs, with the labels in order. `Interleave` puts two components side by
side that share a state: a step of the whole is a step of one of the two.

## The rules

* `Run.invariant`: a relation of labels and states that every step keeps holds along every run.
* `Run.interleave`: for two components it is enough that the steps of each keep it, for
  every place the other may be at.
* `holds_along_iff`: what a step keeps exactly under a condition holds all along a run
  exactly when every step meets the condition; `holds_along_iff_of_invariant` for a condition
  whose exactness rests on an invariant, `holds_at_iff_of_invariant` for what cannot come back.
* `Whenever.snoc`: to know what was seen before each label of a kind, look at each label
  when it comes.
-/

namespace Theory

universe u v w w'

variable {σ : Type u} {ℓ : Type v} {α : Type w} {β : Type w'}

/-- The runs of a step relation: from a state, with the labels seen, to a state. -/
inductive Run (step : σ → ℓ → σ → Prop) (s : σ) : List ℓ → σ → Prop where
  /-- The run of no steps. -/
  | nil : Run step s [] s
  /-- One more step. -/
  | snoc {ls : List ℓ} {s' s'' : σ} {l : ℓ} : Run step s ls s' → step s' l s'' → Run step s (ls ++ [l]) s''

/-- One run after another. -/
theorem Run.trans {step : σ → ℓ → σ → Prop} {s s' s'' : σ} {ls ls' : List ℓ} (h : Run step s ls s')
    (h' : Run step s' ls' s'') : Run step s (ls ++ ls') s'' := by
  induction h' with
  | nil => rwa [List.append_nil]
  | snoc _ hs ih =>
    rw [← List.append_assoc]
    exact ih.snoc hs

/-- A run is one of every step relation that allows its steps. -/
theorem Run.mono {step step' : σ → ℓ → σ → Prop} {s s' : σ} {ls : List ℓ} (h : Run step s ls s')
    (hstep : ∀ s l s', step s l s' → step' s l s') : Run step' s ls s' := by
  induction h with
  | nil => exact .nil
  | snoc _ hs ih => exact ih.snoc (hstep _ _ _ hs)

/-- **The invariant rule**, for a relation of what has been seen and where the run is. -/
theorem Run.invariant {step : σ → ℓ → σ → Prop} {s s' : σ} {ls : List ℓ} (I : List ℓ → σ → Prop)
    (h0 : I [] s) (hstep : ∀ ls s l s', I ls s → step s l s' → I (ls ++ [l]) s')
    (h : Run step s ls s') : I ls s' := by
  induction h with
  | nil => exact h0
  | snoc _ hs ih => exact hstep _ _ _ _ ih hs

/-- **Two components** that share a state of type `σ`: each step of the whole is a step of
the one or of the other. -/
inductive Interleave (left : σ → α → ℓ → σ → α → Prop) (right : σ → β → ℓ → σ → β → Prop) :
    σ × α × β → ℓ → σ × α × β → Prop where
  /-- A step of the first. -/
  | left {s s' : σ} {a a' : α} {l : ℓ} (b : β) : left s a l s' a' → Interleave left right (s, a, b) l (s', a', b)
  /-- A step of the second. -/
  | right {s s' : σ} {b b' : β} {l : ℓ} (a : α) : right s b l s' b' → Interleave left right (s, a, b) l (s', a, b')

/-- **The invariant rule for two components.** -/
theorem Run.interleave {left : σ → α → ℓ → σ → α → Prop} {right : σ → β → ℓ → σ → β → Prop}
    {s s' : σ} {a a' : α} {b b' : β} {ls : List ℓ} (I : List ℓ → σ → α → β → Prop) (h0 : I [] s a b)
    (hleft : ∀ ls s a b l s' a', I ls s a b → left s a l s' a' → I (ls ++ [l]) s' a' b)
    (hright : ∀ ls s a b l s' b', I ls s a b → right s b l s' b' → I (ls ++ [l]) s' a b')
    (h : Run (Interleave left right) (s, a, b) ls (s', a', b')) : I ls s' a' b' := by
  refine h.invariant (fun ls c => I ls c.1 c.2.1 c.2.2) h0 fun ls c l c' hI hstep => ?_
  cases hstep with
  | left b hs => exact hleft _ _ _ _ _ _ _ hI hs
  | right a hs => exact hright _ _ _ _ _ _ _ hI hs

/-- **The rule for an exact condition**, with an invariant of the steps that meet it: if each
step, from where `I` and `J` hold, keeps `I` exactly when it meets `C`, and then also `J`, then
`I` holds all along exactly when every step meets `C`. -/
theorem holds_along_iff_of_invariant {I J C : ℕ → Prop} {n : ℕ} (h0 : I 0) (hJ0 : J 0)
    (hstep : ∀ k < n, J k → I k → (I (k + 1) ↔ C k)) (hJ : ∀ k < n, J k → I k → C k → J (k + 1)) :
    (∀ k ≤ n, I k) ↔ ∀ k < n, C k := by
  have hboth (hC : ∀ k < n, J k → I k → C k) (k : ℕ) : k ≤ n → J k ∧ I k := by
    induction k with
    | zero => exact fun _ => ⟨hJ0, h0⟩
    | succ k ih =>
      intro hk
      obtain ⟨hJk, hIk⟩ := ih (Nat.le_of_succ_le hk)
      have hCk := hC k hk hJk hIk
      exact ⟨hJ k hk hJk hIk hCk, (hstep k hk hJk hIk).mpr hCk⟩
  constructor
  · intro h
    have hC (k : ℕ) (hk : k < n) (hJk : J k) (hIk : I k) : C k := (hstep k hk hJk hIk).mp (h (k + 1) hk)
    intro k hk
    obtain ⟨hJk, hIk⟩ := hboth hC k (Nat.le_of_lt hk)
    exact hC k hk hJk hIk
  · exact fun h k hk => (hboth (fun k hk _ _ => h k hk) k hk).2

/-- **The rule for an exact condition**: if each step, from where `I` holds, keeps it exactly
when it meets `C`, then `I` holds all along exactly when every step meets `C`. -/
theorem holds_along_iff {I C : ℕ → Prop} {n : ℕ} (h0 : I 0) (hstep : ∀ k < n, I k → (I (k + 1) ↔ C k)) :
    (∀ k ≤ n, I k) ↔ ∀ k < n, C k :=
  holds_along_iff_of_invariant (J := fun _ => True) h0 trivial (fun k hk _ => hstep k hk) fun _ _ _ _ _ => trivial

/-- **The rule for a loss that is never made good**: if each step, from where `J` holds, leaves `I`
exactly when it was there before and the step meets `C`, then `I` holds at the end exactly when
every step meets `C`. -/
theorem holds_at_iff_of_invariant {I J C : ℕ → Prop} {n : ℕ} (h0 : I 0) (hJ0 : J 0)
    (hstep : ∀ k < n, J k → (I (k + 1) ↔ I k ∧ C k)) (hJ : ∀ k < n, J k → J (k + 1)) :
    I n ↔ ∀ k < n, C k := by
  have hboth (k : ℕ) : k ≤ n → J k ∧ (I k ↔ ∀ i < k, C i) := by
    induction k with
    | zero => exact fun _ => ⟨hJ0, iff_of_true h0 fun i hi => absurd hi (Nat.not_lt_zero i)⟩
    | succ k ih =>
      intro hk
      obtain ⟨hJk, hIk⟩ := ih (Nat.le_of_succ_le hk)
      rw [hstep k hk hJk, hIk, Nat.forall_lt_succ_right]
      exact ⟨hJ k hk hJk, Iff.rfl⟩
  exact (hboth n (Nat.le_refl n)).2

/-- **Whenever a label has `p`**, what was seen before it has `Q`. -/
def Whenever (p : ℓ → Prop) (Q : List ℓ → Prop) (ls : List ℓ) : Prop :=
  ∀ pre l post, ls = pre ++ l :: post → p l → Q pre

/-- One more label. -/
theorem Whenever.snoc {p : ℓ → Prop} {Q : List ℓ → Prop} {ls : List ℓ} {l : ℓ} (h : Whenever p Q ls)
    (hl : p l → Q ls) : Whenever p Q (ls ++ [l]) := by
  intro pre l' post heq hp
  rcases List.eq_nil_or_concat post with rfl | ⟨post, l'', rfl⟩
  · obtain ⟨rfl, hlast⟩ := List.append_inj' heq rfl
    obtain rfl : l = l' := (List.cons.inj hlast).1
    exact hl hp
  · rw [List.concat_eq_append, ← List.cons_append, ← List.append_assoc] at heq
    exact h pre l' post (List.append_inj' heq rfl).1 hp

/-- One more label, of another kind. -/
theorem Whenever.skip {p : ℓ → Prop} {Q : List ℓ → Prop} {ls : List ℓ} {l : ℓ} (h : Whenever p Q ls)
    (hl : ¬ p l) : Whenever p Q (ls ++ [l]) :=
  h.snoc fun hp => absurd hp hl

/-- One label less. -/
theorem Whenever.of_snoc {p : ℓ → Prop} {Q : List ℓ → Prop} {ls : List ℓ} {l : ℓ} (h : Whenever p Q (ls ++ [l])) :
    Whenever p Q ls ∧ (p l → Q ls) :=
  ⟨fun pre l' post heq => h pre l' (post ++ [l]) (by rw [heq]; simp), h ls l [] rfl⟩

/-- A label not seen yet is not among the first. -/
theorem whenever_start (p : ℓ → Prop) (Q : List ℓ → Prop) (ls : List ℓ) :
    Whenever p (fun pre => ls <+: pre → Q pre) ls := by
  intro pre l post heq _ hpre
  have := hpre.length_le
  rw [heq, List.length_append, List.length_cons] at this
  omega

end Theory
