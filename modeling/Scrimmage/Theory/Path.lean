import Scrimmage.Theory.Transition
import Mathlib.Data.List.Range

/-!
# Runs that do not end

Infinite runs of a step relation, and what happens along one in the end. A component that
shares the run with others gets its turn again and again, and no more is assumed of it.

## The rules

* `Path.run`: what is known of finite runs holds of each beginning of a path.
* `eventually_of_measure`: something that each turn of a component brings nearer, and that no
  step takes further away, happens.
* `exists_reached`: it happens any number of times.
-/

namespace Theory

universe u v

variable {σ : Type u} {ℓ : Type v}

/-- **The measure rule**: if `helps` comes again and again, and until `goal` is reached each of
these steps lowers `μ` and the others do not raise it, then `goal` is reached. -/
theorem eventually_of_measure {goal helps : ℕ → Prop} (μ : ℕ → ℕ) {start : ℕ}
    (hfair : ∀ k ≥ start, ∃ j ≥ k, helps j ∨ goal j) (hkeep : ∀ k ≥ start, ¬ goal k → goal (k + 1) ∨ μ (k + 1) ≤ μ k)
    (hhelps : ∀ k ≥ start, ¬ goal k → helps k → goal (k + 1) ∨ μ (k + 1) < μ k) : ∃ j ≥ start, goal j := by
  induction hμ : μ start using Nat.strong_induction_on generalizing start with
  | _ m ih =>
    by_contra hnot
    have hnever (k : ℕ) (hk : start ≤ k) : ¬ goal k := fun hg => hnot ⟨k, hk, hg⟩
    obtain ⟨j, hj, hhelp⟩ := hfair start (Nat.le_refl start)
    have hlow (i : ℕ) : μ (start + i) ≤ μ start := by
      induction i with
      | zero => exact Nat.le_refl _
      | succ i ihi =>
        have hle := (hkeep (start + i) (Nat.le_add_right ..) (hnever _ (Nat.le_add_right ..))).resolve_left
          (hnever _ (by omega))
        exact Nat.le_trans hle ihi
    have hlow := hlow (j - start)
    rw [Nat.add_sub_cancel' hj] at hlow
    have hlt := (hhelps j hj (hnever j hj) (hhelp.resolve_right (hnever j hj))).resolve_left (hnever _ (by omega))
    obtain ⟨i, hi, hg⟩ := ih (μ (j + 1)) (by omega) (fun k hk => hfair k (by omega)) (fun k hk => hkeep k (by omega))
      (fun k hk => hhelps k (by omega)) rfl
    exact hnot ⟨i, by omega, hg⟩

/-- An infinite run. -/
structure Path (step : σ → ℓ → σ → Prop) where
  /-- The states. -/
  state : ℕ → σ
  /-- The labels. -/
  label : ℕ → ℓ
  step (k : ℕ) : step (state k) (label k) (state (k + 1))

namespace Path

variable {step : σ → ℓ → σ → Prop} (p : Path step)

/-- The labels of the first `k` steps. -/
def trace (k : ℕ) : List ℓ := (List.range k).map p.label

@[simp] theorem trace_zero : p.trace 0 = [] := rfl

@[simp] theorem trace_succ (k : ℕ) : p.trace (k + 1) = p.trace k ++ [p.label k] := by
  simp [trace, List.range_succ]

/-- **Each beginning of a path** is a run. -/
theorem run (k : ℕ) : Run step (p.state 0) (p.trace k) (p.state k) := by
  induction k with
  | zero => exact .nil
  | succ k ih =>
    rw [trace_succ]
    exact ih.snoc (p.step k)

end Path

/-- What happens once more, from wherever the run is, happens any number of times. -/
theorem exists_reached {count : ℕ → ℕ} {target start : ℕ}
    (hgrow : ∀ k ≥ start, count k < target → ∃ j ≥ k, count k < count j) : ∃ j ≥ start, target ≤ count j := by
  induction hd : target - count start using Nat.strong_induction_on generalizing start with
  | _ d ih =>
    rcases Nat.lt_or_ge (count start) target with hlt | hge
    · obtain ⟨j, hj, hmore⟩ := hgrow start (Nat.le_refl start) hlt
      obtain ⟨i, hi, hreached⟩ := ih (target - count j) (by omega) (fun k hk => hgrow k (by omega)) rfl
      exact ⟨i, Nat.le_trans hj hi, hreached⟩
    · exact ⟨start, Nat.le_refl start, hge⟩

end Theory
