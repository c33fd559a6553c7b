import Mathlib.Logic.Function.Basic
import Mathlib.Tactic.Common

/-!
# Direct-mapped tables

A table that holds the value of a key in the cell `slot k`, and not the key. Several keys
may have one cell; the table is of use as long as no two of the keys it is to hold do.
`Tracks` says so of the cells and of the keys that are live, each with its value: every
live key has a cell of its own with its value in it, and the other cells are vacant.

## The rules

* `Tracks.taken_iff`: a cell is taken exactly when it is that of a live key.
* `Tracks.insert`, `Tracks.erase`: writing the value of a key into a vacant cell, and
  clearing the cell of a live key.
-/

namespace Theory.DirectMap

variable {κ ι ν : Type*}

/-- **The cells hold the live keys**, each in a cell of its own. -/
structure Tracks (slot : κ → ι) (vacant : ν → Prop) (cells : ι → ν) (live : κ → Option ν) : Prop where
  found : ∀ k v, live k = some v → cells (slot k) = v
  present : ∀ k v, live k = some v → ¬ vacant v
  alone : ∀ k k', (live k).isSome → (live k').isSome → slot k = slot k' → k = k'
  held : ∀ i, ¬ vacant (cells i) → ∃ k, (live k).isSome ∧ slot k = i

namespace Tracks

variable {slot : κ → ι} {vacant : ν → Prop} {cells : ι → ν} {live : κ → Option ν} {k : κ} {v : ν}

theorem empty (slot : κ → ι) (h : ∀ i, vacant (cells i)) : Tracks slot vacant cells fun _ => none where
  found k v h := by cases h
  present k v h := by cases h
  alone k k' h := by cases h
  held i hi := absurd (h i) hi

/-- The cell of a key is taken exactly when a live key has it. -/
theorem taken_iff (h : Tracks slot vacant cells live) (k : κ) :
    ¬ vacant (cells (slot k)) ↔ ∃ k', (live k').isSome ∧ slot k' = slot k := by
  constructor
  · exact h.held _
  · rintro ⟨k', hlive, hslot⟩
    obtain ⟨v, hv⟩ := Option.isSome_iff_exists.mp hlive
    rw [← hslot, h.found k' v hv]
    exact h.present k' v hv

variable [DecidableEq κ] [DecidableEq ι]

/-- **A key gets a vacant cell.** -/
theorem insert (h : Tracks slot vacant cells live) (hv : ¬ vacant v) (hfree : vacant (cells (slot k))) :
    Tracks slot vacant (Function.update cells (slot k) v) (Function.update live k (some v)) := by
  have hother {k' : κ} (hlive : (live k').isSome) : slot k' ≠ slot k :=
    fun hslot => (h.taken_iff k).mpr ⟨k', hlive, hslot⟩ hfree
  refine ⟨fun k' v' hv' => ?_, fun k' v' hv' => ?_, fun k₁ k₂ h₁ h₂ hslot => ?_, fun i hi => ?_⟩
  · by_cases hk : k' = k
    · subst hk
      rw [Function.update_self, Option.some.injEq] at hv'
      rw [Function.update_self, hv']
    · rw [Function.update_of_ne hk] at hv'
      rw [Function.update_of_ne (hother (by rw [hv']; rfl)), h.found k' v' hv']
  · by_cases hk : k' = k
    · subst hk
      rw [Function.update_self, Option.some.injEq] at hv'
      rwa [← hv']
    · rw [Function.update_of_ne hk] at hv'
      exact h.present k' v' hv'
  · by_cases hk₁ : k₁ = k <;> by_cases hk₂ : k₂ = k
    · rw [hk₁, hk₂]
    · rw [Function.update_of_ne hk₂] at h₂
      exact absurd (by rw [← hslot, hk₁]) (hother h₂)
    · rw [Function.update_of_ne hk₁] at h₁
      exact absurd (by rw [hslot, hk₂]) (hother h₁)
    · rw [Function.update_of_ne hk₁] at h₁
      rw [Function.update_of_ne hk₂] at h₂
      exact h.alone k₁ k₂ h₁ h₂ hslot
  · by_cases hik : i = slot k
    · exact ⟨k, by simp, hik.symm⟩
    · rw [Function.update_of_ne hik] at hi
      obtain ⟨k', hlive, hslot⟩ := h.held i hi
      have hne : k' ≠ k := fun heq => hik (by rw [← hslot, heq])
      exact ⟨k', by rwa [Function.update_of_ne hne], hslot⟩

/-- **The cell of a live key is cleared.** -/
theorem erase (h : Tracks slot vacant cells live) (hk : (live k).isSome) (hv : vacant v) :
    Tracks slot vacant (Function.update cells (slot k) v) (Function.update live k none) := by
  have hold {k' : κ} {v' : ν} (hv' : Function.update live k none k' = some v') : live k' = some v' ∧ k' ≠ k := by
    by_cases hne : k' = k
    · rw [hne, Function.update_self] at hv'
      cases hv'
    · rw [Function.update_of_ne hne] at hv'
      exact ⟨hv', hne⟩
  have hlive {k' : κ} (h' : (Function.update live k none k').isSome) : (live k').isSome := by
    obtain ⟨v', hv'⟩ := Option.isSome_iff_exists.mp h'
    rw [(hold hv').1]
    rfl
  refine ⟨fun k' v' hv' => ?_, fun k' v' hv' => h.present k' v' (hold hv').1,
    fun k₁ k₂ h₁ h₂ => h.alone k₁ k₂ (hlive h₁) (hlive h₂), fun i hi => ?_⟩
  · obtain ⟨hv', hne⟩ := hold hv'
    have hslot : slot k' ≠ slot k := fun hslot => hne (h.alone k' k (by rw [hv']; rfl) hk hslot)
    rw [Function.update_of_ne hslot, h.found k' v' hv']
  · by_cases hik : i = slot k
    · rw [hik, Function.update_self] at hi
      exact absurd hv hi
    · rw [Function.update_of_ne hik] at hi
      obtain ⟨k', hlive', hslot⟩ := h.held i hi
      have hne : k' ≠ k := fun heq => hik (by rw [← hslot, heq])
      exact ⟨k', by rwa [Function.update_of_ne hne], hslot⟩

end Tracks

end Theory.DirectMap
