import Mathlib.Data.List.Basic
import Mathlib.Data.List.Nodup
import Mathlib.Tactic.Common

/-!
# Lists with keys

A list of items with a key each, as a table. `upsert` puts an item in the place of the
first with its key, or at the end if there is none.

`mem_upsert` and `nodup_upsert` are what is to be known of it while no two items of the
list have one key: its items are the new one and those with other keys, and no two have
one key. What a removal of a key does is a `List.filter`.
-/

namespace Theory.KeyedList

variable {α κ : Type*} [DecidableEq κ] (key : α → κ)

/-- Put `x` in the place of the first item with its key, or at the end. -/
def upsert (x : α) : List α → List α
  | [] => [x]
  | y :: l => if key y = key x then x :: l else y :: upsert x l

variable {key} {x y : α} {l : List α}

theorem upsert_of_notMem (h : key x ∉ l.map key) : upsert key x l = l ++ [x] := by
  induction l with
  | nil => rfl
  | cons y l ih =>
    rw [List.map_cons, List.mem_cons, not_or] at h
    rw [upsert, if_neg fun heq => h.1 heq.symm, ih h.2, List.cons_append]

/-- An item replaced leaves the keys as they are. -/
theorem map_upsert_of_mem (h : key x ∈ l.map key) : (upsert key x l).map key = l.map key := by
  induction l with
  | nil => cases h
  | cons y l ih =>
    rw [upsert]
    split_ifs with hy
    · rw [List.map_cons, List.map_cons, hy]
    · rw [List.map_cons, List.mem_cons] at h
      rw [List.map_cons, List.map_cons, ih (h.resolve_left fun heq => hy heq.symm)]

/-- **No two items have one key.** -/
theorem nodup_upsert (h : (l.map key).Nodup) : ((upsert key x l).map key).Nodup := by
  by_cases hx : key x ∈ l.map key
  · rwa [map_upsert_of_mem hx]
  · rw [upsert_of_notMem hx, List.map_append, List.nodup_append]
    refine ⟨h, List.nodup_singleton _, fun k hk k' hk' hkk => hx ?_⟩
    rwa [← List.mem_singleton.mp hk', ← hkk]

/-- **The items** are the new one, and those with other keys. -/
theorem mem_upsert (h : (l.map key).Nodup) : y ∈ upsert key x l ↔ y = x ∨ y ∈ l ∧ key y ≠ key x := by
  induction l with
  | nil => simp [upsert]
  | cons z l ih =>
    rw [List.map_cons, List.nodup_cons] at h
    rw [upsert]
    split_ifs with hz
    · have hne (hy : y ∈ l) : key y ≠ key x := fun heq => h.1 (by
        rw [hz, ← heq]
        exact List.mem_map_of_mem hy)
      simp only [List.mem_cons]
      constructor
      · rintro (rfl | hy)
        · exact Or.inl rfl
        · exact Or.inr ⟨Or.inr hy, hne hy⟩
      · rintro (rfl | ⟨rfl | hy, hk⟩)
        · exact Or.inl rfl
        · exact absurd hz hk
        · exact Or.inr hy
    · simp only [List.mem_cons, ih h.2]
      constructor
      · rintro (rfl | rfl | ⟨hy, hk⟩)
        · exact Or.inr ⟨Or.inl rfl, hz⟩
        · exact Or.inl rfl
        · exact Or.inr ⟨Or.inr hy, hk⟩
      · rintro (rfl | ⟨rfl | hy, hk⟩)
        · exact Or.inr (Or.inl rfl)
        · exact Or.inl rfl
        · exact Or.inr (Or.inr ⟨hy, hk⟩)

end Theory.KeyedList
