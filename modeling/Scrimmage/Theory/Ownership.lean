import Mathlib.Data.List.Perm.Basic
import Mathlib.Data.List.Dedup
import Mathlib.Data.Fintype.EquivFin

/-!
# Handles and their owners

A table of handles that are open, each of which belongs to one owner: a handle is acquired when
it is not in the table, and released by its owner. `owned` are the handles of the owners looked
at, one after the other, and `others` all the rest.

## The rules

* `Ownership.acquire`, `Ownership.release`: what an owner may do.
* `Ownership.of_perm`: handles change hands.
* `Ownership.not_mem_others`: nobody else has a handle that an owner releases.
-/

namespace Theory

universe u

variable {α : Type u} {table owned owned' others : List α} {x : α}

/-- **Every handle in the table has one owner.** -/
structure Ownership (table owned others : List α) : Prop where
  nodup : table.Nodup
  perm : table.Perm (owned ++ others)

namespace Ownership

/-- Nothing is owned yet. -/
theorem initial (h : table.Nodup) : Ownership table [] table := ⟨h, .refl _⟩

/-- Handles change hands. -/
theorem of_perm (h : Ownership table owned others) (hperm : owned'.Perm owned) : Ownership table owned' others :=
  ⟨h.nodup, h.perm.trans (hperm.symm.append_right _)⟩

/-- A handle that is owned is in the table. -/
theorem mem_table (h : Ownership table owned others) (hx : x ∈ owned) : x ∈ table :=
  h.perm.mem_iff.mpr (List.mem_append_left _ hx)

/-- **A handle that is owned** is none of the others'. -/
theorem not_mem_others (h : Ownership table owned others) (hx : x ∈ owned) : x ∉ others := fun ho =>
  (List.nodup_append.mp (h.perm.nodup_iff.mp h.nodup)).2.2 x hx x ho rfl

/-- **A handle is acquired.** -/
theorem acquire (h : Ownership table owned others) (hx : x ∉ table) (hperm : owned'.Perm (x :: owned)) :
    Ownership (x :: table) owned' others where
  nodup := List.nodup_cons.mpr ⟨hx, h.nodup⟩
  perm := (h.perm.cons x).trans (hperm.symm.append_right _)

/-- The others acquire a handle. -/
theorem acquireOther (h : Ownership table owned others) (hx : x ∉ table) : Ownership (x :: table) owned (x :: others) where
  nodup := List.nodup_cons.mpr ⟨hx, h.nodup⟩
  perm := (h.perm.cons x).trans List.perm_middle.symm

variable [DecidableEq α]

/-- **A handle is released.** -/
theorem release (h : Ownership table owned others) (hperm : owned.Perm (x :: owned')) :
    Ownership (table.erase x) owned' others where
  nodup := h.nodup.erase x
  perm := by
    have := (h.perm.trans (hperm.append_right _)).erase x
    rwa [List.cons_append, List.erase_cons_head] at this

/-- The others release a handle. -/
theorem releaseOther (h : Ownership table owned others) (hx : x ∈ others) :
    Ownership (table.erase x) owned (others.erase x) where
  nodup := h.nodup.erase x
  perm := by
    have hsplit : others.Perm (x :: others.erase x) := List.perm_cons_erase hx
    have := (h.perm.trans ((hsplit.append_left owned).trans List.perm_middle)).erase x
    rwa [List.erase_cons_head] at this

/-- Of infinitely many handles, one is not in the table. -/
theorem exists_free [Infinite α] (table : List α) : ∃ x, x ∉ table := by
  obtain ⟨x, hx⟩ := Infinite.exists_notMem_finset table.toFinset
  exact ⟨x, fun hmem => hx (List.mem_toFinset.mpr hmem)⟩

end Ownership

end Theory
