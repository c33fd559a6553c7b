import Mathlib.Data.List.Range
import Mathlib.Data.List.Nodup
import Mathlib.Data.Nat.Init
import Mathlib.Logic.Function.Basic

/-!
# Windows of a ring

The cells `0, …, n - 1` in a ring, and the window from the cell `t` up to, and not with,
the cell `h`: the cells of a circular buffer that are in use. A window can hold all cells
but one, `t = h` being the window of none.

## The rules

* `window_push`: moving the upper end on adds the cell it was at, as long as it does not
  come to the lower end.
* `window_pop`: moving the lower end on takes away the cell it was at.
* `upper_notMem`, `map_window_update`: the cell at the upper end is not in the window, and may be
  written.
-/

namespace Theory.Ring

/-- The next cell. -/
def succ (n i : ℕ) : ℕ := if i + 1 = n then 0 else i + 1

/-- How many cells are in the window from `t` up to `h`. -/
def size (n t h : ℕ) : ℕ := (h + n - t) % n

/-- The cells of the window, in order. -/
def window (n t h : ℕ) : List ℕ := (List.range (size n t h)).map fun k => (t + k) % n

variable {n t h i k : ℕ}

theorem succ_lt (hi : i < n) : succ n i < n := by
  unfold succ
  split_ifs <;> omega

theorem succ_inj (h : succ n i = succ n k) : i = k := by
  unfold succ at h
  split_ifs at h <;> omega

theorem succ_eq_mod (hi : i < n) : succ n i = (i + 1) % n := by
  unfold succ
  split_ifs with hn
  · rw [hn, Nat.mod_self]
  · rw [Nat.mod_eq_of_lt (by omega)]

/-- The size of a window, without a remainder. -/
theorem size_eq (ht : t < n) (hh : h < n) : size n t h = if t ≤ h then h - t else h + n - t := by
  unfold size
  split_ifs with hle
  · rw [show h + n - t = (h - t) + n by omega, Nat.add_mod_right, Nat.mod_eq_of_lt (by omega)]
  · rw [Nat.mod_eq_of_lt (by omega)]

theorem size_lt (ht : t < n) : size n t h < n := Nat.mod_lt _ (by omega)

/-- The cell `k` places on from `t`. -/
theorem add_mod_eq (ht : t < n) (hk : k < n) : (t + k) % n = if t + k < n then t + k else t + k - n := by
  split_ifs with hlt
  · exact Nat.mod_eq_of_lt hlt
  · rw [Nat.mod_eq_sub_mod (by omega), Nat.mod_eq_of_lt (by omega)]

@[simp] theorem length_window (n t h : ℕ) : (window n t h).length = size n t h := by
  simp [window]

@[simp] theorem size_self (n t : ℕ) : size n t t = 0 := by
  simp [size]

@[simp] theorem window_self (n t : ℕ) : window n t t = [] := by
  simp [window, size]

/-- The cell as far on from `t` as the window is long is its upper end. -/
theorem add_size_mod (ht : t < n) (hh : h < n) : (t + size n t h) % n = h := by
  have hlt : size n t h < n := size_lt ht
  rw [add_mod_eq ht hlt, size_eq ht hh]
  split_ifs <;> omega

theorem size_push (ht : t < n) (hh : h < n) (hne : succ n h ≠ t) : size n t (succ n h) = size n t h + 1 := by
  rw [size_eq ht (succ_lt hh), size_eq ht hh]
  unfold succ at hne ⊢
  split_ifs at hne ⊢ <;> omega

/-- The window is full when the upper end is right behind the lower. -/
theorem size_full (ht : t < n) (hh : h < n) (heq : succ n h = t) : size n t h = n - 1 := by
  rw [size_eq ht hh]
  unfold succ at heq
  split_ifs at heq ⊢ <;> omega

/-- And only then. -/
theorem size_full_iff (ht : t < n) (hh : h < n) : succ n h = t ↔ size n t h = n - 1 := by
  refine ⟨size_full ht hh, fun hsize => ?_⟩
  by_contra hne
  have hpush := size_push ht hh hne
  have hlt := size_lt (h := succ n h) ht
  omega

/-- **The upper end moves on.** -/
theorem window_push (ht : t < n) (hh : h < n) (hne : succ n h ≠ t) :
    window n t (succ n h) = window n t h ++ [h] := by
  rw [window, size_push ht hh hne, List.range_succ, List.map_append, List.map_singleton,
    add_size_mod ht hh]
  rfl

theorem size_pop (ht : t < n) (hh : h < n) (hne : t ≠ h) : size n t h = size n (succ n t) h + 1 := by
  rw [size_eq ht hh, size_eq (succ_lt ht) hh]
  unfold succ
  split_ifs <;> omega

/-- **The lower end moves on.** -/
theorem window_pop (ht : t < n) (hh : h < n) (hne : t ≠ h) :
    window n t h = t :: window n (succ n t) h := by
  rw [window, size_pop ht hh hne, List.range_succ_eq_map, List.map_cons, Nat.add_zero,
    Nat.mod_eq_of_lt ht, List.map_map]
  refine congrArg (t :: ·) (List.map_congr_left fun k _ => ?_)
  show (t + (k + 1)) % n = (succ n t + k) % n
  rw [succ_eq_mod ht, Nat.mod_add_mod, Nat.add_assoc, Nat.add_comm 1 k]

/-- **The cell at the upper end** is not in the window. -/
theorem upper_notMem (ht : t < n) (hh : h < n) : h ∉ window n t h := by
  intro hm
  obtain ⟨k, hk, heq⟩ := List.mem_map.mp hm
  rw [List.mem_range] at hk
  have hlt : size n t h < n := size_lt ht
  rw [add_mod_eq ht (by omega)] at heq
  rw [size_eq ht hh] at hk
  split_ifs at heq hk <;> omega

/-- **A write to the cell at the upper end** changes no cell of the window. -/
theorem map_window_update {α : Type*} (ht : t < n) (hh : h < n) (f : ℕ → α) (x : α) :
    (window n t h).map (Function.update f h x) = (window n t h).map f := by
  refine List.map_congr_left fun i hi => Function.update_of_ne ?_ ..
  rintro rfl
  exact upper_notMem ht hh hi

end Theory.Ring
