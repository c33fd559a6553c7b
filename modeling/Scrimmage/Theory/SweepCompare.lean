import Scrimmage.Theory.Sweep
import Mathlib.Tactic.Common

/-!
# Sweeps compared

How much a sweep does, and what becomes of it when the quantity comes in two parts, or when more
items may be touched.

## The rules

* `length_reached`: each item touched is used up, or the quantity is; so what is touched is paid for
  by what disappears.
* `left_add`, `rest_add`: a quantity that comes in two parts does what it does at once.
* `taken_mono`, `taken_le`: where more items may be touched a sweep only goes on for longer; with more
  to spend it takes no less from any item.
-/

namespace Theory.Sweep

variable {α : Type*} {ok ok' : α → Bool} {qty : α → ℕ} {q q' : ℕ} {l : List α}

/-! ### Work -/

/-- **What a sweep does is paid for**: with one more for the quantity, the items touched and those that
are there behind it are no more than those before, and no fewer than half are missing. -/
theorem length_reached (h : 0 < q ∨ reached ok qty q l ≠ []) :
    (reached ok qty q l).length + (rest ok qty q l).length + (if 0 < left ok qty q l then 1 else 0) ≤ l.length + 1 ∧
    l.length + 1 ≤ 2 * (reached ok qty q l).length + (rest ok qty q l).length +
      (if 0 < left ok qty q l then 1 else 0) := by
  induction l generalizing q with
  | nil =>
    have hq : 0 < q := by simpa [reached] using h
    simp [reached, rest, left, hq]
  | cons a l ih =>
    by_cases ha : ok a
    · simp only [reached, rest, left, ha, if_true]
      by_cases hlt : qty a < q
      · have ih := ih (q := q - qty a) (.inl (by omega))
        simp only [if_pos hlt, List.length_cons]
        omega
      · by_cases heq : qty a = q
        · simp only [if_neg hlt, if_pos heq, List.length_cons, List.length_nil, List.length_map, Nat.lt_irrefl,
            if_false]
          omega
        · simp only [if_neg hlt, if_neg heq, List.length_cons, List.length_nil, List.length_map, Nat.lt_irrefl,
            if_false]
          omega
    · have hq : 0 < q := by simpa [reached, ha] using h
      simp [reached, rest, left, ha, hq]

/-- A sweep that touches nothing leaves all as it is. -/
theorem rest_of_reached_nil (h : reached ok qty q l = []) : rest ok qty q l = l.map fun b => (b, qty b) := by
  cases l with
  | nil => rfl
  | cons a l =>
    have ha := reached_eq_nil_iff.mp h a rfl
    simp [rest, ha]

/-! ### In two parts -/

/-- What is left behind the entries of a list, each with its quantity. -/
theorem left_map_pair (q : ℕ) (l : List α) :
    left (ok ∘ Prod.fst) Prod.snd q (l.map fun b => (b, qty b)) = left ok qty q l := left_map _ q l

/-- What is left of these entries. -/
theorem rest_map_pair (q : ℕ) (l : List α) : rest (ok ∘ Prod.fst) Prod.snd q (l.map fun b => (b, qty b)) =
    (rest ok qty q l).map (Prod.map (fun b => (b, qty b)) id) := rest_map _ q l

/-- **What is left of a quantity in two parts**: what is left of the first, and of the second. -/
theorem left_add (hq' : 0 < q') (l : List α) :
    left ok qty (q + q') l = left ok qty q l + left (ok ∘ Prod.fst) Prod.snd q' (rest ok qty q l) := by
  induction l generalizing q with
  | nil => rfl
  | cons a l ih =>
    by_cases ha : ok a
    · simp only [left, rest, ha, if_true]
      by_cases hlt : qty a < q
      · rw [if_pos hlt, if_pos (by omega), if_pos hlt, show q + q' - qty a = q - qty a + q' by omega]
        exact ih
      · rw [if_neg hlt, if_neg hlt]
        by_cases heq : qty a = q
        · rw [if_pos heq, if_pos (by omega), left_map_pair, show q + q' - qty a = q' by omega, Nat.zero_add]
        · rw [if_neg heq]
          simp only [left, Function.comp_apply, ha, if_true, left_map_pair, Nat.zero_add]
          by_cases hmore : qty a < q + q'
          · rw [if_pos hmore, if_pos (by omega), show q' - (qty a - q) = q + q' - qty a by omega]
          · rw [if_neg hmore, if_neg (by omega)]
    · simp [left, rest, ha]

/-- **What is left of the list** behind a quantity in two parts. -/
theorem rest_add (hq' : 0 < q') (l : List α) :
    rest ok qty (q + q') l = (rest (ok ∘ Prod.fst) Prod.snd q' (rest ok qty q l)).map fun r => (r.1.1, r.2) := by
  induction l generalizing q with
  | nil => rfl
  | cons a l ih =>
    have hmap (q : ℕ) : (rest (ok ∘ Prod.fst) Prod.snd q (l.map fun b => (b, qty b))).map (fun r => (r.1.1, r.2)) =
        rest ok qty q l := by
      rw [rest_map_pair, List.map_map]
      exact List.map_id _
    have hkeep : ((l.map fun b => (b, qty b)).map fun r => (r, r.2)).map (fun r => (r.1.1, r.2)) =
        l.map fun b => (b, qty b) := by
      simp
    by_cases ha : ok a
    · simp only [rest, ha, if_true]
      by_cases hlt : qty a < q
      · rw [if_pos hlt, if_pos (by omega), show q + q' - qty a = q - qty a + q' by omega]
        exact ih
      · rw [if_neg hlt]
        by_cases heq : qty a = q
        · rw [if_pos heq, if_pos (by omega), hmap, show q + q' - qty a = q' by omega]
        · rw [if_neg heq]
          simp only [rest, Function.comp_apply, ha, if_true]
          by_cases hmore : qty a < q + q'
          · rw [if_pos hmore, if_pos (by omega), show q' - (qty a - q) = q + q' - qty a by omega, hmap]
          · rw [if_neg hmore]
            by_cases hsame : qty a = q + q'
            · rw [if_pos hsame, if_neg (by omega), if_pos (by omega), hkeep]
            · rw [if_neg hsame, if_neg (by omega), if_neg (by omega), List.map_cons, hkeep,
                show qty a - q - q' = qty a - (q + q') by omega]
    · simp [rest, ha]

/-- With something left of the first part, the second is not touched. -/
theorem left_rest_of_pos (h : 0 < left ok qty q l) (q' : ℕ) :
    left (ok ∘ Prod.fst) Prod.snd q' (rest ok qty q l) = q' := by
  rw [rest_of_left_pos h, left_map_pair]
  have hfront := List.head?_dropWhile_not ok l
  cases hdrop : l.dropWhile ok with
  | nil => rfl
  | cons a l' =>
    rw [hdrop] at hfront
    simp [left, show ok a = false from hfront]

/-! ### Further -/

/-- No item that is left has more than it had. -/
theorem le_of_mem_rest {x : α × ℕ} (h : x ∈ rest ok qty q l) : x.2 ≤ qty x.1 := by
  have hmap {l : List α} (h : x ∈ l.map fun b => (b, qty b)) : x.2 ≤ qty x.1 := by
    obtain ⟨b, -, rfl⟩ := List.mem_map.mp h
    exact Nat.le_refl _
  induction l generalizing q with
  | nil => cases h
  | cons a l ih =>
    simp only [rest] at h
    split_ifs at h with ha hlt heq
    · exact ih h
    · exact hmap h
    · rcases List.mem_cons.mp h with rfl | h
      · exact Nat.sub_le ..
      · exact hmap h
    · exact hmap h

/-- **Where more items may be touched** a sweep takes the same from the first ones. -/
theorem taken_mono (h : ∀ a ∈ l, ok a = true → ok' a = true) : taken ok qty q l <+: taken ok' qty q l := by
  induction l generalizing q with
  | nil => exact List.prefix_rfl
  | cons a l ih =>
    have ih (q : ℕ) := ih (q := q) fun b hb => h b (List.mem_cons_of_mem a hb)
    simp only [taken]
    by_cases ha : ok a
    · rw [if_pos ha, if_pos (h a (List.mem_cons_self ..) ha)]
      split_ifs
      · exact (List.prefix_cons_inj _).mpr (ih _)
      · exact List.prefix_rfl
    · rw [if_neg ha]
      exact List.nil_prefix

/-- **With more to spend** a sweep takes no less from any item. -/
theorem taken_le (hq : q ≤ q') (l : List α) : ∃ l', l' <+: taken ok qty q' l ∧
    List.Forall₂ (fun x y => x.1 = y.1 ∧ x.2 ≤ y.2) (taken ok qty q l) l' := by
  induction l generalizing q q' with
  | nil => exact ⟨[], List.prefix_rfl, .nil⟩
  | cons a l ih =>
    simp only [taken]
    by_cases ha : ok a
    · rw [if_pos ha, if_pos ha]
      by_cases hlt : qty a < q
      · obtain ⟨l', hl', hle⟩ := ih (Nat.sub_le_sub_right hq (qty a))
        rw [if_pos hlt, if_pos (hlt.trans_le hq)]
        exact ⟨(a, qty a) :: l', (List.prefix_cons_inj _).mpr hl', .cons ⟨rfl, Nat.le_refl _⟩ hle⟩
      · rw [if_neg hlt]
        split_ifs
        · exact ⟨[(a, qty a)], ⟨_, rfl⟩, .cons ⟨rfl, Nat.not_lt.mp hlt⟩ .nil⟩
        · exact ⟨[(a, q')], List.prefix_rfl, .cons ⟨rfl, hq⟩ .nil⟩
    · rw [if_neg ha, if_neg ha]
      exact ⟨[], List.prefix_rfl, .nil⟩

end Theory.Sweep
