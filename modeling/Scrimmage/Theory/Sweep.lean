import Mathlib.Algebra.BigOperators.Group.List.Basic
import Mathlib.Data.List.TakeWhile
import Mathlib.Data.List.Infix
import Mathlib.Algebra.Ring.Nat

/-!
# Greedy sweeps

A quantity `q` is spent on the items of a list, in order: each item takes as much as it
can hold, the sweep stops at the first item it may not touch, and when nothing is left
of `q`. `reached` are the items it touches, `left` what is left of `q`, and `rest` what
is left of the list, every item with the quantity it still has; `taken` says how much each
item touched gives.

The items are of any type; `ok` says which may be touched and `qty` how much they hold.
A sweep touches the first item it may touch even if `q` is `0`.
-/

namespace Theory.Sweep

variable {α : Type*} (ok : α → Bool) (qty : α → ℕ)

/-- The items touched. -/
def reached : ℕ → List α → List α
  | _, [] => []
  | q, a :: l => if ok a then a :: (if qty a < q then reached (q - qty a) l else []) else []

/-- What is left of the quantity. -/
def left : ℕ → List α → ℕ
  | q, [] => q
  | q, a :: l => if ok a then (if qty a < q then left (q - qty a) l else 0) else q

/-- What is left of the list: its items that are not used up, each with what it still holds. -/
def rest : ℕ → List α → List (α × ℕ)
  | _, [] => []
  | q, a :: l =>
    if ok a then
      if qty a < q then rest (q - qty a) l
      else if qty a = q then l.map fun b => (b, qty b)
      else (a, qty a - q) :: l.map fun b => (b, qty b)
    else (a :: l).map fun b => (b, qty b)

/-- The items touched, each with what is taken from it. -/
def taken : ℕ → List α → List (α × ℕ)
  | _, [] => []
  | q, a :: l => if ok a then (if qty a < q then (a, qty a) :: taken (q - qty a) l else [(a, q)]) else []

/-- The total the items of a list hold. -/
def total (l : List α) : ℕ := (l.map qty).sum

@[simp] theorem total_nil : total qty ([] : List α) = 0 := rfl

@[simp] theorem total_cons (a : α) (l : List α) : total qty (a :: l) = qty a + total qty l := by
  simp [total]

@[simp] theorem total_append (l l' : List α) : total qty (l ++ l') = total qty l + total qty l' := by
  simp [total]

variable {ok qty} {q : ℕ} {a : α} {l l' done : List α}

/-! ### The functions on the list's own items -/

section Congr

variable {ok' : α → Bool} {qty' : α → ℕ} (hok : ∀ a ∈ l, ok a = ok' a) (hqty : ∀ a ∈ l, qty a = qty' a)

include hok hqty

theorem reached_congr (q : ℕ) : reached ok qty q l = reached ok' qty' q l := by
  induction l generalizing q with
  | nil => rfl
  | cons a l ih =>
    have ih := ih (fun b hb => hok b (List.mem_cons_of_mem a hb)) fun b hb => hqty b (List.mem_cons_of_mem a hb)
    simp only [reached, hok a (List.mem_cons_self ..), hqty a (List.mem_cons_self ..), ih]

theorem left_congr (q : ℕ) : left ok qty q l = left ok' qty' q l := by
  induction l generalizing q with
  | nil => rfl
  | cons a l ih =>
    have ih := ih (fun b hb => hok b (List.mem_cons_of_mem a hb)) fun b hb => hqty b (List.mem_cons_of_mem a hb)
    simp only [left, hok a (List.mem_cons_self ..), hqty a (List.mem_cons_self ..), ih]

theorem rest_congr (q : ℕ) : rest ok qty q l = rest ok' qty' q l := by
  induction l generalizing q with
  | nil => rfl
  | cons a l ih =>
    have ih := ih (fun b hb => hok b (List.mem_cons_of_mem a hb)) fun b hb => hqty b (List.mem_cons_of_mem a hb)
    have hmap : (l.map fun b => (b, qty b)) = l.map fun b => (b, qty' b) :=
      List.map_congr_left fun b hb => by rw [hqty b (List.mem_cons_of_mem a hb)]
    simp only [rest, hok a (List.mem_cons_self ..), hqty a (List.mem_cons_self ..), ih, hmap, List.map_cons]

end Congr

/-! ### The items under another name -/

section Map

variable {β : Type*} (f : β → α)

theorem reached_map (q : ℕ) (l : List β) :
    reached ok qty q (l.map f) = (reached (ok ∘ f) (qty ∘ f) q l).map f := by
  induction l generalizing q with
  | nil => rfl
  | cons b l ih =>
    simp only [List.map_cons, reached, Function.comp_apply, ih]
    split_ifs <;> simp

theorem left_map (q : ℕ) (l : List β) : left ok qty q (l.map f) = left (ok ∘ f) (qty ∘ f) q l := by
  induction l generalizing q with
  | nil => rfl
  | cons b l ih => simp only [List.map_cons, left, Function.comp_apply, ih]

theorem rest_map (q : ℕ) (l : List β) :
    rest ok qty q (l.map f) = (rest (ok ∘ f) (qty ∘ f) q l).map (Prod.map f id) := by
  induction l generalizing q with
  | nil => rfl
  | cons b l ih =>
    simp only [List.map_cons, rest, Function.comp_apply, ih]
    split_ifs <;> simp

end Map

/-! ### Items used up at the front -/

section Done

variable (hok : ∀ a ∈ done, ok a = true) (hq : done = [] ∨ total qty done < q)

include hok hq

/-- Items that are used up, with something left to spend, are a first part of the sweep. -/
theorem reached_append : reached ok qty q (done ++ l) = done ++ reached ok qty (q - total qty done) l := by
  induction done generalizing q with
  | nil => simp
  | cons a done ih =>
    have hlt : qty a + total qty done < q := by simpa using hq
    have ih := ih (q := q - qty a) (fun b hb => hok b (List.mem_cons_of_mem a hb)) (Or.inr (by omega))
    simp only [List.cons_append, reached, hok a (List.mem_cons_self ..), if_true,
      show qty a < q by omega, ih, total_cons, Nat.sub_sub]

theorem left_append : left ok qty q (done ++ l) = left ok qty (q - total qty done) l := by
  induction done generalizing q with
  | nil => simp
  | cons a done ih =>
    have hlt : qty a + total qty done < q := by simpa using hq
    have ih := ih (q := q - qty a) (fun b hb => hok b (List.mem_cons_of_mem a hb)) (Or.inr (by omega))
    simp only [List.cons_append, left, hok a (List.mem_cons_self ..), if_true,
      show qty a < q by omega, ih, total_cons, Nat.sub_sub]

theorem rest_append : rest ok qty q (done ++ l) = rest ok qty (q - total qty done) l := by
  induction done generalizing q with
  | nil => simp
  | cons a done ih =>
    have hlt : qty a + total qty done < q := by simpa using hq
    have ih := ih (q := q - qty a) (fun b hb => hok b (List.mem_cons_of_mem a hb)) (Or.inr (by omega))
    simp only [List.cons_append, rest, hok a (List.mem_cons_self ..), if_true,
      show qty a < q by omega, ih, total_cons, Nat.sub_sub]

end Done

/-! ### What is reached -/

theorem ok_of_mem_reached (h : a ∈ reached ok qty q l) : ok a = true := by
  induction l generalizing q with
  | nil => simp [reached] at h
  | cons b l ih =>
    simp only [reached] at h
    split_ifs at h with hb hlt
    · rcases List.mem_cons.mp h with rfl | h
      · exact hb
      · exact ih h
    · rwa [List.mem_singleton.mp h]
    · cases h

/-- Nothing is reached exactly when the first item may not be touched. -/
theorem reached_eq_nil_iff : reached ok qty q l = [] ↔ ∀ a ∈ l.head?, ok a = false := by
  cases l with
  | nil => simp [reached]
  | cons b l => cases hb : ok b <;> simp [reached, hb]

theorem reached_prefix (q : ℕ) (l : List α) : reached ok qty q l <+: l := by
  induction l generalizing q with
  | nil => simp [reached]
  | cons b l ih =>
    simp only [reached]
    split_ifs with hb hlt
    · exact List.prefix_cons_inj b |>.mpr (ih _)
    · exact ⟨l, rfl⟩
    · exact List.nil_prefix

/-- **Which items are reached**: the item after `pre` exactly when it and those before it
may be touched, and those before it hold less than `q`. -/
theorem reached_split_iff {pre post : List α} :
    pre ++ [a] <+: reached ok qty q (pre ++ a :: post) ↔
      (∀ b ∈ pre ++ [a], ok b = true) ∧ (pre = [] ∨ total qty pre < q) := by
  constructor
  · intro h
    refine ⟨fun b hb => ok_of_mem_reached (h.subset hb), ?_⟩
    induction pre generalizing q with
    | nil => exact Or.inl rfl
    | cons b pre ih =>
      right
      simp only [List.cons_append, reached] at h
      split_ifs at h with hb hlt
      · have ih := ih ((List.prefix_cons_inj b).mp h)
        rcases ih with rfl | ih
        · simpa using hlt
        · rw [total_cons]; omega
      · have := h.length_le
        simp at this
      · have := h.length_le
        simp at this
  · rintro ⟨hok, hq⟩
    rw [reached_append (fun b hb => hok b (List.mem_append_left _ hb)) hq]
    refine (List.prefix_append_right_inj pre).mpr ?_
    simp [reached, hok a (by simp)]

/-- An item reached, and the items reached before it. -/
theorem split_of_reached {pre post : List α} (h : reached ok qty q l = pre ++ a :: post) :
    ∃ rest, l = pre ++ a :: rest ∧ (∀ b ∈ pre ++ [a], ok b = true) ∧ (pre = [] ∨ total qty pre < q) := by
  obtain ⟨rest, hrest⟩ : reached ok qty q l <+: l := reached_prefix q l
  have hl : l = pre ++ a :: (post ++ rest) := by rw [← hrest, h]; simp
  have hpre : pre ++ [a] <+: reached ok qty q (pre ++ a :: (post ++ rest)) := by
    rw [← hl, h]
    exact ⟨post, by simp⟩
  exact ⟨post ++ rest, hl, reached_split_iff.mp hpre⟩

/-- The items reached are those before which less than `q` is held, all of which may be touched. -/
theorem mem_reached_iff : a ∈ reached ok qty q l ↔
    ∃ pre post, l = pre ++ a :: post ∧ (∀ b ∈ pre ++ [a], ok b = true) ∧
      (pre = [] ∨ total qty pre < q) := by
  constructor
  · intro h
    obtain ⟨pre, post, hsplit⟩ := List.append_of_mem h
    exact ⟨pre, split_of_reached hsplit⟩
  · rintro ⟨pre, post, rfl, h⟩
    exact (reached_split_iff.mpr h).subset (by simp)

/-! ### What is left -/

/-- **What is left of `q`**: what the items at the front that may be touched do not hold. -/
theorem left_eq (q : ℕ) (l : List α) : left ok qty q l = q - total qty (l.takeWhile ok) := by
  induction l generalizing q with
  | nil => simp [left]
  | cons a l ih =>
    simp only [left, List.takeWhile_cons]
    split_ifs with ha hlt
    · rw [ih, total_cons, Nat.sub_sub]
    · rw [total_cons]; omega
    · simp

/-- Something is left of `q` exactly when the items that may be touched hold less. -/
theorem left_pos_iff : 0 < left ok qty q l ↔ total qty (l.takeWhile ok) < q := by
  rw [left_eq]
  exact Nat.sub_pos_iff_lt

/-- **When something is left of `q`** the sweep has used up the items that may be touched,
and stands at the first that may not. -/
theorem rest_of_left_pos (h : 0 < left ok qty q l) :
    rest ok qty q l = (l.dropWhile ok).map fun b => (b, qty b) := by
  induction l generalizing q with
  | nil => simp [rest]
  | cons a l ih =>
    simp only [left] at h
    simp only [rest, List.dropWhile_cons]
    split_ifs at h ⊢ with ha hlt
    · exact ih h
    · exact absurd h (Nat.lt_irrefl 0)
    · exact absurd h (Nat.lt_irrefl 0)
    · rfl

/-- What is left of the list are items of the list. -/
theorem rest_sublist (q : ℕ) (l : List α) : ((rest ok qty q l).map Prod.fst).Sublist l := by
  have hmap (l : List α) : (l.map fun b => (b, qty b)).map Prod.fst = l := by
    simp [Function.comp_def]
  induction l generalizing q with
  | nil => simp [rest]
  | cons a l ih =>
    simp only [rest]
    split_ifs
    · exact (ih _).trans (List.sublist_cons_self a l)
    · rw [hmap]; exact List.sublist_cons_self a l
    · rw [List.map_cons, hmap]
    · rw [hmap]

/-! ### What is taken -/

/-- What is taken and what is left are the quantity. -/
theorem sum_taken (q : ℕ) (l : List α) : ((taken ok qty q l).map Prod.snd).sum + left ok qty q l = q := by
  induction l generalizing q with
  | nil => simp [taken, left]
  | cons a l ih =>
    simp only [taken, left]
    split_ifs with ha hlt
    · have ih := ih (q - qty a)
      rw [List.map_cons, List.sum_cons]
      omega
    · simp
    · simp

/-- **How a sweep divides the list**: items `used` up, perhaps one that something is taken
from, and items `untouched`, one after the other. -/
structure Split (ok : α → Bool) (qty : α → ℕ) (q : ℕ) (l used : List α) (last : Option (α × ℕ))
    (untouched : List α) : Prop where
  list : l = used ++ (last.map Prod.fst).toList ++ untouched
  reached : reached ok qty q l = used ++ (last.map Prod.fst).toList
  taken : taken ok qty q l = (used.map fun a => (a, qty a)) ++ last.toList
  rest : rest ok qty q l =
    (last.map fun x => (x.1, qty x.1 - x.2)).toList ++ untouched.map fun a => (a, qty a)
  last : ∀ x ∈ last, 0 < x.2 ∧ x.2 < qty x.1

/-- An item used up comes before the others. -/
theorem Split.cons {used untouched : List α} {last : Option (α × ℕ)} (ha : ok a = true) (hlt : qty a < q)
    (h : Split ok qty (q - qty a) l used last untouched) :
    Split ok qty q (a :: l) (a :: used) last untouched where
  list := by rw [h.list]; rfl
  reached := by simp [Sweep.reached, ha, hlt, h.reached]
  taken := by simp [Sweep.taken, ha, hlt, h.taken]
  rest := by simp [Sweep.rest, ha, hlt, h.rest]
  last := h.last

/-- **A quantity is spent greedily**: each item is used up before the next is touched. -/
theorem exists_split (ok : α → Bool) (qty : α → ℕ) (hq : 0 < q) (l : List α) :
    ∃ used last untouched, Split ok qty q l used last untouched := by
  induction l generalizing q with
  | nil => exact ⟨[], none, [], rfl, rfl, rfl, rfl, fun x hx => by cases hx⟩
  | cons a l ih =>
    cases ha : ok a with
    | false =>
      refine ⟨[], none, a :: l, rfl, ?_, ?_, ?_, fun x hx => by cases hx⟩
      · simp [Sweep.reached, ha]
      · simp [Sweep.taken, ha]
      · simp [Sweep.rest, ha]
    | true =>
      rcases Nat.lt_trichotomy (qty a) q with hlt | heq | hgt
      · obtain ⟨used, last, untouched, h⟩ := ih (Nat.sub_pos_of_lt hlt)
        exact ⟨a :: used, last, untouched, h.cons ha hlt⟩
      · -- the item and the quantity are used up together
        refine ⟨[a], none, l, rfl, ?_, ?_, ?_, fun x hx => by cases hx⟩
        · simp [Sweep.reached, ha, heq]
        · simp [Sweep.taken, ha, heq]
        · simp [Sweep.rest, ha, heq]
      · have hnot : ¬ qty a < q := Nat.lt_asymm hgt
        refine ⟨[], some (a, q), l, rfl, ?_, ?_, ?_, ?_⟩
        · simp [Sweep.reached, ha, hnot]
        · simp [Sweep.taken, ha, hnot]
        · simp [Sweep.rest, ha, hnot, hgt.ne']
        · intro x hx
          obtain rfl : (a, q) = x := Option.some.inj hx
          exact ⟨hq, hgt⟩

end Theory.Sweep
