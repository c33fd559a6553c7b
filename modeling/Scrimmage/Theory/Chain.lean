import Mathlib.Logic.Function.Basic
import Mathlib.Data.List.Nodup

/-!
# Null-terminated chains

Intrusive singly linked lists, as the values of a `next` field over any type of
references. `Seg next a l b` says that following `next` from `a` visits the references
`l`, one after the other, and arrives at `b`; a chain is a segment that arrives at the
null reference, which is none of those visited.

## The rules

* `Seg.unique`, `Chain.unique`: `next` and the ends determine what is visited, so a chain
  visits nothing twice (`Chain.nodup`).
* `Seg.update`, `Chain.update`: a write to a reference not visited changes nothing.
* `Chain.append`, `Chain.unlink`: a reference added at the end, and one taken out.
-/

namespace Theory

universe u

variable {α : Type u}

/-- Following `next` from `a` visits `l`, in order, and arrives at `b`. -/
def Seg (next : α → α) : α → List α → α → Prop
  | a, [], b => a = b
  | a, x :: l, b => a = x ∧ Seg next (next x) l b

/-- Following `next` from `a` visits `l`, in order, and ends in `null`. -/
structure Chain (next : α → α) (null a : α) (l : List α) : Prop where
  seg : Seg next a l null
  null_notMem : null ∉ l

variable {next next' : α → α} {null a b c x y : α} {l l' l₁ l₂ : List α}

/-! ### Segments -/

namespace Seg

@[simp] theorem nil_iff : Seg next a [] b ↔ a = b := Iff.rfl

@[simp] theorem cons_iff : Seg next a (x :: l) b ↔ a = x ∧ Seg next (next x) l b := Iff.rfl

theorem append_iff : Seg next a (l₁ ++ l₂) b ↔ ∃ c, Seg next a l₁ c ∧ Seg next c l₂ b := by
  induction l₁ generalizing a with
  | nil => simp
  | cons x l₁ ih =>
    rw [List.cons_append, cons_iff, ih]
    constructor
    · rintro ⟨rfl, c, h₁, h₂⟩
      exact ⟨c, ⟨rfl, h₁⟩, h₂⟩
    · rintro ⟨c, ⟨rfl, h₁⟩, h₂⟩
      exact ⟨rfl, c, h₁, h₂⟩

/-- A segment that visits `x` arrives at it, and goes on from it. -/
theorem split_iff : Seg next a (l₁ ++ x :: l₂) b ↔ Seg next a l₁ x ∧ Seg next (next x) l₂ b := by
  rw [append_iff]
  constructor
  · rintro ⟨c, h₁, rfl, h₂⟩
    exact ⟨h₁, h₂⟩
  · rintro ⟨h₁, h₂⟩
    exact ⟨x, h₁, rfl, h₂⟩

theorem congr (h : Seg next a l b) (heq : ∀ x ∈ l, next' x = next x) : Seg next' a l b := by
  induction l generalizing a with
  | nil => exact h
  | cons x l ih =>
    obtain ⟨rfl, h⟩ := h
    refine ⟨rfl, ?_⟩
    rw [heq a (List.mem_cons_self ..)]
    exact ih h fun y hy => heq y (List.mem_cons_of_mem a hy)

theorem update [DecidableEq α] (h : Seg next a l b) (hx : x ∉ l) : Seg (Function.update next x y) a l b := by
  apply h.congr
  intro z hz
  apply Function.update_of_ne
  rintro rfl
  exact hx hz

/-- Of two segments from one start, to an end neither visits, the one is the other. -/
theorem unique (h : Seg next a l b) (h' : Seg next a l' b) (hb : b ∉ l) (hb' : b ∉ l') : l = l' := by
  induction l generalizing a l' with
  | nil =>
    cases l' with
    | nil => rfl
    | cons y l' =>
      obtain ⟨rfl, -⟩ := h'
      rw [nil_iff] at h
      subst h
      exact absurd (List.mem_cons_self ..) hb'
  | cons x l ih =>
    obtain ⟨rfl, h⟩ := h
    cases l' with
    | nil =>
      rw [nil_iff] at h'
      subst h'
      exact absurd (List.mem_cons_self ..) hb
    | cons y l' =>
      obtain ⟨rfl, h'⟩ := h'
      rw [ih h h' (fun hm => hb (List.mem_cons_of_mem a hm)) fun hm => hb' (List.mem_cons_of_mem a hm)]

end Seg

/-! ### Chains -/

namespace Chain

@[simp] theorem nil_iff : Chain next null a [] ↔ a = null :=
  ⟨fun h => h.seg, fun h => ⟨h, List.not_mem_nil⟩⟩

theorem cons_iff : Chain next null a (x :: l) ↔ a = x ∧ x ≠ null ∧ Chain next null (next x) l := by
  constructor
  · rintro ⟨⟨rfl, h⟩, hn⟩
    rw [List.mem_cons, not_or] at hn
    exact ⟨rfl, fun hx => hn.1 hx.symm, h, hn.2⟩
  · rintro ⟨rfl, hx, h⟩
    refine ⟨⟨rfl, h.seg⟩, ?_⟩
    rw [List.mem_cons, not_or]
    exact ⟨fun hn => hx hn.symm, h.null_notMem⟩

/-- **What a chain visits is determined** by where it starts. -/
theorem unique (h : Chain next null a l) (h' : Chain next null a l') : l = l' :=
  h.seg.unique h'.seg h.null_notMem h'.null_notMem

/-- A chain is empty exactly when it starts at null. -/
theorem eq_nil_iff (h : Chain next null a l) : l = [] ↔ a = null := by
  constructor
  · rintro rfl
    exact h.seg
  · rintro rfl
    exact h.unique (nil_iff.mpr rfl)

/-- The chain from a reference visited. -/
theorem drop (h : Chain next null a (l₁ ++ x :: l₂)) : Chain next null x (x :: l₂) := by
  obtain ⟨-, h₂⟩ := Seg.split_iff.mp h.seg
  exact ⟨⟨rfl, h₂⟩, fun hm => h.null_notMem (List.mem_append_right _ hm)⟩

/-- **A chain visits nothing twice**: from the second visit it would go on as from the first. -/
theorem nodup (h : Chain next null a l) : l.Nodup := by
  induction l generalizing a with
  | nil => exact List.nodup_nil
  | cons x l ih =>
    obtain ⟨rfl, -, htail⟩ := cons_iff.mp h
    refine List.nodup_cons.mpr ⟨fun hx => ?_, ih htail⟩
    obtain ⟨l₁, l₂, rfl⟩ := List.append_of_mem hx
    have hlen := congrArg List.length (htail.drop.unique h)
    simp only [List.length_cons, List.length_append] at hlen
    omega

theorem congr (h : Chain next null a l) (heq : ∀ x ∈ l, next' x = next x) : Chain next' null a l :=
  ⟨h.seg.congr heq, h.null_notMem⟩

section Update

variable [DecidableEq α]

theorem update (h : Chain next null a l) (hx : x ∉ l) : Chain (Function.update next x y) null a l :=
  ⟨h.seg.update hx, h.null_notMem⟩

/-- **A reference is added at the end** of a chain that is not empty. -/
theorem append (h : Chain next null a (l ++ [x])) (hy : y ∉ l ++ [x]) (hnull : y ≠ null) :
    Chain (Function.update (Function.update next y null) x y) null a (l ++ [x] ++ [y]) := by
  obtain ⟨hl, -⟩ := Seg.split_iff.mp h.seg
  have hx : x ∉ l := fun hx => (List.nodup_append.mp h.nodup).2.2 x hx x (List.mem_singleton_self x) rfl
  have hyl : y ∉ l := fun hm => hy (List.mem_append_left _ hm)
  have hyx : y ≠ x := fun hyx => hy (by simp [hyx])
  refine ⟨?_, fun hm => ?_⟩
  · rw [List.append_assoc, List.singleton_append, Seg.split_iff]
    refine ⟨(hl.update hyl).update hx, ?_⟩
    rw [Function.update_self, Seg.cons_iff]
    refine ⟨rfl, ?_⟩
    rw [Function.update_of_ne hyx, Function.update_self]
    rfl
  · rcases List.mem_append.mp hm with hm | hm
    · exact h.null_notMem hm
    · exact hnull (List.mem_singleton.mp hm).symm

/-- **A reference is taken out**: the one before it is linked past it. -/
theorem unlink (h : Chain next null a (l₁ ++ x :: y :: l₂)) :
    Chain (Function.update next x (next y)) null a (l₁ ++ x :: l₂) := by
  have hnd := h.nodup
  obtain ⟨h₁, h₂⟩ := Seg.split_iff.mp h.seg
  obtain ⟨-, h₂⟩ := Seg.cons_iff.mp h₂
  have hx₁ : x ∉ l₁ := fun hx => (List.nodup_append.mp hnd).2.2 x hx x (List.mem_cons_self ..) rfl
  have hx₂ : x ∉ l₂ := fun hx =>
    (List.nodup_cons.mp (List.nodup_append.mp hnd).2.1).1 (List.mem_cons_of_mem y hx)
  refine ⟨?_, fun hm => h.null_notMem ?_⟩
  · rw [Seg.split_iff, Function.update_self]
    exact ⟨h₁.update hx₁, h₂.update hx₂⟩
  · rcases List.mem_append.mp hm with hm | hm
    · exact List.mem_append_left _ hm
    · rcases List.mem_cons.mp hm with rfl | hm
      · simp
      · simp [hm]

end Update

end Chain

end Theory
