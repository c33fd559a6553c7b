import Mathlib.Data.List.Count
import Mathlib.Tactic.Common
import Mathlib.Algebra.Ring.Nat

/-!
# The symbols of a partition

`ownsSymbol` of `MatchingEnginePartition.h`, and the ranges of `MatchingEngineConfig` it is
given: which partition the orders of a symbol go to. A `std::string` is the list of its
characters, compared as `std::string` compares, in lexicographic order as unsigned.

A range is given by two letters, and is meant to have all symbols that begin with a letter
of the range. A symbol of more than one letter that begins with the last letter of a range
is greater than that letter alone, so the range does not have it, and no other has.

## What is proved

* `ownsSymbol_letters`: which symbols a range of letters has.
* `one_owner_iff`: of ranges that tile the alphabet exactly one has a symbol exactly when
  the symbol is a single letter or does not begin with the last letter of a range.
  `no_owner` is a symbol that none has.
-/

namespace Scrimmage.Matching

/-- The range of a `MatchingEnginePartition`: of its fields, those `ownsSymbol` reads. -/
structure SymbolRange where
  /-- `_symbolStart`. -/
  symbolStart : List UInt8
  /-- `_symbolEnd`. -/
  symbolEnd : List UInt8
  deriving DecidableEq

/-- `ownsSymbol`. -/
def SymbolRange.ownsSymbol (r : SymbolRange) (symbol : List UInt8) : Bool :=
  decide (symbol ≥ r.symbolStart) && decide (symbol ≤ r.symbolEnd)

/-- The range `{"first","last"}` of two letters. -/
def SymbolRange.letters (r : UInt8 × UInt8) : SymbolRange := ⟨[r.1], [r.2]⟩

/-- `'A'`. -/
def letterA : UInt8 := 65

/-- `'Z'`. -/
def letterZ : UInt8 := 90

/-- **Ranges that tile the letters** from `c` to `Z`: the first starts at `c`, each next one
at the letter after the end of the one before, and the last ends at `Z`. -/
def TilesFrom (c : UInt8) : List (UInt8 × UInt8) → Prop
  | [] => c = letterZ + 1
  | r :: ranges => r.1 = c ∧ r.1 ≤ r.2 ∧ r.2 ≤ letterZ ∧ TilesFrom (r.2 + 1) ranges

instance decidableTilesFrom : (c : UInt8) → (ranges : List (UInt8 × UInt8)) → Decidable (TilesFrom c ranges)
  | _, [] => inferInstanceAs (Decidable (_ = _))
  | c, r :: ranges =>
    have := decidableTilesFrom (r.2 + 1) ranges
    inferInstanceAs (Decidable (r.1 = c ∧ r.1 ≤ r.2 ∧ r.2 ≤ letterZ ∧ TilesFrom (r.2 + 1) ranges))

variable {c : UInt8} {rest : List UInt8} {ranges : List (UInt8 × UInt8)}

/-- **What a range of letters has**: of the symbols that begin with its last letter, only
that letter. -/
theorem ownsSymbol_letters (r : UInt8 × UInt8) :
    (SymbolRange.letters r).ownsSymbol (c :: rest) = true ↔ r.1 ≤ c ∧ (c < r.2 ∨ c = r.2 ∧ rest = []) := by
  have hstart : c :: rest ≥ [r.1] ↔ r.1 ≤ c := by
    simp only [ge_iff_le, List.cons_le_cons_iff, List.nil_le, and_true, UInt8.le_iff_toNat_le,
      UInt8.lt_iff_toNat_lt, ← UInt8.toNat_inj]
    omega
  have hend : c :: rest ≤ [r.2] ↔ c < r.2 ∨ c = r.2 ∧ rest = [] := by
    simp [List.cons_le_cons_iff]
  simp only [SymbolRange.ownsSymbol, SymbolRange.letters, Bool.and_eq_true, decide_eq_true_eq, hstart, hend]

/-- The letter after one of the alphabet. -/
theorem toNat_succ_letter {e : UInt8} (h : e ≤ letterZ) : (e + 1).toNat = e.toNat + 1 := by
  have hle : e.toNat ≤ 90 := UInt8.le_iff_toNat_le.mp h
  rw [UInt8.toNat_add, UInt8.toNat_one]
  omega

/-- Ranges that tile the letters from one on end at it or after. -/
theorem le_end_of_tilesFrom (h : TilesFrom c ranges) {r : UInt8 × UInt8} (hr : r ∈ ranges) : c.toNat ≤ r.2.toNat := by
  induction ranges generalizing c with
  | nil => cases hr
  | cons r' ranges ih =>
    obtain ⟨rfl, hle, hz, htiles⟩ := h
    rw [UInt8.le_iff_toNat_le] at hle
    rcases List.mem_cons.mp hr with rfl | hr
    · exact hle
    · have := ih htiles hr
      rw [toNat_succ_letter hz] at this
      omega

/-- **How many ranges have a symbol**, of those that tile the letters from `first` on. -/
theorem countP_owners {first : UInt8} (h : TilesFrom first ranges) (hc : c ≤ letterZ) :
    (ranges.countP fun r => (SymbolRange.letters r).ownsSymbol (c :: rest)) =
      if first ≤ c ∧ (rest = [] ∨ ranges.all fun r => c != r.2) then 1 else 0 := by
  induction ranges generalizing first with
  | nil =>
    have hlt : ¬ first ≤ c := by
      rw [show first = letterZ + 1 from h, UInt8.le_iff_toNat_le, toNat_succ_letter (UInt8.le_refl _)]
      have := UInt8.le_iff_toNat_le.mp hc
      omega
    simp [hlt]
  | cons r ranges ih =>
    obtain ⟨rfl, hle, hz, htiles⟩ := h
    have hnext := toNat_succ_letter hz
    have hends (r' : UInt8 × UInt8) (hr' : r' ∈ ranges) : r.2.toNat + 1 ≤ r'.2.toNat := by
      rw [← hnext]
      exact le_end_of_tilesFrom htiles hr'
    simp only [List.countP_cons, ih htiles, ownsSymbol_letters, List.all_cons, Bool.and_eq_true, List.all_eq_true,
      bne_iff_ne, UInt8.le_iff_toNat_le, UInt8.lt_iff_toNat_lt, hnext] at hle ⊢
    rcases Nat.lt_trichotomy c.toNat r.2.toNat with hlt | heq | hgt
    · -- a letter before the last of this range
      have hne : c ≠ r.2 := fun heq => by rw [heq] at hlt; omega
      have hnot (r' : UInt8 × UInt8) (hr' : r' ∈ ranges) : c ≠ r'.2 := fun heq => by
        have := hends r' hr'
        rw [← heq] at this
        omega
      have hright : rest = [] ∨ c ≠ r.2 ∧ ∀ r' ∈ ranges, c ≠ r'.2 := Or.inr ⟨hne, hnot⟩
      simp only [hlt, hright, show ¬ r.2.toNat + 1 ≤ c.toNat by omega, true_or, false_and, and_true, if_false,
        Nat.zero_add]
    · -- the last letter of this range
      obtain rfl : c = r.2 := UInt8.toNat_inj.mp heq
      simp only [hle, Nat.lt_irrefl, show ¬ r.2.toNat + 1 ≤ r.2.toNat by omega, ne_eq, not_true_eq_false, true_and,
        false_or, false_and, or_false, if_false, Nat.zero_add]
    · -- a letter after this range
      have hne : c ≠ r.2 := fun heq => by rw [heq] at hgt; omega
      simp only [ne_eq, hne, not_false_eq_true, show ¬ c.toNat < r.2.toNat by omega,
        show r.2.toNat + 1 ≤ c.toNat by omega, show r.1.toNat ≤ c.toNat by omega, true_and, false_and, or_false,
        if_false, Nat.add_zero]

/-- **When a symbol has one owner**: of partitions with ranges of letters that tile the
alphabet exactly one owns a symbol of capital letters exactly when it is a single letter or
does not begin with the last letter of a range. -/
theorem one_owner_iff (h : TilesFrom letterA ranges) {symbol : List UInt8} (hne : symbol ≠ [])
    (hcapital : ∀ c ∈ symbol, letterA ≤ c ∧ c ≤ letterZ) :
    (ranges.countP fun r => (SymbolRange.letters r).ownsSymbol symbol) = 1 ↔
      symbol.length = 1 ∨ ∀ r ∈ ranges, symbol.head? ≠ some r.2 := by
  cases symbol with
  | nil => exact absurd rfl hne
  | cons c rest =>
    obtain ⟨hA, hZ⟩ := hcapital c (List.mem_cons_self ..)
    have hhead : (∀ r ∈ ranges, (c :: rest).head? ≠ some r.2) ↔ ranges.all fun r => c != r.2 := by simp
    rw [countP_owners h hZ, hhead]
    simp only [hA, true_and, List.length_cons, Nat.add_eq_right, List.length_eq_zero_iff]
    split_ifs with hone
    · exact iff_of_true rfl hone
    · exact iff_of_false (by decide) hone

/-- The ranges `A`-`E` and `F`-`Z`, and the symbols that begin with `D`. -/
theorem one_owner_da :
    ([(65, 69), (70, 90)].countP fun r => (SymbolRange.letters r).ownsSymbol [68, 65]) = 1 := by
  refine (one_owner_iff (by decide) (List.cons_ne_nil _ _) ?_).mpr (Or.inr ?_)
  · exact List.forall_mem_cons.mpr ⟨by decide, List.forall_mem_singleton.mpr (by decide)⟩
  · exact List.forall_mem_cons.mpr ⟨by decide, List.forall_mem_singleton.mpr (by decide)⟩

/-- With these ranges no partition owns the symbol `EA`. -/
theorem no_owner :
    TilesFrom letterA [(65, 69), (70, 90)] ∧
      ([(65, 69), (70, 90)].countP fun r => (SymbolRange.letters r).ownsSymbol [69, 65]) = 0 := by
  decide

end Scrimmage.Matching
