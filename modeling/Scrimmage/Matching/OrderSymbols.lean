import Scrimmage.Matching.MatchingEnginePartition
import Scrimmage.Matching.PartitionOutputs
import Mathlib.Data.List.TakeWhile

/-!
# The symbol of an order

`setSymbol` of `Order.h` keeps fifteen characters of what it is given, and the report that is made of the
order names those. A partition is given an order by `ownsSymbol`, which compares whole strings.

## What is proved

* `symbol_report`: what the report names, whatever the order was before.
* `prefix_of_between`: the strings between a string and one that it begins begin with it.
* `owners_kept_iff`: when the ranges that have the symbol given are those that have the one reported.
-/

namespace Scrimmage.Matching

/-- `MAX_SYMBOL_LENGTH`. -/
def maxSymbolLength : ℕ := 16

/-- `copyLen` of `setSymbol`. -/
def copyLen (s : List UInt8) : ℕ := if s.length < maxSymbolLength - 1 then s.length else maxSymbolLength - 1

theorem copyLen_lt (s : List UInt8) : copyLen s < 16 := by
  unfold copyLen maxSymbolLength
  split <;> omega

/-- `setSymbol`: the `memcpy`, and the character that ends it. -/
def Order.setSymbol (o : Order) (s : List UInt8) : Order :=
  let copied : Vector UInt8 16 := Vector.ofFn fun i => if i.val < copyLen s then s[i.val]?.getD 0 else o.symbol[i.val]
  { o with symbol := copied.set (copyLen s) 0 (copyLen_lt s) }

/-- A configuration's `_symbolRanges`: the partitions that have a symbol. -/
def owners (ranges : List SymbolRange) (symbol : List UInt8) : List SymbolRange :=
  ranges.filter fun r => r.ownsSymbol symbol

/-! ### What is kept of a symbol -/

section Stored

variable (o : Order) (s : List UInt8)

theorem copyLen_eq : copyLen s = (s.take 15).length := by
  unfold copyLen maxSymbolLength
  rw [List.length_take]
  split <;> omega

/-- The array begins with what is kept, and its end. -/
theorem toList_setSymbol : ∃ rest, (o.setSymbol s).symbol.toList = s.take 15 ++ 0 :: rest := by
  have hlen := copyLen_lt s
  have hkept : (o.setSymbol s).symbol.toList.take (copyLen s) = s.take 15 := by
    refine List.ext_getElem? fun i => ?_
    by_cases hi : i < copyLen s
    · have hne : copyLen s ≠ i := by omega
      have hs : i < s.length ∧ i < 15 := by
        rw [copyLen_eq, List.length_take] at hi
        omega
      simp [Order.setSymbol, hi, hs, hne, Vector.toList_set, show i < 16 by omega]
    · have hi' : (s.take 15).length ≤ i := by rwa [← copyLen_eq, ← Nat.not_lt]
      rw [List.getElem?_eq_none hi', List.getElem?_eq_none]
      simp only [List.length_take, Vector.length_toList]
      omega
  have hend : (o.setSymbol s).symbol.toList[copyLen s]? = some 0 := by
    simp [Order.setSymbol, Vector.toList_set, hlen]
  refine ⟨(o.setSymbol s).symbol.toList.drop (copyLen s + 1), ?_⟩
  rw [← hkept, ← List.singleton_append, ← List.append_assoc, ← Option.toList_some, ← hend, ← List.take_add_one,
    List.take_append_drop]

/-- **What the report names**: the first fifteen characters, and no more than a C string has. -/
theorem symbol_report (now : UInt64) :
    (executionReport (o.setSymbol s) now).symbol = (s.take 15).takeWhile (· ≠ 0) := by
  obtain ⟨rest, hrest⟩ := toList_setSymbol o s
  rw [executionReport, hrest, List.takeWhile_append]
  split
  · next hall =>
    rw [List.takeWhile_cons_of_neg (by simp), List.append_nil]
    exact ((List.takeWhile_prefix _).eq_of_length hall).symm
  · rfl

end Stored

/-! ### Who has it -/

/-- **Between a string and one that it begins** are only strings that it begins. -/
theorem prefix_of_between {p q b : List UInt8} (hle : p ≤ b) (hge : b ≤ p ++ q) : p <+: b := by
  induction p generalizing b with
  | nil => exact List.nil_prefix
  | cons a p ih =>
    cases b with
    | nil => exact absurd hle (by simp)
    | cons c b =>
      rw [List.cons_append, List.cons_le_cons_iff] at hge
      rw [List.cons_le_cons_iff] at hle
      have hac : a = c := by
        rw [← UInt8.toNat_inj]
        simp only [UInt8.lt_iff_toNat_lt, ← UInt8.toNat_inj] at hle hge
        omega
      subst hac
      have hlt : ¬ a < a := by simp
      exact List.cons_prefix_cons.mpr ⟨rfl, ih (hle.resolve_left hlt).2 (hge.resolve_left hlt).2⟩

variable {r : SymbolRange} {s : List UInt8}

/-- A bound of no more than fifteen characters that lies between what is kept and the whole is what is kept. -/
theorem eq_take_of_between {b : List UInt8} (hb : b.length ≤ 15) (hlong : 15 < s.length) (hle : s.take 15 ≤ b)
    (hge : b ≤ s) : b = s.take 15 := by
  rw [← List.take_append_drop 15 s] at hge
  have hbegins := prefix_of_between hle hge
  refine (hbegins.eq_of_length_le ?_).symm
  rw [List.length_take, Nat.min_eq_left (Nat.le_of_lt hlong)]
  exact hb

/-- **When a range has what is kept of a symbol** exactly if it has the symbol. -/
theorem ownsSymbol_take_iff (hstart : r.symbolStart.length ≤ 15) (hend : r.symbolEnd.length ≤ 15) :
    r.ownsSymbol (s.take 15) = r.ownsSymbol s ↔
      s.length ≤ 15 ∨ s.take 15 ≠ r.symbolEnd ∨ r.symbolEnd < r.symbolStart := by
  rcases Nat.lt_or_ge 15 s.length with hlong | hshort
  · have hle : s.take 15 ≤ s := by
      conv_rhs => rw [← List.take_append_drop 15 s]
      exact List.le_append_left
    have hne : ¬ s ≤ s.take 15 := fun hge => by
      have heq := congrArg List.length (List.le_antisymm hle hge)
      rw [List.length_take] at heq
      omega
    have hstarts : s.take 15 ≥ r.symbolStart ↔ s ≥ r.symbolStart := by
      refine ⟨fun h => List.le_trans h hle, fun h => ?_⟩
      by_contra hnot
      have hbelow := (List.le_total r.symbolStart (s.take 15)).resolve_left hnot
      refine hnot ?_
      rw [eq_take_of_between hstart hlong hbelow h]
      exact List.le_refl _
    have hends (hother : s.take 15 ≠ r.symbolEnd) : s.take 15 ≤ r.symbolEnd ↔ s ≤ r.symbolEnd := by
      refine ⟨fun h => (List.le_total _ _).resolve_right fun habove => ?_, List.le_trans hle⟩
      exact hother (eq_take_of_between hend hlong h habove).symm
    by_cases heq : s.take 15 = r.symbolEnd
    · have hs : r.ownsSymbol s = false := by
        rw [SymbolRange.ownsSymbol, ← heq, decide_eq_false hne, Bool.and_false]
      have ht : r.ownsSymbol (s.take 15) = decide (r.symbolEnd ≥ r.symbolStart) := by
        rw [SymbolRange.ownsSymbol, heq, decide_eq_true (List.le_refl r.symbolEnd), Bool.and_true]
      rw [hs, ht, decide_eq_false_iff_not, heq]
      simp [Nat.not_le.mpr hlong]
    · have hs : r.ownsSymbol (s.take 15) = r.ownsSymbol s := by
        simp only [SymbolRange.ownsSymbol, hstarts, hends heq]
      exact iff_of_true hs (Or.inr (Or.inl heq))
  · rw [List.take_of_length_le hshort]
    exact iff_of_true rfl (Or.inl hshort)

/-- Two symbols have the same owners if each range has both or neither. -/
theorem owners_eq_iff {ranges : List SymbolRange} {t : List UInt8} :
    owners ranges t = owners ranges s ↔ ∀ r ∈ ranges, r.ownsSymbol t = r.ownsSymbol s := by
  refine ⟨fun h r hr => ?_, fun h => List.filter_congr h⟩
  have hmem : r ∈ owners ranges t ↔ r ∈ owners ranges s := by rw [h]
  simp only [owners, List.mem_filter, hr, true_and] at hmem
  exact Bool.eq_iff_iff.mpr hmem

/-- **The partitions that have an order's symbol** are those that have the symbol its report names, with bounds of
no more than fifteen characters and whatever the order was before, exactly if the symbol has no more
than fifteen itself, or no range ends with the first fifteen, but for those that have nothing. -/
theorem owners_kept_iff {ranges : List SymbolRange}
    (hbounds : ∀ r ∈ ranges, r.symbolStart.length ≤ 15 ∧ r.symbolEnd.length ≤ 15) (o : Order) (hs : 0 ∉ s) (now : UInt64) :
    owners ranges (executionReport (o.setSymbol s) now).symbol = owners ranges s ↔
      s.length ≤ 15 ∨ ∀ r ∈ ranges, s.take 15 ≠ r.symbolEnd ∨ r.symbolEnd < r.symbolStart := by
  have htext : (executionReport (o.setSymbol s) now).symbol = s.take 15 := by
    rw [symbol_report]
    refine List.takeWhile_eq_self_iff.mpr fun c hc => ?_
    have hne : c ≠ 0 := fun heq => hs (List.mem_of_mem_take (heq ▸ hc))
    simpa using hne
  rw [htext, owners_eq_iff]
  constructor
  · intro h
    refine or_iff_not_imp_left.mpr fun hlong r hr => ?_
    exact ((ownsSymbol_take_iff (hbounds r hr).1 (hbounds r hr).2).mp (h r hr)).resolve_left hlong
  · intro h r hr
    exact (ownsSymbol_take_iff (hbounds r hr).1 (hbounds r hr).2).mpr (h.imp_right fun h => h r hr)

/-- A symbol of sixteen letters, of which a range ends with the first fifteen: it is reported to another partition. -/
theorem owners_kept_long : owners [⟨[65], List.replicate 15 66⟩, ⟨[67], [90]⟩]
      (executionReport ((Order.create (Vector.replicate 16 0)).setSymbol (List.replicate 16 66)) 0).symbol ≠
    owners [⟨[65], List.replicate 15 66⟩, ⟨[67], [90]⟩] (List.replicate 16 66) := by
  rw [Ne, owners_kept_iff (by decide) (Order.create (Vector.replicate 16 0)) (by decide)]
  decide

end Scrimmage.Matching
