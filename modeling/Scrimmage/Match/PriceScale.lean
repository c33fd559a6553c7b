import Mathlib.Data.Int.ModEq
import Mathlib.Data.Nat.Bitwise
import Mathlib.Tactic.Linarith
import Mathlib.Tactic.Ring

/-!
# Prices and levels

`priceToLevel` and `levelToPrice` of `PriceLevels.h`. A level is the number of ticks from
the reference price up to a price, wrapped round the array of levels; a `PriceScale` has
the two settings that this depends on. The difference of two prices is a `uint32_t`, so for
a price below the reference it is `2^32` too large, and it is divided by the tick size as it
is.

## What is proved

* `toNat_priceToLevel`: the level of a price, as a number; `level_of_ticks` for a price a
  whole number of ticks from the reference, on either side.
* `scale_agrees`: above the reference, and round the end of the prices, the two functions
  undo each other as far as the levels go.
* `levels_distinct_iff`: the prices of a window have levels of their own exactly when it does
  not go across the reference, or `MaxLevels` divides the number of ticks in `2^32`.
  `shared_level` is a window of two prices on one level.
-/

namespace Scrimmage.Match

/-- The settings of a `PriceLevels`. -/
structure PriceScale where
  /-- `_tickSize`. -/
  tickSize : UInt32
  /-- `_refPrice`. -/
  refPrice : UInt32
  deriving DecidableEq

/-- `LEVEL_MASK`, a `size_t` put in a `uint16_t`. -/
def levelMask (maxLevels : ℕ) : UInt16 := (UInt64.ofNat maxLevels - 1).toUInt16

namespace PriceScale

/-- `_tickSize{1}` and `_refPrice{0}`. -/
def create : PriceScale := ⟨1, 0⟩

/-- `setReferencePrice`. -/
def setReferencePrice (s : PriceScale) (price : UInt32) : PriceScale := { s with refPrice := price }

/-- `setTickSize`. -/
def setTickSize (s : PriceScale) (tickSize : UInt32) : PriceScale := { s with tickSize := tickSize }

/-- `priceToLevel`. -/
def priceToLevel (maxLevels : ℕ) (s : PriceScale) (price : UInt32) : UInt16 :=
  ((price - s.refPrice) / s.tickSize).toUInt16 &&& levelMask maxLevels

/-- `levelToPrice`. -/
def levelToPrice (s : PriceScale) (lvl : UInt16) : UInt32 := s.refPrice + lvl.toUInt32 * s.tickSize

end PriceScale

open PriceScale

/-! ### The level of a price -/

section Levels

variable {maxLevels : ℕ} {s : PriceScale} {p q : UInt32} {l : UInt16} {d : ℕ}

theorem toNat_levelMask (hpow : maxLevels.isPowerOfTwo) (hmax : maxLevels ≤ 65536) :
    (levelMask maxLevels).toNat = maxLevels - 1 := by
  obtain ⟨k, rfl⟩ := hpow
  have hpos : 0 < 2 ^ k := Nat.two_pow_pos k
  have hone : (1 : UInt64) ≤ UInt64.ofNat (2 ^ k) := by
    rw [UInt64.le_iff_toNat_le, UInt64.toNat_ofNat', UInt64.toNat_one]
    omega
  rw [levelMask, UInt64.toNat_toUInt16, UInt64.toNat_sub_of_le _ _ hone, UInt64.toNat_ofNat', UInt64.toNat_one]
  omega

/-- A power of two up to `2^16` divides it. -/
theorem dvd_of_isPowerOfTwo (hpow : maxLevels.isPowerOfTwo) (hmax : maxLevels ≤ 65536) : maxLevels ∣ 2 ^ 16 := by
  obtain ⟨k, rfl⟩ := hpow
  exact Nat.pow_dvd_pow 2 ((Nat.pow_le_pow_iff_right Nat.one_lt_two).mp hmax)

/-- **The level of a price** is the number of ticks, round the levels. -/
theorem toNat_priceToLevel (hpow : maxLevels.isPowerOfTwo) (hmax : maxLevels ≤ 65536) (s : PriceScale) (p : UInt32) :
    (s.priceToLevel maxLevels p).toNat = (p - s.refPrice).toNat / s.tickSize.toNat % maxLevels := by
  rw [priceToLevel, UInt16.toNat_and, toNat_levelMask hpow hmax, UInt32.toNat_toUInt16, UInt32.toNat_div]
  have hdvd := dvd_of_isPowerOfTwo hpow hmax
  obtain ⟨k, rfl⟩ := hpow
  rw [Nat.and_two_pow_sub_one_eq_mod, Nat.mod_mod_of_dvd _ hdvd]

/-- A price at an offset from the reference. -/
theorem toNat_offset (hd : d < 2 ^ 32) (r : UInt32) : (r + UInt32.ofNat d - r).toNat = d := by
  rw [UInt32.add_comm, UInt32.add_sub_cancel, UInt32.toNat_ofNat', Nat.mod_eq_of_lt hd]

/-- The price of a level is its number of ticks from the reference. -/
theorem levelToPrice_eq (s : PriceScale) (l : UInt16) :
    s.levelToPrice l = s.refPrice + UInt32.ofNat (l.toNat * s.tickSize.toNat) := by
  rw [levelToPrice, UInt32.ofNat_mul, UInt32.ofNat_toNat, UInt32.ofNat_uInt16ToNat]

/-- **The level of a price above the reference**, by less than there are levels. -/
theorem level_of_offset (hpow : maxLevels.isPowerOfTwo) (hmax : maxLevels ≤ 65536)
    (hd : d < min (maxLevels * s.tickSize.toNat) (2 ^ 32)) :
    (s.priceToLevel maxLevels (s.refPrice + UInt32.ofNat d)).toNat = d / s.tickSize.toNat := by
  obtain ⟨hlevels, hrange⟩ := lt_min_iff.mp hd
  rw [toNat_priceToLevel hpow hmax, toNat_offset hrange]
  exact Nat.mod_eq_of_lt (Nat.div_lt_of_lt_mul (Nat.mul_comm _ _ ▸ hlevels))

/-- The price of the level of a price is the price, less what is over a whole tick. -/
theorem levelToPrice_of_offset (hpow : maxLevels.isPowerOfTwo) (hmax : maxLevels ≤ 65536)
    (hd : d < min (maxLevels * s.tickSize.toNat) (2 ^ 32)) :
    s.levelToPrice (s.priceToLevel maxLevels (s.refPrice + UInt32.ofNat d)) =
      s.refPrice + UInt32.ofNat d - UInt32.ofNat (d % s.tickSize.toNat) := by
  have hsplit : UInt32.ofNat d =
      UInt32.ofNat (d / s.tickSize.toNat * s.tickSize.toNat) + UInt32.ofNat (d % s.tickSize.toNat) := by
    rw [← UInt32.ofNat_add, Nat.div_add_mod']
  rw [levelToPrice_eq, level_of_offset hpow hmax hd, hsplit, ← UInt32.add_assoc, UInt32.add_sub_cancel]

/-- The level of the price of a level is the level. -/
theorem level_levelToPrice (hpow : maxLevels.isPowerOfTwo) (hmax : maxLevels ≤ 65536) (ht : 1 ≤ s.tickSize)
    (hl : l.toNat < maxLevels) (hrange : l.toNat * s.tickSize.toNat < 2 ^ 32) :
    s.priceToLevel maxLevels (s.levelToPrice l) = l := by
  have hpos : 0 < s.tickSize.toNat := UInt32.le_iff_toNat_le.mp ht
  apply UInt16.toNat_inj.mp
  rw [levelToPrice_eq, toNat_priceToLevel hpow hmax, toNat_offset hrange, Nat.mul_div_cancel _ hpos,
    Nat.mod_eq_of_lt hl]

/-- **Prices and levels agree above the reference**: for every number of levels that is a power
of two up to `65536`, every tick size and reference price, and every offset of less than
`MaxLevels` ticks, with all arithmetic modulo `2^32`, the level of the price at that offset is
the number of whole ticks, rises with the offset, and has the price less the rest; and every
level whose price is in that range is the level of its price. -/
theorem scale_agrees (hpow : maxLevels.isPowerOfTwo) (hmax : maxLevels ≤ 65536) (s : PriceScale)
    (ht : 1 ≤ s.tickSize) :
    (∀ d < min (maxLevels * s.tickSize.toNat) (2 ^ 32),
      (s.priceToLevel maxLevels (s.refPrice + UInt32.ofNat d)).toNat = d / s.tickSize.toNat ∧
      s.levelToPrice (s.priceToLevel maxLevels (s.refPrice + UInt32.ofNat d)) =
        s.refPrice + UInt32.ofNat d - UInt32.ofNat (d % s.tickSize.toNat)) ∧
    (∀ d d', d ≤ d' → d' < min (maxLevels * s.tickSize.toNat) (2 ^ 32) →
      s.priceToLevel maxLevels (s.refPrice + UInt32.ofNat d) ≤
        s.priceToLevel maxLevels (s.refPrice + UInt32.ofNat d')) ∧
    ∀ l : UInt16, l.toNat < maxLevels → l.toNat * s.tickSize.toNat < 2 ^ 32 →
      s.priceToLevel maxLevels (s.levelToPrice l) = l := by
  refine ⟨fun d hd => ⟨level_of_offset hpow hmax hd, levelToPrice_of_offset hpow hmax hd⟩,
    fun d d' hle hd' => ?_, fun l hl hrange => level_levelToPrice hpow hmax ht hl hrange⟩
  rw [UInt16.le_iff_toNat_le, level_of_offset hpow hmax (lt_of_le_of_lt hle hd'), level_of_offset hpow hmax hd']
  exact Nat.div_le_div_right hle

/-- The reference near the top of the prices: the price `20` ticks of `5` above it is `4`
more than a multiple of `2^32`, and on level `20`. -/
theorem scale_agrees_top : ((⟨5, 0xFFFFFFA0⟩ : PriceScale).priceToLevel 64 4).toNat = 20 :=
  ((scale_agrees ⟨6, rfl⟩ (by decide) ⟨5, 0xFFFFFFA0⟩ (by decide)).1 100 (by decide)).1

end Levels

/-! ### Windows -/

section Windows

variable {maxLevels : ℕ} {s : PriceScale} {p q : UInt32} {k first : ℤ}

/-- The price is `k` ticks from the reference: above it, or below if `k` is negative. -/
def PriceScale.AtTicks (s : PriceScale) (k : ℤ) (p : UInt32) : Prop :=
  (p.toNat : ℤ) = s.refPrice.toNat + k * s.tickSize.toNat

instance (s : PriceScale) (k : ℤ) (p : UInt32) : Decidable (s.AtTicks k p) := inferInstanceAs (Decidable (_ = _))

/-- How many whole ticks there are in `2^32`. -/
def PriceScale.ticksRound (s : PriceScale) : ℕ := 2 ^ 32 / s.tickSize.toNat

/-- **The level of a price so many ticks from the reference**: below it the ticks are counted
from `2^32` down. -/
theorem level_of_ticks (hpow : maxLevels.isPowerOfTwo) (hmax : maxLevels ≤ 65536) (ht : 1 ≤ s.tickSize)
    (h : s.AtTicks k p) :
    ((s.priceToLevel maxLevels p).toNat : ℤ) = (if k < 0 then s.ticksRound + k else k) % maxLevels := by
  have hpos : (0 : ℤ) < s.tickSize.toNat := by exact_mod_cast UInt32.le_iff_toNat_le.mp ht
  have hp := p.toNat_lt
  have hr := s.refPrice.toNat_lt
  have hoffset : (((2 ^ 32 - s.refPrice.toNat + p.toNat) % 2 ^ 32 : ℕ) : ℤ) =
      if k < 0 then 2 ^ 32 + k * s.tickSize.toNat else k * s.tickSize.toNat := by
    unfold AtTicks at h
    split_ifs with hk
    · have : k * s.tickSize.toNat < 0 := mul_neg_of_neg_of_pos hk hpos
      omega
    · have : 0 ≤ k * s.tickSize.toNat := mul_nonneg (not_lt.mp hk) hpos.le
      omega
  rw [toNat_priceToLevel hpow hmax, UInt32.toNat_sub, Int.natCast_emod, Int.natCast_ediv, hoffset, ticksRound]
  split_ifs with hk
  · rw [Int.add_mul_ediv_right _ _ hpos.ne', Int.natCast_ediv]
    rfl
  · rw [Int.mul_ediv_cancel _ hpos.ne']

/-- A price of a window of `MaxLevels` consecutive prices that are a whole number of ticks from
the reference, the first of them `first` ticks. -/
def PriceScale.InWindow (s : PriceScale) (maxLevels : ℕ) (first : ℤ) (p : UInt32) : Prop :=
  ∃ k, first ≤ k ∧ k < first + maxLevels ∧ s.AtTicks k p

/-- All the prices of a window fit in a `uint32_t`. -/
def PriceScale.WindowFits (s : PriceScale) (maxLevels : ℕ) (first : ℤ) : Prop :=
  ∀ k, first ≤ k → k < first + maxLevels → ∃ p, s.AtTicks k p

theorem atTicks_inj {k' : ℤ} (ht : 1 ≤ s.tickSize) (h : s.AtTicks k p) (h' : s.AtTicks k' p) : k = k' := by
  have hpos : (0 : ℤ) < s.tickSize.toNat := by exact_mod_cast UInt32.le_iff_toNat_le.mp ht
  unfold AtTicks at h h'
  exact mul_right_cancel₀ hpos.ne' (by omega)

theorem eq_of_atTicks (h : s.AtTicks k p) (h' : s.AtTicks k q) : p = q := by
  unfold AtTicks at h h'
  exact UInt32.toNat_inj.mp (by omega)

/-- Two numbers less than `m` apart with one remainder are one. -/
theorem eq_of_emod_eq {m a b : ℤ} (h : a % m = b % m) (hab : a - b < m) (hba : b - a < m) : a = b := by
  have hdvd : m ∣ a - b := Int.ModEq.dvd h.symm
  have := Int.eq_zero_of_abs_lt_dvd hdvd (abs_lt.mpr ⟨by omega, hab⟩)
  omega

/-- If `m` divides the ticks round, prices below the reference are numbered like those above. -/
theorem emod_of_dvd {m Q : ℕ} (h : m ∣ Q) (k : ℤ) : (if k < 0 then (Q : ℤ) + k else k) % m = k % m := by
  obtain ⟨c, rfl⟩ := h
  split_ifs
  · rw [Int.natCast_mul, Int.add_comm, Int.add_mul_emod_self_left]
  · rfl

/-- Across the reference there are two numbers of ticks, one on each side, that come to one
level if `m` does not divide the ticks round. -/
theorem exists_shared {m Q : ℕ} (hneg : first < 0) (hpos : 0 < first + m) (hndvd : ¬ m ∣ Q) :
    ∃ k k', first ≤ k ∧ k < 0 ∧ 0 ≤ k' ∧ k' < first + m ∧ (m : ℤ) ∣ (Q + k) - k' := by
  have hm : (0 : ℤ) < m := by omega
  have hc : 0 < (Q : ℤ) % m := by
    have hne : (Q : ℤ) % m ≠ 0 := fun h => hndvd (by exact_mod_cast Int.dvd_of_emod_eq_zero h)
    have := Int.emod_nonneg (Q : ℤ) hm.ne'
    omega
  have hcm := Int.emod_lt_of_pos (Q : ℤ) hm
  -- the ticks below the reference are as few as the window allows
  set i := max 1 ((Q : ℤ) % m - (first + m - 1)) with hi
  refine ⟨-i, Q % m - i, by omega, by omega, by omega, by omega, ?_⟩
  have : (Q : ℤ) + -i - (Q % m - i) = Q - Q % m := by omega
  rw [this]
  exact Int.dvd_self_sub_emod

/-- **When the prices of a window have levels of their own**: for every number of levels that is
a power of two up to `32768`, every tick size, every reference price and every window of
`MaxLevels` consecutive prices that are whole ticks from it, no two of them have one level
exactly when the window is above the reference, or below it, or `MaxLevels` divides the number
of whole ticks in `2^32`. -/
theorem levels_distinct_iff (hpow : maxLevels.isPowerOfTwo) (hmax : maxLevels ≤ 32768) (s : PriceScale)
    (ht : 1 ≤ s.tickSize) (hfits : s.WindowFits maxLevels first) :
    (∀ p q, s.InWindow maxLevels first p → s.InWindow maxLevels first q → p ≠ q →
      s.priceToLevel maxLevels p ≠ s.priceToLevel maxLevels q) ↔
    0 ≤ first ∨ first + maxLevels ≤ 0 ∨ maxLevels ∣ s.ticksRound := by
  have hlevel {k : ℤ} {p : UInt32} (h : s.AtTicks k p) :
      ((s.priceToLevel maxLevels p).toNat : ℤ) = (if k < 0 then s.ticksRound + k else k) % maxLevels :=
    level_of_ticks hpow (by omega) ht h
  constructor
  · intro hdistinct
    by_contra! hacross
    obtain ⟨hneg, hpos, hndvd⟩ := hacross
    obtain ⟨k, k', hk, hk0, hk0', hk', hdvd⟩ := exists_shared hneg hpos hndvd
    obtain ⟨p, hp⟩ := hfits k hk (by omega)
    obtain ⟨q, hq⟩ := hfits k' (by omega) hk'
    have hne : p ≠ q := by
      rintro rfl
      have := atTicks_inj ht hp hq
      omega
    apply hdistinct p q ⟨k, hk, by omega, hp⟩ ⟨k', by omega, hk', hq⟩ hne
    apply UInt16.toNat_inj.mp
    have heq : ((s.priceToLevel maxLevels p).toNat : ℤ) = (s.priceToLevel maxLevels q).toNat := by
      rw [hlevel hp, hlevel hq, if_pos hk0, if_neg (by omega)]
      exact (Int.modEq_iff_dvd.mpr hdvd).symm
    exact_mod_cast heq
  · rintro hcase p q ⟨k, hk, hkM, hp⟩ ⟨k', hk', hkM', hq⟩ hne heq
    have hmod := congrArg (fun l : UInt16 => (l.toNat : ℤ)) heq
    simp only [hlevel hp, hlevel hq] at hmod
    have hkk' : k = k' := by
      rcases hcase with habove | hbelow | hdvd
      · rw [if_neg (by omega), if_neg (by omega)] at hmod
        exact eq_of_emod_eq hmod (by omega) (by omega)
      · rw [if_pos (by omega), if_pos (by omega)] at hmod
        have := eq_of_emod_eq hmod (by omega) (by omega)
        omega
      · rw [emod_of_dvd hdvd, emod_of_dvd hdvd] at hmod
        exact eq_of_emod_eq hmod (by omega) (by omega)
    subst hkk'
    exact hne (eq_of_atTicks hp hq)

/-- The prices of a window, numbered from its first. -/
theorem windowFits_iff : s.WindowFits maxLevels first ↔ ∀ i < maxLevels, ∃ p, s.AtTicks (first + i) p := by
  constructor
  · intro h i hi
    exact h _ (by omega) (by omega)
  · intro h k hk hk'
    obtain ⟨i, rfl⟩ := Int.le.dest hk
    exact h i (by omega)

/-- Four prices, from the reference on. -/
theorem levels_distinct_four :
    (⟨3, 100⟩ : PriceScale).priceToLevel 4 103 ≠ (⟨3, 100⟩ : PriceScale).priceToLevel 4 109 := by
  have hfits : (⟨3, 100⟩ : PriceScale).WindowFits 4 0 := by
    refine windowFits_iff.mpr fun i hi => ⟨100 + 3 * UInt32.ofNat i, ?_⟩
    match i, hi with
    | 0, _ | 1, _ | 2, _ | 3, _ => decide
  exact (levels_distinct_iff ⟨2, rfl⟩ (by decide) ⟨3, 100⟩ (by decide) hfits).mpr (Or.inl le_rfl) 103 109
    ⟨1, by decide, by decide, by decide⟩ ⟨3, by decide, by decide, by decide⟩ (by decide)

/-- The price one tick of `3` below the reference, and the reference: both are on level `0`. -/
theorem shared_level :
    (⟨3, 3⟩ : PriceScale).WindowFits 2 (-1) ∧
    (⟨3, 3⟩ : PriceScale).priceToLevel 2 0 = (⟨3, 3⟩ : PriceScale).priceToLevel 2 3 ∧
    ¬ ∀ p q, (⟨3, 3⟩ : PriceScale).InWindow 2 (-1) p → (⟨3, 3⟩ : PriceScale).InWindow 2 (-1) q → p ≠ q →
      (⟨3, 3⟩ : PriceScale).priceToLevel 2 p ≠ (⟨3, 3⟩ : PriceScale).priceToLevel 2 q := by
  have hlevel : (⟨3, 3⟩ : PriceScale).priceToLevel 2 0 = (⟨3, 3⟩ : PriceScale).priceToLevel 2 3 := by decide
  refine ⟨windowFits_iff.mpr fun i hi => ?_, hlevel, fun hdistinct => ?_⟩
  · match i, hi with
    | 0, _ => exact ⟨0, by decide⟩
    | 1, _ => exact ⟨3, by decide⟩
  · exact hdistinct 0 3 ⟨-1, by decide, by decide, by decide⟩ ⟨0, by decide, by decide, by decide⟩ (by decide) hlevel

end Windows

end Scrimmage.Match
