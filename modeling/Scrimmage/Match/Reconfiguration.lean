import Scrimmage.Match.LevelTotals
import Scrimmage.Match.PriceScale

/-!
# Prices of the orders that rest

The settings of a `PriceLevels` against the orders linked on its levels. An order is put on
the level that its price has then; `setTickSize` and `setReferencePrice` change which price
that is, and look at no order. `reset` sets the reference price to zero and empties the levels.

## The model

* A `PricedBook` is the two sides of a book with their settings, the queues their levels are
  to hold, and the price of the order in each entry.
* `PricedStep` has a constructor for each call.

## What is proved

* `addresses_iff`: a price is that of a level, and the level that of the price, if it is as many
  whole ticks above the reference.
* `addressable_run_iff`: along a run every linked order stays on the level of its price, and
  the level on the price of the order, exactly when the reference price is changed only
  while no order is linked, and the tick size while none is linked but at the reference.
  `address_lost` is an order whose level has another price.
-/

namespace Scrimmage.Match

open Theory

/-! ### Addresses -/

/-- **The price and the level stand for each other.** -/
def PriceScale.Addresses (maxLevels : ℕ) (s : PriceScale) (p : UInt32) (l : ℕ) : Prop :=
  (s.priceToLevel maxLevels p).toNat = l ∧ s.levelToPrice (UInt16.ofNat l) = p

/-- `LEVEL_MASK` leaves the number of ticks of the price as it is. -/
def PriceScale.FitsMask (maxLevels : ℕ) (s : PriceScale) (p : UInt32) : Prop :=
  (p - s.refPrice).toNat / s.tickSize.toNat &&& (levelMask maxLevels).toNat =
    (p - s.refPrice).toNat / s.tickSize.toNat

/-- The price is a whole number of ticks above the reference, and less than `MaxLevels`. -/
def PriceScale.OnTick (maxLevels : ℕ) (s : PriceScale) (p : UInt32) : Prop :=
  (p - s.refPrice).toNat % s.tickSize.toNat = 0 ∧ (p - s.refPrice).toNat < maxLevels * s.tickSize.toNat

section Addresses

variable {maxLevels l : ℕ} {s : PriceScale} {p : UInt32}

theorem toNat_priceToLevel_and (s : PriceScale) (p : UInt32) :
    (s.priceToLevel maxLevels p).toNat =
      (p - s.refPrice).toNat / s.tickSize.toNat &&& (levelMask maxLevels).toNat := by
  have hlt : (p - s.refPrice).toNat / s.tickSize.toNat &&& (levelMask maxLevels).toNat < 2 ^ 16 :=
    lt_of_le_of_lt Nat.and_le_right (UInt16.toNat_lt _)
  rw [PriceScale.priceToLevel, UInt16.toNat_and, UInt32.toNat_toUInt16, UInt32.toNat_div]
  rw [← Nat.mod_eq_of_lt hlt, Nat.and_mod_two_pow, Nat.mod_eq_of_lt (UInt16.toNat_lt (levelMask maxLevels))]

/-- The price of a level that is no higher than the ticks of `p`. -/
theorem levelToPrice_eq_iff (hle : l ≤ (p - s.refPrice).toNat / s.tickSize.toNat) (hl : l < 65536) :
    s.levelToPrice (UInt16.ofNat l) = p ↔ (p - s.refPrice).toNat = l * s.tickSize.toNat := by
  have hlt : l * s.tickSize.toNat < 2 ^ 32 :=
    lt_of_le_of_lt ((Nat.mul_le_mul_right _ hle).trans (Nat.div_mul_le_self ..)) (UInt32.toNat_lt _)
  have hnat : (UInt16.ofNat l).toNat = l := UInt16.toNat_ofNat_of_lt' hl
  rw [levelToPrice_eq, hnat]
  constructor
  · rintro rfl
    exact toNat_offset hlt s.refPrice
  · intro heq
    rw [← heq, UInt32.ofNat_toNat, UInt32.add_comm, UInt32.sub_add_cancel]

/-- **When a price and a level stand for each other.** -/
theorem addresses_iff (ht : 1 ≤ s.tickSize) :
    s.Addresses maxLevels p l ↔
      (p - s.refPrice).toNat = l * s.tickSize.toNat ∧ l &&& (levelMask maxLevels).toNat = l := by
  have hpos : 0 < s.tickSize.toNat := UInt32.le_iff_toNat_le.mp ht
  unfold PriceScale.Addresses
  rw [toNat_priceToLevel_and]
  constructor
  · rintro ⟨hlevel, hprice⟩
    have hle : l ≤ (p - s.refPrice).toNat / s.tickSize.toNat := hlevel ▸ Nat.and_le_left
    have hlt : l < 65536 := lt_of_le_of_lt (hlevel ▸ Nat.and_le_right) (UInt16.toNat_lt _)
    have hoffset := (levelToPrice_eq_iff hle hlt).mp hprice
    refine ⟨hoffset, ?_⟩
    rwa [hoffset, Nat.mul_div_cancel _ hpos] at hlevel
  · rintro ⟨hoffset, hmask⟩
    have hticks : (p - s.refPrice).toNat / s.tickSize.toNat = l := by rw [hoffset, Nat.mul_div_cancel _ hpos]
    have hlt : l < 65536 := lt_of_le_of_lt (hmask ▸ Nat.and_le_right) (UInt16.toNat_lt _)
    exact ⟨by rw [hticks, hmask], (levelToPrice_eq_iff hticks.ge hlt).mpr hoffset⟩

/-- **A new order** on the level of its price. -/
theorem addresses_priceToLevel_iff (ht : 1 ≤ s.tickSize) (hp : (p - s.refPrice).toNat % s.tickSize.toNat = 0) :
    s.Addresses maxLevels p (s.priceToLevel maxLevels p).toNat ↔ s.FitsMask maxLevels p := by
  have hpos : 0 < s.tickSize.toNat := UInt32.le_iff_toNat_le.mp ht
  have hwhole : (p - s.refPrice).toNat = (p - s.refPrice).toNat / s.tickSize.toNat * s.tickSize.toNat := by
    rw [Nat.div_mul_cancel (Nat.dvd_of_mod_eq_zero hp)]
  rw [addresses_iff ht, toNat_priceToLevel_and, PriceScale.FitsMask]
  constructor
  · rintro ⟨hoffset, -⟩
    exact (Nat.eq_of_mul_eq_mul_right hpos (hwhole.symm.trans hoffset)).symm
  · intro hfits
    rw [hfits]
    exact ⟨hwhole, hfits⟩

/-- Another tick size keeps the level of a price at the reference only. -/
theorem addresses_setTickSize_iff {t : UInt32} (ht : 1 ≤ s.tickSize) (ht' : 1 ≤ t) (h : s.Addresses maxLevels p l) :
    (s.setTickSize t).Addresses maxLevels p l ↔ t = s.tickSize ∨ l = 0 := by
  obtain ⟨hoffset, hmask⟩ := (addresses_iff ht).mp h
  rw [addresses_iff (s := s.setTickSize t) ht']
  show (p - s.refPrice).toNat = l * t.toNat ∧ _ ↔ _
  rw [hoffset, ← UInt32.toNat_inj]
  simp only [hmask, and_true, mul_eq_mul_left_iff]
  exact or_congr_left eq_comm

/-- Another reference price keeps the level of no price. -/
theorem addresses_setReferencePrice_iff {r : UInt32} (h : s.Addresses maxLevels p l) :
    (s.setReferencePrice r).Addresses maxLevels p l ↔ r = s.refPrice := by
  constructor
  · rintro ⟨-, hprice⟩
    have heq : r + (UInt16.ofNat l).toUInt32 * s.tickSize = s.refPrice + (UInt16.ofNat l).toUInt32 * s.tickSize :=
      hprice.trans h.2.symm
    exact (UInt32.add_left_inj _).mp heq
  · rintro rfl
    exact h

/-- With a number of levels that is a power of two up to `65536`, no price in range is masked. -/
theorem fitsMask_of_isPowerOfTwo (hpow : maxLevels.isPowerOfTwo) (hmax : maxLevels ≤ 65536)
    (hp : s.OnTick maxLevels p) : s.FitsMask maxLevels p := by
  have hlt : (p - s.refPrice).toNat / s.tickSize.toNat < maxLevels :=
    Nat.div_lt_of_lt_mul (Nat.mul_comm _ _ ▸ hp.2)
  rw [PriceScale.FitsMask, toNat_levelMask hpow hmax]
  obtain ⟨k, rfl⟩ := hpow
  rw [Nat.and_two_pow_sub_one_eq_mod, Nat.mod_eq_of_lt hlt]

end Addresses

/-! ### The model -/

/-- `reset`, of the levels. -/
def PriceLevels.reset (_ : PriceLevels) : PriceLevels := PriceLevels.create

/-- `reset`, of the settings: the tick size stays. -/
def PriceScale.reset (s : PriceScale) : PriceScale := { s with refPrice := 0 }

/-- `reset` of a side. -/
def SharedLevels.reset (b : SharedLevels) (x : BookSide) : SharedLevels :=
  { b with side := Function.update b.side x (b.side x).reset }

/-- A side loses its entries. -/
def Queues.reset (q : Queues) (x : BookSide) : Queues :=
  { q with queue := fun y k => if y = x then [] else q.queue y k }

/-- **The sides of a book with their settings**, and the orders in the pool. -/
structure PricedBook where
  /-- `_bids`, `_asks` and `_pool`. -/
  levels : SharedLevels
  /-- `_tickSize` and `_refPrice` of a side. -/
  scale : BookSide → PriceScale
  /-- The queues of the levels. -/
  queues : Queues
  /-- The price of the order in an entry. -/
  price : UInt16 → UInt32

namespace PricedBook

/-- No order is linked; the entries hold anything. -/
def create (pool : OrderPool) (price : UInt16 → UInt32) : PricedBook where
  levels := SharedLevels.create pool
  scale _ := PriceScale.create
  queues := Queues.empty
  price := price

/-- A side gets other settings. -/
def setScale (b : PricedBook) (x : BookSide) (s : PriceScale) : PricedBook :=
  { b with scale := Function.update b.scale x s }

/-- `reset` of a side. -/
def reset (b : PricedBook) (x : BookSide) : PricedBook :=
  { b.setScale x (b.scale x).reset with levels := b.levels.reset x, queues := b.queues.reset x }

/-- An order of price `p` is put in an entry, and appended to the level of its price. -/
def append (maxLevels : ℕ) (b : PricedBook) (x : BookSide) (p : UInt32) (idx : UInt16) : PricedBook :=
  let lvlIdx := (b.scale x).priceToLevel maxLevels p
  { b with
    levels := b.levels.append x lvlIdx idx
    queues := b.queues.append x lvlIdx.toNat idx
    price := Function.update b.price idx p }

/-- **Every linked order is addressable**: on each level of each side, the orders that the
level's list runs through have the price of the level, and the level is that of their price. -/
def Addressable (maxLevels : ℕ) (b : PricedBook) : Prop :=
  ∀ x, ∀ l < maxLevels, ∃ queue, Chain b.levels.pool.next noIndex ((b.levels.side x).levels l).head queue ∧
    ∀ i ∈ queue, (b.scale x).Addresses maxLevels (b.price i) l

end PricedBook

/-- A call on a side. -/
inductive PricedCall where
  /-- `setTickSize(tickSize)`. -/
  | setTickSize (x : BookSide) (tickSize : UInt32)
  /-- `setReferencePrice(price)`. -/
  | setReferencePrice (x : BookSide) (price : UInt32)
  /-- `reset()`. -/
  | reset (x : BookSide)
  /-- `appendToLevel(priceToLevel(price), poolIdx, pool)`. -/
  | append (x : BookSide) (price : UInt32) (poolIdx : UInt16)
  /-- `unlinkFromLevel(poolIdx, pool)`. -/
  | unlink (x : BookSide) (poolIdx : UInt16)

/-- **The calls**: a tick size is positive; the order appended is linked on neither side, and
its price is a whole number of ticks above the reference, less than `MaxLevels`; the level of
the entry unlinked is one there is. -/
inductive PricedStep (maxLevels poolSize : ℕ) : PricedBook → PricedCall → PricedBook → Prop where
  | setTickSize {b : PricedBook} (x : BookSide) {t : UInt32} : 1 ≤ t →
    PricedStep maxLevels poolSize b (.setTickSize x t) (b.setScale x ((b.scale x).setTickSize t))
  | setReferencePrice {b : PricedBook} (x : BookSide) (r : UInt32) :
    PricedStep maxLevels poolSize b (.setReferencePrice x r) (b.setScale x ((b.scale x).setReferencePrice r))
  | reset {b : PricedBook} (x : BookSide) : PricedStep maxLevels poolSize b (.reset x) (b.reset x)
  | append {b : PricedBook} (x : BookSide) {p : UInt32} {idx : UInt16} :
    (b.scale x).OnTick maxLevels p → idx.toNat < poolSize → b.queues.Unlinked idx →
    PricedStep maxLevels poolSize b (.append x p idx) (b.append maxLevels x p idx)
  | unlink {b : PricedBook} {x : BookSide} {idx : UInt16} {r : Bool} {levels : SharedLevels} :
    (b.levels.pool idx).levelIndex.toNat < maxLevels → b.levels.unlink x idx = some (r, levels) →
    PricedStep maxLevels poolSize b (.unlink x idx) { b with levels := levels, queues := b.queues.unlink x idx }

/-- **The call keeps the addresses**: another tick size comes while no order of the side is
linked but on level `0`, another reference price while none is; and `LEVEL_MASK` leaves the
number of ticks of an order appended as it is. -/
def KeepsAddresses (maxLevels : ℕ) (b : PricedBook) : PricedCall → Prop
  | .setTickSize x t => t = (b.scale x).tickSize ∨ ∀ l < maxLevels, l ≠ 0 → b.queues.queue x l = []
  | .setReferencePrice x r => r = (b.scale x).refPrice ∨ ∀ l < maxLevels, b.queues.queue x l = []
  | .append x p _ => (b.scale x).FitsMask maxLevels p
  | .reset _ | .unlink _ _ => True

/-! ### What the calls do -/

/-- **A side that is reset** holds no order, and the other the orders it held. -/
theorem Refines.reset {maxLevels : ℕ} {b : SharedLevels} {q : Queues} (h : Refines maxLevels b q) (x : BookSide) :
    Refines maxLevels (b.reset x) (q.reset x) := by
  have hsub {y : BookSide} {k : ℕ} {i : UInt16} (hi : i ∈ (q.reset x).queue y k) : i ∈ q.queue y k := by
    simp only [Queues.reset] at hi
    split_ifs at hi
    · cases hi
    · exact hi
  refine ⟨fun y k => ?_, fun y k z m i hi hi' => h.disjoint y k z m i (hsub hi) (hsub hi'),
    fun y k i hi => h.linked_seen y k i (hsub hi), h.seen_lt, h.seen_ne⟩
  by_cases hy : y = x
  · subst hy
    simpa [SharedLevels.reset, Queues.reset, PriceLevels.reset, PriceLevels.create] using Holds.empty b.pool k
  · simpa [SharedLevels.reset, Queues.reset, hy] using h.holds y k

namespace PricedBook

variable {maxLevels : ℕ} {b : PricedBook} {x : BookSide}

/-- **Where the levels hold their queues**, the orders to look at are those of the queues. -/
theorem addressable_iff (h : Refines maxLevels b.levels b.queues) :
    b.Addressable maxLevels ↔
      ∀ x, ∀ l < maxLevels, ∀ i ∈ b.queues.queue x l, (b.scale x).Addresses maxLevels (b.price i) l := by
  refine forall_congr' fun x => forall₂_congr fun l _ => ?_
  have hchain := (h.holds x l).chain
  constructor
  · rintro ⟨queue, hqueue, haddr⟩
    rwa [hchain.unique hqueue]
  · exact fun haddr => ⟨_, hchain, haddr⟩

/-- The orders of the queues of a side, one after the other. -/
theorem forall_linked_or (maxLevels : ℕ) (P : Prop) (Q : ℕ → Prop) (queue : ℕ → List UInt16) :
    (∀ l < maxLevels, ∀ i ∈ queue l, P ∨ Q l) ↔ P ∨ ∀ l < maxLevels, ¬ Q l → queue l = [] := by
  constructor
  · intro h
    by_cases hP : P
    · exact Or.inl hP
    · refine Or.inr fun l hl hQ => List.eq_nil_iff_forall_not_mem.mpr fun i hi => ?_
      exact (h l hl i hi).elim hP hQ
  · rintro (hP | hempty) l hl i hi
    · exact Or.inl hP
    · by_contra hnot
      rw [hempty l hl fun hQ => hnot (Or.inr hQ)] at hi
      cases hi

/-- **Other settings for a side** keep its addresses if they keep those of its orders. -/
theorem setScale_addressable_iff {s : PriceScale} (h : Refines maxLevels b.levels b.queues)
    (haddr : b.Addressable maxLevels) :
    (b.setScale x s).Addressable maxLevels ↔
      ∀ l < maxLevels, ∀ i ∈ b.queues.queue x l, s.Addresses maxLevels (b.price i) l := by
  have hold := (addressable_iff h).mp haddr
  rw [addressable_iff (b := b.setScale x s) h]
  constructor
  · intro hall l hl i hi
    simpa [setScale] using hall x l hl i hi
  · intro hside y l hl i hi
    by_cases hy : y = x
    · subst hy
      simpa [setScale] using hside l hl i hi
    · simpa [setScale, hy] using hold y l hl i hi

/-- **Another tick size.** -/
theorem setTickSize_addressable_iff {t : UInt32} (h : Refines maxLevels b.levels b.queues)
    (ht : 1 ≤ (b.scale x).tickSize) (ht' : 1 ≤ t) (haddr : b.Addressable maxLevels) :
    (b.setScale x ((b.scale x).setTickSize t)).Addressable maxLevels ↔
      KeepsAddresses maxLevels b (.setTickSize x t) := by
  have hold := (addressable_iff h).mp haddr
  rw [setScale_addressable_iff h haddr, KeepsAddresses, ← forall_linked_or]
  exact forall₂_congr fun l hl => forall₂_congr fun i hi => addresses_setTickSize_iff ht ht' (hold x l hl i hi)

/-- **Another reference price.** -/
theorem setReferencePrice_addressable_iff {r : UInt32} (h : Refines maxLevels b.levels b.queues)
    (haddr : b.Addressable maxLevels) :
    (b.setScale x ((b.scale x).setReferencePrice r)).Addressable maxLevels ↔
      KeepsAddresses maxLevels b (.setReferencePrice x r) := by
  have hold := (addressable_iff h).mp haddr
  have hlinked := forall_linked_or maxLevels (r = (b.scale x).refPrice) (fun _ => False) (b.queues.queue x)
  simp only [or_false, not_false_eq_true, forall_const] at hlinked
  rw [setScale_addressable_iff h haddr, KeepsAddresses, ← hlinked]
  exact forall₂_congr fun l hl => forall₂_congr fun i hi => addresses_setReferencePrice_iff (hold x l hl i hi)

/-- **A side that is reset** has no order that could be lost. -/
theorem reset_addressable (h : Refines maxLevels b.levels b.queues) (haddr : b.Addressable maxLevels) (x : BookSide) :
    (b.reset x).Addressable maxLevels := by
  rw [addressable_iff (b := b.reset x) (h.reset x)]
  intro y l hl i hi
  by_cases hy : y = x
  · simp [reset, Queues.reset, hy] at hi
  · simp only [reset, Queues.reset, setScale, if_neg hy, Function.update_of_ne hy] at hi ⊢
    exact (addressable_iff h).mp haddr y l hl i hi

/-- **A new order** is addressable if `LEVEL_MASK` leaves its ticks as they are. -/
theorem append_addressable_iff {p : UInt32} {idx : UInt16} (h : Refines maxLevels b.levels b.queues)
    (ht : 1 ≤ (b.scale x).tickSize) (hp : (b.scale x).OnTick maxLevels p)
    (hnew : Refines maxLevels (b.append maxLevels x p idx).levels (b.append maxLevels x p idx).queues)
    (hlvl : ((b.scale x).priceToLevel maxLevels p).toNat < maxLevels) (hidx : b.queues.Unlinked idx)
    (haddr : b.Addressable maxLevels) :
    (b.append maxLevels x p idx).Addressable maxLevels ↔ (b.scale x).FitsMask maxLevels p := by
  have hold := (addressable_iff h).mp haddr
  rw [addressable_iff hnew, ← addresses_priceToLevel_iff ht hp.1]
  constructor
  · intro hall
    have hself := hall x _ hlvl idx (by simp [append, Queues.append])
    simpa [append] using hself
  · intro hself y l hl i hi
    rcases Queues.mem_append hi with hlinked | ⟨rfl, rfl, rfl⟩
    · -- an order linked before is in another entry
      have hne : i ≠ idx := by
        rintro rfl
        exact hidx y l hlinked
      simpa [append, hne] using hold y l hl i hlinked
    · simpa [append] using hself

/-- **Unlinking** keeps the addresses. -/
theorem unlink_addressable {idx : UInt16} {levels : SharedLevels} (h : Refines maxLevels b.levels b.queues)
    (hnew : Refines maxLevels levels (b.queues.unlink x idx)) (haddr : b.Addressable maxLevels) :
    PricedBook.Addressable maxLevels { b with levels := levels, queues := b.queues.unlink x idx } := by
  rw [addressable_iff (b := { b with levels := levels, queues := b.queues.unlink x idx }) hnew]
  exact fun y l hl i hi => (addressable_iff h).mp haddr y l hl i (Queues.mem_of_mem_unlink hi)

end PricedBook

/-! ### Runs -/

section Runs

variable {maxLevels poolSize : ℕ} {b b' : PricedBook} {c : PricedCall}

/-- The levels hold their queues, and the tick sizes are positive. -/
structure PricedBook.WellFormed (maxLevels : ℕ) (b : PricedBook) : Prop where
  refines : Refines maxLevels b.levels b.queues
  tickSize : ∀ x, 1 ≤ (b.scale x).tickSize

theorem PricedBook.wellFormed_create (maxLevels : ℕ) (pool : OrderPool) (price : UInt16 → UInt32) :
    (create pool price).WellFormed maxLevels :=
  ⟨Refines.start maxLevels pool, fun _ => le_refl 1⟩

/-- The sides that other settings leave alone have a positive tick size still. -/
theorem PricedBook.WellFormed.setScale {x : BookSide} {s : PriceScale} (h : b.WellFormed maxLevels)
    (hs : 1 ≤ s.tickSize) (y : BookSide) : 1 ≤ ((b.setScale x s).scale y).tickSize := by
  by_cases hy : y = x
  · subst hy
    simpa [PricedBook.setScale] using hs
  · simpa [PricedBook.setScale, hy] using h.tickSize y

/-- The level of a price in range is one there is. -/
theorem PriceScale.OnTick.priceToLevel_lt {s : PriceScale} {p : UInt32} (h : s.OnTick maxLevels p) :
    (s.priceToLevel maxLevels p).toNat < maxLevels := by
  rw [toNat_priceToLevel_and]
  exact lt_of_le_of_lt Nat.and_le_left (Nat.div_lt_of_lt_mul (Nat.mul_comm _ _ ▸ h.2))

/-- **A call** keeps the levels with their queues, and the tick sizes positive. -/
theorem PricedStep.wellFormed (hpool : poolSize ≤ 65535) (hs : PricedStep maxLevels poolSize b c b')
    (h : b.WellFormed maxLevels) : b'.WellFormed maxLevels := by
  cases hs with
  | setTickSize x ht => exact ⟨h.refines, h.setScale ht⟩
  | setReferencePrice x r => exact ⟨h.refines, h.setScale (h.tickSize x)⟩
  | reset x => exact ⟨h.refines.reset x, h.setScale (h.tickSize x)⟩
  | append x hp hidx hnot =>
    exact ⟨h.refines.append x hp.priceToLevel_lt (ne_noIndex hpool hidx) hnot, h.tickSize⟩
  | unlink _ hunlink => exact ⟨h.refines.of_unlink hunlink, h.tickSize⟩

/-- **What a call does to the addresses**: the linked orders have theirs after it exactly when
it keeps them. -/
theorem PricedStep.addressable_iff (hpool : poolSize ≤ 65535) (hs : PricedStep maxLevels poolSize b c b')
    (h : b.WellFormed maxLevels) (haddr : b.Addressable maxLevels) :
    b'.Addressable maxLevels ↔ KeepsAddresses maxLevels b c := by
  have hnew := hs.wellFormed hpool h
  cases hs with
  | setTickSize x ht => exact PricedBook.setTickSize_addressable_iff h.refines (h.tickSize x) ht haddr
  | setReferencePrice x r => exact PricedBook.setReferencePrice_addressable_iff h.refines haddr
  | reset x => exact iff_of_true (PricedBook.reset_addressable h.refines haddr x) trivial
  | append x hp hidx hnot =>
    exact PricedBook.append_addressable_iff h.refines (h.tickSize x) hp hnew.refines hp.priceToLevel_lt hnot haddr
  | unlink => exact iff_of_true (PricedBook.unlink_addressable h.refines hnew.refines haddr) trivial

/-- **When reconfiguration keeps the orders addressable**: over a pool of at most `65535`
entries, for every number of levels and along every sequence of calls, every order linked is
in every state on the level of its price, and its price is the price of the level, exactly
when the reference price of a side is changed only while no order is linked on it, the tick
size only while none is but at the reference, and no order is appended whose number of ticks
`LEVEL_MASK` cuts. -/
theorem addressable_run_iff (hpool : poolSize ≤ 65535) {pool : OrderPool} {price : UInt16 → UInt32}
    {run : ℕ → PricedBook} {calls : ℕ → PricedCall} {n : ℕ} (hstart : run 0 = PricedBook.create pool price)
    (hstep : ∀ k < n, PricedStep maxLevels poolSize (run k) (calls k) (run (k + 1))) :
    (∀ k ≤ n, (run k).Addressable maxLevels) ↔ ∀ k < n, KeepsAddresses maxLevels (run k) (calls k) := by
  have hwf : (run 0).WellFormed maxLevels := hstart ▸ PricedBook.wellFormed_create maxLevels pool price
  have haddr : (run 0).Addressable maxLevels := by
    rw [PricedBook.addressable_iff hwf.refines, hstart]
    intro x l _ i hi
    cases hi
  exact holds_along_iff_of_invariant haddr hwf (fun k hk h haddr => (hstep k hk).addressable_iff hpool h haddr)
    fun k hk h _ _ => (hstep k hk).wellFormed hpool h

/-- A pool whose entries hold nothing. -/
def blankPool : OrderPool := fun _ => ⟨noIndex, 0, 0⟩

/-- A book with an order of price `5` on the bids. -/
def oneBid : PricedBook := (PricedBook.create blankPool fun _ => 0).append 8 .bids 5 0

/-- The order is appended, and then the reference price of the asks is set. -/
def otherSideRun : ℕ → PricedBook
  | 0 => PricedBook.create blankPool fun _ => 0
  | 1 => oneBid
  | _ => oneBid.setScale .asks ((oneBid.scale .asks).setReferencePrice 3)

/-- The calls of that run. -/
def otherSideCalls : ℕ → PricedCall
  | 0 => .append .bids 5 0
  | _ => .setReferencePrice .asks 3

/-- The order stays addressable. -/
theorem addressable_other_side :
    (oneBid.setScale .asks ((oneBid.scale .asks).setReferencePrice 3)).Addressable 8 := by
  have htick : PriceScale.create.OnTick 8 5 := ⟨by decide, by decide⟩
  have hfits : PriceScale.create.FitsMask 8 5 := fitsMask_of_isPowerOfTwo ⟨3, rfl⟩ (by decide) htick
  have hstep : ∀ k < 2, PricedStep 8 2 (otherSideRun k) (otherSideCalls k) (otherSideRun (k + 1))
    | 0, _ => .append .bids htick (by decide) (Queues.unlinked_empty 0)
    | 1, _ => .setReferencePrice .asks 3
  refine (addressable_run_iff (by decide) rfl hstep).mpr (fun k hk => ?_) 2 le_rfl
  match k, hk with
  | 0, _ => exact hfits
  | 1, _ => exact Or.inr fun l _ => rfl

/-- **An order whose level has another price**: it is linked on level `0` at price `0`, and then
the reference price is set to `1`. -/
theorem address_lost :
    let b₀ := PricedBook.create blankPool fun _ => 0
    let b₁ := b₀.append 8 .bids 0 0
    let b₂ := b₁.setScale .bids ((b₁.scale .bids).setReferencePrice 1)
    PricedStep 8 2 b₀ (.append .bids 0 0) b₁ ∧ PricedStep 8 2 b₁ (.setReferencePrice .bids 1) b₂ ∧
      ¬ b₂.Addressable 8 := by
  intro b₀ b₁ b₂
  have happend : PricedStep 8 2 b₀ (.append .bids 0 0) b₁ :=
    .append .bids ⟨by decide, by decide⟩ (by decide) (Queues.unlinked_empty 0)
  have hset : PricedStep 8 2 b₁ (.setReferencePrice .bids 1) b₂ := .setReferencePrice .bids 1
  have hwf : b₂.WellFormed 8 :=
    hset.wellFormed (by decide) (happend.wellFormed (by decide) (PricedBook.wellFormed_create 8 _ _))
  refine ⟨happend, hset, fun haddr => ?_⟩
  have hlevel := ((PricedBook.addressable_iff hwf.refines).mp haddr .bids 0 (by decide) 0 (by decide)).1
  exact absurd hlevel (by decide)

end Runs

end Scrimmage.Match
