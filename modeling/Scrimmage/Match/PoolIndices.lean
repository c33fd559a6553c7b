import Scrimmage.Matching.OrderBookPool
import Scrimmage.Match.OrderMap
import Scrimmage.Match.PriceLevels

/-!
# Pool indices in sixteen bits

The pool numbers its entries with a `size_t`; the order map and the price levels keep such
a number in a `uint16_t`, and take `0xFFFF` for none. A pool of its default capacity
`MAX_ORDERS_PER_BOOK` hands out `65536` numbers, and the last of them is `0xFFFF`.

## What is proved

* `slot_usable_iff`: an index that the pool hands out can be kept in the map and in a level
  exactly when it is not that one, and the map finds the cell it has put it in.
* `last_slot_unusable`: the last index is handed out, and an order kept under it is gone.
-/

namespace Scrimmage.Match

open Theory Matching

/-- `MAX_ORDERS_PER_BOOK`. -/
def maxOrdersPerBook : ℕ := 1024 * 64

/-- **An entry of the pool can be used**: the order map that takes it reports it, and a level
it is appended to has it, links the next one behind it, and gives it back. `queue` are the
entries of the level before. -/
structure SlotUsable (mapSize maxLevels : ℕ) (m : OrderMap) (ls : PriceLevels) (pool : OrderPool)
    (queue : List UInt16) (orderId : UInt64) (side : Int8) (level poolIdx : UInt16) : Prop where
  /-- An `insert` that succeeds makes `find` report the index, as one that is there. -/
  found : (m.insert mapSize orderId poolIdx side).1 = true →
    ((m.insert mapSize orderId poolIdx side).2.find mapSize orderId).poolIndex = poolIdx ∧
      poolIdx ≠ OrderMap.noPoolIndex
  /-- The entry is the last of the level's list. -/
  appended : Holds (ls.appendToLevel level poolIdx pool).2
    ((ls.appendToLevel level poolIdx pool).1.levels level.toNat) level.toNat (queue ++ [poolIdx])
  hasOrders : (ls.appendToLevel level poolIdx pool).1.hasOrders maxLevels = true
  /-- The next entry comes behind it. -/
  behind : ∀ next, next ∉ queue ++ [poolIdx] →
    (((ls.appendToLevel level poolIdx pool).1.appendToLevel level next
      (ls.appendToLevel level poolIdx pool).2).2 poolIdx).nextIndex = next
  /-- `unlinkFromLevel` finds it, and leaves the level as it was before. -/
  unlinked : ∃ ls' pool', (ls.appendToLevel level poolIdx pool).1.unlinkFromLevel poolIdx
      (ls.appendToLevel level poolIdx pool).2 = some (decide (queue = []), ls', pool') ∧
    Holds pool' (ls'.levels level.toNat) level.toNat queue

section Levels

variable {ls : PriceLevels} {pool : OrderPool} {queue : List UInt16} {level idx : UInt16} {maxLevels : ℕ}

/-- A level with an entry is seen by `hasOrders`. -/
theorem Holds.hasOrders (h : Holds pool (ls.levels level.toNat) level.toNat queue) (hne : queue ≠ [])
    (hlevel : level.toNat < maxLevels) : ls.hasOrders maxLevels = true := by
  rw [PriceLevels.hasOrders, List.any_eq_true]
  exact ⟨level.toNat, List.mem_range.mpr hlevel, decide_eq_true (mt h.head_eq_iff.mp hne)⟩

/-- What is appended to a level comes behind its last entry. -/
theorem Holds.append_behind (h : Holds pool (ls.levels level.toNat) level.toNat (queue ++ [idx])) {next : UInt16}
    (hne : next ≠ idx) : ((ls.appendToLevel level next pool).2 idx).nextIndex = next := by
  have htail : (ls.levels level.toNat).tail = idx := by simpa using h.tail
  have hnone : idx ≠ noIndex := by
    rintro rfl
    exact h.chain.null_notMem (by simp)
  simp [PriceLevels.appendToLevel, htail, hnone, OrderPool.setNext]

/-- **The entry appended last** is found, and taken out again. -/
theorem Holds.append_unlink (h : Holds pool (ls.levels level.toNat) level.toNat (queue ++ [idx]))
    (hlevel : (pool idx).levelIndex = level) :
    ∃ ls' pool', ls.unlinkFromLevel idx pool = some (decide (queue = []), ls', pool') ∧
      Holds pool' (ls'.levels level.toNat) level.toNat queue := by
  rw [← hlevel] at h ⊢
  have hafter := h.unlinkAt
  rw [List.append_nil] at hafter
  refine ⟨_, _, ?_, hafter⟩
  rw [h.unlink_of_mem]
  refine congrArg some (Prod.ext ?_ rfl)
  rw [Holds.unlinkAt_fst]
  exact decide_eq_decide.mpr hafter.head_eq_iff

/-- **An entry in a level**: one whose index is not `0xFFFF` can be appended, and used. -/
theorem Holds.append_usable (h : Holds pool (ls.levels level.toNat) level.toNat queue) (hidx : idx ∉ queue)
    (hnone : idx ≠ noIndex) (hlevel : level.toNat < maxLevels) {mapSize : ℕ} {m : OrderMap} {orderId : UInt64}
    {side : Int8}
    (hfound : (m.insert mapSize orderId idx side).1 = true →
      ((m.insert mapSize orderId idx side).2.find mapSize orderId).poolIndex = idx ∧
        idx ≠ OrderMap.noPoolIndex) :
    SlotUsable mapSize maxLevels m ls pool queue orderId side level idx := by
  have happend := h.append hidx hnone
  refine ⟨hfound, happend, happend.hasOrders (by simp) hlevel, fun next hnext => ?_, ?_⟩
  · exact happend.append_behind fun heq => hnext (by simp [heq])
  · apply happend.append_unlink
    rw [Holds.append_levelIndex, if_pos rfl]

end Levels

section Map

variable {mapSize : ℕ} {m : OrderMap} {orderId : UInt64} {idx : UInt16} {side : Int8}

/-- **An index in the map**, one that is not `NONE` and not there yet: `find` reports it
exactly when it looks at the cell that `insert` has put it in, if that was empty. -/
theorem found_iff (hnone : idx ≠ OrderMap.noPoolIndex)
    (hnew : ∀ c, (m.map c).poolIndex = idx → Vacant (m.map c)) :
    ((m.insert mapSize orderId idx side).1 = true →
      ((m.insert mapSize orderId idx side).2.find mapSize orderId).poolIndex = idx ∧
        idx ≠ OrderMap.noPoolIndex) ↔
    (Vacant (m.map (slotIndex mapSize orderId)) → slotIndex mapSize orderId = findIndex mapSize orderId) := by
  by_cases hv : Vacant (m.map (slotIndex mapSize orderId))
  · have hinsert : m.insert mapSize orderId idx side =
        (true, ⟨Function.update m.map (slotIndex mapSize orderId) ⟨idx, side⟩⟩) := by
      have hempty : (m.map (slotIndex mapSize orderId)).poolIndex = OrderMap.noPoolIndex := hv
      simp [OrderMap.insert, hempty]
    simp only [hinsert, hv, true_imp_iff, OrderMap.find]
    constructor
    · rintro ⟨hfind, -⟩
      by_contra hne
      rw [Function.update_of_ne (Ne.symm hne)] at hfind
      have hvacant : (m.map (findIndex mapSize orderId)).poolIndex = OrderMap.noPoolIndex := hnew _ hfind
      exact hnone (hfind.symm.trans hvacant)
    · intro heq
      rw [← heq, Function.update_self]
      exact ⟨rfl, hnone⟩
  · have hfail : (m.insert mapSize orderId idx side).1 = false := by
      have htaken : (m.map (slotIndex mapSize orderId)).poolIndex ≠ OrderMap.noPoolIndex := hv
      simp [OrderMap.insert, htaken]
    simp [hfail, hv]

end Map

/-- **Which slots can be used.** For every index that a pool of `MAX_ORDERS_PER_BOOK` entries
can hand out, passed as a `uint16_t`, every order id, side and level, and every state of
the map and of the level's list that the entry is not in: the entry can be used exactly
when its index is not `65535`, and the cell that `insert` would put it in is taken or is
the one `find` looks at, as it is in every map of at most `65536` cells. -/
theorem slot_usable_iff {ω : Type} [Inhabited ω] {i : ℕ} (hi : Allocates ω maxOrdersPerBook i)
    {mapSize maxLevels : ℕ} {m : OrderMap} {ls : PriceLevels} {pool : OrderPool} {queue : List UInt16}
    (orderId : UInt64) (side : Int8) {level : UInt16} (hlevel : level.toNat < maxLevels)
    (hmap : ∀ c, (m.map c).poolIndex = UInt16.ofNat i → Vacant (m.map c))
    (hqueue : Holds pool (ls.levels level.toNat) level.toNat queue) (hnot : UInt16.ofNat i ∉ queue) :
    SlotUsable mapSize maxLevels m ls pool queue orderId side level (UInt16.ofNat i) ↔
      i ≠ 65535 ∧ (Vacant (m.map (slotIndex mapSize orderId)) →
        slotIndex mapSize orderId = findIndex mapSize orderId) := by
  have hlt : i < 65536 := (allocates_iff (by decide) (by decide) i).mp hi
  have hsentinel : UInt16.ofNat i ≠ noIndex ↔ i ≠ 65535 := by
    rw [ne_eq, ← UInt16.toNat_inj, UInt16.toNat_ofNat', Nat.mod_eq_of_lt hlt]
    exact Iff.rfl
  rw [← hsentinel]
  constructor
  · intro h
    have hnone : UInt16.ofNat i ≠ noIndex := by
      intro heq
      apply h.appended.chain.null_notMem
      rw [heq]
      simp
    exact ⟨hnone, (found_iff hnone hmap).mp h.found⟩
  · rintro ⟨hnone, hcell⟩
    exact hqueue.append_usable hnot hnone hlevel ((found_iff hnone hmap).mpr hcell)

/-- A pool none of whose entries has been linked. -/
def unlinkedPool : OrderPool := fun _ => ⟨noIndex, 0, 1⟩

/-- A map of four cells with the id `9` in it, under the entry `1`. -/
def oneKept : OrderMap := (OrderMap.create.insert 4 9 1 66).2

/-- The levels and the pool when the entry `1` is appended to level `0`. -/
def oneLinked : PriceLevels × OrderPool := PriceLevels.create.appendToLevel 0 1 unlinkedPool

/-- The first index is used behind that entry. -/
theorem slot_usable_zero : SlotUsable 4 1 oneKept oneLinked.1 oneLinked.2 [1] 7 66 0 0 := by
  have hi : Allocates Unit maxOrdersPerBook 0 := (allocates_iff (by decide) (by decide) 0).mpr (by decide)
  have hqueue : Holds oneLinked.2 (oneLinked.1.levels 0) 0 [1] :=
    (Holds.empty unlinkedPool 0).append (List.not_mem_nil) (by decide)
  have hmap : ∀ c, (oneKept.map c).poolIndex = UInt16.ofNat 0 → Vacant (oneKept.map c) := by
    intro c hc
    have hkept : oneKept.map = Function.update OrderMap.create.map (slotIndex 4 9) ⟨1, 66⟩ := rfl
    rw [hkept] at hc ⊢
    by_cases hcell : c = slotIndex 4 9
    · rw [hcell, Function.update_self] at hc
      exact absurd hc (by decide)
    · rw [Function.update_of_ne hcell]
      rfl
  exact (slot_usable_iff hi 7 66 (by decide) hmap hqueue (by decide)).mpr
    ⟨by decide, fun _ => slotIndex_eq (by decide) (by decide) 7⟩

/-- **The last index**: the pool hands it out, `insert` takes it and `find` reports nothing, and
the level it is appended to has no orders. -/
theorem last_slot_unusable :
    Allocates Unit maxOrdersPerBook 65535 ∧
    ((OrderMap.create.insert 1 7 (UInt16.ofNat 65535) 66).1 = true ∧
      ((OrderMap.create.insert 1 7 (UInt16.ofNat 65535) 66).2.find 1 7).poolIndex = OrderMap.noPoolIndex) ∧
    (PriceLevels.create.appendToLevel 0 (UInt16.ofNat 65535) unlinkedPool).1.hasOrders 1 = false ∧
    ¬ SlotUsable 1 1 OrderMap.create PriceLevels.create unlinkedPool [] 7 66 0 (UInt16.ofNat 65535) := by
  refine ⟨(allocates_iff (by decide) (by decide) 65535).mpr (by decide), ⟨by decide, by decide⟩, by decide, ?_⟩
  exact fun h => absurd (h.found (by decide)).2 (by decide)

end Scrimmage.Match
