import Scrimmage.Theory.Loop
import Scrimmage.Theory.Chain
import Mathlib.Algebra.BigOperators.Group.List.Basic
import Mathlib.Data.List.Perm.Basic
import Mathlib.Data.Finset.Card
import Mathlib.Data.Finset.Range
import Mathlib.Algebra.Ring.Nat

/-!
# The orders of a price level

`PriceLevels` of `PriceLevels.h`: one side of a book as an array of levels, each with the
orders of one price in a singly linked list that runs through the entries of a pool. The
pool is shared with the other side of the book.

## The model

* The pool is an array of entries with `_nextIndex`, `_levelIndex` and `_quantity`, the
  fields `PriceLevels` uses; its indices are `uint16_t`, `0xFFFF` being none.
* The functions that write the pool return it beside the levels. The loop of
  `unlinkFromLevel` is a `Loop`: it has no result if the loop has not been left when it
  has seen every index there is, since it is then on a cycle.

## What is proved

* `Holds`: a level holds a queue of entries, as the chain from its head, with its tail and
  its total quantity.
* `Holds.append`, `Holds.unlinkAt`, `Holds.reduce`: what the three operations do to it.
* `unlink_of_mem`, `unlink_of_notMem`: the loop of `unlinkFromLevel` ends, at the entry or
  at the end of the list.
-/

namespace Scrimmage.Match

open Theory

/-- `0xFFFF`, the index of no entry. -/
def noIndex : UInt16 := 0xFFFF

/-- An entry of the pool. -/
structure PoolEntry where
  /-- `_nextIndex`. -/
  nextIndex : UInt16
  /-- `_levelIndex`. -/
  levelIndex : UInt16
  /-- `_quantity`. -/
  quantity : UInt32
  deriving DecidableEq

/-- `OrderPool<PoolSize>`: its entries. -/
abbrev OrderPool := UInt16 → PoolEntry

/-- `PriceLevels::Level`. -/
structure Level where
  /-- `_head`. -/
  head : UInt16
  /-- `_tail`. -/
  tail : UInt16
  /-- `_totalQty`. -/
  totalQty : UInt32
  deriving DecidableEq

/-- `Level{}`. -/
def Level.empty : Level := ⟨noIndex, noIndex, 0⟩

/-- `PriceLevels`: its `_levels`, of which `MaxLevels` are there. -/
structure PriceLevels where
  /-- `_levels`. -/
  levels : ℕ → Level

/-- `PriceLevels()`. -/
def PriceLevels.create : PriceLevels := { levels := fun _ => Level.empty }

/-- Replace the level `_levels[lvlIdx]`. -/
def PriceLevels.setLevel (ls : PriceLevels) (lvlIdx : ℕ) (lvl : Level) : PriceLevels :=
  { ls with levels := Function.update ls.levels lvlIdx lvl }

/-- `pool[idx]._nextIndex = next`. -/
def OrderPool.setNext (pool : OrderPool) (idx next : UInt16) : OrderPool :=
  Function.update pool idx { pool idx with nextIndex := next }

/-- `entry._levelIndex = lvlIdx` and `entry._nextIndex = 0xFFFF`. -/
def OrderPool.enter (pool : OrderPool) (idx lvlIdx : UInt16) : OrderPool :=
  Function.update pool idx { pool idx with levelIndex := lvlIdx, nextIndex := noIndex }

/-- `appendToLevel`. -/
def PriceLevels.appendToLevel (ls : PriceLevels) (lvlIdx poolIdx : UInt16) (pool : OrderPool) :
    PriceLevels × OrderPool :=
  let lvl := ls.levels lvlIdx.toNat
  let pool := pool.enter poolIdx lvlIdx
  let (lvl, pool) :=
    if lvl.tail ≠ noIndex then (lvl, pool.setNext lvl.tail poolIdx) else ({ lvl with head := poolIdx }, pool)
  let lvl := { lvl with tail := poolIdx }
  let lvl := { lvl with totalQty := lvl.totalQty + (pool poolIdx).quantity }
  (ls.setLevel lvlIdx.toNat lvl, pool)

/-- What `unlinkFromLevel` does when it has found the entry, `prev` being the one before. -/
def PriceLevels.unlinkAt (ls : PriceLevels) (lvlIdx : ℕ) (pool : OrderPool) (prev idx : UInt16) :
    Bool × PriceLevels × OrderPool :=
  let lvl := ls.levels lvlIdx
  let (lvl, pool) :=
    if prev ≠ noIndex then (lvl, pool.setNext prev (pool idx).nextIndex)
    else ({ lvl with head := (pool idx).nextIndex }, pool)
  let lvl := if lvl.tail = idx then { lvl with tail := prev } else lvl
  let lvl := { lvl with totalQty := lvl.totalQty - (pool idx).quantity }
  let pool := pool.setNext idx noIndex
  (decide (lvl.head = noIndex), ls.setLevel lvlIdx lvl, pool)

/-- One turn of the loop of `unlinkFromLevel`, in the state `(prev, idx)`. -/
def PriceLevels.unlinkTurn (ls : PriceLevels) (lvlIdx : ℕ) (poolIdx : UInt16) (pool : OrderPool)
    (st : UInt16 × UInt16) : Turn (UInt16 × UInt16) (Bool × PriceLevels × OrderPool) :=
  if st.2 ≠ noIndex then
    if st.2 = poolIdx then .exit (ls.unlinkAt lvlIdx pool st.1 st.2) else .again (st.2, (pool st.2).nextIndex)
  else .exit (false, ls, pool)

/-- `unlinkFromLevel`. -/
def PriceLevels.unlinkFromLevel (ls : PriceLevels) (poolIdx : UInt16) (pool : OrderPool) :
    Option (Bool × PriceLevels × OrderPool) :=
  let lvlIdx := (pool poolIdx).levelIndex.toNat
  match Loop.run (ls.unlinkTurn lvlIdx poolIdx pool) (2 ^ 16 + 1) (noIndex, (ls.levels lvlIdx).head) with
  | .exit r => some r
  | .again _ => none

/-- `reduceQuantity`. -/
def PriceLevels.reduceQuantity (ls : PriceLevels) (poolIdx : UInt16) (qty : UInt32) (pool : OrderPool) :
    PriceLevels × OrderPool :=
  let lvlIdx := (pool poolIdx).levelIndex.toNat
  let lvl := ls.levels lvlIdx
  let pool : OrderPool := Function.update pool poolIdx { pool poolIdx with quantity := (pool poolIdx).quantity - qty }
  (ls.setLevel lvlIdx { lvl with totalQty := lvl.totalQty - qty }, pool)

/-- `activeLevelCount`. -/
def PriceLevels.activeLevelCount (ls : PriceLevels) (maxLevels : ℕ) : ℕ :=
  (List.range maxLevels).foldl (fun count i => if (ls.levels i).head ≠ noIndex then count + 1 else count) 0

/-- `hasOrders`. -/
def PriceLevels.hasOrders (ls : PriceLevels) (maxLevels : ℕ) : Bool :=
  (List.range maxLevels).any fun i => (ls.levels i).head ≠ noIndex

/-! ### The queue of a level -/

/-- The `_nextIndex` of every entry. -/
def OrderPool.next (pool : OrderPool) (i : UInt16) : UInt16 := (pool i).nextIndex

/-- The total quantity of some entries. -/
def OrderPool.total (pool : OrderPool) (queue : List UInt16) : ℕ := (queue.map fun i => (pool i).quantity.toNat).sum

/-- **A level holds a queue of entries**: they are the chain from its head, the last is its
tail, they have the level's index, and their quantities make up its total. -/
structure Holds (pool : OrderPool) (lvl : Level) (lvlIdx : ℕ) (queue : List UInt16) : Prop where
  chain : Chain pool.next noIndex lvl.head queue
  tail : lvl.tail = queue.getLast?.getD noIndex
  levelIndex : ∀ i ∈ queue, (pool i).levelIndex.toNat = lvlIdx
  totalQty : lvl.totalQty.toNat = pool.total queue % 2 ^ 32

@[simp] theorem OrderPool.next_setNext (pool : OrderPool) (idx n : UInt16) :
    (pool.setNext idx n).next = Function.update pool.next idx n := by
  funext i
  by_cases hi : i = idx
  · subst hi
    simp [OrderPool.next, OrderPool.setNext]
  · simp [OrderPool.next, OrderPool.setNext, hi]

@[simp] theorem OrderPool.levelIndex_setNext (pool : OrderPool) (idx n i : UInt16) :
    (pool.setNext idx n i).levelIndex = (pool i).levelIndex := by
  by_cases hi : i = idx
  · subst hi
    simp [OrderPool.setNext]
  · simp [OrderPool.setNext, hi]

@[simp] theorem OrderPool.quantity_setNext (pool : OrderPool) (idx n i : UInt16) :
    (pool.setNext idx n i).quantity = (pool i).quantity := by
  by_cases hi : i = idx
  · subst hi
    simp [OrderPool.setNext]
  · simp [OrderPool.setNext, hi]

theorem OrderPool.enter_of_ne (pool : OrderPool) {idx i : UInt16} (lvlIdx : UInt16) (h : i ≠ idx) :
    pool.enter idx lvlIdx i = pool i :=
  Function.update_of_ne h ..

@[simp] theorem OrderPool.next_enter (pool : OrderPool) (idx lvlIdx : UInt16) :
    (pool.enter idx lvlIdx).next = Function.update pool.next idx noIndex := by
  funext i
  by_cases hi : i = idx
  · subst hi
    simp [OrderPool.next, OrderPool.enter]
  · simp [OrderPool.next, OrderPool.enter, hi]

@[simp] theorem OrderPool.levelIndex_enter (pool : OrderPool) (idx lvlIdx : UInt16) :
    (pool.enter idx lvlIdx idx).levelIndex = lvlIdx := by
  simp [OrderPool.enter]

@[simp] theorem OrderPool.quantity_enter (pool : OrderPool) (idx lvlIdx i : UInt16) :
    (pool.enter idx lvlIdx i).quantity = (pool i).quantity := by
  by_cases hi : i = idx
  · subst hi
    simp [OrderPool.enter]
  · simp [OrderPool.enter, hi]

theorem OrderPool.setNext_of_ne (pool : OrderPool) {idx i : UInt16} (n : UInt16) (h : i ≠ idx) :
    pool.setNext idx n i = pool i :=
  Function.update_of_ne h ..

@[simp] theorem OrderPool.total_append (pool : OrderPool) (l l' : List UInt16) :
    pool.total (l ++ l') = pool.total l + pool.total l' := by
  simp [OrderPool.total]

@[simp] theorem OrderPool.total_cons (pool : OrderPool) (i : UInt16) (l : List UInt16) :
    pool.total (i :: l) = (pool i).quantity.toNat + pool.total l := by
  simp [OrderPool.total]

@[simp] theorem OrderPool.total_nil (pool : OrderPool) : pool.total [] = 0 := rfl

theorem OrderPool.total_congr {pool pool' : OrderPool} {l : List UInt16}
    (h : ∀ i ∈ l, (pool' i).quantity = (pool i).quantity) : pool'.total l = pool.total l :=
  congrArg List.sum (List.map_congr_left fun i hi => by rw [h i hi])

namespace Holds

variable {pool pool' : OrderPool} {lvl : Level} {lvlIdx : ℕ} {queue l₁ l₂ : List UInt16} {idx : UInt16}

theorem empty (pool : OrderPool) (lvlIdx : ℕ) : Holds pool Level.empty lvlIdx [] where
  chain := Chain.nil_iff.mpr rfl
  tail := rfl
  levelIndex _ hi := by cases hi
  totalQty := rfl

/-- A level's queue depends on its own entries only. -/
theorem congr (h : Holds pool lvl lvlIdx queue) (heq : ∀ i ∈ queue, pool' i = pool i) :
    Holds pool' lvl lvlIdx queue where
  chain := h.chain.congr fun i hi => by rw [OrderPool.next, OrderPool.next, heq i hi]
  tail := h.tail
  levelIndex i hi := by rw [heq i hi]; exact h.levelIndex i hi
  totalQty := by
    have hqty : pool'.total queue = pool.total queue := OrderPool.total_congr fun i hi => by rw [heq i hi]
    rw [hqty]
    exact h.totalQty

/-- An empty queue, an empty head and an empty tail are one thing. -/
theorem head_eq_iff (h : Holds pool lvl lvlIdx queue) : lvl.head = noIndex ↔ queue = [] :=
  h.chain.eq_nil_iff.symm

theorem tail_eq_iff (h : Holds pool lvl lvlIdx queue) : lvl.tail = noIndex ↔ queue = [] := by
  rw [h.tail]
  constructor
  · intro hnone
    by_contra hne
    rw [List.getLast?_eq_some_getLast hne, Option.getD_some] at hnone
    exact h.chain.null_notMem (hnone ▸ List.getLast_mem hne)
  · rintro rfl
    rfl

/-- A queue holds no more entries than there are indices. -/
theorem length_le (h : Holds pool lvl lvlIdx queue) : queue.length ≤ 2 ^ 16 := by
  have hnd : (queue.map UInt16.toNat).Nodup := h.chain.nodup.map fun _ _ => UInt16.toNat_inj.mp
  have hsub : (queue.map UInt16.toNat).toFinset ⊆ Finset.range (2 ^ 16) := by
    intro i hi
    obtain ⟨j, -, rfl⟩ := List.mem_map.mp (List.mem_toFinset.mp hi)
    exact Finset.mem_range.mpr j.toNat_lt
  have hcard := Finset.card_le_card hsub
  rwa [List.toFinset_card_of_nodup hnd, List.length_map, Finset.card_range] at hcard

/-! ### What the operations do to a queue -/

section Append

variable {ls : PriceLevels} {i : UInt16}

/-- The quantities after an entry is appended. -/
theorem total_append (h : Holds pool (ls.levels i.toNat) i.toNat queue)
    (hqty : ∀ j, (pool' j).quantity = (pool j).quantity) :
    ((ls.levels i.toNat).totalQty + (pool' idx).quantity).toNat = pool'.total (queue ++ [idx]) % 2 ^ 32 := by
  have hqueue : pool'.total queue = pool.total queue := OrderPool.total_congr fun j _ => hqty j
  rw [UInt32.toNat_add, h.totalQty, OrderPool.total_append, hqueue]
  simp

/-- The first entry of a level. -/
theorem append_first (h : Holds pool (ls.levels i.toNat) i.toNat []) (hnone : idx ≠ noIndex) :
    Holds (ls.appendToLevel i idx pool).2 ((ls.appendToLevel i idx pool).1.levels i.toNat) i.toNat [idx] := by
  have htail : (ls.levels i.toNat).tail = noIndex := h.tail
  have hdef : ls.appendToLevel i idx pool = (ls.setLevel i.toNat
      ⟨idx, idx, (ls.levels i.toNat).totalQty + (pool.enter idx i idx).quantity⟩, pool.enter idx i) := by
    simp [PriceLevels.appendToLevel, htail]
  rw [hdef]
  simp only [PriceLevels.setLevel, Function.update_self]
  refine ⟨?_, rfl, fun j hj => ?_, h.total_append fun j => pool.quantity_enter idx i j⟩
  · rw [Chain.cons_iff, OrderPool.next_enter, Function.update_self]
    exact ⟨rfl, hnone, Chain.nil_iff.mpr rfl⟩
  · rw [List.mem_singleton.mp hj, OrderPool.levelIndex_enter]

/-- An entry after others. -/
theorem append_more {l : List UInt16} {t : UInt16} (h : Holds pool (ls.levels i.toNat) i.toNat (l ++ [t]))
    (hidx : idx ∉ l ++ [t]) (hnone : idx ≠ noIndex) :
    Holds (ls.appendToLevel i idx pool).2 ((ls.appendToLevel i idx pool).1.levels i.toNat) i.toNat
      (l ++ [t] ++ [idx]) := by
  have htail : (ls.levels i.toNat).tail = t := by simpa using h.tail
  have ht : t ≠ noIndex := by
    rintro rfl
    exact h.chain.null_notMem (by simp)
  have hti : t ≠ idx := fun hti => hidx (by simp [hti])
  have hdef : ls.appendToLevel i idx pool = (ls.setLevel i.toNat
      ⟨(ls.levels i.toNat).head, idx,
        (ls.levels i.toNat).totalQty + ((pool.enter idx i).setNext t idx idx).quantity⟩,
      (pool.enter idx i).setNext t idx) := by
    simp [PriceLevels.appendToLevel, htail, ht]
  rw [hdef]
  simp only [PriceLevels.setLevel, Function.update_self]
  refine ⟨?_, by simp, fun j hj => ?_, h.total_append fun j => by simp⟩
  · rw [OrderPool.next_setNext, OrderPool.next_enter]
    exact h.chain.append hidx hnone
  · rw [OrderPool.levelIndex_setNext]
    rcases List.mem_append.mp hj with hj | hj
    · have hji : j ≠ idx := fun heq => hidx (heq ▸ hj)
      rw [OrderPool.enter_of_ne _ _ hji]
      exact h.levelIndex j hj
    · rw [List.mem_singleton.mp hj, OrderPool.levelIndex_enter]

/-- **An entry is appended** to a queue it is not in. -/
theorem append (h : Holds pool (ls.levels i.toNat) i.toNat queue) (hidx : idx ∉ queue) (hnone : idx ≠ noIndex) :
    Holds (ls.appendToLevel i idx pool).2 ((ls.appendToLevel i idx pool).1.levels i.toNat) i.toNat
      (queue ++ [idx]) := by
  rcases List.eq_nil_or_concat' queue with rfl | ⟨l, t, rfl⟩
  · exact h.append_first hnone
  · exact h.append_more hidx hnone

/-- An entry that is neither appended nor in the level stays as it is. -/
theorem append_frame (h : Holds pool (ls.levels i.toNat) i.toNat queue) {j : UInt16} (hj : j ≠ idx)
    (hnot : j ∉ queue) (hnone : j ≠ noIndex) : (ls.appendToLevel i idx pool).2 j = pool j := by
  have htail : (ls.levels i.toNat).tail ≠ j := by
    intro heq
    rw [h.tail] at heq
    cases hlast : queue.getLast? with
    | none => rw [hlast] at heq; exact hnone heq.symm
    | some t =>
      rw [hlast] at heq
      exact hnot (heq ▸ List.mem_of_getLast? hlast)
  simp only [PriceLevels.appendToLevel]
  split_ifs
  · exact (OrderPool.setNext_of_ne _ _ htail.symm).trans (OrderPool.enter_of_ne _ _ hj)
  · exact OrderPool.enter_of_ne _ _ hj

/-- Only the entry appended changes its level. -/
theorem append_levelIndex (ls : PriceLevels) (i idx : UInt16) (pool : OrderPool) (j : UInt16) :
    ((ls.appendToLevel i idx pool).2 j).levelIndex = if j = idx then i else (pool j).levelIndex := by
  have henter : (pool.enter idx i j).levelIndex = if j = idx then i else (pool j).levelIndex := by
    split_ifs with hj
    · rw [hj, OrderPool.levelIndex_enter]
    · rw [OrderPool.enter_of_ne _ _ hj]
  rw [← henter]
  simp only [PriceLevels.appendToLevel]
  split_ifs
  · exact OrderPool.levelIndex_setNext ..
  · rfl

end Append

section Unlink

variable {ls : PriceLevels}

/-- The tail when an entry is taken out: the one before it, if it was the last. -/
theorem tail_unlink (hnd : (l₁ ++ idx :: l₂).Nodup) :
    (if (l₁ ++ idx :: l₂).getLast?.getD noIndex = idx then l₁.getLast?.getD noIndex
      else (l₁ ++ idx :: l₂).getLast?.getD noIndex) = (l₁ ++ l₂).getLast?.getD noIndex := by
  rcases List.eq_nil_or_concat' l₂ with rfl | ⟨l, t, rfl⟩
  · simp
  · have hti : t ≠ idx := by
      rintro rfl
      have := (List.nodup_append.mp hnd).2.1
      simp at this
    have hlast : (l₁ ++ idx :: (l ++ [t])).getLast? = some t := by
      rw [← List.cons_append, ← List.append_assoc, List.getLast?_concat]
    have hlast' : (l₁ ++ (l ++ [t])).getLast? = some t := by
      rw [← List.append_assoc, List.getLast?_concat]
    rw [hlast, hlast']
    exact if_neg hti

/-- The quantities when an entry is taken out. -/
theorem total_unlink (h : Holds pool lvl lvlIdx (l₁ ++ idx :: l₂))
    (hqty : ∀ j, (pool' j).quantity = (pool j).quantity) :
    (lvl.totalQty - (pool idx).quantity).toNat = pool'.total (l₁ ++ l₂) % 2 ^ 32 := by
  have hqueue : pool'.total (l₁ ++ l₂) = pool.total (l₁ ++ l₂) := OrderPool.total_congr fun j _ => hqty j
  have htotal := h.totalQty
  have hlt := (pool idx).quantity.toNat_lt
  rw [hqueue, UInt32.toNat_sub, htotal]
  simp only [OrderPool.total_append, OrderPool.total_cons]
  omega

/-- **The entry found is taken out**, whatever is before and after it. -/
theorem unlinkAt (h : Holds pool (ls.levels lvlIdx) lvlIdx (l₁ ++ idx :: l₂)) :
    Holds (ls.unlinkAt lvlIdx pool (l₁.getLast?.getD noIndex) idx).2.2
      ((ls.unlinkAt lvlIdx pool (l₁.getLast?.getD noIndex) idx).2.1.levels lvlIdx) lvlIdx (l₁ ++ l₂) := by
  have hnd := h.chain.nodup
  have hnot : idx ∉ l₁ ++ l₂ := (List.nodup_cons.mp (List.nodup_middle.mp hnd)).1
  have htail := tail_unlink hnd
  rw [← h.tail] at htail
  rcases List.eq_nil_or_concat' l₁ with rfl | ⟨l, t, rfl⟩
  · have hdef : (ls.unlinkAt lvlIdx pool (([] : List UInt16).getLast?.getD noIndex) idx).2 =
        (ls.setLevel lvlIdx
          ⟨pool.next idx, if (ls.levels lvlIdx).tail = idx then noIndex else (ls.levels lvlIdx).tail,
            (ls.levels lvlIdx).totalQty - (pool idx).quantity⟩, pool.setNext idx noIndex) := by
      by_cases hc : (ls.levels lvlIdx).tail = idx <;> simp [PriceLevels.unlinkAt, hc, OrderPool.next]
    rw [hdef]
    simp only [PriceLevels.setLevel, Function.update_self]
    refine ⟨?_, htail, fun j hj => ?_, h.total_unlink fun j => pool.quantity_setNext idx noIndex j⟩
    · obtain ⟨-, -, hchain⟩ := Chain.cons_iff.mp h.chain
      rw [OrderPool.next_setNext]
      exact hchain.update hnot
    · rw [OrderPool.levelIndex_setNext]
      exact h.levelIndex j (List.mem_cons_of_mem idx hj)
  · have hlast : (l ++ [t]).getLast?.getD noIndex = t := by simp
    rw [hlast] at htail ⊢
    have ht : t ≠ noIndex := by
      rintro rfl
      exact h.chain.null_notMem (by simp)
    have hti : t ≠ idx := fun hti => hnot (by simp [hti])
    have hdef : (ls.unlinkAt lvlIdx pool t idx).2 =
        (ls.setLevel lvlIdx
          ⟨(ls.levels lvlIdx).head, if (ls.levels lvlIdx).tail = idx then t else (ls.levels lvlIdx).tail,
            (ls.levels lvlIdx).totalQty - (pool idx).quantity⟩,
          (pool.setNext t (pool.next idx)).setNext idx noIndex) := by
      by_cases hc : (ls.levels lvlIdx).tail = idx <;> simp [PriceLevels.unlinkAt, hc, ht, OrderPool.next]
    rw [hdef]
    simp only [PriceLevels.setLevel, Function.update_self]
    refine ⟨?_, htail, fun j hj => ?_, h.total_unlink fun j => by simp⟩
    · have hchain := h.chain
      rw [List.append_assoc, List.singleton_append] at hchain
      rw [OrderPool.next_setNext, OrderPool.next_setNext, List.append_assoc, List.singleton_append]
      apply hchain.unlink.update
      simpa using hnot
    · rw [OrderPool.levelIndex_setNext, OrderPool.levelIndex_setNext]
      apply h.levelIndex j
      rcases List.mem_append.mp hj with hj | hj
      · exact List.mem_append_left _ hj
      · exact List.mem_append_right _ (List.mem_cons_of_mem idx hj)

/-- What `unlinkFromLevel` returns: whether the level is empty now. -/
theorem unlinkAt_fst (ls : PriceLevels) (lvlIdx : ℕ) (pool : OrderPool) (prev idx : UInt16) :
    (ls.unlinkAt lvlIdx pool prev idx).1 =
      decide (((ls.unlinkAt lvlIdx pool prev idx).2.1.levels lvlIdx).head = noIndex) := by
  simp [PriceLevels.unlinkAt, PriceLevels.setLevel]

/-- An entry that is not in the level stays as it is. -/
theorem unlinkAt_frame (ls : PriceLevels) (lvlIdx : ℕ) (pool : OrderPool) {j : UInt16} (hj : j ≠ idx)
    (hnot : j ∉ l₁) (hnone : j ≠ noIndex) :
    (ls.unlinkAt lvlIdx pool (l₁.getLast?.getD noIndex) idx).2.2 j = pool j := by
  have hprev : l₁.getLast?.getD noIndex ≠ j := by
    intro heq
    cases hlast : l₁.getLast? with
    | none => rw [hlast] at heq; exact hnone heq.symm
    | some t =>
      rw [hlast] at heq
      exact hnot (heq ▸ List.mem_of_getLast? hlast)
  simp only [PriceLevels.unlinkAt]
  rw [OrderPool.setNext_of_ne _ _ hj]
  split_ifs
  · exact OrderPool.setNext_of_ne _ _ hprev.symm
  · rfl

/-- No entry changes its level. -/
theorem unlinkAt_levelIndex (ls : PriceLevels) (lvlIdx : ℕ) (pool : OrderPool) (prev idx j : UInt16) :
    ((ls.unlinkAt lvlIdx pool prev idx).2.2 j).levelIndex = (pool j).levelIndex := by
  simp only [PriceLevels.unlinkAt, OrderPool.levelIndex_setNext]
  split_ifs
  · exact OrderPool.levelIndex_setNext ..
  · rfl

/-! ### The loop of `unlinkFromLevel` -/

/-- The loop comes to the entry, with the one before it. -/
theorem run_unlinkTurn_of_mem (ls : PriceLevels) (lvlIdx : ℕ) (l₁ : List UInt16) : ∀ (prev a : UInt16),
    Chain pool.next noIndex a (l₁ ++ idx :: l₂) →
    Loop.run (ls.unlinkTurn lvlIdx idx pool) (l₁.length + 1) (prev, a) =
      .exit (ls.unlinkAt lvlIdx pool (l₁.getLast?.getD prev) idx) := by
  induction l₁ with
  | nil =>
    intro prev a h
    obtain ⟨rfl, hnone, -⟩ := Chain.cons_iff.mp h
    exact Loop.run_of_exit (by simp [PriceLevels.unlinkTurn, hnone]) 0
  | cons x l₁ ih =>
    intro prev a h
    have hnd := h.nodup
    obtain ⟨rfl, hnone, htail⟩ := Chain.cons_iff.mp h
    have hne : a ≠ idx := by
      rintro rfl
      exact (List.nodup_cons.mp hnd).1 (by simp)
    have hturn : ls.unlinkTurn lvlIdx idx pool (prev, a) = .again (a, pool.next a) := by
      simp [PriceLevels.unlinkTurn, hnone, hne, OrderPool.next]
    rw [List.length_cons, Loop.run_of_again hturn, ih a _ htail, List.getLast?_cons]
    rfl

/-- The loop comes to the end of a list the entry is not in. -/
theorem run_unlinkTurn_of_notMem (ls : PriceLevels) (lvlIdx : ℕ) (queue : List UInt16) : ∀ (prev a : UInt16),
    Chain pool.next noIndex a queue → idx ∉ queue →
    Loop.run (ls.unlinkTurn lvlIdx idx pool) (queue.length + 1) (prev, a) = .exit (false, ls, pool) := by
  induction queue with
  | nil =>
    intro prev a h _
    obtain rfl := Chain.nil_iff.mp h
    exact Loop.run_of_exit (by simp [PriceLevels.unlinkTurn]) 0
  | cons x queue ih =>
    intro prev a h hnot
    obtain ⟨rfl, hnone, htail⟩ := Chain.cons_iff.mp h
    rw [List.mem_cons, not_or] at hnot
    have hturn : ls.unlinkTurn lvlIdx idx pool (prev, a) = .again (a, pool.next a) := by
      simp [PriceLevels.unlinkTurn, hnone, Ne.symm hnot.1, OrderPool.next]
    rw [List.length_cons, Loop.run_of_again hturn]
    exact ih a _ htail hnot.2

/-- **`unlinkFromLevel` ends at the entry**, if its level holds it. -/
theorem unlink_of_mem
    (h : Holds pool (ls.levels (pool idx).levelIndex.toNat) (pool idx).levelIndex.toNat (l₁ ++ idx :: l₂)) :
    ls.unlinkFromLevel idx pool =
      some (ls.unlinkAt (pool idx).levelIndex.toNat pool (l₁.getLast?.getD noIndex) idx) := by
  have hrun := run_unlinkTurn_of_mem ls (pool idx).levelIndex.toNat l₁ noIndex _ h.chain
  have hlen := h.length_le
  rw [List.length_append, List.length_cons] at hlen
  have hall := Loop.run_mono (n := 2 ^ 16 + 1) (by omega) hrun
  rw [PriceLevels.unlinkFromLevel, hall]

/-- **`unlinkFromLevel` ends with nothing changed**, if the level of the entry does not hold it. -/
theorem unlink_of_notMem
    (h : Holds pool (ls.levels (pool idx).levelIndex.toNat) (pool idx).levelIndex.toNat queue)
    (hnot : idx ∉ queue) : ls.unlinkFromLevel idx pool = some (false, ls, pool) := by
  have hrun := run_unlinkTurn_of_notMem ls (pool idx).levelIndex.toNat queue noIndex _ h.chain hnot
  have hlen := h.length_le
  have hall := Loop.run_mono (n := 2 ^ 16 + 1) (by omega) hrun
  rw [PriceLevels.unlinkFromLevel, hall]

end Unlink

section Reduce

variable (ls : PriceLevels) (idx : UInt16) (qty : UInt32) (pool : OrderPool)

theorem reduceQuantity_self :
    (ls.reduceQuantity idx qty pool).2 idx = { pool idx with quantity := (pool idx).quantity - qty } := by
  simp [PriceLevels.reduceQuantity]

theorem reduceQuantity_of_ne {j : UInt16} (hj : j ≠ idx) : (ls.reduceQuantity idx qty pool).2 j = pool j :=
  Function.update_of_ne hj ..

/-- Reducing changes no list. -/
theorem reduceQuantity_next : (ls.reduceQuantity idx qty pool).2.next = pool.next := by
  funext j
  by_cases hj : j = idx
  · rw [hj, OrderPool.next, reduceQuantity_self]
    rfl
  · rw [OrderPool.next, reduceQuantity_of_ne _ _ _ _ hj]
    rfl

theorem reduceQuantity_level :
    (ls.reduceQuantity idx qty pool).1.levels (pool idx).levelIndex.toNat =
      { ls.levels (pool idx).levelIndex.toNat with
        totalQty := (ls.levels (pool idx).levelIndex.toNat).totalQty - qty } := by
  simp [PriceLevels.reduceQuantity, PriceLevels.setLevel]

end Reduce

/-- **The quantity of an entry is reduced**, by no more than it has. -/
theorem reduce {ls : PriceLevels} {qty : UInt32}
    (h : Holds pool (ls.levels (pool idx).levelIndex.toNat) (pool idx).levelIndex.toNat queue)
    (hidx : idx ∈ queue) (hqty : qty.toNat ≤ (pool idx).quantity.toNat) :
    Holds (ls.reduceQuantity idx qty pool).2
      ((ls.reduceQuantity idx qty pool).1.levels (pool idx).levelIndex.toNat)
      (pool idx).levelIndex.toNat queue := by
  obtain ⟨l₁, l₂, rfl⟩ := List.append_of_mem hidx
  have hnd := h.chain.nodup
  have hnot : idx ∉ l₁ ++ l₂ := (List.nodup_cons.mp (List.nodup_middle.mp hnd)).1
  have hself := reduceQuantity_self ls idx qty pool
  have hne {j : UInt16} (hj : j ≠ idx) := reduceQuantity_of_ne ls idx qty pool hj
  have hnext := reduceQuantity_next ls idx qty pool
  rw [reduceQuantity_level]
  refine ⟨by rw [hnext]; exact h.chain, h.tail, fun j hj => ?_, ?_⟩
  · by_cases hj' : j = idx
    · rw [hj', hself]
    · rw [hne hj']
      exact h.levelIndex j hj
  · have hothers : (ls.reduceQuantity idx qty pool).2.total (l₁ ++ l₂) = pool.total (l₁ ++ l₂) := by
      refine OrderPool.total_congr fun j hj => ?_
      rw [hne]
      rintro rfl
      exact hnot hj
    have hsub : ((pool idx).quantity - qty).toNat = (pool idx).quantity.toNat - qty.toNat :=
      UInt32.toNat_sub_of_le _ _ (UInt32.le_iff_toNat_le.mpr hqty)
    have htotal := h.totalQty
    have hlt := qty.toNat_lt
    rw [UInt32.toNat_sub, htotal]
    simp only [OrderPool.total_append, OrderPool.total_cons, hself, hsub] at hothers ⊢
    omega

end Holds

end Scrimmage.Match
