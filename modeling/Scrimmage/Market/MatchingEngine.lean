import Scrimmage.Market.Order
import Mathlib.Data.Finset.Card
import Mathlib.Data.Finset.Range
import Mathlib.Logic.Function.Basic
import Mathlib.Data.List.FinRange

/-!
# The matching engine

`MatchingEngine` of `MatchingEngine.h`: a fixed table of 1024 books, each with its buy
and sell orders in the order they came to rest, the orders themselves in slots of a
preallocated pool.

## The model

* An `Order*` is the number of a slot (`Slot`); the orders are in `Engine.mem`.
* `OrderPool<Order>` is in `order_pool.h`, which the repository does not hold. It is a
  parameter, `OrderPool`: its operations, the set of slots that are out (acquired and
  not released), and what the engine relies on, as fields. `firstFree` is one such pool.
* The callbacks are what the engine reports: `submitOrder` returns, beside the engine
  it leaves, the calls it made (`Event`), in order: the execution and match reports, and
  the releases of slots. A report keeps the slot its `const Order&` refers to beside the
  order's value at that moment.
* `matchTurn` is one turn of the `while` loop of `matchOrder`.
-/

namespace Scrimmage.Market

open Theory

/-- An `Order*` into the pool: the slot it points to. -/
abbrev Slot := ℕ

/-! ### The pool -/

/-- `OrderPool<Order>`, and what the engine relies on: `maxOrders` slots, `acquire`
hands out a free one, or null exactly when none is free, `release` frees a slot. -/
structure OrderPool (π : Type) where
  /-- `OrderPool(maxOrders)`. -/
  create : ℕ → π
  /-- `acquire`: the slot and the pool after, or null. -/
  acquire : π → Option (Slot × π)
  /-- `release`. -/
  release : π → Slot → π
  /-- The slots that are out. -/
  acquired : π → Finset Slot
  /-- How many slots there are. -/
  maxOrders : π → ℕ
  maxOrders_create (n : ℕ) : maxOrders (create n) = n
  acquired_create (n : ℕ) : acquired (create n) = ∅
  acquired_lt {p : π} {s : Slot} : s ∈ acquired p → s < maxOrders p
  acquire_eq_none {p : π} : acquire p = none ↔ ∀ s < maxOrders p, s ∈ acquired p
  acquire_eq_some {p p' : π} {s : Slot} : acquire p = some (s, p') →
    s ∉ acquired p ∧ acquired p' = insert s (acquired p) ∧ maxOrders p' = maxOrders p
  release_acquired {p : π} {s : Slot} : s ∈ acquired p →
    acquired (release p s) = (acquired p).erase s ∧ maxOrders (release p s) = maxOrders p

/-- The pool that hands out the free slot of least number. Its state is the number of
slots and the list of those that are out. -/
def firstFree : OrderPool (ℕ × List Slot) where
  create n := (n, [])
  acquire p := ((List.range p.1).find? fun s => s ∉ p.2).map fun s => (s, p.1, s :: p.2)
  release p s := (p.1, p.2.filter (· ≠ s))
  acquired p := p.2.toFinset.filter (· < p.1)
  maxOrders p := p.1
  maxOrders_create _ := rfl
  acquired_create _ := rfl
  acquired_lt h := (Finset.mem_filter.mp h).2
  acquire_eq_none {p} := by
    simp only [Option.map_eq_none_iff, List.find?_eq_none, List.mem_range, Finset.mem_filter,
      List.mem_toFinset]
    constructor
    · exact fun h s hs => ⟨by simpa using h s hs, hs⟩
    · exact fun h s hs => by simpa using (h s hs).1
  acquire_eq_some {p p' s} h := by
    obtain ⟨a, ha, heq⟩ := Option.map_eq_some_iff.mp h
    simp only [Prod.mk.injEq] at heq
    obtain ⟨rfl, rfl⟩ := heq
    have hlt : a < p.1 := List.mem_range.mp (List.mem_of_find?_eq_some ha)
    have hout : a ∉ p.2 := by simpa using List.find?_some ha
    refine ⟨fun hm => hout (List.mem_toFinset.mp (Finset.mem_filter.mp hm).1), ?_, rfl⟩
    ext x
    simp only [Finset.mem_filter, List.mem_toFinset, List.mem_cons, Finset.mem_insert]
    constructor
    · rintro ⟨rfl | hx, hlt'⟩
      · exact Or.inl rfl
      · exact Or.inr ⟨hx, hlt'⟩
    · rintro (rfl | ⟨hx, hlt'⟩)
      · exact ⟨Or.inl rfl, hlt⟩
      · exact ⟨Or.inr hx, hlt'⟩
  release_acquired {p s} _ := by
    refine ⟨?_, rfl⟩
    ext x
    simp only [Finset.mem_filter, List.mem_toFinset, List.mem_filter, Finset.mem_erase, ne_eq,
      decide_eq_true_eq]
    exact ⟨fun ⟨⟨hx, hne⟩, hlt⟩ => ⟨hne, hx, hlt⟩, fun ⟨hne, hx, hlt⟩ => ⟨⟨hx, hne⟩, hlt⟩⟩

namespace OrderPool

variable {π : Type} (P : OrderPool π) {p p' : π} {s : Slot}

theorem card_acquired_le (p : π) : (P.acquired p).card ≤ P.maxOrders p := by
  have hsub : P.acquired p ⊆ Finset.range (P.maxOrders p) :=
    fun s hs => Finset.mem_range.mpr (P.acquired_lt hs)
  simpa using Finset.card_le_card hsub

/-- `acquire` gives null exactly when all the slots are out. -/
theorem acquire_eq_none_iff_card : P.acquire p = none ↔ (P.acquired p).card = P.maxOrders p := by
  rw [P.acquire_eq_none]
  have hsub : P.acquired p ⊆ Finset.range (P.maxOrders p) :=
    fun s hs => Finset.mem_range.mpr (P.acquired_lt hs)
  constructor
  · intro h
    have : P.acquired p = Finset.range (P.maxOrders p) :=
      hsub.antisymm fun s hs => h s (Finset.mem_range.mp hs)
    rw [this, Finset.card_range]
  · intro h s hs
    rw [Finset.eq_of_subset_of_card_le hsub (by rw [Finset.card_range, h])]
    exact Finset.mem_range.mpr hs

theorem card_acquire (h : P.acquire p = some (s, p')) :
    (P.acquired p').card = (P.acquired p).card + 1 := by
  obtain ⟨hs, heq, -⟩ := P.acquire_eq_some h
  rw [heq, Finset.card_insert_of_notMem hs]

theorem card_release (h : s ∈ P.acquired p) :
    (P.acquired (P.release p s)).card + 1 = (P.acquired p).card := by
  rw [(P.release_acquired h).1, Finset.card_erase_add_one h]

end OrderPool

/-! ### The engine -/

/-- `MatchingEngine::OrderBookEntry`: the two sides of a book. -/
structure OrderBookEntry where
  /-- `buyOrders`. -/
  buyOrders : List Slot
  /-- `sellOrders`. -/
  sellOrders : List Slot
  deriving DecidableEq

/-- `isBuy ? book.buyOrders : book.sellOrders`. -/
def OrderBookEntry.side (book : OrderBookEntry) (isBuy : Bool) : List Slot :=
  if isBuy then book.buyOrders else book.sellOrders

/-- The book with one of its sides replaced. -/
def OrderBookEntry.setSide (book : OrderBookEntry) (isBuy : Bool) (l : List Slot) : OrderBookEntry :=
  if isBuy then { book with buyOrders := l } else { book with sellOrders := l }

/-- A call of a callback. `ι` is how the orders are referred to: by their slots in what
the engine does. -/
inductive Report (ι : Type) where
  /-- `_executionReportCb(order, filledQuantity)`. -/
  | execution (ref : ι) (order : Order) (filledQuantity : UInt64)
  /-- `_matchReportCb(incoming, resting, matchedQuantity)`. -/
  | matched (incomingRef restingRef : ι) (incoming resting : Order) (matchedQuantity : UInt64)
  deriving DecidableEq

/-- A call the engine makes: of a callback, or of `_pool.release`. -/
inductive Event where
  /-- A callback. -/
  | report (r : Report Slot)
  /-- `_pool.release(slot)`. -/
  | release (slot : Slot)
  deriving DecidableEq

/-- `MatchingEngine`: its books, its pool, and the orders in the pool's slots. -/
structure Engine (π : Type) where
  /-- `_books`. -/
  books : Fin 1024 → OrderBookEntry
  /-- `_pool`. -/
  pool : π
  /-- What the slots hold. -/
  mem : Slot → Order

namespace Engine

variable {π : Type}

/-- `MatchingEngine(config)`. -/
def create (P : OrderPool π) (maxOrders : ℕ) : Engine π :=
  { books := fun _ => ⟨[], []⟩, pool := P.create maxOrders, mem := fun _ => default }

/-- One side of a book. -/
def side (e : Engine π) (book : Fin 1024) (isBuy : Bool) : List Slot := (e.books book).side isBuy

/-- Replace one side of a book. -/
def setSide (e : Engine π) (book : Fin 1024) (isBuy : Bool) (l : List Slot) : Engine π :=
  { e with books := Function.update e.books book ((e.books book).setSide isBuy l) }

/-- `*slot = order`. -/
def store (e : Engine π) (slot : Slot) (order : Order) : Engine π :=
  { e with mem := Function.update e.mem slot order }

/-- `slot->quantity -= q`. -/
def subQuantity (e : Engine π) (slot : Slot) (q : UInt64) : Engine π :=
  e.store slot ((e.mem slot).sub q)

/-- `_pool.release(slot)`. -/
def release (P : OrderPool π) (e : Engine π) (slot : Slot) : Engine π :=
  { e with pool := P.release e.pool slot }

end Engine

/-! ### Matching -/

variable {π : Type}

/-- The state of the matching loop: the engine, the index `i`, and the calls made. -/
structure MatchState (π : Type) where
  /-- The engine. -/
  engine : Engine π
  /-- `i`. -/
  i : ℕ
  /-- The calls made so far. -/
  events : List Event

/-- The three callbacks of one fill. -/
def fillReports {ι : Type} (incomingRef restingRef : ι) (incoming resting : Order) (fillQty : UInt64) :
    List (Report ι) :=
  [.execution incomingRef incoming fillQty, .execution restingRef resting fillQty,
    .matched incomingRef restingRef incoming resting fillQty]

/-- **One turn of the loop of `matchOrder`**; `oppositeSide` is the side
`oppositeIsBuy` of the book. The loop is left with `true` by its `return`, and with
`false` by its condition or its `break`. -/
def matchTurn (P : OrderPool π) (book : Fin 1024) (oppositeIsBuy : Bool) (incoming : Slot)
    (st : MatchState π) : Turn (MatchState π) (MatchState π × Bool) :=
  match (st.engine.side book oppositeIsBuy)[st.i]? with
  | none => .exit (st, false)
  | some resting =>
    if (st.engine.mem incoming).crosses (st.engine.mem resting) then
      let fillQty := min (st.engine.mem incoming).quantity (st.engine.mem resting).quantity
      let e := (st.engine.subQuantity incoming fillQty).subQuantity resting fillQty
      let events := st.events ++
        (fillReports incoming resting (e.mem incoming) (e.mem resting) fillQty).map .report
      let st' : MatchState π :=
        if (e.mem resting).quantity = 0 then
          { engine := (e.release P resting).setSide book oppositeIsBuy
              ((e.side book oppositeIsBuy).eraseIdx st.i)
            i := st.i
            events := events ++ [.release resting] }
        else { engine := e, i := st.i + 1, events := events }
      if (st'.engine.mem incoming).quantity = 0 then
        .exit ({ st' with engine := st'.engine.release P incoming
                          events := st'.events ++ [.release incoming] }, true)
      else .again st'
    else .exit (st, false)

/-- The loop of `matchOrder`, after at most `n` turns. -/
def matchLoop (P : OrderPool π) (e : Engine π) (book : Fin 1024) (incoming : Slot) (n : ℕ) :
    Turn (MatchState π) (MatchState π × Bool) :=
  Loop.run (matchTurn P book (!(e.mem incoming).isBuy) incoming) n ⟨e, 0, []⟩

/-- What follows the loop: if it did not return, an order with quantity left is added to
its own side of the book. -/
def finishMatch (book : Fin 1024) (incoming : Slot) (r : MatchState π × Bool) : Engine π × List Event :=
  let e := r.1.engine
  if r.2 = false ∧ (e.mem incoming).quantity > 0 then
    let isBuy := (e.mem incoming).isBuy
    (e.setSide book isBuy (e.side book isBuy ++ [incoming]), r.1.events)
  else (e, r.1.events)

/-- `matchOrder`. A turn that goes round again leaves one order less to look at, so the
loop is left within one turn more than the opposite side has orders (`matchLoop_rep`). -/
def matchOrder (P : OrderPool π) (e : Engine π) (book : Fin 1024) (incoming : Slot) :
    Engine π × List Event :=
  match matchLoop P e book incoming ((e.side book (!(e.mem incoming).isBuy)).length + 1) with
  | .exit r => finishMatch book incoming r
  | .again st => finishMatch book incoming (st, false)

/-- The engine after `newOrder = _pool.acquire()` and `*newOrder = order`. -/
def Engine.accept (e : Engine π) (pool : π) (newOrder : Slot) (order : Order) : Engine π :=
  { e with pool := pool }.store newOrder order

/-- `submitOrder`. -/
def submitOrder (P : OrderPool π) (e : Engine π) (order : Order) : Engine π × List Event :=
  match P.acquire e.pool with
  | none => (e, [])
  | some (newOrder, pool) => matchOrder P (e.accept pool newOrder order) order.bookIndex newOrder

/-- The engine after a sequence of calls of `submitOrder`. -/
def runOrders (P : OrderPool π) (maxOrders : ℕ) (orders : List Order) : Engine π :=
  orders.foldl (fun e o => (submitOrder P e o).1) (Engine.create P maxOrders)

end Scrimmage.Market
