import Scrimmage.Market.Workload

/-!
# An order in two parts, and a better one

What becomes of a run when its last order is given in another way: as two orders, one after the
other, that have its quantity between them; at a price more traders would take; or with more
quantity.

## What is proved

* `Book.after_parts`: two orders leave of a book what one does.
* `split_order`: nothing is gained or lost by splitting an order, but that what rests of it may
  be in two entries.
* `better_order`: a better price only adds trades, and more quantity takes from no order less.
-/

namespace Scrimmage.Market

open Theory

variable {π : Type} {P : OrderPool π} {maxOrders : ℕ} {e : Engine π} {o o' : Order} {s : Slot} {p : π} {q q' : ℕ}

/-! ### Quantities -/

/-- What rests of an order of which so much is left. -/
def Order.remainder (o : Order) (k : ℕ) : List Order := if 0 < k then [o.withLots k] else []

theorem Order.lots_lt (o : Order) : o.lots < 2 ^ 64 := o.quantity.toNat_lt

theorem Order.lots_withLots (h : q < 2 ^ 64) : (o.withLots q).lots = q := by
  rw [Order.lots, Order.withLots, UInt64.toNat_ofNat']
  exact Nat.mod_eq_of_lt h

namespace Book

variable (book : Book)

theorem left_withLots (h : q < 2 ^ 64) :
    book.left (o.withLots q) = Sweep.left o.crosses Order.lots q (book (!o.isBuy)) := by
  rw [left, Order.lots_withLots h]
  rfl

theorem after_withLots_opposite (h : q < 2 ^ 64) : book.after (o.withLots q) (!o.isBuy) =
    (Sweep.rest o.crosses Order.lots q (book (!o.isBuy))).map fun r => r.1.withLots r.2 := by
  have hne : ¬ (!o.isBuy) = (o.withLots q).isBuy := Bool.not_ne_self o.isBuy
  rw [after, if_neg hne, Order.lots_withLots h]
  rfl

theorem after_own (o : Order) : book.after o o.isBuy = book o.isBuy ++ o.remainder (book.left o) := by
  rw [after, if_pos rfl]
  rfl

theorem after_own_withLots : book.after (o.withLots q) o.isBuy = book o.isBuy ++ o.remainder (book.left (o.withLots q)) :=
  book.after_own (o.withLots q)

/-- The orders a sweep leaves, as orders, hold what it leaves them. -/
theorem lots_of_mem_rest {l : List Order} {r : Order × ℕ} (h : r ∈ Sweep.rest o.crosses Order.lots q l) :
    (r.1.withLots r.2).lots = r.2 :=
  Order.lots_withLots ((Sweep.le_of_mem_rest h).trans_lt r.1.lots_lt)

/-- **Two orders in the place of one** leave of it what it leaves, and the same of the opposite side. -/
theorem after_parts (hq' : 0 < q') (hsum : q + q' = o.lots) :
    book.left o = book.left (o.withLots q) + (book.after (o.withLots q)).left (o.withLots q') ∧
    book.after o (!o.isBuy) = (book.after (o.withLots q)).after (o.withLots q') (!o.isBuy) ∧
    (0 < book.left (o.withLots q) → (book.after (o.withLots q)).left (o.withLots q') = q') := by
  have hlt := o.lots_lt
  have h : q < 2 ^ 64 := by omega
  have h' : q' < 2 ^ 64 := by omega
  have hne : ¬ (!o.isBuy) = o.isBuy := Bool.not_ne_self o.isBuy
  -- the orders left by the first have the price they had, and what the sweep leaves them
  have hok : ∀ r ∈ Sweep.rest o.crosses Order.lots q (book (!o.isBuy)),
      (o.crosses ∘ fun r : Order × ℕ => r.1.withLots r.2) r = (o.crosses ∘ Prod.fst) r := fun r _ => rfl
  have hqty : ∀ r ∈ Sweep.rest o.crosses Order.lots q (book (!o.isBuy)),
      (Order.lots ∘ fun r : Order × ℕ => r.1.withLots r.2) r = r.2 := fun r hr => lots_of_mem_rest hr
  have hsecond : (book.after (o.withLots q)).left (o.withLots q') =
      Sweep.left (o.crosses ∘ Prod.fst) Prod.snd q' (Sweep.rest o.crosses Order.lots q (book (!o.isBuy))) := by
    rw [left_withLots _ h', after_withLots_opposite _ h, Sweep.left_map, Sweep.left_congr hok hqty]
  refine ⟨?_, ?_, fun hpos => ?_⟩
  · rw [hsecond, left_withLots _ h, ← Sweep.left_add hq', hsum]
    rfl
  · rw [after_withLots_opposite _ h', after_withLots_opposite _ h, Sweep.rest_map, Sweep.rest_congr hok hqty,
      after, if_neg hne, ← hsum, Sweep.rest_add hq', List.map_map, List.map_map]
    rfl
  · rw [left_withLots _ h] at hpos
    rw [hsecond, Sweep.left_rest_of_pos hpos]

end Book

/-! ### In two parts -/

theorem matchedQuantity_append {ι : Type} (l l' : List (Report ι)) :
    matchedQuantity (l ++ l') = matchedQuantity l + matchedQuantity l' := by
  simp [matchedQuantity]

theorem acquires_of_card (h : Rep P maxOrders e []) (hroom : (P.acquired e.pool).card < maxOrders) :
    ∃ s p, P.acquire e.pool = some (s, p) := by
  cases ha : P.acquire e.pool with
  | none =>
    rw [P.acquire_eq_none_iff_card, h.slots] at ha
    omega
  | some a => exact ⟨a.1, a.2, rfl⟩

/-- What a call trades is what it does not leave of its order. -/
theorem matchedQuantity_view (h : Rep P maxOrders e []) (ha : P.acquire e.pool = some (s, p)) (o : Order) :
    matchedQuantity (reports (submitOrder P e o).2) + ((e.view P).book o.bookIndex).left o = o.lots := by
  rw [view_left]
  exact matchedQuantity_submit h ha o

section Two

variable {s' : Slot} {p' : π} {b : Fin 1024}

/-- The books after two calls of orders for one of them. -/
theorem view_book_two (h : Rep P maxOrders e []) (ha : P.acquire e.pool = some (s, p))
    (ha' : P.acquire (submitOrder P e o).1.pool = some (s', p')) (hb : o.bookIndex = b) (hb' : o'.bookIndex = b) :
    ((submitOrder P (submitOrder P e o).1 o').1.view P).book =
      Function.update (e.view P).book b ((((e.view P).book b).after o).after o') := by
  rw [view_book_submit (h.submit o) ha' o', view_book_submit h ha o, hb', hb, Function.update_self, Function.update_idem]

/-- What is traded in two calls of orders for one book. -/
theorem matchedQuantity_two (h : Rep P maxOrders e []) (ha : P.acquire e.pool = some (s, p))
    (ha' : P.acquire (submitOrder P e o).1.pool = some (s', p')) (hb : o.bookIndex = b) (hb' : o'.bookIndex = b) :
    matchedQuantity (reports (submitOrder P e o).2) +
        matchedQuantity (reports (submitOrder P (submitOrder P e o).1 o').2) +
      (((e.view P).book b).left o + (((e.view P).book b).after o).left o') = o.lots + o'.lots := by
  have hfirst := matchedQuantity_view h ha o
  have hsecond := matchedQuantity_view (h.submit o) ha' o'
  rw [view_book_submit h ha o, hb', hb, Function.update_self] at hsecond
  rw [hb] at hfirst
  omega

end Two

/-- Orders with quantity lose no slot. -/
theorem view_lost_of_lots (h : Rep P maxOrders e []) (ha : P.acquire e.pool = some (s, p)) (ho : 0 < o.lots) :
    ((submitOrder P e o).1.view P).lost = (e.view P).lost := by
  rw [view_lost_submit h ha o, if_neg fun hl => by have := hl.1; omega]

/-- **An order may be split.** If there is room for two, giving a part of an order and then the rest of
it comes to the same as giving it at once: as much is traded, no slot more is lost, and every side
of every book is the same, but that what is left of the order, if it is left of both parts, rests in
two entries instead of one; and of the first part something is left only if the second is not touched. -/
theorem split_order (P : OrderPool π) (maxOrders : ℕ) (orders : List Order) (hq : 0 < q) (hq' : 0 < q')
    (hsum : q + q' = o.lots) (hroom : (P.acquired (runOrders P maxOrders orders).pool).card + 2 ≤ maxOrders) :
    let whole := (runOrders P maxOrders (orders ++ [o])).view P
    let parts := (runOrders P maxOrders (orders ++ [o.withLots q, o.withLots q'])).view P
    (∀ b x, (b, x) ≠ (o.bookIndex, o.isBuy) → parts.book b x = whole.book b x) ∧
    (∃ rested k k', (0 < k → k' = q') ∧
      whole.book o.bookIndex o.isBuy = rested ++ o.remainder (k + k') ∧
      parts.book o.bookIndex o.isBuy = rested ++ o.remainder k ++ o.remainder k') ∧
    parts.lost = whole.lost ∧
    matchedQuantity (runReports P maxOrders (orders ++ [o.withLots q, o.withLots q'])) =
      matchedQuantity (runReports P maxOrders (orders ++ [o])) := by
  have hlt := o.lots_lt
  have hlots : (o.withLots q).lots = q := Order.lots_withLots (by omega)
  have hlots' : (o.withLots q').lots = q' := Order.lots_withLots (by omega)
  have h := rep_runOrders P maxOrders orders
  obtain ⟨s, p, ha⟩ := acquires_of_card h (by omega)
  have h' := h.submit (o.withLots q)
  have hcard := (fills_submit h ha (o.withLots q)).1
  obtain ⟨s', p', ha'⟩ := acquires_of_card h' (by omega)
  rw [show orders ++ [o.withLots q, o.withLots q'] = orders ++ [o.withLots q] ++ [o.withLots q'] by simp]
  simp only [runReports_snoc, runOrders_snoc, matchedQuantity_append]
  generalize runOrders P maxOrders orders = e at h ha h' ha'
  have hb (k : ℕ) : (o.withLots k).bookIndex = o.bookIndex := rfl
  obtain ⟨hleft, hopp, hnone⟩ := ((e.view P).book o.bookIndex).after_parts hq' hsum
  have htraded := matchedQuantity_view h ha o
  have htwo := matchedQuantity_two h ha ha' (hb q) (hb q')
  rw [view_book_submit h ha o, view_book_two h ha ha' (hb q) (hb q')]
  refine ⟨fun b x hbx => ?_, ⟨(e.view P).book o.bookIndex o.isBuy, _, _, hnone, ?_, ?_⟩, ?_, by omega⟩
  · by_cases hbook : b = o.bookIndex
    · subst hbook
      obtain rfl : x = !o.isBuy := Bool.eq_not_of_ne fun hx => hbx (by rw [hx])
      rw [Function.update_self, Function.update_self, hopp]
    · rw [Function.update_of_ne hbook, Function.update_of_ne hbook]
  · rw [Function.update_self, Book.after_own, hleft]
  · rw [Function.update_self, Book.after_own_withLots, Book.after_own_withLots]
  · rw [view_lost_of_lots h' ha' (by omega), view_lost_of_lots h ha (by omega), view_lost_of_lots h ha (by omega)]

/-- An order to buy two lots, given one by one where one is for sale. -/
theorem split_order_two :
    let sell := oneLot false 100
    let buy := oneLot true 100
    let whole := (runOrders firstFree 3 ([sell] ++ [buy.withLots 2])).view firstFree
    let parts := (runOrders firstFree 3 ([sell] ++ [buy, buy])).view firstFree
    parts.lost = whole.lost ∧ matchedQuantity (runReports firstFree 3 ([sell] ++ [buy, buy])) =
      matchedQuantity (runReports firstFree 3 ([sell] ++ [buy.withLots 2])) :=
  (split_order firstFree 3 [oneLot false 100] (o := (oneLot true 100).withLots 2) Nat.one_pos Nat.one_pos (by decide)
    (by decide +kernel)).2.2

/-! ### A better order -/

/-- `o'` is for the same symbol and side, at a price as good for the others or better, and of no less. -/
structure Order.Betters (o' o : Order) : Prop where
  chars : o'.chars = o.chars
  isBuy : o'.isBuy = o.isBuy
  /-- A buyer pays as much or more, -/
  buys : o.isBuy = true → o.price ≤ o'.price
  /-- and a seller asks as much or less. -/
  sells : o.isBuy = false → o'.price ≤ o.price
  quantity : o.lots ≤ o'.lots

namespace Order.Betters

theorem crosses (h : o'.Betters o) {r : Order} (hc : o.crosses r = true) : o'.crosses r = true := by
  obtain ⟨hbuys, hsells⟩ := (Order.crosses_iff o r).mp hc
  refine (Order.crosses_iff o' r).mpr ⟨fun hb => ?_, fun hb => ?_⟩
  · rw [h.isBuy] at hb
    exact Int64.le_trans (hbuys hb) (h.buys hb)
  · rw [h.isBuy] at hb
    exact Int64.le_trans (h.sells hb) (hsells hb)

theorem oppositeOf (h : o'.Betters o) (e : Engine π) : e.oppositeOf o' = e.oppositeOf o := by
  rw [Engine.oppositeOf, Engine.oppositeOf, h.isBuy, Order.bookIndex_of_chars h.chars]

/-- What the orders take, from which slots: the better of them no less. -/
theorem taken (h : o'.Betters o) (e : Engine π) :
    (∃ first, first <+: (submitTrades e o').map Trade.taken ∧
      List.Forall₂ (fun x y => x.1 = y.1 ∧ x.2 ≤ y.2) ((submitTrades e o).map Trade.taken) first) ∧
    (o'.lots = o.lots → (submitTrades e o).map Trade.taken <+: (submitTrades e o').map Trade.taken) := by
  have hmono (k : ℕ) : Sweep.taken (crossing o e.mem) (quantityOf e.mem) k (e.oppositeOf o) <+:
      Sweep.taken (crossing o' e.mem) (quantityOf e.mem) k (e.oppositeOf o) :=
    Sweep.taken_mono fun t _ ht => h.crosses ht
  rw [submitTrades, submitTrades, trades_taken, trades_taken, h.oppositeOf e]
  refine ⟨?_, fun hlots => ?_⟩
  · obtain ⟨first, hfirst, hle⟩ := Sweep.taken_le h.quantity (e.oppositeOf o)
    exact ⟨first, hfirst.trans (hmono _), hle⟩
  · change Sweep.taken _ _ o.lots _ <+: Sweep.taken _ _ o'.lots _
    rw [hlots]
    exact hmono _

end Order.Betters

/-- **A better order trades no less.** Given in the place of another, an order for the same symbol and side,
at a price no worse for the others and of no less, trades with the same orders, in the same order and
as much with each or more, and then perhaps with others; if it is of the same quantity the trades
of the other are all among its own, and come first. -/
theorem better_order (P : OrderPool π) (maxOrders : ℕ) (orders : List Order) (h : o'.Betters o) :
    let e := runOrders P maxOrders orders
    ∃ s, ∃ trades trades' : List Trade, reports (submitOrder P e o).2 = trades.flatMap (Trade.reports s) ∧
      reports (submitOrder P e o').2 = trades'.flatMap (Trade.reports s) ∧
      (∃ first, first <+: trades'.map Trade.taken ∧
        List.Forall₂ (fun x y => x.1 = y.1 ∧ x.2 ≤ y.2) (trades.map Trade.taken) first) ∧
      (o'.lots = o.lots → trades.map Trade.taken <+: trades'.map Trade.taken) := by
  intro e
  have hrep := rep_runOrders P maxOrders orders
  cases ha : P.acquire e.pool with
  | none =>
    refine ⟨0, [], [], ?_, ?_, ⟨[], List.prefix_rfl, .nil⟩, fun _ => List.prefix_rfl⟩
    · rw [submitOrder_of_none ha]; rfl
    · rw [submitOrder_of_none ha]; rfl
  | some a =>
    obtain ⟨s, p⟩ := a
    exact ⟨s, submitTrades e o, submitTrades e o', reports_submit hrep ha o, reports_submit hrep ha o', h.taken e⟩

/-- Orders to buy at 100 and at 101, where one to sell at 100 rests. -/
theorem better_order_two :
    let e := runOrders firstFree 2 [oneLot false 100]
    ∃ s, ∃ trades trades' : List Trade, reports (submitOrder firstFree e (oneLot true 100)).2 = trades.flatMap (Trade.reports s) ∧
      reports (submitOrder firstFree e (oneLot true 101)).2 = trades'.flatMap (Trade.reports s) ∧
      (∃ first, first <+: trades'.map Trade.taken ∧
        List.Forall₂ (fun x y => x.1 = y.1 ∧ x.2 ≤ y.2) (trades.map Trade.taken) first) ∧
      ((oneLot true 101).lots = (oneLot true 100).lots →
        trades.map Trade.taken <+: trades'.map Trade.taken) :=
  better_order firstFree 2 [oneLot false 100] ⟨rfl, rfl, by decide, by decide, by decide⟩

end Scrimmage.Market
