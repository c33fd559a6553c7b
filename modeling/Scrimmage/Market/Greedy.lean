import Scrimmage.Market.Exhaustion

/-!
# What matching an order does to its book

`matchOrder`, on the book of any state reached and any order with quantity: the orders of
the opposite side are filled one after the other, as long as they cross and quantity is
left, and nothing else is touched.

## What is proved

* `matchedQuantity_eq`: what a call fills in all.
* `fills_greedily`: the book after the call, in full (`FilledGreedily`).
-/

namespace Scrimmage.Market

open Theory

variable {π : Type} {P : OrderPool π} {maxOrders : ℕ} {e : Engine π} {o : Order} {s : Slot} {p : π}
  {mem : Slot → Order}

/-- **What matching the order `o` in slot `s` does** to the engine `e`: the orders `filled`
are filled one after the other, then perhaps the order `last` in part, and the orders
`untouched` come behind them. -/
structure FilledGreedily (e : Engine π) (o : Order) (s : Slot) (out : Engine π × List Event)
    (filled : List Slot) (last : Option (Slot × ℕ)) (untouched : List Slot) : Prop where
  /-- The opposite side, before and after: those that are filled are gone. -/
  before : e.oppositeOf o = filled ++ (last.map Prod.fst).toList ++ untouched
  after : out.1.oppositeOf o = (last.map Prod.fst).toList ++ untouched
  /-- The orders filled, in full or in part, cross. -/
  crossed : ∀ t ∈ filled ++ (last.map Prod.fst).toList, crossing o e.mem t = true
  /-- Each is filled completely before the next, the last in part. -/
  trades : ∃ trades : List Trade, reports out.2 = trades.flatMap (Trade.reports s) ∧
    trades.map Trade.taken = (filled.map fun t => (t, quantityOf e.mem t)) ++ last.toList
  partly : ∀ x ∈ last, 0 < x.2 ∧ x.2 < quantityOf e.mem x.1 ∧
    out.1.mem x.1 = { e.mem x.1 with quantity := UInt64.ofNat (quantityOf e.mem x.1 - x.2) }
  /-- What is filled in all. -/
  total : matchedQuantity (reports out.2) = min o.quantity.toNat
    (Sweep.total (quantityOf e.mem) ((e.oppositeOf o).takeWhile (crossing o e.mem)))
  /-- The order comes to rest behind those of its side, with what is not filled of it. -/
  own : out.1.side o.bookIndex o.isBuy =
    e.side o.bookIndex o.isBuy ++ if matchedQuantity (reports out.2) < o.quantity.toNat then [s] else []
  rested : matchedQuantity (reports out.2) < o.quantity.toNat → out.1.mem s =
    { o with quantity := UInt64.ofNat (o.quantity.toNat - matchedQuantity (reports out.2)) }
  /-- Nothing else changes. -/
  other : ∀ b, b ≠ o.bookIndex → ∀ x, out.1.side b x = e.side b x
  mem : ∀ t ∈ held e, t ∉ filled ++ (last.map Prod.fst).toList → out.1.mem t = e.mem t
  /-- The order is filled, or does not cross what is now at the front. -/
  done : matchedQuantity (reports out.2) = o.quantity.toNat ∨
    ∀ t ∈ (out.1.oppositeOf o).head?, o.crosses (out.1.mem t) = false

/-- A call fills what the orders at the front that cross hold, or all of its order. -/
theorem matchedQuantity_eq (h : Rep P maxOrders e []) (ha : P.acquire e.pool = some (s, p)) (o : Order) :
    matchedQuantity (reports (submitOrder P e o).2) = min o.quantity.toNat
      (Sweep.total (quantityOf e.mem) ((e.oppositeOf o).takeWhile (crossing o e.mem))) := by
  have hsum := matchedQuantity_submit h ha o
  rw [leftOf, Sweep.left_eq] at hsum
  omega

/-- With something left of the order, the order at the front does not cross. -/
theorem Submitted.front_of_left {out : Engine π × List Event} (hsub : Submitted e o s out)
    (hleft : 0 < leftOf o e.mem (e.oppositeOf o)) :
    ∀ t ∈ (out.1.oppositeOf o).head?, o.crosses (out.1.mem t) = false := by
  have hrest := Sweep.rest_of_left_pos hleft
  have hside : out.1.oppositeOf o = (e.oppositeOf o).dropWhile (crossing o e.mem) := by
    rw [hsub.opposite, restAfter, hrest]
    simp [Function.comp_def]
  intro t ht
  obtain ⟨-, q, hmem⟩ := hsub.mem_opposite (List.mem_of_mem_head? ht)
  rw [hside] at ht
  have hfront := List.head?_dropWhile_not (crossing o e.mem) (e.oppositeOf o)
  rw [Option.mem_def.mp ht] at hfront
  rw [hmem]
  exact hfront

/-- **Matching fills greedily and touches nothing else.** -/
theorem fills_greedily (P : OrderPool π) (maxOrders : ℕ) (orders : List Order) {o : Order}
    (hq : 0 < o.quantity.toNat) :
    let e := runOrders P maxOrders orders
    ∀ s p, P.acquire e.pool = some (s, p) → ∃ filled last untouched,
      FilledGreedily e o s (matchOrder P (e.accept p s o) o.bookIndex s) filled last untouched := by
  intro e s p ha
  have h : Rep P maxOrders e [] := rep_runOrders P maxOrders orders
  have hcall : matchOrder P (e.accept p s o) o.bookIndex s = submitOrder P e o := by
    simp only [submitOrder, ha]
  rw [hcall]
  have hsub := submitOrder_swept h ha o
  have hsum := matchedQuantity_submit h ha o
  have hfilled := matchedQuantity_eq h ha o
  have hreports := reports_submit h ha o
  generalize submitOrder P e o = out at hsub hsum hfilled hreports
  obtain ⟨filled, last, untouched, hsplit⟩ :=
    Sweep.exists_split (crossing o e.mem) (quantityOf e.mem) hq (e.oppositeOf o)
  have hleft : 0 < leftOf o e.mem (e.oppositeOf o) ↔ matchedQuantity (reports out.2) < o.quantity.toNat := by
    omega
  refine ⟨filled, last, untouched, hsplit.list, ?_, fun t ht => ?_, ?_, fun x hx => ?_, hfilled, ?_, fun hlt => ?_,
    hsub.other, fun t hheld ht => ?_, ?_⟩
  · rw [hsub.opposite, restAfter, hsplit.rest]
    cases last <;> simp [Function.comp_def]
  · rw [← hsplit.reached] at ht
    exact Sweep.ok_of_mem_reached ht
  · exact ⟨submitTrades e o, hreports, by rw [submitTrades, trades_taken, hsplit.taken]⟩
  · obtain ⟨hpos, hlt⟩ := hsplit.last x hx
    obtain rfl : last = some x := hx
    refine ⟨hpos, hlt, hsub.resting _ _ ?_⟩
    rw [restAfter, hsplit.rest]
    exact List.mem_append_left _ (List.mem_singleton_self _)
  · simp only [hsub.own, hleft]
  · rw [hsub.rested (hleft.mpr hlt)]
    congr 2
    omega
  · by_cases hopp : t ∈ e.oppositeOf o
    · -- an order of the opposite side that is not reached
      have hun : t ∈ untouched := by
        rw [hsplit.list] at hopp
        exact (List.mem_append.mp hopp).resolve_left ht
      rw [hsub.resting t (quantityOf e.mem t) ?_, quantityOf, withQuantity_ofNat_toNat]
      rw [restAfter, hsplit.rest]
      exact List.mem_append_right _ (List.mem_map_of_mem hun)
    · apply hsub.mem t ?_ hopp
      rintro rfl
      obtain ⟨b, x, hb⟩ := mem_held.mp hheld
      exact h.acquired_not_mem ha b x hb
  · by_cases hlt : matchedQuantity (reports out.2) < o.quantity.toNat
    · exact Or.inr (hsub.front_of_left (hleft.mpr hlt))
    · left
      omega

/-- An order to buy at 100 meets one to sell at 100. -/
theorem fills_greedily_one :
    let e := runOrders firstFree 2 [oneLot false 100]
    ∃ filled last untouched, FilledGreedily e (oneLot true 100) 1
      (matchOrder firstFree (e.accept (2, [1, 0]) 1 (oneLot true 100)) (oneLot true 100).bookIndex 1)
        filled last untouched :=
  fills_greedily firstFree 2 [oneLot false 100] (by decide) 1 (2, [1, 0]) (by decide +kernel)

end Scrimmage.Market
