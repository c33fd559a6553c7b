import Scrimmage.Market.Independence
import Scrimmage.Market.Trades

/-!
# An engine with no slot left

An order is stored in a slot of the pool before it is matched, also when it would be filled
at once. Slots come back through matching only, so an engine whose slots are all out drops
every order from then on, those too that would trade with the orders that rest.

## What is proved

* `matchedQuantity_submit`: a call trades what its order's sweep does not leave.
* `full_engine`: an order whose quantity is on offer at the front of the opposite side is
  filled exactly when there is a slot for it; an engine with no slot left stays as it is;
  and every engine can come to that.
* `full_engine_drops`: an order to buy what the one order that rests sells is dropped.
-/

namespace Scrimmage.Market

open Theory

variable {π : Type} {P : OrderPool π} {maxOrders : ℕ} {e : Engine π} {o : Order} {s : Slot} {p : π}

/-! ### What a call trades -/

/-- The quantity of the matches reported. -/
def matchedQuantity {ι : Type} (l : List (Report ι)) : ℕ :=
  (l.map fun
    | .execution .. => 0
    | .matched _ _ _ _ q => q.toNat).sum

theorem matchedQuantity_fill {ι : Type} (r r' : ι) (o o' : Order) (q : UInt64) (l : List (Report ι)) :
    matchedQuantity (fillReports r r' o o' q ++ l) = q.toNat + matchedQuantity l := by
  simp [matchedQuantity, fillReports]

theorem matchedQuantity_trades (s : Slot) (trades : List Trade) :
    matchedQuantity (trades.flatMap (Trade.reports s)) = tradedQuantity trades := by
  induction trades with
  | nil => rfl
  | cons t trades ih =>
    rw [List.flatMap_cons, Trade.reports, matchedQuantity_fill]
    rw [tradedQuantity_cons, ih]

/-- The fills of a sweep are of what it does not leave. -/
theorem matchedQuantity_fillsOf (s : Slot) (mem : Slot → Order) (o : Order) (l : List Slot) :
    matchedQuantity (fillsOf s mem o (reachedBy o mem l)) + leftOf o mem l = o.quantity.toNat := by
  rw [fillsOf_eq, matchedQuantity_trades, tradedQuantity_eq, trades_taken]
  exact Sweep.sum_taken _ _

/-- **A call trades what its order's sweep does not leave.** -/
theorem matchedQuantity_submit (h : Rep P maxOrders e []) (ha : P.acquire e.pool = some (s, p)) (o : Order) :
    matchedQuantity (reports (submitOrder P e o).2) + leftOf o e.mem (e.oppositeOf o) = o.quantity.toNat := by
  rw [(submitOrder_swept h ha o).reported]
  exact matchedQuantity_fillsOf ..

/-! ### No slot left -/

/-- With no slot left a call does nothing, and so do all after it. -/
theorem runOrders_of_none {orders : List Order} (ha : P.acquire (runOrders P maxOrders orders).pool = none)
    (more : List Order) :
    runOrders P maxOrders (orders ++ more) = runOrders P maxOrders orders ∧
      runReports P maxOrders (orders ++ more) = runReports P maxOrders orders := by
  induction more using List.reverseRecOn with
  | nil => simp
  | append_singleton more o ih =>
    rw [← List.append_assoc, runOrders_snoc, runReports_snoc, ih.1, ih.2, submitOrder_of_none ha, reports_nil,
      List.append_nil]
    exact ⟨rfl, rfl⟩

theorem held_congr {e e' : Engine π} (h : ∀ b x, e.side b x = e'.side b x) : held e = held e' := by
  simp only [held, h]

/-- An order that meets nothing comes to rest. -/
theorem held_submit (h : Rep P maxOrders e []) (ha : P.acquire e.pool = some (s, p)) (hopp : e.oppositeOf o = [])
    (hq : 0 < o.quantity.toNat) :
    (submitOrder P e o).1.oppositeOf o = [] ∧ (held (submitOrder P e o).1).length = (held e).length + 1 := by
  have hsub := submitOrder_swept h ha o
  generalize submitOrder P e o = out at hsub
  have hopp' : out.1.oppositeOf o = [] := by
    rw [hsub.opposite, hopp]
    rfl
  have hown : out.1.side o.bookIndex o.isBuy = e.side o.bookIndex o.isBuy ++ [s] := by
    rw [hsub.own, hopp]
    exact congrArg _ (if_pos hq)
  have hsides (b : Fin 1024) (x : Bool) :
      out.1.side b x = (e.setSide o.bookIndex o.isBuy (e.side o.bookIndex o.isBuy ++ [s])).side b x := by
    rcases o.side_cases b x with ⟨rfl, rfl⟩ | ⟨rfl, rfl⟩ | hb
    · rw [Engine.side_setSide_of_ne _ _ _ _ (by simp)]
      exact hopp'.trans hopp.symm
    · rw [Engine.side_setSide_same, hown]
    · rw [Engine.side_setSide_of_ne _ _ _ _ (by simp [hb])]
      exact hsub.other b hb x
  refine ⟨hopp', ?_⟩
  rw [held_congr hsides, (held_push e o.bookIndex o.isBuy s).length_eq, List.length_cons]

/-- Orders of one side come to rest one after the other, while there are slots. -/
theorem held_replicate (P : OrderPool π) (hq : 0 < o.quantity.toNat) {k : ℕ} (hk : k ≤ maxOrders) :
    (runOrders P maxOrders (List.replicate k o)).oppositeOf o = [] ∧
      (held (runOrders P maxOrders (List.replicate k o))).length = k := by
  induction k with
  | zero =>
    refine ⟨Engine.create_side _ _ P maxOrders, ?_⟩
    show (held (Engine.create P maxOrders)).length = 0
    rw [held_create, List.length_nil]
  | succ k ih =>
    obtain ⟨hopp, hlen⟩ := ih (by omega)
    have hlt : (List.replicate k o).length < maxOrders := by
      rw [List.length_replicate]
      omega
    obtain ⟨s, p, ha⟩ := exists_acquire P hlt
    obtain ⟨hopp', hlen'⟩ := held_submit (rep_runOrders P maxOrders _) ha hopp hq
    rw [List.replicate_succ', runOrders_snoc]
    exact ⟨hopp', by rw [hlen', hlen]⟩

/-- **A full engine.** An order with quantity, all of it on offer from the orders at the
front of the opposite side that cross its price, is filled without coming to rest exactly
when the pool has a slot for it. With no slot left the engine reports and changes nothing
any more, whatever is submitted. And there are orders after which no slot is left. -/
theorem full_engine (P : OrderPool π) (maxOrders : ℕ) :
    (∀ orders o, let e := runOrders P maxOrders orders
      0 < o.quantity.toNat →
      o.quantity.toNat ≤ Sweep.total (quantityOf e.mem) ((e.oppositeOf o).takeWhile (crossing o e.mem)) →
      (matchedQuantity (reports (submitOrder P e o).2) = o.quantity.toNat ∧
          (submitOrder P e o).1.side o.bookIndex o.isBuy = e.side o.bookIndex o.isBuy ↔
        (P.acquire e.pool).isSome)) ∧
    (∀ orders, P.acquire (runOrders P maxOrders orders).pool = none → ∀ more,
      runOrders P maxOrders (orders ++ more) = runOrders P maxOrders orders ∧
        runReports P maxOrders (orders ++ more) = runReports P maxOrders orders) ∧
    ∃ orders, P.acquire (runOrders P maxOrders orders).pool = none := by
  refine ⟨fun orders o => ?_, fun orders ha => runOrders_of_none ha, ?_⟩
  · intro e hq hoffer
    have h : Rep P maxOrders e [] := rep_runOrders P maxOrders orders
    have hleft : leftOf o e.mem (e.oppositeOf o) = 0 := by
      have hpos := mt Sweep.left_pos_iff.mp (Nat.not_lt.mpr hoffer)
      exact Nat.eq_zero_of_not_pos hpos
    cases ha : P.acquire e.pool with
    | none =>
      rw [submitOrder_of_none ha]
      refine iff_of_false (fun hfilled => ?_) (by simp)
      have : 0 = o.quantity.toNat := hfilled.1
      omega
    | some a =>
      obtain ⟨s, p⟩ := a
      refine iff_of_true ⟨?_, ?_⟩ rfl
      · have := matchedQuantity_submit h ha o
        omega
      · rw [(submitOrder_swept h ha o).own, hleft]
        exact List.append_nil _
  · refine ⟨List.replicate maxOrders (oneLot true 100), ?_⟩
    have h := rep_runOrders P maxOrders (List.replicate maxOrders (oneLot true 100))
    obtain ⟨-, hlen⟩ := held_replicate (o := oneLot true 100) P (by decide) (le_refl maxOrders)
    have hle := P.card_acquired_le (runOrders P maxOrders (List.replicate maxOrders (oneLot true 100))).pool
    have hlost := h.view_lost
    rw [P.acquire_eq_none_iff_card]
    have hslots := h.slots
    omega

/-- With one slot, taken by an order to sell at 100, an order to buy at 100 is dropped, and
so is every order after it. -/
theorem full_engine_drops :
    let e := runOrders firstFree 1 [oneLot false 100]
    let o := oneLot true 100
    (0 < o.quantity.toNat ∧
      o.quantity.toNat ≤ Sweep.total (quantityOf e.mem) ((e.oppositeOf o).takeWhile (crossing o e.mem))) ∧
    (submitOrder firstFree e o).2 = [] ∧
      ∀ more, runOrders firstFree 1 ([oneLot false 100] ++ more) = e := by
  intro e o
  have ha : firstFree.acquire e.pool = none := by decide +kernel
  refine ⟨by decide +kernel, ?_, fun more => (runOrders_of_none ha more).1⟩
  rw [submitOrder_of_none ha]

end Scrimmage.Market
