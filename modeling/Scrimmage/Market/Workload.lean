import Scrimmage.Market.Exhaustion
import Scrimmage.Theory.SweepCompare
import Mathlib.Algebra.BigOperators.Fin

/-!
# How much an engine does

A call may fill any number of orders that rest, one for each turn of its loop but perhaps the
last. Each order it fills leaves its slot, or else the order in hand does; so the fills of a
run are paid for by the slots that are taken and given back, and the slots that are out are
what is not paid back yet.

## What is proved

* `length_held_of_book`: how the number of orders that rest changes with one book.
* `fills_submit`: what a call does to the number of slots that are out; `matchTurns_submit`: how
  many turns its loop takes.
* `fills_amortized`: the orders that got a slot, against the fills, the slots still out and the turns.
* `pools_agree`: which slots a pool hands out, and how many it has beyond those asked for,
  makes no difference.
-/

namespace Scrimmage.Market

open Theory

variable {π ρ : Type} {P : OrderPool π} {Q : OrderPool ρ} {maxOrders m n : ℕ} {e e' : Engine π} {o : Order} {s : Slot}
  {p : π}

/-! ### Fills -/

/-- How many matches are reported. -/
def fills {ι : Type} (l : List (Report ι)) : ℕ :=
  l.countP fun
    | .execution .. => false
    | .matched .. => true

theorem fills_append {ι : Type} (l l' : List (Report ι)) : fills (l ++ l') = fills l + fills l' :=
  List.countP_append

/-- There is one with each order. -/
theorem fills_fillsOf (s : Slot) (mem : Slot → Order) (o : Order) (l : List Slot) :
    fills (fillsOf s mem o l) = l.length := by
  induction l generalizing o with
  | nil => rfl
  | cons r l ih =>
    rw [fillsOf, fills_append, ih, List.length_cons, Nat.add_comm]
    rfl

/-! ### Slots -/

theorem length_held (e : Engine π) : (held e).length = ∑ b, ((e.side b true).length + (e.side b false).length) := by
  simp [held, List.length_flatMap, Fin.sum_univ_def]

/-- **Where one book changes**, the number of orders that rest does as those of its two sides. -/
theorem length_held_of_book {b : Fin 1024} (h : ∀ b', b' ≠ b → ∀ x, e'.side b' x = e.side b' x) (x : Bool) :
    (held e').length + ((e.side b x).length + (e.side b !x).length) =
      (held e).length + ((e'.side b x).length + (e'.side b !x).length) := by
  have hrest : ∑ b' ∈ Finset.univ.erase b, ((e'.side b' true).length + (e'.side b' false).length) =
      ∑ b' ∈ Finset.univ.erase b, ((e.side b' true).length + (e.side b' false).length) :=
    Finset.sum_congr rfl fun b' hb' => by rw [h b' (Finset.ne_of_mem_erase hb'), h b' (Finset.ne_of_mem_erase hb')]
  rw [length_held, length_held, ← Finset.add_sum_erase _ _ (Finset.mem_univ b),
    ← Finset.add_sum_erase _ (fun b' => (e.side b' true).length + (e.side b' false).length) (Finset.mem_univ b), hrest]
  cases x <;> simp only [Bool.not_true, Bool.not_false] <;> omega

/-- The orders that rest after a call. -/
theorem Submitted.length_held {out : Engine π × List Event} (hsub : Submitted e o s out) :
    (held out.1).length + (e.oppositeOf o).length =
      (held e).length + ((restAfter o e.mem (e.oppositeOf o)).length +
        if 0 < leftOf o e.mem (e.oppositeOf o) then 1 else 0) := by
  have hbook := length_held_of_book hsub.other o.isBuy
  rw [hsub.own, List.length_append] at hbook
  have hopp := congrArg List.length hsub.opposite
  rw [List.length_map] at hopp
  change _ + (_ + (e.oppositeOf o).length) = _ + (_ + (out.1.oppositeOf o).length) at hbook
  split_ifs at hbook ⊢ with hleft <;> simp only [List.length_singleton, List.length_nil] at hbook <;> omega

/-- The call leaves a slot lost: its order reaches nothing and does not rest. -/
theorem Leaks.sweep (h : Leaks P e o) : reachedBy o e.mem (e.oppositeOf o) = [] ∧
    leftOf o e.mem (e.oppositeOf o) = 0 ∧ (restAfter o e.mem (e.oppositeOf o)).length = (e.oppositeOf o).length := by
  obtain ⟨-, hq, hfront⟩ := h
  have hreached : reachedBy o e.mem (e.oppositeOf o) = [] := Sweep.reached_eq_nil_iff.mpr hfront
  refine ⟨hreached, ?_, ?_⟩
  · rw [leftOf, Sweep.left_eq, hq]
    exact Nat.zero_sub _
  · rw [restAfter, Sweep.rest_of_reached_nil hreached, List.length_map]

/-- An order with quantity, or that reaches one, fills what it gives back, and no more than twice that. -/
theorem length_reachedBy {mem : Slot → Order} {l : List Slot} (h : 0 < o.quantity.toNat ∨ reachedBy o mem l ≠ []) :
    (reachedBy o mem l).length + (restAfter o mem l).length + (if 0 < leftOf o mem l then 1 else 0) ≤ l.length + 1 ∧
    l.length + 1 ≤ 2 * (reachedBy o mem l).length + (restAfter o mem l).length + (if 0 < leftOf o mem l then 1 else 0) :=
  Sweep.length_reached h

/-- **What a call pays**: the slot of its order covers its fills, and each fill gives back at least a
slot but for the one that stays out. -/
theorem fills_submit (h : Rep P maxOrders e []) (ha : P.acquire e.pool = some (s, p)) (o : Order) :
    fills (reports (submitOrder P e o).2) + (P.acquired (submitOrder P e o).1.pool).card ≤ (P.acquired e.pool).card + 1 ∧
    (P.acquired e.pool).card + 1 ≤
      2 * fills (reports (submitOrder P e o).2) + (P.acquired (submitOrder P e o).1.pool).card := by
  obtain ⟨lost, hlost⟩ := h.exists_lost
  have hcard := (submitOrder_rep (o := o) h hlost ha).card
  rw [List.nil_append] at hlost
  have hsub := submitOrder_swept h ha o
  have hheld := hsub.length_held
  rw [List.nil_append] at hcard
  rw [hsub.reported, fills_fillsOf]
  by_cases hl : Leaks P e o
  · obtain ⟨hreached, hleft, hrest⟩ := hl.sweep
    rw [if_pos hl] at hcard
    rw [hleft, hrest] at hheld
    rw [hreached]
    simp only [Nat.lt_irrefl, if_false, List.length_nil] at hheld ⊢
    omega
  · have hpays : 0 < o.quantity.toNat ∨ reachedBy o e.mem (e.oppositeOf o) ≠ [] := by
      by_contra hnot
      rw [not_or, not_not, reachedBy, Sweep.reached_eq_nil_iff, Nat.not_lt, Nat.le_zero] at hnot
      exact hl ⟨by rw [ha]; rfl, UInt64.toNat_inj.mp hnot.1, hnot.2⟩
    obtain ⟨hle, hge⟩ := length_reachedBy hpays
    rw [if_neg hl] at hcard
    omega

/-! ### Turns -/

/-- How many turns the matching loop of a call takes. -/
def matchTurns (P : OrderPool π) (e : Engine π) (o : Order) : ℕ :=
  match P.acquire e.pool with
  | none => 0
  | some (s, p) =>
    Loop.turns (matchTurn P o.bookIndex (!o.isBuy) s) ((e.side o.bookIndex (!o.isBuy)).length + 1)
      ⟨e.accept p s o, 0, []⟩

/-- **A call takes a turn for each fill**, and one more at most. -/
theorem matchTurns_submit (h : Rep P maxOrders e []) (ha : P.acquire e.pool = some (s, p)) (o : Order) :
    matchTurns P e o ≤ fills (reports (submitOrder P e o).2) + 1 := by
  obtain ⟨r, hexit, -⟩ := submitOrder_exit (o := o) h ha
  obtain ⟨m, st, hturns, hrun, -⟩ := Loop.turns_of_exit hexit
  obtain ⟨hnd, hs⟩ := h.start_side ha o
  obtain ⟨done, rest, rfl, hsw⟩ := swept_of_again hnd hs hrun
  -- the orders filled on the turns before the last are among those that the call reaches
  have hreached := hsw.reached_eq
  rw [Engine.accept_mem_self] at hreached
  change reachedBy o _ (e.oppositeOf o) = _ at hreached
  rw [(submitOrder_swept h ha o).reported, fills_fillsOf, ← reachedBy_accept h ha o, hreached, List.length_append]
  simp only [matchTurns, ha, hturns]
  omega

/-! ### Runs -/

/-- How many turns the matching loops take over a sequence of calls. -/
def runTurns (P : OrderPool π) (maxOrders : ℕ) (orders : List Order) : ℕ :=
  (orders.foldl (fun r o => ((submitOrder P r.1 o).1, r.2 + matchTurns P r.1 o)) (Engine.create P maxOrders, 0)).2

theorem runTurns_snoc (P : OrderPool π) (maxOrders : ℕ) (orders : List Order) (o : Order) :
    runTurns P maxOrders (orders ++ [o]) =
      runTurns P maxOrders orders + matchTurns P (runOrders P maxOrders orders) o := by
  have hfst : (orders.foldl (fun r o => ((submitOrder P r.1 o).1, r.2 + matchTurns P r.1 o))
      (Engine.create P maxOrders, 0)).1 = runOrders P maxOrders orders := by
    induction orders using List.reverseRecOn with
    | nil => rfl
    | append_singleton orders o ih => rw [List.foldl_append, runOrders_snoc, ← ih, List.foldl_cons, List.foldl_nil]
  rw [runTurns, List.foldl_append, ← hfst]
  rfl

/-- How many of the orders get a slot. -/
def accepted (P : OrderPool π) (maxOrders : ℕ) (orders : List Order) : ℕ :=
  (List.range orders.length).countP fun k => (P.acquire (runOrders P maxOrders (orders.take k)).pool).isSome

theorem accepted_snoc (P : OrderPool π) (maxOrders : ℕ) (orders : List Order) (o : Order) :
    accepted P maxOrders (orders ++ [o]) =
      accepted P maxOrders orders + if (P.acquire (runOrders P maxOrders orders).pool).isSome then 1 else 0 := by
  have htake : (List.range orders.length).countP
      (fun k => (P.acquire (runOrders P maxOrders ((orders ++ [o]).take k)).pool).isSome) =
      accepted P maxOrders orders :=
    List.countP_congr fun k hk => by rw [List.take_append_of_le_length (List.mem_range.mp hk).le]
  rw [accepted, List.length_append, List.length_singleton, List.range_succ, List.countP_append, htake,
    List.countP_singleton, List.take_left]

theorem accepted_le (P : OrderPool π) (maxOrders : ℕ) (orders : List Order) :
    accepted P maxOrders orders ≤ orders.length :=
  List.countP_le_length.trans (List.length_range ..).le

/-- The turns of a run: one for each match and each order that got a slot, at most. -/
theorem runTurns_le (P : OrderPool π) (maxOrders : ℕ) (orders : List Order) :
    runTurns P maxOrders orders ≤ fills (runReports P maxOrders orders) + accepted P maxOrders orders := by
  induction orders using List.reverseRecOn with
  | nil => exact Nat.zero_le _
  | append_singleton orders o ih =>
    rw [accepted_snoc, runReports_snoc, runTurns_snoc, fills_append]
    cases ha : P.acquire (runOrders P maxOrders orders).pool with
    | none =>
      have hnone : matchTurns P (runOrders P maxOrders orders) o = 0 := by simp only [matchTurns, ha]
      rw [submitOrder_of_none ha, hnone]
      exact ih
    | some a =>
      have hturns := matchTurns_submit (rep_runOrders P maxOrders orders) ha o
      simp only [Option.isSome_some, if_true]
      omega

/-- **The fills of a run are paid for.** The orders that got a slot are as many as the matches reported
and the slots still out, or more, but no more than twice the matches and those slots: however the
fills fall on the calls, no run makes more matches than it accepts orders, and with all slots back
it makes at least half as many. So its loops take no more turns than twice the orders. -/
theorem fills_amortized (P : OrderPool π) (maxOrders : ℕ) (orders : List Order) :
    fills (runReports P maxOrders orders) + (P.acquired (runOrders P maxOrders orders).pool).card ≤
      accepted P maxOrders orders ∧
    accepted P maxOrders orders ≤
      2 * fills (runReports P maxOrders orders) + (P.acquired (runOrders P maxOrders orders).pool).card ∧
    runTurns P maxOrders orders ≤ 2 * orders.length := by
  suffices hpaid : fills (runReports P maxOrders orders) + (P.acquired (runOrders P maxOrders orders).pool).card ≤
        accepted P maxOrders orders ∧
      accepted P maxOrders orders ≤
        2 * fills (runReports P maxOrders orders) + (P.acquired (runOrders P maxOrders orders).pool).card by
    have hturns := runTurns_le P maxOrders orders
    have haccepted := accepted_le P maxOrders orders
    exact ⟨hpaid.1, hpaid.2, by omega⟩
  induction orders using List.reverseRecOn with
  | nil =>
    show fills [] + (P.acquired (P.create maxOrders)).card ≤ 0 ∧ _
    simp [accepted, fills, runReports, P.acquired_create]
  | append_singleton orders o ih =>
    rw [accepted_snoc, runReports_snoc, runOrders_snoc, fills_append]
    cases ha : P.acquire (runOrders P maxOrders orders).pool with
    | none =>
      rw [submitOrder_of_none ha]
      exact ih
    | some a =>
      obtain ⟨hle, hge⟩ := fills_submit (rep_runOrders P maxOrders orders) ha o
      simp only [Option.isSome_some, if_true]
      omega

/-! ### Pools -/

/-- An engine whose pool has a slot is not full as an exchange, nor would it be with more slots. -/
theorem Rep.view_not_full (h : Rep P m e []) (ha : (P.acquire e.pool).isSome) (hmn : m ≤ n) :
    ¬ (e.view P).Full m ∧ ¬ (e.view P).Full n := by
  have hm : ¬ (e.view P).Full m := by
    rw [h.view_full_iff]
    exact Option.isSome_iff_ne_none.mp ha
  have hle := P.card_acquired_le e.pool
  rw [h.slots, h.view_lost, ← List.length_map, ← view_orders P e] at hle
  unfold Exchange.Full at hm ⊢
  omega

/-- As long as no order is dropped, more slots make no difference. -/
theorem exchange_run_of_accepted {orders : List Order} (hmn : m ≤ n) (h : accepted P m orders = orders.length) :
    Exchange.run m orders = Exchange.run n orders := by
  induction orders using List.reverseRecOn with
  | nil => rfl
  | append_singleton orders o ih =>
    have hle := accepted_le P m orders
    rw [accepted_snoc, List.length_append, List.length_singleton] at h
    have hsome : (P.acquire (runOrders P m orders).pool).isSome = true := by
      by_contra hnone
      rw [if_neg hnone] at h
      omega
    rw [if_pos hsome] at h
    obtain ⟨hm, hn⟩ := (rep_runOrders P m orders).view_not_full hsome hmn
    rw [(runOrders_refines P m orders).1] at hm hn
    rw [Exchange.run_snoc, Exchange.run_snoc, ← ih (by omega)]
    simp only [Exchange.submit, if_neg hm, if_neg hn]

/-- **Any pool will do.** Two engines, whose pools hand out their slots as they like, hold the same
orders in the same places, have lost as many slots and have reported the same, after any orders,
if they have as many slots, or if one has dropped none of the orders and the other has more. -/
theorem pools_agree (P : OrderPool π) (Q : OrderPool ρ) {orders : List Order}
    (h : m = n ∨ m ≤ n ∧ accepted P m orders = orders.length) :
    (runOrders P m orders).view P = (runOrders Q n orders).view Q ∧
      (runReports P m orders).map Report.value = (runReports Q n orders).map Report.value := by
  have hrun : Exchange.run m orders = Exchange.run n orders := by
    rcases h with rfl | ⟨hmn, hall⟩
    · rfl
    · exact exchange_run_of_accepted hmn hall
  obtain ⟨hview, hreports⟩ := runOrders_refines P m orders
  obtain ⟨hview', hreports'⟩ := runOrders_refines Q n orders
  rw [hview, hview', hreports, hreports', hrun]
  exact ⟨rfl, rfl⟩

/-- Two orders that trade, with two slots and with three. -/
theorem pools_agree_two :
    (runOrders firstFree 2 [oneLot false 100, oneLot true 100]).view firstFree =
      (runOrders firstFree 3 [oneLot false 100, oneLot true 100]).view firstFree ∧
    (runReports firstFree 2 [oneLot false 100, oneLot true 100]).map Report.value =
      (runReports firstFree 3 [oneLot false 100, oneLot true 100]).map Report.value :=
  pools_agree firstFree firstFree (.inr ⟨by decide, by decide +kernel⟩)

end Scrimmage.Market
