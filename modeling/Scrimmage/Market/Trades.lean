import Scrimmage.Market.Ledger
import Scrimmage.Market.Priority

/-!
# What is reported as traded

The callbacks of a call come in threes, one three for each order it reaches: an execution
report for each side and a match report. `Trade` is what such a three stands for.

## What is proved

* `trades_taken`: the trades of an order take from each slot what its sweep takes.
* `trades_agreed`: every trade of a run is one both orders agreed to, `Trade.Agreed`.
* `no_phantom_iff`: every report of a run is of a positive quantity, exactly when no order
  without quantity meets one that it crosses. `phantom_trade` is an order that does.
-/

namespace Scrimmage.Market

open Theory

variable {π : Type}

/-! ### Trades -/

/-- A fill of the order in hand, with both orders as they were before it. -/
structure Trade where
  /-- The order in hand. -/
  incoming : Order
  /-- The slot of the order it trades with. -/
  resting : Slot
  /-- The order in that slot. -/
  restingOrder : Order
  /-- How much is traded. -/
  quantity : UInt64

/-- The three callbacks of a trade of the order in slot `s`. -/
def Trade.reports (s : Slot) (t : Trade) : List (Report Slot) :=
  fillReports s t.resting (t.incoming.sub t.quantity) (t.restingOrder.sub t.quantity) t.quantity

/-- The trades of the order `o` with the orders in some slots, one after the other. -/
def tradesOf (mem : Slot → Order) : Order → List Slot → List Trade
  | _, [] => []
  | o, r :: l =>
    ⟨o, r, mem r, min o.quantity (mem r).quantity⟩ :: tradesOf mem (o.sub (min o.quantity (mem r).quantity)) l

/-- What a trade takes, and from which slot. -/
def Trade.taken (t : Trade) : Slot × ℕ := (t.resting, t.quantity.toNat)

/-- What some trades come to. -/
def tradedQuantity (trades : List Trade) : ℕ := (trades.map fun t => t.quantity.toNat).sum

section TradesOf

variable {mem : Slot → Order} {o : Order} {l : List Slot} {t : Trade} {pre post : List Trade}

@[simp] theorem tradedQuantity_nil : tradedQuantity [] = 0 := rfl

@[simp] theorem tradedQuantity_cons (t : Trade) (trades : List Trade) :
    tradedQuantity (t :: trades) = t.quantity.toNat + tradedQuantity trades := by
  simp [tradedQuantity]

/-- Fills are trades, reported. -/
theorem fillsOf_eq (s : Slot) (mem : Slot → Order) (o : Order) (l : List Slot) :
    fillsOf s mem o l = (tradesOf mem o l).flatMap (Trade.reports s) := by
  induction l generalizing o with
  | nil => rfl
  | cons r l ih => rw [fillsOf, ih, tradesOf, List.flatMap_cons, Trade.reports]

/-- There is a trade with each order, in order. -/
theorem map_resting_tradesOf (mem : Slot → Order) (o : Order) (l : List Slot) :
    (tradesOf mem o l).map Trade.resting = l := by
  induction l generalizing o with
  | nil => rfl
  | cons r l ih => rw [tradesOf, List.map_cons, ih]

/-- A trade is of as much as both orders have. -/
theorem of_mem_tradesOf (h : t ∈ tradesOf mem o l) :
    t.restingOrder = mem t.resting ∧ t.quantity = min t.incoming.quantity t.restingOrder.quantity := by
  induction l generalizing o with
  | nil => cases h
  | cons r l ih =>
    rcases List.mem_cons.mp h with rfl | h
    · exact ⟨rfl, rfl⟩
    · exact ih h

/-- **The order in hand** has, before a trade, what the trades before that one have left. -/
theorem incoming_of_split (h : tradesOf mem o l = pre ++ t :: post) :
    t.incoming = { o with quantity := t.incoming.quantity } ∧
      t.incoming.quantity.toNat + tradedQuantity pre = o.quantity.toNat := by
  induction pre generalizing o l with
  | nil =>
    cases l with
    | nil => cases h
    | cons r l =>
      obtain ⟨rfl, -⟩ := List.cons.inj h
      exact ⟨rfl, rfl⟩
  | cons u pre ih =>
    cases l with
    | nil => cases h
    | cons r l =>
      obtain ⟨rfl, hrest⟩ := List.cons.inj h
      obtain ⟨horder, hleft⟩ := ih hrest
      refine ⟨horder, ?_⟩
      have hle : (min o.quantity (mem r).quantity).toNat ≤ o.quantity.toNat :=
        UInt64.le_iff_toNat_le.mp (min_le_both _ _).1
      rw [Order.sub_quantity, toNat_sub_of_toNat_le hle] at hleft
      simp only [tradedQuantity_cons]
      omega

/-- The slots of the trades before one, and that of it. -/
theorem resting_of_split (h : tradesOf mem o l = pre ++ t :: post) :
    l = pre.map Trade.resting ++ t.resting :: post.map Trade.resting := by
  have hl := map_resting_tradesOf mem o l
  rw [h] at hl
  simpa using hl.symm

/-- Trades come to no more than the orders have. -/
theorem tradedQuantity_le (h : ∀ t ∈ pre, t.restingOrder = mem t.resting ∧
    t.quantity = min t.incoming.quantity t.restingOrder.quantity) :
    tradedQuantity pre ≤ Sweep.total (quantityOf mem) (pre.map Trade.resting) := by
  induction pre with
  | nil => exact Nat.le_refl 0
  | cons u pre ih =>
    obtain ⟨horder, hq⟩ := h u (List.mem_cons_self ..)
    have ih := ih fun t ht => h t (List.mem_cons_of_mem u ht)
    have hle : u.quantity.toNat ≤ (mem u.resting).quantity.toNat := by
      rw [hq, horder]
      exact UInt64.le_iff_toNat_le.mp (min_le_both _ _).2
    rw [tradedQuantity_cons, List.map_cons, Sweep.total_cons, quantityOf]
    omega

/-- **The trades of an order take what its sweep takes.** -/
theorem trades_taken (mem : Slot → Order) (o : Order) (l : List Slot) :
    (tradesOf mem o (reachedBy o mem l)).map Trade.taken =
      Sweep.taken (crossing o mem) (quantityOf mem) o.quantity.toNat l := by
  induction l generalizing o with
  | nil => rfl
  | cons r l ih =>
    simp only [reachedBy, Sweep.reached, Sweep.taken]
    by_cases hc : crossing o mem r
    · by_cases hlt : quantityOf mem r < o.quantity.toNat
      · have hq : (o.quantity - (mem r).quantity).toNat = o.quantity.toNat - quantityOf mem r :=
          toNat_sub_of_toNat_le hlt.le
        have ih := ih (o.sub (mem r).quantity)
        rw [reachedBy, Order.sub_quantity, hq] at ih
        -- what crosses does not depend on the quantity
        change (tradesOf mem _ (Sweep.reached (crossing o mem) _ _ l)).map Trade.taken =
          Sweep.taken (crossing o mem) _ _ l at ih
        simp only [hc, hlt, if_true, tradesOf, min_of_toNat_lt hlt, List.map_cons, ih]
        rfl
      · have hle : o.quantity.toNat ≤ (mem r).quantity.toNat := Nat.not_lt.mp hlt
        simp [hc, hlt, tradesOf, min_of_toNat_le hle, Trade.taken]
    · simp [hc, tradesOf]

theorem tradedQuantity_eq (trades : List Trade) :
    tradedQuantity trades = ((trades.map Trade.taken).map Prod.snd).sum := by
  simp [tradedQuantity, Trade.taken, Function.comp_def]

end TradesOf

section Submit

variable {P : OrderPool π} {maxOrders : ℕ} {e : Engine π} {o : Order} {s : Slot} {p : π} {t : Trade}
  {pre post : List Trade}

/-- The trades of a call whose order gets a slot. -/
def submitTrades (e : Engine π) (o : Order) : List Trade :=
  tradesOf e.mem o (reachedBy o e.mem (e.oppositeOf o))

/-- **A call reports its trades.** -/
theorem reports_submit (h : Rep P maxOrders e []) (ha : P.acquire e.pool = some (s, p)) (o : Order) :
    reports (submitOrder P e o).2 = (submitTrades e o).flatMap (Trade.reports s) := by
  rw [(submitOrder_swept h ha o).reported, fillsOf_eq, submitTrades]

/-- The order of a trade is on the opposite side, where it comes behind those of the trades
before, and crosses. -/
theorem submitTrades_resting (h : submitTrades e o = pre ++ t :: post) :
    (∃ rest, e.oppositeOf o = pre.map Trade.resting ++ t.resting :: rest) ∧
      crossing o e.mem t.resting = true ∧
      (pre = [] ∨ Sweep.total (quantityOf e.mem) (pre.map Trade.resting) < o.quantity.toNat) := by
  have hl : reachedBy o e.mem (e.oppositeOf o) = pre.map Trade.resting ++ t.resting :: post.map Trade.resting :=
    resting_of_split h
  obtain ⟨rest, hrest, hok, hlasts⟩ := Sweep.split_of_reached hl
  exact ⟨⟨rest, hrest⟩, hok t.resting (by simp), by simpa using hlasts⟩

end Submit

/-! ### Agreement -/

/-- **A trade both orders agreed to**, in a call of the order `o` after the history `h`, the
trades `before` having been made in it. -/
structure Trade.Agreed (h : History π) (orders : List Order) (o : Order) (before : List Trade) (t : Trade) :
    Prop where
  /-- The order in hand has what the trades before have left. -/
  incoming : t.incoming = { o with quantity := t.incoming.quantity } ∧
    t.incoming.quantity.toNat + tradedQuantity before = o.quantity.toNat
  /-- The other rested on the opposite side when the call began, and has not traded in it. -/
  rested : t.resting ∈ h.engine.oppositeOf o ∧ t.restingOrder = h.engine.mem t.resting ∧
    ∀ u ∈ before, u.resting ≠ t.resting
  /-- It was submitted in an earlier call, and has what its fills have left. -/
  submitted : ∃ o' ∈ orders, h.orders[h.owner t.resting]? = some o' ∧
    t.restingOrder = { o' with quantity := t.restingOrder.quantity } ∧
    sumFilled (executionsOf h.log (h.owner t.resting)) + t.restingOrder.quantity.toNat = o'.quantity.toNat
  /-- One buys and one sells, -/
  sides : t.restingOrder.isBuy = !t.incoming.isBuy
  /-- at a price that is good for both. -/
  prices : (t.incoming.isBuy = true → t.restingOrder.price ≤ t.incoming.price) ∧
    (t.incoming.isBuy = false → t.incoming.price ≤ t.restingOrder.price)
  /-- Neither trades more than it has, and one of them has nothing left. -/
  quantity : t.quantity ≤ t.incoming.quantity ∧ t.quantity ≤ t.restingOrder.quantity ∧
    ((t.incoming.sub t.quantity).quantity = 0 ∨ (t.restingOrder.sub t.quantity).quantity = 0)

/-- The orders of a history were submitted. -/
theorem History.orders_subset (P : OrderPool π) (maxOrders : ℕ) (orders : List Order) :
    (History.run P maxOrders orders).orders ⊆ orders := by
  induction orders using List.reverseRecOn with
  | nil => exact List.Subset.refl []
  | append_singleton orders o ih =>
    rw [History.run_snoc]
    cases ha : P.acquire (History.run P maxOrders orders).engine.pool with
    | none =>
      rw [History.submit_of_none ha]
      exact List.Subset.trans ih (List.subset_append_left _ _)
    | some a =>
      rw [History.submit_of_some ha]
      exact List.append_subset.mpr
        ⟨List.Subset.trans ih (List.subset_append_left _ _), List.subset_append_right _ _⟩

theorem Order.crosses_iff (o o' : Order) : o.crosses o' = true ↔
    (o.isBuy = true → o'.price ≤ o.price) ∧ (o.isBuy = false → o.price ≤ o'.price) := by
  cases hb : o.isBuy <;> simp [Order.crosses, hb]

/-- Of two quantities one has nothing left when the smaller is taken from both. -/
theorem sub_min_eq_zero (a b : UInt64) : a - min a b = 0 ∨ b - min a b = 0 := by
  rcases Nat.lt_or_ge b.toNat a.toNat with h | h
  · rw [min_of_toNat_lt h]
    exact Or.inr (UInt64.sub_self b)
  · rw [min_of_toNat_le h]
    exact Or.inl (UInt64.sub_self a)

/-- **Every reported trade is one both parties agreed to.** After any calls, the callbacks of
the next call are those of its trades, three each; and each trade is agreed. -/
theorem trades_agreed (P : OrderPool π) (maxOrders : ℕ) (orders : List Order) (o : Order) :
    let h := History.run P maxOrders orders
    ∃ s trades, reports (submitOrder P h.engine o).2 = trades.flatMap (Trade.reports s) ∧
      ∀ pre t post, trades = pre ++ t :: post → t.Agreed h orders o pre := by
  have hs := sound_run P maxOrders orders
  have hsub := History.orders_subset P maxOrders orders
  generalize History.run P maxOrders orders = h at hs hsub
  intro h
  cases ha : P.acquire h.engine.pool with
  | none => exact ⟨0, [], by rw [submitOrder_of_none ha]; rfl, fun pre t post heq => by simp at heq⟩
  | some a =>
    obtain ⟨s, p⟩ := a
    refine ⟨s, submitTrades h.engine o, reports_submit hs.rep ha o, fun pre t post heq => ?_⟩
    obtain ⟨⟨rest, hopp⟩, hcross, -⟩ := submitTrades_resting heq
    obtain ⟨horder, hq⟩ := of_mem_tradesOf (heq ▸ List.mem_append_right pre (List.mem_cons_self ..))
    have hin := incoming_of_split heq
    have hmem : t.resting ∈ h.engine.oppositeOf o := by
      rw [hopp]
      simp
    have hnd := hs.rep.side_nodup o.bookIndex (!o.isBuy)
    have hheld : t.resting ∈ held h.engine := mem_held.mpr ⟨_, _, hmem⟩
    obtain ⟨o', ho', hsame, hsum⟩ := hs.balanced.holds t.resting (List.mem_append_right [] hheld)
    have hbuy : t.incoming.isBuy = o.isBuy := by rw [hin.1]
    have hprice : t.incoming.price = o.price := by rw [hin.1]
    refine ⟨hin, ⟨hmem, horder, fun u hu heq' => ?_⟩, ?_, ?_, ?_, ?_⟩
    · -- a side holds no order twice
      change (h.engine.oppositeOf o).Nodup at hnd
      rw [hopp, List.nodup_append] at hnd
      exact hnd.2.2 u.resting (List.mem_map_of_mem hu) t.resting (List.mem_cons_self ..) heq'
    · exact ⟨o', hsub (List.mem_of_getElem? ho'), ho', by rw [horder]; exact hsame, by rw [horder]; exact hsum⟩
    · rw [horder, hbuy]
      exact (hs.rep.orders _ _ _ hmem).1
    · rw [hbuy, hprice, horder]
      exact (Order.crosses_iff _ _).mp hcross
    · rw [hq]
      exact ⟨(min_le_both _ _).1, (min_le_both _ _).2, sub_min_eq_zero _ _⟩

/-! ### Phantom trades -/

/-- The quantity a callback is given. -/
def Report.quantity {ι : Type} : Report ι → UInt64
  | .execution _ _ q => q
  | .matched _ _ _ _ q => q

/-- **The calls with a phantom trade**: the pool has a slot, the order has no quantity, and
crosses the front of the opposite side. -/
def Phantom (P : OrderPool π) (e : Engine π) (o : Order) : Prop :=
  (P.acquire e.pool).isSome ∧ o.quantity = 0 ∧ ∃ t ∈ (e.oppositeOf o).head?, o.crosses (e.mem t) = true

instance (P : OrderPool π) (e : Engine π) (o : Order) : Decidable (Phantom P e o) :=
  inferInstanceAs (Decidable (_ ∧ _ ∧ _))

theorem Trade.quantity_of_mem_reports {s : Slot} {t : Trade} {r : Report Slot} (h : r ∈ t.reports s) :
    r.quantity = t.quantity := by
  simp only [Trade.reports, fillReports, List.mem_cons, List.not_mem_nil, or_false] at h
  rcases h with rfl | rfl | rfl <;> rfl

theorem reports_quantity_pos_iff {s : Slot} {trades : List Trade} :
    (∀ r ∈ trades.flatMap (Trade.reports s), 0 < r.quantity) ↔ ∀ t ∈ trades, 0 < t.quantity := by
  constructor
  · intro h t ht
    exact h (.execution s (t.incoming.sub t.quantity) t.quantity)
      (List.mem_flatMap.mpr ⟨t, ht, List.mem_cons_self ..⟩)
  · intro h r hr
    obtain ⟨t, ht, hr⟩ := List.mem_flatMap.mp hr
    rw [Trade.quantity_of_mem_reports hr]
    exact h t ht

section Phantom

variable {P : OrderPool π} {maxOrders : ℕ} {e : Engine π} {o : Order} {s : Slot} {p : π}

/-- The trades of an order with quantity are of a positive quantity: before each of them
something is left of it, and no order that rests is without quantity. -/
theorem submitTrades_pos (hst : Stocked (fun _ => True) e) (hq : 0 < o.quantity.toNat) :
    ∀ t ∈ submitTrades e o, 0 < t.quantity := by
  intro t ht
  obtain ⟨pre, post, heq⟩ := List.append_of_mem ht
  obtain ⟨⟨rest, hopp⟩, -, hlasts⟩ := submitTrades_resting heq
  obtain ⟨horder, hmin⟩ := of_mem_tradesOf ht
  obtain ⟨-, hleft⟩ := incoming_of_split heq
  have hle : tradedQuantity pre ≤ Sweep.total (quantityOf e.mem) (pre.map Trade.resting) :=
    tradedQuantity_le fun u hu => of_mem_tradesOf (heq ▸ List.mem_append_left _ hu)
  have hin : 0 < t.incoming.quantity.toNat := by
    rcases hlasts with rfl | hlt
    · rw [tradedQuantity_nil] at hleft
      omega
    · omega
  have hrest : 0 < t.restingOrder.quantity.toNat := by
    rw [horder]
    exact hst t.resting (mem_held.mpr ⟨o.bookIndex, !o.isBuy, by rw [← Engine.oppositeOf, hopp]; simp⟩) trivial
  rw [hmin, UInt64.lt_iff_toNat_lt]
  rcases Nat.lt_or_ge t.restingOrder.quantity.toNat t.incoming.quantity.toNat with hlt | hge
  · rw [min_of_toNat_lt hlt]
    exact hrest
  · rw [min_of_toNat_le hge]
    exact hin

/-- An order without quantity trades with the front of the opposite side, if it crosses it. -/
theorem submitTrades_of_zero (hq : o.quantity = 0) {t : Slot} (ht : t ∈ (e.oppositeOf o).head?)
    (hc : o.crosses (e.mem t) = true) : submitTrades e o = [⟨o, t, e.mem t, 0⟩] := by
  obtain ⟨rest, hopp⟩ : ∃ rest, e.oppositeOf o = t :: rest := by
    cases hside : e.oppositeOf o with
    | nil => simp [hside] at ht
    | cons r rest =>
      obtain rfl : r = t := by simpa [hside] using ht
      exact ⟨rest, rfl⟩
  have hreached : reachedBy o e.mem (e.oppositeOf o) = [t] := by
    simp [hopp, reachedBy, Sweep.reached, crossing, hc, hq]
  have hmin : min o.quantity (e.mem t).quantity = 0 := by
    rw [hq]
    exact min_of_toNat_le (Nat.zero_le _)
  rw [submitTrades, hreached, tradesOf, tradesOf, hmin]

/-- **A call's reports are of positive quantities exactly when it is not one with a phantom
trade.** -/
theorem no_phantom_submit_iff (h : Rep P maxOrders e []) (hst : Stocked (fun _ => True) e) (o : Order) :
    (∀ r ∈ reports (submitOrder P e o).2, 0 < r.quantity) ↔ ¬ Phantom P e o := by
  cases ha : P.acquire e.pool with
  | none =>
    rw [submitOrder_of_none ha]
    exact iff_of_true (fun r hr => by cases hr) fun hp => by simp [Phantom, ha] at hp
  | some a =>
    obtain ⟨s, p⟩ := a
    rw [reports_submit h ha o, reports_quantity_pos_iff]
    constructor
    · rintro hpos ⟨-, hq, t, ht, hc⟩
      have hzero : (0 : UInt64) < 0 :=
        hpos ⟨o, t, e.mem t, 0⟩ (by rw [submitTrades_of_zero hq ht hc]; exact List.mem_cons_self ..)
      exact absurd hzero (by decide)
    · intro hnot
      by_cases hq : o.quantity = 0
      · -- it crosses nothing at the front, so there is no trade
        have hreached : reachedBy o e.mem (e.oppositeOf o) = [] := by
          rw [reachedBy, Sweep.reached_eq_nil_iff]
          intro t ht
          by_contra hc
          exact hnot ⟨by rw [ha]; rfl, hq, t, ht, by simpa [crossing] using hc⟩
        rw [submitTrades, hreached]
        exact fun t ht => by cases ht
      · apply submitTrades_pos hst
        have hne : o.quantity.toNat ≠ 0 := fun h0 => hq (UInt64.toNat_inj.mp h0)
        omega

end Phantom

/-- **When no trade is a phantom**: every callback of a run is given a positive quantity,
exactly when no call of the run is of an order without quantity that gets a slot and
crosses the front of the opposite side. -/
theorem no_phantom_iff (P : OrderPool π) (maxOrders : ℕ) (orders : List Order) :
    (∀ k (hk : k < orders.length), ∀ r ∈
        reports (submitOrder P (runOrders P maxOrders (orders.take k)) orders[k]).2, 0 < r.quantity) ↔
      ∀ k (hk : k < orders.length), ¬ Phantom P (runOrders P maxOrders (orders.take k)) orders[k] :=
  forall₂_congr fun k _ => no_phantom_submit_iff (rep_runOrders P maxOrders (orders.take k))
    (stocked_runOrders P maxOrders (orders.take k)) _

/-- **An order to buy nothing**, at the price of the one order that rests: three callbacks, of
the quantity 0, to both sides and to the market. -/
theorem phantom_trade :
    let sell := oneLot false 100
    let buy := { oneLot true 100 with quantity := 0 }
    reports (submitOrder firstFree (runOrders firstFree 2 [sell]) buy).2 =
      [.execution 1 buy 0, .execution 0 sell 0, .matched 1 0 buy sell 0] ∧
    ¬ ∀ r ∈ reports (submitOrder firstFree (runOrders firstFree 2 [sell]) buy).2, 0 < r.quantity := by
  intro sell buy
  have hreports : reports (submitOrder firstFree (runOrders firstFree 2 [sell]) buy).2 =
      [.execution 1 buy 0, .execution 0 sell 0, .matched 1 0 buy sell 0] := by decide +kernel
  refine ⟨hreports, fun h => ?_⟩
  rw [hreports] at h
  exact absurd (h _ (List.mem_cons_self ..)) (by decide)

end Scrimmage.Market
