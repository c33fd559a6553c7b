import Scrimmage.Market.Ledger

/-!
# The engine without its slots

What the engine is for, and where it falls short, said of orders alone. An `Exchange` is a
table of books, each the orders that rest on its two sides, and a count of the slots that
have been lost; an order submitted to it is dropped if no slot is left, and else is matched
by a greedy sweep of the opposite side of its book (`Book.after`, `Book.reports`).

## What is proved

* `submitOrder_refines`: seen as an exchange (`Engine.view`), the engine does at each call
  what the exchange does, and reports the same.
* `runOrders_refines`: so it is over every run. Which slots the pool hands out makes no
  difference to the orders.
-/

namespace Scrimmage.Market

open Theory

variable {π : Type}

/-! ### Books of orders -/

/-- The quantity of an order. -/
def Order.lots (o : Order) : ℕ := o.quantity.toNat

/-- The order with another quantity. -/
def Order.withLots (o : Order) (k : ℕ) : Order := { o with quantity := UInt64.ofNat k }

/-- A report, whatever its orders are referred to by. -/
def Report.value {ι : Type} : Report ι → Report Unit := Report.map fun _ => ()

/-- A book: the orders that rest on each side, as they came to rest. -/
abbrev Book := Bool → List Order

namespace Book

/-- The orders that an order reaches: those of the opposite side that cross, until they
have its quantity. -/
def reached (book : Book) (o : Order) : List Order := Sweep.reached o.crosses Order.lots o.lots (book (!o.isBuy))

/-- What they leave of it. -/
def left (book : Book) (o : Order) : ℕ := Sweep.left o.crosses Order.lots o.lots (book (!o.isBuy))

/-- The book after an order: the opposite side without what it has filled, and what is left
of the order at the end of its own. -/
def after (book : Book) (o : Order) : Book := fun x =>
  if x = o.isBuy then book x ++ if 0 < book.left o then [o.withLots (book.left o)] else []
  else (Sweep.rest o.crosses Order.lots o.lots (book x)).map fun r => r.1.withLots r.2

/-- The reports of the fills of an order against others, one after the other. -/
def trades : Order → List Order → List (Report Unit)
  | _, [] => []
  | o, r :: l =>
    fillReports () () (o.sub (min o.quantity r.quantity)) (r.sub (min o.quantity r.quantity))
        (min o.quantity r.quantity) ++
      trades (o.sub (min o.quantity r.quantity)) l

/-- What an order's call reports. -/
def reports (book : Book) (o : Order) : List (Report Unit) := trades o (book.reached o)

/-- The order has no quantity and reaches nothing. -/
def Loses (book : Book) (o : Order) : Prop := o.lots = 0 ∧ book.reached o = []

instance (book : Book) (o : Order) : Decidable (book.Loses o) :=
  inferInstanceAs (Decidable (o.lots = 0 ∧ book.reached o = []))

end Book

/-! ### Exchanges -/

/-- The books, and how many slots have been lost. -/
@[ext] structure Exchange where
  /-- The books. -/
  book : Fin 1024 → Book
  /-- How many slots are out that no book holds. -/
  lost : ℕ

namespace Exchange

/-- No order rests, and no slot is lost. -/
def create : Exchange := ⟨fun _ _ => [], 0⟩

/-- Every order that rests. -/
def orders (x : Exchange) : List Order := (List.finRange 1024).flatMap fun b => x.book b true ++ x.book b false

/-- No slot is left. -/
def Full (maxOrders : ℕ) (x : Exchange) : Prop := x.orders.length + x.lost = maxOrders

instance (maxOrders : ℕ) (x : Exchange) : Decidable (x.Full maxOrders) :=
  inferInstanceAs (Decidable (x.orders.length + x.lost = maxOrders))

/-- An order is submitted. -/
def submit (maxOrders : ℕ) (x : Exchange) (o : Order) : Exchange × List (Report Unit) :=
  if x.Full maxOrders then (x, [])
  else
    ({ book := Function.update x.book o.bookIndex ((x.book o.bookIndex).after o)
       lost := if (x.book o.bookIndex).Loses o then x.lost + 1 else x.lost },
      (x.book o.bookIndex).reports o)

/-- The exchange after some orders, and what it has reported. -/
def run (maxOrders : ℕ) (orders : List Order) : Exchange × List (Report Unit) :=
  orders.foldl (fun r o => ((r.1.submit maxOrders o).1, r.2 ++ (r.1.submit maxOrders o).2)) (create, [])

theorem run_snoc (maxOrders : ℕ) (orders : List Order) (o : Order) :
    run maxOrders (orders ++ [o]) =
      (((run maxOrders orders).1.submit maxOrders o).1,
        (run maxOrders orders).2 ++ ((run maxOrders orders).1.submit maxOrders o).2) := by
  simp [run]

end Exchange

/-! ### The engine as an exchange -/

/-- The engine, seen as an exchange. -/
def Engine.view (P : OrderPool π) (e : Engine π) : Exchange where
  book b x := (e.side b x).map e.mem
  lost := (P.acquired e.pool).card - (held e).length

/-- What is reported over a sequence of calls. -/
def runReports (P : OrderPool π) (maxOrders : ℕ) (orders : List Order) : List (Report Slot) :=
  (orders.foldl (fun r o => ((submitOrder P r.1 o).1, r.2 ++ reports (submitOrder P r.1 o).2))
    (Engine.create P maxOrders, [])).2

theorem runReports_snoc (P : OrderPool π) (maxOrders : ℕ) (orders : List Order) (o : Order) :
    runReports P maxOrders (orders ++ [o]) =
      runReports P maxOrders orders ++ reports (submitOrder P (runOrders P maxOrders orders) o).2 := by
  have hfst : (orders.foldl (fun r o => ((submitOrder P r.1 o).1, r.2 ++ reports (submitOrder P r.1 o).2))
      (Engine.create P maxOrders, [])).1 = runOrders P maxOrders orders := by
    induction orders using List.reverseRecOn with
    | nil => rfl
    | append_singleton orders o ih => rw [List.foldl_append, runOrders_snoc, ← ih, List.foldl_cons, List.foldl_nil]
  rw [runReports, List.foldl_append, ← hfst]
  rfl

section View

variable {P : OrderPool π} {maxOrders : ℕ} {e : Engine π} {o : Order} {s : Slot} {p : π}

theorem view_orders (P : OrderPool π) (e : Engine π) : (e.view P).orders = (held e).map e.mem := by
  simp [Exchange.orders, Engine.view, held, List.map_flatMap]

theorem Rep.view_lost (h : Rep P maxOrders e []) :
    (P.acquired e.pool).card = (held e).length + (e.view P).lost := by
  obtain ⟨lost, hlost⟩ := h.exists_lost
  rw [List.nil_append] at hlost
  show _ = (held e).length + ((P.acquired e.pool).card - (held e).length)
  omega

/-- No slot is left for the exchange exactly when the pool has none. -/
theorem Rep.view_full_iff (h : Rep P maxOrders e []) : (e.view P).Full maxOrders ↔ P.acquire e.pool = none := by
  rw [P.acquire_eq_none_iff_card, h.slots, h.view_lost, Exchange.Full, view_orders, List.length_map]

theorem view_left (P : OrderPool π) (e : Engine π) (o : Order) :
    ((e.view P).book o.bookIndex).left o = leftOf o e.mem (e.oppositeOf o) :=
  Sweep.left_map e.mem _ _

theorem view_reached (P : OrderPool π) (e : Engine π) (o : Order) :
    ((e.view P).book o.bookIndex).reached o = (reachedBy o e.mem (e.oppositeOf o)).map e.mem :=
  Sweep.reached_map e.mem _ _

/-- An order loses a slot of the exchange exactly when its call loses one. -/
theorem view_loses_iff (ha : P.acquire e.pool = some (s, p)) :
    ((e.view P).book o.bookIndex).Loses o ↔ Leaks P e o := by
  have hq : o.lots = 0 ↔ o.quantity = 0 := by
    rw [← UInt64.toNat_inj]
    rfl
  rw [Book.Loses, Leaks, view_reached, List.map_eq_nil_iff, reachedBy, Sweep.reached_eq_nil_iff, hq, ha]
  simp only [Option.isSome_some, true_and]
  rfl

/-- The reports of the fills, by value. -/
theorem map_value_fillsOf (s : Slot) (mem : Slot → Order) (o : Order) (l : List Slot) :
    (fillsOf s mem o l).map Report.value = Book.trades o (l.map mem) := by
  induction l generalizing o with
  | nil => rfl
  | cons r l ih => rw [fillsOf, List.map_append, ih, List.map_cons, Book.trades]; rfl

/-- **The book of an order**, after its call. -/
theorem Submitted.view_book {out : Engine π × List Event} (hsub : Submitted e o s out) (h : Rep P maxOrders e [])
    (ha : P.acquire e.pool = some (s, p)) :
    (out.1.view P).book o.bookIndex = ((e.view P).book o.bookIndex).after o := by
  funext x
  by_cases hx : x = o.isBuy
  · subst hx
    have hkeep : (e.side o.bookIndex o.isBuy).map out.1.mem = (e.side o.bookIndex o.isBuy).map e.mem :=
      List.map_congr_left fun t ht => hsub.mem_of_side h ha ht (by simp)
    simp only [Book.after, if_true, view_left]
    show (out.1.side o.bookIndex o.isBuy).map out.1.mem = (e.side o.bookIndex o.isBuy).map e.mem ++ _
    rw [hsub.own, List.map_append, hkeep]
    split_ifs with hleft
    · rw [List.map_singleton, hsub.rested hleft]
      rfl
    · rfl
  · obtain rfl : x = !o.isBuy := Bool.eq_not_of_ne hx
    simp only [Book.after, if_neg hx]
    show (out.1.oppositeOf o).map out.1.mem = (Sweep.rest _ _ _ ((e.oppositeOf o).map e.mem)).map _
    rw [hsub.opposite, Sweep.rest_map, List.map_map, List.map_map]
    exact List.map_congr_left fun r hr => hsub.resting r.1 r.2 hr

/-- The books after a call that is not dropped: that of the order has changed. -/
theorem view_book_submit (h : Rep P maxOrders e []) (ha : P.acquire e.pool = some (s, p)) (o : Order) :
    ((submitOrder P e o).1.view P).book =
      Function.update (e.view P).book o.bookIndex (((e.view P).book o.bookIndex).after o) := by
  have hsub := submitOrder_swept h ha o
  funext b
  by_cases hb : b = o.bookIndex
  · subst hb
    rw [Function.update_self]
    exact hsub.view_book h ha
  · rw [Function.update_of_ne hb]
    funext x
    show ((submitOrder P e o).1.side b x).map (submitOrder P e o).1.mem = (e.side b x).map e.mem
    rw [hsub.other b hb]
    exact List.map_congr_left fun t ht => hsub.mem_of_side h ha ht (by simp [hb])

/-- The slots that are lost after it. -/
theorem view_lost_submit (h : Rep P maxOrders e []) (ha : P.acquire e.pool = some (s, p)) (o : Order) :
    ((submitOrder P e o).1.view P).lost =
      if ((e.view P).book o.bookIndex).Loses o then (e.view P).lost + 1 else (e.view P).lost := by
  have hbefore : (P.acquired e.pool).card = ([] ++ held e).length + (e.view P).lost := by
    rw [List.nil_append, h.view_lost]
  have hcard := (submitOrder_rep (o := o) h hbefore ha).card
  have hlost := (h.submit o).view_lost
  rw [List.nil_append] at hcard
  by_cases hl : Leaks P e o
  · rw [if_pos ((view_loses_iff ha).mpr hl)]
    rw [if_pos hl] at hcard
    omega
  · rw [if_neg (mt (view_loses_iff ha).mp hl)]
    rw [if_neg hl] at hcard
    omega

/-- What it reports. -/
theorem map_value_reports (h : Rep P maxOrders e []) (ha : P.acquire e.pool = some (s, p)) (o : Order) :
    (reports (submitOrder P e o).2).map Report.value = ((e.view P).book o.bookIndex).reports o := by
  rw [(submitOrder_swept h ha o).reported, map_value_fillsOf, Book.reports, view_reached]

/-- **A call of the engine is one of the exchange.** -/
theorem submitOrder_refines (h : Rep P maxOrders e []) (o : Order) :
    (submitOrder P e o).1.view P = ((e.view P).submit maxOrders o).1 ∧
      (reports (submitOrder P e o).2).map Report.value = ((e.view P).submit maxOrders o).2 := by
  cases ha : P.acquire e.pool with
  | none =>
    rw [submitOrder_of_none ha, Exchange.submit, if_pos (h.view_full_iff.mpr ha)]
    exact ⟨rfl, rfl⟩
  | some a =>
    obtain ⟨s, p⟩ := a
    have hfull : ¬ (e.view P).Full maxOrders := by
      rw [h.view_full_iff, ha]
      simp
    rw [Exchange.submit, if_neg hfull]
    exact ⟨Exchange.ext (view_book_submit h ha o) (view_lost_submit h ha o), map_value_reports h ha o⟩

/-- **A run of the engine is one of the exchange.** -/
theorem runOrders_refines (P : OrderPool π) (maxOrders : ℕ) (orders : List Order) :
    (runOrders P maxOrders orders).view P = (Exchange.run maxOrders orders).1 ∧
      (runReports P maxOrders orders).map Report.value = (Exchange.run maxOrders orders).2 := by
  induction orders using List.reverseRecOn with
  | nil =>
    refine ⟨?_, rfl⟩
    show (Engine.create P maxOrders).view P = Exchange.create
    simp [Engine.view, Exchange.create]
  | append_singleton orders o ih =>
    have hstep := submitOrder_refines (rep_runOrders P maxOrders orders) o
    rw [runOrders_snoc, runReports_snoc, List.map_append, Exchange.run_snoc, hstep.1, hstep.2, ih.1, ih.2]
    exact ⟨rfl, rfl⟩

end View

end Scrimmage.Market
