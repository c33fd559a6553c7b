import Scrimmage.Market.Exchange

/-!
# Buying and selling are mirror images

The side of an order decides in three places of `matchOrder` what is done with it: which
side it is matched against, which prices cross, and where it comes to rest. `Order.mirror`
turns a side into the other and a price into its bitwise complement, which turns the order
of the prices round.

## What is proved

* `crosses_mirror`: two orders cross exactly when their mirror images do.
* `Exchange.submit_mirror`, `Exchange.run_mirror`: a call, and a run, of the mirrored orders
  is the mirror image of the call, and the run.
* `mirror_run`: so it is for the engine, also when its pool runs out of slots.
-/

namespace Scrimmage.Market

open Theory

variable {π : Type}

/-- The mirror image of an order: the other side, and the price `-price - 1`. -/
def Order.mirror (o : Order) : Order := { o with isBuy := !o.isBuy, price := ~~~o.price }

/-- The mirror image of a report, with the same quantity. -/
def Report.mirror {ι : Type} : Report ι → Report ι
  | .execution r o q => .execution r o.mirror q
  | .matched r r' o o' q => .matched r r' o.mirror o'.mirror q

@[simp] theorem Order.mirror_isBuy (o : Order) : o.mirror.isBuy = !o.isBuy := rfl

@[simp] theorem Order.mirror_lots (o : Order) : o.mirror.lots = o.lots := rfl

@[simp] theorem Order.mirror_bookIndex (o : Order) : o.mirror.bookIndex = o.bookIndex := rfl

/-- The complement turns the order of the prices round. -/
theorem not_le_not_iff (a b : Int64) : ~~~a ≤ ~~~b ↔ b ≤ a := by
  have hnot (c : Int64) : (~~~c).toInt = -c.toInt - 1 := by
    have := c.le_toInt
    have := c.toInt_lt
    rw [Int64.toInt_not]
    exact Int.bmod_eq_of_le (by omega) (by omega)
  rw [Int64.le_iff_toInt_le, Int64.le_iff_toInt_le, hnot, hnot]
  omega

/-- **Two orders cross exactly when their mirror images do.** -/
theorem crosses_mirror (o r : Order) : o.mirror.crosses r.mirror = o.crosses r := by
  rw [Bool.eq_iff_iff]
  simp only [Order.crosses, Order.mirror, Bool.or_eq_true, Bool.and_eq_true, decide_eq_true_eq, ge_iff_le,
    not_le_not_iff, Bool.not_not]
  exact or_comm

/-! ### Books -/

namespace Book

/-- The mirror image of a book. -/
def mirror (book : Book) : Book := fun x => (book (!x)).map Order.mirror

variable (book : Book) (o : Order)

theorem crosses_comp_mirror : o.mirror.crosses ∘ Order.mirror = o.crosses := funext (crosses_mirror o)

theorem mirror_opposite : book.mirror (!o.mirror.isBuy) = (book (!o.isBuy)).map Order.mirror := by
  rw [mirror, Order.mirror_isBuy, Bool.not_not]

theorem reached_mirror : book.mirror.reached o.mirror = (book.reached o).map Order.mirror := by
  rw [reached, mirror_opposite, Sweep.reached_map, crosses_comp_mirror]
  rfl

theorem left_mirror : book.mirror.left o.mirror = book.left o := by
  rw [left, mirror_opposite, Sweep.left_map, crosses_comp_mirror]
  rfl

theorem loses_mirror : book.mirror.Loses o.mirror ↔ book.Loses o := by
  rw [Loses, Loses, reached_mirror, List.map_eq_nil_iff, Order.mirror_lots]

/-- The mirrored book after the mirrored order. -/
theorem after_mirror : book.mirror.after o.mirror = (book.after o).mirror := by
  funext x
  by_cases hx : x = o.isBuy
  · have hne : ¬ x = o.mirror.isBuy := by simp [hx]
    have hne' : ¬ (!x) = o.isBuy := by simp [hx]
    simp only [mirror, after, if_neg hne, if_neg hne', Sweep.rest_map, crosses_comp_mirror, List.map_map]
    rfl
  · obtain rfl : x = !o.isBuy := Bool.eq_not_of_ne hx
    simp only [mirror, after, Order.mirror_isBuy, Bool.not_not, if_true, List.map_append, left_mirror]
    split_ifs <;> rfl

theorem trades_mirror (o : Order) (l : List Order) :
    trades o.mirror (l.map Order.mirror) = (trades o l).map Report.mirror := by
  induction l generalizing o with
  | nil => rfl
  | cons r l ih =>
    have hsub := ih (o.sub (min o.quantity r.quantity))
    rw [List.map_cons, trades, trades, List.map_append, ← hsub]
    rfl

theorem reports_mirror : book.mirror.reports o.mirror = (book.reports o).map Report.mirror := by
  rw [reports, reached_mirror, trades_mirror, reports]

end Book

/-! ### Exchanges and engines -/

namespace Exchange

/-- The mirror image of an exchange. -/
def mirror (x : Exchange) : Exchange := ⟨fun b => (x.book b).mirror, x.lost⟩

theorem length_orders_mirror (x : Exchange) : x.mirror.orders.length = x.orders.length := by
  simp only [orders, List.length_flatMap, List.length_append, mirror, Book.mirror, List.length_map, Bool.not_true,
    Bool.not_false, Nat.add_comm]

/-- **The mirrored order on the mirrored exchange.** -/
theorem submit_mirror (maxOrders : ℕ) (x : Exchange) (o : Order) :
    x.mirror.submit maxOrders o.mirror =
      ((x.submit maxOrders o).1.mirror, (x.submit maxOrders o).2.map Report.mirror) := by
  have hfull : x.mirror.Full maxOrders ↔ x.Full maxOrders := by
    rw [Full, length_orders_mirror]
    rfl
  by_cases hf : x.Full maxOrders
  · rw [submit, submit, if_pos (hfull.mpr hf), if_pos hf]
    rfl
  · rw [submit, submit, if_neg (mt hfull.mp hf), if_neg hf]
    refine Prod.ext (Exchange.ext ?_ ?_) ?_
    · funext b
      by_cases hb : b = o.bookIndex
      · subst hb
        simp [mirror, Book.after_mirror]
      · simp [mirror, Function.update_of_ne hb]
    · simp only [mirror, Order.mirror_bookIndex, Book.loses_mirror]
    · exact (x.book o.bookIndex).reports_mirror o

/-- **The run of the mirrored orders.** -/
theorem run_mirror (maxOrders : ℕ) (orders : List Order) :
    run maxOrders (orders.map Order.mirror) =
      ((run maxOrders orders).1.mirror, (run maxOrders orders).2.map Report.mirror) := by
  induction orders using List.reverseRecOn with
  | nil => rfl
  | append_singleton orders o ih =>
    rw [List.map_append, List.map_singleton, run_snoc, run_snoc, ih, submit_mirror, List.map_append]

end Exchange

/-- **Buying and selling are mirror images**: a run of the mirrored orders reports the
mirror images of the reports, in their order, and the orders to buy that rest at the end are
the mirror images of those to sell, and those to sell of those to buy. -/
theorem mirror_run (P : OrderPool π) (maxOrders : ℕ) (orders : List Order) :
    let e := runOrders P maxOrders orders
    let e' := runOrders P maxOrders (orders.map Order.mirror)
    (runReports P maxOrders (orders.map Order.mirror)).map Report.value =
        ((runReports P maxOrders orders).map Report.value).map Report.mirror ∧
      ∀ b, (e'.books b).buyOrders.map e'.mem = ((e.books b).sellOrders.map e.mem).map Order.mirror ∧
        (e'.books b).sellOrders.map e'.mem = ((e.books b).buyOrders.map e.mem).map Order.mirror := by
  intro e e'
  obtain ⟨hview, hreports⟩ := runOrders_refines P maxOrders orders
  obtain ⟨hview', hreports'⟩ := runOrders_refines P maxOrders (orders.map Order.mirror)
  rw [Exchange.run_mirror] at hview' hreports'
  have hbook (b : Fin 1024) (x : Bool) : (e'.side b x).map e'.mem = ((e.side b (!x)).map e.mem).map Order.mirror := by
    have : (e'.view P).book b x = ((e.view P).mirror.book b) x := by rw [hview', hview]
    exact this
  exact ⟨hreports'.trans (by rw [hreports]), fun b => ⟨hbook b true, hbook b false⟩⟩

end Scrimmage.Market
