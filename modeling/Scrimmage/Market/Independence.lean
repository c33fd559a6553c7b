import Scrimmage.Market.Exchange
import Scrimmage.Market.Isolation
import Scrimmage.Market.Priority

/-!
# Books that do not see each other

The books share one pool, whose slots go from one symbol to another, but nothing an order
does depends on which slots it and the others are in. As long as the pool has a slot for
every order, a book is what its own orders make of it, whatever is done in between to the
other books.

## What is proved

* `runOrders_book`: the orders a book rests after a run, and what was reported of it, are
  those of `Book.run` on the orders that hash to it.
* `books_independent`: so two runs with the same orders of each book, in the same order but
  interleaved in any way, agree on every book.
-/

namespace Scrimmage.Market

open Theory

variable {π : Type} {P : OrderPool π} {maxOrders : ℕ} {e : Engine π}

/-- The report carries an order of the book `b`. -/
def Report.ofBook {ι : Type} (b : Fin 1024) : Report ι → Bool
  | .execution _ o _ => o.bookIndex = b
  | .matched _ _ o o' _ => o.bookIndex = b ∨ o'.bookIndex = b

/-- An empty book after some orders, and what their calls report. -/
def Book.run (orders : List Order) : Book × List (Report Unit) :=
  orders.foldl (fun r o => (r.1.after o, r.2 ++ r.1.reports o)) (fun _ => [], [])

theorem Book.run_snoc (orders : List Order) (o : Order) :
    Book.run (orders ++ [o]) = ((Book.run orders).1.after o, (Book.run orders).2 ++ (Book.run orders).1.reports o) := by
  simp [Book.run]

/-! ### One call -/

/-- What a call reports is of the book of its order. -/
theorem filter_ofBook_trades {o : Order} {l : List Order} (hl : ∀ r ∈ l, r.bookIndex = o.bookIndex) (b : Fin 1024) :
    (Book.trades o l).filter (Report.ofBook b) = if o.bookIndex = b then Book.trades o l else [] := by
  induction l generalizing o with
  | nil => simp [Book.trades]
  | cons r l ih =>
    have hr : r.bookIndex = o.bookIndex := hl r (List.mem_cons_self ..)
    have ih := ih (o := o.sub (min o.quantity r.quantity)) fun t ht => hl t (List.mem_cons_of_mem r ht)
    rw [Book.trades, List.filter_append, ih]
    by_cases hb : o.bookIndex = b <;> simp [fillReports, Report.ofBook, hr, hb]

theorem Rep.view_bookIndex (h : Rep P maxOrders e []) (b : Fin 1024) (x : Bool) :
    ∀ r ∈ (e.view P).book b x, r.bookIndex = b := by
  intro r hr
  obtain ⟨s, hs, rfl⟩ := List.mem_map.mp hr
  exact (h.orders b x s hs).2

/-- What a call reports of a book: all, if it is the book of its order. -/
theorem filter_ofBook_submit (h : Rep P maxOrders e []) (o : Order) (b : Fin 1024) :
    (((e.view P).book o.bookIndex).reports o).filter (Report.ofBook b) =
      if o.bookIndex = b then ((e.view P).book b).reports o else [] := by
  have hreached : ∀ r ∈ ((e.view P).book o.bookIndex).reached o, r.bookIndex = o.bookIndex :=
    fun r hr => h.view_bookIndex _ _ r ((Sweep.reached_prefix _ _).subset hr)
  rw [Book.reports, filter_ofBook_trades hreached]
  by_cases hb : o.bookIndex = b
  · subst hb
    rfl
  · rw [if_neg hb, if_neg hb]

/-! ### Enough slots -/

/-- A call takes one slot at most. -/
theorem Rep.card_submit_le (h : Rep P maxOrders e []) (o : Order) :
    (P.acquired (submitOrder P e o).1.pool).card ≤ (P.acquired e.pool).card + 1 := by
  cases ha : P.acquire e.pool with
  | none =>
    rw [submitOrder_of_none ha]
    exact Nat.le_succ _
  | some a =>
    obtain ⟨s, p⟩ := a
    obtain ⟨lost, hlost⟩ := h.exists_lost
    rw [(submitOrder_rep (o := o) h hlost ha).acquired_eq, ← P.card_acquire ha]
    exact Finset.card_le_card Finset.sdiff_subset

theorem card_runOrders_le (P : OrderPool π) (maxOrders : ℕ) (orders : List Order) :
    (P.acquired (runOrders P maxOrders orders).pool).card ≤ orders.length := by
  induction orders using List.reverseRecOn with
  | nil =>
    show (P.acquired (Engine.create P maxOrders).pool).card ≤ 0
    rw [Engine.create_acquired, Finset.card_empty]
  | append_singleton orders o ih =>
    have := (rep_runOrders P maxOrders orders).card_submit_le o
    rw [runOrders_snoc, List.length_append, List.length_singleton]
    omega

/-- With more slots than orders there is one for the next. -/
theorem exists_acquire (P : OrderPool π) {orders : List Order} (hn : orders.length < maxOrders) :
    ∃ s p, P.acquire (runOrders P maxOrders orders).pool = some (s, p) := by
  have hle := card_runOrders_le P maxOrders orders
  have hslots := (rep_runOrders P maxOrders orders).slots
  cases ha : P.acquire (runOrders P maxOrders orders).pool with
  | none =>
    rw [P.acquire_eq_none_iff_card] at ha
    omega
  | some a => exact ⟨a.1, a.2, rfl⟩

/-! ### Runs -/

/-- **A book is what its own orders make of it.** -/
theorem runOrders_book (P : OrderPool π) {orders : List Order} (hn : orders.length ≤ maxOrders) (b : Fin 1024) :
    ((runOrders P maxOrders orders).view P).book b = (Book.run (orders.filter fun o => o.bookIndex = b)).1 ∧
      ((runReports P maxOrders orders).map Report.value).filter (Report.ofBook b) =
        (Book.run (orders.filter fun o => o.bookIndex = b)).2 := by
  induction orders using List.reverseRecOn with
  | nil =>
    refine ⟨?_, rfl⟩
    funext x
    exact congrArg (List.map _) (Engine.create_side b x P maxOrders)
  | append_singleton orders o ih =>
    rw [List.length_append, List.length_singleton] at hn
    obtain ⟨hbook, hreports⟩ := ih (by omega)
    have hrep := rep_runOrders P maxOrders orders
    have hlt : orders.length < maxOrders := by omega
    obtain ⟨s, p, ha⟩ := exists_acquire P hlt
    rw [runOrders_snoc, runReports_snoc, view_book_submit hrep ha, List.map_append, List.filter_append,
      List.filter_append, hreports, map_value_reports hrep ha, filter_ofBook_submit hrep]
    by_cases hb : o.bookIndex = b
    · subst hb
      have hone : [o].filter (fun o' => o'.bookIndex = o.bookIndex) = [o] := by simp
      rw [hone, Book.run_snoc, Function.update_self, if_pos rfl, hbook]
      exact ⟨rfl, rfl⟩
    · have hnone : [o].filter (fun o' => o'.bookIndex = b) = [] := by simpa using hb
      rw [hnone, List.append_nil, Function.update_of_ne (Ne.symm hb), if_neg hb, List.append_nil]
      exact ⟨hbook, rfl⟩

/-- **Books are independent.** In two runs with a slot for every order, and for each book
the same orders in the same order, interleaved in any way, the reports of each book are the
same, and so are the orders that rest on its sides at the end. -/
theorem books_independent {π' : Type} (P : OrderPool π) (P' : OrderPool π') {maxOrders maxOrders' : ℕ}
    {orders orders' : List Order} (hn : orders.length ≤ maxOrders) (hn' : orders'.length ≤ maxOrders')
    (hsame : ∀ b, (orders.filter fun o => o.bookIndex = b) = orders'.filter fun o => o.bookIndex = b)
    (b : Fin 1024) :
    ((runReports P maxOrders orders).map Report.value).filter (Report.ofBook b) =
        ((runReports P' maxOrders' orders').map Report.value).filter (Report.ofBook b) ∧
      ∀ x, ((runOrders P maxOrders orders).side b x).map (runOrders P maxOrders orders).mem =
        ((runOrders P' maxOrders' orders').side b x).map (runOrders P' maxOrders' orders').mem := by
  obtain ⟨hbook, hreports⟩ := runOrders_book P hn b
  obtain ⟨hbook', hreports'⟩ := runOrders_book P' hn' b
  rw [hsame b] at hbook hreports
  exact ⟨hreports.trans hreports'.symm, fun x => congrFun (hbook.trans hbook'.symm) x⟩

/-- Whichever of two orders of two books comes first, the orders of each book are the same. -/
theorem filter_swap {o o' : Order} (hne : o.bookIndex ≠ o'.bookIndex) (b : Fin 1024) :
    ([o, o'].filter fun o => o.bookIndex = b) = [o', o].filter fun o => o.bookIndex = b := by
  by_cases ho : o.bookIndex = b
  · have ho' : ¬ o'.bookIndex = b := fun h => hne (ho.trans h.symm)
    simp [ho, ho']
  · simp [ho, List.filter_cons]

/-- The book of `ADBE`, with an order of another symbol before or after its own. -/
theorem books_independent_two :
    let orders := [sellAdbe, oneLot true 60]
    let orders' := [oneLot true 60, sellAdbe]
    ((runReports firstFree 2 orders).map Report.value).filter (Report.ofBook sellAdbe.bookIndex) =
        ((runReports firstFree 2 orders').map Report.value).filter (Report.ofBook sellAdbe.bookIndex) ∧
      ∀ x, ((runOrders firstFree 2 orders).side sellAdbe.bookIndex x).map (runOrders firstFree 2 orders).mem =
        ((runOrders firstFree 2 orders').side sellAdbe.bookIndex x).map (runOrders firstFree 2 orders').mem :=
  books_independent firstFree firstFree (by decide) (by decide) (filter_swap (by decide +kernel)) _

end Scrimmage.Market
