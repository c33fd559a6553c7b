import Scrimmage.Market.Sweep

/-!
# Symbols that share a book

A book is chosen by the hash of a symbol, and the matching loop never looks at the symbol
again, so the orders of two symbols with one hash are in one book and trade with each
other.

## What is proved

* `isolated_iff`: in every call of a run, what is reported as traded is of one symbol,
  exactly when every order a call reaches has the symbol of the call's order.
* `isolated_of_separate`: so it is when no two symbols of the run share a book.
* `collision_filled`: two symbols that do, and a fill between them.
-/

namespace Scrimmage.Market

open Theory

variable {π : Type} {P : OrderPool π} {maxOrders : ℕ} {e : Engine π} {o : Order} {s : Slot}

/-- **What is reported is of one symbol**: the two orders of each match report, and those
of each pair of execution reports. -/
structure Isolated (l : List (Report Slot)) : Prop where
  matched : ∀ s r i t q, Report.matched s r i t q ∈ l → i.chars = t.chars
  pair : ∀ s r i t q q', [Report.execution s i q, Report.execution r t q'] <:+: l → i.chars = t.chars

theorem Isolated.nil : Isolated [] where
  matched _ _ _ _ _ h := by cases h
  pair _ _ _ _ _ _ h := by
    have := h.length_le
    simp at this

/-- A fill and what follows it. -/
theorem isolated_fillReports_append {i t : Order} {q : UInt64} {r : Slot} {l : List (Report Slot)} :
    Isolated (fillReports s r i t q ++ l) ↔ i.chars = t.chars ∧ Isolated l := by
  constructor
  · intro h
    refine ⟨h.matched s r i t q (by simp [fillReports]), fun s r i t q hm => ?_, fun s r i t q q' hp => ?_⟩
    · exact h.matched s r i t q (List.mem_append_right _ hm)
    · exact h.pair s r i t q q' (hp.trans (List.suffix_append _ _).isInfix)
  · rintro ⟨hc, h⟩
    refine ⟨fun s' r' i' t' q₁ hm => ?_, fun s' r' i' t' q₁ q₂ hp => ?_⟩
    · rcases List.mem_append.mp hm with hm | hm
      · obtain ⟨-, -, rfl, rfl, -⟩ : s' = s ∧ r' = r ∧ i' = i ∧ t' = t ∧ q₁ = q := by
          simpa [fillReports] using hm
        exact hc
      · exact h.matched s' r' i' t' q₁ hm
    · -- a pair of execution reports starts at the first of the three reports or after them
      simp only [fillReports, List.cons_append, List.nil_append] at hp
      rcases List.infix_cons_iff.mp hp with hp | hp
      · simp only [List.cons_prefix_cons, Report.execution.injEq] at hp
        obtain ⟨⟨-, rfl, -⟩, ⟨-, rfl, -⟩, -⟩ := hp
        exact hc
      rcases List.infix_cons_iff.mp hp with hp | hp
      · simp [List.cons_prefix_cons] at hp
      rcases List.infix_cons_iff.mp hp with hp | hp
      · simp [List.cons_prefix_cons] at hp
      exact h.pair s' r' i' t' q₁ q₂ hp

/-- The fills of an order are of one symbol exactly when all its counterparts have its symbol. -/
theorem isolated_fillsOf {mem : Slot → Order} {l : List Slot} :
    Isolated (fillsOf s mem o l) ↔ ∀ r ∈ l, (mem r).chars = o.chars := by
  induction l generalizing o with
  | nil => simp [fillsOf, Isolated.nil]
  | cons r l ih =>
    rw [fillsOf, isolated_fillReports_append, ih, Order.sub_chars, Order.sub_chars, List.forall_mem_cons]
    exact and_congr_left' eq_comm

/-- **A call's reports are of one symbol exactly when all it reaches is of its symbol.** -/
theorem isolated_submit_iff (h : Rep P maxOrders e []) (o : Order) :
    Isolated (reports (submitOrder P e o).2) ↔
      ∀ pre r post, Reaches P e o pre r post → (e.mem r).chars = o.chars := by
  cases ha : P.acquire e.pool with
  | none =>
    rw [submitOrder_of_none ha]
    refine ⟨fun _ pre r post hr => ?_, fun _ => Isolated.nil⟩
    have := hr.acquires
    simp [ha] at this
  | some a =>
    obtain ⟨s, p⟩ := a
    rw [(submitOrder_swept h ha o).reported, isolated_fillsOf]
    constructor
    · exact fun hall pre r post hr => hall r ((mem_reachedBy_iff ha).mpr ⟨pre, post, hr⟩)
    · intro hall r hr
      obtain ⟨pre, post, hr⟩ := (mem_reachedBy_iff ha).mp hr
      exact hall pre r post hr

/-- **When symbols are kept apart**: every call of a run reports trades within one symbol
only, exactly when every order a call of the run reaches has the symbol of its order. -/
theorem isolated_iff (P : OrderPool π) (maxOrders : ℕ) (orders : List Order) :
    (∀ k (hk : k < orders.length),
        Isolated (reports (submitOrder P (runOrders P maxOrders (orders.take k)) orders[k]).2)) ↔
      ∀ k (hk : k < orders.length), ∀ pre r post,
        Reaches P (runOrders P maxOrders (orders.take k)) orders[k] pre r post →
          ((runOrders P maxOrders (orders.take k)).mem r).chars = orders[k].chars :=
  forall₂_congr fun k _ => isolated_submit_iff (rep_runOrders P maxOrders (orders.take k)) _

/-! ### Symbols with books of their own -/

/-- Every order that rests has the symbol of an order of the run. -/
def Known (orders : List Order) (e : Engine π) : Prop :=
  ∀ b x, ∀ t ∈ e.side b x, ∃ o ∈ orders, o.chars = (e.mem t).chars

theorem Known.mono {orders orders' : List Order} (h : Known orders e) (hsub : orders ⊆ orders') :
    Known orders' e := by
  intro b x t ht
  obtain ⟨o, ho, hc⟩ := h b x t ht
  exact ⟨o, hsub ho, hc⟩

theorem Known.submit {orders : List Order} (hk : Known orders e) (h : Rep P maxOrders e []) (o : Order) :
    Known (orders ++ [o]) (submitOrder P e o).1 := by
  cases ha : P.acquire e.pool with
  | none =>
    rw [submitOrder_of_none ha]
    exact hk.mono (List.subset_append_left _ _)
  | some a =>
    obtain ⟨s, p⟩ := a
    have hsub := submitOrder_swept h ha o
    generalize submitOrder P e o = out at hsub
    have hold {b : Fin 1024} {x : Bool} {t : Slot} (ht : t ∈ e.side b x)
        (hc : (out.1.mem t).chars = (e.mem t).chars) : ∃ o' ∈ orders ++ [o], o'.chars = (out.1.mem t).chars := by
      obtain ⟨o', ho', hc'⟩ := hk b x t ht
      exact ⟨o', List.mem_append_left _ ho', hc'.trans hc.symm⟩
    intro b x t ht
    rcases o.side_cases b x with ⟨rfl, rfl⟩ | ⟨rfl, rfl⟩ | hb
    · obtain ⟨hte, q, hmem⟩ := hsub.mem_opposite ht
      exact hold hte (by rw [hmem]; rfl)
    · rw [hsub.own] at ht
      rcases List.mem_append.mp ht with ht | ht
      · exact hold ht (by rw [hsub.mem_of_side h ha ht (by simp)])
      · split_ifs at ht with hq
        · rw [List.mem_singleton.mp ht, hsub.rested hq]
          exact ⟨o, by simp, rfl⟩
        · cases ht
    · rw [hsub.other b hb] at ht
      exact hold ht (by rw [hsub.mem_of_side h ha ht (by simp [hb])])

theorem known_runOrders (P : OrderPool π) (maxOrders : ℕ) (orders : List Order) :
    Known orders (runOrders P maxOrders orders) := by
  induction orders using List.reverseRecOn with
  | nil =>
    intro b x t ht
    simp [runOrders] at ht
  | append_singleton orders o ih =>
    rw [runOrders_snoc]
    exact ih.submit (rep_runOrders P maxOrders orders) o

/-- **Symbols with books of their own are kept apart.** -/
theorem isolated_of_separate (P : OrderPool π) (maxOrders : ℕ) {orders : List Order} {o : Order}
    (hsep : ∀ o' ∈ orders, o'.bookIndex = o.bookIndex → o'.chars = o.chars) :
    Isolated (reports (submitOrder P (runOrders P maxOrders orders) o).2) := by
  have h := rep_runOrders P maxOrders orders
  rw [isolated_submit_iff h]
  intro pre r post hr
  have hmem : r ∈ (runOrders P maxOrders orders).oppositeOf o := by rw [hr.split]; simp
  obtain ⟨o', ho', hc⟩ := known_runOrders P maxOrders orders _ _ r hmem
  rw [← hc]
  apply hsep o' ho'
  rw [Order.bookIndex_of_chars hc]
  exact (h.orders _ _ r hmem).2

/-! ### Two symbols in one book -/

/-- A symbol field that holds the characters of a list, NULs behind them. -/
def symbolOf (l : List Int8) : Vector Int8 16 := Vector.ofFn fun i => l[i.val]?.getD 0

/-- To sell one `ADBE`, and to buy one `GM`. -/
def sellAdbe : Order :=
  { orderId := 1, price := 100, quantity := 1, isBuy := false, symbol := symbolOf [65, 68, 66, 69] }

@[inherit_doc sellAdbe]
def buyGm : Order :=
  { orderId := 2, price := 100, quantity := 1, isBuy := true, symbol := symbolOf [71, 77] }

/-- The symbols `ADBE` and `GM` have one book, and an order to buy the one is filled with
the other. -/
theorem collision_filled :
    ¬ Isolated (reports (submitOrder firstFree (runOrders firstFree 2 [sellAdbe]) buyGm).2) := by
  intro h
  have hm : Report.matched 1 0 (buyGm.sub 1) (sellAdbe.sub 1) 1 ∈
      reports (submitOrder firstFree (runOrders firstFree 2 [sellAdbe]) buyGm).2 := by decide +kernel
  exact absurd (h.matched _ _ _ _ _ hm) (by decide +kernel)

end Scrimmage.Market
