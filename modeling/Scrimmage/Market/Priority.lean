import Scrimmage.Market.Sweep

/-!
# Price priority and crossed books

The matching loop leaves with a `break` at the first order whose price does not cross,
which is right for a side that is kept best price first. A side is kept in the order of
arrival, so an order behind the first may have the better price: it is then passed over,
and the book can be left crossed.

## What is proved

* `uncrossed_iff`: no book is ever crossed along a run exactly when, at each call whose
  order outlasts the orders it reaches, none behind the `break` crosses (`BreakSafe`).
  `crossed_book` is a run of three calls that leaves a crossed book.
* `FillAt.reaches`, `Reaches.fillAt`: the fills of a call are those of the orders it
  reaches, and these are the fills it reports (`filled_iff_reported`).
* `fills_best_iff`: they are all at the best price then resting exactly when no order
  reached has a better one behind it. `fill_not_best` is a fill that is not.
-/

namespace Scrimmage.Market

open Theory

variable {π : Type} {P : OrderPool π} {maxOrders : ℕ} {e : Engine π} {o : Order} {s : Slot} {p : π}

/-! ### Crossed books -/

/-- The book is not crossed: no order to buy has a price as high as an order to sell. -/
def Uncrossed (e : Engine π) (b : Fin 1024) : Prop :=
  ∀ s ∈ (e.books b).buyOrders, ∀ t ∈ (e.books b).sellOrders, ¬ (e.mem s).price ≥ (e.mem t).price

instance (e : Engine π) (b : Fin 1024) : Decidable (Uncrossed e b) :=
  inferInstanceAs (Decidable (∀ s ∈ (e.books b).buyOrders, ∀ t ∈ (e.books b).sellOrders, _))

/-- **The `break` misses nothing**: if the order gets a slot and has more quantity than
the orders before the first that does not cross, then no order behind that one crosses. -/
def BreakSafe (P : OrderPool π) (e : Engine π) (o : Order) : Prop :=
  (P.acquire e.pool).isSome →
    Sweep.total (quantityOf e.mem) ((e.oppositeOf o).takeWhile (crossing o e.mem)) < o.quantity.toNat →
    ∀ t ∈ (e.oppositeOf o).dropWhile (crossing o e.mem), crossing o e.mem t = false

/-- Seen from either side: no order of the side crosses one of the other. -/
theorem Rep.uncrossed_iff_side (h : Rep P maxOrders e []) (b : Fin 1024) (x : Bool) :
    Uncrossed e b ↔ ∀ s ∈ e.side b x, ∀ t ∈ e.side b (!x), (e.mem s).crosses (e.mem t) = false := by
  cases x with
  | true =>
    refine forall₂_congr fun s hs => forall₂_congr fun t _ => ?_
    simp [Order.crosses, (h.orders b true s hs).1]
  | false =>
    have hswap : Uncrossed e b ↔
        ∀ t ∈ (e.books b).sellOrders, ∀ s ∈ (e.books b).buyOrders, ¬ (e.mem s).price ≥ (e.mem t).price :=
      ⟨fun h t ht s hs => h s hs t ht, fun h s hs t ht => h t ht s hs⟩
    rw [hswap]
    refine forall₂_congr fun t ht => forall₂_congr fun s _ => ?_
    simp [Order.crosses, (h.orders b false t ht).1]

section Submit

variable {out : Engine π × List Event}

/-- **A call keeps its book uncrossed exactly when its `break` misses nothing.** -/
theorem Submitted.uncrossed_own_iff (hsub : Submitted e o s out) (h : Rep P maxOrders e [])
    (hout : Rep P maxOrders out.1 []) (ha : P.acquire e.pool = some (s, p))
    (hun : Uncrossed e o.bookIndex) : Uncrossed out.1 o.bookIndex ↔ BreakSafe P e o := by
  rw [h.uncrossed_iff_side _ o.isBuy] at hun
  rw [hout.uncrossed_iff_side _ o.isBuy]
  have hpos : Sweep.total (quantityOf e.mem) ((e.oppositeOf o).takeWhile (crossing o e.mem)) <
      o.quantity.toNat ↔ 0 < leftOf o e.mem (e.oppositeOf o) := Sweep.left_pos_iff.symm
  have hself : s ∉ e.side o.bookIndex o.isBuy := h.acquired_not_mem ha _ _
  constructor
  · intro h' _ hq t ht
    rw [hpos] at hq
    have hrest := Sweep.rest_of_left_pos hq
    have hopp : t ∈ out.1.oppositeOf o := by
      rw [hsub.opposite, restAfter, hrest]
      simpa [Function.comp_def] using ht
    have hs : s ∈ out.1.side o.bookIndex o.isBuy := by
      rw [hsub.own, if_pos hq]
      simp
    obtain ⟨-, q, hmem⟩ := hsub.mem_opposite hopp
    have := h' s hs t hopp
    rw [hsub.rested hq, hmem] at this
    exact this
  · intro hsafe u hu t ht
    change t ∈ out.1.oppositeOf o at ht
    obtain ⟨htopp, q, hmem⟩ := hsub.mem_opposite ht
    rw [hmem]
    rw [hsub.own] at hu
    rcases List.mem_append.mp hu with hu | hu
    · -- an order that rested before the call
      rw [hsub.mem_of_side h ha hu (by simp)]
      exact hun u hu t htopp
    · -- the order of the call, which has outlasted those it reached
      split_ifs at hu with hq
      · rw [List.mem_singleton.mp hu, hsub.rested hq]
        rw [hsub.opposite, restAfter, Sweep.rest_of_left_pos hq] at ht
        have hdrop : t ∈ (e.oppositeOf o).dropWhile (crossing o e.mem) := by
          simpa [Function.comp_def] using ht
        exact hsafe (by rw [ha]; rfl) (hpos.mpr hq) t hdrop
      · cases hu

/-- The other books stay as they are. -/
theorem Submitted.uncrossed_other (hsub : Submitted e o s out) (h : Rep P maxOrders e [])
    (ha : P.acquire e.pool = some (s, p)) {b : Fin 1024} (hb : b ≠ o.bookIndex) (hun : Uncrossed e b) :
    Uncrossed out.1 b := by
  have hmem {x : Bool} {t : Slot} (ht : t ∈ e.side b x) : out.1.mem t = e.mem t :=
    hsub.mem_of_side h ha ht (by simp [hb])
  intro u hu t ht
  have hu' : u ∈ e.side b true := by rw [← hsub.other b hb]; exact hu
  have ht' : t ∈ e.side b false := by rw [← hsub.other b hb]; exact ht
  rw [hmem hu', hmem ht']
  exact hun u hu' t ht'

end Submit

/-- **What a call does to books that are not crossed.** -/
theorem uncrossed_submit_iff (h : Rep P maxOrders e []) (hun : ∀ b, Uncrossed e b) (o : Order) :
    (∀ b, Uncrossed (submitOrder P e o).1 b) ↔ BreakSafe P e o := by
  cases ha : P.acquire e.pool with
  | none =>
    have hsafe : BreakSafe P e o := by simp [BreakSafe, ha]
    simpa [submitOrder_of_none ha, hsafe] using hun
  | some a =>
    obtain ⟨s, p⟩ := a
    have hsub := submitOrder_swept h ha o
    have hown := hsub.uncrossed_own_iff h (h.submit o) ha (hun _)
    constructor
    · exact fun hall => hown.mp (hall o.bookIndex)
    · intro hsafe b
      by_cases hb : b = o.bookIndex
      · rw [hb]
        exact hown.mpr hsafe
      · exact hsub.uncrossed_other h ha hb (hun b)

/-- **When no book is left crossed**: in every state of a run, exactly when every call of
the run has a `break` that misses nothing. -/
theorem uncrossed_iff (P : OrderPool π) (maxOrders : ℕ) (orders : List Order) :
    (∀ k ≤ orders.length, ∀ b, Uncrossed (runOrders P maxOrders (orders.take k)) b) ↔
      ∀ k (hk : k < orders.length), BreakSafe P (runOrders P maxOrders (orders.take k)) orders[k] := by
  have hcreate (b : Fin 1024) : Uncrossed (Engine.create P maxOrders) b := by
    intro s hs
    cases hs
  exact runOrders_iff (I := fun e => ∀ b, Uncrossed e b) (C := BreakSafe P) hcreate
    (fun e o h hun => uncrossed_submit_iff h hun o) orders

/-- An order of one symbol, to buy or to sell one lot. -/
def oneLot (isBuy : Bool) (price : Int64) : Order :=
  { orderId := 1, price := price, quantity := 1, isBuy := isBuy, symbol := Vector.replicate 16 65 }

/-- An order to sell at 100, one at 50, and one to buy at 60: the loop stops at the first,
and the book is left with an order to buy at 60 and one to sell at 50. -/
theorem crossed_book :
    let orders := [oneLot false 100, oneLot false 50, oneLot true 60]
    ¬ Uncrossed (runOrders firstFree 3 orders) (oneLot true 60).bookIndex := by
  decide +kernel

/-! ### The fills of a call -/

/-- **The fills of a call**: in the state `st` of its loop the next order of the opposite
side is `r`, and it crosses. -/
def FillAt (P : OrderPool π) (e : Engine π) (o : Order) (st : MatchState π) (r : Slot) : Prop :=
  ∃ s p n, P.acquire e.pool = some (s, p) ∧
    matchLoop P (e.accept p s o) o.bookIndex s n = .again st ∧
    (st.engine.oppositeOf o)[st.i]? = some r ∧ (st.engine.mem s).crosses (st.engine.mem r) = true

section Fills

variable {st : MatchState π} {pre post : List Slot} {r : Slot}

theorem crossing_accept (h : Rep P maxOrders e []) (ha : P.acquire e.pool = some (s, p)) {t : Slot}
    (ht : t ∈ e.oppositeOf o) :
    crossing ((e.accept p s o).mem s) (e.accept p s o).mem t = crossing o e.mem t := by
  rw [crossing, crossing, Engine.accept_mem_self, h.accept_mem ha ht]

theorem total_accept (h : Rep P maxOrders e []) (ha : P.acquire e.pool = some (s, p)) {l : List Slot}
    (hl : ∀ t ∈ l, t ∈ e.oppositeOf o) :
    Sweep.total (quantityOf (e.accept p s o).mem) l = Sweep.total (quantityOf e.mem) l := by
  refine congrArg List.sum (List.map_congr_left fun t ht => ?_)
  simp only [quantityOf, h.accept_mem ha (hl t ht)]

/-- An order still to look at rests as it did before the call. -/
theorem Swept.mem_accept {rest : List Slot} (hsw : Swept (e.accept p s o) s o.bookIndex (!o.isBuy) pre rest st)
    (h : Rep P maxOrders e []) (ha : P.acquire e.pool = some (s, p)) {t : Slot} (ht : t ∈ rest) :
    st.engine.mem t = e.mem t := by
  have hmem : t ∈ (e.accept p s o).side o.bookIndex (!o.isBuy) := by
    rw [hsw.split]
    exact List.mem_append_right _ ht
  rw [hsw.mem_rest (h.side_nodup _ _) (h.acquired_not_mem ha _ _) ht]
  exact h.accept_mem ha hmem

/-- A fill is of an order the call reaches, which is then at the front of its side; it and
those behind it rest as they did before the call. -/
theorem FillAt.reaches (h : Rep P maxOrders e []) (hf : FillAt P e o st r) :
    ∃ pre post, Reaches P e o pre r post ∧ st.engine.oppositeOf o = r :: post ∧
      ∀ t ∈ r :: post, st.engine.mem t = e.mem t := by
  obtain ⟨s, p, n, ha, hrun, hr, hc⟩ := hf
  obtain ⟨hnd, hs⟩ := h.start_side ha o
  rw [matchLoop, Engine.accept_mem_self] at hrun
  obtain ⟨pre, rest, -, hsw⟩ := swept_of_again hnd hs hrun
  obtain ⟨post, rfl⟩ : ∃ post, rest = r :: post := by
    have hside : st.engine.oppositeOf o = rest := hsw.side
    rw [hside, hsw.front] at hr
    cases rest with
    | nil => cases hr
    | cons r' post => exact ⟨post, by rw [Option.some.inj hr]⟩
  have hmem (t : Slot) (ht : t ∈ pre ++ r :: post) : t ∈ e.oppositeOf o := by
    rw [← hsw.split] at ht
    exact ht
  have hrest (t : Slot) (ht : t ∈ r :: post) : st.engine.mem t = e.mem t := hsw.mem_accept h ha ht
  refine ⟨pre, post, ⟨by rw [ha]; rfl, hsw.split, fun t ht => ?_, ?_⟩, hsw.side, hrest⟩
  · rcases List.mem_append.mp ht with ht | ht
    · rw [← crossing_accept h ha (hmem t (List.mem_append_left _ ht))]
      exact hsw.crossed t ht
    · rw [hrest r (List.mem_cons_self ..), hsw.crosses_eq, Engine.accept_mem_self] at hc
      rw [List.mem_singleton.mp ht]
      exact hc
  · have hdone := hsw.sweep_done
    rwa [Engine.accept_mem_self, total_accept h ha fun t ht => hmem t (List.mem_append_left _ ht)] at hdone

/-- Every order a call reaches is filled. -/
theorem Reaches.fillAt (h : Rep P maxOrders e []) (hr : Reaches P e o pre r post) :
    ∃ st, FillAt P e o st r ∧ st.engine.oppositeOf o = r :: post ∧
      ∀ t ∈ r :: post, st.engine.mem t = e.mem t := by
  obtain ⟨hacq, hsplit, hcross, hlasts⟩ := hr
  obtain ⟨⟨s, p⟩, ha⟩ := Option.isSome_iff_exists.mp hacq
  have hmem (t : Slot) (ht : t ∈ pre ++ r :: post) : t ∈ e.oppositeOf o := by rwa [hsplit]
  obtain ⟨hnd, hs⟩ := h.start_side ha o
  have hok (t : Slot) (ht : t ∈ pre) :
      crossing ((e.accept p s o).mem s) (e.accept p s o).mem t = true := by
    rw [crossing_accept h ha (hmem t (List.mem_append_left _ ht))]
    exact hcross t (List.mem_append_left _ ht)
  have hq : pre = [] ∨ Sweep.total (quantityOf (e.accept p s o).mem) pre <
      ((e.accept p s o).mem s).quantity.toNat := by
    rwa [Engine.accept_mem_self, total_accept h ha fun t ht => hmem t (List.mem_append_left _ ht)]
  obtain ⟨st, hrun, hsw⟩ := again_of_crossed (P := P) hnd hs hsplit hok hq
  have hrest (t : Slot) (ht : t ∈ r :: post) : st.engine.mem t = e.mem t := hsw.mem_accept h ha ht
  have hside : st.engine.oppositeOf o = r :: post := hsw.side
  refine ⟨st, ⟨s, p, pre.length, ha, ?_, ?_, ?_⟩, hside, hrest⟩
  · rw [matchLoop, Engine.accept_mem_self]
    exact hrun
  · rw [hside, hsw.front]
    rfl
  · rw [hsw.crosses_eq, Engine.accept_mem_self, hrest r (List.mem_cons_self ..)]
    exact hcross r (by simp)

/-- The fills are what the call reports: it reports a match with each order it fills. -/
theorem filled_iff_reported (h : Rep P maxOrders e []) :
    (∃ st, FillAt P e o st r) ↔
      ∃ s i t q, Report.matched s r i t q ∈ reports (submitOrder P e o).2 := by
  constructor
  · rintro ⟨st, hf⟩
    obtain ⟨pre, post, hr, -, -⟩ := hf.reaches h
    obtain ⟨⟨s, p⟩, ha⟩ := Option.isSome_iff_exists.mp hr.acquires
    rw [(submitOrder_swept h ha o).reported]
    exact ⟨s, exists_matched_fillsOf ((mem_reachedBy_iff ha).mpr ⟨pre, post, hr⟩)⟩
  · rintro ⟨s', i, t, q, hm⟩
    cases ha : P.acquire e.pool with
    | none =>
      rw [submitOrder_of_none ha] at hm
      cases hm
    | some a =>
      obtain ⟨s, p⟩ := a
      rw [(submitOrder_swept h ha o).reported] at hm
      obtain ⟨pre, post, hr⟩ := (mem_reachedBy_iff ha).mp (mem_of_matched_fillsOf hm)
      obtain ⟨st, hf, -, -⟩ := hr.fillAt h
      exact ⟨st, hf⟩

end Fills

/-! ### The best price -/

/-- For the order `o`, the price of `r` is at least as good as that of `t`: no higher if it
buys, no lower if it sells. -/
def AtLeastAsGood (o r t : Order) : Prop := if o.isBuy then r.price ≤ t.price else r.price ≥ t.price

instance (o r t : Order) : Decidable (AtLeastAsGood o r t) :=
  inferInstanceAs (Decidable (if o.isBuy = true then r.price ≤ t.price else r.price ≥ t.price))

/-- **When the fills are at the best price**: every fill of a call is against an order
whose price is the best of those then resting on the opposite side, exactly when no order
the call reaches has one with a better price behind it. -/
theorem fills_best_iff (P : OrderPool π) (maxOrders : ℕ) (orders : List Order) (o : Order) :
    let e := runOrders P maxOrders orders
    (∀ st r, FillAt P e o st r →
        ∀ t ∈ st.engine.oppositeOf o, AtLeastAsGood o (st.engine.mem r) (st.engine.mem t)) ↔
      ∀ pre r post, Reaches P e o pre r post → ∀ t ∈ post, AtLeastAsGood o (e.mem r) (e.mem t) := by
  have h := rep_runOrders P maxOrders orders
  generalize runOrders P maxOrders orders = e at h
  constructor
  · intro hbest pre r post hr t ht
    obtain ⟨st, hf, hside, hmem⟩ := hr.fillAt h
    have := hbest st r hf t (by rw [hside]; exact List.mem_cons_of_mem r ht)
    rwa [hmem r (List.mem_cons_self ..), hmem t (List.mem_cons_of_mem r ht)] at this
  · intro hbest st r hf t ht
    obtain ⟨pre, post, hr, hside, hmem⟩ := hf.reaches h
    rw [hside] at ht
    rw [hmem r (List.mem_cons_self ..), hmem t ht]
    rcases List.mem_cons.mp ht with rfl | ht
    · unfold AtLeastAsGood
      split_ifs
      · exact Int64.le_refl _
      · exact Int64.le_refl _
    · exact hbest pre r post hr t ht

/-- An order to buy at 100 is filled at 100, the order that came first, though one to sell
at 50 rests behind it. -/
theorem fill_not_best :
    let e := runOrders firstFree 3 [oneLot false 100, oneLot false 50]
    ∃ st r, FillAt firstFree e (oneLot true 100) st r ∧
      ∃ t ∈ st.engine.oppositeOf (oneLot true 100),
        ¬ AtLeastAsGood (oneLot true 100) (st.engine.mem r) (st.engine.mem t) := by
  intro e
  refine ⟨⟨e.accept (3, [2, 1, 0]) 2 (oneLot true 100), 0, []⟩, 0, ⟨2, (3, [2, 1, 0]), 0, ?_, rfl, ?_, ?_⟩, 1, ?_, ?_⟩
  · decide +kernel
  · decide +kernel
  · decide +kernel
  · decide +kernel
  · decide +kernel

end Scrimmage.Market
