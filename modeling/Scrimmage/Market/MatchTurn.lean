import Scrimmage.Market.MatchingEngine
import Mathlib.Tactic.Common

/-!
# One turn of the matching loop

What the operations of the engine change, and what one turn of the loop of
`matchOrder` can do (`TurnCase`). The index of the loop is at the front of the opposite
side on every turn: an order that is filled is erased there, and one that is not filled
has used up the incoming order, so that the loop returns (`matchTurn_case`). Everything
that holds along the loop is derived from these five cases.
-/

namespace Scrimmage.Market

open Theory

variable {π : Type}

/-! ### Sides -/

@[simp] theorem OrderBookEntry.side_setSide_same (bk : OrderBookEntry) (x : Bool) (l : List Slot) :
    (bk.setSide x l).side x = l := by
  cases x <;> rfl

@[simp] theorem OrderBookEntry.side_setSide_not (bk : OrderBookEntry) (x : Bool) (l : List Slot) :
    (bk.setSide x l).side (!x) = bk.side (!x) := by
  cases x <;> rfl

theorem OrderBookEntry.setSide_side (bk : OrderBookEntry) (x : Bool) : bk.setSide x (bk.side x) = bk := by
  cases x <;> rfl

namespace Engine

variable (e : Engine π) (b : Fin 1024) (x : Bool) (l : List Slot) (s : Slot) (q : UInt64)

@[simp] theorem side_setSide_same : (e.setSide b x l).side b x = l := by
  simp [Engine.side, Engine.setSide]

theorem side_setSide_of_ne {b' : Fin 1024} {x' : Bool} (h : (b', x') ≠ (b, x)) :
    (e.setSide b x l).side b' x' = e.side b' x' := by
  by_cases hb : b' = b
  · subst hb
    have hx : x' = !x := by
      rw [ne_eq, Prod.mk.injEq, not_and] at h
      exact Bool.eq_not_of_ne (h rfl)
    subst hx
    simp [Engine.side, Engine.setSide]
  · simp [Engine.side, Engine.setSide, Function.update_of_ne hb]

theorem setSide_side : e.setSide b x (e.side b x) = e := by
  simp [Engine.side, Engine.setSide, OrderBookEntry.setSide_side]

@[simp] theorem create_side (P : OrderPool π) (maxOrders : ℕ) : (Engine.create P maxOrders).side b x = [] := by
  cases x <;> rfl

@[simp] theorem create_acquired (P : OrderPool π) (maxOrders : ℕ) : P.acquired (Engine.create P maxOrders).pool = ∅ :=
  P.acquired_create maxOrders

@[simp] theorem setSide_pool : (e.setSide b x l).pool = e.pool := rfl

@[simp] theorem setSide_mem : (e.setSide b x l).mem = e.mem := rfl

@[simp] theorem store_mem_self (o : Order) : (e.store s o).mem s = o := Function.update_self ..

theorem store_mem_of_ne {o : Order} {s' : Slot} (h : s' ≠ s) : (e.store s o).mem s' = e.mem s' :=
  Function.update_of_ne h ..

theorem subQuantity_mem_of_ne {s' : Slot} (h : s' ≠ s) : (e.subQuantity s q).mem s' = e.mem s' :=
  store_mem_of_ne _ _ h

@[simp] theorem accept_side (p : π) (o : Order) : (e.accept p s o).side b x = e.side b x := rfl

@[simp] theorem accept_mem_self (p : π) (o : Order) : (e.accept p s o).mem s = o := store_mem_self ..

theorem accept_mem_of_ne {p : π} {o : Order} {s' : Slot} (h : s' ≠ s) :
    (e.accept p s o).mem s' = e.mem s' :=
  store_mem_of_ne _ _ h

@[simp] theorem release_side (P : OrderPool π) : (e.release P s).side b x = e.side b x := rfl

@[simp] theorem release_mem (P : OrderPool π) : (e.release P s).mem = e.mem := rfl

@[simp] theorem release_pool (P : OrderPool π) : (e.release P s).pool = P.release e.pool s := rfl

end Engine

/-- `incoming` and `resting` trade `q`. -/
def Engine.fill (e : Engine π) (incoming resting : Slot) (q : UInt64) : Engine π :=
  (e.subQuantity incoming q).subQuantity resting q

section Fill

variable {e : Engine π} {incoming resting : Slot} {q : UInt64}

@[simp] theorem Engine.fill_side (b : Fin 1024) (x : Bool) :
    (e.fill incoming resting q).side b x = e.side b x := rfl

theorem Engine.fill_mem_incoming (h : incoming ≠ resting) :
    (e.fill incoming resting q).mem incoming = (e.mem incoming).sub q := by
  simp [Engine.fill, Engine.subQuantity, Engine.store_mem_of_ne _ _ h]

theorem Engine.fill_mem_resting (h : incoming ≠ resting) :
    (e.fill incoming resting q).mem resting = (e.mem resting).sub q := by
  simp [Engine.fill, Engine.subQuantity, Engine.store_mem_of_ne _ _ h.symm]

theorem Engine.fill_mem_of_ne {s : Slot} (h : s ≠ incoming) (h' : s ≠ resting) :
    (e.fill incoming resting q).mem s = e.mem s := by
  simp [Engine.fill, Engine.subQuantity, Engine.store_mem_of_ne _ _ h, Engine.store_mem_of_ne _ _ h']

end Fill

/-- The reports after the loop are those of the loop. -/
theorem finishMatch_events (b : Fin 1024) (s : Slot) (r : MatchState π × Bool) :
    (finishMatch b s r).2 = r.1.events := by
  simp only [finishMatch]
  split_ifs <;> rfl

/-! ### Quantities -/

theorem min_of_toNat_le {a b : UInt64} (h : a.toNat ≤ b.toNat) : min a b = a :=
  if_pos (UInt64.le_iff_toNat_le.mpr h)

theorem min_of_toNat_lt {a b : UInt64} (h : b.toNat < a.toNat) : min a b = b :=
  if_neg fun hle => absurd (UInt64.le_iff_toNat_le.mp hle) (Nat.not_le.mpr h)

/-- A fill takes no more than either order has. -/
theorem min_le_both (a b : UInt64) : min a b ≤ a ∧ min a b ≤ b := by
  rcases Nat.lt_or_ge b.toNat a.toNat with h | h
  · rw [min_of_toNat_lt h]
    exact ⟨UInt64.le_iff_toNat_le.mpr h.le, UInt64.le_refl b⟩
  · rw [min_of_toNat_le h]
    exact ⟨UInt64.le_refl a, UInt64.le_iff_toNat_le.mpr h⟩

theorem toNat_sub_of_toNat_le {a b : UInt64} (h : b.toNat ≤ a.toNat) : (a - b).toNat = a.toNat - b.toNat :=
  UInt64.toNat_sub_of_le _ _ (UInt64.le_iff_toNat_le.mpr h)

theorem sub_ne_zero_of_toNat_lt {a b : UInt64} (h : b.toNat < a.toNat) : a - b ≠ 0 := by
  intro h0
  have := congrArg UInt64.toNat h0
  rw [toNat_sub_of_toNat_le h.le, UInt64.toNat_zero] at this
  omega

/-! ### The cases of a turn -/

/-- **What a turn can do** when it looks at the front of the opposite side. -/
inductive TurnCase (P : OrderPool π) (book : Fin 1024) (opp : Bool) (incoming : Slot) (st : MatchState π) :
    Turn (MatchState π) (MatchState π × Bool) → Prop
  /-- No order is left. -/
  | empty : st.engine.side book opp = [] → TurnCase P book opp incoming st (.exit (st, false))
  /-- The front order's price does not cross: the `break`. -/
  | miss {r : Slot} {rest : List Slot} : st.engine.side book opp = r :: rest →
      (st.engine.mem incoming).crosses (st.engine.mem r) = false →
      TurnCase P book opp incoming st (.exit (st, false))
  /-- The front order is filled and leaves, the incoming order goes on. -/
  | consume {r : Slot} {rest : List Slot} : st.engine.side book opp = r :: rest →
      (st.engine.mem incoming).crosses (st.engine.mem r) = true →
      (st.engine.mem r).quantity.toNat < (st.engine.mem incoming).quantity.toNat →
      TurnCase P book opp incoming st (.again
        { engine := ((st.engine.fill incoming r (st.engine.mem r).quantity).release P r).setSide book opp rest
          i := 0
          events := st.events ++ (fillReports incoming r
            ((st.engine.mem incoming).sub (st.engine.mem r).quantity)
            ((st.engine.mem r).sub (st.engine.mem r).quantity) (st.engine.mem r).quantity).map .report ++
              [.release r] })
  /-- Both are filled. -/
  | complete {r : Slot} {rest : List Slot} : st.engine.side book opp = r :: rest →
      (st.engine.mem incoming).crosses (st.engine.mem r) = true →
      (st.engine.mem r).quantity = (st.engine.mem incoming).quantity →
      TurnCase P book opp incoming st (.exit (
        { engine := (((st.engine.fill incoming r (st.engine.mem r).quantity).release P r).setSide
            book opp rest).release P incoming
          i := 0
          events := st.events ++ (fillReports incoming r
            ((st.engine.mem incoming).sub (st.engine.mem r).quantity)
            ((st.engine.mem r).sub (st.engine.mem r).quantity) (st.engine.mem r).quantity).map .report ++
              [.release r] ++ [.release incoming] }, true))
  /-- The incoming order is filled, the front order keeps a rest. -/
  | reduce {r : Slot} {rest : List Slot} : st.engine.side book opp = r :: rest →
      (st.engine.mem incoming).crosses (st.engine.mem r) = true →
      (st.engine.mem incoming).quantity.toNat < (st.engine.mem r).quantity.toNat →
      TurnCase P book opp incoming st (.exit (
        { engine := (st.engine.fill incoming r (st.engine.mem incoming).quantity).release P incoming
          i := 1
          events := st.events ++ (fillReports incoming r
            ((st.engine.mem incoming).sub (st.engine.mem incoming).quantity)
            ((st.engine.mem r).sub (st.engine.mem incoming).quantity)
              (st.engine.mem incoming).quantity).map .report ++ [.release incoming] }, true))

theorem matchTurn_case (P : OrderPool π) {book : Fin 1024} {opp : Bool} {incoming : Slot}
    {st : MatchState π} (hi : st.i = 0) (hin : incoming ∉ st.engine.side book opp) :
    TurnCase P book opp incoming st (matchTurn P book opp incoming st) := by
  cases hside : st.engine.side book opp with
  | nil =>
    have : matchTurn P book opp incoming st = .exit (st, false) := by simp [matchTurn, hside]
    rw [this]
    exact .empty hside
  | cons r rest =>
    have hne : incoming ≠ r := List.ne_of_not_mem_cons (hside ▸ hin)
    cases hc : (st.engine.mem incoming).crosses (st.engine.mem r) with
    | false =>
      have : matchTurn P book opp incoming st = .exit (st, false) := by simp [matchTurn, hside, hi, hc]
      rw [this]
      exact .miss hside hc
    | true =>
      have hfill (q : UInt64) : (st.engine.subQuantity incoming q).subQuantity r q =
        st.engine.fill incoming r q := rfl
      simp only [matchTurn, hside, hi, List.getElem?_cons_zero, hc, if_true, hfill,
        Engine.fill_mem_incoming hne, Engine.fill_mem_resting hne, Engine.fill_side,
        List.eraseIdx_zero, List.tail_cons, Order.sub_quantity]
      rcases Nat.lt_trichotomy (st.engine.mem r).quantity.toNat (st.engine.mem incoming).quantity.toNat
        with h | h | h
      · have := TurnCase.consume (P := P) hside hc h
        simpa [min_of_toNat_lt h, Engine.fill_mem_incoming hne, sub_ne_zero_of_toNat_lt h] using this
      · have hq := UInt64.toNat_inj.mp h
        have := TurnCase.complete (P := P) hside hc hq
        simpa [← hq, min_of_toNat_le, Engine.fill_mem_incoming hne] using this
      · have := TurnCase.reduce (P := P) hside hc h
        simpa [min_of_toNat_le h.le, Engine.fill_mem_incoming hne, sub_ne_zero_of_toNat_lt h] using this

end Scrimmage.Market
