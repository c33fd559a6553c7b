import Scrimmage.Market.Sweep

/-!
# A callback that throws

Both quantities of a fill are reduced before its three callbacks, and slots are released
after them; nothing catches an exception. So one thrown by a callback leaves `submitOrder`
between the two, and the engine as it is there.

## The model

`submitOrderThrowing` is `submitOrder` when the callback number `n` of the call throws, those
before it having completed; a `std::function` that is not set throws when it is called. An
exception leaves with the engine it leaves behind, and with the calls that completed.

## What is proved

* `throws_iff`: the exception leaves, exactly if the call has a callback of that number; if it
  has none, the call is `submitOrder` (`submitOrderThrowing_ok`).
* `exists_interrupted`: the exception is thrown in a fill (`Interrupted`), both quantities of
  which are reduced. The callbacks before it are those of the call without the exception
  (`Interrupted.completed`), and so are those of the fill that it keeps from completing
  (`Interrupted.missed`).
-/

namespace Scrimmage.Market

open Theory

variable {π : Type}

/-! ### The call -/

/-- A callback: the one with the number `n` in the call throws, the others complete. -/
def callback (n : ℕ) (st : MatchState π) (r : Report Slot) : Except (MatchState π) (MatchState π) :=
  if (reports st.events).length = n then .error st else .ok { st with events := st.events ++ [.report r] }

/-- One turn of the loop of `matchOrder`, when the callback `n` throws. -/
def matchTurnThrowing (P : OrderPool π) (book : Fin 1024) (oppositeIsBuy : Bool) (incoming : Slot) (n : ℕ)
    (st : MatchState π) : Turn (MatchState π) (Except (MatchState π) (MatchState π × Bool)) :=
  match (st.engine.side book oppositeIsBuy)[st.i]? with
  | none => .exit (.ok (st, false))
  | some resting =>
    if (st.engine.mem incoming).crosses (st.engine.mem resting) then
      let fillQty := min (st.engine.mem incoming).quantity (st.engine.mem resting).quantity
      let e := (st.engine.subQuantity incoming fillQty).subQuantity resting fillQty
      match (fillReports incoming resting (e.mem incoming) (e.mem resting) fillQty).foldlM (callback n)
          { st with engine := e } with
      | .error st => .exit (.error st)
      | .ok st =>
        let st' : MatchState π :=
          if (e.mem resting).quantity = 0 then
            { engine := (e.release P resting).setSide book oppositeIsBuy
                ((e.side book oppositeIsBuy).eraseIdx st.i)
              i := st.i
              events := st.events ++ [.release resting] }
          else { engine := e, i := st.i + 1, events := st.events }
        if (st'.engine.mem incoming).quantity = 0 then
          .exit (.ok ({ st' with engine := st'.engine.release P incoming
                                 events := st'.events ++ [.release incoming] }, true))
        else .again st'
    else .exit (.ok (st, false))

/-- `matchOrder`, when the callback `n` throws. -/
def matchOrderThrowing (P : OrderPool π) (e : Engine π) (book : Fin 1024) (incoming : Slot) (n : ℕ) :
    Except (MatchState π) (Engine π × List Event) :=
  match Loop.run (matchTurnThrowing P book (!(e.mem incoming).isBuy) incoming n)
      ((e.side book (!(e.mem incoming).isBuy)).length + 1) ⟨e, 0, []⟩ with
  | .exit (.error st) => .error st
  | .exit (.ok r) => .ok (finishMatch book incoming r)
  | .again st => .ok (finishMatch book incoming (st, false))

/-- `submitOrder`, when the callback `n` throws. -/
def submitOrderThrowing (P : OrderPool π) (e : Engine π) (order : Order) (n : ℕ) :
    Except (MatchState π) (Engine π × List Event) :=
  match P.acquire e.pool with
  | none => .ok (e, [])
  | some (newOrder, pool) => matchOrderThrowing P (e.accept pool newOrder order) order.bookIndex newOrder n

/-! ### Where the exception is thrown -/

/-- The state in which the callback `n` throws, on the turn that is to come: both quantities
are reduced, and the callbacks before it have completed. None if the turn has no such
callback. -/
def thrown (book : Fin 1024) (oppositeIsBuy : Bool) (incoming : Slot) (n : ℕ) (st : MatchState π) :
    Option (MatchState π) :=
  match (st.engine.side book oppositeIsBuy)[st.i]? with
  | none => none
  | some resting =>
    let fillQty := min (st.engine.mem incoming).quantity (st.engine.mem resting).quantity
    let e := (st.engine.subQuantity incoming fillQty).subQuantity resting fillQty
    if (st.engine.mem incoming).crosses (st.engine.mem resting) ∧ (reports st.events).length ≤ n ∧
        n < (reports st.events).length + 3 then
      some { st with
        engine := e
        events := st.events ++ ((fillReports incoming resting (e.mem incoming) (e.mem resting) fillQty).take
          (n - (reports st.events).length)).map .report }
    else none

theorem fillReports_length {ι : Type} (r r' : ι) (o o' : Order) (q : UInt64) :
    (fillReports r r' o o' q).length = 3 := rfl

/-- Callbacks one after the other: those before the one that throws complete. -/
theorem foldlM_callback (n : ℕ) (l : List (Report Slot)) (st : MatchState π) :
    l.foldlM (callback n) st =
      if (reports st.events).length ≤ n ∧ n < (reports st.events).length + l.length then
        .error { st with events := st.events ++ (l.take (n - (reports st.events).length)).map .report }
      else .ok { st with events := st.events ++ l.map .report } := by
  induction l generalizing st with
  | nil => simp [pure, Except.pure]
  | cons r l ih =>
    rw [List.foldlM_cons]
    by_cases hn : (reports st.events).length = n
    · have hthrow : callback n st r = .error st := by simp [callback, hn]
      rw [hthrow]
      simp [hn, bind, Except.bind]
    · have hdone : callback n st r = .ok { st with events := st.events ++ [.report r] } := by
        simp [callback, hn]
      have hlen : (reports (st.events ++ [.report r])).length = (reports st.events).length + 1 := by
        simpa using congrArg List.length (reports_report [r])
      rw [hdone]
      change l.foldlM (callback n) { st with events := st.events ++ [.report r] } = _
      rw [ih, hlen]
      by_cases hin : (reports st.events).length ≤ n ∧ n < (reports st.events).length + (r :: l).length
      · obtain ⟨k, hk⟩ : ∃ k, n - (reports st.events).length = k + 1 :=
          Nat.exists_eq_succ_of_ne_zero (by omega)
        have hk' : n - ((reports st.events).length + 1) = k := by omega
        rw [if_pos hin, if_pos (by rw [List.length_cons] at hin; omega), hk, hk']
        simp
      · rw [if_neg hin, if_neg (by rw [List.length_cons] at hin; omega)]
        simp

/-- **A turn is that of the loop without exceptions**, but for the one that the exception leaves. -/
theorem matchTurnThrowing_eq (P : OrderPool π) (book : Fin 1024) (opp : Bool) (incoming : Slot) (n : ℕ) :
    matchTurnThrowing P book opp incoming n =
      Loop.throwing (matchTurn P book opp incoming) (thrown book opp incoming n) := by
  funext st
  unfold matchTurnThrowing Loop.throwing thrown matchTurn
  cases (st.engine.side book opp)[st.i]? with
  | none => rfl
  | some resting =>
    by_cases hc : (st.engine.mem incoming).crosses (st.engine.mem resting)
    · simp only [hc, if_true, foldlM_callback, fillReports_length, true_and]
      by_cases hin : (reports st.events).length ≤ n ∧ n < (reports st.events).length + 3
      · simp only [hin, and_self, if_true]
      · simp only [hin, if_false]
        split_ifs <;> rfl
    · simp [hc]

/-- The state in which a fill of `q` is interrupted, after `c` of its callbacks. -/
def MatchState.interrupt (st : MatchState π) (s r : Slot) (q : UInt64) (c : ℕ) : MatchState π :=
  { engine := st.engine.fill s r q
    i := st.i
    events := st.events ++
      ((fillReports s r ((st.engine.mem s).sub q) ((st.engine.mem r).sub q) q).take c).map .report }

theorem fillsOf_length (s : Slot) (mem : Slot → Order) (o : Order) (l : List Slot) :
    (fillsOf s mem o l).length = 3 * l.length := by
  induction l generalizing o with
  | nil => rfl
  | cons r l ih =>
    rw [fillsOf, List.length_append, ih, fillReports_length, List.length_cons]
    omega

/-- A list, split before one of its places. -/
theorem exists_split_at {α : Type*} {l : List α} {k : ℕ} (hk : k < l.length) :
    ∃ pre a post, l = pre ++ a :: post ∧ pre.length = k := by
  refine ⟨l.take k, l[k], l.drop (k + 1), ?_, List.length_take_of_le hk.le⟩
  rw [← List.drop_eq_getElem_cons hk, List.take_append_drop]

section Throws

variable {P : OrderPool π} {maxOrders n : ℕ} {e e₀ : Engine π} {o : Order} {s r : Slot} {p : π} {b : Fin 1024}
  {opp : Bool} {hand done rest : List Slot} {st₀ st : MatchState π}

/-- Three callbacks have been made for each order filled. -/
theorem Swept.reports_length (h : Swept e₀ s b opp done rest st₀) :
    (reports st₀.events).length = 3 * done.length := by
  have hrep := h.reported []
  rw [fillsOf, List.append_nil, List.append_nil] at hrep
  rw [hrep, fillsOf_length]

/-- **The fill whose callback `n` throws**: that of the order in slot `r`, when the orders `done`
have been filled; `st₀` is the state of the loop before it, and `st` that in which the
callback throws. -/
structure Interrupted (P : OrderPool π) (e₀ : Engine π) (s : Slot) (b : Fin 1024) (opp : Bool) (n : ℕ)
    (done : List Slot) (r : Slot) (rest : List Slot) (st₀ st : MatchState π) : Prop where
  run : Loop.run (matchTurn P b opp s) done.length ⟨e₀, 0, []⟩ = .again st₀
  swept : Swept e₀ s b opp done (r :: rest) st₀
  crosses : crossing (e₀.mem s) e₀.mem r = true
  /-- The callback is one of the three of this fill. -/
  lower : 3 * done.length ≤ n
  upper : n < 3 * done.length + 3
  state : st = st₀.interrupt s r (min (st₀.engine.mem s).quantity (st₀.engine.mem r).quantity) (n % 3)

/-- **Where the exception is thrown**, in a state of the loop. -/
theorem Swept.thrown_iff (h : Swept e₀ s b opp done rest st₀) (hnd : (e₀.side b opp).Nodup)
    (hs : s ∉ e₀.side b opp) (hrun : Loop.run (matchTurn P b opp s) done.length ⟨e₀, 0, []⟩ = .again st₀) :
    thrown b opp s n st₀ = some st ↔ ∃ r rest', rest = r :: rest' ∧ Interrupted P e₀ s b opp n done r rest' st₀ st := by
  have hlen := h.reports_length
  have hin := h.notMem hs
  have hmod (hle : 3 * done.length ≤ n) (hlt : n < 3 * done.length + 3) : n - 3 * done.length = n % 3 := by omega
  unfold thrown
  rw [h.side] at hin ⊢
  rw [h.front, hlen]
  cases rest with
  | nil => simp
  | cons r rest =>
    have hne : s ≠ r := List.ne_of_not_mem_cons hin
    have hr : st₀.engine.mem r = e₀.mem r := h.mem_rest hnd hs (List.mem_cons_self ..)
    have hfill (q : UInt64) : (st₀.engine.subQuantity s q).subQuantity r q = st₀.engine.fill s r q := rfl
    simp only [List.getElem?_cons_zero, hfill, Engine.fill_mem_incoming hne, Engine.fill_mem_resting hne,
      h.crosses_eq, hr, Option.ite_none_right_eq_some]
    constructor
    · rintro ⟨⟨hc, hle, hlt⟩, heq⟩
      refine ⟨r, rest, rfl, hrun, h, hc, hle, hlt, ?_⟩
      rw [hmod hle hlt] at heq
      simpa [MatchState.interrupt, hr, h.front] using heq.symm
    · rintro ⟨r', rest', hcons, hint⟩
      obtain ⟨rfl, rfl⟩ := List.cons.inj hcons
      refine ⟨⟨hint.crosses, hint.lower, hint.upper⟩, ?_⟩
      rw [hint.state, hmod hint.lower hint.upper]
      simp [MatchState.interrupt, hr, h.front]

theorem submitOrderThrowing_of_exit (ha : P.acquire e.pool = some (s, p))
    (hexit : Loop.run (Loop.throwing (matchTurn P o.bookIndex (!o.isBuy) s) (thrown o.bookIndex (!o.isBuy) s n))
      (((e.accept p s o).side o.bookIndex (!o.isBuy)).length + 1) ⟨e.accept p s o, 0, []⟩ = .exit (.error st)) :
    submitOrderThrowing P e o n = .error st := by
  simp only [submitOrderThrowing, ha, matchOrderThrowing, Engine.accept_mem_self, matchTurnThrowing_eq, hexit]

/-- The exception leaves a call from a state that its loop reaches. -/
theorem exists_thrown (ha : P.acquire e.pool = some (s, p)) (herr : submitOrderThrowing P e o n = .error st) :
    ∃ m st₀, Loop.run (matchTurn P o.bookIndex (!o.isBuy) s) m ⟨e.accept p s o, 0, []⟩ = .again st₀ ∧
      thrown o.bookIndex (!o.isBuy) s n st₀ = some st := by
  simp only [submitOrderThrowing, ha, matchOrderThrowing, Engine.accept_mem_self, matchTurnThrowing_eq] at herr
  split at herr
  case h_1 st' hrun =>
    cases herr
    obtain ⟨m, -, st₀, hagain, hthrown⟩ := Loop.run_throwing_error hrun
    exact ⟨m, st₀, hagain, hthrown⟩
  all_goals cases herr

/-- **An exception that leaves a call** is thrown in one of its fills. -/
theorem exists_interrupted (h : Rep P maxOrders e hand) (ha : P.acquire e.pool = some (s, p))
    (herr : submitOrderThrowing P e o n = .error st) :
    ∃ done r rest st₀, Interrupted P (e.accept p s o) s o.bookIndex (!o.isBuy) n done r rest st₀ st := by
  obtain ⟨hnd, hs⟩ := h.start_side ha o
  obtain ⟨m, st₀, hrun, hthrown⟩ := exists_thrown ha herr
  obtain ⟨done, rest, rfl, hsw⟩ := swept_of_again hnd hs hrun
  obtain ⟨r, rest', rfl, hint⟩ := (hsw.thrown_iff hnd hs hrun).mp hthrown
  exact ⟨done, r, rest', st₀, hint⟩

/-- The order of the interrupted fill is reached, behind those filled. -/
theorem Interrupted.reached (h : Interrupted P (e.accept p s o) s o.bookIndex (!o.isBuy) n done r rest st₀ st) :
    ∃ l, reachedBy o (e.accept p s o).mem (e.oppositeOf o) = done ++ r :: l := by
  have hreached := h.swept.reached_eq
  have hc := h.crosses
  rw [Engine.accept_mem_self] at hreached hc
  rw [Sweep.reached, if_pos hc] at hreached
  exact ⟨_, hreached⟩

/-- A callback of the call that throws interrupts its fill. -/
theorem throws_of_lt (h : Rep P maxOrders e hand) (ha : P.acquire e.pool = some (s, p))
    (hn : n < 3 * (reachedBy o (e.accept p s o).mem (e.oppositeOf o)).length) :
    ∃ st, submitOrderThrowing P e o n = .error st := by
  obtain ⟨hnd, hs⟩ := h.start_side ha o
  -- the order whose fill has the callback, and those reached before it
  obtain ⟨done, r, post, hsplit, hlen⟩ : ∃ done r post,
      reachedBy o (e.accept p s o).mem (e.oppositeOf o) = done ++ r :: post ∧ done.length = n / 3 :=
    exists_split_at (by omega)
  obtain ⟨rest, hopp, hok, hlasts⟩ := Sweep.split_of_reached hsplit
  have hself : (e.accept p s o).mem s = o := Engine.accept_mem_self ..
  obtain ⟨st₀, hrun, hsw⟩ := again_of_crossed (P := P) hnd hs hopp
    (fun t ht => by rw [hself]; exact hok t (List.mem_append_left _ ht)) (by rw [hself]; exact hlasts)
  have hthrown := (hsw.thrown_iff (n := n) hnd hs hrun).mpr
    ⟨r, rest, rfl, hrun, hsw, by rw [hself]; exact hok r (by simp), by omega, by omega, rfl⟩
  have hbefore (k : ℕ) (hk : k < done.length) (t : MatchState π)
      (hrun' : Loop.run (matchTurn P o.bookIndex (!o.isBuy) s) k ⟨e.accept p s o, 0, []⟩ = .again t) :
      thrown o.bookIndex (!o.isBuy) s n t = none := by
    obtain ⟨done', rest', rfl, hsw'⟩ := swept_of_again hnd hs hrun'
    by_contra hne
    obtain ⟨st', hst'⟩ := Option.ne_none_iff_exists'.mp hne
    obtain ⟨r', rest'', -, hint⟩ := (hsw'.thrown_iff hnd hs hrun').mp hst'
    have := hint.upper
    omega
  have hfuel : done.length < ((e.accept p s o).side o.bookIndex (!o.isBuy)).length + 1 := by
    rw [show (e.accept p s o).side o.bookIndex (!o.isBuy) = done ++ r :: rest from hopp, List.length_append]
    omega
  exact ⟨_, submitOrderThrowing_of_exit ha (Loop.run_throwing_of_thrown hrun hthrown hbefore hfuel)⟩

/-- **When the exception leaves**: when the call has a callback of that number. -/
theorem throws_iff (h : Rep P maxOrders e hand) (o : Order) (n : ℕ) :
    (∃ st, submitOrderThrowing P e o n = .error st) ↔ n < (reports (submitOrder P e o).2).length := by
  cases ha : P.acquire e.pool with
  | none => simp [submitOrderThrowing, ha, submitOrder_of_none ha]
  | some a =>
    obtain ⟨s, p⟩ := a
    rw [(submitOrder_swept h ha o).reported, fillsOf_length, ← reachedBy_accept h ha o]
    constructor
    · rintro ⟨st, herr⟩
      obtain ⟨done, r, rest, st₀, hint⟩ := exists_interrupted h ha herr
      obtain ⟨l, hl⟩ := hint.reached
      have := hint.upper
      rw [hl, List.length_append, List.length_cons]
      omega
    · exact throws_of_lt h ha

/-- A call that no exception leaves is that of `submitOrder`. -/
theorem submitOrderThrowing_ok {out : Engine π × List Event} (hok : submitOrderThrowing P e o n = .ok out) :
    submitOrder P e o = out := by
  cases ha : P.acquire e.pool with
  | none => simpa [submitOrderThrowing, submitOrder, ha] using hok
  | some a =>
    obtain ⟨s, p⟩ := a
    simp only [submitOrderThrowing, ha, matchOrderThrowing, Engine.accept_mem_self, matchTurnThrowing_eq] at hok
    simp only [submitOrder, ha, matchOrder, matchLoop, Engine.accept_mem_self]
    split at hok
    case h_1 => cases hok
    case h_2 r hrun =>
      rw [Loop.run_throwing_ok hrun]
      exact Except.ok.inj hok
    case h_3 st' hrun =>
      rw [Loop.run_again_of_throwing hrun]
      exact Except.ok.inj hok

/-! ### The callbacks of the call -/

/-- **The callbacks of the call without the exception**: those before the fill that it interrupts,
those of the fill, and those that would follow. -/
theorem Interrupted.reports_eq (h : Rep P maxOrders e hand) (ha : P.acquire e.pool = some (s, p))
    (hint : Interrupted P (e.accept p s o) s o.bookIndex (!o.isBuy) n done r rest st₀ st) :
    let q := min (st₀.engine.mem s).quantity (st₀.engine.mem r).quantity
    ∃ more, reports (submitOrder P e o).2 =
      reports st₀.events ++ fillReports s r ((st₀.engine.mem s).sub q) ((st₀.engine.mem r).sub q) q ++ more := by
  obtain ⟨l, hl⟩ := hint.reached
  obtain ⟨hnd, hnot⟩ := h.start_side ha o
  have hr : st₀.engine.mem r = (e.accept p s o).mem r := hint.swept.mem_rest hnd hnot (List.mem_cons_self ..)
  have hsame : fillsOf s e.mem o (reachedBy o e.mem (e.oppositeOf o)) =
      fillsOf s (e.accept p s o).mem o (done ++ r :: l) := by
    rw [← hl, reachedBy_accept h ha o]
    exact fillsOf_congr fun t ht => (h.accept_mem ha (reachedBy_subset ht)).symm
  have hall := hint.swept.reported (r :: l)
  rw [Engine.accept_mem_self, fillsOf, ← hr] at hall
  rw [(submitOrder_swept h ha o).reported, hsame, ← hall, ← List.append_assoc]
  exact ⟨_, rfl⟩

/-- The number of the callback that throws is that of those that have completed. -/
theorem Interrupted.reports_length (h : Interrupted P e₀ s b opp n done r rest st₀ st) :
    (reports st.events).length = n := by
  have hlen := h.swept.reports_length
  have hlower := h.lower
  have hupper := h.upper
  rw [h.state, MatchState.interrupt, reports_append, reports_report, List.length_append, List.length_take,
    fillReports_length]
  omega

/-- The callbacks that complete are those of the call without the exception, up to it. -/
theorem Interrupted.completed (h : Rep P maxOrders e hand) (ha : P.acquire e.pool = some (s, p))
    (hint : Interrupted P (e.accept p s o) s o.bookIndex (!o.isBuy) n done r rest st₀ st) :
    reports st.events = (reports (submitOrder P e o).2).take n := by
  obtain ⟨more, hmore⟩ := hint.reports_eq h ha
  have hlen := hint.swept.reports_length
  have hlower := hint.lower
  have hupper := hint.upper
  have hmod : n - 3 * done.length = n % 3 := by omega
  rw [hmore, List.append_assoc, List.take_append, hlen, hmod, List.take_of_length_le (by omega),
    List.take_append_of_le_length (by rw [fillReports_length]; omega), hint.state]
  simp only [MatchState.interrupt, reports_append, reports_report]

/-- The callbacks of the fill that an exception has interrupted, as the call without it makes
them, from the one that threw on. -/
def missedReports (P : OrderPool π) (e : Engine π) (o : Order) (st : MatchState π) : List (Report Slot) :=
  ((reports (submitOrder P e o).2).drop (reports st.events).length).take (3 - (reports st.events).length % 3)

/-- They are those that did not complete. -/
theorem Interrupted.missed (h : Rep P maxOrders e hand) (ha : P.acquire e.pool = some (s, p))
    (hint : Interrupted P (e.accept p s o) s o.bookIndex (!o.isBuy) n done r rest st₀ st) :
    let q := min (st₀.engine.mem s).quantity (st₀.engine.mem r).quantity
    missedReports P e o st =
      (fillReports s r ((st₀.engine.mem s).sub q) ((st₀.engine.mem r).sub q) q).drop (n % 3) := by
  intro q
  obtain ⟨more, hmore⟩ := hint.reports_eq h ha
  have hlen := hint.swept.reports_length
  have hlower := hint.lower
  have hupper := hint.upper
  have hmod : n - 3 * done.length = n % 3 := by omega
  have hdrop : (reports st₀.events).drop n = [] := List.drop_of_length_le (by omega)
  rw [missedReports, hint.reports_length, hmore, List.append_assoc, List.drop_append, hlen, hmod, hdrop,
    List.nil_append, List.drop_append_of_le_length (by rw [fillReports_length]; omega), List.take_append_of_le_length,
    List.take_of_length_le] <;> simp only [List.length_drop, fillReports_length] <;> omega

end Throws

end Scrimmage.Market
