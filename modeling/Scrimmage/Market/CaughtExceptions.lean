import Scrimmage.Market.ThrowingCallback
import Scrimmage.Market.TimePriority

/-!
# Exceptions that are caught

An exception that a callback throws leaves `submitOrder`, and a caller that catches it may
go on calling the engine as it was left: with a fill that not all callbacks were told of, and
with a slot that no book holds.

## The model

`Disrupted` is a history some calls of which an exception has left. It keeps what these left
undone: the callbacks of the interrupted fills that did not complete, and the slots of the
incoming orders. Where no exception leaves a call it is the `History` of the calls
(`Disrupted.run_history`).

## What is proved

* `Disrupted.Sound`: the invariant of runs with exceptions. Were the missed callbacks made, and
  the stranded slots in hand, the history would be as sound as one without exceptions; and what
  rests has quantity, but for the orders of interrupted fills (`Disrupted.Struck`). Every call
  keeps it, whether an exception leaves it or not (`Disrupted.Sound.submit`).
* `exception_leaves`: what an exception leaves behind, after any calls (`LeftBehind`), which
  is not a consistent engine (`exception_breaks`).
-/

namespace Scrimmage.Market

open Theory

variable {π : Type}

/-! ### Histories with exceptions -/

/-- A history of calls some of which an exception has left. -/
structure Disrupted (π : Type) extends History π where
  /-- The callbacks of the interrupted fills that did not complete, by submission. -/
  missed : List (Report ℕ)
  /-- The slots of the orders whose calls an exception has left. -/
  stranded : List Slot

/-- An exception has left the call of the order in slot `s`, and the engine as it is in `st`. -/
def Disrupted.interrupt (P : OrderPool π) (h : Disrupted π) (s : Slot) (o : Order) (st : MatchState π) : Disrupted π :=
  { toHistory := h.extend s o st.engine st.events
    missed := h.missed ++
      (missedReports P h.engine o st).map (Report.map (Function.update h.owner s h.orders.length))
    stranded := s :: h.stranded }

/-- `submitOrder`, when the callback of the number given throws, if any does. -/
def attempt (P : OrderPool π) (e : Engine π) (o : Order) : Option ℕ → Except (MatchState π) (Engine π × List Event)
  | none => .ok (submitOrder P e o)
  | some n => submitOrderThrowing P e o n

/-- A call of `submitOrder`; an exception that leaves it is caught. -/
def Disrupted.submit (P : OrderPool π) (h : Disrupted π) (o : Order) (throws : Option ℕ) : Disrupted π :=
  match P.acquire h.engine.pool with
  | none => h
  | some (s, _) =>
    match attempt P h.engine o throws with
    | .ok (engine, events) => { h with toHistory := h.extend s o engine events }
    | .error st => h.interrupt P s o st

/-- The history of a sequence of calls, each with the number of the callback that throws, if
any does. -/
def Disrupted.run (P : OrderPool π) (maxOrders : ℕ) (calls : List (Order × Option ℕ)) : Disrupted π :=
  calls.foldl (fun h call => h.submit P call.1 call.2) ⟨⟨Engine.create P maxOrders, [], fun _ => 0, []⟩, [], []⟩

theorem Disrupted.run_snoc (P : OrderPool π) (maxOrders : ℕ) (calls : List (Order × Option ℕ)) (o : Order)
    (throws : Option ℕ) :
    Disrupted.run P maxOrders (calls ++ [(o, throws)]) = (Disrupted.run P maxOrders calls).submit P o throws := by
  simp [Disrupted.run]

/-- The engine after a call is the one it returned with, or that the exception left. -/
theorem Disrupted.submit_engine (P : OrderPool π) (h : Disrupted π) (o : Order) (throws : Option ℕ) :
    (h.submit P o throws).engine = match attempt P h.engine o throws with
      | .ok out => out.1
      | .error st => st.engine := by
  unfold Disrupted.submit
  cases ha : P.acquire h.engine.pool with
  | none => cases throws <;> simp [attempt, submitOrder_of_none, submitOrderThrowing, ha]
  | some a => cases attempt P h.engine o throws <;> rfl

/-- With no exceptions it is the history of the calls. -/
theorem Disrupted.run_history (P : OrderPool π) (maxOrders : ℕ) (orders : List Order) :
    Disrupted.run P maxOrders (orders.map fun o => (o, none)) = ⟨History.run P maxOrders orders, [], []⟩ := by
  induction orders using List.reverseRecOn with
  | nil => rfl
  | append_singleton orders o ih =>
    rw [List.map_append, List.map_singleton, Disrupted.run_snoc, ih, History.run_snoc, Disrupted.submit]
    cases ha : P.acquire (History.run P maxOrders orders).engine.pool with
    | none => rw [History.submit_of_none ha]
    | some a => rw [History.submit_of_some ha, attempt]

/-- The order of a submission was in a fill whose callbacks did not all complete. -/
def Disrupted.Struck (h : Disrupted π) (k : ℕ) : Prop := ∃ l ∈ h.missed, l.concerns k

/-- **The invariant of runs with exceptions.** -/
structure Disrupted.Sound (P : OrderPool π) (maxOrders : ℕ) (h : Disrupted π) : Prop where
  /-- With the missed callbacks made, each in its place, the books are balanced. -/
  books : ∃ due : List (Report ℕ), due.Perm (h.log ++ h.missed) ∧
    ({ h.toHistory with log := due } : History π).Sound P maxOrders h.stranded
  /-- What rests without quantity was in an interrupted fill, -/
  stocked : Stocked (fun t => ¬ h.Struck (h.owner t)) h.engine
  /-- and so was what is stranded. -/
  stranded : ∀ t ∈ h.stranded, h.Struck (h.owner t)

/-! ### Reports -/

theorem executionsOf_perm {log log' : List (Report ℕ)} (h : log.Perm log') (k : ℕ) :
    (executionsOf log k).Perm (executionsOf log' k) :=
  h.filterMap _

theorem sumFilled_perm {l l' : List (Order × UInt64)} (h : l.Perm l') : sumFilled l = sumFilled l' :=
  (h.map _).sum_eq

/-- Reports that do not concern an order fill nothing of it. -/
theorem executionsOf_of_not_concerns {log : List (Report ℕ)} {k : ℕ} (h : ∀ l ∈ log, ¬ l.concerns k) :
    executionsOf log k = [] := by
  apply List.filterMap_eq_nil_iff.mpr
  intro l hl
  cases l with
  | execution k' o q => exact if_neg (h _ hl)
  | matched => rfl

/-- Callbacks that complete and callbacks that are missed, after others. -/
theorem perm_due {α : Type*} {due log missed : List α} (h : due.Perm (log ++ missed)) (made lost : List α) :
    (due ++ (made ++ lost)).Perm (log ++ made ++ (missed ++ lost)) := by
  refine (h.append_right _).trans ?_
  rw [List.append_assoc, List.append_assoc]
  exact (List.perm_append_comm_assoc missed made lost).append_left log

/-- The last callback of a fill is missed, whichever of the three throws. -/
theorem matched_mem_drop {ι : Type} (i r : ι) (o o' : Order) (q : UInt64) (n : ℕ) :
    Report.matched i r o o' q ∈ (fillReports i r o o' q).drop (n % 3) := by
  have hlt : n % 3 < 3 := Nat.mod_lt n (by decide)
  generalize n % 3 = c at hlt
  match c, hlt with
  | 0, _ | 1, _ | 2, _ => simp [fillReports]

/-! ### What the invariant says -/

section Sound

variable {P : OrderPool π} {maxOrders : ℕ} {h : Disrupted π} {o : Order} {s : Slot} {p : π} {k : ℕ}

namespace Disrupted.Sound

theorem rep (hs : h.Sound P maxOrders) : Rep P maxOrders h.engine h.stranded := by
  obtain ⟨due, -, hdue⟩ := hs.books
  exact hdue.rep

/-- **The quantity of every order**: what its fills come to, those that a callback was not told of
among them, and what is left of it, in the books or stranded. -/
theorem quantity (hs : h.Sound P maxOrders) (hk : k < h.orders.length) :
    h.orders[k].quantity.toNat = sumFilled (executionsOf h.log k) + sumFilled (executionsOf h.missed k) +
      h.unfilled h.stranded k := by
  obtain ⟨due, hperm, hdue⟩ := hs.books
  have hsum := hdue.balanced.unfilled (List.getElem?_eq_getElem hk)
  rw [sumFilled_perm (executionsOf_perm hperm k), executionsOf_append, sumFilled_append] at hsum
  exact hsum

/-- **Of an order of no interrupted fill** it is what its callbacks were told of, and what rests. -/
theorem conserved (hs : h.Sound P maxOrders) (hk : k < h.orders.length) (hnot : ¬ h.Struck k) :
    h.orders[k].quantity.toNat = sumFilled (executionsOf h.log k) + h.unfilled [] k := by
  have hmissed : executionsOf h.missed k = [] := executionsOf_of_not_concerns fun l hl hc => hnot ⟨l, hl, hc⟩
  have hstranded : h.stranded.filter (fun t => decide (h.owner t = k)) = [] := by
    apply List.filter_eq_nil_iff.mpr
    intro t ht
    have hne : h.owner t ≠ k := fun heq => hnot (heq ▸ hs.stranded t ht)
    simpa using hne
  have hsum := hs.quantity hk
  rw [hmissed, sumFilled_nil, Nat.add_zero, History.unfilled, List.filter_append, hstranded, List.nil_append] at hsum
  rw [History.unfilled, List.nil_append]
  exact hsum

/-- No slot is held twice, nor is one that is held stranded; and all that are held are out. -/
theorem once (hs : h.Sound P maxOrders) :
    (held h.engine).Nodup ∧ ∀ t ∈ held h.engine, t ∈ P.acquired h.engine.pool :=
  ⟨(List.nodup_append.mp hs.rep.nodup).2.1, fun t ht => hs.rep.out t (List.mem_append_right _ ht)⟩

/-! ### What a call preserves -/

/-- The owner of a slot that was not free is as it was. -/
theorem owner_accept (hs : h.Sound P maxOrders) (ha : P.acquire h.engine.pool = some (s, p)) {t : Slot}
    (ht : t ∈ h.stranded ++ held h.engine) : Function.update h.owner s h.orders.length t = h.owner t := by
  apply Function.update_of_ne
  rintro rfl
  exact hs.rep.acquired_not_mem_held ha ht

/-- A call that no exception leaves. -/
theorem extend (hs : h.Sound P maxOrders) (ha : P.acquire h.engine.pool = some (s, p)) (o : Order) :
    ({ h with toHistory := h.extend s o (submitOrder P h.engine o).1 (submitOrder P h.engine o).2 } :
      Disrupted π).Sound P maxOrders := by
  obtain ⟨due, hperm, hdue⟩ := hs.books
  refine ⟨⟨_, ?_, hdue.extend ha o⟩, ?_, fun t ht => ?_⟩
  · have hmade := perm_due hperm
      ((reports (submitOrder P h.engine o).2).map (Report.map (Function.update h.owner s h.orders.length))) []
    rw [List.append_nil, List.append_nil] at hmade
    exact hmade
  · have hstart : Stocked (fun t => ¬ h.Struck (Function.update h.owner s h.orders.length t)) h.engine := by
      refine hs.stocked.mono fun t ht hS => ?_
      rwa [hs.owner_accept ha (List.mem_append_right _ ht)] at hS
    exact hstart.submit hs.rep o
  · show h.Struck (Function.update h.owner s h.orders.length t)
    rw [hs.owner_accept ha (List.mem_append_left _ ht)]
    exact hs.stranded t ht

end Disrupted.Sound

/-! ### An interrupted fill -/

variable {n : ℕ} {r : Slot} {done rest : List Slot} {st₀ st : MatchState π}

/-- The incoming order and the one it was being filled against are of an interrupted fill. -/
theorem Disrupted.struck_interrupt (hrep : Rep P maxOrders h.engine h.stranded)
    (ha : P.acquire h.engine.pool = some (s, p))
    (hint : Interrupted P (h.engine.accept p s o) s o.bookIndex (!o.isBuy) n done r rest st₀ st) :
    (h.interrupt P s o st).Struck ((h.interrupt P s o st).owner s) ∧
    (h.interrupt P s o st).Struck ((h.interrupt P s o st).owner r) := by
  have hmissed := hint.missed hrep ha
  generalize min (st₀.engine.mem s).quantity (st₀.engine.mem r).quantity = q at hmissed
  have hmem : Report.matched s r ((st₀.engine.mem s).sub q) ((st₀.engine.mem r).sub q) q ∈
      missedReports P h.engine o st := by
    rw [hmissed]
    exact matched_mem_drop s r _ _ q n
  have hlast := List.mem_append_right h.missed
    (List.mem_map_of_mem (f := Report.map (h.interrupt P s o st).owner) hmem)
  exact ⟨⟨_, hlast, Or.inl rfl⟩, ⟨_, hlast, Or.inr rfl⟩⟩

/-- A fill once interrupted remains so. -/
theorem Disrupted.Struck.interrupt (hk : h.Struck k) (s : Slot) (o : Order) (st : MatchState π) :
    (h.interrupt P s o st).Struck k := by
  obtain ⟨l, hl, hc⟩ := hk
  exact ⟨l, List.mem_append_left _ hl, hc⟩

/-- **The books of an interrupted fill**: both orders have traded, and its callbacks are those that
completed and those that are missed. -/
theorem Disrupted.Sound.books_interrupt (hs : h.Sound P maxOrders) (ha : P.acquire h.engine.pool = some (s, p))
    (hint : Interrupted P (h.engine.accept p s o) s o.bookIndex (!o.isBuy) n done r rest st₀ st) :
    ∃ due : List (Report ℕ), due.Perm ((h.interrupt P s o st).log ++ (h.interrupt P s o st).missed) ∧
      ({ (h.interrupt P s o st).toHistory with log := due } : History π).Sound P maxOrders (s :: h.stranded) := by
  have hmissed := hint.missed hs.rep ha
  obtain ⟨due, hperm, hdue⟩ := hs.books
  obtain ⟨lost, hloop, hacc⟩ := hdue.start ha o
  have hpoint := run_matchTurn_balanced hloop hacc done.length
  obtain ⟨hrun, hsw, -, -, -, hst⟩ := hint
  rw [hrun] at hpoint
  obtain ⟨hrep, hbal⟩ := hpoint
  obtain ⟨hnd, hnot⟩ := hs.rep.start_side ha o
  have hne : s ≠ r := List.ne_of_not_mem_cons (hsw.side ▸ hsw.notMem hnot)
  have hq := min_le_both (st₀.engine.mem s).quantity (st₀.engine.mem r).quantity
  generalize min (st₀.engine.mem s).quantity (st₀.engine.mem r).quantity = q at hmissed hst hq
  have htrade := hbal.trade hsw.side hne (UInt64.le_iff_toNat_le.mp hq.1) (UInt64.le_iff_toNat_le.mp hq.2)
  have hengine : st.engine = st₀.engine.fill s r q := by rw [hst]; rfl
  -- the callbacks of the fill are those that completed and those that did not
  have hreports : reports st₀.events ++
      fillReports s r ((st₀.engine.mem s).sub q) ((st₀.engine.mem r).sub q) q =
      reports st.events ++ missedReports P h.engine o st := by
    rw [hmissed, hst]
    simp only [MatchState.interrupt, reports_append, reports_report, List.append_assoc, List.take_append_drop]
  rw [hreports, List.map_append] at htrade
  refine ⟨_, perm_due hperm _ _, ?_, ?_⟩
  · show Rep P maxOrders st.engine (s :: h.stranded)
    rw [hengine]
    exact (hrep.fill r q).toRep
  · show Balanced _ _ _ st.engine.mem (s :: h.stranded ++ held st.engine)
    rw [hengine, held_fill]
    exact htrade

/-- **A call that an exception leaves.** -/
theorem Disrupted.Sound.interrupt (hs : h.Sound P maxOrders) (ha : P.acquire h.engine.pool = some (s, p))
    (hint : Interrupted P (h.engine.accept p s o) s o.bookIndex (!o.isBuy) n done r rest st₀ st) :
    (h.interrupt P s o st).Sound P maxOrders := by
  obtain ⟨hs', hr'⟩ := struck_interrupt hs.rep ha hint
  have howner : (h.interrupt P s o st).owner = Function.update h.owner s h.orders.length := rfl
  refine ⟨hs.books_interrupt ha hint, fun t ht hnot => ?_, fun t ht => ?_⟩
  · obtain ⟨lost, hloop⟩ := hs.rep.start ha o
    have hstart : Stocked (fun t => ¬ (h.interrupt P s o st).Struck ((h.interrupt P s o st).owner t)) h.engine := by
      refine hs.stocked.mono fun t ht hS hk => hS ?_
      rw [howner, hs.owner_accept ha (List.mem_append_right _ ht)]
      exact hk.interrupt s o st
    have hpoint := run_matchTurn_stocked hloop (hstart.accept hs.rep ha o) done.length
    rw [hint.run] at hpoint
    obtain ⟨hrep, hstocked⟩ := hpoint
    -- the fill leaves alone what rests, but for the order in `r`
    have hengine : (h.interrupt P s o st).engine = st₀.engine.fill s r
        (min (st₀.engine.mem s).quantity (st₀.engine.mem r).quantity) := by
      show st.engine = _
      rw [hint.state]
      rfl
    rw [hengine, held_fill] at ht
    have htr : t ≠ r := by
      rintro rfl
      exact hnot hr'
    have hts : t ≠ s := by
      rintro rfl
      exact hnot hs'
    rw [hengine, Engine.fill_mem_of_ne hts htr]
    exact hstocked t ht hnot
  · rcases List.mem_cons.mp ht with rfl | ht
    · exact hs'
    · rw [howner, hs.owner_accept ha (List.mem_append_left _ ht)]
      exact (hs.stranded t ht).interrupt s o st

/-! ### Runs -/

theorem attempt_ok {e : Engine π} {throws : Option ℕ} {out : Engine π × List Event}
    (hok : attempt P e o throws = .ok out) : submitOrder P e o = out := by
  cases throws with
  | none => exact Except.ok.inj hok
  | some n => exact submitOrderThrowing_ok hok

theorem attempt_error {e : Engine π} {throws : Option ℕ} (herr : attempt P e o throws = .error st) :
    ∃ n, submitOrderThrowing P e o n = .error st := by
  cases throws with
  | none => cases herr
  | some n => exact ⟨n, herr⟩

/-- **What a call preserves**, whether an exception leaves it or not. -/
theorem Disrupted.Sound.submit (hs : h.Sound P maxOrders) (o : Order) (throws : Option ℕ) :
    (h.submit P o throws).Sound P maxOrders := by
  unfold Disrupted.submit
  cases ha : P.acquire h.engine.pool with
  | none => exact hs
  | some a =>
    obtain ⟨s, p⟩ := a
    cases hcall : attempt P h.engine o throws with
    | ok out =>
      obtain rfl := attempt_ok hcall
      exact hs.extend ha o
    | error st =>
      obtain ⟨n, herr⟩ := attempt_error hcall
      obtain ⟨done, r, rest, st₀, hint⟩ := exists_interrupted hs.rep ha herr
      exact hs.interrupt ha hint

theorem disrupted_run_sound (P : OrderPool π) (maxOrders : ℕ) (calls : List (Order × Option ℕ)) :
    (Disrupted.run P maxOrders calls).Sound P maxOrders := by
  induction calls using List.reverseRecOn with
  | nil =>
    refine ⟨⟨[], List.Perm.nil, sound_run P maxOrders []⟩, fun t ht => ?_, fun t ht => by cases ht⟩
    change t ∈ held (Engine.create P maxOrders) at ht
    rw [held_create] at ht
    cases ht
  | append_singleton calls call ih =>
    rw [Disrupted.run_snoc]
    exact ih.submit call.1 call.2

end Sound

/-! ### What an exception leaves behind -/

/-- **What an exception leaves behind**, thrown by the callback `c` of the fill of `q` between
the order `o` of the call, in slot `s`, and the order in slot `r`; `h` is the history before
the call, and `h'` the one it leaves. -/
structure LeftBehind (P : OrderPool π) (h h' : Disrupted π) (o : Order) (s r : Slot) (q : UInt64) (c : ℕ) : Prop where
  /-- The order of the call keeps its slot, and is in no book. -/
  hand : s ∈ P.acquired h'.engine.pool ∧ s ∉ held h'.engine
  /-- The other order of the fill rests, with what the fill leaves of it. -/
  rests : r ∈ h'.engine.oppositeOf o ∧ h'.engine.mem r = (h.engine.mem r).sub q
  /-- The callbacks of the fill from `c` on have not completed. -/
  missed : h'.missed = h.missed ++
    ((fillReports s r (h'.engine.mem s) (h'.engine.mem r) q).drop c).map (Report.map h'.owner)
  /-- All orders that rest have quantity, but for those of interrupted fills. -/
  positive : ∀ t ∈ held h'.engine, ¬ h'.Struck (h'.owner t) → 0 < (h'.engine.mem t).quantity
  /-- No slot is held twice, and all that are held are out. -/
  once : (held h'.engine).Nodup ∧ ∀ t ∈ held h'.engine, t ∈ P.acquired h'.engine.pool
  /-- A slot that is out, but for that of the call, is held, or was out and not held before. -/
  accounted : ∀ t ∈ P.acquired h'.engine.pool, t ≠ s → t ∉ held h'.engine →
    t ∈ P.acquired h.engine.pool ∧ t ∉ held h.engine
  /-- Of each order of no interrupted fill, the original quantity is what its fills and its rest
  come to. -/
  conserved : ∀ k (hk : k < h'.orders.length), ¬ h'.Struck k →
    h'.orders[k].quantity.toNat = sumFilled (executionsOf h'.log k) + h'.unfilled [] k
  /-- Of the others this lacks the fills whose execution report did not complete, and what is left
  in their slots. -/
  struck : ∀ k (hk : k < h'.orders.length), h'.orders[k].quantity.toNat =
    sumFilled (executionsOf h'.log k) + sumFilled (executionsOf h'.missed k) + h'.unfilled h'.stranded k

section Leaves

variable {P : OrderPool π} {maxOrders n lost : ℕ} {p₀ p : π} {h : Disrupted π} {o : Order} {s r : Slot}
  {b : Fin 1024} {opp : Bool} {hand done rest : List Slot} {st₀ st : MatchState π}

/-- **The slots of the books along the loop**: each is held, or has been released. -/
theorem run_matchTurn_kept (hloop : LoopRep P maxOrders p₀ lost s hand b opp st₀ st) (m : ℕ) :
    Loop.Sat (fun st' => LoopRep P maxOrders p₀ lost s hand b opp st₀ st' ∧
        ∀ t ∈ held st.engine, t ∈ held st'.engine ∨ t ∈ releases st'.events) (fun _ => True)
      (Loop.run (matchTurn P b opp s) m st) := by
  refine Loop.run_sat (fun st₁ hst₁ => ?_) m ⟨hloop, fun t ht => Or.inl ht⟩
  have hrep := matchTurn_rep hst₁.1
  have hcase := matchTurn_case P hst₁.1.front (hst₁.1.not_mem_side b opp)
  generalize matchTurn P b opp s st₁ = turn at hrep hcase
  cases hcase with
  | empty | miss | complete | reduce => trivial
  | consume hside =>
    refine ⟨hrep.1, fun t ht => ?_⟩
    rcases hst₁.2 t ht with hheld | hout
    · rcases List.mem_cons.mp ((held_pop hside).mem_iff.mp hheld) with rfl | hheld
      · exact Or.inr (by simp)
      · exact Or.inl hheld
    · exact Or.inr (by simp [hout])

/-- **An exception thrown in a fill** leaves what `LeftBehind` says. -/
theorem Interrupted.leftBehind (hs : h.Sound P maxOrders) (ha : P.acquire h.engine.pool = some (s, p))
    (hint : Interrupted P (h.engine.accept p s o) s o.bookIndex (!o.isBuy) n done r rest st₀ st) :
    ∃ q, LeftBehind P h (h.interrupt P s o st) o s r q (n % 3) := by
  have hafter := hs.interrupt ha hint
  have hmissed := hint.missed hs.rep ha
  obtain ⟨hrun, hsw, -, -, -, hst⟩ := hint
  obtain ⟨lost, hloop⟩ := hs.rep.start ha o
  have hpoint := run_matchTurn_kept hloop done.length
  rw [hrun, Loop.sat_again, held_accept] at hpoint
  obtain ⟨hrep, hkept⟩ := hpoint
  obtain ⟨hnd, hnot⟩ := hs.rep.start_side ha o
  have hne : s ≠ r := List.ne_of_not_mem_cons (hsw.side ▸ hsw.notMem hnot)
  have hr : st₀.engine.mem r = h.engine.mem r := by
    rw [hsw.mem_rest hnd hnot (List.mem_cons_self ..)]
    apply hs.rep.accept_mem ha
    rw [← Engine.accept_side, hsw.split]
    simp
  generalize min (st₀.engine.mem s).quantity (st₀.engine.mem r).quantity = q at hmissed hst
  have hengine : (h.interrupt P s o st).engine = st₀.engine.fill s r q := by
    show st.engine = _
    rw [hst]
    rfl
  refine ⟨q, ⟨hafter.rep.out s (by simp [Disrupted.interrupt]), ?_⟩, ⟨?_, ?_⟩, ?_, fun t ht hnot => ?_, hafter.once,
    fun t ht hts hnh => ?_, fun k hk hnot => hafter.conserved hk hnot, fun k hk => hafter.quantity hk⟩
  · have hlive : s ∉ held st₀.engine := by
      have := hrep.nodup
      simp only [List.cons_append, List.nodup_cons, List.mem_append, not_or] at this
      exact this.1.2
    rwa [hengine, held_fill]
  · rw [hengine]
    show r ∈ st₀.engine.side o.bookIndex (!o.isBuy)
    rw [hsw.side]
    exact List.mem_cons_self ..
  · rw [hengine, Engine.fill_mem_resting hne, hr]
  · rw [hengine, Engine.fill_mem_resting hne, Engine.fill_mem_incoming hne, ← hmissed]
    rfl
  · exact UInt64.lt_iff_toNat_lt.mpr (hafter.stocked t ht hnot)
  · have hout : t ∈ P.acquired st₀.engine.pool := by
      rw [hengine] at ht
      exact ht
    rw [hrep.acquired_eq, Finset.mem_sdiff, (P.acquire_eq_some ha).2.1, Finset.mem_insert, List.mem_toFinset] at hout
    rw [hengine, held_fill] at hnh
    refine ⟨hout.1.resolve_left hts, fun hbefore => ?_⟩
    rcases hkept t hbefore with hk | hk
    · exact hnh hk
    · exact hout.2 hk

end Leaves

/-- **What an exception leaves behind, over every run.** After any calls, the exceptions of
some of which were caught, for every order and every callback of its call: if that one
throws, the callbacks of the call before it have completed, and the engine is left as
`LeftBehind` says. -/
theorem exception_leaves (P : OrderPool π) (maxOrders : ℕ) (calls : List (Order × Option ℕ)) (o : Order) (n : ℕ)
    (st : MatchState π) :
    let h := Disrupted.run P maxOrders calls
    submitOrderThrowing P h.engine o n = .error st →
      reports st.events = (reports (submitOrder P h.engine o).2).take n ∧
      ∃ s p r q, P.acquire h.engine.pool = some (s, p) ∧ h.submit P o (some n) = h.interrupt P s o st ∧
        LeftBehind P h (h.interrupt P s o st) o s r q (n % 3) := by
  have hs := disrupted_run_sound P maxOrders calls
  generalize Disrupted.run P maxOrders calls = h at hs
  intro h herr
  cases ha : P.acquire h.engine.pool with
  | none => simp [submitOrderThrowing, ha] at herr
  | some a =>
    obtain ⟨s, p⟩ := a
    obtain ⟨done, r, rest, st₀, hint⟩ := exists_interrupted hs.rep ha herr
    obtain ⟨q, hleft⟩ := hint.leftBehind hs ha
    exact ⟨hint.completed hs.rep ha, s, p, r, q, rfl, by simp [Disrupted.submit, ha, attempt, herr], hleft⟩

/-- An order to sell is left without quantity by the first callback of its fill; then the second
one throws of the fill of an order to buy against another. -/
theorem exception_leaves_one :
    let calls := [(oneLot false 100, none), (oneLot true 100, some 0), (oneLot false 100, none)]
    let h := Disrupted.run firstFree 4 calls
    let o := oneLot true 100
    ∃ st, submitOrderThrowing firstFree h.engine o 4 = .error st ∧
      reports st.events = (reports (submitOrder firstFree h.engine o).2).take 4 ∧
      ∃ s p r q, firstFree.acquire h.engine.pool = some (s, p) ∧
        h.submit firstFree o (some 4) = h.interrupt firstFree s o st ∧
        LeftBehind firstFree h (h.interrupt firstFree s o st) o s r q (4 % 3) := by
  intro calls h o
  obtain ⟨st, herr⟩ := (throws_iff (disrupted_run_sound firstFree 4 calls).rep o 4).mpr (by decide +kernel)
  exact ⟨st, herr, exception_leaves firstFree 4 calls o 4 st herr⟩

/-- **A consistent engine**, by the books of `h`: every order that rests has quantity, every
slot that is out is held by one book, and of each order the quantity that rests and its
fills are its original quantity, or no book holds it. -/
structure Consistent (P : OrderPool π) (h : History π) : Prop where
  positive : ∀ t ∈ held h.engine, 0 < (h.engine.mem t).quantity
  once : (held h.engine).Nodup ∧ ∀ t ∈ P.acquired h.engine.pool, t ∈ held h.engine
  conserved : ∀ k (hk : k < h.orders.length),
    h.orders[k].quantity.toNat = sumFilled (executionsOf h.log k) + h.unfilled [] k ∨
      ∀ t ∈ held h.engine, h.owner t ≠ k

/-- **The first callback throws**, of a call that would fill an order to buy against one to
sell: the order to sell is left in its book without quantity. -/
theorem exception_breaks :
    let h := History.run firstFree 2 [oneLot false 100]
    let o := oneLot true 100
    ∃ st, submitOrderThrowing firstFree h.engine o 0 = .error st ∧
      ¬ Consistent firstFree (h.extend 1 o st.engine st.events) := by
  intro h o
  have hrun : (match submitOrderThrowing firstFree h.engine o 0 with
    | .error st => decide (st.engine.oppositeOf o = [0] ∧ (st.engine.mem 0).quantity = 0)
    | .ok _ => false) = true := by decide +kernel
  cases herr : submitOrderThrowing firstFree h.engine o 0 with
  | ok out => simp [herr] at hrun
  | error st =>
    obtain ⟨hside, hzero⟩ : st.engine.oppositeOf o = [0] ∧ (st.engine.mem 0).quantity = 0 := by
      simpa [herr] using hrun
    refine ⟨st, rfl, fun hcons => ?_⟩
    have hheld : 0 ∈ held st.engine :=
      mem_held.mpr ⟨o.bookIndex, !o.isBuy, by rw [← Engine.oppositeOf, hside]; exact List.mem_singleton_self 0⟩
    have hpos := hcons.positive 0 hheld
    rw [History.extend, hzero] at hpos
    exact absurd hpos (by decide)

end Scrimmage.Market
