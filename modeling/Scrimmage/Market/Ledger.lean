import Scrimmage.Market.Sweep
import Mathlib.Data.List.GetD

/-!
# The quantity of every order

What becomes of the quantity of each order, over every run of `submitOrder`. An order may
be filled in its own call, rest, and be filled again in later calls, through a slot that
is released and holds another order afterwards; so orders are identified by their
submission, and `History` keeps the books: which submission each slot belongs to, and
every report made, with submissions for slots.

## What is proved

* `Balanced`: the invariant that ties slots, submissions and reports together. It knows
  nothing of books: it is kept by an execution report (`Balanced.execute`), by a slot that
  is filled and goes (`Balanced.drop`), and by a new order (`Balanced.accept`).
* `matchTurn_balanced`, `sound_run`: a turn of the loop, and a run, keep it.
* `quantity_conserved`: at every point of a run, between calls and within, the original
  quantity of each order is what its execution reports fill and what is left of it.
-/

namespace Scrimmage.Market

open Theory

variable {π : Type}

/-! ### Histories -/

/-- A report with its orders referred to in another way. -/
def Report.map {ι κ : Type} (f : ι → κ) : Report ι → Report κ
  | .execution r o q => .execution (f r) o q
  | .matched r r' o o' q => .matched (f r) (f r') o o' q

/-- An engine and what has happened to it: the orders it did not drop, in the order of
submission; the submission a slot belongs to; and all reports made. -/
structure History (π : Type) where
  /-- The engine. -/
  engine : Engine π
  /-- The orders submitted and not dropped. -/
  orders : List Order
  /-- The submission whose order a slot holds, or held last. -/
  owner : Slot → ℕ
  /-- The reports, by submission. -/
  log : List (Report ℕ)

/-- The history when the next order has got the slot `s`, and the engine has come to
`engine` by the calls `events`. -/
def History.extend (h : History π) (s : Slot) (o : Order) (engine : Engine π) (events : List Event) :
    History π :=
  let owner := Function.update h.owner s h.orders.length
  { engine := engine
    orders := h.orders ++ [o]
    owner := owner
    log := h.log ++ (reports events).map (Report.map owner) }

/-- A call of `submitOrder`. -/
def History.submit (P : OrderPool π) (h : History π) (o : Order) : History π :=
  match P.acquire h.engine.pool with
  | none => h
  | some (s, _) => h.extend s o (submitOrder P h.engine o).1 (submitOrder P h.engine o).2

/-- The history of a sequence of calls. -/
def History.run (P : OrderPool π) (maxOrders : ℕ) (orders : List Order) : History π :=
  orders.foldl (History.submit P) ⟨Engine.create P maxOrders, [], fun _ => 0, []⟩

/-- The execution reports for a submission: the order as reported, and the fill. -/
def executionsOf (log : List (Report ℕ)) (k : ℕ) : List (Order × UInt64) :=
  log.filterMap fun
    | .execution k' o q => if k' = k then some (o, q) else none
    | .matched .. => none

/-- The sum of some fills. -/
def sumFilled (l : List (Order × UInt64)) : ℕ := (l.map fun x => x.2.toNat).sum

/-- The quantity of a submission's order that is not filled: in the slots that belong to
it, of those in the books and in hand. None if there is no such slot. -/
def History.unfilled (h : History π) (hand : List Slot) (k : ℕ) : ℕ :=
  (((hand ++ held h.engine).filter fun s => h.owner s = k).map fun s => (h.engine.mem s).quantity.toNat).sum

/-- **Quantity is conserved**: the original quantity of each order is the sum of its fills
and what is not filled; and each of its execution reports carries the order with what its
fills up to that one have left. -/
def History.Conserved (h : History π) (hand : List Slot) : Prop :=
  ∀ k (hk : k < h.orders.length),
    h.orders[k].quantity.toNat = sumFilled (executionsOf h.log k) + h.unfilled hand k ∧
    ∀ n (hn : n < (executionsOf h.log k).length),
      ∃ q, (executionsOf h.log k)[n].1 = { h.orders[k] with quantity := q } ∧
        q.toNat + sumFilled ((executionsOf h.log k).take (n + 1)) = h.orders[k].quantity.toNat

/-! ### Reports and fills -/

@[simp] theorem executionsOf_append (l l' : List (Report ℕ)) (k : ℕ) :
    executionsOf (l ++ l') k = executionsOf l k ++ executionsOf l' k :=
  List.filterMap_append

@[simp] theorem executionsOf_nil (k : ℕ) : executionsOf [] k = [] := rfl

@[simp] theorem executionsOf_matched (k r r' : ℕ) (o o' : Order) (q : UInt64) (l : List (Report ℕ)) :
    executionsOf (.matched r r' o o' q :: l) k = executionsOf l k := rfl

theorem executionsOf_self (k : ℕ) (o : Order) (q : UInt64) :
    executionsOf [.execution k o q] k = [(o, q)] := by
  simp [executionsOf]

theorem executionsOf_of_ne {k k' : ℕ} (h : k' ≠ k) (o : Order) (q : UInt64) :
    executionsOf [.execution k' o q] k = [] := by
  simp [executionsOf, h]

@[simp] theorem sumFilled_append (l l' : List (Order × UInt64)) :
    sumFilled (l ++ l') = sumFilled l + sumFilled l' := by
  simp [sumFilled]

@[simp] theorem sumFilled_singleton (o : Order) (q : UInt64) : sumFilled [(o, q)] = q.toNat := by
  simp [sumFilled]

@[simp] theorem sumFilled_nil : sumFilled [] = 0 := rfl

/-- Each execution report of the order `o` carries it with what is left. -/
def Carried (o : Order) (l : List (Order × UInt64)) : Prop :=
  ∀ n (hn : n < l.length), ∃ q, l[n].1 = { o with quantity := q } ∧
    q.toNat + sumFilled (l.take (n + 1)) = o.quantity.toNat

theorem Carried.snoc {o : Order} {l : List (Order × UInt64)} (h : Carried o l) {q f : UInt64}
    (hq : q.toNat + (sumFilled l + f.toNat) = o.quantity.toNat) :
    Carried o (l ++ [({ o with quantity := q }, f)]) := by
  intro n hn
  rw [List.length_append, List.length_singleton] at hn
  rcases Nat.lt_succ_iff_lt_or_eq.mp hn with hn | rfl
  · obtain ⟨q', hq', hsum⟩ := h n hn
    refine ⟨q', by rw [List.getElem_append_left hn, hq'], ?_⟩
    rwa [List.take_append_of_le_length hn]
  · refine ⟨q, by simp, ?_⟩
    rw [List.take_of_length_le (by simp), sumFilled_append, sumFilled_singleton]
    exact hq

/-! ### The invariant -/

/-- **The books are balanced**, of the slots `live` that hold orders not yet filled: each
belongs to a submission of its own and holds that order, with what its fills have left;
the orders that no live slot belongs to are filled. -/
structure Balanced (orders : List Order) (owner : Slot → ℕ) (log : List (Report ℕ))
    (mem : Slot → Order) (live : List Slot) : Prop where
  nodup : live.Nodup
  /-- No two live slots belong to one submission. -/
  owner_inj : ∀ s ∈ live, ∀ t ∈ live, owner s = owner t → s = t
  /-- A live slot holds the order it belongs to, with what is not filled. -/
  holds : ∀ s ∈ live, ∃ o, orders[owner s]? = some o ∧ mem s = { o with quantity := (mem s).quantity } ∧
    sumFilled (executionsOf log (owner s)) + (mem s).quantity.toNat = o.quantity.toNat
  /-- An order of no live slot is filled. -/
  filled : ∀ k o, orders[k]? = some o → (∀ s ∈ live, owner s ≠ k) →
    sumFilled (executionsOf log k) = o.quantity.toNat
  /-- No order is reported before its submission. -/
  fresh : ∀ k, orders.length ≤ k → executionsOf log k = []
  carried : ∀ k o, orders[k]? = some o → Carried o (executionsOf log k)

namespace Balanced

variable {orders : List Order} {owner : Slot → ℕ} {log : List (Report ℕ)} {mem : Slot → Order}
  {live live' : List Slot} {s r : Slot} {q : UInt64}

theorem nil (owner : Slot → ℕ) (mem : Slot → Order) : Balanced [] owner [] mem [] where
  nodup := List.nodup_nil
  owner_inj s hs := by cases hs
  holds s hs := by cases hs
  filled k o ho := by cases ho
  fresh k _ := rfl
  carried k o ho := by cases ho

/-- The order of the slots is of no matter. -/
theorem perm (h : Balanced orders owner log mem live) (hp : live.Perm live') :
    Balanced orders owner log mem live' where
  nodup := hp.nodup_iff.mp h.nodup
  owner_inj s hs t ht := h.owner_inj s (hp.mem_iff.mpr hs) t (hp.mem_iff.mpr ht)
  holds s hs := h.holds s (hp.mem_iff.mpr hs)
  filled k o ho hk := h.filled k o ho fun s hs => hk s (hp.mem_iff.mp hs)
  fresh := h.fresh
  carried := h.carried

/-- **A new order** gets a slot that was not live. -/
theorem accept (h : Balanced orders owner log mem live) (hs : s ∉ live) (o : Order) :
    Balanced (orders ++ [o]) (Function.update owner s orders.length) log (Function.update mem s o)
      (s :: live) := by
  have hne {t : Slot} (ht : t ∈ live) : t ≠ s := fun hts => hs (hts ▸ ht)
  have hlt {t : Slot} (ht : t ∈ live) : owner t < orders.length := by
    obtain ⟨o', ho', -⟩ := h.holds t ht
    exact (List.getElem?_eq_some_iff.mp ho').1
  refine ⟨List.nodup_cons.mpr ⟨hs, h.nodup⟩, ?_, ?_, ?_, ?_, ?_⟩
  · intro t ht u hu heq
    rcases List.mem_cons.mp ht with hts | htl <;> rcases List.mem_cons.mp hu with hus | hul
    · rw [hts, hus]
    · rw [hts, Function.update_self, Function.update_of_ne (hne hul)] at heq
      have := hlt hul
      omega
    · rw [hus, Function.update_self, Function.update_of_ne (hne htl)] at heq
      have := hlt htl
      omega
    · rw [Function.update_of_ne (hne htl), Function.update_of_ne (hne hul)] at heq
      exact h.owner_inj t htl u hul heq
  · intro t ht
    rcases List.mem_cons.mp ht with rfl | ht
    · refine ⟨o, by simp, by simp, ?_⟩
      rw [Function.update_self, Function.update_self, h.fresh _ le_rfl, sumFilled_nil, Nat.zero_add]
    · rw [Function.update_of_ne (hne ht), Function.update_of_ne (hne ht)]
      obtain ⟨o', ho', hmem⟩ := h.holds t ht
      exact ⟨o', by rw [List.getElem?_append_left (hlt ht), ho'], hmem⟩
  · intro k o' ho' hk
    have hkne : k ≠ orders.length := by
      rintro rfl
      exact hk s (List.mem_cons_self ..) (Function.update_self ..)
    have hold : orders[k]? = some o' := by
      have hlen := (List.getElem?_eq_some_iff.mp ho').1
      rw [List.length_append, List.length_singleton] at hlen
      rwa [List.getElem?_append_left (by omega)] at ho'
    refine h.filled k o' hold fun t ht => ?_
    have := hk t (List.mem_cons_of_mem s ht)
    rwa [Function.update_of_ne (hne ht)] at this
  · intro k hk
    rw [List.length_append, List.length_singleton] at hk
    exact h.fresh k (by omega)
  · intro k o' ho'
    by_cases hk : k < orders.length
    · rw [List.getElem?_append_left hk] at ho'
      exact h.carried k o' ho'
    · rw [h.fresh k (by omega)]
      intro n hn
      cases hn

/-- **An execution report** of `q` for the order of a live slot. -/
theorem execute (h : Balanced orders owner log mem live) (hs : s ∈ live)
    (hq : q.toNat ≤ (mem s).quantity.toNat) :
    Balanced orders owner (log ++ [.execution (owner s) ((mem s).sub q) q])
      (Function.update mem s ((mem s).sub q)) live := by
  obtain ⟨o, ho, hmem, hsum⟩ := h.holds s hs
  have hsub : ((mem s).quantity - q).toNat = (mem s).quantity.toNat - q.toNat := toNat_sub_of_toNat_le hq
  have hself : executionsOf (log ++ [.execution (owner s) ((mem s).sub q) q]) (owner s) =
      executionsOf log (owner s) ++ [((mem s).sub q, q)] := by
    rw [executionsOf_append, executionsOf_self]
  have hother {k : ℕ} (hk : owner s ≠ k) :
      executionsOf (log ++ [.execution (owner s) ((mem s).sub q) q]) k = executionsOf log k := by
    rw [executionsOf_append, executionsOf_of_ne hk, List.append_nil]
  refine ⟨h.nodup, h.owner_inj, ?_, ?_, ?_, ?_⟩
  · intro t ht
    by_cases hts : t = s
    · subst hts
      refine ⟨o, ho, ?_, ?_⟩
      · rw [Function.update_self, Order.sub]
        rw [hmem]
      · rw [Function.update_self, hself, sumFilled_append, sumFilled_singleton, Order.sub_quantity, hsub]
        omega
    · rw [Function.update_of_ne hts, hother fun heq => hts (h.owner_inj t ht s hs heq.symm)]
      exact h.holds t ht
  · intro k o' ho' hk
    rw [hother (hk s hs)]
    exact h.filled k o' ho' hk
  · intro k hk
    have hlt := (List.getElem?_eq_some_iff.mp ho).1
    rw [hother (by omega)]
    exact h.fresh k hk
  · intro k o' ho'
    by_cases hk : owner s = k
    · subst hk
      obtain rfl : o = o' := Option.some.inj (ho.symm.trans ho')
      have hcarry : (mem s).sub q = { o with quantity := (mem s).quantity - q } := by
        rw [Order.sub]
        rw [hmem]
      rw [hself, hcarry]
      apply (h.carried (owner s) o ho).snoc
      omega
    · rw [hother hk]
      exact h.carried k o' ho'

/-- A match report fills nothing of its own. -/
theorem matched (h : Balanced orders owner log mem live) (k k' : ℕ) (o o' : Order) :
    Balanced orders owner (log ++ [.matched k k' o o' q]) mem live := by
  have heq (i : ℕ) : executionsOf (log ++ [.matched k k' o o' q]) i = executionsOf log i := by simp
  refine ⟨h.nodup, h.owner_inj, ?_, ?_, ?_, ?_⟩
  · simpa only [heq] using h.holds
  · simpa only [heq] using h.filled
  · simpa only [heq] using h.fresh
  · simpa only [heq] using h.carried

/-- **A slot whose order is filled** is live no more. -/
theorem drop (h : Balanced orders owner log mem (s :: live)) (hq : (mem s).quantity.toNat = 0) :
    Balanced orders owner log mem live where
  nodup := (List.nodup_cons.mp h.nodup).2
  owner_inj t ht u hu := h.owner_inj t (List.mem_cons_of_mem s ht) u (List.mem_cons_of_mem s hu)
  holds t ht := h.holds t (List.mem_cons_of_mem s ht)
  filled k o ho hk := by
    by_cases hks : owner s = k
    · obtain ⟨o', ho', -, hsum⟩ := h.holds s (List.mem_cons_self ..)
      rw [hks] at ho' hsum
      obtain rfl : o = o' := Option.some.inj (ho.symm.trans ho')
      omega
    · refine h.filled k o ho fun t ht => ?_
      rcases List.mem_cons.mp ht with rfl | ht
      · exact hks
      · exact hk t ht
  fresh := h.fresh
  carried := h.carried

/-- **A fill** between two live slots, with its three reports. -/
theorem fill {e : Engine π} (h : Balanced orders owner log e.mem live) (hs : s ∈ live) (hr : r ∈ live)
    (hne : s ≠ r) (hqs : q.toNat ≤ (e.mem s).quantity.toNat) (hqr : q.toNat ≤ (e.mem r).quantity.toNat) :
    Balanced orders owner
      (log ++ (fillReports s r ((e.mem s).sub q) ((e.mem r).sub q) q).map (Report.map owner))
      (e.fill s r q).mem live := by
  have h₁ := h.execute hs hqs
  have hmem : (e.subQuantity s q).mem r = e.mem r := Engine.subQuantity_mem_of_ne _ _ _ hne.symm
  have h₂ := h₁.execute (q := q) hr (by rwa [Function.update_of_ne hne.symm])
  rw [Function.update_of_ne hne.symm] at h₂
  have h₃ := h₂.matched (q := q) (owner s) (owner r) ((e.mem s).sub q) ((e.mem r).sub q)
  have hfill : (e.fill s r q).mem =
      Function.update (Function.update e.mem s ((e.mem s).sub q)) r ((e.mem r).sub q) := by
    rw [← hmem]
    rfl
  rw [hfill]
  simpa [fillReports, Report.map] using h₃

/-- What is not filled of an order is in the one live slot that belongs to it, if any. -/
theorem unfilled (h : Balanced orders owner log mem live) {k : ℕ} {o : Order} (ho : orders[k]? = some o) :
    o.quantity.toNat = sumFilled (executionsOf log k) +
      ((live.filter fun s => owner s = k).map fun s => (mem s).quantity.toNat).sum := by
  by_cases hk : ∃ s ∈ live, owner s = k
  · obtain ⟨s, hs, rfl⟩ := hk
    obtain ⟨l₁, l₂, rfl⟩ := List.append_of_mem hs
    have hnot {t : Slot} (ht : t ∈ l₁ ++ l₂) : ¬ owner t = owner s := by
      intro heq
      have hmem : t ∈ l₁ ++ s :: l₂ := by
        rcases List.mem_append.mp ht with ht | ht <;> simp [ht]
      obtain rfl := h.owner_inj t hmem s hs heq
      exact (List.nodup_middle.mp h.nodup |> List.nodup_cons.mp).1 ht
    have hl₁ : l₁.filter (fun t => decide (owner t = owner s)) = [] := by
      apply List.filter_eq_nil_iff.mpr
      exact fun t ht => by simpa using hnot (List.mem_append_left _ ht)
    have hl₂ : l₂.filter (fun t => decide (owner t = owner s)) = [] := by
      apply List.filter_eq_nil_iff.mpr
      exact fun t ht => by simpa using hnot (List.mem_append_right _ ht)
    obtain ⟨o', ho', -, hsum⟩ := h.holds s hs
    obtain rfl : o = o' := Option.some.inj (ho.symm.trans ho')
    simp [hl₁, hl₂, hsum]
  · have hnot (s : Slot) (hs : s ∈ live) : owner s ≠ k := fun heq => hk ⟨s, hs, heq⟩
    have hnil : live.filter (fun t => decide (owner t = k)) = [] := by
      apply List.filter_eq_nil_iff.mpr
      exact fun t ht => by simpa using hnot t ht
    rw [hnil, h.filled k o ho hnot]
    rfl

end Balanced

/-! ### The loop and the call -/

/-- The books are balanced at a point of a call, the reports before it being `log`. -/
def BalancedAt (orders : List Order) (owner : Slot → ℕ) (log : List (Report ℕ)) (hand : List Slot)
    (st : MatchState π) : Prop :=
  Balanced orders owner (log ++ (reports st.events).map (Report.map owner)) st.engine.mem
    (hand ++ held st.engine)

section Call

variable {P : OrderPool π} {maxOrders : ℕ} {p₀ : π} {lost : ℕ} {s : Slot} {hand : List Slot} {b : Fin 1024}
  {opp : Bool} {st₀ st : MatchState π} {orders : List Order} {owner : Slot → ℕ} {log : List (Report ℕ)}

/-- The front order trades `q` with the order in hand, and goes if it is filled. -/
theorem BalancedAt.trade (hbal : BalancedAt orders owner log (s :: hand) st) {r : Slot} {rest : List Slot}
    (hside : st.engine.side b opp = r :: rest) (hne : s ≠ r) {q : UInt64}
    (hqs : q.toNat ≤ (st.engine.mem s).quantity.toNat) (hqr : q.toNat ≤ (st.engine.mem r).quantity.toNat) :
    Balanced orders owner
      (log ++ (reports st.events ++ fillReports s r ((st.engine.mem s).sub q) ((st.engine.mem r).sub q) q).map
        (Report.map owner))
      (st.engine.fill s r q).mem (s :: hand ++ held st.engine) := by
  have hr : r ∈ s :: hand ++ held st.engine :=
    List.mem_append_right _ (mem_held.mpr ⟨b, opp, by rw [hside]; exact List.mem_cons_self ..⟩)
  have hs : s ∈ s :: hand ++ held st.engine := List.mem_append_left _ (List.mem_cons_self ..)
  have := hbal.fill hs hr hne hqs hqr
  rwa [List.append_assoc, ← List.map_append] at this

/-- A front order that is filled goes. -/
theorem Balanced.pop {e : Engine π} {mem : Slot → Order} (h : Balanced orders owner log mem (s :: hand ++ held e))
    {r : Slot} {rest : List Slot} (hside : e.side b opp = r :: rest) (hq : (mem r).quantity.toNat = 0) :
    Balanced orders owner log mem (s :: hand ++ held (e.setSide b opp rest)) := by
  have hperm : (s :: hand ++ held e).Perm (r :: (s :: hand ++ held (e.setSide b opp rest))) :=
    ((held_pop hside).append_left (s :: hand)).trans List.perm_middle
  exact (h.perm hperm).drop hq

/-- **What one turn does to the books**: they stay balanced, with the order in hand until
the loop returns. -/
theorem matchTurn_balanced (h : LoopRep P maxOrders p₀ lost s hand b opp st₀ st)
    (hbal : BalancedAt orders owner log (s :: hand) st) :
    Loop.Sat (BalancedAt orders owner log (s :: hand))
      (fun r => BalancedAt orders owner log (if r.2 then hand else s :: hand) r.1) (matchTurn P b opp s st) := by
  have hnot := h.not_mem_side b opp
  have hcase := matchTurn_case P h.front hnot
  generalize matchTurn P b opp s st = t at hcase
  cases hcase with
  | empty hside => exact hbal
  | miss hside hc => exact hbal
  | @consume r rest hside hc hlt =>
    have hne : s ≠ r := List.ne_of_not_mem_cons (hside ▸ hnot)
    have hfill := (hbal.trade hside hne hlt.le le_rfl).pop hside (by simp [Engine.fill_mem_resting hne])
    simpa [BalancedAt] using hfill
  | @complete r rest hside hc heq =>
    have hne : s ≠ r := List.ne_of_not_mem_cons (hside ▸ hnot)
    have hfill := (hbal.trade hside hne (by rw [heq]) le_rfl).pop hside (by simp [Engine.fill_mem_resting hne])
    have hdone := hfill.drop (by simp [Engine.fill_mem_incoming hne, heq])
    simpa [BalancedAt] using hdone
  | @reduce r rest hside hc hlt =>
    have hne : s ≠ r := List.ne_of_not_mem_cons (hside ▸ hnot)
    have hfill := hbal.trade hside hne le_rfl hlt.le
    have hdone := hfill.drop (by simp [Engine.fill_mem_incoming hne])
    simpa [BalancedAt] using hdone

/-- Every number of turns keeps the representation and the books. -/
theorem run_matchTurn_balanced (h : LoopRep P maxOrders p₀ lost s hand b opp st₀ st)
    (hbal : BalancedAt orders owner log (s :: hand) st) (n : ℕ) :
    Loop.Sat (fun st' => LoopRep P maxOrders p₀ lost s hand b opp st₀ st' ∧ BalancedAt orders owner log (s :: hand) st')
      (fun r => BalancedAt orders owner log (if r.2 then hand else s :: hand) r.1)
      (Loop.run (matchTurn P b opp s) n st) := by
  refine Loop.run_sat (fun st' hst' => ?_) n ⟨h, hbal⟩
  have hturn := (matchTurn_rep hst'.1).and (matchTurn_balanced hst'.1 hst'.2)
  exact hturn.mono (fun _ hs => ⟨hs.1.1, hs.2⟩) fun _ hr => hr.2

/-- What follows the loop: the order in hand comes to rest, or nothing is left of it. -/
theorem finishMatch_balanced {r : MatchState π × Bool}
    (hbal : BalancedAt orders owner log (if r.2 then hand else s :: hand) r.1) :
    Balanced orders owner (log ++ (reports (finishMatch b s r).2).map (Report.map owner))
      (finishMatch b s r).1.mem (hand ++ held (finishMatch b s r).1) := by
  obtain ⟨st, returned⟩ := r
  unfold BalancedAt at hbal
  cases returned with
  | true => simpa [finishMatch] using hbal
  | false =>
    simp only [Bool.false_eq_true, if_false] at hbal
    by_cases hq : (st.engine.mem s).quantity > 0
    · have hpush := held_push st.engine b (st.engine.mem s).isBuy s
      have hrest := hbal.perm ((hpush.append_left hand).trans List.perm_middle).symm
      simpa [finishMatch, hq] using hrest
    · have hzero : (st.engine.mem s).quantity.toNat = 0 := by
        simpa [UInt64.lt_iff_toNat_lt] using hq
      have hdone := Balanced.drop hbal hzero
      simpa [finishMatch, hq] using hdone

end Call

/-! ### Runs -/

section Runs

variable {P : OrderPool π} {maxOrders : ℕ} {h : History π} {hand : List Slot} {o : Order} {s : Slot} {p : π}

theorem History.submit_of_none (ha : P.acquire h.engine.pool = none) (o : Order) : h.submit P o = h := by
  simp [History.submit, ha]

theorem History.submit_of_some (ha : P.acquire h.engine.pool = some (s, p)) (o : Order) :
    h.submit P o = h.extend s o (submitOrder P h.engine o).1 (submitOrder P h.engine o).2 := by
  simp [History.submit, ha]

theorem History.run_snoc (P : OrderPool π) (maxOrders : ℕ) (orders : List Order) (o : Order) :
    History.run P maxOrders (orders ++ [o]) = (History.run P maxOrders orders).submit P o := by
  simp [History.run]

/-- A history whose engine is well represented and whose books are balanced, with the slots
`hand` in hand. -/
structure History.Sound (P : OrderPool π) (maxOrders : ℕ) (h : History π) (hand : List Slot) : Prop where
  rep : Rep P maxOrders h.engine hand
  balanced : Balanced h.orders h.owner h.log h.engine.mem (hand ++ held h.engine)

/-- The books at the start of the loop of the next call, with its order in hand. -/
theorem History.Sound.start (hs : h.Sound P maxOrders hand) (ha : P.acquire h.engine.pool = some (s, p)) (o : Order) :
    ∃ lost, LoopRep P maxOrders p lost s hand o.bookIndex (!o.isBuy) ⟨h.engine.accept p s o, 0, []⟩
        ⟨h.engine.accept p s o, 0, []⟩ ∧
      BalancedAt (h.orders ++ [o]) (Function.update h.owner s h.orders.length) h.log (s :: hand)
        ⟨h.engine.accept p s o, 0, []⟩ := by
  obtain ⟨lost, hloop⟩ := hs.rep.start ha o
  refine ⟨lost, hloop, ?_⟩
  have hnew := hs.balanced.accept (hs.rep.acquired_not_mem_held ha) o
  have hmem : (h.engine.accept p s o).mem = Function.update h.engine.mem s o := rfl
  simpa [BalancedAt, hmem] using hnew

/-- The books at every point of the loop of the next call. -/
theorem History.Sound.loop (hs : h.Sound P maxOrders hand) (ha : P.acquire h.engine.pool = some (s, p)) (o : Order)
    (n : ℕ) :
    Loop.Sat (fun st => s ∉ st.engine.side o.bookIndex (!o.isBuy) ∧
        BalancedAt (h.orders ++ [o]) (Function.update h.owner s h.orders.length) h.log (s :: hand) st)
      (fun r => BalancedAt (h.orders ++ [o]) (Function.update h.owner s h.orders.length) h.log
        (if r.2 then hand else s :: hand) r.1)
      (Loop.run (matchTurn P o.bookIndex (!o.isBuy) s) n ⟨h.engine.accept p s o, 0, []⟩) := by
  obtain ⟨lost, hloop, hacc⟩ := hs.start ha o
  apply (run_matchTurn_balanced hloop hacc n).mono
  · exact fun st hst => ⟨hst.1.not_mem_side _ _, hst.2⟩
  · exact fun r hr => hr

/-- **What a call does to the books.** -/
theorem History.Sound.extend (hs : h.Sound P maxOrders hand) (ha : P.acquire h.engine.pool = some (s, p)) (o : Order) :
    (h.extend s o (submitOrder P h.engine o).1 (submitOrder P h.engine o).2).Sound P maxOrders hand := by
  refine ⟨hs.rep.submit o, ?_⟩
  obtain ⟨r, hexit, hfin⟩ := submitOrder_exit (o := o) hs.rep ha
  have hleft := hs.loop ha o ((h.engine.side o.bookIndex (!o.isBuy)).length + 1)
  rw [hexit] at hleft
  rw [hfin]
  exact finishMatch_balanced hleft

theorem History.Sound.submit (hs : h.Sound P maxOrders hand) (o : Order) : (h.submit P o).Sound P maxOrders hand := by
  cases ha : P.acquire h.engine.pool with
  | none =>
    rw [History.submit_of_none ha]
    exact hs
  | some a =>
    rw [History.submit_of_some ha]
    exact hs.extend ha o

theorem sound_run (P : OrderPool π) (maxOrders : ℕ) (orders : List Order) :
    (History.run P maxOrders orders).Sound P maxOrders [] := by
  induction orders using List.reverseRecOn with
  | nil =>
    refine ⟨Rep.create P maxOrders, ?_⟩
    show Balanced [] _ [] _ ([] ++ held (Engine.create P maxOrders))
    rw [List.nil_append, held_create]
    exact Balanced.nil _ _
  | append_singleton orders o ih =>
    rw [History.run_snoc]
    exact ih.submit o

/-- The history's engine is the engine of the run. -/
theorem History.run_engine (P : OrderPool π) (maxOrders : ℕ) (orders : List Order) :
    (History.run P maxOrders orders).engine = runOrders P maxOrders orders := by
  induction orders using List.reverseRecOn with
  | nil => rfl
  | append_singleton orders o ih =>
    rw [History.run_snoc, runOrders_snoc, ← ih]
    cases ha : P.acquire (History.run P maxOrders orders).engine.pool with
    | none => rw [submitOrder_of_none ha, History.submit_of_none ha]
    | some a => rw [History.submit_of_some ha, History.extend]

/-- Balanced books conserve quantity. -/
theorem Balanced.conserved
    (hbal : Balanced h.orders h.owner h.log h.engine.mem (hand ++ held h.engine)) : h.Conserved hand := by
  intro k hk
  have ho : h.orders[k]? = some h.orders[k] := List.getElem?_eq_getElem hk
  exact ⟨hbal.unfilled ho, hbal.carried k _ ho⟩

/-- **Quantity is conserved over every run.** Between calls, and at every point of the next
call's loop with its order in hand, each order's original quantity is the sum of its
fills and what is left of it, and each of its execution reports carries what its fills
up to that one have left. Neither subtraction of the next fill underflows. -/
theorem quantity_conserved (P : OrderPool π) (maxOrders : ℕ) (orders : List Order) :
    let h := History.run P maxOrders orders
    h.Conserved [] ∧
      ∀ o s p n st, P.acquire h.engine.pool = some (s, p) →
        matchLoop P (h.engine.accept p s o) o.bookIndex s n = .again st →
          (h.extend s o st.engine st.events).Conserved [s] ∧
          ∀ r ∈ (st.engine.side o.bookIndex (!o.isBuy))[st.i]?,
            let fillQty := min (st.engine.mem s).quantity (st.engine.mem r).quantity
            fillQty ≤ (st.engine.mem s).quantity ∧
              fillQty ≤ ((st.engine.subQuantity s fillQty).mem r).quantity := by
  have hs := sound_run P maxOrders orders
  generalize History.run P maxOrders orders = h at hs
  refine ⟨Balanced.conserved hs.balanced, fun o s p n st ha hrun => ?_⟩
  rw [matchLoop, Engine.accept_mem_self] at hrun
  have hloop := hs.loop ha o n
  rw [hrun] at hloop
  obtain ⟨hnot, hbal⟩ := hloop
  refine ⟨Balanced.conserved hbal, fun r hr => ?_⟩
  have hne : r ≠ s := by
    rintro rfl
    exact hnot (List.mem_of_getElem? hr)
  intro fillQty
  rw [Engine.subQuantity_mem_of_ne _ _ _ hne]
  exact min_le_both _ _

end Runs

end Scrimmage.Market
