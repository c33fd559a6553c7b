import Scrimmage.Market.Ledger
import Scrimmage.Market.Priority
import Scrimmage.Theory.Transition

/-!
# Time priority

Orders come to rest at the end of their side, and the matching loop only ever fills the
order at the front, which stays at the front until it is filled. So each side is in the
order of submission (`Arrived`), and the order that is filled is the one on its side that
was submitted first, whatever the prices.

## What is proved

* `Arrived.submit`: a call keeps every side in the order of submission.
* `Balanced.filled_of_front`: when an order is at the front of its side, those of the side
  that were submitted before it are filled.
* `time_priority`: over every run, of two orders that rest on one side the first is filled
  before anything is reported of the second.
-/

namespace Scrimmage.Market

open Theory

variable {π : Type} {P : OrderPool π} {maxOrders : ℕ}

/-- The report is of a fill of submission `k`. -/
def Report.concerns (k : ℕ) : Report ℕ → Prop
  | .execution k' _ _ => k' = k
  | .matched i r _ _ _ => i = k ∨ r = k

/-- Every side is in the order of submission. -/
def Arrived (e : Engine π) (owner : Slot → ℕ) : Prop :=
  ∀ b x, (e.side b x).Pairwise fun s t => owner s < owner t

/-- The order `o` of submission `k` is filled by what is reported. -/
def FilledBy (k : ℕ) (o : Order) (log : List (Report ℕ)) : Prop :=
  sumFilled (executionsOf log k) = o.quantity.toNat

/-- Two submissions of one side of one book. -/
def OneSide (o o' : Order) : Prop := o.bookIndex = o'.bookIndex ∧ o.isBuy = o'.isBuy

/-! ### The order of submission -/

section Arrived

variable {e : Engine π} {owner : Slot → ℕ} {b : Fin 1024} {x : Bool} {s r : Slot} {rest : List Slot}

/-- The front order of a side leaves. -/
theorem Arrived.pop (h : Arrived e owner) (hside : e.side b x = r :: rest) : Arrived (e.setSide b x rest) owner := by
  intro b' x'
  by_cases hb : (b', x') = (b, x)
  · obtain ⟨rfl, rfl⟩ := Prod.mk.inj hb
    rw [Engine.side_setSide_same]
    exact (List.pairwise_cons.mp (hside ▸ h b' x')).2
  · rw [Engine.side_setSide_of_ne _ _ _ _ hb]
    exact h b' x'

/-- A side after a call: what it was or less, and the order of the call at its end. -/
theorem Submitted.side_sublist {o : Order} {out : Engine π × List Event} (hsub : Submitted e o s out) (b : Fin 1024)
    (x : Bool) : (out.1.side b x).Sublist (e.side b x ++ [s]) := by
  have hleft (l : List Slot) : l.Sublist (l ++ [s]) := List.sublist_append_left l [s]
  rcases o.side_cases b x with ⟨rfl, rfl⟩ | ⟨rfl, rfl⟩ | hb
  · show (out.1.oppositeOf o).Sublist (e.oppositeOf o ++ [s])
    rw [hsub.opposite]
    exact (Sweep.rest_sublist _ _).trans (hleft _)
  · rw [hsub.own]
    split_ifs
    · exact List.Sublist.refl _
    · rw [List.append_nil]
      exact hleft _
  · rw [hsub.other b hb]
    exact hleft _

end Arrived

section Calls

variable {h : History π} {o : Order} {s : Slot} {p : π}

/-- A slot of a book belongs to a submission made. -/
theorem History.Sound.owner_lt (hs : h.Sound P maxOrders []) {t : Slot} (ht : t ∈ held h.engine) :
    h.owner t < h.orders.length := by
  obtain ⟨o, ho, -⟩ := hs.balanced.holds t (List.mem_append_right [] ht)
  exact (List.getElem?_eq_some_iff.mp ho).1

/-- With the order of the next call at its end, a side is in the order of submission. -/
theorem Arrived.snoc (harr : Arrived h.engine h.owner) (hs : h.Sound P maxOrders [])
    (ha : P.acquire h.engine.pool = some (s, p)) (b : Fin 1024) (x : Bool) :
    (h.engine.side b x ++ [s]).Pairwise fun t u =>
      Function.update h.owner s h.orders.length t < Function.update h.owner s h.orders.length u := by
  have hheld {t : Slot} (ht : t ∈ h.engine.side b x) : t ∈ held h.engine := mem_held.mpr ⟨b, x, ht⟩
  have hne {t : Slot} (ht : t ∈ h.engine.side b x) : t ≠ s := fun heq => hs.rep.acquired_not_mem ha b x (heq ▸ ht)
  rw [List.pairwise_append]
  refine ⟨(harr b x).imp_of_mem fun {t u} ht hu hlt => ?_, List.pairwise_singleton _ _, fun t ht u hu => ?_⟩
  · rwa [Function.update_of_ne (hne ht), Function.update_of_ne (hne hu)]
  · rw [List.mem_singleton.mp hu, Function.update_self, Function.update_of_ne (hne ht)]
    exact hs.owner_lt (hheld ht)

/-- **A call keeps every side in the order of submission.** -/
theorem Arrived.submit (harr : Arrived h.engine h.owner) (hs : h.Sound P maxOrders []) (o : Order) :
    Arrived (h.submit P o).engine (h.submit P o).owner := by
  cases ha : P.acquire h.engine.pool with
  | none => rwa [History.submit_of_none ha]
  | some a =>
    obtain ⟨s, p⟩ := a
    rw [History.submit_of_some ha]
    exact fun b x => (harr.snoc hs ha b x).sublist ((submitOrder_swept hs.rep ha o).side_sublist b x)

theorem arrived_run (P : OrderPool π) (maxOrders : ℕ) (orders : List Order) :
    Arrived (History.run P maxOrders orders).engine (History.run P maxOrders orders).owner := by
  induction orders using List.reverseRecOn with
  | nil =>
    intro b x
    have hempty : (History.run P maxOrders []).engine.side b x = [] := Engine.create_side b x P maxOrders
    rw [hempty]
    exact List.Pairwise.nil
  | append_singleton orders o ih =>
    rw [History.run_snoc]
    exact ih.submit (sound_run P maxOrders orders) o

end Calls

/-! ### The order in which orders are filled -/

section Filled

variable {orders : List Order} {owner : Slot → ℕ} {log : List (Report ℕ)} {e : Engine π} {hand : List Slot}
  {b : Fin 1024} {x : Bool} {s r : Slot} {rest : List Slot} {i j : ℕ} {o o' : Order}

/-- **When an order is at the front of its side**, those of the side that were submitted
before it are filled. -/
theorem Balanced.filled_of_front (hbal : Balanced orders owner log e.mem (hand ++ held e))
    (hrep : Rep P maxOrders e hand) (harr : Arrived e owner) (hside : e.side b x = r :: rest)
    (hhand : ∀ s ∈ hand, owner s ≠ i) (hi : orders[i]? = some o) (hr : orders[owner r]? = some o')
    (hone : OneSide o o') (hlt : i < owner r) : FilledBy i o log := by
  refine hbal.filled i o hi fun u hu hui => ?_
  rcases List.mem_append.mp hu with hu' | hheld
  · exact hhand u hu' hui
  · -- a slot of a book that belongs to `i` is on this side, so it is `r` or behind it
    obtain ⟨b', x', hub⟩ := mem_held.mp hheld
    have hrb : r ∈ e.side b x := by rw [hside]; exact List.mem_cons_self ..
    obtain ⟨ou, hou, hmemu, -⟩ := hbal.holds u hu
    obtain ⟨or, hor, hmemr, -⟩ := hbal.holds r (List.mem_append_right _ (mem_held.mpr ⟨b, x, hrb⟩))
    rw [hui, hi] at hou
    rw [hr] at hor
    obtain ⟨hxu, hbu⟩ := hrep.orders b' x' u hub
    obtain ⟨hxr, hbr⟩ := hrep.orders b x r hrb
    rw [hmemu, ← Option.some.inj hou] at hxu hbu
    rw [hmemr, ← Option.some.inj hor] at hxr hbr
    have hb : b' = b := hbu.symm.trans (hone.1.trans hbr)
    have hx : x' = x := hxu.symm.trans (hone.2.trans hxr)
    subst hb hx
    have hsorted := harr b' x'
    rw [hside] at hub hsorted
    rcases List.mem_cons.mp hub with rfl | hrest
    · omega
    · have := (List.pairwise_cons.mp hsorted).1 u hrest
      omega

/-- Whenever a fill of `j` is reported after `start`, the order `o` of `i` is filled. -/
def InTurn (start : List (Report ℕ)) (i : ℕ) (o : Order) (j : ℕ) (log : List (Report ℕ)) : Prop :=
  Whenever (Report.concerns j) (fun pre => start <+: pre → FilledBy i o pre) log

/-- **The reports of a fill** of an order that is `j` only if `i` is filled. -/
theorem InTurn.fill {start : List (Report ℕ)} {os or : Order} {q : UInt64} (h : InTurn start i o j log)
    (hsi : owner s ≠ i) (hsj : owner s ≠ j) (hij : i ≠ j) (hr : owner r = j → FilledBy i o log) :
    InTurn start i o j (log ++ (fillReports s r os or q).map (Report.map owner)) := by
  have hfst : FilledBy i o log → FilledBy i o (log ++ [.execution (owner s) os q]) := by
    intro hf
    rwa [FilledBy, executionsOf_append, executionsOf_of_ne hsi, List.append_nil]
  have hsnd (hrj : owner r = j) (hf : FilledBy i o (log ++ [.execution (owner s) os q])) :
      FilledBy i o (log ++ [.execution (owner s) os q] ++ [.execution (owner r) or q]) := by
    rwa [FilledBy, executionsOf_append, executionsOf_of_ne (hrj ▸ hij.symm), List.append_nil]
  have h₁ : InTurn start i o j (log ++ [.execution (owner s) os q]) := h.snoc fun hc => absurd hc hsj
  have h₂ : InTurn start i o j (log ++ [.execution (owner s) os q] ++ [.execution (owner r) or q]) :=
    h₁.snoc fun hc _ => hfst (hr hc)
  have h₃ : InTurn start i o j (log ++ [.execution (owner s) os q] ++ [.execution (owner r) or q] ++
      [.matched (owner s) (owner r) os or q]) := by
    refine h₂.snoc fun hc _ => ?_
    have hrj : owner r = j := hc.resolve_left hsj
    exact hsnd hrj (hfst (hr hrj))
  simpa [fillReports, Report.map] using h₃

/-- Every fill of a loop is in turn, so far. -/
def InTurnAt (owner : Slot → ℕ) (log start : List (Report ℕ)) (i : ℕ) (o : Order) (j : ℕ) (st : MatchState π) : Prop :=
  InTurn start i o j (log ++ (reports st.events).map (Report.map owner))

/-- **What one turn does**: it pops the front order or leaves the sides, and what it reports
is in turn. -/
theorem matchTurn_inTurn {p₀ : π} {lost : ℕ} {opp : Bool} {st₀ st : MatchState π} {start : List (Report ℕ)}
    (h : LoopRep P maxOrders p₀ lost s [] b opp st₀ st) (hbal : BalancedAt orders owner log [s] st)
    (hi : orders[i]? = some o) (hj : orders[j]? = some o') (hone : OneSide o o') (hlt : i < j) (hsi : owner s ≠ i)
    (hsj : owner s ≠ j) (harr : Arrived st.engine owner) (hturn : InTurnAt owner log start i o j st) :
    Loop.Sat (fun st' => Arrived st'.engine owner ∧ InTurnAt owner log start i o j st')
      (fun r => InTurnAt owner log start i o j r.1) (matchTurn P b opp s st) := by
  have hhand : ∀ t ∈ [s], owner t ≠ i := fun t ht => by rwa [List.mem_singleton.mp ht]
  have hfill {r : Slot} {rest : List Slot} (hside : st.engine.side b opp = r :: rest) (os or : Order) (q : UInt64) :
      InTurn start i o j (log ++ (reports st.events ++ fillReports s r os or q).map (Report.map owner)) := by
    rw [List.map_append, ← List.append_assoc]
    refine InTurn.fill hturn hsi hsj hlt.ne fun hrj => ?_
    exact hbal.filled_of_front h.toRep harr hside hhand hi (hrj ▸ hj) hone (hrj ▸ hlt)
  have hcase := matchTurn_case P h.front (h.not_mem_side b opp)
  generalize matchTurn P b opp s st = t at hcase
  cases hcase with
  | empty hside => exact hturn
  | miss hside hc => exact hturn
  | consume hside hc hlt' =>
    refine ⟨Arrived.pop (e := st.engine) harr hside, ?_⟩
    simpa [InTurnAt] using hfill hside _ _ _
  | complete hside hc heq => simpa [InTurnAt] using hfill hside _ _ _
  | reduce hside hc hlt' => simpa [InTurnAt] using hfill hside _ _ _

/-- So is what any number of turns report. -/
theorem run_matchTurn_inTurn {p₀ : π} {lost : ℕ} {opp : Bool} {st₀ st : MatchState π} {start : List (Report ℕ)}
    (h : LoopRep P maxOrders p₀ lost s [] b opp st₀ st) (hbal : BalancedAt orders owner log [s] st)
    (hi : orders[i]? = some o) (hj : orders[j]? = some o') (hone : OneSide o o') (hlt : i < j) (hsi : owner s ≠ i)
    (hsj : owner s ≠ j) (harr : Arrived st.engine owner) (hturn : InTurnAt owner log start i o j st) (n : ℕ) :
    Loop.Sat (fun st' => (LoopRep P maxOrders p₀ lost s [] b opp st₀ st' ∧ BalancedAt orders owner log [s] st') ∧
        Arrived st'.engine owner ∧ InTurnAt owner log start i o j st')
      (fun r => InTurnAt owner log start i o j r.1) (Loop.run (matchTurn P b opp s) n st) := by
  refine Loop.run_sat (fun st' hst' => ?_) n ⟨⟨h, hbal⟩, harr, hturn⟩
  obtain ⟨⟨hrep, hb⟩, harr, hturn⟩ := hst'
  have hstep := (matchTurn_rep hrep).and (matchTurn_balanced hrep hb)
  have hnew := matchTurn_inTurn hrep hb hi hj hone hlt hsi hsj harr hturn
  exact (hstep.and hnew).mono (fun _ hs => ⟨⟨hs.1.1.1, hs.1.2⟩, hs.2⟩) fun _ hr => hr.2

end Filled

/-! ### Runs -/

section Runs

variable {h : History π} {s : Slot} {p : π} {i j : ℕ} {o o' : Order} {start : List (Report ℕ)}

/-- **What a call reports is in turn.** -/
theorem InTurn.submit (hturn : InTurn start i o j h.log) (hs : h.Sound P maxOrders []) (harr : Arrived h.engine h.owner)
    (hi : h.orders[i]? = some o) (hj : h.orders[j]? = some o') (hone : OneSide o o') (hlt : i < j) (o₁ : Order) :
    InTurn start i o j (h.submit P o₁).log := by
  cases ha : P.acquire h.engine.pool with
  | none => rwa [History.submit_of_none ha]
  | some a =>
    obtain ⟨s, p⟩ := a
    rw [History.submit_of_some ha]
    have hjlt : j < h.orders.length := (List.getElem?_eq_some_iff.mp hj).1
    obtain ⟨lost, hloop, hbal⟩ := hs.start ha o₁
    obtain ⟨r, hexit, hfin⟩ := submitOrder_exit (o := o₁) hs.rep ha
    have harr' : Arrived (h.engine.accept p s o₁) (Function.update h.owner s h.orders.length) :=
      fun b x => (List.pairwise_append.mp (harr.snoc hs ha b x)).1
    have hturn' : InTurnAt (Function.update h.owner s h.orders.length) h.log start i o j
        ⟨h.engine.accept p s o₁, 0, []⟩ := by
      simpa [InTurnAt] using hturn
    have hrun := run_matchTurn_inTurn hloop hbal (by rw [List.getElem?_append_left (hlt.trans hjlt), hi])
      (by rw [List.getElem?_append_left hjlt, hj]) hone hlt (by rw [Function.update_self]; omega)
      (by rw [Function.update_self]; omega) harr' hturn' ((h.engine.side o₁.bookIndex (!o₁.isBuy)).length + 1)
    rw [hexit] at hrun
    rw [hfin]
    simpa [InTurnAt, History.extend, finishMatch_events] using hrun

/-- The orders and the reports of a history are first among those of the next. -/
theorem History.submit_extends (P : OrderPool π) (h : History π) (o : Order) :
    h.orders <+: (h.submit P o).orders ∧ h.log <+: (h.submit P o).log := by
  cases ha : P.acquire h.engine.pool with
  | none =>
    rw [History.submit_of_none ha]
    exact ⟨List.prefix_rfl, List.prefix_rfl⟩
  | some a =>
    rw [History.submit_of_some ha]
    exact ⟨List.prefix_append _ _, List.prefix_append _ _⟩

/-- **What a run reports is in turn**, from a history on. -/
theorem inTurn_run (P : OrderPool π) (maxOrders : ℕ) (orders more : List Order) :
    let h := History.run P maxOrders orders
    let h' := History.run P maxOrders (orders ++ more)
    h.log <+: h'.log ∧ ∀ i j o o', h.orders[i]? = some o → h.orders[j]? = some o' → OneSide o o' → i < j →
      h'.orders[i]? = some o ∧ h'.orders[j]? = some o' ∧ InTurn h.log i o j h'.log := by
  induction more using List.reverseRecOn with
  | nil =>
    rw [List.append_nil]
    exact ⟨List.prefix_rfl, fun i j o o' hi hj _ _ => ⟨hi, hj, whenever_start _ _ _⟩⟩
  | append_singleton more o₁ ih =>
    rw [← List.append_assoc, History.run_snoc]
    obtain ⟨horders, hlog⟩ := (History.run P maxOrders (orders ++ more)).submit_extends P o₁
    refine ⟨ih.1.trans hlog, fun i j o o' hi hj hone hlt => ?_⟩
    obtain ⟨hi', hj', hturn⟩ := ih.2 i j o o' hi hj hone hlt
    have hkeep {k : ℕ} {ok : Order} (hk : (History.run P maxOrders (orders ++ more)).orders[k]? = some ok) :
        ((History.run P maxOrders (orders ++ more)).submit P o₁).orders[k]? = some ok := by
      obtain ⟨hlt, hget⟩ := List.getElem?_eq_some_iff.mp hk
      rw [List.prefix_iff_getElem?.mp horders k hlt, hget]
    refine ⟨hkeep hi', hkeep hj', ?_⟩
    exact hturn.submit (sound_run P maxOrders _) (arrived_run P maxOrders _) hi' hj' hone hlt o₁

/-- **Time priority over every run.** An order that is filled while it rests was submitted
before all others that then rest on its side. And of two orders that rest on one side at
one time, whatever their prices, nothing is reported of a fill of the one submitted later
until the one submitted earlier is filled. -/
theorem time_priority (P : OrderPool π) (maxOrders : ℕ) (orders : List Order) :
    let h := History.run P maxOrders orders
    (∀ o st r, FillAt P h.engine o st r → ∀ t ∈ st.engine.oppositeOf o, t ≠ r → h.owner r < h.owner t) ∧
    ∀ b x, ∀ s ∈ h.engine.side b x, ∀ t ∈ h.engine.side b x, h.owner s < h.owner t →
      ∃ o, h.orders[h.owner s]? = some o ∧ ∀ more,
        let log := (History.run P maxOrders (orders ++ more)).log
        h.log <+: log ∧ ∀ pre r post, log = pre ++ r :: post → r.concerns (h.owner t) → h.log <+: pre →
          sumFilled (executionsOf pre (h.owner s)) = o.quantity.toNat := by
  have hs := sound_run P maxOrders orders
  have harr := arrived_run P maxOrders orders
  have hrun := inTurn_run P maxOrders orders
  generalize History.run P maxOrders orders = h at hs harr hrun
  refine ⟨fun o st r hf t ht hne => ?_, fun b x s hsx t htx hlt => ?_⟩
  · obtain ⟨pre, post, hr, hside, -⟩ := hf.reaches hs.rep
    have hsorted := harr o.bookIndex (!o.isBuy)
    rw [show h.engine.side o.bookIndex (!o.isBuy) = pre ++ r :: post from hr.split, List.pairwise_append] at hsorted
    rw [hside] at ht
    exact (List.pairwise_cons.mp hsorted.2.1).1 t ((List.mem_cons.mp ht).resolve_left hne)
  · obtain ⟨o, ho, hmem, -⟩ := hs.balanced.holds s (by simpa using mem_held.mpr ⟨b, x, hsx⟩)
    obtain ⟨o', ho', hmem', -⟩ := hs.balanced.holds t (by simpa using mem_held.mpr ⟨b, x, htx⟩)
    obtain ⟨hx, hb⟩ := hs.rep.orders b x s hsx
    obtain ⟨hx', hb'⟩ := hs.rep.orders b x t htx
    rw [hmem] at hx hb
    rw [hmem'] at hx' hb'
    have hone : OneSide o o' := ⟨hb.trans hb'.symm, hx.trans hx'.symm⟩
    refine ⟨o, ho, fun more => ⟨(hrun more).1, fun pre r post heq hc hpre => ?_⟩⟩
    exact ((hrun more).2 _ _ o o' ho ho' hone hlt).2.2 pre r post heq hc hpre

end Runs

end Scrimmage.Market
