import Scrimmage.Market.Representation
import Scrimmage.Theory.Sweep

/-!
# Matching is a greedy sweep

The matching loop spends the incoming order's quantity on the orders of the opposite
side, in the order they came to rest, as long as their prices cross: a greedy sweep in
the sense of `Theory.Sweep`, with the slots of the side as its items.

## What is proved

* `swept_of_again`: the state after any number of turns (`Swept`). The orders swept so
  far were the first of the side, crossed and are filled; the others are untouched.
  `again_of_crossed` is the converse: the turns that have to be taken are.
* `matchOrder_swept`, `submitOrder_swept`: the call as a whole (`Submitted`). The
  opposite side is what the sweep leaves, the order rests with what is left of it, the
  reports are those of the orders reached, and nothing else changes.
-/

namespace Scrimmage.Market

open Theory

variable {π : Type}

/-- The reports of the fills of the order `o` in slot `s` against the orders in some
slots, one after the other. -/
def fillsOf (s : Slot) (mem : Slot → Order) : Order → List Slot → List (Report Slot)
  | _, [] => []
  | o, r :: l =>
    fillReports s r (o.sub (min o.quantity (mem r).quantity))
        ((mem r).sub (min o.quantity (mem r).quantity)) (min o.quantity (mem r).quantity) ++
      fillsOf s mem (o.sub (min o.quantity (mem r).quantity)) l

/-- Whether `o` crosses the order in a slot. -/
def crossing (o : Order) (mem : Slot → Order) (t : Slot) : Bool := o.crosses (mem t)

/-- The quantity of the order in a slot. -/
def quantityOf (mem : Slot → Order) (t : Slot) : ℕ := (mem t).quantity.toNat

/-- The state after the turns that filled the orders `done`, of the loop of the order in
`s` from the engine `e₀`; `rest` are the orders still to look at. -/
structure Swept (e₀ : Engine π) (s : Slot) (b : Fin 1024) (opp : Bool) (done rest : List Slot)
    (st : MatchState π) : Prop where
  split : e₀.side b opp = done ++ rest
  front : st.i = 0
  side : st.engine.side b opp = rest
  other : ∀ b' x, (b', x) ≠ (b, opp) → st.engine.side b' x = e₀.side b' x
  crossed : ∀ t ∈ done, crossing (e₀.mem s) e₀.mem t = true
  incoming : st.engine.mem s = { e₀.mem s with quantity := (st.engine.mem s).quantity }
  spent : (st.engine.mem s).quantity.toNat + Sweep.total (quantityOf e₀.mem) done =
    (e₀.mem s).quantity.toNat
  going : done = [] ∨ 0 < (st.engine.mem s).quantity.toNat
  mem : ∀ t, t ≠ s → t ∉ done → st.engine.mem t = e₀.mem t
  reported : ∀ l, reports st.events ++ fillsOf s e₀.mem (st.engine.mem s) l =
    fillsOf s e₀.mem (e₀.mem s) (done ++ l)

section Loop

variable {P : OrderPool π} {e₀ : Engine π} {s : Slot} {b : Fin 1024} {opp : Bool} {done rest : List Slot}
  {st : MatchState π}

namespace Swept

theorem start (e₀ : Engine π) (s : Slot) (b : Fin 1024) (opp : Bool) :
    Swept e₀ s b opp [] (e₀.side b opp) ⟨e₀, 0, []⟩ where
  split := rfl
  front := rfl
  side := rfl
  other _ _ _ := rfl
  crossed t ht := by cases ht
  incoming := rfl
  spent := rfl
  going := Or.inl rfl
  mem _ _ _ := rfl
  reported _ := rfl

/-- The incoming order crosses what it crossed at the start. -/
theorem crosses_eq (h : Swept e₀ s b opp done rest st) (r : Order) :
    (st.engine.mem s).crosses r = (e₀.mem s).crosses r := by
  rw [h.incoming]; rfl

/-- The order in hand is not among those still to look at. -/
theorem notMem (h : Swept e₀ s b opp done rest st) (hs : s ∉ e₀.side b opp) : s ∉ st.engine.side b opp := by
  rw [h.side]
  intro hm
  apply hs
  rw [h.split]
  exact List.mem_append_right _ hm

/-- An order still to look at is untouched. -/
theorem mem_rest (h : Swept e₀ s b opp done rest st) (hnd : (e₀.side b opp).Nodup)
    (hs : s ∉ e₀.side b opp) {t : Slot} (ht : t ∈ rest) : st.engine.mem t = e₀.mem t := by
  rw [h.split] at hnd hs
  refine h.mem t ?_ ?_
  · rintro rfl
    exact hs (List.mem_append_right _ ht)
  · exact fun htd => (List.nodup_append.mp hnd).2.2 t htd t ht rfl

/-- **The front order is filled and leaves**: it is swept. -/
theorem consume {r : Slot} (h : Swept e₀ s b opp done (r :: rest) st) (hnd : (e₀.side b opp).Nodup)
    (hs : s ∉ e₀.side b opp) (hc : (st.engine.mem s).crosses (st.engine.mem r) = true)
    (hlt : (st.engine.mem r).quantity.toNat < (st.engine.mem s).quantity.toNat) :
    Swept e₀ s b opp (done ++ [r]) rest
      { engine := ((st.engine.fill s r (st.engine.mem r).quantity).release P r).setSide b opp rest
        i := 0
        events := st.events ++ (fillReports s r ((st.engine.mem s).sub (st.engine.mem r).quantity)
          ((st.engine.mem r).sub (st.engine.mem r).quantity) (st.engine.mem r).quantity).map .report ++
            [.release r] } := by
  have hr : st.engine.mem r = e₀.mem r := h.mem_rest hnd hs (List.mem_cons_self ..)
  have hne : s ≠ r := List.ne_of_not_mem_cons (h.side ▸ h.notMem hs)
  rw [hr] at hc hlt ⊢
  have hq : ((st.engine.mem s).quantity - (e₀.mem r).quantity).toNat =
      (st.engine.mem s).quantity.toNat - (e₀.mem r).quantity.toNat := toNat_sub_of_toNat_le hlt.le
  refine ⟨by rw [h.split]; simp, rfl, by simp, fun b' x hbx => ?_, fun t ht => ?_, ?_, ?_, ?_,
    fun t hts htd => ?_, fun l => ?_⟩
  · rw [Engine.side_setSide_of_ne _ _ _ _ hbx]
    exact h.other b' x hbx
  · rcases List.mem_append.mp ht with ht | ht
    · exact h.crossed t ht
    · rw [List.mem_singleton.mp ht, crossing, ← h.crosses_eq]
      exact hc
  · simp only [Engine.setSide_mem, Engine.release_mem, Engine.fill_mem_incoming hne]
    rw [h.incoming]
    rfl
  · simp only [Engine.setSide_mem, Engine.release_mem, Engine.fill_mem_incoming hne,
      Order.sub_quantity, hq, Sweep.total_append, Sweep.total_cons, Sweep.total_nil, quantityOf]
    have := h.spent
    omega
  · right
    simp only [Engine.setSide_mem, Engine.release_mem, Engine.fill_mem_incoming hne,
      Order.sub_quantity, hq]
    omega
  · have htr : t ≠ r := fun htr => htd (by simp [htr])
    simp only [Engine.setSide_mem, Engine.release_mem, Engine.fill_mem_of_ne hts htr]
    exact h.mem t hts fun htd' => htd (List.mem_append_left _ htd')
  · have := h.reported (r :: l)
    rw [fillsOf, min_of_toNat_lt hlt] at this
    simp only [Engine.setSide_mem, Engine.release_mem, Engine.fill_mem_incoming hne, reports_append,
      reports_report, reports_release, reports_nil, List.append_nil, List.append_assoc, this, List.singleton_append]

end Swept

/-- **The state after any number of turns.** -/
theorem swept_of_again (hnd : (e₀.side b opp).Nodup) (hs : s ∉ e₀.side b opp) {n : ℕ}
    (h : Loop.run (matchTurn P b opp s) n ⟨e₀, 0, []⟩ = .again st) :
    ∃ done rest, done.length = n ∧ Swept e₀ s b opp done rest st := by
  induction n generalizing st with
  | zero =>
    cases h
    exact ⟨[], e₀.side b opp, rfl, Swept.start e₀ s b opp⟩
  | succ n ih =>
    obtain ⟨st₁, hrun, hturn⟩ := Loop.again_of_succ h
    obtain ⟨done, rest, hlen, hsw⟩ := ih hrun
    have hcase := matchTurn_case P hsw.front (hsw.notMem hs)
    rw [hturn] at hcase
    cases hcase with
    | @consume r rest' hside hc hlt =>
      obtain rfl : rest = r :: rest' := hsw.side.symm.trans hside
      exact ⟨done ++ [r], rest', by simp [hlen], hsw.consume hnd hs hc hlt⟩

/-- **The loop gets to every order the sweep reaches**: it is still going when it has filled
crossing orders of less quantity. -/
theorem again_of_crossed (hnd : (e₀.side b opp).Nodup) (hs : s ∉ e₀.side b opp)
    (hsplit : e₀.side b opp = done ++ rest) (hok : ∀ t ∈ done, crossing (e₀.mem s) e₀.mem t = true)
    (hq : done = [] ∨ Sweep.total (quantityOf e₀.mem) done < (e₀.mem s).quantity.toNat) :
    ∃ st, Loop.run (matchTurn P b opp s) done.length ⟨e₀, 0, []⟩ = .again st ∧
      Swept e₀ s b opp done rest st := by
  induction done using List.reverseRecOn generalizing rest with
  | nil =>
    rw [List.nil_append] at hsplit
    exact ⟨_, rfl, hsplit ▸ Swept.start e₀ s b opp⟩
  | append_singleton done r ih =>
    have htotal : Sweep.total (quantityOf e₀.mem) done + (e₀.mem r).quantity.toNat <
        (e₀.mem s).quantity.toNat := by
      simpa [quantityOf] using hq
    have hsplit' : e₀.side b opp = done ++ r :: rest := by simpa using hsplit
    obtain ⟨st, hrun, hsw⟩ := ih hsplit' (fun t ht => hok t (List.mem_append_left _ ht)) (Or.inr (by omega))
    have hr : st.engine.mem r = e₀.mem r := hsw.mem_rest hnd hs (List.mem_cons_self ..)
    have hcross : (st.engine.mem s).crosses (st.engine.mem r) = true := by
      rw [hsw.crosses_eq, hr]
      exact hok r (by simp)
    have hlt : (st.engine.mem r).quantity.toNat < (st.engine.mem s).quantity.toNat := by
      have := hsw.spent
      rw [hr]
      omega
    rw [List.length_append, List.length_singleton, Loop.run_succ_of_again hrun]
    -- the front order crosses and is smaller, so this turn is of no other case
    have hcase := matchTurn_case P hsw.front (hsw.notMem hs)
    generalize matchTurn P b opp s st = t at hcase
    cases hcase with
    | empty hside => simp [hsw.side] at hside
    | miss hside hc =>
      obtain ⟨rfl, rfl⟩ : r = _ ∧ rest = _ := by simpa [hsw.side] using hside
      simp [hc] at hcross
    | consume hside hc =>
      obtain ⟨rfl, rfl⟩ : r = _ ∧ rest = _ := by simpa [hsw.side] using hside
      exact ⟨_, rfl, hsw.consume hnd hs hcross hlt⟩
    | complete hside hc heq =>
      obtain ⟨rfl, rfl⟩ : r = _ ∧ rest = _ := by simpa [hsw.side] using hside
      rw [heq] at hlt
      exact absurd hlt (Nat.lt_irrefl _)
    | reduce hside hc hlt' =>
      obtain ⟨rfl, rfl⟩ : r = _ ∧ rest = _ := by simpa [hsw.side] using hside
      exact absurd hlt' (Nat.lt_asymm hlt)

/-! ### The call -/

/-- The items of the sweep an order makes over the opposite side of a book: the orders it
reaches, what is left of its quantity, and what is left of the side. -/
def reachedBy (o : Order) (mem : Slot → Order) (side : List Slot) : List Slot :=
  Sweep.reached (crossing o mem) (quantityOf mem) o.quantity.toNat side

/-- What is left of the order's quantity. -/
def leftOf (o : Order) (mem : Slot → Order) (side : List Slot) : ℕ :=
  Sweep.left (crossing o mem) (quantityOf mem) o.quantity.toNat side

/-- What is left of the side. -/
def restAfter (o : Order) (mem : Slot → Order) (side : List Slot) : List (Slot × ℕ) :=
  Sweep.rest (crossing o mem) (quantityOf mem) o.quantity.toNat side

/-- **What matching the order in slot `s` does** to the engine `e₀` it starts from. -/
structure Matched (e₀ : Engine π) (s : Slot) (b : Fin 1024) (opp : Bool) (out : Engine π × List Event) :
    Prop where
  /-- The opposite side is what the sweep leaves of it. -/
  opposite : out.1.side b opp = (restAfter (e₀.mem s) e₀.mem (e₀.side b opp)).map Prod.fst
  /-- The order is added to its own side if anything is left of it. -/
  own : out.1.side b (!opp) =
    e₀.side b (!opp) ++ if 0 < leftOf (e₀.mem s) e₀.mem (e₀.side b opp) then [s] else []
  /-- The other books are as they were. -/
  other : ∀ b', b' ≠ b → ∀ x, out.1.side b' x = e₀.side b' x
  /-- The orders left on the opposite side have what the sweep leaves them. -/
  resting : ∀ t k, (t, k) ∈ restAfter (e₀.mem s) e₀.mem (e₀.side b opp) →
    out.1.mem t = { e₀.mem t with quantity := UInt64.ofNat k }
  /-- The order, if it rests, has what is left of it. -/
  rested : 0 < leftOf (e₀.mem s) e₀.mem (e₀.side b opp) → out.1.mem s =
    { e₀.mem s with quantity := UInt64.ofNat (leftOf (e₀.mem s) e₀.mem (e₀.side b opp)) }
  /-- All other orders are as they were. -/
  mem : ∀ t, t ≠ s → t ∉ e₀.side b opp → out.1.mem t = e₀.mem t
  /-- The reports are those of the orders reached. -/
  reported : reports out.2 = fillsOf s e₀.mem (e₀.mem s) (reachedBy (e₀.mem s) e₀.mem (e₀.side b opp))

namespace Swept

/-- The orders filled so far are a first part of the sweep. -/
theorem sweep_done (h : Swept e₀ s b opp done rest st) :
    done = [] ∨ Sweep.total (quantityOf e₀.mem) done < (e₀.mem s).quantity.toNat := by
  rcases h.going with hd | hq
  · exact Or.inl hd
  · have := h.spent
    exact Or.inr (by omega)

theorem quantity_eq (h : Swept e₀ s b opp done rest st) :
    (e₀.mem s).quantity.toNat - Sweep.total (quantityOf e₀.mem) done = (st.engine.mem s).quantity.toNat := by
  have := h.spent
  omega

theorem reached_eq (h : Swept e₀ s b opp done rest st) :
    reachedBy (e₀.mem s) e₀.mem (e₀.side b opp) = done ++
      Sweep.reached (crossing (e₀.mem s) e₀.mem) (quantityOf e₀.mem) (st.engine.mem s).quantity.toNat rest := by
  rw [reachedBy, h.split, Sweep.reached_append h.crossed h.sweep_done, h.quantity_eq]

theorem left_eq (h : Swept e₀ s b opp done rest st) :
    leftOf (e₀.mem s) e₀.mem (e₀.side b opp) =
      Sweep.left (crossing (e₀.mem s) e₀.mem) (quantityOf e₀.mem) (st.engine.mem s).quantity.toNat rest := by
  rw [leftOf, h.split, Sweep.left_append h.crossed h.sweep_done, h.quantity_eq]

theorem rest_eq (h : Swept e₀ s b opp done rest st) :
    restAfter (e₀.mem s) e₀.mem (e₀.side b opp) =
      Sweep.rest (crossing (e₀.mem s) e₀.mem) (quantityOf e₀.mem) (st.engine.mem s).quantity.toNat rest := by
  rw [restAfter, h.split, Sweep.rest_append h.crossed h.sweep_done, h.quantity_eq]

end Swept

theorem withQuantity_ofNat_toNat (o : Order) : { o with quantity := UInt64.ofNat o.quantity.toNat } = o := by
  rw [UInt64.ofNat_toNat]

/-- The loop left with nothing more to cross: what is left of the order comes to rest. -/
theorem Swept.matched_of_stop (h : Swept e₀ s b opp done rest st) (hnd : (e₀.side b opp).Nodup)
    (hs : s ∉ e₀.side b opp) (hbuy : (e₀.mem s).isBuy = !opp)
    (hstop : ∀ t ∈ rest.head?, crossing (e₀.mem s) e₀.mem t = false) :
    Matched e₀ s b opp (finishMatch b s (st, false)) := by
  have hreached : reachedBy (e₀.mem s) e₀.mem (e₀.side b opp) = done := by
    rw [h.reached_eq]
    cases rest with
    | nil => simp [Sweep.reached]
    | cons r rest => simp [Sweep.reached, hstop r rfl]
  have hleft : leftOf (e₀.mem s) e₀.mem (e₀.side b opp) = (st.engine.mem s).quantity.toNat := by
    rw [h.left_eq]
    cases rest with
    | nil => simp [Sweep.left]
    | cons r rest => simp [Sweep.left, hstop r rfl]
  have hrest : restAfter (e₀.mem s) e₀.mem (e₀.side b opp) = rest.map fun t => (t, quantityOf e₀.mem t) := by
    rw [h.rest_eq]
    cases rest with
    | nil => simp [Sweep.rest]
    | cons r rest => simp [Sweep.rest, hstop r rfl]
  have hst : (st.engine.mem s).isBuy = !opp := by rw [h.incoming]; exact hbuy
  have hmem (t : Slot) : (finishMatch b s (st, false)).1.mem t = st.engine.mem t := by
    simp only [finishMatch]; split_ifs <;> rfl
  have hside (b' : Fin 1024) (x : Bool) : (finishMatch b s (st, false)).1.side b' x =
      st.engine.side b' x ++ if (b', x) = (b, !opp) ∧ 0 < (st.engine.mem s).quantity.toNat then [s] else [] := by
    have hpos : (st.engine.mem s).quantity > 0 ↔ 0 < (st.engine.mem s).quantity.toNat := by
      simp [UInt64.lt_iff_toNat_lt]
    simp only [finishMatch, true_and, hpos, hst]
    by_cases hq : 0 < (st.engine.mem s).quantity.toNat
    · by_cases hbx : (b', x) = (b, !opp)
      · obtain ⟨rfl, rfl⟩ := Prod.mk.inj hbx
        simp [hq]
      · simp [hq, hbx, Engine.side_setSide_of_ne _ _ _ _ hbx]
    · simp [hq]
  refine ⟨?_, ?_, fun b' hb x => ?_, fun t k htk => ?_, fun _ => ?_, fun t hts ht => ?_, ?_⟩
  · rw [hside, hrest, h.side]
    simp [Function.comp_def]
  · rw [hside, hleft, h.other _ _ (by simp)]
    simp
  · rw [hside, h.other _ _ (by simp [hb])]
    simp [hb]
  · rw [hrest, List.mem_map] at htk
    obtain ⟨t', ht', heq⟩ := htk
    obtain ⟨rfl, rfl⟩ := Prod.mk.inj heq
    rw [hmem, h.mem_rest hnd hs ht', quantityOf, withQuantity_ofNat_toNat]
  · rw [hmem, hleft, UInt64.ofNat_toNat]
    exact h.incoming
  · rw [hmem]
    exact h.mem t hts fun htd => ht (by rw [h.split]; exact List.mem_append_left _ htd)
  · rw [finishMatch_events, hreached]
    have := h.reported []
    rwa [fillsOf, List.append_nil, List.append_nil] at this

/-- The loop returned, having filled the order against the front order `r`. -/
theorem Swept.matched_of_return {r : Slot} (h : Swept e₀ s b opp done (r :: rest) st)
    (hnd : (e₀.side b opp).Nodup) (hs : s ∉ e₀.side b opp) (hc : crossing (e₀.mem s) e₀.mem r = true)
    (hle : (st.engine.mem s).quantity.toNat ≤ (e₀.mem r).quantity.toNat) {st' : MatchState π}
    (hside : st'.engine.side b opp =
      if (e₀.mem r).quantity.toNat = (st.engine.mem s).quantity.toNat then rest else r :: rest)
    (hother : ∀ b' x, (b', x) ≠ (b, opp) → st'.engine.side b' x = st.engine.side b' x)
    (hmem : st'.engine.mem = (st.engine.fill s r (st.engine.mem s).quantity).mem)
    (hreports : reports st'.events = reports st.events ++ fillReports s r
      ((st.engine.mem s).sub (st.engine.mem s).quantity) ((e₀.mem r).sub (st.engine.mem s).quantity)
      (st.engine.mem s).quantity) :
    Matched e₀ s b opp (finishMatch b s (st', true)) := by
  have hreached : reachedBy (e₀.mem s) e₀.mem (e₀.side b opp) = done ++ [r] := by
    simp [h.reached_eq, Sweep.reached, hc, quantityOf, Nat.not_lt.mpr hle]
  have hleft : leftOf (e₀.mem s) e₀.mem (e₀.side b opp) = 0 := by
    simp [h.left_eq, Sweep.left, hc, quantityOf, Nat.not_lt.mpr hle]
  have hrest : restAfter (e₀.mem s) e₀.mem (e₀.side b opp) =
      (if (e₀.mem r).quantity.toNat = (st.engine.mem s).quantity.toNat then []
        else [(r, (e₀.mem r).quantity.toNat - (st.engine.mem s).quantity.toNat)]) ++
        rest.map fun t => (t, quantityOf e₀.mem t) := by
    simp only [h.rest_eq, Sweep.rest, hc, quantityOf, Nat.not_lt.mpr hle, if_true, if_false]
    by_cases heq : (e₀.mem r).quantity.toNat = (st.engine.mem s).quantity.toNat <;> simp [heq]
  have hne : s ≠ r := by
    rintro rfl
    exact hs (by rw [h.split]; simp)
  have hr : st.engine.mem r = e₀.mem r := h.mem_rest hnd hs (List.mem_cons_self ..)
  have hfin : finishMatch b s (st', true) = (st'.engine, st'.events) := by simp [finishMatch]
  have hrr : r ∉ rest := by
    rw [h.split, List.nodup_append] at hnd
    exact (List.nodup_cons.mp hnd.2.1).1
  rw [hfin]
  refine ⟨?_, ?_, fun b' hb x => ?_, fun t k htk => ?_, fun hq => ?_, fun t hts ht => ?_, ?_⟩
  · rw [hside, hrest]
    split_ifs <;> simp [Function.comp_def]
  · rw [hother _ _ (by simp), h.other _ _ (by simp), hleft]
    simp
  · rw [hother _ _ (by simp [hb]), h.other _ _ (by simp [hb])]
  · show st'.engine.mem t = _
    rw [hmem]
    rw [hrest, List.mem_append] at htk
    rcases htk with htk | htk
    · split_ifs at htk with heq
      · cases htk
      · obtain ⟨rfl, rfl⟩ := Prod.mk.inj (List.mem_singleton.mp htk)
        rw [Engine.fill_mem_resting hne, hr, Order.sub]
        congr 1
        rw [← UInt64.toNat_inj, toNat_sub_of_toNat_le hle, UInt64.toNat_ofNat']
        have := (e₀.mem t).quantity.toNat_lt
        omega
    · obtain ⟨t', ht', heq⟩ := List.mem_map.mp htk
      obtain ⟨rfl, rfl⟩ := Prod.mk.inj heq
      have hts : t' ≠ s := by
        rintro rfl
        exact hs (by rw [h.split]; simp [ht'])
      have htr : t' ≠ r := fun htr => hrr (htr ▸ ht')
      rw [Engine.fill_mem_of_ne hts htr, h.mem_rest hnd hs (List.mem_cons_of_mem r ht'), quantityOf,
        withQuantity_ofNat_toNat]
  · rw [hleft] at hq
    exact absurd hq (Nat.lt_irrefl 0)
  · show st'.engine.mem t = _
    have htr : t ≠ r := by
      rintro rfl
      exact ht (by rw [h.split]; simp)
    rw [hmem, Engine.fill_mem_of_ne hts htr]
    exact h.mem t hts fun htd => ht (by rw [h.split]; exact List.mem_append_left _ htd)
  · show reports st'.events = _
    have := h.reported [r]
    rw [fillsOf, fillsOf, min_of_toNat_le hle, List.append_nil] at this
    rw [hreports, hreached, this]

/-- **Matching is a sweep.** -/
theorem matchOrder_swept (hnd : (e₀.side b opp).Nodup) (hs : s ∉ e₀.side b opp)
    (hbuy : (e₀.mem s).isBuy = !opp) {n : ℕ} {r : MatchState π × Bool}
    (hexit : Loop.run (matchTurn P b opp s) n ⟨e₀, 0, []⟩ = .exit r) :
    Matched e₀ s b opp (finishMatch b s r) := by
  obtain ⟨m, -, st, hrun, hturn⟩ := Loop.exit_cases hexit
  obtain ⟨done, rest, -, hsw⟩ := swept_of_again hnd hs hrun
  have hin := hsw.notMem hs
  have hcase := matchTurn_case P hsw.front hin
  rw [hturn] at hcase
  cases hcase with
  | empty hside =>
    rw [hsw.side] at hside
    exact hsw.matched_of_stop hnd hs hbuy (by simp [hside])
  | @miss r rest' hside hc =>
    rw [hsw.side] at hside
    subst hside
    rw [hsw.mem_rest hnd hs (List.mem_cons_self ..), hsw.crosses_eq] at hc
    exact hsw.matched_of_stop hnd hs hbuy (by simpa [crossing] using hc)
  | @complete r rest' hside hc heq =>
    rw [hsw.side] at hside
    subst hside
    have hr := hsw.mem_rest hnd hs (List.mem_cons_self ..)
    rw [hr] at hc heq ⊢
    rw [hsw.crosses_eq] at hc
    refine hsw.matched_of_return hnd hs hc (by rw [heq]) ?_ (fun b' x hbx => ?_) ?_ ?_
    · simp [heq]
    · simp [Engine.side_setSide_of_ne _ _ _ _ hbx]
    · simp [heq]
    · simp [heq]
  | @reduce r rest' hside hc hlt =>
    have hkeep := hside
    rw [hsw.side] at hside
    subst hside
    have hr := hsw.mem_rest hnd hs (List.mem_cons_self ..)
    rw [hr] at hc hlt ⊢
    rw [hsw.crosses_eq] at hc
    refine hsw.matched_of_return hnd hs hc hlt.le ?_ (fun b' x hbx => ?_) ?_ ?_
    · simp [hkeep, hlt.ne']
    · simp
    · simp
    · simp

end Loop

section Submit

variable {P : OrderPool π} {maxOrders : ℕ} {e : Engine π} {s : Slot} {p : π} {o : Order} {hand l : List Slot}
  {mem mem' : Slot → Order}

theorem reachedBy_congr (h : ∀ t ∈ l, mem t = mem' t) : reachedBy o mem l = reachedBy o mem' l :=
  Sweep.reached_congr (fun t ht => by rw [crossing, crossing, h t ht])
    (fun t ht => by rw [quantityOf, quantityOf, h t ht]) _

theorem leftOf_congr (h : ∀ t ∈ l, mem t = mem' t) : leftOf o mem l = leftOf o mem' l :=
  Sweep.left_congr (fun t ht => by rw [crossing, crossing, h t ht])
    (fun t ht => by rw [quantityOf, quantityOf, h t ht]) _

theorem restAfter_congr (h : ∀ t ∈ l, mem t = mem' t) : restAfter o mem l = restAfter o mem' l :=
  Sweep.rest_congr (fun t ht => by rw [crossing, crossing, h t ht])
    (fun t ht => by rw [quantityOf, quantityOf, h t ht]) _

theorem fillsOf_congr (h : ∀ t ∈ l, mem t = mem' t) : fillsOf s mem o l = fillsOf s mem' o l := by
  induction l generalizing o with
  | nil => rfl
  | cons r l ih =>
    rw [fillsOf, fillsOf, h r (List.mem_cons_self ..), ih fun t ht => h t (List.mem_cons_of_mem r ht)]

theorem reachedBy_subset {t : Slot} (h : t ∈ reachedBy o mem l) : t ∈ l :=
  (Sweep.reached_prefix _ _).subset h

/-- The opposite side of the book an order goes to. -/
def Engine.oppositeOf (e : Engine π) (o : Order) : List Slot := e.side o.bookIndex (!o.isBuy)

/-- The sweep of an order, seen from the engine that has stored it. -/
theorem reachedBy_accept (h : Rep P maxOrders e hand) (ha : P.acquire e.pool = some (s, p)) (o : Order) :
    reachedBy o (e.accept p s o).mem (e.oppositeOf o) = reachedBy o e.mem (e.oppositeOf o) :=
  reachedBy_congr fun _ ht => h.accept_mem ha ht

/-- The sides, as an order sees them: the opposite side of its book, its own, and those of
the other books. -/
theorem Order.side_cases (o : Order) (b : Fin 1024) (x : Bool) :
    b = o.bookIndex ∧ x = (!o.isBuy) ∨ b = o.bookIndex ∧ x = o.isBuy ∨ b ≠ o.bookIndex := by
  by_cases hb : b = o.bookIndex
  · by_cases hx : x = o.isBuy
    · exact Or.inr (Or.inl ⟨hb, hx⟩)
    · exact Or.inl ⟨hb, Bool.eq_not_of_ne hx⟩
  · exact Or.inr (Or.inr hb)

/-- **What a call of `submitOrder` does** to the engine `e`, when its order gets the slot `s`. -/
structure Submitted (e : Engine π) (o : Order) (s : Slot) (out : Engine π × List Event) : Prop where
  /-- The opposite side is what the order's sweep leaves of it. -/
  opposite : out.1.oppositeOf o = (restAfter o e.mem (e.oppositeOf o)).map Prod.fst
  /-- The order is added to its own side if anything is left of it. -/
  own : out.1.side o.bookIndex o.isBuy =
    e.side o.bookIndex o.isBuy ++ if 0 < leftOf o e.mem (e.oppositeOf o) then [s] else []
  /-- The other books are as they were. -/
  other : ∀ b, b ≠ o.bookIndex → ∀ x, out.1.side b x = e.side b x
  /-- The orders left on the opposite side have what the sweep leaves them. -/
  resting : ∀ t k, (t, k) ∈ restAfter o e.mem (e.oppositeOf o) →
    out.1.mem t = { e.mem t with quantity := UInt64.ofNat k }
  /-- The order, if it rests, has what is left of it. -/
  rested : 0 < leftOf o e.mem (e.oppositeOf o) →
    out.1.mem s = { o with quantity := UInt64.ofNat (leftOf o e.mem (e.oppositeOf o)) }
  /-- All other orders are as they were. -/
  mem : ∀ t, t ≠ s → t ∉ e.oppositeOf o → out.1.mem t = e.mem t
  /-- The reports are those of the orders reached. -/
  reported : reports out.2 = fillsOf s e.mem o (reachedBy o e.mem (e.oppositeOf o))

/-- The opposite side at the start of the loop: no order is there twice, nor is that of the call. -/
theorem Rep.start_side (h : Rep P maxOrders e hand) (ha : P.acquire e.pool = some (s, p)) (o : Order) :
    ((e.accept p s o).side o.bookIndex (!o.isBuy)).Nodup ∧ s ∉ (e.accept p s o).side o.bookIndex (!o.isBuy) :=
  ⟨h.side_nodup _ _, h.acquired_not_mem ha _ _⟩

/-- **A call is a sweep.** -/
theorem submitOrder_swept (h : Rep P maxOrders e hand) (ha : P.acquire e.pool = some (s, p)) (o : Order) :
    Submitted e o s (submitOrder P e o) := by
  obtain ⟨r, hexit, hsub⟩ := submitOrder_exit (o := o) h ha
  obtain ⟨hnd, hs⟩ := h.start_side ha o
  have hm : Matched (e.accept p s o) s o.bookIndex (!o.isBuy) (submitOrder P e o) := by
    rw [hsub]
    refine matchOrder_swept ?_ ?_ ?_ hexit
    · exact hnd
    · exact hs
    · simp
  have hmem (t : Slot) (ht : t ∈ e.side o.bookIndex (!o.isBuy)) :
      (e.accept p s o).mem t = e.mem t :=
    h.accept_mem ha ht
  have hopp := hm.opposite
  have hown := hm.own
  have hresting := hm.resting
  have hrested := hm.rested
  have hrep := hm.reported
  simp only [Engine.accept_mem_self, Engine.accept_side, Bool.not_not] at hopp hown hresting hrested hrep
  change ∀ t k, (t, k) ∈ restAfter o _ (e.side o.bookIndex (!o.isBuy)) → _ at hresting
  rw [restAfter_congr hmem] at hopp hresting
  rw [leftOf_congr hmem] at hown hrested
  rw [reachedBy_congr hmem, fillsOf_congr fun t ht => hmem t (reachedBy_subset ht)] at hrep
  refine ⟨hopp, hown, hm.other, fun t k htk => ?_, hrested, fun t hts ht => ?_, hrep⟩
  · rw [hresting t k htk, hmem t ((Sweep.rest_sublist _ _).subset (List.mem_map.mpr ⟨_, htk, rfl⟩))]
  · rw [hm.mem t hts ht, Engine.accept_mem_of_ne _ _ hts]

section Frames

variable {out : Engine π × List Event}

/-- An order of a side is in no other. -/
theorem Rep.side_unique (h : Rep P maxOrders e hand) {b b' : Fin 1024} {x x' : Bool} {t : Slot}
    (ht : t ∈ e.side b x) (ht' : t ∈ e.side b' x') : (b, x) = (b', x') := by
  obtain ⟨hx, hb⟩ := h.orders b x t ht
  obtain ⟨hx', hb'⟩ := h.orders b' x' t ht'
  rw [← hx, ← hb, hx', hb']

/-- A call leaves the orders outside the opposite side as they were. -/
theorem Submitted.mem_of_side (hsub : Submitted e o s out) (h : Rep P maxOrders e hand)
    (ha : P.acquire e.pool = some (s, p)) {b : Fin 1024} {x : Bool} {t : Slot} (ht : t ∈ e.side b x)
    (hne : (b, x) ≠ (o.bookIndex, !o.isBuy)) : out.1.mem t = e.mem t := by
  apply hsub.mem
  · rintro rfl
    exact h.acquired_not_mem ha b x ht
  · exact fun hopp => hne (h.side_unique ht hopp)

/-- An order left on the opposite side was there, with the same price. -/
theorem Submitted.mem_opposite (hsub : Submitted e o s out) {t : Slot} (ht : t ∈ out.1.oppositeOf o) :
    t ∈ e.oppositeOf o ∧ ∃ q, out.1.mem t = { e.mem t with quantity := q } := by
  rw [hsub.opposite] at ht
  obtain ⟨⟨t', k⟩, htk, rfl⟩ := List.mem_map.mp ht
  exact ⟨(Sweep.rest_sublist _ _).subset ht, _, hsub.resting t' k htk⟩

end Frames

/-- **The orders a call reaches**: `r` is on the opposite side, behind `pre`; it and those
before it cross, and the order has more quantity than those before it. -/
structure Reaches (P : OrderPool π) (e : Engine π) (o : Order) (pre : List Slot) (r : Slot)
    (post : List Slot) : Prop where
  /-- The order gets a slot. -/
  acquires : (P.acquire e.pool).isSome
  split : e.oppositeOf o = pre ++ r :: post
  crossed : ∀ t ∈ pre ++ [r], crossing o e.mem t = true
  lasts : pre = [] ∨ Sweep.total (quantityOf e.mem) pre < o.quantity.toNat

theorem mem_reachedBy_iff (ha : P.acquire e.pool = some (s, p)) {r : Slot} :
    r ∈ reachedBy o e.mem (e.oppositeOf o) ↔ ∃ pre post, Reaches P e o pre r post := by
  rw [reachedBy, Sweep.mem_reached_iff]
  constructor
  · rintro ⟨pre, post, hsplit, hok, hq⟩
    exact ⟨pre, post, by rw [ha]; rfl, hsplit, hok, hq⟩
  · rintro ⟨pre, post, -, hsplit, hok, hq⟩
    exact ⟨pre, post, hsplit, hok, hq⟩

/-- An order among those filled is reported as matched. -/
theorem exists_matched_fillsOf {r : Slot} (h : r ∈ l) :
    ∃ i t q, Report.matched s r i t q ∈ fillsOf s mem o l := by
  induction l generalizing o with
  | nil => cases h
  | cons r' l ih =>
    rcases List.mem_cons.mp h with rfl | h
    · exact ⟨_, _, _, List.mem_append_left _ (by simp [fillReports]; exact ⟨rfl, rfl, rfl⟩)⟩
    · obtain ⟨i, t, q, hm⟩ := ih h
      exact ⟨i, t, q, List.mem_append_right _ hm⟩

theorem mem_of_matched_fillsOf {s' r : Slot} {i t : Order} {q : UInt64}
    (h : Report.matched s' r i t q ∈ fillsOf s mem o l) : r ∈ l := by
  induction l generalizing o with
  | nil => cases h
  | cons r' l ih =>
    rcases List.mem_append.mp h with h | h
    · obtain ⟨-, rfl, -⟩ : s' = s ∧ r = r' ∧ _ := by simpa [fillReports] using h
      exact List.mem_cons_self ..
    · exact List.mem_cons_of_mem r' (ih h)

end Submit

end Scrimmage.Market
