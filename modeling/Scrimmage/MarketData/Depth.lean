import Scrimmage.MarketData.OrderBookFeed
import Scrimmage.Theory.Transition

/-!
# What a side of the feed shows

A side of the feed is cut to its best `maxLevels` orders, and what is cut off is not kept.
When an order of the side is removed later, or is given a worse price, there may be one
that was cut off and is better, and it does not come back.

## What is proved

* `showsBest_upsert_new`: an order put in leaves the side with the best of what is live.
  `showsBest_upsert_held`, `showsBest_remove_held` say when one that is updated, or removed,
  does.
* `shows_best_iff`: the sides show the best of what is live all along a run exactly when
  every call does (`KeepsBest`). `best_not_shown` is a run with a call that does not.
-/

namespace Scrimmage.MarketData

open Theory

variable {ρ : Type} [LinearOrder ρ]

/-- A live order that is missing from a side. -/
def Missing (side : Bool) (calls : List (FeedCall ρ)) (book : List (Order ρ)) (o : Order ρ) : Prop :=
  latest side o.id calls = some o ∧ o ∉ book

/-- **The side shows the best of what is live**: if it is short of an order, it holds
`maxLevels` with a price at least as good. -/
def ShowsBest (maxLevels : ℕ) (side : Bool) (calls : List (FeedCall ρ)) (book : List (Order ρ)) : Prop :=
  ∀ o, Missing side calls book o → book.length = maxLevels ∧ ∀ o' ∈ book, AtLeastAsGood side o' o

/-- **The calls that keep a side's best**: one that removes an order of the side, when the
side is short of none; one that updates an order of the side, when its price is at least as
good as that of each order the side is short of; and any other. -/
def KeepsBest (feed : OrderBookFeed ρ) (calls : List (FeedCall ρ)) : FeedCall ρ → Prop
  | .upsert side order => order.id ∈ (feed.side side).map Order.id →
    ∀ o, Missing side calls (feed.side side) o → AtLeastAsGood side order o
  | .remove side id => id ∈ (feed.side side).map Order.id → ∀ o, ¬ Missing side calls (feed.side side) o

section Prices

variable {side : Bool} {a b c : Order ρ}

theorem not_before : ¬ before side b a ↔ AtLeastAsGood side a b := by
  cases side <;> exact not_lt

theorem AtLeastAsGood.trans (h : AtLeastAsGood side a b) (h' : AtLeastAsGood side b c) : AtLeastAsGood side a c := by
  cases side
  · exact le_trans (α := ρ) h h'
  · exact le_trans (α := ρ) h' h

theorem AtLeastAsGood.total (side : Bool) (a b : Order ρ) : AtLeastAsGood side a b ∨ AtLeastAsGood side b a := by
  cases side
  · exact le_total a.price b.price
  · exact le_total b.price a.price

end Prices

section Side

variable {S : StdSort ρ} {maxLevels n : ℕ} {side : Bool} {order : Order ρ} {id : UInt64}
  {calls : List (FeedCall ρ)} {book : List (Order ρ)}

/-- What is missing after an `upsert`, whatever the side holds then of the orders put in. -/
theorem missing_upsert_iff (h : Held maxLevels side calls book) {o : Order ρ} {book' : List (Order ρ)}
    (hsub : book'.Sublist (S.sort n side (KeyedList.upsert Order.id order book))) :
    Missing side (calls ++ [.upsert side order]) book' o ↔
      (o ∈ S.sort n side (KeyedList.upsert Order.id order book) ∧ o ∉ book') ∨
        (Missing side calls book o ∧ o.id ≠ order.id) := by
  unfold Missing
  rw [latest_upsert]
  constructor
  · rintro ⟨hlive, hnot⟩
    split_ifs at hlive with hid
    · refine Or.inl ⟨?_, hnot⟩
      rw [h.mem_sort]
      exact Or.inl (Option.some.inj hlive).symm
    · have hne : o.id ≠ order.id := fun heq => hid ⟨rfl, heq.symm⟩
      by_cases ho : o ∈ book
      · exact Or.inl ⟨h.mem_sort.mpr (Or.inr ⟨ho, hne⟩), hnot⟩
      · exact Or.inr ⟨⟨hlive, ho⟩, hne⟩
  · rintro (⟨ho, hnot⟩ | ⟨⟨hlive, ho⟩, hne⟩)
    · refine ⟨?_, hnot⟩
      have := h.latest_sort ho
      rwa [latest_upsert] at this
    · refine ⟨by rwa [if_neg fun hc => hne hc.2.symm], fun hmem => ?_⟩
      rcases h.mem_sort.mp (hsub.subset hmem) with rfl | ⟨hmem, -⟩
      · exact hne rfl
      · exact ho hmem

omit [LinearOrder ρ] in
theorem missing_remove_iff {o : Order ρ} :
    Missing side (calls ++ [.remove side id]) (book.filter fun o => !(o.id == id)) o ↔
      Missing side calls book o ∧ o.id ≠ id := by
  unfold Missing
  rw [latest_remove]
  by_cases hid : o.id = id
  · simp [hid]
  · simp [hid, Ne.symm hid]

/-- An order of an id the side holds is not missing. -/
theorem Missing.id_notMem {o : Order ρ} (ho : Missing side calls book o) (h : Held maxLevels side calls book) :
    o.id ∉ book.map Order.id := by
  intro hmem
  obtain ⟨o', ho', hid⟩ := List.mem_map.mp hmem
  have hlatest := h.latest o' ho'
  rw [hid, ho.1] at hlatest
  exact ho.2 (Option.some.inj hlatest ▸ ho')

/-- **An order that is put in** leaves the best of what is live. -/
theorem showsBest_upsert_new (h : Held maxLevels side calls book) (hbest : ShowsBest maxLevels side calls book)
    (hid : order.id ∉ book.map Order.id) :
    ShowsBest maxLevels side (calls ++ [.upsert side order])
      ((S.sort n side (KeyedList.upsert Order.id order book)).take maxLevels) := by
  intro o ho
  rw [missing_upsert_iff h (List.take_sublist ..)] at ho
  have hlen : (S.sort n side (KeyedList.upsert Order.id order book)).length = book.length + 1 := by
    rw [(S.perm ..).length_eq, KeyedList.upsert_of_notMem hid, List.length_append, List.length_singleton]
  have hmem {o' : Order ρ} : o' ∈ S.sort n side (KeyedList.upsert Order.id order book) → _ := h.mem_sort.mp
  have hnd : (S.sort n side (KeyedList.upsert Order.id order book)).Nodup := h.nodup_sort.of_map
  have hsorted := S.sorted n side (KeyedList.upsert Order.id order book)
  generalize S.sort n side (KeyedList.upsert Order.id order book) = l at ho hlen hmem hnd hsorted
  have hcut {o₁ o₂ : Order ρ} (h₁ : o₁ ∈ l.take maxLevels) (h₂ : o₂ ∈ l.drop maxLevels) : AtLeastAsGood side o₁ o₂ := by
    rw [← List.take_append_drop maxLevels l, List.pairwise_append] at hsorted
    exact not_before.mp (hsorted.2.2 o₁ h₁ o₂ h₂)
  rcases ho with ⟨ho, hnot⟩ | ⟨ho, -⟩
  · -- the order is cut off now
    have hdrop : o ∈ l.drop maxLevels := by
      rw [← List.take_append_drop maxLevels l] at ho
      exact (List.mem_append.mp ho).resolve_left hnot
    have hlt := List.length_pos_of_mem hdrop
    rw [List.length_drop] at hlt
    exact ⟨by rw [List.length_take]; omega, fun o' ho' => hcut ho' hdrop⟩
  · -- it was cut off before, when the side was full
    obtain ⟨hfull, hgood⟩ := hbest o ho
    refine ⟨by rw [List.length_take]; omega, fun o' ho' => ?_⟩
    rcases hmem (List.mem_of_mem_take ho') with rfl | ⟨hold, -⟩
    · obtain ⟨o'', ho''⟩ : ∃ o'', o'' ∈ l.drop maxLevels := by
        apply List.exists_mem_of_length_pos
        rw [List.length_drop]
        omega
      rcases hmem (List.mem_of_mem_drop ho'') with rfl | ⟨hold, -⟩
      · exact absurd ho'' (List.disjoint_take_drop hnd le_rfl ho')
      · exact (hcut ho' ho'').trans (hgood o'' hold)
    · exact hgood o' hold

/-- **An order that is updated** leaves the best of what is live exactly when none that is
missing is better than it is now. -/
theorem showsBest_upsert_held (h : Held maxLevels side calls book) (hbest : ShowsBest maxLevels side calls book)
    (hid : order.id ∈ book.map Order.id) :
    ShowsBest maxLevels side (calls ++ [.upsert side order])
        ((S.sort n side (KeyedList.upsert Order.id order book)).take maxLevels) ↔
      ∀ o, Missing side calls book o → AtLeastAsGood side order o := by
  have hlen : (S.sort n side (KeyedList.upsert Order.id order book)).length = book.length := by
    rw [(S.perm ..).length_eq, ← List.length_map Order.id, KeyedList.map_upsert_of_mem hid, List.length_map]
  rw [List.take_of_length_le (by rw [hlen]; exact h.length_le)]
  have hmissing {o : Order ρ} :
      Missing side (calls ++ [.upsert side order]) (S.sort n side (KeyedList.upsert Order.id order book)) o ↔
        Missing side calls book o := by
    rw [missing_upsert_iff h (List.Sublist.refl _)]
    constructor
    · rintro (⟨ho, hnot⟩ | ⟨ho, -⟩)
      · exact absurd ho hnot
      · exact ho
    · exact fun ho => Or.inr ⟨ho, fun heq => ho.id_notMem h (heq ▸ hid)⟩
  constructor
  · intro hshows o ho
    exact (hshows o (hmissing.mpr ho)).2 order (h.mem_sort.mpr (Or.inl rfl))
  · intro hall o ho
    obtain ⟨hfull, hgood⟩ := hbest o (hmissing.mp ho)
    refine ⟨hlen.trans hfull, fun o' ho' => ?_⟩
    rcases h.mem_sort.mp ho' with rfl | ⟨hold, -⟩
    · exact hall o (hmissing.mp ho)
    · exact hgood o' hold

/-- **An order that is removed** leaves the best of what is live exactly when none is missing. -/
theorem showsBest_remove_held (h : Held maxLevels side calls book) (hid : id ∈ book.map Order.id) :
    ShowsBest maxLevels side (calls ++ [.remove side id]) (book.filter fun o => !(o.id == id)) ↔
      ∀ o, ¬ Missing side calls book o := by
  have hlt : (book.filter fun o => !(o.id == id)).length < maxLevels := by
    obtain ⟨o, ho, hoid⟩ := List.mem_map.mp hid
    refine lt_of_lt_of_le ?_ h.length_le
    exact List.length_filter_lt_length_iff_exists.mpr ⟨o, ho, by simp [hoid]⟩
  constructor
  · intro hshows o ho
    have hne : o.id ≠ id := fun heq => ho.id_notMem h (heq ▸ hid)
    have := (hshows o (missing_remove_iff.mpr ⟨ho, hne⟩)).1
    omega
  · exact fun hnone o ho => absurd (missing_remove_iff.mp ho).1 (hnone o)

/-- The removal of an order that the side does not hold. -/
theorem showsBest_remove_new (hbest : ShowsBest maxLevels side calls book) (hid : id ∉ book.map Order.id) :
    ShowsBest maxLevels side (calls ++ [.remove side id]) (book.filter fun o => !(o.id == id)) := by
  have hsame : book.filter (fun o => !(o.id == id)) = book := by
    refine List.filter_eq_self.mpr fun o ho => ?_
    have hne : o.id ≠ id := fun heq => hid (heq ▸ List.mem_map_of_mem ho)
    simpa using hne
  intro o ho
  rw [hsame]
  exact hbest o (missing_remove_iff.mp ho).1

/-- The other side, after a call. -/
theorem showsBest_other {c : FeedCall ρ} (hbest : ShowsBest maxLevels (!c.side) calls book) :
    ShowsBest maxLevels (!c.side) (calls ++ [c]) book := by
  intro o ho
  rw [Missing, latest_not] at ho
  exact hbest o ho

end Side

/-- **What a call does to sides that show the best of what is live.** -/
theorem showsBest_call_iff {S : StdSort ρ} {maxLevels n : ℕ} {calls : List (FeedCall ρ)} {feed : OrderBookFeed ρ}
    (h : ∀ side, Held maxLevels side calls (feed.side side))
    (hbest : ∀ side, ShowsBest maxLevels side calls (feed.side side)) (c : FeedCall ρ) :
    (∀ side, ShowsBest maxLevels side (calls ++ [c]) ((feed.call S maxLevels n c).side side)) ↔
      KeepsBest feed calls c := by
  have hown : (∀ side, ShowsBest maxLevels side (calls ++ [c]) ((feed.call S maxLevels n c).side side)) ↔
      ShowsBest maxLevels c.side (calls ++ [c]) ((feed.call S maxLevels n c).side c.side) := by
    refine ⟨fun hall => hall _, fun hc side => ?_⟩
    by_cases hside : side = c.side
    · rwa [hside]
    · obtain rfl : side = !c.side := Bool.eq_not_of_ne hside
      rw [side_call_not]
      exact showsBest_other (hbest _)
  rw [hown]
  cases c with
  | upsert side order =>
    change ShowsBest maxLevels side _ ((feed.upsert S maxLevels n side order).side side) ↔ (_ → _)
    rw [side_upsert]
    by_cases hid : order.id ∈ (feed.side side).map Order.id
    · rw [showsBest_upsert_held (h side) (hbest side) hid]
      simp [hid]
    · exact iff_of_true (showsBest_upsert_new (h side) (hbest side) hid) fun hmem => absurd hmem hid
  | remove side id =>
    change ShowsBest maxLevels side _ ((feed.remove side id).side side) ↔ (_ → _)
    rw [side_remove]
    by_cases hid : id ∈ (feed.side side).map Order.id
    · rw [showsBest_remove_held (h side) hid]
      simp [hid]
    · exact iff_of_true (showsBest_remove_new (hbest side) hid) fun hmem => absurd hmem hid

/-- **When the sides show the best of what is live**: in every state of a run, exactly when
every call of the run keeps it. -/
theorem shows_best_iff (S : StdSort ρ) (maxLevels : ℕ) (calls : List (FeedCall ρ)) :
    (∀ k ≤ calls.length, ∀ side, ShowsBest maxLevels side (calls.take k)
        ((OrderBookFeed.run S maxLevels (calls.take k)).side side)) ↔
      ∀ k < calls.length, ∀ c ∈ calls[k]?, KeepsBest (OrderBookFeed.run S maxLevels (calls.take k)) (calls.take k) c := by
  refine holds_along_iff (I := fun k => ∀ side, ShowsBest maxLevels side (calls.take k)
    ((OrderBookFeed.run S maxLevels (calls.take k)).side side)) (fun side o ho => ?_) fun k hk hbest => ?_
  · cases ho.1
  · have hget : calls[k]? = some calls[k] := List.getElem?_eq_getElem hk
    simp only [hget, Option.mem_some_iff, forall_eq']
    rw [← List.take_concat_get' calls k hk, run_snoc]
    exact showsBest_call_iff (held_run S maxLevels (calls.take k)) hbest calls[k]

/-! ### An order that does not come back -/

/-- A sort that leaves the orders of one price as they come. -/
def StdSort.insertion (ρ : Type) [LinearOrder ρ] : StdSort ρ where
  sort _ side book := book.insertionSort fun a b => ¬ before side b a
  perm _ _ book := List.perm_insertionSort _ book
  sorted _ side book := by
    have : Std.Total fun a b : Order ρ => ¬ before side b a := by
      refine ⟨fun a b => ?_⟩
      rw [not_before, not_before]
      exact AtLeastAsGood.total side a b
    have : IsTrans (Order ρ) fun a b => ¬ before side b a :=
      ⟨fun _ _ _ hab hbc => not_before.mpr ((not_before.mp hab).trans (not_before.mp hbc))⟩
    exact List.pairwise_insertionSort _ book

/-- A bid of one lot. -/
def bid (id : UInt64) (price : ℕ) : Order ℕ := ⟨id, price, 1⟩

/-- With one level, a bid at 20 takes the place of a bid at 10. When it is removed the side
is empty, though the bid at 10 is still live. -/
theorem best_not_shown :
    let calls : List (FeedCall ℕ) := [.upsert true (bid 1 10), .upsert true (bid 2 20), .remove true 2]
    ¬ ShowsBest 1 true calls ((OrderBookFeed.run (.insertion ℕ) 1 calls).side true) := by
  intro calls hshows
  have hempty : (OrderBookFeed.run (.insertion ℕ) 1 calls).side true = [] := by decide
  have hmissing : Missing true calls ((OrderBookFeed.run (.insertion ℕ) 1 calls).side true) (bid 1 10) := by
    rw [hempty]
    exact ⟨by decide, by simp⟩
  have hfull := (hshows _ hmissing).1
  rw [hempty] at hfull
  cases hfull

end Scrimmage.MarketData
