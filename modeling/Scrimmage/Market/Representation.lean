import Scrimmage.Market.MatchTurn
import Scrimmage.Theory.Transition
import Mathlib.Data.List.Perm.Basic
import Mathlib.Data.List.Flatten
import Mathlib.Tactic.Tauto

/-!
# The slots of the engine

Where the pool's slots are, over every run of `submitOrder`: `Rep` is the
representation invariant of the engine, over all 1024 books at once, while some acquired
slots are in hand; `CallRep` adds what a call in progress has released and how many
slots have been lost. `Stocked` says which orders rest with quantity left.

## What is proved

* `slots_well_held`: the representation invariant holds in every state reached, and
  every call releases only slots that are out, each once, none that a book still holds.
* `accounted_iff`: no slot is lost along a run exactly when no call is of an order
  without quantity that meets no crossing order. Such an order is neither filled, so
  that `matchOrder` would return and release its slot, nor has it quantity left, so
  that it would rest: `slot_lost`.
-/

namespace Scrimmage.Market

open Theory

variable {π : Type}

/-! ### The slots in the books -/

/-- Every slot of every book, over all the books and both sides. -/
def held (e : Engine π) : List Slot :=
  (List.finRange 1024).flatMap fun b => e.side b true ++ e.side b false

theorem mem_held {e : Engine π} {s : Slot} : s ∈ held e ↔ ∃ b x, s ∈ e.side b x := by
  simp only [held, List.mem_flatMap, List.mem_finRange, true_and, List.mem_append]
  constructor
  · rintro ⟨b, h | h⟩
    · exact ⟨b, true, h⟩
    · exact ⟨b, false, h⟩
  · rintro ⟨b, _ | _, h⟩
    · exact ⟨b, Or.inr h⟩
    · exact ⟨b, Or.inl h⟩

theorem held_create (P : OrderPool π) (maxOrders : ℕ) : held (Engine.create P maxOrders) = [] :=
  List.flatMap_eq_nil_iff.mpr fun _ _ => rfl

section Same

variable (P : OrderPool π) (e : Engine π) (b : Fin 1024) (x : Bool) (l : List Slot) (s r : Slot) (p : π)

@[simp] theorem held_release : held (e.release P s) = held e := rfl

@[simp] theorem held_fill (q : UInt64) : held (e.fill s r q) = held e := rfl

@[simp] theorem held_accept (o : Order) : held (e.accept p s o) = held e := rfl

@[simp] theorem held_setSide_release : held ((e.release P s).setSide b x l) = held (e.setSide b x l) := rfl

@[simp] theorem held_setSide_fill (q : UInt64) :
    held ((e.fill s r q).setSide b x l) = held (e.setSide b x l) := rfl

end Same

/-- The slots in the books are those of one side and, whatever that side is, the rest. -/
theorem held_setSide (e : Engine π) (b : Fin 1024) (x : Bool) :
    ∃ c, ∀ l, (held (e.setSide b x l)).Perm (l ++ c) := by
  have hperm := List.perm_cons_erase (List.mem_finRange b)
  have hrest (l : List Slot) : ((List.finRange 1024).erase b).flatMap
      (fun b' => (e.setSide b x l).side b' true ++ (e.setSide b x l).side b' false) =
      ((List.finRange 1024).erase b).flatMap fun b' => e.side b' true ++ e.side b' false := by
    refine List.flatMap_congr fun b' hb' => ?_
    have hne : b' ≠ b := ((List.nodup_finRange 1024).mem_erase_iff.mp hb').1
    rw [Engine.side_setSide_of_ne _ _ _ _ (by simp [hne]), Engine.side_setSide_of_ne _ _ _ _ (by simp [hne])]
  refine ⟨e.side b (!x) ++ ((List.finRange 1024).erase b).flatMap fun b' => e.side b' true ++ e.side b' false,
    fun l => ?_⟩
  have h := hperm.flatMap_right fun b' => (e.setSide b x l).side b' true ++ (e.setSide b x l).side b' false
  rw [List.flatMap_cons, hrest] at h
  refine h.trans ?_
  rw [← List.append_assoc]
  refine List.Perm.append_right _ ?_
  cases x with
  | true =>
    rw [Engine.side_setSide_same, Engine.side_setSide_of_ne _ _ _ _ (by simp)]
    rfl
  | false =>
    rw [Engine.side_setSide_same, Engine.side_setSide_of_ne _ _ _ _ (by simp)]
    exact List.perm_append_comm

/-- The front order of a side leaves the books. -/
theorem held_pop {e : Engine π} {b : Fin 1024} {x : Bool} {s : Slot} {l : List Slot}
    (h : e.side b x = s :: l) : (held e).Perm (s :: held (e.setSide b x l)) := by
  obtain ⟨c, hc⟩ := held_setSide e b x
  have h₁ := hc (s :: l)
  rw [← h, Engine.setSide_side] at h₁
  refine h₁.trans ?_
  rw [h, List.cons_append]
  exact ((hc l).symm.cons s)

/-- An order comes to rest. -/
theorem held_push (e : Engine π) (b : Fin 1024) (x : Bool) (s : Slot) :
    (held (e.setSide b x (e.side b x ++ [s]))).Perm (s :: held e) := by
  obtain ⟨c, hc⟩ := held_setSide e b x
  have h₁ := hc (e.side b x)
  rw [Engine.setSide_side] at h₁
  refine (hc _).trans ?_
  rw [List.append_assoc]
  exact List.perm_middle.trans (h₁.symm.cons s)

/-! ### The representation -/

/-- **The representation invariant**, while the slots `hand` are acquired and in no book:
the incoming order's during a call, and between calls those that an exception left in hand. -/
structure Rep (P : OrderPool π) (maxOrders : ℕ) (e : Engine π) (hand : List Slot) : Prop where
  /-- The pool has its `maxOrders` slots. -/
  slots : P.maxOrders e.pool = maxOrders
  /-- No slot is held twice, over all the books together. -/
  nodup : (hand ++ held e).Nodup
  /-- Every slot held is out. -/
  out : ∀ s ∈ hand ++ held e, s ∈ P.acquired e.pool
  /-- The orders of a side are of that side, and hash to the book. -/
  orders : ∀ b x, ∀ s ∈ e.side b x, (e.mem s).isBuy = x ∧ (e.mem s).bookIndex = b

namespace Rep

variable {P : OrderPool π} {maxOrders : ℕ} {e : Engine π} {hand : List Slot} {b : Fin 1024} {x : Bool}
  {s r : Slot} {rest : List Slot}

theorem create (P : OrderPool π) (maxOrders : ℕ) : Rep P maxOrders (Engine.create P maxOrders) [] where
  slots := P.maxOrders_create maxOrders
  nodup := by simp [held_create]
  out := by simp [held_create]
  orders b x s hs := by simp at hs

/-- A slot in hand is in no book. -/
theorem not_mem_side (h : Rep P maxOrders e (s :: hand)) (b : Fin 1024) (x : Bool) : s ∉ e.side b x := by
  have := h.nodup
  simp only [List.cons_append, List.nodup_cons, List.mem_append, not_or] at this
  exact fun hs => this.1.2 (mem_held.mpr ⟨b, x, hs⟩)

/-- The front order of a side is at no other place. -/
theorem front_unique (h : Rep P maxOrders e hand) (hs : e.side b x = r :: rest) {b' : Fin 1024} {x' : Bool}
    (hr : r ∈ (e.setSide b x rest).side b' x') : False := by
  have hnd := (List.nodup_append.mp h.nodup).2.1
  have hp := (held_pop hs).nodup_iff.mp hnd
  exact (List.nodup_cons.mp hp).1 (mem_held.mpr ⟨b', x', hr⟩)

/-- A side without its front order is part of the side. -/
theorem mem_of_mem_pop (hs : e.side b x = r :: rest) {b' : Fin 1024} {x' : Bool}
    (h : s ∈ (e.setSide b x rest).side b' x') : s ∈ e.side b' x' := by
  by_cases hb : (b', x') = (b, x)
  · obtain ⟨rfl, rfl⟩ := Prod.mk.inj hb
    rw [Engine.side_setSide_same] at h
    rw [hs]
    exact List.mem_cons_of_mem r h
  · rwa [Engine.side_setSide_of_ne _ _ _ _ hb] at h

/-- A side holds no order twice. -/
theorem side_nodup (h : Rep P maxOrders e hand) (b : Fin 1024) (x : Bool) : (e.side b x).Nodup := by
  obtain ⟨c, hc⟩ := held_setSide e b x
  have hp := hc (e.side b x)
  rw [Engine.setSide_side] at hp
  have hnd := hp.nodup_iff.mp (List.nodup_append.mp h.nodup).2.1
  exact (List.nodup_append.mp hnd).1

/-- A slot that is acquired was neither in hand nor in a book. -/
theorem acquired_not_mem_held (h : Rep P maxOrders e hand) {p : π} (ha : P.acquire e.pool = some (s, p)) :
    s ∉ hand ++ held e :=
  fun hs => (P.acquire_eq_some ha).1 (h.out s hs)

/-- A slot that is acquired is in no book. -/
theorem acquired_not_mem (h : Rep P maxOrders e hand) {p : π} (ha : P.acquire e.pool = some (s, p)) (b : Fin 1024)
    (x : Bool) : s ∉ e.side b x :=
  fun hs => h.acquired_not_mem_held ha (List.mem_append_right _ (mem_held.mpr ⟨b, x, hs⟩))

/-- A slot is acquired and an order stored in it. -/
theorem acquire (h : Rep P maxOrders e hand) {p : π} (ha : P.acquire e.pool = some (s, p)) (o : Order) :
    Rep P maxOrders (e.accept p s o) (s :: hand) := by
  obtain ⟨-, heq, hmax⟩ := P.acquire_eq_some ha
  refine ⟨hmax.trans h.slots, List.nodup_cons.mpr ⟨h.acquired_not_mem_held ha, h.nodup⟩, fun t ht => ?_,
    fun b x t ht => ?_⟩
  · show t ∈ P.acquired p
    rw [heq]
    rcases List.mem_cons.mp ht with rfl | ht
    · exact Finset.mem_insert_self ..
    · exact Finset.mem_insert_of_mem (h.out t ht)
  · have hne : t ≠ s := fun hts => h.acquired_not_mem ha b x (hts ▸ ht)
    rw [Engine.accept_mem_of_ne _ _ hne]
    exact h.orders b x t ht

/-- The orders that rest are as they were when the order of the call is stored. -/
theorem accept_mem (h : Rep P maxOrders e hand) {p : π} (ha : P.acquire e.pool = some (s, p)) {b : Fin 1024} {x : Bool}
    {t : Slot} (ht : t ∈ e.side b x) {o : Order} : (e.accept p s o).mem t = e.mem t := by
  apply Engine.accept_mem_of_ne
  rintro rfl
  exact h.acquired_not_mem ha b x ht

/-- What is left of the sides when the front order has been filled is as it was. -/
theorem mem_pop (h : Rep P maxOrders e (s :: hand)) (hs : e.side b x = r :: rest) (q : UInt64) {b' : Fin 1024}
    {x' : Bool} {t : Slot} (ht : t ∈ (e.setSide b x rest).side b' x') :
    t ∈ e.side b' x' ∧ (e.fill s r q).mem t = e.mem t := by
  have hte := mem_of_mem_pop hs ht
  have hts : t ≠ s := fun hts => h.not_mem_side b' x' (hts ▸ hte)
  have htr : t ≠ r := fun htr => h.front_unique hs (htr ▸ ht)
  exact ⟨hte, Engine.fill_mem_of_ne hts htr⟩

/-- The front order is filled and leaves. -/
theorem consume (h : Rep P maxOrders e (s :: hand)) (hs : e.side b x = r :: rest) (q : UInt64) :
    Rep P maxOrders (((e.fill s r q).release P r).setSide b x rest) (s :: hand) := by
  have hpop := held_pop hs
  have hperm : ((s :: hand) ++ held e).Perm (r :: ((s :: hand) ++ held (e.setSide b x rest))) :=
    (hpop.append_left _).trans List.perm_middle
  have hnd := List.nodup_cons.mp (hperm.nodup_iff.mp h.nodup)
  have hrout : r ∈ P.acquired e.pool := h.out r (hperm.mem_iff.mpr (List.mem_cons_self ..))
  refine ⟨(P.release_acquired hrout).2.trans h.slots, by simpa using hnd.2, ?_, ?_⟩
  · rw [held_setSide_release, held_setSide_fill]
    intro t ht
    show t ∈ P.acquired (P.release e.pool r)
    rw [(P.release_acquired hrout).1]
    exact Finset.mem_erase.mpr ⟨fun htr => hnd.1 (htr ▸ ht), h.out t (hperm.mem_iff.mpr (List.mem_cons_of_mem r ht))⟩
  · intro b' x' t ht
    obtain ⟨hte, hmem⟩ := h.mem_pop hs q ht
    show ((e.fill s r q).mem t).isBuy = x' ∧ ((e.fill s r q).mem t).bookIndex = b'
    rw [hmem]
    exact h.orders b' x' t hte

/-- The front order trades with that in hand, and stays. -/
theorem fill (h : Rep P maxOrders e (s :: hand)) (r : Slot) (q : UInt64) :
    Rep P maxOrders (e.fill s r q) (s :: hand) := by
  refine ⟨h.slots, h.nodup, h.out, fun b' x' t ht => ?_⟩
  have hts : t ≠ s := fun hts => h.not_mem_side b' x' (hts ▸ ht)
  have ho := h.orders b' x' t ht
  by_cases htr : t = r
  · subst htr
    rw [Engine.fill_mem_resting hts.symm]
    exact ho
  · rw [Engine.fill_mem_of_ne hts htr]
    exact ho

/-- A slot in hand is released. -/
theorem release (h : Rep P maxOrders e (s :: hand)) : Rep P maxOrders (e.release P s) hand := by
  have hnd := List.nodup_cons.mp h.nodup
  have hout : s ∈ P.acquired e.pool := h.out s (List.mem_cons_self ..)
  refine ⟨(P.release_acquired hout).2.trans h.slots, hnd.2, fun t ht => ?_, h.orders⟩
  rw [Engine.release_pool, (P.release_acquired hout).1]
  exact Finset.mem_erase.mpr ⟨fun hts => hnd.1 (hts ▸ ht), h.out t (List.mem_cons_of_mem s ht)⟩

/-- The order in hand comes to rest. -/
theorem push (h : Rep P maxOrders e (s :: hand)) :
    Rep P maxOrders (e.setSide (e.mem s).bookIndex (e.mem s).isBuy
      (e.side (e.mem s).bookIndex (e.mem s).isBuy ++ [s])) hand := by
  have hperm := (held_push e (e.mem s).bookIndex (e.mem s).isBuy s).append_left hand |>.trans List.perm_middle
  refine ⟨h.slots, hperm.nodup_iff.mpr h.nodup, fun t ht => h.out t (hperm.mem_iff.mp ht), fun b' x' t ht => ?_⟩
  · by_cases hb : (b', x') = ((e.mem s).bookIndex, (e.mem s).isBuy)
    · obtain ⟨rfl, rfl⟩ := Prod.mk.inj hb
      rw [Engine.side_setSide_same] at ht
      rcases List.mem_append.mp ht with ht | ht
      · exact h.orders _ _ t ht
      · rw [List.mem_singleton.mp ht]
        exact ⟨rfl, rfl⟩
    · rw [Engine.side_setSide_of_ne _ _ _ _ hb] at ht
      exact h.orders b' x' t ht

/-- A slot in hand is forgotten: it stays out. -/
theorem forget (h : Rep P maxOrders e (s :: hand)) : Rep P maxOrders e hand :=
  ⟨h.slots, (List.nodup_cons.mp h.nodup).2, fun t ht => h.out t (List.mem_cons_of_mem s ht), h.orders⟩

/-- The slots that are out are at least those in hand and in the books. -/
theorem exists_lost (h : Rep P maxOrders e hand) :
    ∃ lost, (P.acquired e.pool).card = (hand ++ held e).length + lost := by
  have hsub : (hand ++ held e).toFinset ⊆ P.acquired e.pool := fun s hs => h.out s (List.mem_toFinset.mp hs)
  have := Finset.card_le_card hsub
  rw [List.toFinset_card_of_nodup h.nodup] at this
  exact Nat.exists_eq_add_of_le this

end Rep

/-! ### The slots of one call -/

/-- The slots a call releases, in order. -/
def releases (events : List Event) : List Slot :=
  events.filterMap fun
    | .release s => some s
    | .report _ => none

@[simp] theorem releases_append (l l' : List Event) : releases (l ++ l') = releases l ++ releases l' :=
  List.filterMap_append

@[simp] theorem releases_release (s : Slot) : releases [.release s] = [s] := rfl

@[simp] theorem releases_report (l : List (Report Slot)) : releases (l.map .report) = [] := by
  simp [releases, List.filterMap_map]

/-- The callbacks among the calls the engine made. -/
def reports (events : List Event) : List (Report Slot) :=
  events.filterMap fun
    | .report r => some r
    | .release _ => none

@[simp] theorem reports_append (l l' : List Event) : reports (l ++ l') = reports l ++ reports l' :=
  List.filterMap_append

@[simp] theorem reports_nil : reports [] = [] := rfl

@[simp] theorem reports_release (s : Slot) (l : List Event) : reports (.release s :: l) = reports l := rfl

@[simp] theorem reports_report (l : List (Report Slot)) : reports (l.map .report) = l := by
  simp [reports, List.filterMap_map]

/-- The pool after the releases among some calls. -/
def poolAfter (P : OrderPool π) (p : π) (events : List Event) : π := (releases events).foldl P.release p

/-- Slots that are out, released once each, are out no longer. -/
theorem acquired_foldl_release (P : OrderPool π) : ∀ (l : List Slot) (p : π), l.Nodup →
    (∀ s ∈ l, s ∈ P.acquired p) → P.acquired (l.foldl P.release p) = P.acquired p \ l.toFinset
  | [], p, _, _ => by simp
  | s :: l, p, hnd, hout => by
    have hs := P.release_acquired (hout s (List.mem_cons_self ..))
    have hnd := List.nodup_cons.mp hnd
    have hl (t : Slot) (ht : t ∈ l) : t ∈ P.acquired (P.release p s) := by
      rw [hs.1]
      exact Finset.mem_erase.mpr ⟨fun hts => hnd.1 (hts ▸ ht), hout t (List.mem_cons_of_mem s ht)⟩
    rw [List.foldl_cons, acquired_foldl_release P l _ hnd.2 hl, hs.1]
    ext t
    simp only [Finset.mem_sdiff, Finset.mem_erase, List.mem_toFinset, List.mem_cons]
    tauto

/-- **A point of a call** that had the pool `p₀` after its `acquire`: the representation
invariant; each release so far was of a slot that was out, once; and `lost` of the slots
that are out are neither in hand nor in a book. -/
structure CallRep (P : OrderPool π) (maxOrders : ℕ) (p₀ : π) (lost : ℕ) (e : Engine π)
    (hand : List Slot) (events : List Event) : Prop extends Rep P maxOrders e hand where
  replay : e.pool = poolAfter P p₀ events
  released_nodup : (releases events).Nodup
  released_out : ∀ s ∈ releases events, s ∈ P.acquired p₀
  card : (P.acquired e.pool).card = (hand ++ held e).length + lost

namespace CallRep

variable {P : OrderPool π} {maxOrders : ℕ} {p₀ : π} {lost : ℕ} {e e' : Engine π}
  {hand hand' : List Slot} {events : List Event} {b : Fin 1024} {x : Bool} {s r : Slot} {rest : List Slot}

/-- The slots that are out: those that were, less those released. -/
theorem acquired_eq (h : CallRep P maxOrders p₀ lost e hand events) :
    P.acquired e.pool = P.acquired p₀ \ (releases events).toFinset := by
  rw [h.replay]
  exact acquired_foldl_release P _ p₀ h.released_nodup h.released_out

/-- The calls of callbacks release nothing. -/
theorem report (h : CallRep P maxOrders p₀ lost e hand events) (l : List (Report Slot)) :
    CallRep P maxOrders p₀ lost e hand (events ++ l.map .report) where
  toRep := h.toRep
  replay := by simpa [poolAfter] using h.replay
  released_nodup := by simpa using h.released_nodup
  released_out := by simpa using h.released_out
  card := h.card

/-- One more slot is released: it was out, and is now neither in hand nor in a book. -/
theorem release_one (h : CallRep P maxOrders p₀ lost e hand events) (hr : r ∈ P.acquired e.pool)
    (hpool : e'.pool = P.release e.pool r) (hrep : Rep P maxOrders e' hand')
    (hlen : (hand' ++ held e').length + 1 = (hand ++ held e).length) :
    CallRep P maxOrders p₀ lost e' hand' (events ++ [.release r]) := by
  have hout := hr
  rw [h.acquired_eq, Finset.mem_sdiff, List.mem_toFinset] at hout
  refine ⟨hrep, ?_, ?_, fun t ht => ?_, ?_⟩
  · rw [hpool, h.replay]
    simp [poolAfter]
  · rw [releases_append, releases_release, List.nodup_append]
    refine ⟨h.released_nodup, List.nodup_singleton r, fun t ht t' ht' htt => hout.2 ?_⟩
    rwa [← List.mem_singleton.mp ht', ← htt]
  · rw [releases_append, releases_release, List.mem_append, List.mem_singleton] at ht
    rcases ht with ht | rfl
    · exact h.released_out t ht
    · exact hout.1
  · have := P.card_release hr
    have := h.card
    rw [hpool]
    omega

theorem consume (h : CallRep P maxOrders p₀ lost e (s :: hand) events) (hs : e.side b x = r :: rest)
    (q : UInt64) :
    CallRep P maxOrders p₀ lost (((e.fill s r q).release P r).setSide b x rest) (s :: hand)
      (events ++ [.release r]) := by
  refine h.release_one (h.out r ?_) rfl (h.toRep.consume hs q) ?_
  · exact List.mem_append_right _ (mem_held.mpr ⟨b, x, by rw [hs]; exact List.mem_cons_self ..⟩)
  · have := (held_pop hs).length_eq
    simp only [held_setSide_release, held_setSide_fill, List.length_append, List.length_cons] at this ⊢
    omega

theorem fill (h : CallRep P maxOrders p₀ lost e (s :: hand) events) (r : Slot) (q : UInt64) :
    CallRep P maxOrders p₀ lost (e.fill s r q) (s :: hand) events :=
  { h with toRep := h.toRep.fill r q }

theorem release (h : CallRep P maxOrders p₀ lost e (s :: hand) events) :
    CallRep P maxOrders p₀ lost (e.release P s) hand (events ++ [.release s]) := by
  refine h.release_one (h.out s (List.mem_cons_self ..)) rfl h.toRep.release ?_
  simp only [held_release, List.length_append, List.length_cons]
  omega

theorem push (h : CallRep P maxOrders p₀ lost e (s :: hand) events) :
    CallRep P maxOrders p₀ lost (e.setSide (e.mem s).bookIndex (e.mem s).isBuy
      (e.side (e.mem s).bookIndex (e.mem s).isBuy ++ [s])) hand events where
  toRep := h.toRep.push
  replay := h.replay
  released_nodup := h.released_nodup
  released_out := h.released_out
  card := by
    have := (held_push e (e.mem s).bookIndex (e.mem s).isBuy s).length_eq
    have := h.card
    simp only [Engine.setSide_pool, List.length_append, List.length_cons] at *
    omega

/-- A slot forgotten is lost. -/
theorem forget (h : CallRep P maxOrders p₀ lost e (s :: hand) events) :
    CallRep P maxOrders p₀ (lost + 1) e hand events :=
  { h with
    toRep := h.toRep.forget
    card := by
      have := h.card
      simp only [List.length_append, List.length_cons] at *
      omega }

end CallRep

/-! ### The loop and the call -/

section Call

variable {P : OrderPool π} {maxOrders : ℕ} {p₀ : π} {lost : ℕ} {e : Engine π} {s : Slot} {hand : List Slot}
  {b : Fin 1024} {opp : Bool}

/-- The invariant of the matching loop of the order in slot `s`: the index is at the
front, the representation holds with `s` in hand, and a loop whose order has no quantity
is at its first turn, from `st₀`. -/
structure LoopRep (P : OrderPool π) (maxOrders : ℕ) (p₀ : π) (lost : ℕ) (s : Slot) (hand : List Slot)
    (b : Fin 1024) (opp : Bool) (st₀ st : MatchState π) : Prop extends
    CallRep P maxOrders p₀ lost st.engine (s :: hand) st.events where
  front : st.i = 0
  isBuy : (st.engine.mem s).isBuy = !opp
  book : (st.engine.mem s).bookIndex = b
  first : (st.engine.mem s).quantity.toNat = 0 → st = st₀

/-- The loop starts with the order of the call in hand. -/
theorem CallRep.loopRep (h : CallRep P maxOrders p₀ lost e (s :: hand) []) (hb : (e.mem s).bookIndex = b) :
    LoopRep P maxOrders p₀ lost s hand b (!(e.mem s).isBuy) ⟨e, 0, []⟩ ⟨e, 0, []⟩ :=
  ⟨h, rfl, by simp, hb, fun _ => rfl⟩

/-- How the loop is left: by its `return` with the order filled and its slot released,
or else with nothing on the opposite side that crosses at the front. -/
def LoopLeft (P : OrderPool π) (maxOrders : ℕ) (p₀ : π) (lost : ℕ) (s : Slot) (hand : List Slot)
    (b : Fin 1024) (opp : Bool) (st₀ : MatchState π) (r : MatchState π × Bool) : Prop :=
  if r.2 then CallRep P maxOrders p₀ lost r.1.engine hand r.1.events
  else LoopRep P maxOrders p₀ lost s hand b opp st₀ r.1 ∧
    ∀ t ∈ (r.1.engine.side b opp).head?, (r.1.engine.mem s).crosses (r.1.engine.mem t) = false

/-- **What one turn preserves**; a turn that goes round again leaves one order less. -/
theorem matchTurn_rep {st₀ st : MatchState π} (h : LoopRep P maxOrders p₀ lost s hand b opp st₀ st) :
    Loop.Sat (fun st' => LoopRep P maxOrders p₀ lost s hand b opp st₀ st' ∧
        (st'.engine.side b opp).length < (st.engine.side b opp).length)
      (LoopLeft P maxOrders p₀ lost s hand b opp st₀) (matchTurn P b opp s st) := by
  have hnot := h.not_mem_side b opp
  have hcase := matchTurn_case P h.front hnot
  generalize matchTurn P b opp s st = t at hcase
  cases hcase with
  | empty hs => exact ⟨h, by simp [hs]⟩
  | miss hs hc => exact ⟨h, by simpa [hs] using hc⟩
  | consume hs hc hlt =>
    rename_i r rest
    have hne : s ≠ r := List.ne_of_not_mem_cons (hs ▸ hnot)
    refine ⟨⟨(h.report _).consume hs _, rfl, ?_, ?_, fun hq => ?_⟩, by simp [hs]⟩
    · simpa [Engine.fill_mem_incoming hne] using h.isBuy
    · simpa [Engine.fill_mem_incoming hne] using h.book
    · simp only [Engine.setSide_mem, Engine.release_mem, Engine.fill_mem_incoming hne,
        Order.sub_quantity, toNat_sub_of_toNat_le hlt.le] at hq
      omega
  | complete hs hc heq => exact ((h.report _).consume hs _).release
  | reduce hs hc hlt => exact ((h.report _).fill _ _).release

/-- **The loop leaves**, with what `LoopLeft` says. -/
theorem matchLoop_rep (h : LoopRep P maxOrders p₀ lost s hand b (!(e.mem s).isBuy) ⟨e, 0, []⟩ ⟨e, 0, []⟩) :
    ∃ r, matchLoop P e b s ((e.side b (!(e.mem s).isBuy)).length + 1) = .exit r ∧
      LoopLeft P maxOrders p₀ lost s hand b (!(e.mem s).isBuy) ⟨e, 0, []⟩ r := by
  have hturn (st : MatchState π) (hst : LoopRep P maxOrders p₀ lost s hand b (!(e.mem s).isBuy) ⟨e, 0, []⟩ st) :=
    matchTurn_rep hst
  exact Loop.run_exits (fun st => (st.engine.side b (!(e.mem s).isBuy)).length) hturn h (Nat.lt_succ_self _)

/-- The order in slot `s` has no quantity, and nothing at the front of the opposite side
crosses its price. -/
def Stuck (e : Engine π) (b : Fin 1024) (s : Slot) : Prop :=
  (e.mem s).quantity.toNat = 0 ∧
    ∀ t ∈ (e.side b (!(e.mem s).isBuy)).head?, (e.mem s).crosses (e.mem t) = false

/-- An order that is not stuck comes to rest or its slot is released. -/
theorem matchOrder_rep (h : CallRep P maxOrders p₀ lost e (s :: hand) []) (hb : (e.mem s).bookIndex = b)
    (hstuck : ¬ Stuck e b s) :
    CallRep P maxOrders p₀ lost (matchOrder P e b s).1 hand (matchOrder P e b s).2 := by
  obtain ⟨r, hr, hleft⟩ := matchLoop_rep (h.loopRep hb)
  unfold matchOrder
  rw [hr]
  unfold LoopLeft at hleft
  unfold finishMatch
  cases hret : r.2 with
  | true => simpa [hret] using hleft
  | false =>
    obtain ⟨hloop, hfront⟩ : LoopRep P maxOrders p₀ lost s hand b _ _ r.1 ∧ _ := by simpa [hret] using hleft
    by_cases hq : (r.1.engine.mem s).quantity > 0
    · simp only [hret, hq, and_self, if_true]
      have hpush := hloop.push
      rwa [hloop.book] at hpush
    · -- with no quantity left the loop is at its first turn, where the order was stuck
      exfalso
      have hq : (r.1.engine.mem s).quantity.toNat = 0 := by
        simpa [UInt64.lt_iff_toNat_lt] using hq
      have hfirst := hloop.first hq
      rw [hfirst] at hq hfront
      exact hstuck ⟨hq, hfront⟩

/-- A stuck order's call changes nothing: its slot is lost. -/
theorem matchOrder_of_stuck (hin : s ∉ e.side b (!(e.mem s).isBuy)) (hstuck : Stuck e b s) :
    matchOrder P e b s = (e, []) := by
  have hturn : matchTurn P b (!(e.mem s).isBuy) s ⟨e, 0, []⟩ = .exit (⟨e, 0, []⟩, false) := by
    have hcase : TurnCase P b (!(e.mem s).isBuy) s ⟨e, 0, []⟩ _ := matchTurn_case P rfl hin
    generalize matchTurn P b (!(e.mem s).isBuy) s ⟨e, 0, []⟩ = t at hcase
    cases hcase with
    | empty | miss => rfl
    | consume hs hc | complete hs hc | reduce hs hc =>
      have := hstuck.2
      simp_all
  have hq : ¬ (e.mem s).quantity > 0 := by
    have := hstuck.1
    simpa [UInt64.lt_iff_toNat_lt] using this
  simp [matchOrder, matchLoop, Loop.run_of_exit hturn, finishMatch, hq]

end Call

/-- **The calls that lose a slot**: the pool has a slot, the order has no quantity, and
the front of the opposite side does not cross its price. -/
def Leaks (P : OrderPool π) (e : Engine π) (o : Order) : Prop :=
  (P.acquire e.pool).isSome ∧ o.quantity = 0 ∧
    ∀ t ∈ (e.side o.bookIndex (!o.isBuy)).head?, o.crosses (e.mem t) = false

instance (P : OrderPool π) (e : Engine π) (o : Order) : Decidable (Leaks P e o) :=
  inferInstanceAs (Decidable (_ ∧ _ ∧ _))

section Submit

variable {P : OrderPool π} {maxOrders lost : ℕ} {e : Engine π} {s : Slot} {hand : List Slot} {p : π} {o : Order}

theorem submitOrder_of_none (ha : P.acquire e.pool = none) : submitOrder P e o = (e, []) := by
  simp [submitOrder, ha]

/-- A slot acquired and the order stored: the start of the matching of a call. -/
theorem callRep_acquire (h : Rep P maxOrders e hand) (hcard : (P.acquired e.pool).card = (hand ++ held e).length + lost)
    (ha : P.acquire e.pool = some (s, p)) :
    CallRep P maxOrders p lost (e.accept p s o) (s :: hand) [] where
  toRep := h.acquire ha o
  replay := rfl
  released_nodup := List.nodup_nil
  released_out t ht := by cases ht
  card := by
    have := P.card_acquire ha
    show (P.acquired p).card = (s :: hand ++ held e).length + lost
    rw [List.cons_append, List.length_cons]
    omega

/-- The front of a side, seen from the call that has stored its order. -/
theorem stuck_store_iff (h : Rep P maxOrders e hand) (ha : P.acquire e.pool = some (s, p)) :
    Stuck (e.accept p s o) o.bookIndex s ↔ Leaks P e o := by
  unfold Stuck Leaks
  rw [Engine.accept_mem_self, Engine.accept_side, ha]
  have hq : o.quantity.toNat = 0 ↔ o.quantity = 0 := by
    rw [← UInt64.toNat_zero, UInt64.toNat_inj]
  rw [hq]
  simp only [Option.isSome_some, true_and]
  refine and_congr_right fun _ => forall₂_congr fun t ht => ?_
  rw [h.accept_mem ha (List.mem_of_mem_head? ht)]

/-- **What a call of `submitOrder` preserves.** -/
theorem submitOrder_rep (h : Rep P maxOrders e hand)
    (hcard : (P.acquired e.pool).card = (hand ++ held e).length + lost) (ha : P.acquire e.pool = some (s, p)) :
    CallRep P maxOrders p (lost + if Leaks P e o then 1 else 0) (submitOrder P e o).1 hand
      (submitOrder P e o).2 := by
  have hcall := callRep_acquire (o := o) h hcard ha
  have hstuck := stuck_store_iff (o := o) h ha
  have hsub : submitOrder P e o =
      matchOrder P (e.accept p s o) o.bookIndex s := by simp [submitOrder, ha]
  rw [hsub]
  by_cases hl : Leaks P e o
  · rw [if_pos hl, matchOrder_of_stuck (hcall.not_mem_side _ _) (hstuck.mpr hl)]
    exact hcall.forget
  · rw [if_neg hl]
    exact matchOrder_rep hcall (by simp) (mt hstuck.mp hl)

/-- The loop of a call starts with the order in the slot it has got. -/
theorem Rep.start (h : Rep P maxOrders e hand) (ha : P.acquire e.pool = some (s, p)) (o : Order) :
    ∃ lost, LoopRep P maxOrders p lost s hand o.bookIndex (!o.isBuy) ⟨e.accept p s o, 0, []⟩
      ⟨e.accept p s o, 0, []⟩ := by
  obtain ⟨lost, hlost⟩ := h.exists_lost
  have hcall := callRep_acquire (o := o) h hlost ha
  have hloop := hcall.loopRep (congrArg Order.bookIndex (Engine.accept_mem_self ..))
  rw [Engine.accept_mem_self] at hloop
  exact ⟨lost, hloop⟩

/-- A call of `submitOrder` runs the loop of the order it has stored, and leaves it. -/
theorem submitOrder_exit (h : Rep P maxOrders e hand) (ha : P.acquire e.pool = some (s, p)) :
    ∃ r, Loop.run (matchTurn P o.bookIndex (!o.isBuy) s) ((e.side o.bookIndex (!o.isBuy)).length + 1)
        ⟨e.accept p s o, 0, []⟩ = .exit r ∧
      submitOrder P e o = finishMatch o.bookIndex s r := by
  obtain ⟨lost, hlost⟩ := h.exists_lost
  have hcall := callRep_acquire (o := o) h hlost ha
  obtain ⟨r, hr, -⟩ := matchLoop_rep (hcall.loopRep (congrArg Order.bookIndex (Engine.accept_mem_self ..)))
  have hmatch := hr
  rw [matchLoop, Engine.accept_mem_self] at hr
  refine ⟨r, hr, ?_⟩
  simp only [submitOrder, ha, matchOrder, hmatch]

end Submit

/-! ### What rests has quantity -/

/-- The orders in the slots `S` have quantity left, if they rest. -/
def Stocked (S : Slot → Prop) (e : Engine π) : Prop := ∀ t ∈ held e, S t → 0 < (e.mem t).quantity.toNat

section Stocked

variable {P : OrderPool π} {maxOrders lost : ℕ} {p₀ : π} {e : Engine π} {s r : Slot} {hand rest : List Slot}
  {b : Fin 1024} {x opp : Bool} {q : UInt64} {S : Slot → Prop}

/-- Fewer of the orders have quantity left. -/
theorem Stocked.mono {S' : Slot → Prop} (hst : Stocked S e) (h : ∀ t ∈ held e, S' t → S t) : Stocked S' e :=
  fun t ht hS => hst t ht (h t ht hS)

/-- A new order is stored. -/
theorem Stocked.accept (hst : Stocked S e) (h : Rep P maxOrders e hand) {p : π} (ha : P.acquire e.pool = some (s, p))
    (o : Order) : Stocked S (e.accept p s o) := by
  intro t ht hS
  obtain ⟨b, x, hb⟩ := mem_held.mp ht
  rw [h.accept_mem ha hb]
  exact hst t ht hS

/-- The front order is filled and leaves. -/
theorem Stocked.pop (hst : Stocked S e) (h : Rep P maxOrders e (s :: hand)) (hs : e.side b x = r :: rest) (q : UInt64) :
    Stocked S (((e.fill s r q).release P r).setSide b x rest) := by
  intro t ht hS
  obtain ⟨b', x', ht⟩ := mem_held.mp ht
  obtain ⟨hte, hmem⟩ := h.mem_pop hs q ht
  show 0 < ((e.fill s r q).mem t).quantity.toNat
  rw [hmem]
  exact hst t (mem_held.mpr ⟨b', x', hte⟩) hS

/-- The front order is filled in part, and stays. -/
theorem Stocked.fill (hst : Stocked S e) (h : Rep P maxOrders e (s :: hand))
    (hq : q.toNat < (e.mem r).quantity.toNat) : Stocked S (e.fill s r q) := by
  intro t ht hS
  have hts : t ≠ s := by
    rintro rfl
    obtain ⟨b, x, hb⟩ := mem_held.mp ht
    exact h.not_mem_side b x hb
  by_cases htr : t = r
  · subst htr
    rw [Engine.fill_mem_resting hts.symm, Order.sub_quantity, toNat_sub_of_toNat_le hq.le]
    omega
  · rw [Engine.fill_mem_of_ne hts htr]
    exact hst t ht hS

theorem matchTurn_stocked {st₀ st : MatchState π} (h : LoopRep P maxOrders p₀ lost s hand b opp st₀ st)
    (hst : Stocked S st.engine) :
    Loop.Sat (fun st' => Stocked S st'.engine) (fun r => Stocked S r.1.engine) (matchTurn P b opp s st) := by
  have hcase := matchTurn_case P h.front (h.not_mem_side b opp)
  generalize matchTurn P b opp s st = t at hcase
  cases hcase with
  | empty hs => exact hst
  | miss hs hc => exact hst
  | consume hs hc hlt => exact hst.pop h.toRep hs _
  | complete hs hc heq => exact hst.pop h.toRep hs _
  | reduce hs hc hlt => exact hst.fill h.toRep hlt

theorem run_matchTurn_stocked {st₀ st : MatchState π} (h : LoopRep P maxOrders p₀ lost s hand b opp st₀ st)
    (hst : Stocked S st.engine) (n : ℕ) :
    Loop.Sat (fun st' => LoopRep P maxOrders p₀ lost s hand b opp st₀ st' ∧ Stocked S st'.engine)
      (fun r => Stocked S r.1.engine) (Loop.run (matchTurn P b opp s) n st) := by
  refine Loop.run_sat (fun st' hst' => ?_) n ⟨h, hst⟩
  have hturn := (matchTurn_rep hst'.1).and (matchTurn_stocked hst'.1 hst'.2)
  exact hturn.mono (fun _ hs => ⟨hs.1.1, hs.2⟩) fun _ hr => hr.2

/-- An order comes to rest only with quantity left. -/
theorem Stocked.finish {r : MatchState π × Bool} (hst : Stocked S r.1.engine) : Stocked S (finishMatch b s r).1 := by
  simp only [finishMatch]
  split_ifs with hq
  · intro t ht hS
    rcases List.mem_cons.mp ((held_push ..).mem_iff.mp ht) with rfl | ht
    · exact UInt64.lt_iff_toNat_lt.mp hq.2
    · exact hst t ht hS
  · exact hst

/-- **What a call does**: the orders that rest have quantity left, but for those that had none. -/
theorem Stocked.submit (hst : Stocked S e) (h : Rep P maxOrders e hand) (o : Order) : Stocked S (submitOrder P e o).1 := by
  cases ha : P.acquire e.pool with
  | none => rwa [submitOrder_of_none ha]
  | some a =>
    obtain ⟨s, p⟩ := a
    obtain ⟨lost, hloop⟩ := h.start ha o
    obtain ⟨r, hexit, hsub⟩ := submitOrder_exit (o := o) h ha
    have hleft := run_matchTurn_stocked hloop (hst.accept h ha o) ((e.side o.bookIndex (!o.isBuy)).length + 1)
    rw [hexit] at hleft
    rw [hsub]
    exact Stocked.finish hleft

end Stocked

/-! ### Runs -/

section Runs

variable {P : OrderPool π} {maxOrders : ℕ} {e : Engine π} {hand : List Slot}

theorem runOrders_snoc (P : OrderPool π) (maxOrders : ℕ) (orders : List Order) (o : Order) :
    runOrders P maxOrders (orders ++ [o]) = (submitOrder P (runOrders P maxOrders orders) o).1 := by
  simp [runOrders]

theorem runOrders_take_succ (P : OrderPool π) (maxOrders : ℕ) {orders : List Order} {k : ℕ}
    (hk : k < orders.length) :
    runOrders P maxOrders (orders.take (k + 1)) =
      (submitOrder P (runOrders P maxOrders (orders.take k)) orders[k]).1 := by
  rw [← List.take_concat_get' orders k hk, runOrders_snoc]

/-- **An invariant of every call is an invariant of every run.** -/
theorem runOrders_induction {I : Engine π → Prop} (h0 : I (Engine.create P maxOrders))
    (hstep : ∀ e o, I e → I (submitOrder P e o).1) (orders : List Order) :
    I (runOrders P maxOrders orders) := by
  induction orders using List.reverseRecOn with
  | nil => exact h0
  | append_singleton orders o ih =>
    rw [runOrders_snoc]
    exact hstep _ o ih

/-- The representation invariant over a call. -/
theorem Rep.submit (h : Rep P maxOrders e hand) (o : Order) : Rep P maxOrders (submitOrder P e o).1 hand := by
  cases ha : P.acquire e.pool with
  | none => rwa [submitOrder_of_none ha]
  | some a =>
    obtain ⟨lost, hlost⟩ := h.exists_lost
    exact (submitOrder_rep h hlost ha).toRep

theorem rep_runOrders (P : OrderPool π) (maxOrders : ℕ) (orders : List Order) :
    Rep P maxOrders (runOrders P maxOrders orders) [] :=
  runOrders_induction (I := fun e => Rep P maxOrders e []) (Rep.create P maxOrders)
    (fun _ o h => h.submit o) orders

/-- Over every run all orders that rest have quantity left. -/
theorem stocked_runOrders (P : OrderPool π) (maxOrders : ℕ) (orders : List Order) :
    Stocked (fun _ => True) (runOrders P maxOrders orders) := by
  induction orders using List.reverseRecOn with
  | nil =>
    intro t ht
    rw [show runOrders P maxOrders [] = Engine.create P maxOrders from rfl, held_create] at ht
    cases ht
  | append_singleton orders o ih =>
    rw [runOrders_snoc]
    exact ih.submit (rep_runOrders P maxOrders orders) o

/-- **A property that one call keeps exactly when `C` does holds all along a run exactly
when `C` holds at each of its calls.** -/
theorem runOrders_iff {I : Engine π → Prop} {C : Engine π → Order → Prop} (h0 : I (Engine.create P maxOrders))
    (hstep : ∀ e o, Rep P maxOrders e [] → I e → (I (submitOrder P e o).1 ↔ C e o)) (orders : List Order) :
    (∀ k ≤ orders.length, I (runOrders P maxOrders (orders.take k))) ↔
      ∀ k (hk : k < orders.length), C (runOrders P maxOrders (orders.take k)) orders[k] := by
  have h := holds_along_iff (I := fun k => I (runOrders P maxOrders (orders.take k)))
    (C := fun k => ∀ hk : k < orders.length, C (runOrders P maxOrders (orders.take k)) orders[k]) h0
    fun k hk hI => by
      rw [runOrders_take_succ P maxOrders hk, hstep _ _ (rep_runOrders P maxOrders (orders.take k)) hI]
      exact ⟨fun hc _ => hc, fun hc => hc hk⟩
  exact h.trans ⟨fun hall k hk => hall k hk hk, fun hall k hk _ => hall k hk⟩

/-- The pool a call releases into: the one its `acquire` left. -/
def acquiredPool (P : OrderPool π) (e : Engine π) : π := ((P.acquire e.pool).map Prod.snd).getD e.pool

theorem Rep.held_length_le (h : Rep P maxOrders e []) : (held e).length ≤ maxOrders := by
  obtain ⟨lost, hlost⟩ := h.exists_lost
  have := P.card_acquired_le e.pool
  rw [h.slots, hlost, List.nil_append] at this
  omega

/-- An order of either side of a book has quantity left and hashes to the book. -/
theorem Rep.rests (h : Rep P maxOrders e []) (hst : Stocked (fun _ => True) e) {b : Fin 1024} {s : Slot}
    (hs : s ∈ (e.books b).buyOrders ++ (e.books b).sellOrders) :
    (e.mem s).quantity > 0 ∧ (e.mem s).bookIndex = b := by
  obtain ⟨x, hx⟩ : ∃ x, s ∈ e.side b x := by
    rcases List.mem_append.mp hs with hs | hs
    · exact ⟨true, hs⟩
    · exact ⟨false, hs⟩
  exact ⟨UInt64.lt_iff_toNat_lt.mpr (hst s (mem_held.mpr ⟨b, x, hx⟩) trivial), (h.orders b x s hx).2⟩

/-- **What a call releases**: a slot that is out, and that no book holds after it. -/
theorem Rep.release_out (h : Rep P maxOrders e []) {s₀ : Slot} {p : π} (ha : P.acquire e.pool = some (s₀, p))
    {o : Order} {pre post : List Event} {s : Slot} (hev : (submitOrder P e o).2 = pre ++ .release s :: post) :
    s ∈ P.acquired (poolAfter P p pre) ∧ s ∉ held (submitOrder P e o).1 := by
  obtain ⟨lost, hlost⟩ := h.exists_lost
  have hcall := submitOrder_rep (o := o) h hlost ha
  have hrel : releases (submitOrder P e o).2 = releases pre ++ s :: releases post := by
    rw [hev]
    simp [releases]
  have hnd := hcall.released_nodup
  have hout := hcall.released_out
  have hacq := hcall.acquired_eq
  rw [hrel] at hnd hout hacq
  have hpre : (releases pre).Nodup := (List.nodup_append.mp hnd).1
  have hs : s ∉ releases pre := fun hs => (List.nodup_append.mp hnd).2.2 s hs s (List.mem_cons_self ..) rfl
  refine ⟨?_, fun hheld => ?_⟩
  · rw [poolAfter, acquired_foldl_release P _ p hpre fun t ht => hout t (List.mem_append_left _ ht)]
    exact Finset.mem_sdiff.mpr ⟨hout s (by simp), by simpa using hs⟩
  · have := hcall.out s (by simpa using hheld)
    rw [hacq] at this
    simp at this

/-- **The slots of the engine, over every run.** In every state reached, over all 1024
books together: no slot appears twice, every slot held is out, at most `maxOrders` are
held, every order of a side is of that side, has quantity left and hashes to its book.
And the next call, whatever its order: releases a slot only when it is out, each at most
once, and never one that a book holds when the call returns. -/
theorem slots_well_held (P : OrderPool π) (maxOrders : ℕ) (orders : List Order) (o : Order) :
    let e := runOrders P maxOrders orders
    let call := submitOrder P e o
    ((held e).Nodup ∧ (∀ s ∈ held e, s ∈ P.acquired e.pool) ∧ (held e).length ≤ maxOrders ∧
      (∀ b, (∀ s ∈ (e.books b).buyOrders, (e.mem s).isBuy = true) ∧
        ∀ s ∈ (e.books b).sellOrders, (e.mem s).isBuy = false) ∧
      ∀ b, ∀ s ∈ (e.books b).buyOrders ++ (e.books b).sellOrders,
        (e.mem s).quantity > 0 ∧ (e.mem s).bookIndex = b) ∧
    (call.1.pool = poolAfter P (acquiredPool P e) call.2 ∧ (releases call.2).Nodup ∧
      ∀ pre s post, call.2 = pre ++ .release s :: post →
        s ∈ P.acquired (poolAfter P (acquiredPool P e) pre) ∧ s ∉ held call.1) := by
  have h := rep_runOrders P maxOrders orders
  have hst := stocked_runOrders P maxOrders orders
  generalize runOrders P maxOrders orders = e at h hst
  refine ⟨⟨by simpa using h.nodup, fun s hs => h.out s (by simpa using hs), h.held_length_le,
    fun b => ⟨fun s hs => (h.orders b true s hs).1, fun s hs => (h.orders b false s hs).1⟩,
    fun b s hs => h.rests hst hs⟩, ?_⟩
  cases ha : P.acquire e.pool with
  | none => simp [submitOrder_of_none ha, poolAfter, releases, acquiredPool, ha]
  | some a =>
    obtain ⟨s₀, p⟩ := a
    obtain ⟨lost, hlost⟩ := h.exists_lost
    have hcall := submitOrder_rep (o := o) h hlost ha
    have hp : acquiredPool P e = p := by simp [acquiredPool, ha]
    rw [hp]
    exact ⟨hcall.replay, hcall.released_nodup, fun pre s post hev => h.release_out ha hev⟩

/-! ### Lost slots -/

/-- No slot is lost: the slots that are out are as many as the books hold, so that an
order is dropped only when `maxOrders` orders rest. -/
def Accounted (P : OrderPool π) (maxOrders : ℕ) (e : Engine π) : Prop :=
  (P.acquired e.pool).card = (held e).length ∧ (P.acquire e.pool = none → (held e).length = maxOrders)

theorem Rep.accounted_iff_card (h : Rep P maxOrders e []) :
    Accounted P maxOrders e ↔ (P.acquired e.pool).card = (held e).length := by
  refine ⟨And.left, fun hc => ⟨hc, fun hn => ?_⟩⟩
  rw [← hc, (P.acquire_eq_none_iff_card).mp hn, h.slots]

/-- **A call keeps the slots accounted for exactly when it does not lose its own.** -/
theorem accounted_submit_iff (h : Rep P maxOrders e []) (hacc : Accounted P maxOrders e) (o : Order) :
    Accounted P maxOrders (submitOrder P e o).1 ↔ ¬ Leaks P e o := by
  rw [(h.submit o).accounted_iff_card]
  cases ha : P.acquire e.pool with
  | none =>
    have hl : ¬ Leaks P e o := fun hl => by simp [Leaks, ha] at hl
    simpa [submitOrder_of_none ha, hl] using hacc.1
  | some a =>
    have hcard : (P.acquired e.pool).card = ([] ++ held e).length + 0 := by
      rw [hacc.1, List.nil_append, Nat.add_zero]
    have := (submitOrder_rep (o := o) h hcard ha).card
    rw [List.nil_append] at this
    split_ifs at this with hl <;> simp [hl] <;> omega

/-- **When the pool does not leak**: in every state of a run the slots are accounted for,
exactly when no call of the run is of an order without quantity that meets no crossing
order at the front of the opposite side. -/
theorem accounted_iff (P : OrderPool π) (maxOrders : ℕ) (orders : List Order) :
    (∀ k ≤ orders.length, Accounted P maxOrders (runOrders P maxOrders (orders.take k))) ↔
      ∀ k (hk : k < orders.length), ¬ Leaks P (runOrders P maxOrders (orders.take k)) orders[k] := by
  have hcreate : Accounted P maxOrders (Engine.create P maxOrders) := by
    rw [(Rep.create P maxOrders).accounted_iff_card, held_create]
    simp
  exact runOrders_iff (C := fun e o => ¬ Leaks P e o) hcreate
    (fun e o h hacc => accounted_submit_iff h hacc o) orders

/-- An order to buy nothing. -/
def emptyOrder : Order := { orderId := 1, price := 100, quantity := 0, isBuy := true, symbol := Vector.replicate 16 65 }

/-- An order without quantity takes the only slot, rests in no book, and every order
after it is dropped. -/
theorem slot_lost : ¬ Accounted firstFree 1 (runOrders firstFree 1 [emptyOrder]) := by
  intro h
  exact absurd h.1 (by decide +kernel)

end Runs

end Scrimmage.Market
