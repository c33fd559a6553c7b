import Scrimmage.Theory.KeyedList
import Mathlib.Data.Finset.Card
import Mathlib.Data.Finset.Dedup
import Mathlib.Data.List.Induction
import Mathlib.Data.List.Sort
import Mathlib.Data.List.TakeDrop
import Mathlib.Algebra.Ring.Nat

/-!
# The order book feed

`OrderBookFeed` of `OrderBookFeed.h`: the bids and the asks of one product, each side as a
list of at most `maxLevels` orders, best price first.

## The model

* Prices are of any linearly ordered type. `side` is `true` for the bids.
* `std::sort` may give any sorted permutation, and not always the same: `StdSort` is what it
  gives at each call of a run, the calls being numbered.
* The callback and the mutex have no part in what the sides hold.

## What is proved

* `Held`: what every call keeps of a side. It is sorted, of distinct orders, not too long,
  and each order is the last that was given for its id and not removed (`latest`).
* `feed_well_formed`: so it is over every run, and the side holds all of these as long as
  there were never more than `maxLevels`.
-/

namespace Scrimmage.MarketData

open Theory

/-- `Order`. -/
structure Order (ρ : Type) where
  /-- `id`. -/
  id : UInt64
  /-- `price`. -/
  price : ρ
  /-- `quantity`. -/
  quantity : UInt32
  deriving DecidableEq

/-- `OrderBookFeed`: its two sides. -/
structure OrderBookFeed (ρ : Type) where
  /-- `_bids`. -/
  bids : List (Order ρ)
  /-- `_asks`. -/
  asks : List (Order ρ)
  deriving DecidableEq

/-- `OrderBookFeed(maxLevels)`. -/
def OrderBookFeed.create (ρ : Type) : OrderBookFeed ρ := ⟨[], []⟩

variable {ρ : Type}

/-- `side ? _bids : _asks`. -/
def OrderBookFeed.side (feed : OrderBookFeed ρ) (side : Bool) : List (Order ρ) :=
  if side then feed.bids else feed.asks

/-- The feed with one of its sides replaced. -/
def OrderBookFeed.setSide (feed : OrderBookFeed ρ) (side : Bool) (book : List (Order ρ)) :
    OrderBookFeed ρ :=
  if side then { feed with bids := book } else { feed with asks := book }

@[simp] theorem OrderBookFeed.side_setSide_same (feed : OrderBookFeed ρ) (side : Bool)
    (book : List (Order ρ)) : (feed.setSide side book).side side = book := by
  cases side <;> rfl

@[simp] theorem OrderBookFeed.side_setSide_not (feed : OrderBookFeed ρ) (side : Bool)
    (book : List (Order ρ)) : (feed.setSide side book).side (!side) = feed.side (!side) := by
  cases side <;> rfl

/-- The update of an order of that id, or the insertion: `find_if`, and `*it = order` or
`push_back`. -/
def place (order : Order ρ) (book : List (Order ρ)) : List (Order ρ) :=
  match book.findIdx? fun o => o.id == order.id with
  | some i => book.set i order
  | none => book ++ [order]

/-- `remove`. -/
def OrderBookFeed.remove (feed : OrderBookFeed ρ) (side : Bool) (orderId : UInt64) : OrderBookFeed ρ :=
  feed.setSide side ((feed.side side).filter fun o => !(o.id == orderId))

theorem place_eq (order : Order ρ) (book : List (Order ρ)) : place order book = KeyedList.upsert Order.id order book := by
  induction book with
  | nil => rfl
  | cons o book ih =>
    rw [KeyedList.upsert, ← ih]
    unfold place
    rw [List.findIdx?_cons]
    by_cases ho : o.id = order.id
    · simp [ho]
    · cases hfind : book.findIdx? fun o => o.id == order.id with
      | none => simp [ho]
      | some i => simp [ho]

theorem side_remove (feed : OrderBookFeed ρ) (side : Bool) (id : UInt64) :
    (feed.remove side id).side side = (feed.side side).filter fun o => !(o.id == id) :=
  OrderBookFeed.side_setSide_same ..

/-! ### Calls -/

/-- A call on the feed. -/
inductive FeedCall (ρ : Type) where
  /-- `upsert(side, order)`. -/
  | upsert (side : Bool) (order : Order ρ)
  /-- `remove(side, orderId)`. -/
  | remove (side : Bool) (orderId : UInt64)

/-- The side of a call. -/
def FeedCall.side : FeedCall ρ → Bool
  | .upsert side _ => side
  | .remove side _ => side

/-- The id of a call. -/
def FeedCall.id : FeedCall ρ → UInt64
  | .upsert _ order => order.id
  | .remove _ orderId => orderId

/-- The order last given for an id on a side, if it has not been removed since. -/
def latest (side : Bool) (id : UInt64) (calls : List (FeedCall ρ)) : Option (Order ρ) :=
  calls.foldl (fun last c => match c with
    | .upsert side' order => if side' = side ∧ order.id = id then some order else last
    | .remove side' orderId => if side' = side ∧ orderId = id then none else last) none

/-- The ids that are live on a side: given and not removed since. -/
def liveIds (side : Bool) (calls : List (FeedCall ρ)) : Finset UInt64 :=
  (calls.map FeedCall.id).toFinset.filter fun id => (latest side id calls).isSome

section Latest

variable {side : Bool} {id : UInt64} {calls : List (FeedCall ρ)}

theorem latest_upsert (calls : List (FeedCall ρ)) (side side' : Bool) (order : Order ρ) (id : UInt64) :
    latest side id (calls ++ [.upsert side' order]) =
      if side' = side ∧ order.id = id then some order else latest side id calls := by
  rw [latest, List.foldl_append]
  rfl

theorem latest_remove (calls : List (FeedCall ρ)) (side side' : Bool) (id' id : UInt64) :
    latest side id (calls ++ [.remove side' id']) =
      if side' = side ∧ id' = id then none else latest side id calls := by
  rw [latest, List.foldl_append]
  rfl

/-- A call changes what is live on its own side only. -/
theorem latest_not (calls : List (FeedCall ρ)) (c : FeedCall ρ) (id : UInt64) :
    latest (!c.side) id (calls ++ [c]) = latest (!c.side) id calls := by
  cases c with
  | upsert side order => rw [latest_upsert, if_neg (by simp [FeedCall.side])]
  | remove side id' => rw [latest_remove, if_neg (by simp [FeedCall.side])]

/-- An order last given for an id has that id. -/
theorem id_of_latest {o : Order ρ} (h : latest side id calls = some o) : o.id = id := by
  induction calls using List.reverseRecOn with
  | nil => cases h
  | append_singleton calls c ih =>
    cases c with
    | upsert side' order =>
      rw [latest_upsert] at h
      split_ifs at h with hc
      · rw [← Option.some.inj h]
        exact hc.2
      · exact ih h
    | remove side' id' =>
      rw [latest_remove] at h
      split_ifs at h with hc
      exact ih h

/-- The live ids are those with a latest order. -/
theorem mem_liveIds : id ∈ liveIds side calls ↔ (latest side id calls).isSome := by
  have hgiven (h : (latest side id calls).isSome) : id ∈ calls.map FeedCall.id := by
    induction calls using List.reverseRecOn with
    | nil => cases h
    | append_singleton calls c ih =>
      rw [List.map_append, List.mem_append]
      cases c with
      | upsert side' order =>
        rw [latest_upsert] at h
        split_ifs at h with hc
        · exact Or.inr (by simp [FeedCall.id, hc.2])
        · exact Or.inl (ih h)
      | remove side' id' =>
        rw [latest_remove] at h
        split_ifs at h with hc
        · cases h
        · exact Or.inl (ih h)
  simpa [liveIds] using hgiven

/-- The latest order for an id depends on the calls for that id on that side only. -/
theorem latest_filter : latest side id (calls.filter fun c => c.side = side ∧ c.id = id) = latest side id calls := by
  induction calls using List.reverseRecOn with
  | nil => rfl
  | append_singleton calls c ih =>
    rw [List.filter_append]
    by_cases hc : c.side = side ∧ c.id = id
    · rw [show [c].filter (fun c => c.side = side ∧ c.id = id) = [c] by simp [hc]]
      cases c with
      | upsert side' order => rw [latest_upsert, latest_upsert, ih]
      | remove side' id' => rw [latest_remove, latest_remove, ih]
    · rw [show [c].filter (fun c => c.side = side ∧ c.id = id) = [] by simpa using hc, List.append_nil, ih]
      cases c with
      | upsert side' order => rw [latest_upsert]; exact (if_neg hc).symm
      | remove side' id' => rw [latest_remove]; exact (if_neg hc).symm

/-- No live order is missing from a side. -/
def Complete (side : Bool) (calls : List (FeedCall ρ)) (book : List (Order ρ)) : Prop :=
  ∀ id o, latest side id calls = some o → o ∈ book

theorem Complete.remove {book : List (Order ρ)} (hc : Complete side calls book) (id : UInt64) :
    Complete side (calls ++ [.remove side id]) (book.filter fun o => !(o.id == id)) := by
  intro id' o ho
  rw [latest_remove] at ho
  split_ifs at ho with hid
  have hne : o.id ≠ id := fun heq => hid ⟨rfl, by rw [← heq, id_of_latest ho]⟩
  simpa [hne] using hc id' o ho

end Latest

/-! ### Runs -/

variable [LinearOrder ρ]

/-- The comparison of the sort: bids by falling price, asks by rising price. -/
def before (side : Bool) (a b : Order ρ) : Prop := if side then a.price > b.price else a.price < b.price

instance (side : Bool) (a b : Order ρ) : Decidable (before side a b) :=
  inferInstanceAs (Decidable (if side = true then a.price > b.price else a.price < b.price))

/-- On the side, the price of `a` is at least as good as that of `b`. -/
def AtLeastAsGood (side : Bool) (a b : Order ρ) : Prop := if side then a.price ≥ b.price else a.price ≤ b.price

instance (side : Bool) (a b : Order ρ) : Decidable (AtLeastAsGood side a b) :=
  inferInstanceAs (Decidable (if side = true then a.price ≥ b.price else a.price ≤ b.price))

/-- **`std::sort`** at the calls of a run: a permutation in which none comes after one it
is to come before. -/
structure StdSort (ρ : Type) [LinearOrder ρ] where
  /-- What the `n`th call sorts a side to. -/
  sort : ℕ → Bool → List (Order ρ) → List (Order ρ)
  perm : ∀ n side book, (sort n side book).Perm book
  sorted : ∀ n side book, (sort n side book).Pairwise fun a b => ¬ before side b a

/-- `upsert`, as the `n`th call. -/
def OrderBookFeed.upsert (S : StdSort ρ) (maxLevels n : ℕ) (feed : OrderBookFeed ρ) (side : Bool) (order : Order ρ) :
    OrderBookFeed ρ :=
  let book := S.sort n side (place order (feed.side side))
  feed.setSide side (if book.length > maxLevels then book.take maxLevels else book)

/-- What the `n`th call does. -/
def OrderBookFeed.call (S : StdSort ρ) (maxLevels n : ℕ) (feed : OrderBookFeed ρ) : FeedCall ρ → OrderBookFeed ρ
  | .upsert side order => feed.upsert S maxLevels n side order
  | .remove side orderId => feed.remove side orderId

/-- The feed after a sequence of calls. -/
def OrderBookFeed.run (S : StdSort ρ) (maxLevels : ℕ) (calls : List (FeedCall ρ)) : OrderBookFeed ρ :=
  calls.zipIdx.foldl (fun feed c => feed.call S maxLevels c.2 c.1) (.create ρ)

theorem run_snoc (S : StdSort ρ) (maxLevels : ℕ) (calls : List (FeedCall ρ)) (c : FeedCall ρ) :
    OrderBookFeed.run S maxLevels (calls ++ [c]) =
      (OrderBookFeed.run S maxLevels calls).call S maxLevels calls.length c := by
  simp [OrderBookFeed.run, List.zipIdx_append]

/-! ### The operations on one side -/

section Side

variable {S : StdSort ρ} {maxLevels n : ℕ} {feed : OrderBookFeed ρ} {side : Bool} {order : Order ρ} {id : UInt64}
  {calls : List (FeedCall ρ)} {book : List (Order ρ)}

theorem side_upsert (feed : OrderBookFeed ρ) (side : Bool) (order : Order ρ) :
    (feed.upsert S maxLevels n side order).side side =
      (S.sort n side (KeyedList.upsert Order.id order (feed.side side))).take maxLevels := by
  rw [OrderBookFeed.upsert, OrderBookFeed.side_setSide_same, place_eq]
  split_ifs with hlen
  · rfl
  · rw [List.take_of_length_le (Nat.not_lt.mp hlen)]

/-- A call leaves the other side as it is. -/
theorem side_call_not (feed : OrderBookFeed ρ) (c : FeedCall ρ) :
    (feed.call S maxLevels n c).side (!c.side) = feed.side (!c.side) := by
  cases c with
  | upsert side order => exact OrderBookFeed.side_setSide_not ..
  | remove side id => exact OrderBookFeed.side_setSide_not ..

end Side

/-! ### What is kept of a side -/

/-- **What every call keeps of a side**, after some calls. -/
structure Held (maxLevels : ℕ) (side : Bool) (calls : List (FeedCall ρ)) (book : List (Order ρ)) : Prop where
  nodup : (book.map Order.id).Nodup
  length_le : book.length ≤ maxLevels
  sorted : book.Pairwise fun a b => ¬ before side b a
  latest : ∀ o ∈ book, latest side o.id calls = some o

namespace Held

variable {S : StdSort ρ} {maxLevels n : ℕ} {side : Bool} {order : Order ρ} {id : UInt64}
  {calls : List (FeedCall ρ)} {book : List (Order ρ)}

theorem nil (maxLevels : ℕ) (side : Bool) (calls : List (FeedCall ρ)) : Held maxLevels side calls [] where
  nodup := List.nodup_nil
  length_le := Nat.zero_le _
  sorted := List.Pairwise.nil
  latest o ho := by cases ho

/-- The items of a side with an order put in: those of other ids, and it. -/
theorem mem_sort (h : Held maxLevels side calls book) {o : Order ρ} :
    o ∈ S.sort n side (KeyedList.upsert Order.id order book) ↔ o = order ∨ o ∈ book ∧ o.id ≠ order.id := by
  rw [(S.perm ..).mem_iff, KeyedList.mem_upsert h.nodup]

theorem nodup_sort (h : Held maxLevels side calls book) :
    ((S.sort n side (KeyedList.upsert Order.id order book)).map Order.id).Nodup :=
  ((S.perm ..).map Order.id).nodup_iff.mpr (KeyedList.nodup_upsert h.nodup)

theorem latest_sort (h : Held maxLevels side calls book) {o : Order ρ}
    (ho : o ∈ S.sort n side (KeyedList.upsert Order.id order book)) :
    MarketData.latest side o.id (calls ++ [.upsert side order]) = some o := by
  rw [latest_upsert]
  rcases h.mem_sort.mp ho with rfl | ⟨ho, hid⟩
  · rw [if_pos ⟨rfl, rfl⟩]
  · rw [if_neg fun hc => hid hc.2.symm]
    exact h.latest o ho

theorem upsert (h : Held maxLevels side calls book) (order : Order ρ) :
    Held maxLevels side (calls ++ [.upsert side order])
      ((S.sort n side (KeyedList.upsert Order.id order book)).take maxLevels) where
  nodup := h.nodup_sort.sublist ((List.take_sublist ..).map _)
  length_le := List.length_take_le ..
  sorted := (S.sorted ..).sublist (List.take_sublist ..)
  latest _ ho := h.latest_sort (List.mem_of_mem_take ho)

theorem remove (h : Held maxLevels side calls book) (id : UInt64) :
    Held maxLevels side (calls ++ [.remove side id]) (book.filter fun o => !(o.id == id)) where
  nodup := h.nodup.sublist (List.filter_sublist.map _)
  length_le := (List.length_filter_le ..).trans h.length_le
  sorted := h.sorted.sublist List.filter_sublist
  latest o ho := by
    obtain ⟨ho, hid⟩ : o ∈ book ∧ o.id ≠ id := by simpa using ho
    rw [latest_remove, if_neg fun hc => hid hc.2.symm]
    exact h.latest o ho

/-- The other side, after a call. -/
theorem other {c : FeedCall ρ} (h : Held maxLevels (!c.side) calls book) :
    Held maxLevels (!c.side) (calls ++ [c]) book :=
  { h with latest := fun o ho => by rw [latest_not]; exact h.latest o ho }

end Held

/-- **What every call preserves**, of both sides. -/
theorem held_call {S : StdSort ρ} {maxLevels n : ℕ} {calls : List (FeedCall ρ)} {feed : OrderBookFeed ρ}
    (h : ∀ side, Held maxLevels side calls (feed.side side)) (c : FeedCall ρ) (side : Bool) :
    Held maxLevels side (calls ++ [c]) ((feed.call S maxLevels n c).side side) := by
  by_cases hside : side = c.side
  · subst hside
    cases c with
    | upsert side order =>
      show Held maxLevels side _ ((feed.upsert S maxLevels n side order).side side)
      rw [side_upsert]
      exact (h side).upsert order
    | remove side id =>
      show Held maxLevels side _ ((feed.remove side id).side side)
      rw [side_remove]
      exact (h side).remove id
  · obtain rfl : side = !c.side := Bool.eq_not_of_ne hside
    rw [side_call_not]
    exact (h _).other

/-- **What every run preserves.** -/
theorem held_run (S : StdSort ρ) (maxLevels : ℕ) (calls : List (FeedCall ρ)) (side : Bool) :
    Held maxLevels side calls ((OrderBookFeed.run S maxLevels calls).side side) := by
  induction calls using List.reverseRecOn generalizing side with
  | nil => cases side <;> exact Held.nil ..
  | append_singleton calls c ih =>
    rw [run_snoc]
    exact held_call ih c side

/-! ### All that is live -/

section Complete

variable {S : StdSort ρ} {maxLevels n : ℕ} {side : Bool} {order : Order ρ} {id : UInt64}
  {calls : List (FeedCall ρ)} {book : List (Order ρ)}

/-- With no more than `maxLevels` live, an order put in pushes none out. -/
theorem Complete.upsert (hc : Complete side calls book) (h : Held maxLevels side calls book) (order : Order ρ)
    (hcard : (liveIds side (calls ++ [.upsert side order])).card ≤ maxLevels) :
    Complete side (calls ++ [.upsert side order])
      ((S.sort n side (KeyedList.upsert Order.id order book)).take maxLevels) := by
  have hlive : ((S.sort n side (KeyedList.upsert Order.id order book)).map Order.id).toFinset ⊆
      liveIds side (calls ++ [.upsert side order]) := by
    intro id hid
    obtain ⟨o, ho, rfl⟩ := List.mem_map.mp (List.mem_toFinset.mp hid)
    rw [mem_liveIds, h.latest_sort ho]
    rfl
  have hlen : (S.sort n side (KeyedList.upsert Order.id order book)).length ≤ maxLevels := by
    have := (Finset.card_le_card hlive).trans hcard
    rwa [List.toFinset_card_of_nodup h.nodup_sort, List.length_map] at this
  rw [List.take_of_length_le hlen]
  intro id o ho
  rw [latest_upsert] at ho
  rw [h.mem_sort]
  split_ifs at ho with hid
  · exact Or.inl (Option.some.inj ho).symm
  · refine Or.inr ⟨hc id o ho, fun heq => hid ⟨rfl, ?_⟩⟩
    rw [← heq, id_of_latest ho]

/-- **A side with never more than `maxLevels` live holds them all.** -/
theorem complete_run (S : StdSort ρ) (maxLevels : ℕ) (calls : List (FeedCall ρ)) (side : Bool)
    (hlive : ∀ k ≤ calls.length, (liveIds side (calls.take k)).card ≤ maxLevels) :
    Complete side calls ((OrderBookFeed.run S maxLevels calls).side side) := by
  induction calls using List.reverseRecOn with
  | nil =>
    intro id o ho
    cases ho
  | append_singleton calls c ih =>
    have ih := ih fun k hk => by
      have := hlive k (by simp; omega)
      rwa [List.take_append_of_le_length hk] at this
    have hcard : (liveIds side (calls ++ [c])).card ≤ maxLevels := by
      have := hlive _ le_rfl
      rwa [List.take_length] at this
    have hheld := held_run S maxLevels calls side
    rw [run_snoc]
    by_cases hside : side = c.side
    · subst hside
      cases c with
      | upsert side order =>
        show Complete side _ ((OrderBookFeed.upsert ..).side side)
        rw [side_upsert]
        exact ih.upsert hheld order hcard
      | remove side id =>
        show Complete side _ ((OrderBookFeed.remove ..).side side)
        rw [side_remove]
        exact ih.remove id
    · obtain rfl : side = !c.side := Bool.eq_not_of_ne hside
      rw [side_call_not]
      intro id o ho
      rw [latest_not] at ho
      exact ih id o ho

end Complete

/-- **The feed is well formed over every run.** On each side no two orders have one id,
there are at most `maxLevels`, the bids by falling and the asks by rising price, and a call
leaves the other side as it is. A side with never more than `maxLevels` live ids holds the
order last given for each, and no other; so what it holds does not depend on how the calls
for different ids are interleaved. -/
theorem feed_well_formed (S : StdSort ρ) (maxLevels : ℕ) (calls : List (FeedCall ρ)) :
    let feed := OrderBookFeed.run S maxLevels calls
    (∀ side, ((feed.side side).map Order.id).Nodup ∧ (feed.side side).length ≤ maxLevels) ∧
    feed.bids.Pairwise (fun a b => a.price ≥ b.price) ∧ feed.asks.Pairwise (fun a b => a.price ≤ b.price) ∧
    (∀ c, (OrderBookFeed.run S maxLevels (calls ++ [c])).side (!c.side) = feed.side (!c.side)) ∧
    ∀ side, (∀ k ≤ calls.length, (liveIds side (calls.take k)).card ≤ maxLevels) →
      (∀ o, o ∈ feed.side side ↔ latest side o.id calls = some o) ∧
      ∀ (S' : StdSort ρ) (calls' : List (FeedCall ρ)),
        (∀ k ≤ calls'.length, (liveIds side (calls'.take k)).card ≤ maxLevels) →
        (∀ id, (calls'.filter fun c => c.side = side ∧ c.id = id) =
          calls.filter fun c => c.side = side ∧ c.id = id) →
        ((OrderBookFeed.run S' maxLevels calls').side side).Perm (feed.side side) := by
  intro feed
  have hheld := held_run S maxLevels calls
  have hbids : feed.bids.Pairwise fun a b => ¬ before true b a := (hheld true).sorted
  have hasks : feed.asks.Pairwise fun a b => ¬ before false b a := (hheld false).sorted
  refine ⟨fun side => ⟨(hheld side).nodup, (hheld side).length_le⟩, ?_, ?_, fun c => ?_, fun side hlive => ?_⟩
  · exact hbids.imp fun h => not_lt.mp h
  · exact hasks.imp fun h => not_lt.mp h
  · rw [run_snoc]
    exact side_call_not ..
  · have hmem (o : Order ρ) : o ∈ feed.side side ↔ latest side o.id calls = some o :=
      ⟨(hheld side).latest o, complete_run S maxLevels calls side hlive o.id o⟩
    refine ⟨hmem, fun S' calls' hlive' hsame => ?_⟩
    have hheld' := held_run S' maxLevels calls' side
    refine (List.perm_ext_iff_of_nodup hheld'.nodup.of_map (hheld side).nodup.of_map).mpr fun o => ?_
    have hlatest : latest side o.id calls' = latest side o.id calls := by
      rw [← latest_filter, hsame, latest_filter]
    rw [hmem, ← hlatest]
    exact ⟨hheld'.latest o, complete_run S' maxLevels calls' side hlive' o.id o⟩

end Scrimmage.MarketData
