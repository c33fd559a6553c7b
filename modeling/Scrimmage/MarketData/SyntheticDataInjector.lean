import Scrimmage.MarketData.Depth
import Mathlib.Algebra.Order.Ring.Int

/-!
# The synthetic market

`SyntheticDataInjector` of `SyntheticDataInjector.h`: a thread that in each round gives a feed
a ladder of bids and one of asks, around a price that drifts.

## The model

* The prices are of an ordered type with an addition, a subtraction, a multiplication and
  numerals, of which no law is assumed but that the prices of a ladder are in order (`Spaced`);
  `tick` is `0.01`, `start` is `100.0`.
* A `Round` is one turn of the loop of `injectLoop`, with what the generator draws in it, and a
  `Session` what a thread does from `start` to `stop`: the flag is looked at between rounds.

## What is proved

* `side_puts`, `side_puts_full`: what orders put on a side make of it, while there is room and when
  the side is full.
* `injected`: after a round either side of the feed is the ladder of that round, as much of it as
  there is room for, in its order, whatever sessions of no more levels there have been before.
-/

namespace Scrimmage.MarketData

open Theory

variable {ρ : Type}

/-! ### Orders put on a side -/

/-- The calls that put some orders on a side. -/
def puts (side : Bool) (orders : List (Order ρ)) : List (FeedCall ρ) := orders.map (.upsert side)

theorem puts_snoc (side : Bool) (orders : List (Order ρ)) (o : Order ρ) :
    puts side (orders ++ [o]) = puts side orders ++ [.upsert side o] := List.map_append

section Puts

variable [LinearOrder ρ] {S : StdSort ρ} {maxLevels : ℕ} {side : Bool} {calls : List (FeedCall ρ)}
  {book orders done : List (Order ρ)} {o : Order ρ} {ids : List UInt64}

/-- The orders of a side that come strictly one before the other are in that order. -/
theorem eq_of_strict (hsorted : book.Pairwise fun a b => ¬ before side b a) (hstrict : orders.Pairwise (before side))
    (hperm : book.Perm orders) : book = orders := by
  have hirr {a b : Order ρ} (hab : before side a b) : ¬ before side b a := by
    cases side
    · exact not_lt.mpr (le_of_lt hab)
    · exact not_lt.mpr (le_of_lt hab)
  -- of two of them one comes before the other
  have hsame ⦃a : Order ρ⦄ (ha : a ∈ orders) ⦃b : Order ρ⦄ (hb : b ∈ orders) :
      ¬ before side b a → ¬ before side a b → a = b :=
    List.Pairwise.forall_of_forall_of_flip (R := fun a b => ¬ before side b a → ¬ before side a b → a = b)
      (fun _ _ _ _ => rfl) (hstrict.imp fun hab _ hba => absurd hab hba) (hstrict.imp fun hab hba _ => absurd hab hba)
      ha hb
  exact List.Perm.eq_of_pairwise (fun a b ha hb => hsame (hperm.subset ha) hb) hsorted (hstrict.imp hirr) hperm

/-- Orders put on a side leave the other as it is. -/
theorem side_puts_not (calls : List (FeedCall ρ)) (side : Bool) (orders : List (Order ρ)) :
    (OrderBookFeed.run S maxLevels (calls ++ puts side orders)).side (!side) =
      (OrderBookFeed.run S maxLevels calls).side (!side) := by
  induction orders using List.reverseRecOn with
  | nil => rw [puts, List.map_nil, List.append_nil]
  | append_singleton orders o ih =>
    rw [puts_snoc, ← List.append_assoc, run_snoc, ← ih]
    exact side_call_not _ (FeedCall.upsert side o)

/-- The side after one more order. -/
theorem side_puts_snoc (calls : List (FeedCall ρ)) (side : Bool) (orders : List (Order ρ)) (o : Order ρ) :
    (OrderBookFeed.run S maxLevels (calls ++ puts side (orders ++ [o]))).side side =
      (S.sort (calls ++ puts side orders).length side (KeyedList.upsert Order.id o
        ((OrderBookFeed.run S maxLevels (calls ++ puts side orders)).side side))).take maxLevels := by
  rw [puts_snoc, ← List.append_assoc, run_snoc]
  exact side_upsert _ side o

/-- **While there is room** for all ids there can be, a side holds the orders put on it, and what it held
for other ids. -/
theorem side_puts (hroom : ids.length ≤ maxLevels)
    (hstart : ((OrderBookFeed.run S maxLevels calls).side side).map Order.id ⊆ ids)
    (hnodup : (orders.map Order.id).Nodup) (hids : orders.map Order.id ⊆ ids) :
    ((OrderBookFeed.run S maxLevels (calls ++ puts side orders)).side side).map Order.id ⊆ ids ∧
    ∀ o, o ∈ (OrderBookFeed.run S maxLevels (calls ++ puts side orders)).side side ↔
      o ∈ orders ∨ o ∈ (OrderBookFeed.run S maxLevels calls).side side ∧ o.id ∉ orders.map Order.id := by
  induction orders using List.reverseRecOn with
  | nil => simpa [puts] using hstart
  | append_singleton orders o ih =>
    rw [List.map_append, List.nodup_append] at hnodup
    rw [List.map_append, List.append_subset] at hids
    obtain ⟨hsub, hmem⟩ := ih hnodup.1 hids.1
    have hheld := held_run S maxLevels (calls ++ puts side orders) side
    rw [side_puts_snoc]
    have hnew {x : Order ρ} : x ∈ S.sort (calls ++ puts side orders).length side (KeyedList.upsert Order.id o
        ((OrderBookFeed.run S maxLevels (calls ++ puts side orders)).side side)) ↔ _ := hheld.mem_sort
    have hall : (S.sort (calls ++ puts side orders).length side (KeyedList.upsert Order.id o
        ((OrderBookFeed.run S maxLevels (calls ++ puts side orders)).side side))).map Order.id ⊆ ids := by
      intro id hid
      obtain ⟨x, hx, rfl⟩ := List.mem_map.mp hid
      rcases hnew.mp hx with rfl | ⟨hx, -⟩
      · exact hids.2 (by simp)
      · exact hsub (List.mem_map_of_mem hx)
    have hlen := (hheld.nodup_sort.subperm hall).length_le.trans hroom
    rw [List.length_map] at hlen
    rw [List.take_of_length_le hlen]
    refine ⟨hall, fun x => ?_⟩
    rw [hnew, hmem, List.mem_append, List.mem_singleton, List.map_append, List.mem_append]
    have hne (hx : x ∈ orders) : x.id ≠ o.id := hnodup.2.2 _ (List.mem_map_of_mem hx) _ (by simp)
    constructor
    · rintro (rfl | ⟨hx | ⟨hx, hid⟩, ho⟩)
      · exact .inl (.inr rfl)
      · exact .inl (.inl hx)
      · exact .inr ⟨hx, fun h => h.elim hid fun h => ho (by simpa using h)⟩
    · rintro ((hx | rfl) | ⟨hx, hid⟩)
      · exact .inr ⟨.inl hx, hne hx⟩
      · exact .inl rfl
      · exact .inr ⟨.inr ⟨hx, fun h => hid (.inl h)⟩, fun h => hid (.inr (by simp [h]))⟩

/-- **When the side is full** of the first orders put on it, those behind them are dropped. -/
theorem side_puts_full (hroom : ids.length ≤ maxLevels)
    (hstart : ((OrderBookFeed.run S maxLevels calls).side side).map Order.id ⊆ ids)
    (hnodup : (orders.map Order.id).Nodup) (hstrict : orders.Pairwise (before side))
    (hids : (orders.take maxLevels).map Order.id = ids) :
    (OrderBookFeed.run S maxLevels (calls ++ puts side orders)).side side = orders.take maxLevels := by
  suffices hmore : ∀ more, more <+: orders.drop maxLevels →
      (OrderBookFeed.run S maxLevels (calls ++ puts side (orders.take maxLevels ++ more))).side side =
        orders.take maxLevels by
    have h := hmore _ List.prefix_rfl
    rwa [List.take_append_drop] at h
  have htake : (orders.take maxLevels).Sublist orders := List.take_sublist ..
  intro more
  induction more using List.reverseRecOn with
  | nil =>
    intro _
    rw [List.append_nil]
    obtain ⟨hsub, hmem⟩ := side_puts hroom hstart (hnodup.sublist (htake.map _)) fun id hid => hids ▸ hid
    have hheld := held_run S maxLevels (calls ++ puts side (orders.take maxLevels)) side
    refine eq_of_strict hheld.sorted (hstrict.sublist htake) ?_
    refine (List.perm_ext_iff_of_nodup hheld.nodup.of_map (hnodup.of_map.sublist htake)).mpr fun o => ?_
    rw [hmem, or_iff_left_iff_imp]
    rintro ⟨ho, hid⟩
    rw [hids] at hid
    exact absurd (hstart (List.mem_map_of_mem ho)) hid
  | append_singleton more o ih =>
    intro hpre
    have ih := ih (List.IsPrefix.trans (List.prefix_append ..) hpre)
    -- the side is full, and the order comes behind those that are there
    have hlen : (orders.take maxLevels).length = maxLevels := by
      have := hpre.length_le
      rw [List.length_append, List.length_singleton, List.length_drop] at this
      rw [List.length_take]
      omega
    have hsub : (orders.take maxLevels ++ [o]).Sublist orders := by
      conv_rhs => rw [← List.take_append_drop maxLevels orders]
      exact ((List.sublist_append_right more [o]).trans hpre.sublist).append_left _
    have hnew : o.id ∉ (orders.take maxLevels).map Order.id := by
      have := hnodup.sublist (hsub.map _)
      rw [List.map_append, List.nodup_append] at this
      exact fun hid => this.2.2 _ hid o.id (by simp) rfl
    rw [← List.append_assoc, side_puts_snoc, ih, KeyedList.upsert_of_notMem hnew,
      eq_of_strict (S.sorted ..) (hstrict.sublist hsub) (S.perm ..), List.take_left' hlen]

end Puts

/-! ### The loop -/

/-- What the generator draws in a turn of the loop. -/
structure Round (ρ : Type) where
  /-- `qtyDist(rng)`, for the bids and the asks. -/
  quantity : Bool → ℕ → UInt32
  /-- `priceShift(rng)`. -/
  priceShift : ρ

/-- What a thread does between `start(levels)` and `stop`: the turns of its loop. -/
structure Session (ρ : Type) where
  /-- `levels`. -/
  levels : ℕ
  /-- The turns. -/
  rounds : List (Round ρ)

/-- `i + 1` for a bid, `i + 1000` for an ask. -/
def levelId (side : Bool) (i : ℕ) : UInt64 := UInt64.ofNat (i + if side then 1 else 1000)

section Loop

variable [Add ρ] [Sub ρ] [Mul ρ] [NatCast ρ]

/-- `midPrice - i * 0.01` for a bid, `midPrice + i * 0.01` for an ask. -/
def levelPrice (tick : ρ) (side : Bool) (midPrice : ρ) (i : ℕ) : ρ :=
  if side then midPrice - i * tick else midPrice + i * tick

/-- The orders of a side in a round. -/
def ladder (tick : ρ) (side : Bool) (levels : ℕ) (midPrice : ρ) (r : Round ρ) : List (Order ρ) :=
  (List.range levels).map fun i => ⟨levelId side i, levelPrice tick side midPrice i, r.quantity side i⟩

/-- The calls of a round: first the bids, then the asks. -/
def roundCalls (tick : ρ) (levels : ℕ) (midPrice : ρ) (r : Round ρ) : List (FeedCall ρ) :=
  puts true (ladder tick true levels midPrice r) ++ puts false (ladder tick false levels midPrice r)

/-- The loop of `injectLoop`: the calls of its rounds from the price `midPrice`. -/
def injectRounds (tick : ρ) (levels : ℕ) : ρ → List (Round ρ) → List (FeedCall ρ)
  | _, [] => []
  | midPrice, r :: rounds => roundCalls tick levels midPrice r ++ injectRounds tick levels (midPrice + r.priceShift) rounds

/-- `injectLoop`, from `midPrice = 100.0`. -/
def injectLoop (tick start : ρ) (s : Session ρ) : List (FeedCall ρ) := injectRounds tick s.levels start s.rounds

/-- `midPrice` after some rounds. -/
def midPriceAfter (start : ρ) (rounds : List (Round ρ)) : ρ :=
  rounds.foldl (fun midPrice r => midPrice + r.priceShift) start

theorem injectRounds_snoc (tick : ρ) (levels : ℕ) (start : ρ) (rounds : List (Round ρ)) (r : Round ρ) :
    injectRounds tick levels start (rounds ++ [r]) =
      injectRounds tick levels start rounds ++ roundCalls tick levels (midPriceAfter start rounds) r := by
  induction rounds generalizing start with
  | nil => simp [injectRounds, midPriceAfter]
  | cons r' rounds ih => rw [List.cons_append, injectRounds, ih, injectRounds, List.append_assoc]; rfl

end Loop

/-! ### What it makes of the feed -/

/-- The ids of the first levels of a side. -/
def levelIds (side : Bool) (levels : ℕ) : List UInt64 := (List.range levels).map (levelId side)

theorem levelId_inj {side : Bool} {i j : ℕ} (hi : i < 2 ^ 64) (hj : j < 2 ^ 64) (h : levelId side i = levelId side j) :
    i = j := by
  have hmod := congrArg UInt64.toNat h
  rw [levelId, levelId, UInt64.toNat_ofNat', UInt64.toNat_ofNat'] at hmod
  omega

theorem nodup_levelIds (side : Bool) {levels : ℕ} (h : levels ≤ 2 ^ 64) : (levelIds side levels).Nodup :=
  List.nodup_range.map_on fun _ hi _ hj heq =>
    levelId_inj ((List.mem_range.mp hi).trans_le h) ((List.mem_range.mp hj).trans_le h) heq

theorem levelIds_subset (side : Bool) {levels levels' : ℕ} (h : levels ≤ levels') :
    levelIds side levels ⊆ levelIds side levels' :=
  List.map_subset _ (List.range_subset.mpr h)

section Injected

variable [Add ρ] [Sub ρ] [Mul ρ] [NatCast ρ] {tick start midPrice : ρ} {levels levels' maxLevels : ℕ} {side : Bool}

theorem map_id_ladder (tick : ρ) (side : Bool) (levels : ℕ) (midPrice : ρ) (r : Round ρ) :
    (ladder tick side levels midPrice r).map Order.id = levelIds side levels := by
  simp [ladder, levelIds, Function.comp_def]

theorem map_id_take_ladder (tick : ρ) (side : Bool) (levels maxLevels : ℕ) (midPrice : ρ) (r : Round ρ) :
    ((ladder tick side levels midPrice r).take maxLevels).map Order.id = levelIds side (min maxLevels levels) := by
  rw [List.map_take, map_id_ladder, levelIds, ← List.map_take, List.take_range]
  rfl

variable [LinearOrder ρ] {S : StdSort ρ} {calls : List (FeedCall ρ)} {r : Round ρ} {rounds : List (Round ρ)}

/-- The prices of a ladder are in order: bids fall and asks rise. -/
def Spaced (tick midPrice : ρ) (levels : ℕ) : Prop :=
  ∀ i j, i < j → j < levels →
    levelPrice tick true midPrice j < levelPrice tick true midPrice i ∧
    levelPrice tick false midPrice i < levelPrice tick false midPrice j

theorem Spaced.ladder (h : Spaced tick midPrice levels) (side : Bool) (r : Round ρ) :
    (ladder tick side levels midPrice r).Pairwise (before side) := by
  refine List.pairwise_map.mpr (List.pairwise_lt_range.imp_of_mem fun _ hj hij => ?_)
  obtain ⟨hbids, hasks⟩ := h _ _ hij (List.mem_range.mp hj)
  cases side
  · exact hasks
  · exact hbids

/-- A side holds orders of the first levels only, as many as there is room for. -/
def Fits (S : StdSort ρ) (maxLevels levels : ℕ) (calls : List (FeedCall ρ)) : Prop :=
  ∀ side, ((OrderBookFeed.run S maxLevels calls).side side).map Order.id ⊆ levelIds side (min maxLevels levels)

/-- A round does to a side what its ladder for it does. -/
theorem exists_side_round (S : StdSort ρ) (maxLevels : ℕ) (calls : List (FeedCall ρ)) (side : Bool) (tick : ρ)
    (levels : ℕ) (midPrice : ρ) (r : Round ρ) :
    ∃ calls', (OrderBookFeed.run S maxLevels calls').side side = (OrderBookFeed.run S maxLevels calls).side side ∧
      (OrderBookFeed.run S maxLevels (calls ++ roundCalls tick levels midPrice r)).side side =
        (OrderBookFeed.run S maxLevels (calls' ++ puts side (ladder tick side levels midPrice r))).side side := by
  rw [roundCalls, ← List.append_assoc]
  cases side with
  | true => exact ⟨calls, rfl, side_puts_not _ false _⟩
  | false => exact ⟨calls ++ puts true (ladder tick true levels midPrice r), side_puts_not _ true _, rfl⟩

namespace Fits

/-- **What a round makes of a feed** that holds orders of its levels only: its ladders. -/
theorem side_round (h : Fits S maxLevels levels calls) (hsize : levels < 2 ^ 64) (hspaced : Spaced tick midPrice levels)
    (side : Bool) : (OrderBookFeed.run S maxLevels (calls ++ roundCalls tick levels midPrice r)).side side =
      (ladder tick side levels midPrice r).take maxLevels := by
  obtain ⟨calls', hcalls', hround⟩ := exists_side_round S maxLevels calls side tick levels midPrice r
  have hstart := h side
  rw [← hcalls'] at hstart
  rw [hround]
  refine side_puts_full ?_ hstart ?_ (hspaced.ladder side r) (map_id_take_ladder ..)
  · simp [levelIds]
  · rw [map_id_ladder]
    exact nodup_levelIds side hsize.le

/-- A round of no more levels puts no orders of other levels on a feed. -/
theorem round (h : Fits S maxLevels levels calls) (hsize : levels < 2 ^ 64) (hle : levels' ≤ levels)
    (hspaced : Spaced tick midPrice levels') :
    Fits S maxLevels levels (calls ++ roundCalls tick levels' midPrice r) := by
  intro side
  rcases Nat.le_total maxLevels levels' with hfull | hfits
  · -- the first levels, of either number, are as many as there is room for
    have hsame : min maxLevels levels = min maxLevels levels' := by omega
    have h' : Fits S maxLevels levels' calls := fun side => by
      rw [← hsame]
      exact h side
    rw [h'.side_round (hle.trans_lt hsize) hspaced, map_id_take_ladder, hsame]
    exact List.Subset.refl _
  · obtain ⟨calls', hcalls', hround⟩ := exists_side_round S maxLevels calls side tick levels' midPrice r
    rw [hround]
    refine (side_puts ?_ ?_ ?_ ?_).1
    · simp [levelIds]
    · rw [hcalls']
      exact h side
    · rw [map_id_ladder]
      exact nodup_levelIds side (hle.trans hsize.le)
    · rw [map_id_ladder]
      exact levelIds_subset side (by omega)

end Fits

/-- The prices of every round of a session are in order. -/
def Session.Spaced (tick start : ρ) (s : Session ρ) : Prop :=
  ∀ k < s.rounds.length, MarketData.Spaced tick (midPriceAfter start (s.rounds.take k)) s.levels

theorem Session.Spaced.snoc (h : Session.Spaced tick start ⟨levels, rounds ++ [r]⟩) :
    Session.Spaced tick start ⟨levels, rounds⟩ ∧ MarketData.Spaced tick (midPriceAfter start rounds) levels := by
  refine ⟨fun k (hk : k < rounds.length) => ?_, ?_⟩
  · have hround := h k (by simp; omega)
    rwa [List.take_append_of_le_length hk.le] at hround
  · have hround := h rounds.length (by simp)
    rwa [List.take_left] at hround

theorem Fits.session (h : Fits S maxLevels levels calls) (hsize : levels < 2 ^ 64) (hle : levels' ≤ levels)
    (hspaced : Session.Spaced tick start ⟨levels', rounds⟩) :
    Fits S maxLevels levels (calls ++ injectRounds tick levels' start rounds) := by
  induction rounds using List.reverseRecOn with
  | nil => simpa [injectRounds] using h
  | append_singleton rounds r ih =>
    rw [injectRounds_snoc, ← List.append_assoc]
    obtain ⟨hbefore, hlast⟩ := hspaced.snoc
    exact (ih hbefore).round hsize hle hlast

theorem fits_sessions (S : StdSort ρ) (maxLevels : ℕ) {sessions : List (Session ρ)} (hsize : levels < 2 ^ 64)
    (hsessions : ∀ s ∈ sessions, s.levels ≤ levels ∧ s.Spaced tick start) :
    Fits S maxLevels levels (sessions.flatMap (injectLoop tick start)) := by
  induction sessions using List.reverseRecOn with
  | nil => exact fun side => by cases side <;> simp [OrderBookFeed.run, OrderBookFeed.create, OrderBookFeed.side]
  | append_singleton sessions s ih =>
    rw [List.flatMap_append, List.flatMap_singleton]
    obtain ⟨hle, hspaced⟩ := hsessions s (by simp)
    exact (ih fun s' hs' => hsessions s' (List.mem_append_left _ hs')).session hsize hle hspaced

/-- **What the injector shows.** After each round of a session, and whatever sessions of no more levels
there were before it, either side of the feed is the ladder of that round in its order: the ids are those of
the first levels, all prices and quantities are of this round, and if there are more levels than the
feed has room for the best are kept. -/
theorem injected (S : StdSort ρ) (maxLevels : ℕ) (sessions : List (Session ρ)) (hsize : levels < 2 ^ 64)
    (hsessions : ∀ s ∈ sessions, s.levels ≤ levels ∧ s.Spaced tick start)
    (hspaced : Session.Spaced tick start ⟨levels, rounds ++ [r]⟩) :
    let feed := OrderBookFeed.run S maxLevels
      ((sessions ++ [(⟨levels, rounds ++ [r]⟩ : Session ρ)]).flatMap (injectLoop tick start))
    ∀ side, feed.side side = (ladder tick side levels (midPriceAfter start rounds) r).take maxLevels := by
  intro feed side
  obtain ⟨hbefore, hlast⟩ := hspaced.snoc
  have hfits := (fits_sessions S maxLevels hsize hsessions).session hsize (Nat.le_refl _) hbefore
  have hround := hfits.side_round (r := r) hsize hlast side
  rw [List.append_assoc, ← injectRounds_snoc] at hround
  show (OrderBookFeed.run S maxLevels ((sessions ++ [_]).flatMap _)).side side = _
  rw [List.flatMap_append, List.flatMap_singleton]
  exact hround

end Injected

/-- With exact arithmetic all ladders are in order. -/
theorem spaced_of_pos [Ring ρ] [LinearOrder ρ] [IsStrictOrderedRing ρ] {tick : ρ} (h : 0 < tick) (midPrice : ρ)
    (levels : ℕ) : Spaced tick midPrice levels := by
  intro i j hij _
  have hlt : (i : ρ) * tick < j * tick := mul_lt_mul_of_pos_right (Nat.cast_lt.mpr hij) h
  exact ⟨sub_lt_sub_left hlt midPrice, add_lt_add_right hlt midPrice⟩

/-- Two levels from 100.00, prices in cents, with room for one, after a session of one level. -/
theorem injected_two :
    let r : Round ℤ := ⟨fun _ _ => 5, 1⟩
    let first : Session ℤ := ⟨1, [r]⟩
    let second : Session ℤ := ⟨2, [r] ++ [r]⟩
    let feed := OrderBookFeed.run (.insertion ℤ) 1 (([first] ++ [second]).flatMap (injectLoop 1 10000))
    ∀ side, feed.side side = (ladder 1 side 2 10001 r).take 1 := by
  intro r first second
  refine injected (.insertion ℤ) 1 [first] (by decide : 2 < 2 ^ 64) (fun s hs => ?_) fun _ _ => spaced_of_pos Int.one_pos _ _
  obtain rfl := List.mem_singleton.mp hs
  exact ⟨by decide, fun _ _ => spaced_of_pos Int.one_pos _ _⟩

end Scrimmage.MarketData
