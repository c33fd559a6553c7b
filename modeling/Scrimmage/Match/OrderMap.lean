import Scrimmage.Theory.DirectMap
import Mathlib.Data.Nat.Bitwise
import Mathlib.Data.List.TakeDrop
import Mathlib.Data.List.Induction
import Mathlib.Algebra.Ring.Nat

/-!
# The order map

`OrderMap` of `OrderMap.h`: from the id of an order to its index in the pool and its side,
by an array that is indexed with the low bits of the id. A cell holds one order and not
its id.

## The model

* The cells are a function of their index, of which those below `MapSize` are there.
* `insert` and `erase` keep the index in a `uint16_t` (`slotIndex`), `find` does not
  (`findIndex`).
* An id is live if its `insert` has returned `true` and it has not been erased since, nor
  the map reset (`MapState`).

## What is proved

* `live_orders_found`: over every run that erases live ids only, each live id is found with
  what its `insert` gave, no two share a cell, and an `insert` fails exactly when the cell
  of its id is that of a live one.
* `slot_agrees_iff`: an `insert` that succeeds is found, and an `erase` leaves nothing, exactly
  when the masked id fits in sixteen bits, or the two cells happen to hold what hides it.
  `slot_disagrees` is an order that `find` does not find.
* `not_confused_iff`: an id that is not live is neither found nor erases the entry of
  another exactly when its cell is empty. `other_order_found` is one that is found.
-/

namespace Scrimmage.Match

open Theory

/-- `MapValue`. -/
structure MapValue where
  /-- `_poolIndex`. -/
  poolIndex : UInt16
  /-- `_side`. -/
  side : Int8
  deriving DecidableEq

/-- `OrderMap`: its `_map`, of which `MapSize` cells are there. -/
structure OrderMap where
  /-- `_map`. -/
  map : ℕ → MapValue

/-- `MASK`, a `size_t`. -/
def mask (mapSize : ℕ) : UInt64 := UInt64.ofNat mapSize - 1

/-- `uint16_t idx = orderId & MASK`. -/
def slotIndex (mapSize : ℕ) (orderId : UInt64) : ℕ := (orderId &&& mask mapSize).toUInt16.toNat

/-- `orderId & MASK`. -/
def findIndex (mapSize : ℕ) (orderId : UInt64) : ℕ := (orderId &&& mask mapSize).toNat

namespace OrderMap

/-- `NONE`. -/
def noPoolIndex : UInt16 := 0xFFFF

/-- An empty cell. -/
def emptyValue : MapValue := ⟨noPoolIndex, 0⟩

/-- `OrderMap()`. -/
def create : OrderMap := ⟨fun _ => emptyValue⟩

/-- `reset`. -/
def reset (_ : OrderMap) : OrderMap := ⟨fun _ => emptyValue⟩

/-- `insert`. -/
def insert (mapSize : ℕ) (m : OrderMap) (orderId : UInt64) (poolIndex : UInt16) (side : Int8) :
    Bool × OrderMap :=
  let idx := slotIndex mapSize orderId
  if (m.map idx).poolIndex ≠ noPoolIndex then (false, m)
  else (true, ⟨Function.update m.map idx ⟨poolIndex, side⟩⟩)

/-- `erase`. -/
def erase (mapSize : ℕ) (m : OrderMap) (orderId : UInt64) : OrderMap :=
  ⟨Function.update m.map (slotIndex mapSize orderId) emptyValue⟩

/-- `find`. -/
def find (mapSize : ℕ) (m : OrderMap) (orderId : UInt64) : MapValue := m.map (findIndex mapSize orderId)

end OrderMap

/-! ### Cells -/

section Cells

variable {mapSize : ℕ} {id id' : UInt64}

/-- Two ids have one cell exactly when they have the same low bits. -/
theorem findIndex_inj : findIndex mapSize id = findIndex mapSize id' ↔ id &&& mask mapSize = id' &&& mask mapSize :=
  UInt64.toNat_inj

theorem toNat_mask (h : 1 ≤ mapSize) (hsize : mapSize < 2 ^ 64) : (mask mapSize).toNat = mapSize - 1 := by
  have hnat : (UInt64.ofNat mapSize).toNat = mapSize := by
    rw [UInt64.toNat_ofNat', Nat.mod_eq_of_lt hsize]
  have hone : (1 : UInt64) ≤ UInt64.ofNat mapSize := by
    rwa [UInt64.le_iff_toNat_le, hnat]
  rw [mask, UInt64.toNat_sub_of_le _ _ hone, hnat]
  rfl

/-- In a map of at most 65536 cells an index is not cut by the `uint16_t`. -/
theorem slotIndex_eq (h : 1 ≤ mapSize) (hmax : mapSize ≤ 65536) (id : UInt64) :
    slotIndex mapSize id = findIndex mapSize id := by
  have hle : findIndex mapSize id ≤ mapSize - 1 := by
    rw [← toNat_mask h (by omega), findIndex, UInt64.toNat_and]
    exact Nat.and_le_right
  show (id &&& mask mapSize).toUInt16.toNat = findIndex mapSize id
  rw [UInt64.toNat_toUInt16]
  exact Nat.mod_eq_of_lt (by unfold findIndex at hle; omega)

end Cells

/-! ### Runs -/

/-- A call on the map. -/
inductive MapCall where
  /-- `insert(orderId, poolIndex, side)`. -/
  | insert (orderId : UInt64) (poolIndex : UInt16) (side : Int8)
  /-- `erase(orderId)`. -/
  | erase (orderId : UInt64)
  /-- `reset()`. -/
  | reset
  deriving DecidableEq

/-- The map, and the ids that are live, with what their `insert` gave. -/
structure MapState where
  /-- The map. -/
  map : OrderMap
  /-- The live ids. -/
  live : UInt64 → Option MapValue

namespace MapState

/-- What a call does. -/
def call (mapSize : ℕ) (st : MapState) : MapCall → MapState
  | .insert id poolIndex side =>
    let (inserted, map) := st.map.insert mapSize id poolIndex side
    ⟨map, if inserted then Function.update st.live id (some ⟨poolIndex, side⟩) else st.live⟩
  | .erase id => ⟨st.map.erase mapSize id, Function.update st.live id none⟩
  | .reset => ⟨st.map.reset, fun _ => none⟩

/-- The state after a sequence of calls. -/
def run (mapSize : ℕ) (calls : List MapCall) : MapState :=
  calls.foldl (call mapSize) ⟨OrderMap.create, fun _ => none⟩

theorem run_snoc (mapSize : ℕ) (calls : List MapCall) (c : MapCall) :
    run mapSize (calls ++ [c]) = (run mapSize calls).call mapSize c := by
  simp [run]

/-- An `insert` gives a pool index other than `NONE`, an `erase` is of a live id. -/
def Legal (st : MapState) : MapCall → Prop
  | .insert _ poolIndex _ => poolIndex ≠ OrderMap.noPoolIndex
  | .erase id => (st.live id).isSome
  | .reset => True

end MapState

open MapState

/-! ### Live ids -/

/-- Whether a cell is empty, as the map sees it. -/
def Vacant (v : MapValue) : Prop := v.poolIndex = OrderMap.noPoolIndex

instance (v : MapValue) : Decidable (Vacant v) := inferInstanceAs (Decidable (_ = _))

/-- The cells hold the live ids. -/
def MapState.Tracks (mapSize : ℕ) (st : MapState) : Prop :=
  DirectMap.Tracks (findIndex mapSize) Vacant st.map.map st.live

section Live

variable {mapSize : ℕ} {st : MapState}

/-- What `insert` does, from the cell it looks at. -/
theorem insert_eq (m : OrderMap) (id : UInt64) (poolIndex : UInt16) (side : Int8) :
    m.insert mapSize id poolIndex side = if Vacant (m.map (slotIndex mapSize id))
      then (true, ⟨Function.update m.map (slotIndex mapSize id) ⟨poolIndex, side⟩⟩) else (false, m) := by
  by_cases hv : Vacant (m.map (slotIndex mapSize id))
  · have hidx : (m.map (slotIndex mapSize id)).poolIndex = OrderMap.noPoolIndex := hv
    simp [OrderMap.insert, hv, hidx]
  · have hidx : (m.map (slotIndex mapSize id)).poolIndex ≠ OrderMap.noPoolIndex := hv
    simp [OrderMap.insert, hv, hidx]

theorem insert_of_vacant (h : 1 ≤ mapSize) (hmax : mapSize ≤ 65536) {m : OrderMap} {id : UInt64}
    (hv : Vacant (m.find mapSize id)) (poolIndex : UInt16) (side : Int8) :
    m.insert mapSize id poolIndex side =
      (true, ⟨Function.update m.map (findIndex mapSize id) ⟨poolIndex, side⟩⟩) := by
  rw [insert_eq, slotIndex_eq h hmax]
  exact if_pos hv

theorem insert_of_taken (h : 1 ≤ mapSize) (hmax : mapSize ≤ 65536) {m : OrderMap} {id : UInt64}
    (hv : ¬ Vacant (m.find mapSize id)) (poolIndex : UInt16) (side : Int8) :
    m.insert mapSize id poolIndex side = (false, m) := by
  rw [insert_eq, slotIndex_eq h hmax]
  exact if_neg hv

/-- **What a legal call preserves.** -/
theorem MapState.Tracks.call (hst : st.Tracks mapSize) (h : 1 ≤ mapSize) (hmax : mapSize ≤ 65536) {c : MapCall}
    (hc : st.Legal c) : (st.call mapSize c).Tracks mapSize := by
  cases c with
  | insert id poolIndex side =>
    by_cases hv : Vacant (st.map.find mapSize id)
    · rw [MapState.call, insert_of_vacant h hmax hv]
      exact DirectMap.Tracks.insert hst hc hv
    · rw [MapState.call, insert_of_taken h hmax hv]
      exact hst
  | erase id =>
    rw [MapState.call, OrderMap.erase, slotIndex_eq h hmax]
    exact DirectMap.Tracks.erase hst hc rfl
  | reset => exact DirectMap.Tracks.empty _ fun _ => rfl

/-- **What a legal run preserves.** -/
theorem tracks_run (h : 1 ≤ mapSize) (hmax : mapSize ≤ 65536) {calls : List MapCall}
    (hlegal : ∀ k (hk : k < calls.length), (run mapSize (calls.take k)).Legal calls[k]) :
    ∀ k ≤ calls.length, (run mapSize (calls.take k)).Tracks mapSize := by
  intro k
  induction k with
  | zero => exact fun _ => DirectMap.Tracks.empty _ fun _ => rfl
  | succ k ih =>
    intro hk
    rw [← List.take_concat_get' calls k hk, run_snoc]
    exact (ih (Nat.le_of_succ_le hk)).call h hmax (hlegal k hk)

/-- **Every live order is found.** In a map of 1 to 65536 cells, after every sequence of
calls that inserts no pool index `NONE` and erases live ids only: a live id is found with
the index and the side of its `insert`; no two live ids have one cell; and `insert` returns
`false`, and changes nothing, exactly when the cell of the id is that of a live one. -/
theorem live_orders_found (h : 1 ≤ mapSize) (hmax : mapSize ≤ 65536) {calls : List MapCall}
    (hlegal : ∀ k (hk : k < calls.length), (run mapSize (calls.take k)).Legal calls[k]) :
    let st := run mapSize calls
    (∀ id v, st.live id = some v → st.map.find mapSize id = v) ∧
    (∀ id id', (st.live id).isSome → (st.live id').isSome →
      id &&& mask mapSize = id' &&& mask mapSize → id = id') ∧
    ∀ id poolIndex side,
      ((st.map.insert mapSize id poolIndex side).1 = false ↔
        ∃ id', (st.live id').isSome ∧ id' &&& mask mapSize = id &&& mask mapSize) ∧
      ((st.map.insert mapSize id poolIndex side).1 = false →
        (st.map.insert mapSize id poolIndex side).2 = st.map) := by
  have htracks : (run mapSize calls).Tracks mapSize := by
    simpa using tracks_run h hmax hlegal calls.length le_rfl
  intro st
  refine ⟨htracks.found, fun id id' hid hid' hidx => htracks.alone id id' hid hid' (findIndex_inj.mpr hidx),
    fun id poolIndex side => ?_⟩
  have htaken : ¬ Vacant (st.map.find mapSize id) ↔
      ∃ id', (st.live id').isSome ∧ findIndex mapSize id' = findIndex mapSize id := htracks.taken_iff id
  simp only [findIndex_inj] at htaken
  rw [← htaken]
  by_cases hv : Vacant (st.map.find mapSize id)
  · simp [insert_of_vacant h hmax hv, hv]
  · simp [insert_of_taken h hmax hv, hv]

/-- A map of four cells: an order is inserted, one whose id has the same low bits is turned
away, and gets the cell when the first is erased. -/
theorem live_orders_found_four :
    (run 4 [.insert 1 7 66, .insert 5 8 83, .erase 1, .insert 5 8 83]).map.find 4 5 = ⟨8, 83⟩ := by
  have hlegal : ∀ k (hk : k < [MapCall.insert 1 7 66, .insert 5 8 83, .erase 1, .insert 5 8 83].length),
      (run 4 ([MapCall.insert 1 7 66, .insert 5 8 83, .erase 1, .insert 5 8 83].take k)).Legal
        [MapCall.insert 1 7 66, .insert 5 8 83, .erase 1, .insert 5 8 83][k] := by
    intro k hk
    match k, hk with
    | 0, _ => simp [Legal, OrderMap.noPoolIndex]
    | 1, _ => simp [Legal, OrderMap.noPoolIndex]
    | 2, _ => rfl
    | 3, _ => simp [Legal, OrderMap.noPoolIndex]
  exact (live_orders_found (by decide) (by decide) hlegal).1 5 ⟨8, 83⟩ rfl

/-! ### Ids that are not live -/

/-- What the calls of `insert` have given for the ids with the low bits `low`, since the
last call that has cleared the cell of these: an `erase` of such an id, or a `reset`. -/
def given (mapSize : ℕ) (low : UInt64) (calls : List MapCall) : List MapValue :=
  calls.foldl (fun ws c => match c with
    | .insert id poolIndex side => if id &&& mask mapSize = low then ws ++ [⟨poolIndex, side⟩] else ws
    | .erase id => if id &&& mask mapSize = low then [] else ws
    | .reset => []) []

/-- What a cell holds that has been given some values: the first of them that is not
vacant, else the last. -/
def kept (ws : List MapValue) : MapValue :=
  ws.foldl (fun v w => if Vacant v then w else v) OrderMap.emptyValue

/-- **Nothing is left of what was given**: all of it was of index `NONE`, and the last, if
there was any, of side `0`. -/
def LeftEmpty (ws : List MapValue) : Prop :=
  (∀ w ∈ ws, w.poolIndex = OrderMap.noPoolIndex) ∧ ∀ w ∈ ws.getLast?, w.side = 0

instance (ws : List MapValue) : Decidable (LeftEmpty ws) := inferInstanceAs (Decidable (_ ∧ _))

theorem kept_snoc (ws : List MapValue) (w : MapValue) :
    kept (ws ++ [w]) = if Vacant (kept ws) then w else kept ws := by
  rw [kept, List.foldl_append]
  rfl

theorem vacant_kept_iff (ws : List MapValue) : Vacant (kept ws) ↔ ∀ w ∈ ws, Vacant w := by
  induction ws using List.reverseRecOn with
  | nil => simp [kept, Vacant, OrderMap.emptyValue]
  | append_singleton ws w ih =>
    rw [kept_snoc]
    by_cases hv : Vacant (kept ws)
    · have hall := ih.mp hv
      simp only [hv, if_true, List.mem_append, List.mem_singleton]
      constructor
      · rintro hw w' (hw' | rfl)
        · exact hall w' hw'
        · exact hw
      · exact fun h => h w (Or.inr rfl)
    · simp only [hv, if_false, false_iff]
      exact fun h => hv (ih.mpr fun w' hw' => h w' (List.mem_append_left _ hw'))

theorem kept_eq_empty_iff (ws : List MapValue) : kept ws = OrderMap.emptyValue ↔ LeftEmpty ws := by
  induction ws using List.reverseRecOn with
  | nil => simp [kept, LeftEmpty]
  | append_singleton ws w _ =>
    have hempty : w = OrderMap.emptyValue ↔ Vacant w ∧ w.side = 0 := by
      cases w
      simp [OrderMap.emptyValue, Vacant]
    have hlast : LeftEmpty (ws ++ [w]) ↔ (∀ w' ∈ ws, Vacant w') ∧ Vacant w ∧ w.side = 0 := by
      simp [LeftEmpty, Vacant, or_imp, forall_and, and_assoc]
    rw [kept_snoc, hlast, ← vacant_kept_iff]
    by_cases hv : Vacant (kept ws)
    · simp [hv, hempty]
    · have hne : kept ws ≠ OrderMap.emptyValue := fun heq => hv (by rw [heq]; rfl)
      simp [hv, hne]

theorem given_insert (calls : List MapCall) (low id : UInt64) (poolIndex : UInt16) (side : Int8) :
    given mapSize low (calls ++ [.insert id poolIndex side]) =
      if id &&& mask mapSize = low then given mapSize low calls ++ [⟨poolIndex, side⟩]
      else given mapSize low calls := by
  rw [given, List.foldl_append]
  rfl

theorem given_erase (calls : List MapCall) (low id : UInt64) :
    given mapSize low (calls ++ [.erase id]) = if id &&& mask mapSize = low then [] else given mapSize low calls := by
  rw [given, List.foldl_append]
  rfl

theorem given_reset (calls : List MapCall) (low : UInt64) : given mapSize low (calls ++ [.reset]) = [] := by
  rw [given, List.foldl_append]
  rfl

/-- The cells after a run, whatever its calls: each holds what is left of what it has been
given, and if it has been given anything, it is the cell of a live id. -/
structure Given (mapSize : ℕ) (calls : List MapCall) (st : MapState) : Prop where
  cell : ∀ id, st.map.find mapSize id = kept (given mapSize (id &&& mask mapSize) calls)
  owned : ∀ id, given mapSize (id &&& mask mapSize) calls ≠ [] →
    ∃ id', (st.live id').isSome ∧ id' &&& mask mapSize = id &&& mask mapSize

/-- The cells after a write to that of `id`. -/
theorem find_update (m : OrderMap) (id id' : UInt64) (v : MapValue) :
    (⟨Function.update m.map (findIndex mapSize id) v⟩ : OrderMap).find mapSize id' =
      if id &&& mask mapSize = id' &&& mask mapSize then v else m.find mapSize id' := by
  simp only [← findIndex_inj]
  split_ifs with hidx
  · rw [OrderMap.find, ← hidx]
    exact Function.update_self ..
  · exact Function.update_of_ne (Ne.symm hidx) ..

/-- A live id other than one whose cell is another stays live when that one changes. -/
theorem exists_live_update {live : UInt64 → Option MapValue} {id low : UInt64} {v : Option MapValue}
    (hlow : id &&& mask mapSize ≠ low) (h : ∃ id', (live id').isSome ∧ id' &&& mask mapSize = low) :
    ∃ id', (Function.update live id v id').isSome ∧ id' &&& mask mapSize = low := by
  obtain ⟨id', hlive, hlow'⟩ := h
  have hid : id' ≠ id := fun heq => hlow (by rw [← hlow', heq])
  exact ⟨id', by rwa [Function.update_of_ne hid], hlow'⟩

/-- **What every call preserves.** -/
theorem Given.call {calls : List MapCall} (hg : Given mapSize calls st) (h : 1 ≤ mapSize) (hmax : mapSize ≤ 65536)
    (c : MapCall) : Given mapSize (calls ++ [c]) (st.call mapSize c) := by
  cases c with
  | insert id poolIndex side =>
    by_cases hv : Vacant (st.map.find mapSize id)
    · -- the value is written
      rw [MapState.call, insert_of_vacant h hmax hv]
      refine ⟨fun id' => ?_, fun id' hne => ?_⟩
      · rw [find_update, given_insert]
        split_ifs with hlow
        · rw [kept_snoc, ← hlow, ← hg.cell, if_pos hv]
        · exact hg.cell id'
      · by_cases hlow : id &&& mask mapSize = id' &&& mask mapSize
        · exact ⟨id, by simp, hlow⟩
        · rw [given_insert, if_neg hlow] at hne
          exact exists_live_update hlow (hg.owned id' hne)
    · -- the cell is taken
      have hkept : ¬ Vacant (kept (given mapSize (id &&& mask mapSize) calls)) := by rwa [← hg.cell]
      rw [MapState.call, insert_of_taken h hmax hv]
      refine ⟨fun id' => ?_, fun id' hne => ?_⟩
      · show st.map.find mapSize id' = _
        rw [given_insert, hg.cell]
        split_ifs with hlow
        · rw [kept_snoc, ← hlow, if_neg hkept]
        · rfl
      · by_cases hlow : id &&& mask mapSize = id' &&& mask mapSize
        · rw [← hlow]
          exact hg.owned id fun hnil => hkept (by rw [hnil]; rfl)
        · rw [given_insert, if_neg hlow] at hne
          exact hg.owned id' hne
  | erase id =>
    rw [MapState.call, OrderMap.erase, slotIndex_eq h hmax]
    refine ⟨fun id' => ?_, fun id' hne => ?_⟩
    · rw [find_update, given_erase]
      split_ifs with hlow
      · rfl
      · exact hg.cell id'
    · by_cases hlow : id &&& mask mapSize = id' &&& mask mapSize
      · rw [given_erase, if_pos hlow] at hne
        exact absurd rfl hne
      · rw [given_erase, if_neg hlow] at hne
        exact exists_live_update hlow (hg.owned id' hne)
  | reset =>
    refine ⟨fun id' => ?_, fun id' hne => absurd (given_reset ..) hne⟩
    rw [given_reset]
    rfl

/-- **What every run preserves.** -/
theorem given_run (h : 1 ≤ mapSize) (hmax : mapSize ≤ 65536) (calls : List MapCall) :
    Given mapSize calls (run mapSize calls) := by
  induction calls using List.reverseRecOn with
  | nil => exact ⟨fun _ => rfl, fun _ hne => absurd rfl hne⟩
  | append_singleton calls c ih =>
    rw [run_snoc]
    exact ih.call h hmax c

/-- **When an id that is not live is not taken for another**: after any sequence of calls,
`find` does not find it, and `erase` of it changes what is found for no live id, exactly
when nothing is left of what has been given for the ids of its cell. -/
theorem not_confused_iff (h : 1 ≤ mapSize) (hmax : mapSize ≤ 65536) (calls : List MapCall) :
    let st := run mapSize calls
    ∀ id, st.live id = none →
      (((st.map.find mapSize id).poolIndex = OrderMap.noPoolIndex ∧
          ∀ id', (st.live id').isSome → (st.map.erase mapSize id).find mapSize id' = st.map.find mapSize id') ↔
        LeftEmpty (given mapSize (id &&& mask mapSize) calls)) := by
  have hg := given_run h hmax calls
  generalize run mapSize calls = st at hg
  intro _ id _
  rw [← kept_eq_empty_iff, ← hg.cell]
  have herase (id' : UInt64) : (st.map.erase mapSize id).find mapSize id' =
      if id &&& mask mapSize = id' &&& mask mapSize then OrderMap.emptyValue else st.map.find mapSize id' := by
    rw [OrderMap.erase, slotIndex_eq h hmax, find_update]
  constructor
  · rintro ⟨-, hkeep⟩
    by_cases hnil : given mapSize (id &&& mask mapSize) calls = []
    · rw [hg.cell, hnil]
      rfl
    · obtain ⟨id', hlive, hlow⟩ := hg.owned id hnil
      have hsame := hkeep id' hlive
      rw [herase, if_pos hlow.symm] at hsame
      rw [hg.cell, ← hlow, ← hg.cell, ← hsame]
  · intro hempty
    refine ⟨by rw [hempty]; rfl, fun id' _ => ?_⟩
    rw [herase]
    split_ifs with hlow
    · rw [← hempty, hg.cell, hg.cell, hlow]
    · rfl

/-- In a map of four cells the order 1 is not taken for an order 2. -/
theorem not_confused_two :
    let st := run 4 [.insert 1 7 66]
    (st.map.find 4 2).poolIndex = OrderMap.noPoolIndex ∧
      ∀ id', (st.live id').isSome → (st.map.erase 4 2).find 4 id' = st.map.find 4 id' :=
  (not_confused_iff (by decide) (by decide) [.insert 1 7 66] 2 rfl).mpr (by decide)

/-- It is found for an order 5, and erased with it. -/
theorem other_order_found :
    let st := run 4 [.insert 1 7 66]
    st.live 5 = none ∧ (st.map.find 4 5).poolIndex = 7 ∧ (st.map.erase 4 5).find 4 1 ≠ st.map.find 4 1 := by
  decide

end Live

/-! ### Tables of any size -/

section Cut

variable {mapSize : ℕ} {m : OrderMap} {id : UInt64}

/-- `find` looks at the low bits of the id. -/
theorem findIndex_eq (hpow : mapSize.isPowerOfTwo) (hsize : mapSize < 2 ^ 64) (id : UInt64) :
    findIndex mapSize id = id.toNat % mapSize := by
  obtain ⟨k, rfl⟩ := hpow
  rw [findIndex, UInt64.toNat_and, toNat_mask (Nat.two_pow_pos k) hsize, Nat.and_two_pow_sub_one_eq_mod]

/-- `insert` and `erase` cut this to a `uint16_t`. -/
theorem slotIndex_eq_mod (mapSize : ℕ) (id : UInt64) : slotIndex mapSize id = findIndex mapSize id % 65536 :=
  UInt64.toNat_toUInt16 _

theorem slotIndex_eq_findIndex_iff (hpow : mapSize.isPowerOfTwo) (hsize : mapSize < 2 ^ 64) :
    slotIndex mapSize id = findIndex mapSize id ↔ id.toNat % mapSize < 65536 := by
  rw [slotIndex_eq_mod, findIndex_eq hpow hsize]
  omega

/-- **When the writers and the reader of the map address one cell**: for every size of the
table that is a power of two, every id, every pool index other than `NONE` and every state
of the map, an `insert` that returns `true` makes `find` report the index and the side, and
an `erase` makes it report `NONE`, exactly when the masked id fits in a `uint16_t`; or, if it
does not, when the cell the writers use is taken and the one `find` looks at is empty, so
that nothing is inserted and nothing was there. -/
theorem slot_agrees_iff (hpow : mapSize.isPowerOfTwo) (hsize : mapSize < 2 ^ 64) (m : OrderMap) (id : UInt64)
    {poolIndex : UInt16} (hnone : poolIndex ≠ OrderMap.noPoolIndex) (side : Int8) :
    (((m.insert mapSize id poolIndex side).1 = true →
        (m.insert mapSize id poolIndex side).2.find mapSize id = ⟨poolIndex, side⟩) ∧
      ((m.erase mapSize id).find mapSize id).poolIndex = OrderMap.noPoolIndex) ↔
    id.toNat % mapSize < 65536 ∨
      ¬ Vacant (m.map (slotIndex mapSize id)) ∧ Vacant (m.find mapSize id) := by
  rw [← slotIndex_eq_findIndex_iff hpow hsize]
  by_cases hslot : slotIndex mapSize id = findIndex mapSize id
  · refine iff_of_true ⟨fun hins => ?_, ?_⟩ (Or.inl hslot)
    · rw [insert_eq] at hins ⊢
      split_ifs at hins ⊢
      rw [OrderMap.find, ← hslot]
      exact Function.update_self ..
    · have herase : (m.erase mapSize id).find mapSize id = OrderMap.emptyValue := by
        rw [OrderMap.find, ← hslot]
        exact Function.update_self ..
      rw [herase]
      rfl
  · have hother : findIndex mapSize id ≠ slotIndex mapSize id := Ne.symm hslot
    have herase : (m.erase mapSize id).find mapSize id = m.find mapSize id := Function.update_of_ne hother ..
    rw [herase, insert_eq]
    simp only [hslot, false_or]
    constructor
    · rintro ⟨hins, hempty⟩
      refine ⟨fun hv => hnone ?_, hempty⟩
      -- the entry is in another cell than the one `find` looks at
      simp only [hv, if_true, true_imp_iff, OrderMap.find, Function.update_of_ne hother] at hins
      rw [OrderMap.find, hins] at hempty
      exact hempty
    · rintro ⟨htaken, hempty⟩
      refine ⟨fun hins => ?_, hempty⟩
      simp [htaken] at hins

/-- A map of `131072` cells with the id `9` in it. -/
def oneEntry : OrderMap := (OrderMap.create.insert 131072 9 4 83).2

/-- The id `7` has one cell in it: it is found when it has been inserted, and not when it has been erased. -/
theorem slot_agrees_seven :
    let m := (oneEntry.insert 131072 7 3 66).2
    m.find 131072 7 = ⟨3, 66⟩ ∧ ((m.erase 131072 7).find 131072 7).poolIndex = OrderMap.noPoolIndex := by
  have hnone : (3 : UInt16) ≠ OrderMap.noPoolIndex := by decide
  have hcell : (7 : UInt64).toNat % 131072 < 65536 := by decide
  have hpow : Nat.isPowerOfTwo 131072 := ⟨17, rfl⟩
  exact ⟨((slot_agrees_iff hpow (by decide) oneEntry 7 hnone 66).mpr (Or.inl hcell)).1 (by decide),
    ((slot_agrees_iff hpow (by decide) _ 7 hnone 66).mpr (Or.inl hcell)).2⟩

/-- The id `65536` has two: `insert` puts it in the cell `0`, and `find` looks at the cell
`65536`. -/
theorem slot_disagrees :
    (OrderMap.create.insert 131072 65536 3 66).1 = true ∧
      ((OrderMap.create.insert 131072 65536 3 66).2.find 131072 65536).poolIndex = OrderMap.noPoolIndex ∧
      ¬ ((OrderMap.create.insert 131072 65536 3 66).1 = true →
        (OrderMap.create.insert 131072 65536 3 66).2.find 131072 65536 = ⟨3, 66⟩) := by
  decide

end Cut

end Scrimmage.Match
