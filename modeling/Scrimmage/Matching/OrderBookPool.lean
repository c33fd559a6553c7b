import Scrimmage.Theory.Chain
import Mathlib.Data.Finset.Card
import Mathlib.Data.Finset.Range
import Mathlib.Data.List.Induction
import Mathlib.Algebra.Ring.Nat

/-!
# The pool of order book entries

`OrderBookPool` of `OrderPool.h`: a fixed array of entries whose free ones are linked
through their own `nextFreeIndex`, with `OrderBookEntry` of `OrderBookEntry.h`. The pool
never looks at the order of an entry, which is of any type, `default` being `Order()`.

`free` links the entry to the free list and then resets it, and `reset` sets
`nextFreeIndex` to `0`: whatever was free before is off the list, and the list goes on at
the entry `0` instead.

## What is proved

* `Fresh.correct`: the pool allocates as it should as long as nothing is freed.
* `Fresh.not_correct_free`: the first `free` breaks the free list.
* `allocator_correct_iff`: over any legal sequence of calls the pool is a correct allocator
  exactly when `free` is not called. `Fresh.allocate_twice` is what happens when it is:
  the second `allocate` after it hands out the entry `0`, which is in use.
* `allocates_iff`: the indices `allocate` can return are all those of the array.
-/

namespace Scrimmage.Matching

open Theory

/-- `NO_FREE_INDEX`, which is `SIZE_MAX`. -/
def noFreeIndex : ℕ := 2 ^ 64 - 1

/-- `OrderBookEntry`. -/
structure OrderBookEntry (ω : Type) where
  /-- `order`. -/
  order : ω
  /-- `nextFreeIndex`. -/
  nextFreeIndex : ℕ

/-- `OrderBookPool`: `_entries`, of which `MaxOrders` are there, and `_freeIndex`. -/
structure OrderBookPool (ω : Type) where
  /-- `_entries`. -/
  entries : ℕ → OrderBookEntry ω
  /-- `_freeIndex`. -/
  freeIndex : ℕ

variable {ω : Type}

/-- `OrderBookEntry::reset`. -/
def OrderBookEntry.reset [Inhabited ω] (_ : OrderBookEntry ω) : OrderBookEntry ω := { order := default, nextFreeIndex := 0 }

namespace OrderBookPool

/-- `_entries[idx].nextFreeIndex.store(next)`. -/
def storeNext (p : OrderBookPool ω) (idx next : ℕ) : OrderBookPool ω :=
  { p with entries := Function.update p.entries idx { p.entries idx with nextFreeIndex := next } }

/-- `OrderBookPool()`: the loop that links each entry to the next one, and the last. -/
def create (ω : Type) [Inhabited ω] (maxOrders : ℕ) : OrderBookPool ω :=
  let p : OrderBookPool ω := ⟨fun _ => { order := default, nextFreeIndex := 0 }, 0⟩
  let p := (List.range (maxOrders - 1)).foldl (fun p i => p.storeNext i (i + 1)) p
  { p.storeNext (maxOrders - 1) noFreeIndex with freeIndex := 0 }

/-- `allocate`: the index it returns, and the pool after. -/
def allocate (p : OrderBookPool ω) : ℕ × OrderBookPool ω :=
  let current := p.freeIndex
  if current = noFreeIndex then (noFreeIndex, p)
  else
    let next := (p.entries current).nextFreeIndex
    (current, { p with freeIndex := next })

/-- `free`. -/
def free [Inhabited ω] (p : OrderBookPool ω) (idx : ℕ) : OrderBookPool ω :=
  let p := p.storeNext idx p.freeIndex
  let p := { p with freeIndex := idx }
  { p with entries := Function.update p.entries idx (p.entries idx).reset }

/-- The `nextFreeIndex` of every entry. -/
def next (p : OrderBookPool ω) (i : ℕ) : ℕ := (p.entries i).nextFreeIndex

theorem next_storeNext (p : OrderBookPool ω) (idx n : ℕ) :
    (p.storeNext idx n).next = Function.update p.next idx n := by
  funext i
  by_cases hi : i = idx
  · subst hi
    simp [next, storeNext]
  · simp [next, storeNext, hi]

theorem next_create_foldl (n : ℕ) (p : OrderBookPool ω) (i : ℕ) :
    ((List.range n).foldl (fun p i => p.storeNext i (i + 1)) p).next i =
      if i < n then i + 1 else p.next i := by
  induction n with
  | zero => simp
  | succ n ih =>
    rw [List.range_succ, List.foldl_append, List.foldl_cons, List.foldl_nil, next_storeNext]
    by_cases hi : i = n
    · subst hi
      simp
    · rw [Function.update_of_ne hi, ih]
      exact if_congr (by omega) rfl rfl

variable [Inhabited ω]

/-- **What `free` leaves behind**: the entry freed is first on the list, with `0` after it. -/
theorem next_free (p : OrderBookPool ω) (idx : ℕ) : (p.free idx).next = Function.update p.next idx 0 := by
  funext i
  by_cases hi : i = idx
  · subst hi
    simp [next, free, OrderBookEntry.reset]
  · simp [next, free, storeNext, hi]

@[simp] theorem freeIndex_free (p : OrderBookPool ω) (idx : ℕ) : (p.free idx).freeIndex = idx := rfl

/-- **The list the constructor builds**: each entry, the next one. -/
theorem next_create {maxOrders i : ℕ} (hi : i < maxOrders) :
    (create ω maxOrders).next i = if i + 1 < maxOrders then i + 1 else noFreeIndex := by
  have hnext : (create ω maxOrders).next i = Function.update
      ((List.range (maxOrders - 1)).foldl (fun p i => p.storeNext i (i + 1))
        (⟨fun _ => { order := default, nextFreeIndex := 0 }, 0⟩ : OrderBookPool ω)).next
      (maxOrders - 1) noFreeIndex i := by
    rw [← next_storeNext]
    rfl
  rw [hnext]
  by_cases hlast : i = maxOrders - 1
  · rw [hlast, Function.update_self, if_neg (by omega)]
  · rw [Function.update_of_ne hlast, next_create_foldl, if_pos (by omega), if_pos (by omega)]

end OrderBookPool

/-! ### Runs -/

/-- A call on the pool. -/
inductive PoolCall where
  /-- `allocate()`. -/
  | allocate
  /-- `free(idx)`. -/
  | free (idx : ℕ)
  deriving DecidableEq

/-- The pool, and the indices that are allocated: handed out, and not freed since. -/
structure PoolState (ω : Type) where
  /-- The pool. -/
  pool : OrderBookPool ω
  /-- The indices allocated. -/
  allocated : Finset ℕ

namespace PoolState

variable [Inhabited ω]

/-- What a call does. -/
def call (st : PoolState ω) : PoolCall → PoolState ω
  | .allocate =>
    let (idx, pool) := st.pool.allocate
    ⟨pool, if idx = noFreeIndex then st.allocated else insert idx st.allocated⟩
  | .free idx => ⟨st.pool.free idx, st.allocated.erase idx⟩

/-- The state after a sequence of calls. -/
def run (ω : Type) [Inhabited ω] (maxOrders : ℕ) (calls : List PoolCall) : PoolState ω :=
  calls.foldl call ⟨OrderBookPool.create ω maxOrders, ∅⟩

theorem run_snoc (maxOrders : ℕ) (calls : List PoolCall) (c : PoolCall) :
    run ω maxOrders (calls ++ [c]) = (run ω maxOrders calls).call c := by
  simp [run]

/-- `free` is called only on an index that is allocated. -/
def Legal (st : PoolState ω) (c : PoolCall) : Prop := ∀ idx, c = .free idx → idx ∈ st.allocated

/-- **A correct allocator**: `allocate` returns an index that is not allocated while there
is one, and `NO_FREE_INDEX` exactly when there is none; the free list visits every index
that is not allocated, once, and ends in `NO_FREE_INDEX`. -/
structure Correct (maxOrders : ℕ) (st : PoolState ω) : Prop where
  allocates : st.allocated.card < maxOrders →
    st.pool.allocate.1 < maxOrders ∧ st.pool.allocate.1 ∉ st.allocated
  exhausted : st.pool.allocate.1 = noFreeIndex ↔ st.allocated.card = maxOrders
  freeList : ∃ l, Chain st.pool.next noFreeIndex st.pool.freeIndex l ∧ l.Nodup ∧
    ∀ i, i ∈ l ↔ i < maxOrders ∧ i ∉ st.allocated

end PoolState

open PoolState

/-! ### Before the first `free` -/

variable [Inhabited ω]

/-- The state after `n` indices have been allocated and none has been freed. -/
structure Fresh (maxOrders n : ℕ) (st : PoolState ω) : Prop where
  le : n ≤ maxOrders
  next : st.pool.next = (OrderBookPool.create ω maxOrders).next
  freeIndex : st.pool.freeIndex = if n < maxOrders then n else noFreeIndex
  allocated : st.allocated = Finset.range n

namespace Fresh

variable {maxOrders n : ℕ} {st : PoolState ω}

theorem start (h : 1 ≤ maxOrders) : Fresh maxOrders 0 (run ω maxOrders []) where
  le := Nat.zero_le _
  next := rfl
  freeIndex := by rw [if_pos (by omega)]; rfl
  allocated := rfl

/-- An index of the array is not `NO_FREE_INDEX`. -/
theorem ne_noFreeIndex {i : ℕ} (hmax : maxOrders < 2 ^ 64) (hi : i < maxOrders) : i ≠ noFreeIndex := by
  unfold noFreeIndex
  omega

/-- What `allocate` returns: the next index in turn, as long as there is one. -/
theorem allocate_fst (h : Fresh maxOrders n st) :
    st.pool.allocate.1 = if n < maxOrders then n else noFreeIndex := by
  rw [← h.freeIndex, OrderBookPool.allocate]
  split_ifs with hc
  · exact hc.symm
  · rfl

/-- **`allocate` keeps it so.** -/
theorem allocate (h : Fresh maxOrders n st) (hmax : maxOrders < 2 ^ 64) :
    Fresh maxOrders (if n < maxOrders then n + 1 else n) (st.call .allocate) := by
  by_cases hn : n < maxOrders
  · have hfree : st.pool.freeIndex = n := by rw [h.freeIndex, if_pos hn]
    have hne : n ≠ noFreeIndex := ne_noFreeIndex hmax hn
    have hcall : st.call .allocate = ⟨{ st.pool with freeIndex := st.pool.next n }, insert n st.allocated⟩ := by
      simp [PoolState.call, OrderBookPool.allocate, hfree, hne, OrderBookPool.next]
    rw [hcall, if_pos hn]
    refine ⟨hn, h.next, ?_, ?_⟩
    · show st.pool.next n = _
      rw [h.next, OrderBookPool.next_create hn]
    · show insert n st.allocated = _
      rw [h.allocated, Finset.range_add_one]
  · have hcall : st.call .allocate = st := by
      have hfree : st.pool.freeIndex = noFreeIndex := by rw [h.freeIndex, if_neg hn]
      simp [PoolState.call, OrderBookPool.allocate, hfree]
    rw [hcall, if_neg hn]
    exact h

/-- The free list that starts at `i`: all indices from there. -/
theorem chain_create (hmax : maxOrders < 2 ^ 64) (k : ℕ) : ∀ i, i + k = maxOrders →
    Chain (OrderBookPool.create ω maxOrders).next noFreeIndex (if i < maxOrders then i else noFreeIndex)
      (List.range' i k) := by
  induction k with
  | zero =>
    intro i hi
    rw [if_neg (by omega)]
    exact Chain.nil_iff.mpr rfl
  | succ k ih =>
    intro i hi
    have hlt : i < maxOrders := by omega
    rw [if_pos hlt, List.range'_succ, Chain.cons_iff, OrderBookPool.next_create hlt]
    exact ⟨rfl, ne_noFreeIndex hmax hlt, ih (i + 1) (by omega)⟩

/-- **The allocator is correct before the first `free`.** -/
theorem correct (h : Fresh maxOrders n st) (hmax : maxOrders < 2 ^ 64) : Correct maxOrders st := by
  have hcard : st.allocated.card = n := by rw [h.allocated, Finset.card_range]
  refine ⟨fun hlt => ?_, ?_, List.range' n (maxOrders - n), ?_, List.nodup_range', fun i => ?_⟩
  · rw [hcard] at hlt
    rw [h.allocate_fst, if_pos hlt, h.allocated]
    exact ⟨hlt, by simp⟩
  · rw [hcard, h.allocate_fst]
    have hle := h.le
    split_ifs with hlt
    · have hne := ne_noFreeIndex hmax hlt
      exact ⟨fun heq => absurd heq hne, fun heq => absurd hlt (by omega)⟩
    · exact ⟨fun _ => by omega, fun _ => rfl⟩
  · rw [h.next, h.freeIndex]
    have hle := h.le
    exact chain_create hmax _ n (by omega)
  · have hle := h.le
    rw [List.mem_range'_1, h.allocated, Finset.mem_range]
    omega

/-! ### The first `free` -/

/-- **The first `free` breaks the free list**: after the entry freed it goes on at the entry
`0`, which is allocated, or is the entry freed. -/
theorem not_correct_free (h : Fresh maxOrders n st) {idx : ℕ} (hidx : idx ∈ st.allocated) :
    ¬ Correct maxOrders (st.call (.free idx)) := by
  rintro ⟨-, -, l, hchain, -, hmem⟩
  change Chain (st.pool.free idx).next noFreeIndex idx l at hchain
  change ∀ i, i ∈ l ↔ i < maxOrders ∧ i ∉ st.allocated.erase idx at hmem
  have hidx' := hidx
  rw [h.allocated, Finset.mem_range] at hidx
  have hl : l ≠ [] := by
    rintro rfl
    have := (hmem idx).mpr ⟨by have := h.le; omega, by simp⟩
    cases this
  obtain ⟨x, l, rfl⟩ := List.exists_cons_of_ne_nil hl
  obtain ⟨rfl, -, htail⟩ := Chain.cons_iff.mp hchain
  rw [OrderBookPool.next_free, Function.update_self] at htail
  have hzero : (0 : ℕ) ∈ l := by
    cases l with
    | nil =>
      have : (0 : ℕ) = noFreeIndex := Chain.nil_iff.mp htail
      unfold noFreeIndex at this
      omega
    | cons y l =>
      obtain ⟨rfl, -, -⟩ := Chain.cons_iff.mp htail
      exact List.mem_cons_self ..
  by_cases h0 : idx = 0
  · subst h0
    exact (List.nodup_cons.mp hchain.nodup).1 hzero
  · have hnot := ((hmem 0).mp (List.mem_cons_of_mem idx hzero)).2
    apply hnot
    rw [h.allocated]
    exact Finset.mem_erase.mpr ⟨Ne.symm h0, Finset.mem_range.mpr (by omega)⟩

/-- **Two calls of `allocate` after the first `free`** hand out the entry freed, and then the
entry `0`, which is in use. -/
theorem allocate_twice (h : Fresh maxOrders n st) (hmax : maxOrders < 2 ^ 64) {idx : ℕ}
    (hidx : idx ∈ st.allocated) :
    let st' := (st.call (.free idx)).call .allocate
    st'.pool.allocate.1 = 0 ∧ 0 ∈ st'.allocated := by
  rw [h.allocated, Finset.mem_range] at hidx
  have hne : idx ≠ noFreeIndex := ne_noFreeIndex hmax (lt_of_lt_of_le hidx h.le)
  have hnext : (st.pool.free idx).next idx = 0 := by
    rw [OrderBookPool.next_free, Function.update_self]
  have hcall : (st.call (.free idx)).call .allocate =
      ⟨{ st.pool.free idx with freeIndex := 0 }, insert idx (st.allocated.erase idx)⟩ := by
    simp only [PoolState.call, OrderBookPool.allocate, OrderBookPool.freeIndex_free, hne, if_false]
    rw [← hnext]
    rfl
  rw [hcall]
  refine ⟨?_, ?_⟩
  · simp [OrderBookPool.allocate, noFreeIndex]
  · show 0 ∈ insert idx (st.allocated.erase idx)
    rw [h.allocated, Finset.insert_erase (Finset.mem_range.mpr hidx)]
    exact Finset.mem_range.mpr (by omega)

end Fresh

/-- As long as nothing is freed, the state is fresh. -/
theorem fresh_run {maxOrders : ℕ} (h : 1 ≤ maxOrders) (hmax : maxOrders < 2 ^ 64) {calls : List PoolCall}
    (hcalls : ∀ idx, .free idx ∉ calls) : ∃ n, Fresh maxOrders n (run ω maxOrders calls) := by
  induction calls using List.reverseRecOn with
  | nil => exact ⟨0, Fresh.start h⟩
  | append_singleton calls c ih =>
    obtain ⟨n, hn⟩ := ih fun idx hm => hcalls idx (List.mem_append_left _ hm)
    rw [run_snoc]
    cases c with
    | allocate => exact ⟨_, hn.allocate hmax⟩
    | free idx => exact absurd (by simp) (hcalls idx)

/-- **When the pool is a correct allocator**: for every number of entries and every sequence
of calls that frees only what is allocated, it is one in every state exactly when the
sequence frees nothing. -/
theorem allocator_correct_iff {maxOrders : ℕ} (h : 1 ≤ maxOrders) (hmax : maxOrders < 2 ^ 64)
    (calls : List PoolCall)
    (hlegal : ∀ k (hk : k < calls.length), (run ω maxOrders (calls.take k)).Legal calls[k]) :
    (∀ k ≤ calls.length, (run ω maxOrders (calls.take k)).Correct maxOrders) ↔
      ∀ idx, .free idx ∉ calls := by
  constructor
  · intro hcorrect
    -- a first `free` would come after calls that free nothing
    suffices hprefix : ∀ k ≤ calls.length, ∀ idx, .free idx ∉ calls.take k by
      simpa using hprefix calls.length le_rfl
    intro k
    induction k with
    | zero => simp
    | succ k ih =>
      intro hk idx hm
      rw [← List.take_concat_get' calls k hk, List.mem_append, List.mem_singleton] at hm
      have hbefore := ih (Nat.le_of_succ_le hk)
      rcases hm with hm | hm
      · exact hbefore idx hm
      · obtain ⟨n, hfresh⟩ := fresh_run (ω := ω) h hmax hbefore
        have hbad := hfresh.not_correct_free (hlegal k hk idx hm.symm)
        apply hbad
        rw [hm, ← run_snoc, List.take_concat_get' calls k hk]
        exact hcorrect (k + 1) hk
  · intro hfree k _
    obtain ⟨n, hfresh⟩ := fresh_run (ω := ω) h hmax fun idx hm => hfree idx (List.mem_of_mem_take hm)
    exact hfresh.correct hmax

/-- Two entries, all allocated in turn. -/
theorem allocator_correct_two : (1 ≤ 2) ∧ (2 < 2 ^ 64) ∧
    ∀ k ≤ 2, (run Unit 2 ([.allocate, .allocate].take k)).Correct 2 :=
  ⟨by decide, by decide, (allocator_correct_iff (by decide) (by decide) [.allocate, .allocate]
    (fun k hk idx h => by
      rcases k with _ | _ | k
      · cases h
      · cases h
      · exact absurd hk (by simp))).mpr (by simp)⟩

/-- With one entry, freed and allocated again, the next `allocate` hands it out a second time. -/
theorem allocated_twice :
    let calls : List PoolCall := [.allocate, .free 0, .allocate]
    (∀ k (hk : k < calls.length), (run Unit 1 (calls.take k)).Legal calls[k]) ∧
      ¬ (run Unit 1 calls).Correct 1 := by
  intro calls
  constructor
  · intro k hk idx h
    rcases k with _ | _ | _ | k
    · cases h
    · cases h
      decide
    · cases h
    · exact absurd hk (by simp [calls])
  · rintro ⟨-, hexhausted, -⟩
    have hcard : (run Unit 1 calls).allocated.card = 1 := by decide
    have hzero : (run Unit 1 calls).pool.allocate.1 = 0 := by decide
    have := hexhausted.mpr hcard
    rw [hzero, noFreeIndex] at this
    omega

/-! ### The indices handed out -/

/-- **An index `allocate` can return**, after calls that free only what is allocated. -/
def Allocates (ω : Type) [Inhabited ω] (maxOrders idx : ℕ) : Prop :=
  ∃ calls : List PoolCall,
    (∀ k (hk : k < calls.length), (run ω maxOrders (calls.take k)).Legal calls[k]) ∧
    (run ω maxOrders calls).pool.allocate.1 = idx ∧ idx ≠ noFreeIndex

/-- The free list stays in the array, also after a `free` has broken it. -/
structure InArray (maxOrders : ℕ) (st : PoolState ω) : Prop where
  freeIndex : st.pool.freeIndex < maxOrders ∨ st.pool.freeIndex = noFreeIndex
  next : ∀ i < maxOrders, st.pool.next i < maxOrders ∨ st.pool.next i = noFreeIndex
  allocated : ∀ i ∈ st.allocated, i < maxOrders

namespace InArray

variable {maxOrders : ℕ} {st : PoolState ω}

theorem start (h : 1 ≤ maxOrders) : InArray maxOrders (run ω maxOrders []) where
  freeIndex := Or.inl h
  next i hi := by
    show (OrderBookPool.create ω maxOrders).next i < maxOrders ∨
      (OrderBookPool.create ω maxOrders).next i = noFreeIndex
    rw [OrderBookPool.next_create hi]
    split_ifs with hlt
    · exact Or.inl hlt
    · exact Or.inr rfl
  allocated i hi := by cases hi

/-- **A legal call keeps it there.** -/
theorem call (h : InArray maxOrders st) (hmax : 1 ≤ maxOrders) {c : PoolCall} (hc : st.Legal c) :
    InArray maxOrders (st.call c) := by
  cases c with
  | allocate =>
    rcases h.freeIndex with hlt | hnone
    · by_cases hne : st.pool.freeIndex = noFreeIndex
      · have hcall : st.call .allocate = st := by simp [PoolState.call, OrderBookPool.allocate, hne]
        rw [hcall]
        exact h
      · have hcall : st.call .allocate = ⟨{ st.pool with freeIndex := st.pool.next st.pool.freeIndex },
            insert st.pool.freeIndex st.allocated⟩ := by
          simp [PoolState.call, OrderBookPool.allocate, hne, OrderBookPool.next]
        rw [hcall]
        refine ⟨h.next _ hlt, h.next, fun i hi => ?_⟩
        rcases Finset.mem_insert.mp hi with rfl | hi
        · exact hlt
        · exact h.allocated i hi
    · have hcall : st.call .allocate = st := by simp [PoolState.call, OrderBookPool.allocate, hnone]
      rw [hcall]
      exact h
  | free idx =>
    have hidx : idx < maxOrders := h.allocated idx (hc idx rfl)
    refine ⟨Or.inl hidx, fun i hi => ?_, fun i hi => h.allocated i (Finset.mem_of_mem_erase hi)⟩
    show (st.pool.free idx).next i < maxOrders ∨ (st.pool.free idx).next i = noFreeIndex
    rw [OrderBookPool.next_free]
    by_cases heq : i = idx
    · rw [heq, Function.update_self]
      exact Or.inl hmax
    · rw [Function.update_of_ne heq]
      exact h.next i hi

theorem run {calls : List PoolCall} (hmax : 1 ≤ maxOrders)
    (hlegal : ∀ k (hk : k < calls.length), (PoolState.run ω maxOrders (calls.take k)).Legal calls[k]) :
    ∀ k ≤ calls.length, InArray maxOrders (PoolState.run ω maxOrders (calls.take k)) := by
  intro k
  induction k with
  | zero => exact fun _ => start hmax
  | succ k ih =>
    intro hk
    rw [← List.take_concat_get' calls k hk, run_snoc]
    exact (ih (Nat.le_of_succ_le hk)).call hmax (hlegal k hk)

end InArray

theorem fresh_replicate {maxOrders n : ℕ} (h : 1 ≤ maxOrders) (hmax : maxOrders < 2 ^ 64) (hn : n ≤ maxOrders) :
    Fresh maxOrders n (run ω maxOrders (List.replicate n .allocate)) := by
  induction n with
  | zero => exact Fresh.start h
  | succ n ih =>
    have hcall := (ih (Nat.le_of_succ_le hn)).allocate hmax
    rw [if_pos (Nat.lt_of_succ_le hn)] at hcall
    rw [List.replicate_succ', run_snoc]
    exact hcall

/-- **The indices handed out are those of the array**, each of them. -/
theorem allocates_iff {maxOrders : ℕ} (h : 1 ≤ maxOrders) (hmax : maxOrders < 2 ^ 64) (idx : ℕ) :
    Allocates ω maxOrders idx ↔ idx < maxOrders := by
  constructor
  · rintro ⟨calls, hlegal, hidx, hne⟩
    have hin : InArray maxOrders (run ω maxOrders calls) := by
      simpa using InArray.run h hlegal calls.length le_rfl
    rcases hin.freeIndex with hlt | hnone
    · rw [OrderBookPool.allocate] at hidx
      split_ifs at hidx with hc
      · exact absurd hidx.symm hne
      · exact hidx ▸ hlt
    · rw [OrderBookPool.allocate, if_pos hnone] at hidx
      exact absurd hidx.symm hne
  · intro hlt
    have hfresh := fresh_replicate (ω := ω) h hmax hlt.le
    refine ⟨List.replicate idx .allocate, fun k hk j hj => ?_, ?_, Fresh.ne_noFreeIndex hmax hlt⟩
    · rw [List.getElem_replicate] at hj
      cases hj
    · rw [hfresh.allocate_fst, if_pos hlt]

end Scrimmage.Matching
