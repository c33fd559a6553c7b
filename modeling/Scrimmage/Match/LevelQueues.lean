import Scrimmage.Match.PriceLevels
import Mathlib.Data.List.Count

/-!
# Two sides of a book over one pool

The bids and asks of a book are two `PriceLevels` over one pool. What they are for is said
by `Queues`: each level of each side is a queue of entries, which come in at the end and
are taken out anywhere.

## What is proved

* `Refines`: every level of both sides holds its queue, and no entry is in two.
  `Refines.append`, `Refines.unlink`, `Refines.reduce`: the operations keep it.
* `levels_hold_queues`: it is so in every state a legal sequence of operations reaches, on
  either side, and `unlinkFromLevel` always ends, with the right answer.
-/

namespace Scrimmage.Match

open Theory

/-- The two sides of a book. -/
inductive BookSide where
  /-- `_bids`. -/
  | bids
  /-- `_asks`. -/
  | asks
  deriving DecidableEq

/-- Two instances of `PriceLevels`, and the pool they share. -/
structure SharedLevels where
  /-- `_bids` and `_asks`. -/
  side : BookSide → PriceLevels
  /-- `_pool`. -/
  pool : OrderPool

namespace SharedLevels

/-- Both sides without orders; the entries of the pool hold anything. -/
def create (pool : OrderPool) : SharedLevels := ⟨fun _ => PriceLevels.create, pool⟩

/-- `appendToLevel` on a side. -/
def append (b : SharedLevels) (x : BookSide) (lvlIdx poolIdx : UInt16) : SharedLevels :=
  let (ls, pool) := (b.side x).appendToLevel lvlIdx poolIdx b.pool
  ⟨Function.update b.side x ls, pool⟩

/-- `unlinkFromLevel` on a side. -/
def unlink (b : SharedLevels) (x : BookSide) (poolIdx : UInt16) : Option (Bool × SharedLevels) :=
  match (b.side x).unlinkFromLevel poolIdx b.pool with
  | none => none
  | some (r, ls, pool) => some (r, ⟨Function.update b.side x ls, pool⟩)

/-- `reduceQuantity` on a side. -/
def reduce (b : SharedLevels) (x : BookSide) (poolIdx : UInt16) (qty : UInt32) : SharedLevels :=
  let (ls, pool) := (b.side x).reduceQuantity poolIdx qty b.pool
  ⟨Function.update b.side x ls, pool⟩

end SharedLevels

/-! ### Queues -/

/-- **What the levels are for**: a queue of entries for each level of each side. `seen` are
the entries that have been linked before. -/
structure Queues where
  /-- The entries of a level. -/
  queue : BookSide → ℕ → List UInt16
  /-- The entries linked before. -/
  seen : Set UInt16

namespace Queues

/-- No entry is in a queue. -/
def empty : Queues := ⟨fun _ _ => [], ∅⟩

/-- An entry comes in at the end. -/
def append (q : Queues) (x : BookSide) (l : ℕ) (idx : UInt16) : Queues :=
  { queue := fun y k => if y = x ∧ k = l then q.queue y k ++ [idx] else q.queue y k
    seen := insert idx q.seen }

/-- An entry is taken out of the queues of a side. -/
def unlink (q : Queues) (x : BookSide) (idx : UInt16) : Queues :=
  { q with queue := fun y k => if y = x then (q.queue y k).erase idx else q.queue y k }

/-- The entry is in no queue. -/
def Unlinked (q : Queues) (idx : UInt16) : Prop := ∀ x l, idx ∉ q.queue x l

variable {q : Queues} {x y : BookSide} {l k : ℕ} {i idx : UInt16}

theorem queue_append_of_ne (hyk : ¬(y = x ∧ k = l)) : (q.append x l idx).queue y k = q.queue y k := if_neg hyk

/-- What is in a queue after an entry has come in. -/
theorem mem_append (hi : i ∈ (q.append x l idx).queue y k) : i ∈ q.queue y k ∨ (i = idx ∧ y = x ∧ k = l) := by
  by_cases hyk : y = x ∧ k = l
  · simp only [append, if_pos hyk, List.mem_append, List.mem_singleton] at hi
    exact hi.imp_right fun heq => ⟨heq, hyk⟩
  · rw [queue_append_of_ne hyk] at hi
    exact Or.inl hi

/-- Unlinking adds no entry to a queue. -/
theorem mem_of_mem_unlink (hi : i ∈ (q.unlink x idx).queue y k) : i ∈ q.queue y k := by
  simp only [unlink] at hi
  split_ifs at hi
  · exact List.mem_of_mem_erase hi
  · exact hi

theorem unlinked_empty (idx : UInt16) : empty.Unlinked idx := fun _ _ hi => nomatch hi

/-- Another entry stays out. -/
theorem Unlinked.append (h : q.Unlinked i) (hne : i ≠ idx) : (q.append x l idx).Unlinked i := fun y k hi =>
  (mem_append hi).elim (h y k) fun heq => hne heq.1

end Queues

/-- **The legal sequences of operations**, with the queues they make: what is appended is
linked on neither side and goes to a level there is; what is unlinked has been linked
before, on whichever side; a quantity is reduced on the side where the entry is linked,
by no more than it is. -/
inductive Reach (maxLevels poolSize : ℕ) : SharedLevels → Queues → Prop where
  | start (pool : OrderPool) : Reach maxLevels poolSize (SharedLevels.create pool) Queues.empty
  | append {b : SharedLevels} {q : Queues} (x : BookSide) {lvlIdx idx : UInt16} :
    Reach maxLevels poolSize b q → lvlIdx.toNat < maxLevels → idx.toNat < poolSize → q.Unlinked idx →
    Reach maxLevels poolSize (b.append x lvlIdx idx) (q.append x lvlIdx.toNat idx)
  | unlink {b b' : SharedLevels} {q : Queues} {x : BookSide} {idx : UInt16} {r : Bool} :
    Reach maxLevels poolSize b q → idx ∈ q.seen → b.unlink x idx = some (r, b') →
    Reach maxLevels poolSize b' (q.unlink x idx)
  | reduce {b : SharedLevels} {q : Queues} {x : BookSide} {l : ℕ} {idx : UInt16} {qty : UInt32} :
    Reach maxLevels poolSize b q → idx ∈ q.queue x l → qty.toNat ≤ (b.pool idx).quantity.toNat →
    Reach maxLevels poolSize (b.reduce x idx qty) q

/-! ### The refinement -/

/-- **The levels hold the queues**, each its own. -/
structure Refines (maxLevels : ℕ) (b : SharedLevels) (q : Queues) : Prop where
  holds : ∀ x l, Holds b.pool ((b.side x).levels l) l (q.queue x l)
  /-- No entry is in two queues. -/
  disjoint : ∀ x l y k i, i ∈ q.queue x l → i ∈ q.queue y k → x = y ∧ l = k
  linked_seen : ∀ x l, ∀ i ∈ q.queue x l, i ∈ q.seen
  /-- The level of an entry linked before is one there is. -/
  seen_lt : ∀ i ∈ q.seen, (b.pool i).levelIndex.toNat < maxLevels
  seen_ne : ∀ i ∈ q.seen, i ≠ noIndex

namespace Refines

variable {maxLevels : ℕ} {b b' : SharedLevels} {q : Queues} {x : BookSide} {l : ℕ} {lvlIdx idx : UInt16}
  {qty : UInt32}

theorem start (maxLevels : ℕ) (pool : OrderPool) :
    Refines maxLevels (SharedLevels.create pool) Queues.empty where
  holds x l := Holds.empty pool l
  disjoint _ _ _ _ _ hi := by cases hi
  linked_seen _ _ _ hi := by cases hi
  seen_lt _ hi := by cases hi
  seen_ne _ hi := by cases hi

/-- An entry is in the queue of its own level, if in any of the side. -/
theorem mem_iff (h : Refines maxLevels b q) :
    idx ∈ q.queue x l ↔ l = (b.pool idx).levelIndex.toNat ∧ idx ∈ q.queue x (b.pool idx).levelIndex.toNat := by
  constructor
  · intro hi
    have hl := (h.holds x l).levelIndex idx hi
    exact ⟨hl.symm, hl ▸ hi⟩
  · rintro ⟨rfl, hi⟩
    exact hi

/-- The levels other than one of one side, which an operation replaces. -/
theorem levels_update {side : BookSide → PriceLevels} {ls : PriceLevels} {y : BookSide} {k : ℕ}
    (hls : ∀ k, k ≠ l → ls.levels k = (side x).levels k) (hyk : ¬(y = x ∧ k = l)) :
    ((Function.update side x ls) y).levels k = (side y).levels k := by
  by_cases hy : y = x
  · subst hy
    rw [Function.update_self]
    exact hls k fun hk => hyk ⟨rfl, hk⟩
  · rw [Function.update_of_ne hy]

/-- **What an operation does not touch**: a queue whose level and entries stay as they are. -/
theorem holds_other (h : Refines maxLevels b q) {y : BookSide} {k : ℕ}
    (hlevel : (b'.side y).levels k = (b.side y).levels k)
    (hpool : ∀ i ∈ q.queue y k, b'.pool i = b.pool i) :
    Holds b'.pool ((b'.side y).levels k) k (q.queue y k) := by
  rw [hlevel]
  exact (h.holds y k).congr hpool

/-- **Appending an entry.** -/
theorem append (h : Refines maxLevels b q) (x : BookSide) (hlvl : lvlIdx.toNat < maxLevels)
    (hnone : idx ≠ noIndex) (hidx : q.Unlinked idx) :
    Refines maxLevels (b.append x lvlIdx idx) (q.append x lvlIdx.toNat idx) := by
  have hframe {j : UInt16} (hj : j ≠ idx) (hnot : j ∉ q.queue x lvlIdx.toNat) (hj0 : j ≠ noIndex) :
      (b.append x lvlIdx idx).pool j = b.pool j :=
    (h.holds x lvlIdx.toNat).append_frame hj hnot hj0
  refine ⟨fun y k => ?_, fun y k z m i hi hi' => ?_, fun y k i hi => ?_, fun i hi => ?_, fun i hi => ?_⟩
  · by_cases hyk : y = x ∧ k = lvlIdx.toNat
    · obtain ⟨rfl, rfl⟩ := hyk
      have hnew := (h.holds y lvlIdx.toNat).append (hidx y lvlIdx.toNat) hnone
      simpa [SharedLevels.append, Queues.append] using hnew
    · rw [Queues.queue_append_of_ne hyk]
      apply h.holds_other (levels_update (fun k hk => Function.update_of_ne hk ..) hyk)
      intro i hi
      apply hframe
      · rintro rfl
        exact hidx y k hi
      · exact fun hi' => hyk (h.disjoint y k x lvlIdx.toNat i hi hi')
      · exact h.seen_ne i (h.linked_seen y k i hi)
  · rcases Queues.mem_append hi with hold | ⟨hii, hy, hk⟩ <;> rcases Queues.mem_append hi' with hold' | ⟨hii', hz, hm⟩
    · exact h.disjoint y k z m i hold hold'
    · exact absurd (hii' ▸ hold) (hidx y k)
    · exact absurd (hii ▸ hold') (hidx z m)
    · exact ⟨hy.trans hz.symm, hk.trans hm.symm⟩
  · rcases Queues.mem_append hi with hi | ⟨rfl, -, -⟩
    · exact Set.mem_insert_of_mem idx (h.linked_seen y k i hi)
    · exact Set.mem_insert i q.seen
  · have hlevel : ((b.append x lvlIdx idx).pool i).levelIndex =
        if i = idx then lvlIdx else (b.pool i).levelIndex := Holds.append_levelIndex ..
    rw [hlevel]
    split_ifs with hii
    · exact hlvl
    · exact h.seen_lt i (Set.mem_of_mem_insert_of_ne hi hii)
  · rcases hi with rfl | hi
    · exact hnone
    · exact h.seen_ne i hi

/-- **Unlinking an entry that is not on the side** changes nothing. -/
theorem unlink_unlinked (h : Refines maxLevels b q) (hnot : ∀ l, idx ∉ q.queue x l) :
    b.unlink x idx = some (false, b) ∧ q.unlink x idx = q := by
  constructor
  · have hend := Holds.unlink_of_notMem (h.holds x (b.pool idx).levelIndex.toNat) (hnot _)
    simp [SharedLevels.unlink, hend]
  · have hqueue : (q.unlink x idx).queue = q.queue := by
      funext y k
      by_cases hy : y = x
      · subst hy
        simp [Queues.unlink, List.erase_of_not_mem (hnot k)]
      · simp [Queues.unlink, hy]
    show Queues.mk (q.unlink x idx).queue q.seen = q
    rw [hqueue]

/-- The queues when an entry of the side is unlinked: its own loses it. -/
theorem queue_unlink (h : Refines maxLevels b q) {l₁ l₂ : List UInt16} (hsplit : q.queue x l = l₁ ++ idx :: l₂)
    (y : BookSide) (k : ℕ) :
    (q.unlink x idx).queue y k = if y = x ∧ k = l then l₁ ++ l₂ else q.queue y k := by
  have hmem : idx ∈ q.queue x l := by rw [hsplit]; simp
  by_cases hy : y = x
  · subst hy
    by_cases hk : k = l
    · have hnd := (h.holds y l).chain.nodup
      rw [hsplit] at hnd
      have hidx : idx ∉ l₁ := fun hm => (List.nodup_append.mp hnd).2.2 idx hm idx (List.mem_cons_self ..) rfl
      simp [Queues.unlink, hk, hsplit, List.erase_append_right _ hidx]
    · have hidx : idx ∉ q.queue y k := fun hm => hk (h.disjoint _ _ _ _ idx hm hmem).2
      simp [Queues.unlink, hk, List.erase_of_not_mem hidx]
  · simp [Queues.unlink, hy]

/-- **Unlinking an entry of the side** takes it out of its queue, and tells whether the queue
is empty then. -/
theorem unlink_linked (h : Refines maxLevels b q) {l₁ l₂ : List UInt16}
    (hsplit : q.queue x (b.pool idx).levelIndex.toNat = l₁ ++ idx :: l₂) :
    ∃ b', b.unlink x idx = some (decide (l₁ ++ l₂ = []), b') ∧ Refines maxLevels b' (q.unlink x idx) := by
  have hold := h.holds x (b.pool idx).levelIndex.toNat
  rw [hsplit] at hold
  have hmemSelf : idx ∈ q.queue x (b.pool idx).levelIndex.toNat := by rw [hsplit]; simp
  have hend := Holds.unlink_of_mem hold
  have hnew := hold.unlinkAt
  have hfst := Holds.unlinkAt_fst (b.side x) (b.pool idx).levelIndex.toNat b.pool (l₁.getLast?.getD noIndex) idx
  have hframe {j : UInt16} (hj : j ≠ idx) (hj₁ : j ∉ l₁) (hj0 : j ≠ noIndex) :=
    Holds.unlinkAt_frame (b.side x) (b.pool idx).levelIndex.toNat b.pool hj hj₁ hj0
  have hlevelIndex (j : UInt16) := Holds.unlinkAt_levelIndex (b.side x) (b.pool idx).levelIndex.toNat b.pool
    (l₁.getLast?.getD noIndex) idx j
  have hothers {k : ℕ} (hk : k ≠ (b.pool idx).levelIndex.toNat) :
      ((b.side x).unlinkAt (b.pool idx).levelIndex.toNat b.pool (l₁.getLast?.getD noIndex) idx).2.1.levels k =
        (b.side x).levels k := Function.update_of_ne hk ..
  generalize (b.side x).unlinkAt (b.pool idx).levelIndex.toNat b.pool (l₁.getLast?.getD noIndex) idx = out
    at hend hnew hfst hframe hlevelIndex hothers
  obtain ⟨r, ls, pool⟩ := out
  have hr : r = decide (l₁ ++ l₂ = []) := hfst.trans (decide_eq_decide.mpr hnew.head_eq_iff)
  refine ⟨⟨Function.update b.side x ls, pool⟩, by simp [SharedLevels.unlink, hend, hr], ?_⟩
  refine ⟨fun y k => ?_,
    fun y k z m i hi hi' => h.disjoint y k z m i (Queues.mem_of_mem_unlink hi) (Queues.mem_of_mem_unlink hi'),
    fun y k i hi => h.linked_seen y k i (Queues.mem_of_mem_unlink hi), fun i hi => ?_, h.seen_ne⟩
  · rw [h.queue_unlink hsplit]
    split_ifs with hyk
    · obtain ⟨rfl, rfl⟩ := hyk
      simpa using hnew
    · apply h.holds_other (levels_update (fun k hk => hothers hk) hyk)
      intro i hi
      -- an entry of another queue is neither the one unlinked nor the one before it
      have hout (hi' : i ∈ q.queue x (b.pool idx).levelIndex.toNat) : False :=
        hyk (h.disjoint y k x _ i hi hi')
      apply hframe
      · rintro rfl
        exact hout hmemSelf
      · exact fun hi₁ => hout (by rw [hsplit]; exact List.mem_append_left _ hi₁)
      · exact h.seen_ne i (h.linked_seen y k i hi)
  · show (pool i).levelIndex.toNat < maxLevels
    rw [hlevelIndex]
    exact h.seen_lt i hi

/-- **Unlinking**: `unlinkFromLevel` ends, and the levels hold the queues after it. -/
theorem unlink (h : Refines maxLevels b q) (x : BookSide) (idx : UInt16) :
    ∃ r b', b.unlink x idx = some (r, b') ∧ Refines maxLevels b' (q.unlink x idx) ∧
      (r = true ↔ ∃ l, q.queue x l = [idx]) ∧ ((∀ l, idx ∉ q.queue x l) → r = false ∧ b' = b) := by
  by_cases hin : idx ∈ q.queue x (b.pool idx).levelIndex.toNat
  · obtain ⟨l₁, l₂, hsplit⟩ := List.append_of_mem hin
    obtain ⟨b', hb', hrefines⟩ := h.unlink_linked hsplit
    refine ⟨_, b', hb', hrefines, ?_, fun hnot => absurd hin (hnot _)⟩
    rw [decide_eq_true_iff, List.append_eq_nil_iff]
    constructor
    · rintro ⟨rfl, rfl⟩
      exact ⟨_, hsplit⟩
    · rintro ⟨l, hl⟩
      have hl' := (h.mem_iff.mp (hl ▸ List.mem_singleton_self idx : idx ∈ q.queue x l)).1
      rw [← hl', hl] at hsplit
      cases l₁ with
      | nil => simpa using hsplit
      | cons i l₁ => simp at hsplit
  · have hnot (l : ℕ) : idx ∉ q.queue x l := fun hi => hin (h.mem_iff.mp hi).2
    obtain ⟨hb, hq⟩ := h.unlink_unlinked hnot
    refine ⟨false, b, hb, by rwa [hq], ?_, fun _ => ⟨rfl, rfl⟩⟩
    constructor
    · intro hf
      cases hf
    · rintro ⟨l, hl⟩
      exact absurd (by rw [hl]; exact List.mem_singleton_self idx) (hnot l)

/-- **An `unlinkFromLevel` that has returned.** -/
theorem of_unlink {r : Bool} (h : Refines maxLevels b q) (hunlink : b.unlink x idx = some (r, b')) :
    Refines maxLevels b' (q.unlink x idx) := by
  obtain ⟨r', b'', hb'', hrefines, -, -⟩ := h.unlink x idx
  rw [hunlink] at hb''
  cases hb''
  exact hrefines

/-- **Reducing a quantity.** -/
theorem reduce (h : Refines maxLevels b q) (hidx : idx ∈ q.queue x l)
    (hqty : qty.toNat ≤ (b.pool idx).quantity.toNat) : Refines maxLevels (b.reduce x idx qty) q := by
  obtain ⟨-, hin⟩ := h.mem_iff.mp hidx
  have hnew := (h.holds x _).reduce hin hqty
  have hframe {j : UInt16} (hj : j ≠ idx) : (b.reduce x idx qty).pool j = b.pool j := Function.update_of_ne hj ..
  have hlevelIndex (j : UInt16) : ((b.reduce x idx qty).pool j).levelIndex = (b.pool j).levelIndex := by
    by_cases hj : j = idx
    · subst hj
      simp [SharedLevels.reduce, PriceLevels.reduceQuantity]
    · rw [hframe hj]
  refine ⟨fun y k => ?_, h.disjoint, h.linked_seen, fun i hi => ?_, h.seen_ne⟩
  · by_cases hyk : y = x ∧ k = (b.pool idx).levelIndex.toNat
    · obtain ⟨rfl, rfl⟩ := hyk
      simpa [SharedLevels.reduce] using hnew
    · have hlevel : ((b.reduce x idx qty).side y).levels k = (b.side y).levels k := by
        by_cases hy : y = x
        · subst hy
          have hk : k ≠ (b.pool idx).levelIndex.toNat := fun hk => hyk ⟨rfl, hk⟩
          simp [SharedLevels.reduce, PriceLevels.reduceQuantity, PriceLevels.setLevel, hk]
        · simp [SharedLevels.reduce, hy]
      rw [hlevel]
      apply (h.holds y k).congr
      intro i hi
      apply hframe
      rintro rfl
      exact hyk (h.disjoint y k x _ i hi hin)
  · rw [hlevelIndex]
    exact h.seen_lt i hi

end Refines

/-- The index of no entry is none of a pool that is not too large. -/
theorem ne_noIndex {poolSize : ℕ} {idx : UInt16} (hpool : poolSize ≤ 65535) (hidx : idx.toNat < poolSize) :
    idx ≠ noIndex := by
  rintro rfl
  have : noIndex.toNat = 65535 := rfl
  omega

/-- **The levels hold the queues in every state reached.** -/
theorem refines_of_reach {maxLevels poolSize : ℕ} (hpool : poolSize ≤ 65535) {b : SharedLevels} {q : Queues}
    (h : Reach maxLevels poolSize b q) : Refines maxLevels b q := by
  induction h with
  | start pool => exact Refines.start maxLevels pool
  | append x _ hlvl hidx hnot ih => exact ih.append x hlvl (ne_noIndex hpool hidx) hnot
  | unlink _ _ hunlink ih => exact ih.of_unlink hunlink
  | reduce _ hidx hqty ih => exact ih.reduce hidx hqty

theorem activeLevelCount_eq (ls : PriceLevels) (maxLevels : ℕ) :
    ls.activeLevelCount maxLevels = (List.range maxLevels).countP fun l => (ls.levels l).head ≠ noIndex := by
  unfold PriceLevels.activeLevelCount
  induction maxLevels with
  | zero => rfl
  | succ n ih =>
    rw [List.range_succ, List.foldl_append, ih, List.countP_append]
    by_cases hhead : (ls.levels n).head = noIndex <;> simp [hhead]

/-- **Each level is a queue.** Over two sides that share a pool of at most 65535 entries, after
every legal sequence of operations, for each level of each side: its list is the chain of
its queue, without an entry twice, and ends at the tail; its entries have its index; its
head and its tail are none exactly when the queue is empty; and its total is that of the
entries. `activeLevelCount` counts the queues that are not empty. And unlinking an entry
that has been linked before, on either side, ends: it returns whether the entry was the
only one of its level, and changes nothing if the entry is not on the side. -/
theorem levels_hold_queues {maxLevels poolSize : ℕ} (hpool : poolSize ≤ 65535) {b : SharedLevels} {q : Queues}
    (h : Reach maxLevels poolSize b q) :
    (∀ x, ∀ l < maxLevels,
      Chain b.pool.next noIndex ((b.side x).levels l).head (q.queue x l) ∧ (q.queue x l).Nodup ∧
      ((b.side x).levels l).tail = (q.queue x l).getLast?.getD noIndex ∧
      (∀ i ∈ q.queue x l, (b.pool i).levelIndex.toNat = l) ∧
      (((b.side x).levels l).head = noIndex ↔ q.queue x l = []) ∧
      (((b.side x).levels l).tail = noIndex ↔ q.queue x l = []) ∧
      ((b.side x).levels l).totalQty.toNat = b.pool.total (q.queue x l) % 2 ^ 32) ∧
    (∀ x, (b.side x).activeLevelCount maxLevels =
      (List.range maxLevels).countP fun l => q.queue x l ≠ []) ∧
    ∀ x, ∀ idx ∈ q.seen, ∃ r b', b.unlink x idx = some (r, b') ∧
      (r = true ↔ ∃ l, q.queue x l = [idx]) ∧ ((∀ l, idx ∉ q.queue x l) → r = false ∧ b' = b) := by
  have hrefines := refines_of_reach hpool h
  refine ⟨fun x l _ => ?_, fun x => ?_, fun x idx _ => ?_⟩
  · have hl := hrefines.holds x l
    exact ⟨hl.chain, hl.chain.nodup, hl.tail, hl.levelIndex, hl.head_eq_iff, hl.tail_eq_iff, hl.totalQty⟩
  · rw [activeLevelCount_eq]
    refine List.countP_congr fun l _ => ?_
    simp [(hrefines.holds x l).head_eq_iff]
  · obtain ⟨r, b', hb', -, hr, hsame⟩ := hrefines.unlink x idx
    exact ⟨r, b', hb', hr, hsame⟩

/-- Two entries appended to a level of the bids: its list, and what unlinking the first of
them on the asks returns. -/
theorem levels_hold_queues_two :
    let pool : OrderPool := fun _ => ⟨7, 9, 5⟩
    let b := ((SharedLevels.create pool).append .bids 1 0).append .bids 1 1
    let q := (Queues.empty.append .bids 1 0).append .bids 1 1
    2 ≤ 65535 ∧ Reach 2 2 b q ∧ Chain b.pool.next noIndex ((b.side .bids).levels 1).head [0, 1] ∧
      ∃ r b', b.unlink .asks 0 = some (r, b') ∧ r = false ∧ b' = b := by
  intro pool b q
  have hreach : Reach 2 2 b q := by
    refine .append .bids (.append .bids (.start pool) (by decide) (by decide) (Queues.unlinked_empty 0)) ?_ ?_ ?_
    · decide
    · decide
    · exact (Queues.unlinked_empty 1).append (by decide)
  obtain ⟨hlists, -, hunlink⟩ := levels_hold_queues (by decide : 2 ≤ 65535) hreach
  have hseen : (0 : UInt16) ∈ q.seen := Or.inr (Or.inl rfl)
  obtain ⟨r, b', hb', -, hsame⟩ := hunlink .asks 0 hseen
  have hnot (l : ℕ) : (0 : UInt16) ∉ q.queue .asks l := by
    intro hm
    simp [q, Queues.append, Queues.empty] at hm
  exact ⟨by decide, hreach, (hlists .bids 1 (by decide)).1, r, b', hb', hsame hnot⟩

end Scrimmage.Match
