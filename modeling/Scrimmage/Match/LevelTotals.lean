import Scrimmage.Theory.Transition
import Scrimmage.Match.LevelQueues
import Mathlib.Algebra.Order.BigOperators.Group.List
import Mathlib.Algebra.Order.Group.Nat

/-!
# The totals of the levels

`_totalQty` of a level, a `uint32_t`, against the quantities of the entries linked on it,
which are `uint32_t` each.

## What is proved

* `Refines.totalsExact_iff`: where the levels hold their queues, the totals are exact if no
  sum is too large.
* `totals_exact_iff`: they stay exact along a run exactly when no entry is appended that its
  level's total has no room for, and what is reduced is linked. `total_wraps` is a level
  whose total does not.
-/

namespace Scrimmage.Match

open Theory

/-- A call on the levels of a side. -/
inductive LevelCall where
  /-- `appendToLevel(lvlIdx, poolIdx, pool)`. -/
  | append (x : BookSide) (lvlIdx poolIdx : UInt16)
  /-- `unlinkFromLevel(poolIdx, pool)`. -/
  | unlink (x : BookSide) (poolIdx : UInt16)
  /-- `reduceQuantity(poolIdx, qty, pool)`. -/
  | reduce (x : BookSide) (poolIdx : UInt16) (qty : UInt32)

/-- **The calls**, with the queues they make: what is appended is linked on neither side, and
goes to a level there is; what is unlinked or reduced is an entry whose level is one there
is, and no more is taken from its quantity than there is. -/
inductive LevelStep (maxLevels poolSize : ℕ) : SharedLevels × Queues → LevelCall → SharedLevels × Queues → Prop where
  | append {b : SharedLevels} {q : Queues} (x : BookSide) {lvlIdx idx : UInt16} :
    lvlIdx.toNat < maxLevels → idx.toNat < poolSize → q.Unlinked idx →
    LevelStep maxLevels poolSize (b, q) (.append x lvlIdx idx) (b.append x lvlIdx idx, q.append x lvlIdx.toNat idx)
  | unlink {b b' : SharedLevels} {q : Queues} {x : BookSide} {idx : UInt16} {r : Bool} :
    (b.pool idx).levelIndex.toNat < maxLevels → b.unlink x idx = some (r, b') →
    LevelStep maxLevels poolSize (b, q) (.unlink x idx) (b', q.unlink x idx)
  | reduce {b : SharedLevels} {q : Queues} (x : BookSide) {idx : UInt16} {qty : UInt32} :
    (b.pool idx).levelIndex.toNat < maxLevels → qty.toNat ≤ (b.pool idx).quantity.toNat →
    LevelStep maxLevels poolSize (b, q) (.reduce x idx qty) (b.reduce x idx qty, q)

/-- **The totals are exact**: each is the sum of the quantities of the entries that the list of
the level runs through. -/
def TotalsExact (maxLevels : ℕ) (b : SharedLevels) : Prop :=
  ∀ x, ∀ l < maxLevels, ∃ queue, Chain b.pool.next noIndex ((b.side x).levels l).head queue ∧
    ((b.side x).levels l).totalQty.toNat = b.pool.total queue

/-- **The call keeps the totals**: what is appended has room in the level's total, and what is
reduced is linked on the side, or reduced by nothing. -/
def KeepsTotals (st : SharedLevels × Queues) : LevelCall → Prop
  | .append x lvlIdx idx =>
    ((st.1.side x).levels lvlIdx.toNat).totalQty.toNat + (st.1.pool idx).quantity.toNat < 2 ^ 32
  | .unlink _ _ => True
  | .reduce x idx qty => qty = 0 ∨ ∃ l, idx ∈ st.2.queue x l

/-! ### Quantities -/

/-- Appending changes no quantity. -/
theorem append_quantity (ls : PriceLevels) (i idx : UInt16) (pool : OrderPool) (j : UInt16) :
    ((ls.appendToLevel i idx pool).2 j).quantity = (pool j).quantity := by
  simp only [PriceLevels.appendToLevel]
  split_ifs
  · rw [OrderPool.quantity_setNext, OrderPool.quantity_enter]
  · rw [OrderPool.quantity_enter]

/-- Nor does unlinking. -/
theorem unlink_quantity {ls ls' : PriceLevels} {idx : UInt16} {pool pool' : OrderPool} {r : Bool}
    (h : ls.unlinkFromLevel idx pool = some (r, ls', pool')) (j : UInt16) :
    (pool' j).quantity = (pool j).quantity := by
  have hturn (st : UInt16 × UInt16) : Loop.Sat (fun _ => True) (fun out => (out.2.2 j).quantity = (pool j).quantity)
      (ls.unlinkTurn (pool idx).levelIndex.toNat idx pool st) := by
    unfold PriceLevels.unlinkTurn
    split_ifs
    · simp only [Loop.sat_exit, PriceLevels.unlinkAt, OrderPool.quantity_setNext]
      split_ifs
      · exact OrderPool.quantity_setNext ..
      · rfl
    · trivial
    · rfl
  have hsat : Loop.Sat (fun _ => True) (fun out => (out.2.2 j).quantity = (pool j).quantity)
      (Loop.run (ls.unlinkTurn (pool idx).levelIndex.toNat idx pool) (2 ^ 16 + 1)
        (noIndex, (ls.levels (pool idx).levelIndex.toNat).head)) :=
    Loop.run_sat (fun st _ => hturn st) _ trivial
  rw [PriceLevels.unlinkFromLevel] at h
  split at h
  · rename_i out heq
    rw [heq] at hsat
    cases h
    exact hsat
  · cases h

/-- The total of some of the entries, each with no more than it had. -/
theorem total_le_total {pool pool' : OrderPool} {l l' : List UInt16} (hsub : l.Sublist l')
    (hqty : ∀ i ∈ l, (pool' i).quantity.toNat ≤ (pool i).quantity.toNat) : pool'.total l ≤ pool.total l' := by
  calc pool'.total l ≤ pool.total l := List.sum_le_sum hqty
    _ ≤ pool.total l' := (hsub.map _).sum_le_sum fun _ _ => Nat.zero_le _

/-! ### What the calls do to the totals -/

namespace Refines

variable {maxLevels : ℕ} {b b' : SharedLevels} {q : Queues} {x : BookSide} {l : ℕ} {lvlIdx idx : UInt16}
  {qty : UInt32} {r : Bool}

/-- The entries that the list of a level runs through are those of its queue. -/
theorem exact_iff (h : Refines maxLevels b q) :
    (∃ queue, Chain b.pool.next noIndex ((b.side x).levels l).head queue ∧
      ((b.side x).levels l).totalQty.toNat = b.pool.total queue) ↔ b.pool.total (q.queue x l) < 2 ^ 32 := by
  have hl := h.holds x l
  constructor
  · rintro ⟨queue, hchain, htotal⟩
    rw [hl.chain.unique hchain, ← htotal]
    exact UInt32.toNat_lt _
  · intro hlt
    exact ⟨_, hl.chain, by rw [hl.totalQty, Nat.mod_eq_of_lt hlt]⟩

/-- **Where the levels hold their queues**, the totals are exact if no sum is too large. -/
theorem totalsExact_iff (h : Refines maxLevels b q) :
    TotalsExact maxLevels b ↔ ∀ x, ∀ l < maxLevels, b.pool.total (q.queue x l) < 2 ^ 32 :=
  forall_congr' fun _ => forall₂_congr fun _ _ => h.exact_iff

theorem totalQty_eq (h : Refines maxLevels b q) (hexact : TotalsExact maxLevels b) (x : BookSide) (hl : l < maxLevels) :
    ((b.side x).levels l).totalQty.toNat = b.pool.total (q.queue x l) := by
  rw [(h.holds x l).totalQty, Nat.mod_eq_of_lt (h.totalsExact_iff.mp hexact x l hl)]

/-- **Appending** keeps the totals exactly when the level's has room. -/
theorem append_exact_iff (h : Refines maxLevels b q) (hexact : TotalsExact maxLevels b) (x : BookSide)
    (hlvl : lvlIdx.toNat < maxLevels) (hnone : idx ≠ noIndex) (hidx : q.Unlinked idx) :
    TotalsExact maxLevels (b.append x lvlIdx idx) ↔
      ((b.side x).levels lvlIdx.toNat).totalQty.toNat + (b.pool idx).quantity.toNat < 2 ^ 32 := by
  have hqty (l : List UInt16) : (b.append x lvlIdx idx).pool.total l = b.pool.total l :=
    OrderPool.total_congr fun i _ => append_quantity ..
  have hbefore := h.totalsExact_iff.mp hexact
  have hnew : (q.append x lvlIdx.toNat idx).queue x lvlIdx.toNat = q.queue x lvlIdx.toNat ++ [idx] := by
    simp [Queues.append]
  have htotal : b.pool.total ((q.append x lvlIdx.toNat idx).queue x lvlIdx.toNat) =
      ((b.side x).levels lvlIdx.toNat).totalQty.toNat + (b.pool idx).quantity.toNat := by
    rw [hnew, OrderPool.total_append, h.totalQty_eq hexact x hlvl]
    simp
  rw [(h.append x hlvl hnone hidx).totalsExact_iff]
  simp only [hqty]
  constructor
  · intro hall
    rw [← htotal]
    exact hall x lvlIdx.toNat hlvl
  · intro hroom y k hk
    by_cases hyk : y = x ∧ k = lvlIdx.toNat
    · obtain ⟨rfl, rfl⟩ := hyk
      rwa [htotal]
    · rw [Queues.queue_append_of_ne hyk]
      exact hbefore y k hk

/-- **Unlinking** keeps them. -/
theorem unlink_exact (h : Refines maxLevels b q) (hexact : TotalsExact maxLevels b)
    (hunlink : b.unlink x idx = some (r, b')) : Refines maxLevels b' (q.unlink x idx) ∧ TotalsExact maxLevels b' := by
  have hrefines := h.of_unlink hunlink
  refine ⟨hrefines, hrefines.totalsExact_iff.mpr fun y k hk => ?_⟩
  have hqty (i : UInt16) : (b'.pool i).quantity = (b.pool i).quantity := by
    unfold SharedLevels.unlink at hunlink
    split at hunlink
    · cases hunlink
    · rename_i heq
      cases hunlink
      exact unlink_quantity heq i
  have hsub : ((q.unlink x idx).queue y k).Sublist (q.queue y k) := by
    simp only [Queues.unlink]
    split_ifs
    · exact List.erase_sublist
    · exact List.Sublist.refl _
  exact lt_of_le_of_lt (total_le_total hsub fun i _ => by rw [hqty]) (h.totalsExact_iff.mp hexact y k hk)

/-- **Reducing a linked entry** keeps them. -/
theorem reduce_exact (h : Refines maxLevels b q) (hexact : TotalsExact maxLevels b) (hidx : idx ∈ q.queue x l)
    (hqty : qty.toNat ≤ (b.pool idx).quantity.toNat) : TotalsExact maxLevels (b.reduce x idx qty) := by
  have hle (i : UInt16) : ((b.reduce x idx qty).pool i).quantity.toNat ≤ (b.pool i).quantity.toNat := by
    by_cases hi : i = idx
    · have hself : (b.reduce x idx qty).pool idx = { b.pool idx with quantity := (b.pool idx).quantity - qty } :=
        Holds.reduceQuantity_self (b.side x) idx qty b.pool
      rw [hi, hself, UInt32.toNat_sub_of_le _ _ (UInt32.le_iff_toNat_le.mpr hqty)]
      exact Nat.sub_le ..
    · have hother : (b.reduce x idx qty).pool i = b.pool i := Holds.reduceQuantity_of_ne (b.side x) idx qty b.pool hi
      rw [hother]
  refine (h.reduce hidx hqty).totalsExact_iff.mpr fun y k hk => ?_
  exact lt_of_le_of_lt (total_le_total (List.Sublist.refl _) fun i _ => hle i) (h.totalsExact_iff.mp hexact y k hk)

/-- **Reducing an entry that is not linked**, by more than nothing, loses the total of its level. -/
theorem reduce_not_exact (h : Refines maxLevels b q) (hexact : TotalsExact maxLevels b)
    (hlevel : (b.pool idx).levelIndex.toNat < maxLevels) (hqty : qty ≠ 0) (hnot : ∀ l, idx ∉ q.queue x l) :
    ¬ TotalsExact maxLevels (b.reduce x idx qty) := by
  intro hafter
  obtain ⟨queue, hchain, htotal⟩ := hafter x _ hlevel
  have hnext : (b.reduce x idx qty).pool.next = b.pool.next := Holds.reduceQuantity_next (b.side x) idx qty b.pool
  have hlvl : ((b.reduce x idx qty).side x).levels (b.pool idx).levelIndex.toNat =
      { (b.side x).levels (b.pool idx).levelIndex.toNat with
        totalQty := ((b.side x).levels (b.pool idx).levelIndex.toNat).totalQty - qty } := by
    rw [← Holds.reduceQuantity_level (b.side x) idx qty b.pool]
    simp [SharedLevels.reduce]
  rw [hnext, hlvl] at hchain
  obtain rfl : q.queue x (b.pool idx).levelIndex.toNat = queue := (h.holds x _).chain.unique hchain
  have hsame : (b.reduce x idx qty).pool.total (q.queue x (b.pool idx).levelIndex.toNat) =
      b.pool.total (q.queue x (b.pool idx).levelIndex.toNat) := by
    refine OrderPool.total_congr fun i hi => ?_
    have hi' : i ≠ idx := fun heq => hnot _ (heq ▸ hi)
    exact congrArg PoolEntry.quantity (Holds.reduceQuantity_of_ne (b.side x) idx qty b.pool hi')
  rw [hlvl, hsame, ← h.totalQty_eq hexact x hlevel, UInt32.toNat_sub] at htotal
  have hpos : qty.toNat ≠ 0 := fun hzero => hqty (UInt32.toNat_inj.mp hzero)
  have := qty.toNat_lt
  have := ((b.side x).levels (b.pool idx).levelIndex.toNat).totalQty.toNat_lt
  omega

end Refines

/-- Reducing by nothing changes nothing. -/
theorem reduce_zero (b : SharedLevels) (x : BookSide) (idx : UInt16) : b.reduce x idx 0 = b := by
  simp [SharedLevels.reduce, PriceLevels.reduceQuantity, PriceLevels.setLevel]

/-! ### Runs -/

section Runs

variable {maxLevels poolSize : ℕ} {st st' : SharedLevels × Queues} {c : LevelCall}

/-- **A call that keeps the totals** leaves the levels with their queues. -/
theorem LevelStep.refines (hpool : poolSize ≤ 65535) (hs : LevelStep maxLevels poolSize st c st')
    (h : Refines maxLevels st.1 st.2) (hexact : TotalsExact maxLevels st.1) (hkeeps : KeepsTotals st c) :
    Refines maxLevels st'.1 st'.2 := by
  cases hs with
  | append x hlvl hidx hnot => exact h.append x hlvl (ne_noIndex hpool hidx) hnot
  | unlink _ hunlink => exact (h.unlink_exact hexact hunlink).1
  | reduce x hlevel hqty =>
    rcases hkeeps with rfl | ⟨l, hl⟩
    · rwa [reduce_zero]
    · exact h.reduce hl hqty

/-- **What a call does to the totals**: they are exact after it exactly when it keeps them. -/
theorem LevelStep.exact_iff (hpool : poolSize ≤ 65535) (hs : LevelStep maxLevels poolSize st c st')
    (h : Refines maxLevels st.1 st.2) (hexact : TotalsExact maxLevels st.1) :
    TotalsExact maxLevels st'.1 ↔ KeepsTotals st c := by
  cases hs with
  | append x hlvl hidx hnot => exact h.append_exact_iff hexact x hlvl (ne_noIndex hpool hidx) hnot
  | unlink _ hunlink => exact iff_of_true (h.unlink_exact hexact hunlink).2 trivial
  | @reduce b q x idx qty hlevel hqty =>
    by_cases hzero : qty = 0
    · subst hzero
      rw [reduce_zero]
      exact iff_of_true hexact (Or.inl rfl)
    · by_cases hlinked : ∃ l, idx ∈ q.queue x l
      · obtain ⟨l, hl⟩ := hlinked
        exact iff_of_true (h.reduce_exact hexact hl hqty) (Or.inr ⟨l, hl⟩)
      · refine iff_of_false (h.reduce_not_exact hexact hlevel hzero fun l hl => hlinked ⟨l, hl⟩) ?_
        rintro (hz | hl)
        · exact hzero hz
        · exact hlinked hl

/-- **When the totals are exact**: over a pool of at most `65535` entries with any quantities,
and along every sequence of calls, the total of each level is in every state the sum of the
quantities of the entries linked on it, exactly when each entry appended has room in the
total of its level, and each entry reduced by more than nothing is linked. -/
theorem totals_exact_iff (hpool : poolSize ≤ 65535) {pool : OrderPool} {run : ℕ → SharedLevels × Queues}
    {calls : ℕ → LevelCall} {n : ℕ} (hstart : run 0 = (SharedLevels.create pool, Queues.empty))
    (hstep : ∀ k < n, LevelStep maxLevels poolSize (run k) (calls k) (run (k + 1))) :
    (∀ k ≤ n, TotalsExact maxLevels (run k).1) ↔ ∀ k < n, KeepsTotals (run k) (calls k) := by
  have hrefines : Refines maxLevels (run 0).1 (run 0).2 := by
    rw [hstart]
    exact Refines.start maxLevels pool
  have hexact : TotalsExact maxLevels (run 0).1 := by
    rw [hrefines.totalsExact_iff, hstart]
    exact fun _ _ _ => by simp [Queues.empty]
  exact holds_along_iff_of_invariant hexact hrefines (fun k hk h hexact => (hstep k hk).exact_iff hpool h hexact)
    fun k hk h hexact hkeeps => (hstep k hk).refines hpool h hexact hkeeps

/-- A pool of entries that each have the largest quantity there is. -/
def fullPool : OrderPool := fun _ => ⟨noIndex, 0, 0xFFFFFFFF⟩

/-- One of them is appended. -/
def oneAppended : ℕ → SharedLevels × Queues
  | 0 => (SharedLevels.create fullPool, Queues.empty)
  | _ => ((SharedLevels.create fullPool).append .bids 0 0, Queues.empty.append .bids 0 0)

/-- It fits in a total. -/
theorem totals_exact_one : TotalsExact 1 ((SharedLevels.create fullPool).append .bids 0 0) := by
  have hstep : ∀ k < 1, LevelStep 1 2 (oneAppended k) (.append .bids 0 0) (oneAppended (k + 1))
    | 0, _ => .append .bids (by decide) (by decide) (Queues.unlinked_empty 0)
  refine (totals_exact_iff (by decide) rfl hstep).mpr (fun k hk => ?_) 1 le_rfl
  match k, hk with
  | 0, _ =>
    show _ < 2 ^ 32
    decide

/-- **Two of them do not**: the total of the level is `2^32` too small. -/
theorem total_wraps :
    let b := ((SharedLevels.create fullPool).append .bids 0 0).append .bids 0 1
    let q := (Queues.empty.append .bids 0 0).append .bids 0 1
    Reach 1 2 b q ∧ ((b.side .bids).levels 0).totalQty = 0xFFFFFFFE ∧
      b.pool.total (q.queue .bids 0) = 2 * 0xFFFFFFFF ∧ ¬ TotalsExact 1 b := by
  intro b q
  have hreach : Reach 1 2 b q := by
    refine .append .bids (.append .bids (.start fullPool) (by decide) (by decide) (Queues.unlinked_empty 0)) ?_ ?_ ?_
    · decide
    · decide
    · exact (Queues.unlinked_empty 1).append (by decide)
  have htotal : b.pool.total (q.queue .bids 0) = 2 * 0xFFFFFFFF := by decide
  refine ⟨hreach, by decide, htotal, fun hexact => ?_⟩
  have := (refines_of_reach (by decide) hreach).totalsExact_iff.mp hexact .bids 0 (by decide)
  omega

end Runs

end Scrimmage.Match
