import Scrimmage.Common.SpScRingBuffer
import Scrimmage.Theory.Loop
import Mathlib.Tactic.Ring

/-!
# The account of a ring buffer

The functions of `SpScRingBuffer` as calls that come one after the other, and whether every
item that did not get in is counted. `tryPush` counts it in `_dropped`; `push` returns `false`
after its timeout and does not.

## The model

* `tryPush`, `push`, `pushWithTimeout` and `tryPop` are functions of the buffer. The loop of
  `push` is a `Loop` over the readings of the clock, which may be any.
* An `Account` is a buffer with the number of pushes called and of items popped.

## What is proved

* `full_iff`, `items_enqueue`, `push_of_full`, `tryPop_of_some`: what the functions do, in terms
  of the items.
* `CallStep.run`, `calls_run`: the calls are runs of the steps of the two threads.
* `account_balanced_iff`: the account balances exactly when no `push` is called on a full buffer, and
  `_dropped` does not wrap. `push_uncounted` is a push that is missing from it.
-/

namespace Scrimmage.Common

open Theory

variable {τ : Type}

/-! ### The model -/

namespace SpScRingBuffer

/-- `updateHighWaterMark`: with no other push, the exchange is tried until it is made. -/
def updateHighWaterMark (capacity : ℕ) (b : SpScRingBuffer τ) (currentHead : ℕ) : SpScRingBuffer τ :=
  let used := usedAt capacity currentHead b.tail
  if used > b.highWaterMark then { b with highWaterMark := used } else b

/-- What `tryPush` and `push` do that have found room. -/
def enqueue (capacity : ℕ) (b : SpScRingBuffer τ) (item : τ) : SpScRingBuffer τ :=
  let currentHead := b.head
  let nextHead := increment capacity currentHead
  let b := { b with buffer := Function.update b.buffer currentHead item }
  let b := { b with head := nextHead }
  b.updateHighWaterMark capacity nextHead

/-- `tryPush`. -/
def tryPush (capacity : ℕ) (b : SpScRingBuffer τ) (item : τ) : Bool × SpScRingBuffer τ :=
  if increment capacity b.head = b.tail then (false, { b with dropped := (b.dropped + 1) % 2 ^ 64 })
  else (true, b.enqueue capacity item)

/-- One turn of the loop of `push`, in the state `(spinCount, readings)`: `clock` are the readings
of the clock in nanoseconds, the first of them `startTime`, and `readings` is how many have
been taken. -/
def pushTurn (capacity : ℕ) (clock : ℕ → ℤ) (b : SpScRingBuffer τ) (item : τ) (timeoutMs : UInt32) (st : ℕ × ℕ) :
    Turn (ℕ × ℕ) (Bool × SpScRingBuffer τ) :=
  if increment capacity b.head ≠ b.tail then .exit (true, b.enqueue capacity item)
  else if st.1 % 1000 = 0 then
    if clock st.2 - clock 0 ≥ timeoutMs.toNat * 1000000 then .exit (false, b)
    else .again ((st.1 + 1) % 2 ^ 64, st.2 + 1)
  else .again ((st.1 + 1) % 2 ^ 64, st.2)

/-- `push`, if its loop is left within so many turns. -/
def push (capacity : ℕ) (clock : ℕ → ℤ) (turns : ℕ) (b : SpScRingBuffer τ) (item : τ) (timeoutMs : UInt32) :
    Option (Bool × SpScRingBuffer τ) :=
  match Loop.run (b.pushTurn capacity clock item timeoutMs) turns (0, 1) with
  | .exit r => some r
  | .again _ => none

/-- `pushWithTimeout`. -/
def pushWithTimeout (capacity : ℕ) (clock : ℕ → ℤ) (turns : ℕ) (b : SpScRingBuffer τ) (item : τ)
    (timeoutMs : UInt32) : Option (Bool × SpScRingBuffer τ) :=
  b.push capacity clock turns item timeoutMs

/-- `tryPop`: the item, and the buffer without it, if there is one. -/
def tryPop (capacity : ℕ) (b : SpScRingBuffer τ) : Option (τ × SpScRingBuffer τ) :=
  let currentTail := b.tail
  if currentTail = b.head then none
  else some (b.buffer currentTail, { b with tail := increment capacity currentTail })

/-- Both ends are cells. -/
structure InRange (capacity : ℕ) (b : SpScRingBuffer τ) : Prop where
  head_lt : b.head < capacity
  tail_lt : b.tail < capacity

end SpScRingBuffer

/-! ### What the functions do to the items -/

namespace SpScRingBuffer

variable {capacity : ℕ} {b b' : SpScRingBuffer τ} {item : τ} {clock : ℕ → ℤ} {turns : ℕ} {timeoutMs : UInt32} {r : Bool}

theorem inRange_create (h : 1 ≤ capacity) (cells : ℕ → τ) : (create cells).InRange capacity := ⟨h, h⟩

theorem length_items (b : SpScRingBuffer τ) : (b.items capacity).length = Ring.size capacity b.tail b.head := by
  rw [items, List.length_map, Ring.length_window]

/-- **When a push finds no room**: all cells but one are in use. -/
theorem full_iff (h : b.InRange capacity) :
    increment capacity b.head = b.tail ↔ (b.items capacity).length = capacity - 1 := by
  rw [length_items]
  exact Ring.size_full_iff h.tail_lt h.head_lt

/-- There are never more. -/
theorem length_items_lt (h : b.InRange capacity) : (b.items capacity).length < capacity := by
  rw [length_items]
  exact Ring.size_lt h.tail_lt

/-- What is in the buffer after a push that found room, up to the mark. -/
theorem enqueue_eq (capacity : ℕ) (b : SpScRingBuffer τ) (item : τ) :
    ∃ mark, b.enqueue capacity item =
      ⟨Function.update b.buffer b.head item, increment capacity b.head, b.tail, b.dropped, mark⟩ := by
  simp only [enqueue, updateHighWaterMark]
  split_ifs
  · exact ⟨_, rfl⟩
  · exact ⟨b.highWaterMark, rfl⟩

theorem inRange_enqueue (h : b.InRange capacity) (item : τ) : (b.enqueue capacity item).InRange capacity := by
  obtain ⟨mark, hmark⟩ := enqueue_eq capacity b item
  rw [hmark]
  exact ⟨Ring.succ_lt h.head_lt, h.tail_lt⟩

theorem dropped_enqueue (capacity : ℕ) (b : SpScRingBuffer τ) (item : τ) :
    (b.enqueue capacity item).dropped = b.dropped := by
  obtain ⟨mark, hmark⟩ := enqueue_eq capacity b item
  rw [hmark]

/-- **A push that finds room** puts its item after the others. -/
theorem items_enqueue (h : b.InRange capacity) (hroom : increment capacity b.head ≠ b.tail) (item : τ) :
    (b.enqueue capacity item).items capacity = b.items capacity ++ [item] := by
  obtain ⟨mark, hmark⟩ := enqueue_eq capacity b item
  have hpush : Ring.window capacity b.tail (increment capacity b.head) =
      Ring.window capacity b.tail b.head ++ [b.head] := Ring.window_push h.tail_lt h.head_lt hroom
  have hothers := Ring.map_window_update h.tail_lt h.head_lt b.buffer item
  rw [hmark]
  simp only [items, hpush, List.map_append, hothers, List.map_singleton, Function.update_self]

theorem tryPush_of_room (hroom : increment capacity b.head ≠ b.tail) (item : τ) :
    b.tryPush capacity item = (true, b.enqueue capacity item) := if_neg hroom

theorem tryPush_of_full (hfull : increment capacity b.head = b.tail) (item : τ) :
    b.tryPush capacity item = (false, { b with dropped := (b.dropped + 1) % 2 ^ 64 }) := if_pos hfull

/-- **What `tryPush` does**, in terms of the items. -/
theorem tryPush_items (h : b.InRange capacity) (item : τ) :
    (b.tryPush capacity item).2.InRange capacity ∧
      ((b.tryPush capacity item).1 = true ↔ (b.items capacity).length ≠ capacity - 1) ∧
      (b.tryPush capacity item).2.items capacity =
        if (b.items capacity).length = capacity - 1 then b.items capacity else b.items capacity ++ [item] := by
  by_cases hfull : increment capacity b.head = b.tail
  · have hlen := (full_iff h).mp hfull
    rw [tryPush_of_full hfull, if_pos hlen]
    exact ⟨⟨h.head_lt, h.tail_lt⟩, iff_of_false Bool.false_ne_true (not_not_intro hlen), rfl⟩
  · have hlen := mt (full_iff h).mpr hfull
    rw [tryPush_of_room hfull, if_neg hlen]
    exact ⟨inRange_enqueue h item, iff_of_true rfl hlen, items_enqueue h hfull item⟩

theorem pushTurn_of_room (hroom : increment capacity b.head ≠ b.tail) (st : ℕ × ℕ) :
    b.pushTurn capacity clock item timeoutMs st = .exit (true, b.enqueue capacity item) := if_pos hroom

/-- **A turn on a full buffer**: `push` has timed out, or goes round again. -/
theorem pushTurn_of_full (hfull : increment capacity b.head = b.tail) (st : ℕ × ℕ) :
    (st.1 % 1000 = 0 ∧ b.pushTurn capacity clock item timeoutMs st = .exit (false, b)) ∨
      ∃ readings, b.pushTurn capacity clock item timeoutMs st = .again ((st.1 + 1) % 2 ^ 64, readings) := by
  rw [pushTurn, if_neg (not_not_intro hfull)]
  split_ifs with hspin htime
  · exact Or.inl ⟨hspin, rfl⟩
  · exact Or.inr ⟨_, rfl⟩
  · exact Or.inr ⟨_, rfl⟩

/-- **A `push` that finds room** does what `tryPush` does, without waiting. -/
theorem push_of_room (hroom : increment capacity b.head ≠ b.tail) (hturns : 1 ≤ turns) :
    b.push capacity clock turns item timeoutMs = some (b.tryPush capacity item) := by
  obtain ⟨n, rfl⟩ : ∃ n, turns = n + 1 := ⟨turns - 1, by omega⟩
  rw [push, Loop.run_of_exit (pushTurn_of_room hroom (0, 1)), tryPush_of_room hroom]

theorem push_eq_some_iff {out : Bool × SpScRingBuffer τ} :
    b.push capacity clock turns item timeoutMs = some out ↔
      Loop.run (b.pushTurn capacity clock item timeoutMs) turns (0, 1) = .exit out := by
  unfold push
  cases Loop.run (b.pushTurn capacity clock item timeoutMs) turns (0, 1) <;> simp

/-- A `push` that is left has made a turn. -/
theorem turns_of_push (h : b.push capacity clock turns item timeoutMs = some (r, b')) : 1 ≤ turns := by
  cases turns with
  | zero => cases h
  | succ n => omega

/-- **A `push` on a full buffer** that is left has timed out, and the buffer is as it was. -/
theorem push_of_full (hfull : increment capacity b.head = b.tail)
    (h : b.push capacity clock turns item timeoutMs = some (r, b')) : r = false ∧ b' = b := by
  have hturn (st : ℕ × ℕ) :
      Loop.Sat (fun _ => True) (· = (false, b)) (b.pushTurn capacity clock item timeoutMs st) := by
    rcases pushTurn_of_full hfull st with ⟨-, hexit⟩ | ⟨readings, hagain⟩
    · rw [hexit]
      rfl
    · rw [hagain]
      trivial
  have hsat : Loop.Sat (fun _ => True) (· = (false, b))
      (Loop.run (b.pushTurn capacity clock item timeoutMs) turns (0, 1)) :=
    Loop.run_sat (fun st _ => hturn st) turns trivial
  rw [push_eq_some_iff.mp h] at hsat
  exact Prod.mk.inj hsat

theorem tryPop_eq_none_iff (h : b.InRange capacity) : b.tryPop capacity = none ↔ b.items capacity = [] := by
  have hempty : b.items capacity = [] ↔ b.tail = b.head := by
    rw [← List.length_eq_zero_iff, length_items, Ring.size_eq h.tail_lt h.head_lt]
    have := h.head_lt
    have := h.tail_lt
    split_ifs <;> omega
  rw [hempty, tryPop]
  split_ifs with heq <;> simp [heq]

/-- **A `tryPop` that finds an item** takes the first. -/
theorem tryPop_of_some (h : b.InRange capacity) (hpop : b.tryPop capacity = some (item, b')) :
    b.items capacity = item :: b'.items capacity ∧ b'.InRange capacity ∧ b'.dropped = b.dropped := by
  simp only [tryPop] at hpop
  split_ifs at hpop with hne
  cases hpop
  refine ⟨?_, ⟨h.head_lt, Ring.succ_lt h.tail_lt⟩, rfl⟩
  have hwindow : Ring.window capacity b.tail b.head =
      b.tail :: Ring.window capacity (increment capacity b.tail) b.head := Ring.window_pop h.tail_lt h.head_lt hne
  simp only [items, hwindow, List.map_cons]

end SpScRingBuffer

/-! ### The account -/

/-- The calls. -/
inductive RingCall (τ : Type) where
  /-- `tryPush(item)`. -/
  | tryPush (item : τ)
  /-- `push(item, timeoutMs)`. -/
  | push (item : τ) (timeoutMs : UInt32)
  /-- `pushWithTimeout(item, timeoutMs)`. -/
  | pushWithTimeout (item : τ) (timeoutMs : UInt32)
  /-- `tryPop(item)`. -/
  | tryPop

/-- A buffer with what has been called of it. -/
structure Account (τ : Type) where
  /-- The buffer. -/
  ring : SpScRingBuffer τ
  /-- How many pushes have been called. -/
  attempts : ℕ
  /-- How many items have been popped. -/
  popped : ℕ

namespace Account

/-- No call has been made. -/
def create (cells : ℕ → τ) : Account τ := ⟨SpScRingBuffer.create cells, 0, 0⟩

/-- A push has been called. -/
def pushed (a : Account τ) (ring : SpScRingBuffer τ) : Account τ := ⟨ring, a.attempts + 1, a.popped⟩

/-- What there is of the pushes: items popped, items in the buffer, and those counted in
`_dropped`. -/
def accounted (capacity : ℕ) (a : Account τ) : ℕ := a.popped + (a.ring.items capacity).length + a.ring.dropped

/-- **The account balances**: there are as many as have been called. -/
def Balanced (capacity : ℕ) (a : Account τ) : Prop := a.attempts = a.accounted capacity

/-- There are not more than have been called, and both ends are cells. -/
structure Covered (capacity : ℕ) (a : Account τ) : Prop where
  inRange : a.ring.InRange capacity
  le_attempts : a.accounted capacity ≤ a.attempts
  dropped_lt : a.ring.dropped < 2 ^ 64

end Account

/-- **The calls**, each of which returns: the clock of a `push` may read anything, as long as its
loop is left. -/
inductive CallStep (capacity : ℕ) : Account τ → RingCall τ → Account τ → Prop where
  | tryPush (a : Account τ) (item : τ) :
    CallStep capacity a (.tryPush item) (a.pushed (a.ring.tryPush capacity item).2)
  | push {a : Account τ} {item : τ} {timeoutMs : UInt32} {clock : ℕ → ℤ} {turns : ℕ} {r : Bool}
    {ring : SpScRingBuffer τ} : a.ring.push capacity clock turns item timeoutMs = some (r, ring) →
    CallStep capacity a (.push item timeoutMs) (a.pushed ring)
  | pushWithTimeout {a : Account τ} {item : τ} {timeoutMs : UInt32} {clock : ℕ → ℤ} {turns : ℕ} {r : Bool}
    {ring : SpScRingBuffer τ} : a.ring.pushWithTimeout capacity clock turns item timeoutMs = some (r, ring) →
    CallStep capacity a (.pushWithTimeout item timeoutMs) (a.pushed ring)
  | tryPop {a : Account τ} {item : τ} {ring : SpScRingBuffer τ} : a.ring.tryPop capacity = some (item, ring) →
    CallStep capacity a .tryPop ⟨ring, a.attempts, a.popped + 1⟩
  | tryPopEmpty {a : Account τ} : a.ring.tryPop capacity = none → CallStep capacity a .tryPop a

/-- **The call is counted**: a `push` does not come when the buffer holds `Capacity - 1` items, nor a
`tryPush` when it does and `_dropped` is the largest `size_t`. -/
def Counts (capacity : ℕ) (a : Account τ) : RingCall τ → Prop
  | .tryPush _ => (a.ring.items capacity).length = capacity - 1 → a.ring.dropped + 1 < 2 ^ 64
  | .push _ _ | .pushWithTimeout _ _ => (a.ring.items capacity).length ≠ capacity - 1
  | .tryPop => True

namespace Account

variable {capacity : ℕ} {a : Account τ} {item : τ} {ring : SpScRingBuffer τ}

theorem accounted_create (capacity : ℕ) (cells : ℕ → τ) : (create cells).accounted capacity = 0 := by
  simp [accounted, create, SpScRingBuffer.items, SpScRingBuffer.create]

theorem covered_create (h : 1 ≤ capacity) (cells : ℕ → τ) : (create cells).Covered capacity where
  inRange := SpScRingBuffer.inRange_create h cells
  le_attempts := (accounted_create capacity cells).le
  dropped_lt := Nat.two_pow_pos 64

theorem balanced_create (capacity : ℕ) (cells : ℕ → τ) : (create cells).Balanced capacity :=
  (accounted_create capacity cells).symm

/-- One push more, and one more there is. -/
theorem pushed_accounted (h : a.Covered capacity) (hrange : ring.InRange capacity) (hlt : ring.dropped < 2 ^ 64)
    (haccount : (ring.items capacity).length + ring.dropped = (a.ring.items capacity).length + a.ring.dropped + 1) :
    (a.pushed ring).Covered capacity ∧ ((a.pushed ring).Balanced capacity ↔ a.Balanced capacity) := by
  have hone : (a.pushed ring).accounted capacity = a.accounted capacity + 1 := by
    rw [accounted, accounted, Nat.add_assoc, Nat.add_assoc a.popped, Nat.add_assoc a.popped]
    exact congrArg (a.popped + ·) haccount
  refine ⟨⟨hrange, ?_, hlt⟩, ?_⟩
  · rw [hone]
    exact Nat.succ_le_succ h.le_attempts
  · rw [Balanced, hone]
    exact Nat.succ_inj

/-- **A push that is missing** stays so. -/
theorem pushed_lost (h : a.Covered capacity) (hrange : ring.InRange capacity) (hlt : ring.dropped < 2 ^ 64)
    (haccount : (ring.items capacity).length + ring.dropped ≤ (a.ring.items capacity).length + a.ring.dropped) :
    (a.pushed ring).Covered capacity ∧ ¬ (a.pushed ring).Balanced capacity := by
  have hnone : (a.pushed ring).accounted capacity ≤ a.accounted capacity := by
    rw [accounted, accounted, Nat.add_assoc, Nat.add_assoc]
    exact Nat.add_le_add_left haccount a.popped
  have hmissing : (a.pushed ring).accounted capacity < (a.pushed ring).attempts :=
    Nat.lt_succ_of_le (hnone.trans h.le_attempts)
  exact ⟨⟨hrange, hmissing.le, hlt⟩, hmissing.ne'⟩

/-- **A push that got in.** -/
theorem pushed_enqueue (h : a.Covered capacity) (hroom : increment capacity a.ring.head ≠ a.ring.tail) (item : τ) :
    (a.pushed (a.ring.enqueue capacity item)).Covered capacity ∧
      ((a.pushed (a.ring.enqueue capacity item)).Balanced capacity ↔ a.Balanced capacity) := by
  have hdropped := SpScRingBuffer.dropped_enqueue capacity a.ring item
  refine pushed_accounted h (SpScRingBuffer.inRange_enqueue h.inRange item) ?_ ?_
  · rw [hdropped]
    exact h.dropped_lt
  · rw [SpScRingBuffer.items_enqueue h.inRange hroom, hdropped, List.length_append, List.length_singleton,
      Nat.add_right_comm]

/-- **A push that is counted in `_dropped`**, unless this wraps. -/
theorem pushed_dropped (h : a.Covered capacity) :
    (a.pushed { a.ring with dropped := (a.ring.dropped + 1) % 2 ^ 64 }).Covered capacity ∧
      ((a.pushed { a.ring with dropped := (a.ring.dropped + 1) % 2 ^ 64 }).Balanced capacity ↔
        a.Balanced capacity ∧ a.ring.dropped + 1 < 2 ^ 64) := by
  have hrange : ({ a.ring with dropped := (a.ring.dropped + 1) % 2 ^ 64 } : SpScRingBuffer τ).InRange capacity :=
    ⟨h.inRange.head_lt, h.inRange.tail_lt⟩
  have hlt : (a.ring.dropped + 1) % 2 ^ 64 < 2 ^ 64 := Nat.mod_lt _ (Nat.two_pow_pos 64)
  by_cases hwrap : a.ring.dropped + 1 < 2 ^ 64
  · obtain ⟨hcovered, hbalanced⟩ := pushed_accounted h hrange hlt (by rw [Nat.mod_eq_of_lt hwrap]; rfl)
    exact ⟨hcovered, hbalanced.trans (and_iff_left hwrap).symm⟩
  · have hzero : (a.ring.dropped + 1) % 2 ^ 64 = 0 := by
      have hmax : a.ring.dropped + 1 = 2 ^ 64 := Nat.le_antisymm h.dropped_lt (not_lt.mp hwrap)
      rw [hmax, Nat.mod_self]
    obtain ⟨hcovered, hlost⟩ := pushed_lost h hrange hlt (by rw [hzero]; exact Nat.le_add_right ..)
    exact ⟨hcovered, iff_of_false hlost fun hcounts => hwrap hcounts.2⟩

/-- **A `push`** is counted if it finds room. -/
theorem push_counted {clock : ℕ → ℤ} {turns : ℕ} {timeoutMs : UInt32} {r : Bool} (h : a.Covered capacity)
    (hpush : a.ring.push capacity clock turns item timeoutMs = some (r, ring)) :
    (a.pushed ring).Covered capacity ∧ ((a.pushed ring).Balanced capacity ↔
      a.Balanced capacity ∧ (a.ring.items capacity).length ≠ capacity - 1) := by
  rw [ne_eq, ← SpScRingBuffer.full_iff h.inRange]
  by_cases hfull : increment capacity a.ring.head = a.ring.tail
  · obtain ⟨-, rfl⟩ := SpScRingBuffer.push_of_full hfull hpush
    obtain ⟨hcovered, hlost⟩ := pushed_lost h h.inRange h.dropped_lt (Nat.le_refl _)
    exact ⟨hcovered, iff_of_false hlost fun hcounts => hcounts.2 hfull⟩
  · rw [SpScRingBuffer.push_of_room hfull (SpScRingBuffer.turns_of_push hpush),
      SpScRingBuffer.tryPush_of_room hfull] at hpush
    cases hpush
    obtain ⟨hcovered, hbalanced⟩ := pushed_enqueue h hfull item
    exact ⟨hcovered, hbalanced.trans (and_iff_left hfull).symm⟩

end Account

/-! ### Sequences of calls -/

section Sequences

variable {capacity n : ℕ} {a a' : Account τ} {c : RingCall τ} {run : ℕ → Account τ} {calls : ℕ → RingCall τ}
  {cells : ℕ → τ}

/-- **What a call does to the account**: it balances after it exactly when it did before, and the
call is counted. -/
theorem CallStep.balanced_iff (hs : CallStep capacity a c a') (h : a.Covered capacity) :
    a'.Covered capacity ∧ (a'.Balanced capacity ↔ a.Balanced capacity ∧ Counts capacity a c) := by
  cases hs with
  | tryPush item =>
    rw [Counts, ← SpScRingBuffer.full_iff h.inRange]
    by_cases hfull : increment capacity a.ring.head = a.ring.tail
    · rw [SpScRingBuffer.tryPush_of_full hfull, forall_prop_of_true hfull]
      exact Account.pushed_dropped h
    · rw [SpScRingBuffer.tryPush_of_room hfull]
      obtain ⟨hcovered, hbalanced⟩ := Account.pushed_enqueue h hfull item
      exact ⟨hcovered, hbalanced.trans (and_iff_left fun heq => absurd heq hfull).symm⟩
  | push hpush => exact Account.push_counted h hpush
  | pushWithTimeout hpush => exact Account.push_counted h hpush
  | @tryPop item ring hpop =>
    obtain ⟨hitems, hrange, hdropped⟩ := SpScRingBuffer.tryPop_of_some h.inRange hpop
    have haccount : Account.accounted capacity ⟨ring, a.attempts, a.popped + 1⟩ = a.accounted capacity := by
      simp only [Account.accounted, hitems, hdropped, List.length_cons]
      ring
    refine ⟨⟨hrange, ?_, hdropped ▸ h.dropped_lt⟩, ?_⟩
    · rw [haccount]
      exact h.le_attempts
    · rw [Account.Balanced, haccount]
      exact (and_iff_left trivial).symm
  | tryPopEmpty => exact ⟨h, (and_iff_left trivial).symm⟩

/-- **When the account balances**: for every capacity from `1` on and every sequence of calls that
return, with any readings of the clocks, the number of pushes called is the number of items
popped, of items in the buffer and `_dropped` together, exactly when no `push` and no
`pushWithTimeout` has been called while the buffer held `Capacity - 1` items, nor a `tryPush`
while it did and `_dropped` was the largest `size_t`. -/
theorem account_balanced_iff (hcap : 1 ≤ capacity) (hstart : run 0 = Account.create cells)
    (hstep : ∀ k < n, CallStep capacity (run k) (calls k) (run (k + 1))) :
    (run n).Balanced capacity ↔ ∀ k < n, Counts capacity (run k) (calls k) := by
  have hbalanced : (run 0).Balanced capacity := hstart ▸ Account.balanced_create capacity cells
  have hcovered : (run 0).Covered capacity := hstart ▸ Account.covered_create hcap cells
  exact holds_at_iff_of_invariant (I := fun k => (run k).Balanced capacity) hbalanced hcovered
    (fun k hk h => ((hstep k hk).balanced_iff h).2) fun k hk h => ((hstep k hk).balanced_iff h).1

/-- A buffer of two cells after one `tryPush`. -/
def oneItem : Account ℕ :=
  let a := Account.create fun _ => 0
  a.pushed (a.ring.tryPush 2 7).2

/-- A second one follows. -/
def twoPushes : ℕ → Account ℕ
  | 0 => Account.create fun _ => 0
  | 1 => oneItem
  | _ => oneItem.pushed (oneItem.ring.tryPush 2 8).2

/-- The calls of that run. -/
def twoPushCalls : ℕ → RingCall ℕ
  | 0 => .tryPush 7
  | _ => .tryPush 8

/-- The second `tryPush` is counted. -/
theorem balanced_dropped : (oneItem.pushed (oneItem.ring.tryPush 2 8).2).Balanced 2 := by
  have hstep : ∀ k < 2, CallStep 2 (twoPushes k) (twoPushCalls k) (twoPushes (k + 1))
    | 0, _ => .tryPush _ 7
    | 1, _ => .tryPush _ 8
  have hstart : twoPushes 0 = Account.create fun _ => 0 := rfl
  refine (account_balanced_iff (by decide : 1 ≤ 2) hstart hstep).mpr fun k hk => ?_
  match k, hk with
  | 0, _ => exact fun _ => by decide
  | 1, _ => exact fun _ => by decide

/-- **A `push` that is missing from the account**: it is called while the item is there, and returns
when the clock reads `5000` milliseconds later. -/
theorem push_uncounted :
    CallStep 2 (Account.create fun _ => 0) (.tryPush 7) oneItem ∧
      oneItem.ring.push 2 (fun k => if k = 0 then 0 else 5000000000) 1 8 5000 = some (false, oneItem.ring) ∧
      CallStep 2 oneItem (.push 8 5000) (oneItem.pushed oneItem.ring) ∧
      ¬ (oneItem.pushed oneItem.ring).Balanced 2 := by
  have hfull : increment 2 oneItem.ring.head = oneItem.ring.tail := by decide
  have hpush : oneItem.ring.push 2 (fun k => if k = 0 then 0 else 5000000000) 1 8 5000 =
      some (false, oneItem.ring) := by
    refine SpScRingBuffer.push_eq_some_iff.mpr (Loop.run_of_exit ?_ 0)
    rw [SpScRingBuffer.pushTurn, if_neg (not_not_intro hfull), if_pos (by decide), if_pos (by decide)]
  exact ⟨.tryPush _ 7, hpush, .push hpush, by unfold Account.Balanced; decide⟩

end Sequences

/-! ### Calls as runs of the two threads -/

section Threads

variable {capacity n : ℕ} {b b' : SpScRingBuffer τ} {item : τ}

/-- The pushes called, in order. -/
def called (trace : List (Label τ)) : List (PushKind × τ) :=
  trace.filterMap fun
    | .called kind item => some (kind, item)
    | _ => none

@[simp] theorem called_append (l l' : List (Label τ)) : called (l ++ l') = called l ++ called l' :=
  List.filterMap_append

/-- The threads can come to there, with no further call and no item popped on the way. -/
def Proceeds (capacity : ℕ) (b : SpScRingBuffer τ) (p : Producer τ) (b' : SpScRingBuffer τ) (p' : Producer τ) : Prop :=
  ∃ trace, Run (Interleave (ProducerStep capacity) (ConsumerStep capacity)) (b, p, .idle) trace (b', p', .idle) ∧
    called trace = [] ∧ popped trace = []

theorem Proceeds.trans {p p' p'' : Producer τ} {b'' : SpScRingBuffer τ} (h : Proceeds capacity b p b' p')
    (h' : Proceeds capacity b' p' b'' p'') : Proceeds capacity b p b'' p'' := by
  obtain ⟨trace, hrun, hcalled, hpopped⟩ := h
  obtain ⟨trace', hrun', hcalled', hpopped'⟩ := h'
  refine ⟨trace ++ trace', hrun.trans hrun', ?_, ?_⟩
  · rw [called_append, hcalled, hcalled', List.append_nil]
  · rw [popped_append, hpopped, hpopped', List.append_nil]

/-- One step of the producer. -/
theorem Proceeds.step {p p' : Producer τ} {l : Label τ} (hs : ProducerStep capacity b p l b' p')
    (hcalled : called [l] = []) (hpopped : popped [l] = []) : Proceeds capacity b p b' p' :=
  ⟨[l], Run.nil.snoc (.left _ hs), hcalled, hpopped⟩

/-- **A push that has found room**, to its end. -/
theorem proceeds_enqueue (call : PushCall) (item : τ) (hroom : increment capacity b.head ≠ b.tail) :
    Proceeds capacity b (.loadTail call item b.head) (b.enqueue capacity item) .idle := by
  have hmark := (Proceeds.step (.notFull call item hroom) rfl rfl).trans
    ((Proceeds.step (.write b item b.head) rfl rfl).trans ((Proceeds.step (.storeHead _ item b.head) rfl rfl).trans
      ((Proceeds.step (.loadHigh _ _) rfl rfl).trans (Proceeds.step (.loadUsed _ _ _) rfl rfl))))
  by_cases hused : usedAt capacity (increment capacity b.head) b.tail > b.highWaterMark
  · have heq : b.enqueue capacity item = ⟨Function.update b.buffer b.head item, increment capacity b.head, b.tail,
        b.dropped, usedAt capacity (increment capacity b.head) b.tail⟩ := by
      simp only [SpScRingBuffer.enqueue, SpScRingBuffer.updateHighWaterMark, if_pos hused]
    rw [heq]
    exact hmark.trans (Proceeds.step (.exchanged hused rfl) rfl rfl)
  · have heq : b.enqueue capacity item = ⟨Function.update b.buffer b.head item, increment capacity b.head, b.tail,
        b.dropped, b.highWaterMark⟩ := by
      simp only [SpScRingBuffer.enqueue, SpScRingBuffer.updateHighWaterMark, if_neg hused]
    rw [heq]
    exact hmark.trans (Proceeds.step (.noHigher _ hused) rfl rfl)

/-- **`tryPush`**, from its first access. -/
theorem proceeds_tryPush (b : SpScRingBuffer τ) (item : τ) :
    Proceeds capacity b (.loadHead .once item) (b.tryPush capacity item).2 .idle := by
  have hload : Proceeds capacity b (.loadHead .once item) b (.loadTail .once item b.head) :=
    Proceeds.step (.loadHead b .once item) rfl rfl
  by_cases hfull : increment capacity b.head = b.tail
  · rw [SpScRingBuffer.tryPush_of_full hfull]
    exact hload.trans ((Proceeds.step (.full .once item hfull) rfl rfl).trans (Proceeds.step (.drop b) rfl rfl))
  · rw [SpScRingBuffer.tryPush_of_room hfull]
    exact hload.trans (proceeds_enqueue .once item hfull)

/-- **The loop of `push`**, from any turn on. -/
theorem proceeds_push {clock : ℕ → ℤ} {timeoutMs : UInt32} {r : Bool} {spinCount readings : ℕ}
    (h : Loop.run (b.pushTurn capacity clock item timeoutMs) n (spinCount, readings) = .exit (r, b')) :
    Proceeds capacity b (.loadHead (.loop spinCount) item) b' .idle := by
  induction n generalizing spinCount readings with
  | zero => cases h
  | succ n ih =>
    have hload : Proceeds capacity b (.loadHead (.loop spinCount) item) b (.loadTail (.loop spinCount) item b.head) :=
      Proceeds.step (.loadHead b (.loop spinCount) item) rfl rfl
    by_cases hfull : increment capacity b.head = b.tail
    · have hwait := hload.trans (Proceeds.step (.full (.loop spinCount) item hfull) rfl rfl)
      rcases SpScRingBuffer.pushTurn_of_full hfull (spinCount, readings) with ⟨hspin, hexit⟩ | ⟨readings', hagain⟩
      · rw [Loop.run_of_exit hexit] at h
        cases h
        exact hwait.trans (Proceeds.step (.timeout b item hspin) rfl rfl)
      · rw [Loop.run_of_again hagain] at h
        exact hwait.trans ((Proceeds.step (.spin b item spinCount) rfl rfl).trans (ih h))
    · rw [Loop.run_of_exit (SpScRingBuffer.pushTurn_of_room hfull _)] at h
      cases h
      exact hload.trans (proceeds_enqueue (.loop spinCount) item hfull)

/-- **A call is a run of the two threads**, neither of which is in a call before or after it. -/
theorem CallStep.run {a a' : Account τ} {c : RingCall τ} (hs : CallStep capacity a c a') :
    ∃ trace, Run (Interleave (ProducerStep capacity) (ConsumerStep capacity)) (a.ring, .idle, .idle) trace
        (a'.ring, .idle, .idle) ∧
      a'.attempts = a.attempts + (called trace).length ∧ a'.popped = a.popped + (popped trace).length := by
  -- a push is its call, and then steps that call and pop nothing
  have hpush {ring : SpScRingBuffer τ} (kind : PushKind) (item : τ)
      (h : Proceeds capacity a.ring (.loadHead kind.call item) ring .idle) :
      ∃ trace, Run (Interleave (ProducerStep capacity) (ConsumerStep capacity)) (a.ring, .idle, .idle) trace
          (ring, .idle, .idle) ∧
        a.attempts + 1 = a.attempts + (called trace).length ∧ a.popped = a.popped + (popped trace).length := by
    obtain ⟨trace, hrun, hcalled, hpopped⟩ := h
    have hcall : Run (Interleave (ProducerStep capacity) (ConsumerStep capacity)) (a.ring, .idle, .idle)
        [.called kind item] (a.ring, .loadHead kind.call item, .idle) := Run.nil.snoc (.left _ (.call _ kind item))
    refine ⟨_, hcall.trans hrun, ?_, ?_⟩
    · rw [called_append, hcalled]
      rfl
    · rw [popped_append, hpopped]
      rfl
  cases hs with
  | tryPush item => exact hpush .tryPush item (proceeds_tryPush a.ring item)
  | push h => exact hpush .push _ (proceeds_push (SpScRingBuffer.push_eq_some_iff.mp h))
  | pushWithTimeout h => exact hpush .pushWithTimeout _ (proceeds_push (SpScRingBuffer.push_eq_some_iff.mp h))
  | tryPop h =>
    simp only [SpScRingBuffer.tryPop] at h
    split_ifs at h with hne
    cases h
    have hrun : Run (Interleave (ProducerStep capacity) (ConsumerStep capacity)) (a.ring, .idle, .idle) _ _ :=
      Run.nil
        |>.snoc (.right _ (.loadTail _))
        |>.snoc (.right _ (.notEmpty hne))
        |>.snoc (.right _ (.read _ _))
        |>.snoc (.right _ (.storeTail _ _ _))
    exact ⟨_, hrun, rfl, rfl⟩
  | tryPopEmpty h =>
    simp only [SpScRingBuffer.tryPop] at h
    split_ifs at h with heq
    have hrun : Run (Interleave (ProducerStep capacity) (ConsumerStep capacity)) (a.ring, .idle, .idle) _ _ :=
      Run.nil
        |>.snoc (.right _ (.loadTail _))
        |>.snoc (.right _ (.empty heq))
    exact ⟨_, hrun, rfl, rfl⟩

/-- **A sequence of calls is a run of the two threads** from the construction of the buffer: so what
is popped and in the buffer after it is what has been published, in order. -/
theorem calls_run {cells : ℕ → τ} {run : ℕ → Account τ} {calls : ℕ → RingCall τ}
    (hstart : run 0 = Account.create cells) (hstep : ∀ k < n, CallStep capacity (run k) (calls k) (run (k + 1))) :
    ∃ trace, RingRun capacity cells trace (run n).ring .idle .idle ∧
      (run n).attempts = (called trace).length ∧ (run n).popped = (popped trace).length := by
  induction n with
  | zero =>
    rw [hstart]
    exact ⟨[], Run.nil, rfl, rfl⟩
  | succ n ih =>
    obtain ⟨trace, hrun, hattempts, hpopped⟩ := ih fun k hk => hstep k (Nat.lt_succ_of_lt hk)
    obtain ⟨trace', hrun', hattempts', hpopped'⟩ := (hstep n (Nat.lt_succ_self n)).run
    refine ⟨trace ++ trace', hrun.trans hrun', ?_, ?_⟩
    · rw [hattempts', hattempts, called_append, List.length_append]
    · rw [hpopped', hpopped, popped_append, List.length_append]

end Threads

end Scrimmage.Common
