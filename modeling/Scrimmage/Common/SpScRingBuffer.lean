import Scrimmage.Theory.Ring
import Scrimmage.Theory.Transition
import Mathlib.Logic.Function.Basic
import Mathlib.Tactic.Common
import Mathlib.Algebra.Ring.Nat

/-!
# The ring buffer of one producer and one consumer

`SpScRingBuffer` of `SpScRingBuffer.h`: a circular buffer that one thread pushes to and
another pops from, without a lock.

## The model

* `SpScRingBuffer` is what the two threads share. Each access to it is one step, and the
  steps of the two are interleaved in any order, each seeing what is there
  (`Interleave`). The accesses are sequentially consistent.
* `Producer` and `Consumer` are the places a thread can be at between its accesses, with
  the local variables it still uses. `ProducerStep` and `ConsumerStep` have a constructor
  for each access. `pushWithTimeout` calls `push`.
* The clock of `push` may have reached the timeout whenever it is read, and the weak
  exchange of `updateHighWaterMark` may fail whenever it is tried.
* `Label` is what can be seen of a step.

## What is proved

* `Sync`: the invariant that relates what each side has loaded to what is there;
  `Sync.producer`, `Sync.consumer`: every step of either side keeps it.
* `fifo`: over every interleaving, what has been popped and what is in the buffer are what
  has been published, in order, and the producer writes no cell in use.
-/

namespace Scrimmage.Common

open Theory

variable {τ : Type}

/-- `SpScRingBuffer<T, Capacity>`: what the two threads share. -/
structure SpScRingBuffer (τ : Type) where
  /-- `_buffer`. -/
  buffer : ℕ → τ
  /-- `_head`. -/
  head : ℕ
  /-- `_tail`. -/
  tail : ℕ
  /-- `_dropped`. -/
  dropped : ℕ
  /-- `_highWaterMark`. -/
  highWaterMark : ℕ

/-- `SpScRingBuffer()`; the cells hold anything. -/
def SpScRingBuffer.create (buffer : ℕ → τ) : SpScRingBuffer τ := ⟨buffer, 0, 0, 0, 0⟩

/-- `increment`. -/
def increment (capacity currentIndex : ℕ) : ℕ :=
  if currentIndex + 1 = capacity then 0 else currentIndex + 1

/-- The value of `used` in `updateHighWaterMark`, with the arithmetic of a `size_t`. -/
def usedAt (capacity currentHead tail : ℕ) : ℕ :=
  ((currentHead + capacity + 2 ^ 64 - tail) % 2 ^ 64) % capacity

/-- The three kinds of push. -/
inductive PushKind where
  /-- `tryPush`. -/
  | tryPush
  /-- `push`. -/
  | push
  /-- `pushWithTimeout`. -/
  | pushWithTimeout
  deriving DecidableEq

/-- The function a push runs: `tryPush`, or the loop of `push` with its `spinCount`. -/
inductive PushCall where
  /-- `tryPush`. -/
  | once
  /-- `push`. -/
  | loop (spinCount : ℕ)
  deriving DecidableEq

/-- What is run for each kind of push. -/
def PushKind.call : PushKind → PushCall
  | .tryPush => .once
  | .push | .pushWithTimeout => .loop 0

/-- Where the producer is: the access it makes next. -/
inductive Producer (τ : Type) where
  /-- In no call. -/
  | idle
  /-- `_head.load`. -/
  | loadHead (call : PushCall) (item : τ)
  /-- `_tail.load`. -/
  | loadTail (call : PushCall) (item : τ) (currentHead : ℕ)
  /-- `_buffer[currentHead] = item`. -/
  | write (item : τ) (currentHead : ℕ)
  /-- `_head.store(nextHead)`. -/
  | storeHead (item : τ) (currentHead : ℕ)
  /-- `_dropped.fetch_add(1)`. -/
  | drop
  /-- The test of `spinCount` and of the clock. -/
  | wait (item : τ) (spinCount : ℕ)
  /-- `_highWaterMark.load`. -/
  | loadHigh (currentHead : ℕ)
  /-- `_tail.load` in `updateHighWaterMark`. -/
  | loadUsed (currentHead currentHigh : ℕ)
  /-- The test and the exchange of the loop of `updateHighWaterMark`. -/
  | exchange (used currentHigh : ℕ)

/-- Where the consumer is: the access it makes next. -/
inductive Consumer (τ : Type) where
  /-- In no call, or before `_tail.load`. -/
  | idle
  /-- `_head.load`. -/
  | loadHead (currentTail : ℕ)
  /-- `item = _buffer[currentTail]`. -/
  | read (currentTail : ℕ)
  /-- `_tail.store(increment(currentTail))`. -/
  | storeTail (item : τ) (currentTail : ℕ)

/-- What can be seen of a step. -/
inductive Label (τ : Type) where
  /-- Nothing. -/
  | internal
  /-- The producer calls a push. -/
  | called (kind : PushKind) (item : τ)
  /-- The producer finds the buffer full. -/
  | foundFull
  /-- The item is there for the consumer. -/
  | published (item : τ)
  /-- A push returns. -/
  | returned (accepted : Bool)
  /-- The consumer finds the buffer empty, and `tryPop` returns `false`. -/
  | foundEmpty
  /-- `tryPop` has the item, and returns `true`. -/
  | popped (item : τ)

/-- Where a push goes that has found the buffer full. -/
def PushCall.onFull (item : τ) : PushCall → Producer τ
  | .once => .drop
  | .loop spinCount => .wait item spinCount

/-- **The steps of the producer.** -/
inductive ProducerStep (capacity : ℕ) :
    SpScRingBuffer τ → Producer τ → Label τ → SpScRingBuffer τ → Producer τ → Prop where
  | call (b : SpScRingBuffer τ) (kind : PushKind) (item : τ) :
    ProducerStep capacity b .idle (.called kind item) b (.loadHead kind.call item)
  | loadHead (b : SpScRingBuffer τ) (call : PushCall) (item : τ) :
    ProducerStep capacity b (.loadHead call item) .internal b (.loadTail call item b.head)
  | full {b : SpScRingBuffer τ} (call : PushCall) (item : τ) {currentHead : ℕ} :
    increment capacity currentHead = b.tail →
    ProducerStep capacity b (.loadTail call item currentHead) .foundFull b (call.onFull item)
  | notFull {b : SpScRingBuffer τ} (call : PushCall) (item : τ) {currentHead : ℕ} :
    increment capacity currentHead ≠ b.tail →
    ProducerStep capacity b (.loadTail call item currentHead) .internal b (.write item currentHead)
  | write (b : SpScRingBuffer τ) (item : τ) (currentHead : ℕ) :
    ProducerStep capacity b (.write item currentHead) .internal
      { b with buffer := Function.update b.buffer currentHead item } (.storeHead item currentHead)
  | storeHead (b : SpScRingBuffer τ) (item : τ) (currentHead : ℕ) :
    ProducerStep capacity b (.storeHead item currentHead) (.published item)
      { b with head := increment capacity currentHead } (.loadHigh (increment capacity currentHead))
  | drop (b : SpScRingBuffer τ) :
    ProducerStep capacity b .drop (.returned false) { b with dropped := (b.dropped + 1) % 2 ^ 64 } .idle
  /-- `spinCount++ % 1000 == 0`, and the time is up. -/
  | timeout (b : SpScRingBuffer τ) (item : τ) {spinCount : ℕ} : spinCount % 1000 = 0 →
    ProducerStep capacity b (.wait item spinCount) (.returned false) b .idle
  /-- The time is not up, or is not looked at. -/
  | spin (b : SpScRingBuffer τ) (item : τ) (spinCount : ℕ) :
    ProducerStep capacity b (.wait item spinCount) .internal b
      (.loadHead (.loop ((spinCount + 1) % 2 ^ 64)) item)
  | loadHigh (b : SpScRingBuffer τ) (currentHead : ℕ) :
    ProducerStep capacity b (.loadHigh currentHead) .internal b (.loadUsed currentHead b.highWaterMark)
  | loadUsed (b : SpScRingBuffer τ) (currentHead currentHigh : ℕ) :
    ProducerStep capacity b (.loadUsed currentHead currentHigh) .internal b
      (.exchange (usedAt capacity currentHead b.tail) currentHigh)
  | noHigher (b : SpScRingBuffer τ) {used currentHigh : ℕ} : ¬ used > currentHigh →
    ProducerStep capacity b (.exchange used currentHigh) (.returned true) b .idle
  | exchanged {b : SpScRingBuffer τ} {used currentHigh : ℕ} : used > currentHigh →
    b.highWaterMark = currentHigh →
    ProducerStep capacity b (.exchange used currentHigh) (.returned true)
      { b with highWaterMark := used } .idle
  /-- The exchange fails, and loads what is there. -/
  | notExchanged (b : SpScRingBuffer τ) {used currentHigh : ℕ} : used > currentHigh →
    ProducerStep capacity b (.exchange used currentHigh) .internal b (.exchange used b.highWaterMark)

/-- **The steps of the consumer.** -/
inductive ConsumerStep (capacity : ℕ) :
    SpScRingBuffer τ → Consumer τ → Label τ → SpScRingBuffer τ → Consumer τ → Prop where
  | loadTail (b : SpScRingBuffer τ) : ConsumerStep capacity b .idle .internal b (.loadHead b.tail)
  | empty {b : SpScRingBuffer τ} {currentTail : ℕ} : currentTail = b.head →
    ConsumerStep capacity b (.loadHead currentTail) .foundEmpty b .idle
  | notEmpty {b : SpScRingBuffer τ} {currentTail : ℕ} : currentTail ≠ b.head →
    ConsumerStep capacity b (.loadHead currentTail) .internal b (.read currentTail)
  | read (b : SpScRingBuffer τ) (currentTail : ℕ) :
    ConsumerStep capacity b (.read currentTail) .internal b (.storeTail (b.buffer currentTail) currentTail)
  | storeTail (b : SpScRingBuffer τ) (item : τ) (currentTail : ℕ) :
    ConsumerStep capacity b (.storeTail item currentTail) (.popped item)
      { b with tail := increment capacity currentTail } .idle

/-- The runs of a buffer, from its construction: its cells hold anything, and neither
thread is in a call. -/
def RingRun (capacity : ℕ) (cells : ℕ → τ) (trace : List (Label τ)) (b : SpScRingBuffer τ)
    (p : Producer τ) (c : Consumer τ) : Prop :=
  Run (Interleave (ProducerStep capacity) (ConsumerStep capacity))
    (SpScRingBuffer.create cells, .idle, .idle) trace (b, p, c)

/-! ### What is seen, and what is there -/

/-- The items published, in order. -/
def published (trace : List (Label τ)) : List τ :=
  trace.filterMap fun
    | .published item => some item
    | _ => none

/-- The items popped, in order. -/
def popped (trace : List (Label τ)) : List τ :=
  trace.filterMap fun
    | .popped item => some item
    | _ => none

/-- The items in the cells from `_tail` to `_head`. -/
def SpScRingBuffer.items (capacity : ℕ) (b : SpScRingBuffer τ) : List τ :=
  (Ring.window capacity b.tail b.head).map b.buffer

@[simp] theorem published_append (l l' : List (Label τ)) : published (l ++ l') = published l ++ published l' :=
  List.filterMap_append

@[simp] theorem popped_append (l l' : List (Label τ)) : popped (l ++ l') = popped l ++ popped l' :=
  List.filterMap_append

/-! ### The invariant -/

/-- What the producer has loaded and written is still so: `_head` is its own, the cell it
is to publish is not the last free one, and holds the item once it is written. -/
def Producer.Holds (capacity : ℕ) (b : SpScRingBuffer τ) : Producer τ → Prop
  | .loadTail _ _ currentHead => currentHead = b.head
  | .write _ currentHead => currentHead = b.head ∧ increment capacity b.head ≠ b.tail
  | .storeHead item currentHead =>
    currentHead = b.head ∧ increment capacity b.head ≠ b.tail ∧ b.buffer b.head = item
  | _ => True

/-- What the consumer has loaded is still so: `_tail` is its own, the buffer is not empty,
and the item it has read is in the first cell. -/
def Consumer.Holds (b : SpScRingBuffer τ) : Consumer τ → Prop
  | .idle => True
  | .loadHead currentTail => currentTail = b.tail
  | .read currentTail => currentTail = b.tail ∧ b.tail ≠ b.head
  | .storeTail item currentTail => currentTail = b.tail ∧ b.tail ≠ b.head ∧ b.buffer b.tail = item

/-- **The invariant**: both ends are cells, what each side holds is so, and what has been
popped and is in the buffer is what has been published. -/
structure Sync (capacity : ℕ) (trace : List (Label τ)) (b : SpScRingBuffer τ) (p : Producer τ)
    (c : Consumer τ) : Prop where
  head_lt : b.head < capacity
  tail_lt : b.tail < capacity
  producer : p.Holds capacity b
  consumer : c.Holds b
  fifo : published trace = popped trace ++ b.items capacity

namespace Sync

variable {capacity : ℕ} {trace : List (Label τ)} {b b' : SpScRingBuffer τ} {p p' : Producer τ}
  {c c' : Consumer τ} {l : Label τ}

theorem start (h : 0 < capacity) (cells : ℕ → τ) :
    Sync capacity [] (SpScRingBuffer.create cells) .idle .idle where
  head_lt := h
  tail_lt := h
  producer := trivial
  consumer := trivial
  fifo := by simp [published, popped, SpScRingBuffer.items, SpScRingBuffer.create]

/-- A step that is no publication and no pop, and leaves the ends and the cells as they are. -/
theorem quiet (h : Sync capacity trace b p c) (hhead : b'.head = b.head) (htail : b'.tail = b.tail)
    (hbuffer : b'.buffer = b.buffer) (hp : p'.Holds capacity b') (hc : c'.Holds b')
    (hpub : published [l] = []) (hpop : popped [l] = []) : Sync capacity (trace ++ [l]) b' p' c' := by
  refine ⟨hhead ▸ h.head_lt, htail ▸ h.tail_lt, hp, hc, ?_⟩
  have hitems : b'.items capacity = b.items capacity := by
    simp only [SpScRingBuffer.items, hhead, htail, hbuffer]
  rw [published_append, popped_append, hpub, hpop, hitems, List.append_nil, List.append_nil]
  exact h.fifo

/-- **Every step of the producer keeps the invariant.** -/
theorem producer_step (h : Sync capacity trace b p c) (hs : ProducerStep capacity b p l b' p') :
    Sync capacity (trace ++ [l]) b' p' c := by
  have hp := h.producer
  cases hs with
  | call kind item => exact h.quiet rfl rfl rfl trivial h.consumer rfl rfl
  | loadHead call item => exact h.quiet rfl rfl rfl rfl h.consumer rfl rfl
  | full call item hfull =>
    cases call with
    | once => exact h.quiet rfl rfl rfl trivial h.consumer rfl rfl
    | loop spinCount => exact h.quiet rfl rfl rfl trivial h.consumer rfl rfl
  | notFull call item hne =>
    obtain rfl : _ = b.head := hp
    exact h.quiet rfl rfl rfl ⟨rfl, hne⟩ h.consumer rfl rfl
  | write item currentHead =>
    obtain ⟨rfl, hne⟩ := hp
    refine ⟨h.head_lt, h.tail_lt, ⟨rfl, hne, Function.update_self ..⟩, ?_, ?_⟩
    · have hc := h.consumer
      cases c with
      | idle | loadHead | read => exact hc
      | storeTail item' currentTail =>
        obtain ⟨rfl, hte, hitem⟩ := hc
        exact ⟨rfl, hte, by rw [← hitem]; exact Function.update_of_ne hte ..⟩
    · -- the cell written is not one of those in use
      have hitems : (Ring.window capacity b.tail b.head).map (Function.update b.buffer b.head item) =
          b.items capacity := Ring.map_window_update h.tail_lt h.head_lt b.buffer item
      simpa [SpScRingBuffer.items, hitems, published, popped] using h.fifo
  | storeHead item currentHead =>
    obtain ⟨rfl, hne, hitem⟩ := hp
    have hc := h.consumer
    refine ⟨Ring.succ_lt h.head_lt, h.tail_lt, trivial, ?_, ?_⟩
    · cases c with
      | idle | loadHead => exact hc
      | read currentTail => exact ⟨hc.1, fun heq => hne heq.symm⟩
      | storeTail item' currentTail => exact ⟨hc.1, fun heq => hne heq.symm, hc.2.2⟩
    · have hpush : Ring.window capacity b.tail (increment capacity b.head) =
          Ring.window capacity b.tail b.head ++ [b.head] := Ring.window_push h.tail_lt h.head_lt hne
      have hfifo := h.fifo
      simp only [SpScRingBuffer.items] at hfifo ⊢
      rw [published_append, popped_append, hpush, List.map_append, hfifo]
      simp [published, popped, hitem]
  | drop => exact h.quiet rfl rfl rfl trivial h.consumer rfl rfl
  | timeout item hz => exact h.quiet rfl rfl rfl trivial h.consumer rfl rfl
  | spin item spinCount => exact h.quiet rfl rfl rfl trivial h.consumer rfl rfl
  | loadHigh currentHead => exact h.quiet rfl rfl rfl trivial h.consumer rfl rfl
  | loadUsed currentHead currentHigh => exact h.quiet rfl rfl rfl trivial h.consumer rfl rfl
  | noHigher hle => exact h.quiet rfl rfl rfl trivial h.consumer rfl rfl
  | exchanged hlt heq => exact h.quiet rfl rfl rfl trivial h.consumer rfl rfl
  | notExchanged hlt => exact h.quiet rfl rfl rfl trivial h.consumer rfl rfl

/-- **Every step of the consumer keeps the invariant.** -/
theorem consumer_step (h : Sync capacity trace b p c) (hs : ConsumerStep capacity b c l b' c') :
    Sync capacity (trace ++ [l]) b' p c' := by
  have hc := h.consumer
  cases hs with
  | loadTail => exact h.quiet rfl rfl rfl h.producer rfl rfl rfl
  | empty heq => exact h.quiet rfl rfl rfl h.producer trivial rfl rfl
  | notEmpty hne =>
    obtain rfl : _ = b.tail := hc
    exact h.quiet rfl rfl rfl h.producer ⟨rfl, hne⟩ rfl rfl
  | read currentTail =>
    obtain ⟨rfl, hne⟩ := hc
    exact h.quiet rfl rfl rfl h.producer ⟨rfl, hne, rfl⟩ rfl rfl
  | storeTail item currentTail =>
    obtain ⟨rfl, hne, hitem⟩ := hc
    have hnext : increment capacity b.head ≠ increment capacity b.tail :=
      fun heq => hne (Ring.succ_inj heq).symm
    refine ⟨h.head_lt, Ring.succ_lt h.tail_lt, ?_, trivial, ?_⟩
    · have hp := h.producer
      cases p with
      | write item' currentHead => exact ⟨hp.1, hnext⟩
      | storeHead item' currentHead => exact ⟨hp.1, hnext, hp.2.2⟩
      | loadTail => exact hp
      | idle | loadHead | drop | wait | loadHigh | loadUsed | exchange => trivial
    · have hpop : Ring.window capacity b.tail b.head =
          b.tail :: Ring.window capacity (increment capacity b.tail) b.head :=
        Ring.window_pop h.tail_lt h.head_lt hne
      have hfifo := h.fifo
      simp only [SpScRingBuffer.items] at hfifo ⊢
      rw [published_append, popped_append, hfifo, hpop]
      simp [published, popped, hitem]

/-- **Every run keeps the invariant.** -/
theorem run {cells : ℕ → τ} (hcap : 0 < capacity) (h : RingRun capacity cells trace b p c) :
    Sync capacity trace b p c :=
  Run.interleave (Sync capacity) (start hcap cells) (fun _ _ _ _ _ _ _ h hs => h.producer_step hs)
    (fun _ _ _ _ _ _ _ h hs => h.consumer_step hs) h

end Sync

/-- **The buffer is a queue that loses nothing**, over every interleaving of the two sides: at
every point the items popped, and after them those in the cells from `_tail` to `_head`,
are those published, in order; and the cell the producer writes is none of these. -/
theorem fifo {capacity : ℕ} (hcap : 0 < capacity) {cells : ℕ → τ} {trace : List (Label τ)}
    {b : SpScRingBuffer τ} {p : Producer τ} {c : Consumer τ} (h : RingRun capacity cells trace b p c) :
    popped trace ++ b.items capacity = published trace ∧
      ∀ item cell, p = .write item cell → cell ∉ Ring.window capacity b.tail b.head := by
  have hsync := Sync.run hcap h
  refine ⟨hsync.fifo.symm, ?_⟩
  rintro item cell rfl
  obtain ⟨rfl, -⟩ := hsync.producer
  exact Ring.upper_notMem hsync.tail_lt hsync.head_lt

/-- An item that goes through a buffer of two cells: the consumer has it before the push is
done with `updateHighWaterMark`. -/
theorem fifo_one : ∃ trace b, RingRun 2 (fun _ => 0) trace b (.loadHigh 1) .idle ∧
    published trace = [7] ∧ popped trace ++ b.items 2 = published trace := by
  have hrun : RingRun 2 (fun _ => 0) _ _ (.loadHigh 1) .idle :=
    Run.nil
      |>.snoc (.left _ (.call _ .tryPush 7))
      |>.snoc (.left _ (.loadHead _ _ _))
      |>.snoc (.right _ (.loadTail _))
      |>.snoc (.left _ (.notFull _ _ (by decide)))
      |>.snoc (.left _ (.write _ _ _))
      |>.snoc (.left _ (.storeHead _ _ _))
      |>.snoc (.right _ (.notEmpty (by decide)))
      |>.snoc (.right _ (.read _ _))
      |>.snoc (.right _ (.storeTail _ _ _))
  exact ⟨_, _, hrun, rfl, (fifo (by decide) hrun).1⟩

end Scrimmage.Common
