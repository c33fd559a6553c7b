import Scrimmage.Common.SpScRingBuffer
import Scrimmage.Theory.ReleaseAcquire

/-!
# The memory orders of the ring buffer

`SpScRingBuffer` on a memory in which a load may return an old value, with the memory orders of the source.
What either side does with the other's index, and with the cells, is right because the index is stored
with a release and loaded with an acquire.

## The model

* `WeakRing` is the memory: the four atomics, and the cells of `_buffer`, which are not atomic.
* `WeakProducerStep` and `WeakConsumerStep` have the constructors of `ProducerStep` and `ConsumerStep`,
  with the order of each access. The exchange of `updateHighWaterMark` and `fetch_add` get the last value.
* `MemoryOrders` are the four orders that are not relaxed in the source (`MemoryOrders.source`).

## What is proved

* `Handover`: the invariant. The messages of `_head` know all accesses of the cells of the items published
  before them, and those of `_tail` all accesses of the cells that are free again.
* `weak_fifo`: over every run no access of a cell is a race, and items are popped in the order in which
  they are published.
-/

namespace Scrimmage.Common

open Theory

variable {τ : Type}

/-! ### The model -/

/-- The two threads. -/
inductive RingThread where
  /-- The one that pushes. -/
  | producer
  /-- The one that pops. -/
  | consumer
  deriving DecidableEq

/-- The atomics of a `SpScRingBuffer`. -/
inductive RingAtomic where
  /-- `_head`. -/
  | head
  /-- `_tail`. -/
  | tail
  /-- `_dropped`. -/
  | dropped
  /-- `_highWaterMark`. -/
  | highWaterMark
  deriving DecidableEq

/-- A `SpScRingBuffer` in memory. -/
abbrev WeakRing (τ : Type) : Type := WeakMemory RingThread RingAtomic ℕ ℕ τ

/-- A message of an atomic. -/
abbrev RingMessage : Type := Message RingThread RingAtomic ℕ

/-- `SpScRingBuffer()`; the cells hold anything. -/
def WeakRing.create (cells : ℕ → τ) : WeakRing τ := WeakMemory.create (fun _ => 0) cells

/-- Which of the accesses of the other's index are an acquire, and which of the own are a release. -/
structure MemoryOrders where
  /-- `_tail.load` of the producer. -/
  acquireTail : Bool
  /-- `_head.store`. -/
  releaseHead : Bool
  /-- `_head.load` of the consumer. -/
  acquireHead : Bool
  /-- `_tail.store`. -/
  releaseTail : Bool
  deriving DecidableEq

/-- The orders of the source. -/
def MemoryOrders.source : MemoryOrders := ⟨true, true, true, true⟩

open RingThread RingAtomic

/-- **The steps of the producer.** -/
inductive WeakProducerStep (capacity : ℕ) (o : MemoryOrders) :
    WeakRing τ → Producer τ → Label τ → WeakRing τ → Producer τ → Prop where
  | call (m : WeakRing τ) (kind : PushKind) (item : τ) :
    WeakProducerStep capacity o m .idle (.called kind item) m (.loadHead kind.call item)
  | loadHead {m : WeakRing τ} (call : PushCall) (item : τ) {k : ℕ} {msg : RingMessage} : m.CanLoad producer head k msg →
    WeakProducerStep capacity o m (.loadHead call item) .internal (m.load producer head false k msg)
      (.loadTail call item msg.value)
  | full {m : WeakRing τ} (call : PushCall) (item : τ) {currentHead k : ℕ} {msg : RingMessage} :
    m.CanLoad producer tail k msg → increment capacity currentHead = msg.value →
    WeakProducerStep capacity o m (.loadTail call item currentHead) .foundFull
      (m.load producer tail o.acquireTail k msg) (call.onFull item)
  | notFull {m : WeakRing τ} (call : PushCall) (item : τ) {currentHead k : ℕ} {msg : RingMessage} :
    m.CanLoad producer tail k msg → increment capacity currentHead ≠ msg.value →
    WeakProducerStep capacity o m (.loadTail call item currentHead) .internal
      (m.load producer tail o.acquireTail k msg) (.write item currentHead)
  | write (m : WeakRing τ) (item : τ) (currentHead : ℕ) :
    WeakProducerStep capacity o m (.write item currentHead) .internal (m.writeCell producer currentHead item)
      (.storeHead item currentHead)
  | storeHead (m : WeakRing τ) (item : τ) (currentHead : ℕ) :
    WeakProducerStep capacity o m (.storeHead item currentHead) (.published item)
      (m.store producer head o.releaseHead (increment capacity currentHead)) (.loadHigh (increment capacity currentHead))
  | drop {m : WeakRing τ} {msg : RingMessage} : (m.history dropped).getLast? = some msg →
    WeakProducerStep capacity o m .drop (.returned false)
      (m.exchange producer dropped msg ((msg.value + 1) % 2 ^ 64)) .idle
  | timeout (m : WeakRing τ) (item : τ) {spinCount : ℕ} : spinCount % 1000 = 0 →
    WeakProducerStep capacity o m (.wait item spinCount) (.returned false) m .idle
  | spin (m : WeakRing τ) (item : τ) (spinCount : ℕ) :
    WeakProducerStep capacity o m (.wait item spinCount) .internal m (.loadHead (.loop ((spinCount + 1) % 2 ^ 64)) item)
  | loadHigh {m : WeakRing τ} (currentHead : ℕ) {k : ℕ} {msg : RingMessage} :
    m.CanLoad producer highWaterMark k msg →
    WeakProducerStep capacity o m (.loadHigh currentHead) .internal (m.load producer highWaterMark false k msg)
      (.loadUsed currentHead msg.value)
  | loadUsed {m : WeakRing τ} (currentHead currentHigh : ℕ) {k : ℕ} {msg : RingMessage} :
    m.CanLoad producer tail k msg →
    WeakProducerStep capacity o m (.loadUsed currentHead currentHigh) .internal (m.load producer tail false k msg)
      (.exchange (usedAt capacity currentHead msg.value) currentHigh)
  | noHigher (m : WeakRing τ) {used currentHigh : ℕ} : ¬ used > currentHigh →
    WeakProducerStep capacity o m (.exchange used currentHigh) (.returned true) m .idle
  | exchanged {m : WeakRing τ} {used currentHigh : ℕ} {msg : RingMessage} : used > currentHigh →
    (m.history highWaterMark).getLast? = some msg → msg.value = currentHigh →
    WeakProducerStep capacity o m (.exchange used currentHigh) (.returned true)
      (m.exchange producer highWaterMark msg used) .idle
  | notExchanged {m : WeakRing τ} {used currentHigh k : ℕ} {msg : RingMessage} : used > currentHigh →
    m.CanLoad producer highWaterMark k msg →
    WeakProducerStep capacity o m (.exchange used currentHigh) .internal (m.load producer highWaterMark false k msg)
      (.exchange used msg.value)

/-- **The steps of the consumer.** -/
inductive WeakConsumerStep (capacity : ℕ) (o : MemoryOrders) :
    WeakRing τ → Consumer τ → Label τ → WeakRing τ → Consumer τ → Prop where
  | loadTail {m : WeakRing τ} {k : ℕ} {msg : RingMessage} : m.CanLoad consumer tail k msg →
    WeakConsumerStep capacity o m .idle .internal (m.load consumer tail false k msg) (.loadHead msg.value)
  | empty {m : WeakRing τ} {currentTail k : ℕ} {msg : RingMessage} : m.CanLoad consumer head k msg →
    currentTail = msg.value →
    WeakConsumerStep capacity o m (.loadHead currentTail) .foundEmpty (m.load consumer head o.acquireHead k msg) .idle
  | notEmpty {m : WeakRing τ} {currentTail k : ℕ} {msg : RingMessage} : m.CanLoad consumer head k msg →
    currentTail ≠ msg.value →
    WeakConsumerStep capacity o m (.loadHead currentTail) .internal (m.load consumer head o.acquireHead k msg)
      (.read currentTail)
  | read (m : WeakRing τ) (currentTail : ℕ) :
    WeakConsumerStep capacity o m (.read currentTail) .internal (m.readCell consumer currentTail)
      (.storeTail (m.cell currentTail) currentTail)
  | storeTail (m : WeakRing τ) (item : τ) (currentTail : ℕ) :
    WeakConsumerStep capacity o m (.storeTail item currentTail) (.popped item)
      (m.store consumer tail o.releaseTail (increment capacity currentTail)) .idle

/-- The runs of a buffer from its construction, on such a memory. -/
def WeakRingRun (capacity : ℕ) (o : MemoryOrders) (cells : ℕ → τ) (trace : List (Label τ)) (m : WeakRing τ)
    (p : Producer τ) (c : Consumer τ) : Prop :=
  Run (Interleave (WeakProducerStep capacity o) (WeakConsumerStep capacity o)) (WeakRing.create cells, .idle, .idle)
    trace (m, p, c)

/-- **The next access of a cell is no race.** -/
structure RaceFree (m : WeakRing τ) (p : Producer τ) (c : Consumer τ) : Prop where
  write : ∀ item cell, p = .write item cell → ¬ m.WriteRaces producer cell
  read : ∀ cell, c = .read cell → ¬ m.ReadRaces consumer cell

/-! ### The invariant -/

/-- The item in the cell at the head has been written and not published. -/
def Producer.written : Producer τ → ℕ
  | .storeHead _ _ => 1
  | _ => 0

/-- The item in the cell at the tail has been read and not popped. -/
def Consumer.taken : Consumer τ → ℕ
  | .storeTail _ _ => 1
  | _ => 0

/-- What the producer has loaded, when `n` items have been published: the cell it writes is the next, there
is room for it, and it knows all accesses of it. -/
def Producer.Prepared (capacity n : ℕ) (m : WeakRing τ) : Producer τ → Prop
  | .loadTail _ _ currentHead => currentHead = n % capacity
  | .write _ currentHead =>
    currentHead = n % capacity ∧ n + 1 < (m.view producer).1 tail + capacity ∧ m.Knows (m.view producer) currentHead
  | .storeHead item currentHead =>
    currentHead = n % capacity ∧ n + 1 < (m.view producer).1 tail + capacity ∧
      m.Knows (m.view producer) currentHead ∧ m.cell currentHead = item
  | _ => True

/-- What the consumer has loaded, when `items` have been published and `n` of them popped. -/
def Consumer.Prepared (capacity n : ℕ) (items : List τ) (m : WeakRing τ) : Consumer τ → Prop
  | .loadHead currentTail => currentTail = n % capacity
  | .read currentTail =>
    currentTail = n % capacity ∧ n < (m.view consumer).1 head ∧ m.Knows (m.view consumer) currentTail
  | .storeTail item currentTail =>
    currentTail = n % capacity ∧ n < (m.view consumer).1 head ∧ m.Knows (m.view consumer) currentTail ∧
      items[n]? = some item
  | _ => True

/-- **The invariant**, with `items` published and `n` of them popped. -/
structure Handover (capacity : ℕ) (items : List τ) (n : ℕ) (m : WeakRing τ) (p : Producer τ) (c : Consumer τ) :
    Prop where
  coherent : m.Coherent
  headOwner : m.Owns producer head
  tailOwner : m.Owns consumer tail
  headLength : (m.history head).length = items.length + 1
  tailLength : (m.history tail).length = n + 1
  heads : ∀ (k : ℕ) (msg : RingMessage), (m.history head)[k]? = some msg → msg.value = k % capacity
  tails : ∀ (k : ℕ) (msg : RingMessage), (m.history tail)[k]? = some msg → msg.value = k % capacity
  /-- No more has been published than the producer has seen room for. -/
  room : items.length < (m.view producer).1 tail + capacity
  /-- No more has been popped than the consumer has seen published. -/
  behind : n ≤ (m.view consumer).1 head
  cells : ∀ i, n ≤ i → i < items.length → items[i]? = some (m.cell (i % capacity))
  /-- What is published is known from `_head`. -/
  occupied : ∀ i, n + c.taken ≤ i → i < items.length → ∀ (k : ℕ) (msg : RingMessage),
    (m.history head)[k]? = some msg → i < k → m.Knows msg.view (i % capacity)
  /-- What is free is known from `_tail`. -/
  free : ∀ i, items.length + p.written ≤ i → i < n + capacity → ∀ (k : ℕ) (msg : RingMessage),
    (m.history tail)[k]? = some msg → i < k + capacity → m.Knows msg.view (i % capacity)
  producerPrepared : p.Prepared capacity items.length m
  consumerPrepared : c.Prepared capacity n items m

section Steps

variable {capacity n : ℕ} {items : List τ} {m m' : WeakRing τ} {p p' : Producer τ} {c c' : Consumer τ} {l : Label τ}
  {item : τ} {currentHead currentTail : ℕ}

/-- Two items less than `capacity` apart have different cells. -/
theorem mod_ne {i j : ℕ} (hij : i < j) (hlt : j < i + capacity) : j % capacity ≠ i % capacity := by
  intro heq
  have hdvd := Nat.dvd_of_mod_eq_zero (Nat.sub_mod_eq_zero_of_mod_eq heq)
  have := Nat.le_of_dvd (by omega) hdvd
  omega

theorem increment_mod (hcap : 0 < capacity) (i : ℕ) : increment capacity (i % capacity) = (i + 1) % capacity := by
  have hsucc : increment capacity (i % capacity) = (i % capacity + 1) % capacity := Ring.succ_eq_mod (Nat.mod_lt i hcap)
  rw [hsucc, Nat.mod_add_mod]

/-- What the producer has prepared stays so while nobody else accesses its cell. -/
theorem Producer.Prepared.mono (h : p.Prepared capacity n m) (hle : m.view producer ≤ m'.view producer)
    (hknows : ∀ v, m.Knows v (n % capacity) → m'.Knows v (n % capacity))
    (hcell : m'.cell (n % capacity) = m.cell (n % capacity)) : p.Prepared capacity n m' := by
  have hseen : (m.view producer).1 tail ≤ (m'.view producer).1 tail := hle.1 tail
  cases p with
  | write item currentHead =>
    obtain ⟨rfl, hroom, hk⟩ := h
    exact ⟨rfl, by omega, (hknows _ hk).mono hle⟩
  | storeHead item currentHead =>
    obtain ⟨rfl, hroom, hk, hitem⟩ := h
    exact ⟨rfl, by omega, (hknows _ hk).mono hle, hcell.trans hitem⟩
  | loadTail => exact h
  | idle | loadHead | drop | wait | loadHigh | loadUsed | exchange => trivial

/-- And so what the consumer has. -/
theorem Consumer.Prepared.mono {items' : List τ} (h : c.Prepared capacity n items m)
    (hle : m.view consumer ≤ m'.view consumer)
    (hknows : n < (m.view consumer).1 head → ∀ v, m.Knows v (n % capacity) → m'.Knows v (n % capacity))
    (hitems : items <+: items') : c.Prepared capacity n items' m' := by
  have hseen : (m.view consumer).1 head ≤ (m'.view consumer).1 head := hle.1 head
  cases c with
  | read currentTail =>
    obtain ⟨rfl, hlt, hk⟩ := h
    exact ⟨rfl, by omega, (hknows hlt _ hk).mono hle⟩
  | storeTail item currentTail =>
    obtain ⟨rfl, hlt, hk, hitem⟩ := h
    obtain ⟨more, rfl⟩ := hitems
    exact ⟨rfl, by omega, (hknows hlt _ hk).mono hle,
      (List.getElem?_append_left (List.getElem?_eq_some_iff.mp hitem).1).trans hitem⟩
  | loadHead => exact h
  | idle => trivial

/-- The first messages. -/
theorem WeakRing.value_create (cells : ℕ → τ) (x : RingAtomic) (k : ℕ) (msg : RingMessage)
    (hmsg : ((WeakRing.create cells).history x)[k]? = some msg) : msg.value = k % capacity := by
  obtain ⟨hk, rfl⟩ := List.getElem?_eq_some_iff.mp hmsg
  obtain rfl : k = 0 := Nat.lt_one_iff.mp hk
  rw [Nat.zero_mod]
  rfl

namespace Handover

/-! ### What follows from it -/

theorem seenTail_le (h : Handover capacity items n m p c) : (m.view producer).1 tail ≤ n := by
  have := h.coherent.view_lt producer tail
  rw [h.tailLength] at this
  omega

theorem seenHead_le (h : Handover capacity items n m p c) : (m.view consumer).1 head ≤ items.length := by
  have := h.coherent.view_lt consumer head
  rw [h.headLength] at this
  omega

theorem le_length (h : Handover capacity items n m p c) : n ≤ items.length := h.behind.trans h.seenHead_le

theorem length_lt (h : Handover capacity items n m p c) : items.length < n + capacity := by
  have := h.room
  have := h.seenTail_le
  omega

/-- **The producer's next write** is no race, and neither is the consumer's next read. -/
theorem raceFree (h : Handover capacity items n m p c) : RaceFree m p c where
  write := by
    rintro item cell rfl
    exact h.producerPrepared.2.2.not_writeRaces
  read := by
    rintro cell rfl
    exact h.consumerPrepared.2.2.not_readRaces

/-- Each side loads its own index as it is. -/
theorem ownHead (h : Handover capacity items n m p c) {k : ℕ} {msg : RingMessage}
    (hload : m.CanLoad producer head k msg) :
    msg.value = items.length % capacity := by
  have hlast := h.headOwner.load_last hload
  rw [h.headLength] at hlast
  rw [h.heads k msg hload.2, Nat.succ.inj hlast]

theorem ownTail (h : Handover capacity items n m p c) {k : ℕ} {msg : RingMessage}
    (hload : m.CanLoad consumer tail k msg) :
    msg.value = n % capacity := by
  have hlast := h.tailOwner.load_last hload
  rw [h.tailLength] at hlast
  rw [h.tails k msg hload.2, Nat.succ.inj hlast]

/-- A step that accesses no cell and leaves no message in the indices. -/
theorem quiet (h : Handover capacity items n m p c) (hcoherent : m'.Coherent)
    (hhead : m'.history head = m.history head) (htail : m'.history tail = m.history tail)
    (hcell : m'.cell = m.cell) (hwritten : m'.written = m.written) (hread : m'.read = m.read)
    (hle : ∀ t, m.view t ≤ m'.view t) (hp : p'.Prepared capacity items.length m') (hpw : p'.written = p.written)
    (hc : c'.Prepared capacity n items m') (hct : c'.taken = c.taken) : Handover capacity items n m' p' c' where
  coherent := hcoherent
  headOwner := h.headOwner.of_le hcoherent (hle producer) hhead
  tailOwner := h.tailOwner.of_le hcoherent (hle consumer) htail
  headLength := hhead ▸ h.headLength
  tailLength := htail ▸ h.tailLength
  heads := hhead ▸ h.heads
  tails := htail ▸ h.tails
  room := by
    have hseen : (m.view producer).1 tail ≤ (m'.view producer).1 tail := (hle producer).1 tail
    have := h.room
    omega
  behind := h.behind.trans ((hle consumer).1 head)
  cells := hcell ▸ h.cells
  occupied i hi hlt k msg hmsg hk :=
    (h.occupied i (hct ▸ hi) hlt k msg (hhead ▸ hmsg) hk).congr (congrFun hwritten _) (congrFun hread _)
  free i hi hlt k msg hmsg hk :=
    (h.free i (hpw ▸ hi) hlt k msg (htail ▸ hmsg) hk).congr (congrFun hwritten _) (congrFun hread _)
  producerPrepared := hp
  consumerPrepared := hc

/-- A step of the producer of this kind, which the consumer does not notice. -/
theorem quiet_producer (h : Handover capacity items n m p c) (hcoherent : m'.Coherent)
    (hhead : m'.history head = m.history head) (htail : m'.history tail = m.history tail)
    (hcell : m'.cell = m.cell) (hwritten : m'.written = m.written) (hread : m'.read = m.read)
    (hle : ∀ t, m.view t ≤ m'.view t) (hp : p'.Prepared capacity items.length m') (hpw : p'.written = p.written) :
    Handover capacity items n m' p' c :=
  h.quiet hcoherent hhead htail hcell hwritten hread hle hp hpw
    (h.consumerPrepared.mono (hle consumer) (fun _ _ hk => hk.congr (congrFun hwritten _) (congrFun hread _))
      (List.prefix_refl _)) rfl

/-- A load of the producer. -/
theorem load_producer (h : Handover capacity items n m p c) {x : RingAtomic} {a : Bool} {k : ℕ} {msg : RingMessage}
    (hload : m.CanLoad producer x k msg) (hp : p'.Prepared capacity items.length (m.load producer x a k msg))
    (hpw : p'.written = p.written) : Handover capacity items n (m.load producer x a k msg) p' c :=
  h.quiet_producer (h.coherent.load hload) rfl rfl rfl rfl rfl (WeakMemory.le_load hload a) hp hpw

/-- A load of the consumer. -/
theorem load_consumer (h : Handover capacity items n m p c) {x : RingAtomic} {a : Bool} {k : ℕ} {msg : RingMessage}
    (hload : m.CanLoad consumer x k msg) (hc : c'.Prepared capacity n items (m.load consumer x a k msg))
    (hct : c'.taken = c.taken) : Handover capacity items n (m.load consumer x a k msg) p c' := by
  have hle := WeakMemory.le_load hload a
  exact h.quiet (h.coherent.load hload) rfl rfl rfl rfl rfl hle
    (h.producerPrepared.mono (hle producer) (fun _ hk => hk.congr rfl rfl) rfl) rfl hc hct

/-- An exchange of the producer, of an atomic that is no index. -/
theorem exchange_producer (h : Handover capacity items n m p c) {x : RingAtomic} {msg : RingMessage} {value : ℕ}
    (hlast : (m.history x).getLast? = some msg) (hhead : head ≠ x) (htail : tail ≠ x) (hpw : p.written = 0) :
    Handover capacity items n (m.exchange producer x msg value) .idle c :=
  h.quiet_producer (h.coherent.exchange (List.mem_of_getLast? hlast)) (WeakMemory.history_exchange_of_ne hhead)
    (WeakMemory.history_exchange_of_ne htail) rfl rfl rfl
    (WeakMemory.le_exchange h.coherent producer x msg value) trivial hpw.symm

/-! ### What an acquire gives -/

/-- **The producer that finds room** knows all accesses of the next cell. -/
theorem prepared_write (h : Handover capacity items n m p c) (hcap : 0 < capacity) {k : ℕ} {msg : RingMessage}
    (hload : m.CanLoad producer tail k msg) (hne : increment capacity (items.length % capacity) ≠ msg.value)
    (hpw : p.written = 0) :
    (Producer.write item (items.length % capacity)).Prepared capacity items.length
      (m.load producer tail true k msg) := by
  have hroom := h.room
  have hseen := hload.1
  rw [increment_mod hcap, h.tails k msg hload.2] at hne
  have hlt : items.length + 1 < k + capacity := by
    by_contra hnot
    obtain heq : items.length + 1 = k + capacity := by omega
    exact hne (by rw [heq, Nat.add_mod_right])
  have hle : k ≤ ((m.load producer tail true k msg).view producer).1 tail := WeakMemory.le_seen_load
  have hknows := h.free items.length (by omega) h.length_lt k msg hload.2 (by omega)
  exact ⟨rfl, by omega, (hknows.congr rfl rfl).mono WeakMemory.message_le_load⟩

/-- **The consumer that finds an item** knows all accesses of its cell. -/
theorem prepared_read (h : Handover capacity items n m p c) {k : ℕ} {msg : RingMessage}
    (hload : m.CanLoad consumer head k msg) (hne : n % capacity ≠ msg.value) (hct : c.taken = 0) :
    (Consumer.read (τ := τ) (n % capacity)).Prepared capacity n items (m.load consumer head true k msg) := by
  have hbehind := h.behind
  have hseen := hload.1
  have hk := (List.getElem?_eq_some_iff.mp hload.2).1
  rw [h.headLength] at hk
  rw [h.heads k msg hload.2] at hne
  have hlt : n < k := by
    refine Nat.lt_of_le_of_ne (by omega) fun heq => hne (by rw [heq])
  have hle : k ≤ ((m.load consumer head true k msg).view consumer).1 head := WeakMemory.le_seen_load
  have hknows := h.occupied n (by omega) (by omega) k msg hload.2 hlt
  exact ⟨rfl, by omega, (hknows.congr rfl rfl).mono WeakMemory.message_le_load⟩

/-! ### The steps that hand over -/

/-- **The producer writes** the next cell: it is none of those of the items that are there. -/
theorem write (h : Handover capacity items n m (.write item currentHead) c) :
    Handover capacity items n (m.writeCell producer currentHead item) (.storeHead item currentHead) c := by
  obtain ⟨rfl, hroom, hknows⟩ := h.producerPrepared
  have hlt := h.length_lt
  have hother {i : ℕ} (hi : n ≤ i) (hil : i < items.length) : i % capacity ≠ items.length % capacity :=
    (mod_ne hil (by omega)).symm
  have hle (t : RingThread) := WeakMemory.le_writeCell m producer (items.length % capacity) item t
  have hcoherent : (m.writeCell producer (items.length % capacity) item).Coherent := h.coherent.writeCell
  have hseen : (m.view producer).1 tail ≤
      ((m.writeCell producer (items.length % capacity) item).view producer).1 tail := (hle producer).1 tail
  refine ⟨hcoherent, h.headOwner.of_le hcoherent (hle producer) rfl, h.tailOwner.of_le hcoherent (hle consumer) rfl,
    h.headLength, h.tailLength, h.heads, h.tails, ?_, h.behind.trans ((hle consumer).1 head), fun i hi hil => ?_,
    fun i hi hil k msg hmsg hk => ?_, fun i hi hil k msg hmsg hk => ?_, ?_, ?_⟩
  · exact Nat.lt_of_lt_of_le h.room (Nat.add_le_add_right hseen capacity)
  · rw [WeakMemory.cell_writeCell_of_ne (hother hi hil)]
    exact h.cells i hi hil
  · exact (h.occupied i hi hil k msg hmsg hk).writeCell (hother (by omega) hil)
  · have hi : items.length < i := hi
    have := h.le_length
    exact (h.free i hi.le hil k msg hmsg hk).writeCell (mod_ne hi (by omega))
  · exact ⟨rfl, by omega, WeakMemory.knows_writeCell hknows, WeakMemory.cell_writeCell_self⟩
  · refine h.consumerPrepared.mono (hle consumer) (fun hn v hk => hk.writeCell (hother le_rfl ?_)) (List.prefix_refl _)
    exact Nat.lt_of_lt_of_le hn h.seenHead_le

/-- **The producer publishes**: its message knows all that is known of the cells of the items. -/
theorem publish (hcap : 0 < capacity) (h : Handover capacity items n m (.storeHead item currentHead) c) :
    Handover capacity (items ++ [item]) n (m.store producer head true (increment capacity currentHead))
      (.loadHigh (increment capacity currentHead)) c := by
  obtain ⟨rfl, hroom, hknows, hitem⟩ := h.producerPrepared
  rw [increment_mod hcap]
  have hle (t : RingThread) := WeakMemory.le_store h.coherent producer head true ((items.length + 1) % capacity) t
  have htail : (m.store producer head true ((items.length + 1) % capacity)).history tail = m.history tail :=
    WeakMemory.history_store_of_ne nofun
  have hcoherent : (m.store producer head true ((items.length + 1) % capacity)).Coherent := h.coherent.store
  have hlength : (items ++ [item]).length = items.length + 1 := by simp
  -- what the messages before it know, the new one knows
  obtain ⟨last, hlast⟩ : ∃ last, (m.history head)[items.length]? = some last :=
    ⟨_, List.getElem?_eq_getElem (by rw [h.headLength]; exact Nat.lt_succ_self _)⟩
  have hlastle := (h.headOwner.knows last (List.mem_of_getElem? hlast)).trans (hle producer)
  refine ⟨hcoherent, h.headOwner.store, h.tailOwner.of_le hcoherent (hle consumer) htail, ?_, htail ▸ h.tailLength,
    fun k msg hmsg => ?_, htail ▸ h.tails, ?_, h.behind.trans ((hle consumer).1 head), fun i hi hil => ?_,
    fun i hi hil k msg hmsg hk => ?_, fun i hi hil k msg hmsg hk => ?_, trivial, ?_⟩
  · rw [WeakMemory.length_history_store, h.headLength, hlength]
  · rcases WeakMemory.getElem?_store hmsg with hold | ⟨rfl, hvalue, -⟩
    · exact h.heads k msg hold
    · rw [hvalue, h.headLength]
  · have hseen : (m.view producer).1 tail ≤ _ := (hle producer).1 tail
    rw [hlength]
    exact Nat.lt_of_lt_of_le hroom (Nat.add_le_add_right hseen capacity)
  · rw [hlength] at hil
    rcases Nat.lt_succ_iff_lt_or_eq.mp hil with hil | rfl
    · rw [List.getElem?_append_left hil]
      exact h.cells i hi hil
    · rw [List.getElem?_concat_length]
      exact congrArg some hitem.symm
  · rw [hlength] at hil
    rcases WeakMemory.getElem?_store hmsg with hold | ⟨rfl, -, hview⟩
    · have hlt := (List.getElem?_eq_some_iff.mp hold).1
      rw [h.headLength] at hlt
      exact (h.occupied i hi (by omega) k msg hold hk).congr rfl rfl
    · rw [hview rfl]
      rcases Nat.lt_succ_iff_lt_or_eq.mp hil with hil | rfl
      · exact ((h.occupied i hi hil _ last hlast hil).congr rfl rfl).mono hlastle
      · exact (hknows.congr rfl rfl).mono (hle producer)
  · rw [htail] at hmsg
    rw [hlength] at hi
    exact (h.free i hi hil k msg hmsg hk).congr rfl rfl
  · exact h.consumerPrepared.mono (hle consumer) (fun _ _ hk => hk.congr rfl rfl) (List.prefix_append ..)

/-- **The consumer reads** the cell of the first item: it is none of those that are free. -/
theorem read (h : Handover capacity items n m p (.read currentTail)) :
    Handover capacity items n (m.readCell consumer currentTail) p (.storeTail (m.cell currentTail) currentTail) := by
  obtain ⟨rfl, hseen, hknows⟩ := h.consumerPrepared
  have hn : n < items.length := Nat.lt_of_lt_of_le hseen h.seenHead_le
  have hlt := h.length_lt
  have hle (t : RingThread) := WeakMemory.le_readCell m consumer (n % capacity) t
  have hcoherent : (m.readCell consumer (n % capacity)).Coherent := h.coherent.readCell
  have hseenTail : (m.view producer).1 tail ≤ ((m.readCell consumer (n % capacity)).view producer).1 tail :=
    (hle producer).1 tail
  have hseenHead : (m.view consumer).1 head ≤ ((m.readCell consumer (n % capacity)).view consumer).1 head :=
    (hle consumer).1 head
  refine ⟨hcoherent, h.headOwner.of_le hcoherent (hle producer) rfl, h.tailOwner.of_le hcoherent (hle consumer) rfl,
    h.headLength, h.tailLength, h.heads, h.tails, ?_, h.behind.trans hseenHead, h.cells,
    fun i hi hil k msg hmsg hk => ?_, fun i hi hil k msg hmsg hk => ?_, ?_, ?_⟩
  · exact Nat.lt_of_lt_of_le h.room (Nat.add_le_add_right hseenTail capacity)
  · have hi : n < i := hi
    exact (h.occupied i hi.le hil k msg hmsg hk).readCell (mod_ne hi (by omega))
  · exact (h.free i hi hil k msg hmsg hk).readCell (mod_ne (by omega) hil)
  · exact h.producerPrepared.mono (hle producer) (fun v hk => hk.readCell (mod_ne hn hlt)) rfl
  · exact ⟨rfl, by omega, WeakMemory.knows_readCell hknows, h.cells n le_rfl hn⟩

/-- **The consumer gives the cell back**: its message knows all that is known of the free cells. -/
theorem release (hcap : 0 < capacity) (h : Handover capacity items n m p (.storeTail item currentTail)) :
    Handover capacity items (n + 1) (m.store consumer tail true (increment capacity currentTail)) p .idle := by
  obtain ⟨rfl, hseen, hknows, hitem⟩ := h.consumerPrepared
  rw [increment_mod hcap]
  have hle (t : RingThread) := WeakMemory.le_store h.coherent consumer tail true ((n + 1) % capacity) t
  have hhead : (m.store consumer tail true ((n + 1) % capacity)).history head = m.history head :=
    WeakMemory.history_store_of_ne nofun
  have hcoherent : (m.store consumer tail true ((n + 1) % capacity)).Coherent := h.coherent.store
  obtain ⟨last, hlast⟩ : ∃ last, (m.history tail)[n]? = some last :=
    ⟨_, List.getElem?_eq_getElem (by rw [h.tailLength]; exact Nat.lt_succ_self _)⟩
  have hlastle := (h.tailOwner.knows last (List.mem_of_getElem? hlast)).trans (hle consumer)
  have hseenTail : (m.view producer).1 tail ≤ _ := (hle producer).1 tail
  have hseenHead : (m.view consumer).1 head ≤ _ := (hle consumer).1 head
  refine ⟨hcoherent, h.headOwner.of_le hcoherent (hle producer) hhead, h.tailOwner.store, hhead ▸ h.headLength, ?_,
    hhead ▸ h.heads, fun k msg hmsg => ?_, ?_, Nat.le_trans hseen hseenHead, fun i hi => h.cells i (by omega),
    fun i hi hil k msg hmsg hk => ?_, fun i hi hil k msg hmsg hk => ?_, ?_, trivial⟩
  · rw [WeakMemory.length_history_store, h.tailLength]
  · rcases WeakMemory.getElem?_store hmsg with hold | ⟨rfl, hvalue, -⟩
    · exact h.tails k msg hold
    · rw [hvalue, h.tailLength]
  · exact Nat.lt_of_lt_of_le h.room (Nat.add_le_add_right hseenTail capacity)
  · rw [hhead] at hmsg
    exact (h.occupied i hi hil k msg hmsg hk).congr rfl rfl
  · rcases WeakMemory.getElem?_store hmsg with hold | ⟨rfl, -, hview⟩
    · have hlt := (List.getElem?_eq_some_iff.mp hold).1
      rw [h.tailLength] at hlt
      exact (h.free i hi (by omega) k msg hold hk).congr rfl rfl
    · -- the cell that is free now is the one of the item popped
      rw [hview rfl]
      rcases Nat.lt_or_ge i (n + capacity) with hold | hnew
      · exact ((h.free i hi hold _ last hlast hold).congr rfl rfl).mono hlastle
      · obtain rfl : i = n + capacity := by omega
        rw [Nat.add_mod_right]
        exact (hknows.congr rfl rfl).mono (hle consumer)
  · exact h.producerPrepared.mono (hle producer) (fun _ hk => hk.congr rfl rfl) rfl

/-! ### Runs -/

theorem start (hcap : 0 < capacity) (cells : ℕ → τ) : Handover capacity [] 0 (WeakRing.create cells) .idle .idle where
  coherent := WeakMemory.coherent_create ..
  headOwner := WeakMemory.owns_create ..
  tailOwner := WeakMemory.owns_create ..
  headLength := rfl
  tailLength := rfl
  heads := WeakRing.value_create cells head
  tails := WeakRing.value_create cells tail
  room := by
    rw [List.length_nil, Nat.add_comm]
    exact Nat.lt_of_lt_of_le hcap (Nat.le_add_right ..)
  behind := Nat.zero_le _
  cells i _ hil := absurd hil (Nat.not_lt_zero i)
  occupied i _ hil := absurd hil (Nat.not_lt_zero i)
  free _ _ _ _ _ _ _ _ := WeakMemory.knows_create ..
  producerPrepared := trivial
  consumerPrepared := trivial

/-- **Every step of the producer**, with the orders of the source. -/
theorem producer_step (hcap : 0 < capacity) (h : Handover capacity items n m p c)
    (hs : WeakProducerStep capacity .source m p l m' p') : Handover capacity (items ++ published [l]) n m' p' c := by
  have hnone (h' : Handover capacity items n m' p' c) (hl : published [l] = []) :
      Handover capacity (items ++ published [l]) n m' p' c := by rwa [hl, List.append_nil]
  have hprepared := h.producerPrepared
  cases hs with
  | call kind item => exact hnone (h.quiet_producer h.coherent rfl rfl rfl rfl rfl (fun _ => le_rfl) trivial rfl) rfl
  | loadHead call item hload => exact hnone (h.load_producer hload (h.ownHead hload) rfl) rfl
  | full call item hload hfull =>
    cases call with
    | once => exact hnone (h.load_producer hload trivial rfl) rfl
    | loop spinCount => exact hnone (h.load_producer hload trivial rfl) rfl
  | @notFull call item currentHead k msg hload hne =>
    obtain rfl : currentHead = _ := hprepared
    exact hnone (h.load_producer hload (h.prepared_write hcap hload hne rfl) rfl) rfl
  | write item currentHead => exact hnone h.write rfl
  | storeHead item currentHead => exact h.publish hcap
  | drop hlast => exact hnone (h.exchange_producer hlast nofun nofun rfl) rfl
  | timeout item hz => exact hnone (h.quiet_producer h.coherent rfl rfl rfl rfl rfl (fun _ => le_rfl) trivial rfl) rfl
  | spin item spinCount =>
    exact hnone (h.quiet_producer h.coherent rfl rfl rfl rfl rfl (fun _ => le_rfl) trivial rfl) rfl
  | loadHigh currentHead hload => exact hnone (h.load_producer hload trivial rfl) rfl
  | loadUsed currentHead currentHigh hload => exact hnone (h.load_producer hload trivial rfl) rfl
  | noHigher hle => exact hnone (h.quiet_producer h.coherent rfl rfl rfl rfl rfl (fun _ => le_rfl) trivial rfl) rfl
  | exchanged hlt hlast heq => exact hnone (h.exchange_producer hlast nofun nofun rfl) rfl
  | notExchanged hlt hload => exact hnone (h.load_producer hload trivial rfl) rfl

/-- **Every step of the consumer.** -/
theorem consumer_step (hcap : 0 < capacity) (h : Handover capacity items n m p c)
    (hs : WeakConsumerStep capacity .source m c l m' c') :
    Handover capacity items (n + (popped [l]).length) m' p c' := by
  have hprepared := h.consumerPrepared
  cases hs with
  | loadTail hload => exact h.load_consumer hload (h.ownTail hload) rfl
  | empty hload heq => exact h.load_consumer hload trivial rfl
  | @notEmpty currentTail k msg hload hne =>
    obtain rfl : currentTail = _ := hprepared
    exact h.load_consumer hload (h.prepared_read hload hne rfl) rfl
  | read currentTail => exact h.read
  | storeTail item currentTail => exact h.release hcap

end Handover

theorem WeakProducerStep.popped_eq_nil {o : MemoryOrders} (hs : WeakProducerStep capacity o m p l m' p') :
    popped [l] = [] := by
  cases hs <;> rfl

theorem WeakConsumerStep.published_eq_nil {o : MemoryOrders} (hs : WeakConsumerStep capacity o m c l m' c') :
    published [l] = [] := by
  cases hs <;> rfl

/-- What is popped is the next item. -/
theorem Handover.popped_eq (h : Handover capacity items n m p c) (hs : WeakConsumerStep capacity .source m c l m' c') :
    items.take n ++ popped [l] = items.take (n + (popped [l]).length) := by
  have hprepared := h.consumerPrepared
  cases hs with
  | loadTail | empty | notEmpty | read => exact List.append_nil _
  | storeTail item currentTail =>
    obtain ⟨-, -, -, hitem⟩ := hprepared
    show items.take n ++ [item] = items.take (n + 1)
    rw [List.take_add_one, hitem]
    rfl

/-- **The invariant holds along every run**, and what is popped is the first of what is published. -/
theorem Handover.run (hcap : 0 < capacity) {cells : ℕ → τ} {trace : List (Label τ)}
    (h : WeakRingRun capacity .source cells trace m p c) :
    Handover capacity (published trace) (popped trace).length m p c ∧
      popped trace = (published trace).take (popped trace).length := by
  refine Run.interleave (fun trace m p c => Handover capacity (published trace) (popped trace).length m p c ∧
      popped trace = (published trace).take (popped trace).length) ⟨Handover.start hcap cells, rfl⟩
    (fun trace m p c l m' p' hI hs => ?_) (fun trace m p c l m' c' hI hs => ?_) h
  · obtain ⟨hand, hpopped⟩ := hI
    rw [published_append, popped_append, hs.popped_eq_nil, List.append_nil]
    exact ⟨hand.producer_step hcap hs, by rw [List.take_append_of_le_length hand.le_length, ← hpopped]⟩
  · obtain ⟨hand, hpopped⟩ := hI
    rw [published_append, popped_append, hs.published_eq_nil, List.append_nil, List.length_append]
    exact ⟨hand.consumer_step hcap hs, by rw [← hand.popped_eq hs, ← hpopped]⟩

end Steps

/-- **The buffer is a queue**, on a memory with release and acquire, over every run: no access of a cell is a
data race, the items popped are the first of those published, in order, and there are never as many
between them as there are cells. -/
theorem weak_fifo {capacity : ℕ} (hcap : 0 < capacity) {cells : ℕ → τ} {trace : List (Label τ)} {m : WeakRing τ}
    {p : Producer τ} {c : Consumer τ} (h : WeakRingRun capacity .source cells trace m p c) :
    RaceFree m p c ∧ popped trace <+: published trace ∧
      (published trace).length < (popped trace).length + capacity := by
  obtain ⟨hand, hpopped⟩ := Handover.run hcap h
  refine ⟨hand.raceFree, ?_, hand.length_lt⟩
  rw [hpopped]
  exact List.take_prefix ..

/-- An item in a buffer of two cells, before the consumer reads it. -/
theorem weak_fifo_one : ∃ trace, ∃ m : WeakRing ℕ, published trace = [7] ∧ RaceFree m (.loadHigh 1) (.read 0) ∧
    (published trace).length < (popped trace).length + 2 := by
  have h0 : WeakRingRun 2 .source (fun _ => 0) [] _ .idle .idle := .nil
  have h1 := h0.snoc (.left _ (.call _ .tryPush 7))
  have h2 := h1.snoc (.left _ (.loadHead _ _ (k := 0) ⟨by decide, rfl⟩))
  have h3 := h2.snoc (.left _ (.notFull _ _ (k := 0) ⟨by decide, rfl⟩ (by decide)))
  have h4 := h3.snoc (.left _ (.write _ _ _))
  have h5 := h4.snoc (.left _ (.storeHead _ _ _))
  have h6 := h5.snoc (.right _ (.loadTail (k := 0) ⟨by decide, rfl⟩))
  have h7 := h6.snoc (.right _ (.notEmpty (k := 1) ⟨by decide, rfl⟩ (by decide)))
  obtain ⟨hfree, -, hlength⟩ := weak_fifo (by decide) h7
  exact ⟨_, _, by rfl, hfree, hlength⟩

end Scrimmage.Common
