import Scrimmage.Common.SpScRingBufferOrders

/-!
# Weaker memory orders

What becomes of the ring buffer if one of the four orders that are not relaxed in the source is. The
thread that loads the index then learns nothing of what the other has done with the cells, and some run
ends in a data race.

## What is proved

* `consumer_unaware`, `producer_unaware`: without a release and an acquire nothing is ever learnt.
* `Indices`: what is so of the indices with any orders. `exists_round`: an item can go through the empty
  buffer, and `exists_rounds`: any number of them.
* `orders_needed`: for every capacity from two on, the runs have no race exactly with the orders of the
  source.
-/

namespace Scrimmage.Common

open Theory RingThread RingAtomic

variable {τ : Type} {capacity : ℕ} {o : MemoryOrders} {m m' : WeakRing τ} {p p' : Producer τ} {c c' : Consumer τ}
  {l : Label τ} {cells : ℕ → τ} {trace : List (Label τ)}

/-! ### Nothing is learnt -/

/-- The consumer's knowledge is its own. -/
theorem WeakProducerStep.view_consumer (hs : WeakProducerStep capacity o m p l m' p') :
    m'.view consumer = m.view consumer := by
  cases hs <;> rfl

theorem WeakConsumerStep.view_producer (hs : WeakConsumerStep capacity o m c l m' c') :
    m'.view producer = m.view producer := by
  cases hs <;> rfl

/-- Each side leaves messages in its own index only. -/
theorem WeakProducerStep.history_tail (hs : WeakProducerStep capacity o m p l m' p') :
    m'.history tail = m.history tail := by
  cases hs with
  | storeHead => exact WeakMemory.history_store_of_ne nofun
  | drop | exchanged => exact WeakMemory.history_exchange_of_ne nofun
  | _ => rfl

theorem WeakConsumerStep.history_head (hs : WeakConsumerStep capacity o m c l m' c') :
    m'.history head = m.history head := by
  cases hs with
  | storeTail => exact WeakMemory.history_store_of_ne nofun
  | _ => rfl

/-- **A thread never learns** what the other has done if the other's stores are relaxed, or its own loads. -/
theorem consumer_unaware (hweak : o.releaseHead = false ∨ o.acquireHead = false)
    (h : WeakRingRun capacity o cells trace m p c) : (m.view consumer).2 producer = 0 := by
  refine (Run.interleave (fun _ m _ _ => (m.view consumer).2 producer = 0 ∧
    (o.releaseHead = false → ∀ msg ∈ m.history head, msg.view.2 producer = 0)) ⟨rfl, fun _ msg hmsg => ?_⟩
    (fun _ m p _ l m' p' hI hs => ⟨?_, fun hrelease msg hmsg => ?_⟩)
    (fun _ m _ c l m' c' hI hs => ⟨?_, fun hrelease msg hmsg => ?_⟩) h).1
  · obtain rfl := List.mem_singleton.mp hmsg
    rfl
  · rw [hs.view_consumer, hI.1]
  · have hold (h : msg ∈ m.history head) : msg.view.2 producer = 0 := hI.2 hrelease msg h
    cases hs with
    | storeHead item currentHead =>
      rw [hrelease] at hmsg
      exact (WeakMemory.message_of_store hmsg).elim hold id
    | drop | exchanged =>
      rw [WeakMemory.history_exchange_of_ne (by decide)] at hmsg
      exact hold hmsg
    | _ => exact hold hmsg
  · obtain ⟨hclock, hmessages⟩ := hI
    rw [← hclock]
    cases hs with
    | loadTail => exact WeakMemory.clock_load nofun nofun
    | empty hload | notEmpty hload =>
      refine WeakMemory.clock_load nofun fun hacquire => ?_
      exact hmessages (hweak.resolve_right (by simp [hacquire])) _ (List.mem_of_getElem? hload.2)
    | read => exact WeakMemory.clock_readCell nofun
    | storeTail => exact WeakMemory.clock_store nofun
  · rw [hs.history_head] at hmsg
    exact hI.2 hrelease msg hmsg

theorem producer_unaware (hweak : o.releaseTail = false ∨ o.acquireTail = false)
    (h : WeakRingRun capacity o cells trace m p c) : (m.view producer).2 consumer = 0 := by
  refine (Run.interleave (fun _ m _ _ => (m.view producer).2 consumer = 0 ∧
    (o.releaseTail = false → ∀ msg ∈ m.history tail, msg.view.2 consumer = 0)) ⟨rfl, fun _ msg hmsg => ?_⟩
    (fun _ m p _ l m' p' hI hs => ⟨?_, fun hrelease msg hmsg => ?_⟩)
    (fun _ m _ c l m' c' hI hs => ⟨?_, fun hrelease msg hmsg => ?_⟩) h).1
  · obtain rfl := List.mem_singleton.mp hmsg
    rfl
  · obtain ⟨hclock, hmessages⟩ := hI
    rw [← hclock]
    cases hs with
    | full call item hload | notFull call item hload =>
      refine WeakMemory.clock_load nofun fun hacquire => ?_
      exact hmessages (hweak.resolve_right (by simp [hacquire])) _ (List.mem_of_getElem? hload.2)
    | loadHead | loadHigh | loadUsed | notExchanged => exact WeakMemory.clock_load nofun nofun
    | write => exact WeakMemory.clock_writeCell nofun
    | storeHead => exact WeakMemory.clock_store nofun
    | drop | exchanged => exact WeakMemory.clock_exchange nofun
    | _ => rfl
  · rw [hs.history_tail] at hmsg
    exact hI.2 hrelease msg hmsg
  · rw [hs.view_producer, hI.1]
  · have hold (h : msg ∈ m.history tail) : msg.view.2 consumer = 0 := hI.2 hrelease msg h
    cases hs with
    | storeTail item currentTail =>
      rw [hrelease] at hmsg
      exact (WeakMemory.message_of_store hmsg).elim hold id
    | _ => exact hold hmsg

/-! ### A run for any orders -/

/-- **The indices**, with any orders, when `i` items have been published and `n` popped. -/
structure Indices (capacity i n : ℕ) (m : WeakRing τ) : Prop where
  coherent : m.Coherent
  headLength : (m.history head).length = i + 1
  tailLength : (m.history tail).length = n + 1
  heads : ∀ (k : ℕ) (msg : RingMessage), (m.history head)[k]? = some msg → msg.value = k % capacity
  tails : ∀ (k : ℕ) (msg : RingMessage), (m.history tail)[k]? = some msg → msg.value = k % capacity

namespace Indices

variable {i n : ℕ} {t : RingThread} {x : RingAtomic} {msg : RingMessage}

theorem start (capacity : ℕ) (cells : ℕ → τ) : Indices capacity 0 0 (WeakRing.create cells) where
  coherent := WeakMemory.coherent_create ..
  headLength := rfl
  tailLength := rfl
  heads := WeakRing.value_create cells head
  tails := WeakRing.value_create cells tail

/-- A step that leaves no message in the indices. -/
theorem quiet (h : Indices capacity i n m) (hcoherent : m'.Coherent) (hhead : m'.history head = m.history head)
    (htail : m'.history tail = m.history tail) : Indices capacity i n m' :=
  ⟨hcoherent, hhead ▸ h.headLength, htail ▸ h.tailLength, hhead ▸ h.heads, htail ▸ h.tails⟩

theorem load (h : Indices capacity i n m) {a : Bool} {k : ℕ} (hload : m.CanLoad t x k msg) :
    Indices capacity i n (m.load t x a k msg) := h.quiet (h.coherent.load hload) rfl rfl

/-- Either thread may load the last value of either index. -/
theorem canLoad_head (h : Indices capacity i n m) (t : RingThread) :
    ∃ msg, m.CanLoad t head i msg ∧ msg.value = i % capacity := by
  obtain ⟨msg, hmsg⟩ : ∃ msg, (m.history head)[i]? = some msg :=
    ⟨_, List.getElem?_eq_getElem (by rw [h.headLength]; exact Nat.lt_succ_self _)⟩
  have hseen := h.coherent.view_lt t head
  rw [h.headLength] at hseen
  exact ⟨msg, ⟨Nat.le_of_lt_succ hseen, hmsg⟩, h.heads i msg hmsg⟩

theorem canLoad_tail (h : Indices capacity i n m) (t : RingThread) :
    ∃ msg, m.CanLoad t tail n msg ∧ msg.value = n % capacity := by
  obtain ⟨msg, hmsg⟩ : ∃ msg, (m.history tail)[n]? = some msg :=
    ⟨_, List.getElem?_eq_getElem (by rw [h.tailLength]; exact Nat.lt_succ_self _)⟩
  have hseen := h.coherent.view_lt t tail
  rw [h.tailLength] at hseen
  exact ⟨msg, ⟨Nat.le_of_lt_succ hseen, hmsg⟩, h.tails n msg hmsg⟩

/-- One more item has been published. -/
theorem publish (h : Indices capacity i n m) (r : Bool) :
    Indices capacity (i + 1) n (m.store producer head r ((i + 1) % capacity)) where
  coherent := h.coherent.store
  headLength := by rw [WeakMemory.length_history_store, h.headLength]
  tailLength := by
    rw [WeakMemory.history_store_of_ne (by decide)]
    exact h.tailLength
  heads k msg hmsg := by
    rcases WeakMemory.getElem?_store hmsg with hold | ⟨rfl, hvalue, -⟩
    · exact h.heads k msg hold
    · rw [hvalue, h.headLength]
  tails := by
    rw [WeakMemory.history_store_of_ne (by decide)]
    exact h.tails

/-- One more has been popped. -/
theorem release (h : Indices capacity i n m) (r : Bool) :
    Indices capacity i (n + 1) (m.store consumer tail r ((n + 1) % capacity)) where
  coherent := h.coherent.store
  headLength := by
    rw [WeakMemory.history_store_of_ne (by decide)]
    exact h.headLength
  tailLength := by rw [WeakMemory.length_history_store, h.tailLength]
  heads := by
    rw [WeakMemory.history_store_of_ne (by decide)]
    exact h.heads
  tails k msg hmsg := by
    rcases WeakMemory.getElem?_store hmsg with hold | ⟨rfl, hvalue, -⟩
    · exact h.tails k msg hold
    · rw [hvalue, h.tailLength]

end Indices

/-- There is a run from the one to the other. -/
def Leads (capacity : ℕ) (o : MemoryOrders) (m : WeakRing τ) (p : Producer τ) (c : Consumer τ) (m' : WeakRing τ)
    (p' : Producer τ) (c' : Consumer τ) : Prop :=
  ∃ trace, Run (Interleave (WeakProducerStep capacity o) (WeakConsumerStep capacity o)) (m, p, c) trace (m', p', c')

section Runs

variable {i n : ℕ} {m'' : WeakRing τ} {p'' : Producer τ} {c'' : Consumer τ}

theorem Leads.trans (h : Leads capacity o m p c m' p' c') (h' : Leads capacity o m' p' c' m'' p'' c'') :
    Leads capacity o m p c m'' p'' c'' := by
  obtain ⟨trace, h⟩ := h
  obtain ⟨trace', h'⟩ := h'
  exact ⟨_, h.trans h'⟩

theorem Leads.refl : Leads capacity o m p c m p c := ⟨[], .nil⟩

theorem Leads.producer (h : Leads capacity o m p c m' p' c') (hs : WeakProducerStep capacity o m' p' l m'' p'') :
    Leads capacity o m p c m'' p'' c' := by
  obtain ⟨trace, h⟩ := h
  exact ⟨_, h.snoc (.left c' hs)⟩

theorem Leads.consumer (h : Leads capacity o m p c m' p' c') (hs : WeakConsumerStep capacity o m' c' l m'' c'') :
    Leads capacity o m p c m'' p' c'' := by
  obtain ⟨trace, h⟩ := h
  exact ⟨_, h.snoc (.right p' hs)⟩

/-- **A push that finds room** comes to its write. -/
theorem exists_write (h : Indices capacity i n m) (hcap : 0 < capacity) (hle : n ≤ i) (hroom : i + 1 < n + capacity)
    (item : τ) : ∃ m', Leads capacity o m .idle c m' (.write item (i % capacity)) c ∧ Indices capacity i n m' ∧
      m'.read = m.read := by
  obtain ⟨own, hown, hvalue⟩ := h.canLoad_head producer
  have h1 : Indices capacity i n (m.load producer head false i own) := h.load hown
  obtain ⟨other, hother, hvalue'⟩ := h1.canLoad_tail producer
  have hne : increment capacity own.value ≠ other.value := by
    rw [hvalue, hvalue', increment_mod hcap]
    exact mod_ne (by omega) hroom
  have hrun := ((Leads.refl.producer (.call m .tryPush item)).producer (.loadHead .once item hown)).producer
    (c := c) (o := o) (.notFull .once item hother hne)
  rw [hvalue] at hrun
  exact ⟨_, hrun, h1.load hother, rfl⟩

/-- `updateHighWaterMark` may end at its first comparison or exchange. -/
theorem exists_updated (h : Indices capacity i n m) (currentHead : ℕ) :
    ∃ m', Leads capacity o m (.loadHigh currentHead) c m' .idle c ∧ Indices capacity i n m' ∧ m'.read = m.read ∧
      m'.written = m.written := by
  have hseen := h.coherent.view_lt producer highWaterMark
  obtain ⟨high, hhigh⟩ : ∃ high, (m.history highWaterMark)[(m.history highWaterMark).length - 1]? = some high :=
    ⟨_, List.getElem?_eq_getElem (by omega)⟩
  have hload : m.CanLoad producer highWaterMark _ high := ⟨by omega, hhigh⟩
  have h1 : Indices capacity i n (m.load producer highWaterMark false _ high) := h.load hload
  obtain ⟨other, hother, -⟩ := h1.canLoad_tail producer
  have h2 := h1.load (a := false) hother
  have hrun : Leads capacity o m (.loadHigh currentHead) c _ _ c :=
    (Leads.refl.producer (.loadHigh currentHead hload)).producer (.loadUsed currentHead high.value hother)
  by_cases hused : usedAt capacity currentHead other.value > high.value
  · have hlast : (m.history highWaterMark).getLast? = some high := List.getLast?_eq_getElem?.trans hhigh
    exact ⟨_, hrun.producer (.exchanged hused hlast rfl),
      h2.quiet (h2.coherent.exchange (List.mem_of_getElem? hhigh)) (WeakMemory.history_exchange_of_ne nofun)
        (WeakMemory.history_exchange_of_ne nofun), rfl, rfl⟩
  · exact ⟨_, hrun.producer (.noHigher _ hused), h2, rfl, rfl⟩

/-- **The rest of it.** -/
theorem exists_published (h : Indices capacity i n m) (hcap : 0 < capacity) (item : τ) :
    ∃ m', Leads capacity o m (.write item (i % capacity)) c m' .idle c ∧ Indices capacity (i + 1) n m' ∧
      m'.read = m.read ∧ 0 < m'.written (i % capacity) producer := by
  have hwritten := WeakMemory.written_writeCell_pos m producer (i % capacity) item
  have h1 : Indices capacity i n (m.writeCell producer (i % capacity) item) := h.quiet h.coherent.writeCell rfl rfl
  have hrun : Leads capacity o m (.write item (i % capacity)) c _ _ c :=
    (Leads.refl.producer (.write m item (i % capacity))).producer (.storeHead _ item (i % capacity))
  rw [increment_mod hcap] at hrun
  obtain ⟨m', hupdated, h2, hread, hkept⟩ :=
    exists_updated (o := o) (c := c) (h1.publish o.releaseHead) ((i + 1) % capacity)
  refine ⟨m', hrun.trans hupdated, h2, hread, ?_⟩
  rw [hkept]
  exact hwritten

/-- **A pop that finds an item** comes to its read. -/
theorem exists_read (h : Indices capacity i n m) (hlt : n < i) (hle : i < n + capacity) :
    ∃ m', Leads capacity o m p .idle m' p (.read (n % capacity)) ∧ Indices capacity i n m' ∧ m'.read = m.read ∧
      m'.written = m.written := by
  obtain ⟨own, hown, hvalue⟩ := h.canLoad_tail consumer
  have h1 : Indices capacity i n (m.load consumer tail false n own) := h.load hown
  obtain ⟨other, hother, hvalue'⟩ := h1.canLoad_head consumer
  have hne : own.value ≠ other.value := by
    rw [hvalue, hvalue']
    exact (mod_ne hlt hle).symm
  have hrun : Leads capacity o m p .idle _ p _ :=
    (Leads.refl.consumer (.loadTail hown)).consumer (.notEmpty hother hne)
  rw [hvalue] at hrun
  exact ⟨_, hrun, h1.load hother, rfl, rfl⟩

/-- **The rest of it.** -/
theorem exists_popped (h : Indices capacity i n m) (hcap : 0 < capacity) :
    ∃ m', Leads capacity o m p (.read (n % capacity)) m' p .idle ∧ Indices capacity i (n + 1) m' ∧
      0 < m'.read (n % capacity) consumer ∧ ∀ cell, 0 < m.read cell consumer → 0 < m'.read cell consumer := by
  have hpos := WeakMemory.read_readCell_pos m consumer (n % capacity)
  have h1 : Indices capacity i n (m.readCell consumer (n % capacity)) := h.quiet h.coherent.readCell rfl rfl
  have hrun : Leads capacity o m p (.read (n % capacity)) _ p _ :=
    (Leads.refl.consumer (.read m (n % capacity))).consumer (.storeTail _ _ (n % capacity))
  rw [increment_mod hcap] at hrun
  refine ⟨_, hrun, h1.release o.releaseTail, hpos, fun cell hcell => ?_⟩
  by_cases hself : cell = n % capacity
  · rw [hself]
    exact hpos
  · exact hcell.trans_eq (congrFun (WeakMemory.read_readCell_of_ne hself) consumer).symm

/-- **An item goes through** the empty buffer. -/
theorem exists_round (h : Indices capacity i i m) (hcap : 2 ≤ capacity) (item : τ) :
    ∃ m', Leads capacity o m .idle .idle m' .idle .idle ∧ Indices capacity (i + 1) (i + 1) m' ∧
      0 < m'.read (i % capacity) consumer ∧ ∀ cell, 0 < m.read cell consumer → 0 < m'.read cell consumer := by
  have hpos : 0 < capacity := by omega
  obtain ⟨m1, hrun1, h1, hread1⟩ := exists_write (o := o) (c := .idle) h hpos le_rfl (by omega) item
  obtain ⟨m2, hrun2, h2, hread2, -⟩ := exists_published (o := o) (c := .idle) h1 hpos item
  obtain ⟨m3, hrun3, h3, hread3, -⟩ := exists_read (o := o) (p := .idle) h2 (Nat.lt_succ_self i) (by omega)
  obtain ⟨m4, hrun4, h4, hnew, hold⟩ := exists_popped (o := o) (p := .idle) h3 hpos
  refine ⟨m4, ((hrun1.trans hrun2).trans hrun3).trans hrun4, h4, hnew, fun cell hcell => hold cell ?_⟩
  rwa [hread3, hread2, hread1]

/-- **Any number of items** go through it, one after the other. -/
theorem exists_rounds (hcap : 2 ≤ capacity) (o : MemoryOrders) (cells : ℕ → τ) (k : ℕ) :
    ∃ m', Leads capacity o (WeakRing.create cells) .idle .idle m' .idle .idle ∧ Indices capacity k k m' ∧
      ∀ j < k, 0 < m'.read (j % capacity) consumer := by
  induction k with
  | zero => exact ⟨_, Leads.refl, Indices.start capacity cells, fun j hj => absurd hj (Nat.not_lt_zero j)⟩
  | succ k ih =>
    obtain ⟨m, hrun, h, hreads⟩ := ih
    obtain ⟨m', hround, h', hnew, hold⟩ := exists_round (o := o) h hcap (cells 0)
    refine ⟨m', hrun.trans hround, h', fun j hj => ?_⟩
    rcases Nat.lt_succ_iff_lt_or_eq.mp hj with hj | rfl
    · exact hold _ (hreads j hj)
    · exact hnew

end Runs

/-! ### The races -/

/-- **The consumer's first read** is a race if it learns nothing from the index. -/
theorem read_races (hcap : 2 ≤ capacity) (cells : ℕ → τ) (hweak : o.releaseHead = false ∨ o.acquireHead = false) :
    ∃ trace m p c, WeakRingRun capacity o cells trace m p c ∧ ¬ RaceFree m p c := by
  have hpos : 0 < capacity := by omega
  have h := Indices.start capacity cells
  obtain ⟨m1, hrun1, h1, -⟩ := exists_write (o := o) (c := .idle) h hpos le_rfl (by omega) (cells 0)
  obtain ⟨m2, hrun2, h2, -, hwritten2⟩ := exists_published (o := o) (c := .idle) h1 hpos (cells 0)
  obtain ⟨m3, hrun3, -, -, hwritten3⟩ := exists_read (o := o) (p := .idle) h2 Nat.one_pos (by omega)
  obtain ⟨trace, hrun⟩ := (hrun1.trans hrun2).trans hrun3
  refine ⟨trace, m3, _, _, hrun, fun hfree => hfree.read _ rfl ⟨producer, nofun, ?_⟩⟩
  rw [consumer_unaware hweak hrun, hwritten3]
  exact hwritten2

/-- **The producer's write**, when it comes back to the first cell, if the producer does. -/
theorem write_races (hcap : 2 ≤ capacity) (cells : ℕ → τ) (hweak : o.releaseTail = false ∨ o.acquireTail = false) :
    ∃ trace m p c, WeakRingRun capacity o cells trace m p c ∧ ¬ RaceFree m p c := by
  have hpos : 0 < capacity := by omega
  obtain ⟨m1, hrun1, h1, hreads⟩ := exists_rounds hcap o cells capacity
  obtain ⟨m2, hrun2, -, hread2⟩ := exists_write (o := o) (c := .idle) h1 hpos le_rfl (by omega) (cells 0)
  obtain ⟨trace, hrun⟩ := hrun1.trans hrun2
  refine ⟨trace, m2, _, _, hrun, fun hfree => hfree.write _ _ rfl ⟨consumer, nofun, Or.inr ?_⟩⟩
  rw [producer_unaware hweak hrun, hread2, Nat.mod_self]
  exact hreads 0 hpos

/-- **Each of the orders is needed**: whatever the capacity, from two on, and the first contents of the cells, no
run has a data race exactly if both stores of an index are a release and both loads of the other's an acquire. -/
theorem orders_needed {capacity : ℕ} (hcap : 2 ≤ capacity) (cells : ℕ → τ) (o : MemoryOrders) :
    (∀ trace m p c, WeakRingRun capacity o cells trace m p c → RaceFree m p c) ↔ o = .source := by
  constructor
  · intro hfree
    have hhead : ¬ (o.releaseHead = false ∨ o.acquireHead = false) := fun hweak => by
      obtain ⟨trace, m, p, c, hrun, hrace⟩ := read_races hcap cells hweak
      exact hrace (hfree trace m p c hrun)
    have htail : ¬ (o.releaseTail = false ∨ o.acquireTail = false) := fun hweak => by
      obtain ⟨trace, m, p, c, hrun, hrace⟩ := write_races hcap cells hweak
      exact hrace (hfree trace m p c hrun)
    rcases o with ⟨_ | _, _ | _, _ | _, _ | _⟩ <;> simp_all [MemoryOrders.source]
  · rintro rfl trace m p c hrun
    exact (Handover.run (by omega) hrun).1.raceFree

/-- A buffer of two cells whose consumer loads `_head` with a relaxed order has a race. -/
theorem orders_needed_relaxed : ¬ ∀ (trace : List (Label ℕ)) m p c,
    WeakRingRun 2 ⟨true, true, false, true⟩ (fun _ => 0) trace m p c → RaceFree m p c := by
  rw [orders_needed (by decide)]
  decide

end Scrimmage.Common
