import Scrimmage.Common.SpScRingBufferOrders
import Scrimmage.Common.SpScRingBufferCalls

/-!
# The two memories of the ring buffer

`SpScRingBuffer` on a memory in which a load may return an old value does nothing that it does not on one in
which each load returns the last, as far as items go in and come out. What a call does that finds
no room, or no item, may differ: an old value of the other's index says so when it is no longer so.

## What is proved

* `exists_push`, `exists_pop`: what a whole call can do where each load returns the last value.
* `weak_refines`: every run on the one memory has one on the other with the same items in and out, in the
  same order.
-/

namespace Scrimmage.Common

open Theory

variable {τ : Type}

/-- What goes in, and what comes out. -/
def transfers (trace : List (Label τ)) : List (τ ⊕ τ) :=
  trace.filterMap fun
    | .published item => some (.inl item)
    | .popped item => some (.inr item)
    | _ => none

@[simp] theorem transfers_append (l l' : List (Label τ)) : transfers (l ++ l') = transfers l ++ transfers l' :=
  List.filterMap_append

theorem published_eq_transfers (trace : List (Label τ)) :
    published trace = (transfers trace).filterMap Sum.getLeft? := by
  rw [published, transfers, List.filterMap_filterMap]
  refine List.filterMap_congr fun l _ => ?_
  cases l <;> rfl

theorem popped_eq_transfers (trace : List (Label τ)) : popped trace = (transfers trace).filterMap Sum.getRight? := by
  rw [popped, transfers, List.filterMap_filterMap]
  refine List.filterMap_congr fun l _ => ?_
  cases l <;> rfl

section Calls

variable {capacity : ℕ} {b : SpScRingBuffer τ} {item : τ}

/-- **A push** that finds room. -/
theorem exists_push (hroom : increment capacity b.head ≠ b.tail) (item : τ) :
    ∃ trace b', Run (Interleave (ProducerStep capacity) (ConsumerStep capacity)) (b, .idle, .idle) trace
      (b', .idle, .idle) ∧ transfers trace = [.inl item] := by
  have hrun : Run (Interleave (ProducerStep capacity) (ConsumerStep capacity)) (b, .idle, .idle) _ _ :=
    Run.nil
      |>.snoc (.left _ (.call b .tryPush item))
      |>.snoc (.left _ (.loadHead b .once item))
      |>.snoc (.left _ (.notFull .once item hroom))
      |>.snoc (.left _ (.write b item b.head))
      |>.snoc (.left _ (.storeHead _ item b.head))
      |>.snoc (.left _ (.loadHigh _ _))
      |>.snoc (.left _ (.loadUsed _ _ _))
  by_cases hused : usedAt capacity (increment capacity b.head) b.tail > b.highWaterMark
  · exact ⟨_, _, hrun.snoc (.left _ (.exchanged hused rfl)), rfl⟩
  · exact ⟨_, _, hrun.snoc (.left _ (.noHigher _ hused)), rfl⟩

/-- **A pop** that finds an item. -/
theorem exists_pop (capacity : ℕ) (hne : b.tail ≠ b.head) :
    ∃ trace b', Run (Interleave (ProducerStep capacity) (ConsumerStep capacity)) (b, .idle, .idle) trace
      (b', .idle, .idle) ∧ transfers trace = [.inr (b.buffer b.tail)] :=
  ⟨_, _, Run.nil
    |>.snoc (.right _ (.loadTail b))
    |>.snoc (.right _ (.notEmpty hne))
    |>.snoc (.right _ (.read b b.tail))
    |>.snoc (.right _ (.storeTail b _ b.tail)), rfl⟩

/-- What a step on the weak memory transfers. -/
theorem transfers_weak {o : MemoryOrders} {s s' : WeakRing τ × Producer τ × Consumer τ} {l : Label τ}
    (hs : Interleave (WeakProducerStep capacity o) (WeakConsumerStep capacity o) s l s') :
    transfers [l] = [] ∨ (∃ item, l = .published item) ∨ ∃ item, l = .popped item := by
  cases hs with
  | left c hs =>
    cases hs with
    | storeHead item currentHead => exact Or.inr (Or.inl ⟨item, rfl⟩)
    | _ => exact Or.inl rfl
  | right p hs =>
    cases hs with
    | storeTail item currentTail => exact Or.inr (Or.inr ⟨item, rfl⟩)
    | _ => exact Or.inl rfl

variable {cells : ℕ → τ} {trace : List (Label τ)}

/-- **There is room** for an item when those between are fewer than they can be. -/
theorem push_follows (hcap : 0 < capacity) (h : RingRun capacity cells trace b .idle .idle)
    (hroom : (published trace).length + 1 < (popped trace).length + capacity) (item : τ) :
    ∃ trace' b', RingRun capacity cells trace' b' .idle .idle ∧ transfers trace' = transfers trace ++ [.inl item] := by
  have hsync := Sync.run hcap h
  have hnotFull : increment capacity b.head ≠ b.tail := by
    rw [Ne, SpScRingBuffer.full_iff ⟨hsync.head_lt, hsync.tail_lt⟩]
    have hlength := congrArg List.length hsync.fifo
    rw [List.length_append] at hlength
    omega
  obtain ⟨more, b', hrun, hmore⟩ := exists_push hnotFull item
  exact ⟨trace ++ more, b', h.trans hrun, by rw [transfers_append, hmore]⟩

/-- **The next item is there** when it has been published. -/
theorem pop_follows (hcap : 0 < capacity) (h : RingRun capacity cells trace b .idle .idle)
    (hnext : popped trace ++ [item] <+: published trace) :
    ∃ trace' b', RingRun capacity cells trace' b' .idle .idle ∧ transfers trace' = transfers trace ++ [.inr item] := by
  have hsync := Sync.run hcap h
  rw [hsync.fifo, List.prefix_append_right_inj] at hnext
  obtain ⟨rest, hitems⟩ := hnext
  have hne : b.tail ≠ b.head := fun heq => by
    rw [SpScRingBuffer.items, heq, Ring.window_self] at hitems
    cases hitems
  rw [SpScRingBuffer.items, Ring.window_pop hsync.tail_lt hsync.head_lt hne, List.map_cons] at hitems
  obtain ⟨more, b', hrun, hmore⟩ := exists_pop capacity hne
  refine ⟨trace ++ more, b', h.trans hrun, ?_⟩
  rw [transfers_append, hmore, (List.cons.inj hitems).1]

end Calls

/-- **What goes in and comes out** in a run on a memory with release and acquire, in its order, goes in and comes out
in a run on one in which each load returns the last value, with the same buffer at first. -/
theorem weak_refines {capacity : ℕ} (hcap : 0 < capacity) {cells : ℕ → τ} {trace : List (Label τ)} {m : WeakRing τ}
    {p : Producer τ} {c : Consumer τ} (h : WeakRingRun capacity .source cells trace m p c) :
    ∃ trace' b, RingRun capacity cells trace' b .idle .idle ∧ transfers trace' = transfers trace := by
  have hstart : WeakRingRun capacity .source cells [] (WeakRing.create cells) .idle .idle := .nil
  rw [WeakRingRun] at h
  refine (h.invariant (fun trace s => WeakRingRun capacity .source cells trace s.1 s.2.1 s.2.2 ∧
    ∃ trace' b, RingRun capacity cells trace' b .idle .idle ∧ transfers trace' = transfers trace)
    ⟨hstart, [], _, .nil, rfl⟩ fun trace s l s' hI hs => ?_).2
  obtain ⟨hrun, trace', b, hring, heq⟩ := hI
  have hafter : WeakRingRun capacity .source cells (trace ++ [l]) s'.1 s'.2.1 s'.2.2 := hrun.snoc hs
  refine ⟨hafter, ?_⟩
  have hpublished : published trace' = published trace := by rw [published_eq_transfers, heq, ← published_eq_transfers]
  have hpopped : popped trace' = popped trace := by rw [popped_eq_transfers, heq, ← popped_eq_transfers]
  obtain ⟨hand, htake⟩ := Handover.run hcap hafter
  rw [transfers_append, ← heq]
  rcases transfers_weak hs with hnone | ⟨item, rfl⟩ | ⟨item, rfl⟩
  · exact ⟨trace', b, hring, by rw [hnone, List.append_nil]⟩
  · refine push_follows hcap hring ?_ item
    have hlength := hand.length_lt
    rw [published_append, popped_append] at hlength
    rw [hpublished, hpopped]
    simpa [published, popped] using hlength
  · refine pop_follows hcap hring ?_
    rw [hpublished, hpopped]
    have hbegins : popped (trace ++ [.popped item]) <+: published (trace ++ [.popped item]) := by
      rw [htake]
      exact List.take_prefix ..
    simpa [published, popped] using hbegins

/-- An item that is in and out. -/
theorem weak_refines_one : ∃ (trace : List (Label ℕ)) (b : SpScRingBuffer ℕ), RingRun 2 (fun _ => 0) trace b .idle .idle ∧
    transfers trace = [.inl 7, .inr 7] := by
  have h0 : WeakRingRun 2 .source (fun _ => 0) [] _ .idle .idle := .nil
  have h1 := h0.snoc (.left _ (.call _ .tryPush 7))
  have h2 := h1.snoc (.left _ (.loadHead _ _ (k := 0) ⟨Nat.le_refl 0, rfl⟩))
  have h3 := h2.snoc (.left _ (.notFull _ _ (k := 0) ⟨Nat.le_refl 0, rfl⟩ (Nat.one_ne_zero)))
  have h4 := h3.snoc (.left _ (.write _ _ _))
  have h5 := h4.snoc (.left _ (.storeHead _ _ _))
  have h6 := h5.snoc (.right _ (.loadTail (k := 0) ⟨Nat.le_refl 0, rfl⟩))
  have h7 := h6.snoc (.right _ (.notEmpty (k := 1) ⟨Nat.zero_le 1, rfl⟩ Nat.zero_ne_one))
  have h8 := h7.snoc (.right _ (.read _ _))
  have h9 := h8.snoc (.right _ (.storeTail _ _ _))
  obtain ⟨trace, b, hrun, heq⟩ := weak_refines (Nat.two_pos) h9
  exact ⟨trace, b, hrun, heq.trans rfl⟩

end Scrimmage.Common
