import Scrimmage.Common.SpScRingBuffer
import Scrimmage.Common.SpScRingBufferConsumer
import Scrimmage.Theory.Path

/-!
# What the callback is given

`SpScRingBufferConsumer` together with the buffer it pops from: a producer pushes, the
threads in `consumeLoop` pop and hand each message to the callback, and one thread calls
`start` and `stop`.

## The model

* `LoopStep` is a step of a thread in `consumeLoop`. Inside `tryPop` its steps are those of
  the consumer of the buffer, one for each access (`ConsumerStep`).
* `Consuming` is the buffer, the producer, the threads and their caller; `Consuming.Step`
  interleaves the steps of all of them. `Consuming.control` forgets the buffer and the
  messages: what is left is the consumer of `SpScRingBufferConsumer.lean`.
* `AdaptiveSpinner` is not in the repository; `spin` and `reset` are no access to anything
  shared.

## What is proved

* `control_run`: a run is one of the threads alone, for the same calls.
* `delivered_once`: if each thread is started when no loop can still pop, every message
  popped is handed to the callback once, but for those in hand.
* `delivered_in_order`: if each is started when the loops before it are left, the callback
  is given the messages in the order they were published.
-/

namespace Scrimmage.Common

open Theory

variable {τ : Type}

/-! ### The model -/

/-- Where a thread in `consumeLoop` is: what it does next. -/
inductive LoopAt (τ : Type) where
  /-- `token.stopRequested()`. -/
  | check
  /-- An access of `_buffer.tryPop(_message)`. -/
  | tryPop (c : Consumer τ)
  /-- `_callback(_message)`, and `_spinner.reset()`. -/
  | callback (message : τ)
  /-- `_spinner.spin()`. -/
  | spin
  /-- Nothing: the loop is left. -/
  | left

/-- A `PinnedThread` that runs `consumeLoop`, with its messages. -/
structure LoopThread (τ : Type) where
  /-- Where the loop is. -/
  place : LoopAt τ
  /-- `_stopFlag`. -/
  stopFlag : Bool

/-- `PinnedThread(worker)`: the thread is started. -/
def LoopThread.create : LoopThread τ := ⟨.check, false⟩

/-- `requestStop`. -/
def LoopThread.requestStop (t : LoopThread τ) : LoopThread τ := { t with stopFlag := true }

/-- What can be seen of a step. -/
inductive Seen (τ : Type) where
  /-- What can be seen of a step on the buffer. -/
  | ring (l : Label τ)
  /-- The callback is given a message. -/
  | delivered (message : τ)
  /-- A call begins. -/
  | call (c : ConsumerCall)
  /-- Nothing. -/
  | silent

/-- **The steps of a thread** in `consumeLoop`, whose token reads `stopFlag`. -/
inductive LoopStep (capacity : ℕ) :
    Bool → SpScRingBuffer τ → LoopAt τ → Seen τ → SpScRingBuffer τ → LoopAt τ → Prop where
  | stop (b : SpScRingBuffer τ) : LoopStep capacity true b .check .silent b .left
  | goOn (b : SpScRingBuffer τ) : LoopStep capacity false b .check .silent b (.tryPop .idle)
  | access {f : Bool} {b b' : SpScRingBuffer τ} {c c' : Consumer τ} : ConsumerStep capacity b c .internal b' c' →
    LoopStep capacity f b (.tryPop c) (.ring .internal) b' (.tryPop c')
  /-- `tryPop` returns `false`. -/
  | empty {f : Bool} {b b' : SpScRingBuffer τ} {c c' : Consumer τ} : ConsumerStep capacity b c .foundEmpty b' c' →
    LoopStep capacity f b (.tryPop c) (.ring .foundEmpty) b' .spin
  /-- `tryPop` returns `true`. -/
  | popped {f : Bool} {b b' : SpScRingBuffer τ} {c c' : Consumer τ} {message : τ} :
    ConsumerStep capacity b c (.popped message) b' c' →
    LoopStep capacity f b (.tryPop c) (.ring (.popped message)) b' (.callback message)
  | callback (f : Bool) (b : SpScRingBuffer τ) (message : τ) :
    LoopStep capacity f b (.callback message) (.delivered message) b .check
  | spin (f : Bool) (b : SpScRingBuffer τ) : LoopStep capacity f b .spin .silent b .check

/-- A buffer, its producer, its consumer's threads, and their caller. -/
structure Consuming (τ : Type) where
  /-- `_buffer`. -/
  buffer : SpScRingBuffer τ
  /-- Where the producer is. -/
  producer : Producer τ
  /-- The threads started. -/
  threads : List (LoopThread τ)
  /-- `_pinnedThread`. -/
  pinnedThread : Option ℕ
  /-- Where the caller is. -/
  caller : CallerPlace

namespace Consuming

/-- A buffer that has been made, and a consumer for it. -/
def create (cells : ℕ → τ) : Consuming τ := ⟨SpScRingBuffer.create cells, .idle, [], none, .idle⟩

/-- A step of the thread `n`. -/
inductive LoopMove (capacity n : ℕ) : Consuming τ → Seen τ → Consuming τ → Prop where
  | move {s : Consuming τ} {t : LoopThread τ} {l : Seen τ} {b : SpScRingBuffer τ} {place : LoopAt τ} :
    s.threads[n]? = some t → LoopStep capacity t.stopFlag s.buffer t.place l b place →
    LoopMove capacity n s l { s with buffer := b, threads := s.threads.set n { t with place := place } }

/-- The steps of the thread that calls `start` and `stop`. -/
inductive CallerMove : Consuming τ → Seen τ → Consuming τ → Prop where
  /-- `start`, with the new thread of `make_unique`. -/
  | start {s} : s.caller = .idle →
      CallerMove s (.call .start) { s with threads := s.threads ++ [.create], caller := .assign s.threads.length }
  /-- The pointer is replaced. -/
  | assign {s new} : s.caller = .assign new →
      CallerMove s .silent { s with
        pinnedThread := some new
        caller := match s.pinnedThread with
          | none => .idle
          | some old => .requestStop old }
  /-- The old thread is told to stop. -/
  | requestStop {s old} : s.caller = .requestStop old →
      CallerMove s .silent { s with threads := s.threads.modify old LoopThread.requestStop, caller := .join old }
  /-- Its loop has been left. -/
  | join {s old t} : s.caller = .join old → s.threads[old]? = some t → t.place = .left →
      CallerMove s .silent { s with caller := .idle }
  /-- `stop`. -/
  | stop {s} : s.caller = .idle →
      CallerMove s (.call .stop) { s with
        threads := match s.pinnedThread with
          | none => s.threads
          | some n => s.threads.modify n LoopThread.requestStop }

/-- The steps. -/
inductive Step (capacity : ℕ) : Consuming τ → Seen τ → Consuming τ → Prop where
  /-- A step of the producer. -/
  | produce {s l b p} : ProducerStep capacity s.buffer s.producer l b p →
      Step capacity s (.ring l) { s with buffer := b, producer := p }
  /-- A step of the thread `n`. -/
  | loop {s l s'} (n : ℕ) : LoopMove capacity n s l s' → Step capacity s l s'
  /-- A step of the caller. -/
  | caller {s l s'} : CallerMove s l s' → Step capacity s l s'

/-- The steps, where a thread is only started in a state with `G`. -/
def StepWhen (G : Consuming τ → Prop) (capacity : ℕ) (s : Consuming τ) (l : Seen τ) (s' : Consuming τ) : Prop :=
  Step capacity s l s' ∧ (l = .call .start → G s)

end Consuming

/-! ### What is seen -/

/-- What has been seen of the buffer. -/
def ringSeen (ls : List (Seen τ)) : List (Label τ) :=
  ls.filterMap fun
    | .ring l => some l
    | _ => none

/-- The messages the callback has been given, in order. -/
def delivered (ls : List (Seen τ)) : List τ :=
  ls.filterMap fun
    | .delivered message => some message
    | _ => none

/-- The call a step begins. -/
def Seen.call? : Seen τ → Option ConsumerCall
  | .call c => some c
  | _ => none

@[simp] theorem ringSeen_append (ls ls' : List (Seen τ)) : ringSeen (ls ++ ls') = ringSeen ls ++ ringSeen ls' :=
  List.filterMap_append

@[simp] theorem delivered_append (ls ls' : List (Seen τ)) : delivered (ls ++ ls') = delivered ls ++ delivered ls' :=
  List.filterMap_append

/-! ### The threads alone -/

/-- Where a loop is, whatever it holds. -/
def LoopAt.place : LoopAt τ → LoopPlace
  | .check => .check
  | .tryPop _ => .tryPop
  | .callback _ | .spin => .handle
  | .left => .left

/-- A thread, without its messages. -/
def LoopThread.control (t : LoopThread τ) : ConsumeLoop := ⟨t.place.place, t.stopFlag⟩

/-- The consumer without the buffer and the messages. -/
def Consuming.control (s : Consuming τ) : SpScRingBufferConsumer :=
  ⟨s.threads.map LoopThread.control, s.pinnedThread, s.caller⟩

section Control

variable {capacity n : ℕ} {s s' : Consuming τ} {l : Seen τ} {ls : List (Seen τ)} {t : LoopThread τ}
  {b b' : SpScRingBuffer τ} {place : LoopAt τ}

/-- A step inside `tryPop` leaves the loop where it is, and every other is its next. -/
theorem LoopStep.control (h : LoopStep capacity t.stopFlag b t.place l b' place) :
    l.call? = none ∧ (LoopThread.control { t with place := place } = t.control ∨
      LoopThread.control { t with place := place } = t.control.next) := by
  obtain ⟨at', f⟩ := t
  cases h with
  | stop | goOn | empty | popped | callback | spin => exact ⟨rfl, Or.inr rfl⟩
  | access => exact ⟨rfl, Or.inl rfl⟩

theorem map_control_modify {f : LoopThread τ → LoopThread τ} {g : ConsumeLoop → ConsumeLoop}
    (hfg : ∀ t, (f t).control = g t.control) (threads : List (LoopThread τ)) (n : ℕ) :
    (threads.modify n f).map LoopThread.control = (threads.map LoopThread.control).modify n g := by
  apply List.ext_getElem?
  intro i
  simp only [List.getElem?_map, List.getElem?_modify, Option.map_eq_map, Option.map_map]
  congr 1
  funext t
  by_cases hi : n = i <;> simp [hi, hfg]

theorem set_eq_modify {α : Type} {l : List α} {n : ℕ} {a a' : α} {f : α → α} (h : l[n]? = some a) (hf : f a = a') :
    l.set n a' = l.modify n f := by
  obtain ⟨hn, rfl⟩ := List.getElem?_eq_some_iff.mp h
  apply List.ext_getElem?
  intro i
  rw [List.getElem?_set, List.getElem?_modify]
  by_cases hi : n = i
  · subst hi
    simp [hn, hf]
  · simp [hi]

/-- A step of the caller is one of the caller alone. -/
theorem Consuming.CallerMove.control (h : Consuming.CallerMove s l s') :
    SpScRingBufferConsumer.Step s.control l.call? s'.control := by
  have hmap (n : ℕ) := map_control_modify (f := LoopThread.requestStop) (g := ConsumeLoop.requestStop) (fun _ => rfl)
    s.threads n
  cases h with
  | start hidle =>
    have hstep := SpScRingBufferConsumer.Step.start (s := s.control) hidle
    simpa [Consuming.control, LoopThread.create, LoopThread.control, ConsumeLoop.create, LoopAt.place, Seen.call?]
      using hstep
  | assign hc => exact .assign hc
  | requestStop hc =>
    have hstep := SpScRingBufferConsumer.Step.requestStop (s := s.control) hc
    simpa [Consuming.control, Seen.call?, hmap] using hstep
  | @join old t hc ht hleft =>
    refine SpScRingBufferConsumer.Step.join (s := s.control) (t := t.control) hc ?_ ?_
    · rw [Consuming.control, List.getElem?_map, ht, Option.map_some]
    · simp [LoopThread.control, hleft, LoopAt.place]
  | stop hidle =>
    have hstep := SpScRingBufferConsumer.Step.stop (s := s.control) hidle
    cases hp : s.pinnedThread with
    | none => simpa [Consuming.control, Seen.call?, hp] using hstep
    | some n => simpa [Consuming.control, Seen.call?, hp, hmap] using hstep

/-- **A step is one of the threads alone**, or changes nothing that is seen of them. -/
theorem Consuming.Step.control (h : Consuming.Step capacity s l s') :
    SpScRingBufferConsumer.Step s.control l.call? s'.control ∨ l.call? = none ∧ s'.control = s.control := by
  cases h with
  | produce hp => exact Or.inr ⟨rfl, rfl⟩
  | loop n hmove =>
    cases hmove with
    | @move t _ b place ht hloop =>
      have hget : s.control.threads[n]? = some t.control := by
        rw [Consuming.control, List.getElem?_map, ht, Option.map_some]
      obtain ⟨hcall, hstay | hnext⟩ := hloop.control
      · have hset := set_eq_modify (f := id) hget hstay.symm
        rw [List.modify_id] at hset
        exact Or.inr ⟨hcall, by simpa [Consuming.control, List.map_set] using hset⟩
      · left
        rw [hcall]
        have hstep := SpScRingBufferConsumer.Step.loop (s := s.control) n
        rw [← set_eq_modify hget hnext.symm] at hstep
        simpa [Consuming.control, List.map_set] using hstep
  | caller hmove => exact Or.inl hmove.control

/-- **A run is one of the threads alone**, for the same calls. -/
theorem control_run {cells : ℕ → τ} (h : Run (Consuming.Step capacity) (Consuming.create cells) ls s) :
    ∃ cs, Run SpScRingBufferConsumer.Step SpScRingBufferConsumer.create cs s.control ∧
      SpScRingBufferConsumer.callsOf cs = ls.filterMap Seen.call? := by
  induction h with
  | nil => exact ⟨[], .nil, rfl⟩
  | snoc _ hs ih =>
    obtain ⟨cs, hrun, hcalls⟩ := ih
    rcases hs.control with hstep | ⟨hcall, hsame⟩
    · refine ⟨_, hrun.snoc hstep, ?_⟩
      rw [SpScRingBufferConsumer.callsOf_append, hcalls, List.filterMap_append]
      rfl
    · refine ⟨cs, hsame ▸ hrun, ?_⟩
      rw [hcalls, List.filterMap_append, List.filterMap_cons, hcall, List.filterMap_nil, List.append_nil]

end Control

/-! ### What a thread holds -/

/-- Where a loop is in `tryPop`. -/
def LoopAt.popping? : LoopAt τ → Option (Consumer τ)
  | .tryPop c => some c
  | _ => none

/-- The message a loop is about to hand to the callback. -/
def LoopAt.message? : LoopAt τ → Option τ
  | .callback message => some message
  | _ => none

namespace Consuming

/-- Where the loops are. -/
def places (s : Consuming τ) : List (LoopAt τ) := s.threads.map LoopThread.place

/-- The buffer's consumer: the loop that is in `tryPop`. -/
def consumer (s : Consuming τ) : Consumer τ := (s.places.filterMap LoopAt.popping?).head?.getD .idle

/-- The messages that have been popped, and that the callback has not been given. -/
def inHand (s : Consuming τ) : List τ := s.places.filterMap LoopAt.message?

/-- No loop can still pop. -/
def Quiet (s : Consuming τ) : Prop := s.control.Quiet

/-- All loops have been left. -/
def AllLeft (s : Consuming τ) : Prop := ∀ a ∈ s.places, a = .left

end Consuming

section Holds

variable {capacity n : ℕ} {s s' : Consuming τ} {l : Seen τ} {ls : List (Seen τ)} {t : LoopThread τ}
  {b : SpScRingBuffer τ} {place : LoopAt τ}

@[simp] theorem places_mk (b : SpScRingBuffer τ) (p : Producer τ) (threads : List (LoopThread τ)) (ptr : Option ℕ)
    (caller : CallerPlace) : (Consuming.mk b p threads ptr caller).places = threads.map LoopThread.place := rfl

theorem places_requestStop (threads : List (LoopThread τ)) (n : ℕ) :
    (threads.modify n LoopThread.requestStop).map LoopThread.place = threads.map LoopThread.place := by
  apply List.ext_getElem?
  intro i
  simp only [List.getElem?_map, List.getElem?_modify, Option.map_eq_map, Option.map_map]
  congr 1
  funext t
  by_cases hi : n = i <;> simp [hi, LoopThread.requestStop]

/-- **The places before and after a step of a thread**: they differ in that of the thread. -/
theorem exists_split (ht : s.threads[n]? = some t) (place : LoopAt τ) :
    ∃ pre post, pre.length = n ∧ s.places = pre ++ t.place :: post ∧
      (s.threads.set n { t with place := place }).map LoopThread.place = pre ++ place :: post := by
  obtain ⟨hn, rfl⟩ := List.getElem?_eq_some_iff.mp ht
  have hlen : n < (s.threads.map LoopThread.place).length := by simpa using hn
  refine ⟨(s.threads.map LoopThread.place).take n, (s.threads.map LoopThread.place).drop (n + 1), ?_, ?_, ?_⟩
  · rw [List.length_take]
    exact Nat.min_eq_left hlen.le
  · have hget : (s.threads.map LoopThread.place)[n] = s.threads[n].place := List.getElem_map _
    rw [Consuming.places, ← hget, ← List.drop_eq_getElem_cons hlen, List.take_append_drop]
  · rw [List.map_set, List.set_eq_take_append_cons_drop, if_pos hlen]

/-- A loop that has been left makes no step. -/
theorem LoopStep.ne_left {f : Bool} {b b' : SpScRingBuffer τ} {a a' : LoopAt τ} (h : LoopStep capacity f b a l b' a') :
    a ≠ .left := by
  cases h <;> simp

/-- **No other loop is in `tryPop`** when there is one consumer, and it is this. -/
theorem popping_eq_none (h : s.control.OneConsumer) (ht : s.threads[n]? = some t) (hpop : t.control.CanPop)
    {pre post : List (LoopAt τ)} (hlen : pre.length = n) (hsplit : s.places = pre ++ t.place :: post) :
    pre.filterMap LoopAt.popping? = [] ∧ post.filterMap LoopAt.popping? = [] := by
  have hget : s.control.threads[n]? = some t.control := by
    rw [Consuming.control, List.getElem?_map, ht, Option.map_some]
  have hother {i : ℕ} {a : LoopAt τ} (hi : s.places[i]? = some a) (hne : i ≠ n) : a.popping? = none := by
    obtain ⟨u, hu, rfl⟩ := Option.map_eq_some_iff.mp ((List.getElem?_map ..).symm.trans hi)
    cases hplace : u.place with
    | tryPop c =>
      refine absurd (h i n u.control t.control ?_ hget (Or.inl ?_) hpop) hne
      · rw [Consuming.control, List.getElem?_map, hu, Option.map_some]
      · simp [LoopThread.control, hplace, LoopAt.place]
    | check | callback | spin | left => rfl
  constructor
  · refine List.filterMap_eq_nil_iff.mpr fun a ha => ?_
    obtain ⟨i, hi, rfl⟩ := List.mem_iff_getElem.mp ha
    refine hother (i := i) ?_ (by omega)
    rw [hsplit, List.getElem?_append_left hi, List.getElem?_eq_getElem hi]
  · refine List.filterMap_eq_nil_iff.mpr fun a ha => ?_
    obtain ⟨i, hi, rfl⟩ := List.mem_iff_getElem.mp ha
    refine hother (i := n + 1 + i) ?_ (by omega)
    rw [hsplit, List.getElem?_append_right (by omega), show n + 1 + i - pre.length = i + 1 by omega,
      List.getElem?_cons_succ, List.getElem?_eq_getElem hi]

/-- A loop in `tryPop` makes a step of the buffer's consumer; the others leave the buffer alone. -/
theorem LoopStep.buffer_step {f : Bool} {b b' : SpScRingBuffer τ} {a a' : LoopAt τ}
    (h : LoopStep capacity f b a l b' a') :
    (b' = b ∧ ringSeen [l] = [] ∧ a'.popping?.getD .idle = a.popping?.getD .idle) ∨
      ∃ l', l = .ring l' ∧ ConsumerStep capacity b (a.popping?.getD .idle) l' b' (a'.popping?.getD .idle) := by
  cases h with
  | stop | goOn | callback | spin => exact Or.inl ⟨rfl, rfl, rfl⟩
  | access hc => exact Or.inr ⟨_, rfl, hc⟩
  | empty hc =>
    cases hc with
    | empty heq => exact Or.inr ⟨_, rfl, .empty heq⟩
  | popped hc =>
    cases hc with
    | storeTail message currentTail => exact Or.inr ⟨_, rfl, .storeTail _ _ _⟩

/-- A loop that cannot pop is in no `tryPop`, before and after a step. -/
theorem LoopStep.elsewhere (h : LoopStep capacity t.stopFlag s.buffer t.place l b place) (hpop : ¬ t.control.CanPop) :
    b = s.buffer ∧ ringSeen [l] = [] ∧ t.place.popping? = none ∧ place.popping? = none := by
  obtain ⟨a, f⟩ := t
  generalize hf : f = f' at h
  cases h with
  | stop | callback | spin => exact ⟨rfl, rfl, rfl, rfl⟩
  | goOn => exact absurd (Or.inr ⟨by simp [LoopThread.control, LoopAt.place], hf⟩) hpop
  | access | empty | popped => exact absurd (Or.inl rfl) hpop

/-- **What a loop pops it holds**, and what it holds it hands to the callback. -/
theorem LoopStep.conserves {f : Bool} {b b' : SpScRingBuffer τ} {a a' : LoopAt τ}
    (h : LoopStep capacity f b a l b' a') :
    a.message?.toList ++ Common.popped (ringSeen [l]) = delivered [l] ++ a'.message?.toList := by
  cases h <;> rfl

/-- **The caller** touches no buffer and no loop's place: all it does is start a thread. -/
theorem Consuming.CallerMove.frame (h : Consuming.CallerMove s l s') :
    s'.buffer = s.buffer ∧ s'.producer = s.producer ∧ ringSeen [l] = [] ∧ delivered [l] = [] ∧
      (l = .call .start ∧ s'.places = s.places ++ [.check] ∨ s'.places = s.places) := by
  cases h with
  | start hidle => exact ⟨rfl, rfl, rfl, rfl, Or.inl ⟨rfl, by simp [Consuming.places, LoopThread.create]⟩⟩
  | assign hc => exact ⟨rfl, rfl, rfl, rfl, Or.inr rfl⟩
  | requestStop hc => exact ⟨rfl, rfl, rfl, rfl, Or.inr (places_requestStop _ _)⟩
  | join hc ht hleft => exact ⟨rfl, rfl, rfl, rfl, Or.inr rfl⟩
  | stop hidle =>
    refine ⟨rfl, rfl, rfl, rfl, Or.inr ?_⟩
    cases hp : s.pinnedThread with
    | none => rfl
    | some n => exact places_requestStop _ _

/-- The producer pops nothing. -/
theorem ProducerStep.popped_eq_nil {b b' : SpScRingBuffer τ} {p p' : Producer τ} {l : Label τ}
    (h : ProducerStep capacity b p l b' p') : popped [l] = [] := by
  cases h <;> rfl

end Holds

/-! ### Each message once -/

/-- **The invariant**: one loop at a time pops, it is the buffer's consumer, and each message popped
has been handed to the callback once or is in hand. -/
structure Fed (capacity : ℕ) (ls : List (Seen τ)) (s : Consuming τ) : Prop where
  one : s.control.OneConsumer
  sync : Sync capacity (ringSeen ls) s.buffer s.producer s.consumer
  once : (popped (ringSeen ls)).Perm (delivered ls ++ s.inHand)

namespace Fed

variable {capacity n : ℕ} {s s' : Consuming τ} {l : Seen τ} {ls : List (Seen τ)} {t : LoopThread τ}
  {b : SpScRingBuffer τ} {place : LoopAt τ}

theorem start (h : 0 < capacity) (cells : ℕ → τ) : Fed capacity [] (Consuming.create cells) where
  one := SpScRingBufferConsumer.oneConsumer_create
  sync := Sync.start h cells
  once := .refl _

/-- **A step of the caller.** -/
theorem caller (h : Fed capacity ls s) (hone : s'.control.OneConsumer) (hs : Consuming.CallerMove s l s') :
    Fed capacity (ls ++ [l]) s' := by
  obtain ⟨hbuffer, hproducer, hring, hdel, hplaces⟩ := hs.frame
  have hpopping : s'.places.filterMap LoopAt.popping? = s.places.filterMap LoopAt.popping? := by
    rcases hplaces with ⟨-, hplaces⟩ | hplaces <;> simp [hplaces, LoopAt.popping?]
  have hhand : s'.inHand = s.inHand := by
    rcases hplaces with ⟨-, hplaces⟩ | hplaces <;> simp [Consuming.inHand, hplaces, LoopAt.message?]
  refine ⟨hone, ?_, ?_⟩
  · rw [ringSeen_append, hring, List.append_nil, Consuming.consumer, hpopping, hbuffer, hproducer]
    exact h.sync
  · rw [ringSeen_append, hring, delivered_append, hdel, List.append_nil, List.append_nil, hhand]
    exact h.once

theorem filterMap_cons_eq {α β : Type} (f : α → Option β) (a : α) (l : List α) :
    (a :: l).filterMap f = (f a).toList ++ l.filterMap f := by
  cases ha : f a <;> simp [ha]

/-- **A step of a loop.** -/
theorem loop (h : Fed capacity ls s) (ht : s.threads[n]? = some t)
    (hs : LoopStep capacity t.stopFlag s.buffer t.place l b place)
    (hone : Consuming.control { s with buffer := b, threads := s.threads.set n { t with place := place } } |>.OneConsumer) :
    Fed capacity (ls ++ [l]) { s with buffer := b, threads := s.threads.set n { t with place := place } } := by
  obtain ⟨pre, post, hlen, hbefore, hafter⟩ := exists_split ht place
  refine ⟨hone, ?_, ?_⟩
  · by_cases hpop : t.control.CanPop
    · -- the loop is the buffer's consumer
      obtain ⟨hpre, hpost⟩ := popping_eq_none h.one ht hpop hlen hbefore
      have hsync := h.sync
      have hconsumer (a : LoopAt τ) : ((pre ++ a :: post).filterMap LoopAt.popping?).head?.getD Consumer.idle =
          a.popping?.getD .idle := by
        cases ha : a.popping? <;> simp [hpre, hpost, ha]
      rw [Consuming.consumer, hbefore, hconsumer] at hsync
      rw [Consuming.consumer, places_mk, hafter, hconsumer, ringSeen_append]
      rcases hs.buffer_step with ⟨rfl, hring, hsame⟩ | ⟨l', rfl, hc⟩
      · rw [hring, List.append_nil, hsame]
        exact hsync
      · exact hsync.consumer_step hc
    · obtain ⟨rfl, hring, hnone, hnone'⟩ := hs.elsewhere hpop
      have hsync := h.sync
      rw [Consuming.consumer, hbefore, List.filterMap_append, List.filterMap_cons_none hnone] at hsync
      rw [Consuming.consumer, places_mk, hafter, ringSeen_append, hring, List.append_nil, List.filterMap_append,
        List.filterMap_cons_none hnone']
      exact hsync
  · classical
    have honce := h.once
    have hconserves := hs.conserves
    rw [Consuming.inHand, hbefore] at honce
    rw [Consuming.inHand, places_mk, hafter, ringSeen_append, popped_append, delivered_append]
    rw [List.perm_iff_count] at honce ⊢
    intro x
    have honce := honce x
    have hcount := congrArg (List.count x) hconserves
    simp only [List.count_append, List.filterMap_append, filterMap_cons_eq] at honce hcount ⊢
    omega

/-- **Every step keeps the invariant**, if it starts no thread while a loop can still pop. -/
theorem step (h : Fed capacity ls s) (hs : Consuming.StepWhen Consuming.Quiet capacity s l s') :
    Fed capacity (ls ++ [l]) s' := by
  obtain ⟨hs, hquiet⟩ := hs
  have hone : s'.control.OneConsumer := by
    rcases hs.control with hstep | ⟨-, hsame⟩
    · refine (h.one.step hstep).mpr fun hcall => hquiet ?_
      cases l <;> cases hcall
      rfl
    · rw [hsame]
      exact h.one
  cases hs with
  | @produce l b p hp =>
    refine ⟨hone, ?_, ?_⟩
    · rw [ringSeen_append]
      exact h.sync.producer_step hp
    · have hpop : popped (ringSeen [Seen.ring l]) = [] := hp.popped_eq_nil
      have hdel : delivered [Seen.ring l] = [] := rfl
      rw [ringSeen_append, popped_append, delivered_append, hpop, hdel, List.append_nil, List.append_nil]
      exact h.once
  | loop n hmove =>
    cases hmove with
    | move ht hloop => exact h.loop ht hloop hone
  | caller hmove => exact h.caller hone hmove

/-- **Every run keeps the invariant.** -/
theorem run (hcap : 0 < capacity) {cells : ℕ → τ}
    (h : Run (Consuming.StepWhen Consuming.Quiet capacity) (Consuming.create cells) ls s) : Fed capacity ls s :=
  h.invariant (Fed capacity) (start hcap cells) fun _ _ _ _ h hs => h.step hs

end Fed

/-- **Each message once**: with every thread started when no loop can still pop, over every
interleaving of the producer, the loops and the calls, what has been popped and what is in the
buffer is what has been published, and what has been popped has been handed to the callback,
each message once, but for the messages in hand. -/
theorem delivered_once {capacity : ℕ} (hcap : 0 < capacity) {cells : ℕ → τ} {ls : List (Seen τ)} {s : Consuming τ}
    (h : Run (Consuming.StepWhen Consuming.Quiet capacity) (Consuming.create cells) ls s) :
    popped (ringSeen ls) ++ s.buffer.items capacity = published (ringSeen ls) ∧
      (delivered ls ++ s.inHand).Perm (popped (ringSeen ls)) := by
  have hfed := Fed.run hcap h
  exact ⟨hfed.sync.fifo.symm, hfed.once.symm⟩

/-- A message that is in hand when a second thread is started. -/
theorem delivered_once_one : ∃ ls, ∃ s : Consuming ℕ, delivered ls = [7] ∧ s.threads.length = 2 ∧
    popped (ringSeen ls) ++ s.buffer.items 2 = published (ringSeen ls) ∧
      (delivered ls ++ s.inHand).Perm (popped (ringSeen ls)) := by
  have hrun : Run (Consuming.StepWhen Consuming.Quiet 2) (Consuming.create fun _ => 0) _ _ :=
    Run.nil
      |>.snoc ⟨.caller (.start rfl), fun _ => nofun⟩
      |>.snoc ⟨.caller (.assign rfl), nofun⟩
      |>.snoc ⟨.produce (.call _ .tryPush 7), nofun⟩
      |>.snoc ⟨.produce (.loadHead _ _ _), nofun⟩
      |>.snoc ⟨.produce (.notFull _ _ (by decide)), nofun⟩
      |>.snoc ⟨.produce (.write _ _ _), nofun⟩
      |>.snoc ⟨.produce (.storeHead _ _ _), nofun⟩
      |>.snoc ⟨.loop 0 (.move rfl (.goOn _)), nofun⟩
      |>.snoc ⟨.loop 0 (.move rfl (.access (.loadTail _))), nofun⟩
      |>.snoc ⟨.loop 0 (.move rfl (.access (.notEmpty (by decide)))), nofun⟩
      |>.snoc ⟨.loop 0 (.move rfl (.access (.read _ _))), nofun⟩
      |>.snoc ⟨.loop 0 (.move rfl (.popped (.storeTail _ _ _))), nofun⟩
      |>.snoc ⟨.caller (.stop rfl), nofun⟩
      |>.snoc ⟨.caller (.start rfl), fun _ t ht => by obtain rfl := List.mem_singleton.mp ht; decide⟩
      |>.snoc ⟨.loop 0 (.move rfl (.callback _ _ _)), nofun⟩
  exact ⟨_, _, rfl, rfl, delivered_once (by decide) hrun⟩

end Scrimmage.Common
