import Scrimmage.Theory.Transition
import Mathlib.Logic.Function.Iterate
import Mathlib.Data.List.Basic
import Mathlib.Tactic.Common

/-!
# The thread of a ring buffer's consumer

`SpScRingBufferConsumer` of `SpScRingBufferConsumer.h`: a thread that pops from a ring
buffer in a loop until it is told to stop. `start` makes a new thread and puts it in the
place of the one before, which is stopped and waited for when it is destroyed, after the new
one has been started. `stop` sets a flag and waits for nothing.

## The model

* A `ConsumeLoop` is a thread in `consumeLoop`, with the flag its token reads; threads are
  known by their number, in the order they were started.
* `Step` interleaves the steps of the thread that calls `start` and `stop` with those of the
  loops. A step is labelled with the call it begins, if any. The assignment of `start`
  replaces the pointer and then destroys the thread it pointed to: the destructor of
  `PinnedThread` sets the flag and joins.
* A message that is popped and the callback have no part in where the threads are.

## What is proved

* `ConsumeLoop.canPop_iff`: which loops can still execute `tryPop`.
* `OneConsumer.step`: a step keeps it to one of them unless it starts a thread while a loop
  can still pop.
* `one_consumer_iff`: so it is along an interleaving of a sequence of calls exactly when no
  step of it does, and over all of them exactly when `start` is called at most once.
  `two_consumers` is a restart that goes wrong.
-/

namespace Scrimmage.Common

open Theory

/-- Where a loop is: what it does next. -/
inductive LoopPlace where
  /-- `token.stopRequested()`. -/
  | check
  /-- `_buffer.tryPop(_message)`. -/
  | tryPop
  /-- `_callback(_message)` and `_spinner.reset()`, or `_spinner.spin()`. -/
  | handle
  /-- Nothing: the loop is left. -/
  | left
  deriving DecidableEq

/-- A `PinnedThread` that runs `consumeLoop`. -/
structure ConsumeLoop where
  /-- Where the loop is. -/
  place : LoopPlace
  /-- `_stopFlag`. -/
  stopFlag : Bool
  deriving DecidableEq

namespace ConsumeLoop

/-- `PinnedThread(worker)`: the thread is started. -/
def create : ConsumeLoop := ⟨.check, false⟩

/-- `requestStop`. -/
def requestStop (t : ConsumeLoop) : ConsumeLoop := { t with stopFlag := true }

/-- The next step of a loop, until it is left. -/
def next (t : ConsumeLoop) : ConsumeLoop :=
  match t.place with
  | .check => { t with place := if t.stopFlag then .left else .tryPop }
  | .tryPop => { t with place := .handle }
  | .handle => { t with place := .check }
  | .left => t

/-- The loop can still execute `tryPop`: it is about to, or has not been told to stop. -/
def CanPop (t : ConsumeLoop) : Prop := t.place = .tryPop ∨ t.place ≠ .left ∧ t.stopFlag = false

instance (t : ConsumeLoop) : Decidable t.CanPop :=
  inferInstanceAs (Decidable (t.place = .tryPop ∨ t.place ≠ .left ∧ t.stopFlag = false))

end ConsumeLoop

/-- The calls. -/
inductive ConsumerCall where
  /-- `start`. -/
  | start
  /-- `stop`. -/
  | stop
  deriving DecidableEq

/-- Where the calling thread is: what it does next. -/
inductive CallerPlace where
  /-- The next call. -/
  | idle
  /-- `_pinnedThread = ` the new thread. -/
  | assign (new : ℕ)
  /-- `requestStop` in the destructor of the old thread. -/
  | requestStop (old : ℕ)
  /-- `_thread.join()` in the destructor of the old thread. -/
  | join (old : ℕ)
  deriving DecidableEq

/-- A consumer, its threads and its caller. -/
structure SpScRingBufferConsumer where
  /-- The threads started. -/
  threads : List ConsumeLoop
  /-- `_pinnedThread`. -/
  pinnedThread : Option ℕ
  /-- Where the caller is. -/
  caller : CallerPlace
  deriving DecidableEq

namespace SpScRingBufferConsumer

/-- `SpScRingBufferConsumer(buffer, callback)`. -/
def create : SpScRingBufferConsumer := ⟨[], none, .idle⟩

/-- The steps, with the call that a step begins. -/
inductive Step : SpScRingBufferConsumer → Option ConsumerCall → SpScRingBufferConsumer → Prop where
  /-- `start`, with the new thread of `make_unique`. -/
  | start {s} : s.caller = .idle →
      Step s (some .start) { s with threads := s.threads ++ [.create], caller := .assign s.threads.length }
  /-- The pointer is replaced. -/
  | assign {s new} : s.caller = .assign new →
      Step s none { s with
        pinnedThread := some new
        caller := match s.pinnedThread with
          | none => .idle
          | some old => .requestStop old }
  /-- The old thread is told to stop. -/
  | requestStop {s old} : s.caller = .requestStop old →
      Step s none { s with threads := s.threads.modify old ConsumeLoop.requestStop, caller := .join old }
  /-- Its loop has been left. -/
  | join {s old t} : s.caller = .join old → s.threads[old]? = some t → t.place = .left →
      Step s none { s with caller := .idle }
  /-- `stop`. -/
  | stop {s} : s.caller = .idle →
      Step s (some .stop) { s with
        threads := match s.pinnedThread with
          | none => s.threads
          | some n => s.threads.modify n ConsumeLoop.requestStop }
  /-- A step of the loop of the thread `n`. -/
  | loop {s} (n : ℕ) : Step s none { s with threads := s.threads.modify n ConsumeLoop.next }

/-- **One consumer**: no two loops can still execute `tryPop`. -/
def OneConsumer (s : SpScRingBufferConsumer) : Prop :=
  ∀ (i j : ℕ) (t u : ConsumeLoop), s.threads[i]? = some t → s.threads[j]? = some u → t.CanPop → u.CanPop → i = j

/-- No loop can still execute `tryPop`. -/
def Quiet (s : SpScRingBufferConsumer) : Prop := ∀ t ∈ s.threads, ¬ t.CanPop

/-- The calls begun along a run. -/
def callsOf (ls : List (Option ConsumerCall)) : List ConsumerCall := ls.filterMap id

end SpScRingBufferConsumer

/-! ### Loops -/

namespace ConsumeLoop

theorem canPop_create : create.CanPop := Or.inr ⟨by decide, rfl⟩

/-- A loop that cannot pop after a step cannot before it. -/
theorem CanPop.of_next {t : ConsumeLoop} (h : t.next.CanPop) : t.CanPop := by
  obtain ⟨place, stopFlag⟩ := t
  cases place <;> cases stopFlag <;> revert h <;> decide

theorem CanPop.of_requestStop {t : ConsumeLoop} (h : t.requestStop.CanPop) : t.CanPop := by
  rcases h with h | ⟨-, h⟩
  · exact Or.inl h
  · cases h

/-- **Which loops can still execute `tryPop`**: those that come to it by steps of their own. -/
theorem canPop_iff (t : ConsumeLoop) : t.CanPop ↔ ∃ k, (next^[k] t).place = .tryPop := by
  constructor
  · rintro (h | ⟨hleft, hflag⟩)
    · exact ⟨0, h⟩
    · obtain ⟨place, stopFlag⟩ := t
      obtain rfl : stopFlag = false := hflag
      cases place with
      | check => exact ⟨1, rfl⟩
      | tryPop => exact ⟨0, rfl⟩
      | handle => exact ⟨2, rfl⟩
      | left => exact absurd rfl hleft
  · rintro ⟨k, hk⟩
    induction k generalizing t with
    | zero => exact Or.inl hk
    | succ k ih => exact (ih t.next hk).of_next

end ConsumeLoop

/-! ### Steps -/

namespace SpScRingBufferConsumer

section Steps

variable {s s' : SpScRingBufferConsumer} {l : Option ConsumerCall}

/-- A change of one thread after which it pops only if it could before. -/
theorem OneConsumer.modify (h : s.OneConsumer) {n : ℕ} {f : ConsumeLoop → ConsumeLoop}
    (hf : ∀ t, (f t).CanPop → t.CanPop) {threads : List ConsumeLoop} (hthreads : threads = s.threads.modify n f)
    {pinnedThread : Option ℕ} {caller : CallerPlace} : OneConsumer ⟨threads, pinnedThread, caller⟩ := by
  have hold {i : ℕ} {t : ConsumeLoop} (ht : threads[i]? = some t) (hpop : t.CanPop) :
      ∃ t', s.threads[i]? = some t' ∧ t'.CanPop := by
    rw [hthreads, List.getElem?_modify] at ht
    obtain ⟨t', ht', heq⟩ := Option.map_eq_some_iff.mp ht
    refine ⟨t', ht', ?_⟩
    rw [← heq] at hpop
    split_ifs at hpop
    · exact hf t' hpop
    · exact hpop
  intro i j t u hi hj ht hu
  obtain ⟨t', hi', ht'⟩ := hold hi ht
  obtain ⟨u', hj', hu'⟩ := hold hj hu
  exact h i j t' u' hi' hj' ht' hu'

/-- **A new thread** keeps one consumer exactly when no loop can still pop. -/
theorem oneConsumer_start_iff {pinnedThread : Option ℕ} {caller : CallerPlace} :
    OneConsumer ⟨s.threads ++ [.create], pinnedThread, caller⟩ ↔ s.Quiet := by
  have hlast : (s.threads ++ [ConsumeLoop.create])[s.threads.length]? = some .create := by simp
  constructor
  · intro hone t ht hpop
    obtain ⟨i, hi, rfl⟩ := List.mem_iff_getElem.mp ht
    have hget : (s.threads ++ [ConsumeLoop.create])[i]? = some s.threads[i] := by
      rw [List.getElem?_append_left hi, List.getElem?_eq_getElem hi]
    have := hone i s.threads.length _ _ hget hlast hpop ConsumeLoop.canPop_create
    omega
  · intro hquiet i j t u hi hj ht hu
    have hnew {i : ℕ} {t : ConsumeLoop} (hi : (s.threads ++ [ConsumeLoop.create])[i]? = some t) (ht : t.CanPop) :
        i = s.threads.length := by
      have hlt := (List.getElem?_eq_some_iff.mp hi).1
      rw [List.length_append, List.length_singleton] at hlt
      by_contra hne
      rw [List.getElem?_append_left (by omega)] at hi
      exact hquiet t (List.mem_of_getElem? hi) ht
    rw [hnew hi ht, hnew hj hu]

/-- **What a step does**: it keeps one consumer unless it starts a thread while a loop can
still pop. -/
theorem OneConsumer.step (h : s.OneConsumer) (hs : Step s l s') :
    s'.OneConsumer ↔ (l = some .start → s.Quiet) := by
  cases hs with
  | start => simpa using oneConsumer_start_iff
  | assign | join => exact iff_of_true h fun hl => by cases hl
  | requestStop =>
    exact iff_of_true (h.modify (fun t => ConsumeLoop.CanPop.of_requestStop) rfl) fun hl => by cases hl
  | stop =>
    refine iff_of_true ?_ fun hl => by cases hl
    cases hp : s.pinnedThread with
    | none => exact h
    | some n => exact h.modify (fun t => ConsumeLoop.CanPop.of_requestStop) rfl
  | loop n => exact iff_of_true (h.modify (fun t => ConsumeLoop.CanPop.of_next) rfl) fun hl => by cases hl

end Steps

theorem oneConsumer_create : create.OneConsumer := by
  intro i j t u hi
  cases hi

/-- **One consumer along a run**: in every state of it, exactly when each thread is started
while no loop can still pop. -/
theorem oneConsumer_along_iff (run : ℕ → SpScRingBufferConsumer) (l : ℕ → Option ConsumerCall) (n : ℕ)
    (hstart : run 0 = create) (hstep : ∀ k < n, Step (run k) (l k) (run (k + 1))) :
    (∀ k ≤ n, (run k).OneConsumer) ↔ ∀ k < n, l k = some .start → (run k).Quiet := by
  refine holds_along_iff ?_ fun k hk hone => hone.step (hstep k hk)
  rw [hstart]
  exact oneConsumer_create

/-! ### Sequences of calls -/

section Calls

variable {s s' : SpScRingBufferConsumer} {l : Option ConsumerCall} {ls : List (Option ConsumerCall)}

@[simp] theorem callsOf_append (ls ls' : List (Option ConsumerCall)) : callsOf (ls ++ ls') = callsOf ls ++ callsOf ls' :=
  List.filterMap_append

/-- There are as many threads as calls of `start`. -/
theorem length_threads (h : Run Step create ls s) : s.threads.length = (callsOf ls).count .start := by
  refine h.invariant (fun ls s => s.threads.length = (callsOf ls).count .start) rfl fun ls s l s' hlen hs => ?_
  rw [callsOf_append, List.count_append, ← hlen]
  cases hs with
  | start => simp [callsOf]
  | stop => cases hp : s.pinnedThread <;> simp [callsOf]
  | assign | requestStop | join | loop n => simp [callsOf]

/-- With `start` called at most once there is one thread. -/
theorem oneConsumer_of_count (h : Run Step create ls s) (hcount : (callsOf ls).count .start ≤ 1) : s.OneConsumer := by
  have hlen := length_threads h
  intro i j t u hi hj _ _
  have := (List.getElem?_eq_some_iff.mp hi).1
  have := (List.getElem?_eq_some_iff.mp hj).1
  omega

theorem map_place_requestStop (threads : List ConsumeLoop) (n : ℕ) :
    (threads.modify n ConsumeLoop.requestStop).map ConsumeLoop.place = threads.map ConsumeLoop.place := by
  apply List.ext_getElem?
  intro i
  rw [List.getElem?_map, List.getElem?_map, List.getElem?_modify, Option.map_eq_map, Option.map_map]
  cases threads[i]? with
  | none => rfl
  | some t =>
    rw [Option.map_some, Option.map_some, Function.comp_apply]
    split_ifs <;> rfl

/-- Calls of `stop` leave the loops where they are. -/
theorem run_stops (h : Run Step create ls s) (hidle : s.caller = .idle) {calls : List ConsumerCall}
    (hstops : .start ∉ calls) :
    ∃ ls' s', Run Step create ls' s' ∧ callsOf ls' = callsOf ls ++ calls ∧ s'.caller = .idle ∧
      s'.pinnedThread = s.pinnedThread ∧ s'.threads.map ConsumeLoop.place = s.threads.map ConsumeLoop.place := by
  induction calls generalizing ls s with
  | nil => exact ⟨ls, s, h, by simp, hidle, rfl, rfl⟩
  | cons c calls ih =>
    rw [List.mem_cons, not_or] at hstops
    cases c with
    | start => exact absurd rfl hstops.1
    | stop =>
      obtain ⟨ls', s', hrun, hcalls, hidle', hptr, hplace⟩ := ih (h.snoc (.stop hidle)) hidle hstops.2
      refine ⟨ls', s', hrun, by simpa [callsOf] using hcalls, hidle', hptr, hplace.trans ?_⟩
      cases s.pinnedThread with
      | none => rfl
      | some n => exact map_place_requestStop s.threads n

/-- **A second `start`** can start its thread when the first is about to pop, whatever calls
of `stop` there are between the two. -/
theorem exists_two_consumers {pre mid : List ConsumerCall} (hpre : .start ∉ pre) (hmid : .start ∉ mid) :
    ∃ ls s, Run Step create ls s ∧ callsOf ls = pre ++ .start :: mid ++ [.start] ∧ ¬ s.OneConsumer := by
  obtain ⟨ls₁, s₁, h₁, hcalls₁, hidle₁, hptr₁, hplace₁⟩ := run_stops .nil rfl hpre
  obtain ⟨threads, pinnedThread, caller⟩ := s₁
  obtain rfl : threads = [] := List.map_eq_nil_iff.mp hplace₁
  obtain rfl : pinnedThread = none := hptr₁
  obtain rfl : caller = .idle := hidle₁
  -- the first thread is started and reads that it is not to stop
  have h₂ := ((h₁.snoc (.start rfl)).snoc (.assign rfl)).snoc (.loop 0)
  obtain ⟨ls₃, s₃, h₃, hcalls₃, hidle₃, -, hplace₃⟩ := run_stops h₂ rfl hmid
  refine ⟨_, _, h₃.snoc (.start hidle₃), ?_, fun hone => ?_⟩
  · rw [callsOf_append, hcalls₃, callsOf_append, callsOf_append, callsOf_append, hcalls₁]
    simp [callsOf]
  · have hpop : LoopPlace.tryPop ∈ s₃.threads.map ConsumeLoop.place := by
      rw [hplace₃]
      exact List.mem_singleton_self _
    obtain ⟨t, ht, hplace⟩ := List.mem_map.mp hpop
    exact oneConsumer_start_iff.mp hone t ht (Or.inl hplace)

/-- **Over all interleavings** of a sequence of calls there is one consumer exactly when
`start` is called at most once. -/
theorem oneConsumer_calls_iff (calls : List ConsumerCall) :
    (∀ ls s, Run Step create ls s → callsOf ls <+: calls → s.OneConsumer) ↔ calls.count .start ≤ 1 := by
  constructor
  · intro hall
    by_contra hcount
    obtain ⟨pre, rest, rfl, hpre⟩ := List.eq_append_cons_of_mem (List.count_pos_iff.mp (by omega : 0 < calls.count .start))
    have hrest : 0 < rest.count .start := by
      rw [List.count_append, List.count_eq_zero_of_not_mem hpre, List.count_cons_self] at hcount
      omega
    obtain ⟨mid, post, rfl, hmid⟩ := List.eq_append_cons_of_mem (List.count_pos_iff.mp hrest)
    obtain ⟨ls, s, hrun, hcalls, htwo⟩ := exists_two_consumers hpre hmid
    exact htwo (hall ls s hrun ⟨post, by rw [hcalls]; simp⟩)
  · intro hcount ls s hrun hpre
    exact oneConsumer_of_count hrun (Nat.le_trans (hpre.sublist.count_le _) hcount)

/-- **When there is one consumer**, for a sequence of calls: over all its interleavings no two
loops can ever still execute `tryPop` exactly when it has at most one call of `start`; and
along one interleaving of it exactly when each call of `start` comes when no loop can. -/
theorem one_consumer_iff (calls : List ConsumerCall) :
    ((∀ ls s, Run Step create ls s → callsOf ls <+: calls → s.OneConsumer) ↔ calls.count .start ≤ 1) ∧
    ∀ (run : ℕ → SpScRingBufferConsumer) (l : ℕ → Option ConsumerCall) (n : ℕ), run 0 = create →
      (∀ k < n, Step (run k) (l k) (run (k + 1))) → callsOf ((List.range n).map l) <+: calls →
      ((∀ k ≤ n, (run k).OneConsumer) ↔ ∀ k < n, l k = some .start → (run k).Quiet) :=
  ⟨oneConsumer_calls_iff calls, fun run l n hstart hstep _ => oneConsumer_along_iff run l n hstart hstep⟩

/-- A restart: the first thread has read its flag when it is told to stop, and a second one
is started before it pops. -/
theorem two_consumers :
    ¬ ∀ ls s, Run Step create ls s → callsOf ls <+: [.start, .stop, .start] → s.OneConsumer := by
  intro hall
  have h₁ : Run Step create _ ⟨[⟨.tryPop, false⟩], some 0, .idle⟩ :=
    ((Run.nil.snoc (.start rfl)).snoc (.assign rfl)).snoc (.loop 0)
  have h₂ : Run Step create _ ⟨[⟨.tryPop, true⟩, ⟨.check, false⟩], some 0, .assign 1⟩ :=
    (h₁.snoc (.stop rfl)).snoc (.start rfl)
  have := hall _ _ h₂ (by decide) 0 1 _ _ rfl rfl (by decide) (by decide)
  cases this

end Calls

end SpScRingBufferConsumer

end Scrimmage.Common
