import Scrimmage.Theory.Transition
import Mathlib.Data.List.Chain
import Mathlib.Data.List.Induction
import Mathlib.Algebra.Order.Ring.Int
import Mathlib.Tactic.Common

/-!
# Heartbeats

`TcpHeartbeat` of `TcpHeartbeat.h`: a thread that calls `_heartbeatFunction` again and again, and
waits in between until the interval is over since the last turn began; first in `sleep_for`, if
there is much time, and the last 50 microseconds in a loop that reads the clock.

## The model

* Times are nanoseconds of `steady_clock`, which does not go back. Between two steps any time may
  pass, and `sleep_for` does not return before its time is over.
* One thread calls `start` and `stop`. An assignment to a thread that is joinable terminates the
  process.

## What is proved

* `heartbeats_paced`: the turns of a thread begin at least an interval apart, and the `n`th heartbeat
  comes in the `n`th turn; so it does not come before `n` intervals are over.
* `heartbeat_stops`: no call of `start` or `stop` terminates the process, there are never two
  threads, and after `stop` is called there is no more than one heartbeat.
-/

namespace Scrimmage.Networking

open Theory

/-- 50 microseconds. -/
def spinNanos : ℤ := 50000

/-- Where the thread is: what it does next. -/
inductive BeatPlace where
  /-- `_running.load`. -/
  | check
  /-- To read the clock for `loopStart`. -/
  | begin
  /-- `_heartbeatFunction()`. -/
  | beat (loopStart : ℤ)
  /-- To read the clock for `loopEnd`. -/
  | finish (loopStart : ℤ)
  /-- `sleep_for`. -/
  | sleepFor (duration : ℤ)
  /-- In `sleep_for`. -/
  | asleep (wake : ℤ)
  /-- Behind it, to read the clock for `target`. -/
  | awake
  /-- In the loop that waits for `target`. -/
  | spin (target : ℤ)
  /-- Nothing: the thread has ended. -/
  | ended

/-- Where the caller of `start` and `stop` is. -/
inductive BeatCaller where
  /-- In neither. -/
  | idle
  /-- In `start`, before the assignment to `_thread`. -/
  | starting
  /-- In `stop`, at `_thread`. -/
  | joining
  deriving DecidableEq

/-- A heartbeat, and the clock. -/
structure TcpHeartbeat where
  /-- `_running`. -/
  running : Bool
  /-- `_thread`, if it is joinable. -/
  thread : Option BeatPlace
  /-- What the clock reads. -/
  now : ℤ
  /-- Where the caller is. -/
  caller : BeatCaller

/-- What can be seen of a step. -/
inductive BeatEvent where
  /-- Nothing. -/
  | silent
  /-- `start` is called. -/
  | starting
  /-- A thread is created. -/
  | spawned
  /-- A thread is assigned to one that is joinable. -/
  | terminated
  /-- `stop` is called. -/
  | stopping
  /-- `stop` returns. -/
  | stopped
  /-- A turn of the loop begins. -/
  | turn (loopStart : ℤ)
  /-- A heartbeat. -/
  | beat (time : ℤ)
  deriving DecidableEq

/-- What comes after `loopEnd` is read. -/
def afterBeat (interval loopStart loopEnd : ℤ) : BeatPlace :=
  let elapsed := loopEnd - loopStart
  if elapsed < interval then
    let remaining := interval - elapsed
    if remaining < spinNanos then .spin (loopEnd + remaining) else .sleepFor (remaining - spinNanos)
  else .check

namespace TcpHeartbeat

/-- `TcpHeartbeat(heartbeatFunction, intervalDuration)`. -/
def create (now : ℤ) : TcpHeartbeat := ⟨false, none, now, .idle⟩

/-- The steps of the thread. -/
inductive LoopStep (interval now : ℤ) (running : Bool) : BeatPlace → BeatEvent → BeatPlace → Prop where
  | enter : running = true → LoopStep interval now running .check .silent .begin
  | leave : running = false → LoopStep interval now running .check .silent .ended
  | turn : LoopStep interval now running .begin (.turn now) (.beat now)
  | beat (loopStart : ℤ) : LoopStep interval now running (.beat loopStart) (.beat now) (.finish loopStart)
  | finish (loopStart : ℤ) :
    LoopStep interval now running (.finish loopStart) .silent (afterBeat interval loopStart now)
  | sleepFor (duration : ℤ) : LoopStep interval now running (.sleepFor duration) .silent (.asleep (now + duration))
  | wake {wake : ℤ} : wake ≤ now → LoopStep interval now running (.asleep wake) .silent .awake
  | awake : LoopStep interval now running .awake .silent (.spin (now + spinNanos))
  | spin {target : ℤ} : now < target → LoopStep interval now running (.spin target) .silent (.spin target)
  | due {target : ℤ} : target ≤ now → LoopStep interval now running (.spin target) .silent .check

/-- **The steps.** -/
inductive Step (interval : ℤ) : TcpHeartbeat → BeatEvent → TcpHeartbeat → Prop where
  /-- `start` of one that is running. -/
  | alreadyRunning {s : TcpHeartbeat} : s.caller = .idle → s.running = true → Step interval s .starting s
  | start {s : TcpHeartbeat} : s.caller = .idle → s.running = false →
    Step interval s .starting { s with running := true, caller := .starting }
  | spawn {s : TcpHeartbeat} : s.caller = .starting → s.thread = none →
    Step interval s .spawned { s with thread := some .check, caller := .idle }
  | terminate {s : TcpHeartbeat} {p : BeatPlace} : s.caller = .starting → s.thread = some p →
    Step interval s .terminated s
  | stop {s : TcpHeartbeat} : s.caller = .idle → Step interval s .stopping { s with running := false, caller := .joining }
  | notJoinable {s : TcpHeartbeat} : s.caller = .joining → s.thread = none →
    Step interval s .stopped { s with caller := .idle }
  | join {s : TcpHeartbeat} : s.caller = .joining → s.thread = some .ended →
    Step interval s .stopped { s with thread := none, caller := .idle }
  | loop {s : TcpHeartbeat} {p p' : BeatPlace} {e : BeatEvent} : s.thread = some p →
    LoopStep interval s.now s.running p e p' → Step interval s e { s with thread := some p' }
  | tick {s : TcpHeartbeat} {now : ℤ} : s.now ≤ now → Step interval s .silent { s with now := now }

end TcpHeartbeat

/-- When the turns began. -/
def turns (trace : List BeatEvent) : List ℤ :=
  trace.filterMap fun
    | .turn time => some time
    | _ => none

/-- When there was a heartbeat. -/
def beats (trace : List BeatEvent) : List ℤ :=
  trace.filterMap fun
    | .beat time => some time
    | _ => none

@[simp] theorem turns_append (l l' : List BeatEvent) : turns (l ++ l') = turns l ++ turns l' := List.filterMap_append

@[simp] theorem beats_append (l l' : List BeatEvent) : beats (l ++ l') = beats l ++ beats l' := List.filterMap_append

/-! ### The pace -/

/-- **What is known where the thread is** of when the last turn began: the next does not begin before the
interval is over. -/
def BeatPlace.Due (interval last now : ℤ) : BeatPlace → Prop
  | .check | .begin => last + interval ≤ now
  | .beat loopStart | .finish loopStart => loopStart = last ∧ last ≤ now
  | .sleepFor duration => last + interval ≤ now + duration + spinNanos
  | .asleep wake => last + interval ≤ wake + spinNanos
  | .awake => last + interval ≤ now + spinNanos
  | .spin target => last + interval ≤ target
  | .ended => True

/-- In a turn, before its heartbeat. -/
def BeatPlace.owes : BeatPlace → ℕ
  | .beat _ => 1
  | _ => 0

/-- **The pace**: the turns have begun an interval apart, and each heartbeat came in its turn. -/
structure Paced (interval : ℤ) (trace : List BeatEvent) (now : ℤ) (p : BeatPlace) : Prop where
  chain : (turns trace).IsChain fun a b => a + interval ≤ b
  due : ∀ last ∈ (turns trace).getLast?, p.Due interval last now
  inTurn : ∀ (i : ℕ) (time : ℤ), (beats trace)[i]? = some time →
    ∃ loopStart, (turns trace)[i]? = some loopStart ∧ loopStart ≤ time
  beforeNext : ∀ (i : ℕ) (time next : ℤ), (beats trace)[i]? = some time → (turns trace)[i + 1]? = some next → time ≤ next
  owes : (turns trace).length = (beats trace).length + p.owes
  past : ∀ time ∈ turns trace, time ≤ now
  pastBeats : ∀ time ∈ beats trace, time ≤ now

namespace Paced

variable {interval now : ℤ} {running : Bool} {trace : List BeatEvent} {p p' : BeatPlace} {e : BeatEvent}

/-- A step that is neither a turn nor a heartbeat. -/
theorem quiet (h : Paced interval trace now p) (hturns : turns [e] = []) (hbeats : beats [e] = []) {later : ℤ}
    (hlater : now ≤ later) (howes : p'.owes = p.owes)
    (hdue : ∀ last, last ≤ now → p.Due interval last now → p'.Due interval last later) :
    Paced interval (trace ++ [e]) later p' := by
  have hmem (last : ℤ) (hlast : last ∈ (turns trace).getLast?) : last ≤ now := h.past last (List.mem_of_mem_getLast? hlast)
  constructor
  · simpa [hturns] using h.chain
  · intro last hlast
    rw [turns_append, hturns, List.append_nil] at hlast
    exact hdue last (hmem last hlast) (h.due last hlast)
  · simpa [hturns, hbeats] using h.inTurn
  · simpa [hturns, hbeats] using h.beforeNext
  · simpa [hturns, hbeats, howes] using h.owes
  · intro time htime
    rw [turns_append, hturns, List.append_nil] at htime
    exact (h.past time htime).trans hlater
  · intro time htime
    rw [beats_append, hbeats, List.append_nil] at htime
    exact (h.pastBeats time htime).trans hlater

/-- Time passes. -/
theorem tick (h : Paced interval trace now p) {later : ℤ} (hlater : now ≤ later) :
    Paced interval (trace ++ [.silent]) later p := by
  refine h.quiet rfl rfl hlater rfl fun last _ hdue => ?_
  cases p <;> simp only [BeatPlace.Due] at hdue ⊢ <;> omega

/-- **A turn begins**: the interval since the last began is over. -/
theorem turn (h : Paced interval trace now .begin) : Paced interval (trace ++ [.turn now]) now (.beat now) := by
  have howes : (turns trace).length = (beats trace).length := h.owes
  have hturns : turns (trace ++ [.turn now]) = turns trace ++ [now] := turns_append ..
  have hbeats : beats (trace ++ [.turn now]) = beats trace := (beats_append ..).trans (List.append_nil _)
  constructor
  · rw [hturns, List.isChain_append]
    exact ⟨h.chain, List.isChain_singleton _, fun last hlast next hnext => by
      cases hnext
      exact h.due last hlast⟩
  · intro last hlast
    rw [hturns, List.getLast?_concat] at hlast
    cases hlast
    exact ⟨rfl, le_rfl⟩
  · intro i time hi
    rw [hbeats] at hi
    obtain ⟨loopStart, hstart, hle⟩ := h.inTurn i time hi
    have hlt := (List.getElem?_eq_some_iff.mp hstart).1
    exact ⟨loopStart, by rw [hturns, List.getElem?_append_left hlt, hstart], hle⟩
  · intro i time next hi hnext
    rw [hbeats] at hi
    rw [hturns, List.getElem?_append] at hnext
    split_ifs at hnext with hlt
    · exact h.beforeNext i time next hi hnext
    · -- the turn that begins is the next
      obtain rfl : next = now := List.mem_singleton.mp (List.mem_of_getElem? hnext)
      exact h.pastBeats time (List.mem_of_getElem? hi)
  · rw [hturns, hbeats, List.length_append, howes]
    rfl
  · intro time htime
    rw [hturns, List.mem_append, List.mem_singleton] at htime
    rcases htime with htime | rfl
    · exact h.past time htime
    · exact le_rfl
  · rw [hbeats]
    exact h.pastBeats

/-- **The heartbeat of a turn**, which is the last. -/
theorem beat {loopStart : ℤ} (h : Paced interval trace now (.beat loopStart)) :
    Paced interval (trace ++ [.beat now]) now (.finish loopStart) := by
  have howes : (turns trace).length = (beats trace).length + 1 := h.owes
  have hturns : turns (trace ++ [.beat now]) = turns trace := (turns_append ..).trans (List.append_nil _)
  have hbeats : beats (trace ++ [.beat now]) = beats trace ++ [now] := beats_append ..
  constructor
  · rw [hturns]
    exact h.chain
  · rw [hturns]
    exact h.due
  · intro i time hi
    rw [hturns]
    rw [hbeats, List.getElem?_append] at hi
    split_ifs at hi with hlt
    · exact h.inTurn i time hi
    · -- the heartbeat that comes
      have hlast : i = (beats trace).length := by
        have hone := (List.getElem?_eq_some_iff.mp hi).1
        rw [List.length_singleton] at hone
        omega
      obtain rfl : time = now := List.mem_singleton.mp (List.mem_of_getElem? hi)
      have hin : i < (turns trace).length := by omega
      exact ⟨_, List.getElem?_eq_getElem hin, h.past _ (List.getElem_mem hin)⟩
  · intro i time next hi hnext
    rw [hturns] at hnext
    have hlt := (List.getElem?_eq_some_iff.mp hnext).1
    rw [hbeats, List.getElem?_append_left (by omega)] at hi
    exact h.beforeNext i time next hi hnext
  · rw [hturns, hbeats, List.length_append, howes]
    rfl
  · rw [hturns]
    exact h.past
  · intro time htime
    rw [hbeats, List.mem_append, List.mem_singleton] at htime
    rcases htime with htime | rfl
    · exact h.pastBeats time htime
    · exact le_rfl

/-- **Every step of the thread keeps the pace.** -/
theorem step (h : Paced interval trace now p) (hs : TcpHeartbeat.LoopStep interval now running p e p') :
    Paced interval (trace ++ [e]) now p' := by
  cases hs with
  | enter => exact h.quiet rfl rfl le_rfl rfl fun _ _ hdue => hdue
  | leave => exact h.quiet rfl rfl le_rfl rfl fun _ _ _ => trivial
  | turn => exact h.turn
  | beat loopStart => exact h.beat
  | finish loopStart =>
    refine h.quiet rfl rfl le_rfl ?_ fun last hlast hdue => ?_
    · simp only [afterBeat]
      split_ifs <;> rfl
    · obtain ⟨rfl, -⟩ := hdue
      simp only [afterBeat]
      split_ifs <;> simp only [BeatPlace.Due, spinNanos] at * <;> omega
  | sleepFor duration => exact h.quiet rfl rfl le_rfl rfl fun last _ hdue => hdue
  | wake hwake => exact h.quiet rfl rfl le_rfl rfl fun last _ hdue => by simp only [BeatPlace.Due] at hdue ⊢; omega
  | awake => exact h.quiet rfl rfl le_rfl rfl fun last _ hdue => hdue
  | spin _ => exact h.quiet rfl rfl le_rfl rfl fun last _ hdue => hdue
  | due hreached => exact h.quiet rfl rfl le_rfl rfl fun last _ hdue => by simp only [BeatPlace.Due] at hdue ⊢; omega

/-- The turns of a chain are as far apart as there are turns between them. -/
theorem apart (h : Paced interval trace now p) (i k : ℕ) {a b : ℤ} (ha : (turns trace)[i]? = some a)
    (hb : (turns trace)[i + k]? = some b) : a + k * interval ≤ b := by
  induction k generalizing b with
  | zero =>
    rw [Nat.add_zero, ha] at hb
    cases hb
    simp
  | succ k ih =>
    obtain ⟨hlt, rfl⟩ := List.getElem?_eq_some_iff.mp hb
    have hbefore := ih (List.getElem?_eq_getElem (by omega))
    have hnext := List.isChain_iff_getElem.mp h.chain (i + k) hlt
    push_cast
    rw [add_mul, one_mul, ← add_assoc]
    exact (add_le_add_left hbefore interval).trans hnext

end Paced

namespace TcpHeartbeat

variable {interval : ℤ} {s s' : TcpHeartbeat} {e : BeatEvent} {trace : List BeatEvent}

theorem paced_step (h : Paced interval trace s.now (s.thread.getD .ended)) (hs : Step interval s e s')
    (hspawn : e ≠ .spawned) : Paced interval (trace ++ [e]) s'.now (s'.thread.getD .ended) := by
  cases hs with
  | spawn => exact absurd rfl hspawn
  | alreadyRunning | start | terminate | stop | notJoinable =>
    exact h.quiet rfl rfl le_rfl rfl fun _ _ hdue => hdue
  | join _ hended => exact h.quiet rfl rfl le_rfl (by simp [hended]) fun _ _ _ => trivial
  | loop hp hloop =>
    rw [hp] at h
    exact h.step hloop
  | tick hnow => exact h.tick hnow

end TcpHeartbeat

/-- **Heartbeats are paced**: from where a thread has been created, over every run that creates no other,
and for whatever time the heartbeats themselves and the scheduler take, each turn has its heartbeat,
but perhaps the last, which comes when the turn has begun and before the next does, and the turns
begin an interval apart; so the `k`th heartbeat, the first being that of number 0, does not come
before `k` intervals are over since the first turn began. -/
theorem heartbeats_paced {interval : ℤ} {s s' : TcpHeartbeat} {trace : List BeatEvent} (hcreated : s.thread = some .check)
    (h : Run (TcpHeartbeat.Step interval) s trace s') (hspawn : .spawned ∉ trace) :
    ((beats trace).length ≤ (turns trace).length ∧ (turns trace).length ≤ (beats trace).length + 1) ∧
    (∀ (i : ℕ) (time : ℤ), (beats trace)[i]? = some time →
      (∃ loopStart, (turns trace)[i]? = some loopStart ∧ loopStart ≤ time) ∧
      ∀ next, (turns trace)[i + 1]? = some next → time ≤ next) ∧
    (∀ (i k : ℕ) (a b : ℤ), (turns trace)[i]? = some a → (turns trace)[i + k]? = some b → a + k * interval ≤ b) ∧
    ∀ (k : ℕ) (first time : ℤ), (turns trace)[0]? = some first → (beats trace)[k]? = some time →
      first + k * interval ≤ time := by
  have hpaced : Paced interval trace s'.now (s'.thread.getD .ended) := by
    induction h with
    | nil =>
      rw [hcreated]
      exact ⟨List.isChain_nil, nofun, fun i time hi => by simp [beats] at hi, fun i time next hi => by simp [beats] at hi,
        rfl, nofun, nofun⟩
    | @snoc trace s₁ s₂ e _ hs ih =>
      exact TcpHeartbeat.paced_step (ih fun hmem => hspawn (List.mem_append_left _ hmem)) hs fun he => hspawn (by simp [he])
  refine ⟨?_, fun i time hi => ⟨hpaced.inTurn i time hi, fun next hnext => hpaced.beforeNext i time next hi hnext⟩,
    fun i k a b => hpaced.apart i k, fun k first time hfirst htime => ?_⟩
  · have howes := hpaced.owes
    have hone : (s'.thread.getD .ended).owes ≤ 1 := by
      cases s'.thread.getD .ended <;> simp [BeatPlace.owes]
    omega
  · obtain ⟨loopStart, hstart, hle⟩ := hpaced.inTurn k time htime
    exact (hpaced.apart 0 k hfirst (by rwa [Nat.zero_add])).trans hle

/-- Two turns of 60 microseconds, of which ten are slept. -/
theorem heartbeats_paced_two : ∃ trace s', Run (TcpHeartbeat.Step 60000) ⟨true, some .check, 0, .idle⟩ trace s' ∧
    turns trace = [0, 60000] ∧ beats trace = [0, 60000] ∧ (0 : ℤ) + (1 : ℕ) * 60000 ≤ 60000 := by
  have h0 : Run (TcpHeartbeat.Step 60000) ⟨true, some .check, 0, .idle⟩ [] _ := .nil
  have h1 := h0.snoc (.loop rfl (.enter rfl))
  have h2 := h1.snoc (.loop rfl .turn)
  have h3 := h2.snoc (.loop rfl (.beat _))
  have h4 := h3.snoc (.loop rfl (.finish _))
  have h5 := h4.snoc (.loop rfl (.sleepFor 10000))
  have h6 := h5.snoc (.tick (by decide : (0 : ℤ) ≤ 10000))
  have h7 := h6.snoc (.loop rfl (.wake (by decide)))
  have h8 := h7.snoc (.loop rfl .awake)
  have h9 := h8.snoc (.tick (by decide : (10000 : ℤ) ≤ 60000))
  have h10 := h9.snoc (.loop rfl (.due (by decide)))
  have h11 := h10.snoc (.loop rfl (.enter rfl))
  have h12 := h11.snoc (.loop rfl .turn)
  have h13 := h12.snoc (.loop rfl (.beat _))
  exact ⟨_, _, h13, rfl, rfl, (heartbeats_paced rfl h13 (by decide)).2.2.2 1 0 60000 rfl rfl⟩

/-! ### Starting and stopping -/

/-- How many heartbeats there can still be once the flag is cleared. -/
def BeatPlace.atMost : BeatPlace → ℕ
  | .begin | .beat _ => 1
  | _ => 0

/-- **What is in step with where the caller is.** -/
structure TcpHeartbeat.Guarded (s : TcpHeartbeat) : Prop where
  starting : s.caller = .starting → s.running = true ∧ s.thread = none
  joining : s.caller = .joining → s.running = false
  stopped : s.running = false → s.caller = .idle → s.thread = none

namespace TcpHeartbeat

variable {interval : ℤ} {s s' : TcpHeartbeat} {e : BeatEvent} {trace : List BeatEvent}

/-- **Every step keeps it**, and none terminates the process. -/
theorem Guarded.step (h : Guarded s) (hs : Step interval s e s') : Guarded s' ∧ e ≠ .terminated := by
  cases hs with
  | alreadyRunning => exact ⟨h, nofun⟩
  | start hidle hstopped => exact ⟨⟨fun _ => ⟨rfl, h.stopped hstopped hidle⟩, nofun, nofun⟩, nofun⟩
  | spawn hstarting _ =>
    have hrunning := (h.starting hstarting).1
    exact ⟨⟨nofun, nofun, fun hstopped => by simp [hrunning] at hstopped⟩, nofun⟩
  | terminate hstarting hp => simp [(h.starting hstarting).2] at hp
  | stop => exact ⟨⟨nofun, fun _ => rfl, nofun⟩, nofun⟩
  | notJoinable _ hnone => exact ⟨⟨nofun, nofun, fun _ _ => hnone⟩, nofun⟩
  | join => exact ⟨⟨nofun, nofun, fun _ _ => rfl⟩, nofun⟩
  | loop hp hloop =>
    refine ⟨⟨fun hstarting => ?_, h.joining, fun hstopped hidle => ?_⟩, ?_⟩
    · simp [(h.starting hstarting).2] at hp
    · simp [h.stopped hstopped hidle] at hp
    · cases hloop <;> nofun
  | tick => exact ⟨⟨h.starting, h.joining, h.stopped⟩, nofun⟩

theorem Guarded.create (now : ℤ) : Guarded (TcpHeartbeat.create now) where
  starting h := by cases h
  joining h := by cases h
  stopped _ _ := rfl

theorem Guarded.run {now : ℤ} (h : Run (Step interval) (TcpHeartbeat.create now) trace s) : Guarded s ∧ .terminated ∉ trace := by
  refine h.invariant (fun trace s => Guarded s ∧ .terminated ∉ trace) ⟨.create now, nofun⟩ ?_
  rintro trace s e s' ⟨hguarded, hnot⟩ hs
  obtain ⟨hguarded, hne⟩ := hguarded.step hs
  exact ⟨hguarded, by simp [hnot, hne.symm]⟩

/-- **With the flag cleared** there are no more heartbeats than there could be. -/
theorem atMost_step (h : Guarded s) (hrunning : s.running = false) (hs : Step interval s e s') (hstart : e ≠ .starting) :
    s'.running = false ∧
    (beats [e]).length + s'.thread.elim 0 BeatPlace.atMost ≤ s.thread.elim 0 BeatPlace.atMost := by
  cases hs with
  | alreadyRunning | start => exact absurd rfl hstart
  | spawn hstarting _ => simp [(h.starting hstarting).1] at hrunning
  | terminate hstarting _ => simp [(h.starting hstarting).1] at hrunning
  | stop => exact ⟨rfl, by simp [beats]⟩
  | notJoinable | tick => exact ⟨hrunning, by simp [beats]⟩
  | join => exact ⟨hrunning, by simp [beats]⟩
  | loop hp hloop =>
    refine ⟨hrunning, ?_⟩
    rw [hrunning] at hloop
    rw [hp]
    cases hloop with
    | enter htrue => cases htrue
    | finish =>
      simp only [afterBeat]
      split_ifs <;> simp [beats, BeatPlace.atMost]
    | leave | turn | beat | sleepFor | wake | awake | spin | due => simp [beats, BeatPlace.atMost]

end TcpHeartbeat

/-- What a cleared flag leaves of heartbeats, until `start` is called. -/
theorem TcpHeartbeat.atMost_run {interval : ℤ} {s s' : TcpHeartbeat} {trace : List BeatEvent} (hguarded : s.Guarded)
    (hrunning : s.running = false) (h : Run (TcpHeartbeat.Step interval) s trace s') (hstart : .starting ∉ trace) :
    s'.Guarded ∧ s'.running = false ∧
    (beats trace).length + s'.thread.elim 0 BeatPlace.atMost ≤ s.thread.elim 0 BeatPlace.atMost := by
  induction h with
  | nil => exact ⟨hguarded, hrunning, by simp [beats]⟩
  | @snoc trace s₁ s₂ e _ hs ih =>
    obtain ⟨hguarded₁, hrunning₁, hle⟩ := ih fun hmem => hstart (List.mem_append_left _ hmem)
    obtain ⟨hrunning₂, hle₂⟩ := TcpHeartbeat.atMost_step hguarded₁ hrunning₁ hs fun he => hstart (by simp [he])
    refine ⟨(hguarded₁.step hs).1, hrunning₂, ?_⟩
    rw [beats_append, List.length_append]
    omega

/-- **Starting and stopping**, over every run: whatever the order of the calls of `start` and `stop`, none
terminates the process; when `stop` has returned the thread is joined; and from when `stop` has
cleared the flag there is no more than one heartbeat until `start` is called again. -/
theorem heartbeat_stops {interval now : ℤ} {s : TcpHeartbeat} {trace : List BeatEvent}
    (h : Run (TcpHeartbeat.Step interval) (.create now) trace s) :
    .terminated ∉ trace ∧ (s.running = false → s.caller = .idle → s.thread = none) ∧
    (s.running = false → ∀ trace' s', Run (TcpHeartbeat.Step interval) s trace' s' → .starting ∉ trace' →
      (beats trace').length ≤ 1) := by
  obtain ⟨hguarded, hnot⟩ := TcpHeartbeat.Guarded.run h
  refine ⟨hnot, hguarded.stopped, fun hrunning trace' s' h' hstart => ?_⟩
  have hone : s.thread.elim 0 BeatPlace.atMost ≤ 1 := by
    cases s.thread with
    | none => simp
    | some p => cases p <;> simp [BeatPlace.atMost]
  have hle := (TcpHeartbeat.atMost_run hguarded hrunning h' hstart).2.2
  omega

/-- `start` is called twice; then the thread has read the flag before `stop` clears it. -/
theorem heartbeat_stops_one : ∃ trace s trace' s', Run (TcpHeartbeat.Step 10) (.create 0) trace s ∧ .terminated ∉ trace ∧
    Run (TcpHeartbeat.Step 10) s trace' s' ∧ beats trace' = [0] ∧ (beats trace').length ≤ 1 := by
  have h0 : Run (TcpHeartbeat.Step 10) (.create 0) [] _ := .nil
  have h1 := h0.snoc (.start rfl rfl)
  have h2 := h1.snoc (.spawn rfl rfl)
  have h3 := h2.snoc (.alreadyRunning rfl rfl)
  have h4 := h3.snoc (.loop rfl (.enter rfl))
  have h5 := h4.snoc (.stop rfl)
  have r0 : Run (TcpHeartbeat.Step 10) ⟨false, some .begin, 0, .joining⟩ [] _ := .nil
  have r1 := r0.snoc (.loop rfl .turn)
  have r2 := r1.snoc (.loop rfl (.beat _))
  obtain ⟨hnot, -, hbeats⟩ := heartbeat_stops h5
  exact ⟨_, _, _, _, h5, hnot, r2, rfl, hbeats rfl _ _ r2 (by decide)⟩

end Scrimmage.Networking
