import Scrimmage.Theory.Receiver
import Mathlib.Tactic.Common

/-!
# A thread that receives

A thread that runs a receiving loop, and a caller that starts it and stops it: to start, the flag
is set and the thread created; to stop, the flag is cleared and the thread joined. The source
changes meanwhile, by what arrives.

## The rules

* `Account.run`: over every run what has been received is what has been handed on, and what
  is in hand.
* `keeps_run`: what the calls on the source and what arrives keep, a run keeps.
* `left_run`: while the flag is set the loop is left only when a call on the source has failed.
* `stops`: a call to stop ends in a few steps, with no more than one thing handed on, whatever
  arrives meanwhile, unless the source does not return; and then it does not end.
-/

namespace Theory.Receiver

universe u v w

variable {σ : Type u} {α : Type v} {ε : Type w}

/-- Where the caller is. -/
inductive Caller where
  /-- Outside. -/
  | idle
  /-- The flag is set, and the thread to be created. -/
  | starting
  /-- The flag is cleared, and the thread to be joined. -/
  | joining
  deriving DecidableEq

/-- The flag, the thread, if there is one to be joined, the source, and the caller. -/
structure Thread (σ : Type u) (α : Type v) where
  /-- The flag. -/
  running : Bool
  /-- Where the thread is. -/
  thread : Option (Place α)
  /-- The source. -/
  source : σ
  /-- Where the caller is. -/
  caller : Caller

/-- What can be seen of a step. -/
inductive Thread.Event (α : Type v) (ε : Type w) where
  /-- Nothing. -/
  | silent
  /-- It is to start. -/
  | starting
  /-- It is to stop. -/
  | stopping
  /-- It has stopped. -/
  | stopped
  /-- A step of the loop. -/
  | loop (e : Receiver.Event α)
  /-- Something arrives. -/
  | arrived (x : ε)

namespace Thread

/-- Nothing is started. -/
def create (source : σ) : Thread σ α := ⟨false, none, source, .idle⟩

/-- **The steps.** -/
inductive Step (R : Receiver σ α) (arrival : σ → ε → σ → Prop) : Thread σ α → Event α ε → Thread σ α → Prop where
  | start {t : Thread σ α} : t.caller = .idle → Step R arrival t .starting { t with running := true, caller := .starting }
  | spawn {t : Thread σ α} : t.caller = .starting → t.thread = none →
    Step R arrival t .silent { t with thread := some .check, caller := .idle }
  | stop {t : Thread σ α} : t.caller = .idle → Step R arrival t .stopping { t with running := false, caller := .joining }
  | notJoinable {t : Thread σ α} : t.caller = .joining → t.thread = none →
    Step R arrival t .stopped { t with caller := .idle }
  | join {t : Thread σ α} : t.caller = .joining → t.thread = some .out →
    Step R arrival t .stopped { t with thread := none, caller := .idle }
  | loop {t : Thread σ α} {p p' : Place α} {e : Receiver.Event α} {source : σ} : t.thread = some p →
    R.Step t.running t.source p e source p' →
    Step R arrival t (.loop e) { t with thread := some p', source := source }
  | arrive {t : Thread σ α} {x : ε} {source : σ} : arrival t.source x source →
    Step R arrival t (.arrived x) { t with source := source }

/-- What is received. -/
def Event.received : Event α ε → List α
  | .loop e => e.received?
  | _ => []

/-- What is handed on. -/
def Event.handed : Event α ε → List α
  | .loop e => e.handed?
  | _ => []

/-- What arrives. -/
def Event.arrivals : Event α ε → List ε
  | .arrived x => [x]
  | _ => []

/-- What has been received. -/
def receivedIn (trace : List (Event α ε)) : List α := trace.flatMap Event.received

/-- What has been handed on. -/
def handedIn (trace : List (Event α ε)) : List α := trace.flatMap Event.handed

/-- What has arrived. -/
def arrivedIn (trace : List (Event α ε)) : List ε := trace.flatMap Event.arrivals

section Traces

variable (trace : List (Event α ε)) (e : Event α ε)

@[simp] theorem receivedIn_snoc : receivedIn (trace ++ [e]) = receivedIn trace ++ e.received := by
  simp [receivedIn]

@[simp] theorem handedIn_snoc : handedIn (trace ++ [e]) = handedIn trace ++ e.handed := by
  simp [handedIn]

@[simp] theorem arrivedIn_snoc : arrivedIn (trace ++ [e]) = arrivedIn trace ++ e.arrivals := by
  simp [arrivedIn]

end Traces

/-- What is in hand. -/
def inHand (t : Thread σ α) : List α := t.thread.elim [] Place.inHand

variable {R : Receiver σ α} {arrival : σ → ε → σ → Prop} {t t' : Thread σ α} {e : Event α ε}
  {trace : List (Event α ε)} {source : σ}

/-! ### Invariants -/

/-- **What is in step with where the caller is, and what has been received.** -/
structure Account (trace : List (Event α ε)) (t : Thread σ α) : Prop where
  starting : t.caller = .starting → t.running = true
  joining : t.caller = .joining → t.running = false
  stopped : t.running = false → t.caller = .idle → t.thread = none
  inHand : handedIn trace ++ t.inHand = receivedIn trace

theorem Account.create (source : σ) : Account ([] : List (Event α ε)) (create source : Thread σ α) :=
  ⟨nofun, nofun, fun _ _ => rfl, rfl⟩

theorem Account.step (h : Account trace t) (hs : Step R arrival t e t') : Account (trace ++ [e]) t' := by
  cases hs with
  | start hidle =>
    exact ⟨fun _ => rfl, nofun, nofun, by simpa [Event.handed, Event.received, Thread.inHand] using h.inHand⟩
  | spawn hstarting hnone =>
    have hrunning := h.starting hstarting
    refine ⟨nofun, nofun, fun hstopped => by simp [hrunning] at hstopped, ?_⟩
    simpa [Event.handed, Event.received, Thread.inHand, hnone, Place.inHand] using h.inHand
  | stop hidle =>
    exact ⟨nofun, fun _ => rfl, nofun, by simpa [Event.handed, Event.received, Thread.inHand] using h.inHand⟩
  | notJoinable hjoining hnone =>
    refine ⟨nofun, nofun, fun _ _ => hnone, ?_⟩
    simpa [Event.handed, Event.received, Thread.inHand] using h.inHand
  | join hjoining hout =>
    refine ⟨nofun, nofun, fun _ _ => rfl, ?_⟩
    simpa [Event.handed, Event.received, Thread.inHand, hout, Place.inHand] using h.inHand
  | @loop p p' e source hp hloop =>
    refine ⟨h.starting, h.joining, fun hstopped hidle => ?_, ?_⟩
    · simp [h.stopped hstopped hidle] at hp
    · have hinHand := hloop.inHand
      have hbefore := h.inHand
      simp only [Thread.inHand, hp, Option.elim] at hbefore
      simp only [handedIn_snoc, receivedIn_snoc, Event.handed, Event.received, Thread.inHand, Option.elim]
      rw [List.append_assoc, ← hinHand, ← List.append_assoc, hbefore]
  | arrive _ =>
    exact ⟨h.starting, h.joining, h.stopped, by simpa [Event.handed, Event.received, Thread.inHand] using h.inHand⟩

/-- **Every run keeps them.** -/
theorem Account.run (h : Run (Step R arrival) (Thread.create source) trace t) : Account trace t :=
  h.invariant Account (.create source) fun _ _ _ _ h hs => h.step hs

/-- **What the source keeps** of what has been received from it and what has arrived. -/
theorem keeps_run {I : List α → List ε → σ → Prop} (h0 : I [] [] source)
    (hsome : ∀ {xs ys s x s'}, I xs ys s → R.recv s (some x) s' → I (xs ++ [x]) ys s')
    (hnone : ∀ {xs ys s s'}, I xs ys s → R.recv s none s' → I xs ys s')
    (harrival : ∀ {xs ys s y s'}, I xs ys s → arrival s y s' → I xs (ys ++ [y]) s')
    (h : Run (Step R arrival) (Thread.create source) trace t) : I (receivedIn trace) (arrivedIn trace) t.source := by
  refine h.invariant (s := Thread.create source) (fun trace t => I (receivedIn trace) (arrivedIn trace) t.source) h0
    fun trace t e t' hI hs => ?_
  rw [receivedIn_snoc, arrivedIn_snoc]
  cases hs with
  | start | spawn | stop | notJoinable | join => simpa [Event.received, Event.arrivals] using hI
  | loop _ hloop =>
    simp only [Event.received, Event.arrivals, List.append_nil]
    rcases hloop.source with ⟨rfl, hx⟩ | ⟨hrecv, hx⟩ | ⟨x, hrecv, hx⟩
    · rwa [hx, List.append_nil]
    · rw [hx, List.append_nil]
      exact hnone hI hrecv
    · rw [hx]
      exact hsome hI hrecv
  | arrive harr =>
    simp only [Event.received, Event.arrivals, List.append_nil]
    exact harrival hI harr

/-- **Why the loop is left** while the flag is set: a call on the source has failed, and what this
says of the source is still so. -/
theorem left_run {L : σ → Prop} (hfail : ∀ {s s'}, R.goesOn = false → R.recv s none s' → L s')
    (harrival : ∀ {s x s'}, L s → arrival s x s' → L s') (h : Run (Step R arrival) (Thread.create source) trace t) :
    t.running = true → t.thread = some .out → L t.source := by
  refine (h.invariant (fun trace t => Account trace t ∧ (t.running = true → t.thread = some .out → L t.source))
    ⟨.create source, fun hrunning => nomatch hrunning⟩ fun trace t e t' hI hs => ⟨hI.1.step hs, ?_⟩).2
  obtain ⟨haccount, hleft⟩ := hI
  cases hs with
  | start hidle =>
    cases hrunning : t.running with
    | true => exact fun _ => hleft hrunning
    | false =>
      intro _ hout
      simp [haccount.stopped hrunning hidle] at hout
  | spawn => exact fun _ hout => nomatch hout
  | stop => exact fun hfalse => nomatch hfalse
  | notJoinable => exact hleft
  | join => exact fun _ hout => nomatch hout
  | @loop p p' e source hp hloop =>
    intro hrunning hout
    cases hout
    cases hloop with
    | leave hfalse => exact absurd (hrunning.symm.trans hfalse) nofun
    | fail hrecv hgo => exact hfail hgo hrecv
  | arrive harr => exact fun hrunning hout => harrival (hleft hrunning hout) harr

/-! ### Stopping -/

/-- A step of the thread, or of the caller that waits for it. -/
def Event.Own : Event α ε → Prop
  | .starting | .stopping | .arrived _ => False
  | .silent | .stopped | .loop _ => True

instance : (e : Event α ε) → Decidable e.Own
  | .starting | .stopping | .arrived _ => .isFalse id
  | .silent | .stopped | .loop _ => .isTrue trivial

/-- How many steps of the thread, and of the caller that waits for it, there are. -/
def ownSteps (trace : List (Event α ε)) : ℕ := trace.countP fun e => e.Own

theorem ownSteps_own (h : e.Own) : ownSteps (trace ++ [e]) = ownSteps trace + 1 := by
  simp [ownSteps, h]

theorem ownSteps_not_own (h : ¬ e.Own) : ownSteps (trace ++ [e]) = ownSteps trace := by
  simp [ownSteps, h]

/-- The thread is in a call on the source that does not return. -/
def Blocked (R : Receiver σ α) (t : Thread σ α) : Prop := t.thread = some .recv ∧ ∀ r s', ¬ R.recv t.source r s'

/-- How many steps are left. -/
def work (t : Thread σ α) : ℕ := t.thread.elim 0 Place.work + if t.caller = .joining then 1 else 0

/-- How much can still be handed on. -/
def atMost (t : Thread σ α) : ℕ := t.thread.elim 0 Place.atMost

/-- **What a step leaves of a call to stop.** -/
theorem stop_step (hrunning : t.running = false) (hjoining : t.caller = .joining) (hs : Step R arrival t e t')
    (hown : e.Own) : ¬ t.Blocked R ∧ t'.running = false ∧ t'.work < t.work ∧
      e.handed.length + t'.atMost ≤ t.atMost ∧ (e = .stopped ∧ t'.caller = .idle ∧ t'.thread = none ∨
      e ≠ .stopped ∧ t'.caller = .joining) := by
  cases hs with
  | start | stop | arrive => exact hown.elim
  | spawn hstarting _ => simp [hjoining] at hstarting
  | notJoinable _ hnone =>
    exact ⟨by simp [Blocked, hnone], hrunning, by simp [work, hjoining], by simp [Event.handed, atMost],
      .inl ⟨rfl, rfl, hnone⟩⟩
  | join _ hout =>
    exact ⟨by simp [Blocked, hout], hrunning, by simp [work, hjoining], by simp [Event.handed, atMost],
      .inl ⟨rfl, rfl, rfl⟩⟩
  | @loop p p' e source hp hloop =>
    have hblocked : ¬ t.Blocked R := by
      rintro ⟨hrecv, hnever⟩
      rw [hp] at hrecv
      cases hrecv
      cases hloop with
      | received hx | skip hx _ | fail hx _ => exact hnever _ _ hx
    rw [hrunning] at hloop
    have hwork := hloop.work_lt
    exact ⟨hblocked, hrunning, by simpa [work, hp] using hwork, by simpa [Event.handed, atMost, hp] using hloop.atMost_le,
      .inr ⟨nofun, hjoining⟩⟩

/-- A step behind a call to stop that has returned. -/
theorem idle_step (hidle : t.caller = .idle) (hthread : t.thread = none) (hs : Step R arrival t e t') : ¬ e.Own := by
  cases hs with
  | start | stop | arrive => exact id
  | spawn hcaller _ | notJoinable hcaller _ | join hcaller _ => simp [hidle] at hcaller
  | loop hp _ => simp [hthread] at hp

/-- **A call to stop** that is not blocked goes on. -/
theorem exists_own_step (arrival : σ → ε → σ → Prop) (hjoining : t.caller = .joining) (hblocked : ¬ t.Blocked R) :
    ∃ e t', Step R arrival t e t' ∧ e.Own := by
  cases hp : t.thread with
  | none => exact ⟨_, _, .notJoinable hjoining hp, trivial⟩
  | some p =>
    by_cases hout : p = .out
    · exact ⟨_, _, .join hjoining (hout ▸ hp), trivial⟩
    · have hrecv (h : p = .recv) : ∃ r s', R.recv t.source r s' := by
        by_contra hnever
        exact hblocked ⟨h ▸ hp, fun r s' hr => hnever ⟨r, s', hr⟩⟩
      obtain ⟨e, s', p', hloop⟩ := exists_step t.running hout hrecv
      exact ⟨_, _, .loop hp hloop, trivial⟩

/-- Where a call to stop is, that began in `t`: what it still has to do, and what can still be handed
on; and if the thread was blocked in `t`, it is until something arrives. -/
structure Stopping (R : Receiver σ α) (t : Thread σ α) (trace : List (Event α ε)) (t' : Thread σ α) : Prop where
  running : t'.running = false
  steps : ownSteps trace + t'.work ≤ t.work
  handed : (handedIn trace).length + t'.atMost ≤ t.atMost
  blocked : t.Blocked R → (∀ e ∈ trace, e.Own) → trace = [] ∧ t' = t
  place : .stopped ∈ trace ∧ t'.caller = .idle ∧ t'.thread = none ∨ .stopped ∉ trace ∧ t'.caller = .joining

/-- Something arrives. -/
theorem Stopping.arrive {t₀ : Thread σ α} (h : Stopping R t₀ trace t) (x : ε) (source : σ) :
    Stopping R t₀ (trace ++ [.arrived x]) { t with source := source } := by
  refine ⟨h.running, ?_, ?_, fun _ hown => (hown (.arrived x) (by simp)).elim, ?_⟩
  · rw [ownSteps_not_own (show ¬ (Event.arrived x : Event α ε).Own from id)]
    exact h.steps
  · simpa [Event.handed, atMost] using h.handed
  · simpa using h.place

/-- **A step of the thread, or of the caller that waits for it.** -/
theorem Stopping.own {t₀ : Thread σ α} (h : Stopping R t₀ trace t) (hs : Step R arrival t e t') (hown : e.Own) :
    Stopping R t₀ (trace ++ [e]) t' := by
  have hcount : ownSteps (trace ++ [e]) = ownSteps trace + 1 := ownSteps_own hown
  rcases h.place with ⟨-, hidle, hthread⟩ | ⟨hmem, hcaller⟩
  · exact absurd hown (idle_step hidle hthread hs)
  · obtain ⟨hblocked, hrunning, hlt, hle, hnext⟩ := stop_step h.running hcaller hs hown
    have hsteps := h.steps
    have hhanded := h.handed
    refine ⟨hrunning, by omega, ?_, fun hb hall => ?_, ?_⟩
    · rw [handedIn_snoc, List.length_append]
      omega
    · obtain ⟨-, rfl⟩ := h.blocked hb fun e he => hall e (List.mem_append_left _ he)
      exact absurd hb hblocked
    · rcases hnext with ⟨rfl, hidle⟩ | ⟨hne, hcaller⟩
      · exact .inl ⟨by simp, hidle⟩
      · exact .inr ⟨by simp [hmem, hne.symm], hcaller⟩

/-- **Along a call to stop**, until the next call. -/
theorem Stopping.run (haccount : Account trace t) (hjoining : t.caller = .joining) {trace' : List (Event α ε)}
    (h : Run (Step R arrival) t trace' t') (hstarting : .starting ∉ trace') (hstopping : .stopping ∉ trace') :
    Stopping R t trace' t' := by
  induction h with
  | nil =>
    exact ⟨haccount.joining hjoining, by simp [ownSteps], by simp [handedIn], fun _ _ => ⟨rfl, rfl⟩,
      .inr ⟨by simp, hjoining⟩⟩
  | @snoc trace' t₁ t₂ e _ hs ih =>
    rw [List.mem_append, not_or, List.mem_singleton] at hstarting hstopping
    have hbefore := ih hstarting.1 hstopping.1
    by_cases hown : e.Own
    · exact hbefore.own hs hown
    · cases hs with
      | start => exact absurd rfl hstarting.2
      | stop => exact absurd rfl hstopping.2
      | arrive harr => exact hbefore.arrive _ _
      | spawn | notJoinable | join | loop => exact absurd trivial hown

end Thread

end Theory.Receiver
