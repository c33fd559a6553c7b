import Scrimmage.Theory.Ownership
import Scrimmage.Networking.Sockets
import Mathlib.Algebra.Ring.Nat

/-!
# The server

`TcpServer` of `TcpServer.h`: a thread in `listenLoop` accepts connections and starts a thread
in `clientLoop` for each, and one thread calls `start` and `stop`.

## The model

* `Serving` is the server with what the kernel keeps for it. `Serving.Step` interleaves all
  threads, the network, and the rest of the process.
* What `socket`, `bind`, `listen` and `accept` return is for the kernel to say; a descriptor
  that it returns is not open. `setsockopt` has no part in what follows.
* The threads can be started, and the callback returns. `start` is called when the accept
  thread is not joinable.

## What is proved

* `server_descriptors`: over every run each open descriptor has one owner, a thread closes
  none but its own, and when `stop` returns all are closed and all threads have ended.
-/

namespace Scrimmage.Networking

open Theory

/-- The loop of `clientLoop`: `read` into 1024 bytes, until it returns none. -/
def clientLoop : Receiver Stream Bytes := ⟨Stream.Recv 1024, false⟩

/-- Where the accept thread is in `listenLoop`: what it does next. -/
inductive AcceptPlace where
  /-- `::socket`. -/
  | socket
  /-- `::bind`. -/
  | bind (serverFd : ℕ)
  /-- `::listen`. -/
  | listen (serverFd : ℕ)
  /-- `_running.load`. -/
  | check (serverFd : ℕ)
  /-- `::accept`. -/
  | accept (serverFd : ℕ)
  /-- `_clientThreads.emplace_back`. -/
  | emplace (serverFd clientFd : ℕ)
  /-- `::close(serverFd)`. -/
  | close (serverFd : ℕ)
  /-- Nothing: the thread has ended. -/
  | ended

/-- Where a client thread is in `clientLoop`. -/
inductive ClientPlace where
  /-- In the loop, or behind it at `::close(clientFd)`. -/
  | loop (p : Receiver.Place Bytes)
  /-- The thread has ended. -/
  | ended

/-- A client thread, with its connection. -/
structure ClientThread where
  /-- Which of the connections accepted it is. -/
  number : ℕ
  /-- `clientFd`. -/
  clientFd : ℕ
  /-- Where it is. -/
  place : ClientPlace
  /-- The connection. -/
  connection : Stream

/-- The thread that `emplace_back` starts. -/
def ClientThread.create (number clientFd : ℕ) : ClientThread := ⟨number, clientFd, .loop .check, .create⟩

/-- Where the thread that calls `start` and `stop` is. -/
inductive ServerCaller where
  /-- In neither. -/
  | idle
  /-- In `start`, before the assignment to `_acceptThread`. -/
  | starting
  /-- In `stop`, at `_acceptThread`. -/
  | joinAccept
  /-- In `stop`, at `_clientThreads[i]`. -/
  | joinClient (i : ℕ)
  deriving DecidableEq

/-- A server, and what the kernel keeps for it. -/
structure Serving where
  /-- `_running`. -/
  running : Bool
  /-- `_acceptThread`, if it is joinable. -/
  acceptThread : Option AcceptPlace
  /-- `_clientThreads`. -/
  clientThreads : List ClientThread
  /-- The caller of `start` and `stop`. -/
  caller : ServerCaller
  /-- The descriptors that are open in the process. -/
  descriptors : List ℕ
  /-- Those that have nothing to do with the server. -/
  others : List ℕ
  /-- The connections that wait to be accepted. -/
  pending : ℕ
  /-- How many have been accepted. -/
  accepted : ℕ

/-- What can be seen of a step. -/
inductive ServerEvent where
  /-- Nothing. -/
  | silent
  /-- `start` is called. -/
  | starting
  /-- `stop` is called. -/
  | stopping
  /-- `stop` returns. -/
  | stopped
  /-- A line on `std::cerr`. -/
  | printed (text : String)
  /-- A connection is accepted. -/
  | accepted (number : ℕ)
  /-- A descriptor is closed. -/
  | closed (fd : ℕ)
  /-- A step of the loop of a client thread. -/
  | client (number : ℕ) (e : Receiver.Event Bytes)
  /-- Bytes arrive on a connection, or it ends. -/
  | arrived (number : ℕ) (bytes : Bytes)
  /-- The kernel or the rest of the process does something. -/
  | outside

namespace Serving

/-- `TcpServer(port, callback, backlog)`, in a process with some descriptors open. -/
def create (others : List ℕ) : Serving := ⟨false, none, [], .idle, others, others, 0, 0⟩

/-- The steps of `start` and `stop`. -/
inductive CallerStep : Serving → ServerEvent → Serving → Prop where
  | start {s : Serving} : s.caller = .idle → CallerStep s .starting { s with running := true, caller := .starting }
  | spawn {s : Serving} : s.caller = .starting → s.acceptThread = none →
    CallerStep s .silent { s with acceptThread := some .socket, caller := .idle }
  | stop {s : Serving} : s.caller = .idle → CallerStep s .stopping { s with running := false, caller := .joinAccept }
  | notJoinable {s : Serving} : s.caller = .joinAccept → s.acceptThread = none →
    CallerStep s .silent { s with caller := .joinClient 0 }
  | joinAccept {s : Serving} : s.caller = .joinAccept → s.acceptThread = some .ended →
    CallerStep s .silent { s with acceptThread := none, caller := .joinClient 0 }
  | joinClient {s : Serving} {i : ℕ} {c : ClientThread} : s.caller = .joinClient i → s.clientThreads[i]? = some c →
    c.place = .ended → CallerStep s .silent { s with caller := .joinClient (i + 1) }
  /-- The loop is left, and `_clientThreads` cleared. -/
  | clear {s : Serving} {i : ℕ} : s.caller = .joinClient i → s.clientThreads.length ≤ i →
    CallerStep s .stopped { s with clientThreads := [], caller := .idle }

/-- The steps of `listenLoop`. -/
inductive ListenStep : Serving → ServerEvent → Serving → Prop where
  | socket {s : Serving} {fd : ℕ} : s.acceptThread = some .socket → fd ∉ s.descriptors →
    ListenStep s .silent { s with acceptThread := some (.bind fd), descriptors := fd :: s.descriptors }
  | noSocket {s : Serving} : s.acceptThread = some .socket →
    ListenStep s (.printed "[TcpServer] Failed to create socket\n") { s with acceptThread := some .ended }
  | bind {s : Serving} {fd : ℕ} : s.acceptThread = some (.bind fd) →
    ListenStep s .silent { s with acceptThread := some (.listen fd) }
  | notBound {s : Serving} {fd : ℕ} : s.acceptThread = some (.bind fd) →
    ListenStep s (.printed "[TcpServer] Bind failed\n") { s with acceptThread := some (.close fd) }
  | listen {s : Serving} {fd : ℕ} : s.acceptThread = some (.listen fd) →
    ListenStep s .silent { s with acceptThread := some (.check fd) }
  | notListening {s : Serving} {fd : ℕ} : s.acceptThread = some (.listen fd) →
    ListenStep s (.printed "[TcpServer] Listen failed\n") { s with acceptThread := some (.close fd) }
  | goOn {s : Serving} {fd : ℕ} : s.acceptThread = some (.check fd) → s.running = true →
    ListenStep s .silent { s with acceptThread := some (.accept fd) }
  | leave {s : Serving} {fd : ℕ} : s.acceptThread = some (.check fd) → s.running = false →
    ListenStep s .silent { s with acceptThread := some (.close fd) }
  | accept {s : Serving} {fd clientFd : ℕ} : s.acceptThread = some (.accept fd) → 0 < s.pending → clientFd ∉ s.descriptors →
    ListenStep s .silent { s with
      acceptThread := some (.emplace fd clientFd), descriptors := clientFd :: s.descriptors, pending := s.pending - 1 }
  | emplace {s : Serving} {fd clientFd : ℕ} : s.acceptThread = some (.emplace fd clientFd) →
    ListenStep s (.accepted s.accepted) { s with
      acceptThread := some (.check fd), clientThreads := s.clientThreads ++ [.create s.accepted clientFd]
      accepted := s.accepted + 1 }
  | close {s : Serving} {fd : ℕ} : s.acceptThread = some (.close fd) →
    ListenStep s (.closed fd) { s with acceptThread := some .ended, descriptors := s.descriptors.erase fd, pending := 0 }

/-- The steps of `clientLoop`, of the thread that comes after `pre`. -/
inductive ClientStep : Serving → ServerEvent → Serving → Prop where
  | loop {s : Serving} {pre post : List ClientThread} {c : ClientThread} {p p' : Receiver.Place Bytes}
    {e : Receiver.Event Bytes} {connection : Stream} : s.clientThreads = pre ++ c :: post → c.place = .loop p →
    clientLoop.Step s.running c.connection p e connection p' →
    ClientStep s (.client c.number e) { s with
      clientThreads := pre ++ { c with place := .loop p', connection := connection } :: post }
  | close {s : Serving} {pre post : List ClientThread} {c : ClientThread} : s.clientThreads = pre ++ c :: post →
    c.place = .loop .out →
    ClientStep s (.closed c.clientFd) { s with
      clientThreads := pre ++ { c with place := .ended } :: post, descriptors := s.descriptors.erase c.clientFd }

/-- What the network, the kernel and the rest of the process do. -/
inductive OutsideStep : Serving → ServerEvent → Serving → Prop where
  | connect {s : Serving} : OutsideStep s .outside { s with pending := s.pending + 1 }
  /-- `accept` returns an error, and `listenLoop` makes a pause. -/
  | notAccepted {s : Serving} {fd : ℕ} : s.acceptThread = some (.accept fd) →
    OutsideStep s .outside { s with acceptThread := some (.check fd) }
  | arrive {s : Serving} {pre post : List ClientThread} {c : ClientThread} {p : Receiver.Place Bytes} {bytes : Bytes}
    {connection : Stream} : s.clientThreads = pre ++ c :: post → c.place = .loop p → Stream.Arrival c.connection bytes connection →
    OutsideStep s (.arrived c.number bytes) { s with
      clientThreads := pre ++ { c with connection := connection } :: post }
  | openOther {s : Serving} {fd : ℕ} : fd ∉ s.descriptors →
    OutsideStep s .outside { s with descriptors := fd :: s.descriptors, others := fd :: s.others }
  | closeOther {s : Serving} {fd : ℕ} : fd ∈ s.others →
    OutsideStep s .outside { s with descriptors := s.descriptors.erase fd, others := s.others.erase fd }

/-- **The steps** of all of them. -/
inductive Step (s : Serving) (e : ServerEvent) (s' : Serving) : Prop where
  | caller : CallerStep s e s' → Step s e s'
  | listen : ListenStep s e s' → Step s e s'
  | client : ClientStep s e s' → Step s e s'
  | outside : OutsideStep s e s' → Step s e s'

end Serving

/-! ### Descriptors -/

/-- The descriptors that the accept thread has. -/
def AcceptPlace.descriptors : AcceptPlace → List ℕ
  | .socket | .ended => []
  | .bind fd | .listen fd | .check fd | .accept fd | .close fd => [fd]
  | .emplace fd clientFd => [clientFd, fd]

/-- The descriptor that a client thread has. -/
def ClientThread.descriptors (c : ClientThread) : List ℕ :=
  match c.place with
  | .loop _ => [c.clientFd]
  | .ended => []

namespace Serving

/-- The descriptors of all threads of the server. -/
def owned (s : Serving) : List ℕ :=
  (s.acceptThread.elim [] AcceptPlace.descriptors) ++ s.clientThreads.flatMap ClientThread.descriptors

/-- **What of the threads is in step with their caller**: while it is outside `stop` with the flag
cleared there are none, and those it has joined have ended. -/
structure Joined (s : Serving) : Prop where
  starting : s.caller = .starting → s.running = true
  stopped : s.running = false → s.caller = .idle → s.acceptThread = none ∧ s.clientThreads = []
  joining : ∀ i, s.caller = .joinClient i → s.acceptThread = none ∧ ∀ c ∈ s.clientThreads.take i, c.place = .ended
  stopping : s.caller ≠ .idle → s.caller ≠ .starting → s.running = false

/-- A change of a client thread that has not ended. -/
theorem ended_take {pre post : List ClientThread} {c c' : ClientThread} {p : Receiver.Place Bytes} {i : ℕ}
    (h : ∀ x ∈ (pre ++ c :: post).take i, x.place = .ended) (hc : c.place = .loop p) :
    ∀ x ∈ (pre ++ c' :: post).take i, x.place = .ended := by
  have hi : i ≤ pre.length := by
    by_contra hlt
    have hmem : c ∈ (pre ++ c :: post).take i := by
      rw [List.take_append, List.take_of_length_le (by omega), List.mem_append]
      refine .inr (List.mem_take_iff_getElem.mpr ⟨0, by simp; omega, rfl⟩)
    simpa [hc] using h c hmem
  rw [List.take_append_of_le_length hi] at h ⊢
  exact h

namespace Joined

variable {s s' : Serving} {e : ServerEvent}

theorem create (others : List ℕ) : Joined (.create others) where
  starting h := by cases h
  stopped _ _ := ⟨rfl, rfl⟩
  joining i h := by cases h
  stopping h _ := absurd rfl h

/-- Client threads that have not ended change. -/
theorem update (h : Joined s) {pre post : List ClientThread} {c c' : ClientThread} {p : Receiver.Place Bytes}
    (hsplit : s.clientThreads = pre ++ c :: post) (hc : c.place = .loop p) (descriptors : List ℕ) :
    Joined { s with clientThreads := pre ++ c' :: post, descriptors := descriptors } where
  starting := h.starting
  stopped hrunning hidle := by
    have := (h.stopped hrunning hidle).2
    simp [hsplit] at this
  joining i hi := by
    obtain ⟨hnone, hended⟩ := h.joining i hi
    rw [hsplit] at hended
    exact ⟨hnone, ended_take hended hc⟩
  stopping := h.stopping

/-- The accept thread goes on. -/
theorem listening (h : Joined s) {p p' : AcceptPlace} (hp : s.acceptThread = some p) {clientThreads : List ClientThread}
    {descriptors : List ℕ} {pending accepted : ℕ} :
    Joined { s with acceptThread := some p', clientThreads := clientThreads, descriptors := descriptors
                    pending := pending, accepted := accepted } where
  starting := h.starting
  stopped hrunning hidle := by
    have := (h.stopped hrunning hidle).1
    simp [hp] at this
  joining i hi := by
    have := (h.joining i hi).1
    simp [hp] at this
  stopping := h.stopping

/-- The caller goes on. -/
theorem call (h : Joined s) (hs : CallerStep s e s') : Joined s' := by
  cases hs with
  | start hidle => exact ⟨fun _ => rfl, nofun, nofun, fun _ hne => absurd rfl hne⟩
  | spawn hstarting hnone =>
    have hrunning := h.starting hstarting
    exact ⟨nofun, fun hstopped => by simp [hrunning] at hstopped, nofun, fun hne _ => absurd rfl hne⟩
  | stop hidle => exact ⟨nofun, nofun, nofun, fun _ _ => rfl⟩
  | notJoinable hjoin hnone =>
    have hrunning := h.stopping (by simp [hjoin]) (by simp [hjoin])
    exact ⟨nofun, nofun, fun i hi => by cases hi; exact ⟨hnone, by simp⟩, fun _ _ => hrunning⟩
  | joinAccept hjoin hended =>
    have hrunning := h.stopping (by simp [hjoin]) (by simp [hjoin])
    exact ⟨nofun, nofun, fun i hi => by cases hi; exact ⟨rfl, by simp⟩, fun _ _ => hrunning⟩
  | @joinClient i c hi hc hended =>
    have hrunning := h.stopping (by simp [hi]) (by simp [hi])
    obtain ⟨hnone, htake⟩ := h.joining i hi
    refine ⟨nofun, nofun, fun j hj => ?_, fun _ _ => hrunning⟩
    cases hj
    refine ⟨hnone, fun x hx => ?_⟩
    obtain ⟨hlt, rfl⟩ := List.getElem?_eq_some_iff.mp hc
    rw [List.take_succ_eq_append_getElem hlt, List.mem_append, List.mem_singleton] at hx
    rcases hx with hx | rfl
    · exact htake x hx
    · exact hended
  | @clear i hi hlen =>
    obtain ⟨hnone, -⟩ := h.joining i hi
    exact ⟨nofun, fun _ _ => ⟨hnone, rfl⟩, nofun, fun hne => absurd rfl hne⟩

/-- **Every step keeps them in step.** -/
theorem step (h : Joined s) (hs : Step s e s') : Joined s' := by
  cases hs with
  | caller hs => exact h.call hs
  | listen hs => cases hs <;> exact h.listening ‹_›
  | client hs =>
    cases hs with
    | loop hsplit hc _ => exact h.update hsplit hc _
    | close hsplit hc => exact h.update hsplit hc _
  | outside hs =>
    cases hs with
    | connect | openOther | closeOther => exact ⟨h.starting, h.stopped, h.joining, h.stopping⟩
    | notAccepted hp => exact h.listening hp
    | arrive hsplit hc _ => exact h.update hsplit hc _

theorem run {others : List ℕ} {trace : List ServerEvent} (h : Run Step (.create others) trace s) : Joined s :=
  h.invariant (fun _ s => Joined s) (create others) fun _ _ _ _ h hs => h.step hs

/-- **Behind `stop` all threads have ended**, and so they have before `_clientThreads` is cleared. -/
theorem ended {i : ℕ} (h : Joined s) (hi : s.caller = .joinClient i) (hlen : s.clientThreads.length ≤ i) :
    ∀ c ∈ s.clientThreads, c.place = .ended := by
  have := (h.joining i hi).2
  rwa [List.take_of_length_le hlen] at this

end Joined

/-! ### The descriptors -/

section Owned

variable {s s' : Serving} {e : ServerEvent}

theorem owned_none (h : s.acceptThread = none) : s.owned = s.clientThreads.flatMap ClientThread.descriptors := by
  simp [owned, h]

theorem owned_some {p : AcceptPlace} (h : s.acceptThread = some p) :
    s.owned = p.descriptors ++ s.clientThreads.flatMap ClientThread.descriptors := by
  simp [owned, h]

theorem owned_split {pre post : List ClientThread} {c : ClientThread} (h : s.clientThreads = pre ++ c :: post) :
    s.owned.Perm (c.descriptors ++ ((s.acceptThread.elim [] AcceptPlace.descriptors) ++
      (pre ++ post).flatMap ClientThread.descriptors)) := by
  simp only [owned, h, List.flatMap_append, List.flatMap_cons]
  exact ((List.perm_append_comm_assoc ..).append_left _).trans (List.perm_append_comm_assoc ..)

theorem owned_update {pre post : List ClientThread} {c c' : ClientThread} (h : s.clientThreads = pre ++ c :: post)
    (hc : c'.descriptors = c.descriptors) : { s with clientThreads := pre ++ c' :: post }.owned = s.owned := by
  simp only [owned, h, List.flatMap_append, List.flatMap_cons, hc]

/-- Threads that have ended have none. -/
theorem descriptors_of_ended {clientThreads : List ClientThread} (h : ∀ c ∈ clientThreads, c.place = .ended) :
    clientThreads.flatMap ClientThread.descriptors = [] := by
  rw [List.flatMap_eq_nil_iff]
  intro c hc
  rw [ClientThread.descriptors, h c hc]

/-- **Every step keeps one owner for each descriptor.** -/
theorem ownership_step (hjoined : Joined s) (h : Ownership s.descriptors s.owned s.others) (hs : Step s e s') :
    Ownership s'.descriptors s'.owned s'.others := by
  cases hs with
  | caller hs =>
    cases hs with
    | start | stop | notJoinable | joinClient => exact h
    | spawn _ hnone =>
      rw [owned_none hnone] at h
      exact h
    | joinAccept _ hended =>
      rw [owned_some hended] at h
      exact h
    | clear hi hlen =>
      have hnone := (hjoined.joining _ hi).1
      rw [owned_none hnone, descriptors_of_ended (hjoined.ended hi hlen)] at h
      exact h.of_perm (by simp [owned, hnone])
  | listen hs =>
    cases hs with
    | socket hp hfd =>
      rw [owned_some hp] at h
      exact h.acquire hfd (.refl _)
    | noSocket hp | bind hp | notBound hp | listen hp | notListening hp | goOn hp | leave hp =>
      rw [owned_some hp] at h
      exact h
    | accept hp _ hfd =>
      rw [owned_some hp] at h
      exact h.acquire hfd (.refl _)
    | @emplace fd clientFd hp =>
      rw [owned_some hp] at h
      refine h.of_perm ?_
      rw [owned_some rfl, List.flatMap_append, ← List.append_assoc]
      exact List.perm_append_comm
    | close hp =>
      rw [owned_some hp] at h
      exact h.release (.refl _)
  | client hs =>
    cases hs with
    | loop hsplit hc _ => exact h.of_perm (.of_eq (owned_update hsplit (by simp [ClientThread.descriptors, hc])))
    | @close pre post c hsplit hc =>
      have hown := owned_split hsplit
      simp only [ClientThread.descriptors, hc] at hown
      exact (h.release hown).of_perm (owned_split (c := { c with place := .ended }) rfl)
  | outside hs =>
    cases hs with
    | connect => exact h
    | notAccepted hp =>
      rw [owned_some hp] at h
      exact h
    | arrive hsplit hc _ => exact h.of_perm (.of_eq (owned_update hsplit (by simp [ClientThread.descriptors, hc])))
    | openOther hfd => exact h.acquireOther hfd
    | closeOther hfd => exact h.releaseOther hfd

theorem ownership_run {others : List ℕ} {trace : List ServerEvent} (h : Run Step (.create others) trace s)
    (hnodup : others.Nodup) : Ownership s.descriptors s.owned s.others := by
  refine (h.invariant (fun _ s => Joined s ∧ Ownership s.descriptors s.owned s.others)
    ⟨.create others, .initial hnodup⟩ fun _ s _ s' hs hstep => ?_).2
  exact ⟨hs.1.step hstep, ownership_step hs.1 hs.2 hstep⟩

/-- A descriptor is closed by the thread that has it. -/
theorem mem_owned_of_closed {fd : ℕ} (hs : Step s (.closed fd) s') : fd ∈ s.owned := by
  cases hs with
  | caller hs => cases hs
  | listen hs =>
    cases hs with
    | close hp => simp [owned_some hp, AcceptPlace.descriptors]
  | client hs =>
    cases hs with
    | close hsplit hc =>
      rw [(owned_split hsplit).mem_iff]
      simp [ClientThread.descriptors, hc]
  | outside hs => cases hs

end Owned

/-- **What is open**: over every run, with `start` and `stop` called any number of times, each open
descriptor is that of one thread of the server or has nothing to do with it; the server closes
none but its own; and when `stop` returns all threads have ended and no descriptor of the server
is open. -/
theorem server_descriptors {others : List ℕ} {trace : List ServerEvent} {s : Serving}
    (h : Run Step (.create others) trace s) (hnodup : others.Nodup) :
    s.descriptors.Nodup ∧ s.descriptors.Perm (s.owned ++ s.others) ∧
    (∀ fd s', Step s (.closed fd) s' → fd ∈ s.owned ∧ fd ∈ s.descriptors ∧ fd ∉ s.others) ∧
    ∀ s', Step s .stopped s' → s'.acceptThread = none ∧ (∀ c ∈ s.clientThreads, c.place = .ended) ∧
      s'.clientThreads = [] ∧ s'.descriptors.Perm s'.others := by
  have hown := ownership_run h hnodup
  have hjoined := Joined.run h
  refine ⟨hown.nodup, hown.perm, fun fd s' hs => ?_, fun s' hs => ?_⟩
  · have hfd := mem_owned_of_closed hs
    exact ⟨hfd, hown.mem_table hfd, hown.not_mem_others hfd⟩
  · have hperm := (ownership_step hjoined hown hs).perm
    cases hs with
    | listen hs | client hs | outside hs => cases hs
    | caller hs =>
      cases hs with
      | clear hi hlen =>
        have hnone := (hjoined.joining _ hi).1
        exact ⟨hnone, hjoined.ended hi hlen, rfl, by simpa [owned, hnone] using hperm⟩

/-- A server that has accepted a connection, in a process with the first three descriptors open. -/
theorem run_one : Run Step (.create [0, 1, 2])
    [.starting, .silent, .silent, .silent, .silent, .silent, .outside, .silent, .accepted 0]
    ⟨true, some (.check 3), [.create 0 4], .idle, [4, 3, 0, 1, 2], [0, 1, 2], 0, 1⟩ := by
  have h0 : Run Step (create [0, 1, 2]) [] _ := .nil
  have h1 := h0.snoc (.caller (.start rfl))
  have h2 := h1.snoc (.caller (.spawn rfl rfl))
  have h3 := h2.snoc (.listen (.socket rfl (by decide : 3 ∉ _)))
  have h4 := h3.snoc (.listen (.bind rfl))
  have h5 := h4.snoc (.listen (.listen rfl))
  have h6 := h5.snoc (.listen (.goOn rfl rfl))
  have h7 := h6.snoc (.outside .connect)
  have h8 := h7.snoc (.listen (.accept rfl (by decide) (by decide : 4 ∉ _)))
  exact h8.snoc (.listen (.emplace rfl))

/-- The descriptors of its listening socket and of the connection. -/
theorem server_descriptors_one : ∃ trace s, Run Step (.create [0, 1, 2]) trace s ∧ s.owned = [3, 4] ∧
    s.descriptors.Perm ([3, 4] ++ [0, 1, 2]) :=
  ⟨_, _, run_one, rfl, (server_descriptors run_one (by decide)).2.1⟩

end Serving

end Scrimmage.Networking
