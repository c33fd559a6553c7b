import Scrimmage.Networking.Pipelines
import Mathlib.Data.List.Nodup

/-!
# The connections of a manager

`TcpConnectionManager` of `TcpConnectionManager.h` as a whole: `addConnection`, `startAll` and `stopAll`, called
by one thread, and the threads that `startAll` creates, each with a reference into `_clients`.

## The model

* `ConnectionManager` is the manager with its connections. Each thread is in the loop of
  `TcpConnectionManager.readLoop`, on the connection that its reference is to.
* `addConnection` may move the elements of `_clients`, when the vector has no room left, and the references to
  them are then no longer valid. A thread whose reference is not valid may be in a call of `recv`
  already; it makes no other step with it (`ConnectionManager.Dangles`).
* The constructor of the client does not throw, the threads can be created, and the callbacks return.

## What is proved

* `Received`: the invariant of all runs. Every piece received is handed on once or in hand.
* `Sessions`: the invariant of those in which `addConnection` and `startAll` are called only behind `stopAll`.
  Each connection then has one thread, and no reference dangles.
* `sessions_deliver`: what becomes of the bytes of a connection.
-/

namespace Scrimmage.Networking

open Theory

/-- A thread of `_threads`. -/
structure ConnectionThread where
  /-- The element of `_clients` that `client` refers to. -/
  client : ℕ
  /-- Where it is. -/
  place : Receiver.Place Bytes
  /-- The element is where it was when the thread was created. -/
  valid : Bool

/-- The thread that `emplace_back` starts. -/
def ConnectionThread.create (client : ℕ) : ConnectionThread := ⟨client, .check, true⟩

/-- The elements of `_clients` have moved. -/
def ConnectionThread.moved (t : ConnectionThread) : ConnectionThread := { t with valid := false }

/-- Where the thread that calls `addConnection`, `startAll` and `stopAll` is. -/
inductive ManagerCaller where
  /-- In none of them. -/
  | idle
  /-- In `startAll`, at `_clients[k]`. -/
  | starting (k : ℕ)
  /-- In `stopAll`, at `_threads[k]`. -/
  | joining (k : ℕ)
  deriving DecidableEq

/-- A `TcpConnectionManager`, and what the kernel keeps for it. -/
structure ConnectionManager where
  /-- `_running`. -/
  running : Bool
  /-- `_clients`: their connections. -/
  clients : List Stream
  /-- `_threads`. -/
  threads : List ConnectionThread
  /-- The caller. -/
  caller : ManagerCaller

/-- What can be seen of a step. -/
inductive ManagerEvent where
  /-- Nothing. -/
  | silent
  /-- `addConnection` is called, with `_running` as it is. -/
  | added (running : Bool)
  /-- `startAll` is called, with `_running` as it is. -/
  | starting (running : Bool)
  /-- `stopAll` is called. -/
  | stopping
  /-- `stopAll` returns. -/
  | stopped
  /-- A step of the loop of a thread of a connection. -/
  | loop (client : ℕ) (e : Receiver.Event Bytes)
  /-- Bytes arrive on a connection, or it ends. -/
  | arrived (client : ℕ) (bytes : Bytes)

namespace ConnectionManager

/-- A new manager. -/
def create : ConnectionManager := ⟨false, [], [], .idle⟩

/-- **The steps.** -/
inductive Step : ConnectionManager → ManagerEvent → ConnectionManager → Prop where
  | addConnection {s : ConnectionManager} (moves : Bool) : s.caller = .idle →
    Step s (.added s.running) { s with
      clients := s.clients ++ [.create]
      threads := if moves then s.threads.map ConnectionThread.moved else s.threads }
  | startAll {s : ConnectionManager} : s.caller = .idle →
    Step s (.starting s.running) { s with running := true, caller := .starting 0 }
  | emplace {s : ConnectionManager} {k : ℕ} : s.caller = .starting k → k < s.clients.length →
    Step s .silent { s with threads := s.threads ++ [.create k], caller := .starting (k + 1) }
  | started {s : ConnectionManager} : s.caller = .starting s.clients.length → Step s .silent { s with caller := .idle }
  | stopAll {s : ConnectionManager} : s.caller = .idle →
    Step s .stopping { s with running := false, caller := .joining 0 }
  | join {s : ConnectionManager} {k : ℕ} {t : ConnectionThread} : s.caller = .joining k → s.threads[k]? = some t →
    t.place = .out → Step s .silent { s with caller := .joining (k + 1) }
  | clear {s : ConnectionManager} : s.caller = .joining s.threads.length →
    Step s .stopped { s with threads := [], caller := .idle }
  | loop {s : ConnectionManager} {pre post : List ConnectionThread} {t : ConnectionThread} {c c' : Stream}
    {e : Receiver.Event Bytes} {p : Receiver.Place Bytes} : s.threads = pre ++ t :: post →
    s.clients[t.client]? = some c → (t.place = .check → s.running = true → t.valid = true) →
    TcpConnectionManager.readLoop.Step s.running c t.place e c' p →
    Step s (.loop t.client e) { s with
      clients := s.clients.set t.client c'
      threads := pre ++ { t with place := p } :: post }
  | arrive {s : ConnectionManager} {client : ℕ} {bytes : Bytes} {c c' : Stream} : s.clients[client]? = some c →
    Stream.Arrival c bytes c' → Step s (.arrived client bytes) { s with clients := s.clients.set client c' }

/-- **A thread may follow a reference** that is not valid. -/
def Dangles (s : ConnectionManager) : Prop :=
  ∃ t ∈ s.threads, t.valid = false ∧ (t.place = .check ∧ s.running = true ∨ t.place = .recv)

end ConnectionManager

/-! ### What has become of the bytes -/

/-- What is received on a connection. -/
def ManagerEvent.received (i : ℕ) : ManagerEvent → List Bytes
  | .loop client e => if client = i then e.received? else []
  | _ => []

/-- What is handed to its callback. -/
def ManagerEvent.handed (i : ℕ) : ManagerEvent → List Bytes
  | .loop client e => if client = i then e.handed? else []
  | _ => []

/-- What arrives on it. -/
def ManagerEvent.arrivals (i : ℕ) : ManagerEvent → Bytes
  | .arrived client bytes => if client = i then bytes else []
  | _ => []

/-- What has been received on a connection. -/
def receivedFrom (i : ℕ) (trace : List ManagerEvent) : List Bytes := trace.flatMap (ManagerEvent.received i)

/-- What its callback has been given. -/
def handedFrom (i : ℕ) (trace : List ManagerEvent) : List Bytes := trace.flatMap (ManagerEvent.handed i)

/-- What has arrived on it. -/
def arrivedFrom (i : ℕ) (trace : List ManagerEvent) : Bytes := trace.flatMap (ManagerEvent.arrivals i)

/-- **`addConnection` and `startAll` are called** only behind `stopAll`, or before the first `startAll`. -/
def Alternating (trace : List ManagerEvent) : Prop := .added true ∉ trace ∧ .starting true ∉ trace

/-- What a thread has in hand of a connection. -/
def ConnectionThread.inHand (i : ℕ) (t : ConnectionThread) : List Bytes := if t.client = i then t.place.inHand else []

namespace ConnectionManager

/-- What its threads have in hand. -/
def inHand (i : ℕ) (s : ConnectionManager) : List Bytes := s.threads.flatMap (ConnectionThread.inHand i)

/-- What is still to be received. -/
def unread (i : ℕ) (s : ConnectionManager) : Bytes := s.clients[i]?.elim [] Stream.unread

end ConnectionManager

section Traces

variable (i : ℕ) (trace : List ManagerEvent) (e : ManagerEvent)

@[simp] theorem receivedFrom_snoc : receivedFrom i (trace ++ [e]) = receivedFrom i trace ++ e.received i := by
  simp [receivedFrom]

@[simp] theorem handedFrom_snoc : handedFrom i (trace ++ [e]) = handedFrom i trace ++ e.handed i := by
  simp [handedFrom]

@[simp] theorem arrivedFrom_snoc : arrivedFrom i (trace ++ [e]) = arrivedFrom i trace ++ e.arrivals i := by
  simp [arrivedFrom]

end Traces

/-! ### Every run -/

section Steps

variable {trace : List ManagerEvent} {s s' : ConnectionManager} {e : ManagerEvent} {i : ℕ}
  {pre post : List ConnectionThread} {t : ConnectionThread} {c c' : Stream} {p : Receiver.Place Bytes}

theorem inHand_split (h : s.threads = pre ++ t :: post) : s.inHand i =
    pre.flatMap (ConnectionThread.inHand i) ++ (t.inHand i ++ post.flatMap (ConnectionThread.inHand i)) := by
  rw [ConnectionManager.inHand, h, List.flatMap_append, List.flatMap_cons]

theorem inHand_moved (moves : Bool) (threads : List ConnectionThread) :
    (if moves then threads.map ConnectionThread.moved else threads).flatMap (ConnectionThread.inHand i) =
      threads.flatMap (ConnectionThread.inHand i) := by
  cases moves with
  | false => rfl
  | true =>
    rw [if_pos rfl, List.flatMap_map]
    rfl

/-- What is still to be received of a connection that a step is about, and of the others. -/
theorem unread_set {client : ℕ} (hc : s.clients[client]? = some c) (threads : List ConnectionThread) (running : Bool)
    (caller : ManagerCaller) : ConnectionManager.unread i ⟨running, s.clients.set client c', threads, caller⟩ =
      if client = i then c'.unread else s.unread i := by
  obtain ⟨hlt, -⟩ := List.getElem?_eq_some_iff.mp hc
  by_cases hi : client = i
  · subst hi
    simp [ConnectionManager.unread, List.getElem?_set_self hlt]
  · simp [ConnectionManager.unread, List.getElem?_set_ne hi, hi]

/-- **What is in step with where the caller is**: behind `stopAll` there is no thread. -/
structure InCalls (s : ConnectionManager) : Prop where
  starting : ∀ k, s.caller = .starting k → s.running = true
  joining : ∀ k, s.caller = .joining k → s.running = false
  joined : ∀ k, s.caller = .joining k → ∀ t ∈ s.threads.take k, t.place = .out
  stopped : s.caller = .idle → s.running = false → s.threads = []

theorem InCalls.create : InCalls .create := ⟨nofun, nofun, nofun, fun _ _ => rfl⟩

theorem InCalls.step (h : InCalls s) (hs : ConnectionManager.Step s e s') : InCalls s' := by
  cases hs with
  | addConnection moves hidle =>
    refine ⟨h.starting, h.joining, fun k hjoining => ?_, fun _ hstopped => ?_⟩
    · simp [hidle] at hjoining
    · cases moves <;> simp [h.stopped hidle hstopped]
  | startAll => exact ⟨fun _ _ => rfl, nofun, nofun, nofun⟩
  | emplace hstarting hk => exact ⟨fun _ _ => h.starting _ hstarting, nofun, nofun, nofun⟩
  | started hstarting =>
    refine ⟨nofun, nofun, nofun, fun _ hstopped => ?_⟩
    exact absurd (hstopped.symm.trans (h.starting _ hstarting)) (by decide)
  | stopAll =>
    refine ⟨nofun, fun _ _ => rfl, fun k hk => ?_, nofun⟩
    obtain rfl := ManagerCaller.joining.inj hk
    exact nofun
  | @join k t hjoining ht hout =>
    refine ⟨nofun, fun _ _ => h.joining k hjoining, fun k' hk' => ?_, nofun⟩
    obtain rfl := ManagerCaller.joining.inj hk'
    rw [List.take_add_one, ht]
    intro u hu
    rcases List.mem_append.mp hu with hu | hu
    · exact h.joined k hjoining u hu
    · exact (List.mem_singleton.mp hu) ▸ hout
  | clear => exact ⟨nofun, nofun, nofun, fun _ _ => rfl⟩
  | @loop pre post t c c' e p hsplit hc hvalid hloop =>
    refine ⟨h.starting, h.joining, fun k hjoining => ?_, fun hidle hstopped => ?_⟩
    · have hjoined := h.joined k hjoining
      rw [hsplit] at hjoined
      rcases Nat.lt_or_ge pre.length k with hk | hk
      · -- a thread that has been joined makes no step
        have hout : t.place = .out := by
          obtain ⟨m, hm⟩ := Nat.exists_eq_add_of_lt hk
          refine hjoined t ?_
          rw [List.take_append, show k - pre.length = m + 1 by omega, List.take_succ_cons]
          simp
        rw [hout] at hloop
        cases hloop
      · rw [List.take_append_of_le_length hk] at hjoined ⊢
        exact hjoined
    · simp [h.stopped hidle hstopped] at hsplit
  | arrive => exact ⟨h.starting, h.joining, h.joined, h.stopped⟩

/-- **What has been received of each connection**, over every run. -/
structure Received (trace : List ManagerEvent) (s : ConnectionManager) : Prop where
  bytes : ∀ i, (receivedFrom i trace).flatten ++ s.unread i = arrivedFrom i trace
  fits : ∀ i, ∀ b ∈ receivedFrom i trace, b ≠ [] ∧ b.length ≤ 4096
  once : ∀ i, (handedFrom i trace ++ s.inHand i).Perm (receivedFrom i trace)

namespace Received

theorem create : Received [] .create where
  bytes _ := rfl
  fits i b hb := by cases hb
  once _ := .refl _

/-- A step that no thread has part in. -/
theorem quiet (h : Received trace s) (hreceived : ∀ i, e.received i = []) (hhanded : ∀ i, e.handed i = [])
    (harrivals : ∀ i, e.arrivals i = []) (hunread : ∀ i, s'.unread i = s.unread i)
    (hinHand : ∀ i, s'.inHand i = s.inHand i) : Received (trace ++ [e]) s' where
  bytes i := by simpa [hreceived, harrivals, hunread] using h.bytes i
  fits i := by simpa [hreceived] using h.fits i
  once i := by simpa [hreceived, hhanded, hinHand] using h.once i

/-- **A step of a thread**: what is received is in its hand until it is handed on. -/
theorem loop (h : Received trace s) {e : Receiver.Event Bytes} (hsplit : s.threads = pre ++ t :: post)
    (hc : s.clients[t.client]? = some c) (hs : TcpConnectionManager.readLoop.Step s.running c t.place e c' p) :
    Received (trace ++ [.loop t.client e]) { s with
      clients := s.clients.set t.client c'
      threads := pre ++ { t with place := p } :: post } where
  bytes i := by
    have hbytes := h.bytes i
    rw [receivedFrom_snoc, arrivedFrom_snoc, unread_set hc]
    by_cases hi : t.client = i
    · subst hi
      have hunread : s.unread t.client = c.unread := by simp [ConnectionManager.unread, hc]
      rw [hunread] at hbytes
      rw [if_pos rfl, ← hbytes]
      rcases hs.source with ⟨rfl, hnone⟩ | ⟨hrecv, hnone⟩ | ⟨bytes, hrecv, hsome⟩
      · simp [ManagerEvent.received, ManagerEvent.arrivals, hnone]
      · simp [ManagerEvent.received, ManagerEvent.arrivals, hnone, (Stream.Recv.of_none hrecv).1]
      · simp [ManagerEvent.received, ManagerEvent.arrivals, hsome, (Stream.Recv.unread hrecv).1]
    · simpa [ManagerEvent.received, ManagerEvent.arrivals, hi] using hbytes
  fits i b hb := by
    rw [receivedFrom_snoc, List.mem_append] at hb
    rcases hb with hb | hb
    · exact h.fits i b hb
    · by_cases hi : t.client = i
      · rw [ManagerEvent.received, if_pos hi] at hb
        rcases hs.source with ⟨-, hnone⟩ | ⟨-, hnone⟩ | ⟨bytes, hrecv, hsome⟩
        · simp [hnone] at hb
        · simp [hnone] at hb
        · obtain rfl : b = bytes := by simpa [hsome] using hb
          exact Stream.Recv.fits hrecv
      · simp [ManagerEvent.received, hi] at hb
  once i := by
    have honce := h.once i
    rw [inHand_split hsplit] at honce
    rw [receivedFrom_snoc, handedFrom_snoc, inHand_split rfl]
    by_cases hi : t.client = i
    · have hstep := hs.inHand
      simp only [ManagerEvent.received, ManagerEvent.handed, ConnectionThread.inHand, hi, if_true] at honce ⊢
      rw [List.perm_iff_count] at honce ⊢
      intro b
      have hcount := congrArg (List.count b) hstep
      have := honce b
      simp only [List.count_append] at hcount this ⊢
      omega
    · simpa [ManagerEvent.received, ManagerEvent.handed, ConnectionThread.inHand, hi] using honce

/-- Bytes arrive, or a connection ends. -/
theorem arrive (h : Received trace s) {bytes : Bytes} {client : ℕ} (hc : s.clients[client]? = some c)
    (harrival : Stream.Arrival c bytes c') :
    Received (trace ++ [.arrived client bytes]) { s with clients := s.clients.set client c' } where
  bytes i := by
    have hbytes := h.bytes i
    rw [receivedFrom_snoc, arrivedFrom_snoc, unread_set hc]
    by_cases hi : client = i
    · subst hi
      have hunread : s.unread client = c.unread := by simp [ConnectionManager.unread, hc]
      rw [hunread] at hbytes
      simp [ManagerEvent.received, ManagerEvent.arrivals, ← hbytes, harrival.unread.1]
    · simpa [ManagerEvent.received, ManagerEvent.arrivals, hi] using hbytes
  fits i := by simpa [ManagerEvent.received] using h.fits i
  once i := by simpa [ManagerEvent.received, ManagerEvent.handed, ConnectionManager.inHand] using h.once i

theorem step (h : Received trace s) (hcalls : InCalls s) (hs : ConnectionManager.Step s e s') :
    Received (trace ++ [e]) s' := by
  cases hs with
  | addConnection moves hidle =>
    refine h.quiet (fun _ => rfl) (fun _ => rfl) (fun _ => rfl) (fun i => ?_) fun i => inHand_moved moves s.threads
    rcases Nat.lt_trichotomy i s.clients.length with hi | rfl | hi
    · simp [ConnectionManager.unread, List.getElem?_append_left hi]
    · simp [ConnectionManager.unread, Stream.create]
    · rw [ConnectionManager.unread, ConnectionManager.unread, List.getElem?_eq_none (Nat.le_of_lt hi),
        List.getElem?_eq_none (by rw [List.length_append]; exact hi)]
  | startAll | started | stopAll | join =>
    exact h.quiet (fun _ => rfl) (fun _ => rfl) (fun _ => rfl) (fun _ => rfl) fun _ => rfl
  | emplace hstarting hk =>
    refine h.quiet (fun _ => rfl) (fun _ => rfl) (fun _ => rfl) (fun _ => rfl) fun i => ?_
    simp [ConnectionManager.inHand, ConnectionThread.create, ConnectionThread.inHand, Receiver.Place.inHand]
  | clear hjoining =>
    have hjoined := hcalls.joined _ hjoining
    rw [List.take_length] at hjoined
    refine h.quiet (fun _ => rfl) (fun _ => rfl) (fun _ => rfl) (fun _ => rfl) fun i => ?_
    refine (List.flatMap_eq_nil_iff.mpr fun t ht => ?_).symm
    simp [ConnectionThread.inHand, hjoined t ht, Receiver.Place.inHand]
  | loop hsplit hc hvalid hloop => exact h.loop hsplit hc hloop
  | arrive hc harrival => exact h.arrive hc harrival

end Received

/-! ### One session after the other -/

/-- **Each connection has one thread**, with a reference that is valid. -/
structure Sessions (trace : List ManagerEvent) (s : ConnectionManager) : Prop where
  nodup : (s.threads.map ConnectionThread.client).Nodup
  begun : ∀ k, s.caller = .starting k → ∀ t ∈ s.threads, t.client < k
  valid : ∀ t ∈ s.threads, t.valid = true
  inOrder : ∀ i, handedFrom i trace ++ s.inHand i = receivedFrom i trace

/-- No other thread has anything of the connection in hand. -/
theorem others_inHand (h : ((pre ++ t :: post).map ConnectionThread.client).Nodup) :
    pre.flatMap (ConnectionThread.inHand t.client) = [] ∧ post.flatMap (ConnectionThread.inHand t.client) = [] := by
  rw [List.map_append, List.map_cons, List.nodup_middle, List.nodup_cons, ← List.map_append] at h
  have hother (u : ConnectionThread) (hu : u ∈ pre ++ post) : u.inHand t.client = [] :=
    if_neg fun heq : u.client = t.client => h.1 (heq ▸ List.mem_map_of_mem hu)
  exact ⟨List.flatMap_eq_nil_iff.mpr fun u hu => hother u (List.mem_append_left _ hu),
    List.flatMap_eq_nil_iff.mpr fun u hu => hother u (List.mem_append_right _ hu)⟩

namespace Sessions

theorem create : Sessions [] .create := ⟨List.nodup_nil, nofun, nofun, fun _ => rfl⟩

/-- A step that leaves the threads as they are. -/
theorem quiet (h : Sessions trace s) (hreceived : ∀ i, e.received i = []) (hhanded : ∀ i, e.handed i = [])
    (hthreads : s'.threads = s.threads) (hbegun : ∀ k, s'.caller = .starting k → ∀ t ∈ s.threads, t.client < k) :
    Sessions (trace ++ [e]) s' where
  nodup := hthreads ▸ h.nodup
  begun := hthreads ▸ hbegun
  valid := hthreads ▸ h.valid
  inOrder i := by simpa [hreceived, hhanded, ConnectionManager.inHand, hthreads] using h.inOrder i

/-- A step behind which there are no threads, and nothing was in hand. -/
theorem none (h : Sessions trace s) (hreceived : ∀ i, e.received i = []) (hhanded : ∀ i, e.handed i = [])
    (hthreads : s'.threads = []) (hinHand : ∀ i, s.inHand i = []) : Sessions (trace ++ [e]) s' where
  nodup := by simp [hthreads]
  begun k _ t ht := by simp [hthreads] at ht
  valid t ht := by simp [hthreads] at ht
  inOrder i := by
    have horder := h.inOrder i
    rw [hinHand] at horder
    simpa [hreceived, hhanded, ConnectionManager.inHand, hthreads] using horder

/-- **A thread is started** for the next connection. -/
theorem emplace (h : Sessions trace s) {k : ℕ} (hstarting : s.caller = .starting k) :
    Sessions (trace ++ [.silent]) { s with threads := s.threads ++ [.create k], caller := .starting (k + 1) } where
  nodup := by
    rw [List.map_append, List.map_singleton, List.nodup_append]
    refine ⟨h.nodup, List.nodup_singleton _, fun n hn n' hn' => ?_⟩
    obtain ⟨u, hu, rfl⟩ := List.mem_map.mp hn
    rw [List.mem_singleton.mp hn']
    exact Nat.ne_of_lt (h.begun k hstarting u hu)
  begun k' hk' u hu := by
    obtain rfl := ManagerCaller.starting.inj hk'
    rcases List.mem_append.mp hu with hu | hu
    · exact Nat.lt_succ_of_lt (h.begun k hstarting u hu)
    · rw [List.mem_singleton.mp hu]
      exact Nat.lt_succ_self k
  valid u hu := by
    rcases List.mem_append.mp hu with hu | hu
    · exact h.valid u hu
    · rw [List.mem_singleton.mp hu]
      rfl
  inOrder i := by
    simpa [ManagerEvent.received, ManagerEvent.handed, ConnectionManager.inHand, ConnectionThread.create,
      ConnectionThread.inHand, Receiver.Place.inHand] using h.inOrder i

/-- **A step of a thread**, which is the only one of its connection. -/
theorem loop (h : Sessions trace s) {e : Receiver.Event Bytes} (hsplit : s.threads = pre ++ t :: post)
    (hs : TcpConnectionManager.readLoop.Step s.running c t.place e c' p) :
    Sessions (trace ++ [.loop t.client e]) { s with
      clients := s.clients.set t.client c'
      threads := pre ++ { t with place := p } :: post } where
  nodup := by simpa [hsplit] using h.nodup
  begun k hstarting u hu := by
    have hbegun := h.begun k hstarting
    rw [hsplit] at hbegun
    rcases List.mem_append.mp hu with hu | hu
    · exact hbegun u (List.mem_append_left _ hu)
    · rcases List.mem_cons.mp hu with rfl | hu
      · exact hbegun t (by simp)
      · exact hbegun u (by simp [hu])
  valid u hu := by
    have hvalid := h.valid
    rw [hsplit] at hvalid
    rcases List.mem_append.mp hu with hu | hu
    · exact hvalid u (List.mem_append_left _ hu)
    · rcases List.mem_cons.mp hu with rfl | hu
      · exact hvalid t (by simp)
      · exact hvalid u (by simp [hu])
  inOrder i := by
    have horder := h.inOrder i
    rw [inHand_split hsplit] at horder
    rw [receivedFrom_snoc, handedFrom_snoc, inHand_split rfl]
    by_cases hi : t.client = i
    · subst hi
      obtain ⟨hpre, hpost⟩ := others_inHand (hsplit ▸ h.nodup)
      simp only [hpre, hpost, ConnectionThread.inHand, if_true, List.nil_append, List.append_nil] at horder ⊢
      simp only [ManagerEvent.received, ManagerEvent.handed, if_true]
      rw [← horder, List.append_assoc, List.append_assoc, hs.inHand]
    · simpa [ManagerEvent.received, ManagerEvent.handed, ConnectionThread.inHand, hi] using horder

/-- **Every step**, if the calls alternate. -/
theorem step (h : Sessions trace s) (hcalls : InCalls s) (hs : ConnectionManager.Step s e s')
    (hadded : e ≠ .added true) (hstart : e ≠ .starting true) : Sessions (trace ++ [e]) s' := by
  cases hs with
  | addConnection moves hidle =>
    have hstopped : s.running = false := Bool.eq_false_iff.mpr fun hrunning => hadded (by rw [hrunning])
    have hthreads := hcalls.stopped hidle hstopped
    exact h.none (fun _ => rfl) (fun _ => rfl) (by cases moves <;> simp [hthreads])
      fun i => by simp [ConnectionManager.inHand, hthreads]
  | startAll hidle =>
    have hstopped : s.running = false := Bool.eq_false_iff.mpr fun hrunning => hstart (by rw [hrunning])
    have hthreads := hcalls.stopped hidle hstopped
    exact h.none (fun _ => rfl) (fun _ => rfl) hthreads fun i => by simp [ConnectionManager.inHand, hthreads]
  | emplace hstarting hk => exact h.emplace hstarting
  | started => exact h.quiet (fun _ => rfl) (fun _ => rfl) rfl nofun
  | stopAll => exact h.quiet (fun _ => rfl) (fun _ => rfl) rfl nofun
  | join => exact h.quiet (fun _ => rfl) (fun _ => rfl) rfl nofun
  | clear hjoining =>
    have hjoined := hcalls.joined _ hjoining
    rw [List.take_length] at hjoined
    refine h.none (fun _ => rfl) (fun _ => rfl) rfl fun i => List.flatMap_eq_nil_iff.mpr fun t ht => ?_
    simp [ConnectionThread.inHand, hjoined t ht, Receiver.Place.inHand]
  | loop hsplit hc hvalid hloop => exact h.loop hsplit hloop
  | arrive hc harrival => exact h.quiet (fun _ => rfl) (fun _ => rfl) rfl h.begun

/-- No more than one piece of a connection is in hand. -/
theorem inHand_le_one (h : Sessions trace s) (i : ℕ) : (s.inHand i).length ≤ 1 := by
  by_cases hi : ∃ t ∈ s.threads, t.client = i
  · obtain ⟨t, ht, rfl⟩ := hi
    obtain ⟨pre, post, hsplit⟩ := List.append_of_mem ht
    obtain ⟨hpre, hpost⟩ := others_inHand (hsplit ▸ h.nodup)
    rw [inHand_split hsplit, hpre, hpost, ConnectionThread.inHand, if_pos rfl]
    cases t.place <;> simp [Receiver.Place.inHand]
  · have hnone : s.inHand i = [] := List.flatMap_eq_nil_iff.mpr fun t ht => if_neg fun heq => hi ⟨t, ht, heq⟩
    simp [hnone]

theorem not_dangles (h : Sessions trace s) : ¬ s.Dangles := by
  rintro ⟨t, ht, hinvalid, -⟩
  simp [h.valid t ht] at hinvalid

end Sessions

end Steps

/-- **What becomes of the bytes of a connection**, over every run and whatever is called when: those received
are the first of those that have arrived, in pieces that fit; each piece is handed on once, or is in
hand. If `addConnection` and `startAll` are called only behind `stopAll`, no reference dangles and the pieces are
handed on in order, one in hand at most, over all sessions. -/
theorem sessions_deliver {trace : List ManagerEvent} {s : ConnectionManager}
    (h : Run ConnectionManager.Step .create trace s) (i : ℕ) :
    (receivedFrom i trace).flatten ++ s.unread i = arrivedFrom i trace ∧
      (∀ b ∈ receivedFrom i trace, b ≠ [] ∧ b.length ≤ 4096) ∧
      (handedFrom i trace ++ s.inHand i).Perm (receivedFrom i trace) ∧
      (Alternating trace → ¬ s.Dangles ∧ handedFrom i trace ++ s.inHand i = receivedFrom i trace ∧
        (s.inHand i).length ≤ 1) := by
  obtain ⟨-, hreceived, hsessions⟩ : InCalls s ∧ Received trace s ∧ (Alternating trace → Sessions trace s) := by
    refine h.invariant (fun trace s => InCalls s ∧ Received trace s ∧ (Alternating trace → Sessions trace s))
      ⟨.create, .create, fun _ => .create⟩ fun trace s e s' hI hs => ?_
    obtain ⟨hcalls, hreceived, hsessions⟩ := hI
    refine ⟨hcalls.step hs, hreceived.step hcalls hs, fun halternating => ?_⟩
    obtain ⟨hadded, hstart⟩ := halternating
    simp only [List.mem_append, List.mem_singleton, not_or] at hadded hstart
    exact (hsessions ⟨hadded.1, hstart.1⟩).step hcalls hs (Ne.symm hadded.2) (Ne.symm hstart.2)
  refine ⟨hreceived.bytes i, hreceived.fits i, hreceived.once i, fun halternating => ?_⟩
  have hsession := hsessions halternating
  exact ⟨hsession.not_dangles, hsession.inOrder i, hsession.inHand_le_one i⟩

/-- A connection of whose bytes the first two are in hand. -/
theorem sessions_deliver_one : ∃ (trace : List ManagerEvent) (s : ConnectionManager), arrivedFrom 0 trace = [7, 8, 9] ∧
    ¬ s.Dangles ∧ handedFrom 0 trace ++ s.inHand 0 = receivedFrom 0 trace ∧ s.inHand 0 = [[7, 8]] := by
  have h0 : Run ConnectionManager.Step .create [] ⟨false, [], [], .idle⟩ := .nil
  have h1 : Run ConnectionManager.Step .create [.added false] ⟨false, [⟨[], .connected⟩], [], .idle⟩ :=
    h0.snoc (.addConnection false rfl)
  have h2 : Run ConnectionManager.Step .create [.added false, .starting false]
      ⟨true, [⟨[], .connected⟩], [], .starting 0⟩ := h1.snoc (.startAll rfl)
  have h3 : Run ConnectionManager.Step .create [.added false, .starting false, .silent]
      ⟨true, [⟨[], .connected⟩], [⟨0, .check, true⟩], .starting 1⟩ := h2.snoc (.emplace rfl (by decide))
  have h4 : Run ConnectionManager.Step .create [.added false, .starting false, .silent, .arrived 0 [7, 8, 9]]
      ⟨true, [⟨[7, 8, 9], .connected⟩], [⟨0, .check, true⟩], .starting 1⟩ :=
    h3.snoc (.arrive rfl (.bytes [7, 8, 9] rfl))
  have h5 : Run ConnectionManager.Step .create
      [.added false, .starting false, .silent, .arrived 0 [7, 8, 9], .loop 0 .silent]
      ⟨true, [⟨[7, 8, 9], .connected⟩], [⟨0, .recv, true⟩], .starting 1⟩ :=
    h4.snoc (.loop (show _ = [] ++ ⟨0, .check, true⟩ :: [] from rfl) rfl (fun _ _ => rfl) (.enter _ rfl))
  have h6 : Run ConnectionManager.Step .create
      [.added false, .starting false, .silent, .arrived 0 [7, 8, 9], .loop 0 .silent, .loop 0 (.received [7, 8])]
      ⟨true, [⟨[9], .connected⟩], [⟨0, .hand [7, 8], true⟩], .starting 1⟩ :=
    h5.snoc (.loop (show _ = [] ++ ⟨0, .recv, true⟩ :: [] from rfl) rfl nofun
      (.received (.bytes (by decide) (by decide) rfl)))
  obtain ⟨-, -, -, horder⟩ := sessions_deliver h6 0
  obtain ⟨hvalid, hinHand, -⟩ := horder ⟨by simp, by simp⟩
  exact ⟨_, _, by decide, hvalid, hinHand, rfl⟩

end Scrimmage.Networking
