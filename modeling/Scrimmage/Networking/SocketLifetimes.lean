import Scrimmage.Theory.Ownership
import Scrimmage.Theory.Transition
import Mathlib.Tactic.Common

/-!
# The sockets of the clients

The constructors and destructors of `TcpClient`, `UdpSocket`, `UdpMulticastSender` and
`UdpMulticastReceiver`. Each of them owns one descriptor, which its constructor makes and sets up and its
destructor closes.

## The model

* A constructor is a list of calls (`Setup`) on the socket it has made: each with the test of what it
  returns, and with what is done when the test says that it has failed.
* `construct` are the constructors. What the system returns is an argument.
* `SocketTable` has the descriptors that are open in the process, and `Step` makes and destroys objects
  in any order, while the rest of the process opens and closes descriptors of its own.

## What is proved

* `setUp_eq_some_iff`: the text thrown is that of the first call that fails.
* `descriptors_accounted`: in every state reached the descriptors are those of the objects there are,
  one each, those of the rest of the process, and those of the UDP objects whose constructor has thrown
  when it had its socket.
-/

namespace Scrimmage.Networking

open Theory

/-! ### The model -/

/-- The options that are set. -/
inductive SocketOption where
  /-- `TCP_NODELAY`. -/
  | noDelay
  /-- `SO_SNDBUF`. -/
  | sendBuffer
  /-- `SO_RCVBUF`. -/
  | receiveBuffer
  /-- `SO_REUSEADDR`. -/
  | reuseAddress
  /-- `SO_REUSEPORT`. -/
  | reusePort
  /-- `IP_MULTICAST_TTL`. -/
  | multicastTtl
  /-- `IP_MULTICAST_LOOP`. -/
  | multicastLoop
  deriving DecidableEq

/-- The calls a constructor makes once it has its socket. -/
inductive SocketCall where
  /-- `setsockopt` of a number. -/
  | setOption (option : SocketOption) (value : Int32)
  /-- `inet_pton`. -/
  | inetPton (address : String)
  /-- `connect` to the address `inet_pton` has made. -/
  | connect (port : UInt16)
  /-- `bind` to the port of all addresses. -/
  | bind (port : UInt16)
  /-- `setsockopt` of `IP_ADD_MEMBERSHIP`, with the address `inet_pton` has made. -/
  | addMembership
  deriving DecidableEq

/-- What the system does with a call. -/
structure Returned where
  /-- What the call returns. -/
  result : ℤ
  /-- `strerror(errno)` after it. -/
  errorText : String

/-- A call of a constructor, and what the constructor makes of it. -/
structure Setup where
  /-- The call. -/
  call : SocketCall
  /-- The test of the result. -/
  fails : ℤ → Bool
  /-- Whether the socket is closed before the throw. -/
  closes : Bool
  /-- What is thrown, with the text of the error. -/
  error : String → String

/-- A call whose result is not looked at. -/
def Setup.ignored (call : SocketCall) : Setup := ⟨call, fun _ => false, false, fun _ => ""⟩

/-- `static_cast<int>` of a `size_t`. -/
def intOfSize (size : UInt64) : Int32 := size.toUInt32.toInt32

/-- The constructor of `TcpClient`, after `socket`. -/
def TcpClient.setup (host : String) (port : UInt16) (enableNoDelay : Bool) (sendBufferSize recvBufferSize : UInt64) :
    List Setup :=
  [⟨.inetPton host, (· ≠ 1), true, fun _ => "Invalid host address: " ++ host⟩,
    ⟨.connect port, (· < 0), true, fun errorText =>
      "Failed to connect to " ++ host ++ ":" ++ toString port ++ " : " ++ errorText⟩] ++
  (if enableNoDelay then [.ignored (.setOption .noDelay 1)] else []) ++
  (if sendBufferSize > 0 then [.ignored (.setOption .sendBuffer (intOfSize sendBufferSize))] else []) ++
  if recvBufferSize > 0 then [.ignored (.setOption .receiveBuffer (intOfSize recvBufferSize))] else []

/-- The constructor of `UdpSocket`, after `socket`. -/
def UdpSocket.setup (address : String) : List Setup :=
  [⟨.inetPton address, (· ≤ 0), false, fun _ => "Invalid UDP address: " ++ address⟩]

/-- The constructor of `UdpMulticastSender`, after `socket`. -/
def UdpMulticastSender.setup (multicastAddr : String) (ttl : UInt8) : List Setup :=
  [⟨.setOption .multicastTtl (.ofNat ttl.toNat), (· < 0), false, fun _ => "Failed to set multicast TTL"⟩,
    ⟨.setOption .multicastLoop 1, (· < 0), false, fun _ => "Failed to enable multicast loopback"⟩,
    ⟨.inetPton multicastAddr, (· ≤ 0), false, fun _ => "Invalid multicast address: " ++ multicastAddr⟩]

/-- The constructor of `UdpMulticastReceiver`, after `socket`. -/
def UdpMulticastReceiver.setup (multicastAddr : String) (port : UInt16) (recvBufferSize : UInt64) : List Setup :=
  [⟨.setOption .reuseAddress 1, (· < 0), false, fun _ => "Failed to set SO_REUSEADDR"⟩,
    .ignored (.setOption .reusePort 1),
    .ignored (.setOption .receiveBuffer (intOfSize recvBufferSize)),
    ⟨.bind port, (· < 0), false, fun _ => "Bind failed on port " ++ toString port⟩,
    ⟨.inetPton multicastAddr, (· ≠ 1), false, fun _ => "Invalid multicast address: " ++ multicastAddr⟩,
    ⟨.addMembership, (· < 0), false, fun _ => "Failed to join multicast group: " ++ multicastAddr⟩]

/-- A call of a constructor: which, and with what. -/
inductive Construction where
  /-- `TcpClient(host, port, enableNoDelay, sendBufferSize, recvBufferSize)`. -/
  | tcpClient (host : String) (port : UInt16) (enableNoDelay : Bool) (sendBufferSize recvBufferSize : UInt64)
  /-- `UdpSocket(address, port)`. -/
  | udpSocket (address : String) (port : UInt16)
  /-- `UdpMulticastSender(multicastAddr, port, ttl)`. -/
  | udpMulticastSender (multicastAddr : String) (port : UInt16) (ttl : UInt8)
  /-- `UdpMulticastReceiver(multicastAddr, port, recvBufferSize)`. -/
  | udpMulticastReceiver (multicastAddr : String) (port : UInt16) (recvBufferSize : UInt64)
  deriving DecidableEq

namespace Construction

/-- The calls after `socket`. -/
def setup : Construction → List Setup
  | tcpClient host port enableNoDelay sendBufferSize recvBufferSize =>
    TcpClient.setup host port enableNoDelay sendBufferSize recvBufferSize
  | udpSocket address _ => UdpSocket.setup address
  | udpMulticastSender multicastAddr _ ttl => UdpMulticastSender.setup multicastAddr ttl
  | udpMulticastReceiver multicastAddr port recvBufferSize => UdpMulticastReceiver.setup multicastAddr port recvBufferSize

/-- What is thrown when there is no socket, before the text of the error. -/
def socketError : Construction → String
  | tcpClient .. => "TCP socket creation failed: "
  | udpSocket .. | udpMulticastSender .. | udpMulticastReceiver .. => "UDP socket creation failed: "

/-- Whether it is one of the UDP classes. -/
def udp : Construction → Bool
  | tcpClient .. => false
  | udpSocket .. | udpMulticastSender .. | udpMulticastReceiver .. => true

end Construction

/-- The calls of a constructor in order, up to the first that fails: what is then thrown, and whether the
socket has been closed. `returned` is what the calls made return. -/
def setUp : List Setup → (ℕ → Returned) → Option (String × Bool)
  | [], _ => none
  | s :: setup, returned =>
    if s.fails (returned 0).result then some (s.error (returned 0).errorText, s.closes)
    else setUp setup fun n => returned (n + 1)

/-- **A constructor**, when `socket` returns a descriptor or fails: what comes of it, and what is open
afterwards. -/
def construct (c : Construction) (socket : Option ℕ) (errorText : String) (returned : ℕ → Returned) :
    Except String ℕ × List ℕ :=
  match socket with
  | none => (.error (c.socketError ++ errorText), [])
  | some fd =>
    match setUp c.setup returned with
    | none => (.ok fd, [fd])
    | some (text, closed) => (.error text, if closed then [] else [fd])

/-- The objects and the descriptors of a process. -/
structure SocketTable where
  /-- The descriptors that are open. -/
  descriptors : List ℕ
  /-- The objects there are, each with its `_socket`. -/
  objects : List (Construction × ℕ)
  /-- The descriptors that the rest of the process has. -/
  others : List ℕ

/-- What can be seen of a step. -/
inductive LifetimeEvent where
  /-- An object has been made. -/
  | constructed (c : Construction) (fd : ℕ)
  /-- A constructor throws. -/
  | threw (c : Construction) (socket : Option ℕ) (text : String)
  /-- An object is destroyed, and its descriptor closed. -/
  | destroyed (c : Construction) (fd : ℕ)
  /-- The rest of the process opens or closes a descriptor. -/
  | outside

namespace SocketTable

/-- A process with some descriptors open. -/
def create (others : List ℕ) : SocketTable := ⟨others, [], others⟩

/-- **The steps.** -/
inductive Step : SocketTable → LifetimeEvent → SocketTable → Prop where
  | construct {s : SocketTable} {c : Construction} {socket : Option ℕ} {errorText : String} {returned : ℕ → Returned}
    {fd : ℕ} {left : List ℕ} : (∀ fd ∈ socket, fd ∉ s.descriptors) →
    Networking.construct c socket errorText returned = (.ok fd, left) →
    Step s (.constructed c fd) { s with descriptors := left ++ s.descriptors, objects := (c, fd) :: s.objects }
  | throw {s : SocketTable} {c : Construction} {socket : Option ℕ} {errorText text : String} {returned : ℕ → Returned}
    {left : List ℕ} : (∀ fd ∈ socket, fd ∉ s.descriptors) →
    Networking.construct c socket errorText returned = (.error text, left) →
    Step s (.threw c socket text) { s with descriptors := left ++ s.descriptors }
  | destroy {s : SocketTable} {pre post : List (Construction × ℕ)} {c : Construction} {fd : ℕ} :
    s.objects = pre ++ (c, fd) :: post →
    Step s (.destroyed c fd) { s with descriptors := s.descriptors.erase fd, objects := pre ++ post }
  | openOther {s : SocketTable} {fd : ℕ} : fd ∉ s.descriptors →
    Step s .outside { s with descriptors := fd :: s.descriptors, others := fd :: s.others }
  | closeOther {s : SocketTable} {fd : ℕ} : fd ∈ s.others →
    Step s .outside { s with descriptors := s.descriptors.erase fd, others := s.others.erase fd }

end SocketTable

/-! ### A constructor -/

section Constructor

variable {setup : List Setup} {returned : ℕ → Returned} {text : String} {closed : Bool} {c : Construction}

/-- **What is thrown**: the text of the first call that fails, after which no more are made. -/
theorem setUp_eq_some_iff : setUp setup returned = some (text, closed) ↔
    ∃ (k : ℕ) (s : Setup), setup[k]? = some s ∧
      (∀ (j : ℕ) (s' : Setup), j < k → setup[j]? = some s' → s'.fails (returned j).result = false) ∧
      s.fails (returned k).result = true ∧ text = s.error (returned k).errorText ∧ closed = s.closes := by
  induction setup generalizing returned with
  | nil => simp [setUp]
  | cons s setup ih =>
    by_cases hs : s.fails (returned 0).result = true
    · simp only [setUp, if_pos hs, Option.some.injEq, Prod.mk.injEq]
      constructor
      · rintro ⟨rfl, rfl⟩
        exact ⟨0, s, rfl, fun j s' hj => absurd hj (Nat.not_lt_zero j), hs, rfl, rfl⟩
      · rintro ⟨k, s', hs', hbefore, -, rfl, rfl⟩
        cases k with
        | zero =>
          obtain rfl : s = s' := Option.some.inj hs'
          exact ⟨rfl, rfl⟩
        | succ k =>
          have := hbefore 0 s (Nat.succ_pos k) rfl
          rw [hs] at this
          cases this
    · rw [setUp, if_neg hs, ih]
      constructor
      · rintro ⟨k, s', hs', hbefore, hrest⟩
        refine ⟨k + 1, s', hs', fun j s₀ hj hs₀ => ?_, hrest⟩
        cases j with
        | zero =>
          obtain rfl : s = s₀ := Option.some.inj hs₀
          exact Bool.eq_false_iff.mpr hs
        | succ j => exact hbefore j s₀ (by omega) hs₀
      · rintro ⟨k, s', hs', hbefore, hfails, hrest⟩
        cases k with
        | zero =>
          obtain rfl : s = s' := Option.some.inj hs'
          exact absurd hfails hs
        | succ k => exact ⟨k, s', hs', fun j s₀ hj => hbefore (j + 1) s₀ (by omega), hfails, hrest⟩

/-- **A call that can fail** closes the socket in `TcpClient`, and in no other class. -/
theorem closes_of_fails {s : Setup} (hs : s ∈ c.setup) {r : ℤ} (hfails : s.fails r = true) : s.closes = !c.udp := by
  have hignored {call : SocketCall} (h : s = .ignored call) : s.closes = !c.udp := by
    rw [h] at hfails
    cases hfails
  cases c with
  | tcpClient host port enableNoDelay sendBufferSize recvBufferSize =>
    simp only [Construction.setup, TcpClient.setup, List.mem_append, List.mem_cons, List.not_mem_nil, or_false] at hs
    rcases hs with (((rfl | rfl) | hs) | hs) | hs
    · rfl
    · rfl
    all_goals
      split_ifs at hs
      · exact hignored (List.mem_singleton.mp hs)
      · cases hs
  | udpSocket address port =>
    obtain rfl := List.mem_singleton.mp hs
    rfl
  | udpMulticastSender multicastAddr port ttl =>
    simp only [Construction.setup, UdpMulticastSender.setup, List.mem_cons, List.not_mem_nil, or_false] at hs
    rcases hs with rfl | rfl | rfl <;> rfl
  | udpMulticastReceiver multicastAddr port recvBufferSize =>
    simp only [Construction.setup, UdpMulticastReceiver.setup, List.mem_cons, List.not_mem_nil, or_false] at hs
    rcases hs with rfl | hs | hs | rfl | rfl | rfl
    · rfl
    · exact hignored hs
    · exact hignored hs
    · rfl
    · rfl
    · rfl

variable {socket : Option ℕ} {errorText : String} {left : List ℕ} {fd : ℕ}

/-- An object that has been made has its socket. -/
theorem left_of_ok (h : construct c socket errorText returned = (.ok fd, left)) : socket = some fd ∧ left = [fd] := by
  cases socket with
  | none => cases h
  | some fd' =>
    rw [construct] at h
    cases hsetup : setUp c.setup returned with
    | none =>
      rw [hsetup] at h
      obtain ⟨hfd, rfl⟩ := Prod.mk.inj h
      obtain rfl : fd' = fd := Except.ok.inj hfd
      exact ⟨rfl, rfl⟩
    | some e =>
      rw [hsetup] at h
      cases h

/-- **A constructor that throws** leaves its socket open if it has one and it is one of the UDP classes. -/
theorem left_of_error (h : construct c socket errorText returned = (.error text, left)) :
    left = if c.udp then socket.toList else [] := by
  cases socket with
  | none =>
    obtain ⟨-, rfl⟩ := Prod.mk.inj h
    simp
  | some fd =>
    rw [construct] at h
    cases hsetup : setUp c.setup returned with
    | none =>
      rw [hsetup] at h
      cases h
    | some e =>
      rw [hsetup] at h
      obtain ⟨-, rfl⟩ := Prod.mk.inj h
      obtain ⟨k, s, hs, -, hfails, -, hclosed⟩ := setUp_eq_some_iff.mp hsetup
      rw [hclosed, closes_of_fails (List.mem_of_getElem? hs) hfails]
      cases c.udp <;> rfl

end Constructor

/-! ### Runs -/

/-- The descriptor that nobody closes any more: a UDP constructor has thrown when it had it. -/
def LifetimeEvent.leaked : LifetimeEvent → List ℕ
  | .threw c socket _ => if c.udp then socket.toList else []
  | _ => []

/-- The descriptors that nobody closes any more. -/
def leakedIn (trace : List LifetimeEvent) : List ℕ := trace.flatMap LifetimeEvent.leaked

@[simp] theorem leakedIn_snoc (trace : List LifetimeEvent) (e : LifetimeEvent) :
    leakedIn (trace ++ [e]) = leakedIn trace ++ e.leaked := by simp [leakedIn]

/-- The descriptors of the objects. -/
def SocketTable.owned (s : SocketTable) : List ℕ := s.objects.map Prod.snd

/-- **Every step keeps the account of the descriptors.** -/
theorem SocketTable.Step.ownership {trace : List LifetimeEvent} {s s' : SocketTable} {e : LifetimeEvent}
    (hs : Step s e s') (h : Ownership s.descriptors (s.owned ++ leakedIn trace) s.others) :
    Ownership s'.descriptors (s'.owned ++ leakedIn (trace ++ [e])) s'.others := by
  rw [leakedIn_snoc]
  cases hs with
  | construct hfree hc =>
    obtain ⟨rfl, rfl⟩ := left_of_ok hc
    exact h.acquire (hfree _ rfl) (by simp [owned, LifetimeEvent.leaked])
  | @throw c socket errorText text returned left hfree hc =>
    obtain rfl := left_of_error hc
    cases hudp : c.udp with
    | false => simpa [owned, LifetimeEvent.leaked, hudp] using h
    | true =>
      cases socket with
      | none => simpa [owned, LifetimeEvent.leaked] using h
      | some fd =>
        refine h.acquire (hfree fd rfl) ?_
        simp only [LifetimeEvent.leaked, hudp, if_true, Option.toList_some, ← List.append_assoc]
        exact List.perm_append_singleton fd _
  | @destroy pre post c fd hsplit =>
    refine h.release ?_
    simp only [owned, hsplit, LifetimeEvent.leaked, List.map_append, List.map_cons, List.append_nil]
    exact List.perm_middle.append_right _
  | openOther hfree => simpa [owned, LifetimeEvent.leaked] using h.acquireOther hfree
  | closeOther hmem => simpa [owned, LifetimeEvent.leaked] using h.releaseOther hmem

/-- **The account of the descriptors**, in every state reached: no descriptor is there twice, and those that
are open are those of the objects, of the rest of the process, and of the UDP objects whose constructor
has thrown when it had its socket. So nothing else is left open exactly if no UDP constructor has. -/
theorem descriptors_accounted {others : List ℕ} (hothers : others.Nodup) {trace : List LifetimeEvent} {s : SocketTable}
    (h : Run SocketTable.Step (.create others) trace s) :
    s.descriptors.Nodup ∧ s.descriptors.Perm (s.owned ++ leakedIn trace ++ s.others) ∧
      (s.descriptors.Perm (s.owned ++ s.others) ↔ ∀ c fd text, .threw c (some fd) text ∈ trace → c.udp = false) := by
  have hown : Ownership s.descriptors (s.owned ++ leakedIn trace) s.others :=
    Run.invariant (fun trace s => Ownership s.descriptors (s.owned ++ leakedIn trace) s.others)
      (Ownership.initial hothers) (fun _ _ _ _ hI hs => hs.ownership hI) h
  refine ⟨hown.nodup, hown.perm, ?_⟩
  have hnone : leakedIn trace = [] ↔ ∀ c fd text, .threw c (some fd) text ∈ trace → c.udp = false := by
    rw [leakedIn, List.flatMap_eq_nil_iff]
    constructor
    · intro hnil c fd text hmem
      have := hnil _ hmem
      cases hudp : c.udp with
      | false => rfl
      | true => simp [LifetimeEvent.leaked, hudp] at this
    · intro htcp e hmem
      cases e with
      | threw c socket text =>
        cases socket with
        | none => simp [LifetimeEvent.leaked]
        | some fd => simp [LifetimeEvent.leaked, htcp c fd text hmem]
      | constructed | destroyed | outside => rfl
  rw [← hnone, ← List.length_eq_zero_iff]
  constructor
  · intro hperm
    have := (hperm.symm.trans hown.perm).length_eq
    simp only [List.length_append] at this
    omega
  · intro hlen
    simpa [List.length_eq_zero_iff.mp hlen] using hown.perm

/-- A `UdpSocket` whose address is none, and a `TcpClient` that is destroyed. -/
theorem descriptors_accounted_two : ∃ trace : List LifetimeEvent, ∃ s : SocketTable, s.descriptors = [1, 0] ∧
    s.owned = [] ∧ leakedIn trace = [1] ∧ s.descriptors.Perm (s.owned ++ leakedIn trace ++ s.others) := by
  have hrun : Run SocketTable.Step (.create [0]) _ _ :=
    Run.nil
      |>.snoc (@SocketTable.Step.throw _ (.udpSocket "here" 80) (some 1) "" _ (fun _ => ⟨0, ""⟩) _
        (by simp [SocketTable.create]) rfl)
      |>.snoc (@SocketTable.Step.construct _ (.tcpClient "127.0.0.1" 80 true 0 0) (some 2) ""
        (fun n => ⟨if n = 0 then 1 else 0, ""⟩) _ _ (by simp [SocketTable.create]) rfl)
      |>.snoc (.destroy (List.nil_append _).symm)
  exact ⟨_, _, rfl, rfl, rfl, (descriptors_accounted (by decide) hrun).2.1⟩

end Scrimmage.Networking
