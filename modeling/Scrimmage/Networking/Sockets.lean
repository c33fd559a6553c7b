import Scrimmage.Theory.Receiver
import Scrimmage.Networking.TcpFramer

/-!
# What sockets receive

A TCP connection and a UDP socket as the kernel keeps them for the process that receives, and
what a call on them gives. What arrives, and when, is for the other end and the network.

## The rules

* `Stream.Recv.unread`: bytes are read once, in the order in which they arrive.
* `Datagrams.Recv.queue`: and so are datagrams, the end of those that are too long being lost.
-/

namespace Scrimmage.Networking

open Theory

/-! ### TCP -/

/-- What has become of the other end of a connection. -/
inductive Ending where
  /-- It is still there. -/
  | connected
  /-- It has closed, and nothing more is to arrive. -/
  | closed
  /-- The connection has failed. -/
  | broken
  deriving DecidableEq

/-- A connection. -/
structure Stream where
  /-- What has arrived and has not been read. -/
  unread : Bytes
  /-- The other end. -/
  ending : Ending

/-- A connection that has been made. -/
def Stream.create : Stream := ⟨[], .connected⟩

/-- **`read` or `recv`** into a buffer: as many bytes as there are, or fewer. It returns none
when the other end has closed and all is read, or with an error; and not before. -/
inductive Stream.Recv (bufferSize : ℕ) : Stream → Option Bytes → Stream → Prop where
  | bytes {c : Stream} {bytes rest : Bytes} : bytes ≠ [] → bytes.length ≤ bufferSize → c.unread = bytes ++ rest →
    Recv bufferSize c (some bytes) { c with unread := rest }
  | closed {c : Stream} : c.ending = .closed → c.unread = [] → Recv bufferSize c none c
  | broken {c : Stream} : c.ending = .broken → Recv bufferSize c none c

/-- What the network does to a connection: bytes arrive, or it ends. -/
inductive Stream.Arrival : Stream → Bytes → Stream → Prop where
  | bytes {c : Stream} (bytes : Bytes) : c.ending = .connected → Arrival c bytes { c with unread := c.unread ++ bytes }
  | ends {c : Stream} (ending : Ending) : c.ending = .connected → Arrival c [] { c with ending := ending }

namespace Stream

variable {bufferSize : ℕ} {c c' : Stream} {r : Option Bytes} {bytes : Bytes}

/-- **What is read is no more there.** -/
theorem Recv.unread (h : Recv bufferSize c r c') : c.unread = r.getD [] ++ c'.unread ∧ c'.ending = c.ending := by
  cases h with
  | bytes _ _ heq => exact ⟨heq, rfl⟩
  | closed | broken => exact ⟨rfl, rfl⟩

/-- What is read is some bytes, and no more than fit. -/
theorem Recv.fits (h : Recv bufferSize c (some bytes) c') : bytes ≠ [] ∧ bytes.length ≤ bufferSize := by
  cases h with
  | bytes hne hlen _ => exact ⟨hne, hlen⟩

/-- A call that returns nothing: the other end is gone, and if it has closed all is read. -/
theorem Recv.of_none (h : Recv bufferSize c none c') :
    c' = c ∧ c.ending ≠ .connected ∧ (c.ending = .closed → c.unread = []) := by
  cases h with
  | closed hclosed hunread => exact ⟨rfl, by simp [hclosed], fun _ => hunread⟩
  | broken hbroken => exact ⟨rfl, by simp [hbroken], by simp [hbroken]⟩

/-- **A call returns** once there is something to read, or nothing more to wait for. -/
theorem exists_recv (hsize : 0 < bufferSize) (h : c.unread ≠ [] ∨ c.ending ≠ .connected) :
    ∃ r c', Recv bufferSize c r c' := by
  obtain ⟨unread, ending⟩ := c
  cases unread with
  | cons b unread => exact ⟨_, _, .bytes (List.cons_ne_nil b []) hsize rfl⟩
  | nil =>
    cases ending with
    | connected => simp at h
    | closed => exact ⟨_, _, .closed rfl rfl⟩
    | broken => exact ⟨_, _, .broken rfl⟩

/-- A call waits as long as there is nothing to read and the other end is there. -/
theorem recv_waits (hunread : c.unread = []) (hending : c.ending = .connected) : ¬ Recv bufferSize c r c' := by
  intro h
  cases h with
  | bytes hne _ heq =>
    rw [hunread] at heq
    exact hne (List.append_eq_nil_iff.mp heq.symm).1
  | closed hclosed _ => simp [hending] at hclosed
  | broken hbroken => simp [hending] at hbroken

theorem recv_waits_iff (hsize : 0 < bufferSize) :
    (∀ r c', ¬ Recv bufferSize c r c') ↔ c.unread = [] ∧ c.ending = .connected := by
  constructor
  · intro h
    by_contra hnot
    rw [not_and_or] at hnot
    obtain ⟨r, c', hrecv⟩ := exists_recv hsize hnot
    exact h r c' hrecv
  · exact fun ⟨hunread, hending⟩ r c' => recv_waits hunread hending

/-- What arrives is there to be read. -/
theorem Arrival.unread (h : Arrival c bytes c') : c'.unread = c.unread ++ bytes ∧ c.ending = .connected := by
  cases h with
  | bytes _ hc => exact ⟨rfl, hc⟩
  | ends _ hc => exact ⟨(List.append_nil _).symm, hc⟩

end Stream

/-! ### UDP -/

/-- A UDP socket. -/
structure Datagrams where
  /-- The datagrams that have arrived and have not been read. -/
  queue : List Bytes
  /-- Calls on the socket return an error. -/
  failing : Bool

/-- A socket that has been made. -/
def Datagrams.create : Datagrams := ⟨[], false⟩

/-- **`recv`** into a buffer: the next datagram, or as much of it as fits. It returns zero for an empty
one, and a negative number with an error. -/
inductive Datagrams.Recv (bufferSize : ℕ) : Datagrams → Option Bytes → Datagrams → Prop where
  | datagram {u : Datagrams} {d : Bytes} {queue : List Bytes} : d ≠ [] → u.queue = d :: queue →
    Recv bufferSize u (some (d.take bufferSize)) { u with queue := queue }
  | empty {u : Datagrams} {queue : List Bytes} : u.queue = [] :: queue → Recv bufferSize u none { u with queue := queue }
  | error {u : Datagrams} : u.failing = true → Recv bufferSize u none u

/-- What the network does to a socket: a datagram arrives, or calls begin or cease to fail. -/
inductive Datagrams.Arrival : Datagrams → Option Bytes → Datagrams → Prop where
  | datagram (u : Datagrams) (d : Bytes) : Arrival u (some d) { u with queue := u.queue ++ [d] }
  | failing (u : Datagrams) (failing : Bool) : Arrival u none { u with failing := failing }

/-- What of some datagrams is to be read: of each that is not empty as much as fits. -/
def readable (bufferSize : ℕ) (datagrams : List Bytes) : List Bytes :=
  (datagrams.filter (· ≠ [])).map (List.take bufferSize)

theorem readable_append (bufferSize : ℕ) (ds ds' : List Bytes) :
    readable bufferSize (ds ++ ds') = readable bufferSize ds ++ readable bufferSize ds' := by
  simp [readable]

namespace Datagrams

variable {bufferSize : ℕ} {u u' : Datagrams} {r : Option Bytes}

/-- **What is read is no more there.** -/
theorem Recv.queue (h : Recv bufferSize u r u') :
    readable bufferSize u.queue = r.toList ++ readable bufferSize u'.queue := by
  cases h with
  | datagram hne hqueue => simp [readable, hqueue, hne]
  | empty hqueue => simp [readable, hqueue]
  | error => rfl

/-- A call waits as long as there is no datagram and no error. -/
theorem recv_waits_iff : (∀ r u', ¬ Recv bufferSize u r u') ↔ u.queue = [] ∧ u.failing = false := by
  constructor
  · intro h
    obtain ⟨queue, failing⟩ := u
    refine ⟨?_, Bool.eq_false_iff.mpr fun hfailing => h none _ (.error hfailing)⟩
    match queue with
    | [] => rfl
    | [] :: queue => exact absurd (.empty rfl) (h none ⟨queue, failing⟩)
    | (b :: d) :: queue => exact absurd (.datagram (List.cons_ne_nil b d) rfl) (h _ ⟨queue, failing⟩)
  · rintro ⟨hqueue, hfailing⟩ r u' h
    cases h with
    | datagram _ hq | empty hq => simp [hqueue] at hq
    | error hf => simp [hfailing] at hf

end Datagrams

end Scrimmage.Networking
