import Scrimmage.Networking.TcpServer
import Mathlib.Algebra.BigOperators.Group.List.Basic
import Mathlib.Data.List.Infix
import Mathlib.Data.List.Nodup

/-!
# What the callback of a server is given

The bytes that arrive on the connections of a `TcpServer`, and the messages that its callback is
given for them. The client threads call it at the same time, and nothing is said of the order of
messages of different connections.

## What is proved

* `server_delivers`: over every run the messages of a connection are the bytes that arrived on
  it, in order, cut into pieces of at most 1024; none is lost as long as `stop` is not called
  and the connection does not fail.
* `server_after_stop`: once `stop` is called the callback is given no more than one message
  more for each connection, and no more than one connection is accepted.
-/

namespace Scrimmage.Networking

open Theory Serving

/-! ### Traces -/

/-- What is read from the connection `n`. -/
def ServerEvent.read (n : ℕ) : ServerEvent → List Bytes
  | .client m e => if m = n then e.received? else []
  | _ => []

/-- What the callback is given of the connection `n`. -/
def ServerEvent.message (n : ℕ) : ServerEvent → List Bytes
  | .client m e => if m = n then e.handed? else []
  | _ => []

/-- What arrives on the connection `n`. -/
def ServerEvent.bytes (n : ℕ) : ServerEvent → Bytes
  | .arrived m bytes => if m = n then bytes else []
  | _ => []

/-- What has been read from the connection `n`. -/
def readOn (n : ℕ) (trace : List ServerEvent) : List Bytes := trace.flatMap (ServerEvent.read n)

/-- The messages of the connection `n`. -/
def messagesOn (n : ℕ) (trace : List ServerEvent) : List Bytes := trace.flatMap (ServerEvent.message n)

/-- What has arrived on the connection `n`. -/
def arrivedOn (n : ℕ) (trace : List ServerEvent) : Bytes := trace.flatMap (ServerEvent.bytes n)

section Traces

variable (n : ℕ) (trace : List ServerEvent) (e : ServerEvent)

@[simp] theorem readOn_snoc : readOn n (trace ++ [e]) = readOn n trace ++ e.read n := by
  simp [readOn]

@[simp] theorem messagesOn_snoc : messagesOn n (trace ++ [e]) = messagesOn n trace ++ e.message n := by
  simp [messagesOn]

@[simp] theorem arrivedOn_snoc : arrivedOn n (trace ++ [e]) = arrivedOn n trace ++ e.bytes n := by
  simp [arrivedOn]

end Traces

/-- What has been read and is not handed on yet. -/
def ClientThread.inHand (c : ClientThread) : List Bytes :=
  match c.place with
  | .loop p => p.inHand
  | .ended => []

/-! ### What every step keeps -/

/-- **What has become of the bytes** that have arrived: they are with the callback, in hand, or
unread. -/
structure Delivering (trace : List ServerEvent) (s : Serving) : Prop where
  number_lt : ∀ c ∈ s.clientThreads, c.number < s.accepted
  nodup : (s.clientThreads.map ClientThread.number).Nodup
  inHand : ∀ c ∈ s.clientThreads, messagesOn c.number trace ++ c.inHand = readOn c.number trace
  unread : ∀ c ∈ s.clientThreads, (readOn c.number trace).flatten ++ c.connection.unread = arrivedOn c.number trace
  messages : ∀ n, messagesOn n trace <+: readOn n trace
  read : ∀ n, (readOn n trace).flatten <+: arrivedOn n trace
  fits : ∀ n, ∀ m ∈ readOn n trace, m ≠ [] ∧ m.length ≤ 1024
  fresh : ∀ n ≥ s.accepted, arrivedOn n trace = [] ∧ readOn n trace = [] ∧ messagesOn n trace = []

namespace Delivering

variable {trace : List ServerEvent} {s s' : Serving} {e : ServerEvent}

theorem create (others : List ℕ) : Delivering [] (.create others) where
  number_lt c hc := by cases hc
  nodup := List.nodup_nil
  inHand c hc := by cases hc
  unread c hc := by cases hc
  messages _ := List.prefix_rfl
  read _ := List.prefix_rfl
  fits n m hm := by cases hm
  fresh _ _ := ⟨rfl, rfl, rfl⟩

/-- A step that no connection has part in. -/
theorem quiet (h : Delivering trace s) (hread : ∀ n, e.read n = []) (hmessage : ∀ n, e.message n = [])
    (hbytes : ∀ n, e.bytes n = []) (hthreads : s'.clientThreads = s.clientThreads ∨ s'.clientThreads = [])
    (haccepted : s'.accepted = s.accepted) : Delivering (trace ++ [e]) s' := by
  have hsub : s'.clientThreads.Sublist s.clientThreads := by
    rcases hthreads with heq | heq
    · rw [heq]
    · rw [heq]
      exact List.nil_sublist _
  constructor
  · exact fun c hc => haccepted ▸ h.number_lt c (hsub.mem hc)
  · exact h.nodup.sublist (hsub.map _)
  · exact fun c hc => by simpa [hread, hmessage] using h.inHand c (hsub.mem hc)
  · exact fun c hc => by simpa [hread, hbytes] using h.unread c (hsub.mem hc)
  · exact fun n => by simpa [hread, hmessage] using h.messages n
  · exact fun n => by simpa [hread, hbytes] using h.read n
  · exact fun n => by simpa [hread] using h.fits n
  · exact fun n hn => by simpa [hread, hmessage, hbytes] using h.fresh n (haccepted ▸ hn)

/-- **A step of one connection.** -/
theorem advance (h : Delivering trace s) {pre post : List ClientThread} {c c' : ClientThread}
    (hsplit : s.clientThreads = pre ++ c :: post) (hsplit' : s'.clientThreads = pre ++ c' :: post)
    (haccepted : s'.accepted = s.accepted) (hnumber : c'.number = c.number)
    (hother : ∀ n ≠ c.number, e.read n = [] ∧ e.message n = [] ∧ e.bytes n = [])
    (hinHand : c.inHand ++ e.read c.number = e.message c.number ++ c'.inHand)
    (hunread : (e.read c.number).flatten ++ c'.connection.unread = c.connection.unread ++ e.bytes c.number)
    (hfits : ∀ m ∈ e.read c.number, m ≠ [] ∧ m.length ≤ 1024) : Delivering (trace ++ [e]) s' := by
  have hc : c ∈ s.clientThreads := by simp [hsplit]
  have hnumbers : s'.clientThreads.map ClientThread.number = s.clientThreads.map ClientThread.number := by
    simp [hsplit, hsplit', hnumber]
  have hmem (x : ClientThread) (hx : x ∈ s'.clientThreads) : x = c' ∨ x ∈ s.clientThreads ∧ x.number ≠ c.number := by
    have hnodup := h.nodup
    rw [hsplit, List.map_append, List.map_cons, List.nodup_middle, List.nodup_cons, ← List.map_append] at hnodup
    rw [hsplit', List.mem_append, List.mem_cons] at hx
    rw [hsplit, List.mem_append, List.mem_cons]
    rcases hx with hx | rfl | hx
    · exact .inr ⟨.inl hx, fun heq => hnodup.1 (heq ▸ List.mem_map_of_mem (List.mem_append_left _ hx))⟩
    · exact .inl rfl
    · exact .inr ⟨.inr (.inr hx), fun heq => hnodup.1 (heq ▸ List.mem_map_of_mem (List.mem_append_right _ hx))⟩
  have hinHand' : messagesOn c.number (trace ++ [e]) ++ c'.inHand = readOn c.number (trace ++ [e]) := by
    rw [messagesOn_snoc, readOn_snoc, ← h.inHand c hc, List.append_assoc, List.append_assoc, hinHand]
  have hunread' : (readOn c.number (trace ++ [e])).flatten ++ c'.connection.unread = arrivedOn c.number (trace ++ [e]) := by
    rw [arrivedOn_snoc, readOn_snoc, ← h.unread c hc, List.flatten_append, List.append_assoc, List.append_assoc, hunread]
  constructor
  · intro x hx
    rw [haccepted]
    rcases hmem x hx with rfl | ⟨hx, -⟩
    · exact hnumber ▸ h.number_lt c hc
    · exact h.number_lt x hx
  · exact hnumbers ▸ h.nodup
  · intro x hx
    rcases hmem x hx with rfl | ⟨hx, hne⟩
    · exact hnumber ▸ hinHand'
    · simpa [hother x.number hne] using h.inHand x hx
  · intro x hx
    rcases hmem x hx with rfl | ⟨hx, hne⟩
    · exact hnumber ▸ hunread'
    · simpa [hother x.number hne] using h.unread x hx
  · intro n
    by_cases hn : n = c.number
    · exact hn ▸ ⟨_, hinHand'⟩
    · simpa [hother n hn] using h.messages n
  · intro n
    by_cases hn : n = c.number
    · exact hn ▸ ⟨_, hunread'⟩
    · simpa [hother n hn] using h.read n
  · intro n m hm
    rw [readOn_snoc, List.mem_append] at hm
    rcases hm with hm | hm
    · exact h.fits n m hm
    · by_cases hn : n = c.number
      · exact hfits m (hn ▸ hm)
      · simp [hother n hn] at hm
  · intro n hn
    rw [haccepted] at hn
    have hne : n ≠ c.number := by
      have := h.number_lt c hc
      omega
    simpa [hother n hne] using h.fresh n hn

/-- A connection is accepted. -/
theorem emplace (h : Delivering trace s) {clientFd : ℕ}
    (hsplit : s'.clientThreads = s.clientThreads ++ [.create s.accepted clientFd]) (haccepted : s'.accepted = s.accepted + 1) :
    Delivering (trace ++ [.accepted s.accepted]) s' := by
  obtain ⟨harrived, hread, hmessages⟩ := h.fresh s.accepted le_rfl
  constructor
  · intro x hx
    rw [haccepted]
    rcases List.mem_append.mp (hsplit ▸ hx) with hx | hx
    · exact Nat.lt_succ_of_lt (h.number_lt x hx)
    · rw [List.mem_singleton.mp hx]
      exact Nat.lt_succ_self _
  · rw [hsplit, List.map_append, List.map_singleton, List.nodup_append]
    refine ⟨h.nodup, List.nodup_singleton _, fun n hn m hm => ?_⟩
    obtain ⟨x, hx, rfl⟩ := List.mem_map.mp hn
    rw [List.mem_singleton.mp hm]
    exact (h.number_lt x hx).ne
  · intro x hx
    rcases List.mem_append.mp (hsplit ▸ hx) with hx | hx
    · simpa [ServerEvent.message, ServerEvent.read] using h.inHand x hx
    · rw [List.mem_singleton.mp hx]
      simp [ServerEvent.message, ServerEvent.read, ClientThread.create, hread, hmessages, ClientThread.inHand,
        Receiver.Place.inHand]
  · intro x hx
    rcases List.mem_append.mp (hsplit ▸ hx) with hx | hx
    · simpa [ServerEvent.bytes, ServerEvent.read] using h.unread x hx
    · rw [List.mem_singleton.mp hx]
      simp [ServerEvent.bytes, ServerEvent.read, ClientThread.create, hread, harrived, Stream.create]
  · exact fun n => by simpa [ServerEvent.message, ServerEvent.read] using h.messages n
  · exact fun n => by simpa [ServerEvent.bytes, ServerEvent.read] using h.read n
  · exact fun n => by simpa [ServerEvent.read] using h.fits n
  · exact fun n hn => by simpa [ServerEvent.message, ServerEvent.bytes, ServerEvent.read] using h.fresh n (by omega)

/-- **Every step keeps account of the bytes.** -/
theorem step (h : Delivering trace s) (hs : Step s e s') : Delivering (trace ++ [e]) s' := by
  cases hs with
  | caller hs =>
    cases hs with
    | start | spawn | stop | notJoinable | joinAccept | joinClient =>
      exact h.quiet (fun _ => rfl) (fun _ => rfl) (fun _ => rfl) (.inl rfl) rfl
    | clear => exact h.quiet (fun _ => rfl) (fun _ => rfl) (fun _ => rfl) (.inr rfl) rfl
  | listen hs =>
    cases hs with
    | emplace => exact h.emplace rfl rfl
    | _ => exact h.quiet (fun _ => rfl) (fun _ => rfl) (fun _ => rfl) (.inl rfl) rfl
  | client hs =>
    cases hs with
    | @loop pre post c p p' e connection hsplit hc hloop =>
      have hread : (ServerEvent.client c.number e).read c.number = e.received? := if_pos rfl
      have hmessage : (ServerEvent.client c.number e).message c.number = e.handed? := if_pos rfl
      refine h.advance hsplit rfl rfl rfl (fun n hn => ⟨if_neg hn.symm, if_neg hn.symm, rfl⟩) ?_ ?_ ?_
      · rw [hread, hmessage, ClientThread.inHand, hc]
        exact hloop.inHand
      · rw [hread]
        rcases hloop.source with ⟨rfl, hnone⟩ | ⟨hrecv, hnone⟩ | ⟨bytes, hrecv, hsome⟩
        · simp [hnone, ServerEvent.bytes]
        · simp [hnone, ServerEvent.bytes, Stream.Recv.of_none hrecv]
        · simp [hsome, ServerEvent.bytes, (Stream.Recv.unread hrecv).1]
      · rw [hread]
        rcases hloop.source with ⟨-, hnone⟩ | ⟨-, hnone⟩ | ⟨bytes, hrecv, hsome⟩
        · simp [hnone]
        · simp [hnone]
        · simpa [hsome] using Stream.Recv.fits hrecv
    | close hsplit hc =>
      exact h.advance hsplit rfl rfl rfl (fun _ _ => ⟨rfl, rfl, rfl⟩) (by simp [ClientThread.inHand, hc,
        Receiver.Place.inHand, ServerEvent.read, ServerEvent.message]) (by simp [ServerEvent.read, ServerEvent.bytes])
        (by simp [ServerEvent.read])
  | outside hs =>
    cases hs with
    | connect | notAccepted | openOther | closeOther =>
      exact h.quiet (fun _ => rfl) (fun _ => rfl) (fun _ => rfl) (.inl rfl) rfl
    | @arrive pre post c p bytes connection hsplit hc harrival =>
      have hbytes : (ServerEvent.arrived c.number bytes).bytes c.number = bytes := if_pos rfl
      refine h.advance hsplit rfl rfl rfl (fun n hn => ⟨rfl, rfl, if_neg hn.symm⟩) ?_ ?_ ?_
      · simp [ServerEvent.read, ServerEvent.message, ClientThread.inHand]
      · simp [ServerEvent.read, hbytes, harrival.unread.1]
      · simp [ServerEvent.read]

theorem run {others : List ℕ} (h : Run Step (.create others) trace s) : Delivering trace s :=
  h.invariant Delivering (create others) fun _ _ _ _ h hs => h.step hs

end Delivering

/-! ### Why a client thread ends -/

/-- The loop of a client thread is left. -/
def ClientThread.Left (c : ClientThread) : Prop := c.place = .loop .out ∨ c.place = .ended

/-- As long as the flag is set, a loop is left only when its connection has ended, and if it was closed
when all was read. -/
def LeftInOrder (s : Serving) : Prop :=
  s.running = true → ∀ c ∈ s.clientThreads, c.Left →
    c.connection.ending ≠ .connected ∧ (c.connection.ending = .closed → c.connection.unread = [])

section LeftInOrder

variable {s s' : Serving} {e : ServerEvent}

/-- One client thread changes. -/
theorem LeftInOrder.update (h : LeftInOrder s) {pre post : List ClientThread} {c c' : ClientThread}
    (hsplit : s.clientThreads = pre ++ c :: post) (hsplit' : s'.clientThreads = pre ++ c' :: post)
    (hrunning : s'.running = s.running)
    (hc : s.running = true → c'.Left → c'.connection.ending ≠ .connected ∧
      (c'.connection.ending = .closed → c'.connection.unread = [])) : LeftInOrder s' := by
  intro htrue x hx hleft
  rw [hrunning] at htrue
  rw [hsplit', List.mem_append, List.mem_cons] at hx
  rcases hx with hx | rfl | hx
  · exact h htrue x (by simp [hsplit, hx]) hleft
  · exact hc htrue hleft
  · exact h htrue x (by simp [hsplit, hx]) hleft

theorem leftInOrder_step (hjoined : Joined s) (h : LeftInOrder s) (hs : Step s e s') : LeftInOrder s' := by
  cases hs with
  | caller hs =>
    cases hs with
    | start hidle =>
      cases hrunning : s.running with
      | true => exact fun _ => h hrunning
      | false =>
        intro _ c hc
        rw [(hjoined.stopped hrunning hidle).2] at hc
        cases hc
    | spawn | notJoinable | joinAccept | joinClient => exact h
    | stop => exact fun hfalse => nomatch hfalse
    | clear => exact fun _ c hc => nomatch hc
  | listen hs =>
    cases hs with
    | emplace =>
      intro hrunning c hc hleft
      rcases List.mem_append.mp hc with hc | hc
      · exact h hrunning c hc hleft
      · rw [List.mem_singleton.mp hc] at hleft
        rcases hleft with hleft | hleft <;> cases hleft
    | _ => exact h
  | client hs =>
    cases hs with
    | @loop pre post c p p' e connection hsplit hc hloop =>
      refine h.update hsplit rfl rfl fun hrunning hleft => ?_
      have hout : p' = .out := by
        rcases hleft with hleft | hleft
        · exact ClientPlace.loop.inj hleft
        · cases hleft
      subst hout
      cases hloop with
      | leave hfalse => simp [hrunning] at hfalse
      | fail hrecv _ =>
        obtain ⟨rfl, hending⟩ := Stream.Recv.of_none hrecv
        exact hending
    | @close pre post c hsplit hc =>
      exact h.update hsplit rfl rfl fun hrunning _ => h hrunning c (by simp [hsplit]) (.inl hc)
  | outside hs =>
    cases hs with
    | connect | notAccepted | openOther | closeOther => exact h
    | @arrive pre post c p bytes connection hsplit hc harrival =>
      refine h.update hsplit rfl rfl fun hrunning hleft => ?_
      exact absurd harrival.unread.2 (h hrunning c (by simp [hsplit]) hleft).1

end LeftInOrder

/-- **No byte is lost, doubled or moved.** Over every run the messages of each connection, one after
the other, are the first of the bytes that have arrived on it, each message at least one byte and at
most 1024; while its thread is there, the others are in hand or unread. As long as `stop` is not
called a thread leaves its loop only when its connection has ended, and if the other end has
closed it when all that arrived has been handed on. -/
theorem server_delivers {others : List ℕ} {trace : List ServerEvent} {s : Serving}
    (h : Run Step (.create others) trace s) :
    (∀ n, (messagesOn n trace).flatten <+: arrivedOn n trace ∧
      ∀ m ∈ messagesOn n trace, m ≠ [] ∧ m.length ≤ 1024) ∧
    ∀ c ∈ s.clientThreads,
      (messagesOn c.number trace).flatten ++ (c.inHand.flatten ++ c.connection.unread) = arrivedOn c.number trace ∧
      (s.running = true → c.Left → c.connection.ending ≠ .connected ∧
        (c.connection.ending = .closed → (messagesOn c.number trace).flatten = arrivedOn c.number trace)) := by
  have hdeliv := Delivering.run h
  have hleft : LeftInOrder s := (h.invariant (fun _ s => Joined s ∧ LeftInOrder s) ⟨.create others, nofun⟩
    fun _ _ _ _ h hs => ⟨h.1.step hs, leftInOrder_step h.1 h.2 hs⟩).2
  have hbytes (c : ClientThread) (hc : c ∈ s.clientThreads) :
      (messagesOn c.number trace).flatten ++ (c.inHand.flatten ++ c.connection.unread) = arrivedOn c.number trace := by
    rw [← hdeliv.unread c hc, ← hdeliv.inHand c hc, List.flatten_append, List.append_assoc]
  refine ⟨fun n => ⟨?_, fun m hm => hdeliv.fits n m ((hdeliv.messages n).subset hm)⟩, fun c hc => ⟨hbytes c hc, ?_⟩⟩
  · obtain ⟨rest, hrest⟩ := hdeliv.messages n
    refine List.IsPrefix.trans ?_ (hdeliv.read n)
    rw [← hrest, List.flatten_append]
    exact List.prefix_append ..
  · intro hrunning hcleft
    obtain ⟨hending, hunread⟩ := hleft hrunning c hc hcleft
    refine ⟨hending, fun hclosed => ?_⟩
    have hnone : c.inHand = [] := by
      rcases hcleft with hplace | hplace <;> simp [ClientThread.inHand, hplace, Receiver.Place.inHand]
    have := hbytes c hc
    rwa [hnone, hunread hclosed, List.flatten_nil, List.append_nil, List.append_nil] at this

/-- The server of `run_one`, with two bytes that have arrived, and one of them read. -/
theorem run_read : ∃ trace, Run Step (.create [0, 1, 2]) trace
    ⟨true, some (.check 3), [⟨0, 4, .loop (.hand [7]), ⟨[8], .connected⟩⟩], .idle, [4, 3, 0, 1, 2], [0, 1, 2], 0, 1⟩ ∧
    messagesOn 0 trace = [] ∧ arrivedOn 0 trace = [7, 8] := by
  have h1 := run_one.snoc (.outside (.arrive (List.nil_append _).symm rfl (.bytes [7, 8] rfl)))
  have h2 := h1.snoc (.client (.loop (List.nil_append _).symm rfl (.enter _ rfl)))
  have h3 := h2.snoc (.client (.loop (List.nil_append _).symm rfl (.received (.bytes (List.cons_ne_nil 7 []) (by simp) rfl))))
  exact ⟨_, h3, rfl, rfl⟩

/-- Its callback is given that byte. -/
theorem server_delivers_one : ∃ trace s, Run Step (.create [0, 1, 2]) trace s ∧
    (messagesOn 0 trace).flatten <+: [7, 8] ∧ messagesOn 0 trace = [[7]] := by
  obtain ⟨trace, h, hmessages, harrived⟩ := run_read
  have h1 := h.snoc (.client (.loop (List.nil_append _).symm rfl (.hand _ _)))
  have hprefix := ((server_delivers h1).1 0).1
  rw [messagesOn_snoc, hmessages, arrivedOn_snoc, harrived] at hprefix
  exact ⟨_, _, h1, by rw [messagesOn_snoc, hmessages]; exact hprefix, by rw [messagesOn_snoc, hmessages]; rfl⟩

/-! ### Behind the call of `stop` -/

/-- The connections accepted. -/
def ServerEvent.accepts : ServerEvent → List ℕ
  | .accepted n => [n]
  | _ => []

/-- The connections accepted, in order. -/
def acceptedIn (trace : List ServerEvent) : List ℕ := trace.flatMap ServerEvent.accepts

@[simp] theorem acceptedIn_snoc (trace : List ServerEvent) (e : ServerEvent) :
    acceptedIn (trace ++ [e]) = acceptedIn trace ++ e.accepts := by
  simp [acceptedIn]

/-- How many connections can still be accepted once the flag is cleared. -/
def AcceptPlace.atMost : AcceptPlace → ℕ
  | .accept _ | .emplace _ _ => 1
  | _ => 0

/-- How many messages of a client thread there can still be. -/
def ClientThread.atMost (c : ClientThread) : ℕ :=
  match c.place with
  | .loop p => p.atMost
  | .ended => 0

/-- How many messages of the connection `n` there can still be. -/
def messagesLeft (n : ℕ) (clientThreads : List ClientThread) : ℕ :=
  (clientThreads.map fun c => if c.number = n then c.atMost else 0).sum

/-- How many connections there can still be. -/
def acceptsLeft (s : Serving) : ℕ := s.acceptThread.elim 0 AcceptPlace.atMost

section AfterStop

variable {s s' : Serving} {e : ServerEvent} {trace : List ServerEvent}

theorem messagesLeft_split (n : ℕ) (pre post : List ClientThread) (c : ClientThread) :
    messagesLeft n (pre ++ c :: post) = (if c.number = n then c.atMost else 0) + messagesLeft n (pre ++ post) := by
  simp only [messagesLeft, List.map_append, List.map_cons, List.sum_append, List.sum_cons]
  omega

/-- A connection without a thread. -/
theorem messagesLeft_eq_zero {n : ℕ} {clientThreads : List ClientThread} (h : ∀ c ∈ clientThreads, c.number ≠ n) :
    messagesLeft n clientThreads = 0 := by
  rw [messagesLeft, List.sum_eq_zero]
  intro x hx
  obtain ⟨c, hc, rfl⟩ := List.mem_map.mp hx
  exact if_neg (h c hc)

/-- There is one client thread for a connection, so no more than one message. -/
theorem messagesLeft_le_one (n : ℕ) {clientThreads : List ClientThread}
    (hnodup : (clientThreads.map ClientThread.number).Nodup) : messagesLeft n clientThreads ≤ 1 := by
  induction clientThreads with
  | nil => exact Nat.zero_le _
  | cons c rest ih =>
    rw [List.map_cons, List.nodup_cons] at hnodup
    have hone : c.atMost ≤ 1 := by
      unfold ClientThread.atMost
      split
      · exact Receiver.Place.atMost_le_one _
      · exact Nat.zero_le _
    have hsplit := messagesLeft_split n [] rest c
    rw [List.nil_append, List.nil_append] at hsplit
    rw [hsplit]
    split_ifs with hn
    · have hrest : messagesLeft n rest = 0 :=
        messagesLeft_eq_zero fun d hd hdn => hnodup.1 (by rw [hn, ← hdn]; exact List.mem_map_of_mem hd)
      omega
    · rw [Nat.zero_add]
      exact ih hnodup.2

/-- A client thread goes on, with no more messages to come than before. -/
theorem messagesLeft_update {n : ℕ} {pre post : List ClientThread} {c c' : ClientThread}
    (hsplit : s.clientThreads = pre ++ c :: post) (hsplit' : s'.clientThreads = pre ++ c' :: post)
    (hnumber : c'.number = c.number) (hle : c.number = n → (e.message n).length + c'.atMost ≤ c.atMost)
    (hother : c.number ≠ n → e.message n = []) :
    (e.message n).length + messagesLeft n s'.clientThreads ≤ messagesLeft n s.clientThreads := by
  rw [hsplit, hsplit', messagesLeft_split, messagesLeft_split, hnumber]
  split_ifs with hn
  · have := hle hn
    omega
  · simp [hother hn]

/-- **With the flag cleared** no step adds to what is still to come. -/
theorem left_step (hjoined : Joined s) (hrunning : s.running = false) (hs : Step s e s') (hstart : e ≠ .starting) :
    s'.running = false ∧ (∀ n, (e.message n).length + messagesLeft n s'.clientThreads ≤ messagesLeft n s.clientThreads) ∧
    e.accepts.length + acceptsLeft s' ≤ acceptsLeft s := by
  cases hs with
  | caller hs =>
    cases hs with
    | start => exact absurd rfl hstart
    | spawn hstarting _ => simp [hjoined.starting hstarting] at hrunning
    | stop => exact ⟨rfl, fun n => by simp [ServerEvent.message], by simp [ServerEvent.accepts, acceptsLeft]⟩
    | notJoinable | joinClient =>
      exact ⟨hrunning, fun n => by simp [ServerEvent.message], by simp [ServerEvent.accepts, acceptsLeft]⟩
    | joinAccept _ hended =>
      exact ⟨hrunning, fun n => by simp [ServerEvent.message], by simp [ServerEvent.accepts, acceptsLeft]⟩
    | clear => exact ⟨hrunning, fun n => by simp [ServerEvent.message, messagesLeft], by
        simp [ServerEvent.accepts, acceptsLeft]⟩
  | listen hs =>
    cases hs with
    | goOn _ htrue => simp [hrunning] at htrue
    | @emplace fd clientFd hp =>
      refine ⟨hrunning, fun n => ?_, by simp [ServerEvent.accepts, acceptsLeft, hp, AcceptPlace.atMost]⟩
      simp [ServerEvent.message, messagesLeft, ClientThread.create, ClientThread.atMost, Receiver.Place.atMost]
    | socket hp | noSocket hp | bind hp | notBound hp | listen hp | notListening hp | leave hp | accept hp | close hp =>
      exact ⟨hrunning, fun n => by simp [ServerEvent.message], by
        simp [ServerEvent.accepts, acceptsLeft, hp, AcceptPlace.atMost]⟩
  | client hs =>
    cases hs with
    | @loop pre post c p p' e connection hsplit hc hloop =>
      refine ⟨hrunning, fun n => ?_, by simp [ServerEvent.accepts, acceptsLeft]⟩
      rw [hrunning] at hloop
      refine messagesLeft_update hsplit rfl rfl (fun hn => ?_) fun hn => if_neg hn
      simpa only [ServerEvent.message, if_pos hn, ClientThread.atMost, hc] using hloop.atMost_le
    | close hsplit hc =>
      refine ⟨hrunning, fun n => ?_, by simp [ServerEvent.accepts, acceptsLeft]⟩
      exact messagesLeft_update hsplit rfl rfl (fun _ => by simp [ServerEvent.message, ClientThread.atMost]) fun _ => rfl
  | outside hs =>
    cases hs with
    | connect | openOther | closeOther =>
      exact ⟨hrunning, fun n => by simp [ServerEvent.message], by simp [ServerEvent.accepts, acceptsLeft]⟩
    | notAccepted hp =>
      exact ⟨hrunning, fun n => by simp [ServerEvent.message], by
        simp [ServerEvent.accepts, acceptsLeft, AcceptPlace.atMost]⟩
    | arrive hsplit hc _ =>
      refine ⟨hrunning, fun n => ?_, by simp [ServerEvent.accepts, acceptsLeft]⟩
      exact messagesLeft_update hsplit rfl rfl (fun _ => by simp [ServerEvent.message, ClientThread.atMost]) fun _ => rfl

/-- The numbers of connections accepted grow. -/
theorem accepted_step (hs : Step s e s') : s.accepted ≤ s'.accepted ∧ ∀ n ∈ e.accepts, n = s.accepted := by
  cases hs with
  | listen hs =>
    cases hs with
    | emplace => exact ⟨Nat.le_succ _, fun n hn => by simpa [ServerEvent.accepts] using hn⟩
    | _ => exact ⟨le_rfl, nofun⟩
  | caller hs | client hs | outside hs => cases hs <;> exact ⟨le_rfl, nofun⟩

/-- **What a run with the flag cleared** leaves to come. -/
theorem left_run (hjoined : Joined s) (hrunning : s.running = false) (h : Run Step s trace s')
    (hstart : .starting ∉ trace) :
    (∀ n, (messagesOn n trace).length + messagesLeft n s'.clientThreads ≤ messagesLeft n s.clientThreads) ∧
    (acceptedIn trace).length + acceptsLeft s' ≤ acceptsLeft s ∧ ∀ n ∈ acceptedIn trace, s.accepted ≤ n := by
  suffices hall : Joined s' ∧ s'.running = false ∧ s.accepted ≤ s'.accepted ∧ (∀ n, (messagesOn n trace).length +
      messagesLeft n s'.clientThreads ≤ messagesLeft n s.clientThreads) ∧
      (acceptedIn trace).length + acceptsLeft s' ≤ acceptsLeft s ∧ ∀ n ∈ acceptedIn trace, s.accepted ≤ n from
    hall.2.2.2
  induction h with
  | nil => exact ⟨hjoined, hrunning, le_rfl, fun n => by simp [messagesOn], by simp [acceptedIn], nofun⟩
  | @snoc trace s₁ s₂ e _ hs ih =>
    obtain ⟨hjoined₁, hrunning₁, haccepted, hmessages, haccepts, hnumbers⟩ :=
      ih fun hmem => hstart (List.mem_append_left _ hmem)
    obtain ⟨hrunning₂, hmessages₂, haccepts₂⟩ := left_step hjoined₁ hrunning₁ hs fun he => hstart (by simp [he])
    obtain ⟨haccepted₂, hnumber⟩ := accepted_step hs
    refine ⟨hjoined₁.step hs, hrunning₂, haccepted.trans haccepted₂, fun n => ?_, ?_, fun n hn => ?_⟩
    · have := hmessages n
      have := hmessages₂ n
      rw [messagesOn_snoc, List.length_append]
      omega
    · rw [acceptedIn_snoc, List.length_append]
      omega
    · rw [acceptedIn_snoc, List.mem_append] at hn
      rcases hn with hn | hn
      · exact hnumbers n hn
      · exact hnumber n hn ▸ haccepted

end AfterStop

/-- **Once `stop` has cleared the flag**, and until `start` is called again, the callback is given no
more than one message more for each connection, no more than one connection is accepted, and
for those that are accepted then there is no message. -/
theorem server_after_stop {others : List ℕ} {trace trace' : List ServerEvent} {s s' : Serving}
    (h : Run Step (.create others) trace s) (hrunning : s.running = false) (h' : Run Step s trace' s')
    (hstart : .starting ∉ trace') :
    (∀ n, (messagesOn n trace').length ≤ 1) ∧ (acceptedIn trace').length ≤ 1 ∧
    ∀ n ∈ acceptedIn trace', messagesOn n trace' = [] := by
  have hdeliv := Delivering.run h
  obtain ⟨hmessages, haccepts, hnumbers⟩ := left_run (Joined.run h) hrunning h' hstart
  refine ⟨fun n => ?_, ?_, fun n hn => ?_⟩
  · have := messagesLeft_le_one n hdeliv.nodup
    have := hmessages n
    omega
  · have hone : acceptsLeft s ≤ 1 := by
      unfold acceptsLeft
      cases s.acceptThread with
      | none => exact Nat.zero_le _
      | some p => cases p <;> simp [AcceptPlace.atMost]
    omega
  · have hzero : messagesLeft n s.clientThreads = 0 := messagesLeft_eq_zero fun c hc => by
      have := hdeliv.number_lt c hc
      have := hnumbers n hn
      omega
    have := hmessages n
    exact List.eq_nil_of_length_eq_zero (by omega)

/-- A byte that is read when `stop` is called is still handed on. -/
theorem server_after_stop_one : ∃ trace s trace' s', Run Step (.create [0, 1, 2]) trace s ∧ s.running = false ∧
    Run Step s trace' s' ∧ (messagesOn 0 trace').length = 1 ∧ (messagesOn 0 trace').length ≤ 1 := by
  obtain ⟨trace, h, -, -⟩ := run_read
  have h1 := h.snoc (.caller (.stop rfl))
  have h2 : Run Step ⟨false, some (.check 3), [⟨0, 4, .loop (.hand [7]), ⟨[8], .connected⟩⟩], .joinAccept,
      [4, 3, 0, 1, 2], [0, 1, 2], 0, 1⟩ [] _ := .nil
  have h3 := h2.snoc (.client (.loop (List.nil_append _).symm rfl (.hand _ _)))
  exact ⟨_, _, _, _, h1, rfl, h3, rfl, (server_after_stop h1 rfl h3 (by simp)).1 0⟩

end Scrimmage.Networking
