import Scrimmage.Networking.ServerConnections
import Mathlib.Algebra.Order.BigOperators.Group.List
import Mathlib.Algebra.Order.Ring.Nat

/-!
# When `stop` returns

`stop` of `TcpServer.h` joins the threads it has told to stop, and these look at the flag
between two calls of the kernel only: one that is in `accept` or in `read` goes on when the
call returns.

## What is proved

* `stop_returns_or_blocked`: if nothing arrives, `stop` returns within a number of steps, unless
  the thread that it waits for is in such a call with nothing to return; and if so it never does.
-/

namespace Scrimmage.Networking

open Theory Serving

/-- A step of the threads that are in `listenLoop`, `clientLoop` and `stop`. -/
def ServerEvent.Own : ServerEvent → Prop
  | .starting | .stopping | .arrived _ _ | .outside => False
  | .silent | .stopped | .printed _ | .accepted _ | .closed _ | .client _ _ => True

namespace Serving

/-- In `stop`. -/
def InStop (s : Serving) : Prop := s.caller ≠ .idle ∧ s.caller ≠ .starting

/-- **The thread that `stop` waits for is in a call** that has nothing to return. -/
def Blocked (s : Serving) : Prop :=
  (s.caller = .joinAccept ∧ s.pending = 0 ∧ ∃ fd, s.acceptThread = some (.accept fd)) ∨
  ∃ i c, s.caller = .joinClient i ∧ s.clientThreads[i]? = some c ∧ c.place = .loop .recv ∧
    c.connection.unread = [] ∧ c.connection.ending = .connected

end Serving

/-! ### Work -/

/-- How many steps the accept thread can still make once the flag is cleared, and the threads it
starts. -/
def AcceptPlace.work : AcceptPlace → ℕ
  | .accept _ => 7
  | .emplace _ _ => 6
  | .socket => 5
  | .bind _ => 4
  | .listen _ => 3
  | .check _ => 2
  | .close _ => 1
  | .ended => 0

/-- How many steps a client thread can still make once the flag is cleared. -/
def ClientThread.work (c : ClientThread) : ℕ :=
  match c.place with
  | .loop p => p.work + 1
  | .ended => 0

/-- How many steps `stop` can still make. -/
def ServerCaller.work (clients : ℕ) : ServerCaller → ℕ
  | .idle | .starting => 0
  | .joinAccept => clients + 2
  | .joinClient i => clients - i + 1

namespace Serving

/-- How many steps all threads can still make once the flag is cleared. -/
def work (s : Serving) : ℕ :=
  s.acceptThread.elim 0 AcceptPlace.work + (s.clientThreads.map ClientThread.work).sum +
    s.caller.work s.clientThreads.length

variable {s s' : Serving} {e : ServerEvent} {trace : List ServerEvent}

/-- **Every step of the server lowers the work**, once the flag is cleared. -/
theorem work_lt (hjoined : Joined s) (hrunning : s.running = false) (hs : Step s e s') (hown : e.Own) :
    s'.work < s.work := by
  cases hs with
  | caller hs =>
    cases hs with
    | start | stop => exact hown.elim
    | spawn hstarting _ => simp [hjoined.starting hstarting] at hrunning
    | notJoinable hjoin hnone => simp [work, hjoin, ServerCaller.work]
    | joinAccept hjoin hended => simp [work, hjoin, hended, ServerCaller.work, AcceptPlace.work]
    | joinClient hi hc _ =>
      have := (List.getElem?_eq_some_iff.mp hc).1
      simp only [work, hi, ServerCaller.work]
      omega
    | clear hi hlen => simp [work, hi, ServerCaller.work]; omega
  | listen hs =>
    cases hs with
    | goOn _ htrue => simp [hrunning] at htrue
    | @emplace fd clientFd hp =>
      have hcaller : s.caller.work (s.clientThreads.length + 1) ≤ s.caller.work s.clientThreads.length + 1 := by
        cases s.caller <;> simp [ServerCaller.work]
        omega
      simp [work, hp, AcceptPlace.work, ClientThread.work, ClientThread.create, Receiver.Place.work]
      omega
    | socket hp | noSocket hp | bind hp | notBound hp | listen hp | notListening hp | leave hp | accept hp | close hp =>
      simp [work, hp, AcceptPlace.work]
  | client hs =>
    cases hs with
    | loop hsplit hc hloop =>
      rw [hrunning] at hloop
      have := hloop.work_lt
      simp [work, hsplit, ClientThread.work, hc]
      omega
    | close hsplit hc => simp [work, hsplit, ClientThread.work, hc, Receiver.Place.work]
  | outside hs => cases hs <;> exact hown.elim

/-! ### Progress -/

/-- What a step of the server leaves of the call of `stop`. -/
theorem inStop_step (h : InStop s) (hs : Step s e s') (hown : e.Own) :
    e = .stopped ∧ s'.caller = .idle ∨ e ≠ .stopped ∧ InStop s' := by
  cases hs with
  | caller hs =>
    cases hs with
    | start | stop => exact hown.elim
    | spawn hstarting _ => exact absurd hstarting h.2
    | notJoinable | joinAccept | joinClient => exact .inr ⟨by simp, by simp, by simp⟩
    | clear => exact .inl ⟨rfl, rfl⟩
  | listen hs | client hs | outside hs => cases hs <;> exact .inr ⟨by simp, h⟩

/-- A step of the server after `stop` has returned. -/
theorem idle_step (h : s.caller = .idle) (hs : Step s e s') (hown : e.Own) : s'.caller = .idle := by
  cases hs with
  | caller hs =>
    cases hs with
    | start | stop => exact hown.elim
    | spawn hi _ | notJoinable hi _ | joinAccept hi _ | joinClient hi _ _ | clear hi _ => simp [h] at hi
  | listen hs | client hs | outside hs => cases hs <;> exact h

/-- **In `stop`, some thread of the server can go on**, unless the one it waits for is blocked. -/
theorem exists_own_step (hstop : InStop s) (hrunning : s.running = false) (hblocked : ¬ s.Blocked) :
    ∃ e s', Step s e s' ∧ e.Own := by
  cases hcaller : s.caller with
  | idle => exact absurd hcaller hstop.1
  | starting => exact absurd hcaller hstop.2
  | joinAccept =>
    cases hp : s.acceptThread with
    | none => exact ⟨_, _, .caller (.notJoinable hcaller hp), trivial⟩
    | some p =>
      cases p with
      | socket => exact ⟨_, _, .listen (.noSocket hp), trivial⟩
      | bind fd => exact ⟨_, _, .listen (.bind hp), trivial⟩
      | listen fd => exact ⟨_, _, .listen (.listen hp), trivial⟩
      | check fd => exact ⟨_, _, .listen (.leave hp hrunning), trivial⟩
      | accept fd =>
        have hpending : 0 < s.pending := Nat.pos_of_ne_zero fun hzero => hblocked (.inl ⟨hcaller, hzero, fd, hp⟩)
        obtain ⟨clientFd, hfd⟩ := Ownership.exists_free s.descriptors
        exact ⟨_, _, .listen (.accept hp hpending hfd), trivial⟩
      | emplace fd clientFd => exact ⟨_, _, .listen (.emplace hp), trivial⟩
      | close fd => exact ⟨_, _, .listen (.close hp), trivial⟩
      | ended => exact ⟨_, _, .caller (.joinAccept hcaller hp), trivial⟩
  | joinClient i =>
    cases hc : s.clientThreads[i]? with
    | none => exact ⟨_, _, .caller (.clear hcaller (List.getElem?_eq_none_iff.mp hc)), trivial⟩
    | some c =>
      obtain ⟨pre, post, hsplit⟩ := List.append_of_mem (List.mem_of_getElem? hc)
      cases hplace : c.place with
      | ended => exact ⟨_, _, .caller (.joinClient hcaller hc hplace), trivial⟩
      | loop p =>
        by_cases hout : p = .out
        · exact ⟨_, _, .client (.close hsplit (hout ▸ hplace)), trivial⟩
        · have hrecv (hp : p = .recv) : ∃ r c', clientLoop.recv c.connection r c' := by
            refine Stream.exists_recv (by decide) ?_
            by_contra hnot
            rw [not_or, not_not, not_not] at hnot
            exact hblocked (.inr ⟨i, c, hcaller, hc, hp ▸ hplace, hnot⟩)
          obtain ⟨e, connection, p', hloop⟩ := Receiver.exists_step s.running hout hrecv
          exact ⟨_, _, .client (.loop hsplit hplace hloop), trivial⟩

/-- The other client threads, when one changes. -/
theorem getElem?_update {pre post : List ClientThread} {c c' : ClientThread} {i : ℕ} (hi : i ≠ pre.length) :
    (pre ++ c' :: post)[i]? = (pre ++ c :: post)[i]? := by
  have hset : pre ++ c' :: post = (pre ++ c :: post).set pre.length c' := by simp
  rw [hset, List.getElem?_set_ne hi.symm]

/-- **Blocked is blocked**: nothing that the threads of the server do changes it. -/
theorem blocked_step (hblocked : s.Blocked) (hs : Step s e s') (hown : e.Own) : s'.Blocked := by
  rcases hblocked with ⟨hcaller, hpending, fd, hp⟩ | ⟨i, c, hcaller, hc, hplace, hunread, hending⟩
  · cases hs with
    | caller hs =>
      cases hs with
      | start | stop => exact hown.elim
      | notJoinable _ hnone => simp [hp] at hnone
      | joinAccept _ hended => simp [hp] at hended
      | spawn hi _ | joinClient hi _ _ | clear hi _ => simp [hcaller] at hi
    | listen hs =>
      cases hs with
      | accept _ hpos _ => omega
      | socket hq | noSocket hq | bind hq | notBound hq | listen hq | notListening hq | goOn hq | leave hq | emplace hq
      | close hq => simp [hp] at hq
    | client hs => cases hs <;> exact .inl ⟨hcaller, hpending, fd, hp⟩
    | outside hs => cases hs <;> exact hown.elim
  · right
    cases hs with
    | caller hs =>
      cases hs with
      | start | stop => exact hown.elim
      | spawn hi _ | notJoinable hi _ | joinAccept hi _ => simp [hcaller] at hi
      | joinClient hi hd hended =>
        obtain rfl := ServerCaller.joinClient.inj (hcaller.symm.trans hi)
        rw [hc] at hd
        cases hd
        simp [hplace] at hended
      | clear hi hlen =>
        obtain rfl := ServerCaller.joinClient.inj (hcaller.symm.trans hi)
        rw [List.getElem?_eq_none hlen] at hc
        cases hc
    | listen hs =>
      cases hs with
      | emplace _ =>
        refine ⟨i, c, hcaller, ?_, hplace, hunread, hending⟩
        rw [List.getElem?_append_left (List.getElem?_eq_some_iff.mp hc).1, hc]
      | _ => exact ⟨i, c, hcaller, hc, hplace, hunread, hending⟩
    | client hs =>
      cases hs with
      | @loop pre post d p p' e connection hsplit hd hloop =>
        have hi : i ≠ pre.length := by
          rintro rfl
          obtain rfl : d = c := by simpa [hsplit] using hc
          obtain rfl := ClientPlace.loop.inj (hplace.symm.trans hd)
          cases hloop with
          | received hrecv | skip hrecv _ | fail hrecv _ => exact Stream.recv_waits hunread hending hrecv
        exact ⟨i, c, hcaller, by rw [getElem?_update hi, ← hsplit, hc], hplace, hunread, hending⟩
      | @close pre post d hsplit hd =>
        have hi : i ≠ pre.length := by
          rintro rfl
          obtain rfl : d = c := by simpa [hsplit] using hc
          simp [hplace] at hd
        exact ⟨i, c, hcaller, by rw [getElem?_update hi, ← hsplit, hc], hplace, hunread, hending⟩
    | outside hs => cases hs <;> exact hown.elim

theorem Blocked.inStop (h : s.Blocked) : InStop s := by
  rcases h with ⟨hcaller, -⟩ | ⟨i, c, hcaller, -⟩ <;> simp [InStop, hcaller]

/-- **What a run of the threads of the server** leaves of a call of `stop`. -/
theorem own_run (hjoined : Joined s) (hstop : InStop s) (h : Run Step s trace s') (hown : ∀ e ∈ trace, e.Own) :
    s'.running = false ∧ trace.length + s'.work ≤ s.work ∧ (.stopped ∈ trace ∧ s'.caller = .idle ∨
      .stopped ∉ trace ∧ InStop s') ∧ (s.Blocked → s'.Blocked) := by
  suffices hall : Joined s' ∧ s'.running = false ∧ trace.length + s'.work ≤ s.work ∧
      (.stopped ∈ trace ∧ s'.caller = .idle ∨ .stopped ∉ trace ∧ InStop s') ∧ (s.Blocked → s'.Blocked) from hall.2
  induction h with
  | nil => exact ⟨hjoined, hjoined.stopping hstop.1 hstop.2, by simp, .inr ⟨by simp, hstop⟩, id⟩
  | @snoc trace s₁ s₂ e _ hs ih =>
    obtain ⟨hjoined₁, hrunning, hwork, hwhere, hblocked⟩ := ih fun e he => hown e (List.mem_append_left _ he)
    have howne : e.Own := hown e (by simp)
    have hlt := work_lt hjoined₁ hrunning hs howne
    have hstart : e ≠ .starting := by
      rintro rfl
      exact howne
    refine ⟨hjoined₁.step hs, (left_step hjoined₁ hrunning hs hstart).1, ?_, ?_, fun hb => blocked_step (hblocked hb) hs howne⟩
    · rw [List.length_append, List.length_singleton]
      omega
    · rcases hwhere with ⟨hmem, hidle⟩ | ⟨hmem, hin⟩
      · exact .inl ⟨List.mem_append_left _ hmem, idle_step hidle hs howne⟩
      · rcases inStop_step hin hs howne with ⟨rfl, hidle⟩ | ⟨hne, hin⟩
        · exact .inl ⟨by simp, hidle⟩
        · exact .inr ⟨by simp [hmem, hne.symm], hin⟩

/-- The work there is, in terms of the client threads. -/
theorem work_le (s : Serving) : s.work ≤ 5 * s.clientThreads.length + 9 := by
  have haccept : s.acceptThread.elim 0 AcceptPlace.work ≤ 7 := by
    cases s.acceptThread with
    | none => simp
    | some p => cases p <;> simp [AcceptPlace.work]
  have hclient (c : ClientThread) : c.work ≤ 4 := by
    unfold ClientThread.work
    split
    · rename_i p _
      cases p <;> simp [Receiver.Place.work]
    · simp
  have hclients : (s.clientThreads.map ClientThread.work).sum ≤ s.clientThreads.length * 4 := by
    simpa using List.sum_le_card_nsmul (s.clientThreads.map ClientThread.work) 4 fun x hx => by
      obtain ⟨c, -, rfl⟩ := List.mem_map.mp hx
      exact hclient c
  have hcaller : s.caller.work s.clientThreads.length ≤ s.clientThreads.length + 2 := by
    cases s.caller <;> simp [ServerCaller.work]
    omega
  unfold work
  omega

end Serving

/-- **When `stop` returns**: from wherever the threads are in a call of it, and in whatever order they
go on, with nothing from outside, they make no more than nine steps and five for each client
thread; and when they can make no more, `stop` has returned unless it is blocked. It never
does from where it is blocked. -/
theorem stop_returns_or_blocked {others : List ℕ} {trace trace' : List ServerEvent} {s s' : Serving}
    (h : Run Step (.create others) trace s) (hstop : s.InStop) (h' : Run Step s trace' s') (hown : ∀ e ∈ trace', e.Own) :
    trace'.length ≤ 5 * s.clientThreads.length + 9 ∧
    ((∀ e s'', Step s' e s'' → ¬ e.Own) → (.stopped ∈ trace' ↔ ¬ s'.Blocked)) ∧
    (s.Blocked → .stopped ∉ trace') := by
  obtain ⟨hrunning, hwork, hwhere, hblocked⟩ := own_run (Joined.run h) hstop h' hown
  refine ⟨?_, fun hstuck => ?_, fun hb hmem => ?_⟩
  · have := work_le s
    omega
  · rcases hwhere with ⟨hmem, hidle⟩ | ⟨hmem, hin⟩
    · exact iff_of_true hmem fun hb => hb.inStop.1 hidle
    · refine iff_of_false hmem fun hnot => ?_
      obtain ⟨e, s'', hs, howne⟩ := exists_own_step hin hrunning hnot
      exact hstuck e s'' hs howne
  · rcases hwhere with ⟨-, hidle⟩ | ⟨hnot, -⟩
    · exact (hblocked hb).inStop.1 hidle
    · exact hnot hmem

/-- A server whose accept thread is in `accept`, with no connection to come: the client thread ends,
and `stop` does not return. -/
theorem stop_returns_or_blocked_one : ∃ trace s trace' s', Run Step (.create [0, 1, 2]) trace s ∧ s.Blocked ∧
    Run Step s trace' s' ∧ trace'.length = 2 ∧ .stopped ∉ trace' := by
  have h1 := (run_one.snoc (.listen (.goOn rfl rfl))).snoc (.caller (.stop rfl))
  have h2 : Run Step ⟨false, some (.accept 3), [.create 0 4], .joinAccept, [4, 3, 0, 1, 2], [0, 1, 2], 0, 1⟩ [] _ := .nil
  have h3 := h2.snoc (.client (.loop (List.nil_append _).symm rfl (.leave _ rfl)))
  have h4 := h3.snoc (.client (.close (List.nil_append _).symm rfl))
  have hblocked : Serving.Blocked ⟨false, some (.accept 3), [.create 0 4], .joinAccept, [4, 3, 0, 1, 2], [0, 1, 2], 0, 1⟩ :=
    .inl ⟨rfl, rfl, 3, rfl⟩
  exact ⟨_, _, _, _, h1, hblocked, h4, rfl,
    (stop_returns_or_blocked h1 ⟨nofun, nofun⟩ h4 (by simp [ServerEvent.Own])).2.2 hblocked⟩

end Scrimmage.Networking
