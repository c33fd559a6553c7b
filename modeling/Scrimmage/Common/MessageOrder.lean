import Scrimmage.Common.ConsumeLoop

/-!
# The order in which the callback is given its messages

A ring buffer's consumer whose threads take turns: each is started when the loops before it
have been left. At most one loop is then running at a time, the one started last.

Whenever its threads are started, `start` joins the one before. So when the caller is in no
call, all loops but the last have been left, and `_pinnedThread` points to the last.

## What is proved

* `Turns.run`: which loops may be running, at each place the caller may be at.
* `delivered_in_order`: the messages the callback has been given, those in hand and those in
  the buffer are the messages published, in order; at most one message is in hand.
* `one_more_after_stop`: once `stop` has been called, at most one more message is delivered,
  however the threads before were started.
* `left_eventually`: a loop that has been told to stop is left, if its thread is scheduled.
  The destructor of its `PinnedThread` returns.
* `delivered_eventually`: while its loop is scheduled and not told to stop, every message
  published is delivered.
-/

namespace Scrimmage.Common

open Theory

variable {τ : Type} {capacity n : ℕ} {s s' : Consuming τ} {l : Seen τ} {ls : List (Seen τ)} {t : LoopThread τ}

/-! ### Which loops are running -/

/-- How many of the threads started have been assigned to `_pinnedThread`. -/
def Consuming.assigned (s : Consuming τ) : ℕ :=
  match s.caller with
  | .assign new => new
  | _ => s.places.length

/-- **The loops that may be running**: the last, and while `start` has not returned the one before,
which it tells to stop and joins. `_pinnedThread` points to the last that was assigned to it. -/
structure Turns (s : Consuming τ) : Prop where
  assigning : ∀ n, s.caller = .assign n → s.places.length = n + 1
  pointer : ∀ n, n + 1 = s.assigned → s.pinnedThread = some n
  left : ∀ i a, s.places[i]? = some a → i + 1 < s.places.length →
    a = .left ∨ s.caller = .assign (i + 1) ∨ s.caller = .requestStop i ∨ s.caller = .join i

namespace Turns

theorem start (cells : ℕ → τ) : Turns (Consuming.create cells) where
  assigning n hn := by cases hn
  pointer n hn := by cases hn
  left i a ha := by cases ha

/-- No more is looked at than where the loops and the caller are. -/
theorem congr (h : Turns s) (hplaces : s'.places = s.places) (hptr : s'.pinnedThread = s.pinnedThread)
    (hcaller : s'.caller = s.caller) : Turns s' := by
  refine ⟨fun n hn => ?_, fun n hn => ?_, fun i a ha hi => ?_⟩
  · rw [hplaces]
    exact h.assigning n (hcaller ▸ hn)
  · rw [hptr]
    apply h.pointer n
    simpa only [Consuming.assigned, hplaces, hcaller] using hn
  · rw [hplaces] at ha hi
    rw [hcaller]
    exact h.left i a ha hi

/-- **A step of a loop**: it was not left. -/
theorem loop (h : Turns s) (hs : Consuming.LoopMove capacity n s l s') : Turns s' := by
  cases hs with
  | @move t _ b place ht hloop =>
    have hplaces : (s.threads.set n { t with place := place }).map LoopThread.place = s.places.set n place := by
      rw [List.map_set, Consuming.places]
    have hat : s.places[n]? = some t.place := by rw [Consuming.places, List.getElem?_map, ht, Option.map_some]
    refine ⟨fun m hm => ?_, fun m hm => ?_, fun i a ha hi => ?_⟩
    · rw [places_mk, hplaces, List.length_set]
      exact h.assigning m hm
    · refine h.pointer m (hm.trans ?_)
      simp only [Consuming.assigned, places_mk, hplaces, List.length_set]
    · rw [places_mk, hplaces] at ha hi
      rw [List.length_set] at hi
      rw [List.getElem?_set] at ha
      split_ifs at ha with hin hlt
      · subst hin
        exact Or.inr ((h.left n t.place hat hi).resolve_left hloop.ne_left)
      · exact h.left i a ha hi

/-- **A step of the caller.** -/
theorem caller (h : Turns s) (hs : Consuming.CallerMove s l s') : Turns s' := by
  cases hs with
  | start hidle =>
    have hassigned : s.assigned = s.places.length := by simp [Consuming.assigned, hidle]
    refine ⟨fun m hm => ?_, fun m hm => h.pointer m (hm.trans ?_), fun i a ha hi => ?_⟩
    · obtain rfl : s.threads.length = m := by simpa using hm
      simp
    · rw [hassigned, Consuming.places, List.length_map]
      rfl
    · have hplaces : (s.threads ++ [LoopThread.create]).map LoopThread.place = s.places ++ [.check] := by
        simp [Consuming.places, LoopThread.create]
      rw [places_mk, hplaces] at ha hi
      rw [List.length_append, List.length_singleton] at hi
      rw [List.getElem?_append_left (by omega)] at ha
      rcases Nat.lt_or_ge (i + 1) s.places.length with hlt | hge
      · left
        simpa [hidle] using h.left i a ha hlt
      · -- the loop that was the last
        have hlast : s.threads.length = i + 1 := by
          rw [Consuming.places, List.length_map] at hge hi
          omega
        exact Or.inr (Or.inl (by rw [hlast]))
  | @assign new hc =>
    have hlen := h.assigning new hc
    have hold (i : ℕ) (hi : s.caller = .assign (i + 1)) : s.pinnedThread = some i :=
      h.pointer i (by simp [Consuming.assigned, hi])
    refine ⟨fun m hm => ?_, fun m hm => ?_, fun i a ha hi => ?_⟩
    · cases hp : s.pinnedThread <;> simp [hp] at hm
    · have hall : m + 1 = s.places.length := by
        cases hp : s.pinnedThread <;> simpa [Consuming.assigned, hp, Consuming.places] using hm
      exact congrArg some (by omega)
    · rcases h.left i a ha hi with hleft | hi | hi | hi
      · exact Or.inl hleft
      · simp [hold i hi]
      · simp [hc] at hi
      · simp [hc] at hi
  | @requestStop old hc =>
    have hplaces := places_requestStop s.threads old
    refine ⟨fun m hm => (by cases hm), fun m hm => h.pointer m (hm.trans ?_), fun i a ha hi => ?_⟩
    · simp only [Consuming.assigned, hc, places_mk, hplaces]
      rfl
    · rw [places_mk, hplaces] at ha hi
      simpa [hc] using h.left i a ha hi
  | @join old t hc ht hleft =>
    refine ⟨fun m hm => (by cases hm), fun m hm => h.pointer m (hm.trans ?_), fun i a ha hi => ?_⟩
    · simp only [Consuming.assigned, hc]
      rfl
    · left
      rcases h.left i a ha hi with hleft | hi | hi | hi
      · exact hleft
      · simp [hc] at hi
      · simp [hc] at hi
      · -- the loop that has been joined
        obtain rfl : old = i := by simpa [hc] using hi
        rw [places_mk, List.getElem?_map, ht, Option.map_some, hleft] at ha
        exact (Option.some.inj ha).symm
  | stop hidle =>
    obtain ⟨-, -, -, -, hplaces⟩ := (Consuming.CallerMove.stop hidle).frame
    exact h.congr (hplaces.resolve_left fun hcall => by cases hcall.1) rfl rfl

/-- **Every step keeps the turns.** -/
theorem step (h : Turns s) (hs : Consuming.Step capacity s l s') : Turns s' := by
  cases hs with
  | produce hp => exact h.congr rfl rfl rfl
  | loop n hmove => exact h.loop hmove
  | caller hmove => exact h.caller hmove

theorem run {cells : ℕ → τ} (h : Run (Consuming.Step capacity) (Consuming.create cells) ls s) : Turns s :=
  h.invariant (fun _ s => Turns s) (start cells) fun _ _ _ _ h hs => h.step hs

/-- When the caller is in no call, all loops but the last have been left. -/
theorem last (h : Turns s) (hidle : s.caller = .idle) : ∀ a ∈ s.places.dropLast, a = .left := by
  intro a ha
  obtain ⟨i, hi⟩ := List.mem_iff_getElem?.mp ha
  rw [List.getElem?_dropLast] at hi
  split_ifs at hi with hlt
  simpa [hidle] using h.left i a hi (by omega)

end Turns

/-! ### One loop after the other -/

/-- **The invariant**: all loops but the last have been left, no loop is left that has not been told
to stop, and what has been popped is delivered or in hand. -/
structure InOrder (ls : List (Seen τ)) (s : Consuming τ) : Prop where
  last : ∀ a ∈ s.places.dropLast, a = .left
  told : ∀ t ∈ s.threads, t.place = .left → t.stopFlag = true
  order : popped (ringSeen ls) = delivered ls ++ s.inHand

/-- A loop that has not been left is the last. -/
theorem InOrder.split (h : InOrder ls s) {pre post : List (LoopAt τ)} {a : LoopAt τ} (hne : a ≠ .left)
    (hsplit : s.places = pre ++ a :: post) : post = [] ∧ ∀ x ∈ pre, x = .left := by
  have hlast := h.last
  rw [hsplit] at hlast
  rcases List.eq_nil_or_concat' post with rfl | ⟨post, x, rfl⟩
  · refine ⟨rfl, fun x hx => hlast x ?_⟩
    simpa using hx
  · refine absurd (hlast a ?_) hne
    rw [← List.cons_append, ← List.append_assoc, List.dropLast_concat]
    simp

/-- A thread, after one has been told to stop. -/
theorem mem_modify_requestStop {threads : List (LoopThread τ)} (h : t ∈ threads.modify n LoopThread.requestStop) :
    t ∈ threads ∨ t.stopFlag = true := by
  obtain ⟨i, hi⟩ := List.mem_iff_getElem?.mp h
  rw [List.getElem?_modify] at hi
  obtain ⟨u, hu, heq⟩ := Option.map_eq_some_iff.mp hi
  split_ifs at heq
  · exact Or.inr (by rw [← heq]; rfl)
  · exact Or.inl (heq ▸ List.mem_of_getElem? hu)

/-- What holds of each thread, and of all that have been told to stop, a step of the caller keeps, if it
holds of a thread that it starts. -/
theorem Consuming.CallerMove.forall_threads (hs : Consuming.CallerMove s l s') {p : LoopThread τ → Prop}
    (h : ∀ t ∈ s.threads, p t) (hstopped : ∀ t : LoopThread τ, t.stopFlag = true → p t)
    (hcreate : l = .call .start → p .create) : ∀ t ∈ s'.threads, p t := by
  have hmodify (m : ℕ) : ∀ t ∈ s.threads.modify m LoopThread.requestStop, p t :=
    fun t ht => (mem_modify_requestStop ht).elim (h t) (hstopped t)
  cases hs with
  | start hidle =>
    intro t ht
    rcases List.mem_append.mp ht with ht | ht
    · exact h t ht
    · rw [List.mem_singleton.mp ht]
      exact hcreate rfl
  | assign | join => exact h
  | requestStop hc => exact hmodify _
  | stop hidle =>
    cases hp : s.pinnedThread with
    | none => exact h
    | some m => exact hmodify m

/-- A loop is left only when it has been told to stop. -/
theorem LoopStep.stopFlag_of_left {f : Bool} {b b' : SpScRingBuffer τ} {a : LoopAt τ}
    (h : LoopStep capacity f b a l b' .left) : f = true := by
  cases h
  rfl

/-- A loop begins no call. -/
theorem LoopStep.ne_call {f : Bool} {b b' : SpScRingBuffer τ} {a a' : LoopAt τ} (h : LoopStep capacity f b a l b' a')
    {c : ConsumerCall} : l ≠ .call c := by
  cases h <;> simp

namespace InOrder

theorem start (cells : ℕ → τ) : InOrder [] (Consuming.create cells) where
  last a ha := by cases ha
  told t ht := by cases ht
  order := rfl

/-- **A step of a loop**: it is the last. -/
theorem loop (h : InOrder ls s) (hs : Consuming.LoopMove capacity n s l s') : InOrder (ls ++ [l]) s' := by
  cases hs with
  | @move t _ b place ht hloop =>
    obtain ⟨pre, post, hlen, hbefore, hafter⟩ := exists_split ht place
    obtain ⟨rfl, hpre⟩ := h.split hloop.ne_left hbefore
    have hhand : pre.filterMap LoopAt.message? = [] :=
      List.filterMap_eq_nil_iff.mpr fun a ha => by rw [hpre a ha]; rfl
    refine ⟨fun a ha => ?_, fun u hu hleft => ?_, ?_⟩
    · rw [places_mk, hafter, List.dropLast_concat] at ha
      exact hpre a ha
    · rcases List.mem_or_eq_of_mem_set hu with hu | rfl
      · exact h.told u hu hleft
      · -- a loop is left only when it has been told to stop
        obtain rfl : place = .left := hleft
        exact hloop.stopFlag_of_left
    · have horder := h.order
      rw [Consuming.inHand, hbefore, List.filterMap_append, hhand, List.nil_append, Fed.filterMap_cons_eq,
        List.filterMap_nil, List.append_nil] at horder
      rw [Consuming.inHand, places_mk, hafter, List.filterMap_append, hhand, List.nil_append, Fed.filterMap_cons_eq,
        List.filterMap_nil, List.append_nil, ringSeen_append, popped_append, delivered_append, horder,
        List.append_assoc, hloop.conserves, List.append_assoc]

/-- **A step of the caller.** -/
theorem caller (h : InOrder ls s) (hs : Consuming.CallerMove s l s') (hstart : l = .call .start → s.AllLeft) :
    InOrder (ls ++ [l]) s' := by
  obtain ⟨hbuffer, hproducer, hring, hdel, hplaces⟩ := hs.frame
  have hhand : s'.inHand = s.inHand := by
    rcases hplaces with ⟨-, hplaces⟩ | hplaces <;> simp [Consuming.inHand, hplaces, LoopAt.message?]
  refine ⟨fun a ha => ?_, ?_, ?_⟩
  · rcases hplaces with ⟨hcall, hplaces⟩ | hplaces
    · rw [hplaces, List.dropLast_concat] at ha
      exact hstart hcall a ha
    · rw [hplaces] at ha
      exact h.last a ha
  · -- a thread that is started has not been left
    exact hs.forall_threads h.told (fun t hflag _ => hflag) fun _ hleft => by cases hleft
  · rw [ringSeen_append, hring, delivered_append, hdel, List.append_nil, List.append_nil, hhand]
    exact h.order

/-- **Every step keeps the invariant**, if it starts no thread before all loops are left. -/
theorem step (h : InOrder ls s) (hs : Consuming.StepWhen Consuming.AllLeft capacity s l s') : InOrder (ls ++ [l]) s' := by
  obtain ⟨hs, hstart⟩ := hs
  cases hs with
  | @produce l b p hp =>
    refine ⟨h.last, h.told, ?_⟩
    have hpop : popped (ringSeen [Seen.ring l]) = [] := hp.popped_eq_nil
    have hdel : delivered [Seen.ring l] = [] := rfl
    rw [ringSeen_append, popped_append, delivered_append, hpop, hdel, List.append_nil, List.append_nil]
    exact h.order
  | loop n hmove => exact h.loop hmove
  | caller hmove => exact h.caller hmove hstart

/-- **Every run keeps the invariant.** -/
theorem run {cells : ℕ → τ} (h : Run (Consuming.StepWhen Consuming.AllLeft capacity) (Consuming.create cells) ls s) :
    InOrder ls s :=
  h.invariant InOrder (start cells) fun _ _ _ _ h hs => h.step hs

/-- At most one message is in hand. -/
theorem length_inHand (h : InOrder ls s) : s.inHand.length ≤ 1 := by
  rcases List.eq_nil_or_concat' s.places with hnil | ⟨pre, a, hplaces⟩
  · simp [Consuming.inHand, hnil]
  · have hpre := h.last
    rw [hplaces, List.dropLast_concat] at hpre
    have hhand : pre.filterMap LoopAt.message? = [] :=
      List.filterMap_eq_nil_iff.mpr fun a ha => by rw [hpre a ha]; rfl
    rw [Consuming.inHand, hplaces, List.filterMap_append, hhand, List.nil_append]
    exact List.length_filterMap_le ..

end InOrder

/-- When all loops have been left, none can pop. -/
theorem Consuming.AllLeft.quiet (h : s.AllLeft) : s.Quiet := by
  intro c hc hpop
  obtain ⟨t, ht, rfl⟩ := List.mem_map.mp hc
  have hleft : t.place = .left := h t.place (List.mem_map_of_mem ht)
  rcases hpop with hpop | ⟨hne, -⟩
  · rw [LoopThread.control, hleft] at hpop
    cases hpop
  · exact hne (by rw [LoopThread.control, hleft]; rfl)

/-- A run in which loops are left before others are started is one with one consumer. -/
theorem run_quiet {s₀ : Consuming τ} (h : Run (Consuming.StepWhen Consuming.AllLeft capacity) s₀ ls s) :
    Run (Consuming.StepWhen Consuming.Quiet capacity) s₀ ls s := by
  exact h.mono fun _ _ _ hs => ⟨hs.1, fun hl => (hs.2 hl).quiet⟩

/-- What is delivered, in hand and in the buffer is what is published. -/
theorem InOrder.published_eq (h : InOrder ls s) (hfed : Fed capacity ls s) :
    delivered ls ++ s.inHand ++ s.buffer.items capacity = published (ringSeen ls) := by
  rw [← h.order]
  exact hfed.sync.fifo.symm

/-- **Messages are delivered in order**: with each thread started when the loops before it are left,
over every interleaving of the producer, the loops and the calls, the messages the callback has been
given, then the one in hand, if any, then those in the buffer, are the messages published. -/
theorem delivered_in_order (hcap : 0 < capacity) {cells : ℕ → τ}
    (h : Run (Consuming.StepWhen Consuming.AllLeft capacity) (Consuming.create cells) ls s) :
    delivered ls ++ s.inHand ++ s.buffer.items capacity = published (ringSeen ls) ∧ s.inHand.length ≤ 1 :=
  ⟨(InOrder.run h).published_eq (Fed.run hcap (run_quiet h)), (InOrder.run h).length_inHand⟩

/-- A consumer with one thread. -/
def oneThread (b : SpScRingBuffer ℕ) (p : Producer ℕ) (t : LoopThread ℕ) : Consuming ℕ := ⟨b, p, [t], some 0, .idle⟩

theorem oneThread_move {b b' : SpScRingBuffer ℕ} {p : Producer ℕ} {a a' : LoopAt ℕ} {f : Bool} {l : Seen ℕ}
    (h : LoopStep 2 f b a l b' a') : Consuming.LoopMove 2 0 (oneThread b p ⟨a, f⟩) l (oneThread b' p ⟨a', f⟩) :=
  .move (s := oneThread b p ⟨a, f⟩) (t := ⟨a, f⟩) rfl h

/-- A thread that is about to pop when a message is there. -/
theorem run_published : ∃ ls, Run (Consuming.StepWhen Consuming.AllLeft 2) (Consuming.create fun _ => 0) ls
      (oneThread ⟨Function.update (fun _ => 0) 0 7, 1, 0, 0, 0⟩ (.loadHigh 1) ⟨.tryPop .idle, false⟩) ∧
    published (ringSeen ls) = [7] ∧ delivered ls = [] := by
  have hrun : Run (Consuming.StepWhen Consuming.AllLeft 2) (Consuming.create fun _ => 0) _ _ :=
    Run.nil
      |>.snoc ⟨.caller (.start rfl), fun _ => nofun⟩
      |>.snoc ⟨.caller (.assign rfl), nofun⟩
      |>.snoc ⟨.produce (.call _ .tryPush 7), nofun⟩
      |>.snoc ⟨.produce (.loadHead _ _ _), nofun⟩
      |>.snoc ⟨.produce (.notFull _ _ (by decide)), nofun⟩
      |>.snoc ⟨.produce (.write _ _ _), nofun⟩
      |>.snoc ⟨.produce (.storeHead _ _ _), nofun⟩
      |>.snoc ⟨.loop 0 (.move rfl (.goOn _)), nofun⟩
  exact ⟨_, hrun, rfl, rfl⟩

/-- A message that is published and delivered. -/
theorem delivered_in_order_one : ∃ ls, ∃ s : Consuming ℕ, published (ringSeen ls) = [7] ∧ delivered ls = [7] ∧
    delivered ls ++ s.inHand ++ s.buffer.items 2 = published (ringSeen ls) ∧ s.inHand.length ≤ 1 := by
  obtain ⟨ls, hrun, hpub, hdel⟩ := run_published
  have hrun' := hrun
    |>.snoc ⟨.loop 0 (.move rfl (.access (.loadTail _))), nofun⟩
    |>.snoc ⟨.loop 0 (.move rfl (.access (.notEmpty (by decide)))), nofun⟩
    |>.snoc ⟨.loop 0 (.move rfl (.access (.read _ _))), nofun⟩
    |>.snoc ⟨.loop 0 (.move rfl (.popped (.storeTail _ _ _))), nofun⟩
    |>.snoc ⟨.loop 0 (.move rfl (.callback _ _ _)), nofun⟩
  refine ⟨_, _, ?_, ?_, delivered_in_order (by decide) hrun'⟩
  · simp only [ringSeen_append, published_append, hpub]
    rfl
  · simp only [delivered_append, hdel]
    rfl

/-! ### Stopping -/

/-- A loop that delivers a message without looking at its flag again: it is in `tryPop`, or has a
message in hand. -/
def LoopAt.owes : LoopAt τ → Bool
  | .tryPop _ | .callback _ => true
  | _ => false

/-- Every loop has been told to stop, or is left. -/
def Consuming.Stopped (s : Consuming τ) : Prop := ∀ t ∈ s.threads, t.place = .left ∨ t.stopFlag = true

/-- Told to stop, a loop delivers what it owes and comes to owe no more. -/
theorem LoopStep.pays {b b' : SpScRingBuffer τ} {a a' : LoopAt τ} (h : LoopStep capacity true b a l b' a') :
    (delivered [l]).length + a'.owes.toNat ≤ a.owes.toNat := by
  cases h <;> simp [delivered, LoopAt.owes]

/-- A step after all loops have been told to stop, that starts no other. -/
theorem Consuming.Stopped.step (h : s.Stopped) (hs : Consuming.Step capacity s l s') (hno : l ≠ .call .start) :
    s'.Stopped ∧ (delivered [l]).length + s'.places.countP LoopAt.owes ≤ s.places.countP LoopAt.owes := by
  cases hs with
  | produce hp => exact ⟨h, by simp [delivered, Consuming.places]⟩
  | loop n hmove =>
    cases hmove with
    | @move t _ b place ht hloop =>
      obtain ⟨pre, post, -, hbefore, hafter⟩ := exists_split ht place
      have hflag : t.stopFlag = true := (h t (List.mem_of_getElem? ht)).resolve_left hloop.ne_left
      refine ⟨fun u hu => ?_, ?_⟩
      · rcases List.mem_or_eq_of_mem_set hu with hu | rfl
        · exact h u hu
        · exact Or.inr hflag
      · rw [hflag] at hloop
        have hpays := hloop.pays
        have htoNat (a : LoopAt τ) : (if a.owes = true then 1 else 0) = a.owes.toNat := by cases a.owes <;> rfl
        rw [places_mk, hafter, hbefore]
        simp only [List.countP_append, List.countP_cons, htoNat]
        omega
  | caller hmove =>
    obtain ⟨-, -, -, hdel, ⟨hcall, -⟩ | hplaces⟩ := hmove.frame
    · exact absurd hcall hno
    · refine ⟨hmove.forall_threads h (fun t => Or.inr) fun hcall => absurd hcall hno, ?_⟩
      rw [hdel, hplaces]
      simp

/-- What is delivered along a run after all loops have been told to stop, if no other is started. -/
theorem Consuming.Stopped.run (h : s.Stopped) (hrun : Run (Consuming.Step capacity) s ls s')
    (hno : .call .start ∉ ls) :
    s'.Stopped ∧ (delivered ls).length + s'.places.countP LoopAt.owes ≤ s.places.countP LoopAt.owes := by
  induction hrun with
  | nil => exact ⟨h, by simp [delivered]⟩
  | snoc _ hs ih =>
    rw [List.mem_append, not_or, List.mem_singleton] at hno
    obtain ⟨hstopped, hle⟩ := ih hno.1
    obtain ⟨hstopped', hle'⟩ := hstopped.step hs (Ne.symm hno.2)
    refine ⟨hstopped', ?_⟩
    rw [delivered_append, List.length_append]
    omega

/-- At most one loop owes a message, when the caller is in no call. -/
theorem Turns.countP_owes (h : Turns s) (hidle : s.caller = .idle) : s.places.countP LoopAt.owes ≤ 1 := by
  rcases List.eq_nil_or_concat' s.places with hnil | ⟨pre, a, hplaces⟩
  · simp [hnil]
  · have hpre := h.last hidle
    rw [hplaces, List.dropLast_concat] at hpre
    have hnone : pre.countP LoopAt.owes = 0 :=
      List.countP_eq_zero.mpr fun a ha => by rw [hpre a ha]; simp [LoopAt.owes]
    rw [hplaces, List.countP_append, hnone, Nat.zero_add]
    exact List.countP_le_length

/-- `stop` is called from no other call. -/
theorem Consuming.Step.stop_inv (hs : Consuming.Step capacity s (.call .stop) s') :
    s.caller = .idle ∧ s' = { s with threads := match s.pinnedThread with
      | none => s.threads
      | some n => s.threads.modify n LoopThread.requestStop } := by
  cases hs with
  | loop n hmove =>
    cases hmove with
    | move ht hloop => exact absurd rfl hloop.ne_call
  | caller hmove =>
    cases hmove with
    | stop hidle => exact ⟨hidle, rfl⟩

/-- `stop` tells the one loop that may be running. -/
theorem Turns.stopped (h : Turns s) (hs : Consuming.Step capacity s (.call .stop) s') :
    s'.Stopped ∧ s'.places = s.places := by
  obtain ⟨hidle, rfl⟩ := hs.stop_inv
  rcases Nat.eq_zero_or_eq_succ_pred s.places.length with hlen | hlen
  · have hnil : s.threads = [] := by simpa [Consuming.places] using hlen
    cases hp : s.pinnedThread <;> simp [Consuming.Stopped, Consuming.places, hnil]
  · have hptr := h.pointer (s.places.length - 1) (by simpa [Consuming.assigned, hidle] using hlen.symm)
    simp only [hptr]
    refine ⟨fun t ht => ?_, places_requestStop _ _⟩
    obtain ⟨i, hi⟩ := List.mem_iff_getElem?.mp ht
    rw [List.getElem?_modify] at hi
    obtain ⟨u, hu, heq⟩ := Option.map_eq_some_iff.mp hi
    split_ifs at heq with hin
    · exact Or.inr (by rw [← heq]; rfl)
    · -- a thread before the last
      have hlt : i < s.places.length := by
        simpa [Consuming.places] using (List.getElem?_eq_some_iff.mp hu).1
      have hat : s.places[i]? = some u.place := by rw [Consuming.places, List.getElem?_map, hu, Option.map_some]
      left
      rw [← heq]
      simpa [hidle] using h.left i u.place hat (by omega)

/-- **After `stop`** at most one more message is delivered, until a thread is started again, however
the threads before were started. -/
theorem one_more_after_stop {cells : ℕ → τ} {ls' : List (Seen τ)} {s₁ s₂ : Consuming τ}
    (h : Run (Consuming.Step capacity) (Consuming.create cells) ls s)
    (hstop : Consuming.Step capacity s (.call .stop) s₁) (h' : Run (Consuming.Step capacity) s₁ ls' s₂)
    (hno : .call .start ∉ ls') : (delivered ls').length ≤ 1 := by
  have hturns := Turns.run h
  obtain ⟨hstopped, hplaces⟩ := hturns.stopped hstop
  have hle := (hstopped.run h' hno).2
  rw [hplaces] at hle
  have := hturns.countP_owes hstop.stop_inv.1
  omega

/-- A second thread is started while the loop of the first is running, which is then left; the loop
of the second is about to pop when a message is there. -/
theorem run_restarted : ∃ ls, Run (Consuming.Step 2) (Consuming.create fun _ => 0) ls
    (⟨⟨Function.update (fun _ => 0) 0 7, 1, 0, 0, 0⟩, .loadHigh 1,
      [⟨.left, true⟩, ⟨.tryPop .idle, false⟩], some 1, .idle⟩ : Consuming ℕ) := by
  have hrun : Run (Consuming.Step 2) (Consuming.create fun _ => 0) _ _ :=
    Run.nil
      |>.snoc (.caller (.start rfl))
      |>.snoc (.caller (.assign rfl))
      |>.snoc (.loop 0 (.move rfl (.goOn _)))
      |>.snoc (.caller (.start rfl))
      |>.snoc (.caller (.assign rfl))
      |>.snoc (.loop 0 (.move rfl (.access (.loadTail _))))
      |>.snoc (.caller (.requestStop rfl))
      |>.snoc (.loop 0 (.move rfl (.empty (.empty rfl))))
      |>.snoc (.loop 0 (.move rfl (.spin _ _)))
      |>.snoc (.loop 0 (.move rfl (.stop _)))
      |>.snoc (.caller (.join rfl rfl rfl))
      |>.snoc (.produce (.call _ .tryPush 7))
      |>.snoc (.produce (.loadHead _ _ _))
      |>.snoc (.produce (.notFull _ _ (by decide)))
      |>.snoc (.produce (.write _ _ _))
      |>.snoc (.produce (.storeHead _ _ _))
      |>.snoc (.loop 1 (.move rfl (.goOn _)))
  exact ⟨_, hrun⟩

/-- It is told to stop then, and delivers one more message. -/
theorem one_more_after_stop_one : ∃ ls' : List (Seen ℕ), delivered ls' = [7] ∧ (delivered ls').length ≤ 1 := by
  obtain ⟨ls, hrun⟩ := run_restarted
  have hrun' : Run (Consuming.Step 2) (⟨⟨Function.update (fun _ => 0) 0 7, 1, 0, 0, 0⟩, .loadHigh 1,
      [⟨.left, true⟩, ⟨.tryPop .idle, true⟩], some 1, .idle⟩ : Consuming ℕ) _ _ :=
    Run.nil
      |>.snoc (.loop 1 (.move rfl (.access (.loadTail _))))
      |>.snoc (.loop 1 (.move rfl (.access (.notEmpty (by decide)))))
      |>.snoc (.loop 1 (.move rfl (.access (.read _ _))))
      |>.snoc (.loop 1 (.move rfl (.popped (.storeTail _ _ _))))
      |>.snoc (.loop 1 (.move rfl (.callback _ _ _)))
      |>.snoc (.loop 1 (.move rfl (.stop _)))
  exact ⟨_, rfl, one_more_after_stop hrun (.caller (.stop rfl)) hrun' (by simp)⟩

/-! ### Progress -/

/-- The loop of the thread `n` has been left. -/
def Consuming.LeftAt (n : ℕ) (s : Consuming τ) : Prop := ∃ t, s.threads[n]? = some t ∧ t.place = .left

/-- The thread `n` is scheduled again and again, until its loop is left. -/
def Scheduled {step : Consuming τ → Seen τ → Consuming τ → Prop} (capacity n : ℕ) (p : Path step) : Prop :=
  ∀ k, ∃ j ≥ k, Consuming.LoopMove capacity n (p.state j) (p.label j) (p.state (j + 1)) ∨ (p.state j).LeftAt n

/-- How many accesses `tryPop` still has to make to pop. -/
def Consumer.accesses : Consumer τ → ℕ
  | .idle => 4
  | .loadHead _ => 3
  | .read _ => 2
  | .storeTail _ _ => 1

/-- How many steps of its own a loop makes at most before it looks at its flag and is left. -/
def LoopAt.stepsToLeave : LoopAt τ → ℕ
  | .left => 0
  | .check => 1
  | .callback _ | .spin => 2
  | .tryPop c => c.accesses + 2

/-- The place of the thread `n` in a measure. -/
def Consuming.measure (s : Consuming τ) (n : ℕ) (steps : LoopAt τ → ℕ) : ℕ :=
  (s.threads[n]?.map fun t => steps t.place).getD 0

theorem ConsumerStep.accesses_lt {b b' : SpScRingBuffer τ} {c c' : Consumer τ}
    (h : ConsumerStep capacity b c .internal b' c') : c'.accesses < c.accesses := by
  cases h <;> simp [Consumer.accesses]

/-- Told to stop, a loop comes nearer to its end with every step. -/
theorem LoopStep.stepsToLeave_lt {b b' : SpScRingBuffer τ} {a a' : LoopAt τ} (h : LoopStep capacity true b a l b' a') :
    a'.stepsToLeave < a.stepsToLeave := by
  cases h with
  | stop | callback | spin => simp [LoopAt.stepsToLeave]
  | access hc => simpa [LoopAt.stepsToLeave] using hc.accesses_lt
  | empty hc =>
    cases hc
    simp [LoopAt.stepsToLeave, Consumer.accesses]
  | popped hc =>
    cases hc
    simp [LoopAt.stepsToLeave, Consumer.accesses]

/-- A step of the thread `n`, seen from the thread. -/
theorem Consuming.LoopMove.thread (h : Consuming.LoopMove capacity n s l s') (ht : s.threads[n]? = some t) :
    ∃ place, s'.threads[n]? = some { t with place := place } ∧
      LoopStep capacity t.stopFlag s.buffer t.place l s'.buffer place := by
  cases h with
  | @move u _ b place hu hloop =>
    obtain rfl : u = t := Option.some.inj (hu.symm.trans ht)
    exact ⟨place, by simp [(List.getElem?_eq_some_iff.mp ht).1], hloop⟩

/-- **What a thread sees of a step**: it is its own, or leaves it where it is. -/
theorem Consuming.Step.thread (h : Consuming.Step capacity s l s') (ht : s.threads[n]? = some t) :
    Consuming.LoopMove capacity n s l s' ∨
      ∃ t', s'.threads[n]? = some t' ∧ t'.place = t.place ∧ (t.stopFlag = true → t'.stopFlag = true) := by
  have hlt := (List.getElem?_eq_some_iff.mp ht).1
  have hstop (m : ℕ) : ∃ t', (s.threads.modify m LoopThread.requestStop)[n]? = some t' ∧ t'.place = t.place ∧
      (t.stopFlag = true → t'.stopFlag = true) := by
    rw [List.getElem?_modify, ht]
    by_cases hm : m = n
    · exact ⟨t.requestStop, by simp [hm], rfl, fun _ => rfl⟩
    · exact ⟨t, by simp [hm], rfl, id⟩
  cases h with
  | produce hp => exact Or.inr ⟨t, ht, rfl, id⟩
  | loop m hmove =>
    by_cases hm : m = n
    · exact Or.inl (hm ▸ hmove)
    · cases hmove with
      | move hu hloop => exact Or.inr ⟨t, by simpa [List.getElem?_set, hm] using ht, rfl, id⟩
  | caller hmove =>
    right
    cases hmove with
    | start hidle => exact ⟨t, by rw [← ht]; exact List.getElem?_append_left hlt, rfl, id⟩
    | assign | join => exact ⟨t, ht, rfl, id⟩
    | requestStop hc => exact hstop _
    | stop hidle =>
      cases hp : s.pinnedThread with
      | none => exact ⟨t, ht, rfl, id⟩
      | some m => exact hstop m

/-- **A loop that has been told to stop is left**, if its thread is scheduled: `join` returns. -/
theorem left_eventually {G : Consuming τ → Prop} (p : Path (Consuming.StepWhen G capacity)) {k : ℕ}
    (ht : (p.state k).threads[n]? = some t) (hflag : t.stopFlag = true) (hfair : Scheduled capacity n p) :
    ∃ j ≥ k, (p.state j).LeftAt n := by
  -- the thread is there from now on, and its flag stays set
  have htold (i : ℕ) : ∃ t, (p.state (k + i)).threads[n]? = some t ∧ t.stopFlag = true := by
    induction i with
    | zero => exact ⟨t, ht, hflag⟩
    | succ i ih =>
      obtain ⟨u, hu, hflag⟩ := ih
      rcases (p.step (k + i)).1.thread hu with hmove | ⟨u', hu', -, hflag'⟩
      · obtain ⟨place, hu', -⟩ := hmove.thread hu
        exact ⟨_, hu', hflag⟩
      · exact ⟨u', hu', hflag' hflag⟩
  refine eventually_of_measure (fun j => (p.state j).measure n LoopAt.stepsToLeave) (fun j _ => hfair j)
    (fun j hj hleft => ?_) fun j hj hleft hmove => ?_
  · obtain ⟨u, hu, hflag⟩ := htold (j - k)
    rw [Nat.add_sub_cancel' hj] at hu
    right
    rcases (p.step j).1.thread hu with hmove | ⟨u', hu', hplace, -⟩
    · obtain ⟨place, hu', hloop⟩ := hmove.thread hu
      rw [hflag] at hloop
      simpa [Consuming.measure, hu, hu'] using hloop.stepsToLeave_lt.le
    · simp [Consuming.measure, hu, hu', hplace]
  · obtain ⟨u, hu, hflag⟩ := htold (j - k)
    rw [Nat.add_sub_cancel' hj] at hu
    obtain ⟨place, hu', hloop⟩ := Consuming.LoopMove.thread hmove hu
    rw [hflag] at hloop
    exact Or.inr (by simpa [Consuming.measure, hu, hu'] using hloop.stepsToLeave_lt)

/-- A thread that is told to stop before its first look at the flag. -/
def stoppedPath : Path (Consuming.StepWhen (τ := ℕ) (fun _ => True) 2) where
  state
    | 0 => .create fun _ => 0
    | 1 => ⟨.create fun _ => 0, .idle, [.create], none, .assign 0⟩
    | 2 => oneThread (.create fun _ => 0) .idle .create
    | 3 => oneThread (.create fun _ => 0) .idle ⟨.check, true⟩
    | _ + 4 => oneThread (.create fun _ => 0) .idle ⟨.left, true⟩
  label
    | 0 => .call .start
    | 1 => .silent
    | 2 => .call .stop
    | 3 => .silent
    | _ + 4 => .call .stop
  step
    | 0 => ⟨.caller (.start rfl), fun _ => trivial⟩
    | 1 => ⟨.caller (.assign rfl), nofun⟩
    | 2 => ⟨.caller (.stop rfl), nofun⟩
    | 3 => ⟨.loop 0 (oneThread_move (.stop _)), nofun⟩
    | _ + 4 => ⟨.caller (.stop rfl), nofun⟩

theorem left_eventually_one : ∃ j ≥ 3, (stoppedPath.state j).LeftAt 0 :=
  left_eventually stoppedPath (k := 3) rfl rfl fun k =>
    ⟨k + 4, by omega, Or.inr ⟨⟨.left, true⟩, rfl, rfl⟩⟩

/-- How many steps of its own a loop makes before it delivers a message, if one is there. -/
def LoopAt.stepsToDeliver : LoopAt τ → ℕ
  | .callback _ => 0
  | .tryPop c => c.accesses
  | .check => 5
  | .spin => 6
  | .left => 7

/-- Not told to stop, a loop comes nearer to a message with every step, unless it finds the buffer
empty. -/
theorem LoopStep.stepsToDeliver_lt {b b' : SpScRingBuffer τ} {a a' : LoopAt τ} (h : LoopStep capacity false b a l b' a')
    (hne : l ≠ .ring .foundEmpty) : 0 < (delivered [l]).length ∨ a'.stepsToDeliver < a.stepsToDeliver := by
  cases h with
  | goOn | spin => simp [LoopAt.stepsToDeliver, Consumer.accesses]
  | callback => simp [delivered]
  | access hc => exact Or.inr hc.accesses_lt
  | empty hc => exact absurd rfl hne
  | popped hc =>
    cases hc
    simp [LoopAt.stepsToDeliver, Consumer.accesses]

/-- **A loop that finds the buffer empty** has delivered everything. -/
theorem InOrder.delivered_of_empty (h : InOrder ls s) (hfed : Fed capacity ls s) (ht : s.threads[n]? = some t)
    {b : SpScRingBuffer τ} {place : LoopAt τ}
    (hs : LoopStep capacity t.stopFlag s.buffer t.place (.ring .foundEmpty) b place) :
    delivered ls = published (ringSeen ls) := by
  obtain ⟨pre, post, -, hbefore, -⟩ := exists_split ht place
  obtain ⟨rfl, hpre⟩ := h.split hs.ne_left hbefore
  have hnone {β : Type} (f : LoopAt τ → Option β) (hf : f .left = none) : pre.filterMap f = [] :=
    List.filterMap_eq_nil_iff.mpr fun a ha => by rw [hpre a ha, hf]
  have hholds := hfed.sync.consumer
  rw [← h.published_eq hfed, Consuming.inHand, hbefore, List.filterMap_append, hnone _ rfl]
  rw [Consuming.consumer, hbefore, List.filterMap_append, hnone _ rfl] at hholds
  obtain ⟨a, f⟩ := t
  cases hs with
  | empty hc =>
    cases hc with
    | empty heq =>
      -- the consumer has loaded `_tail`, and it is `_head`
      obtain rfl : _ = s.buffer.tail := hholds
      simp [SpScRingBuffer.items, heq, LoopAt.message?]

theorem published_mono {step : Consuming τ → Seen τ → Consuming τ → Prop} (p : Path step) {j k : ℕ} (hjk : j ≤ k) :
    published (ringSeen (p.trace j)) <+: published (ringSeen (p.trace k)) := by
  induction hjk with
  | refl => exact List.prefix_refl _
  | step _ ih =>
    rw [Path.trace_succ, ringSeen_append, published_append]
    exact ih.trans (List.prefix_append ..)

/-- **Every message is delivered**: with each thread started when the loops before it are left, as long as
a thread is scheduled and is not told to stop, the callback is given, in order, all that has been
published by any moment. -/
theorem delivered_eventually (hcap : 0 < capacity) {cells : ℕ → τ}
    (p : Path (Consuming.StepWhen Consuming.AllLeft capacity)) (hstart : p.state 0 = Consuming.create cells) {k : ℕ}
    (hlive : ∀ j ≥ k, ∃ t, (p.state j).threads[n]? = some t ∧ t.stopFlag = false) (hfair : Scheduled capacity n p) :
    ∃ j ≥ k, published (ringSeen (p.trace k)) <+: delivered (p.trace j) := by
  have hrun (j : ℕ) : Run (Consuming.StepWhen Consuming.AllLeft capacity) (Consuming.create cells) (p.trace j) (p.state j) :=
    hstart ▸ p.run j
  have horder (j : ℕ) := InOrder.run (hrun j)
  have hfed (j : ℕ) := Fed.run hcap (run_quiet (hrun j))
  have hpub (j : ℕ) := (horder j).published_eq (hfed j)
  -- what is delivered is a first part of what is published, so it is enough that it is long enough
  suffices hlong : ∃ j ≥ k, (published (ringSeen (p.trace k))).length ≤ (delivered (p.trace j)).length by
    obtain ⟨j, hj, hlen⟩ := hlong
    refine ⟨j, hj, List.prefix_of_prefix_length_le (published_mono p hj) ?_ hlen⟩
    exact ⟨_, by rw [← hpub j, List.append_assoc]⟩
  refine exists_reached fun i hi hlt => ?_
  have hgrow (j : ℕ) : (delivered (p.trace (j + 1))).length =
      (delivered (p.trace j)).length + (delivered [p.label j]).length := by
    rw [Path.trace_succ, delivered_append, List.length_append]
  have hmono {j j' : ℕ} (hjj : j ≤ j') : (delivered (p.trace j)).length ≤ (delivered (p.trace j')).length := by
    induction hjj with
    | refl => exact Nat.le_refl _
    | step _ ih => exact Nat.le_trans ih (by rw [hgrow]; omega)
  have hown (j : ℕ) (hj : j ≥ i) (hnot : ¬ (delivered (p.trace i)).length < (delivered (p.trace j)).length)
      (hmove : Consuming.LoopMove capacity n (p.state j) (p.label j) (p.state (j + 1))) :
      (delivered (p.trace i)).length < (delivered (p.trace (j + 1))).length ∨
        (p.state (j + 1)).measure n LoopAt.stepsToDeliver < (p.state j).measure n LoopAt.stepsToDeliver := by
    obtain ⟨t, ht, hflag⟩ := hlive j (by omega)
    obtain ⟨place, ht', hloop⟩ := hmove.thread ht
    have hne : p.label j ≠ .ring .foundEmpty := by
      intro hempty
      rw [hempty] at hloop
      have hall := (horder j).delivered_of_empty (hfed j) ht hloop
      have hlen := (published_mono p (Nat.le_trans hi hj)).length_le
      rw [← hall] at hlen
      omega
    rw [hflag] at hloop
    rcases hloop.stepsToDeliver_lt hne with hdel | hlt'
    · left
      have := hmono hj
      rw [hgrow]
      omega
    · exact Or.inr (by simpa [Consuming.measure, ht, ht'] using hlt')
  have hkeep (j : ℕ) (hj : j ≥ i) (hnot : ¬ (delivered (p.trace i)).length < (delivered (p.trace j)).length) :
      (delivered (p.trace i)).length < (delivered (p.trace (j + 1))).length ∨
        (p.state (j + 1)).measure n LoopAt.stepsToDeliver ≤ (p.state j).measure n LoopAt.stepsToDeliver := by
    obtain ⟨t, ht, -⟩ := hlive j (by omega)
    rcases (p.step j).1.thread ht with hmove | ⟨t', ht', hplace, -⟩
    · exact (hown j hj hnot hmove).imp_right Nat.le_of_lt
    · exact Or.inr (by simp [Consuming.measure, ht, ht', hplace])
  refine eventually_of_measure (fun j => (p.state j).measure n LoopAt.stepsToDeliver) (fun j hj => ?_) hkeep hown
  obtain ⟨j', hj', hmove | ⟨u, hu, hleft⟩⟩ := hfair j
  · exact ⟨j', hj', Or.inl hmove⟩
  · -- a loop that has not been told to stop is not left
    obtain ⟨t, ht, hflag⟩ := hlive j' (by omega)
    obtain rfl : u = t := Option.some.inj (hu.symm.trans ht)
    have := (horder j').told u (List.mem_of_getElem? hu) hleft
    rw [hflag] at this
    cases this

/-- A buffer with the message 7 in its first cell. -/
def holding7 (head tail : ℕ) : SpScRingBuffer ℕ := ⟨Function.update (fun _ => 0) 0 7, head, tail, 0, 0⟩

/-- A loop that looks for a message again and again. -/
def pollingAt (k : ℕ) : LoopAt ℕ × Seen ℕ :=
  match k % 4 with
  | 0 => (.check, .silent)
  | 1 => (.tryPop .idle, .ring .internal)
  | 2 => (.tryPop (.loadHead 1), .ring .foundEmpty)
  | _ => (.spin, .silent)

theorem pollingAt_step (k : ℕ) : LoopStep 2 false (holding7 1 1) (pollingAt k).1 (pollingAt k).2 (holding7 1 1)
    (pollingAt (k + 1)).1 := by
  have hk : k % 4 = 0 ∧ (k + 1) % 4 = 1 ∨ k % 4 = 1 ∧ (k + 1) % 4 = 2 ∨ k % 4 = 2 ∧ (k + 1) % 4 = 3 ∨
      k % 4 = 3 ∧ (k + 1) % 4 = 0 := by
    omega
  rcases hk with ⟨hk, hk'⟩ | ⟨hk, hk'⟩ | ⟨hk, hk'⟩ | ⟨hk, hk'⟩ <;> simp only [pollingAt, hk, hk']
  · exact .goOn _
  · exact .access (.loadTail _)
  · exact .empty (.empty rfl)
  · exact .spin _ _

/-- A message is published; the loop delivers it, and looks for others for ever. -/
def deliveringPath : Path (Consuming.StepWhen (τ := ℕ) Consuming.AllLeft 2) where
  state
    | 0 => .create fun _ => 0
    | 1 => ⟨.create fun _ => 0, .idle, [.create], none, .assign 0⟩
    | 2 => oneThread (.create fun _ => 0) .idle .create
    | 3 => oneThread (.create fun _ => 0) (.loadHead PushKind.tryPush.call 7) .create
    | 4 => oneThread (.create fun _ => 0) (.loadTail PushKind.tryPush.call 7 0) .create
    | 5 => oneThread (.create fun _ => 0) (.write 7 0) .create
    | 6 => oneThread (holding7 0 0) (.storeHead 7 0) .create
    | 7 => oneThread (holding7 1 0) (.loadHigh 1) .create
    | 8 => oneThread (holding7 1 0) (.loadHigh 1) ⟨.tryPop .idle, false⟩
    | 9 => oneThread (holding7 1 0) (.loadHigh 1) ⟨.tryPop (.loadHead 0), false⟩
    | 10 => oneThread (holding7 1 0) (.loadHigh 1) ⟨.tryPop (.read 0), false⟩
    | 11 => oneThread (holding7 1 0) (.loadHigh 1) ⟨.tryPop (.storeTail 7 0), false⟩
    | 12 => oneThread (holding7 1 1) (.loadHigh 1) ⟨.callback 7, false⟩
    | k + 13 => oneThread (holding7 1 1) (.loadHigh 1) ⟨(pollingAt k).1, false⟩
  label
    | 0 => .call .start
    | 1 => .silent
    | 2 => .ring (.called .tryPush 7)
    | 3 | 4 | 5 => .ring .internal
    | 6 => .ring (.published 7)
    | 7 => .silent
    | 8 | 9 | 10 => .ring .internal
    | 11 => .ring (.popped 7)
    | 12 => .delivered 7
    | k + 13 => (pollingAt k).2
  step
    | 0 => ⟨.caller (.start rfl), fun _ => nofun⟩
    | 1 => ⟨.caller (.assign rfl), nofun⟩
    | 2 => ⟨.produce (.call _ .tryPush 7), nofun⟩
    | 3 => ⟨.produce (.loadHead _ _ _), nofun⟩
    | 4 => ⟨.produce (.notFull _ _ (by decide)), nofun⟩
    | 5 => ⟨.produce (.write _ _ _), nofun⟩
    | 6 => ⟨.produce (.storeHead _ _ _), nofun⟩
    | 7 => ⟨.loop 0 (oneThread_move (.goOn _)), nofun⟩
    | 8 => ⟨.loop 0 (oneThread_move (.access (.loadTail _))), nofun⟩
    | 9 => ⟨.loop 0 (oneThread_move (.access (.notEmpty (by decide)))), nofun⟩
    | 10 => ⟨.loop 0 (oneThread_move (.access (.read _ _))), nofun⟩
    | 11 => ⟨.loop 0 (oneThread_move (.popped (.storeTail _ _ _))), nofun⟩
    | 12 => ⟨.loop 0 (oneThread_move (.callback _ _ _)), nofun⟩
    | k + 13 => ⟨.loop 0 (oneThread_move (pollingAt_step k)), fun hcall => absurd hcall (pollingAt_step k).ne_call⟩

/-- The message is published at the seventh step, and delivered later. -/
theorem delivered_eventually_one : published (ringSeen (deliveringPath.trace 7)) = [7] ∧
    ∃ j ≥ 7, published (ringSeen (deliveringPath.trace 7)) <+: delivered (deliveringPath.trace j) := by
  refine ⟨rfl, delivered_eventually (n := 0) (by decide) deliveringPath rfl (fun j hj => ?_) fun k => ?_⟩
  · match j, hj with
    | 7, _ | 8, _ | 9, _ | 10, _ | 11, _ | 12, _ | k + 13, _ => exact ⟨⟨_, false⟩, rfl, rfl⟩
  · exact ⟨k + 13, by omega, Or.inl (oneThread_move (pollingAt_step k))⟩

end Scrimmage.Common
