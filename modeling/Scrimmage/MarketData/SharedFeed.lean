import Scrimmage.Theory.CriticalSection
import Scrimmage.MarketData.UpdateCallback

/-!
# A feed that threads share

`OrderBookFeed` called by any number of threads at once: pipelines and injectors change it
while others take snapshots. Each function of the class holds `_mutex` from its first access
to a side on.

## The model

* `Within` is where a thread is in the section of a function: it has a constructor for each
  statement, and between two of them any other thread may make a step (`feedBody`).
* The sorts are numbered as in a run of one thread: by the changes made before.
* The callback returns and makes no call on the feed, and is set before the threads are
  started: `setUpdateCallback` takes no lock.

## What is proved

* `completes_change`, `completes_snapshot`: what a function does that runs alone.
* `feed_linearizes`: over every interleaving of the threads the calls are as if made one after
  the other, in the order in which they return, and every snapshot is one of a well-formed
  book at its moment.
-/

namespace Scrimmage.MarketData

open Theory Body

variable {ρ : Type}

/-! ### The model -/

/-- A call on a feed that is shared. -/
inductive SharedCall (ρ : Type) where
  /-- `upsert` or `remove`. -/
  | change (c : FeedCall ρ)
  /-- `snapshot`. -/
  | snapshot

/-- Where a thread is in its section: the statement it executes next. -/
inductive Within (ρ : Type) where
  /-- `find_if`, and `*it = order` or `push_back`. -/
  | place (side : Bool) (order : Order ρ)
  /-- `sort`. -/
  | sort (side : Bool)
  /-- `resize`, if the side is too long. -/
  | resize (side : Bool)
  /-- `remove_if` and `erase`. -/
  | erase (side : Bool) (orderId : UInt64)
  /-- `if (_callback) _callback()`. -/
  | notify
  /-- The copy of `_bids`. -/
  | copyBids
  /-- The copy of `_asks`. -/
  | copyAsks (bids : List (Order ρ))

/-- The feed, and how many changes have been made of it. -/
structure SharedFeed (ρ : Type) where
  /-- The sides. -/
  feed : OrderBookFeed ρ
  /-- The changes. -/
  changes : ℕ

/-- `OrderBookFeed(maxLevels)`. -/
def SharedFeed.create (ρ : Type) : SharedFeed ρ := ⟨.create ρ, 0⟩

/-- What `snapshot` is to return of a feed. -/
def OrderBookFeed.shot (feed : OrderBookFeed ρ) : Snapshot ρ := (feed.bids, feed.asks)

/-- The changes among calls that have returned, in order. -/
def changesOf {ι : Type} (calls : List (ι × SharedCall ρ × Option (Snapshot ρ))) : List (FeedCall ρ) :=
  calls.filterMap fun r => match r.2.1 with
    | .change c => some c
    | .snapshot => none

@[simp] theorem changesOf_change {ι : Type} (calls : List (ι × SharedCall ρ × Option (Snapshot ρ))) (i : ι)
    (c : FeedCall ρ) (a : Option (Snapshot ρ)) : changesOf (calls ++ [(i, .change c, a)]) = changesOf calls ++ [c] :=
  List.filterMap_append

@[simp] theorem changesOf_snapshot {ι : Type} (calls : List (ι × SharedCall ρ × Option (Snapshot ρ))) (i : ι)
    (a : Option (Snapshot ρ)) : changesOf (calls ++ [(i, .snapshot, a)]) = changesOf calls := by
  simp [changesOf]

/-- The last of two replacements of a side counts. -/
theorem OrderBookFeed.setSide_setSide (feed : OrderBookFeed ρ) (side : Bool) (book book' : List (Order ρ)) :
    (feed.setSide side book).setSide side book' = feed.setSide side book' := by
  cases side <;> rfl

variable [LinearOrder ρ]

/-- **What the functions do** while they hold the mutex. A snapshot is what `snapshot` returns. -/
def feedBody (S : StdSort ρ) (maxLevels : ℕ) : Body (SharedFeed ρ) (SharedCall ρ) (Within ρ) (Option (Snapshot ρ)) where
  enter
    | .change (.upsert side order) => .place side order
    | .change (.remove side orderId) => .erase side orderId
    | .snapshot => .copyBids
  step s
    | .place side order =>
      ({ s with feed := s.feed.setSide side (place order (s.feed.side side)) }, .inl (.sort side))
    | .sort side =>
      ({ s with feed := s.feed.setSide side (S.sort s.changes side (s.feed.side side)) }, .inl (.resize side))
    | .resize side =>
      (if (s.feed.side side).length > maxLevels then
        { s with feed := s.feed.setSide side ((s.feed.side side).take maxLevels) } else s, .inl .notify)
    | .erase side orderId => ({ s with feed := s.feed.remove side orderId }, .inl .notify)
    | .notify => ({ s with changes := s.changes + 1 }, .inr none)
    | .copyBids => (s, .inl (.copyAsks s.feed.bids))
    | .copyAsks bids => (s, .inr (some (bids, s.feed.asks)))

/-! ### A function that runs alone -/

section Alone

variable {S : StdSort ρ} {maxLevels : ℕ} {s s' : SharedFeed ρ} {a : Option (Snapshot ρ)}

/-- The changes from `notify` on. -/
theorem completes_notify (h : (feedBody S maxLevels).Completes s .notify s' a) :
    s' = { s with changes := s.changes + 1 } ∧ a = none := by
  cases h with
  | last h =>
    cases h
    exact ⟨rfl, rfl⟩
  | step h _ => cases h

/-- **A change that runs alone** does what the call does. -/
theorem completes_change {c : FeedCall ρ}
    (h : (feedBody S maxLevels).Completes s ((feedBody S maxLevels).enter (.change c)) s' a) :
    s' = ⟨s.feed.call S maxLevels s.changes c, s.changes + 1⟩ ∧ a = none := by
  cases c with
  | upsert side order =>
    cases h with
    | last h => cases h
    | step hplace h =>
    cases hplace
    cases h with
    | last h => cases h
    | step hsort h =>
    cases hsort
    cases h with
    | last h => cases h
    | step hresize h =>
    cases hresize
    obtain ⟨rfl, rfl⟩ := completes_notify h
    refine ⟨?_, rfl⟩
    simp only [OrderBookFeed.call, OrderBookFeed.upsert, OrderBookFeed.side_setSide_same]
    split <;> simp only [OrderBookFeed.setSide_setSide]
  | remove side orderId =>
    cases h with
    | last h => cases h
    | step herase h =>
    cases herase
    exact completes_notify h

/-- **A snapshot that runs alone** is one of the book as it is. -/
theorem completes_snapshot (h : (feedBody S maxLevels).Completes s ((feedBody S maxLevels).enter .snapshot) s' a) :
    s' = s ∧ a = some s.feed.shot := by
  cases h with
  | last h => cases h
  | step hbids h =>
  cases hbids
  cases h with
  | step h _ => cases h
  | last hasks =>
  cases hasks
  exact ⟨rfl, rfl⟩

end Alone

/-! ### All threads -/

section Threads

variable {ι : Type} {S : StdSort ρ} {maxLevels : ℕ}

/-- **Calls one after the other** are a run of the feed, with the snapshots taken in between. -/
theorem legal_feed {calls : List (ι × SharedCall ρ × Option (Snapshot ρ))} {s : SharedFeed ρ}
    (h : (feedBody S maxLevels).Legal (.create ρ) calls s) :
    s = ⟨.run S maxLevels (changesOf calls), (changesOf calls).length⟩ ∧
    ∀ pre r post, calls = pre ++ r :: post → r.2.1 = .snapshot →
      r.2.2 = some (OrderBookFeed.run S maxLevels (changesOf pre)).shot := by
  refine h.answers (I := fun calls s => s = ⟨.run S maxLevels (changesOf calls), (changesOf calls).length⟩)
    (A := fun pre o a => o = .snapshot → a = some (OrderBookFeed.run S maxLevels (changesOf pre)).shot) rfl ?_
  rintro calls i o a s s' rfl hdone
  cases o with
  | change c =>
    obtain ⟨rfl, rfl⟩ := completes_change hdone
    refine ⟨?_, nofun⟩
    rw [changesOf_change, run_snoc, List.length_append, List.length_singleton]
  | snapshot =>
    obtain ⟨rfl, rfl⟩ := completes_snapshot hdone
    exact ⟨by rw [changesOf_snapshot], fun _ => rfl⟩

/-- **A shared feed is as if called by one thread**, if its callback returns and makes no call on it: over
every interleaving of any number of threads, each snapshot is one of the book after the changes
that have returned before it, in that order; so on each side its orders are distinct, no more than
`maxLevels`, best price first, and each is the last that was given for its id. While the mutex is
free the book is that after all changes that have returned. -/
theorem feed_linearizes [DecidableEq ι] {trace : List (Event (SharedCall ρ) (Option (Snapshot ρ)) ι)}
    {c : Threads (SharedFeed ρ) (SharedCall ρ) (Within ρ) (Option (Snapshot ρ)) ι}
    (h : Run (Step (feedBody S maxLevels)) (.create (.create ρ)) trace c) :
    (c.owner = none → c.shared.feed = .run S maxLevels (changesOf (returns trace))) ∧
    ∀ pre i a post, returns trace = pre ++ (i, .snapshot, a) :: post → ∃ feed : OrderBookFeed ρ,
      feed = .run S maxLevels (changesOf pre) ∧ a = some feed.shot ∧
      ∀ side, Held maxLevels side (changesOf pre) (feed.side side) := by
  obtain ⟨s, hlegal, hfree⟩ := legal_run h
  obtain ⟨rfl, hshots⟩ := legal_feed hlegal
  refine ⟨fun hnone => by rw [← hfree hnone], fun pre i a post heq => ?_⟩
  exact ⟨_, rfl, hshots pre (i, .snapshot, a) post heq rfl, fun side => held_run S maxLevels _ side⟩

/-- Two threads: one puts a bid in while the other waits to take a snapshot. -/
theorem feed_linearizes_two : ∃ trace c,
    Run (Step (ι := Bool) (feedBody (.insertion ℕ) 1)) (.create (.create ℕ)) trace c ∧
    returns trace = [(true, .change (.upsert true (bid 1 10)), none), (false, .snapshot, some ([bid 1 10], []))] ∧
    c.shared.feed = .run (.insertion ℕ) 1 [.upsert true (bid 1 10)] := by
  have h0 : Run (Step (ι := Bool) (feedBody (.insertion ℕ) 1)) (.create (.create ℕ)) [] _ := .nil
  have h1 := h0.snoc (.call (i := true) (.change (.upsert true (bid 1 10))) rfl)
  have h2 := h1.snoc (.lock (i := true) rfl rfl)
  have h3 := h2.snoc (.go (i := true) rfl rfl)
  have h4 := h3.snoc (.call (i := false) .snapshot rfl)
  have h5 := h4.snoc (.go (i := true) rfl rfl)
  have h6 := h5.snoc (.go (i := true) rfl rfl)
  have h7 := h6.snoc (.finish (i := true) rfl rfl)
  have h8 := h7.snoc (.unlock (i := true) rfl)
  have h9 := h8.snoc (.lock (i := false) rfl rfl)
  have h10 := h9.snoc (.go (i := false) rfl rfl)
  have h11 := h10.snoc (.finish (i := false) rfl rfl)
  have h12 := h11.snoc (.unlock (i := false) rfl)
  exact ⟨_, _, h12, rfl, (feed_linearizes h12).1 rfl⟩

/-! ### That calls end -/

/-- The statements that a section has before its last. -/
def Within.rank : Within ρ → ℕ
  | .place _ _ => 3
  | .sort _ => 2
  | .resize _ | .erase _ _ | .copyBids => 1
  | .notify | .copyAsks _ => 0

theorem rank_lt {s s' : SharedFeed ρ} {k k' : Within ρ} (h : (feedBody S maxLevels).step s k = (s', .inl k')) :
    k'.rank < k.rank := by
  cases k <;> cases h <;> simp [Within.rank]

/-- A call has no more than six steps: to lock the mutex, four in the section, and to unlock it. -/
theorem work_le_six (p : Place (SharedCall ρ) (Within ρ) (Option (Snapshot ρ))) :
    p.work (feedBody S maxLevels) Within.rank ≤ 6 := by
  cases p with
  | outside | leaving o a => simp [Place.work]
  | waiting o =>
    cases o with
    | change c => cases c <;> simp [Place.work, feedBody, Within.rank]
    | snapshot => simp [Place.work, feedBody, Within.rank]
  | inside o k => cases k <;> simp [Place.work, Within.rank]

/-- **Calls on a shared feed end**, if its callback returns and makes no call on it: wherever threads are
in their calls, and in whatever order they go on, without new calls no more than six steps a thread
are made, and when no more can be made all calls have returned. -/
theorem feed_calls_end [Fintype ι] [DecidableEq ι] {trace trace' : List (Event (SharedCall ρ) (Option (Snapshot ρ)) ι)}
    {c c' : Threads (SharedFeed ρ) (SharedCall ρ) (Within ρ) (Option (Snapshot ρ)) ι}
    (h : Run (Step (feedBody S maxLevels)) (.create (.create ρ)) trace c)
    (h' : Run (Step (feedBody S maxLevels)) c trace' c') (hcall : ∀ i o, .called i o ∉ trace') :
    trace'.length ≤ 6 * Fintype.card ι ∧
    ((∀ e c'', Step (feedBody S maxLevels) c' e c'' → ∃ i o, e = .called i o) → ∀ i, c'.place i = .outside) := by
  constructor
  · have hle := length_le_work (fun _ _ _ _ => rank_lt) h' hcall
    have hwork : c.work (feedBody S maxLevels) Within.rank ≤ Fintype.card ι * 6 :=
      Finset.sum_le_card_nsmul _ _ 6 fun i _ => work_le_six _
    omega
  · intro hstuck i
    by_contra hi
    obtain ⟨e, c'', hs, hnot⟩ := exists_step (h.trans h') hi
    obtain ⟨j, o, rfl⟩ := hstuck e c'' hs
    exact hnot j o rfl

end Threads

/-- Two threads that take snapshots, both at the mutex: one of them goes on. -/
theorem feed_calls_end_two : ∃ trace c trace' c',
    Run (Step (ι := Bool) (feedBody (.insertion ℕ) 1)) (.create (.create ℕ)) trace c ∧
    Run (Step (feedBody (.insertion ℕ) 1)) c trace' c' ∧ trace'.length = 4 ∧ trace'.length ≤ 6 * Fintype.card Bool := by
  have h0 : Run (Step (ι := Bool) (feedBody (.insertion ℕ) 1)) (.create (.create ℕ)) [] _ := .nil
  have h1 := h0.snoc (.call (i := true) .snapshot rfl)
  obtain ⟨trace, c, h2, hwaits, hfree⟩ : ∃ trace c,
      Run (Step (ι := Bool) (feedBody (.insertion ℕ) 1)) (.create (.create ℕ)) trace c ∧
      c.place true = .waiting .snapshot ∧ c.owner = none :=
    ⟨_, _, h1.snoc (.call (i := false) .snapshot rfl), rfl, rfl⟩
  have r0 : Run (Step (feedBody (.insertion ℕ) 1)) c [] c := .nil
  have r1 := r0.snoc (.lock hwaits hfree)
  have r2 := r1.snoc (.go (i := true) (o := .snapshot) (k := .copyBids) rfl rfl)
  have r3 := r2.snoc (.finish (i := true) (o := .snapshot) (k := .copyAsks _) rfl rfl)
  have r4 := r3.snoc (.unlock (i := true) (o := .snapshot) (a := some _) rfl)
  exact ⟨trace, c, _, _, h2, r4, rfl, (feed_calls_end h2 r4 (by simp)).1⟩

end Scrimmage.MarketData
