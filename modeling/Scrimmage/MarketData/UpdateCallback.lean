import Scrimmage.Theory.Mutex
import Scrimmage.MarketData.Depth

/-!
# The update callback of a feed

`upsert`, `remove` and `snapshot` of `OrderBookFeed.h` with the mutex and the callback. All
three hold the mutex to their end, the first two also while they call the callback; and a
`std::mutex` cannot be locked twice by one thread.

## The model

* A callback is a `Client` of `snapshot`, which may be another one each time it is called.
* `setUpdateCallback` replaces the callback, with an empty one perhaps.

## What is proved

* `free_run`: between the calls of a thread the mutex is free.
* `callback_reads_iff`: a call completes, and the callback is given the book as it is then,
  exactly when there is no callback or it makes no call of `snapshot`. `snapshot_relocks` is
  one that makes a single one.
-/

namespace Scrimmage.MarketData

open Theory

variable {ρ : Type}

/-- What `snapshot` returns: the bids and the asks. -/
abbrev Snapshot (ρ : Type) := List (Order ρ) × List (Order ρ)

/-- An update callback that only reads the book: what it does when it is called. -/
abbrev UpdateCallback (ρ : Type) := Client (Snapshot ρ)

/-- `OrderBookFeed` with its mutex, as the thread sees it, and its callback. -/
structure NotifyingFeed (ρ : Type) where
  /-- `_bids` and `_asks`, and whether the thread holds `_mutex`. -/
  book : Guarded (OrderBookFeed ρ)
  /-- `_callback`, if there is one: what it does at the `n`th call. -/
  callback : Option (ℕ → UpdateCallback ρ)

/-- `OrderBookFeed(maxLevels)`. -/
def NotifyingFeed.create (ρ : Type) : NotifyingFeed ρ := ⟨⟨.create ρ, false⟩, none⟩

/-- `snapshot`. -/
def snapshot : Action (OrderBookFeed ρ) (Snapshot ρ) := locked fun g => .ok ((g.state.bids, g.state.asks), g)

/-- `if (_callback) _callback()`, at the `n`th call, with what the snapshots return. -/
def notify (callback : Option (ℕ → UpdateCallback ρ)) (n : ℕ) : Action (OrderBookFeed ρ) (List (Snapshot ρ)) :=
  match callback with
  | none => Client.done.run snapshot
  | some cb => (cb n).run snapshot

/-- What a thread does with a feed. -/
inductive FeedOp (ρ : Type) where
  /-- `upsert` or `remove`. -/
  | change (c : FeedCall ρ)
  /-- `setUpdateCallback(cb)`. -/
  | setUpdateCallback (cb : Option (ℕ → UpdateCallback ρ))
  /-- `snapshot()`. -/
  | snapshot

section Notify

variable {n : ℕ} {callback : Option (ℕ → UpdateCallback ρ)} {g : Guarded (OrderBookFeed ρ)}

/-- No callback, or one that takes no snapshot. -/
theorem notify_of_done (h : ∀ cb ∈ callback, cb n = .done) : notify callback n g = .ok ([], g) := by
  cases callback with
  | none => rfl
  | some cb =>
    rw [notify, h cb rfl]
    rfl

/-- **A callback that takes a snapshot** while the thread holds the mutex. -/
theorem notify_of_held (hheld : g.held = true) (h : ¬ ∀ cb ∈ callback, cb n = .done) :
    notify callback n g = .error .relock := by
  cases callback with
  | none => exact absurd (fun _ hcb => nomatch hcb) h
  | some cb => exact Client.run_of_error (locked_of_held hheld) fun hdone => h fun _ hcb => Option.some.inj hcb ▸ hdone

end Notify

section Runs

variable [LinearOrder ρ] {S : StdSort ρ} {maxLevels n : ℕ} {st st' : NotifyingFeed ρ}

/-- `upsert` or `remove`, as the `n`th call: under a lock guard the side is changed, and then
the callback called. -/
def changeAndNotify (S : StdSort ρ) (maxLevels n : ℕ) (callback : Option (ℕ → UpdateCallback ρ)) (c : FeedCall ρ) :
    Action (OrderBookFeed ρ) (List (Snapshot ρ)) :=
  locked fun g => notify callback n { g with state := g.state.call S maxLevels n c }

/-- What the `n`th call does, with the snapshots taken in it. -/
def NotifyingFeed.step (S : StdSort ρ) (maxLevels n : ℕ) (st : NotifyingFeed ρ) :
    FeedOp ρ → Except Relock (List (Snapshot ρ) × NotifyingFeed ρ)
  | .change c =>
    match changeAndNotify S maxLevels n st.callback c st.book with
    | .error e => .error e
    | .ok (snaps, book) => .ok (snaps, { st with book := book })
  | .setUpdateCallback cb => .ok ([], { st with callback := cb })
  | .snapshot =>
    match MarketData.snapshot st.book with
    | .error e => .error e
    | .ok (snap, book) => .ok ([snap], { st with book := book })

/-- The feed after a sequence of calls, all of which have completed. -/
def NotifyingFeed.run (S : StdSort ρ) (maxLevels : ℕ) (ops : List (FeedOp ρ)) : Except Relock (NotifyingFeed ρ) :=
  ops.zipIdx.foldlM (fun st op => Prod.snd <$> st.step S maxLevels op.2 op.1) (.create ρ)

/-- **What a call leaves**: the mutex is free behind it, if it was before. -/
theorem free_step (hfree : st.book.held = false) {op : FeedOp ρ} {snaps : List (Snapshot ρ)}
    (h : st.step S maxLevels n op = .ok (snaps, st')) : st'.book.held = false := by
  cases op with
  | change c =>
    simp only [NotifyingFeed.step] at h
    cases hbook : changeAndNotify S maxLevels n st.callback c st.book with
    | error e => simp [hbook] at h
    | ok r =>
      simp only [hbook, Except.ok.injEq, Prod.mk.injEq] at h
      rw [← h.2]
      exact held_of_locked hbook
  | setUpdateCallback cb =>
    cases h
    exact hfree
  | snapshot =>
    simp only [NotifyingFeed.step] at h
    cases hbook : MarketData.snapshot st.book with
    | error e => simp [hbook] at h
    | ok r =>
      simp only [hbook, Except.ok.injEq, Prod.mk.injEq] at h
      rw [← h.2]
      exact held_of_locked hbook

theorem NotifyingFeed.run_snoc (S : StdSort ρ) (maxLevels : ℕ) (ops : List (FeedOp ρ)) (op : FeedOp ρ) :
    NotifyingFeed.run S maxLevels (ops ++ [op]) = (do
      let st ← NotifyingFeed.run S maxLevels ops
      Prod.snd <$> st.step S maxLevels ops.length op) := by
  simp [NotifyingFeed.run, List.zipIdx_append, List.foldlM_append]

/-- **Between the calls of a thread the mutex is free.** -/
theorem free_run {ops : List (FeedOp ρ)} (h : NotifyingFeed.run S maxLevels ops = .ok st) : st.book.held = false := by
  induction ops using List.reverseRecOn generalizing st with
  | nil =>
    cases h
    rfl
  | append_singleton ops op ih =>
    rw [NotifyingFeed.run_snoc] at h
    cases hrun : NotifyingFeed.run S maxLevels ops with
    | error e =>
      rw [hrun] at h
      cases h
    | ok st₀ =>
      rw [hrun] at h
      change Prod.snd <$> st₀.step S maxLevels ops.length op = .ok st at h
      cases hstep : st₀.step S maxLevels ops.length op with
      | error e =>
        rw [hstep] at h
        cases h
      | ok r =>
        rw [hstep] at h
        cases h
        exact free_step (ih hrun) hstep

/-- **When a callback may read the book**: in every state a feed can be in, and for every
callback that only takes snapshots, `upsert` and `remove` complete without locking the mutex
twice, with the book changed and with every snapshot one of the book as changed, exactly when
there is no callback or it takes none. -/
theorem callback_reads_iff {ops : List (FeedOp ρ)} (h : NotifyingFeed.run S maxLevels ops = .ok st) (n : ℕ)
    (c : FeedCall ρ) :
    (∃ snaps, st.step S maxLevels n (.change c) =
        .ok (snaps, { st with book := ⟨st.book.state.call S maxLevels n c, false⟩ }) ∧
      ∀ snap ∈ snaps, snap =
        ((st.book.state.call S maxLevels n c).bids, (st.book.state.call S maxLevels n c).asks)) ↔
    ∀ cb ∈ st.callback, cb n = .done := by
  have hfree := free_run h
  constructor
  · rintro ⟨snaps, hstep, -⟩
    by_contra hread
    have hrelock : changeAndNotify S maxLevels n st.callback c st.book = .error .relock :=
      locked_of_error hfree (notify_of_held rfl hread)
    simp only [NotifyingFeed.step, hrelock] at hstep
    cases hstep
  · intro hdone
    have hok : changeAndNotify S maxLevels n st.callback c st.book =
        .ok ([], ⟨st.book.state.call S maxLevels n c, false⟩) := by
      unfold changeAndNotify
      apply locked_of_ok hfree
      exact notify_of_done hdone
    refine ⟨[], ?_, fun snap hsnap => nomatch hsnap⟩
    simp only [NotifyingFeed.step, hok]

/-- A callback that does nothing with the book. -/
theorem callback_reads_none : ∃ st,
    NotifyingFeed.run (.insertion ℕ) 1 [.setUpdateCallback (some fun _ => .done)] = .ok st ∧
    ∃ snaps st', st.step (.insertion ℕ) 1 1 (.change (.upsert true (bid 1 10))) = .ok (snaps, st') ∧
      st'.book.state.bids = [bid 1 10] := by
  have hrun : NotifyingFeed.run (.insertion ℕ) 1 [.setUpdateCallback (some fun _ => .done)] =
      .ok ⟨⟨.create ℕ, false⟩, some fun _ => .done⟩ := rfl
  obtain ⟨snaps, hstep, -⟩ := (callback_reads_iff hrun 1 (.upsert true (bid 1 10))).mpr
    fun cb hcb => by rw [← Option.some.inj hcb]
  exact ⟨_, hrun, snaps, _, hstep, by decide⟩

/-- **A callback that takes one snapshot**: the first `upsert` after it has been registered locks
the mutex that its thread holds. -/
theorem snapshot_relocks :
    let ops : List (FeedOp ℕ) := [.setUpdateCallback (some fun _ => .call fun _ => .done)]
    ∃ st, NotifyingFeed.run (.insertion ℕ) 1 ops = .ok st ∧
      st.step (.insertion ℕ) 1 1 (.change (.upsert true (bid 1 10))) = .error .relock :=
  ⟨_, rfl, rfl⟩

end Runs

end Scrimmage.MarketData
