import Scrimmage.Common.SpScRingBuffer

/-!
# What a ring buffer says of itself

How the answers of `SpScRingBuffer` relate to the number of items that are in it: `tryPush`
says that it is full, `tryPop` that it is empty, and `highWaterMark` how many there have
been at most. The producer reads `_tail` once to see whether there is room, and once again
for the mark, when the item is there already and the consumer may have taken it.

## What is proved

* `usedAt_eq`, `usedAt_le`: what `updateHighWaterMark` computes from the two indices.
* `Measured`: the invariant that ties the mark to what has been present.
* `reports_truthfully`: full and empty are so when they are seen, and the mark is never too
  high; it is exact when no item is popped during a push, but for the push that has
  published its item and has not yet come to the mark. `mark_behind` is such a point.
-/

namespace Scrimmage.Common

open Theory

variable {τ : Type}

/-! ### What is present -/

/-- How many items have been published and not been removed. -/
def present (trace : List (Label τ)) : ℕ := (published trace).length - (popped trace).length

/-- **The largest number of items present** at any point so far. -/
def peak (trace : List (Label τ)) : ℕ :=
  ((List.range (trace.length + 1)).map fun k => present (trace.take k)).foldr max 0

/-- Whether a push is being executed. -/
def inPush (trace : List (Label τ)) : Bool :=
  trace.foldl (fun b l =>
    match l with
    | .called _ _ => true
    | .returned _ => false
    | _ => b) false

/-- **No item is popped during a push.** -/
def Undisturbed (trace : List (Label τ)) : Prop :=
  Whenever (fun l => ∃ item, l = .popped item) (fun pre => inPush pre = false) trace

theorem undisturbed_of_notMem {trace : List (Label τ)} (h : ∀ item, .popped item ∉ trace) : Undisturbed trace := by
  rintro pre l post rfl ⟨item, rfl⟩
  exact absurd (by simp) (h item)

theorem foldr_max_append (l : List ℕ) (n : ℕ) : (l ++ [n]).foldr max 0 = max (l.foldr max 0) n := by
  induction l with
  | nil => simp
  | cons m l ih => rw [List.cons_append, List.foldr_cons, ih, List.foldr_cons, Nat.max_assoc]

/-- One more step. -/
theorem peak_snoc (trace : List (Label τ)) (l : Label τ) :
    peak (trace ++ [l]) = max (peak trace) (present (trace ++ [l])) := by
  have hbefore : ((List.range (trace.length + 1)).map fun k => present ((trace ++ [l]).take k)) =
      (List.range (trace.length + 1)).map fun k => present (trace.take k) := by
    refine List.map_congr_left fun k hk => ?_
    rw [List.take_append_of_le_length (Nat.le_of_lt_succ (List.mem_range.mp hk))]
  rw [peak, List.length_append, List.length_singleton, List.range_succ, List.map_append, hbefore,
    List.map_singleton, foldr_max_append, peak, List.take_of_length_le (by simp)]

theorem present_le_peak (trace : List (Label τ)) : present trace ≤ peak trace := by
  rcases List.eq_nil_or_concat' trace with rfl | ⟨trace, l, rfl⟩
  · exact Nat.zero_le _
  · rw [peak_snoc]
    exact Nat.le_max_right ..

theorem inPush_snoc (trace : List (Label τ)) (l : Label τ) :
    inPush (trace ++ [l]) =
      match l with
      | .called _ _ => true
      | .returned _ => false
      | _ => inPush trace := by
  rw [inPush, List.foldl_append]
  cases l <;> rfl

/-- What is present is what is in the cells. -/
theorem Sync.present_eq {capacity : ℕ} {trace : List (Label τ)} {b : SpScRingBuffer τ} {p : Producer τ}
    {c : Consumer τ} (h : Sync capacity trace b p c) : present trace = Ring.size capacity b.tail b.head := by
  rw [present, h.fifo, List.length_append, SpScRingBuffer.items, List.length_map, Ring.length_window]
  omega

/-! ### What is computed from the indices -/

section Used

variable {capacity head tail : ℕ}

/-- **The number computed** is that of the cells in use: an array has at most `2^63` cells. -/
theorem usedAt_eq (hhead : head < capacity) (htail : tail < capacity) (hmax : capacity ≤ 2 ^ 63) :
    usedAt capacity head tail = Ring.size capacity tail head := by
  have hsum : head + capacity + 2 ^ 64 - tail = head + capacity - tail + 2 ^ 64 := by omega
  have hlt : head + capacity - tail < 2 ^ 64 := by omega
  rw [usedAt, hsum, Nat.add_mod_right, Nat.mod_eq_of_lt hlt]
  rfl

/-- With more cells it could be too small. -/
theorem usedAt_le (hhead : head < capacity) (htail : tail < capacity) (hmax : capacity < 2 ^ 64) :
    usedAt capacity head tail ≤ Ring.size capacity tail head := by
  have hsum : head + capacity + 2 ^ 64 - tail = head + capacity - tail + 2 ^ 64 := by omega
  rw [usedAt, hsum, Nat.add_mod_right]
  rcases Nat.lt_or_ge (head + capacity - tail) (2 ^ 64) with hlt | hge
  · rw [Nat.mod_eq_of_lt hlt]
    exact le_rfl
  · rw [Nat.mod_eq_sub_mod hge, Nat.mod_eq_of_lt (a := head + capacity - tail - 2 ^ 64) (by omega),
      Nat.mod_eq_of_lt (by omega), Ring.size_eq htail hhead]
    split_ifs <;> omega

end Used

/-! ### The invariant -/

/-- The push has published its item, and has not yet come to the mark. -/
def Producer.updating : Producer τ → Bool
  | .loadHigh _ | .loadUsed _ _ | .exchange _ _ => true
  | _ => false

/-- What the producer knows on its way to the mark: its own `_head`, and then a number of items
that have been present. -/
def Producer.Measures (b : SpScRingBuffer τ) (most : ℕ) : Producer τ → Prop
  | .loadHigh currentHead | .loadUsed currentHead _ => currentHead = b.head
  | .exchange used _ => used ≤ most
  | _ => True

/-- How the mark comes to be what has been present at most, if no item is popped on the way. -/
def Producer.Exact (b : SpScRingBuffer τ) (most now : ℕ) : Producer τ → Prop
  | .loadHigh _ => most = max b.highWaterMark now
  | .loadUsed _ currentHigh => currentHigh = b.highWaterMark ∧ most = max b.highWaterMark now
  | .exchange used currentHigh => currentHigh = b.highWaterMark ∧ most = max b.highWaterMark used
  | _ => most = b.highWaterMark

/-- The push has found the buffer full, and is about to return `false`. -/
def Producer.turnedAway : Producer τ → Bool
  | .drop | .wait _ _ => true
  | _ => false

/-- The last push that was called has found the buffer full, with all cells but one in use. -/
def FoundFull (capacity : ℕ) (trace : List (Label τ)) : Prop :=
  ∃ pre post, trace = pre ++ .foundFull :: post ∧ (∀ kind item, .called kind item ∉ post) ∧
    present pre = capacity - 1

theorem FoundFull.snoc {capacity : ℕ} {trace : List (Label τ)} (h : FoundFull capacity trace) {l : Label τ}
    (hl : ∀ kind item, l ≠ .called kind item) : FoundFull capacity (trace ++ [l]) := by
  obtain ⟨pre, post, rfl, hpost, hfull⟩ := h
  refine ⟨pre, post ++ [l], by simp, fun kind item hm => ?_, hfull⟩
  rcases List.mem_append.mp hm with hm | hm
  · exact hpost kind item hm
  · exact hl kind item (List.mem_singleton.mp hm).symm

/-- **The invariant**: what has been said of the buffer so far, and the mark. -/
structure Measured (capacity : ℕ) (trace : List (Label τ)) (b : SpScRingBuffer τ) (p : Producer τ) : Prop where
  full : Whenever (· = .returned false) (FoundFull capacity) trace
  empty : Whenever (· = .foundEmpty) (fun pre => present pre = 0) trace
  turnedAway : p.turnedAway = true → FoundFull capacity trace
  mark : b.highWaterMark ≤ peak trace
  measures : p.Measures b (peak trace)
  inPush : inPush trace = true ↔ p ≠ .idle
  exact : capacity ≤ 2 ^ 63 → Undisturbed trace → p.Exact b (peak trace) (present trace)

namespace Measured

variable {capacity : ℕ} {trace : List (Label τ)} {b b' : SpScRingBuffer τ} {p p' : Producer τ}
  {c c' : Consumer τ} {l : Label τ} {item : τ} {currentHead : ℕ}

theorem start (capacity : ℕ) (cells : ℕ → τ) : Measured capacity [] (SpScRingBuffer.create cells) .idle where
  full pre l post heq := by simp at heq
  empty pre l post heq := by simp at heq
  turnedAway h := by cases h
  mark := Nat.zero_le _
  measures := trivial
  inPush := by simp [Scrimmage.Common.inPush]
  exact _ _ := rfl

/-- **A step that neither publishes nor pops**: what is present stays as it is. -/
theorem quiet (h : Measured capacity trace b p) (hpub : published [l] = []) (hpop : popped [l] = [])
    (hfull : l = .returned false → FoundFull capacity trace) (hempty : l = .foundEmpty → present trace = 0)
    (haway : p'.turnedAway = true → FoundFull capacity (trace ++ [l])) (hmark : b'.highWaterMark ≤ peak trace)
    (hmeasures : p'.Measures b' (peak trace)) (hin : Common.inPush (trace ++ [l]) = true ↔ p' ≠ .idle)
    (hexact : capacity ≤ 2 ^ 63 → Undisturbed trace → p'.Exact b' (peak trace) (present trace)) :
    Measured capacity (trace ++ [l]) b' p' := by
  have hpresent : present (trace ++ [l]) = present trace := by
    rw [present, published_append, popped_append, hpub, hpop, List.append_nil, List.append_nil]
    rfl
  have hpeak : peak (trace ++ [l]) = peak trace := by
    rw [peak_snoc, hpresent]
    exact Nat.max_eq_left (present_le_peak trace)
  refine ⟨h.full.snoc hfull, h.empty.snoc hempty, haway, ?_, ?_, hin, fun hmax hund => ?_⟩
  · rw [hpeak]
    exact hmark
  · rw [hpeak]
    exact hmeasures
  · rw [hpeak, hpresent]
    exact hexact hmax hund.of_snoc.1

/-- A step of the producer inside a push, before its item is published. -/
theorem before (h : Measured capacity trace b p) (hp : p ≠ .idle) (hp' : p' ≠ .idle)
    (hplain : ∀ most now, p.Exact b most now → most = b.highWaterMark)
    (hplain' : ∀ most now, most = b.highWaterMark → p'.Exact b' most now)
    (hmark : b'.highWaterMark = b.highWaterMark) (hmeasures : ∀ most, p'.Measures b' most)
    (haway : p'.turnedAway = false) : Measured capacity (trace ++ [.internal]) b' p' := by
  refine h.quiet rfl rfl nofun nofun (fun htrue => ?_) (hmark ▸ h.mark) (hmeasures _) ?_ fun hmax hund => ?_
  · rw [haway] at htrue
    cases htrue
  · rw [inPush_snoc]
    simp [h.inPush, hp, hp']
  · exact hplain' _ _ (hplain _ _ (h.exact hmax hund))

/-- **The item is published.** -/
theorem storeHead (h : Measured capacity trace b (.storeHead item currentHead))
    (hsync : Sync capacity trace b (.storeHead item currentHead) c) :
    Measured capacity (trace ++ [.published item]) { b with head := increment capacity currentHead }
      (.loadHigh (increment capacity currentHead)) := by
  have hlater : present (trace ++ [.published item]) = present trace + 1 := by
    have hfifo := congrArg List.length hsync.fifo
    rw [List.length_append] at hfifo
    have hpub : (published (trace ++ [.published item])).length = (published trace).length + 1 := by
      simp [published]
    have hpop : popped (trace ++ [.published item]) = popped trace := by simp [popped]
    rw [present, present, hpub, hpop]
    omega
  refine ⟨h.full.skip (by simp), h.empty.skip (by simp), (fun htrue => by cases htrue), ?_, rfl, ?_, fun hmax hund => ?_⟩
  · rw [peak_snoc]
    exact h.mark.trans (Nat.le_max_left ..)
  · rw [inPush_snoc]
    simp [h.inPush]
  · have hbefore : peak trace = b.highWaterMark := h.exact hmax hund.of_snoc.1
    show peak (trace ++ [.published item]) = max b.highWaterMark (present (trace ++ [.published item]))
    rw [peak_snoc, hbefore]

/-- **Every step of the producer keeps the invariant.** -/
theorem producer_step (hmax : capacity < 2 ^ 64) (h : Measured capacity trace b p) (hsync : Sync capacity trace b p c)
    (hs : ProducerStep capacity b p l b' p') : Measured capacity (trace ++ [l]) b' p' := by
  have hin := h.inPush
  cases hs with
  | call kind item =>
    refine h.quiet rfl rfl nofun nofun nofun h.mark trivial ?_ h.exact
    simp [inPush_snoc]
  | loadHead call item => exact h.before nofun nofun (fun _ _ => id) (fun _ _ => id) rfl (fun _ => trivial) rfl
  | full call item hfull =>
    obtain rfl : _ = b.head := hsync.producer
    have hall : present trace = capacity - 1 := by
      rw [hsync.present_eq]
      exact Ring.size_full hsync.tail_lt hsync.head_lt hfull
    have hfound : FoundFull capacity (trace ++ [.foundFull]) := ⟨trace, [], rfl, nofun, hall⟩
    cases call with
    | once =>
      refine h.quiet rfl rfl nofun nofun (fun _ => hfound) h.mark trivial ?_ h.exact
      simp [inPush_snoc, hin, PushCall.onFull]
    | loop spinCount =>
      refine h.quiet rfl rfl nofun nofun (fun _ => hfound) h.mark trivial ?_ h.exact
      simp [inPush_snoc, hin, PushCall.onFull]
  | notFull call item hne => exact h.before nofun nofun (fun _ _ => id) (fun _ _ => id) rfl (fun _ => trivial) rfl
  | write item currentHead => exact h.before nofun nofun (fun _ _ => id) (fun _ _ => id) rfl (fun _ => trivial) rfl
  | storeHead item currentHead => exact h.storeHead hsync
  | drop =>
    refine h.quiet rfl rfl (fun _ => h.turnedAway rfl) nofun nofun h.mark trivial ?_ h.exact
    simp [inPush_snoc]
  | timeout item hz =>
    refine h.quiet rfl rfl (fun _ => h.turnedAway rfl) nofun nofun h.mark trivial ?_ h.exact
    simp [inPush_snoc]
  | spin item spinCount => exact h.before nofun nofun (fun _ _ => id) (fun _ _ => id) rfl (fun _ => trivial) rfl
  | loadHigh currentHead =>
    refine h.quiet rfl rfl nofun nofun nofun h.mark h.measures ?_ fun hmax hund => ⟨rfl, h.exact hmax hund⟩
    simp [inPush_snoc, hin]
  | loadUsed currentHead currentHigh =>
    obtain rfl : currentHead = b.head := h.measures
    refine h.quiet rfl rfl nofun nofun nofun h.mark ?_ ?_ fun hmax hund => ?_
    · have hle := usedAt_le hsync.head_lt hsync.tail_lt hmax
      rw [← hsync.present_eq] at hle
      exact hle.trans (present_le_peak trace)
    · simp [inPush_snoc, hin]
    · obtain ⟨hhigh, hmost⟩ := h.exact hmax hund
      refine ⟨hhigh, ?_⟩
      rw [usedAt_eq hsync.head_lt hsync.tail_lt hmax, ← hsync.present_eq]
      exact hmost
  | noHigher hle =>
    refine h.quiet rfl rfl nofun nofun nofun h.mark trivial (by simp [inPush_snoc]) fun hmax hund => ?_
    obtain ⟨rfl, hmost⟩ := h.exact hmax hund
    show peak trace = b.highWaterMark
    omega
  | exchanged hlt heq =>
    rename_i used _
    refine h.quiet rfl rfl nofun nofun nofun h.measures trivial (by simp [inPush_snoc]) fun hmax hund => ?_
    obtain ⟨rfl, hmost⟩ := h.exact hmax hund
    show peak trace = used
    omega
  | notExchanged hlt =>
    refine h.quiet rfl rfl nofun nofun nofun h.mark h.measures ?_ fun hmax hund => ⟨rfl, (h.exact hmax hund).2⟩
    simp [inPush_snoc, hin]

/-- **Every step of the consumer keeps the invariant.** -/
theorem consumer_step (h : Measured capacity trace b p) (hsync : Sync capacity trace b p c)
    (hs : ConsumerStep capacity b c l b' c') : Measured capacity (trace ++ [l]) b' p := by
  have hin := h.inPush
  have haway {l : Label τ} (hl : ∀ kind item, l ≠ .called kind item) (htrue : p.turnedAway = true) :
      FoundFull capacity (trace ++ [l]) := (h.turnedAway htrue).snoc hl
  cases hs with
  | loadTail => exact h.quiet rfl rfl nofun nofun (haway nofun) h.mark h.measures (by simp [inPush_snoc, hin]) h.exact
  | empty heq =>
    have hnone : present trace = 0 := by
      obtain rfl : _ = b.tail := hsync.consumer
      rw [hsync.present_eq, ← heq, Ring.size_self]
    exact h.quiet rfl rfl nofun (fun _ => hnone) (haway nofun) h.mark h.measures (by simp [inPush_snoc, hin]) h.exact
  | notEmpty hne =>
    exact h.quiet rfl rfl nofun nofun (haway nofun) h.mark h.measures (by simp [inPush_snoc, hin]) h.exact
  | read currentTail =>
    exact h.quiet rfl rfl nofun nofun (haway nofun) h.mark h.measures (by simp [inPush_snoc, hin]) h.exact
  | storeTail item currentTail =>
    have hpub : published (trace ++ [.popped item]) = published trace := by simp [published]
    have hpop : (popped (trace ++ [.popped item])).length = (popped trace).length + 1 := by simp [popped]
    have hfewer : present (trace ++ [.popped item]) ≤ peak trace := by
      have hle := present_le_peak trace
      rw [present] at hle ⊢
      rw [hpub, hpop]
      omega
    have hpeak : peak (trace ++ [.popped item]) = peak trace := by
      rw [peak_snoc]
      exact Nat.max_eq_left hfewer
    refine ⟨h.full.skip (by simp), h.empty.skip (by simp), haway (by simp), ?_, ?_, ?_, fun hmax hund => ?_⟩
    · rw [hpeak]
      exact h.mark
    · rw [hpeak]
      have hm := h.measures
      cases p <;> exact hm
    · rw [inPush_snoc]
      exact hin
    · -- no push is being executed
      obtain ⟨hbefore, hidle⟩ := hund.of_snoc
      have hquiet : Common.inPush trace = false := hidle ⟨item, rfl⟩
      obtain rfl : p = .idle := by
        by_contra hne
        rw [hin.mpr hne] at hquiet
        cases hquiet
      rw [hpeak]
      exact h.exact hmax hbefore

/-- **Every run keeps the invariant.** -/
theorem run {cells : ℕ → τ} (hcap : 1 ≤ capacity) (hmax : capacity < 2 ^ 64) (h : RingRun capacity cells trace b p c) :
    Measured capacity trace b p := by
  have hboth := Run.interleave (fun trace b p c => Sync capacity trace b p c ∧ Measured capacity trace b p)
    ⟨Sync.start hcap cells, Measured.start capacity cells⟩
    (fun _ _ _ _ _ _ _ h hs => ⟨h.1.producer_step hs, h.2.producer_step hmax h.1 hs⟩)
    (fun _ _ _ _ _ _ _ h hs => ⟨h.1.consumer_step hs, h.2.consumer_step h.1 hs⟩) h
  exact hboth.2

end Measured

/-- **What the buffer reports.** Over every interleaving of the two sides: a push returns
`false` only if `Capacity - 1` items were present when it loaded `_tail`, and `tryPop` only
if there was none when it loaded `_head`; `highWaterMark` never exceeds the largest number
of items present so far. If no item has been popped during a push it is that number, save
while a push has published its item and not yet returned; no array has more than `2^63`
cells. -/
theorem reports_truthfully {capacity : ℕ} (hcap : 1 ≤ capacity) (hsize : capacity < 2 ^ 64) {cells : ℕ → τ}
    {trace : List (Label τ)} {b : SpScRingBuffer τ} {p : Producer τ} {c : Consumer τ}
    (h : RingRun capacity cells trace b p c) :
    Whenever (· = .returned false) (FoundFull capacity) trace ∧
      Whenever (· = .foundEmpty) (fun pre => present pre = 0) trace ∧
      b.highWaterMark ≤ peak trace ∧
      (capacity ≤ 2 ^ 63 → Undisturbed trace → p.updating = false → b.highWaterMark = peak trace) := by
  have hm := Measured.run hcap hsize h
  refine ⟨hm.full, hm.empty, hm.mark, fun hmax hund hnot => ?_⟩
  have hexact := hm.exact hmax hund
  cases p with
  | loadHigh | loadUsed | exchange => cases hnot
  | idle | loadHead | loadTail | write | storeHead | drop | wait => exact hexact.symm

/-- An item goes into a buffer of two cells. -/
theorem reports_truthfully_one : ∃ trace b, RingRun 2 (fun _ => 0) trace b .idle .idle ∧
    published trace = [7] ∧ b.highWaterMark = peak trace := by
  have hrun : RingRun 2 (fun _ => 0) _ _ .idle .idle :=
    Run.nil
      |>.snoc (.left _ (.call _ .tryPush 7))
      |>.snoc (.left _ (.loadHead _ _ _))
      |>.snoc (.left _ (.notFull _ _ (by decide)))
      |>.snoc (.left _ (.write _ _ _))
      |>.snoc (.left _ (.storeHead _ _ _))
      |>.snoc (.left _ (.loadHigh _ _))
      |>.snoc (.left _ (.loadUsed _ _ _))
      |>.snoc (.left _ (.exchanged (by decide) rfl))
  refine ⟨_, _, hrun, rfl, (reports_truthfully (by decide) (by decide) hrun).2.2.2 (by decide) ?_ rfl⟩
  exact undisturbed_of_notMem (by simp)

/-- **The mark is behind** when the first push of a buffer has published its item, and no pop has
been called. -/
theorem mark_behind : ∃ trace b, RingRun 2 (fun _ => 0) trace b (.loadHigh 1) .idle ∧
    (∀ item : ℕ, .popped item ∉ trace) ∧ b.highWaterMark = 0 ∧ peak trace = 1 := by
  have hrun : RingRun 2 (fun _ => 0) _ _ (.loadHigh 1) .idle :=
    Run.nil
      |>.snoc (.left _ (.call _ .tryPush 7))
      |>.snoc (.left _ (.loadHead _ _ _))
      |>.snoc (.left _ (.notFull _ _ (by decide)))
      |>.snoc (.left _ (.write _ _ _))
      |>.snoc (.left _ (.storeHead _ _ _))
  exact ⟨_, _, hrun, by simp, rfl, by decide⟩

end Scrimmage.Common
