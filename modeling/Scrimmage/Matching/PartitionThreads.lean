import Scrimmage.Matching.PartitionOutputs
import Scrimmage.Common.MessageOrder

/-!
# A partition and its threads

`MatchingEnginePartition` between the thread that calls `submitOrder` and the thread that calls
`processOrders`, which run at the same time.

## The model

* `PartitionThreads` has the two buffers and where the two threads are. Each access of either to
  `_ordersQueue` is a step (`ProducerStep`, `ConsumerStep`); nobody but the processing thread has
  anything to do with `_fillsQueue`, the clock and the senders.
* `MatchAt` are the places in `processOrders` and in `matchOrder`.
* A trace has what the processing thread has read from the clock, and what it has handed to
  `_fillsQueue` and to the two senders.

## What is proved

* `Outputs`: the invariant. What has been popped has been matched, and what has been matched has been
  handed to the three outputs, but for what is in hand.
* `partition_reports`: so over every interleaving orders are reported once, in the order in which they
  were accepted.
* `processOrders_returns`: when no more is submitted, `processOrders` returns, and all has been reported.
-/

namespace Scrimmage.Matching

open Theory Common

/-! ### The model -/

/-- Where the processing thread is: what it does next. -/
inductive MatchAt where
  /-- It is in no call. -/
  | idle
  /-- An access of `_ordersQueue.tryPop(incomingOrder)`. -/
  | tryPop (c : Consumer Order)
  /-- `matchOrder` makes the report, with the time of the clock. -/
  | matchOrder (order : Order)
  /-- `_fillsQueue.tryPush(report)`. -/
  | fills (report : ExecutionReport)
  /-- `_tcpClient.sendAll(...)`. -/
  | sendAll (report : ExecutionReport)
  /-- `_udpSender.send(...)`. -/
  | send (report : ExecutionReport)

/-- A partition and its two threads. -/
structure PartitionThreads where
  /-- `_ordersQueue`. -/
  ordersQueue : SpScRingBuffer Order
  /-- `_fillsQueue`. -/
  fillsQueue : SpScRingBuffer ExecutionReport
  /-- Where the submitting thread is in `submitOrder`. -/
  submitting : Producer Order
  /-- Where the processing thread is. -/
  processing : MatchAt

/-- What can be seen of a step. -/
inductive PartitionSeen where
  /-- What can be seen of a step on `_ordersQueue`. -/
  | ring (l : Label Order)
  /-- `processOrders` is called. -/
  | called
  /-- The report of an order is made. -/
  | reported (order : Order) (now : UInt64)
  /-- `_fillsQueue` is given a report. -/
  | filled (report : ExecutionReport) (accepted : Bool)
  /-- `_tcpClient` is given a report. -/
  | tcpSent (report : ExecutionReport)
  /-- `_udpSender` is given a report. -/
  | udpSent (report : ExecutionReport)

namespace PartitionThreads

/-- A partition that has been made, and threads in no call. -/
def create (orderCells : ℕ → Order) (reportCells : ℕ → ExecutionReport) : PartitionThreads :=
  ⟨SpScRingBuffer.create orderCells, SpScRingBuffer.create reportCells, .idle, .idle⟩

/-- **The steps of the submitting thread**: those of `tryPush`. -/
inductive SubmitStep (capacity : ℕ) : PartitionThreads → PartitionSeen → PartitionThreads → Prop where
  | step {s : PartitionThreads} {l : Label Order} {b : SpScRingBuffer Order} {p : Producer Order} :
    ProducerStep capacity s.ordersQueue s.submitting l b p → (∀ kind order, l = .called kind order → kind = .tryPush) →
    SubmitStep capacity s (.ring l) { s with ordersQueue := b, submitting := p }

/-- **The steps of the processing thread.** -/
inductive ProcessStep (capacity : ℕ) : PartitionThreads → PartitionSeen → PartitionThreads → Prop where
  | call {s : PartitionThreads} : s.processing = .idle →
    ProcessStep capacity s .called { s with processing := .tryPop .idle }
  | access {s : PartitionThreads} {c c' : Consumer Order} {b : SpScRingBuffer Order} : s.processing = .tryPop c →
    ConsumerStep capacity s.ordersQueue c .internal b c' →
    ProcessStep capacity s (.ring .internal) { s with ordersQueue := b, processing := .tryPop c' }
  /-- `tryPop` returns `false`, and `processOrders` returns. -/
  | empty {s : PartitionThreads} {c c' : Consumer Order} {b : SpScRingBuffer Order} : s.processing = .tryPop c →
    ConsumerStep capacity s.ordersQueue c .foundEmpty b c' →
    ProcessStep capacity s (.ring .foundEmpty) { s with ordersQueue := b, processing := .idle }
  /-- `tryPop` returns `true`. -/
  | popped {s : PartitionThreads} {c c' : Consumer Order} {b : SpScRingBuffer Order} {order : Order} :
    s.processing = .tryPop c → ConsumerStep capacity s.ordersQueue c (.popped order) b c' →
    ProcessStep capacity s (.ring (.popped order)) { s with ordersQueue := b, processing := .matchOrder order }
  | matchOrder {s : PartitionThreads} {order : Order} (now : UInt64) : s.processing = .matchOrder order →
    ProcessStep capacity s (.reported order now) { s with processing := .fills (executionReport order now) }
  | fills {s : PartitionThreads} {report : ExecutionReport} : s.processing = .fills report →
    ProcessStep capacity s (.filled report (s.fillsQueue.tryPush capacity report).1)
      { s with fillsQueue := (s.fillsQueue.tryPush capacity report).2, processing := .sendAll report }
  | sendAll {s : PartitionThreads} {report : ExecutionReport} : s.processing = .sendAll report →
    ProcessStep capacity s (.tcpSent report) { s with processing := .send report }
  | send {s : PartitionThreads} {report : ExecutionReport} : s.processing = .send report →
    ProcessStep capacity s (.udpSent report) { s with processing := .tryPop .idle }

/-- The steps. -/
inductive Step (capacity : ℕ) (s : PartitionThreads) (l : PartitionSeen) (s' : PartitionThreads) : Prop where
  | submit : SubmitStep capacity s l s' → Step capacity s l s'
  | process : ProcessStep capacity s l s' → Step capacity s l s'

end PartitionThreads

/-! ### What is seen -/

/-- What can be seen of a step on `_ordersQueue`. -/
@[simp] def PartitionSeen.ring? : PartitionSeen → List (Label Order)
  | .ring l => [l]
  | _ => []

/-- The order a report is made of, with the time. -/
@[simp] def PartitionSeen.reported? : PartitionSeen → List (Order × UInt64)
  | .reported order now => [(order, now)]
  | _ => []

/-- The report `_fillsQueue` accepts. -/
@[simp] def PartitionSeen.filled? : PartitionSeen → List ExecutionReport
  | .filled report true => [report]
  | _ => []

/-- The report `_tcpClient` is given. -/
@[simp] def PartitionSeen.tcpSent? : PartitionSeen → List ExecutionReport
  | .tcpSent report => [report]
  | _ => []

/-- The report `_udpSender` is given. -/
@[simp] def PartitionSeen.udpSent? : PartitionSeen → List ExecutionReport
  | .udpSent report => [report]
  | _ => []

/-- The orders reports have been made of, and when. -/
def reportedIn (trace : List PartitionSeen) : List (Order × UInt64) := trace.flatMap PartitionSeen.reported?

/-- The reports made. -/
def reportsIn (trace : List PartitionSeen) : List ExecutionReport :=
  (reportedIn trace).map fun x => executionReport x.1 x.2

/-- What has been seen of `_ordersQueue`. -/
def ringIn (trace : List PartitionSeen) : List (Label Order) := trace.flatMap PartitionSeen.ring?

/-- The reports `_fillsQueue` has accepted. -/
def filledIn (trace : List PartitionSeen) : List ExecutionReport := trace.flatMap PartitionSeen.filled?

/-- The reports `_tcpClient` has been given. -/
def tcpSentIn (trace : List PartitionSeen) : List ExecutionReport := trace.flatMap PartitionSeen.tcpSent?

/-- The reports `_udpSender` has been given. -/
def udpSentIn (trace : List PartitionSeen) : List ExecutionReport := trace.flatMap PartitionSeen.udpSent?

section Traces

variable (trace : List PartitionSeen) (l : PartitionSeen)

@[simp] theorem reportedIn_snoc : reportedIn (trace ++ [l]) = reportedIn trace ++ l.reported? := by simp [reportedIn]

@[simp] theorem reportsIn_snoc :
    reportsIn (trace ++ [l]) = reportsIn trace ++ l.reported?.map fun x => executionReport x.1 x.2 := by simp [reportsIn]

@[simp] theorem ringIn_snoc : ringIn (trace ++ [l]) = ringIn trace ++ l.ring? := by simp [ringIn]

@[simp] theorem filledIn_snoc : filledIn (trace ++ [l]) = filledIn trace ++ l.filled? := by simp [filledIn]

@[simp] theorem tcpSentIn_snoc : tcpSentIn (trace ++ [l]) = tcpSentIn trace ++ l.tcpSent? := by simp [tcpSentIn]

@[simp] theorem udpSentIn_snoc : udpSentIn (trace ++ [l]) = udpSentIn trace ++ l.udpSent? := by simp [udpSentIn]

end Traces

/-! ### What is in hand -/

namespace MatchAt

/-- The consumer of `_ordersQueue`. -/
@[simp] def consumer : MatchAt → Consumer Order
  | .tryPop c => c
  | _ => .idle

/-- The order popped, with no report yet. -/
@[simp] def order? : MatchAt → List Order
  | .matchOrder order => [order]
  | _ => []

/-- The report made, and not given to `_fillsQueue`. -/
@[simp] def unfilled : MatchAt → List ExecutionReport
  | .fills report => [report]
  | _ => []

/-- The report given to `_fillsQueue` and not to `_tcpClient`. -/
@[simp] def unsent : MatchAt → List ExecutionReport
  | .sendAll report => [report]
  | _ => []

/-- The report given to `_tcpClient` and not to `_udpSender`. -/
@[simp] def tcpOnly : MatchAt → List ExecutionReport
  | .send report => [report]
  | _ => []

end MatchAt

/-! ### The invariant -/

/-- **The invariant**: the orders popped have been reported, and the reports handed to `_fillsQueue`, as
far as there is room, to `_tcpClient` and to `_udpSender`, in this order, but for what is in hand. -/
structure Outputs (capacity : ℕ) (trace : List PartitionSeen) (s : PartitionThreads) : Prop where
  sync : Sync capacity (ringIn trace) s.ordersQueue s.submitting s.processing.consumer
  reported : popped (ringIn trace) = (reportedIn trace).map Prod.fst ++ s.processing.order?
  reports : reportsIn trace = tcpSentIn trace ++ s.processing.unsent ++ s.processing.unfilled
  sent : tcpSentIn trace = udpSentIn trace ++ s.processing.tcpOnly
  fillsRange : s.fillsQueue.InRange capacity
  items : s.fillsQueue.items capacity = filledIn trace
  filled : filledIn trace = (tcpSentIn trace ++ s.processing.unsent).take (capacity - 1)

namespace Outputs

variable {capacity : ℕ} {trace : List PartitionSeen} {s s' : PartitionThreads} {l : PartitionSeen}

theorem create (hcap : 0 < capacity) (orderCells : ℕ → Order) (reportCells : ℕ → ExecutionReport) :
    Outputs capacity [] (PartitionThreads.create orderCells reportCells) where
  sync := Sync.start hcap orderCells
  reported := rfl
  reports := rfl
  sent := rfl
  fillsRange := SpScRingBuffer.inRange_create hcap reportCells
  items := by simp [PartitionThreads.create, SpScRingBuffer.items, SpScRingBuffer.create, filledIn]
  filled := List.take_nil.symm

/-- A step of the submitting thread. -/
theorem submit (h : Outputs capacity trace s) (hs : PartitionThreads.SubmitStep capacity s l s') :
    Outputs capacity (trace ++ [l]) s' := by
  obtain ⟨hp, -⟩ := hs
  have hnone := hp.popped_eq_nil
  refine ⟨?_, ?_, ?_, ?_, h.fillsRange, ?_, ?_⟩
  · rw [ringIn_snoc]
    exact h.sync.producer_step hp
  · simpa [hnone] using h.reported
  · simpa using h.reports
  · simpa using h.sent
  · simpa using h.items
  · simpa using h.filled

/-- A step of the consumer of `_ordersQueue`, which the senders and `_fillsQueue` have no part in. -/
theorem consume (h : Outputs capacity trace s) {c : Consumer Order} {b : SpScRingBuffer Order} {r : Label Order}
    {p : MatchAt} (hat : s.processing = .tryPop c) (hs : ConsumerStep capacity s.ordersQueue c r b p.consumer)
    (hpopped : popped [r] = p.order?) (hunsent : p.unsent = []) (hunfilled : p.unfilled = [])
    (htcpOnly : p.tcpOnly = []) :
    Outputs capacity (trace ++ [.ring r]) { s with ordersQueue := b, processing := p } := by
  obtain ⟨hsync, hreported, hreports, hsent, hrange, hitems, hfilled⟩ := h
  rw [hat] at hsync hreported hreports hsent hfilled
  refine ⟨?_, ?_, ?_, ?_, hrange, ?_, ?_⟩
  · rw [ringIn_snoc]
    exact hsync.consumer_step hs
  · rw [← hpopped]
    simpa using hreported
  · rw [hunsent, hunfilled]
    simpa using hreports
  · rw [htcpOnly]
    simpa using hsent
  · simpa using hitems
  · rw [hunsent]
    simpa using hfilled

/-- A step that is no access of the two buffers moves on what is in hand. -/
theorem hand_on (h : Outputs capacity trace s) {p : MatchAt} (hring : l.ring? = []) (hfilled : l.filled? = [])
    (hconsumer : s.processing.consumer = p.consumer)
    (hreported : s.processing.order? = l.reported?.map Prod.fst ++ p.order?)
    (hreports : s.processing.unsent ++ s.processing.unfilled ++ l.reported?.map (fun x => executionReport x.1 x.2) =
      l.tcpSent? ++ p.unsent ++ p.unfilled)
    (hsent : s.processing.tcpOnly ++ l.tcpSent? = l.udpSent? ++ p.tcpOnly)
    (hunsent : s.processing.unsent = l.tcpSent? ++ p.unsent) :
    Outputs capacity (trace ++ [l]) { s with processing := p } where
  sync := by
    rw [ringIn_snoc, hring, List.append_nil]
    exact hconsumer ▸ h.sync
  reported := by rw [ringIn_snoc, hring, List.append_nil, h.reported, hreported]; simp
  reports := by
    rw [reportsIn_snoc, tcpSentIn_snoc, h.reports]
    simpa using congrArg (tcpSentIn trace ++ ·) hreports
  sent := by
    rw [tcpSentIn_snoc, udpSentIn_snoc, h.sent]
    simpa using congrArg (udpSentIn trace ++ ·) hsent
  fillsRange := h.fillsRange
  items := by
    rw [filledIn_snoc, hfilled, List.append_nil]
    exact h.items
  filled := by
    rw [filledIn_snoc, tcpSentIn_snoc, hfilled, List.append_nil, h.filled, hunsent, List.append_assoc]

/-- `_fillsQueue` accepts a report while it has room, and the report is offered to it once. -/
theorem fills (h : Outputs capacity trace s) {report : ExecutionReport} (hat : s.processing = .fills report) :
    Outputs capacity (trace ++ [.filled report (s.fillsQueue.tryPush capacity report).1])
      { s with fillsQueue := (s.fillsQueue.tryPush capacity report).2, processing := .sendAll report } := by
  obtain ⟨hsync, hreported, hreports, hsent, hrange, hitems, hfilled⟩ := h
  rw [hat] at hsync hreported hreports hsent hfilled
  obtain ⟨hrange', htaken, hitems'⟩ := SpScRingBuffer.tryPush_items hrange report
  rw [hitems] at htaken hitems'
  -- the report is accepted if there is room beside those accepted before
  have hseen : (PartitionSeen.filled report (s.fillsQueue.tryPush capacity report).1).filled? =
      if (filledIn trace).length = capacity - 1 then [] else [report] := by
    cases haccepted : (s.fillsQueue.tryPush capacity report).1 with
    | true => rw [if_neg (htaken.mp haccepted)]; rfl
    | false => rw [if_pos (by by_contra hne; simp [htaken.mpr hne] at haccepted)]; rfl
  refine ⟨?_, ?_, ?_, ?_, hrange', ?_, ?_⟩
  · simpa using hsync
  · simpa using hreported
  · simpa using hreports
  · simpa using hsent
  · rw [filledIn_snoc, hseen, hitems']
    split_ifs <;> simp
  · simp only [MatchAt.unsent, List.append_nil] at hfilled
    rw [filledIn_snoc, hseen, tcpSentIn_snoc]
    simp only [PartitionSeen.tcpSent?, MatchAt.unsent, List.append_nil]
    rw [MatchingEnginePartition.take_concat, ← hfilled]
    split_ifs <;> simp

/-- **A step of the processing thread.** -/
theorem process (h : Outputs capacity trace s) (hs : PartitionThreads.ProcessStep capacity s l s') :
    Outputs capacity (trace ++ [l]) s' := by
  cases hs with
  | call hat =>
    exact h.hand_on rfl rfl (by simp [hat]) (by simp [hat]) (by simp [hat]) (by simp [hat]) (by simp [hat])
  | access hat hc => exact h.consume hat hc rfl rfl rfl rfl
  | empty hat hc =>
    cases hc with
    | empty heq => exact h.consume hat (.empty heq) rfl rfl rfl rfl
  | popped hat hc =>
    cases hc with
    | storeTail order currentTail => exact h.consume hat (.storeTail ..) rfl rfl rfl rfl
  | matchOrder now hat =>
    exact h.hand_on rfl rfl (by simp [hat]) (by simp [hat]) (by simp [hat]) (by simp [hat]) (by simp [hat])
  | fills hat => exact h.fills hat
  | sendAll hat =>
    exact h.hand_on rfl rfl (by simp [hat]) (by simp [hat]) (by simp [hat]) (by simp [hat]) (by simp [hat])
  | send hat =>
    exact h.hand_on rfl rfl (by simp [hat]) (by simp [hat]) (by simp [hat]) (by simp [hat]) (by simp [hat])

theorem step (h : Outputs capacity trace s) (hs : PartitionThreads.Step capacity s l s') :
    Outputs capacity (trace ++ [l]) s' := by
  obtain hsubmit | hprocess := hs
  · exact h.submit hsubmit
  · exact h.process hprocess

/-- **It holds in every state reached.** -/
theorem run (hcap : 0 < capacity) {orderCells : ℕ → Order} {reportCells : ℕ → ExecutionReport}
    (h : Run (PartitionThreads.Step capacity) (PartitionThreads.create orderCells reportCells) trace s) :
    Outputs capacity trace s :=
  Run.invariant (Outputs capacity) (create hcap orderCells reportCells) (fun _ _ _ _ hI hs => hI.step hs) h

end Outputs

/-! ### What is reported -/

/-- The report of the order `oneOrder` has. -/
def oneReport : ExecutionReport := executionReport blankOrder 0

/-- `_ordersQueue` of two cells when an order has been published, and `tail` of them popped. -/
def oneQueue (tail : ℕ) : SpScRingBuffer Order := ⟨Function.update (fun _ => blankOrder) 0 blankOrder, 1, tail, 0, 0⟩

/-- `_fillsQueue` of two cells. -/
def noFills : SpScRingBuffer ExecutionReport := .create fun _ => oneReport

/-- The partition once the order has been reported. -/
def afterOrder (fillsQueue : SpScRingBuffer ExecutionReport) (processing : MatchAt) : PartitionThreads :=
  ⟨oneQueue 1, fillsQueue, .loadHigh 1, processing⟩

/-- `processOrders` is called again and again, and finds nothing. -/
def findsNothing (k : ℕ) : MatchAt × PartitionSeen :=
  match k % 3 with
  | 0 => (.tryPop .idle, .ring .internal)
  | 1 => (.tryPop (.loadHead 1), .ring .foundEmpty)
  | _ => (.idle, .called)

theorem findsNothing_step (f : SpScRingBuffer ExecutionReport) (k : ℕ) :
    PartitionThreads.ProcessStep 2 (afterOrder f (findsNothing k).1) (findsNothing k).2
      (afterOrder f (findsNothing (k + 1)).1) := by
  have hk : k % 3 = 0 ∧ (k + 1) % 3 = 1 ∨ k % 3 = 1 ∧ (k + 1) % 3 = 2 ∨ k % 3 = 2 ∧ (k + 1) % 3 = 0 := by omega
  rcases hk with ⟨hk, hk'⟩ | ⟨hk, hk'⟩ | ⟨hk, hk'⟩ <;> simp only [findsNothing, hk, hk']
  · exact .access rfl (.loadTail _)
  · exact .empty rfl (.empty rfl)
  · exact .call rfl

/-- What is left to do with the report, and then nothing. -/
def sends : ℕ → MatchAt × PartitionSeen
  | 0 => (.sendAll oneReport, .tcpSent oneReport)
  | 1 => (.send oneReport, .udpSent oneReport)
  | k + 2 => findsNothing k

theorem sends_step (f : SpScRingBuffer ExecutionReport) (k : ℕ) :
    PartitionThreads.ProcessStep 2 (afterOrder f (sends k).1) (sends k).2 (afterOrder f (sends (k + 1)).1) := by
  rcases k with _ | _ | k
  · exact .sendAll rfl
  · exact .send rfl
  · exact findsNothing_step f k

/-- An order is submitted, and then `processOrders` is called. -/
def oneOrder : Path (PartitionThreads.Step 2) where
  state
    | 0 => PartitionThreads.create (fun _ => blankOrder) fun _ => oneReport
    | 1 => ⟨.create fun _ => blankOrder, noFills, .loadHead .once blankOrder, .idle⟩
    | 2 => ⟨.create fun _ => blankOrder, noFills, .loadTail .once blankOrder 0, .idle⟩
    | 3 => ⟨.create fun _ => blankOrder, noFills, .write blankOrder 0, .idle⟩
    | 4 => ⟨{ oneQueue 0 with head := 0 }, noFills, .storeHead blankOrder 0, .idle⟩
    | 5 => ⟨oneQueue 0, noFills, .loadHigh 1, .idle⟩
    | 6 => ⟨oneQueue 0, noFills, .loadHigh 1, .tryPop .idle⟩
    | 7 => ⟨oneQueue 0, noFills, .loadHigh 1, .tryPop (.loadHead 0)⟩
    | 8 => ⟨oneQueue 0, noFills, .loadHigh 1, .tryPop (.read 0)⟩
    | 9 => ⟨oneQueue 0, noFills, .loadHigh 1, .tryPop (.storeTail ((oneQueue 0).buffer 0) 0)⟩
    | 10 => ⟨oneQueue 1, noFills, .loadHigh 1, .matchOrder ((oneQueue 0).buffer 0)⟩
    | 11 => ⟨oneQueue 1, noFills, .loadHigh 1, .fills oneReport⟩
    | k + 12 => afterOrder (noFills.tryPush 2 oneReport).2 (sends k).1
  label
    | 0 => .ring (.called .tryPush blankOrder)
    | 1 | 2 | 3 => .ring .internal
    | 4 => .ring (.published blankOrder)
    | 5 => .called
    | 6 | 7 | 8 => .ring .internal
    | 9 => .ring (.popped ((oneQueue 0).buffer 0))
    | 10 => .reported ((oneQueue 0).buffer 0) 0
    | 11 => .filled oneReport (noFills.tryPush 2 oneReport).1
    | k + 12 => (sends k).2
  step
    | 0 => .submit (.step (.call _ .tryPush blankOrder) fun _ _ hcall => (Label.called.inj hcall).1 ▸ rfl)
    | 1 => .submit (.step (.loadHead _ _ _) nofun)
    | 2 => .submit (.step (.notFull _ _ (by decide)) nofun)
    | 3 => .submit (.step (.write _ _ _) nofun)
    | 4 => .submit (.step (.storeHead _ _ _) nofun)
    | 5 => .process (.call rfl)
    | 6 => .process (.access rfl (.loadTail _))
    | 7 => .process (.access rfl (.notEmpty (by decide)))
    | 8 => .process (.access rfl (.read _ _))
    | 9 => .process (.popped rfl (.storeTail _ _ _))
    | 10 => .process (.matchOrder 0 rfl)
    | 11 => .process (.fills rfl)
    | k + 12 => .process (sends_step _ k)

/-- **Orders are reported once and in order**, over every interleaving of the two threads: those
published to `_ordersQueue` have been reported but for one in hand and those in the buffer; of the
reports `_tcpClient` has been given all and `_udpSender` all that `_tcpClient` has, but for one; and
`_fillsQueue` has the first of them, as many as it has room for. -/
theorem partition_reports {capacity : ℕ} (hcap : 0 < capacity) {orderCells : ℕ → Order}
    {reportCells : ℕ → ExecutionReport} {trace : List PartitionSeen} {s : PartitionThreads}
    (h : Run (PartitionThreads.Step capacity) (PartitionThreads.create orderCells reportCells) trace s) :
    published (ringIn trace) =
        (reportedIn trace).map Prod.fst ++ s.processing.order? ++ s.ordersQueue.items capacity ∧
      s.processing.order?.length ≤ 1 ∧
      udpSentIn trace <+: tcpSentIn trace ∧ tcpSentIn trace <+: reportsIn trace ∧
      (reportsIn trace).length ≤ (udpSentIn trace).length + 1 ∧
      (filledIn trace = (tcpSentIn trace).take (capacity - 1) ∨ filledIn trace = (reportsIn trace).take (capacity - 1)) ∧
      s.fillsQueue.items capacity = filledIn trace := by
  obtain ⟨hsync, hreported, hreports, hsent, -, hitems, hfilled⟩ := Outputs.run hcap h
  refine ⟨by rw [hsync.fifo, hreported], ?_, ⟨_, hsent.symm⟩, ?_, ?_, ?_, hitems⟩
  · cases s.processing <;> simp
  · rw [hreports, List.append_assoc]
    exact List.prefix_append ..
  · rw [hreports, hsent]
    cases s.processing <;> simp
  · rw [hfilled, hreports]
    cases s.processing <;> simp

/-- Its report, before `_udpSender` has it. -/
theorem partition_reports_one : (tcpSentIn (oneOrder.trace 13)).length = 1 ∧ (udpSentIn (oneOrder.trace 13)).length = 0 ∧
    (reportsIn (oneOrder.trace 13)).length ≤ (udpSentIn (oneOrder.trace 13)).length + 1 :=
  ⟨rfl, rfl, (partition_reports (by decide) (oneOrder.run 13)).2.2.2.2.1⟩

/-! ### The end of `processOrders` -/

namespace PartitionThreads

variable {capacity : ℕ} {s s' : PartitionThreads} {l : PartitionSeen}

/-- The processing thread does not see the steps of the other. -/
theorem SubmitStep.processing_eq (h : SubmitStep capacity s l s') : s'.processing = s.processing := by
  cases h
  rfl

/-- **`processOrders` returns** from a `tryPop` that has found the buffer empty, and in no other way. -/
theorem Step.empty_of_idle (h : Step capacity s l s') (hbefore : s.processing ≠ .idle) (hafter : s'.processing = .idle) :
    l = .ring .foundEmpty ∧ s.processing = .tryPop (.loadHead s.ordersQueue.head) ∧ s'.ordersQueue = s.ordersQueue := by
  obtain hsubmit | hprocess := h
  · exact absurd (hsubmit.processing_eq ▸ hafter) hbefore
  · cases hprocess with
    | empty hat hc =>
      cases hc with
      | empty heq => exact ⟨rfl, heq ▸ hat, rfl⟩
    | call | access | popped | matchOrder | fills | sendAll | send => cases hafter

end PartitionThreads

/-- How far the processing thread is from the end of `processOrders`, if no order is there. -/
def MatchAt.steps : MatchAt → ℕ
  | .idle => 0
  | .tryPop c => c.accesses
  | .matchOrder _ => 8
  | .fills _ => 7
  | .sendAll _ => 6
  | .send _ => 5

/-- The steps `processOrders` still has to make at most, if no order is added. -/
def PartitionThreads.measure (capacity : ℕ) (s : PartitionThreads) : ℕ :=
  8 * (s.ordersQueue.items capacity).length + s.processing.steps

namespace Outputs

variable {capacity : ℕ} {trace : List PartitionSeen} {s s' : PartitionThreads} {l : PartitionSeen}

/-- How the buffer grows and shrinks in a step. -/
theorem length_items (h : Outputs capacity trace s) (h' : Outputs capacity (trace ++ [l]) s') :
    (s'.ordersQueue.items capacity).length + (popped l.ring?).length =
      (s.ordersQueue.items capacity).length + (published l.ring?).length := by
  have hbefore := congrArg List.length h.sync.fifo
  have hafter := congrArg List.length h'.sync.fifo
  rw [ringIn_snoc, published_append, popped_append] at hafter
  simp only [List.length_append] at hbefore hafter
  omega

/-- The submitting thread does not take the end further away, if it adds no order. -/
theorem submit_measure (h : Outputs capacity trace s) (hs : PartitionThreads.SubmitStep capacity s l s')
    (hquiet : published l.ring? = []) : s'.measure capacity ≤ s.measure capacity := by
  have hlen := h.length_items (h.submit hs)
  rw [hquiet, List.length_nil] at hlen
  rw [PartitionThreads.measure, PartitionThreads.measure, hs.processing_eq]
  omega

/-- **The processing thread comes nearer to it** with every step. -/
theorem process_measure (h : Outputs capacity trace s) (hs : PartitionThreads.ProcessStep capacity s l s')
    (hcalled : s.processing ≠ .idle) : s'.measure capacity < s.measure capacity := by
  have hlen := h.length_items (h.process hs)
  cases hs with
  | call hidle => exact absurd hidle hcalled
  | access hat hc =>
    have := hc.accesses_lt
    simp only [PartitionSeen.ring?, published, popped, List.filterMap_cons, List.filterMap_nil, List.length_nil] at hlen
    simp only [PartitionThreads.measure, hat, MatchAt.steps]
    omega
  | empty hat hc =>
    cases hc
    simp only [PartitionThreads.measure, hat, MatchAt.steps, Consumer.accesses]
    omega
  | popped hat hc =>
    cases hc
    simp only [PartitionSeen.ring?, published, popped, List.filterMap_cons, List.filterMap_nil, List.length_nil,
      List.length_cons] at hlen
    simp only [PartitionThreads.measure, hat, MatchAt.steps, Consumer.accesses]
    omega
  | matchOrder _ hat | fills hat | sendAll hat => simp [PartitionThreads.measure, hat, MatchAt.steps]
  | send hat => simp [PartitionThreads.measure, hat, MatchAt.steps, Consumer.accesses]

end Outputs

/-- **`processOrders` returns**, if its thread is scheduled and orders stop coming: and when it does,
all orders there are have been reported, and both senders have been given all reports. -/
theorem processOrders_returns {capacity : ℕ} (hcap : 0 < capacity) {orderCells : ℕ → Order}
    {reportCells : ℕ → ExecutionReport} (p : Path (PartitionThreads.Step capacity))
    (hstart : p.state 0 = PartitionThreads.create orderCells reportCells) {k last : ℕ}
    (hcalled : (p.state k).processing ≠ .idle)
    (hfair : ∀ i, ∃ j ≥ i, PartitionThreads.ProcessStep capacity (p.state j) (p.label j) (p.state (j + 1)) ∨
      (p.state j).processing = .idle)
    (hquiet : ∀ i ≥ last, published (p.label i).ring? = []) :
    ∃ j > k, (p.state j).processing = .idle ∧
      (reportedIn (p.trace j)).map Prod.fst = published (ringIn (p.trace j)) ∧
      tcpSentIn (p.trace j) = reportsIn (p.trace j) ∧ udpSentIn (p.trace j) = reportsIn (p.trace j) ∧
      filledIn (p.trace j) = (reportsIn (p.trace j)).take (capacity - 1) := by
  have houtputs (j : ℕ) : Outputs capacity (p.trace j) (p.state j) := Outputs.run hcap (hstart ▸ p.run j)
  have hends : ∃ j ≥ max k last, (p.state j).processing = .idle := by
    refine eventually_of_measure (fun j => (p.state j).measure capacity) (fun j _ => hfair j)
      (fun j hj hbusy => ?_) fun j hj hbusy hown => Or.inr ((houtputs j).process_measure hown hbusy)
    right
    obtain hsubmit | hprocess := p.step j
    · exact (houtputs j).submit_measure hsubmit (hquiet j (by omega))
    · exact ((houtputs j).process_measure hprocess hbusy).le
  -- the first time it is in no call, it has just returned
  have hfirst : ∃ j, k ≤ j ∧ (p.state j).processing = .idle := by
    obtain ⟨j, hj, hidle⟩ := hends
    exact ⟨j, by omega, hidle⟩
  classical
  obtain ⟨hle, hidle⟩ := Nat.find_spec hfirst
  have hmin := fun {i : ℕ} => Nat.find_min (m := i) hfirst
  generalize Nat.find hfirst = j at hle hidle hmin
  obtain ⟨i, rfl⟩ : ∃ i, j = i + 1 := by
    cases j with
    | zero => exact absurd hidle (Nat.le_zero.mp hle ▸ hcalled)
    | succ i => exact ⟨i, rfl⟩
  have hki : k ≤ i := by
    by_contra hlt
    obtain rfl : k = i + 1 := by omega
    exact hcalled hidle
  have hbusy : (p.state i).processing ≠ .idle := fun hi => hmin (Nat.lt_succ_self i) ⟨hki, hi⟩
  obtain ⟨-, hat, hqueue⟩ := (p.step i).empty_of_idle hbusy hidle
  have hsync := (houtputs i).sync
  rw [hat] at hsync
  -- `tryPop` has compared the two ends: nothing is in the buffer
  have hnone : (p.state (i + 1)).ordersQueue.items capacity = [] := by
    rw [hqueue, SpScRingBuffer.items, ← show _ = (p.state i).ordersQueue.tail from hsync.consumer]
    simp
  obtain ⟨hsync', hreported, hreports, hsent, -, -, hfilled⟩ := houtputs (i + 1)
  rw [hidle] at hreported hreports hsent hfilled
  simp only [MatchAt.order?, MatchAt.unsent, MatchAt.unfilled, MatchAt.tcpOnly, List.append_nil]
    at hreported hreports hsent hfilled
  refine ⟨i + 1, by omega, hidle, ?_, hreports.symm, by rw [hreports, hsent], by rw [hreports, hfilled]⟩
  rw [hsync'.fifo, hnone, List.append_nil, hreported]

theorem oneOrder_quiet (i : ℕ) (hi : i ≥ 5) : published (oneOrder.label i).ring? = [] := by
  match i with
  | 5 | 6 | 7 | 8 | 9 | 10 | 11 | 12 | 13 => rfl
  | k + 14 =>
    show published (findsNothing k).2.ring? = []
    unfold findsNothing
    split <;> rfl

theorem oneOrder_scheduled (i : ℕ) : ∃ j ≥ i, PartitionThreads.ProcessStep 2 (oneOrder.state j) (oneOrder.label j)
    (oneOrder.state (j + 1)) ∨ (oneOrder.state j).processing = .idle :=
  ⟨i + 12, by omega, Or.inl (sends_step _ i)⟩

/-- It is called when the order has been published. -/
theorem processOrders_returns_one : ∃ j > 6, (oneOrder.state j).processing = .idle ∧
    (reportedIn (oneOrder.trace j)).map Prod.fst = published (ringIn (oneOrder.trace j)) ∧
    tcpSentIn (oneOrder.trace j) = reportsIn (oneOrder.trace j) ∧
    udpSentIn (oneOrder.trace j) = reportsIn (oneOrder.trace j) ∧
    filledIn (oneOrder.trace j) = (reportsIn (oneOrder.trace j)).take (2 - 1) :=
  processOrders_returns (by decide) oneOrder rfl nofun oneOrder_scheduled oneOrder_quiet

end Scrimmage.Matching
