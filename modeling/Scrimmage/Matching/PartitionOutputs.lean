import Scrimmage.Common.SpScRingBufferCalls
import Mathlib.Data.List.TakeDrop

/-!
# The outputs of a partition

`submitOrder` and `processOrders` of `MatchingEnginePartition.h`: orders wait in a ring buffer,
and each that is taken from it is reported in full to a second ring buffer, to the TCP client and
to the UDP sender. Nothing takes the reports from the second buffer, and what `tryPush` says of
it is not looked at.

## The model

* A `MatchingEnginePartition` has the two buffers, and the reports each sender has been given, in
  order. Beside them it keeps what the orders and the reports have been: those accepted, and those
  processed.
* The loop of `processOrders` is a `Loop`. The readings of the clock may be any.

## What is proved

* `WellFormed`: the invariant. Both senders have the reports of the orders processed, the buffer
  the first `Capacity - 1` of them; those accepted are those processed and those that wait.
* `WellFormed.processOrders`: `processOrders` ends, with no order waiting.
* `outputs_agree_iff`: the three outputs agree exactly when each `processOrders` finds room for
  the reports it is to make. `report_missing` is a report that both senders have alone.
-/

namespace Scrimmage.Matching

open Theory Common

/-! ### The model -/

/-- `Order`. -/
structure Order where
  /-- `symbol`. -/
  symbol : Vector UInt8 16
  /-- `orderId`. -/
  orderId : UInt64
  /-- `price`. -/
  price : Int64
  /-- `quantity`. -/
  quantity : UInt64
  /-- `isBuy`. -/
  isBuy : Bool

/-- `Order()`, in memory that holds some characters: only the first of them is written. -/
def Order.create (memory : Vector UInt8 16) : Order := ⟨memory.set 0 0, 0, -1, 0, true⟩

/-- `ExecutionReport`. -/
structure ExecutionReport where
  /-- `_orderId`. -/
  orderId : UInt64
  /-- `_symbol`. -/
  symbol : List UInt8
  /-- `_price`. -/
  price : Float
  /-- `_filledQuantity`. -/
  filledQuantity : UInt64
  /-- `_remainingQuantity`. -/
  remainingQuantity : UInt64
  /-- `_isBuy`. -/
  isBuy : Bool
  /-- `_timestampNs`. -/
  timestampNs : UInt64

/-- The report that `matchOrder` makes, when the clock reads `now`. -/
def executionReport (order : Order) (now : UInt64) : ExecutionReport where
  orderId := order.orderId
  symbol := order.symbol.toList.takeWhile (· ≠ 0)
  price := order.price.toFloat
  filledQuantity := order.quantity
  remainingQuantity := 0
  isBuy := order.isBuy
  timestampNs := now

/-- `MatchingEnginePartition<Capacity>`, with what it has been given and has done. -/
structure MatchingEnginePartition where
  /-- `_ordersQueue`. -/
  ordersQueue : SpScRingBuffer Order
  /-- `_fillsQueue`. -/
  fillsQueue : SpScRingBuffer ExecutionReport
  /-- The reports handed to `_tcpClient`. -/
  tcpClient : List ExecutionReport
  /-- The reports handed to `_udpSender`. -/
  udpSender : List ExecutionReport
  /-- The orders for which `submitOrder` has returned `true`. -/
  accepted : List Order
  /-- The orders that `processOrders` has taken. -/
  processed : List Order
  /-- The reports that `_fillsQueue` has accepted. -/
  fills : List ExecutionReport

namespace MatchingEnginePartition

/-- A partition that has done nothing; the cells of its buffers hold anything. -/
def create (orderCells : ℕ → Order) (reportCells : ℕ → ExecutionReport) : MatchingEnginePartition where
  ordersQueue := SpScRingBuffer.create orderCells
  fillsQueue := SpScRingBuffer.create reportCells
  tcpClient := []
  udpSender := []
  accepted := []
  processed := []
  fills := []

/-- `submitOrder`. -/
def submitOrder (capacity : ℕ) (p : MatchingEnginePartition) (order : Order) : Bool × MatchingEnginePartition :=
  let (taken, ordersQueue) := p.ordersQueue.tryPush capacity order
  (taken, { p with
    ordersQueue := ordersQueue
    accepted := if taken then p.accepted ++ [order] else p.accepted })

/-- `matchOrder`. The clock is read once for each order. -/
def matchOrder (capacity : ℕ) (clock : ℕ → UInt64) (p : MatchingEnginePartition) (order : Order) :
    MatchingEnginePartition :=
  let report := executionReport order (clock p.processed.length)
  let (taken, fillsQueue) := p.fillsQueue.tryPush capacity report
  { p with
    fillsQueue := fillsQueue
    tcpClient := p.tcpClient ++ [report]
    udpSender := p.udpSender ++ [report]
    processed := p.processed ++ [order]
    fills := if taken then p.fills ++ [report] else p.fills }

/-- One turn of the loop of `processOrders`. -/
def processTurn (capacity : ℕ) (clock : ℕ → UInt64) (p : MatchingEnginePartition) :
    Turn MatchingEnginePartition MatchingEnginePartition :=
  match p.ordersQueue.tryPop capacity with
  | some (incomingOrder, ordersQueue) =>
    .again ({ p with ordersQueue := ordersQueue }.matchOrder capacity clock incomingOrder)
  | none => .exit p

/-- `processOrders`: no more orders wait than there are cells. -/
def processOrders (capacity : ℕ) (clock : ℕ → UInt64) (p : MatchingEnginePartition) : MatchingEnginePartition :=
  Loop.result (processTurn capacity clock) id capacity p

end MatchingEnginePartition

/-- The calls. -/
inductive PartitionCall where
  /-- `submitOrder(order)`. -/
  | submitOrder (order : Order)
  /-- `processOrders()`. -/
  | processOrders

namespace MatchingEnginePartition

/-- A call. -/
def call (capacity : ℕ) (clock : ℕ → UInt64) (p : MatchingEnginePartition) : PartitionCall → MatchingEnginePartition
  | .submitOrder order => (p.submitOrder capacity order).2
  | .processOrders => p.processOrders capacity clock

/-- The partition after so many of the calls. -/
def after (capacity : ℕ) (clock : ℕ → UInt64) (p : MatchingEnginePartition) (calls : ℕ → PartitionCall) :
    ℕ → MatchingEnginePartition
  | 0 => p
  | n + 1 => (p.after capacity clock calls n).call capacity clock (calls n)

/-- The reports of some orders, the first of all being the first. -/
def reports (clock : ℕ → UInt64) (orders : List Order) : List ExecutionReport :=
  orders.mapIdx fun i order => executionReport order (clock i)

/-- **The outputs agree**: the orders accepted are those processed, in order, and those that wait;
each of those processed is reported once, in order; and the three outputs are the same. -/
structure OutputsAgree (capacity : ℕ) (clock : ℕ → UInt64) (p : MatchingEnginePartition) : Prop where
  accepted : p.accepted = p.processed ++ p.ordersQueue.items capacity
  tcpClient : p.tcpClient = reports clock p.processed
  udpSender : p.udpSender = p.tcpClient
  fills : p.fills = p.tcpClient

/-- **The call finds room**: `processOrders` for the reports of the orders that wait, beside those
that are in `_fillsQueue`. -/
def HasRoom (capacity : ℕ) (p : MatchingEnginePartition) : PartitionCall → Prop
  | .submitOrder _ => True
  | .processOrders => (p.ordersQueue.items capacity).length + (p.fillsQueue.items capacity).length ≤ capacity - 1

/-! ### The invariant -/

/-- **The invariant**: the senders have the reports of the orders processed, and `_fillsQueue` as
many of the first of them as it has room for. -/
structure WellFormed (capacity : ℕ) (clock : ℕ → UInt64) (p : MatchingEnginePartition) : Prop where
  ordersRange : p.ordersQueue.InRange capacity
  fillsRange : p.fillsQueue.InRange capacity
  accepted : p.accepted = p.processed ++ p.ordersQueue.items capacity
  tcpClient : p.tcpClient = reports clock p.processed
  udpSender : p.udpSender = p.tcpClient
  fills : p.fills = p.tcpClient.take (capacity - 1)
  /-- Nothing is taken from `_fillsQueue`. -/
  items : p.fillsQueue.items capacity = p.fills

variable {capacity n : ℕ} {clock : ℕ → UInt64} {p : MatchingEnginePartition} {order : Order}

theorem length_reports (clock : ℕ → UInt64) (orders : List Order) : (reports clock orders).length = orders.length :=
  List.length_mapIdx

theorem reports_concat (clock : ℕ → UInt64) (orders : List Order) (order : Order) :
    reports clock (orders ++ [order]) = reports clock orders ++ [executionReport order (clock orders.length)] :=
  List.mapIdx_concat

/-- The first of some reports, when there is one more. -/
theorem take_concat {α : Type} (l : List α) (x : α) (k : ℕ) :
    (l ++ [x]).take k = if (l.take k).length = k then l.take k else l.take k ++ [x] := by
  rw [List.length_take]
  split_ifs with hk
  · exact List.take_append_of_le_length (by omega)
  · rw [List.take_of_length_le (by rw [List.length_append, List.length_singleton]; omega),
      List.take_of_length_le (by omega)]

theorem wellFormed_create (hcap : 1 ≤ capacity) (clock : ℕ → UInt64) (orderCells : ℕ → Order)
    (reportCells : ℕ → ExecutionReport) : (create orderCells reportCells).WellFormed capacity clock where
  ordersRange := SpScRingBuffer.inRange_create hcap orderCells
  fillsRange := SpScRingBuffer.inRange_create hcap reportCells
  accepted := by simp [create, SpScRingBuffer.items, SpScRingBuffer.create]
  tcpClient := rfl
  udpSender := rfl
  fills := List.take_nil.symm
  items := by simp [create, SpScRingBuffer.items, SpScRingBuffer.create]

/-- **An order is submitted.** -/
theorem WellFormed.submitOrder (h : p.WellFormed capacity clock) (order : Order) :
    (p.submitOrder capacity order).2.WellFormed capacity clock := by
  obtain ⟨hrange, htaken, hitems⟩ := SpScRingBuffer.tryPush_items h.ordersRange order
  generalize hpush : p.ordersQueue.tryPush capacity order = out at hrange htaken hitems
  obtain ⟨taken, ordersQueue⟩ := out
  have hdef : p.submitOrder capacity order = (taken, { p with
      ordersQueue := ordersQueue
      accepted := if taken then p.accepted ++ [order] else p.accepted }) := by
    simp only [MatchingEnginePartition.submitOrder, hpush]
  rw [hdef]
  refine ⟨hrange, h.fillsRange, ?_, h.tcpClient, h.udpSender, h.fills, h.items⟩
  show (if taken then p.accepted ++ [order] else p.accepted) = p.processed ++ ordersQueue.items capacity
  rw [hitems]
  by_cases hfull : (p.ordersQueue.items capacity).length = capacity - 1
  · rw [if_neg fun htrue => htaken.mp htrue hfull, if_pos hfull]
    exact h.accepted
  · rw [if_pos (htaken.mpr hfull), if_neg hfull, h.accepted, List.append_assoc]

/-- **An order is taken and matched.** -/
theorem WellFormed.matchOrder (h : p.WellFormed capacity clock) {ordersQueue : SpScRingBuffer Order}
    (hpop : p.ordersQueue.tryPop capacity = some (order, ordersQueue)) :
    ({ p with ordersQueue := ordersQueue }.matchOrder capacity clock order).WellFormed capacity clock := by
  obtain ⟨hwaiting, hordersRange, -⟩ := SpScRingBuffer.tryPop_of_some h.ordersRange hpop
  obtain ⟨hrange, htaken, hitems⟩ :=
    SpScRingBuffer.tryPush_items h.fillsRange (executionReport order (clock p.processed.length))
  generalize hpush : p.fillsQueue.tryPush capacity (executionReport order (clock p.processed.length)) = out
    at hrange htaken hitems
  obtain ⟨taken, fillsQueue⟩ := out
  have hdef : { p with ordersQueue := ordersQueue }.matchOrder capacity clock order = { p with
      ordersQueue := ordersQueue
      fillsQueue := fillsQueue
      tcpClient := p.tcpClient ++ [executionReport order (clock p.processed.length)]
      udpSender := p.udpSender ++ [executionReport order (clock p.processed.length)]
      processed := p.processed ++ [order]
      fills := if taken then p.fills ++ [executionReport order (clock p.processed.length)] else p.fills } := by
    simp only [MatchingEnginePartition.matchOrder, hpush]
  -- what the buffer holds, and what it has accepted
  have hfills : (if taken then p.fills ++ [executionReport order (clock p.processed.length)] else p.fills) =
      if p.fills.length = capacity - 1 then p.fills
        else p.fills ++ [executionReport order (clock p.processed.length)] := by
    rw [h.items] at htaken
    by_cases hfull : p.fills.length = capacity - 1
    · rw [if_neg fun htrue => htaken.mp htrue hfull, if_pos hfull]
    · rw [if_pos (htaken.mpr hfull), if_neg hfull]
  rw [hdef]
  refine ⟨hordersRange, hrange, ?_, ?_, ?_, ?_, ?_⟩
  · show p.accepted = p.processed ++ [order] ++ ordersQueue.items capacity
    rw [h.accepted, hwaiting, List.append_assoc, List.singleton_append]
  · show p.tcpClient ++ [_] = reports clock (p.processed ++ [order])
    rw [reports_concat, h.tcpClient]
  · show p.udpSender ++ [_] = p.tcpClient ++ [_]
    rw [h.udpSender]
  · show (if taken then _ else p.fills) = (p.tcpClient ++ [_]).take (capacity - 1)
    rw [hfills, take_concat, ← h.fills]
  · show fillsQueue.items capacity = if taken then _ else p.fills
    rw [hfills, hitems, h.items]

/-- **A turn of `processOrders`** takes an order, if one waits, and keeps the invariant. -/
theorem WellFormed.processTurn (h : p.WellFormed capacity clock) :
    Loop.Sat
      (fun p' => (p'.WellFormed capacity clock ∧ p'.accepted = p.accepted) ∧
        (p'.ordersQueue.items capacity).length < (p.ordersQueue.items capacity).length)
      (fun r => r = p ∧ p.ordersQueue.items capacity = []) (processTurn capacity clock p) := by
  unfold MatchingEnginePartition.processTurn
  cases hpop : p.ordersQueue.tryPop capacity with
  | none => exact ⟨rfl, (SpScRingBuffer.tryPop_eq_none_iff h.ordersRange).mp hpop⟩
  | some out =>
    obtain ⟨order, ordersQueue⟩ := out
    obtain ⟨hwaiting, -, -⟩ := SpScRingBuffer.tryPop_of_some h.ordersRange hpop
    refine ⟨⟨h.matchOrder hpop, rfl⟩, ?_⟩
    show (ordersQueue.items capacity).length < _
    rw [hwaiting, List.length_cons]
    exact Nat.lt_succ_self _

/-- **`processOrders` ends**, with the invariant, and no order waits then. -/
theorem WellFormed.processOrders (h : p.WellFormed capacity clock) :
    (p.processOrders capacity clock).WellFormed capacity clock ∧
      (p.processOrders capacity clock).accepted = p.accepted ∧
      (p.processOrders capacity clock).ordersQueue.items capacity = [] := by
  have hturns : (p.ordersQueue.items capacity).length < capacity := SpScRingBuffer.length_items_lt h.ordersRange
  have hturn (p' : MatchingEnginePartition) (h' : p'.WellFormed capacity clock ∧ p'.accepted = p.accepted) :
      Loop.Sat
        (fun q => (q.WellFormed capacity clock ∧ q.accepted = p.accepted) ∧
          (q.ordersQueue.items capacity).length < (p'.ordersQueue.items capacity).length)
        (fun r => r.WellFormed capacity clock ∧ r.accepted = p.accepted ∧ r.ordersQueue.items capacity = [])
        (MatchingEnginePartition.processTurn capacity clock p') := by
    obtain ⟨hwf, haccepted⟩ := h'
    refine hwf.processTurn.mono ?_ ?_
    · rintro q ⟨⟨hwf', haccepted'⟩, hlt⟩
      exact ⟨⟨hwf', haccepted'.trans haccepted⟩, hlt⟩
    · rintro r ⟨rfl, hempty⟩
      exact ⟨hwf, haccepted, hempty⟩
  obtain ⟨r, hrun, hwf, haccepted, hempty⟩ :=
    Loop.run_exits (fun q : MatchingEnginePartition => (q.ordersQueue.items capacity).length) hturn ⟨h, rfl⟩ hturns
  rw [MatchingEnginePartition.processOrders, Loop.result_of_exit hrun]
  exact ⟨hwf, haccepted, hempty⟩

/-- **Every call keeps the invariant.** -/
theorem WellFormed.call (h : p.WellFormed capacity clock) (c : PartitionCall) :
    (p.call capacity clock c).WellFormed capacity clock := by
  cases c with
  | submitOrder order => exact h.submitOrder order
  | processOrders => exact h.processOrders.1

/-! ### When the outputs agree -/

/-- **The outputs agree** as long as all reports have had room in `_fillsQueue`. -/
theorem WellFormed.outputsAgree_iff (h : p.WellFormed capacity clock) :
    p.OutputsAgree capacity clock ↔ p.processed.length ≤ capacity - 1 := by
  have hlen : p.tcpClient.length = p.processed.length := by rw [h.tcpClient, length_reports]
  rw [← hlen, ← List.take_eq_self_iff p.tcpClient, ← h.fills]
  exact ⟨fun hagree => hagree.fills, fun hfills => ⟨h.accepted, h.tcpClient, h.udpSender, hfills⟩⟩

/-- `processOrders` processes all the orders that have been accepted. -/
theorem WellFormed.processed_processOrders (h : p.WellFormed capacity clock) :
    (p.processOrders capacity clock).processed = p.accepted := by
  obtain ⟨hwf, haccepted, hempty⟩ := h.processOrders
  rw [← haccepted, hwf.accepted, hempty, List.append_nil]

/-- **What a call does to the outputs**: they agree after it exactly when they did before, and the
call finds room. -/
theorem WellFormed.call_outputsAgree_iff (h : p.WellFormed capacity clock) (c : PartitionCall) :
    (p.call capacity clock c).OutputsAgree capacity clock ↔
      p.OutputsAgree capacity clock ∧ HasRoom capacity p c := by
  rw [(h.call c).outputsAgree_iff, h.outputsAgree_iff]
  cases c with
  | submitOrder order => exact (and_iff_left trivial).symm
  | processOrders =>
    have hfilled : (p.fillsQueue.items capacity).length = min (capacity - 1) p.processed.length := by
      rw [h.items, h.fills, List.length_take, h.tcpClient, length_reports]
    have hall : (p.call capacity clock .processOrders).processed.length =
        p.processed.length + (p.ordersQueue.items capacity).length := by
      rw [MatchingEnginePartition.call, h.processed_processOrders, h.accepted, List.length_append]
    rw [HasRoom, hfilled, hall]
    omega

/-- **Every sequence of calls keeps the invariant.** -/
theorem WellFormed.after (h : p.WellFormed capacity clock) (calls : ℕ → PartitionCall) (n : ℕ) :
    (p.after capacity clock calls n).WellFormed capacity clock := by
  induction n with
  | zero => exact h
  | succ n ih => exact ih.call (calls n)

end MatchingEnginePartition

open MatchingEnginePartition

/-- **When the outputs of a partition agree**: for every capacity from `1` on, whatever the clock
reads, and after every sequence of calls from the construction, each order accepted has been
reported once, in order, if it has been processed, as all have after each `processOrders`, and
`_fillsQueue`, the TCP client and the UDP sender have the same reports, exactly when each
`processOrders` has found room in `_fillsQueue` for all the orders that waited. -/
theorem outputs_agree_iff {capacity : ℕ} (hcap : 1 ≤ capacity) (clock : ℕ → UInt64) (orderCells : ℕ → Order)
    (reportCells : ℕ → ExecutionReport) (calls : ℕ → PartitionCall) (n : ℕ) :
    (((create orderCells reportCells).after capacity clock calls n).OutputsAgree capacity clock ∧
      ∀ k < n, calls k = .processOrders →
        ((create orderCells reportCells).after capacity clock calls (k + 1)).processed =
          ((create orderCells reportCells).after capacity clock calls (k + 1)).accepted) ↔
    ∀ k < n, HasRoom capacity ((create orderCells reportCells).after capacity clock calls k) (calls k) := by
  have hstart := wellFormed_create hcap clock orderCells reportCells
  have hprocessed (k : ℕ) (hcall : calls k = .processOrders) :
      ((create orderCells reportCells).after capacity clock calls (k + 1)).processed =
        ((create orderCells reportCells).after capacity clock calls (k + 1)).accepted := by
    have hwf := hstart.after calls k
    rw [MatchingEnginePartition.after, hcall, call, hwf.processed_processOrders, hwf.processOrders.2.1]
  rw [and_iff_left fun k _ => hprocessed k]
  have hagree : (create orderCells reportCells).OutputsAgree capacity clock :=
    hstart.outputsAgree_iff.mpr (Nat.zero_le _)
  exact holds_at_iff_of_invariant
    (I := fun k => ((create orderCells reportCells).after capacity clock calls k).OutputsAgree capacity clock)
    (J := fun k => ((create orderCells reportCells).after capacity clock calls k).WellFormed capacity clock)
    hagree hstart (fun k _ h => h.call_outputsAgree_iff (calls k)) fun k _ h => h.call (calls k)

/-- An order made in cleared memory. -/
def blankOrder : Order := Order.create (Vector.replicate 16 0)

/-- A partition with two cells in each buffer. -/
def twoCells : MatchingEnginePartition :=
  create (fun _ => blankOrder) fun _ => executionReport blankOrder 0

/-- An order is submitted and processed, over and over. -/
def inTurn (k : ℕ) : PartitionCall := if k % 2 = 0 then .submitOrder blankOrder else .processOrders

/-- An order and its report. -/
theorem outputs_agree_one : (twoCells.after 2 (fun _ => 0) inTurn 2).OutputsAgree 2 fun _ => 0 := by
  refine ((outputs_agree_iff (by decide) (fun _ => 0) _ _ inTurn 2).mpr fun k hk => ?_).1
  match k, hk with
  | 0, _ => trivial
  | 1, _ =>
    show _ + _ ≤ 1
    decide

/-- **A report that is missing from `_fillsQueue`**: the second order is processed when the report of
the first is there. -/
theorem report_missing :
    (twoCells.after 2 (fun _ => 0) inTurn 4).accepted.length = 2 ∧
      (twoCells.after 2 (fun _ => 0) inTurn 4).tcpClient.length = 2 ∧
      (twoCells.after 2 (fun _ => 0) inTurn 4).udpSender.length = 2 ∧
      (twoCells.after 2 (fun _ => 0) inTurn 4).fills.length = 1 ∧
      ¬ (twoCells.after 2 (fun _ => 0) inTurn 4).OutputsAgree 2 fun _ => 0 := by
  have htcp : (twoCells.after 2 (fun _ => 0) inTurn 4).tcpClient.length = 2 := by decide
  have hfills : (twoCells.after 2 (fun _ => 0) inTurn 4).fills.length = 1 := by decide
  refine ⟨by decide, htcp, by decide, hfills, fun hagree => ?_⟩
  rw [hagree.fills, htcp] at hfills
  cases hfills

end Scrimmage.Matching
