import Scrimmage.Theory.Loop
import Mathlib.Algebra.BigOperators.Group.List.Basic
import Mathlib.Data.List.Range
import Mathlib.Data.List.Infix
import Mathlib.Data.Nat.Find
import Mathlib.Algebra.Ring.Nat

/-!
# Sending a message

`TcpClient::sendAll` of `TcpClient.h`: the loop that calls `::send` until a message has been
sent. It moves the pointer on by the bytes sent, and lowers what remains by one.

## The model

* The kernel may give each call of `::send` any result; `results k` is that of the call `k`.
  A result is a `ssize_t`: an error if not positive, else how many of the bytes requested
  were sent.
* A position is an offset from `data`, and `mem` is what is in memory from there on, past the
  end of the message too.
* `sendAll` gives, beside what it returns, the calls it has made.

## What is proved

* `sendAll_cases`: the calls of a loop, up to the first error or to the last.
* `transmits_iff`: when a message is sent once and in order. `message_overrun` is one that
  is not: it is sent at once, and then bytes from behind it.
-/

namespace Scrimmage.Networking

open Theory

/-- A call of `::send`. -/
structure SendCall where
  /-- Where the bytes requested begin. -/
  ptr : ℕ
  /-- How many are requested. -/
  requested : ℕ
  /-- What the call returns. -/
  result : ℤ
  deriving DecidableEq

/-- The state of the loop of `sendAll`. -/
structure SendState where
  /-- `ptr`. -/
  ptr : ℕ
  /-- `remaining`. -/
  remaining : ℕ
  /-- The calls made so far. -/
  calls : List SendCall
  deriving DecidableEq

/-- One turn of the loop. -/
def sendTurn (results : ℕ → ℤ) (st : SendState) : Turn SendState (SendState × Bool) :=
  if st.remaining > 0 then
    let n := results st.calls.length
    let st := { st with calls := st.calls ++ [⟨st.ptr, st.remaining, n⟩] }
    if n ≤ 0 then .exit (st, false)
    else .again { st with ptr := st.ptr + n.toNat, remaining := st.remaining - 1 }
  else .exit (st, true)

/-- `sendAll`. Each turn that goes round again lowers `remaining`, so the loop is left within
one turn more than the message has bytes (`sendAll_cases`). -/
def sendAll (results : ℕ → ℤ) (len : ℕ) : SendState × Bool :=
  Loop.result (sendTurn results) (fun st => (st, false)) (len + 1) ⟨0, len, []⟩

/-! ### What is sent -/

/-- The bytes sent by some calls. -/
def bytesSent (mem : ℕ → UInt8) (calls : List SendCall) : List UInt8 :=
  calls.flatMap fun c => (List.range' c.ptr c.result.toNat).map mem

/-- The message. -/
def message (mem : ℕ → UInt8) (len : ℕ) : List UInt8 := (List.range len).map mem

/-- **The message is sent once and in order**: no call is given bytes from outside it, what has
been sent is always the first bytes of it, and all of it exactly when `true` is returned. -/
structure Transmits (mem : ℕ → UInt8) (len : ℕ) (r : SendState × Bool) : Prop where
  inside : ∀ c ∈ r.1.calls, c.ptr + c.requested ≤ len
  inOrder : ∀ k, bytesSent mem (r.1.calls.take k) <+: message mem len
  complete : r.2 = true → bytesSent mem r.1.calls = message mem len
  incomplete : r.2 = false → bytesSent mem r.1.calls ≠ message mem len

/-- **No call sends more than a byte**, of those before the first error. -/
def OneByOne (results : ℕ → ℤ) (len : ℕ) : Prop := ∀ k < len, (∀ j < k, 0 < results j) → results k ≤ 1

/-! ### The loop -/

section Loop

variable {results : ℕ → ℤ} {len k : ℕ} {mem : ℕ → UInt8}

/-- How far the pointer has moved after `k` calls. -/
def moved (results : ℕ → ℤ) (k : ℕ) : ℕ := ((List.range k).map fun j => (results j).toNat).sum

@[simp] theorem moved_zero (results : ℕ → ℤ) : moved results 0 = 0 := rfl

@[simp] theorem moved_succ (results : ℕ → ℤ) (k : ℕ) : moved results (k + 1) = moved results k + (results k).toNat := by
  simp [moved, List.range_succ]

/-- The first `k` calls. -/
def callsUpTo (results : ℕ → ℤ) (len k : ℕ) : List SendCall :=
  (List.range k).map fun j => ⟨moved results j, len - j, results j⟩

@[simp] theorem length_callsUpTo (results : ℕ → ℤ) (len k : ℕ) : (callsUpTo results len k).length = k := by
  simp [callsUpTo]

theorem callsUpTo_succ (results : ℕ → ℤ) (len k : ℕ) :
    callsUpTo results len (k + 1) = callsUpTo results len k ++ [⟨moved results k, len - k, results k⟩] := by
  simp [callsUpTo, List.range_succ]

theorem mem_callsUpTo {c : SendCall} :
    c ∈ callsUpTo results len k ↔ ∃ j < k, (⟨moved results j, len - j, results j⟩ : SendCall) = c := by
  simp [callsUpTo]

/-- The state after `k` turns, if none of their calls has failed. -/
theorem run_sendTurn (hk : k ≤ len) (hpos : ∀ j < k, 0 < results j) :
    Loop.run (sendTurn results) k ⟨0, len, []⟩ = .again ⟨moved results k, len - k, callsUpTo results len k⟩ := by
  induction k with
  | zero => rfl
  | succ k ih =>
    have hrun := ih (Nat.le_of_succ_le hk) fun j hj => hpos j (Nat.lt_succ_of_lt hj)
    have hk0 := hpos k (Nat.lt_succ_self k)
    rw [Loop.run_succ_of_again hrun]
    simp only [sendTurn, length_callsUpTo, callsUpTo_succ, moved_succ, Nat.sub_sub]
    rw [if_pos (by omega), if_neg (by omega)]

/-- **The calls of a loop**: up to the first that fails, or all of them. -/
theorem sendAll_cases (results : ℕ → ℤ) (len : ℕ) :
    (∃ k < len, (∀ j < k, 0 < results j) ∧ results k ≤ 0 ∧
      sendAll results len = (⟨moved results k, len - k, callsUpTo results len (k + 1)⟩, false)) ∨
    ((∀ j < len, 0 < results j) ∧ sendAll results len = (⟨moved results len, 0, callsUpTo results len len⟩, true)) := by
  by_cases hall : ∀ j < len, 0 < results j
  · right
    have hrun := run_sendTurn le_rfl hall
    refine ⟨hall, Loop.result_of_exit ?_⟩
    rw [Loop.run_succ_of_again hrun]
    simp [sendTurn]
  · left
    -- the first call that fails
    have hsome : ∃ k, k < len ∧ results k ≤ 0 := by
      by_contra hnone
      apply hall
      intro j hj
      by_contra hle
      exact hnone ⟨j, hj, Int.not_lt.mp hle⟩
    obtain ⟨hk, hfail⟩ := Nat.find_spec hsome
    have hpos : ∀ j < Nat.find hsome, 0 < results j := by
      intro j hj
      have hnot := Nat.find_min hsome hj
      by_contra hle
      exact hnot ⟨by omega, by omega⟩
    refine ⟨Nat.find hsome, hk, hpos, hfail, Loop.result_of_exit ?_⟩
    have hrun := run_sendTurn hk.le hpos
    apply Loop.run_mono (m := Nat.find hsome + 1) (by omega)
    rw [Loop.run_succ_of_again hrun]
    simp only [sendTurn, length_callsUpTo, callsUpTo_succ]
    rw [if_pos (by omega), if_pos hfail]

/-! ### When a message is sent -/

/-- The pointer moves on by one, if each call sends one byte. -/
theorem moved_eq (hone : ∀ j < k, results j = 1) : moved results k = k := by
  induction k with
  | zero => rfl
  | succ k ih =>
    rw [moved_succ, ih fun j hj => hone j (Nat.lt_succ_of_lt hj), hone k (Nat.lt_succ_self k)]
    rfl

/-- Calls that have not failed, and have not moved the pointer too far, have sent a byte each. -/
theorem le_one_of_moved (hpos : ∀ j < k, 0 < results j) (hle : moved results k ≤ k) :
    ∀ j < k, results j ≤ 1 := by
  have hge (k : ℕ) (hpos : ∀ j < k, 0 < results j) : k ≤ moved results k := by
    induction k with
    | zero => exact le_rfl
    | succ k ih =>
      have := ih fun j hj => hpos j (Nat.lt_succ_of_lt hj)
      have := hpos k (Nat.lt_succ_self k)
      rw [moved_succ]
      omega
  induction k with
  | zero => exact fun j hj => absurd hj (Nat.not_lt_zero j)
  | succ k ih =>
    have hbefore := hge k fun j hj => hpos j (Nat.lt_succ_of_lt hj)
    have hk := hpos k (Nat.lt_succ_self k)
    rw [moved_succ] at hle
    intro j hj
    rcases Nat.lt_succ_iff_lt_or_eq.mp hj with hj | rfl
    · exact ih (fun j hj => hpos j (Nat.lt_succ_of_lt hj)) (by omega) j hj
    · omega

/-- Calls that send a byte each send the first bytes of the message. -/
theorem bytesSent_callsUpTo (mem : ℕ → UInt8) (len : ℕ) (hone : ∀ j < k, results j = 1) :
    bytesSent mem (callsUpTo results len k) = message mem k := by
  induction k with
  | zero => rfl
  | succ k ih =>
    have hbefore (j : ℕ) (hj : j < k) : results j = 1 := hone j (Nat.lt_succ_of_lt hj)
    have hih := ih hbefore
    rw [bytesSent] at hih ⊢
    rw [callsUpTo_succ, List.flatMap_append, hih, List.flatMap_singleton, hone k (Nat.lt_succ_self k), moved_eq hbefore,
      message, message, List.range_succ, List.map_append]
    rfl

theorem message_prefix (mem : ℕ → UInt8) {k : ℕ} (hk : k ≤ len) : message mem k <+: message mem len := by
  obtain ⟨d, rfl⟩ := Nat.exists_eq_add_of_le hk
  rw [message, message, List.range_add, List.map_append]
  exact List.prefix_append ..

/-- The bytes sent by the first calls are the first of those sent. -/
theorem bytesSent_take (mem : ℕ → UInt8) (calls : List SendCall) (k : ℕ) :
    bytesSent mem (calls.take k) <+: bytesSent mem calls := by
  refine ⟨bytesSent mem (calls.drop k), ?_⟩
  rw [bytesSent, bytesSent, ← List.flatMap_append, List.take_append_drop]
  rfl

/-- Calls that fail send nothing. -/
theorem bytesSent_of_fail (mem : ℕ → UInt8) {calls : List SendCall} (hfail : ∀ c ∈ calls, c.result ≤ 0) :
    bytesSent mem calls = [] := by
  rw [bytesSent, List.flatMap_eq_nil_iff]
  intro c hc
  rw [Int.toNat_of_nonpos (hfail c hc)]
  rfl

/-- **Calls that send a byte each**, and then calls that fail. -/
theorem transmits_of_one (hk : k ≤ len) (hone : ∀ j < k, results j = 1) (fails : List SendCall)
    (hfail : ∀ c ∈ fails, c.result ≤ 0) (hinside : ∀ c ∈ fails, c.ptr + c.requested ≤ len) {st : SendState}
    (hst : st.calls = callsUpTo results len k ++ fails) {b : Bool} (hb : b = true ↔ k = len) :
    Transmits mem len (st, b) := by
  have hsent : bytesSent mem st.calls = message mem k := by
    rw [hst, bytesSent, List.flatMap_append]
    change bytesSent mem _ ++ bytesSent mem _ = _
    rw [bytesSent_callsUpTo mem len hone, bytesSent_of_fail mem hfail, List.append_nil]
  refine ⟨fun c hc => ?_, fun n => ?_, fun htrue => ?_, fun hfalse heq => ?_⟩
  · rw [hst] at hc
    rcases List.mem_append.mp hc with hc | hc
    · obtain ⟨j, hj, rfl⟩ := mem_callsUpTo.mp hc
      have := moved_eq fun i (hi : i < j) => hone i (by omega)
      show moved results j + (len - j) ≤ len
      omega
    · exact hinside c hc
  · exact (bytesSent_take mem st.calls n).trans (hsent ▸ message_prefix mem hk)
  · rw [hsent, hb.mp htrue]
  · rw [hsent] at heq
    have hlen := congrArg List.length heq
    simp only [message, List.length_map, List.length_range] at hlen
    simp [hb.mpr hlen] at hfalse

end Loop

/-- **When a message is sent as it should be.** For every memory, every message in it and all
results of `::send` that are errors or no more than was requested: the message is sent once
and in order exactly when no call before the first error sends more than one byte. -/
theorem transmits_iff (mem : ℕ → UInt8) (len : ℕ) (results : ℕ → ℤ)
    (hresult : ∀ c ∈ (sendAll results len).1.calls, c.result ≤ c.requested) :
    Transmits mem len (sendAll results len) ↔ OneByOne results len := by
  rcases sendAll_cases results len with ⟨n, hn, hpos, hfail, hsend⟩ | ⟨hpos, hsend⟩
  · rw [hsend]
    constructor
    · intro h k hk hbefore
      have hkn : k ≤ n := by
        by_contra hlt
        exact absurd (hbefore n (by omega)) (by omega)
      have hlast := h.inside ⟨moved results n, len - n, results n⟩ (mem_callsUpTo.mpr ⟨n, Nat.lt_succ_self n, rfl⟩)
      rcases Nat.lt_or_ge k n with hlt | hge
      · exact le_one_of_moved hpos (by simp only at hlast; omega) k hlt
      · obtain rfl : k = n := by omega
        omega
    · intro h
      have hone (j : ℕ) (hj : j < n) : results j = 1 := by
        have := h j (by omega) fun i hi => hpos i (by omega)
        have := hpos j hj
        omega
      have hmoved := moved_eq hone
      refine transmits_of_one hn.le hone [_] (fun c hc => ?_) (fun c hc => ?_) (callsUpTo_succ results len n) ?_
      · rw [List.mem_singleton.mp hc]
        exact hfail
      · rw [List.mem_singleton.mp hc]
        show moved results n + (len - n) ≤ len
        omega
      · simpa using hn.ne
  · rw [hsend] at hresult ⊢
    constructor
    · intro h k hk _
      have hmoved (k : ℕ) (hk : k < len) : moved results k ≤ k := by
        have := h.inside ⟨moved results k, len - k, results k⟩ (mem_callsUpTo.mpr ⟨k, hk, rfl⟩)
        simp only at this
        omega
      rcases Nat.lt_or_ge (k + 1) len with hlt | hge
      · exact le_one_of_moved (fun j hj => hpos j (by omega)) (hmoved (k + 1) hlt) k (Nat.lt_succ_self k)
      · -- the last call requests one byte
        have := hresult ⟨moved results k, len - k, results k⟩ (mem_callsUpTo.mpr ⟨k, hk, rfl⟩)
        simp only at this
        omega
    · intro h
      have hone (j : ℕ) (hj : j < len) : results j = 1 := by
        have := h j hj fun i hi => hpos i (by omega)
        have := hpos j hj
        omega
      exact transmits_of_one le_rfl hone [] (by simp) (by simp) (by simp) (by simp)

/-- A message of two bytes, the second of which cannot be sent. -/
theorem transmits_two : Transmits (fun i => UInt8.ofNat i) 2 (sendAll (fun k => if k = 0 then 1 else -1) 2) := by
  refine (transmits_iff _ 2 _ (by decide)).mpr fun k hk _ => ?_
  match k, hk with
  | 0, _ => decide
  | 1, _ => decide

/-- **A message that is sent at once**: both bytes by the first call, and by the second call the
one that comes after them in memory. -/
theorem message_overrun :
    let results : ℕ → ℤ := fun k => if k = 0 then 2 else 1
    (∀ c ∈ (sendAll results 2).1.calls, 1 ≤ c.result ∧ c.result ≤ c.requested) ∧
    (sendAll results 2).1.calls = [⟨0, 2, 2⟩, ⟨2, 1, 1⟩] ∧ (sendAll results 2).2 = true ∧
    bytesSent (fun i => UInt8.ofNat i) (sendAll results 2).1.calls = [0, 1, 2] ∧
    ¬ Transmits (fun i => UInt8.ofNat i) 2 (sendAll results 2) := by
  intro results
  refine ⟨by decide, by decide, by decide, by decide, fun h => ?_⟩
  have hinside : 2 + 1 ≤ 2 := h.inside ⟨2, 1, 1⟩ (by decide)
  omega

end Scrimmage.Networking
