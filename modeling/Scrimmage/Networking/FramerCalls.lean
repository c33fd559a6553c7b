import Scrimmage.Networking.TcpFramer
import Mathlib.Data.List.Induction
import Mathlib.Data.List.Basic

/-!
# The framer and its caller

`push` and `nextFrame` of `TcpFramer.h` called in any order, on any bytes. Here both are
functions on what they work on, the framer and the vector that the caller passes to
`nextFrame` (`Reader`), so that what a call that fails leaves behind can be seen. They agree
with the functions of `TcpFramer` (`Reader.push_eq`, `Reader.nextFrame_eq`).

## What is proved

* `nextFrame_split`: a frame taken is the first bytes of the buffer, its length before it.
* `bytes_kept`: over every sequence of calls, no byte is lost, invented or moved.
-/

namespace Scrimmage.Networking

/-- What the calls work on. -/
structure Reader where
  /-- The framer. -/
  framer : TcpFramer
  /-- The vector `frame` that the caller passes to `nextFrame`. -/
  frame : Bytes
  deriving DecidableEq

/-- `push`: the text of the `overflow_error`, if it throws. -/
def Reader.push (r : Reader) (data : Bytes) : Option String × Reader :=
  if (r.framer.buffer.length + data.length) % 2 ^ 64 > r.framer.maxFrameSize then
    (some "TCP framer buffer overflow", r)
  else (none, { r with framer := { r.framer with buffer := r.framer.buffer ++ data } })

/-- `nextFrame`. -/
def Reader.nextFrame (order : ByteOrder) (r : Reader) : Bool × Reader :=
  if r.framer.buffer.length < 2 then (false, r)
  else
    let frameLen := (order.load (r.framer.buffer.take 2)).toNat
    if r.framer.buffer.length < 2 + frameLen then (false, r)
    else
      let r := { r with frame := (r.framer.buffer.drop 2).take frameLen }
      (true, { r with framer := { r.framer with buffer := r.framer.buffer.drop (2 + frameLen) } })

/-- A call on the framer. -/
inductive FramerCall where
  /-- `push(data)`. -/
  | push (data : Bytes)
  /-- `nextFrame(frame)`. -/
  | nextFrame
  deriving DecidableEq

/-- What has happened: the data of the pushes that did not throw, one after the other, and the
frames returned. -/
structure Transcript where
  /-- The framer and the caller's vector. -/
  reader : Reader
  /-- What has been pushed. -/
  accepted : Bytes
  /-- What has been returned. -/
  frames : List Bytes

/-- What a call does. -/
def Transcript.call (order : ByteOrder) (t : Transcript) : FramerCall → Transcript
  | .push data =>
    match t.reader.push data with
    | (none, r) => { t with reader := r, accepted := t.accepted ++ data }
    | (some _, r) => { t with reader := r }
  | .nextFrame =>
    match t.reader.nextFrame order with
    | (true, r) => { t with reader := r, frames := t.frames ++ [r.frame] }
    | (false, r) => { t with reader := r }

/-- A new framer and some calls on it; the caller's vector holds anything at first. -/
def Transcript.run (order : ByteOrder) (maxFrameSize : ℕ) (frame : Bytes) (calls : List FramerCall) : Transcript :=
  calls.foldl (Transcript.call order) ⟨⟨TcpFramer.create maxFrameSize, frame⟩, [], []⟩

theorem Transcript.run_snoc (order : ByteOrder) (maxFrameSize : ℕ) (frame : Bytes) (calls : List FramerCall)
    (c : FramerCall) :
    run order maxFrameSize frame (calls ++ [c]) = (run order maxFrameSize frame calls).call order c := by
  simp [run]

/-! ### One call -/

/-- `push` is that of `TcpFramer`. -/
theorem Reader.push_eq (r : Reader) (data : Bytes) :
    r.push data =
      match r.framer.push data with
      | .error text => (some text, r)
      | .ok f => (none, { r with framer := f }) := by
  simp only [Reader.push, TcpFramer.push]
  split_ifs <;> rfl

/-- `nextFrame` is that of `TcpFramer`. -/
theorem Reader.nextFrame_eq (order : ByteOrder) (r : Reader) :
    r.nextFrame order =
      match r.framer.nextFrame order with
      | none => (false, r)
      | some (frame, f) => (true, ⟨f, frame⟩) := by
  simp only [Reader.nextFrame, TcpFramer.nextFrame]
  split_ifs <;> rfl

/-- Two bytes loaded are stored again. -/
theorem ByteOrder.store_load (order : ByteOrder) {bytes : Bytes} (h : bytes.length = 2) :
    order.store (order.load bytes) = bytes := by
  obtain ⟨x, y, rfl⟩ := List.length_eq_two.mp h
  have hx := x.toNat_lt
  have hy := y.toNat_lt
  cases order <;> simp [ByteOrder.store, ByteOrder.load, ← UInt8.toNat_inj] <;> omega

/-- **The bytes of a frame taken** are the first of the buffer, with its length before them. -/
theorem nextFrame_split {order : ByteOrder} {f f' : TcpFramer} {frame : Bytes}
    (h : f.nextFrame order = some (frame, f')) :
    f.buffer = frameOf order frame ++ f'.buffer ∧ frame.length ≤ 65535 := by
  simp only [TcpFramer.nextFrame] at h
  split_ifs at h with h2 hfull
  cases h
  have hlt := (order.load (f.buffer.take 2)).toNat_lt
  have hlen : ((f.buffer.drop 2).take (order.load (f.buffer.take 2)).toNat).length =
      (order.load (f.buffer.take 2)).toNat := by
    rw [List.length_take, List.length_drop]
    omega
  refine ⟨?_, by omega⟩
  have hhead : order.store (UInt16.ofNat (order.load (f.buffer.take 2)).toNat) = f.buffer.take 2 := by
    rw [UInt16.ofNat_toNat]
    apply order.store_load
    rw [List.length_take]
    omega
  rw [frameOf, hlen, hhead, ← List.drop_drop, List.append_assoc, List.take_append_drop, List.take_append_drop]

/-- **No byte is lost, invented or moved**: the frames returned, each after its length, and
then the buffer are what has been pushed. -/
structure Transcript.Kept (order : ByteOrder) (t : Transcript) : Prop where
  bytes : t.frames.flatMap (frameOf order) ++ t.reader.framer.buffer = t.accepted
  /-- The length of a frame fits in its two bytes. -/
  length : ∀ frame ∈ t.frames, frame.length ≤ 65535

/-- **What a call preserves.** -/
theorem Transcript.Kept.call {order : ByteOrder} {t : Transcript} (h : t.Kept order) (c : FramerCall) :
    (t.call order c).Kept order := by
  cases c with
  | push data =>
    simp only [Transcript.call, Reader.push_eq]
    cases hpush : t.reader.framer.push data with
    | error text => exact h
    | ok f =>
      refine ⟨?_, h.length⟩
      rw [push_ok hpush, ← List.append_assoc, h.bytes]
  | nextFrame =>
    simp only [Transcript.call, Reader.nextFrame_eq]
    cases hnext : t.reader.framer.nextFrame order with
    | none => exact h
    | some a =>
      obtain ⟨frame, f⟩ := a
      obtain ⟨hsplit, hlen⟩ := nextFrame_split hnext
      refine ⟨?_, fun frame' hm => ?_⟩
      · have hbytes := h.bytes
        rw [hsplit] at hbytes
        simpa using hbytes
      · rcases List.mem_append.mp hm with hm | hm
        · exact h.length frame' hm
        · rw [List.mem_singleton.mp hm]
          exact hlen

/-- **What any sequence of calls preserves.** -/
theorem Transcript.kept_run (order : ByteOrder) (maxFrameSize : ℕ) (frame : Bytes) (calls : List FramerCall) :
    (run order maxFrameSize frame calls).Kept order := by
  induction calls using List.reverseRecOn with
  | nil => exact ⟨rfl, fun frame hm => by cases hm⟩
  | append_singleton calls c ih =>
    rw [Transcript.run_snoc]
    exact ih.call c

/-- **The framer parses every stream without loss.** After any sequence of pushes and reads, on
any bytes, some of the pushes having thrown: the frames returned so far, each with its two
bytes of length before it, and then the buffer are the data of the pushes that did not
throw. A push that throws and a `nextFrame` that returns `false` leave the framer and the
caller's vector as they were, and the buffer then begins with no complete frame. -/
theorem bytes_kept (order : ByteOrder) (maxFrameSize : ℕ) (frame : Bytes) (calls : List FramerCall) :
    let t := Transcript.run order maxFrameSize frame calls
    (t.frames.flatMap (frameOf order) ++ t.reader.framer.buffer = t.accepted ∧
      ∀ frame ∈ t.frames, frame.length ≤ 65535) ∧
    (∀ data, (t.reader.push data).1.isSome → (t.reader.push data).2 = t.reader) ∧
    ((t.reader.nextFrame order).1 = false → (t.reader.nextFrame order).2 = t.reader ∧
      ∀ payload rest, payload.length ≤ 65535 →
        (t.reader.nextFrame order).2.framer.buffer ≠ frameOf order payload ++ rest) := by
  have hkept := Transcript.kept_run order maxFrameSize frame calls
  intro t
  refine ⟨⟨hkept.bytes, hkept.length⟩, fun data hthrow => ?_, fun hfalse => ?_⟩
  · rw [Reader.push_eq] at hthrow ⊢
    cases hpush : t.reader.framer.push data with
    | error text => rfl
    | ok f =>
      rw [hpush] at hthrow
      cases hthrow
  · rw [Reader.nextFrame_eq] at hfalse ⊢
    cases hnext : t.reader.framer.nextFrame order with
    | none =>
      refine ⟨rfl, fun payload rest hlen heq => ?_⟩
      rw [nextFrame_frameOf order t.reader.framer hlen heq] at hnext
      cases hnext
    | some a =>
      rw [hnext] at hfalse
      cases hfalse

/-- A header that announces more than comes, a push that throws, and the rest. -/
example : (Transcript.run .little 4 [9] [.push [2, 0, 7], .nextFrame, .push [8, 8], .push [8], .nextFrame]).frames =
    [[7, 8]] := by decide

end Scrimmage.Networking
