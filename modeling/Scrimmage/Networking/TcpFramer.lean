import Scrimmage.Theory.Framing
import Mathlib.Data.List.TakeDrop
import Mathlib.Tactic.Common
import Mathlib.Algebra.Ring.Nat

/-!
# Frames over TCP

`TcpEncoder` and `TcpFramer` of `TcpEncoder.h` and `TcpFramer.h`: messages sent over a
byte stream as frames, a two-byte length and the payload, and taken from it again. The
length is in the byte order of the machine (`ByteOrder`), which both sides share.

## What is proved

* `encode_eq`: what the writes of `encode` into the resized vector come to.
* `framing`: the framer is a decoder in the sense of `Theory.Decoder`: more input does not
  change the frames that are complete.
* `framer_undoes_encoder`: however the stream is cut into chunks, the frames taken are the
  payloads encoded.
-/

namespace Scrimmage.Networking

open Theory

/-- The bytes of a `std::vector<char>`. -/
abbrev Bytes := List UInt8

/-! ### The length -/

/-- The order of the bytes of an integer in memory. -/
inductive ByteOrder where
  /-- The low byte first. -/
  | little
  /-- The high byte first. -/
  | big
  deriving DecidableEq

/-- The bytes of a `uint16_t`, as `memcpy` copies them from it. -/
def ByteOrder.store : ByteOrder → UInt16 → Bytes
  | .little, x => [UInt8.ofNat x.toNat, UInt8.ofNat (x.toNat / 256)]
  | .big, x => [UInt8.ofNat (x.toNat / 256), UInt8.ofNat x.toNat]

/-- The `uint16_t` two bytes are copied into. -/
def ByteOrder.load : ByteOrder → Bytes → UInt16
  | .little, bytes => UInt16.ofNat ((bytes.getD 0 0).toNat + 256 * (bytes.getD 1 0).toNat)
  | .big, bytes => UInt16.ofNat ((bytes.getD 1 0).toNat + 256 * (bytes.getD 0 0).toNat)

@[simp] theorem ByteOrder.length_store (order : ByteOrder) (x : UInt16) : (order.store x).length = 2 := by
  cases order <;> rfl

/-- What is stored is loaded. -/
@[simp] theorem ByteOrder.load_store (order : ByteOrder) (x : UInt16) : order.load (order.store x) = x := by
  have hx := x.toNat_lt
  apply UInt16.toNat_inj.mp
  cases order <;> simp [ByteOrder.load, ByteOrder.store] <;> omega

/-! ### The encoder -/

/-- `memcpy(dst + pos, src, size of src)`. -/
def memcpy (dst : Bytes) (pos : ℕ) (src : Bytes) : Bytes := dst.take pos ++ src ++ dst.drop (pos + src.length)

/-- `TcpEncoder::encode`: the vector `out` after it. -/
def encode (order : ByteOrder) (payload out : Bytes) : Bytes :=
  let len := payload.length
  let frameLen := UInt16.ofNat len
  let out := out ++ List.replicate (2 + len) 0
  let out := memcpy out (out.length - (2 + len)) (order.store frameLen)
  memcpy out (out.length - len) payload

/-- Payloads encoded one after another into one vector. -/
def encodeAll (order : ByteOrder) (payloads : List Bytes) : Bytes :=
  payloads.foldl (fun out payload => encode order payload out) []

/-- The bytes of one frame. -/
def frameOf (order : ByteOrder) (payload : Bytes) : Bytes :=
  order.store (UInt16.ofNat payload.length) ++ payload

/-- A write to the end of a vector. -/
theorem memcpy_append (l l' src : Bytes) (h : l'.length = src.length) :
    memcpy (l ++ l') l.length src = l ++ src := by
  simp [memcpy, ← h]

/-- **What `encode` appends**: the low 16 bits of the length, and the payload. -/
theorem encode_eq (order : ByteOrder) (payload out : Bytes) :
    encode order payload out = out ++ frameOf order payload := by
  have hlen : memcpy (out ++ List.replicate (2 + payload.length) 0) out.length
      (order.store (UInt16.ofNat payload.length)) =
      out ++ order.store (UInt16.ofNat payload.length) ++ List.replicate payload.length 0 := by
    simp [memcpy]
  have hpos : (out ++ List.replicate (2 + payload.length) (0 : UInt8)).length - (2 + payload.length) =
      out.length := by simp
  simp only [encode, hpos, hlen]
  have hend : (out ++ order.store (UInt16.ofNat payload.length) ++ List.replicate payload.length 0).length -
      payload.length = (out ++ order.store (UInt16.ofNat payload.length)).length := by
    simp
    omega
  rw [hend, memcpy_append _ _ _ (by simp), frameOf, List.append_assoc]

theorem encodeAll_eq (order : ByteOrder) (payloads : List Bytes) :
    encodeAll order payloads = payloads.flatMap (frameOf order) := by
  have hfold (out : Bytes) : payloads.foldl (fun out payload => encode order payload out) out =
      out ++ payloads.flatMap (frameOf order) := by
    induction payloads generalizing out with
    | nil => simp
    | cons payload payloads ih => rw [List.foldl_cons, ih, encode_eq, List.flatMap_cons, List.append_assoc]
  exact hfold []

/-! ### The framer -/

/-- `TcpFramer`. -/
structure TcpFramer where
  /-- `_buffer`. -/
  buffer : Bytes
  /-- `_maxFrameSize`. -/
  maxFrameSize : ℕ
  deriving DecidableEq

/-- `TcpFramer(maxFrameSize)`. -/
def TcpFramer.create (maxFrameSize : ℕ) : TcpFramer := ⟨[], maxFrameSize⟩

/-- `push`: the framer with the bytes, or the text of the `overflow_error`. -/
def TcpFramer.push (f : TcpFramer) (data : Bytes) : Except String TcpFramer :=
  if (f.buffer.length + data.length) % 2 ^ 64 > f.maxFrameSize then .error "TCP framer buffer overflow"
  else .ok { f with buffer := f.buffer ++ data }

/-- `nextFrame`: the frame and the framer without it, or nothing when it returns `false`. -/
def TcpFramer.nextFrame (order : ByteOrder) (f : TcpFramer) : Option (Bytes × TcpFramer) :=
  if f.buffer.length < 2 then none
  else
    let frameLen := (order.load (f.buffer.take 2)).toNat
    if f.buffer.length < 2 + frameLen then none
    else some ((f.buffer.drop 2).take frameLen, { f with buffer := f.buffer.drop (2 + frameLen) })

/-- A frame that is complete: what `nextFrame` does when the buffer begins with one. -/
theorem nextFrame_frameOf (order : ByteOrder) (f : TcpFramer) {payload rest : Bytes}
    (hlen : payload.length ≤ 65535) (h : f.buffer = frameOf order payload ++ rest) :
    f.nextFrame order = some (payload, { f with buffer := rest }) := by
  have hsize : (UInt16.ofNat payload.length).toNat = payload.length := by
    rw [UInt16.toNat_ofNat']
    omega
  have htake : f.buffer.take 2 = order.store (UInt16.ofNat payload.length) := by
    rw [h, frameOf, List.append_assoc, List.take_append_of_le_length (by simp), List.take_of_length_le (by simp)]
  have hdrop : f.buffer.drop 2 = payload ++ rest := by
    rw [h, frameOf, List.append_assoc, List.drop_append_of_le_length (by simp), List.drop_of_length_le (by simp)]
    rfl
  have hbuf : f.buffer.length = 2 + payload.length + rest.length := by
    rw [h, frameOf]
    simp [Nat.add_assoc]
  simp only [TcpFramer.nextFrame, htake, ByteOrder.load_store, hsize, hdrop, ← List.drop_drop]
  rw [if_neg (by omega), if_neg (by omega)]
  simp

/-- **The framer is a decoder.** -/
def framing (order : ByteOrder) : Decoder TcpFramer UInt8 Bytes where
  next f := f.nextFrame order
  extend f data := { f with buffer := f.buffer ++ data }
  size f := f.buffer.length
  extend_nil f := by simp
  extend_append f l l' := by simp
  next_extend {f f' payload} l h := by
    simp only [TcpFramer.nextFrame] at h
    split_ifs at h with h2 hfull
    cases h
    have htake : (f.buffer ++ l).take 2 = f.buffer.take 2 := List.take_append_of_le_length (by omega)
    simp only [TcpFramer.nextFrame, htake, List.length_append]
    rw [if_neg (by omega), if_neg (by omega), List.drop_append_of_le_length (by omega),
      List.drop_append_of_le_length (by omega), List.take_append_of_le_length (by rw [List.length_drop]; omega)]
  next_size {f f' payload} h := by
    simp only [TcpFramer.nextFrame] at h
    split_ifs at h with h2 hfull
    cases h
    simp only [List.length_drop]
    omega

/-- A chunk arrives: `push`, and then `nextFrame` until it returns `false`. -/
def TcpFramer.receive (order : ByteOrder) (f : TcpFramer) (chunk : Bytes) :
    Except String (List Bytes × TcpFramer) := do
  let f ← f.push chunk
  return (framing order).drain f

/-- Chunks arrive, one after the other: all frames taken, and the framer after. -/
def TcpFramer.receiveAll (order : ByteOrder) : TcpFramer → List Bytes → Except String (List Bytes × TcpFramer)
  | f, [] => return ([], f)
  | f, chunk :: chunks => do
    let (frames, f) ← f.receive order chunk
    let (frames', f) ← receiveAll order f chunks
    return (frames ++ frames', f)

/-- A push that does not throw adds the bytes. -/
theorem push_ok {f f' : TcpFramer} {data : Bytes} (h : f.push data = .ok f') :
    f' = { f with buffer := f.buffer ++ data } := by
  unfold TcpFramer.push at h
  split_ifs at h
  cases h
  rfl

theorem bind_eq_ok {ε α β : Type} {x : Except ε α} {g : α → Except ε β} {r : β} :
    x >>= g = .ok r ↔ ∃ a, x = .ok a ∧ g a = .ok r := by
  cases x with
  | error e => simp [bind, Except.bind]
  | ok a => simp [bind, Except.bind]

/-- What arrives without an exception is drained chunk by chunk. -/
theorem chunks_receiveAll (order : ByteOrder) {chunks : List Bytes} {f f' : TcpFramer} {frames : List Bytes}
    (h : f.receiveAll order chunks = .ok (frames, f')) :
    Decoder.Drains.Chunks (framing order) f chunks frames f' := by
  induction chunks generalizing f frames with
  | nil =>
    cases h
    exact .nil _
  | cons chunk chunks ih =>
    obtain ⟨⟨frames₁, f₁⟩, hreceive, h⟩ := bind_eq_ok.mp h
    obtain ⟨⟨frames₂, f₂⟩, hrest, h⟩ := bind_eq_ok.mp h
    obtain ⟨f₀, hpush, hdrain⟩ := bind_eq_ok.mp hreceive
    cases h
    have hdrains := Decoder.drain_drains (D := framing order) f₀
    rw [show (framing order).drain f₀ = (frames₁, f₁) from Except.ok.inj hdrain, push_ok hpush] at hdrains
    exact .cons hdrains (ih hrest)

/-- Frames that are all there are drained to their payloads. -/
theorem drains_frames (order : ByteOrder) {payloads : List Bytes}
    (hlen : ∀ payload ∈ payloads, payload.length ≤ 65535) (maxFrameSize : ℕ) :
    (framing order).Drains
      ((framing order).extend (TcpFramer.create maxFrameSize) (payloads.flatMap (frameOf order))) payloads
      (TcpFramer.create maxFrameSize) := by
  apply Decoder.Drains.encoded
  · exact rfl
  · exact fun payload hp rest => nextFrame_frameOf order _ (hlen payload hp) rfl

/-- **The framer undoes the encoder**, in either byte order and under any segmentation: of
payloads of at most 65535 bytes, encoded one after another, and the stream cut into
chunks in any way, the frames taken are the payloads, in order, and nothing is left in
the buffer, if no push throws. -/
theorem framer_undoes_encoder (order : ByteOrder) {payloads : List Bytes}
    (hlen : ∀ payload ∈ payloads, payload.length ≤ 65535) {chunks : List Bytes}
    (hcut : chunks.flatten = encodeAll order payloads) (maxFrameSize : ℕ) {frames : List Bytes} {f : TcpFramer}
    (hok : (TcpFramer.create maxFrameSize).receiveAll order chunks = .ok (frames, f)) :
    frames = payloads ∧ f.buffer = [] := by
  have hfresh : (framing order).next (TcpFramer.create maxFrameSize) = none := rfl
  have hframes := Decoder.Drains.chunks hfresh (chunks_receiveAll order hok)
  rw [hcut, encodeAll_eq] at hframes
  obtain ⟨rfl, rfl⟩ := hframes.unique (drains_frames order hlen maxFrameSize)
  exact ⟨rfl, rfl⟩

/-- Two payloads, the second empty, in chunks cut inside the first length and inside the
first payload. -/
theorem framer_undoes_encoder_cut :
    (TcpFramer.create 16).receiveAll .little [[2], [0, 7], [8, 0, 0]] = .ok ([[7, 8], []], ⟨[], 16⟩) ∧
      ([[7, 8], []] : List Bytes) = [[7, 8], []] ∧ (⟨[], 16⟩ : TcpFramer).buffer = [] := by
  have hok : (TcpFramer.create 16).receiveAll .little [[2], [0, 7], [8, 0, 0]] =
      .ok ([[7, 8], []], ⟨[], 16⟩) := by rfl
  exact ⟨hok, framer_undoes_encoder .little (by decide) (by decide) 16 hok⟩

end Scrimmage.Networking
