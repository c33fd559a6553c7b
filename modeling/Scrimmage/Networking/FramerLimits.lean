import Scrimmage.Networking.FramerCalls

/-!
# What the framer and the encoder cannot take

Two bounds that are not where they seem to be. `_maxFrameSize` bounds what is buffered, the
rest of one frame and all of the next chunk, so whether a `push` throws depends on how the
stream is cut; and `encode` cuts the length to its low 16 bits, but not the payload.

## What is proved

* `never_throws_iff`: the pushes of a stream of frames, drained one by one, that do not throw.
* `encode_decodes_iff`: the payloads that are taken from the stream as they were encoded.
* `push_throws`, `wide_payload_lost`: frames within the limit whose push throws, and a
  payload of `65536` bytes that is taken for an empty one.
-/

namespace Scrimmage.Networking

open Theory

/-! ### The limit -/

/-- Of the first `n` bytes of some frames, how many are after the last frame that is complete. -/
def leftover : List Bytes → ℕ → ℕ
  | [], n => n
  | payload :: payloads, n => if 2 + payload.length ≤ n then leftover payloads (n - (2 + payload.length)) else n

/-- A push that does not throw is within the limit. -/
theorem push_ok_iff (f : TcpFramer) (data : Bytes) :
    (∃ f', f.push data = .ok f') ↔ (f.buffer.length + data.length) % 2 ^ 64 ≤ f.maxFrameSize := by
  rw [TcpFramer.push]
  split_ifs with hover
  · refine iff_of_false ?_ (Nat.not_le.mpr hover)
    rintro ⟨f', hf'⟩
    cases hf'
  · exact iff_of_true ⟨_, rfl⟩ (Nat.not_lt.mp hover)

theorem length_frameOf (order : ByteOrder) (payload : Bytes) : (frameOf order payload).length = 2 + payload.length := by
  simp [frameOf]

/-- The first bytes of a frame, and not all of them, are no frame. -/
theorem nextFrame_of_part (order : ByteOrder) {f : TcpFramer} {payload rest : Bytes}
    (hlen : payload.length ≤ 65535) (hpart : f.buffer <+: frameOf order payload ++ rest)
    (hshort : f.buffer.length < 2 + payload.length) : f.nextFrame order = none := by
  rw [TcpFramer.nextFrame]
  split_ifs with h2
  · rfl
  · have htake : f.buffer.take 2 = order.store (UInt16.ofNat payload.length) := by
      obtain ⟨more, hmore⟩ := hpart
      have hboth : (f.buffer ++ more).take 2 = f.buffer.take 2 := List.take_append_of_le_length (by omega)
      rw [← hboth, hmore, frameOf, List.append_assoc, List.take_append_of_le_length (by simp),
        List.take_of_length_le (by simp)]
    have hsize : (UInt16.ofNat payload.length).toNat = payload.length := by
      rw [UInt16.toNat_ofNat']
      omega
    simp [htake, hsize, hshort]

/-- **What is left in the buffer** when the first bytes of some frames have been drained. -/
theorem drains_leftover (order : ByteOrder) {payloads : List Bytes}
    (hlen : ∀ payload ∈ payloads, payload.length ≤ 65535) {f f' : TcpFramer} {frames : List Bytes}
    (hpart : f.buffer <+: payloads.flatMap (frameOf order)) (h : (framing order).Drains f frames f') :
    f'.buffer.length = leftover payloads f.buffer.length ∧ f'.maxFrameSize = f.maxFrameSize := by
  induction payloads generalizing f frames with
  | nil =>
    have hnil : f.buffer = [] := List.prefix_nil.mp hpart
    have hnext : (framing order).next f = none := by
      show f.nextFrame order = none
      simp [TcpFramer.nextFrame, hnil]
    obtain ⟨-, rfl⟩ := h.unique (.done hnext)
    exact ⟨by rw [hnil]; rfl, rfl⟩
  | cons payload payloads ih =>
    rw [List.flatMap_cons] at hpart
    have hp := hlen payload (List.mem_cons_self ..)
    rw [leftover]
    split_ifs with hfull
    · -- the frame is complete: it is taken, and what is after it is drained
      have hframe : frameOf order payload <+: f.buffer := by
        apply List.prefix_of_prefix_length_le (List.prefix_append ..) hpart
        rw [length_frameOf]
        exact hfull
      obtain ⟨rest, hrest⟩ := hframe
      have hnext : (framing order).next f = some (payload, { f with buffer := rest }) :=
        nextFrame_frameOf order f hp hrest.symm
      have hpart' : rest <+: payloads.flatMap (frameOf order) := by
        rw [← hrest] at hpart
        exact (List.prefix_append_right_inj _).mp hpart
      have hsize : f.buffer.length - (2 + payload.length) = rest.length := by
        rw [← hrest, List.length_append, length_frameOf]
        omega
      rw [hsize]
      cases h with
      | done hnone =>
        rw [hnext] at hnone
        cases hnone
      | take hsome h =>
        rw [hnext] at hsome
        cases hsome
        exact ih (fun payload' hm => hlen payload' (List.mem_cons_of_mem payload hm)) hpart' h
    · have hnext : (framing order).next f = none := nextFrame_of_part order hp hpart (by omega)
      obtain ⟨-, rfl⟩ := h.unique (.done hnext)
      exact ⟨rfl, rfl⟩

/-- The pushes of the chunks that come after the bytes `start`, which have been drained. -/
theorem receiveAll_ok_iff (order : ByteOrder) {payloads : List Bytes}
    (hlen : ∀ payload ∈ payloads, payload.length ≤ 65535) (maxFrameSize : ℕ) {chunks : List Bytes} :
    ∀ {start : Bytes} {f : TcpFramer} {frames : List Bytes},
      start ++ chunks.flatten = payloads.flatMap (frameOf order) →
      (framing order).Drains ((framing order).extend (TcpFramer.create maxFrameSize) start) frames f →
      ((∃ r, f.receiveAll order chunks = .ok r) ↔ ∀ k (hk : k < chunks.length),
        (leftover payloads (start ++ (chunks.take k).flatten).length + chunks[k].length) % 2 ^ 64 ≤ maxFrameSize) := by
  induction chunks with
  | nil =>
    intro start f frames _ _
    exact iff_of_true ⟨_, rfl⟩ fun k hk => absurd hk (Nat.not_lt_zero k)
  | cons chunk chunks ih =>
    intro start f frames hcut hdrains
    obtain ⟨hsize, hmax⟩ := drains_leftover order hlen ⟨_, hcut⟩ hdrains
    change f.buffer.length = leftover payloads start.length at hsize
    change f.maxFrameSize = maxFrameSize at hmax
    have hpush := push_ok_iff f chunk
    rw [hsize, hmax] at hpush
    cases hf : f.push chunk with
    | error text =>
      have hover : ¬ (leftover payloads start.length + chunk.length) % 2 ^ 64 ≤ maxFrameSize := by
        rw [← hpush, hf]
        rintro ⟨f', hf'⟩
        cases hf'
      refine iff_of_false ?_ fun hall => hover ?_
      · rintro ⟨r, hr⟩
        simp [TcpFramer.receiveAll, TcpFramer.receive, hf, bind, Except.bind] at hr
      · simpa using hall 0 (Nat.succ_pos _)
    | ok f₀ =>
      have hfits : (leftover payloads start.length + chunk.length) % 2 ^ 64 ≤ maxFrameSize := hpush.mp ⟨f₀, hf⟩
      have hchunk := Decoder.drain_drains (D := framing order) f₀
      generalize hdrain : (framing order).drain f₀ = drained at hchunk
      obtain ⟨frames₁, f₁⟩ := drained
      have hall : (framing order).Drains ((framing order).extend (TcpFramer.create maxFrameSize) (start ++ chunk))
          (frames ++ frames₁) f₁ := by
        rw [← (framing order).extend_append]
        apply hdrains.extend
        rw [push_ok hf] at hchunk
        exact hchunk
      have hrest := ih (by rw [← hcut]; simp) hall
      have hreceive : f.receiveAll order (chunk :: chunks) =
          (f₁.receiveAll order chunks).map fun r => (frames₁ ++ r.1, r.2) := by
        simp only [TcpFramer.receiveAll, TcpFramer.receive, hf, bind, Except.bind, pure, Except.pure, hdrain]
        cases f₁.receiveAll order chunks <;> rfl
      have hmap : (∃ r, f.receiveAll order (chunk :: chunks) = .ok r) ↔ ∃ r, f₁.receiveAll order chunks = .ok r := by
        rw [hreceive]
        cases f₁.receiveAll order chunks <;> simp [Except.map]
      rw [hmap, hrest]
      constructor
      · intro h k hk
        cases k with
        | zero => simpa using hfits
        | succ k => simpa using h k (Nat.lt_of_succ_lt_succ hk)
      · intro h k hk
        simpa using h (k + 1) (Nat.succ_lt_succ hk)

/-- **When no push throws.** The bytes of some frames come in chunks, and each chunk is drained
before the next is pushed: no push throws exactly when, at each chunk, what is left over
from those before it and the chunk have together, as a `size_t`, at most `_maxFrameSize`
bytes. -/
theorem never_throws_iff (order : ByteOrder) {payloads : List Bytes}
    (hlen : ∀ payload ∈ payloads, payload.length ≤ 65535) {chunks : List Bytes}
    (hcut : chunks.flatten = encodeAll order payloads) (maxFrameSize : ℕ) :
    (∃ r, (TcpFramer.create maxFrameSize).receiveAll order chunks = .ok r) ↔ ∀ k (hk : k < chunks.length),
      (leftover payloads (chunks.take k).flatten.length + chunks[k].length) % 2 ^ 64 ≤ maxFrameSize := by
  rw [encodeAll_eq] at hcut
  have hfresh : (framing order).Drains ((framing order).extend (TcpFramer.create maxFrameSize) []) []
      (TcpFramer.create maxFrameSize) := .done rfl
  exact receiveAll_ok_iff order hlen maxFrameSize (by simpa using hcut) hfresh

/-- Two frames of three bytes, in chunks of three bytes, and three for the limit. -/
theorem never_throws_three : ∃ r, (TcpFramer.create 3).receiveAll .little [[1, 0, 7], [1, 0, 8]] = .ok r := by
  have hcut : ([[1, 0, 7], [1, 0, 8]] : List Bytes).flatten = encodeAll .little [[7], [8]] := by decide
  refine (never_throws_iff .little (by decide) hcut 3).mpr fun k hk => ?_
  match k, hk with
  | 0, _ => exact (by decide : (leftover [[7], [8]] 0 + 3) % 2 ^ 64 ≤ 3)
  | 1, _ => exact (by decide : (leftover [[7], [8]] 3 + 3) % 2 ^ 64 ≤ 3)

/-- The same frames, no frame and no chunk of more than three bytes, cut in another way: the
second push throws. -/
theorem push_throws :
    (∀ payload ∈ ([[7], [8]] : List Bytes), (frameOf .little payload).length ≤ 3) ∧
    (∀ chunk ∈ ([[1, 0], [7, 1, 0], [8]] : List Bytes), chunk.length ≤ 3) ∧
    ([[1, 0], [7, 1, 0], [8]] : List Bytes).flatten = encodeAll .little [[7], [8]] ∧
    (TcpFramer.create 3).receiveAll .little [[1, 0], [7, 1, 0], [8]] = .error "TCP framer buffer overflow" := by
  exact ⟨by decide, by decide, by decide, rfl⟩

/-! ### The width of the length -/

/-- A frame that is received first has a length that the header can hold. -/
theorem length_of_receive {order : ByteOrder} {f f' : TcpFramer} {data frame : Bytes} {frames : List Bytes}
    (h : f.receive order data = .ok (frame :: frames, f')) : frame.length ≤ 65535 := by
  obtain ⟨f₀, -, hdrain⟩ := bind_eq_ok.mp h
  have hdrains := Decoder.drain_drains (D := framing order) f₀
  rw [Except.ok.inj hdrain] at hdrains
  cases hdrains with
  | take hnext _ => exact (nextFrame_split hnext).2

/-- **Which payloads are taken as they were encoded.** A payload of any length, and one of at
most `65535` bytes after it, encoded into one vector and given to a framer that may hold
them all: the frames taken are the first payload and the second, and no others, exactly
when the length of the first fits in the 16 bits of the header. -/
theorem encode_decodes_iff (order : ByteOrder) {first second : Bytes} (hsecond : second.length ≤ 65535)
    {maxFrameSize : ℕ} (hlimit : (encode order second (encode order first [])).length ≤ maxFrameSize)
    (hsize : maxFrameSize < 2 ^ 64) :
    (∃ f, (TcpFramer.create maxFrameSize).receive order (encode order second (encode order first [])) =
      .ok ([first, second], f)) ↔ first.length ≤ 65535 := by
  have hpush : (TcpFramer.create maxFrameSize).push (encode order second (encode order first [])) =
      .ok ((framing order).extend (TcpFramer.create maxFrameSize) (encode order second (encode order first []))) := by
    rw [TcpFramer.push, Nat.mod_eq_of_lt]
    · simp [TcpFramer.create, framing, hlimit]
    · simp only [TcpFramer.create, List.length_nil, Nat.zero_add]
      omega
  have hreceive : (TcpFramer.create maxFrameSize).receive order (encode order second (encode order first [])) =
      .ok ((framing order).drain
        ((framing order).extend (TcpFramer.create maxFrameSize) (encode order second (encode order first [])))) := by
    rw [TcpFramer.receive, hpush]
    rfl
  constructor
  · rintro ⟨f, hf⟩
    exact length_of_receive hf
  · intro hfirst
    have hboth : encode order second (encode order first []) = [first, second].flatMap (frameOf order) := by
      simp [encode_eq]
    have hlen : ∀ payload ∈ [first, second], payload.length ≤ 65535 := by simp [hfirst, hsecond]
    have hframes := drains_frames order hlen maxFrameSize
    rw [← hboth] at hframes
    obtain ⟨hcs, -⟩ := (Decoder.drain_drains _).unique hframes
    exact ⟨_, hreceive.trans (congrArg Except.ok (Prod.ext hcs rfl))⟩

/-- Two payloads of one byte. -/
theorem encode_decodes_one : ∃ f, (TcpFramer.create 6).receive .big (encode .big [8] (encode .big [7] [])) =
    .ok ([[7], [8]], f) :=
  (encode_decodes_iff .big (by decide) (by decide) (by decide)).mpr (by decide)

/-- **A payload of `65536` bytes**: its length is stored as `0`, the first frame taken is empty,
and what comes next is taken from inside the payload. -/
theorem wide_payload_lost :
    let first : Bytes := List.replicate 65536 7
    let bytes := encode .little [] (encode .little first [])
    bytes.length ≤ 65540 ∧
    (∃ rest, TcpFramer.nextFrame .little ⟨bytes, 65540⟩ = some ([], ⟨7 :: rest, 65540⟩)) ∧
    ¬ ∃ f, (TcpFramer.create 65540).receive .little bytes = .ok ([first, []], f) := by
  intro first bytes
  have hfirst : first.length = 65536 := List.length_replicate ..
  have hbytes : bytes = frameOf .little first ++ frameOf .little [] := by
    show encode .little [] (encode .little first []) = _
    rw [encode_eq, encode_eq, List.nil_append]
  have hheader : frameOf .little first = frameOf .little [] ++ first := by
    rw [frameOf, hfirst]
    rfl
  refine ⟨?_, ⟨List.replicate 65535 7 ++ frameOf .little [], ?_⟩, ?_⟩
  · rw [hbytes, List.length_append, length_frameOf, length_frameOf, hfirst]
    decide
  · have hempty : ([] : Bytes).length ≤ 65535 := by decide
    apply nextFrame_frameOf .little ⟨bytes, 65540⟩ hempty
    have hsucc : first = 7 :: List.replicate 65535 7 := List.replicate_succ
    show bytes = _
    rw [hbytes, hheader, hsucc, List.append_assoc, List.cons_append]
  · rintro ⟨f, hf⟩
    have hwide := length_of_receive hf
    omega

end Scrimmage.Networking
