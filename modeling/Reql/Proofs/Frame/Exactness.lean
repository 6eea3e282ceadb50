import Reql.Frame.Reader
import Reql.Proofs.Frame.Writing

/-! A codec moves exactly one frame or nothing, whatever its buffer holds and its limit is. -/
namespace Reql

/-- A payload that its length field can count is written as a frame in a stream. -/
theorem Frame.encodeFrame_eq {f : Frame} (h : f.payload.length < UInt32.size) :
    encodeFrame f.token f.payload = .ok f.bytes := by
  rw [encodeFrame, FrameHeader.ofPayload, if_pos h]
  rfl

namespace Frame

variable {limit : FrameLimit} {buffer rest : Bytes} {f : Frame}

/-- A frame leads exactly if it can be written within the limit and the buffer begins with what is
written then. -/
theorem leads_iff_encodeFrame : Leads limit buffer f rest ↔ f.payload.length ≤ limit.bytes ∧
    ∃ bytes, encodeFrame f.token f.payload = .ok bytes ∧ buffer = bytes ++ rest := by
  constructor
  · rintro ⟨hbuffer, hle⟩
    exact ⟨hle, f.bytes, encodeFrame_eq (Nat.lt_of_le_of_lt hle limit.fits), hbuffer⟩
  · rintro ⟨hle, bytes, hbytes, hbuffer⟩
    rw [encodeFrame_eq (Nat.lt_of_le_of_lt hle limit.fits)] at hbytes
    obtain rfl := Except.ok.inj hbytes
    exact ⟨hbuffer, hle⟩

theorem decode_eq_some_iff : decode limit buffer = .ok (some (f, rest)) ↔
    Leads limit buffer f rest := by
  refine ⟨fun h => ?_, decode_of_leads⟩
  rcases decode_cases limit buffer with ⟨-, hd⟩ | ⟨g, rest', hg, hd⟩ | ⟨-, -, hd⟩
  · cases hd.symm.trans h
  · cases hd.symm.trans h
    exact hg
  · cases hd.symm.trans h

theorem decode_eq_error_iff {e : FramingError} : decode limit buffer = .error e ↔
    Oversize limit buffer ∧ e = .frameTooLarge (FrameHeader.announced buffer) limit.bytes := by
  rcases decode_cases limit buffer with ⟨ho, hd⟩ | ⟨f, rest, hl, hd⟩ | ⟨ho, -, hd⟩
  · rw [hd, and_iff_right ho, Except.error.injEq, eq_comm]
  · rw [hd]
    simp [hl.not_oversize]
  · rw [hd]
    simp [ho]

/-- How long a buffer is that begins with a frame. -/
theorem Leads.length_eq (h : Leads limit buffer f rest) :
    FrameHeader.announced buffer = f.payload.length ∧
      buffer.length = FrameHeader.size + f.payload.length + rest.length := by
  obtain ⟨rfl, hle⟩ := h
  rw [announced_bytes hle, List.length_append, length_bytes, totalSize]
  exact ⟨rfl, rfl⟩

/-- A frame leads once as many bytes have come as the header announces. -/
theorem exists_leads_iff : (∃ f rest, Leads limit buffer f rest) ↔
    FrameHeader.announced buffer ≤ limit.bytes ∧
      FrameHeader.size + FrameHeader.announced buffer ≤ buffer.length := by
  constructor
  · rintro ⟨f, rest, hl⟩
    obtain ⟨hannounced, hlength⟩ := hl.length_eq
    have hle := hl.2
    omega
  · rintro ⟨hle, hlength⟩
    have hsize : FrameHeader.size ≤ buffer.length := by omega
    obtain ⟨head, -, hhead, hbuffer⟩ := FrameHeader.decode_take hsize
    let payload := (buffer.drop FrameHeader.size).take head.length.toNat
    have hpayload : payload.length = head.length.toNat := by
      simp only [payload, List.length_take, List.length_drop]
      omega
    have hbytes : (Frame.mk head.token payload).bytes = head.encode [] ++ payload := by
      rw [bytes, hpayload, UInt32.ofNat_toNat]
    refine ⟨⟨head.token, payload⟩, (buffer.drop FrameHeader.size).drop head.length.toNat, ?_, ?_⟩
    · rw [hbytes, List.append_assoc, List.take_append_drop]
      exact hbuffer
    · rw [hpayload, hhead]
      exact hle

theorem decode_eq_none_iff : decode limit buffer = .ok none ↔
    buffer.length < FrameHeader.size ∨ FrameHeader.announced buffer ≤ limit.bytes ∧
      buffer.length < FrameHeader.size + FrameHeader.announced buffer := by
  have hnone : decode limit buffer = .ok none ↔
      ¬Oversize limit buffer ∧ ¬∃ f rest, Leads limit buffer f rest := by
    rcases decode_cases limit buffer with ⟨ho, hd⟩ | ⟨f, rest, hl, hd⟩ | ⟨ho, hno, hd⟩
    · rw [hd]
      simp [ho]
    · rw [hd]
      have hleads : ∃ f rest, Leads limit buffer f rest := ⟨f, rest, hl⟩
      simp [hleads]
    · rw [hd]
      simpa [ho] using hno
  rw [hnone, exists_leads_iff, Oversize]
  omega

/-- What decoding does with a buffer. -/
structure DecodesExactly (limit : FrameLimit) (buffer : Bytes) : Prop where
  /-- A frame is taken as soon as one is complete whose announced length is within the limit. -/
  taken_iff : (∃ f rest, decode limit buffer = .ok (some (f, rest))) ↔
    FrameHeader.announced buffer ≤ limit.bytes ∧
      FrameHeader.size + FrameHeader.announced buffer ≤ buffer.length
  /-- The buffer is that frame as it is written, followed by the new buffer. -/
  split_iff : ∀ f rest, decode limit buffer = .ok (some (f, rest)) ↔
    f.payload.length ≤ limit.bytes ∧
      ∃ bytes, encodeFrame f.token f.payload = .ok bytes ∧ buffer = bytes ++ rest
  waits_iff : decode limit buffer = .ok none ↔
    buffer.length < FrameHeader.size ∨ FrameHeader.announced buffer ≤ limit.bytes ∧
      buffer.length < FrameHeader.size + FrameHeader.announced buffer
  /-- There is no error but that too much is announced. -/
  refused_iff : ∀ e, decode limit buffer = .error e ↔
    (FrameHeader.size ≤ buffer.length ∧ limit.bytes < FrameHeader.announced buffer) ∧
      e = .frameTooLarge (FrameHeader.announced buffer) limit.bytes
  /-- Where no frame is taken, a reader keeps all bytes. -/
  kept : ∀ steps, (∀ p, decode limit buffer ≠ .ok (some p)) →
    (FrameReader.takeFrames limit steps buffer).1 = [] ∧
      (FrameReader.takeFrames limit steps buffer).2.1 = buffer
  /-- At the end of the stream it is an error to wait with bytes in the buffer, -/
  last_waits : decode limit buffer = .ok none → decodeLast limit buffer =
    if 0 < buffer.length then .error (.truncated buffer.length) else .ok none
  /-- and nothing else is different. -/
  last_eq : decode limit buffer ≠ .ok none → decodeLast limit buffer = decode limit buffer

theorem decodesExactly (limit : FrameLimit) (buffer : Bytes) : DecodesExactly limit buffer where
  taken_iff := by
    simp only [decode_eq_some_iff]
    exact exists_leads_iff
  split_iff _ _ := decode_eq_some_iff.trans leads_iff_encodeFrame
  waits_iff := decode_eq_none_iff
  refused_iff _ := decode_eq_error_iff
  kept steps hno := by
    cases steps with
    | zero => exact ⟨rfl, rfl⟩
    | succ steps =>
      rw [FrameReader.takeFrames]
      split
      · exact ⟨rfl, rfl⟩
      · exact ⟨rfl, rfl⟩
      next p hp => exact absurd hp (hno _)
  last_waits hnone := by
    simp only [decodeLast, hnone]
    cases buffer <;> rfl
  last_eq hne := by
    unfold decodeLast
    split
    next hnone => exact absurd hnone hne
    · rfl

/-- What encoding does with a frame, behind the bytes of a buffer. -/
structure EncodesExactly (limit : FrameLimit) (f : Frame) (buffer : Bytes) : Prop where
  /-- A payload is accepted exactly if decoding under the same limit can yield it. -/
  accepted_iff : (∃ bytes, f.encode limit buffer = .ok bytes) ↔
    ∃ arrived token rest, decode limit arrived = .ok (some (⟨token, f.payload⟩, rest))
  /-- What is appended is the frame as it is written. -/
  appended_iff : ∀ bytes, f.encode limit buffer = .ok bytes ↔ f.payload.length ≤ limit.bytes ∧
    ∃ written, encodeFrame f.token f.payload = .ok written ∧ bytes = buffer ++ written
  /-- There is no error but that the payload is too long. -/
  refused_iff : ∀ e, f.encode limit buffer = .error e ↔ limit.bytes < f.payload.length ∧
    e = .frameTooLarge f.payload.length limit.bytes
  /-- When a frame is refused, a writer keeps its buffer as it is. -/
  kept : ∀ w w' : FrameWriter, w.limit = limit → limit.bytes < f.payload.length →
    w.makeRoom = (none, w') →
      w.feed f = (some (.frameTooLarge f.payload.length limit.bytes), w')

theorem encode_eq_ok_iff {bytes : Bytes} : f.encode limit buffer = .ok bytes ↔
    f.payload.length ≤ limit.bytes ∧ bytes = buffer ++ f.bytes := by
  constructor
  · intro h
    refine ⟨Nat.le_of_not_lt fun hlt => ?_, encode_eq_append h⟩
    rw [encode, if_pos hlt] at h
    cases h
  · rintro ⟨hle, rfl⟩
    exact encode_of_le hle buffer

theorem encode_eq_error_iff {e : FramingError} : f.encode limit buffer = .error e ↔
    limit.bytes < f.payload.length ∧ e = .frameTooLarge f.payload.length limit.bytes := by
  by_cases hle : f.payload.length ≤ limit.bytes
  · rw [encode_of_le hle]
    simp [Nat.not_lt.mpr hle]
  · have hlt := Nat.lt_of_not_le hle
    rw [encode, if_pos hlt, Except.error.injEq, eq_comm, and_iff_right hlt]

/-- A payload can arrive exactly if it is within the limit. -/
theorem exists_decode_iff {payload : Bytes} :
    (∃ arrived token rest, decode limit arrived = .ok (some (⟨token, payload⟩, rest))) ↔
      payload.length ≤ limit.bytes := by
  simp only [decode_eq_some_iff]
  constructor
  · rintro ⟨arrived, token, rest, hl⟩
    exact hl.2
  · intro hle
    exact ⟨_, 0, [], rfl, hle⟩

theorem encodesExactly (limit : FrameLimit) (f : Frame) (buffer : Bytes) :
    EncodesExactly limit f buffer where
  accepted_iff := by
    rw [exists_decode_iff]
    simp only [encode_eq_ok_iff, exists_and_left, exists_eq, and_true]
  appended_iff bytes := by
    rw [encode_eq_ok_iff]
    refine and_congr_right fun hle => ?_
    rw [encodeFrame_eq (Nat.lt_of_le_of_lt hle limit.fits)]
    simp
  refused_iff _ := encode_eq_error_iff
  kept w w' hlimit hlt hroom := by
    have hw' : w'.limit = limit := by
      have h := w.makeRoom_limit
      rw [hroom] at h
      exact h.trans hlimit
    have hrefused : f.encode limit w'.buffer = _ := encode_eq_error_iff.mpr ⟨hlt, rfl⟩
    simp only [FrameWriter.feed, hroom, hw', hrefused]

/-- Under whatever limit is asked for, cut to what the length field holds, decoding takes the one
frame that leads or nothing, encoding appends one frame or nothing, and what the header itself could
find wrong never is. -/
theorem codec_exact (requested : Nat) :
    let limit := FrameLimit.ofNat requested
    limit.bytes = min requested 0xFFFFFFFF ∧
      (∀ buffer, DecodesExactly limit buffer) ∧
      (∀ f buffer, EncodesExactly limit f buffer) ∧
      ∀ (e : ProtocolError) (f : Frame) (buffer : Bytes),
        decode limit buffer ≠ .error (.protocol e) ∧
          decodeLast limit buffer ≠ .error (.protocol e) ∧
          f.encode limit buffer ≠ .error (.protocol e) := by
  intro limit
  refine ⟨rfl, decodesExactly limit, encodesExactly limit, fun e f buffer => ?_⟩
  have hdecode : decode limit buffer ≠ .error (.protocol e) := by
    rw [Ne, decode_eq_error_iff]
    rintro ⟨-, h⟩
    cases h
  refine ⟨hdecode, ?_, ?_⟩
  · by_cases hnone : decode limit buffer = .ok none
    · rw [(decodesExactly limit buffer).last_waits hnone]
      split <;> simp
    · rw [(decodesExactly limit buffer).last_eq hnone]
      exact hdecode
  · rw [Ne, encode_eq_error_iff]
    rintro ⟨-, h⟩
    cases h

end Frame
end Reql
