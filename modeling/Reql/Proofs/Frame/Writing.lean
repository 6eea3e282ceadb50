import Reql.Frame.Writer
import Reql.Proofs.Frame.Codec

/-! What a writer does with frames and the bytes that wait. -/
namespace Reql

namespace FrameWriter

@[simp] theorem flush_limit (w : FrameWriter) : w.flush.2.limit = w.limit := by
  unfold flush
  split
  · rfl
  · split <;> rfl

/-- Only the stream itself can refuse bytes that have been accepted. -/
theorem flush_error {w : FrameWriter} {e : FramingError} (h : w.flush.1 = some e) :
    ∃ reason, e = .io reason := by
  unfold flush Link.write at h
  split at h
  · cases h
  · split at h
    · cases h
    next hw =>
      simp only [Option.some.injEq] at h
      subst h
      split at hw
      · simp only [Prod.mk.injEq, Option.some.injEq] at hw
        exact ⟨_, hw.1.symm⟩
      · split at hw
        · simp only [Prod.mk.injEq, Option.some.injEq] at hw
          exact ⟨_, hw.1.symm⟩
        · cases hw

theorem buffer_of_flush {w w' : FrameWriter} (h : w.flush = (none, w')) : w'.buffer = [] := by
  unfold flush at h
  split at h
  next hempty =>
    cases h
    exact List.isEmpty_iff.mp hempty
  · split at h <;> cases h
    rfl

@[simp] theorem makeRoom_limit (w : FrameWriter) : w.makeRoom.2.limit = w.limit := by
  unfold makeRoom
  split
  · rfl
  · exact flush_limit w

theorem makeRoom_error {w : FrameWriter} {e : FramingError} (h : w.makeRoom.1 = some e) :
    ∃ reason, e = .io reason := by
  unfold makeRoom at h
  split at h
  · cases h
  · exact flush_error h

/-- Writing bytes out neither ends the stream nor lets it fail. -/
theorem flush_link (w : FrameWriter) :
    w.flush.2.link.fault = w.link.fault ∧ w.flush.2.link.ended = w.link.ended := by
  unfold flush Link.write
  split
  · exact ⟨rfl, rfl⟩
  · cases hfault : w.link.fault <;> cases hended : w.link.ended <;> simp [hfault, hended]

theorem makeRoom_link (w : FrameWriter) :
    w.makeRoom.2.link.fault = w.link.fault ∧ w.makeRoom.2.link.ended = w.link.ended := by
  unfold makeRoom
  split
  · exact ⟨rfl, rfl⟩
  · exact w.flush_link

/-- Closing ends the stream unless that has failed. -/
theorem close_link (w : FrameWriter) : w.close.2.link.fault = w.link.fault ∧
    w.close.2.link.ended = (w.link.ended || w.link.fault.isNone) := by
  unfold close flush Link.write Link.shutDown
  cases hempty : w.buffer.isEmpty <;> cases hfault : w.link.fault <;>
    cases hended : w.link.ended <;> simp [hfault, hended]

end FrameWriter

/-- The reason for which a frame is refused whatever the state of the stream. -/
def Frame.refusal? (f : Frame) (limit : FrameLimit) : Option FramingError :=
  if limit.bytes < f.payload.length then some (.frameTooLarge f.payload.length limit.bytes)
  else none

/-- Encoding fails for no other reason: the limit fits the length field. -/
theorem Frame.encode_eq (f : Frame) (limit : FrameLimit) (buffer : Bytes) :
    (∃ e, f.refusal? limit = some e ∧ f.encode limit buffer = .error e) ∨
      (f.refusal? limit = none ∧ ∃ bytes, f.encode limit buffer = .ok bytes) := by
  by_cases h : limit.bytes < f.payload.length
  · exact .inl ⟨_, by rw [refusal?, if_pos h], by rw [encode, if_pos h]⟩
  · exact .inr ⟨by rw [refusal?, if_neg h], _, encode_of_le (Nat.le_of_not_lt h) buffer⟩

namespace FrameWriter

@[simp] theorem feed_limit (w : FrameWriter) (f : Frame) : (w.feed f).2.limit = w.limit := by
  have h := makeRoom_limit w
  unfold feed
  split
  next hw => simpa only [hw] using h
  next hw =>
    rw [hw] at h
    split <;> exact h

/-- Sending gives what is wrong with the frame itself, unless the stream fails. -/
theorem send_cases (w : FrameWriter) (f : Frame) :
    (w.send f).2.limit = w.limit ∧
      ((w.send f).1 = f.refusal? w.limit ∨ ∃ reason, (w.send f).1 = some (.io reason)) := by
  have hlimit := feed_limit w f
  unfold send
  cases hfeed : w.feed f with
  | mk e w' =>
    rw [hfeed] at hlimit
    have hfed : (∃ reason, e = some (.io reason)) ∨ e = f.refusal? w.limit := by
      have hroom := makeRoom_limit w
      unfold feed at hfeed
      split at hfeed
      next e₀ w₀ hr =>
        obtain ⟨reason, rfl⟩ := makeRoom_error (congrArg Prod.fst hr)
        exact Or.inl ⟨reason, (congrArg Prod.fst hfeed).symm⟩
      next w₀ hr =>
        rw [hr] at hroom
        right
        rcases f.encode_eq w₀.limit w₀.buffer with ⟨e₀, he, henc⟩ | ⟨he, bytes, henc⟩
        · rw [henc] at hfeed
          rw [← hroom, he]
          exact (congrArg Prod.fst hfeed).symm
        · rw [henc] at hfeed
          rw [← hroom, he]
          exact (congrArg Prod.fst hfeed).symm
    cases e with
    | some e => exact ⟨hlimit, hfed.elim (fun h => Or.inr h) Or.inl⟩
    | none =>
      have hnone : f.refusal? w.limit = none := by
        rcases hfed with ⟨_, h⟩ | h
        · cases h
        · exact h.symm
      refine ⟨(flush_limit w').trans hlimit, ?_⟩
      cases hflush : w'.flush.1 with
      | none => exact Or.inl hnone.symm
      | some e =>
        obtain ⟨reason, rfl⟩ := flush_error hflush
        exact Or.inr ⟨reason, rfl⟩

@[simp] theorem close_limit (w : FrameWriter) : w.close.2.limit = w.limit := by
  have h := flush_limit w
  unfold close
  split
  next hw => simpa only [hw] using h
  next hw => simpa only [hw] using h

/-- The stream takes every byte. -/
def Works (w : FrameWriter) : Prop :=
  w.link.fault = none ∧ w.link.ended = false

/-- The writer when more bytes have reached the other end. -/
def deliver (w : FrameWriter) (bytes : Bytes) : FrameWriter :=
  { w with link := { w.link with delivered := w.link.delivered ++ bytes } }

/-- The writer when the stream has taken this many of the bytes that wait. -/
def drain (w : FrameWriter) (n : Nat) : FrameWriter :=
  { w with buffer := w.buffer.drop n }.deliver (w.buffer.take n)

@[simp] theorem drain_zero (w : FrameWriter) : w.drain 0 = w := by
  simp [drain, deliver]

variable {w : FrameWriter}

theorem flush_eq_of_works (h : w.Works) (hb : w.buffer ≠ []) :
    w.flush = (none, { w with buffer := [] }.deliver w.buffer) := by
  obtain ⟨hfault, hended⟩ := h
  simp [flush, Link.write, deliver, hfault, hended, hb]

/-- A stream that takes every byte takes all that wait. -/
theorem flush_eq_drain (h : w.Works) : w.flush = (none, w.drain w.buffer.length) := by
  by_cases hb : w.buffer = []
  · rw [List.length_eq_zero_iff.mpr hb, drain_zero, flush, if_pos (List.isEmpty_iff.mpr hb)]
  · rw [flush_eq_of_works h hb, drain, List.take_length, List.drop_length]

theorem makeRoom_eq_drain (h : w.Works) : ∃ n, w.makeRoom = (none, w.drain n) := by
  unfold makeRoom
  split
  · exact ⟨0, by rw [drain_zero]⟩
  · exact ⟨w.buffer.length, flush_eq_drain h⟩

/-- A stream that takes every byte takes every frame within the limit. -/
theorem send_works (h : w.Works) {f : Frame} (hf : f.refusal? w.limit = none) :
    (w.send f).1 = none ∧ (w.send f).2.Works := by
  obtain ⟨n, hroom⟩ := makeRoom_eq_drain h
  rcases f.encode_eq (w.drain n).limit (w.drain n).buffer with ⟨e, he, -⟩ | ⟨-, bytes, henc⟩
  · cases hf.symm.trans he
  · have hworks : ({ w.drain n with buffer := bytes } : FrameWriter).Works := h
    have hsend : w.send f = ({ w.drain n with buffer := bytes } : FrameWriter).flush := by
      simp only [send, feed, hroom, henc]
    rw [hsend, flush_eq_drain hworks]
    exact ⟨rfl, hworks⟩

/-- A flush that fails leaves the writer as it is. -/
theorem flush_eq_of_not_works (h : ¬w.Works) (hb : w.buffer ≠ []) :
    ∃ e, w.flush = (some e, w) := by
  unfold Works at h
  unfold flush Link.write
  rw [if_neg (by simpa using hb)]
  cases hfault : w.link.fault with
  | some reason => exact ⟨_, rfl⟩
  | none =>
    have hended : w.link.ended = true := by simpa [hfault] using h
    exact ⟨.io "broken pipe", by simp [hended]⟩

end FrameWriter
end Reql
