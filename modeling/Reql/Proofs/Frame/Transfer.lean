import Reql.Proofs.Frame.Stream
import Reql.Proofs.Frame.Writing

/-! Frames on their way from a writer to a reader at the other end of its stream. -/
namespace Reql

/-- What the owner of a writer does before closing it. A flush that is given up on has written
some of the bytes that wait. -/
inductive WriterCall where
  | feed (frame : Frame)
  | send (frame : Frame)
  | flush
  | flushPart (written : Nat)
deriving DecidableEq, Repr

namespace WriterCall

def frame? : WriterCall → Option Frame
  | .feed f | .send f => some f
  | .flush | .flushPart _ => none

def submitted (calls : List WriterCall) : List Frame :=
  calls.filterMap frame?

/-- The reason for which the call is refused whatever the state of the stream. -/
def refusal? (limit : FrameLimit) (call : WriterCall) : Option FramingError :=
  call.frame?.bind fun f => f.refusal? limit

end WriterCall

def Frame.accepted (limit : FrameLimit) (frames : List Frame) : List Frame :=
  frames.filter fun f => f.payload.length ≤ limit.bytes

theorem Frame.accepted_append (limit : FrameLimit) (frames frames' : List Frame) :
    accepted limit (frames ++ frames') = accepted limit frames ++ accepted limit frames' :=
  List.filter_append ..

namespace FrameWriter

/-- The error that a call meets, if any, and the writer afterwards. -/
def call (w : FrameWriter) : WriterCall → Option FramingError × FrameWriter
  | .feed f => w.feed f
  | .send f => w.send f
  | .flush => w.flush
  | .flushPart n => (none, w.drain n)

/-- What the calls meet one after the other, and the writer afterwards. -/
def calls (w : FrameWriter) : List WriterCall → List (Option FramingError) × FrameWriter
  | [] => ([], w)
  | c :: cs =>
    let (result, w) := w.call c
    let (results, w) := w.calls cs
    (result :: results, w)

/-- The bytes that have been delivered and those that wait are the given frames, and the stream
takes every byte. -/
structure Carries (w : FrameWriter) (limit : FrameLimit) (frames : List Frame) : Prop where
  limit_eq : w.limit = limit
  works : w.Works
  bytes_eq : w.link.delivered ++ w.buffer = frames.flatMap Frame.bytes

namespace Carries

variable {w : FrameWriter} {limit : FrameLimit} {frames : List Frame}

theorem start (limit : FrameLimit) : (FrameWriter.start limit).Carries limit [] :=
  ⟨rfl, ⟨rfl, rfl⟩, rfl⟩

theorem drain (h : w.Carries limit frames) (n : Nat) : (w.drain n).Carries limit frames := by
  refine ⟨h.limit_eq, h.works, ?_⟩
  rw [← h.bytes_eq]
  simp [FrameWriter.drain, deliver]

theorem flush (h : w.Carries limit frames) :
    w.flush.1 = none ∧ w.flush.2.Carries limit frames := by
  rw [flush_eq_drain h.works]
  exact ⟨rfl, h.drain _⟩

/-- A frame within the limit waits behind the others, another one is refused and leaves no byte. -/
theorem feed (h : w.Carries limit frames) (f : Frame) : (w.feed f).1 = f.refusal? limit ∧
    (w.feed f).2.Carries limit (frames ++ Frame.accepted limit [f]) := by
  -- Bytes that wait are written to make room, also for a frame that is then refused.
  obtain ⟨n, hroom⟩ := makeRoom_eq_drain h.works
  have hdrain := h.drain n
  by_cases hf : f.payload.length ≤ limit.bytes
  · have hfeed : w.feed f = (none, { w.drain n with buffer := (w.drain n).buffer ++ f.bytes }) := by
      simp only [FrameWriter.feed, hroom, hdrain.limit_eq, Frame.encode_of_le hf]
    rw [hfeed, Frame.refusal?, if_neg (Nat.not_lt.mpr hf)]
    refine ⟨rfl, hdrain.limit_eq, hdrain.works, ?_⟩
    simp [Frame.accepted, hf, ← hdrain.bytes_eq]
  · have hlt : limit.bytes < f.payload.length := Nat.lt_of_not_le hf
    have hfeed : w.feed f =
        (some (.frameTooLarge f.payload.length limit.bytes), w.drain n) := by
      simp only [FrameWriter.feed, hroom, hdrain.limit_eq, Frame.encode, if_pos hlt]
    rw [hfeed, Frame.refusal?, if_pos hlt]
    refine ⟨rfl, ?_⟩
    simpa [Frame.accepted, hf] using hdrain

theorem send (h : w.Carries limit frames) (f : Frame) : (w.send f).1 = f.refusal? limit ∧
    (w.send f).2.Carries limit (frames ++ Frame.accepted limit [f]) := by
  obtain ⟨hresult, hfed⟩ := h.feed f
  unfold FrameWriter.send
  split
  next e w' hw =>
    rw [hw] at hresult hfed
    exact ⟨hresult, hfed⟩
  next w' hw =>
    rw [hw] at hresult hfed
    obtain ⟨hnone, hflushed⟩ := hfed.flush
    exact ⟨hnone.trans hresult, hflushed⟩

theorem call (h : w.Carries limit frames) (c : WriterCall) :
    (w.call c).1 = c.refusal? limit ∧
      (w.call c).2.Carries limit (frames ++ Frame.accepted limit c.frame?.toList) := by
  have hnothing : frames ++ Frame.accepted limit [] = frames := List.append_nil frames
  cases c with
  | feed f => exact h.feed f
  | send f => exact h.send f
  | flush =>
    rw [WriterCall.frame?, Option.toList_none, hnothing]
    exact h.flush
  | flushPart n =>
    rw [WriterCall.frame?, Option.toList_none, hnothing]
    exact ⟨rfl, h.drain n⟩

theorem calls (h : w.Carries limit frames) (cs : List WriterCall) :
    (w.calls cs).1 = cs.map (·.refusal? limit) ∧ (w.calls cs).2.Carries limit
      (frames ++ Frame.accepted limit (WriterCall.submitted cs)) := by
  induction cs generalizing w frames with
  | nil => simpa [FrameWriter.calls, WriterCall.submitted, Frame.accepted] using h
  | cons c cs ih =>
    obtain ⟨hresult, hc⟩ := h.call c
    obtain ⟨hresults, hcs⟩ := ih hc
    have hsubmitted : WriterCall.submitted (c :: cs) =
        c.frame?.toList ++ WriterCall.submitted cs := by
      cases c <;> rfl
    rw [hsubmitted, Frame.accepted_append, ← List.append_assoc]
    refine ⟨?_, hcs⟩
    rw [List.map_cons, ← hresult, ← hresults]
    rfl

/-- What has been delivered is the beginning of the frames. -/
theorem delivered_prefix (h : w.Carries limit frames) :
    w.link.delivered <+: frames.flatMap Frame.bytes :=
  ⟨w.buffer, h.bytes_eq⟩

/-- With the stream everything is delivered. -/
theorem close (h : w.Carries limit frames) : w.close.1 = none ∧ w.close.2.link.ended = true ∧
    w.close.2.link.delivered = frames.flatMap Frame.bytes := by
  have hclose : w.close = (none, { w.drain w.buffer.length with
      link := { (w.drain w.buffer.length).link with ended := true } }) := by
    have hfault : (w.drain w.buffer.length).link.fault = none := h.works.1
    simp only [FrameWriter.close, flush_eq_drain h.works, Link.shutDown, hfault]
  rw [hclose]
  refine ⟨rfl, rfl, ?_⟩
  rw [← h.bytes_eq]
  simp [FrameWriter.drain, deliver]

end Carries

end FrameWriter

/-- Of a stream that holds frames within the limit and nothing else, these are read and then its
end. -/
theorem FrameReader.items_frames {limit : FrameLimit} {frames : List Frame}
    (hframes : ∀ f ∈ frames, f.payload.length ≤ limit.bytes) {chunks : List Bytes}
    (h : chunks.flatten = frames.flatMap Frame.bytes) :
    items limit chunks = frames.map .frame ++ [.ended] := by
  have hstuck (f : Frame) (tail : Bytes) : ¬Frame.Leads limit [] f tail :=
    fun hl => absurd hl.size_le (by decide)
  have hparse : Parse limit chunks.flatten frames [] :=
    Parse.iff_maximal.mpr ⟨by rw [h, List.append_nil], hframes, hstuck⟩
  rw [items_eq chunks hparse, closing, if_neg (Frame.not_oversize_nil limit), if_pos rfl]

namespace FrameWriter

/-- After whatever calls on a writer whose stream takes every byte: just the frames over the limit
have been refused, the bytes delivered are the beginning of the accepted ones, and if the writer is
closed now, a reader at the other end gets these and then the end of the stream, however it is cut.
A time inside a call is one after calls of which the last has flushed a part. -/
theorem transfer_exact (limit : FrameLimit) (cs : List WriterCall) :
    let accepted := Frame.accepted limit (WriterCall.submitted cs)
    let (results, w) := (start limit).calls cs
    results = cs.map (·.refusal? limit) ∧
      w.link.delivered <+: accepted.flatMap Frame.bytes ∧
      w.close.1 = none ∧ w.close.2.link.ended = true ∧
      w.close.2.link.delivered = accepted.flatMap Frame.bytes ∧
      ∀ chunks, chunks.flatten = w.close.2.link.delivered →
        FrameReader.items limit chunks = accepted.map .frame ++ [.ended] := by
  obtain ⟨hresults, hcarries⟩ := (Carries.start limit).calls cs
  obtain ⟨hclose, hended, hdelivered⟩ := hcarries.close
  refine ⟨hresults, hcarries.delivered_prefix, hclose, hended, hdelivered, fun chunks hchunks => ?_⟩
  refine FrameReader.items_frames (fun f hf => ?_) (hchunks.trans hdelivered)
  exact of_decide_eq_true (List.mem_filter.mp hf).2

/-- A refused frame between two others, and a flush that is given up on inside a header. -/
theorem transfer_exact_refused :
    let limit : FrameLimit := .ofNat 2
    let cs := [.feed ⟨1, [91, 93]⟩, .flushPart 5, .send ⟨2, [91, 50, 93]⟩, .send ⟨3, []⟩]
    let chunks : List Bytes := [[1, 0, 0, 0, 0, 0], [0, 0, 2, 0, 0, 0, 91, 93, 3, 0, 0, 0, 0],
      [0, 0, 0, 0, 0, 0, 0]]
    let (results, w) := (start limit).calls cs
    chunks.flatten = w.close.2.link.delivered ∧
      results = [none, none, some (.frameTooLarge 3 2), none] ∧
      FrameReader.items limit chunks = [.frame ⟨1, [91, 93]⟩, .frame ⟨3, []⟩, .ended] := by
  intro limit cs chunks
  obtain ⟨hresults, -, -, -, -, hread⟩ := transfer_exact limit cs
  have hchunks : chunks.flatten = ((start limit).calls cs).2.close.2.link.delivered := by decide
  exact ⟨hchunks, hresults, hread chunks hchunks⟩

end FrameWriter
end Reql
