import Reql.Proofs.Connection.Parts
import Reql.Proofs.Frame.Writing

/-! The writing direction of a connection, where requests become bytes until it is ended. -/
namespace Reql

/-- A request as it stands in a stream. -/
def Query.bytes (q : Query) : Bytes :=
  match q.payload with
  | .ok payload => (Frame.mk q.token payload).bytes
  | .error _ => []

theorem Query.bytes_of_payload {q : Query} {payload : Bytes} (h : q.payload = .ok payload) :
    q.bytes = (Frame.mk q.token payload).bytes := by
  simp only [bytes, h]

namespace FrameWriter

variable {w : FrameWriter}

/-- As long as the stream takes every byte, none waits. -/
def Flushed (w : FrameWriter) : Prop :=
  w.Works → w.buffer = []

theorem makeRoom_of_flushed (hw : w.Flushed) :
    w.makeRoom = (none, w) ∨ ¬w.Works ∧ ∃ e, w.makeRoom = (some e, w) := by
  unfold makeRoom
  split
  next h => exact .inl rfl
  next h =>
    right
    have hb : w.buffer ≠ [] := by
      rintro hnil
      rw [hnil] at h
      exact h (by decide)
    have hnot : ¬w.Works := fun hworks => hb (hw hworks)
    exact ⟨hnot, flush_eq_of_not_works hnot hb⟩

/-- A frame is delivered at once, or nothing is. -/
theorem send_of_flushed (hw : w.Flushed) (f : Frame) :
    w.Works ∧ w.send f = (none, w.deliver f.bytes) ∨
      ∃ e buffer, w.send f = (some e, { w with buffer }) ∧ (w.Works → buffer = []) := by
  rcases makeRoom_of_flushed hw with hroom | ⟨hnot, e, hroom⟩
  · cases henc : f.encode w.limit w.buffer with
    | error e =>
      right
      exact ⟨e, w.buffer, by simp only [send, feed, hroom, henc], hw⟩
    | ok buffer =>
      obtain rfl := Frame.encode_eq_append henc
      have hne : w.buffer ++ f.bytes ≠ [] := by
        rw [ne_eq, List.append_eq_nil_iff, not_and]
        exact fun _ => f.bytes_ne_nil
      have hsend : w.send f = { w with buffer := w.buffer ++ f.bytes }.flush := by
        simp only [send, feed, hroom, henc]
      by_cases hworks : w.Works
      · left
        have hflush := flush_eq_of_works (w := { w with buffer := w.buffer ++ f.bytes }) hworks hne
        have hnil := hw hworks
        refine ⟨hworks, ?_⟩
        rw [hsend, hflush]
        simp only [hnil, List.nil_append]
        rw [← hnil]
      · right
        obtain ⟨e, hflush⟩ :=
          flush_eq_of_not_works (w := { w with buffer := w.buffer ++ f.bytes }) hworks hne
        exact ⟨e, _, hsend.trans hflush, fun h => absurd h hworks⟩
  · right
    exact ⟨e, w.buffer, by simp only [send, feed, hroom], hw⟩

/-- Closing delivers nothing and ends the stream, unless that has failed. -/
theorem close_of_flushed (hw : w.Flushed) : ∃ ended,
    w.close.2 = { w with link := { w.link with ended } } ∧
      (w.link.fault = none → ended = true) ∧ (w.link.ended = true → ended = true) := by
  by_cases hb : w.buffer = []
  · have hflush : w.flush = (none, w) := by simp [flush, hb]
    cases hfault : w.link.fault with
    | none =>
      refine ⟨true, ?_, fun _ => rfl, fun _ => rfl⟩
      simp only [close, hflush, Link.shutDown, hfault]
    | some reason =>
      refine ⟨w.link.ended, ?_, fun h => (by cases h), id⟩
      simp only [close, hflush, Link.shutDown, hfault]
      rw [← hfault]
  · have hnot : ¬w.Works := fun hworks => hb (hw hworks)
    obtain ⟨e, hflush⟩ := flush_eq_of_not_works hnot hb
    refine ⟨w.link.ended, by simp only [close, hflush], fun hfault => ?_, id⟩
    simpa [Works, hfault] using hnot

end FrameWriter

/-- A writing direction: its writer, the requests written and whether its owner has ended it. -/
structure Outlet where
  writer : FrameWriter
  written : List Query
  closed : Bool

namespace Outlet

inductive Step (o : Outlet) : Outlet → Prop where
  | written {q : Query} {payload : Bytes} {w : FrameWriter} (hp : q.payload = .ok payload)
    (hs : o.writer.send ⟨q.token, payload⟩ = (none, w)) :
    Step o { o with writer := w, written := o.written ++ [q] }
  | unwritten {f : Frame} {e : FramingError} {w : FrameWriter} (hs : o.writer.send f = (some e, w)) :
    Step o { o with writer := w }
  | closed (ho : o.closed = false) : Step o { o with writer := o.writer.close.2, closed := true }
  | broken (reason : String) :
    Step o { o with writer.link := { o.writer.link with fault := some reason } }
  | dropped : Step o { o with writer.link := { o.writer.link with ended := true } }

/-- The bytes that have reached the other end are those of the requests written, and a stream that
can be ended is ended with the direction. -/
structure Exact (o : Outlet) : Prop where
  flushed : o.writer.Flushed
  delivered : o.writer.link.delivered = o.written.flatMap Query.bytes
  ended : o.closed = true → o.writer.link.fault = none → o.writer.link.ended = true

variable {o o' : Outlet}

theorem Exact.step (h : o.Exact) (hs : Step o o') : o'.Exact := by
  obtain ⟨hflushed, hdelivered, hended⟩ := h
  cases hs with
  | @written q payload w hp hs =>
    rcases FrameWriter.send_of_flushed hflushed ⟨q.token, payload⟩ with
      ⟨-, hsend⟩ | ⟨e, buffer, hsend, -⟩
    · obtain rfl := (Prod.mk.inj (hs.symm.trans hsend)).2
      refine ⟨hflushed, ?_, hended⟩
      rw [List.flatMap_append, ← hdelivered, List.flatMap_singleton, Query.bytes_of_payload hp]
      rfl
    · cases (Prod.mk.inj (hs.symm.trans hsend)).1
  | @unwritten f e w hs =>
    rcases FrameWriter.send_of_flushed hflushed f with ⟨-, hsend⟩ | ⟨e, buffer, hsend, hnil⟩
    · cases (Prod.mk.inj (hs.symm.trans hsend)).1
    · obtain rfl := (Prod.mk.inj (hs.symm.trans hsend)).2
      exact ⟨hnil, hdelivered, hended⟩
  | closed ho =>
    obtain ⟨ended, hclose, hfault, hkept⟩ := FrameWriter.close_of_flushed hflushed
    rw [hclose]
    refine ⟨fun hworks => hflushed ⟨hworks.1, ?_⟩, hdelivered, fun _ hf => hfault hf⟩
    exact Bool.eq_false_iff.mpr fun h => by
      have hended' : ended = false := hworks.2
      rw [hkept h] at hended'
      cases hended'
  | broken reason =>
    exact ⟨fun hworks => (by cases hworks.1), hdelivered, fun _ hf => by cases hf⟩
  | dropped =>
    exact ⟨fun hworks => (by cases hworks.2), hdelivered, fun _ _ => rfl⟩

theorem Exact.steps (h : o.Exact) (hs : Relation.ReflTransGen Step o o') : o'.Exact := by
  induction hs with
  | refl => exact h
  | tail _ hlast ih => exact ih.step hlast

end Outlet

namespace Connection

variable {c c' : Connection}

def outlet (c : Connection) : Outlet :=
  ⟨c.writer, c.written, c.writeClosed⟩

/-- From `c` to `c'`, nothing but what can happen to it happens to the writing direction. -/
def Streams (c c' : Connection) : Prop :=
  Relation.ReflTransGen Outlet.Step c.outlet c'.outlet

theorem Streams.of_eq (h : c'.outlet = c.outlet) : Streams c c' := by
  rw [Streams, h]

theorem shutDown_outlet (c : Connection) (e : ClientError) :
    (c.shutDown e).outlet = c.outlet := by
  unfold shutDown
  split <;> rfl

theorem write_streams (c : Connection) (q : Query) : Streams c (c.write q).2 := by
  unfold write
  split
  · exact .of_eq rfl
  · next payload hp =>
    split
    · next w hs => exact .single (.written hp hs)
    · next e w hs =>
      have hstep : Streams c { c with writer := w } := .single (.unwritten hs)
      dsimp only
      split
      · rw [Streams, shutDown_outlet]
        exact hstep
      · exact hstep

theorem Part.streams (h : Part c c') : Streams c c' := by
  cases h with
  | kept _ hwriter hwritten hended => exact .of_eq (by rw [outlet, hwriter, hwritten, hended]; rfl)
  | write q => exact c.write_streams q
  | shutDown e => exact .of_eq (c.shutDown_outlet e)
  | closeWriter =>
    unfold Connection.closeWriter
    split
    · exact .of_eq rfl
    · next h => exact .single (.closed (Bool.eq_false_iff.mpr h))
  | hangUp => exact .single .dropped
  | breakWriting reason => exact .single (.broken reason)

/-- In every reachable state the bytes sent are those of the requests written. -/
theorem exact_run (s : Settings) (as : List Action) : ((start s).run as).outlet.Exact := by
  refine run_of_parts (P := fun c => c.outlet.Exact) (fun _ _ hpart h => h.steps hpart.streams)
    ⟨fun _ => rfl, rfl, fun h => ?_⟩ as
  cases h

end Connection
end Reql
