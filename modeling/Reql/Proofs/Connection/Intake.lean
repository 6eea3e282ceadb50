import Reql.Proofs.Connection.Action
import Reql.Proofs.Frame.Stream

/-! The way of incoming bytes to a connection: one loop reads frames and hands them off, another
takes them in the order in which they were read. -/
namespace Reql

def Connection.Action.event? : Connection.Action → Option FrameEvent
  | .report event => some event
  | _ => none

def Connection.reports (as : List Connection.Action) : List FrameEvent :=
  as.filterMap (·.event?)

open Connection (Action reports)

/-- The reader, the bytes it has read, what has been handed off and not been taken, and what has
happened to the connection so far. -/
structure Intake where
  reader : FrameReader
  read : Bytes
  queue : List FrameEvent
  log : List Action

/-- What can happen next: the connection or a cursor is used, the stream brings bytes, ends or
fails, or what was handed off first is taken. -/
inductive Stimulus where
  | act (a : Action) (own : a.event? = none)
  | chunk (bytes : Bytes)
  | finish
  | fail (reason : String)
  | take

namespace Intake

def start (limit : FrameLimit) : Intake := ⟨.start limit, [], [], []⟩

def handOff (n : Intake) (read : List FrameEvent × FrameReader) : Intake :=
  { n with reader := read.2, queue := n.queue ++ read.1 }

/-- Carries a stimulus out. A reader that has stopped reads no bytes. -/
def after (n : Intake) : Stimulus → Intake
  | .act a _ => { n with log := n.log ++ [a] }
  | .chunk bytes =>
    if n.reader.stopped then n
    else { n with read := n.read ++ bytes }.handOff (n.reader.receive bytes)
  | .finish => n.handOff n.reader.finish
  | .fail reason => n.handOff (n.reader.fail reason)
  | .take =>
    match n.queue with
    | [] => n
    | event :: queue => { n with queue, log := n.log ++ [.report event] }

def run (n : Intake) (ss : List Stimulus) : Intake := ss.foldl after n

/-- What a reader reports last, and why: of what it has read, this much is left beyond the
frames. -/
inductive Stop (limit : FrameLimit) (rest : Bytes) : List FrameEvent → Prop where
  | oversize (h : Frame.Oversize limit rest) :
    Stop limit rest [.failed (.frameTooLarge (FrameHeader.announced rest) limit.bytes), .ended]
  | ended (h : rest = []) : Stop limit rest [.ended]
  | truncated (h : rest ≠ []) : Stop limit rest [.failed (.truncated rest.length), .ended]
  | broken (reason : String) : Stop limit rest [.failed (.io reason), .ended]

/-- What has been taken and what waits are the frames of the greedy parse of what has been read, and
behind them the end once the reader has stopped. -/
def Exact (limit : FrameLimit) (n : Intake) : Prop :=
  ∃ frames rest tail, Parse limit n.read frames rest ∧
    reports n.log ++ n.queue = frames.map .frame ++ tail ∧
    (n.reader.stopped = false ∧ tail = [] ∧ n.reader.Stands limit n.read frames rest ∨
      n.reader.stopped = true ∧ Stop limit rest tail)

variable {limit : FrameLimit} {n : Intake}

theorem exact_start (limit : FrameLimit) : Exact limit (start limit) :=
  ⟨[], [], [], .nil limit, rfl, Or.inl ⟨rfl, rfl, FrameReader.start_stands limit⟩⟩

theorem finish_stopped (r : FrameReader) : r.finish.2.stopped = true := by
  unfold FrameReader.finish
  split
  · assumption
  · split <;> rfl

theorem fail_stopped (r : FrameReader) (reason : String) : (r.fail reason).2.stopped = true := by
  unfold FrameReader.fail
  split
  · assumption
  · rfl

theorem handOff_stopped {r : List FrameEvent × FrameReader} (hr : r = ([], n.reader)) :
    n.handOff r = n := by
  rw [hr, handOff, List.append_nil]

theorem not_oversize {r : FrameReader} {bytes rest : Bytes} {frames : List Frame}
    (hs : r.stopped = false) (h : r.Stands limit bytes frames rest) :
    ¬Frame.Oversize limit rest := by
  intro ho
  rw [h.stopped_iff.mpr ho] at hs
  cases hs

theorem Exact.chunk (h : Exact limit n) (bytes : Bytes) : Exact limit (n.after (.chunk bytes)) := by
  obtain ⟨frames, rest, tail, hp, heq, ⟨hs, rfl, hr⟩ | ⟨hs, hstop⟩⟩ := h
  · have hno := not_oversize hs hr
    have hnone : FrameReader.verdict limit rest = [] := by rw [FrameReader.verdict, if_neg hno]
    obtain ⟨frames', rest', hr', hnew⟩ := FrameReader.receive_stands hr bytes
    rw [List.append_nil] at heq
    rw [hnone, List.append_nil] at hnew
    have hqueue : reports n.log ++ (n.queue ++ (n.reader.receive bytes).1) =
        frames'.map .frame ++ FrameReader.verdict limit rest' := by
      rw [← List.append_assoc, heq, hnew]
    simp only [after, hs]
    refine ⟨frames', rest', FrameReader.verdict limit rest', hr'.parse, hqueue, ?_⟩
    cases hs' : (n.reader.receive bytes).2.stopped with
    | true =>
      have ho := hr'.stopped_iff.mp hs'
      refine Or.inr ⟨hs', ?_⟩
      rw [FrameReader.verdict, if_pos ho]
      exact .oversize ho
    | false =>
      refine Or.inl ⟨hs', ?_, hr'⟩
      rw [FrameReader.verdict, if_neg (not_oversize hs' hr')]
  · simp only [after, hs, if_true]
    exact ⟨frames, rest, tail, hp, heq, Or.inr ⟨hs, hstop⟩⟩

theorem Exact.finish (h : Exact limit n) : Exact limit (n.after .finish) := by
  obtain ⟨frames, rest, tail, hp, heq, ⟨hs, rfl, hr⟩ | ⟨hs, hstop⟩⟩ := h
  · have hno := not_oversize hs hr
    have hclosing := FrameReader.finish_stands hr
    rw [FrameReader.verdict, if_neg hno, List.nil_append, FrameReader.closing, if_neg hno]
      at hclosing
    refine ⟨frames, rest, n.reader.finish.1, hp, ?_, Or.inr ⟨finish_stopped _, ?_⟩⟩
    · rw [List.append_nil] at heq
      rw [← heq, List.append_assoc]
      rfl
    · rw [hclosing]
      by_cases hnil : rest = []
      · rw [if_pos hnil]
        exact .ended hnil
      · rw [if_neg hnil]
        exact .truncated hnil
  · have hstill : n.after .finish = n := handOff_stopped (by rw [FrameReader.finish, if_pos hs])
    rw [hstill]
    exact ⟨frames, rest, tail, hp, heq, Or.inr ⟨hs, hstop⟩⟩

theorem Exact.fail (h : Exact limit n) (reason : String) :
    Exact limit (n.after (.fail reason)) := by
  obtain ⟨frames, rest, tail, hp, heq, ⟨hs, rfl, hr⟩ | ⟨hs, hstop⟩⟩ := h
  · have hfail : (n.reader.fail reason).1 = [.failed (.io reason), .ended] := by
      rw [FrameReader.fail, if_neg (by rw [hs]; decide)]
      rfl
    refine ⟨frames, rest, _, hp, ?_, Or.inr ⟨fail_stopped _ _, .broken reason⟩⟩
    rw [List.append_nil] at heq
    rw [← heq, List.append_assoc, ← hfail]
    rfl
  · have hstill : n.after (.fail reason) = n :=
      handOff_stopped (by rw [FrameReader.fail, if_pos hs])
    rw [hstill]
    exact ⟨frames, rest, tail, hp, heq, Or.inr ⟨hs, hstop⟩⟩

theorem Exact.act (h : Exact limit n) {a : Action} (own : a.event? = none) :
    Exact limit (n.after (.act a own)) := by
  obtain ⟨frames, rest, tail, hp, heq, hend⟩ := h
  refine ⟨frames, rest, tail, hp, ?_, hend⟩
  have hnone : reports (n.log ++ [a]) = reports n.log := by
    simp [reports, own]
  simp only [after]
  rw [hnone, heq]

theorem Exact.take (h : Exact limit n) : Exact limit (n.after .take) := by
  obtain ⟨frames, rest, tail, hp, heq, hend⟩ := h
  simp only [after]
  split
  · exact ⟨frames, rest, tail, hp, heq, hend⟩
  next event queue hq =>
    refine ⟨frames, rest, tail, hp, ?_, hend⟩
    rw [← heq, hq]
    simp [reports, Action.event?]

/-- However the two loops and the calls take turns, nothing read is lost, repeated or reordered. -/
theorem Exact.run (h : Exact limit n) (ss : List Stimulus) : Exact limit (n.run ss) := by
  induction ss generalizing n with
  | nil => exact h
  | cons s ss ih =>
    refine ih (n := n.after s) ?_
    cases s with
    | act a own => exact h.act own
    | chunk bytes => exact h.chunk bytes
    | finish => exact h.finish
    | fail reason => exact h.fail reason
    | take => exact h.take

theorem Stop.not_frame {rest : Bytes} {tail : List FrameEvent} (h : Stop limit rest tail)
    (f : Frame) : .frame f ∉ tail := by
  cases h <;> simp

/-- The first report that is not a frame comes behind all the frames. -/
theorem split_at_stop {xs ys tail : List FrameEvent} {event : FrameEvent} {frames : List Frame}
    (h : xs ++ event :: ys = frames.map .frame ++ tail) (hxs : ∀ x ∈ xs, ∃ f, x = .frame f)
    (he : ∀ f, event ≠ .frame f) (htail : ∀ f, .frame f ∉ tail) :
    xs = frames.map .frame ∧ tail = event :: ys := by
  induction frames generalizing xs with
  | nil =>
    cases xs with
    | nil => exact ⟨rfl, h.symm⟩
    | cons x xs =>
      obtain ⟨f, rfl⟩ := hxs x List.mem_cons_self
      rw [List.map_nil, List.nil_append, List.cons_append] at h
      exact absurd (h ▸ List.mem_cons_self) (htail f)
  | cons f frames ih =>
    rw [List.map_cons, List.cons_append] at h
    cases xs with
    | nil => exact absurd (List.cons.inj h).1 (he f)
    | cons x xs =>
      rw [List.cons_append] at h
      obtain ⟨rfl, hrest⟩ := List.cons.inj h
      obtain ⟨hxs', heq⟩ := ih hrest fun x hx => hxs x (List.mem_cons_of_mem _ hx)
      exact ⟨by rw [hxs', List.map_cons], heq⟩

theorem take_all (n : Intake) : n.run (List.replicate n.queue.length .take) =
    { n with queue := [], log := n.log ++ n.queue.map .report } := by
  obtain ⟨reader, read, queue, log⟩ := n
  induction queue generalizing log with
  | nil => simp [run]
  | cons event queue ih =>
    have htake : (⟨reader, read, event :: queue, log⟩ : Intake).after .take =
        ⟨reader, read, queue, log ++ [.report event]⟩ := rfl
    rw [List.length_cons, List.replicate_succ, run, List.foldl_cons, htake]
    refine (ih (log ++ [.report event])).trans ?_
    simp

/-- Bytes that arrive on an open connection with nothing in between are read, handed off and taken
at once. -/
theorem receive_eq_run {c : Connection} (ho : c.closed = false) (hs : c.reader.stopped = false)
    (bytes : Bytes) :
    let n : Intake := ⟨c.reader, [], [], []⟩
    let handed := n.after (.chunk bytes)
    let taken := handed.run (List.replicate handed.queue.length .take)
    c.receive bytes = { c with reader := taken.reader }.run taken.log := by
  intro n handed taken
  have hhanded : handed = ⟨(c.reader.receive bytes).2, bytes, (c.reader.receive bytes).1, []⟩ := by
    simp only [handed, n, after, hs]
    rfl
  have htaken : taken = ⟨(c.reader.receive bytes).2, bytes, [],
      (c.reader.receive bytes).1.map .report⟩ := by
    simp only [taken, take_all, hhanded, List.nil_append]
  rw [htaken, Connection.receive, Connection.read_eq_run c _ ho]

end Intake
end Reql
