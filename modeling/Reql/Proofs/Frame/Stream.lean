import Reql.Frame.Reader
import Reql.Proofs.Frame.Codec

/-! What a reader reports of a stream that arrives in chunks: the greedy parse of the whole stream,
each item after the chunk that settles it. -/
namespace Reql

/-- The greedy parse of a byte string: frames within the limit are taken as long as one leads. -/
inductive Parse (limit : FrameLimit) : Bytes → List Frame → Bytes → Prop where
  | done {bytes : Bytes} : (∀ f rest, ¬ Frame.Leads limit bytes f rest) → Parse limit bytes [] bytes
  | frame {bytes tail rest : Bytes} {f : Frame} {frames : List Frame} :
      Frame.Leads limit bytes f tail → Parse limit tail frames rest →
      Parse limit bytes (f :: frames) rest

namespace Parse

variable {limit : FrameLimit} {bytes more rest rest' : Bytes} {frames frames' : List Frame}

theorem nil (limit : FrameLimit) : Parse limit [] [] [] :=
  .done fun _ _ hl => absurd hl.size_le (by decide)

theorem whole (h : Parse limit bytes frames rest) :
    bytes = frames.flatMap Frame.bytes ++ rest := by
  induction h with
  | done => simp
  | frame hl _ ih => rw [hl.1, List.flatMap_cons, List.append_assoc, ← ih]

theorem within (h : Parse limit bytes frames rest) :
    ∀ f ∈ frames, f.payload.length ≤ limit.bytes := by
  induction h with
  | done => simp
  | frame hl _ ih => exact List.forall_mem_cons.mpr ⟨hl.2, ih⟩

theorem stuck (h : Parse limit bytes frames rest) (f : Frame) (tail : Bytes) :
    ¬ Frame.Leads limit rest f tail := by
  induction h with
  | done hno => exact hno f tail
  | frame _ _ ih => exact ih

theorem unique (h : Parse limit bytes frames rest) (h' : Parse limit bytes frames' rest') :
    frames = frames' ∧ rest = rest' := by
  induction h generalizing frames' with
  | done hno =>
    cases h' with
    | done => exact ⟨rfl, rfl⟩
    | frame hl _ => exact absurd hl (hno _ _)
  | frame hl _ ih =>
    cases h' with
    | done hno => exact absurd hl (hno _ _)
    | frame hl' hp =>
      obtain ⟨rfl, rfl⟩ := hl.unique hl'
      obtain ⟨rfl, rfl⟩ := ih hp
      exact ⟨rfl, rfl⟩

/-- The greedy parse is the sequence of complete frames within the limit that cannot be
continued. -/
theorem iff_maximal : Parse limit bytes frames rest ↔
    bytes = frames.flatMap Frame.bytes ++ rest ∧ (∀ f ∈ frames, f.payload.length ≤ limit.bytes) ∧
      ∀ f tail, ¬ Frame.Leads limit rest f tail := by
  constructor
  · intro h
    exact ⟨h.whole, h.within, h.stuck⟩
  · rintro ⟨rfl, hwithin, hstuck⟩
    induction frames with
    | nil => exact .done hstuck
    | cons f frames ih =>
      obtain ⟨hf, hframes⟩ := List.forall_mem_cons.mp hwithin
      refine .frame ⟨?_, hf⟩ (ih hframes)
      rw [List.flatMap_cons, List.append_assoc]

/-- Parsing goes on where it stopped. -/
theorem append (h : Parse limit bytes frames rest) (h' : Parse limit (rest ++ more) frames' rest') :
    Parse limit (bytes ++ more) (frames ++ frames') rest' := by
  induction h with
  | done => exact h'
  | frame hl _ ih => exact .frame (hl.append more) (ih h')

/-- Nothing that follows an oversize header is parsed. -/
theorem append_oversize (h : Parse limit bytes frames rest) (ho : Frame.Oversize limit rest)
    (more : Bytes) : Parse limit (bytes ++ more) frames (rest ++ more) := by
  have hdone : Parse limit (rest ++ more) [] (rest ++ more) :=
    .done fun f tail hl => hl.not_oversize (ho.append more)
  simpa using h.append hdone

end Parse

/-- Taking frames from a buffer parses it, with enough steps, and fails at an oversize header. -/
theorem FrameReader.takeFrames_spec (limit : FrameLimit) {steps : Nat} {buffer : Bytes}
    (h : buffer.length ≤ steps) :
    ∃ frames rest, Parse limit buffer frames rest ∧
      takeFrames limit steps buffer = (frames, rest,
        if Frame.Oversize limit rest
        then some (.frameTooLarge (FrameHeader.announced rest) limit.bytes) else none) := by
  induction steps generalizing buffer with
  | zero =>
    have hnil : buffer = [] := List.length_eq_zero_iff.mp (Nat.le_zero.mp h)
    subst hnil
    exact ⟨[], [], .nil limit, by rw [takeFrames, if_neg (Frame.not_oversize_nil limit)]⟩
  | succ steps ih =>
    rcases Frame.decode_cases limit buffer with ⟨ho, hd⟩ | ⟨f, rest, hl, hd⟩ | ⟨ho, hno, hd⟩
    · have hno : ∀ f rest, ¬ Frame.Leads limit buffer f rest := fun f rest hl => hl.not_oversize ho
      exact ⟨[], buffer, .done hno, by rw [takeFrames, hd, if_pos ho]⟩
    · have hlen : rest.length ≤ steps := by
        have hpos := f.totalSize_pos
        rw [hl.1, List.length_append, Frame.length_bytes] at h
        omega
      obtain ⟨frames, rest', hp, ht⟩ := ih hlen
      exact ⟨f :: frames, rest', .frame hl hp, by rw [takeFrames, hd]; simp only [ht]⟩
    · exact ⟨[], buffer, .done hno, by rw [takeFrames, hd, if_neg ho]⟩

theorem Parse.exists (limit : FrameLimit) (bytes : Bytes) :
    ∃ frames rest, Parse limit bytes frames rest := by
  obtain ⟨frames, rest, hp, -⟩ := FrameReader.takeFrames_spec limit (Nat.le_refl bytes.length)
  exact ⟨frames, rest, hp⟩

namespace FrameReader

/-- The reports on what is left of a stream after its frames, before the stream ends. -/
def verdict (limit : FrameLimit) (rest : Bytes) : List FrameEvent :=
  if Frame.Oversize limit rest
  then [.failed (.frameTooLarge (FrameHeader.announced rest) limit.bytes), .ended] else []

/-- The reports on what is left of a stream after its frames, when the stream has ended. -/
def closing (limit : FrameLimit) (rest : Bytes) : List FrameEvent :=
  if Frame.Oversize limit rest
  then [.failed (.frameTooLarge (FrameHeader.announced rest) limit.bytes), .ended]
  else if rest = [] then [.ended]
  else [.failed (.truncated rest.length), .ended]

/-- The reports on a stream, each with the number of bytes that settle it: a frame takes its last
byte and an oversize error its header. The frames start at the given place. -/
def schedule (limit : FrameLimit) : Nat → List Frame → Bytes → List (Nat × FrameEvent)
  | start, [], rest => (verdict limit rest).map ((start + FrameHeader.size, ·))
  | start, f :: frames, rest =>
    (start + f.totalSize, .frame f) :: schedule limit (start + f.totalSize) frames rest

/-- What a reader reports on each chunk of a stream, and the reader afterwards. -/
def feed (r : FrameReader) : List Bytes → List (List FrameEvent) × FrameReader
  | [] => ([], r)
  | chunk :: chunks =>
    let (events, r) := r.receive chunk
    let (later, r) := r.feed chunks
    (events :: later, r)

/-- All that a reader reports of a stream that arrives in chunks and then ends. -/
def items (limit : FrameLimit) (chunks : List Bytes) : List FrameEvent :=
  let (read, r) := (start limit).feed chunks
  read.flatten ++ r.finish.1

variable {limit : FrameLimit} {bytes more rest rest' : Bytes} {frames frames' : List Frame}

theorem verdict_append (ho : Frame.Oversize limit rest) (more : Bytes) :
    verdict limit (rest ++ more) = verdict limit rest := by
  rw [verdict, if_pos (ho.append more), verdict, if_pos ho, FrameHeader.announced_append ho.1]

theorem map_schedule (limit : FrameLimit) (start : Nat) (frames : List Frame) (rest : Bytes) :
    (schedule limit start frames rest).map (·.2) = frames.map .frame ++ verdict limit rest := by
  induction frames generalizing start with
  | nil => simp [schedule, Function.comp_def]
  | cons f frames ih => simp [schedule, ih]

theorem lt_of_mem_schedule {start : Nat} {e : Nat × FrameEvent}
    (h : e ∈ schedule limit start frames rest) : start < e.1 := by
  induction frames generalizing start with
  | nil =>
    obtain ⟨_, -, rfl⟩ := List.mem_map.mp h
    simp [FrameHeader.size]
  | cons f frames ih =>
    have hpos := f.totalSize_pos
    rcases List.mem_cons.mp h with rfl | h
    · simp only
      omega
    · have := ih h
      omega

theorem schedule_sorted (limit : FrameLimit) (start : Nat) (frames : List Frame) (rest : Bytes) :
    (schedule limit start frames rest).Pairwise (·.1 ≤ ·.1) := by
  induction frames generalizing start with
  | nil => exact List.pairwise_map.mpr (List.pairwise_of_forall fun _ _ => Nat.le_refl _)
  | cons f frames ih =>
    refine List.pairwise_cons.mpr ⟨fun e he => ?_, ih _⟩
    exact Nat.le_of_lt (lt_of_mem_schedule he)

theorem filter_schedule_oversize (ho : Frame.Oversize limit bytes) (more : Bytes) (start : Nat) :
    (schedule limit start [] (bytes ++ more)).filter (·.1 ≤ start + bytes.length) =
      schedule limit start [] bytes := by
  have hkeep : ∀ e ∈ schedule limit start [] (bytes ++ more), e.1 ≤ start + bytes.length := by
    intro e he
    obtain ⟨_, -, rfl⟩ := List.mem_map.mp he
    exact Nat.add_le_add_left ho.1 start
  rw [List.filter_eq_self.mpr (by simpa using hkeep), schedule, schedule, verdict_append ho]

/-- Bytes that settle nothing settle nothing with more bytes behind them. -/
theorem filter_schedule_waiting (ho : ¬ Frame.Oversize limit bytes)
    (hno : ∀ f tail, ¬ Frame.Leads limit bytes f tail)
    (h : Parse limit (bytes ++ more) frames rest) (start : Nat) :
    (schedule limit start frames rest).filter (·.1 ≤ start + bytes.length) = [] := by
  refine List.filter_eq_nil_iff.mpr fun e he => ?_
  suffices hlate : start + bytes.length < e.1 by
    simp only [decide_eq_true_eq]
    omega
  cases h with
  | done =>
    obtain ⟨x, hx, rfl⟩ := List.mem_map.mp he
    have ho' : Frame.Oversize limit (bytes ++ more) := by
      refine Decidable.byContradiction fun hn => ?_
      rw [verdict, if_neg hn] at hx
      exact List.not_mem_nil hx
    have hshort : bytes.length < FrameHeader.size :=
      Nat.lt_of_not_le fun hlen => ho (ho'.of_append hlen)
    exact Nat.add_lt_add_left hshort start
  | @frame _ _ _ f _ hl =>
    have hlt := hl.lt_totalSize hno
    rcases List.mem_cons.mp he with rfl | he
    · exact Nat.add_lt_add_left hlt start
    · have := lt_of_mem_schedule he
      omega

/-- The reports that a prefix of the stream settles are the reports on that prefix. -/
theorem filter_schedule (h : Parse limit bytes frames rest)
    (h' : Parse limit (bytes ++ more) frames' rest') (start : Nat) :
    (schedule limit start frames' rest').filter (·.1 ≤ start + bytes.length) =
      schedule limit start frames rest := by
  induction h generalizing frames' start with
  | @done bytes hno =>
    by_cases ho : Frame.Oversize limit bytes
    · have hdone := Parse.append_oversize (.done hno) ho more
      obtain ⟨rfl, rfl⟩ := h'.unique hdone
      exact filter_schedule_oversize ho more start
    · have hnil : schedule limit start [] bytes = [] := by simp [schedule, verdict, ho]
      rw [hnil, filter_schedule_waiting ho hno h' start]
  | @frame bytes tail rest f frames hl hp ih =>
    cases h' with
    | done hno => exact absurd (hl.append more) (hno _ _)
    | @frame _ tail' _ g gs hl' hp' =>
      obtain ⟨rfl, rfl⟩ := (hl.append more).unique hl'
      have hlen : start + bytes.length = start + f.totalSize + tail.length := by
        rw [hl.1, List.length_append, Frame.length_bytes, Nat.add_assoc]
      have hkeep : start + f.totalSize ≤ start + f.totalSize + tail.length := Nat.le_add_right ..
      rw [schedule, schedule, hlen, List.filter_cons_of_pos (by simp), ih hp']

private theorem filter_le_add {l : List (Nat × FrameEvent)} (h : l.Pairwise (·.1 ≤ ·.1))
    (a b : Nat) :
    l.filter (·.1 ≤ a + b) =
      l.filter (·.1 ≤ a) ++ l.filter (fun e => a < e.1 ∧ e.1 ≤ a + b) := by
  induction l with
  | nil => rfl
  | cons e l ih =>
    obtain ⟨hle, hl⟩ := List.pairwise_cons.mp h
    by_cases he : e.1 ≤ a
    · have hab : e.1 ≤ a + b := by omega
      have hna : ¬ a < e.1 := by omega
      simp [he, hab, hna, ih hl]
    · have hlate : l.filter (·.1 ≤ a) = [] := by
        refine List.filter_eq_nil_iff.mpr fun x hx => ?_
        have := hle x hx
        simp only [decide_eq_true_eq]
        omega
      have ha : a < e.1 := by omega
      have ih := ih hl
      rw [hlate, List.nil_append] at ih
      by_cases hab : e.1 ≤ a + b
      · simp [he, ha, hab, hlate, ih]
      · simp [he, hab, hlate, ih]

/-- Where a reader stands that has read these bytes and knows of no end of the stream. -/
structure Stands (r : FrameReader) (limit : FrameLimit) (bytes : Bytes) (frames : List Frame)
    (rest : Bytes) : Prop where
  parse : Parse limit bytes frames rest
  limit_eq : r.limit = limit
  stopped_iff : r.stopped = true ↔ Frame.Oversize limit rest
  buffer_eq : ¬ Frame.Oversize limit rest → r.buffer = rest

theorem start_stands (limit : FrameLimit) : (start limit).Stands limit [] [] [] :=
  ⟨.nil limit, rfl, iff_of_false Bool.false_ne_true (Frame.not_oversize_nil limit), fun _ => rfl⟩

/-- One chunk: the reader reports what has become settled, and nothing twice. -/
theorem receive_stands {r : FrameReader} (h : r.Stands limit bytes frames rest) (chunk : Bytes) :
    ∃ frames' rest', (r.receive chunk).2.Stands limit (bytes ++ chunk) frames' rest' ∧
      frames'.map .frame ++ verdict limit rest' =
        (frames.map .frame ++ verdict limit rest) ++ (r.receive chunk).1 := by
  by_cases ho : Frame.Oversize limit rest
  · have hstop : r.stopped = true := h.stopped_iff.mpr ho
    have hrecv : r.receive chunk = ([], r) := by rw [receive, if_pos hstop]
    refine ⟨frames, rest ++ chunk, ?_, ?_⟩
    · rw [hrecv]
      have ho' := ho.append chunk
      exact ⟨h.parse.append_oversize ho chunk, h.limit_eq, iff_of_true hstop ho',
        fun hno => absurd ho' hno⟩
    · rw [hrecv, List.append_nil, verdict_append ho]
  · have hgo : ¬ r.stopped = true := fun hs => ho (h.stopped_iff.mp hs)
    obtain ⟨new, rest', hp, ht⟩ := takeFrames_spec limit (Nat.le_refl (rest ++ chunk).length)
    have hnone : verdict limit rest = [] := by rw [verdict, if_neg ho]
    refine ⟨frames ++ new, rest', ?_⟩
    have hparse := h.parse.append hp
    by_cases ho' : Frame.Oversize limit rest'
    · have hrecv : r.receive chunk = (new.map .frame ++ verdict limit rest',
          { r with buffer := rest', stopped := true }) := by
        rw [receive, if_neg hgo, h.buffer_eq ho, h.limit_eq]
        simp only [ht, failWith, verdict, if_pos ho']
      rw [hrecv, hnone]
      exact ⟨⟨hparse, h.limit_eq, iff_of_true rfl ho', fun hno => absurd ho' hno⟩, by simp⟩
    · have hrecv : r.receive chunk = (new.map .frame, { r with buffer := rest' }) := by
        rw [receive, if_neg hgo, h.buffer_eq ho, h.limit_eq]
        simp only [ht, if_neg ho']
      rw [hrecv, hnone, verdict, if_neg ho']
      exact ⟨⟨hparse, h.limit_eq, iff_of_false hgo ho', fun _ => rfl⟩, by simp⟩

theorem feed_stands {r : FrameReader} (h : r.Stands limit bytes frames rest)
    (chunks : List Bytes) :
    ∃ frames' rest', (r.feed chunks).2.Stands limit (bytes ++ chunks.flatten) frames' rest' ∧
      frames'.map .frame ++ verdict limit rest' =
        (frames.map .frame ++ verdict limit rest) ++ (r.feed chunks).1.flatten := by
  induction chunks generalizing r bytes frames rest with
  | nil => exact ⟨frames, rest, by simpa [feed] using h, by simp [feed]⟩
  | cons chunk chunks ih =>
    obtain ⟨frames₁, rest₁, h₁, heq₁⟩ := receive_stands h chunk
    obtain ⟨frames₂, rest₂, h₂, heq₂⟩ := ih h₁
    refine ⟨frames₂, rest₂, ?_, ?_⟩
    · rw [List.flatten_cons, ← List.append_assoc]
      exact h₂
    · rw [heq₂, heq₁, List.append_assoc]
      rfl

theorem finish_stands {r : FrameReader} (h : r.Stands limit bytes frames rest) :
    verdict limit rest ++ r.finish.1 = closing limit rest := by
  by_cases ho : Frame.Oversize limit rest
  · have hstop : r.stopped = true := h.stopped_iff.mpr ho
    rw [finish, if_pos hstop, verdict, closing, if_pos ho, if_pos ho, List.append_nil]
  · have hgo : ¬ r.stopped = true := fun hs => ho (h.stopped_iff.mp hs)
    have hd : Frame.decode limit rest = .ok none := by
      rcases Frame.decode_cases limit rest with ⟨ho', -⟩ | ⟨f, tail, hl, -⟩ | ⟨-, -, hd⟩
      · exact absurd ho' ho
      · exact absurd hl (h.parse.stuck f tail)
      · exact hd
    have hlast : Frame.decodeLast limit rest =
        if rest = [] then .ok none else .error (.truncated rest.length) := by
      simp only [Frame.decodeLast, hd, List.isEmpty_iff]
    rw [finish, if_neg hgo, h.limit_eq, h.buffer_eq ho, hlast, verdict, if_neg ho, closing,
      if_neg ho, List.nil_append]
    by_cases hnil : rest = []
    · rw [if_pos hnil, if_pos hnil]
    · rw [if_neg hnil, if_neg hnil]
      rfl

theorem verdict_nil (limit : FrameLimit) : verdict limit [] = [] := by
  rw [verdict, if_neg (Frame.not_oversize_nil limit)]

/-- The chunks of a stream do not show in what is reported of it. -/
theorem items_eq (chunks : List Bytes) (h : Parse limit chunks.flatten frames rest) :
    items limit chunks = frames.map .frame ++ closing limit rest := by
  obtain ⟨frames', rest', hs, heq⟩ := feed_stands (start_stands limit) chunks
  obtain ⟨rfl, rfl⟩ := h.unique hs.parse
  rw [verdict_nil, List.map_nil, List.nil_append, List.nil_append] at heq
  simp only [items]
  rw [← heq, List.append_assoc, finish_stands hs]

/-- What has been reported after some chunks is what their bytes settle. -/
theorem feed_eq (before : List Bytes) (h : Parse limit (before.flatten ++ more) frames rest) :
    (((start limit).feed before).1.flatten) =
      ((schedule limit 0 frames rest).filter (·.1 ≤ before.flatten.length)).map (·.2) := by
  obtain ⟨frames', rest', hs, heq⟩ := feed_stands (start_stands limit) before
  have hfilter := filter_schedule hs.parse h 0
  rw [verdict_nil, List.map_nil, List.nil_append, List.nil_append] at heq
  rw [Nat.zero_add, List.nil_append] at hfilter
  rw [← heq, hfilter, map_schedule]

theorem feed_append (r : FrameReader) (before after : List Bytes) :
    r.feed (before ++ after) =
      ((r.feed before).1 ++ ((r.feed before).2.feed after).1, ((r.feed before).2.feed after).2) := by
  induction before generalizing r with
  | nil => rfl
  | cons chunk before ih => simp only [List.cons_append, feed, ih]

/-- A chunk brings the reports that its bytes settle. -/
theorem receive_eq (before : List Bytes) (chunk : Bytes)
    (h : Parse limit (before.flatten ++ chunk ++ more) frames rest) :
    (((start limit).feed before).2.receive chunk).1 =
      ((schedule limit 0 frames rest).filter fun e =>
        before.flatten.length < e.1 ∧ e.1 ≤ before.flatten.length + chunk.length).map (·.2) := by
  have hparse : Parse limit (before.flatten ++ (chunk ++ more)) frames rest := by
    rwa [← List.append_assoc]
  have hparse' : Parse limit ((before ++ [chunk]).flatten ++ more) frames rest := by simpa using h
  have hbefore := feed_eq before hparse
  have hafter := feed_eq (before ++ [chunk]) hparse'
  rw [feed_append, List.flatten_append, List.flatten_append, List.length_append,
    List.flatten_singleton, filter_le_add (schedule_sorted ..), List.map_append, ← hbefore] at hafter
  simpa [feed] using List.append_cancel_left hafter

/-- Whatever the limit and however a stream is cut, a reader reports its greedy parse, of which
there is one, and the reason why it stops; each report comes with the chunk that settles it. -/
theorem reports_greedy_parse (limit : FrameLimit) (chunks : List Bytes) :
    ∃ frames rest,
      (∀ frames' rest', Parse limit chunks.flatten frames' rest' ↔
        frames' = frames ∧ rest' = rest) ∧
      items limit chunks = frames.map .frame ++ closing limit rest ∧
      items limit chunks = items limit [chunks.flatten] ∧
      ∀ before chunk after, chunks = before ++ chunk :: after →
        (((start limit).feed before).2.receive chunk).1 =
          ((schedule limit 0 frames rest).filter fun e =>
            before.flatten.length < e.1 ∧ e.1 ≤ before.flatten.length + chunk.length).map (·.2) := by
  obtain ⟨frames, rest, hp⟩ := Parse.exists limit chunks.flatten
  refine ⟨frames, rest, fun frames' rest' => ?_, items_eq chunks hp, ?_, ?_⟩
  · constructor
    · intro hp'
      exact hp'.unique hp
    · rintro ⟨rfl, rfl⟩
      exact hp
  · have hone : Parse limit [chunks.flatten].flatten frames rest := by
      rwa [List.flatten_singleton]
    rw [items_eq chunks hp, items_eq [chunks.flatten] hone]
  · rintro before chunk after rfl
    have hp' : Parse limit (before.flatten ++ chunk ++ after.flatten) frames rest := by
      simpa using hp
    exact receive_eq before chunk hp'

/-- A header cut in three, a frame that shares its last chunk with the next header, an end inside
that header. -/
theorem reports_greedy_parse_cut :
    let chunks : List Bytes := [[7, 0, 0, 0, 0], [], [0, 0, 0, 2, 0], [0, 0, 91], [93, 8, 0]]
    items (.ofNat 4) chunks = items (.ofNat 4) [chunks.flatten] ∧
      items (.ofNat 4) chunks = [.frame ⟨7, [91, 93]⟩, .failed (.truncated 2), .ended] := by
  intro chunks
  obtain ⟨frames, rest, -, -, hone, -⟩ := reports_greedy_parse (.ofNat 4) chunks
  exact ⟨hone, by decide⟩

end FrameReader
end Reql
