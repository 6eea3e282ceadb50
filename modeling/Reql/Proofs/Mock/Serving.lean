import Mathlib.Data.List.TakeWhile
import Reql.Mock.Server
import Reql.Proofs.Connection.Outlet

/-! What one server of mocked queries makes of the events that it reads. -/
namespace Reql

namespace FrameEvent

def asks : FrameEvent → Bool
  | .frame f =>
    match QueryType.peek f.payload with
    | .ok .start | .ok .continue => true
    | _ => false
  | _ => false

def stops : FrameEvent → Bool
  | .frame f =>
    match QueryType.peek f.payload with
    | .ok .stop => true
    | _ => false
  | _ => false

def isLoss : FrameEvent → Bool
  | .frame _ => false
  | .failed _ | .ended => true

/-- Whether an event is a frame without a query in it. -/
def isGarbled : FrameEvent → Bool
  | .frame f =>
    match QueryType.peek f.payload with
    | .ok _ => false
    | .error _ => true
  | .failed _ | .ended => false

end FrameEvent

/-- The chunk that goes into an answer, if it is a batch. -/
def Response.chunks (r : Response) : List Mock.Chunk :=
  match r.body with
  | .batch values => [values]
  | _ => []

namespace Mock

def Stock.source? : Stock → Option SourceId
  | .own _ => none
  | .shared id => some id

/-- Whether a request is over with a supply. -/
def Supply.isReady : Supply → Bool
  | .chunk _ | .exhausted => true
  | .wait => false

def frameOf (r : Response) : Frame :=
  ⟨r.token, r.encode⟩

def fits (r : Response) : Bool :=
  decide (r.encode.length ≤ FrameLimit.default.bytes)

namespace Server

def heard (s : Server) (chunk : Bytes) (ended : Bool) : List FrameEvent :=
  let (events, reader) := s.reader.receive chunk
  events ++ if ended then reader.finish.1 else []

/-- The server when it has read in a turn what has arrived. -/
def listen (s : Server) (chunk : Bytes) (ended : Bool) : Server :=
  (s.read chunk ended).2

/-- What a turn takes from the stock, if a request is pending when all is read. -/
def pull? (s : Server) (reader : ReaderId) (chunk : Bytes) (ended : Bool)
    (sources : List Source) : Option Supply :=
  let l := s.listen chunk ended
  l.pending.map fun _ => (l.request reader sources).1

/-- What a server would answer in a turn: at once while it reads, then to a pending request. -/
def due (s : Server) (reader : ReaderId) (chunk : Bytes) (ended : Bool) (sources : List Source) :
    List Response :=
  (s.read chunk ended).1 ++ ((s.listen chunk ended).serve reader sources).1.toList

/-- The answers of a turn, up to the first that does not fit into a frame. -/
def answers (s : Server) (reader : ReaderId) (chunk : Bytes) (ended : Bool)
    (sources : List Source) : List Response :=
  (s.due reader chunk ended sources).takeWhile fits

/-- The answer to a frame when there are no more values. -/
def closing (f : Frame) : Response :=
  match QueryType.peek f.payload with
  | .ok .start | .ok .continue | .ok .stop => ending f.token
  | .ok .noreplyWait => .plain f.token .waitComplete
  | .error e => .plain f.token (.error .client e.message none)

/-- The answers of a server that has no more values, up to the loss of its client. -/
def closings : List FrameEvent → List Response
  | .frame f :: rest => closing f :: closings rest
  | _ => []

/-- A request is pending only while there may be values and the client is there. -/
def Sound (s : Server) : Prop :=
  s.pending.isSome = true → s.exhausted = false ∧ s.gone = false

variable {s : Server} {chunk : Bytes} {ended : Bool} {reader : ReaderId} {sources : List Source}

theorem Sound.not_over {token : Token} (h : s.Sound) (hp : s.pending = some token) :
    ¬(s.gone = true ∨ s.exhausted = true) := by
  obtain ⟨hmore, hgone⟩ := h (by rw [hp]; rfl)
  simp [hmore, hgone]

theorem Sound.pending_of_exhausted (h : s.Sound) (hmore : s.exhausted = true) :
    s.pending = none := by
  cases hp : s.pending with
  | none => rfl
  | some token => exact absurd (.inr hmore) (h.not_over hp)

/-! ### Reading -/

theorem handle_reader (r : FrameReader) (e : FrameEvent) :
    { s with reader := r }.handle e = ((s.handle e).1, { (s.handle e).2 with reader := r }) := by
  cases e with
  | failed | ended => rfl
  | frame f =>
    have hinterrupt : { s with reader := r }.interrupt f =
        ((s.interrupt f).1, { (s.interrupt f).2 with reader := r }) := by
      unfold interrupt
      split <;> rfl
    have haccept : { s with reader := r }.accept f =
        ((s.accept f).1, { (s.accept f).2 with reader := r }) := by
      unfold accept
      cases QueryType.peek f.payload with
      | error e => rfl
      | ok type =>
        cases type with
        | start | «continue» => cases hmore : s.exhausted <;> simp [hmore]
        | stop | noreplyWait => rfl
    simp only [handle, hinterrupt, haccept]
    split
    · rfl
    · split <;> rfl

/-- How much of a frame has arrived makes no difference to what is made of the events. -/
theorem handleAll_reader (r : FrameReader) (es : List FrameEvent) :
    { s with reader := r }.handleAll es =
      ((s.handleAll es).1, { (s.handleAll es).2 with reader := r }) := by
  induction es generalizing s with
  | nil => rfl
  | cons e es ih => simp only [handleAll, handle_reader, ih]

theorem handleAll_append (s : Server) (es es' : List FrameEvent) :
    s.handleAll (es ++ es') = ((s.handleAll es).1 ++ ((s.handleAll es).2.handleAll es').1,
      ((s.handleAll es).2.handleAll es').2) := by
  induction es generalizing s with
  | nil => rfl
  | cons e es ih => simp only [List.cons_append, handleAll, ih, List.append_assoc]

theorem read_eq (s : Server) (chunk : Bytes) (ended : Bool) :
    ∃ r, s.read chunk ended = ((s.handleAll (s.heard chunk ended)).1,
      { (s.handleAll (s.heard chunk ended)).2 with reader := r }) := by
  cases ended with
  | false => exact ⟨(s.reader.receive chunk).2, handleAll_reader _ _⟩
  | true => exact ⟨(s.reader.receive chunk).2.finish.2, handleAll_reader _ _⟩

/-- What an event does to a server that reads it. -/
inductive Turns (s : Server) (e : FrameEvent) : Server → Prop where
  | same (hloss : e.isLoss = false) (hstop : e.stops = true → s.gone = true) : Turns s e s
  | asked (token : Token) (hasks : e.asks = true) (hloss : e.isLoss = false)
    (hstop : e.stops = false) (hgone : s.gone = false) (hmore : s.exhausted = false) :
    Turns s e { s with pending := some token }
  | stopped (hstop : e.stops = true) (hloss : e.isLoss = false) : Turns s e s.exhaust
  | lost (hloss : e.isLoss = true) : Turns s e s.leave

theorem accept_turns (hgone : s.gone = false) (f : Frame) :
    Turns s (.frame f) (s.accept f).2 := by
  unfold accept
  cases hpeek : QueryType.peek f.payload with
  | error e => exact .same rfl fun h => by simp [FrameEvent.stops, hpeek] at h
  | ok type =>
    cases type with
    | start | «continue» =>
      dsimp only
      split
      · exact .same rfl fun h => by simp [FrameEvent.stops, hpeek] at h
      next hmore =>
        exact .asked f.token (by simp [FrameEvent.asks, hpeek]) rfl
          (by simp [FrameEvent.stops, hpeek]) hgone (Bool.eq_false_iff.mpr hmore)
    | stop => exact .stopped (by simp [FrameEvent.stops, hpeek]) rfl
    | noreplyWait => exact .same rfl fun h => by simp [FrameEvent.stops, hpeek] at h

theorem interrupt_turns (f : Frame) : Turns s (.frame f) (s.interrupt f).2 := by
  unfold interrupt
  split
  next hpeek => exact .stopped (by simp [FrameEvent.stops, hpeek]) rfl
  next hpeek =>
    have hstop : FrameEvent.stops (.frame f) = false := by
      simp only [FrameEvent.stops]
    exact .same rfl fun h => by rw [hstop] at h; cases h

theorem handle_turns (s : Server) (e : FrameEvent) : Turns s e (s.handle e).2 := by
  cases e with
  | failed | ended => exact .lost rfl
  | frame f =>
    unfold handle
    cases hgone : s.gone with
    | true => exact .same rfl fun _ => hgone
    | false =>
      simp only [Bool.false_eq_true, if_false]
      split
      · exact interrupt_turns f
      · exact accept_turns hgone f

/-- What events and supplies do to a server. -/
structure Serves (s : Server) (es : List FrameEvent) (supplies : List Supply) (w : Server) :
    Prop where
  source : w.stock.source? = s.stock.source?
  sound : s.Sound → w.Sound
  gone : s.gone = true ∨ (∃ e ∈ es, e.isLoss = true) → w.gone = true
  spent : s.exhausted = true ∨ .exhausted ∈ supplies → w.exhausted = true
  stopped : (∃ e ∈ es, e.stops = true) → w.gone = true ∨ w.exhausted = true
  /-- Nothing is supplied to a server that has lost its client or has come to its end. -/
  silent : s.Sound → s.gone = true ∨ s.exhausted = true → supplies = []
  /-- What is pending, and what has been supplied, was pending before or has been asked for. -/
  asked : supplies.countP Supply.isReady + w.pending.isSome.toNat ≤
    s.pending.isSome.toNat + es.countP FrameEvent.asks

namespace Serves

variable {w w' : Server} {es es' : List FrameEvent} {supplies supplies' : List Supply}

theorem refl (s : Server) : Serves s [] [] s :=
  ⟨rfl, id, by simp, by simp, by simp, fun _ _ => rfl, Nat.le_of_eq (Nat.add_comm _ _)⟩

theorem trans (h : Serves s es supplies w) (h' : Serves w es' supplies' w') :
    Serves s (es ++ es') (supplies ++ supplies') w' where
  source := h'.source.trans h.source
  sound := h'.sound ∘ h.sound
  gone := by
    simp only [List.mem_append, or_and_right, exists_or, ← or_assoc]
    exact fun hgone => h'.gone (hgone.imp_left h.gone)
  spent := by
    simp only [List.mem_append, ← or_assoc]
    exact fun hspent => h'.spent (hspent.imp_left h.spent)
  stopped := by
    simp only [List.mem_append, or_and_right, exists_or]
    rintro (hstop | hstop)
    · exact (h.stopped hstop).imp (fun hgone => h'.gone (.inl hgone))
        fun hmore => h'.spent (.inl hmore)
    · exact h'.stopped hstop
  silent hs hend := by
    have hstill : w.gone = true ∨ w.exhausted = true :=
      hend.imp (fun hgone => h.gone (.inl hgone)) fun hmore => h.spent (.inl hmore)
    rw [h.silent hs hend, h'.silent (h.sound hs) hstill, List.append_nil]
  asked := by
    have hfirst := h.asked
    have hsecond := h'.asked
    rw [List.countP_append, List.countP_append]
    omega

end Serves

theorem Turns.serves {e : FrameEvent} {w : Server} (h : Turns s e w) : Serves s [e] [] w := by
  cases h with
  | same hloss hstop =>
    refine ⟨rfl, id, by simp [hloss], by simp, ?_, fun _ _ => rfl, ?_⟩
    · simpa using fun h => .inl (hstop h)
    · simp
  | asked token hasks hloss hstop hgone hmore =>
    refine ⟨rfl, fun _ _ => ⟨hmore, hgone⟩, by simp [hloss], by simp, by simp [hstop],
      fun _ _ => rfl, ?_⟩
    simp [hasks]
  | stopped hstop hloss =>
    exact ⟨rfl, fun _ h => (by cases h), by simp [exhaust, hloss], fun _ => rfl,
      fun _ => .inr rfl, fun _ _ => rfl, Nat.zero_le _⟩
  | lost hloss =>
    exact ⟨rfl, fun _ h => (by cases h), fun _ => rfl, by simp [leave], fun _ => .inl rfl,
      fun _ _ => rfl, Nat.zero_le _⟩

theorem handleAll_serves (s : Server) (es : List FrameEvent) :
    Serves s es [] (s.handleAll es).2 := by
  induction es generalizing s with
  | nil => exact .refl s
  | cons e es ih => exact (s.handle_turns e).serves.trans (ih (s.handle e).2)

theorem listen_serves (s : Server) (chunk : Bytes) (ended : Bool) :
    Serves s (s.heard chunk ended) [] (s.listen chunk ended) := by
  obtain ⟨r, hread⟩ := s.read_eq chunk ended
  obtain ⟨hsource, hsound, hgone, hspent, hstopped, hover, hasked⟩ :=
    s.handleAll_serves (s.heard chunk ended)
  rw [listen, hread]
  exact ⟨hsource, hsound, hgone, hspent, hstopped, hover, hasked⟩

/-- Nothing is taken when a stop or a loss is among what is read, or if there has been an end. -/
theorem pull?_isSome (hs : s.Sound) (h : (s.pull? reader chunk ended sources).isSome = true) :
    s.gone = false ∧ s.exhausted = false ∧
      ∀ e ∈ s.heard chunk ended, e.stops = false ∧ e.isLoss = false := by
  have hl := s.listen_serves chunk ended
  have hpending : (s.listen chunk ended).pending.isSome = true := by
    simpa only [pull?, Option.isSome_map] using h
  obtain ⟨hmore, hgone⟩ := hl.sound hs hpending
  simp only [← Bool.not_eq_true] at hmore hgone ⊢
  refine ⟨fun hg => hgone (hl.gone (.inl hg)), fun hx => hmore (hl.spent (.inl hx)),
    fun e he => ⟨fun hstop => ?_, fun hloss => hgone (hl.gone (.inr ⟨e, he, hloss⟩))⟩⟩
  exact (hl.stopped ⟨e, he, hstop⟩).elim hgone hmore

theorem Turns.gone_iff {e : FrameEvent} {w : Server} (h : Turns s e w) :
    w.gone = true ↔ s.gone = true ∨ e.isLoss = true := by
  cases h with
  | same hloss | asked _ _ hloss | stopped _ hloss => simp [exhaust, hloss]
  | lost hloss => simp [leave, hloss]

theorem handleAll_gone (s : Server) (es : List FrameEvent) :
    (s.handleAll es).2.gone = true ↔ s.gone = true ∨ ∃ e ∈ es, e.isLoss = true := by
  induction es generalizing s with
  | nil => simp [handleAll]
  | cons e es ih =>
    have hfirst := (s.handle_turns e).gone_iff
    simp only [handleAll, ih, hfirst, List.mem_cons, or_and_right, exists_or, exists_eq_left,
      or_assoc]

theorem handle_of_gone (hgone : s.gone = true) (e : FrameEvent) : (s.handle e).1 = none := by
  cases e with
  | failed | ended => rfl
  | frame f => simp [handle, hgone]

theorem handleAll_of_gone (hgone : s.gone = true) (es : List FrameEvent) :
    (s.handleAll es).1 = [] := by
  induction es generalizing s with
  | nil => rfl
  | cons e es ih =>
    have hstill : (s.handle e).2.gone = true := (s.handle_turns e).gone_iff.mpr (.inl hgone)
    simp only [handleAll, handle_of_gone hgone, ih hstill, Option.toList_none, List.nil_append]

theorem handle_of_exhausted (hs : s.Sound) (hmore : s.exhausted = true) (hgone : s.gone = false)
    (f : Frame) : (s.handle (.frame f)).1 = some (closing f) := by
  simp only [handle, hgone, hs.pending_of_exhausted hmore, Bool.false_eq_true, if_false,
    Option.isSome_none, accept, closing, hmore, if_true]
  cases QueryType.peek f.payload with
  | error e => rfl
  | ok type => cases type <;> rfl

/-- Without more values a server answers every request by its end. -/
theorem handleAll_of_exhausted (es : List FrameEvent) (hs : s.Sound) (hmore : s.exhausted = true)
    (hgone : s.gone = false) : (s.handleAll es).1 = closings es := by
  induction es generalizing s with
  | nil => rfl
  | cons e es ih =>
    have hserves := (s.handle_turns e).serves
    have hgone' := (s.handle_turns e).gone_iff
    cases e with
    | failed | ended => exact handleAll_of_gone (s := s.leave) rfl es
    | frame f =>
      have hthere : (s.handle (.frame f)).2.gone = false := by
        rw [← Bool.not_eq_true, hgone', hgone]
        simp [FrameEvent.isLoss]
      have hrest := ih (hserves.sound hs) (hserves.spent (.inl hmore)) hthere
      simp only [handleAll, handle_of_exhausted hs hmore hgone, hrest]
      rfl

section Ending

variable {es : List FrameEvent} (hgone : s.gone = false) (hloss : ∀ e ∈ es, e.isLoss = false)
  (hend : s.exhausted = true ∨ ∃ e ∈ es, e.stops = true) (hs : s.Sound)

include hgone hloss hend

theorem handleAll_ends :
    (s.handleAll es).2.gone = false ∧ (s.handleAll es).2.exhausted = true := by
  have hserves := s.handleAll_serves es
  have hthere : (s.handleAll es).2.gone = false := by
    rw [← Bool.not_eq_true, handleAll_gone, hgone]
    rintro (hg | ⟨e, he, h⟩)
    · cases hg
    · rw [hloss e he] at h
      cases h
  refine ⟨hthere, ?_⟩
  rcases hend with hmore | hstop
  · exact hserves.spent (.inl hmore)
  · refine (hserves.stopped hstop).resolve_left ?_
    rw [hthere]
    decide

include hs

/-- After an end or a stop every request is answered by its end. -/
theorem handleAll_of_end (es' : List FrameEvent) :
    (s.handleAll (es ++ es')).1 = (s.handleAll es).1 ++ closings es' := by
  obtain ⟨hthere, hmore⟩ := handleAll_ends hgone hloss hend
  rw [handleAll_append]
  simp only [handleAll_of_exhausted es' ((s.handleAll_serves es).sound hs) hmore hthere]

/-- After an end or a stop a server takes no chunk, and answers at once all that it reads. -/
theorem answers_of_end {es' : List FrameEvent} (hheard : s.heard chunk ended = es ++ es')
    (reader : ReaderId) (sources : List Source) :
    s.pull? reader chunk ended sources = none ∧
      s.due reader chunk ended sources = (s.handleAll es).1 ++ closings es' := by
  obtain ⟨hthere, hmore⟩ := handleAll_ends hgone hloss hend
  obtain ⟨r, hread⟩ := s.read_eq chunk ended
  have hpending : (s.listen chunk ended).pending = none := by
    refine ((s.listen_serves chunk ended).sound hs).pending_of_exhausted ?_
    rw [listen, hread, hheard, handleAll_append]
    exact ((s.handleAll es).2.handleAll_serves es').spent (.inl hmore)
  have hserve : ((s.listen chunk ended).serve reader sources).1 = none := by
    simp only [serve, hpending]
  refine ⟨by simp [pull?, hpending], ?_⟩
  rw [due, hserve, Option.toList_none, List.append_nil, hread, hheard,
    handleAll_of_end hgone hloss hend hs]

end Ending

/-! ### Answering -/

/-- What a server makes of its pending request when all is read. -/
inductive Answers (l : Server) : Option Supply → Option Response → Server → Prop where
  | idle (h : l.pending = none) : Answers l none none l
  | waits {token : Token} (h : l.pending = some token) (stock : Stock)
    (hsource : stock.source? = l.stock.source?) :
    Answers l (some .wait) none { l with stock }
  | ends {token : Token} (h : l.pending = some token) (stock : Stock)
    (hsource : stock.source? = l.stock.source?) :
    Answers l (some .exhausted) (some (ending token)) { l with stock }.exhaust
  | gives {token : Token} (h : l.pending = some token) (stock : Stock)
    (hsource : stock.source? = l.stock.source?) (values : Chunk) :
    Answers l (some (.chunk values)) (some (.plain token (.batch values)))
      { l with stock, pending := none }

theorem request_own (h : s.stock.source? = none) : (s.request reader sources).2.2 = sources := by
  unfold request
  cases hstock : s.stock with
  | own chunk => cases chunk <;> rfl
  | shared id =>
    rw [hstock] at h
    cases h

theorem request_shared {id : SourceId} (h : s.stock.source? = some id) (reader : ReaderId)
    (sources : List Source) :
    s.request reader sources =
      match sources[id]? with
      | none => (.exhausted, .shared id, sources)
      | some src => ((src.take reader).1, .shared id, sources.set id (src.take reader).2) := by
  unfold request
  cases hstock : s.stock with
  | own chunk =>
    rw [hstock] at h
    cases h
  | shared j =>
    rw [hstock] at h
    obtain rfl := Option.some.inj h
    rfl

theorem request_source (s : Server) (reader : ReaderId) (sources : List Source) :
    (s.request reader sources).2.1.source? = s.stock.source? := by
  cases h : s.stock with
  | own chunk =>
    simp only [request, h]
    cases chunk <;> rfl
  | shared id =>
    have hshared : s.stock.source? = some id := by rw [h]; rfl
    rw [request_shared hshared]
    cases sources[id]? <;> rfl

theorem serve_answers (l : Server) (reader : ReaderId) (sources : List Source) :
    Answers l (l.pending.map fun _ => (l.request reader sources).1)
      (l.serve reader sources).1 (l.serve reader sources).2.1 := by
  have hsource := l.request_source reader sources
  obtain ⟨own, exhausted, pending, events, gone⟩ := l
  cases pending with
  | none => exact .idle rfl
  | some token =>
    unfold serve
    generalize request _ reader sources = given at hsource
    obtain ⟨supply, stock, rest⟩ := given
    cases supply with
    | wait => exact .waits rfl stock hsource
    | exhausted => exact .ends rfl stock hsource
    | chunk values => exact .gives rfl stock hsource values

theorem Answers.serves {l v : Server} {supply : Option Supply} {reply : Option Response}
    (h : Answers l supply reply v) : Serves l [] supply.toList v := by
  cases h with
  | idle => exact .refl l
  | waits h stock hsource =>
    refine ⟨hsource, id, by simp, by simp, by simp, fun hs hend => ?_, by simp [Supply.isReady]⟩
    exact absurd hend (hs.not_over h)
  | ends h stock hsource =>
    refine ⟨hsource, fun _ h => (by cases h), by simp [exhaust], fun _ => rfl, by simp,
      fun hs hend => ?_, by simp [exhaust, h, Supply.isReady]⟩
    exact absurd hend (hs.not_over h)
  | gives h stock hsource values =>
    refine ⟨hsource, fun _ h => (by cases h), by simp, by simp, by simp,
      fun hs hend => ?_, by simp [h, Supply.isReady]⟩
    exact absurd hend (hs.not_over h)

/-- A request that is still pending has been told to wait. -/
theorem Answers.pending {l v : Server} {supply : Option Supply} {reply : Option Response}
    (h : Answers l supply reply v) (hv : v.pending.isSome = true) : supply = some .wait := by
  cases h with
  | idle hp =>
    rw [hp] at hv
    cases hv
  | waits => rfl
  | ends | gives => cases hv

theorem leave_serves (v : Server) : Serves v [] [] v.leave :=
  ⟨rfl, fun _ h => (by cases h), fun _ => rfl, by simp [leave], by simp, fun _ _ => rfl,
    Nat.zero_le _⟩

theorem serve_sources (s : Server) (reader : ReaderId) (sources : List Source) :
    (s.serve reader sources).2.2 =
      if s.pending.isSome then (s.request reader sources).2.2 else sources := by
  cases h : s.pending with
  | none => simp [serve, h]
  | some token =>
    simp only [serve, h, Option.isSome_some, if_true]
    split
    all_goals simp_all

theorem encode_frameOf (r : Response) : Frame.encode .default ⟨r.token, r.encode⟩ [] =
    if fits r then .ok (frameOf r).bytes
    else .error (.frameTooLarge r.encode.length FrameLimit.default.bytes) := by
  simp only [Frame.encode, FrameHeader.ofPayload, fits]
  by_cases hfits : r.encode.length ≤ FrameLimit.default.bytes
  · have hsize : r.encode.length < UInt32.size := Nat.lt_of_le_of_lt hfits FrameLimit.default.fits
    simp only [Nat.not_lt.mpr hfits, hsize, hfits, if_true, if_false, decide_true]
    simp only [frameOf, Frame.bytes, FrameHeader.encode, List.nil_append]
  · simp only [Nat.not_le.mp hfits, hfits, if_true, decide_false, Bool.false_eq_true, if_false]

/-- What goes out are the answers up to the first that does not fit, which ends the server. -/
theorem send_eq (s : Server) (rs : List Response) : s.send rs =
    ((rs.takeWhile fits).flatMap fun r => (frameOf r).bytes,
      if rs.all fits then s else s.leave) := by
  induction rs with
  | nil => rfl
  | cons r rs ih =>
    have hencode := encode_frameOf r
    cases hfits : fits r with
    | true =>
      simp only [hfits, if_true] at hencode
      simp only [send, hencode, ih, List.takeWhile_cons, hfits, if_true, List.flatMap_cons,
        List.all_cons, Bool.true_and]
    | false =>
      simp only [hfits, Bool.false_eq_true, if_false] at hencode
      simp [send, hencode, hfits]

theorem step_bytes (s : Server) (reader : ReaderId) (chunk : Bytes) (ended : Bool)
    (sources : List Source) : (s.step reader chunk ended sources).1 =
      (s.answers reader chunk ended sources).flatMap fun r => (frameOf r).bytes := by
  simp only [step, send_eq]
  rfl

theorem step_sources (s : Server) (reader : ReaderId) (chunk : Bytes) (ended : Bool)
    (sources : List Source) : (s.step reader chunk ended sources).2.2 =
      (s.step reader chunk ended sources).2.1.release reader
        ((s.listen chunk ended).serve reader sources).2.2 := by
  rfl

/-- A server that cannot send all its answers is as one that has lost its client. -/
theorem step_server (s : Server) (reader : ReaderId) (chunk : Bytes) (ended : Bool)
    (sources : List Source) : (s.step reader chunk ended sources).2.1 =
      if (s.due reader chunk ended sources).all fits
      then ((s.listen chunk ended).serve reader sources).2.1
      else ((s.listen chunk ended).serve reader sources).2.1.leave := by
  simp only [step, send_eq]
  rfl

/-- What a turn does to a server. -/
theorem step_serves (s : Server) (reader : ReaderId) (chunk : Bytes) (ended : Bool)
    (sources : List Source) :
    Serves s (s.heard chunk ended) (s.pull? reader chunk ended sources).toList
      (s.step reader chunk ended sources).2.1 := by
  have hlisten := s.listen_serves chunk ended
  have hserve := ((s.listen chunk ended).serve_answers reader sources).serves
  have hturn := hlisten.trans hserve
  rw [List.append_nil, List.nil_append] at hturn
  rw [step_server]
  split
  · exact hturn
  · have hleave := hturn.trans (leave_serves _)
    rwa [List.append_nil, List.append_nil] at hleave

theorem fits_ending (token : Token) : fits (ending token) = true := by
  have hencode : (ending token).encode = (ending 0).encode := rfl
  unfold fits
  rw [hencode]
  decide +kernel

theorem fits_waitComplete (token : Token) : fits (.plain token .waitComplete) = true := by
  have hencode : (Response.plain token .waitComplete).encode =
      (Response.plain 0 .waitComplete).encode := rfl
  unfold fits
  rw [hencode]
  decide +kernel

/-- The end of a query, and of all that was asked without waiting, fits into a frame. -/
theorem handle_fits {e : FrameEvent} (h : e.isGarbled = false) :
    ∀ r ∈ (s.handle e).1, fits r = true := by
  cases e with
  | failed | ended => simp [handle]
  | frame f =>
    unfold FrameEvent.isGarbled at h
    cases hpeek : QueryType.peek f.payload with
    | error e => simp [hpeek] at h
    | ok type =>
      simp only [handle, interrupt, accept, hpeek]
      split
      · simp
      · split
        · cases type <;> simp [fits_ending]
        · cases type <;> cases s.exhausted <;> simp [fits_ending, fits_waitComplete]

theorem handleAll_fits (s : Server) {es : List FrameEvent}
    (h : ∀ e ∈ es, e.isGarbled = false) : ∀ r ∈ (s.handleAll es).1, fits r = true := by
  induction es generalizing s with
  | nil => simp [handleAll]
  | cons e es ih =>
    intro r hr
    rcases List.mem_append.mp hr with hr | hr
    · exact handle_fits (h e List.mem_cons_self) r (Option.mem_toList.mp hr)
    · exact ih _ (fun e' he' => h e' (List.mem_cons_of_mem e he')) r hr

/-- A server that takes nothing in a turn sends all its answers, if every frame is a query. -/
theorem answers_eq_due (hpull : s.pull? reader chunk ended sources = none)
    (h : ∀ e ∈ s.heard chunk ended, e.isGarbled = false) :
    s.answers reader chunk ended sources = s.due reader chunk ended sources := by
  have hpending : (s.listen chunk ended).pending = none := by
    simpa only [pull?, Option.map_eq_none_iff] using hpull
  have hserve : ((s.listen chunk ended).serve reader sources).1 = none := by
    simp only [serve, hpending]
  obtain ⟨r, hread⟩ := s.read_eq chunk ended
  refine List.takeWhile_eq_self_iff.mpr fun r hr => ?_
  rw [due, hserve, Option.toList_none, List.append_nil, hread] at hr
  exact s.handleAll_fits h r hr

theorem accept_chunks (f : Frame) : ∀ r ∈ (s.accept f).1, r.chunks = [] := by
  unfold accept
  cases QueryType.peek f.payload with
  | error e => simp [Response.chunks, Response.plain]
  | ok type =>
    cases type with
    | start | «continue» => cases h : s.exhausted <;> simp [ending, Response.chunks, Response.plain]
    | stop | noreplyWait => simp [ending, Response.chunks, Response.plain]

theorem interrupt_chunks (f : Frame) : ∀ r ∈ (s.interrupt f).1, r.chunks = [] := by
  unfold interrupt
  split <;> simp [ending, Response.chunks, Response.plain]

theorem handle_chunks (s : Server) (e : FrameEvent) : ∀ r ∈ (s.handle e).1, r.chunks = [] := by
  cases e with
  | failed | ended => simp [handle]
  | frame f =>
    simp only [handle]
    split
    · simp
    · split
      · exact interrupt_chunks f
      · exact accept_chunks f

/-- What is answered while the events are read carries no chunk. -/
theorem handleAll_chunks (s : Server) (es : List FrameEvent) :
    ∀ r ∈ (s.handleAll es).1, r.chunks = [] := by
  induction es generalizing s with
  | nil => simp [handleAll]
  | cons e es ih =>
    intro r hr
    rcases List.mem_append.mp hr with hr | hr
    · exact s.handle_chunks e r (Option.mem_toList.mp hr)
    · exact ih _ r hr

theorem Answers.chunks {l v : Server} {supply : Option Supply} {reply : Option Response}
    (h : Answers l supply reply v) :
    reply.toList.flatMap Response.chunks = supply.toList.flatMap Source.Supply.toList := by
  cases h <;> rfl

/-- Answers without a chunk, and a last one, carry its chunk exactly if all of them fit. -/
theorem takeWhile_chunks {replies : List Response} {reply : Option Response}
    (hreplies : ∀ r ∈ replies, r.chunks = []) :
    ((replies ++ reply.toList).takeWhile fits).flatMap Response.chunks =
      if (replies ++ reply.toList).all fits then reply.toList.flatMap Response.chunks else [] := by
  have hnone : ∀ rs ⊆ replies, rs.flatMap Response.chunks = [] := fun rs hrs =>
    List.flatMap_eq_nil_iff.mpr fun r hr => hreplies r (hrs hr)
  split
  next hall =>
    rw [List.takeWhile_eq_self_iff.mpr (List.all_eq_true.mp hall), List.flatMap_append,
      hnone replies (List.Subset.refl _), List.nil_append]
  next hall =>
    refine hnone _ ?_
    rw [List.takeWhile_append]
    split
    next hlen =>
      have hfit : replies.all fits = true := by
        rw [List.all_eq_true]
        intro r hr
        rw [← (List.takeWhile_prefix fits).eq_of_length hlen] at hr
        exact List.mem_takeWhile_imp hr
      rw [List.all_append, hfit, Bool.true_and] at hall
      cases reply with
      | none => simp
      | some r =>
        have hr : fits r = false := by simpa using hall
        simp [hr]
    · exact (List.takeWhile_sublist fits).subset

/-- The chunks in the answers of a turn are those it takes, unless an answer does not fit. -/
theorem answers_chunks (s : Server) (reader : ReaderId) (chunk : Bytes) (ended : Bool)
    (sources : List Source) :
    let taken := (s.pull? reader chunk ended sources).toList.flatMap Source.Supply.toList
    let sent := (s.answers reader chunk ended sources).flatMap Response.chunks
    sent = taken ∨ sent = [] ∧ taken.length ≤ 1 ∧
      (s.step reader chunk ended sources).2.1.gone = true := by
  intro taken sent
  have hserve := ((s.listen chunk ended).serve_answers reader sources).chunks
  have hreplies : ∀ r ∈ (s.read chunk ended).1, r.chunks = [] := by
    obtain ⟨r, hread⟩ := s.read_eq chunk ended
    rw [hread]
    exact s.handleAll_chunks _
  have hsent : sent = if (s.due reader chunk ended sources).all fits then
      ((s.listen chunk ended).serve reader sources).1.toList.flatMap Response.chunks else [] :=
    takeWhile_chunks hreplies
  have hserver := s.step_server reader chunk ended sources
  cases hall : (s.due reader chunk ended sources).all fits with
  | true =>
    rw [hall, if_pos rfl] at hsent
    exact .inl (hsent.trans hserve)
  | false =>
    rw [hall, if_neg Bool.false_ne_true] at hsent hserver
    refine .inr ⟨hsent, ?_, by rw [hserver]; rfl⟩
    change ((s.pull? reader chunk ended sources).toList.flatMap _).length ≤ 1
    cases s.pull? reader chunk ended sources with
    | none => exact Nat.zero_le 1
    | some supply => cases supply <;> simp [Source.Supply.toList]

end Server
end Mock
end Reql
