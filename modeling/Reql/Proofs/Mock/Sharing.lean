import Mathlib.Data.List.Nodup
import Reql.Proofs.Mock.Pool
import Reql.Session.Settling

/-! Sources that executions share: no chunk is lost, taken twice or taken for a client that is
gone. -/
namespace Reql
namespace Mock

namespace Source

def waiting : Source → List ReaderId
  | .generator _ => []
  | .feed _ _ waiting => waiting

variable {src : Source} {reader : ReaderId}

@[simp] theorem waiting_leave (src : Source) (reader : ReaderId) :
    (src.leave reader).waiting = src.waiting.erase reader := by
  cases src <;> rfl

@[simp] theorem waiting_push (src : Source) (values : Chunk) :
    (src.push values).2.waiting = src.waiting := by
  cases src with
  | generator entries => rfl
  | feed queue closed line => cases closed <;> rfl

@[simp] theorem waiting_close (src : Source) : src.close.waiting = src.waiting := by
  cases src <;> rfl

theorem nodup_lineUp {line : List ReaderId} (h : line.Nodup) : (lineUp reader line).Nodup := by
  unfold lineUp
  split
  · exact h
  next hnew =>
    rw [List.nodup_append]
    exact ⟨h, List.nodup_singleton _, fun a ha b hb => by
      rw [List.mem_singleton] at hb
      rintro rfl
      exact hnew (hb ▸ ha)⟩

theorem mem_lineUp {line : List ReaderId} {j : ReaderId} (h : j ∈ lineUp reader line) :
    j ∈ line ∨ j = reader := by
  unfold lineUp at h
  split at h
  · exact .inl h
  · simpa using h

/-- A request adds no reader but its own to the line, and that once. -/
theorem waiting_take (h : src.waiting.Nodup) :
    (src.take reader).2.waiting.Nodup ∧
      ∀ j ∈ (src.take reader).2.waiting, j ∈ src.waiting ∨ j = reader := by
  cases src with
  | generator entries =>
    have hnone : ((generator entries).take reader).2.waiting = [] := by
      rcases entries with _ | ⟨_ | values, rest⟩ <;> rfl
    rw [hnone]
    exact ⟨List.nodup_nil, fun j hj => absurd hj List.not_mem_nil⟩
  | feed queue closed line =>
    have hline : (lineUp reader line).Nodup := nodup_lineUp h
    have hleft : ((lineUp reader line).erase reader).Nodup ∧
        ∀ j ∈ (lineUp reader line).erase reader, j ∈ line ∨ j = reader :=
      ⟨hline.erase _, fun j hj => mem_lineUp (List.mem_of_mem_erase hj)⟩
    simp only [take]
    split
    · cases queue with
      | cons values rest => exact hleft
      | nil =>
        cases closed with
        | true => exact hleft
        | false => exact ⟨hline, fun j hj => mem_lineUp hj⟩
    · exact ⟨hline, fun j hj => mem_lineUp hj⟩

end Source

namespace Server

variable {s : Server} {sources : List Source} {id : SourceId}

theorem release_shared (h : s.stock.source? = some id) (reader : ReaderId) :
    s.release reader sources =
      if s.pending.isSome then sources else sources.modify id (·.leave reader) := by
  unfold release
  cases hstock : s.stock with
  | own chunk =>
    rw [hstock] at h
    cases h
  | shared j =>
    rw [hstock] at h
    obtain rfl := Option.some.inj h
    cases s.pending <;> rfl

/-- The source that a server takes from, after a turn of the server. -/
theorem step_source (h : s.stock.source? = some id) (reader : ReaderId) (chunk : Bytes)
    (ended : Bool) (sources : List Source) :
    (s.step reader chunk ended sources).2.2[id]? = sources[id]?.map fun src =>
      let src := if (s.listen chunk ended).pending.isSome then (src.take reader).2 else src
      if (s.step reader chunk ended sources).2.1.pending.isSome then src else src.leave reader := by
  have hserve : ((s.listen chunk ended).serve reader sources).2.2[id]? = sources[id]?.map
      fun src => if (s.listen chunk ended).pending.isSome then (src.take reader).2 else src := by
    rw [serve_sources]
    split
    · rw [request_shared ((s.listen_serves chunk ended).source.trans h)]
      cases hsrc : sources[id]? with
      | none => simp [hsrc]
      | some src => simp [(List.getElem?_eq_some_iff.mp hsrc).1]
    · rw [Option.map_id']
  rw [step_sources, release_shared ((s.step_serves reader chunk ended sources).source.trans h)]
  split
  · rw [hserve]
  · rw [List.getElem?_modify_eq, hserve, Option.map_eq_map, Option.map_map]
    rfl

theorem step_source_ne (h : s.stock.source? ≠ some id) (reader : ReaderId) (chunk : Bytes)
    (ended : Bool) : (s.step reader chunk ended sources).2.2[id]? = sources[id]? := by
  have hlisten := (s.listen_serves chunk ended).source
  have hserve : ((s.listen chunk ended).serve reader sources).2.2[id]? = sources[id]? := by
    rw [serve_sources]
    split
    · cases hstock : s.stock.source? with
      | none => rw [request_own (hlisten.trans hstock)]
      | some j =>
        have hj : j ≠ id := fun hj => h (hj ▸ hstock)
        rw [request_shared (hlisten.trans hstock)]
        cases sources[j]? with
        | none => rfl
        | some src => exact List.getElem?_set_ne hj
    · rfl
  have hafter := (s.step_serves reader chunk ended sources).source
  rw [step_sources, ← hserve]
  unfold release
  split
  next j hstock =>
    refine List.getElem?_modify_ne _ _ ?_
    rintro rfl
    rw [hstock] at hafter
    exact h hafter.symm
  · rfl

theorem pull?_of_pending {reader : ReaderId} {chunk : Bytes} {ended : Bool}
    (h : (s.step reader chunk ended sources).2.1.pending.isSome = true) :
    s.pull? reader chunk ended sources = some .wait := by
  rw [step_server] at h
  split at h
  · exact ((s.listen chunk ended).serve_answers reader sources).pending h
  · cases h

end Server

namespace Pool

variable {p : Pool} {m : Move} {i : ReaderId} {id : SourceId}

/-- Every reader in line at a source is the server of an execution on it whose request is pending,
and stands there once. -/
def Lined (p : Pool) : Prop :=
  ∀ id src, p.sources[id]? = some src → src.waiting.Nodup ∧
    ∀ i ∈ src.waiting, ∃ s, p.server? i = some s ∧ s.stock.source? = some id ∧
      s.pending.isSome = true

theorem lined_empty : empty.Lined :=
  fun id src h => by simp [empty] at h

theorem Lined.append (h : p.Lined) {src : Source} (hsrc : src.waiting = []) :
    Lined { p with sources := p.sources ++ [src] } := by
  intro id src' hid
  rw [List.getElem?_append] at hid
  split at hid
  · exact h id src' hid
  · rw [List.getElem?_singleton] at hid
    split at hid
    · obtain rfl := Option.some.inj hid
      rw [hsrc]
      exact ⟨List.nodup_nil, fun i hi => by cases hi⟩
    · cases hid

theorem Lined.modify (h : p.Lined) {f : Source → Source} (hf : ∀ src, (f src).waiting = src.waiting)
    (j : SourceId) : Lined { p with sources := p.sources.modify j f } := by
  intro id src' hid
  simp only [List.getElem?_modify, Option.map_eq_map, Option.map_eq_some_iff] at hid
  obtain ⟨src, hsrc, rfl⟩ := hid
  have hwaiting : (if j = id then f src else src).waiting = src.waiting := by
    split
    · exact hf src
    · rfl
  rw [hwaiting]
  exact h id src hsrc

theorem Lined.servers (h : p.Lined) {servers : List (Option Server)}
    (hsame : ∀ i s, p.server? i = some s → (Pool.mk servers p.sources).server? i = some s) :
    Lined { p with servers } := by
  intro id src hid
  obtain ⟨hnodup, hmem⟩ := h id src hid
  refine ⟨hnodup, fun i hi => ?_⟩
  obtain ⟨s, hs, hstock⟩ := hmem i hi
  exact ⟨s, hsame i s hs, hstock⟩

theorem Lined.turn (h : p.Lined) {s : Server} (hs : p.server? i = some s) (chunk : Bytes)
    (ended : Bool) : (p.after (.turn i chunk ended)).Lined := by
  have hown := (s.step_serves i chunk ended p.sources).source
  intro id src' hid
  rw [after_turn hs] at hid ⊢
  have hself : ∀ w sources, (Pool.mk (p.servers.set i (some w)) sources).server? i = some w := by
    intro w sources
    simp only [server?, List.getElem?_set_self (lt_of_server? hs), Option.join_some]
  by_cases hstock : s.stock.source? = some id
  · rw [Server.step_source hstock, Option.map_eq_some_iff] at hid
    obtain ⟨src, hsrc, rfl⟩ := hid
    obtain ⟨hnodup, hmem⟩ := h id src hsrc
    -- The line after the request, before the server leaves it.
    have hline : ∀ src₁, (src₁ = if (s.listen chunk ended).pending.isSome then (src.take i).2
        else src) → src₁.waiting.Nodup ∧ ∀ j ∈ src₁.waiting, j ∈ src.waiting ∨ j = i := by
      rintro src₁ rfl
      split
      · exact Source.waiting_take hnodup
      · exact ⟨hnodup, fun j hj => .inl hj⟩
    obtain ⟨hnodup₁, hmem₁⟩ := hline _ rfl
    have hothers : ∀ j ∈ src.waiting, j ≠ i → ∃ t,
        (Pool.mk (p.servers.set i (some (s.step i chunk ended p.sources).2.1))
          (s.step i chunk ended p.sources).2.2).server? j = some t ∧
          t.stock.source? = some id ∧ t.pending.isSome = true := by
      intro j hj hne
      obtain ⟨t, ht, htstock⟩ := hmem j hj
      exact ⟨t, by rw [server?_set _ _ (Ne.symm hne), ht], htstock⟩
    simp only
    split
    next hpending =>
      refine ⟨hnodup₁, fun j hj => ?_⟩
      by_cases hne : j = i
      · subst hne
        exact ⟨_, hself _ _, hown.trans hstock, hpending⟩
      · exact hothers j ((hmem₁ j hj).resolve_right hne) hne
    · rw [Source.waiting_leave]
      refine ⟨hnodup₁.erase i, fun j hj => ?_⟩
      obtain ⟨hne, hj⟩ := hnodup₁.mem_erase_iff.mp hj
      exact hothers j ((hmem₁ j hj).resolve_right hne) hne
  · rw [Server.step_source_ne hstock] at hid
    obtain ⟨hnodup, hmem⟩ := h id src' hid
    refine ⟨hnodup, fun j hj => ?_⟩
    obtain ⟨t, ht, htstock, htpending⟩ := hmem j hj
    have hne : i ≠ j := by
      rintro rfl
      rw [hs] at ht
      obtain rfl := Option.some.inj ht
      exact hstock htstock
    exact ⟨t, by rw [server?_set _ _ hne, ht], htstock, htpending⟩

/-- Moves keep the lines in order. -/
theorem Lined.after (h : p.Lined) (m : Move) : (p.after m).Lined := by
  cases m with
  | generator | feed => exact h.append rfl
  | push j values => exact h.modify (fun src => src.waiting_push values) j
  | close j => exact h.modify (fun src => src.waiting_close) j
  | execute | bystander =>
    refine h.servers fun i s hs => ?_
    simp only [server?] at hs ⊢
    rw [List.getElem?_append_left (lt_of_server? hs), hs]
  | turn i chunk ended =>
    cases hs : p.server? i with
    | none =>
      have hsame : p.after (.turn i chunk ended) = p := by simp only [Pool.after, hs]
      rwa [hsame]
    | some s => exact h.turn hs chunk ended

theorem lined_run (ms : List Move) : (empty.run ms).Lined := by
  induction ms using List.reverseRecOn with
  | nil => exact lined_empty
  | append_singleton ms m ih =>
    rw [run_append]
    exact ih.after m

/-- No execution on a source has an unanswered request. -/
def Idle (p : Pool) (id : SourceId) : Prop :=
  ∀ i s, p.server? i = some s → s.stock.source? = some id → s.pending = none

/-- A feed holds chunks while no execution on it has an unanswered request. -/
def Ready (p : Pool) (id : SourceId) (queue : List Chunk) : Prop :=
  (∃ closed, p.sources[id]? = some (.feed queue closed [])) ∧ p.Idle id

/-- At a feed without unanswered requests nobody is in line. -/
theorem Lined.waiting_eq_nil (h : p.Lined) (hidle : p.Idle id) {src : Source}
    (hsrc : p.sources[id]? = some src) : src.waiting = [] := by
  rw [List.eq_nil_iff_forall_not_mem]
  intro i hi
  obtain ⟨s, hs, hstock, hpending⟩ := (h id src hsrc).2 i hi
  rw [hidle i s hs hstock] at hpending
  cases hpending

theorem Idle.turn (h : p.Idle id) {s : Server} (hs : p.server? i = some s) {chunk : Bytes}
    {ended : Bool}
    (hpull : s.stock.source? = some id → s.pull? i chunk ended p.sources ≠ some .wait) :
    (p.after (.turn i chunk ended)).Idle id := by
  intro j t ht hstock
  rw [after_turn hs] at ht
  by_cases hj : i = j
  · subst hj
    simp only [server?, List.getElem?_set_self (lt_of_server? hs), Option.join_some] at ht
    obtain rfl := Option.some.inj ht
    rw [(s.step_serves i chunk ended p.sources).source] at hstock
    rw [← Option.not_isSome_iff_eq_none]
    exact fun hpending => hpull hstock (Server.pull?_of_pending hpending)
  · rw [server?_set _ _ hj] at ht
    exact h j t ht hstock

theorem Idle.apart (h : p.Idle id) (hm : ∀ i chunk ended, m ≠ .turn i chunk ended) :
    (p.after m).Idle id := by
  intro j t ht hstock
  have hfares := fares p m j
  generalize (p.after m).server? j = next at hfares ht
  cases hfares with
  | turn _ chunk ended => exact absurd rfl (hm j chunk ended)
  | begin _ stock =>
    obtain rfl := Option.some.inj ht
    rfl
  | apart _ => exact h j t ht hstock

/-- The next request at a feed that holds chunks takes the first of them. -/
theorem Ready.turn {values : Chunk} {queue : List Chunk} (h : p.Ready id (values :: queue))
    {s : Server} (hs : p.server? i = some s) (chunk : Bytes) (ended : Bool) :
    (pullsOn id p [.turn i chunk ended] = [] ∧
        (p.after (.turn i chunk ended)).Ready id (values :: queue)) ∨
      (pullsOn id p [.turn i chunk ended] = [(i, .chunk values)] ∧
        (p.after (.turn i chunk ended)).Ready id queue) := by
  obtain ⟨⟨closed, hsrc⟩, hidle⟩ := h
  have hpulls : pullsOn id p [.turn i chunk ended] = if s.stock.source? = some id then
      (s.pull? i chunk ended p.sources).toList.map fun supply => (i, supply) else [] := by
    simp only [pullsOn, collect, onTurn_turn _ hs, List.append_nil]
  by_cases hstock : s.stock.source? = some id
  · rw [if_pos hstock] at hpulls
    have hsource := Server.step_source hstock i chunk ended p.sources
    rw [hsrc] at hsource
    cases hp : (s.listen chunk ended).pending with
    | none =>
      have hpull : s.pull? i chunk ended p.sources = none := by simp [Server.pull?, hp]
      have hwait : s.pull? i chunk ended p.sources ≠ some .wait := by simp [hpull]
      have hpending : ¬(s.step i chunk ended p.sources).2.1.pending.isSome = true :=
        fun h => hwait (Server.pull?_of_pending h)
      refine .inl ⟨by rw [hpulls, hpull]; rfl, ⟨closed, ?_⟩, hidle.turn hs fun _ => hwait⟩
      rw [after_turn hs, hsource]
      simp [hp, hpending, Source.leave]
    | some token =>
      have hpull : s.pull? i chunk ended p.sources = some (.chunk values) := by
        have hrequest := Server.request_shared
          ((s.listen_serves chunk ended).source.trans hstock) i p.sources
        simp [Server.pull?, hp, hrequest, hsrc, Source.take, Source.lineUp, Source.serveFirst]
      have hwait : s.pull? i chunk ended p.sources ≠ some .wait := by simp [hpull]
      have hpending : ¬(s.step i chunk ended p.sources).2.1.pending.isSome = true :=
        fun h => hwait (Server.pull?_of_pending h)
      refine .inr ⟨by rw [hpulls, hpull]; rfl, ⟨closed, ?_⟩, hidle.turn hs fun _ => hwait⟩
      rw [after_turn hs, hsource]
      simp [hp, hpending, Source.leave, Source.take, Source.lineUp, Source.serveFirst]
  · rw [if_neg hstock] at hpulls
    refine .inl ⟨hpulls, ⟨closed, ?_⟩, hidle.turn hs fun h => absurd h hstock⟩
    rw [after_turn hs]
    exact (Server.step_source_ne hstock i chunk ended).trans hsrc

/-- A move leaves the chunks of an idle feed where they are, or takes the first. -/
theorem Ready.after {values : Chunk} {queue : List Chunk} (h : p.Ready id (values :: queue))
    (m : Move) :
    (pullsOn id p [m] = [] ∧ ∃ more, (p.after m).Ready id (values :: queue ++ more)) ∨
      ∃ i, pullsOn id p [m] = [(i, .chunk values)] ∧ (p.after m).Ready id queue := by
  cases m with
  | turn i chunk ended =>
    cases hs : p.server? i with
    | none =>
      have hsame : p.after (.turn i chunk ended) = p := by simp only [Pool.after, hs]
      refine .inl ⟨by simp [pullsOn, collect, onTurn, hs], [], ?_⟩
      rwa [hsame, List.append_nil]
    | some s =>
      obtain ⟨hnone, hready⟩ | hone := h.turn hs chunk ended
      · exact .inl ⟨hnone, [], by rwa [List.append_nil]⟩
      · exact .inr ⟨i, hone⟩
  | generator | feed =>
    obtain ⟨⟨closed, hsrc⟩, hidle⟩ := h
    refine .inl ⟨rfl, [], ⟨closed, ?_⟩, hidle.apart fun _ _ _ h => by cases h⟩
    rw [List.append_nil]
    exact (List.getElem?_append_left (List.getElem?_eq_some_iff.mp hsrc).1).trans hsrc
  | execute | bystander =>
    obtain ⟨⟨closed, hsrc⟩, hidle⟩ := h
    refine .inl ⟨rfl, [], ⟨closed, ?_⟩, hidle.apart fun _ _ _ h => by cases h⟩
    rwa [List.append_nil]
  | push j pushed =>
    obtain ⟨⟨closed, hsrc⟩, hidle⟩ := h
    have hidle' : (p.after (.push j pushed)).Idle id := hidle.apart fun _ _ _ h => by cases h
    refine .inl ⟨rfl, if j = id ∧ closed = false then [pushed] else [], ⟨closed, ?_⟩, hidle'⟩
    simp only [Pool.after, List.getElem?_modify, hsrc]
    by_cases hj : j = id
    · cases closed <;> simp [hj, Source.push]
    · simp [hj]
  | close j =>
    obtain ⟨⟨closed, hsrc⟩, hidle⟩ := h
    have hidle' : (p.after (.close j)).Idle id := hidle.apart fun _ _ _ h => by cases h
    refine .inl ⟨rfl, [], ⟨if j = id then true else closed, ?_⟩, hidle'⟩
    simp only [Pool.after, List.getElem?_modify, hsrc]
    by_cases hj : j = id
    · simp [hj, Source.close]
    · simp [hj]

/-- The chunks of an idle feed go to the next requests at it, in order. -/
theorem Ready.supplies {queue more : List Chunk} (h : p.Ready id (queue ++ more)) (ns : List Move) :
    ((pullsOn id p ns).map Prod.snd).take queue.length =
      (queue.take (pullsOn id p ns).length).map .chunk := by
  induction ns generalizing p queue more with
  | nil => simp [pullsOn, collect]
  | cons m ns ih =>
    cases queue with
    | nil => simp
    | cons values queue =>
      have hcons : pullsOn id p (m :: ns) = pullsOn id p [m] ++ pullsOn id (p.after m) ns := by
        simp only [pullsOn, collect, List.append_nil]
      rw [hcons]
      obtain ⟨hnone, more', hready⟩ | ⟨i, hone, hready⟩ := h.after m
      · have hready' : (p.after m).Ready id ((values :: queue) ++ (more ++ more')) := by
          rw [← List.append_assoc]
          exact hready
        rw [hnone, List.nil_append]
        exact ih hready'
      · rw [hone]
        simp only [List.singleton_append, List.map_cons, List.length_cons, List.take_succ_cons,
          ih hready]

/-- The rules that an execution keeps on a shared source. -/
structure KeepsRules (ms : List Move) (i : ReaderId) (s : Server) : Prop where
  /-- What it has been supplied with are its own requests to the source, in order. -/
  own : ∀ id, s.stock.source? = some id →
    ((pullsOn id empty ms).filter fun q => q.1 = i).map Prod.snd = suppliesTo i empty ms
  /-- What it sends in a turn are its answers. -/
  sends : ∀ chunk ended, (s.step i chunk ended (empty.run ms).sources).1 =
    (s.answers i chunk ended (empty.run ms).sources).flatMap fun r => (frameOf r).bytes
  /-- Its batches carry what it has taken; only one that does not fit, its last, is missing. -/
  sent : Sent (suppliesTo i empty ms) (answersBy i empty ms) s
  /-- No request is supplied twice. -/
  asked : (suppliesTo i empty ms).countP Supply.isReady ≤
    (heardBy i empty ms).countP FrameEvent.asks
  /-- Nothing is taken once a stop or a loss can be read, or after the end of the values. -/
  taken : ∀ chunk ended, (s.pull? i chunk ended (empty.run ms).sources).isSome = true →
    (∀ e ∈ heardBy i empty ms ++ s.heard chunk ended, e.stops = false ∧ e.isLoss = false) ∧
      .exhausted ∉ suppliesTo i empty ms
  /-- After the end of the values or a stop nothing is taken, and each request is answered by its
  end; only an answer to what is no query might not fit. -/
  silent : ∀ chunk ended es es', s.gone = false → s.heard chunk ended = es ++ es' →
    (∀ e ∈ es, e.isLoss = false) →
    (.exhausted ∈ suppliesTo i empty ms ∨ ∃ e ∈ heardBy i empty ms ++ es, e.stops = true) →
    s.pull? i chunk ended (empty.run ms).sources = none ∧
      s.answers i chunk ended (empty.run ms).sources =
        ((s.handleAll es).1 ++ Server.closings es').takeWhile fits ∧
      ((∀ e ∈ s.heard chunk ended, e.isGarbled = false) →
        s.answers i chunk ended (empty.run ms).sources =
          (s.handleAll es).1 ++ Server.closings es')

theorem keepsRules {ms : List Move} {s : Server} (hs : (empty.run ms).server? i = some s) :
    KeepsRules ms i s := by
  obtain ⟨⟨stock, hserves⟩, hsent, hown⟩ := Recorded.of_server? hs
  have hsound : s.Sound := hserves.sound fun hp => by cases hp
  have hasked := hserves.asked
  refine ⟨hown, fun chunk ended => s.step_bytes i chunk ended _, hsent, ?_,
    fun chunk ended hpull => ?_, fun chunk ended es es' hgone hheard hloss hend => ?_⟩
  · simp only [Server.start, Option.isSome_none, Bool.toNat_false, Nat.zero_add] at hasked
    omega
  · obtain ⟨hgone, hmore, hnow⟩ := Server.pull?_isSome hsound hpull
    simp only [← Bool.not_eq_true] at hgone hmore hnow ⊢
    refine ⟨fun e he => ?_, fun hspent => hmore (hserves.spent (.inr hspent))⟩
    rcases List.mem_append.mp he with hbefore | hnow'
    · refine ⟨fun hstop => ?_, fun hloss => hgone (hserves.gone (.inr ⟨e, hbefore, hloss⟩))⟩
      exact (hserves.stopped ⟨e, hbefore, hstop⟩).elim hgone hmore
    · exact hnow e hnow'
  · have hend' : s.exhausted = true ∨ ∃ e ∈ es, e.stops = true := by
      rcases hend with hspent | ⟨e, he, hstop⟩
      · exact .inl (hserves.spent (.inr hspent))
      · rcases List.mem_append.mp he with hbefore | hnow
        · refine .inl ((hserves.stopped ⟨e, hbefore, hstop⟩).resolve_left ?_)
          rw [hgone]
          decide
        · exact .inr ⟨e, hnow, hstop⟩
    obtain ⟨hpull, hdue⟩ := Server.answers_of_end hgone hloss hend' hsound hheard i
      (empty.run ms).sources
    refine ⟨hpull, by rw [Server.answers, hdue], fun hqueries => ?_⟩
    rw [Server.answers_eq_due hpull hqueries, hdue]

/-- A chunk that is pushed into an idle feed waits behind those that are there. -/
theorem Idle.push {p : Pool} (hidle : p.Idle id) (hlined : p.Lined) {queue : List Chunk}
    {line : List ReaderId} (hsrc : p.sources[id]? = some (.feed queue false line))
    (values : Chunk) : (p.after (.push id values)).Ready id (queue ++ [values]) := by
  have hline : line = [] := hlined.waiting_eq_nil hidle hsrc
  refine ⟨⟨false, ?_⟩, hidle.apart fun _ _ _ h => by cases h⟩
  rw [hline] at hsrc
  simp [Pool.after, hsrc, Source.push]

end Pool

/-! ### The lines of a session -/

end Mock

namespace Session

open Mock (Move Pool)

/-- The server of a mocked query at the far end of a line. -/
def Line.server? (l : Line) : Option Mock.Server :=
  match l.farEnd with
  | .played _ _ => none
  | .mocked server => some server

/-- The servers of mocked queries in a session, and the sources. -/
def pool (s : Session) : Pool :=
  ⟨s.lines.map Line.server?, s.sources⟩

/-- The turns of lines that come in order, the first of which has the given number. -/
def turnsFrom : LineId → List Line → List Move
  | _, [] => []
  | id, l :: rest => .turn id l.unread l.ended :: turnsFrom (id + 1) rest

theorem run_turnsFrom (before : List (Option Mock.Server)) (sources : List Mock.Source)
    (lines : List Line) :
    (Pool.mk (before ++ lines.map Line.server?) sources).run (turnsFrom before.length lines) =
      ⟨before ++ (exchangeFrom sources before.length lines).1.map Line.server?,
        (exchangeFrom sources before.length lines).2⟩ := by
  induction lines generalizing before sources with
  | nil => simp [turnsFrom, exchangeFrom]
  | cons l rest ih =>
    have hturn : (Pool.mk (before ++ (l :: rest).map Line.server?) sources).after
        (.turn before.length l.unread l.ended) =
        ⟨(before ++ [(l.exchange before.length sources).1.server?]) ++ rest.map Line.server?,
          (l.exchange before.length sources).2⟩ := by
      cases hfar : l.farEnd with
      | played reader present =>
        simp [Pool.after, Pool.server?, Line.server?, Line.exchange, hfar]
      | mocked server =>
        simp [Pool.after, Pool.server?, Line.server?, Line.exchange, hfar]
    have hrest := ih (before ++ [(l.exchange before.length sources).1.server?])
      (l.exchange before.length sources).2
    rw [List.length_append, List.length_singleton] at hrest
    rw [turnsFrom, Pool.run_cons, hturn, hrest]
    simp [exchangeFrom]

/-- When the far ends of a session read and answer, the servers of mocked queries take a turn each,
with what has arrived on their lines. -/
theorem pool_exchange (s : Session) :
    s.exchange.pool = s.pool.run (turnsFrom 0 s.lines) := by
  have hrun := run_turnsFrom [] s.sources s.lines
  simp only [List.nil_append, List.length_nil] at hrun
  exact hrun.symm

end Session

namespace Mock

/-- Whatever happens to executions that share sources: each chunk that a source produces is taken
once, in order, or still there; every execution keeps the rules; and a chunk that is pushed into a
feed while no execution on it has an unanswered request stays there for the next requests. -/
theorem sources_conserve_chunks (ms : List Move) :
    (∀ id, (Pool.pullsOn id .empty ms).flatMap (fun q => Source.Supply.toList q.2) ++
      stored (Pool.empty.run ms).sources id = Pool.produced id .empty ms) ∧
    (∀ i s, (Pool.empty.run ms).server? i = some s → Pool.KeepsRules ms i s) ∧
    ∀ id queue waiting values,
      (Pool.empty.run ms).sources[id]? = some (.feed queue false waiting) →
      (Pool.empty.run ms).Idle id → ∀ ns,
        let p := Pool.empty.run (ms ++ [.push id values])
        (((Pool.pullsOn id p ns).map Prod.snd).take (queue.length + 1) =
          ((queue ++ [values]).take (Pool.pullsOn id p ns).length).map .chunk) ∧
        (Pool.pullsOn id p ns).flatMap (fun q => Source.Supply.toList q.2) ++
          stored (p.run ns).sources id = queue ++ [values] ++ Pool.produced id p ns := by
  refine ⟨fun id => Pool.produced_eq .empty ms, fun i s hs => Pool.keepsRules hs, ?_⟩
  intro id queue line values hsrc hidle ns p
  have hready : p.Ready id (queue ++ [values]) := by
    change Pool.Ready (Pool.empty.run (ms ++ [.push id values])) id (queue ++ [values])
    rw [Pool.run_append]
    exact hidle.push (Pool.lined_run ms) hsrc values
  obtain ⟨closed, hq⟩ := hready.1
  refine ⟨?_, ?_⟩
  · rw [← List.append_nil (queue ++ [values])] at hready
    have hsupplies := hready.supplies ns
    rwa [List.length_append, List.length_singleton] at hsupplies
  · rw [Pool.produced_eq]
    simp only [stored, hq, Source.chunks]

/-- A client asks and hangs up; what is pushed then goes to the next that asks. -/
theorem sources_conserve_chunks_hangUp :
    let ask := (Frame.mk 1 (Bytes.ofString "[1,[15,[\"t\"]]]")).bytes
    let ms := [.feed, .execute (.shared 0), .turn 0 ask false, .turn 0 [] true]
    let p := Pool.empty.run (ms ++ [.push 0 [.null]])
    let ns := [.execute (.shared 0), .turn 1 ask false]
    (∃ s, (Pool.empty.run ms).server? 0 = some s ∧ s.gone = true ∧ Pool.KeepsRules ms 0 s) ∧
      ((Pool.pullsOn 0 p ns).map Prod.snd).take 1 = [.chunk [.null]] := by
  intro ask ms p ns
  obtain ⟨-, hrules, hpushed⟩ := sources_conserve_chunks ms
  have hserver : ((Pool.empty.run ms).server? 0).map Server.gone = some true := by decide +kernel
  have hlen : (Pool.empty.run ms).servers.length = 1 := by decide +kernel
  have hpending : ((Pool.empty.run ms).server? 0).map Server.pending = some none := by
    decide +kernel
  have hidle : (Pool.empty.run ms).Idle 0 := by
    intro i s hs _
    have hlt := Pool.lt_of_server? hs
    rw [hlen, Nat.lt_one_iff] at hlt
    rw [hlt] at hs
    rw [hs] at hpending
    exact Option.some.inj hpending
  refine ⟨?_, ?_⟩
  · obtain ⟨s, hs, hgone⟩ := Option.map_eq_some_iff.mp hserver
    exact ⟨s, hs, hgone, hrules 0 s hs⟩
  · have hlen : (Pool.pullsOn 0 p ns).length = 1 := by decide +kernel
    have htake := (hpushed 0 [] [] [.null] (by decide +kernel) hidle ns).1
    change ((Pool.pullsOn 0 p ns).map Prod.snd).take 1 = _ at htake
    rw [htake]
    change (([[.null]] : List Chunk).take (Pool.pullsOn 0 p ns).length).map Supply.chunk = _
    rw [hlen]
    rfl

end Mock
end Reql
