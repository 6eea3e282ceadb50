import Mathlib.Data.List.Induction
import Reql.Proofs.Mock.Serving

/-! The servers of mocked queries at work on the sources that they share. -/
namespace Reql.Mock

def stored (sources : List Source) (id : SourceId) : List Chunk :=
  match sources[id]? with
  | some src => src.chunks
  | none => []

/-- Servers, each of which reads what one client has sent, and the sources that they share. Where
there is none a line leads to a server of another kind. -/
structure Pool where
  servers : List (Option Server)
  sources : List Source
deriving DecidableEq

/-- What can happen to a pool at one time. In its turn a server finds all the bytes that have
arrived since the last one, and the end of the stream if it is there. -/
inductive Move where
  | generator (entries : List (Option Chunk))
  | feed
  | execute (stock : Stock)
  | bystander
  | turn (reader : ReaderId) (chunk : Bytes) (ended : Bool)
  | push (source : SourceId) (values : Chunk)
  | close (source : SourceId)
deriving DecidableEq

namespace Pool

def empty : Pool :=
  ⟨[], []⟩

def server? (p : Pool) (i : ReaderId) : Option Server :=
  p.servers[i]?.join

def after (p : Pool) : Move → Pool
  | .generator entries => { p with sources := p.sources ++ [.generator entries] }
  | .feed => { p with sources := p.sources ++ [.emptyFeed] }
  | .execute stock => { p with servers := p.servers ++ [some (.start stock)] }
  | .bystander => { p with servers := p.servers ++ [none] }
  | .turn i chunk ended =>
    match p.server? i with
    | none => p
    | some s =>
      let (_, s, sources) := s.step i chunk ended p.sources
      ⟨p.servers.set i (some s), sources⟩
  | .push id values => { p with sources := p.sources.modify id fun src => (src.push values).2 }
  | .close id => { p with sources := p.sources.modify id Source.close }

def run (p : Pool) (ms : List Move) : Pool :=
  ms.foldl after p

/-- Collects something about every move of a run. -/
def collect {α : Type} (f : Pool → Move → List α) (p : Pool) : List Move → List α
  | [] => []
  | m :: ms => f p m ++ collect f (p.after m) ms

/-- What there is to say about a move, if it is the turn of a server. -/
def onTurn {α : Type} (f : ReaderId → Server → Bytes → Bool → List Source → List α) (p : Pool) :
    Move → List α
  | .turn i chunk ended =>
    match p.server? i with
    | some s => f i s chunk ended p.sources
    | none => []
  | _ => []

def heardBy (i : ReaderId) : Pool → List Move → List FrameEvent :=
  collect <| onTurn fun j s chunk ended _ => if j = i then s.heard chunk ended else []

def suppliesTo (i : ReaderId) : Pool → List Move → List Supply :=
  collect <| onTurn fun j s chunk ended sources =>
    if j = i then (s.pull? j chunk ended sources).toList else []

def answersBy (i : ReaderId) : Pool → List Move → List Response :=
  collect <| onTurn fun j s chunk ended sources =>
    if j = i then s.answers j chunk ended sources else []

def pullsOn (id : SourceId) : Pool → List Move → List (ReaderId × Supply) :=
  collect <| onTurn fun i s chunk ended sources =>
    if s.stock.source? = some id then
      (s.pull? i chunk ended sources).toList.map fun supply => (i, supply)
    else []

/-- The chunks that a source is given: the entries of a generator, and those a feed accepts. -/
def given (id : SourceId) (p : Pool) : Move → List Chunk
  | .generator entries => if p.sources.length = id then entries.filterMap fun e => e else []
  | .push source values =>
    match p.sources[source]? with
    | some src => if source = id ∧ (src.push values).1 then [values] else []
    | none => []
  | _ => []

/-- The chunks that a source produces. -/
def produced (id : SourceId) : Pool → List Move → List Chunk :=
  collect (given id)

variable {p : Pool} {m : Move} {ms ns : List Move} {i : ReaderId} {id : SourceId}

@[simp] theorem run_nil (p : Pool) : p.run [] = p := rfl

@[simp] theorem run_cons (p : Pool) (m : Move) (ms : List Move) :
    p.run (m :: ms) = (p.after m).run ms := rfl

@[simp] theorem run_append (p : Pool) (ms ns : List Move) :
    p.run (ms ++ ns) = (p.run ms).run ns :=
  List.foldl_append

theorem collect_append {α : Type} (f : Pool → Move → List α) (p : Pool) (ms ns : List Move) :
    collect f p (ms ++ ns) = collect f p ms ++ collect f (p.run ms) ns := by
  induction ms generalizing p with
  | nil => rfl
  | cons m ms ih => simp only [List.cons_append, collect, ih, run_cons, List.append_assoc]

theorem collect_concat {α : Type} (f : Pool → Move → List α) (p : Pool) (ms : List Move)
    (m : Move) : collect f p (ms ++ [m]) = collect f p ms ++ f (p.run ms) m := by
  simp only [collect_append, collect, List.append_nil]

theorem after_turn {s : Server} (h : p.server? i = some s) (chunk : Bytes) (ended : Bool) :
    p.after (.turn i chunk ended) =
      ⟨p.servers.set i (some (s.step i chunk ended p.sources).2.1),
        (s.step i chunk ended p.sources).2.2⟩ := by
  simp only [after, h]

theorem onTurn_turn {α : Type} (f : ReaderId → Server → Bytes → Bool → List Source → List α)
    {s : Server} (h : p.server? i = some s) (chunk : Bytes) (ended : Bool) :
    onTurn f p (.turn i chunk ended) = f i s chunk ended p.sources := by
  simp only [onTurn, h]

/-! ### What the sources hold -/

section Sources

variable {s : Server} {sources : List Source} {reader : ReaderId}

theorem stored_modify {f : Source → Source} (j : SourceId)
    (hf : ∀ src, sources[id]? = some src → j = id → (f src).chunks = src.chunks) :
    stored (sources.modify j f) id = stored sources id := by
  unfold stored
  rw [List.getElem?_modify]
  cases h : sources[id]? with
  | none => rfl
  | some src =>
    by_cases hj : j = id
    · simpa [hj] using hf src h hj
    · simp [hj]

theorem release_stored : stored (s.release reader sources) id = stored sources id := by
  unfold Server.release
  split
  · exact stored_modify _ fun src _ _ => src.chunks_leave reader
  · rfl

/-- A request takes from its source what it is supplied with, and nothing from any other. -/
theorem request_stored (s : Server) (reader : ReaderId) (sources : List Source) (id : SourceId) :
    (if s.stock.source? = some id then Source.Supply.toList (s.request reader sources).1 else []) ++
      stored (s.request reader sources).2.2 id = stored sources id := by
  cases hstock : s.stock.source? with
  | none =>
    rw [Server.request_own hstock]
    rfl
  | some j =>
    rw [Server.request_shared hstock]
    cases hsrc : sources[j]? with
    | none => cases decEq j id <;> simp_all [Source.Supply.toList]
    | some src =>
      by_cases hj : j = id
      · subst hj
        have hlt := (List.getElem?_eq_some_iff.mp hsrc).1
        simp only [if_true, stored, List.getElem?_set_self hlt, hsrc]
        exact src.toList_take_append_chunks reader
      · simp [hj, stored, List.getElem?_set_ne hj]

theorem step_stored (s : Server) (reader : ReaderId) (chunk : Bytes) (ended : Bool)
    (sources : List Source) (id : SourceId) :
    (if s.stock.source? = some id then
      (s.pull? reader chunk ended sources).toList.flatMap Source.Supply.toList else []) ++
      stored (s.step reader chunk ended sources).2.2 id = stored sources id := by
  have hsource := (s.listen_serves chunk ended).source
  have hrequest := request_stored (s.listen chunk ended) reader sources id
  rw [Server.step_sources, release_stored, ← hsource, Server.serve_sources]
  simp only [Server.pull?]
  cases hp : (s.listen chunk ended).pending with
  | none => simp
  | some token => simpa using hrequest

end Sources

theorem stored_append (src : Source) (sources : List Source) (id : SourceId) :
    stored (sources ++ [src]) id =
      stored sources id ++ if sources.length = id then src.chunks else [] := by
  unfold stored
  rcases Nat.lt_trichotomy id sources.length with hlt | rfl | hlt
  · have hne : sources.length ≠ id := by omega
    simp [List.getElem?_append_left hlt, hne]
  · simp
  · have hne : sources.length ≠ id := by omega
    have hnone : (sources ++ [src])[id]? = none := by
      rw [List.getElem?_eq_none_iff, List.length_append, List.length_singleton]
      omega
    have hbeyond : sources[id]? = none := List.getElem?_eq_none_iff.mpr (by omega)
    simp [hnone, hbeyond, hne]

/-- What is taken from a source in a move and what it holds after it are what it held before and
what it is given. -/
theorem stored_after (p : Pool) (m : Move) (id : SourceId) :
    (pullsOn id p [m]).flatMap (fun q => Source.Supply.toList q.2) ++
      stored (p.after m).sources id = stored p.sources id ++ given id p m := by
  simp only [pullsOn, collect, List.append_nil]
  cases m with
  | generator entries => exact stored_append _ _ id
  | feed => simpa [onTurn, given, after, Source.emptyFeed, Source.chunks] using
      stored_append .emptyFeed p.sources id
  | execute | bystander => simp [onTurn, given, after]
  | close j =>
    simp only [onTurn, given, after, List.flatMap_nil, List.nil_append, List.append_nil]
    exact stored_modify j fun src _ _ => src.chunks_close
  | push j values =>
    simp only [onTurn, given, after, List.flatMap_nil, List.nil_append]
    cases hsrc : p.sources[j]? with
    | none =>
      rw [List.append_nil]
      refine stored_modify j fun src hsrc' hj => ?_
      rw [← hj, hsrc] at hsrc'
      cases hsrc'
    | some src =>
      by_cases hj : j = id
      · subst hj
        simp [stored, hsrc, src.chunks_push]
      · simp only [hj, false_and, if_false, List.append_nil]
        exact stored_modify j fun _ _ h => absurd h hj
  | turn i chunk ended =>
    simp only [onTurn, given, after, List.append_nil]
    cases hs : p.server? i with
    | none => rfl
    | some s =>
      have hstep := step_stored s i chunk ended p.sources id
      simp only
      rw [← hstep]
      split
      · simp [List.flatMap_map]
      · rfl

/-- Every chunk that a source produces is taken once, in order, or still there. -/
theorem produced_eq (p : Pool) (ms : List Move) :
    (pullsOn id p ms).flatMap (fun q => Source.Supply.toList q.2) ++ stored (p.run ms).sources id =
      stored p.sources id ++ produced id p ms := by
  induction ms generalizing p with
  | nil => simp [pullsOn, produced, collect]
  | cons m ms ih =>
    have hfirst := stored_after p m id
    have hrest := ih (p.after m)
    simp only [pullsOn, produced, collect, List.append_nil] at hfirst hrest ⊢
    rw [List.flatMap_append, List.append_assoc, run_cons, hrest, ← List.append_assoc, hfirst,
      List.append_assoc]

/-! ### What becomes of a server -/

/-- What a move makes of the server of an execution. -/
inductive Fares (p : Pool) (i : ReaderId) : Move → Option Server → Prop where
  | turn {s : Server} (h : p.server? i = some s) (chunk : Bytes) (ended : Bool) :
    Fares p i (.turn i chunk ended) (some (s.step i chunk ended p.sources).2.1)
  | begin (h : p.server? i = none) (stock : Stock) :
    Fares p i (.execute stock) (some (.start stock))
  | apart {m : Move} (h : ∀ chunk ended, m = .turn i chunk ended → p.server? i = none) :
    Fares p i m (p.server? i)

theorem server?_set {j : ReaderId} (s : Server) (sources : List Source) (hj : j ≠ i) :
    (Pool.mk (p.servers.set j (some s)) sources).server? i = p.server? i := by
  simp only [server?, List.getElem?_set_ne hj]

theorem lt_of_server? {s : Server} (h : p.server? i = some s) : i < p.servers.length := by
  unfold server? at h
  by_contra hlt
  rw [List.getElem?_eq_none_iff.mpr (Nat.not_lt.mp hlt)] at h
  cases h

theorem fares (p : Pool) (m : Move) (i : ReaderId) : Fares p i m ((p.after m).server? i) := by
  cases m with
  | generator | feed | push | close => exact .apart fun _ _ h => by cases h
  | bystander =>
    have hsame : (p.after .bystander).server? i = p.server? i := by
      simp only [after, server?, List.getElem?_append]
      split
      · rfl
      next hlt =>
        rw [List.getElem?_eq_none_iff.mpr (Nat.not_lt.mp hlt), List.getElem?_singleton]
        split <;> rfl
    rw [hsame]
    exact .apart fun _ _ h => by cases h
  | execute stock =>
    rcases Nat.lt_trichotomy i p.servers.length with hlt | rfl | hlt
    · have hsame : (p.after (.execute stock)).server? i = p.server? i := by
        simp only [after, server?, List.getElem?_append_left hlt]
      rw [hsame]
      exact .apart fun _ _ h => by cases h
    · have hnew : (p.after (.execute stock)).server? p.servers.length = some (.start stock) := by
        simp [after, server?]
      rw [hnew]
      exact .begin (by simp [server?]) stock
    · have hsame : (p.after (.execute stock)).server? i = p.server? i := by
        simp only [after, server?]
        rw [List.getElem?_eq_none_iff.mpr (by simp; omega), List.getElem?_eq_none_iff.mpr hlt.le]
      rw [hsame]
      exact .apart fun _ _ h => by cases h
  | turn j chunk ended =>
    cases hs : p.server? j with
    | none =>
      have hsame : p.after (.turn j chunk ended) = p := by simp only [after, hs]
      rw [hsame]
      refine .apart fun _ _ h => ?_
      obtain ⟨rfl, -, -⟩ := Move.turn.inj h
      exact hs
    | some s =>
      by_cases hj : j = i
      · subst hj
        rw [after_turn hs]
        simp only [server?, List.getElem?_set_self (lt_of_server? hs), Option.join_some]
        exact .turn hs chunk ended
      · have hsame : (p.after (.turn j chunk ended)).server? i = p.server? i := by
          rw [after_turn hs]
          exact server?_set _ _ hj
        rw [hsame]
        refine .apart fun _ _ h => ?_
        obtain ⟨rfl, -, -⟩ := Move.turn.inj h
        exact absurd rfl hj

/-- The chunks that have been supplied are those in the answers, unless one did not fit. -/
def Sent (supplies : List Supply) (rs : List Response) (s : Server) : Prop :=
  rs.flatMap Response.chunks = supplies.flatMap Source.Supply.toList ∨
    ∃ last, supplies.flatMap Source.Supply.toList = rs.flatMap Response.chunks ++ [last] ∧
      s.gone = true

theorem Sent.step {s : Server} {supplies : List Supply} {rs : List Response}
    (h : Sent supplies rs s) (hs : s.Sound) (chunk : Bytes) (ended : Bool) (sources : List Source) :
    Sent (supplies ++ (s.pull? i chunk ended sources).toList)
      (rs ++ s.answers i chunk ended sources) (s.step i chunk ended sources).2.1 := by
  have hserves := s.step_serves i chunk ended sources
  have hturn := s.answers_chunks i chunk ended sources
  unfold Sent
  rw [List.flatMap_append, List.flatMap_append]
  rcases h with hall | ⟨last, hlast, hgone⟩
  · rw [hall]
    rcases hturn with hsame | ⟨hnone, hlen, hgone⟩
    · rw [hsame]
      exact .inl rfl
    · rw [hnone, List.append_nil]
      match htaken : (s.pull? i chunk ended sources).toList.flatMap Source.Supply.toList, hlen with
      | [], _ => exact .inl (List.append_nil _).symm
      | [last], _ => exact .inr ⟨last, rfl, hgone⟩
  · rw [hserves.silent hs (.inl hgone)] at hturn ⊢
    have hnone : (s.answers i chunk ended sources).flatMap Response.chunks = [] :=
      hturn.elim id fun h => h.1
    rw [hnone, hlast]
    simp only [List.flatMap_nil, List.append_nil]
    exact .inr ⟨last, rfl, hserves.gone (.inl hgone)⟩

/-- What is on record about the server of an execution after a run. -/
structure Recorded (i : ReaderId) (ms : List Move) (s : Server) : Prop where
  serves : ∃ stock, Server.Serves (.start stock) (heardBy i empty ms) (suppliesTo i empty ms) s
  sent : Sent (suppliesTo i empty ms) (answersBy i empty ms) s
  own : ∀ id, s.stock.source? = some id →
    ((pullsOn id empty ms).filter fun q => q.1 = i).map Prod.snd = suppliesTo i empty ms

/-- Nothing is on record about an execution that has not begun. -/
structure Unrecorded (i : ReaderId) (ms : List Move) : Prop where
  heard : heardBy i empty ms = []
  supplies : suppliesTo i empty ms = []
  answers : answersBy i empty ms = []
  own : ∀ id, (pullsOn id empty ms).filter (fun q => q.1 = i) = []

theorem onTurn_apart {α : Type} {f : ReaderId → Server → Bytes → Bool → List Source → List α}
    (h : ∀ chunk ended, m = .turn i chunk ended → p.server? i = none)
    (hf : ∀ j s chunk ended sources, j ≠ i → f j s chunk ended sources = []) :
    onTurn f p m = [] := by
  cases m with
  | turn j chunk ended =>
    cases hs : p.server? j with
    | none => simp only [onTurn, hs]
    | some s =>
      have hj : j ≠ i := by
        rintro rfl
        have hnone := h chunk ended rfl
        rw [hs] at hnone
        cases hnone
      simp only [onTurn, hs, hf j s chunk ended p.sources hj]
  | generator | feed | execute | bystander | push | close => rfl

theorem pullsOn_apart (h : ∀ chunk ended, m = .turn i chunk ended → p.server? i = none)
    (id : SourceId) :
    (pullsOn id p [m]).filter (fun q => q.1 = i) = [] := by
  cases m with
  | turn j chunk ended =>
    cases hs : p.server? j with
    | none => simp [pullsOn, collect, onTurn, hs]
    | some s =>
      have hj : j ≠ i := by
        rintro rfl
        have hnone := h chunk ended rfl
        rw [hs] at hnone
        cases hnone
      simp only [pullsOn, collect, onTurn_turn _ hs, List.append_nil]
      split
      · rw [List.filter_map, List.map_eq_nil_iff]
        exact List.filter_eq_nil_iff.mpr fun _ _ => by simpa using hj
      · rfl
  | generator | feed | execute | bystander | push | close => rfl

/-- What is on record of a server stays true of it when nothing happens to it. -/
theorem records_apart
    (h : ∀ chunk ended, m = .turn i chunk ended → (empty.run ms).server? i = none) :
    heardBy i empty (ms ++ [m]) = heardBy i empty ms ∧
      suppliesTo i empty (ms ++ [m]) = suppliesTo i empty ms ∧
      answersBy i empty (ms ++ [m]) = answersBy i empty ms ∧
      ∀ id, (pullsOn id empty (ms ++ [m])).filter (fun q => q.1 = i) =
        (pullsOn id empty ms).filter fun q => q.1 = i := by
  refine ⟨?_, ?_, ?_, fun id => ?_⟩
  · rw [heardBy, collect_concat, onTurn_apart h fun j s _ _ _ hj => if_neg hj, List.append_nil]
  · rw [suppliesTo, collect_concat, onTurn_apart h fun j s _ _ _ hj => if_neg hj, List.append_nil]
  · rw [answersBy, collect_concat, onTurn_apart h fun j s _ _ _ hj => if_neg hj, List.append_nil]
  · have happart := pullsOn_apart h id
    rw [pullsOn, collect_append, List.filter_append]
    rw [pullsOn] at happart
    rw [happart, List.append_nil]

theorem Recorded.turn {s : Server} (hrec : Recorded i ms s) (h : (empty.run ms).server? i = some s)
    (chunk : Bytes) (ended : Bool) :
    Recorded i (ms ++ [.turn i chunk ended])
      (s.step i chunk ended (empty.run ms).sources).2.1 := by
  obtain ⟨⟨stock, hserves⟩, hsent, hown⟩ := hrec
  have hstep := s.step_serves i chunk ended (empty.run ms).sources
  have hsound : s.Sound := hserves.sound fun hp => by cases hp
  have hheard : heardBy i empty (ms ++ [.turn i chunk ended]) =
      heardBy i empty ms ++ s.heard chunk ended := by
    rw [heardBy, collect_concat, onTurn_turn _ h, if_pos rfl]
  have hsupplies : suppliesTo i empty (ms ++ [.turn i chunk ended]) = suppliesTo i empty ms ++
      (s.pull? i chunk ended (empty.run ms).sources).toList := by
    rw [suppliesTo, collect_concat, onTurn_turn _ h, if_pos rfl]
  have hanswers : answersBy i empty (ms ++ [.turn i chunk ended]) = answersBy i empty ms ++
      s.answers i chunk ended (empty.run ms).sources := by
    rw [answersBy, collect_concat, onTurn_turn _ h, if_pos rfl]
  refine ⟨⟨stock, ?_⟩, ?_, fun id hid => ?_⟩
  · rw [hheard, hsupplies]
    exact hserves.trans hstep
  · rw [hsupplies, hanswers]
    exact hsent.step hsound chunk ended _
  · rw [hstep.source] at hid
    rw [hsupplies, pullsOn, collect_concat, onTurn_turn _ h, if_pos hid, List.filter_append,
      List.map_append, ← pullsOn, hown id hid]
    congr 1
    rw [List.filter_eq_self.mpr (by simp), List.map_map]
    exact List.map_id _

theorem Recorded.of_unrecorded (hrec : Unrecorded i ms) (stock : Stock) :
    Recorded i ms (.start stock) := by
  obtain ⟨hheard, hsupplies, hanswers, hown⟩ := hrec
  refine ⟨⟨stock, ?_⟩, ?_, fun id _ => ?_⟩
  · rw [hheard, hsupplies]
    exact .refl _
  · rw [hsupplies, hanswers]
    exact .inl rfl
  · rw [hown, hsupplies, List.map_nil]

/-- Every run keeps its record of every server. -/
theorem recorded (ms : List Move) (i : ReaderId) :
    match (empty.run ms).server? i with
    | some s => Recorded i ms s
    | none => Unrecorded i ms := by
  induction ms using List.reverseRecOn with
  | nil => exact ⟨rfl, rfl, rfl, fun _ => rfl⟩
  | append_singleton ms m ih =>
    have hfares := fares (empty.run ms) m i
    rw [run_append, run_cons, run_nil]
    generalize ((empty.run ms).after m).server? i = next at hfares
    cases hfares with
    | turn h chunk ended =>
      rw [h] at ih
      exact ih.turn h chunk ended
    | begin h stock =>
      rw [h] at ih
      have hapart : ∀ chunk ended, Move.execute stock = .turn i chunk ended →
          (empty.run ms).server? i = none := fun _ _ _ => h
      obtain ⟨hheard, hsupplies, hanswers, hown⟩ := records_apart hapart
      refine .of_unrecorded ⟨hheard.trans ih.heard, hsupplies.trans ih.supplies,
        hanswers.trans ih.answers, fun id => (hown id).trans (ih.own id)⟩ stock
    | apart h =>
      obtain ⟨hheard, hsupplies, hanswers, hown⟩ := records_apart h
      cases hs : (empty.run ms).server? i with
      | none =>
        rw [hs] at ih
        exact ⟨hheard.trans ih.heard, hsupplies.trans ih.supplies, hanswers.trans ih.answers,
          fun id => (hown id).trans (ih.own id)⟩
      | some s =>
        rw [hs] at ih
        obtain ⟨hserves, hsent, hmine⟩ := ih
        refine ⟨?_, ?_, fun id hid => ?_⟩
        · rwa [hheard, hsupplies]
        · rwa [hsupplies, hanswers]
        · rw [hown, hsupplies, hmine id hid]

theorem Recorded.of_server? {s : Server} (h : (empty.run ms).server? i = some s) :
    Recorded i ms s := by
  have hrec := recorded ms i
  rwa [h] at hrec

end Pool
end Reql.Mock
