import Reql.Proofs.Mock.Conversation
import Reql.Session.Step

/-! Sessions in which a mocked query is run and read to its end. The one result here, for which all
the rest is there, is the form for sessions of what `Reql.Proofs.Mock.Conversation` says of talks:
that a mocked query drains to the configured values, in whatever order the parties take turns. There
the turns are given; in a session the commands themselves make them, until nothing moves. -/
namespace Reql

namespace Mock.Stage

variable {st : Settings} {term : Term} {q : Query} {chunks : List Chunk} {w : Nat} {t : Talk}
  {call : Call}

/-- A turn of the caller and one of the server bring a query in progress nearer to its end. -/
theorem round (h : Stage st term q chunks w t) (hpasses : Passes st q chunks)
    (hcall : t.call = .inr call) (reader : ReaderId) (before after : List Source) :
    ∃ w' < w, Stage st term q chunks w'
      (t.run [.caller, .others before, .server reader, .others after]) := by
  have hpos : 0 < w := by
    refine Nat.pos_of_ne_zero fun hw => ?_
    have := (h.ended hw).2
    rw [hcall] at this
    cases this
  obtain ⟨w₁, hle₁, h₁, hless₁⟩ := h.caller hpasses
  obtain ⟨w₂, hle₂, h₂, hless₂⟩ := (h₁.others before).server hpasses reader
  exact ⟨w₂, by omega, h₂.others after⟩

/-- A query in progress does not stand still. -/
theorem not_still (hpasses : Passes st q chunks) (hcall : t.call = .inr call)
    (reader : ReaderId) (before after : List Source)
    (hstill : t.run [.caller, .others before, .server reader, .others after] = t) :
    ¬Stage st term q chunks w t := by
  induction w using Nat.strong_induction_on with
  | _ w ih =>
    intro h
    obtain ⟨w', hless, h'⟩ := round h hpasses hcall reader before after
    exact ih w' hless (hstill ▸ h')

/-- The chunks that wait in the sources bound what is left to do. -/
theorem le_stored (h : Stage st term q chunks w t) :
    w ≤ 2 * (t.sources.flatMap fun src => src.chunks).length + 7 := by
  have hrest {stock : Stock} {rest : List Chunk}
      (hstock : Stocked stock t.sources rest) :
      rest.length ≤ (t.sources.flatMap fun src => src.chunks).length + 1 := by
    cases stock with
    | own chunk =>
      cases chunk with
      | none =>
        obtain rfl : rest = [] := hstock
        exact Nat.zero_le _
      | some values =>
        obtain rfl : rest = [values] := hstock
        exact Nat.le_add_left _ _
    | shared src =>
      have hsrc : t.sources[src]? = some (.ofChunks rest) := hstock
      have hmem := List.mem_of_getElem? hsrc
      have hsub : rest.Sublist (t.sources.flatMap fun src => src.chunks) := by
        have := List.sublist_flatten_of_mem (List.mem_map_of_mem (f := fun src => src.chunks) hmem)
        rwa [Source.chunks_ofChunks] at this
      exact Nat.le_succ_of_le hsub.length_le
  cases h with
  | asked mode served rest handoff taken stock f _ _ _ _ _ _ hstock =>
    have := hrest hstock
    have := mode.delay_le_two
    omega
  | answered mode served values rest handoff stock _ _ hstock =>
    have := hrest hstock
    have := mode.delay_le_two
    omega
  | spent mode =>
    have := mode.delay_le_two
    omega
  | done => exact Nat.zero_le _

/-- The caller that has got the first answer begins to ask for all values. -/
theorem begin_all (h : Stage st term q chunks w t) (hcall : t.call = .inl .ready) :
    Stage st term q chunks w { t with call := .inr (.all []) } := by
  have hmode {mode : Mode} (hmode : t.call = mode.call) : mode = .ready := by
    cases mode with
    | ready => rfl
    | waiting | reading => exact absurd (hmode.symm.trans hcall) Sum.inr_ne_inl
  cases h with
  | asked mode served rest handoff taken stock f hne hline hcall' =>
    exact absurd (hmode hcall') hne
  | answered mode served values rest handoff stock hline hcall' hstock hchunks hvalues =>
    obtain rfl := hmode hcall'
    exact .answered (.reading []) served values rest handoff stock hline rfl hstock hchunks hvalues
  | spent mode handoff stock hline hcall' hvalues =>
    obtain rfl := hmode hcall'
    exact .spent (.reading []) handoff stock hline rfl hvalues
  | done hconnection hcall' => cases hcall'.symm.trans hcall

theorem of_values {values : List Json} (h : Stage st term q chunks w t)
    (hcall : t.call = .inl (.values values)) :
    values = chunks.flatten ∧ t.line.connection = parted st term q chunks.length := by
  have hmode {mode : Mode} (hmode : t.call = mode.call) : False := by
    cases mode <;> cases hmode.symm.trans hcall
  cases h with
  | asked mode served rest handoff taken stock f hne hline hcall' => exact (hmode hcall').elim
  | answered mode served values rest handoff stock hline hcall' => exact (hmode hcall').elim
  | spent mode handoff stock hline hcall' => exact (hmode hcall').elim
  | done hconnection hcall' =>
    cases hcall'.symm.trans hcall
    exact ⟨rfl, hconnection⟩

end Mock.Stage

namespace Session

open Mock (Stage Passes Talk Turn)

/-! ### The far ends of the lines -/

namespace Line

variable {l : Line}

theorem source?_exchange (l : Line) (reader : Mock.ReaderId) (sources : List Mock.Source) :
    (l.exchange reader sources).1.source? = l.source? := by
  cases hfar : l.farEnd with
  | played reader present => simp only [exchange, hfar]
  | mocked server =>
    simp only [exchange, hfar, source?, server?, Option.bind_some]
    exact (server.step_serves reader l.unread l.ended sources).source

/-- A turn of a far end changes no source but its own. -/
theorem exchange_source_ne {src : Mock.SourceId} (h : l.source? ≠ some src)
    (reader : Mock.ReaderId) (sources : List Mock.Source) :
    (l.exchange reader sources).2[src]? = sources[src]? := by
  cases hfar : l.farEnd with
  | played reader present => simp only [exchange, hfar]
  | mocked server =>
    have hne : server.stock.source? ≠ some src := by
      simpa only [source?, server?, hfar, Option.bind_some] using h
    simp only [exchange, hfar]
    exact Mock.Server.step_source_ne hne reader _ _

end Line

theorem exchangeFrom_cons (sources : List Mock.Source) (id : LineId) (l : Line) (rest : List Line) :
    exchangeFrom sources id (l :: rest) =
      ((l.exchange id sources).1 :: (exchangeFrom (l.exchange id sources).2 (id + 1) rest).1,
        (exchangeFrom (l.exchange id sources).2 (id + 1) rest).2) := rfl

theorem exchangeFrom_append (sources : List Mock.Source) (id : LineId) (before after : List Line) :
    exchangeFrom sources id (before ++ after) =
      ((exchangeFrom sources id before).1 ++
        (exchangeFrom (exchangeFrom sources id before).2 (id + before.length) after).1,
      (exchangeFrom (exchangeFrom sources id before).2 (id + before.length) after).2) := by
  induction before generalizing sources id with
  | nil => rfl
  | cons l rest ih =>
    have hplace : id + (l :: rest).length = id + 1 + rest.length := by
      rw [List.length_cons, Nat.add_assoc, Nat.add_comm rest.length]
    rw [List.cons_append, exchangeFrom_cons, ih, hplace, exchangeFrom_cons]
    rfl

theorem exchangeFrom_source_ne {src : Mock.SourceId} {lines : List Line}
    (h : ∀ l ∈ lines, l.source? ≠ some src) (sources : List Mock.Source) (id : LineId) :
    (exchangeFrom sources id lines).2[src]? = sources[src]? := by
  induction lines generalizing sources id with
  | nil => rfl
  | cons l rest ih =>
    obtain ⟨hl, hrest⟩ := List.forall_mem_cons.mp h
    exact (ih hrest _ _).trans (Line.exchange_source_ne hl id sources)

theorem map_source?_exchangeFrom (sources : List Mock.Source) (id : LineId) (lines : List Line) :
    (exchangeFrom sources id lines).1.map Line.source? = lines.map Line.source? := by
  induction lines generalizing sources id with
  | nil => rfl
  | cons l rest ih =>
    rw [exchangeFrom_cons, List.map_cons, List.map_cons, ih, Line.source?_exchange]

theorem length_exchangeFrom (sources : List Mock.Source) (id : LineId) (lines : List Line) :
    (exchangeFrom sources id lines).1.length = lines.length := by
  have hmap := congrArg List.length (map_source?_exchangeFrom sources id lines)
  rwa [List.length_map, List.length_map] at hmap

/-- A line of a session that shares its source with no other. -/
structure Alone (s : Session) (id : LineId) (l : Line) : Prop where
  line : s.lines[id]? = some l
  source : ∀ src, l.source? = some src → ∀ i k, s.lines[i]? = some k → k.source? = some src → i = id

variable {s : Session} {id : LineId} {l : Line} {call : Call} {name : String}

theorem Alone.of_sources {s' : Session} {l' : Line} (h : s.Alone id l)
    (hline : s'.lines[id]? = some l')
    (hsources : s'.lines.map Line.source? = s.lines.map Line.source?) : s'.Alone id l' := by
  have hplace (i : LineId) : s'.lines[i]?.map Line.source? = s.lines[i]?.map Line.source? := by
    rw [← List.getElem?_map, hsources, List.getElem?_map]
  have hown := hplace id
  rw [hline, h.line] at hown
  refine ⟨hline, fun src hsrc i k hk hshared => ?_⟩
  have hother := hplace i
  rw [hk] at hother
  obtain ⟨k', hk', hsame⟩ := Option.map_eq_some_iff.mp hother.symm
  exact h.source src ((Option.some.inj hown).symm.trans hsrc) i k' hk' (hsame.trans hshared)

theorem map_source?_set {lines : List Line} {i : LineId} {k k' : Line} (hk : lines[i]? = some k)
    (hsame : k'.source? = k.source?) :
    (lines.set i k').map Line.source? = lines.map Line.source? := by
  refine List.ext_getElem? fun j => ?_
  rw [List.getElem?_map, List.getElem?_map]
  by_cases hj : i = j
  · rw [← hj, List.getElem?_set_self (List.getElem?_eq_some_iff.mp hk).1, hk, Option.map_some,
      Option.map_some, hsame]
  · rw [List.getElem?_set_ne hj]

/-- When the far ends of a session read and answer, a mocked query sees turns of others and one of
its own server. -/
theorem Alone.exchange (h : s.Alone id l) (call : Outcome ⊕ Call) : ∃ before after l',
    (Talk.mk l s.sources call).run [.others before, .server id, .others after] =
      ⟨l', s.exchange.sources, call⟩ ∧ s.exchange.Alone id l' := by
  obtain ⟨hlt, hget⟩ := List.getElem?_eq_some_iff.mp h.line
  let before := s.lines.take id
  let after := s.lines.drop (id + 1)
  have hsplit : s.lines = before ++ l :: after := by
    rw [← hget, List.getElem_cons_drop, List.take_append_drop]
  have hlength : before.length = id := List.length_take_of_le (Nat.le_of_lt hlt)
  let sources := (exchangeFrom s.sources 0 before).2
  have hexchange : exchangeFrom s.sources 0 s.lines =
      ((exchangeFrom s.sources 0 before).1 ++ (l.exchange id sources).1 ::
        (exchangeFrom (l.exchange id sources).2 (id + 1) after).1,
      (exchangeFrom (l.exchange id sources).2 (id + 1) after).2) := by
    rw [hsplit, exchangeFrom_append, exchangeFrom_cons, hlength, Nat.zero_add]
  have hlines : s.exchange.lines = (exchangeFrom s.sources 0 before).1 ++
      (l.exchange id sources).1 :: (exchangeFrom (l.exchange id sources).2 (id + 1) after).1 := by
    change (exchangeFrom s.sources 0 s.lines).1 = _
    rw [hexchange]
  have hsources : s.exchange.sources =
      (exchangeFrom (l.exchange id sources).2 (id + 1) after).2 := by
    change (exchangeFrom s.sources 0 s.lines).2 = _
    rw [hexchange]
  have hbefore (src : Mock.SourceId) (hsrc : src ∈ l.source?) :
      sources[src]? = s.sources[src]? := by
    refine exchangeFrom_source_ne (fun k hk hshared => ?_) _ _
    obtain ⟨i, hi, rfl⟩ := List.mem_take_iff_getElem.mp hk
    exact Nat.ne_of_lt (Nat.lt_of_lt_of_le hi (Nat.min_le_left _ _))
      (h.source src hsrc i _ (List.getElem?_eq_getElem _) hshared)
  have hafter (src : Mock.SourceId) (hsrc : src ∈ (l.exchange id sources).1.source?) :
      s.exchange.sources[src]? = (l.exchange id sources).2[src]? := by
    rw [Line.source?_exchange] at hsrc
    rw [hsources]
    refine exchangeFrom_source_ne (fun k hk hshared => ?_) _ _
    obtain ⟨i, hi, rfl⟩ := List.mem_drop_iff_getElem.mp hk
    exact Nat.ne_of_gt (Nat.lt_of_lt_of_le (Nat.lt_succ_self id) (Nat.le_add_right _ i))
      (h.source src hsrc _ _ (List.getElem?_eq_getElem _) hshared)
  refine ⟨sources, s.exchange.sources, (l.exchange id sources).1, ?_, h.of_sources ?_ ?_⟩
  · simp only [Talk.run, List.foldl_cons, List.foldl_nil, Talk.after]
    rw [if_pos hbefore, if_pos hafter]
  · rw [hlines, List.getElem?_append_right (by rw [length_exchangeFrom, hlength])]
    rw [length_exchangeFrom, hlength, Nat.sub_self]
    rfl
  · exact map_source?_exchangeFrom s.sources 0 s.lines

/-! ### A call on the cursor of a mocked query -/

/-- A session in which one call is in progress, or none, and a line whose source no other shares. -/
structure Sole (s : Session) (id : LineId) (name : String) (t : Talk) : Prop where
  alone : s.Alone id t.line
  sources : s.sources = t.sources
  jobs : ∀ call, t.call = .inr call → s.jobs = [⟨name, .reading ⟨id, 0⟩ call⟩]
  idle : t.call.isLeft → s.jobs = []

theorem Sole.eq_of_same {s' : Session} {t t' : Talk} {call' : Call} (h : s.Sole id name t)
    (h' : s'.Sole id name t') (hcall : t.call = .inr call) (hcall' : t'.call = .inr call')
    (hsame : s.lines = s'.lines ∧ s.sources = s'.sources ∧ s.jobs = s'.jobs) : t = t' := by
  obtain ⟨hlines, hsources, hjobs⟩ := hsame
  obtain ⟨line, sources, result⟩ := t
  obtain ⟨line', sources', result'⟩ := t'
  obtain rfl : result = .inr call := hcall
  obtain rfl : result' = .inr call' := hcall'
  have hline : some line = some line' :=
    h.alone.line.symm.trans ((congrArg (·[id]?) hlines).trans h'.alone.line)
  have hcalls := (h.jobs call rfl).symm.trans (hjobs.trans (h'.jobs call' rfl))
  obtain rfl : call = call' := by simpa using hcalls
  obtain rfl : sources = sources' := h.sources.symm.trans (hsources.trans h'.sources)
  rw [Option.some.inj hline]

/-- A call that goes on with a mocked query is a turn of the caller. -/
theorem read_sole {task : Task} (h : s.Alone id l) (hjobs : s.jobs = [⟨name, task⟩]) (call : Call) :
    let t := (Talk.mk l s.sources (.inr call)).after .caller
    (s.read name ⟨id, 0⟩ call).2.Sole id name t ∧
      (∀ rest, t.call = .inr rest → (s.read name ⟨id, 0⟩ call).1 = none) ∧
      ∀ outcome, t.call = .inl outcome → (s.read name ⟨id, 0⟩ call).1 =
          some ((s.read name ⟨id, 0⟩ call).2.resultOf ⟨id, 0⟩ outcome) ∧
        (s.read name ⟨id, 0⟩ call).2.slots.get? name = some (slotAfter ⟨id, 0⟩ call outcome) := by
  intro t
  cases hadvance : l.connection.advance 0 call with
  | mk result connection =>
    let s' : Session := { s with lines := s.lines.set id { l with connection } }
    have ht : t = ⟨{ l with connection }, s.sources, result⟩ := Talk.after_caller rfl hadvance
    have halone : s'.Alone id { l with connection } :=
      h.of_sources (List.getElem?_set_self (List.getElem?_eq_some_iff.mp h.line).1)
        (map_source?_set h.line rfl)
    have hon : s.onConnection id (fun c => c.advance 0 call) = (some result, s') := by
      simp only [onConnection, h.line, hadvance]
      rfl
    rw [ht]
    cases result with
    | inl outcome =>
      have hread : s.read name ⟨id, 0⟩ call = (some (s'.resultOf ⟨id, 0⟩ outcome),
          (s'.removeJob name).setSlot name (slotAfter ⟨id, 0⟩ call outcome)) := by
        simp only [read, hon]
      rw [hread]
      refine ⟨⟨⟨halone.line, halone.source⟩, rfl, fun call' hcall => ?_, fun _ => ?_⟩,
        fun rest hrest => ?_, ?_⟩
      · cases hcall
      · simp [s', removeJob, setSlot, hjobs]
      · cases hrest
      · rintro outcome' ⟨⟩
        exact ⟨rfl, Fields.get?_insert_self _ _ _⟩
    | inr rest =>
      have hread : s.read name ⟨id, 0⟩ call =
          (none, s'.setTask name (.reading ⟨id, 0⟩ rest)) := by
        simp only [read, hon]
      rw [hread]
      refine ⟨⟨⟨halone.line, halone.source⟩, rfl, ?_, fun hleft => ?_⟩, fun _ _ => rfl,
        fun outcome houtcome => ?_⟩
      · rintro call' ⟨⟩
        simp [s', setTask, hjobs]
      · cases hleft
      · cases houtcome

theorem Sole.exchange {t : Talk} (h : s.Sole id name t) : ∃ before after,
    s.exchange.Sole id name (t.run [.others before, .server id, .others after]) := by
  obtain ⟨l, sources, call⟩ := t
  obtain rfl : s.sources = sources := h.sources
  obtain ⟨before, after, l', hrun, halone⟩ := h.alone.exchange call
  refine ⟨before, after, ?_⟩
  rw [hrun]
  exact ⟨halone, rfl, h.jobs, h.idle⟩

theorem Sole.proceedAll_nil {t : Talk} {outcome : Outcome} (h : s.Sole id name t)
    (hcall : t.call = .inl outcome) : s.proceedAll (s.jobs.map (·.name)) = ([], s) := by
  rw [h.idle (by rw [hcall]; rfl)]
  rfl

def listed (name : String) (r : Option Result) : List (String × Result) :=
  r.toList.map fun r => (name, r)

theorem Sole.proceedAll {t : Talk} (h : s.Sole id name t) (hcall : t.call = .inr call) :
    s.proceedAll (s.jobs.map (·.name)) =
      (listed name (s.read name ⟨id, 0⟩ call).1, (s.read name ⟨id, 0⟩ call).2) := by
  have hjobs := h.jobs call hcall
  have hproceed : s.proceed name = s.read name ⟨id, 0⟩ call := by
    simp [proceed, job?, hjobs]
  rw [hjobs, List.map_singleton, Session.proceedAll, hproceed]
  obtain ⟨result, s'⟩ := s.read name ⟨id, 0⟩ call
  cases result <;> rfl

/-! ### The stages of a mocked query in a session -/

/-- What is reported of a call on the cursor of a mocked query. -/
inductive Told (token : Token) : Outcome → Result → Prop where
  | ready : Told token .ready (.started token)
  | values (values : List Json) : Told token (.values values) (.values values)

/-- Whether this is a call of `run`, or what has come of one. -/
def isRun : Outcome ⊕ Call → Bool
  | .inr .run | .inl .ready | .inl (.failed _) => true
  | _ => false

/-- Whether this is a call of `all`, or what has come of one. -/
def isAll : Outcome ⊕ Call → Bool
  | .inr (.all _) | .inl (.values _) | .inl (.failed _) => true
  | _ => false

theorem Told.of_run {token : Token} {outcome : Outcome} {result : Result}
    (h : Told token outcome result) (hkind : isRun (.inl outcome) = true) :
    outcome = .ready ∧ result = .started token := by
  cases h with
  | ready => exact ⟨rfl, rfl⟩
  | values values => cases hkind

theorem Told.of_all {token : Token} {outcome : Outcome} {result : Result}
    (h : Told token outcome result) (hkind : isAll (.inl outcome) = true) :
    ∃ values, outcome = .values values ∧ result = .values values := by
  cases h with
  | ready => cases hkind
  | values values => exact ⟨values, rfl, rfl⟩

section Stages

variable {st : Settings} {term : Term} {q : Query} {chunks : List Mock.Chunk} {w : Nat} {t : Talk}

theorem told_of_stage {outcome : Outcome} (h : Stage st term q chunks w t)
    (halone : s.Alone id t.line) (hcall : t.call = .inl outcome) :
    Told q.token outcome (s.resultOf ⟨id, 0⟩ outcome) := by
  have hready {n : Nat} {registered : Bool} {inbox : Inbox} {mode : Mock.Mode}
      (hmode : mode.call = .inl outcome)
      (hconnection : t.line.connection = Mock.caller st term q n registered inbox) :
      Told q.token outcome (s.resultOf ⟨id, 0⟩ outcome) := by
    cases mode with
    | waiting | reading => cases hmode
    | ready =>
      obtain rfl : Outcome.ready = outcome := Sum.inl.inj hmode
      have hcursor : s.cursorAt? ⟨id, 0⟩ = some ⟨q.token, term, true, inbox, registered, true⟩ := by
        simp only [cursorAt?, halone.line, Option.bind_some, hconnection]
        rfl
      simp only [resultOf, hcursor]
      exact .ready
  cases h with
  | asked mode served rest handoff taken stock f hmode hline hcall' =>
    exact hready (hcall'.symm.trans hcall) (by rw [hline])
  | answered mode served values rest handoff stock hline hcall' =>
    exact hready (hcall'.symm.trans hcall) (by rw [hline])
  | spent mode handoff stock hline hcall' => exact hready (hcall'.symm.trans hcall) (by rw [hline])
  | done hconnection hcall' =>
    obtain rfl := Sum.inl.inj (hcall'.symm.trans hcall)
    exact .values _

/-- Without a call in progress the stage stays. -/
theorem turns_idle {outcome : Outcome} (h : s.Sole id name t)
    (hstage : Stage st term q chunks w t) (hcall : t.call = .inl outcome)
    (hpasses : Passes st q chunks) (bound : Nat) : ∃ t' w', w' ≤ w ∧
      Stage st term q chunks w' t' ∧ t'.call = .inl outcome ∧
      (s.turns bound).2.Sole id name t' ∧ (s.turns bound).1 = [] ∧
      (s.turns bound).2.slots = s.slots := by
  induction bound generalizing s t w with
  | zero => exact ⟨t, w, Nat.le_refl _, hstage, hcall, h, rfl, rfl⟩
  | succ bound ih =>
    obtain ⟨before, after, hsole⟩ := h.exchange
    obtain ⟨w', hle, hserved, -⟩ := (hstage.others before).server hpasses id
    have hcall' := (t.call_run_exchange id before after).trans hcall
    simp only [turns, h.proceedAll_nil hcall]
    split
    next => exact ⟨_, w', hle, hserved.others after, hcall', hsole, rfl, rfl⟩
    next =>
      obtain ⟨t', w'', hle', hstage', hcall', hsole', hnone, hslots⟩ :=
        ih hsole (hserved.others after) hcall'
      exact ⟨t', w'', hle'.trans hle, hstage', hcall', hsole', hnone, hslots⟩

/-- A call on the cursor of a mocked query comes to its end. -/
theorem turns_sole {P : Outcome ⊕ Call → Prop}
    (hP : ∀ (c : Connection) (call : Call), P (.inr call) → P (c.advance 0 call).1)
    (h : s.Sole id name t) (hstage : Stage st term q chunks w t) (hcall : t.call = .inr call)
    (hkind : P t.call) (hpasses : Passes st q chunks) {bound : Nat} (hbound : w < bound) :
    ∃ t' w' call outcome result, w' ≤ w ∧ Stage st term q chunks w' t' ∧
      t'.call = .inl outcome ∧ P (.inr call) ∧ P (.inl outcome) ∧ Told q.token outcome result ∧
      (s.turns bound).2.Sole id name t' ∧ (s.turns bound).1 = [(name, result)] ∧
      (s.turns bound).2.slots.get? name = some (slotAfter ⟨id, 0⟩ call outcome) := by
  induction bound generalizing s t w call with
  | zero => exact absurd hbound (Nat.not_lt_zero _)
  | succ bound ih =>
    obtain ⟨l, sources, _⟩ := t
    obtain rfl : s.sources = sources := h.sources
    obtain rfl := hcall
    let t₁ := (Talk.mk l s.sources (.inr call)).after .caller
    obtain ⟨hsole, hpending, hended⟩ := read_sole h.alone (h.jobs call rfl) call
    obtain ⟨before, after, hsole'⟩ := hsole.exchange
    have hkind₁ : P t₁.call := by
      change P (Talk.after _ _).call
      rw [Talk.after_caller rfl rfl]
      exact hP l.connection call hkind
    have hcall₂ := t₁.call_run_exchange id before after
    simp only [turns, h.proceedAll rfl]
    cases hcall₁ : t₁.call with
    | inr rest =>
      obtain ⟨w', hless, hstage'⟩ := hstage.round hpasses rfl id before after
      have hnone := hpending rest hcall₁
      rw [hcall₁] at hcall₂
      simp only [hnone]
      split
      next hsame =>
        -- Then the next turns would do nothing either, but every round lowers the weight.
        have hstill := hsole'.eq_of_same h hcall₂ rfl hsame
        exact absurd hstage (Stage.not_still hpasses rfl id before after hstill)
      next =>
        obtain ⟨t', w'', call', outcome, result, hle, hrest⟩ := ih hsole' hstage' hcall₂
          (by rw [hcall₂, ← hcall₁]; exact hkind₁) (by omega)
        exact ⟨t', w'', call', outcome, result, by omega, hrest⟩
    | inl outcome =>
      obtain ⟨hresult, hslots⟩ := hended outcome hcall₁
      obtain ⟨w₁, hle₁, hstage₁, -⟩ := hstage.caller hpasses
      obtain ⟨w₂, hle₂, hstage₂, -⟩ := (hstage₁.others before).server hpasses id
      have htold := told_of_stage hstage₁ hsole.alone hcall₁
      rw [hcall₁] at hkind₁ hcall₂
      simp only [hresult]
      split
      next =>
        exact ⟨_, w₂, call, outcome, _, hle₂.trans hle₁, hstage₂.others after, hcall₂, hkind,
          hkind₁, htold, hsole', rfl, hslots⟩
      next =>
        obtain ⟨t', w', hle, hstage', hcall', hsole'', hnone, hkept⟩ :=
          turns_idle hsole' (hstage₂.others after) hcall₂ hpasses bound
        refine ⟨t', w', call, outcome, _, hle.trans (hle₂.trans hle₁), hstage', hcall', hkind,
          hkind₁, htold, hsole'', ?_, ?_⟩
        · rw [hnone]
          rfl
        · rw [hkept]
          exact hslots

theorem stage_observe (h : Stage st term q chunks w t) :
    Stage st term q chunks w { t with line := t.line.observe.2 } := by
  have hmocked {server : Mock.Server} (hfar : t.line.farEnd = .mocked server) :
      ({ t with line := t.line.observe.2 } : Talk) = t := by
    simp only [Line.observe, hfar]
  cases h with
  | asked mode served rest handoff taken stock f hmode hline hcall hunread hasking htoken hstock
      hchunks hvalues =>
    rw [hmocked (by rw [hline])]
    exact .asked mode served rest handoff taken stock f hmode hline hcall hunread hasking htoken
      hstock hchunks hvalues
  | answered mode served values rest handoff stock hline hcall hstock hchunks hvalues =>
    rw [hmocked (by rw [hline])]
    exact .answered mode served values rest handoff stock hline hcall hstock hchunks hvalues
  | spent mode handoff stock hline hcall hvalues =>
    rw [hmocked (by rw [hline])]
    exact .spent mode handoff stock hline hcall hvalues
  | done hconnection hcall =>
    refine .done ?_ hcall
    rw [← hconnection]
    cases hfar : t.line.farEnd <;> simp only [Line.observe, hfar, Line.takeAll]

theorem Sole.observe (h : s.Sole id name t) (hstage : Stage st term q chunks w t) :
    ∃ l, s.observe.2.Sole id name { t with line := l } ∧
      Stage st term q chunks w { t with line := l } := by
  have hlt := (List.getElem?_eq_some_iff.mp h.alone.line).1
  obtain ⟨k, hk⟩ : ∃ k, s.lines[ownLine]? = some k :=
    ⟨_, List.getElem?_eq_getElem (Nat.lt_of_le_of_lt (Nat.zero_le id) hlt)⟩
  have hobserve : s.observe.2 = { s with lines := s.lines.set ownLine k.observe.2 } := by
    simp only [Session.observe, hk]
  have hmap : (s.lines.set ownLine k.observe.2).map Line.source? = s.lines.map Line.source? := by
    refine map_source?_set hk ?_
    cases hfar : k.farEnd <;> simp only [Line.observe, Line.source?, Line.server?, hfar]
  rw [hobserve]
  by_cases hid : id = ownLine
  · obtain rfl : k = t.line := Option.some.inj (hk.symm.trans (hid ▸ h.alone.line))
    refine ⟨t.line.observe.2, ⟨h.alone.of_sources ?_ hmap, h.sources, h.jobs, h.idle⟩,
      stage_observe hstage⟩
    rw [hid]
    exact List.getElem?_set_self (hid ▸ hlt)
  · refine ⟨t.line, ⟨h.alone.of_sources ?_ hmap, h.sources, h.jobs, h.idle⟩, hstage⟩
    exact (List.getElem?_set_ne (Ne.symm hid)).trans h.alone.line

/-! ### The commands -/

/-- A command that goes on with the cursor of a mocked query gives the result of its call. -/
theorem step_of_read {P : Outcome ⊕ Call → Prop}
    (hP : ∀ (c : Connection) (call : Call), P (.inr call) → P (c.advance 0 call).1)
    {s₀ : Session} {c : Command} {task : Task} (hname : c.call? = some name)
    (hperform : s₀.perform c = .ofCall (s.read name ⟨id, 0⟩ call)) (h : s.Alone id l)
    (hjobs : s.jobs = [⟨name, task⟩]) (hstage : Stage st term q chunks w ⟨l, s.sources, .inr call⟩)
    (hkind : P (.inr call)) (hpasses : Passes st q chunks) :
    ∃ t w' call outcome, Stage st term q chunks w' t ∧ t.call = .inl outcome ∧ P (.inr call) ∧
      P (.inl outcome) ∧ Told q.token outcome (s₀.step c).1.result ∧
      (s₀.step c).2.Sole id name t ∧
      (s₀.step c).2.slots.get? name = some (slotAfter ⟨id, 0⟩ call outcome) := by
  obtain ⟨hsole, hpending, hended⟩ := read_sole h hjobs call
  obtain ⟨w₁, hle₁, hstage₁, -⟩ := hstage.caller hpasses
  have hkind₁ : P ((Talk.mk l s.sources (.inr call)).after .caller).call := by
    rw [Talk.after_caller rfl rfl]
    exact hP l.connection call hkind
  have hstep : (s₀.step c).2 = (s.read name ⟨id, 0⟩ call).2.settle.2.observe.2 := by
    simp only [step, hperform, Progress.ofCall, hname]
    cases (s.read name ⟨id, 0⟩ call).1 <;> rfl
  have hslotsObserve (s' : Session) : s'.observe.2.slots = s'.slots := by
    unfold Session.observe
    split <;> rfl
  rw [hstep, hslotsObserve]
  cases hcall₁ : ((Talk.mk l s.sources (.inr call)).after .caller).call with
  | inl outcome =>
    obtain ⟨hresult, hslots⟩ := hended outcome hcall₁
    obtain ⟨t', w', -, hstage', hcall', hsole', -, hkept⟩ :=
      turns_idle hsole hstage₁ hcall₁ hpasses (s.read name ⟨id, 0⟩ call).2.turnBound
    obtain ⟨l', hsole'', hstage''⟩ := hsole'.observe hstage'
    rw [hcall₁] at hkind₁
    have htold := told_of_stage hstage₁ hsole.alone hcall₁
    refine ⟨_, w', call, outcome, hstage'', hcall', hkind, hkind₁, ?_, hsole'', ?_⟩
    · simp only [step, hperform, Progress.ofCall, hresult]
      exact htold
    · exact (congrArg _ hkept).trans hslots
  | inr rest =>
    have hbound : w₁ < (s.read name ⟨id, 0⟩ call).2.turnBound := by
      have hleft := hstage₁.le_stored
      have hlines := (List.getElem?_eq_some_iff.mp hsole.alone.line).1
      have hpos := Nat.lt_of_le_of_lt (Nat.zero_le id) hlines
      rw [← hsole.sources] at hleft
      simp only [turnBound]
      omega
    obtain ⟨t', w', call', outcome, result, -, hstage', hcall', hkind', hkind'', htold, hsole',
      hlate, hslots⟩ := turns_sole hP hsole hstage₁ hcall₁ hkind₁ hpasses hbound
    obtain ⟨l', hsole'', hstage''⟩ := hsole'.observe hstage'
    refine ⟨_, w', call', outcome, hstage'', hcall', hkind', hkind'', ?_, hsole'', hslots⟩
    have hresult : (s₀.step c).1.result = result := by
      simp only [step, hperform, Progress.ofCall, hpending rest hcall₁, hname, settle, hlate,
        List.nil_append, List.mergeSort_singleton, List.lookup_cons_self, Option.getD_some]
    rw [hresult]
    exact htold

theorem isRun_advance (c : Connection) (call : Call) (h : isRun (.inr call) = true) :
    isRun (c.advance 0 call).1 = true := by
  cases call with
  | run =>
    unfold Connection.advance
    dsimp only
    split <;> rfl
  | _ => cases h

theorem isAll_collectAll (id : CursorId) (steps : Nat) (values : List Json) (c : Connection) :
    isAll (Connection.collectAll id steps values c).1 = true := by
  induction steps generalizing values c with
  | zero => rfl
  | succ steps ih =>
    unfold Connection.collectAll
    split
    · rfl
    · rfl
    · rfl
    · exact ih _ _

theorem isAll_advance (c : Connection) (call : Call) (h : isAll (.inr call) = true) :
    isAll (c.advance 0 call).1 = true := by
  cases call with
  | all values => exact isAll_collectAll 0 _ values c
  | _ => cases h

/-- A call of `all` on the cursor of a mocked query gives all values. -/
theorem step_all (h : s.Sole id name t) (hcall : t.call = .inl .ready)
    (hstage : Stage st term q chunks w t) (hslot : s.slots.get? name = some (.cursor ⟨id, 0⟩))
    (hpasses : Passes st q chunks) :
    (s.step (.all name)).1.result = .values chunks.flatten ∧ ∃ l,
      (s.step (.all name)).2.lines[id]? = some l ∧
      l.connection = Mock.parted st term q chunks.length := by
  have hjobs : s.jobs = [] := h.idle (by rw [hcall]; rfl)
  let s' := s.addJob ⟨name, .reading ⟨id, 0⟩ (.all [])⟩
  have hperform : s.perform (.all name) = .ofCall (s'.read name ⟨id, 0⟩ (.all [])) := by
    simp only [perform, Session.call, job?, hjobs, hslot]
    rfl
  have hstage' : Stage st term q chunks w ⟨t.line, s'.sources, .inr (.all [])⟩ := by
    have hall := hstage.begin_all hcall
    rwa [← h.sources] at hall
  have halone : s'.Alone id t.line := ⟨h.alone.line, h.alone.source⟩
  have hjobs' : s'.jobs = [⟨name, .reading ⟨id, 0⟩ (.all [])⟩] := by
    simp [s', addJob, hjobs]
  obtain ⟨t', w', call', outcome, hstage'', hcall', -, hkind, htold, hsole, -⟩ :=
    step_of_read (P := fun r => isAll r = true) isAll_advance rfl hperform halone hjobs' hstage' rfl
      hpasses
  obtain ⟨values, rfl, hresult⟩ := htold.of_all hkind
  obtain ⟨rfl, hconnection⟩ := hstage''.of_values hcall'
  exact ⟨hresult, t'.line, hsole.alone.line, hconnection⟩

end Stages

/-- Where no call is in progress a name can be given anew without a change to any server. -/
theorem renew_idle (hjobs : s.jobs = []) (name : String) :
    (s.renew name).jobs = [] ∧ (s.renew name).mocks = s.mocks ∧
      (s.renew name).mockNames = s.mockNames ∧ (s.renew name).sources = s.sources ∧
      (s.renew name).lines.map Line.source? = s.lines.map Line.source? := by
  have hcancel : s.cancel name = s := by
    simp only [cancel, job?, hjobs, List.find?_nil]
  have hdrop (p : Place) : (s.dropCursor p).lines.map Line.source? = s.lines.map Line.source? := by
    refine List.ext_getElem? fun j => ?_
    simp only [dropCursor, modifyConnection, modifyLine, List.getElem?_map, List.getElem?_modify]
    cases s.lines[j]? with
    | none => rfl
    | some l =>
      by_cases hj : p.line = j
      · simp [hj, Line.source?, Line.server?]
      · simp [hj]
  simp only [renew, forget, hcancel, setSlot]
  split
  · exact ⟨hjobs, rfl, rfl, rfl, hdrop _⟩
  · exact ⟨hjobs, rfl, rfl, rfl, hdrop _⟩
  · exact ⟨hjobs, rfl, rfl, rfl, rfl⟩
  · exact ⟨hjobs, rfl, rfl, rfl, rfl⟩

variable {m : Mock} {term : Term} {options : QueryOptions} {mock : String} {i j : Nat}
  {e : Mock.Expectation} {chunks : List Mock.Chunk}

theorem perform_ask (hjobs : s.jobs = []) (hmock : s.mockNamed? mock = some (i, m))
    (htaker : m.taker? term options = some j) (he : m.expectations[j]? = some e)
    (herror : e.error = none) (hgate : e.gate = none) (hreply : options.isNoreply = false)
    (haccepted : (Query.start TokenSource.start.next term (m.effective options)).refusal?
      m.settings.frameLimit = none)
    (halone : ∀ k ∈ s.lines, ∀ src, e.answer.stock.source? = some src → k.source? ≠ some src)
    (name : String) : ∃ (s' : Session) (task : Task),
      s.perform (.ask name (.mock mock) .run term options) =
        .ofCall (s'.read name ⟨s.lines.length, 0⟩ .run) ∧
      s'.Alone s.lines.length (.mocked (Mock.caller m.settings term
        (.start TokenSource.start.next term (m.effective options)) 0 true .start)
        m.settings.handoff e.answer.stock) ∧
      s'.jobs = [⟨name, task⟩] ∧ s'.sources = s.sources := by
  obtain ⟨hbegin, hconnect⟩ := Mock.begin_connects htaker he herror hreply haccepted
  obtain ⟨hjobs', hmocks, hnames, hsources, hlines⟩ := renew_idle hjobs name
  let c : Mock.Claim := ⟨term, m.effective options, e.answer, e.error, e.gate⟩
  let m' : Mock := { m with expectations := m.expectations.modify j Mock.Expectation.use }
  let q : Query := .start TokenSource.start.next term (m.effective options)
  let line : Line := .mocked (Mock.caller m.settings term q 0 true .start) m.settings.handoff
    e.answer.stock
  let s₁ := { s.renew name with mocks := (s.renew name).mocks.set i m' }
  let s₂ := s₁.addJob ⟨name, .gated s₁.clock i c .run⟩
  let s₃ := { s₂ with mocks := s₂.mocks.set i (m'.finish c).2 }
  let s₄ := { s₃ with lines := s₃.lines ++ [line] }
  have hlength : s₃.lines.length = s.lines.length := by
    have := congrArg List.length hlines
    rwa [List.length_map, List.length_map] at this
  have hplace : (s.renew name).mockNamed? mock = some (i, m) := by
    rw [mockNamed?, hnames, hmocks]
    exact hmock
  have hget : (s.renew name).mocks[i]? = some m := by
    simp only [mockNamed?] at hplace
    split at hplace
    · cases hplace
    · obtain ⟨m₀, hm₀, hpair⟩ := Option.map_eq_some_iff.mp hplace
      obtain ⟨rfl, rfl⟩ := Prod.mk.inj hpair
      exact hm₀
  have hclaimed : s₂.mocks[i]? = some m' :=
    List.getElem?_set_self (List.getElem?_eq_some_iff.mp hget).1
  refine ⟨s₄, .gated s₁.clock i c .run, ?_, ⟨?_, fun src hsrc k l hl hshared => ?_⟩, ?_, hsources⟩
  · have hask : s.askMock name mock .run term options = s₂.proceed name := by
      simp only [askMock, hplace, hbegin]
      rfl
    have hproceed : s₂.proceed name = s₂.answer name i c .run := by
      simp [proceed, job?, isReleased, s₂, s₁, addJob, hjobs', c, hgate]
    have hfinish : m'.finish c =
        (.ok (Mock.caller m.settings term q 0 true .start), (m'.finish c).2) :=
      Prod.ext hconnect rfl
    have hanswer : s₂.answer name i c .run = s₄.read name ⟨s₃.lines.length, 0⟩ .run := by
      simp only [answer, hclaimed]
      rw [hfinish]
      rfl
    rw [← hlength, ← hanswer, ← hproceed, ← hask]
    rfl
  · rw [← hlength]
    exact List.getElem?_concat_length
  · refine Decidable.byContradiction fun hk => ?_
    have hle : k < s₃.lines.length + 1 := by
      have hlt := (List.getElem?_eq_some_iff.mp hl).1
      rwa [List.length_append, List.length_singleton] at hlt
    have hlt : k < s₃.lines.length :=
      Nat.lt_of_le_of_ne (Nat.le_of_lt_succ hle) fun heq => hk (heq.trans hlength)
    rw [List.getElem?_append_left hlt] at hl
    have hmem : some src ∈ s₃.lines.map Line.source? :=
      hshared ▸ List.mem_map_of_mem (List.mem_of_getElem? hl)
    have hold : some src ∈ s.lines.map Line.source? := hlines ▸ hmem
    obtain ⟨l₀, hl₀, hsource⟩ := List.mem_map.mp hold
    exact halone l₀ hl₀ src hsrc hsource
  · simp [s₄, s₃, s₂, s₁, addJob, hjobs']

/-- In a session without other calls in progress a mocked query can be run and read to its end: the
two commands settle with its first token and with the configured values, whatever the other
lines are, as long as they do not share its source. -/
theorem run_then_all_settles (hjobs : s.jobs = []) (hmock : s.mockNamed? mock = some (i, m))
    (htaker : m.taker? term options = some j) (he : m.expectations[j]? = some e)
    (herror : e.error = none) (hgate : e.gate = none) (hreply : options.isNoreply = false)
    (hholds : e.answer.Holds s.sources chunks)
    (hpasses : Passes m.settings (.start TokenSource.start.next term (m.effective options)) chunks)
    (halone : ∀ k ∈ s.lines, ∀ src, e.answer.stock.source? = some src → k.source? ≠ some src)
    (name : String) :
    let ran := s.step (.ask name (.mock mock) .run term options)
    let read := ran.2.step (.all name)
    ran.1.result = .started TokenSource.start.next ∧ read.1.result = .values chunks.flatten ∧
      ∃ l, read.2.lines[s.lines.length]? = some l ∧ l.connection = Mock.parted m.settings term
        (.start TokenSource.start.next term (m.effective options)) chunks.length := by
  obtain ⟨s', task, hperform, hline, hjobs', hsources⟩ :=
    perform_ask hjobs hmock htaker he herror hgate hreply hpasses.accepted halone name
  have hstage : Stage m.settings term _ chunks _ _ :=
    Mock.stage_start rfl (hsources ▸ hholds.stocked) hpasses m.settings.handoff
  obtain ⟨t, w, call, outcome, hstage', hcall, hkind, hkind', htold, hsole, hslot⟩ :=
    step_of_read (P := fun r => isRun r = true) isRun_advance rfl hperform hline hjobs' hstage rfl
      hpasses
  obtain ⟨rfl, hresult⟩ := htold.of_run hkind'
  obtain rfl : call = .run := by
    cases call with
    | run => rfl
    | _ => cases hkind
  have hread := step_all hsole hcall hstage' hslot hpasses
  exact ⟨hresult, hread⟩

end Session
end Reql
