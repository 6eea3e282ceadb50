import Reql.Mock.Server
import Reql.Proofs.Json.Nesting

/-! Queries announce their type as long as they are not nested too deep. -/
namespace Reql

/-- How a server answers a request of a known type while no other one is pending. -/
def Mock.Server.respond (s : Server) (token : Token) : QueryType → Option Response × Server
  | .start | .continue =>
    if s.exhausted then (some (ending token), s) else (none, { s with pending := some token })
  | .stop => (some (ending token), s.exhaust)
  | .noreplyWait => (some (.plain token .waitComplete), s)

/-- How many arrays and objects are nested in each other in the payload. -/
def Query.depth (q : Query) : Nat :=
  match q.type, q.term with
  | .start, some t => max t.build.depth q.options.build.depth + 1
  | _, _ => 1

variable {q : Query} {p : Bytes}

theorem QueryType.ofCode_code (t : QueryType) : ofCode t.code = .ok t := by
  cases t <;> rfl

theorem QueryType.toUInt64?_code (t : QueryType) :
    (Json.ofUInt64 t.code).toUInt64? = some t.code := by
  cases t <;> rfl

namespace Query

/-- A payload is an array with the number of the type at its head. -/
theorem exists_payload (h : q.payload = .ok p) : ∃ items,
    p = (Json.arr (.ofUInt64 q.type.code :: items)).encode ∧
      (Json.arr (.ofUInt64 q.type.code :: items)).depth = q.depth := by
  obtain ⟨token, type, term, options⟩ := q
  have hhead : (Json.ofUInt64 type.code).depth = 0 := rfl
  cases type with
  | start =>
    cases term with
    | none => cases h
    | some t =>
      refine ⟨[t.build, options.build], (Except.ok.inj h).symm, ?_⟩
      simp only [Json.depth, Json.depthItems, hhead, depth]
      omega
  | «continue» | stop | noreplyWait =>
    cases h
    exact ⟨[], rfl, rfl⟩

theorem peek_of_depth_le (h : q.payload = .ok p) (hdepth : q.depth ≤ Json.maxLevels) :
    QueryType.peek p = .ok q.type := by
  obtain ⟨items, rfl, hitems⟩ := exists_payload h
  have hle : (Json.arr (.ofUInt64 q.type.code :: items)).depth ≤ Json.maxLevels := hitems ▸ hdepth
  obtain ⟨items', hread⟩ : ∃ items', Json.read (Json.arr (.ofUInt64 q.type.code :: items)).encode =
      .ok (.arr (.ofUInt64 q.type.code :: items')) := Json.read_encode_arr _ items hle
  simp only [QueryType.peek, hread, QueryType.toUInt64?_code, QueryType.ofCode_code]

theorem peek_of_lt_depth (h : q.payload = .ok p) (hdepth : Json.maxLevels < q.depth) :
    QueryType.peek p = .error (.decode (Json.ReadError.atRest .tooDeep p 0).message) := by
  obtain ⟨items, rfl, hitems⟩ := exists_payload h
  have hread := Json.read_encode (.arr (.ofUInt64 q.type.code :: items))
  rw [if_neg (by omega)] at hread
  rw [QueryType.peek, hread]

/-- A query whose payload is not nested too deep announces its own type, and a mock server answers
it by that type. A deeper one announces nothing, and the server takes it for an error of the client.
Only a start can be that deep. -/
theorem announces_type (h : q.payload = .ok p) (s : Mock.Server) :
    (q.depth ≤ Json.maxLevels →
      QueryType.peek p = .ok q.type ∧ s.accept ⟨q.token, p⟩ = s.respond q.token q.type) ∧
    (Json.maxLevels < q.depth → ∃ e : Json.ReadError, e.fault = .tooDeep ∧
      QueryType.peek p = .error (.decode e.message) ∧
      s.accept ⟨q.token, p⟩ = (some (.plain q.token
        (.error .client (ProtocolError.decode e.message).message none)), s)) ∧
    (q.type ≠ .start → QueryType.peek p = .ok q.type) := by
  refine ⟨fun hdepth => ?_, fun hdepth => ?_, fun htype => ?_⟩
  · have hpeek := peek_of_depth_le h hdepth
    refine ⟨hpeek, ?_⟩
    rw [Mock.Server.accept, hpeek]
    cases q.type <;> rfl
  · have hpeek := peek_of_lt_depth h hdepth
    refine ⟨_, rfl, hpeek, ?_⟩
    rw [Mock.Server.accept, hpeek]
  · apply peek_of_depth_le h
    have hdepth : q.depth = 1 := by
      obtain ⟨token, type, term, options⟩ := q
      cases type <;> first | rfl | exact absurd rfl htype
    rw [hdepth]
    decide

theorem announces_type_table : ∃ p,
    (start 1 (.op .table [.ofString "t"] []) .empty).payload = .ok p ∧
      QueryType.peek p = .ok .start ∧
      (Mock.Server.start (.own none)).accept ⟨1, p⟩ =
        (none, { Mock.Server.start (.own none) with pending := some 1 }) := by
  have hpayload : (start 1 (.op .table [.ofString "t"] []) .empty).payload = .ok _ := rfl
  obtain ⟨hpeek, haccept⟩ :=
    (announces_type hpayload (Mock.Server.start (.own none))).1 (by decide)
  exact ⟨_, hpayload, hpeek, haccept⟩

/-- The table `t` with calls of `count` chained to it. -/
def counted : Nat → Term
  | 0 => .op .table [.ofString "t"] []
  | n + 1 => .op .count [counted n] []

/-- Every chained call adds two levels. -/
theorem depth_counted (token : Token) (n : Nat) :
    (start token (counted n) .empty).depth = 2 * n + 3 := by
  have hterm : (counted n).build.depth = 2 * n + 2 := by
    induction n with
    | zero => rfl
    | succ n ih =>
      simp only [counted, Term.build, Term.buildArgs, Json.depth, Json.depthItems, Json.ofKind, ih]
      omega
  have hoptions : QueryOptions.empty.build.depth = 1 := rfl
  simp only [depth, start, hterm, hoptions]
  omega

/-- The 63rd chained call is one too many. -/
theorem counted_not_announced : ∃ p,
    (start 1 (counted 63) .empty).payload = .ok p ∧ QueryType.peek p ≠ .ok .start := by
  have hpayload : (start 1 (counted 63) .empty).payload = .ok _ := rfl
  have hdepth : Json.maxLevels < (start 1 (counted 63) .empty).depth := by
    rw [depth_counted]
    decide
  refine ⟨_, hpayload, ?_⟩
  rw [peek_of_lt_depth hpayload hdepth]
  intro h
  cases h

end Query
end Reql
