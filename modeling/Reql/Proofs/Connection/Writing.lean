import Reql.Connection.Basic
import Reql.Proofs.Frame.Writing

/-! What writing a request does to a connection. -/
namespace Reql

/-- The reason for which a request is refused whatever the state of the stream. -/
def Query.refusal? (q : Query) (limit : FrameLimit) : Option ClientError :=
  match q.payload with
  | .error e => some (.ofProtocol e)
  | .ok payload => ((⟨q.token, payload⟩ : Frame).refusal? limit).map .ofFraming

/-- No fault of a request itself concerns the whole connection. -/
theorem Query.isFatal_refusal {q : Query} {limit : FrameLimit} {e : ClientError}
    (h : q.refusal? limit = some e) : e.isFatal = false := by
  unfold Query.refusal? at h
  split at h
  next e' _ =>
    cases h
    cases e' <;> rfl
  · unfold Frame.refusal? at h
    split at h <;> cases h
    rfl

namespace Connection

/-- A request is written; or it is refused and the connection stays as it is; or the stream fails
and the connection is closed for that. -/
theorem write_cases (c : Connection) (q : Query) :
    ∃ w : FrameWriter, w.limit = c.writer.limit ∧
      ((q.refusal? w.limit = none ∧
          c.write q = (none, { c with writer := w, written := c.written ++ [q] })) ∨
        (∃ e, q.refusal? w.limit = some e ∧ c.write q = (some e, { c with writer := w })) ∨
        ∃ reason, c.write q = (some (.transport reason),
          { c with writer := w }.shutDown (.transport reason))) := by
  unfold write
  cases hp : q.payload with
  | error e => exact ⟨c.writer, rfl, Or.inr (Or.inl ⟨_, by rw [Query.refusal?, hp], rfl⟩)⟩
  | ok payload =>
    have hq : q.refusal? c.writer.limit =
        ((⟨q.token, payload⟩ : Frame).refusal? c.writer.limit).map .ofFraming := by
      rw [Query.refusal?, hp]
    obtain ⟨hlimit, hsend⟩ := c.writer.send_cases ⟨q.token, payload⟩
    cases hs : c.writer.send ⟨q.token, payload⟩ with
    | mk e w =>
      rw [hs] at hlimit hsend
      change w.limit = c.writer.limit at hlimit
      change e = _ ∨ ∃ reason, e = _ at hsend
      refine ⟨w, hlimit, ?_⟩
      rw [hlimit, hq]
      simp only [hs]
      rcases hsend with he | ⟨reason, rfl⟩
      · rw [← he]
        cases e with
        | none => exact Or.inl ⟨rfl, rfl⟩
        | some e =>
          have hfatal := Query.isFatal_refusal (hq.trans (by rw [← he]; rfl))
          exact Or.inr (Or.inl ⟨_, rfl, by simp only [hfatal, Bool.false_eq_true, if_false]⟩)
      · exact Or.inr (Or.inr ⟨reason, rfl⟩)

/-- A stream that takes every byte takes every request that is not refused. -/
theorem write_works {c : Connection} (h : c.writer.Works) {q : Query}
    (hq : q.refusal? c.writer.limit = none) : ∃ w : FrameWriter, w.limit = c.writer.limit ∧
      w.Works ∧ c.write q = (none, { c with writer := w, written := c.written ++ [q] }) := by
  unfold Query.refusal? at hq
  unfold write
  cases hp : q.payload with
  | error e =>
    rw [hp] at hq
    cases hq
  | ok payload =>
    rw [hp, Option.map_eq_none_iff] at hq
    obtain ⟨hlimit, -⟩ := c.writer.send_cases ⟨q.token, payload⟩
    obtain ⟨hnone, hworks⟩ := FrameWriter.send_works h hq
    cases hs : c.writer.send ⟨q.token, payload⟩ with
    | mk e w =>
      rw [hs] at hlimit hnone hworks
      cases hnone
      exact ⟨w, hlimit, hworks, by simp only [hs]⟩

end Connection

theorem Query.payload_continue (t : Token) :
    (bare t .continue).payload = .ok (Json.encode (.arr [.ofUInt64 2])) := rfl

/-- A request without a term has three bytes. -/
theorem QueryType.length_encode (type : QueryType) :
    (Json.encode (.arr [.ofUInt64 type.code])).length = 3 := by
  cases type <;> decide +kernel

/-- No request is shorter than one without a term. -/
theorem Query.three_le_payload {q : Query} {payload : Bytes} (h : q.payload = .ok payload) :
    3 ≤ payload.length := by
  obtain ⟨t, type, term, options⟩ := q
  cases type with
  | start =>
    cases term with
    | none => cases h
    | some term =>
      obtain rfl := Except.ok.inj h
      have hbracket : (Bytes.ofString "[").length = 1 := rfl
      have hcomma : (Bytes.ofString ",").length = 1 := rfl
      have hend : (Bytes.ofString "]").length = 1 := rfl
      simp only [Json.encode, Json.render, Json.renderItems, Bytes.ofString_append,
        List.length_append, hbracket, hcomma, hend]
      omega
  | «continue» | stop | noreplyWait =>
    obtain rfl := Except.ok.inj h
    exact Nat.le_of_eq (QueryType.length_encode _).symm

/-- Where a query has been accepted, a request for more of it is. -/
theorem Query.refusal?_continue {t : Token} {term : Term} {options : QueryOptions}
    {limit : FrameLimit} (h : (start t term options).refusal? limit = none) :
    (bare t .continue).refusal? limit = none := by
  have hshort : (Json.encode (.arr [.ofUInt64 2])).length = 3 := QueryType.continue.length_encode
  have hpayload : (start t term options).payload =
      .ok (Json.encode (.arr [.ofUInt64 1, term.build, options.build])) := rfl
  have hlong := three_le_payload hpayload
  simp only [Query.refusal?, hpayload, Option.map_eq_none_iff, Frame.refusal?] at h
  simp only [Query.refusal?, payload_continue, Option.map_eq_none_iff, Frame.refusal?]
  rw [if_neg]
  split at h
  · cases h
  · omega

/-- A request without a term needs three bytes. -/
theorem Query.refusal?_bare {t : Token} {type : QueryType} {limit : FrameLimit}
    (htype : type ≠ .start) : (bare t type).refusal? limit = none ↔ 3 ≤ limit.bytes := by
  have hpayload : (bare t type).payload = .ok (Json.encode (.arr [.ofUInt64 type.code])) := by
    cases type with
    | start => exact absurd rfl htype
    | «continue» | stop | noreplyWait => rfl
  simp only [refusal?, hpayload, Option.map_eq_none_iff, Frame.refusal?, type.length_encode]
  split
  next h => simp only [reduceCtorEq, false_iff]; omega
  next h => simp only [true_iff]; omega

end Reql
