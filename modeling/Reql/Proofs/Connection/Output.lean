import Reql.Proofs.Connection.History
import Reql.Proofs.Cursor.Output

/-! What the owner of a cursor reads from it in the course of a run, if each call is carried out in
one piece. -/
namespace Reql

namespace Connection

open Cursor

/-- The result that an action gets from the cursor at a place. Waiting for the first answer gets
one only if it is an error. -/
def reading? (c : Connection) (i : CursorId) : Action → Option (Except ClientError (Option Json))
  | .next id => if id = i then (c.next? id).1 else none
  | .prime id =>
    match (c.prime? id).1 with
    | some (.error e) => if id = i then some (.error e) else none
    | _ => none
  | _ => none

/-- The results that a run gets from the cursor at a place. -/
def readings (c : Connection) (i : CursorId) :
    List Action → List (Except ClientError (Option Json))
  | [] => []
  | a :: as => (c.reading? i a).toList ++ (c.after a).readings i as

variable {c c' : Connection} {i id : CursorId} {k k' : Cursor}

theorem result?_ofFrame (f : Frame) : (Event.ofFrame f).result? = none := by
  unfold Event.ofFrame
  split <;> rfl

theorem result?_loss {v : Event} (h : k.loss? k' = some v) : v.result? = none := by
  unfold Cursor.loss? at h
  split at h
  · split at h <;> cases h <;> rfl
  · cases h

theorem results_eventsAt (a : Action) (hk : c.cursors[i]? = some k) (hs : k.Sound) :
    results (c.eventsAt a i) = (c.reading? i a).toList := by
  obtain ⟨k', hk', -⟩ := steps_after a hk hs
  simp only [eventsAt, hk, hk', event?]
  by_cases ha : a.cursor? = some i
  · rw [if_pos ha]
    cases a with
    | next id =>
      obtain rfl := Option.some.inj ha
      simp only [ownEvent?, reading?, if_true, Option.toList, results_singleton,
        Event.result?_ofRead]
    | prime id =>
      obtain rfl := Option.some.inj ha
      simp only [ownEvent?, reading?, if_true]
      rcases (c.prime? id).1 with _ | ⟨e | u⟩ <;> rfl
    | closeCursor | dropCursor => rfl
    | _ => cases ha
  · have hnone : c.reading? i a = none := by
      cases a with
      | next id =>
        have hid : id ≠ i := fun h => ha (by rw [h]; rfl)
        simp only [reading?, if_neg hid]
      | prime id =>
        have hid : id ≠ i := fun h => ha (by rw [h]; rfl)
        simp only [reading?, if_neg hid]
        split <;> rfl
      | _ => rfl
    rw [if_neg ha, hnone]
    split
    next f hf =>
      split
      · rw [Option.toList_some, results_singleton, result?_ofFrame]
      · rfl
    · cases hl : k.loss? k' with
      | none => rfl
      | some v => rw [Option.toList_some, results_singleton, result?_loss hl]

/-- The results in the history of a cursor are those that its owner gets. -/
theorem results_history (as : List Action) (hk : c.cursors[i]? = some k) (hs : k.Sound) :
    results (c.history i as) = c.readings i as := by
  induction as generalizing c k with
  | nil => rfl
  | cons a as ih =>
    obtain ⟨k', hk', h⟩ := steps_after a hk hs
    rw [history, readings, results_append, results_eventsAt a hk hs, ih hk' (h.sound hs)]

/-- Only the owner gives a cursor up. -/
theorem release_of_mem_eventsAt {a : Action} {v : Event} (hv : v ∈ c.eventsAt a i)
    (h : v.isRelease = true) : a = .closeCursor i ∨ a = .dropCursor i := by
  cases arises_of_mem hv with
  | next k v hk hv hread => cases v <;> cases h <;> cases hread
  | frame f k v hk hr ht hv harr => cases v <;> cases h <;> cases harr
  | closeCursor => exact Or.inl rfl
  | dropCursor => exact Or.inr rfl
  | prime | lost | displaced | asked => cases h

theorem release_of_mem_history {as : List Action} {v : Event} (hv : v ∈ c.history i as)
    (h : v.isRelease = true) : .closeCursor i ∈ as ∨ .dropCursor i ∈ as := by
  induction as generalizing c with
  | nil => cases hv
  | cons a as ih =>
    rcases List.mem_append.mp hv with hv | hv
    · rcases release_of_mem_eventsAt hv h with rfl | rfl
      · exact Or.inl List.mem_cons_self
      · exact Or.inr List.mem_cons_self
    · exact (ih hv).imp (List.mem_cons_of_mem _) (List.mem_cons_of_mem _)

/-- A query that has been asked has a cursor, and its request fits a frame. -/
theorem query_ok {term : Term} {options : QueryOptions} {exclusive : Bool}
    (hq : c.query term options exclusive = (.ok id, c')) :
    (∃ k, c'.cursors[id]? = some k ∧ k.New c.tokens.next options.isNoreply) ∧
      c'.closed = false ∧ c'.writer.limit = c.writer.limit ∧
      (c.startOf term options).refusal? c.writer.limit = none := by
  cases ho : c.closed with
  | true => simp [query, ho] at hq
  | false =>
    rcases c.query_cases (O := fun _ => True) term options exclusive rfl ho with
      ⟨e, he, -⟩ | ⟨c₁, k, hr, hs, hc, -, -, haccepted, hk, -⟩
    · rw [hq] at he
      cases he
    · rw [hq] at hr
      obtain ⟨hid, rfl⟩ := Prod.mk.inj hr
      obtain rfl := Except.ok.inj hid
      refine ⟨⟨k, ?_, hk⟩, hc.trans ho, hs.limit, haccepted⟩
      rw [addCursor, ← hs.length, List.getElem?_concat_length]

/-- In every run in which its owner does not give it up, the cursor of a query hands out what is
delivered to it, as the output law says. This is about calls that nothing interrupts: what arrives
while more is being asked for may be read after the error of the request. -/
theorem query_output_law {term : Term} {options : QueryOptions} {exclusive : Bool}
    (hq : c.query term options exclusive = (.ok id, c')) (as : List Action)
    (howner : ∀ a ∈ as, a ≠ .closeCursor id ∧ a ≠ .dropCursor id) :
    ∃ k, (c'.run as).cursors[id]? = some k ∧
      results (c'.history id as) = c'.readings id as ∧
      OutputLaw options.isNoreply (c'.history id as) k.inbox := by
  obtain ⟨⟨k₀, hk₀, hnew⟩, -⟩ := query_ok hq
  have hledger := hnew.ledger
  obtain ⟨k, hk, hsteps⟩ := steps_run as hk₀ hledger.sound
  have hkept (v : Event) (hv : v ∈ c'.history id as) : v.isRelease = false := by
    cases h : v.isRelease with
    | false => rfl
    | true =>
      rcases release_of_mem_history hv h with hmem | hmem
      · exact absurd rfl (howner _ hmem).1
      · exact absurd rfl (howner _ hmem).2
  exact ⟨k, hk, results_history as hk₀ hledger.sound, outputLaw_of_steps hledger hsteps hkept⟩

/-- A cursor whose batch is followed by a payload that is no answer. -/
theorem query_output_law_garbled :
    let c' := ((start default).query .anything default false).2
    let batch : Frame := ⟨1, Bytes.ofString "\x7b\"t\":3,\"r\":[\"a\"]\x7d"⟩
    let as := [.report (.frame batch), .report (.frame ⟨1, []⟩), .next 0, .next 0, .next 0]
    (start default).query .anything default false = (.ok 0, c') ∧
      (∀ a ∈ as, a ≠ .closeCursor 0 ∧ a ≠ .dropCursor 0) ∧
      (∃ k, (c'.run as).cursors[0]? = some k ∧
        results (c'.history 0 as) = c'.readings 0 as ∧
        OutputLaw (default : QueryOptions).isNoreply (c'.history 0 as) k.inbox) ∧
      ∃ e, c'.readings 0 as = [.ok (some (.str "a")), .error e, .ok none] := by
  intro c' batch as
  have hq : (start default).query .anything default false = (.ok 0, c') := rfl
  have howner : ∀ a ∈ as, a ≠ .closeCursor 0 ∧ a ≠ .dropCursor 0 := by decide
  exact ⟨hq, howner, query_output_law hq as howner, _, rfl⟩

end Connection
end Reql
