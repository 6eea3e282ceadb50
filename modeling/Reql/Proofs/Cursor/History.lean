import Reql.Connection.Basic

/-! The events in the life of a cursor, and what each of them does to it. -/
namespace Reql

/-- Whether a frame is an answer after which there may be more. -/
def Frame.isBatch (f : Frame) : Bool :=
  match Response.decode f.token f.payload with
  | .ok r => r.body.isBatch
  | .error _ => false

namespace Inbox

variable {s s' : Inbox}

theorem step_eq_value {v : Json} :
    s.step = (.value v, s') ↔ ∃ rest, s.buffer = v :: rest ∧ s' = { s with buffer := rest } := by
  unfold step
  split
  next w rest hb =>
    simp only [hb, Prod.mk.injEq, Step.value.injEq, List.cons.injEq]
    constructor
    · rintro ⟨rfl, rfl⟩
      exact ⟨rest, ⟨rfl, rfl⟩, rfl⟩
    · rintro ⟨_, ⟨rfl, rfl⟩, rfl⟩
      exact ⟨rfl, rfl⟩
  next hb =>
    simp only [hb, reduceCtorEq, false_and, exists_false, iff_false]
    split
    · simp
    · split
      · simp
      · split <;> simp

theorem step_eq_failed {e : ClientError} :
    s.step = (.failed e, s') ↔
      s.buffer = [] ∧ s.error = some e ∧ s' = { s with error := none, closed := true } := by
  unfold step
  split
  next hb => simp [hb]
  next hb =>
    split
    next he => simp [hb, he, eq_comm]
    next he =>
      simp only [he, reduceCtorEq, false_and, and_false, iff_false]
      split
      · simp
      · split <;> simp

theorem step_eq_ended :
    s.step = (.ended, s') ↔ s.buffer = [] ∧ s.error = none ∧
      (s.serverDone = true ∨ s.closed = true) ∧ s' = { s with closed := true } := by
  unfold step
  split
  next hb => simp [hb]
  next hb =>
    split
    next he => simp [he]
    next he =>
      by_cases hd : (s.serverDone || s.closed) = true
      · rw [if_pos hd]
        simp only [Bool.or_eq_true] at hd
        simp only [hb, he, hd, true_and, Prod.mk.injEq]
        exact eq_comm
      · rw [if_neg hd]
        simp only [Bool.or_eq_true] at hd
        simp only [hd, false_and, and_false, iff_false]
        split <;> simp

theorem step_eq_wait :
    s.step = (.wait, s') ↔ s.buffer = [] ∧ s.error = none ∧ s.serverDone = false ∧
      s.closed = false ∧ s.fetching = true ∧ s' = s := by
  unfold step
  split
  next hb => simp [hb]
  next hb =>
    split
    next he => simp [he]
    next he =>
      cases hd : s.serverDone <;> cases hc : s.closed <;> cases hf : s.fetching <;>
        simp [hb, he, eq_comm]

theorem step_eq_fetch :
    s.step = (.fetch, s') ↔ s.buffer = [] ∧ s.error = none ∧ s.serverDone = false ∧
      s.closed = false ∧ s.fetching = false ∧ s' = { s with fetching := true } := by
  unfold step
  split
  next hb => simp [hb]
  next hb =>
    split
    next he => simp [he]
    next he =>
      cases hd : s.serverDone <;> cases hc : s.closed <;> cases hf : s.fetching <;>
        simp [hb, he, eq_comm]

theorem isRunning_iff : s.isRunning = true ↔ s.closed = false ∧ s.serverDone = false := by
  simp [isRunning]

end Inbox

namespace Cursor

/-- What can happen to a cursor. An answer, or a payload that is none, arrives while it is
registered; the connection is lost; or another cursor with its token ends its registration. The
next value, the end or an error is handed out; more is asked for; the request for more is refused;
or a reader has to wait. The owner closes or drops it. -/
inductive Event where
  | asked (noreply : Bool)
  | answered (response : Response)
  | garbled (error : ProtocolError)
  | lost (error : ClientError)
  | displaced
  | yielded (value : Json)
  | ended
  | failed (error : ClientError)
  | fetched
  | refused (error : ClientError)
  | waited
  | closed
  | dropped
deriving DecidableEq

/-- The event that a call of `next` is for its cursor: what the inbox offers, and the result. -/
def Event.ofRead (offer : Inbox.Step) : Option (Except ClientError (Option Json)) → Event
  | some (.ok (some v)) => .yielded v
  | some (.ok none) => .ended
  | some (.error e) => if offer = .fetch then .refused e else .failed e
  | none => if offer = .fetch then .fetched else .waited

/-- The event that the arrival of a frame is for the cursor registered under its token. -/
def Event.ofFrame (f : Frame) : Event :=
  match Response.decode f.token f.payload with
  | .ok r => .answered r
  | .error e => .garbled e

def Event.isRead : Event → Bool
  | .yielded _ | .ended | .failed _ | .fetched | .refused _ | .waited => true
  | _ => false

def Event.isArrival : Event → Bool
  | .answered _ | .garbled _ => true
  | _ => false

theorem Event.isRead_ofRead (offer : Inbox.Step) (r : Option (Except ClientError (Option Json))) :
    (Event.ofRead offer r).isRead = true := by
  unfold ofRead
  split
  · rfl
  · rfl
  · split <;> rfl
  · split <;> rfl

theorem Event.isArrival_ofFrame (f : Frame) : (Event.ofFrame f).isArrival = true := by
  unfold ofFrame
  split <;> rfl

/-- A registered cursor is still being answered. -/
def Sound (k : Cursor) : Prop :=
  k.registered = true → k.inbox.isRunning = true ∧ k.inbox.error = none

theorem Sound.not_registered {k : Cursor} (hk : k.Sound) (h : k.inbox.isRunning = false) :
    k.registered = false := by
  cases hr : k.registered with
  | false => rfl
  | true => rw [(hk hr).1] at h; cases h

/-- The cursor of a query that has just been asked under a token. -/
structure New (token : Token) (noreply : Bool) (k : Cursor) : Prop where
  token : k.token = token
  inbox : k.inbox = if noreply then .finished else .start
  registered : k.registered = !noreply

theorem New.sound {t : Token} {noreply : Bool} {k : Cursor} (hk : k.New t noreply) :
    k.Sound := by
  intro hr
  rw [hk.registered, Bool.not_eq_true'] at hr
  rw [hk.inbox, hr]
  exact ⟨rfl, rfl⟩

inductive Step (k : Cursor) : Event → Cursor → Prop where
  | answered (r : Response) (hk : k.registered = true) :
    Step k (.answered r) { k with registered := r.body.isBatch, inbox := k.inbox.deliver r }
  | garbled (e : ProtocolError) (hk : k.registered = true) :
    Step k (.garbled e) { k with registered := false, inbox := k.inbox.fail (.ofProtocol e) }
  | lost (e : ClientError) (hk : k.registered = true) :
    Step k (.lost e) { k with registered := false, inbox := k.inbox.fail e }
  | displaced (hk : k.registered = true) : Step k .displaced { k with registered := false }
  | yielded (v : Json) (s : Inbox) (hs : k.inbox.step = (.value v, s)) :
    Step k (.yielded v) { k with inbox := s }
  | ended (s : Inbox) (hs : k.inbox.step = (.ended, s)) :
    Step k .ended { k with registered := false, inbox := s }
  | failed (e : ClientError) (s : Inbox) (hs : k.inbox.step = (.failed e, s)) :
    Step k (.failed e) { k with registered := false, inbox := s }
  | fetched (s : Inbox) (hs : k.inbox.step = (.fetch, s)) : Step k .fetched { k with inbox := s }
  | refused (e : ClientError) (s s' : Inbox) (hs : k.inbox.step = (.fetch, s))
    (hl : s' = s ∨ s' = s.fail e) :
    Step k (.refused e) { k with registered := false, inbox := s'.abandon }
  | waited (s : Inbox) (hs : k.inbox.step = (.wait, s)) : Step k .waited k
  | closed (hc : k.inbox.closed = false) :
    Step k .closed { k with registered := false, inbox := k.inbox.close }
  | closedAgain (hc : k.inbox.closed = true) : Step k .closed k
  | dropped : Step k .dropped { k with registered := false, held := false, inbox := k.inbox.drop }

def Steps : Cursor → List Event → Cursor → Prop
  | k, [], l => k = l
  | k, e :: h, l => ∃ m, Step k e m ∧ Steps m h l

variable {k l m : Cursor} {e : Event} {h : List Event}

theorem Step.token_eq (hs : Step k e l) : l.token = k.token := by
  cases hs <;> rfl

theorem Step.exclusive_eq (hs : Step k e l) : l.exclusive = k.exclusive := by
  cases hs <;> rfl

/-- Nothing registers a cursor again. -/
theorem Step.registered_of (hs : Step k e l) (hl : l.registered = true) : k.registered = true := by
  cases hs <;> simp_all

theorem Step.sound (hs : Step k e l) (hk : k.Sound) : l.Sound := by
  cases hs with
  | answered r hr =>
    intro hb
    obtain ⟨hrun, herr⟩ := hk hr
    obtain ⟨hc, hd⟩ := Inbox.isRunning_iff.mp hrun
    change r.body.isBatch = true at hb
    have hnone : Inbox.errorOf r.body = none := by
      cases hbody : r.body <;> simp_all [ResponseBody.isBatch, Inbox.errorOf]
    simp [Inbox.deliver, Inbox.isRunning, hc, hd, hb, hnone, herr]
  | yielded v s hs =>
    obtain ⟨rest, -, rfl⟩ := Inbox.step_eq_value.mp hs
    exact hk
  | fetched s hs =>
    obtain ⟨-, -, -, -, -, rfl⟩ := Inbox.step_eq_fetch.mp hs
    exact hk
  | waited | closedAgain => exact hk
  | garbled | lost | displaced | ended | failed | refused | closed | dropped =>
    intro hb
    cases hb

theorem steps_append {h₁ h₂ : List Event} :
    Steps k (h₁ ++ h₂) l ↔ ∃ m, Steps k h₁ m ∧ Steps m h₂ l := by
  induction h₁ generalizing k with
  | nil => simp [Steps]
  | cons e h₁ ih =>
    simp only [List.cons_append, Steps, ih]
    constructor
    · rintro ⟨m, hm, n, hn, hl⟩
      exact ⟨n, ⟨m, hm, hn⟩, hl⟩
    · rintro ⟨n, ⟨m, hm, hn⟩, hl⟩
      exact ⟨m, hm, n, hn, hl⟩

/-- What holds before a history and is kept by each of its events holds after it. -/
theorem Steps.invariant {P : List Event → Cursor → Prop} (h₀ : P [] k)
    (hstep : ∀ h₁ m e n, e ∈ h → P h₁ m → Step m e n → P (h₁ ++ [e]) n) (hs : Steps k h l) :
    P h l := by
  suffices ∀ h₁ h₂ m, h = h₁ ++ h₂ → P h₁ m → Steps m h₂ l → P h l from
    this [] h k rfl h₀ hs
  intro h₁ h₂
  induction h₂ generalizing h₁ with
  | nil =>
    intro m hh hp hm
    cases hm
    rwa [hh, List.append_nil]
  | cons e h₂ ih =>
    rintro m hh hp ⟨n, hn, hl⟩
    exact ih (h₁ ++ [e]) n (by simp [hh]) (hstep h₁ m e n (by simp [hh]) hp hn) hl

theorem Steps.token_eq (hs : Steps k h l) : l.token = k.token :=
  hs.invariant (P := fun _ l => l.token = k.token) rfl fun _ _ _ _ _ hm hn =>
    hn.token_eq.trans hm

theorem Steps.exclusive_eq (hs : Steps k h l) : l.exclusive = k.exclusive :=
  hs.invariant (P := fun _ l => l.exclusive = k.exclusive) rfl fun _ _ _ _ _ hm hn =>
    hn.exclusive_eq.trans hm

theorem Steps.sound (hs : Steps k h l) (hk : k.Sound) : l.Sound :=
  hs.invariant (P := fun _ l => l.Sound) hk fun _ _ _ _ _ hm hn => hn.sound hm

/-- What becomes of a cursor when its owner does nothing and no frame arrives for it. It loses its
registration at most: to a cursor with its token, if `ending`, or with the connection, if that is
`closed` afterwards. -/
inductive Bystander (ending closed : Prop) (k : Cursor) : Cursor → Prop where
  | same : Bystander ending closed k k
  | displaced (h : ending) (hk : k.registered = true) :
    Bystander ending closed k { k with registered := false }
  | lost (e : ClientError) (h : closed) (hk : k.registered = true) :
    Bystander ending closed k (k.lose e)

namespace Bystander

variable {ending closed : Prop}

theorem token_eq (h : Bystander ending closed k l) : l.token = k.token := by
  cases h with
  | same | displaced => rfl
  | lost => unfold lose; split <;> rfl

theorem registered_of (h : Bystander ending closed k l) (hl : l.registered = true) :
    k.registered = true := by
  cases h with
  | same => exact hl
  | displaced _ hk | lost _ _ hk => exact hk

theorem eq_of_not_registered (h : Bystander ending closed k l) (hk : k.registered = false) :
    l = k := by
  cases h <;> simp_all

theorem trans {closed' : Prop} (h₁ : Bystander ending closed k l)
    (h₂ : Bystander ending closed' l m) (hc : closed → closed') : Bystander ending closed' k m := by
  cases h₁ with
  | same => exact h₂
  | displaced h hk =>
    cases h₂.eq_of_not_registered rfl
    exact .displaced h hk
  | lost e h hk =>
    cases h₂.eq_of_not_registered (by simp [lose, hk])
    exact .lost e (hc h) hk

end Bystander

end Cursor
end Reql
