import Reql.Proofs.Cursor.History

/-! What a cursor hands out: the values delivered to it in order, then its error, then the end. -/
namespace Reql.Cursor

namespace Event

/-- The values that an event delivers; an answer that is one document is one value. -/
def delivered : Event → List Json
  | .answered r => Inbox.valuesOf r.body
  | _ => []

def yielded? : Event → Option Json
  | .yielded v => some v
  | _ => none

def result? : Event → Option (Except ClientError (Option Json))
  | .yielded v => some (.ok (some v))
  | .ended => some (.ok none)
  | .failed e | .refused e => some (.error e)
  | _ => none

def failure? : Event → Option ClientError
  | .answered r => Inbox.errorOf r.body
  | .garbled e => some (.ofProtocol e)
  | .lost e => some e
  | _ => none

/-- Whether nothing is delivered after an event. -/
def isFinal : Event → Bool
  | .answered r => !r.body.isBatch
  | .garbled _ | .lost _ => true
  | _ => false

def isRelease : Event → Bool
  | .closed | .dropped => true
  | _ => false

/-- The event of a call of `next` has the result of the call. -/
theorem result?_ofRead (offer : Inbox.Step)
    (r : Option (Except ClientError (Option Json))) : (ofRead offer r).result? = r := by
  unfold ofRead
  split
  · rfl
  · rfl
  · split <;> rfl
  · split <;> rfl

theorem result?_eq_error {v : Event} {e : ClientError} (h : v.result? = some (.error e)) :
    v = .failed e ∨ v = .refused e := by
  cases v with
  | failed e' => cases h; exact Or.inl rfl
  | refused e' => cases h; exact Or.inr rfl
  | _ => cases h

end Event

def delivered (h : List Event) : List Json := h.flatMap Event.delivered

def yielded (h : List Event) : List Json := h.filterMap Event.yielded?

def results (h : List Event) : List (Except ClientError (Option Json)) :=
  h.filterMap Event.result?

def failures (h : List Event) : List ClientError := h.filterMap Event.failure?

def errors (rs : List (Except ClientError (Option Json))) : List ClientError :=
  rs.filterMap fun
    | .error e => some e
    | .ok _ => none

/-- A reason for which there are no more values: none were asked for, the last answer has arrived,
or an error has been handed out. -/
def Over (noreply : Bool) (h : List Event) : Prop :=
  noreply = true ∨
    (∃ r, .answered r ∈ h ∧ r.body.isBatch = false ∧ Inbox.errorOf r.body = none) ∨
    ∃ e, .error e ∈ results h

/-- The law of what a cursor hands out in a history at whose end its inbox is `s`. -/
structure OutputLaw (noreply : Bool) (h : List Event) (s : Inbox) : Prop where
  /-- Values are neither lost nor repeated nor reordered. -/
  conserved : yielded h ++ s.buffer = delivered h
  /-- An error is handed out after all values, and it has been delivered, or it is that of a
  request for more. -/
  error_last : ∀ h₁ v h₂ e, h = h₁ ++ v :: h₂ → v.result? = some (.error e) →
    yielded h₁ = delivered h₁ ∧ (e ∈ failures h₁ ∨ v = .refused e)
  /-- At most one error is handed out. -/
  error_once : (errors (results h)).length ≤ 1
  /-- After the last delivery no reader waits: what is left of the values is handed out, then the
  failure if there is one, then the end. -/
  final_read : ∀ h₁ v h₂, h = h₁ ++ v :: h₂ → v.isFinal = true →
    ∃ vs n, delivered (h₁ ++ [v]) = yielded h₁ ++ vs ∧
      results h₂ <+: vs.map (.ok ∘ some) ++ v.failure?.toList.map .error ++
        List.replicate n (.ok none) ∧
      .waited ∉ h₂ ∧ .fetched ∉ h₂
  /-- The end is handed out after all values, and there is a reason for it. -/
  end_last : ∀ h₁ h₂, h = h₁ ++ .ended :: h₂ → yielded h₁ = delivered h₁ ∧ Over noreply h₁
  /-- After the end or an error there is only the end. -/
  end_stays : ∀ h₁ v h₂, h = h₁ ++ v :: h₂ →
    (v = .ended ∨ ∃ e, v.result? = some (.error e)) → ∀ w ∈ h₂, w = .ended

section Views

variable (h₁ h₂ : List Event) (v : Event)

@[simp] theorem delivered_append : delivered (h₁ ++ h₂) = delivered h₁ ++ delivered h₂ :=
  List.flatMap_append

@[simp] theorem delivered_singleton : delivered [v] = v.delivered :=
  List.flatMap_singleton _ _

@[simp] theorem yielded_append : yielded (h₁ ++ h₂) = yielded h₁ ++ yielded h₂ :=
  List.filterMap_append

@[simp] theorem yielded_singleton : yielded [v] = v.yielded?.toList := by
  cases h : v.yielded? <;> simp [yielded, h]

@[simp] theorem results_append : results (h₁ ++ h₂) = results h₁ ++ results h₂ :=
  List.filterMap_append

@[simp] theorem results_singleton : results [v] = v.result?.toList := by
  cases h : v.result? <;> simp [results, h]

@[simp] theorem failures_append : failures (h₁ ++ h₂) = failures h₁ ++ failures h₂ :=
  List.filterMap_append

@[simp] theorem failures_singleton : failures [v] = v.failure?.toList := by
  cases h : v.failure? <;> simp [failures, h]

@[simp] theorem errors_append (rs rs' : List (Except ClientError (Option Json))) :
    errors (rs ++ rs') = errors rs ++ errors rs' :=
  List.filterMap_append

variable {h₁}

theorem Over.append {noreply : Bool} (h : Over noreply h₁) : Over noreply (h₁ ++ h₂) := by
  rcases h with h | ⟨r, hr, hb, he⟩ | ⟨e, he⟩
  · exact Or.inl h
  · exact Or.inr (Or.inl ⟨r, List.mem_append_left _ hr, hb, he⟩)
  · exact Or.inr (Or.inr ⟨e, by rw [results_append]; exact List.mem_append_left _ he⟩)

end Views

variable {noreply : Bool} {k l : Cursor} {h : List Event} {v : Event}

/-- What the history of a cursor that its owner has not given up says about its inbox. -/
structure Ledger (noreply : Bool) (h : List Event) (k : Cursor) : Prop where
  sound : k.Sound
  conserved : yielded h ++ k.inbox.buffer = delivered h
  pending : ∀ e, k.inbox.error = some e → e ∈ failures h
  ending : k.inbox.error = none → k.inbox.serverDone = true ∨ k.inbox.closed = true →
    Over noreply h

/-- The ledger is kept by events that neither deliver nor hand out, nor change the inbox but for
what has been asked. -/
theorem Ledger.of_same (hk : Ledger noreply h k) (hs : l.Sound)
    (hb : l.inbox.buffer = k.inbox.buffer) (he : l.inbox.error = k.inbox.error)
    (hd : l.inbox.serverDone = k.inbox.serverDone) (hc : l.inbox.closed = k.inbox.closed)
    (hy : v.yielded? = none) (hv : v.delivered = []) : Ledger noreply (h ++ [v]) l where
  sound := hs
  conserved := by
    rw [yielded_append, delivered_append, yielded_singleton, delivered_singleton, hy, hv, hb]
    simpa using hk.conserved
  pending e h' := by
    rw [failures_append]
    exact List.mem_append_left _ (hk.pending e (he ▸ h'))
  ending h' hdone := (hk.ending (he ▸ h') (by rwa [hd, hc] at hdone)).append _

/-- The ledger is kept by a failure from outside. -/
theorem Ledger.fail {e : ClientError} (hk : Ledger noreply h k) (hr : k.registered = true)
    (hv : v.failure? = some e) (hy : v.yielded? = none) (hd : v.delivered = []) :
    Ledger noreply (h ++ [v]) { k with registered := false, inbox := k.inbox.fail e } := by
  obtain ⟨hc, hdone⟩ := Inbox.isRunning_iff.mp (hk.sound hr).1
  have hfail : k.inbox.fail e =
      { k.inbox with fetching := false, serverDone := true, error := some e } := by
    simp [Inbox.fail, hc, hdone]
  refine ⟨nofun, ?_, fun e' he => ?_, fun he => ?_⟩
  · rw [yielded_append, delivered_append, yielded_singleton, delivered_singleton, hy, hd, hfail]
    simpa using hk.conserved
  · rw [hfail] at he
    simp [hv, Option.some.inj he]
  · rw [hfail] at he
    cases he

/-- The ledger is kept when an error is handed out. -/
theorem Ledger.error {e : ClientError} {s : Inbox} (hk : Ledger noreply h k)
    (hb : s.buffer = k.inbox.buffer) (he : s.error = none) (hv : v.result? = some (.error e)) :
    Ledger noreply (h ++ [v]) { k with registered := false, inbox := s } where
  sound := nofun
  conserved := by
    have hnone : v.yielded? = none ∧ v.delivered = [] := by
      rcases Event.result?_eq_error hv with rfl | rfl <;> exact ⟨rfl, rfl⟩
    rw [yielded_append, delivered_append, yielded_singleton, delivered_singleton, hnone.1,
      hnone.2, hb]
    simpa using hk.conserved
  pending e' h' := by rw [he] at h'; cases h'
  ending _ _ := Or.inr (Or.inr ⟨e, by simp [hv]⟩)

/-- An answer to a registered cursor. -/
theorem Sound.deliver_eq (hk : k.Sound) (hr : k.registered = true) (r : Response) :
    k.inbox.deliver r =
      { k.inbox with
        buffer := k.inbox.buffer ++ Inbox.valuesOf r.body
        serverDone := !r.body.isBatch
        fetching := false
        isAtom := k.inbox.isAtom || Inbox.isAtomBody r.body
        error := Inbox.errorOf r.body
        profile := r.profile.or k.inbox.profile } := by
  obtain ⟨hrun, herr⟩ := hk hr
  obtain ⟨hc, hd⟩ := Inbox.isRunning_iff.mp hrun
  simp [Inbox.deliver, hc, hd, herr]

theorem fail_buffer (s : Inbox) (e : ClientError) : (s.fail e).buffer = s.buffer := by
  unfold Inbox.fail
  split <;> rfl

theorem Ledger.step (hk : Ledger noreply h k) (hs : Step k v l) (hv : v.isRelease = false) :
    Ledger noreply (h ++ [v]) l := by
  have hsound := hs.sound hk.sound
  cases hs with
  | answered r hr =>
    have hdel := hk.sound.deliver_eq hr r
    have hopen := (Inbox.isRunning_iff.mp (hk.sound hr).1).1
    refine ⟨hsound, ?_, fun e he => ?_, fun he hdone => ?_⟩
    · rw [hdel, delivered_append, ← hk.conserved]
      simp [Event.yielded?, Event.delivered]
    · rw [hdel] at he
      simp [Event.failure?, show Inbox.errorOf r.body = some e from he]
    · rw [hdel] at he hdone
      simp only [hopen, Bool.false_eq_true, or_false] at hdone
      exact Or.inr (Or.inl ⟨r, by simp, by simpa using hdone, he⟩)
  | garbled e hr => exact hk.fail hr rfl rfl rfl
  | lost e hr => exact hk.fail hr rfl rfl rfl
  | displaced => exact hk.of_same hsound rfl rfl rfl rfl rfl rfl
  | yielded w s hs =>
    obtain ⟨rest, hb, rfl⟩ := Inbox.step_eq_value.mp hs
    refine ⟨hsound, ?_, fun e he => ?_, fun he hdone => (hk.ending he hdone).append _⟩
    · rw [delivered_append, ← hk.conserved, hb]
      simp [Event.yielded?, Event.delivered]
    · rw [failures_append]
      exact List.mem_append_left _ (hk.pending e he)
  | ended s hs =>
    obtain ⟨hb, he, hdone, rfl⟩ := Inbox.step_eq_ended.mp hs
    refine ⟨hsound, ?_, fun e he' => ?_, fun _ _ => (hk.ending he hdone).append _⟩
    · rw [delivered_append, ← hk.conserved]
      simp [Event.yielded?, Event.delivered]
    · rw [failures_append]
      exact List.mem_append_left _ (hk.pending e he')
  | failed e s hs =>
    obtain ⟨-, -, rfl⟩ := Inbox.step_eq_failed.mp hs
    exact hk.error (e := e) rfl rfl rfl
  | fetched s hs =>
    obtain ⟨-, -, -, -, -, rfl⟩ := Inbox.step_eq_fetch.mp hs
    exact hk.of_same hsound rfl rfl rfl rfl rfl rfl
  | refused e s s' hs hl =>
    obtain ⟨-, -, -, -, -, rfl⟩ := Inbox.step_eq_fetch.mp hs
    refine hk.error (e := e) ?_ rfl rfl
    rcases hl with rfl | rfl
    · rfl
    · exact fail_buffer _ _
  | waited | closedAgain => exact hk.of_same hsound rfl rfl rfl rfl rfl rfl
  | closed | dropped => cases hv

theorem Ledger.steps (hk : Ledger noreply [] k) (hs : Steps k h l)
    (hv : ∀ v ∈ h, v.isRelease = false) : Ledger noreply h l :=
  hs.invariant (P := fun h l => Ledger noreply h l) hk fun _ _ v _ hmem hm hn =>
    hm.step hn (hv v hmem)

theorem New.ledger {t : Token} (hk : k.New t noreply) : Ledger noreply [] k where
  sound := hk.sound
  conserved := by
    rw [hk.inbox]
    cases noreply <;> rfl
  pending e he := by
    rw [hk.inbox] at he
    cases noreply <;> cases he
  ending _ hdone := by
    rw [hk.inbox] at hdone
    cases noreply with
    | true => exact Or.inl rfl
    | false => rcases hdone with hdone | hdone <;> cases hdone

/-- What is left to hand out before the end. -/
def remaining (s : Inbox) : List (Except ClientError (Option Json)) :=
  s.buffer.map (.ok ∘ some) ++ s.error.toList.map .error

/-- Nothing more will be delivered to the cursor. -/
def Settled (k : Cursor) : Prop :=
  k.registered = false ∧ (k.inbox.serverDone = true ∨ k.inbox.closed = true)

/-- The end or an error has been handed out. -/
def Spent (k : Cursor) : Prop :=
  k.registered = false ∧ k.inbox.closed = true ∧ k.inbox.buffer = [] ∧ k.inbox.error = none

/-- A settled cursor hands out what is left, one result after the other, and then the end. -/
theorem Settled.step (hk : k.Settled) (hs : Step k v l) (hv : v.isRelease = false) :
    l.Settled ∧ ∃ r, v.result? = some r ∧ (remaining k.inbox = r :: remaining l.inbox ∨
      remaining k.inbox = [] ∧ r = .ok none ∧ remaining l.inbox = []) := by
  obtain ⟨hr, hdone⟩ := hk
  have hopen : ¬(k.inbox.serverDone = false ∧ k.inbox.closed = false) := by
    rintro ⟨hd, hc⟩
    simp [hd, hc] at hdone
  cases hs with
  | yielded w s hs =>
    obtain ⟨rest, hb, rfl⟩ := Inbox.step_eq_value.mp hs
    refine ⟨⟨hr, hdone⟩, _, rfl, Or.inl ?_⟩
    simp only [remaining, hb]
    rfl
  | failed e s hs =>
    obtain ⟨hb, he, rfl⟩ := Inbox.step_eq_failed.mp hs
    refine ⟨⟨rfl, Or.inr rfl⟩, _, rfl, Or.inl ?_⟩
    simp only [remaining, hb, he]
    rfl
  | ended s hs =>
    obtain ⟨hb, he, -, rfl⟩ := Inbox.step_eq_ended.mp hs
    refine ⟨⟨rfl, Or.inr rfl⟩, _, rfl, Or.inr ⟨?_, rfl, ?_⟩⟩ <;> simp [remaining, hb, he]
  | answered _ h | garbled _ h | lost _ h | displaced h => rw [hr] at h; cases h
  | fetched s hs =>
    obtain ⟨-, -, hd, hc, -⟩ := Inbox.step_eq_fetch.mp hs
    exact absurd ⟨hd, hc⟩ hopen
  | refused e s s' hs =>
    obtain ⟨-, -, hd, hc, -⟩ := Inbox.step_eq_fetch.mp hs
    exact absurd ⟨hd, hc⟩ hopen
  | waited s hs =>
    obtain ⟨-, -, hd, hc, -⟩ := Inbox.step_eq_wait.mp hs
    exact absurd ⟨hd, hc⟩ hopen
  | closed | closedAgain | dropped => cases hv

theorem Settled.steps (hk : k.Settled) (hs : Steps k h l) (hv : ∀ v ∈ h, v.isRelease = false) :
    results h <+: remaining k.inbox ++ List.replicate h.length (.ok none) ∧
      ∀ v ∈ h, v.result?.isSome = true := by
  induction h generalizing k with
  | nil => exact ⟨List.nil_prefix, nofun⟩
  | cons v h ih =>
    obtain ⟨m, hm, hl⟩ := hs
    obtain ⟨hset, r, hr, hrem⟩ := hk.step hm (hv v List.mem_cons_self)
    obtain ⟨hpre, hsome⟩ := ih hset hl fun w hw => hv w (List.mem_cons_of_mem _ hw)
    have hcons : results (v :: h) = r :: results h := by simp [results, hr]
    constructor
    · rw [hcons, List.length_cons]
      rcases hrem with hrem | ⟨hnil, rfl, hnil'⟩
      · rw [hrem, List.replicate_succ', ← List.append_assoc, List.cons_append]
        exact (List.cons_prefix_cons.mpr ⟨rfl, hpre⟩).trans (List.prefix_append _ _)
      · rw [hnil', List.nil_append] at hpre
        rw [hnil, List.nil_append, List.replicate_succ]
        exact List.cons_prefix_cons.mpr ⟨rfl, hpre⟩
    · intro w hw
      rcases List.mem_cons.mp hw with rfl | hw
      · rw [hr]
        rfl
      · exact hsome w hw

theorem Spent.step (hk : k.Spent) (hs : Step k v l) (hv : v.isRelease = false) :
    v = .ended ∧ l.Spent := by
  obtain ⟨hr, hc, hb, he⟩ := hk
  obtain ⟨-, r, hres, hrem⟩ := Settled.step ⟨hr, Or.inr hc⟩ hs hv
  have hnil : remaining k.inbox = [] := by simp [remaining, hb, he]
  rcases hrem with hrem | ⟨-, rfl, -⟩
  · rw [hnil] at hrem
    cases hrem
  · cases hs with
    | ended s hs =>
      obtain ⟨-, -, -, rfl⟩ := Inbox.step_eq_ended.mp hs
      exact ⟨rfl, rfl, rfl, hb, he⟩
    | _ => cases hres

theorem Spent.steps (hk : k.Spent) (hs : Steps k h l) (hv : ∀ v ∈ h, v.isRelease = false) :
    ∀ v ∈ h, v = .ended := by
  induction h generalizing k with
  | nil => exact nofun
  | cons v h ih =>
    obtain ⟨m, hm, hl⟩ := hs
    obtain ⟨hend, hspent⟩ := hk.step hm (hv v List.mem_cons_self)
    intro w hw
    rcases List.mem_cons.mp hw with rfl | hw
    · exact hend
    · exact ih hspent hl (fun u hu => hv u (List.mem_cons_of_mem _ hu)) w hw

/-- A cursor is spent by the end and by an error, which come when it has handed all values out. -/
theorem Step.spent (hs : Step k v l) (hv : v = .ended ∨ ∃ e, v.result? = some (.error e)) :
    k.inbox.buffer = [] ∧ l.Spent := by
  cases hs with
  | ended s hs =>
    obtain ⟨hb, he, -, rfl⟩ := Inbox.step_eq_ended.mp hs
    exact ⟨hb, rfl, rfl, hb, he⟩
  | failed e s hs =>
    obtain ⟨hb, -, rfl⟩ := Inbox.step_eq_failed.mp hs
    exact ⟨hb, rfl, rfl, hb, rfl⟩
  | refused e s s' hs hl =>
    obtain ⟨hb, -, -, -, -, rfl⟩ := Inbox.step_eq_fetch.mp hs
    have hs' : s'.buffer = [] := by
      rcases hl with rfl | rfl
      · exact hb
      · rw [fail_buffer, hb]
    exact ⟨hb, rfl, rfl, hs', rfl⟩
  | _ =>
    rcases hv with hv | ⟨e, hv⟩ <;> cases hv

/-- The last delivery settles a cursor, and leaves the failure to be handed out if it is one. -/
theorem Step.settled (hs : Step k v l) (hk : k.Sound) (hv : v.isFinal = true) :
    l.Settled ∧ l.inbox.error = v.failure? ∧ v.yielded? = none ∧ v.isRelease = false := by
  cases hs with
  | answered r hr =>
    have hfinal : r.body.isBatch = false := by simpa [Event.isFinal] using hv
    rw [hk.deliver_eq hr, hfinal]
    exact ⟨⟨rfl, Or.inl rfl⟩, rfl, rfl, rfl⟩
  | garbled e hr | lost e hr =>
    obtain ⟨hc, hd⟩ := Inbox.isRunning_iff.mp (hk hr).1
    simp [Settled, Inbox.fail, hc, hd, Event.failure?, Event.yielded?, Event.isRelease]
  | _ => cases hv

/-- At each event: the ledger of the history before it, and what follows it. -/
theorem Ledger.split {h₁ h₂ : List Event} (hk : Ledger noreply [] k)
    (hs : Steps k (h₁ ++ v :: h₂) l) (hv : ∀ w ∈ h₁ ++ v :: h₂, w.isRelease = false) :
    ∃ m n, Ledger noreply h₁ m ∧ Step m v n ∧ Steps n h₂ l ∧ ∀ w ∈ h₂, w.isRelease = false := by
  obtain ⟨m, hm, n, hn, hl⟩ := steps_append.mp hs
  have hrel₁ (w : Event) (hw : w ∈ h₁) : w.isRelease = false := hv w (by simp [hw])
  have hrel₂ (w : Event) (hw : w ∈ h₂) : w.isRelease = false := hv w (by simp [hw])
  exact ⟨m, n, hk.steps hm hrel₁, hn, hl, hrel₂⟩

theorem Ledger.all_yielded (hk : Ledger noreply h k) (hb : k.inbox.buffer = []) :
    yielded h = delivered h := by
  rw [← hk.conserved, hb, List.append_nil]

/-- A cursor that has handed an error out is spent, and has handed out that one only. -/
theorem Steps.errors_le_one (hs : Steps k h l) (hv : ∀ v ∈ h, v.isRelease = false) :
    (errors (results h)).length ≤ 1 ∧ (errors (results h) ≠ [] → l.Spent) := by
  refine hs.invariant
    (P := fun h l => (errors (results h)).length ≤ 1 ∧ (errors (results h) ≠ [] → l.Spent))
    ⟨Nat.zero_le _, fun h => absurd rfl h⟩ ?_
  intro h₁ m v n hmem ⟨hle, hspent⟩ hn
  rw [results_append, errors_append, results_singleton]
  by_cases hnil : errors (results h₁) = []
  · rw [hnil, List.nil_append]
    cases hres : v.result? with
    | none => exact ⟨Nat.zero_le _, fun h => absurd rfl h⟩
    | some r =>
      cases r with
      | ok r => exact ⟨Nat.zero_le _, fun h => absurd rfl h⟩
      | error e => exact ⟨Nat.le_refl _, fun _ => (hn.spent (Or.inr ⟨e, hres⟩)).2⟩
  · obtain ⟨rfl, hspent'⟩ := (hspent hnil).step hn (hv v hmem)
    have hend : errors (Event.ended.result?.toList) = [] := rfl
    rw [hend, List.append_nil]
    exact ⟨hle, fun _ => hspent'⟩

/-- A cursor that its owner has not given up obeys the law. -/
theorem outputLaw_of_steps (hk : Ledger noreply [] k) (hs : Steps k h l)
    (hv : ∀ v ∈ h, v.isRelease = false) : OutputLaw noreply h l.inbox where
  conserved := (hk.steps hs hv).conserved
  error_last h₁ v h₂ e hh he := by
    subst hh
    obtain ⟨m, n, hm, hn, -⟩ := hk.split hs hv
    refine ⟨hm.all_yielded (hn.spent (Or.inr ⟨e, he⟩)).1, ?_⟩
    rcases Event.result?_eq_error he with rfl | rfl
    · obtain ⟨s, hs⟩ : ∃ s, m.inbox.step = (.failed e, s) := by
        cases hn with
        | failed _ s hs => exact ⟨s, hs⟩
      exact Or.inl (hm.pending e (Inbox.step_eq_failed.mp hs).2.1)
    · exact Or.inr rfl
  error_once := (hs.errors_le_one hv).1
  final_read h₁ v h₂ hh hfinal := by
    subst hh
    obtain ⟨m, n, hm, hn, hl, hrel⟩ := hk.split hs hv
    obtain ⟨hset, herr, hy, hvr⟩ := hn.settled hm.sound hfinal
    obtain ⟨hpre, hsome⟩ := hset.steps hl hrel
    refine ⟨n.inbox.buffer, h₂.length, ?_, ?_, fun hw => ?_, fun hw => ?_⟩
    · rw [← (hm.step hn hvr).conserved]
      simp [hy]
    · rwa [remaining, herr] at hpre
    · cases hsome _ hw
    · cases hsome _ hw
  end_last h₁ h₂ hh := by
    subst hh
    obtain ⟨m, n, hm, hn, -⟩ := hk.split hs hv
    refine ⟨hm.all_yielded (hn.spent (Or.inl rfl)).1, ?_⟩
    cases hn with
    | ended s hs =>
      obtain ⟨-, he, hdone, -⟩ := Inbox.step_eq_ended.mp hs
      exact hm.ending he hdone
  end_stays h₁ v h₂ hh hend := by
    subst hh
    obtain ⟨m, n, -, hn, hl, hrel⟩ := hk.split hs hv
    exact (hn.spent hend).2.steps hl hrel

end Reql.Cursor
