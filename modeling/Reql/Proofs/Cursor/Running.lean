import Reql.Proofs.Cursor.Registration

/-! How long a cursor takes its server to go on. -/
namespace Reql.Cursor

def Event.isRefusal : Event → Bool
  | .refused _ => true
  | _ => false

/-- Whether an event is the end of a query for its cursor. -/
def Event.isEnd (v : Event) : Bool :=
  v.isFinal || v.isRelease || v.isRefusal

/-- The cursor is still to be answered and has met no error. -/
def Going (k : Cursor) : Prop :=
  k.inbox.isRunning = true ∧ k.inbox.error = none

variable {k l : Cursor} {h : List Event} {v : Event} {t : Token}

theorem Step.going (hs : Step k v l) (hk : k.Going) (hv : v.isEnd = false) : l.Going := by
  obtain ⟨hrun, herror⟩ := hk
  obtain ⟨hclosed, hdone⟩ := Inbox.isRunning_iff.mp hrun
  cases hs with
  | answered r hr =>
    have hbatch : r.body.isBatch = true := by
      simpa [Event.isEnd, Event.isFinal, Event.isRelease, Event.isRefusal] using hv
    have hnone : Inbox.errorOf r.body = none := by
      cases hbody : r.body <;> simp_all [ResponseBody.isBatch, Inbox.errorOf]
    simp [Going, Inbox.deliver, Inbox.isRunning, hclosed, hdone, hbatch, hnone, herror]
  | displaced => exact ⟨hrun, herror⟩
  | yielded w s hs =>
    obtain ⟨rest, -, rfl⟩ := Inbox.step_eq_value.mp hs
    exact ⟨hrun, herror⟩
  | fetched s hs =>
    obtain ⟨-, -, -, -, -, rfl⟩ := Inbox.step_eq_fetch.mp hs
    exact ⟨hrun, herror⟩
  | waited => exact ⟨hrun, herror⟩
  | ended s hs =>
    obtain ⟨-, -, hover, -⟩ := Inbox.step_eq_ended.mp hs
    rw [hclosed, hdone] at hover
    simp at hover
  | failed e s hs =>
    obtain ⟨-, hsome, -⟩ := Inbox.step_eq_failed.mp hs
    rw [herror] at hsome
    cases hsome
  | garbled | lost | refused | closed | closedAgain | dropped => cases hv

theorem Steps.going (hs : Steps k h l) (hk : k.Going) (hh : ∀ v ∈ h, v.isEnd = false) : l.Going :=
  hs.invariant (P := fun _ l => l.Going) hk fun _ _ v _ hv hm hn => hn.going hm (hh v hv)

/-- Nothing sets a server going again. -/
theorem Step.running_of (hs : Step k v l) (hl : l.inbox.isRunning = true) :
    k.inbox.isRunning = true := by
  obtain ⟨hc, hd⟩ := Inbox.isRunning_iff.mp hl
  rw [Inbox.isRunning_iff]
  cases hs with
  | answered r hr =>
    simp only [Inbox.deliver] at hc hd
    split at hc <;> simp_all
  | garbled e | lost e =>
    simp only [Inbox.fail] at hc hd
    split at hc <;> simp_all
  | displaced | waited | closedAgain => exact ⟨hc, hd⟩
  | yielded w s hs =>
    obtain ⟨rest, -, rfl⟩ := Inbox.step_eq_value.mp hs
    exact ⟨hc, hd⟩
  | fetched s hs =>
    obtain ⟨-, -, -, -, -, rfl⟩ := Inbox.step_eq_fetch.mp hs
    exact ⟨hc, hd⟩
  | ended s hs =>
    obtain ⟨-, -, -, rfl⟩ := Inbox.step_eq_ended.mp hs
    cases hc
  | failed e s hs =>
    obtain ⟨-, -, rfl⟩ := Inbox.step_eq_failed.mp hs
    cases hc
  | refused | closed | dropped => cases hc

theorem Steps.running_of (hs : Steps k h l) (hl : l.inbox.isRunning = true) :
    k.inbox.isRunning = true :=
  hs.invariant (P := fun _ l => l.inbox.isRunning = true → k.inbox.isRunning = true) id
    (fun _ _ _ _ _ hm hn hr => hm (hn.running_of hr)) hl

theorem Step.not_running_of_release (hs : Step k v l) (hv : v.isRelease = true) :
    l.inbox.isRunning = false := by
  cases hs with
  | closed | dropped => rfl
  | closedAgain hc => simp [Inbox.isRunning, hc]
  | _ => cases hv

end Reql.Cursor
