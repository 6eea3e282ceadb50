import Reql.Proofs.Cursor.Output

/-! How long a cursor is registered, and the answers that reach it meanwhile. -/
namespace Reql.Cursor

def arrivals (h : List Event) : List Event := h.filter Event.isArrival

variable {k l : Cursor} {h : List Event} {v : Event}

@[simp] theorem arrivals_append (h₁ h₂ : List Event) :
    arrivals (h₁ ++ h₂) = arrivals h₁ ++ arrivals h₂ :=
  List.filter_append _ _

theorem Step.registered_of_arrival (hs : Step k v l) (hv : v.isArrival = true) :
    k.registered = true ∧ l.registered = !v.isFinal := by
  cases hs with
  | answered r hr => exact ⟨hr, (Bool.not_not _).symm⟩
  | garbled e hr => exact ⟨hr, rfl⟩
  | _ => cases hv

theorem Steps.arrivals_eq_nil (hs : Steps k h l) (hr : k.registered = false) :
    arrivals h = [] := by
  induction h generalizing k with
  | nil => rfl
  | cons v h ih =>
    obtain ⟨m, hm, hl⟩ := hs
    have hv : ¬v.isArrival = true := fun hv => by
      rw [(hm.registered_of_arrival hv).1] at hr
      cases hr
    have hmr : m.registered = false := by
      cases hmr : m.registered with
      | false => rfl
      | true => rw [hm.registered_of hmr] at hr; cases hr
    rw [arrivals, List.filter_cons_of_neg hv]
    exact ih hl hmr

/-- Nothing arrives after the last answer or a payload that is none. -/
theorem Steps.arrivals_final {xs ys : List Event} (hs : Steps k h l)
    (hh : arrivals h = xs ++ v :: ys) (hv : v.isFinal = true) : ys = [] := by
  obtain ⟨h₁, h₂, rfl, -, hh₂⟩ := List.filter_eq_append_iff.mp hh
  obtain ⟨h₃, h₄, rfl, -, harr, hys⟩ := List.filter_eq_cons_iff.mp hh₂
  obtain ⟨m, -, hm⟩ := steps_append.mp hs
  obtain ⟨n, -, n', hn, hl⟩ := steps_append.mp hm
  have hgone : n'.registered = false := by
    rw [(hn.registered_of_arrival harr).2, hv]
    rfl
  rw [← hys]
  exact hl.arrivals_eq_nil hgone

/-- Whether an event ends the registration of a cursor on an open connection. -/
def Event.isOver : Event → Bool
  | .answered r => !r.body.isBatch
  | .garbled _ | .displaced | .refused _ | .closed | .dropped => true
  | _ => false

/-- Whether a cursor that wants answers has been asked for and nothing has ended its
registration. -/
def awaits : List Event → Bool
  | .asked false :: h => h.all fun v => !v.isOver
  | _ => false

theorem awaits_asked (noreply : Bool) (h : List Event) :
    awaits (.asked noreply :: h) = true ↔ noreply = false ∧ ∀ v ∈ h, v.isOver = false := by
  cases noreply <;> simp [awaits]

theorem awaits_iff :
    awaits h = true ↔ ∃ h', h = .asked false :: h' ∧ ∀ v ∈ h, v.isOver = false := by
  constructor
  · intro hawait
    unfold awaits at hawait
    split at hawait
    next h' =>
      have hall := ((awaits_asked false h').mp hawait).2
      exact ⟨h', rfl, List.forall_mem_cons.mpr ⟨rfl, hall⟩⟩
    · cases hawait
  · rintro ⟨h', rfl, hall⟩
    exact (awaits_asked false h').mpr ⟨rfl, (List.forall_mem_cons.mp hall).2⟩

theorem Step.registered_iff (hs : Step k v l) (hk : k.Sound) (hv : ∀ e, v ≠ .lost e) :
    l.registered = true ↔ k.registered = true ∧ v.isOver = false := by
  have hidle (hr : k.inbox.isRunning = false) : k.registered ≠ true := by
    rw [hk.not_registered hr]
    decide
  cases hs with
  | answered r hr => simp [hr, Event.isOver]
  | garbled | displaced | refused | closed | dropped => simp [Event.isOver]
  | lost e => exact absurd rfl (hv e)
  | yielded | fetched | waited => simp [Event.isOver]
  | ended s hs =>
    obtain ⟨-, -, hdone, -⟩ := Inbox.step_eq_ended.mp hs
    have hr := hidle (by rcases hdone with h | h <;> simp [Inbox.isRunning, h])
    simp [hr]
  | failed e s hs =>
    obtain ⟨-, he, -⟩ := Inbox.step_eq_failed.mp hs
    have hr : k.registered ≠ true := fun hr => by
      rw [(hk hr).2] at he
      cases he
    simp [hr]
  | closedAgain hc =>
    have hr := hidle (by simp [Inbox.isRunning, hc])
    simp [hr]

/-- A cursor that has not been lost is registered as long as nothing ends that. -/
theorem Steps.registered_iff (hs : Steps k h l) (hk : k.Sound) (hh : ∀ e, .lost e ∉ h) :
    l.registered = true ↔ k.registered = true ∧ ∀ v ∈ h, v.isOver = false := by
  induction h generalizing k with
  | nil =>
    cases hs
    simp
  | cons v h ih =>
    obtain ⟨m, hm, hl⟩ := hs
    have hv (e : ClientError) : v ≠ .lost e := fun he => hh e (he ▸ List.mem_cons_self)
    have htail (e : ClientError) : .lost e ∉ h := fun he => hh e (List.mem_cons_of_mem _ he)
    rw [ih hl (hm.sound hk) htail, hm.registered_iff hk hv, List.forall_mem_cons, and_assoc]

theorem Step.running (hs : Step k v l) (hk : k.Sound) (hv : v ≠ .displaced)
    (h : k.inbox.isRunning = true → k.registered = true) :
    l.inbox.isRunning = true → l.registered = true := by
  intro hrun
  obtain ⟨hc, hd⟩ := Inbox.isRunning_iff.mp hrun
  have hfail (e : ClientError) (hr : k.registered = true) : (k.inbox.fail e).serverDone = true := by
    obtain ⟨hc, hd⟩ := Inbox.isRunning_iff.mp (hk hr).1
    simp [Inbox.fail, hc, hd]
  cases hs with
  | answered r hr =>
    rw [hk.deliver_eq hr] at hd
    simpa using hd
  | garbled e hr | lost e hr =>
    change (k.inbox.fail _).serverDone = false at hd
    rw [hfail _ hr] at hd
    cases hd
  | displaced => exact absurd rfl hv
  | yielded w s hs =>
    obtain ⟨rest, -, rfl⟩ := Inbox.step_eq_value.mp hs
    exact h hrun
  | fetched s hs =>
    obtain ⟨-, -, -, -, -, rfl⟩ := Inbox.step_eq_fetch.mp hs
    exact h hrun
  | waited | closedAgain => exact h hrun
  | ended s hs =>
    obtain ⟨-, -, -, rfl⟩ := Inbox.step_eq_ended.mp hs
    cases hc
  | failed e s hs =>
    obtain ⟨-, -, rfl⟩ := Inbox.step_eq_failed.mp hs
    cases hc
  | refused | closed | dropped => cases hc

/-- A cursor that is still being answered is registered, unless another one has its token. -/
theorem Steps.running (hs : Steps k h l) (hk : k.Sound) (hh : .displaced ∉ h)
    (hrun : k.inbox.isRunning = true → k.registered = true) :
    l.inbox.isRunning = true → l.registered = true := by
  induction h generalizing k with
  | nil =>
    cases hs
    exact hrun
  | cons v h ih =>
    obtain ⟨m, hm, hl⟩ := hs
    have hv : v ≠ .displaced := fun he => hh (he ▸ List.mem_cons_self)
    exact ih hl (hm.sound hk) (fun he => hh (List.mem_cons_of_mem _ he)) (hm.running hk hv hrun)

end Reql.Cursor
