import Reql.Proofs.Cursor.Waiting

/-! A cursor of which its owner has taken nothing yet. -/
namespace Reql.Cursor

/-- Whether an event is a reply to what has been asked: a frame, or the loss of the connection. -/
def Event.isReply (v : Event) : Bool :=
  v.isArrival || v.isFinal

/-- Whether an event is not of the owner's doing. -/
def Event.isForeign (v : Event) : Bool :=
  v.isReply || v == .displaced

/-- What waiting for the first answer comes to after a history in which the owner does nothing. -/
def primed (noreply : Bool) (h : List Event) : Inbox.Primed :=
  if delivered h ≠ [] then .ready
  else
    match failures h with
    | e :: _ => .failed e
    | [] => if noreply || h.any Event.isReply then .ready else .wait

variable {k l : Cursor} {noreply : Bool} {h : List Event} {v : Event} {t : Token}

/-- What a history in which the owner does nothing says about the inbox: everything is still
there. -/
structure Untouched (noreply : Bool) (h : List Event) (k : Cursor) : Prop where
  sound : k.Sound
  closed : k.inbox.closed = false
  buffer : k.inbox.buffer = delivered h
  error : k.inbox.error = (failures h).head?
  done : k.inbox.serverDone = (noreply || h.any Event.isFinal)
  replied : (k.inbox.serverDone || !k.inbox.fetching) = (noreply || h.any Event.isReply)

theorem New.untouched (hk : k.New t noreply) : Untouched noreply [] k := by
  have hinbox := hk.inbox
  cases noreply <;> refine ⟨hk.sound, ?_, ?_, ?_, ?_, ?_⟩ <;> rw [hinbox] <;> rfl

/-- A failure from outside comes behind the values. -/
theorem Untouched.fail {e : ClientError} (hk : Untouched noreply h k) (hr : k.registered = true)
    (hs : Sound { k with registered := false, inbox := k.inbox.fail e })
    (hd : v.delivered = []) (hf : v.failure? = some e) (hv : v.isFinal = true) :
    Untouched noreply (h ++ [v]) { k with registered := false, inbox := k.inbox.fail e } := by
  obtain ⟨hrun, herror⟩ := hk.sound hr
  obtain ⟨hc, hdone⟩ := Inbox.isRunning_iff.mp hrun
  have hnone : failures h = [] := List.head?_eq_none_iff.mp (hk.error.symm.trans herror)
  have hfail : k.inbox.fail e =
      { k.inbox with fetching := false, serverDone := true, error := some e } := by
    simp [Inbox.fail, hc, hdone]
  rw [hfail] at hs ⊢
  refine ⟨hs, hc, ?_, ?_, ?_, ?_⟩
  · rw [delivered_append, delivered_singleton, hd, List.append_nil]
    exact hk.buffer
  · rw [failures_append, failures_singleton, hf, hnone]
    rfl
  · simp [hv]
  · simp [hv, Event.isReply]

theorem Untouched.step (hk : Untouched noreply h k) (hs : Step k v l) (hv : v.isForeign = true) :
    Untouched noreply (h ++ [v]) l := by
  have hsound := hs.sound hk.sound
  cases hs with
  | answered r hr =>
    have herror := (hk.sound hr).2
    have hnone : failures h = [] := List.head?_eq_none_iff.mp (hk.error.symm.trans herror)
    rw [hk.sound.deliver_eq hr] at hsound ⊢
    refine ⟨hsound, hk.closed, ?_, ?_, ?_, ?_⟩
    · rw [delivered_append, delivered_singleton, ← hk.buffer]
      rfl
    · rw [failures_append, failures_singleton, hnone, List.nil_append, Event.failure?]
      cases Inbox.errorOf r.body <;> rfl
    · have hd := (Inbox.isRunning_iff.mp (hk.sound hr).1).2
      rw [hk.done, Bool.or_eq_false_iff] at hd
      simp [hd.1, hd.2, Event.isFinal]
    · simp [Event.isReply, Event.isArrival]
  | garbled e hr => exact hk.fail hr hsound rfl rfl rfl
  | lost e hr => exact hk.fail hr hsound rfl rfl rfl
  | displaced hr =>
    have hdelivered : delivered (h ++ [.displaced]) = delivered h := by simp [Event.delivered]
    have hfailures : failures (h ++ [.displaced]) = failures h := by simp [Event.failure?]
    refine ⟨hsound, hk.closed, hdelivered ▸ hk.buffer, hfailures ▸ hk.error, ?_, ?_⟩
    · simpa [Event.isFinal] using hk.done
    · simpa [Event.isReply, Event.isArrival, Event.isFinal] using hk.replied
  | yielded | ended | failed | fetched | refused | waited | closed | closedAgain | dropped =>
    cases hv

theorem Untouched.steps (hk : k.New t noreply) (hs : Steps k h l)
    (hv : ∀ v ∈ h, v.isForeign = true) : Untouched noreply h l :=
  hs.invariant (P := Untouched noreply) hk.untouched fun _ _ _ _ hmem hm hn =>
    hm.step hn (hv _ hmem)

/-- The outcome of waiting for the first answer. -/
theorem Untouched.prime (hk : Untouched noreply h k) : k.inbox.prime.1 = primed noreply h := by
  have hreplied := hk.replied
  unfold Inbox.prime primed
  rw [hk.closed, hk.error, hk.buffer]
  cases hd : delivered h with
  | cons w ws => rfl
  | nil =>
    cases hf : failures h with
    | cons e es => rfl
    | nil =>
      simp only [List.isEmpty_nil, Bool.not_true, Bool.or_false, Bool.false_eq_true, if_false,
        List.head?_nil, ne_eq, not_true_eq_false, hreplied]
      cases noreply || h.any Event.isReply <;> rfl

/-- An event of others that is no reply brings nothing. -/
theorem Event.eq_displaced (hv : v.isForeign = true) (h : v.isReply = false) : v = .displaced := by
  rw [Event.isForeign, h, Bool.false_or] at hv
  exact eq_of_beq hv

/-- Nothing is waited for but the first reply. -/
theorem primed_eq_wait (hv : ∀ v ∈ h, v.isForeign = true) :
    primed noreply h = .wait ↔ noreply = false ∧ ∀ v ∈ h, v.isReply = false := by
  constructor
  · intro hw
    unfold primed at hw
    split at hw
    · cases hw
    · split at hw
      · cases hw
      · split at hw
        · cases hw
        · next hnone =>
          simp only [Bool.or_eq_true, List.any_eq_true, not_or, not_exists, not_and] at hnone
          exact ⟨by simpa using hnone.1, fun v hmem => by simpa using hnone.2 v hmem⟩
  · rintro ⟨rfl, hnone⟩
    have hdisplaced (v : Event) (hmem : v ∈ h) : v = .displaced :=
      Event.eq_displaced (hv v hmem) (hnone v hmem)
    have hdelivered : delivered h = [] :=
      List.flatMap_eq_nil_iff.mpr fun v hmem => by rw [hdisplaced v hmem]; rfl
    have hfailures : failures h = [] :=
      List.filterMap_eq_nil_iff.mpr fun v hmem => by rw [hdisplaced v hmem]; rfl
    have hany : h.any Event.isReply = false :=
      List.any_eq_false.mpr fun v hmem => by rw [hnone v hmem]; decide
    simp [primed, hdelivered, hfailures, hany]

/-- An error is waited for only without values. -/
theorem delivered_of_primed {e : ClientError} (hp : primed noreply h = .failed e) :
    delivered h = [] := by
  unfold primed at hp
  split at hp
  · cases hp
  · next hne => simpa using hne

/-- The first reply is enough: an error is handed out, and with anything else reading can begin. -/
theorem primed_singleton (hv : v.isReply = true) :
    primed noreply [v] = v.failure?.elim .ready .failed := by
  unfold primed
  cases v with
  | answered r => cases hbody : r.body <;>
      simp [delivered, failures, Event.delivered, Event.failure?, hbody, Inbox.valuesOf,
        Inbox.errorOf, Event.isReply, Event.isArrival]
  | garbled e | lost e => rfl
  | _ => cases hv

/-- After a reply there may be more, or it is the last. -/
theorem Event.isBatch_of_isReply (hv : v.isReply = true) : v.isBatch = !v.isFinal := by
  cases v with
  | answered r => exact (Bool.not_not _).symm
  | garbled | lost => rfl
  | _ => cases hv

theorem Event.isBatch_of_failure {e : ClientError} (hv : v.failure? = some e) :
    v.isBatch = false := by
  cases v with
  | answered r =>
    cases hbody : r.body <;> simp_all [Event.failure?, Inbox.errorOf, Event.isBatch,
      ResponseBody.isBatch]
  | _ => rfl

/-- Nothing happens to a cursor that nobody answers. -/
theorem Steps.eq_nil_of_foreign (hs : Steps k h l) (hr : k.registered = false)
    (hv : ∀ v ∈ h, v.isForeign = true) : h = [] := by
  cases h with
  | nil => rfl
  | cons v h =>
    obtain ⟨m, hm, -⟩ := hs
    have hv := hv v List.mem_cons_self
    cases hm with
    | answered _ hr' | garbled _ hr' | lost _ hr' | displaced hr' => rw [hr] at hr'; cases hr'
    | _ => cases hv

end Reql.Cursor
