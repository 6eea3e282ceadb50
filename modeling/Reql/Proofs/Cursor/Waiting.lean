import Reql.Proofs.Cursor.Flow

/-! What a cursor holds when an answer is on its way to it, and when its owner is done. -/
namespace Reql

namespace Inbox

/-- Whether an answer that has been asked for is still to come. -/
def isWaiting (s : Inbox) : Bool :=
  s.isRunning && s.fetching

variable {s : Inbox}

theorem isWaiting_iff : s.isWaiting = true ↔
    s.closed = false ∧ s.serverDone = false ∧ s.fetching = true := by
  simp [isWaiting, isRunning, and_assoc]

theorem isWaiting_of_not_running (h : s.isRunning = false) : s.isWaiting = false := by
  rw [isWaiting, h, Bool.false_and]

theorem toNat_isWaiting_of_running (h : s.isRunning = true) :
    s.isWaiting.toNat = s.fetching.toNat := by
  rw [isWaiting, h, Bool.true_and]

end Inbox

namespace Cursor

/-- Nothing is handed out of the inbox while an answer is on its way, and nothing is left in it when
the owner is done. -/
structure Tidy (k : Cursor) : Prop where
  sound : k.Sound
  fetching : k.inbox.fetching = true → k.inbox.buffer = []
  closed : k.inbox.closed = true → k.inbox.buffer = []

variable {k l : Cursor} {h : List Event} {v : Event} {t : Token} {noreply : Bool}

theorem New.tidy (hk : k.New t noreply) : k.Tidy := by
  have hempty : k.inbox.buffer = [] := by
    rw [hk.inbox]
    cases noreply <;> rfl
  exact ⟨hk.sound, fun _ => hempty, fun _ => hempty⟩

theorem Tidy.of_empty (hs : l.Sound) (hb : l.inbox.buffer = []) : l.Tidy :=
  ⟨hs, fun _ => hb, fun _ => hb⟩

/-- A failure from outside ends the waiting. -/
theorem Tidy.fail (hk : k.Tidy) (hr : k.registered = true) (e : ClientError) :
    Tidy { k with registered := false, inbox := k.inbox.fail e } := by
  obtain ⟨hc, hd⟩ := Inbox.isRunning_iff.mp (hk.sound hr).1
  have hfail : k.inbox.fail e =
      { k.inbox with fetching := false, serverDone := true, error := some e } := by
    simp [Inbox.fail, hc, hd]
  rw [hfail]
  refine ⟨fun hr => ?_, fun hf => ?_, fun h => ?_⟩
  · cases hr
  · cases hf
  · rw [show k.inbox.closed = true from h] at hc
    cases hc

theorem Step.tidy (hs : Step k v l) (hk : k.Tidy) : l.Tidy := by
  have hsound := hs.sound hk.sound
  cases hs with
  | answered r hr =>
    have hopen := (Inbox.isRunning_iff.mp (hk.sound hr).1).1
    rw [hk.sound.deliver_eq hr] at hsound ⊢
    refine ⟨hsound, fun hf => ?_, fun hc => ?_⟩
    · cases hf
    · rw [show k.inbox.closed = true from hc] at hopen
      cases hopen
  | garbled e hr | lost e hr => exact hk.fail hr _
  | displaced | waited | closedAgain => exact ⟨hsound, hk.fetching, hk.closed⟩
  | yielded w s hs =>
    obtain ⟨rest, hb, rfl⟩ := Inbox.step_eq_value.mp hs
    have hfull : k.inbox.buffer ≠ [] := by
      rw [hb]
      exact List.cons_ne_nil _ _
    exact ⟨hsound, fun hf => absurd (hk.fetching hf) hfull,
      fun hc => absurd (hk.closed hc) hfull⟩
  | ended s hs =>
    obtain ⟨hb, -, -, rfl⟩ := Inbox.step_eq_ended.mp hs
    exact .of_empty hsound hb
  | failed e s hs =>
    obtain ⟨hb, -, rfl⟩ := Inbox.step_eq_failed.mp hs
    exact .of_empty hsound hb
  | fetched s hs =>
    obtain ⟨hb, -, -, -, -, rfl⟩ := Inbox.step_eq_fetch.mp hs
    exact .of_empty hsound hb
  | refused e s s' hs hl =>
    obtain ⟨hb, -, -, -, -, rfl⟩ := Inbox.step_eq_fetch.mp hs
    refine .of_empty hsound ?_
    rcases hl with rfl | rfl
    · exact hb
    · exact (fail_buffer _ _).trans hb
  | closed | dropped => exact .of_empty hsound rfl

theorem Steps.tidy (hs : Steps k h l) (hk : k.Tidy) : l.Tidy :=
  hs.invariant (P := fun _ l => l.Tidy) hk fun _ _ _ _ _ hm hn => hn.tidy hm

/-- A registered cursor for which an answer is on its way has its reader wait. -/
theorem Tidy.step_of_waiting (hk : k.Tidy) (hr : k.registered = true)
    (ha : k.inbox.isWaiting = true) : k.inbox.step = (.wait, k.inbox) := by
  obtain ⟨hc, hd, hf⟩ := Inbox.isWaiting_iff.mp ha
  exact Inbox.step_eq_wait.mpr ⟨hk.fetching hf, (hk.sound hr).2, hd, hc, hf, rfl⟩

theorem Tidy.prime_of_waiting (hk : k.Tidy) (hr : k.registered = true)
    (ha : k.inbox.isWaiting = true) : k.inbox.prime = (.wait, k.inbox) := by
  obtain ⟨hc, hd, hf⟩ := Inbox.isWaiting_iff.mp ha
  simp [Inbox.prime, hk.fetching hf, (hk.sound hr).2, hc, hd, hf]

/-- Without an answer on its way, waiting for the first one is over. -/
theorem prime_of_not_waiting {s : Inbox} (ha : s.isWaiting = false) : s.prime.1 ≠ .wait := by
  unfold Inbox.prime
  split
  · simp
  · next h =>
    split
    · simp
    · split
      · simp
      · next h' =>
        exfalso
        simp only [Bool.or_eq_true, Bool.not_eq_true', not_or, Bool.not_eq_true,
          Bool.not_eq_false] at h h'
        simp [Inbox.isWaiting, Inbox.isRunning, h.2, h'.1, h'.2] at ha

/-- An owner who closes a cursor is done with it. -/
theorem Step.inbox_closed (hs : Step k .closed l) : l.inbox.closed = true := by
  cases hs with
  | closed => rfl
  | closedAgain h => exact h

end Cursor
end Reql
