import Reql.Proofs.Cursor.Registration

/-! When a cursor asks for more. -/
namespace Reql

namespace Cursor

/-- Whether an event is an answer after which there may be more. -/
def Event.isBatch : Event → Bool
  | .answered r => r.body.isBatch
  | _ => false

/-- Whether an event is of no consequence for what may still be asked for: nothing final is
delivered, no error is handed out, and the cursor is not given up. -/
def Event.isPlain (v : Event) : Bool :=
  !v.isFinal && !v.isRelease &&
    match v.result? with
    | some (.error _) => false
    | _ => true

/-- Whether a batch has arrived since more was last asked for. -/
def due : List Event → Bool
  | [] => false
  | v :: h => due h || (v.isBatch && !h.contains .fetched)

/-- Whether the cursor would ask for more if it had nothing to hand out. -/
def ready (k : Cursor) : Bool :=
  k.inbox.isRunning && !k.inbox.fetching

variable {k l : Cursor} {h : List Event} {v : Event}

theorem due_iff : due h = true ↔ ∃ h₁ r h₂, h = h₁ ++ .answered r :: h₂ ∧
    r.body.isBatch = true ∧ .fetched ∉ h₂ := by
  induction h with
  | nil => simp [due]
  | cons v h ih =>
    rw [due, Bool.or_eq_true, ih, Bool.and_eq_true, Bool.not_eq_true',
      ← Bool.not_eq_true, List.contains_iff_mem]
    constructor
    · rintro (⟨h₁, r, h₂, rfl, hb, hf⟩ | ⟨hb, hf⟩)
      · exact ⟨v :: h₁, r, h₂, rfl, hb, hf⟩
      · cases v with
        | answered r => exact ⟨[], r, h, rfl, hb, hf⟩
        | _ => cases hb
    · rintro ⟨h₁, r, h₂, hh, hb, hf⟩
      cases h₁ with
      | nil =>
        obtain ⟨rfl, rfl⟩ := List.cons.inj hh
        exact Or.inr ⟨hb, hf⟩
      | cons w h₁ =>
        obtain ⟨rfl, rfl⟩ := List.cons.inj hh
        exact Or.inl ⟨h₁, r, h₂, rfl, hb, hf⟩

theorem due_concat (h : List Event) (v : Event) :
    due (h ++ [v]) = (v.isBatch || (due h && v != .fetched)) := by
  induction h with
  | nil => cases v <;> simp [due, Event.isBatch]
  | cons w h ih =>
    have hmem : (h ++ [v]).contains .fetched = (h.contains .fetched || v == .fetched) := by
      rw [Bool.eq_iff_iff]
      simp only [List.contains_iff_mem, List.mem_append, List.mem_singleton, Bool.or_eq_true,
        beq_iff_eq]
      exact or_congr_right eq_comm
    rw [List.cons_append, due, ih, hmem, due]
    cases v.isBatch <;> cases due h <;> cases w.isBatch <;> cases h.contains .fetched <;>
      cases hv : v == .fetched <;> simp_all [bne]

theorem due_concat_of_plain (hb : v.isBatch = false) (hf : v ≠ .fetched) :
    due (h ++ [v]) = due h := by
  rw [due_concat, hb, Bool.false_or, bne_iff_ne.mpr hf, Bool.and_true]

/-- What the history of a cursor says about its asking for more. -/
structure Flow (h : List Event) (k : Cursor) : Prop where
  sound : k.Sound
  plain : k.inbox.isRunning = true → ∀ v ∈ h, v.isPlain = true
  fetching : k.inbox.isRunning = true → k.inbox.fetching = !due h

theorem Flow.of_not_running (hs : k.Sound) (hr : k.inbox.isRunning = false) : Flow h k where
  sound := hs
  plain hrun := by rw [hr] at hrun; cases hrun
  fetching hrun := by rw [hr] at hrun; cases hrun

/-- An event that leaves what has been asked as it is. -/
theorem Flow.of_same (hk : Flow h k) (hs : l.Sound)
    (hrun : l.inbox.isRunning = k.inbox.isRunning) (hf : l.inbox.fetching = k.inbox.fetching)
    (hv : v.isPlain = true) (hb : v.isBatch = false) (hn : v ≠ .fetched) : Flow (h ++ [v]) l where
  sound := hs
  plain hr := by
    rw [List.forall_mem_append, List.forall_mem_singleton]
    exact ⟨hk.plain (hrun ▸ hr), hv⟩
  fetching hr := by
    rw [hf, hk.fetching (hrun ▸ hr), due_concat_of_plain hb hn]

theorem isRunning_fail (hk : k.Sound) (hr : k.registered = true) (e : ClientError) :
    (k.inbox.fail e).isRunning = false := by
  obtain ⟨hc, hd⟩ := Inbox.isRunning_iff.mp (hk hr).1
  simp [Inbox.fail, Inbox.isRunning, hc, hd]

theorem Flow.step (hk : Flow h k) (hs : Step k v l) : Flow (h ++ [v]) l := by
  have hsound := hs.sound hk.sound
  cases hs with
  | answered r hr =>
    by_cases hb : r.body.isBatch = true
    · have hrun := (hk.sound hr).1
      have hdel := hk.sound.deliver_eq hr r
      refine ⟨hsound, fun _ => ?_, fun _ => ?_⟩
      · rw [List.forall_mem_append, List.forall_mem_singleton]
        exact ⟨hk.plain hrun, by simp [Event.isPlain, Event.isFinal, Event.isRelease,
          Event.result?, hb]⟩
      · rw [due_concat, show (Event.answered r).isBatch = true from hb, hdel]
        rfl
    · refine .of_not_running hsound ?_
      rw [hk.sound.deliver_eq hr]
      simp [Inbox.isRunning, hb]
  | garbled e hr | lost e hr => exact .of_not_running hsound (isRunning_fail hk.sound hr _)
  | displaced => exact hk.of_same hsound rfl rfl rfl rfl (by decide)
  | yielded w s hs =>
    obtain ⟨rest, -, rfl⟩ := Inbox.step_eq_value.mp hs
    exact hk.of_same hsound rfl rfl rfl rfl (by simp)
  | ended s hs =>
    obtain ⟨-, -, -, rfl⟩ := Inbox.step_eq_ended.mp hs
    exact .of_not_running hsound rfl
  | failed e s hs =>
    obtain ⟨-, -, rfl⟩ := Inbox.step_eq_failed.mp hs
    exact .of_not_running hsound rfl
  | fetched s hs =>
    obtain ⟨-, -, hd, hc, -, rfl⟩ := Inbox.step_eq_fetch.mp hs
    refine ⟨hsound, fun hr => ?_, fun _ => ?_⟩
    · rw [List.forall_mem_append, List.forall_mem_singleton]
      exact ⟨hk.plain hr, rfl⟩
    · rw [due_concat]
      simp [Event.isBatch]
  | waited => exact hk.of_same hsound rfl rfl rfl rfl (by decide)
  | refused | closed | dropped => exact .of_not_running hsound rfl
  | closedAgain hc => exact .of_not_running hsound (by simp [Inbox.isRunning, hc])

theorem Flow.steps {h' : List Event} (hk : Flow h k) (hs : Steps k h' l) : Flow (h ++ h') l := by
  induction h' generalizing h k with
  | nil =>
    cases hs
    rwa [List.append_nil]
  | cons v h' ih =>
    obtain ⟨m, hm, hl⟩ := hs
    have htail := ih (hk.step hm) hl
    rwa [List.append_assoc] at htail

/-- More is asked for only when it is due. -/
theorem Flow.of_fetch {s : Inbox} (hk : Flow h k) (hs : k.inbox.step = (.fetch, s)) :
    k.inbox.buffer = [] ∧ due h = true ∧ ∀ v ∈ h, v.isPlain = true := by
  obtain ⟨hb, -, hd, hc, hf, -⟩ := Inbox.step_eq_fetch.mp hs
  have hrun := Inbox.isRunning_iff.mpr ⟨hc, hd⟩
  have hdue := hk.fetching hrun
  rw [hf] at hdue
  exact ⟨hb, by simpa using hdue.symm, hk.plain hrun⟩

/-- A reader waits only when nothing has arrived since more was asked for. -/
theorem Flow.of_wait {s : Inbox} (hk : Flow h k) (hs : k.inbox.step = (.wait, s)) :
    due h = false := by
  obtain ⟨-, -, hd, hc, hf, -⟩ := Inbox.step_eq_wait.mp hs
  have hdue := hk.fetching (Inbox.isRunning_iff.mpr ⟨hc, hd⟩)
  rw [hf] at hdue
  simpa using hdue.symm

theorem New.flow {t : Token} {noreply : Bool} (hk : k.New t noreply) :
    Flow [.asked noreply] k := by
  cases noreply with
  | true =>
    refine .of_not_running hk.sound ?_
    rw [hk.inbox]
    rfl
  | false =>
    refine ⟨hk.sound, fun _ => ?_, fun _ => ?_⟩
    · rw [List.forall_mem_singleton]
      rfl
    · rw [hk.inbox]
      rfl

theorem Step.ready (hs : Step k v l) (hk : k.Sound) (hl : l.ready = true) :
    k.ready = true ∨ v.isBatch = true := by
  unfold Cursor.ready at hl
  rw [Bool.and_eq_true] at hl
  obtain ⟨hrun, hfetch⟩ := hl
  cases hs with
  | answered r hr =>
    right
    rw [hk.deliver_eq hr] at hrun
    simpa [Inbox.isRunning, Event.isBatch, (Inbox.isRunning_iff.mp (hk hr).1).1] using hrun
  | garbled e hr | lost e hr =>
    change (k.inbox.fail _).isRunning = true at hrun
    rw [isRunning_fail hk hr] at hrun
    cases hrun
  | displaced | waited | closedAgain => exact Or.inl (by rw [Cursor.ready, hrun, hfetch]; rfl)
  | yielded w s hs =>
    obtain ⟨rest, -, rfl⟩ := Inbox.step_eq_value.mp hs
    exact Or.inl (by rw [Cursor.ready, Bool.and_eq_true]; exact ⟨hrun, hfetch⟩)
  | ended s hs =>
    obtain ⟨-, -, -, rfl⟩ := Inbox.step_eq_ended.mp hs
    cases hrun
  | failed e s hs =>
    obtain ⟨-, -, rfl⟩ := Inbox.step_eq_failed.mp hs
    cases hrun
  | fetched s hs =>
    obtain ⟨-, -, -, -, -, rfl⟩ := Inbox.step_eq_fetch.mp hs
    cases hfetch
  | refused | closed | dropped => cases hrun

/-- A cursor becomes ready to ask for more by a batch alone. -/
theorem Steps.ready (hs : Steps k h l) (hk : k.Sound) (hl : l.ready = true) :
    k.ready = true ∨ ∃ v ∈ h, v.isBatch = true := by
  induction h generalizing k with
  | nil =>
    cases hs
    exact Or.inl hl
  | cons v h ih =>
    obtain ⟨m, hm, hl'⟩ := hs
    rcases ih hl' (hm.sound hk) with hmr | ⟨w, hw, hb⟩
    · exact (hm.ready hk hmr).imp_right fun hb => ⟨v, List.mem_cons_self, hb⟩
    · exact Or.inr ⟨w, List.mem_cons_of_mem _ hw, hb⟩

/-- By asking for more it ceases to be ready. -/
theorem Step.ready_of_fetched (hs : Step k .fetched l) : k.ready = true ∧ l.ready = false := by
  cases hs with
  | fetched s hs =>
    obtain ⟨-, -, hd, hc, hf, rfl⟩ := Inbox.step_eq_fetch.mp hs
    exact ⟨by simp [Cursor.ready, Inbox.isRunning, hd, hc, hf],
      by simp [Cursor.ready]⟩

end Cursor
end Reql
