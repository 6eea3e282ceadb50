import Reql.Connection.Action

/-! Runs of a connection, and the calls on cursors as runs. -/
namespace Reql.Connection

@[simp] theorem run_nil (c : Connection) : c.run [] = c := rfl

@[simp] theorem run_cons (c : Connection) (a : Action) (as : List Action) :
    c.run (a :: as) = (c.after a).run as := rfl

@[simp] theorem run_append (c : Connection) (as bs : List Action) :
    c.run (as ++ bs) = (c.run as).run bs :=
  List.foldl_append

/-- What is kept by every action is kept by every run. -/
theorem run_induction {P : Connection → Prop} (hstep : ∀ c a, P c → P (c.after a)) {c : Connection}
    (hc : P c) (as : List Action) : P (c.run as) := by
  induction as generalizing c with
  | nil => exact hc
  | cons a as ih => exact ih (hstep c a hc)

/-- What does not hold at first and holds at the end has come to hold by one action. -/
theorem exists_turn {P : Connection → Prop} {c : Connection} (as : List Action) (h₀ : ¬P c)
    (h : P (c.run as)) :
    ∃ as₁ a as₂, as = as₁ ++ a :: as₂ ∧ ¬P (c.run as₁) ∧ P ((c.run as₁).after a) := by
  induction as generalizing c with
  | nil => exact absurd h h₀
  | cons a as ih =>
    by_cases ha : P (c.after a)
    · exact ⟨[], a, as, rfl, h₀, ha⟩
    · obtain ⟨as₁, b, as₂, rfl, hnot, hb⟩ := ih ha h
      exact ⟨a :: as₁, b, as₂, rfl, hnot, hb⟩

/-- What is kept by every action holds from the action on by which it has come to hold. -/
theorem run_take_iff {P : Connection → Prop} (hstep : ∀ c a, P c → P (c.after a))
    {c : Connection} {a : Action} {as as₁ as₂ : List Action} (has : as = as₁ ++ a :: as₂)
    (h₀ : ¬P (c.run as₁)) (h : P ((c.run as₁).after a)) (m : Nat) :
    P (c.run (as.take m)) ↔ as₁.length < m := by
  subst has
  constructor
  · intro hm
    refine Nat.lt_of_not_le fun hle => h₀ ?_
    rw [List.take_append_of_le_length hle] at hm
    rw [← List.take_append_drop m as₁, run_append]
    exact run_induction hstep hm _
  · intro hlt
    obtain ⟨l, rfl⟩ := Nat.exists_eq_add_of_lt hlt
    have htake : (as₁ ++ a :: as₂).take (as₁.length + l + 1) = as₁ ++ a :: as₂.take l := by
      rw [Nat.add_assoc, List.take_length_add_append, List.take_succ_cons]
    rw [htake, run_append, run_cons]
    exact run_induction hstep h _

/-- Bytes that arrive are a run of what the reader reports. -/
theorem read_eq_run (c : Connection) (next : FrameReader → List FrameEvent × FrameReader)
    (h : c.closed = false) :
    c.read next = { c with reader := (next c.reader).2 }.run ((next c.reader).1.map .report) := by
  simp only [read, h, Bool.false_eq_true, if_false, run, List.foldl_map]
  rfl

/-- The actions are all those of the owner of one cursor. -/
def Of (id : CursorId) (as : List Action) : Prop :=
  ∀ a ∈ as, a.cursor? = some id

theorem collectAll_eq_run (id : CursorId) (steps : Nat) (values : List Json) (c : Connection) :
    ∃ n, (collectAll id steps values c).2 = c.run (List.replicate n (.next id)) := by
  induction steps generalizing values c with
  | zero => exact ⟨0, rfl⟩
  | succ steps ih =>
    have hone : (c.next? id).2 = c.run (List.replicate 1 (.next id)) := rfl
    unfold collectAll
    split
    next h => exact ⟨1, by rw [← hone, h]⟩
    next h => exact ⟨1, by rw [← hone, h]⟩
    next h => exact ⟨1, by rw [← hone, h]⟩
    next v c' h =>
      obtain ⟨n, hn⟩ := ih (v :: values) c'
      have hc : c.after (.next id) = c' := by rw [after, act, h]
      exact ⟨n + 1, by rw [hn, List.replicate_succ, run_cons, hc]⟩

theorem exhaust_eq_run (id : CursorId) (steps : Nat) (c : Connection) :
    ∃ as, Of id as ∧ (exhaust id steps c).2 = c.run as := by
  induction steps generalizing c with
  | zero => exact ⟨[], by simp [Of], rfl⟩
  | succ steps ih =>
    have hnext : c.after (.next id) = (c.next? id).2 := rfl
    unfold exhaust
    split
    next h => exact ⟨[.next id], by simp [Of, Action.cursor?], by rw [run_cons, hnext, h]; rfl⟩
    next h =>
      exact ⟨[.next id, .dropCursor id], by simp [Of, Action.cursor?],
        by rw [run_cons, hnext, h]; rfl⟩
    next h =>
      exact ⟨[.next id, .dropCursor id], by simp [Of, Action.cursor?],
        by rw [run_cons, hnext, h]; rfl⟩
    next v c' h =>
      obtain ⟨as, has, hrun⟩ := ih c'
      refine ⟨.next id :: as, ?_, by rw [run_cons, hnext, h, hrun]⟩
      intro a ha
      rcases List.mem_cons.mp ha with rfl | ha
      · rfl
      · exact has a ha

/-- Going on with a call on a cursor is a run of actions of its owner. -/
theorem advance_eq_run (c : Connection) (id : CursorId) (call : Call) :
    ∃ as, Of id as ∧ (c.advance id call).2 = c.run as := by
  have hnext : c.after (.next id) = (c.next? id).2 := rfl
  have hprime : c.after (.prime id) = (c.prime? id).2 := rfl
  have hclose (c : Connection) : c.after (.closeCursor id) = (c.closeCursor id).2 := rfl
  cases call with
  | next =>
    refine ⟨[.next id], by simp [Of, Action.cursor?], ?_⟩
    rw [run_cons, hnext]
    simp only [advance]
    split
    all_goals next h => rw [h] <;> rfl
  | all values =>
    obtain ⟨n, hn⟩ := collectAll_eq_run id (c.buffered id + 1) values c
    refine ⟨_, ?_, hn⟩
    intro a ha
    rw [List.eq_of_mem_replicate ha]
    rfl
  | one =>
    simp only [advance]
    split
    next h => exact ⟨[.next id], by simp [Of, Action.cursor?], by rw [run_cons, hnext, h]; rfl⟩
    next h => exact ⟨[.next id], by simp [Of, Action.cursor?], by rw [run_cons, hnext, h]; rfl⟩
    next first c' h =>
      refine ⟨[.next id, .closeCursor id], by simp [Of, Action.cursor?], ?_⟩
      rw [run_cons, hnext, h, run_cons, hclose]
      split
      all_goals next h' => rw [h'] <;> rfl
  | stream =>
    simp only [advance]
    split
    next h => exact ⟨[.next id], by simp [Of, Action.cursor?], by rw [run_cons, hnext, h]; rfl⟩
    next h => exact ⟨[.next id], by simp [Of, Action.cursor?], by rw [run_cons, hnext, h]; rfl⟩
    next h =>
      exact ⟨[.next id, .dropCursor id], by simp [Of, Action.cursor?],
        by rw [run_cons, hnext, h]; rfl⟩
    next h => exact ⟨[.next id], by simp [Of, Action.cursor?], by rw [run_cons, hnext, h]; rfl⟩
  | run =>
    simp only [advance]
    split
    next h => exact ⟨[.prime id], by simp [Of, Action.cursor?], by rw [run_cons, hprime, h]; rfl⟩
    next h =>
      exact ⟨[.prime id, .dropCursor id], by simp [Of, Action.cursor?],
        by rw [run_cons, hprime, h]; rfl⟩
    next h => exact ⟨[.prime id], by simp [Of, Action.cursor?], by rw [run_cons, hprime, h]; rfl⟩
  | exec =>
    simp only [advance]
    split
    next h => exact ⟨[.prime id], by simp [Of, Action.cursor?], by rw [run_cons, hprime, h]; rfl⟩
    next h =>
      exact ⟨[.prime id, .dropCursor id], by simp [Of, Action.cursor?],
        by rw [run_cons, hprime, h]; rfl⟩
    next h =>
      refine ⟨[.prime id, .closeCursor id, .dropCursor id], by simp [Of, Action.cursor?], ?_⟩
      rw [run_cons, hprime, h, run_cons, hclose]
      split
      all_goals next h' => rw [h'] <;> rfl
  | barrier => exact exhaust_eq_run id _ c

end Reql.Connection
