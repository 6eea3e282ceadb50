import Mathlib.Algebra.Order.BigOperators.Group.List
import Mathlib.Algebra.Order.Ring.Nat
import Reql.Async.Basic

/-! Runs of a connection with its computations, and counts over what they have left to do. -/
namespace Reql.Async

namespace Turn

variable (t : Turn) (r : Connection.Reply)

@[simp] theorem answer_store : (t.answer r).store = t.store := rfl

@[simp] theorem answer_next : (t.answer r).next = t.next := rfl

@[simp] theorem answer_spawned : (t.answer r).spawned = t.spawned := rfl

end Turn

namespace Store

variable (s : Store) (id : CursorId) (w : FrameWriter) (next : List Point)
  (f : Cursor → Cursor) (g : Cursor → List Point)

@[simp] theorem setWriter_closed : (s.setWriter w).conn.closed = s.conn.closed := by
  unfold setWriter
  split <;> rfl

@[simp] theorem setWriter_writeClosed :
    (s.setWriter w).conn.writeClosed = s.conn.writeClosed := by
  unfold setWriter
  split <;> rfl

@[simp] theorem setWriter_cursors : (s.setWriter w).conn.cursors = s.conn.cursors := by
  unfold setWriter
  split <;> rfl

@[simp] theorem setWriter_tokens : (s.setWriter w).conn.tokens = s.conn.tokens := by
  unfold setWriter
  split <;> rfl

@[simp] theorem setWriter_writer : (s.setWriter w).conn.writer = w := by
  unfold setWriter
  split <;> rfl

@[simp] theorem pass_store : (s.pass next).store = s := rfl

@[simp] theorem pass_next : (s.pass next).next = next := rfl

@[simp] theorem pass_spawned : (s.pass next).spawned = [] := rfl

@[simp] theorem change_store (c : Connection) :
    (s.change c next).store = { s with conn := c } := rfl

@[simp] theorem change_next (c : Connection) : (s.change c next).next = next := rfl

@[simp] theorem change_spawned (c : Connection) : (s.change c next).spawned = [] := rfl

/-- A section on a cursor changes that cursor alone, if it is there. -/
theorem onCursor_cases : s.onCursor id f g = s.pass [] ∨
    ∃ k, s.conn.cursors[id]? = some k ∧ s.onCursor id f g =
      s.change { s.conn with cursors := s.conn.cursors.modify id f } (g k) := by
  unfold onCursor
  cases hk : s.conn.cursors[id]? with
  | none => exact .inl rfl
  | some k => exact .inr ⟨k, rfl, rfl⟩

/-- What such a section leaves as it is. -/
theorem onCursor_kept (P : Store → Prop) (hs : P s)
    (hcursors : ∀ cursors, P { s with conn := { s.conn with cursors } }) :
    P (s.onCursor id f g).store := by
  rcases s.onCursor_cases id f g with h | ⟨k, -, h⟩
  · rw [h]
    exact hs
  · rw [h]
    exact hcursors _

@[simp] theorem onCursor_closed :
    (s.onCursor id f g).store.conn.closed = s.conn.closed :=
  s.onCursor_kept id f g (fun s' => s'.conn.closed = s.conn.closed) rfl fun _ => rfl

@[simp] theorem onCursor_writeClosed :
    (s.onCursor id f g).store.conn.writeClosed = s.conn.writeClosed :=
  s.onCursor_kept id f g (fun s' => s'.conn.writeClosed = s.conn.writeClosed) rfl fun _ => rfl

@[simp] theorem onCursor_writer :
    (s.onCursor id f g).store.conn.writer = s.conn.writer :=
  s.onCursor_kept id f g (fun s' => s'.conn.writer = s.conn.writer) rfl fun _ => rfl

@[simp] theorem onCursor_written :
    (s.onCursor id f g).store.conn.written = s.conn.written :=
  s.onCursor_kept id f g (fun s' => s'.conn.written = s.conn.written) rfl fun _ => rfl

@[simp] theorem onCursor_tokens :
    (s.onCursor id f g).store.conn.tokens = s.conn.tokens :=
  s.onCursor_kept id f g (fun s' => s'.conn.tokens = s.conn.tokens) rfl fun _ => rfl

@[simp] theorem onCursor_accepted : (s.onCursor id f g).store.accepted = s.accepted :=
  s.onCursor_kept id f g (fun s' => s'.accepted = s.accepted) rfl fun _ => rfl

@[simp] theorem onCursor_spawned : (s.onCursor id f g).spawned = [] := by
  rcases s.onCursor_cases id f g with h | ⟨k, -, h⟩ <;> rw [h] <;> rfl

end Store

namespace State

variable {s : State} {a : Action} {as bs : List Action} {j : TaskId} {τ : Task} {p : Point}
  {rest : List Point} {t : Turn}

@[simp] theorem run_nil (s : State) : s.run [] = s := rfl

@[simp] theorem run_cons (s : State) (a : Action) (as : List Action) :
    s.run (a :: as) = (s.after a).run as := rfl

@[simp] theorem run_append (s : State) (as bs : List Action) :
    s.run (as ++ bs) = (s.run as).run bs :=
  List.foldl_append

theorem cursor_start (settings : Settings) (i : CursorId) :
    (start settings).conn.cursors[i]? = none := rfl

/-- What is kept by every action is kept by every run. -/
theorem run_induction {P : State → Prop} (hstep : ∀ s a, P s → P (s.after a)) {s : State}
    (hs : P s) (as : List Action) : P (s.run as) := by
  induction as generalizing s with
  | nil => exact hs
  | cons a as ih => exact ih (hstep s a hs)

/-- What every action of a run keeps in its turn. -/
theorem run_invariant {P : State → Prop} (hs : P s)
    (hstep : ∀ bs a cs, as = bs ++ a :: cs → P (s.run bs) → P ((s.run bs).after a)) :
    P (s.run as) := by
  induction as generalizing s with
  | nil => exact hs
  | cons a as ih =>
    refine ih (hstep [] a as rfl hs) fun bs b cs has hP => ?_
    exact hstep (a :: bs) b cs (by rw [has]; rfl) hP

/-- No action of a run has a property where it happens. -/
def Never (P : State → Action → Prop) : State → List Action → Prop
  | _, [] => True
  | s, a :: as => ¬P s a ∧ Never P (s.after a) as

theorem never_iff {P : State → Action → Prop} :
    Never P s as ↔ ∀ bs a cs, as = bs ++ a :: cs → ¬P (s.run bs) a := by
  induction as generalizing s with
  | nil => exact ⟨fun _ bs a cs has => by simp at has, fun _ => trivial⟩
  | cons b as ih =>
    rw [Never, ih]
    constructor
    · rintro ⟨hb, has⟩ bs a cs h
      cases bs with
      | nil =>
        obtain ⟨rfl, -⟩ := List.cons_eq_cons.mp h
        exact hb
      | cons b' bs =>
        obtain ⟨rfl, rfl⟩ := List.cons_eq_cons.mp h
        exact has bs a cs rfl
    · intro h
      exact ⟨h [] b as rfl, fun bs a cs has => h (b :: bs) a cs (by rw [has]; rfl)⟩

theorem not_never_iff {P : State → Action → Prop} :
    ¬Never P s as ↔ ∃ bs a cs, as = bs ++ a :: cs ∧ P (s.run bs) a := by
  simp [never_iff]

/-- Without a computation given up, nothing is lost by that. -/
theorem never_of_kept {P : State → Action → Prop} (hP : ∀ s a, P s a → ∃ j, a = .abandon j)
    (h : as.all fun a => match a with | .abandon _ => false | _ => true) : s.Never P as := by
  refine never_iff.mpr fun bs a cs has ha => ?_
  obtain ⟨j, rfl⟩ := hP _ _ ha
  cases List.all_eq_true.mp h (.abandon j) (has ▸ List.mem_append_right _ List.mem_cons_self)

def decidableNever {P : State → Action → Prop} [∀ s a, Decidable (P s a)] :
    ∀ (s : State) (as : List Action), Decidable (Never P s as)
  | _, [] => .isTrue trivial
  | s, a :: as =>
    have : Decidable (Never P (s.after a) as) := decidableNever (s.after a) as
    inferInstanceAs (Decidable (¬P s a ∧ Never P (s.after a) as))

instance {P : State → Action → Prop} [∀ s a, Decidable (P s a)] (s : State) (as : List Action) :
    Decidable (Never P s as) :=
  decidableNever s as

theorem next?_eq_some : s.next? j = some (τ, p, rest) ↔
    s.tasks[j]? = some τ ∧ τ.todo = p :: rest ∧
      (p.awaitsWriter = true → s.holder = none) := by
  unfold next?
  constructor
  · intro h
    split at h
    · cases h
    next τ' hτ =>
      split at h
      · cases h
      next p' rest' htodo =>
        split at h
        · cases h
        next hwait =>
          cases h
          refine ⟨hτ, htodo, fun hp => ?_⟩
          simpa [hp] using hwait
  · rintro ⟨hτ, htodo, hfree⟩
    have hgo : ¬(p.awaitsWriter && s.holder.isSome) = true := by
      rw [Bool.and_eq_true]
      rintro ⟨hp, hheld⟩
      rw [hfree hp] at hheld
      cases hheld
    simp only [hτ, htodo, if_neg hgo]

/-- A call begins a computation, if it can be made; the rest concerns the stream or its owner. -/
theorem begin_cases (s : State) (runtime : Bool) (call : Connection.Action) :
    s.begin runtime call = s ∨
    (s.admits call = true ∧
      s.begin runtime call = s.launch ⟨call.cursor?, runtime, opening call, none⟩) ∨
    (∃ c : Connection, c = { s.conn with held := false } ∧ call = .drop ∧
      s.begin runtime call = s.setConn c) ∨
    (∃ reason, call = .breakWriting reason ∧
      s.begin runtime call = s.setConn (s.conn.breakWriting reason)) ∨
    ∃ event, call = .report event ∧
      s.begin runtime call = { s with handler := s.handler ++ [incoming event] } := by
  have hcall (h : s.begin runtime call =
      if s.admits call then s.launch ⟨call.cursor?, runtime, opening call, none⟩ else s) :
      s.begin runtime call = s ∨ (s.admits call = true ∧
        s.begin runtime call = s.launch ⟨call.cursor?, runtime, opening call, none⟩) := by
    rw [h]
    split
    next hadmits => exact .inr ⟨hadmits, rfl⟩
    next => exact .inl rfl
  cases call with
  | drop => exact .inr (.inr (.inl ⟨_, rfl, rfl, rfl⟩))
  | breakWriting reason => exact .inr (.inr (.inr (.inl ⟨reason, rfl, rfl⟩)))
  | report event => exact .inr (.inr (.inr (.inr ⟨event, rfl, rfl⟩)))
  | _ => exact (hcall rfl).imp_right .inl

/-- A computation that goes on carries one section out. -/
theorem step_cases (s : State) (j : TaskId) (pick : Nat) : s.step j pick = s ∨
    ∃ τ p rest, s.next? j = some (τ, p, rest) ∧
      s.step j pick = s.advance j τ rest (p.exec τ.runtime pick s.store) := by
  unfold step
  cases h : s.next? j with
  | none => exact .inl rfl
  | some x =>
    obtain ⟨τ, p, rest⟩ := x
    exact .inr ⟨τ, p, rest, rfl, rfl⟩

theorem step_of_next? (h : s.next? j = some (τ, p, rest)) (pick : Nat) :
    s.step j pick = s.advance j τ rest (p.exec τ.runtime pick s.store) := by
  unfold step
  rw [h]

/-- The handler carries one section out. -/
theorem handle_cases (s : State) (pick : Nat) : s.handle pick = s ∨
    ∃ p rest t, s.handler = p :: rest ∧ t = p.exec true pick s.store ∧
      s.handle pick = { s with store := t.store, handler := t.next ++ rest } := by
  unfold handle
  cases h : s.handler with
  | nil => exact .inl rfl
  | cons p rest => exact .inr ⟨p, rest, _, rfl, rfl, rfl⟩

theorem handle_of_handler (h : s.handler = p :: rest) (pick : Nat) :
    s.handle pick = { s with
      store := (p.exec true pick s.store).store
      handler := (p.exec true pick s.store).next ++ rest } := by
  unfold handle
  rw [h]

/-! ### Counts over what is left to do -/

/-- The weight of what all computations have left to do. It may depend on whether a runtime is at
hand. -/
def total (w : Bool → Point → Nat) (s : State) : Nat :=
  (s.tasks.map fun τ => (τ.todo.map (w τ.runtime)).sum).sum

variable (w : Bool → Point → Nat)

theorem sum_set {l : List Task} (hτ : l[j]? = some τ) (τ' : Task) (f : Task → Nat) :
    ((l.set j τ').map f).sum + f τ = (l.map f).sum + f τ' := by
  induction l generalizing j with
  | nil => cases hτ
  | cons x l ih =>
    cases j with
    | zero =>
      obtain rfl := Option.some.inj hτ
      simp only [List.set_cons_zero, List.map_cons, List.sum_cons]
      omega
    | succ j =>
      have h := ih (by simpa using hτ)
      simp only [List.set_cons_succ, List.map_cons, List.sum_cons]
      omega

/-- A section gives way to those that come next and to the computation that it starts. -/
theorem total_advance (h : s.next? j = some (τ, p, rest)) :
    (s.advance j τ rest t).total w + w τ.runtime p =
      s.total w + (t.next.map (w τ.runtime)).sum + (t.spawned.map (w true)).sum := by
  obtain ⟨hτ, htodo, -⟩ := next?_eq_some.mp h
  have hset := sum_set hτ { τ with
    todo := t.next ++ rest, reply := t.reply.or τ.reply } fun τ =>
      (τ.todo.map (w τ.runtime)).sum
  simp only [htodo, List.map_cons, List.sum_cons, List.map_append, List.sum_append] at hset
  have hspawned : (((if t.spawned.isEmpty then [] else [⟨none, true, t.spawned, none⟩]) :
      List Task).map fun τ => (τ.todo.map (w τ.runtime)).sum).sum =
        (t.spawned.map (w true)).sum := by
    cases t.spawned <;> simp
  simp only [total, advance, List.map_append, List.sum_append, hspawned]
  omega

theorem total_launch (τ : Task) :
    (s.launch τ).total w = s.total w + (τ.todo.map (w τ.runtime)).sum := by
  simp [total, launch]

theorem total_abandon_le (s : State) (j : TaskId) : (s.abandon j).total w ≤ s.total w := by
  unfold abandon
  cases hτ : s.tasks[j]? with
  | none => exact Nat.le_refl _
  | some τ =>
    dsimp only
    split
    · have hset := sum_set hτ { τ with todo := [] } fun τ => (τ.todo.map (w τ.runtime)).sum
      simp only [List.map_nil, List.sum_nil] at hset
      simp only [total]
      omega
    · exact Nat.le_refl _

variable {w}

/-- What waits and has no weight can be given up. -/
theorem total_abandon (h : ∀ τ, s.tasks[j]? = some τ →
    τ.todo.head?.any Point.isSuspended = true → ∀ p ∈ τ.todo, w τ.runtime p = 0) :
    (s.abandon j).total w = s.total w := by
  unfold abandon
  cases hτ : s.tasks[j]? with
  | none => rfl
  | some τ =>
    dsimp only
    split
    next hwaits =>
      have hzero : (τ.todo.map (w τ.runtime)).sum = 0 :=
        List.sum_eq_zero fun n hn => by
          obtain ⟨p, hp, rfl⟩ := List.mem_map.mp hn
          exact h τ hτ hwaits p hp
      have hset := sum_set hτ { τ with todo := [] } fun τ => (τ.todo.map (w τ.runtime)).sum
      simp only [List.map_nil, List.sum_nil] at hset
      simp only [total]
      omega
    next => rfl

theorem total_pos (h : 0 < s.total w) :
    ∃ τ ∈ s.tasks, ∃ p ∈ τ.todo, 0 < w τ.runtime p := by
  by_contra hnone
  refine absurd h (Nat.not_lt.mpr (Nat.le_of_eq ?_))
  refine List.sum_eq_zero fun m hm => ?_
  obtain ⟨τ, hτ, rfl⟩ := List.mem_map.mp hm
  refine List.sum_eq_zero fun m hm => ?_
  obtain ⟨p, hp, rfl⟩ := List.mem_map.mp hm
  exact Nat.eq_zero_of_not_pos fun hpos => hnone ⟨τ, hτ, p, hp, hpos⟩

theorem le_total (hτ : τ ∈ s.tasks) (hp : p ∈ τ.todo) :
    w τ.runtime p ≤ s.total w :=
  Nat.le_trans (List.le_sum_of_mem (List.mem_map_of_mem hp))
    (List.le_sum_of_mem (List.mem_map_of_mem (f := fun τ : Task =>
      (τ.todo.map (w τ.runtime)).sum) hτ))

end State
end Reql.Async
