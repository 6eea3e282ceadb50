import Reql.Proofs.Async.Run
import Reql.Proofs.Connection.Writing

/-! What computations have left to do, in every state that a run can reach. -/
namespace Reql.Async

namespace Point

variable {runtime : Bool} {pick : Nat} {s : Store} {p : Point} {id : CursorId} {k : Cursor}

/-- A closed connection stays closed. -/
theorem exec_closed (h : s.conn.closed = true) :
    (p.exec runtime pick s).store.conn.closed = true := by
  cases p <;> simp only [exec] <;> (repeat' split) <;>
    simp [h, Store.accept, Store.onInbox, Connection.register, Connection.addCursor,
      Connection.deregister, Connection.modifyInbox]

theorem open_of_exec (h : (p.exec runtime pick s).store.conn.closed = false) :
    s.conn.closed = false := by
  cases hc : s.conn.closed with
  | false => rfl
  | true => cases (exec_closed hc).symm.trans h

/-- The limit for frames never changes. -/
theorem exec_limit :
    (p.exec runtime pick s).store.conn.writer.limit = s.conn.writer.limit := by
  cases p with
  | feed m q =>
    simp only [exec]
    have hlimit := s.conn.writer.makeRoom_limit
    repeat' split
    all_goals simp_all [Store.accept]
  | flush m q =>
    simp only [exec]
    have hlimit := s.conn.writer.flush_limit
    split <;> simp_all
  | endWriting => simp [exec]
  | _ =>
    simp only [exec]
    repeat' split
    all_goals first | rfl | simp [Store.onInbox]

theorem onCursor_next {P : List Point → Prop} (f : Cursor → Cursor) {g : Cursor → List Point}
    (hnil : P []) (hg : ∀ k, P (g k)) : P (s.onCursor id f g).next := by
  rcases s.onCursor_cases id f g with h | ⟨k, -, h⟩ <;> rw [h]
  · exact hnil
  · exact hg k

theorem onCursor_each {P : Point → Prop} {f : Cursor → Cursor} {g : Cursor → List Point}
    (hg : ∀ k, ∀ q ∈ g k, P q) :
    ∀ q ∈ (s.onCursor id f g).next ++ (s.onCursor id f g).spawned, P q := by
  rw [Store.onCursor_spawned, List.append_nil]
  exact onCursor_next (P := fun ps => ∀ q ∈ ps, P q) f (by simp) hg

theorem afterRead_cases (id : CursorId) (k : Cursor) : (∃ r, afterRead id k = [reply r]) ∨
    (∃ r, afterRead id k = finish k ++ [reply r]) ∨
    afterRead id k = [check k.token (.fetch id)] := by
  unfold afterRead
  split
  · exact .inl ⟨_, rfl⟩
  · exact .inr (.inl ⟨_, rfl⟩)
  · exact .inr (.inl ⟨_, rfl⟩)
  · exact .inl ⟨_, rfl⟩
  · exact .inr (.inr rfl)

theorem afterPrime_cases (k : Cursor) : (∃ r, afterPrime k = [reply r]) ∨
    ∃ r, afterPrime k = finish k ++ [reply r] := by
  unfold afterPrime
  split
  · exact .inl ⟨_, rfl⟩
  · exact .inr ⟨_, rfl⟩
  · exact .inl ⟨_, rfl⟩

/-! ### What comes before the connection is closed -/

def closes : Point → Bool
  | shutDown .. => true
  | _ => false

/-- A section that meets an error of the stream is about to close the connection. -/
theorem closes_afterFault {e : FramingError} {reason : String} (he : e = .io reason) (p : Purpose) :
    ∃ q ∈ afterFault e p, q.closes = true := by
  subst he
  exact ⟨_, List.mem_cons_self, rfl⟩

/-- Whether the section neither waits nor leads to one that does, while the connection is open. -/
def isQuick : Point → Bool
  | deregister _ | shutDown .. | drain _ | fail .. | spawnStop _ | spawnHangUp => true
  | _ => false

theorem not_suspended_of_quick (h : p.isQuick = true) : p.isSuspended = false := by
  cases p <;> first | rfl | cases h

theorem quick_of_closes (h : p.closes = true) : p.isQuick = true := by
  cases p <;> first | rfl | cases h

/-- What is about to close the connection does so. -/
theorem closed_of_closes (h : p.closes = true) :
    (p.exec runtime pick s).store.conn.closed = true := by
  cases p with
  | shutDown cause closing =>
    simp only [exec]
    split
    next hc => exact hc
    · rfl
  | _ => cases h

/-- Where the connection is still to be closed, nothing that could wait comes before. -/
def Prompt (ps : List Point) : Prop :=
  ps.Pairwise fun p q => q.closes = true → p.isQuick = true

theorem prompt_finish (k : Cursor) (r : Connection.Reply) : Prompt (finish k ++ [reply r]) := by
  unfold finish Prompt
  cases k.exclusive <;> simp [closes, isQuick]

theorem prompt_afterRead (k : Cursor) : Prompt (afterRead id k) := by
  rcases afterRead_cases id k with ⟨r, h⟩ | ⟨r, h⟩ | h <;> rw [h]
  · exact List.pairwise_singleton _ _
  · exact prompt_finish k r
  · exact List.pairwise_singleton _ _

theorem prompt_afterPrime (k : Cursor) : Prompt (afterPrime k) := by
  rcases afterPrime_cases k with ⟨r, h⟩ | ⟨r, h⟩ <;> rw [h]
  · exact List.pairwise_singleton _ _
  · exact prompt_finish k r

theorem prompt_afterClose (k : Cursor) : Prompt (afterClose k) := by
  unfold afterClose Prompt
  cases k.inbox.closed <;> cases k.exclusive <;> cases k.inbox.serverDone <;>
    simp [closes, isQuick]

theorem prompt_afterLeave (k : Cursor) : Prompt (afterLeave id k) := by
  unfold afterLeave Prompt
  cases k.inbox.isRunning <;> cases k.exclusive <;> simp [closes, isQuick]

theorem prompt_next : Prompt (p.exec runtime pick s).next := by
  cases p with
  | read => exact onCursor_next _ .nil prompt_afterRead
  | prime => exact onCursor_next _ .nil prompt_afterPrime
  | close => exact onCursor_next _ .nil prompt_afterClose
  | leave => exact onCursor_next _ .nil prompt_afterLeave
  | letGo => exact onCursor_next _ .nil fun _ => List.pairwise_singleton _ _
  | deliver | reject => exact onCursor_next _ .nil fun _ => .nil
  | wrote error p =>
    cases p <;> cases error
    case query.none => exact onCursor_next _ .nil fun _ => .nil
    case fetch.some e => exact onCursor_next _ .nil fun k => prompt_finish k _
    all_goals simp [exec, Prompt, closes]
  | _ =>
    simp only [exec, afterFault]
    repeat' split
    all_goals simp [Prompt, closes, isQuick]

/-- A quick section of an open connection leads to such sections alone. -/
theorem quick_next (hp : p.isQuick = true)
    (ho : (p.exec runtime pick s).store.conn.closed = false) :
    ∀ q ∈ (p.exec runtime pick s).next, q.isQuick = true := by
  cases p with
  | shutDown cause closing =>
    simp only [exec] at ho
    split at ho
    next hc => rw [Store.pass_store, hc] at ho; cases ho
    · cases ho
  | fail cause ids =>
    simp only [exec]
    split <;> simp [isQuick]
  | deregister | drain | spawnStop | spawnHangUp => simp [exec, isQuick]
  | _ => cases hp

/-- The order is kept as long as the connection is open. -/
theorem prompt_exec {rest : List Point} (h : Prompt (p :: rest))
    (ho : (p.exec runtime pick s).store.conn.closed = false) :
    Prompt ((p.exec runtime pick s).next ++ rest) := by
  obtain ⟨hp, hrest⟩ := List.pairwise_cons.mp h
  refine List.pairwise_append.mpr ⟨prompt_next, hrest, fun q hq r hr hcloses => ?_⟩
  exact quick_next (hp r hr hcloses) ho q hq

theorem prompt_spawned : Prompt (p.exec runtime pick s).spawned := by
  cases p <;> simp only [exec] <;> (repeat' split) <;> simp [Prompt, closes, Store.onInbox]

/-! ### What the handler of reports does -/

/-- Whether the section gives up the table of a connection that has just been closed. -/
def isDraining : Point → Bool
  | drain _ | fail .. => true
  | _ => false

/-- Whether the section is one of those by which a report is handled. -/
def isIncoming : Point → Bool
  | route _ | deliver .. | reject .. | deregister _ | drain _ | fail .. => true
  | shutDown _ closing => closing = .leave
  | _ => false

theorem incoming_next (hp : p.isIncoming = true) :
    ∀ q ∈ (p.exec runtime pick s).next, q.isIncoming = true := by
  cases p with
  | deliver | reject =>
    exact onCursor_next (P := fun ps => ∀ q ∈ ps, q.isIncoming = true) _ (by simp) fun _ => by simp
  | shutDown cause closing =>
    have hleave : closing = .leave := by simpa [isIncoming] using hp
    simp only [exec, hleave]
    split <;> simp [isIncoming]
  | route f =>
    simp only [exec]
    repeat' split
    all_goals simp [isIncoming]
  | fail cause ids =>
    simp only [exec]
    split <;> simp [isIncoming]
  | deregister | drain => simp [exec, isIncoming]
  | _ => cases hp

/-- What comes in does not concern the writer. -/
structure SparesWriter (s s' : Store) : Prop where
  accepted : s'.accepted = s.accepted
  written : s'.conn.written = s.conn.written
  writer : s'.conn.writer = s.conn.writer
  writeClosed : s'.conn.writeClosed = s.conn.writeClosed

theorem incoming_sparesWriter (runtime : Bool) (pick : Nat) (s : Store) (h : p.isIncoming = true) :
    SparesWriter s (p.exec runtime pick s).store := by
  cases p with
  | deliver | reject =>
    exact ⟨s.onCursor_accepted _ _ _, s.onCursor_written _ _ _, s.onCursor_writer _ _ _,
      s.onCursor_writeClosed _ _ _⟩
  | shutDown | route | fail =>
    simp only [exec]
    repeat' split
    all_goals exact ⟨rfl, rfl, rfl, rfl⟩
  | deregister | drain => exact ⟨rfl, rfl, rfl, rfl⟩
  | _ => cases h

end Point

namespace State

variable {s : State} {a : Action} {j : TaskId} {τ : Task} {p : Point} {rest : List Point}

theorem mem_advance_tasks {t : Turn} {σ : Task}
    (hσ : σ ∈ (s.advance j τ rest t).tasks) :
    σ ∈ s.tasks ∨ σ = { τ with
      todo := t.next ++ rest, reply := t.reply.or τ.reply } ∨
      σ = ⟨none, true, t.spawned, none⟩ := by
  rcases List.mem_append.mp hσ with hset | hnew
  · rcases List.mem_or_eq_of_mem_set hset with hmem | rfl
    · exact .inl hmem
    · exact .inr (.inl rfl)
  · split at hnew
    · cases hnew
    · exact .inr (.inr (List.mem_singleton.mp hnew))

/-- The computation that goes on is the only one that changes. -/
theorem mem_advance_of_mem {t : Turn} {σ : Task} (h : s.next? j = some (τ, p, rest))
    (hσ : σ ∈ s.tasks) : σ ∈ (s.advance j τ rest t).tasks ∨ σ = τ ∧ { τ with
      todo := t.next ++ rest, reply := t.reply.or τ.reply } ∈
        (s.advance j τ rest t).tasks := by
  obtain ⟨hτ, -, -⟩ := next?_eq_some.mp h
  obtain ⟨hj, hget⟩ := List.getElem?_eq_some_iff.mp hτ
  obtain ⟨l, hl, rfl⟩ := List.mem_iff_getElem.mp hσ
  by_cases hlj : j = l
  · subst hlj
    exact .inr ⟨hget, List.mem_append_left _ (List.mem_set hj _)⟩
  · refine .inl (List.mem_append_left _ (List.mem_iff_getElem.mpr ⟨l, by simpa using hl, ?_⟩))
    rw [List.getElem_set_ne hlj]

theorem mem_of_next? (h : s.next? j = some (τ, p, rest)) : τ ∈ s.tasks ∧ τ.todo = p :: rest := by
  obtain ⟨hτ, htodo, -⟩ := next?_eq_some.mp h
  exact ⟨List.mem_of_getElem? hτ, htodo⟩

theorem mem_abandon_tasks {σ : Task} (hσ : σ ∈ (s.abandon j).tasks) :
    σ ∈ s.tasks ∨ ∃ τ ∈ s.tasks, σ = { τ with todo := [] } := by
  unfold abandon at hσ
  split at hσ
  · exact .inl hσ
  next τ hτ =>
    split at hσ
    · exact (List.mem_or_eq_of_mem_set hσ).imp_right fun hσ =>
        ⟨τ, List.mem_of_getElem? hτ, hσ⟩
    · exact .inl hσ

/-- The computation that is given up, if any, waits. -/
theorem mem_abandon_of_mem (j : TaskId) {σ : Task} (hσ : σ ∈ s.tasks) :
    σ ∈ (s.abandon j).tasks ∨ ∃ p rest, σ.todo = p :: rest ∧ p.isSuspended = true := by
  unfold abandon
  split
  · exact .inl hσ
  next τ hτ =>
    split
    next hwaits =>
      obtain ⟨l, hl, rfl⟩ := List.mem_iff_getElem.mp hσ
      by_cases hlj : j = l
      · subst hlj
        obtain rfl := Option.some.inj ((List.getElem?_eq_getElem hl).symm.trans hτ)
        right
        cases htodo : s.tasks[j].todo with
        | nil => rw [htodo] at hwaits; cases hwaits
        | cons p rest => exact ⟨p, rest, rfl, by simpa [htodo] using hwaits⟩
      · refine .inl (List.mem_iff_getElem.mpr ⟨l, by simpa using hl, ?_⟩)
        rw [List.getElem_set_ne hlj]
    · exact .inl hσ

theorem begin_handler (runtime : Bool) (call : Connection.Action) :
    (s.begin runtime call).handler = s.handler ∨ ∃ event, call = .report event ∧
      (s.begin runtime call).handler = s.handler ++ [incoming event] := by
  rcases s.begin_cases runtime call with h | ⟨-, h⟩ | ⟨c, rfl, -, h⟩ | ⟨reason, -, h⟩ |
    ⟨event, hcall, h⟩
  case inr.inr.inr.inr => exact .inr ⟨event, hcall, by rw [h]⟩
  all_goals
    rw [h]
    exact .inl rfl

/-- A call leaves the connection as it is until it goes on; but its owner may drop it, and the
stream may fail. -/
theorem begin_kept (P : Store → Prop) {runtime : Bool} {call : Connection.Action} (hs : P s.store)
    (hdrop : P { s.store with conn := { s.conn with held := false } })
    (hbreak : ∀ reason, P { s.store with conn := s.conn.breakWriting reason }) :
    P (s.begin runtime call).store := by
  rcases s.begin_cases runtime call with h | ⟨-, h⟩ | ⟨c, rfl, -, h⟩ | ⟨reason, -, h⟩ |
    ⟨event, -, h⟩ <;> rw [h]
  case inr.inr.inl => exact hdrop
  case inr.inr.inr.inl => exact hbreak reason
  all_goals exact hs

theorem begin_closed (runtime : Bool) (call : Connection.Action) :
    (s.begin runtime call).conn.closed = s.conn.closed :=
  begin_kept (fun s' => s'.conn.closed = s.conn.closed) rfl rfl fun _ => rfl

theorem abandon_store (s : State) (j : TaskId) : (s.abandon j).store = s.store := by
  unfold abandon
  split
  · rfl
  · split <;> rfl

theorem abandon_handler (s : State) (j : TaskId) : (s.abandon j).handler = s.handler := by
  unfold abandon
  split
  · rfl
  · split <;> rfl

theorem collect_cases (s : State) : s.collect = s ∨
    s.collect = s.setConn { s.conn with writer := { s.conn.writer with
      link := { s.conn.writer.link with ended := true } } } := by
  unfold collect Connection.collect
  split
  · split
    · exact .inl rfl
    · exact .inr rfl
  · exact .inl rfl

theorem collect_closed (s : State) : s.collect.conn.closed = s.conn.closed := by
  rcases s.collect_cases with h | h
  · rw [h]
  · rw [h]
    rfl

theorem collect_tasks (s : State) : s.collect.tasks = s.tasks := by
  rcases s.collect_cases with h | h
  · rw [h]
  · rw [h]
    rfl

theorem collect_handler (s : State) : s.collect.handler = s.handler := by
  rcases s.collect_cases with h | h
  · rw [h]
  · rw [h]
    rfl

/-- Where a computation comes from: it has been there, it has been called, it has gone on by a
section or has been started by one, or it has been given up. -/
theorem mem_after_tasks {σ : Task} (hσ : σ ∈ (s.after a).tasks) : σ ∈ s.tasks ∨
    (∃ call runtime, a = .begin call runtime ∧ s.admits call = true ∧
      σ = ⟨call.cursor?, runtime, opening call, none⟩) ∨
    (∃ j pick τ p rest, a = .step j pick ∧ s.next? j = some (τ, p, rest) ∧
      (σ = { τ with
          todo := (p.exec τ.runtime pick s.store).next ++ rest
          reply := (p.exec τ.runtime pick s.store).reply.or τ.reply } ∨
        σ = ⟨none, true, (p.exec τ.runtime pick s.store).spawned, none⟩)) ∨
    ∃ τ ∈ s.tasks, σ = { τ with todo := [] } := by
  cases a with
  | begin call runtime =>
    rcases s.begin_cases runtime call with h | ⟨hadmits, h⟩ | ⟨c, rfl, -, h⟩ | ⟨reason, -, h⟩ |
      ⟨event, -, h⟩ <;> rw [after, h] at hσ
    case inr.inl =>
      rcases List.mem_append.mp hσ with hσ | hσ
      · exact .inl hσ
      · exact .inr (.inl ⟨call, runtime, rfl, hadmits, List.mem_singleton.mp hσ⟩)
    all_goals exact .inl hσ
  | step j pick =>
    rcases s.step_cases j pick with h | ⟨τ, p, rest, hnext, h⟩ <;> rw [after, h] at hσ
    · exact .inl hσ
    · exact (mem_advance_tasks hσ).imp_right fun hσ =>
        .inr (.inl ⟨j, pick, τ, p, rest, rfl, hnext, hσ⟩)
  | handle pick =>
    rcases s.handle_cases pick with h | ⟨p, rest, t, -, -, h⟩ <;> rw [after, h] at hσ <;>
      exact .inl hσ
  | abandon j => exact (mem_abandon_tasks hσ).imp_right fun hσ => .inr (.inr hσ)
  | collect =>
    rw [after, collect_tasks] at hσ
    exact .inl hσ

/-- Where a section of the handler comes from. -/
theorem mem_after_handler {q : Point} (hq : q ∈ (s.after a).handler) : q ∈ s.handler ∨
    (∃ event runtime, a = .begin (.report event) runtime ∧ q = incoming event) ∨
    ∃ pick p rest, a = .handle pick ∧ s.handler = p :: rest ∧
      q ∈ (p.exec true pick s.store).next := by
  cases a with
  | begin call runtime =>
    rcases s.begin_handler runtime call with h | ⟨event, rfl, h⟩ <;> rw [after, h] at hq
    · exact .inl hq
    · exact (List.mem_append.mp hq).imp_right fun hq =>
        .inl ⟨event, runtime, rfl, List.mem_singleton.mp hq⟩
  | step j pick =>
    rcases s.step_cases j pick with h | ⟨τ, p, rest, -, h⟩ <;> rw [after, h] at hq <;>
      exact .inl hq
  | handle pick =>
    rcases s.handle_cases pick with h | ⟨p, rest, t, htodo, rfl, h⟩ <;> rw [after, h] at hq
    · exact .inl hq
    · rcases List.mem_append.mp hq with hq | hq
      · exact .inr (.inr ⟨pick, p, rest, rfl, htodo, hq⟩)
      · exact .inl (htodo ▸ List.mem_cons_of_mem _ hq)
  | abandon j =>
    rw [after, abandon_handler] at hq
    exact .inl hq
  | collect =>
    rw [after, collect_handler] at hq
    exact .inl hq

/-- A property of all sections that are left to do. -/
def Each (P : Point → Prop) (s : State) : Prop :=
  ∀ τ ∈ s.tasks, ∀ p ∈ τ.todo, P p

theorem Each.advance {P Q : Point → Prop} (h : Each P s) (hPQ : ∀ p, P p → Q p) {t : Turn}
    (hnext : s.next? j = some (τ, p, rest)) (ht : ∀ q ∈ t.next, Q q)
    (hspawned : ∀ q ∈ t.spawned, Q q) : Each Q (s.advance j τ rest t) := by
  obtain ⟨hτ, htodo⟩ := mem_of_next? hnext
  intro σ hσ q hq
  rcases mem_advance_tasks hσ with hmem | rfl | rfl
  · exact hPQ q (h σ hmem q hq)
  · rcases List.mem_append.mp hq with hq | hq
    · exact ht q hq
    · exact hPQ q (h τ hτ q (htodo ▸ List.mem_cons_of_mem _ hq))
  · exact hspawned q hq

theorem Each.of_next? {P : Point → Prop} (h : Each P s) (hnext : s.next? j = some (τ, p, rest)) :
    P p := by
  obtain ⟨hτ, htodo⟩ := mem_of_next? hnext
  exact h τ hτ p (htodo ▸ List.mem_cons_self)

/-- What all sections keep to that are left to do. -/
theorem Each.after {P Q : Point → Prop} (h : Each P s) (a : Action) (hPQ : ∀ p, P p → Q p)
    (hbegin : ∀ call runtime, a = .begin call runtime → s.admits call = true →
      ∀ q ∈ opening call, Q q)
    (hexec : ∀ j pick τ p rest, a = .step j pick → s.next? j = some (τ, p, rest) →
      ∀ q ∈ (p.exec τ.runtime pick s.store).next ++ (p.exec τ.runtime pick s.store).spawned, Q q) :
    Each Q (s.after a) := by
  intro σ hσ q hq
  rcases mem_after_tasks hσ with hmem | ⟨call, runtime, ha, hadmits, rfl⟩ |
    ⟨j, pick, τ, p, rest, ha, hnext, rfl | rfl⟩ | ⟨τ, -, rfl⟩
  · exact hPQ q (h σ hmem q hq)
  · exact hbegin call runtime ha hadmits q hq
  · obtain ⟨hτ, htodo⟩ := mem_of_next? hnext
    rcases List.mem_append.mp hq with hq | hq
    · exact hexec j pick τ p rest ha hnext q (List.mem_append_left _ hq)
    · exact hPQ q (h τ hτ q (htodo ▸ List.mem_cons_of_mem _ hq))
  · exact hexec j pick τ p rest ha hnext q (List.mem_append_right _ hq)
  · cases hq

theorem closed_after (h : s.conn.closed = true) (a : Action) :
    (s.after a).conn.closed = true := by
  cases a with
  | begin call runtime => exact (begin_closed runtime call).trans h
  | step j pick =>
    rcases s.step_cases j pick with hs | ⟨τ, p, rest, -, hs⟩
    · rw [after, hs, h]
    · rw [after, hs]
      exact Point.exec_closed h
  | handle pick =>
    rcases s.handle_cases pick with hs | ⟨p, rest, t, -, rfl, hs⟩
    · rw [after, hs, h]
    · rw [after, hs]
      exact Point.exec_closed h
  | abandon j =>
    rw [after, conn, abandon_store]
    exact h
  | collect => exact s.collect_closed.trans h

theorem closed_run (h : s.conn.closed = true) (as : List Action) :
    (s.run as).conn.closed = true :=
  run_induction (P := fun s => s.conn.closed = true) (fun _ a h => closed_after h a) h as

theorem limit_after (s : State) (a : Action) :
    (s.after a).conn.writer.limit = s.conn.writer.limit := by
  cases a with
  | begin call runtime =>
    exact begin_kept (fun s' => s'.conn.writer.limit = s.conn.writer.limit) rfl rfl fun _ => rfl
  | step j pick =>
    rcases s.step_cases j pick with h | ⟨τ, p, rest, -, h⟩ <;> rw [after, h]
    exact Point.exec_limit
  | handle pick =>
    rcases s.handle_cases pick with h | ⟨p, rest, t, -, rfl, h⟩ <;> rw [after, h]
    exact Point.exec_limit
  | abandon j => rw [after, conn, abandon_store, conn]
  | collect => rcases s.collect_cases with h | h <;> rw [after, h]; rfl

theorem limit_run (s : State) (as : List Action) :
    (s.run as).conn.writer.limit = s.conn.writer.limit :=
  run_induction (P := fun s' => s'.conn.writer.limit = s.conn.writer.limit)
    (fun s' a h => (s'.limit_after a).trans h) rfl as

/-- A connection that is open at the end has been open. -/
theorem open_of_after {s : State} {a : Action} (h : (s.after a).conn.closed = false) :
    s.conn.closed = false := by
  cases hc : s.conn.closed with
  | false => rfl
  | true =>
    rw [closed_after hc a] at h
    cases h

theorem open_of_run {s : State} {as : List Action} (h : (s.run as).conn.closed = false) :
    s.conn.closed = false := by
  cases hc : s.conn.closed with
  | false => rfl
  | true =>
    rw [closed_run hc as] at h
    cases h

/-- What all computations keep to. -/
structure Regular (s : State) : Prop where
  prompt : s.conn.closed = false → ∀ τ ∈ s.tasks, Point.Prompt τ.todo
  handler : ∀ p ∈ s.handler, p.isIncoming = true

theorem prompt_opening (call : Connection.Action) : Point.Prompt (opening call) := by
  cases call <;> simp [opening, Point.Prompt, Point.closes]

theorem Regular.after (h : Regular s) (a : Action) : Regular (s.after a) := by
  refine ⟨fun ho σ hσ => ?_, fun q hq => ?_⟩
  · have hprompt := h.prompt (open_of_after ho)
    rcases mem_after_tasks hσ with hmem | ⟨call, runtime, -, -, rfl⟩ |
      ⟨j, pick, τ, p, rest, rfl, hnext, rfl | rfl⟩ | ⟨τ, -, rfl⟩
    · exact hprompt σ hmem
    · exact prompt_opening call
    · obtain ⟨hτ, htodo⟩ := mem_of_next? hnext
      rw [State.after, step_of_next? hnext] at ho
      exact Point.prompt_exec (htodo ▸ hprompt τ hτ) ho
    · exact Point.prompt_spawned
    · exact .nil
  · rcases mem_after_handler hq with hmem | ⟨event, runtime, -, rfl⟩ | ⟨pick, p, rest, -, htodo, hq⟩
    · exact h.handler q hmem
    · cases event <;> rfl
    · exact Point.incoming_next (h.handler p (htodo ▸ List.mem_cons_self)) q hq

theorem regular_start (s : Settings) : Regular (start s) :=
  ⟨fun _ => by simp [start], by simp [start]⟩

theorem Regular.run (h : Regular s) (as : List Action) : Regular (s.run as) :=
  run_induction (fun _ a h => h.after a) h as

/-! ### When a connection is closed or about to be -/

/-- The connection is closed, or somebody who calls is about to close it. -/
def Doomed (s : State) : Prop :=
  s.conn.closed = true ∨ ∃ τ ∈ s.tasks, ∃ p ∈ τ.todo, p.closes = true

theorem doomed_advance {u : Turn} (h : s.next? j = some (τ, p, rest))
    (hu : u.store.conn.closed = true ∨ ∃ q ∈ u.next, q.closes = true) :
    Doomed (s.advance j τ rest u) := by
  rcases hu with hc | ⟨q, hq, hcloses⟩
  · exact .inl hc
  · have hτ : s.tasks[j]? = some τ := (next?_eq_some.mp h).1
    have hj := (List.getElem?_eq_some_iff.mp hτ).choose
    exact .inr ⟨_, List.mem_append_left _ (List.mem_set hj _), q, List.mem_append_left _ hq,
      hcloses⟩

theorem Doomed.after (h : Doomed s) (hr : Regular s) (a : Action) : Doomed (s.after a) := by
  cases hc : (s.after a).conn.closed with
  | true => exact .inl hc
  | false =>
    have ho := open_of_after hc
    rcases h with h | ⟨σ, hσ, q, hq, hcloses⟩
    · rw [ho] at h
      cases h
    right
    cases a with
    | begin call runtime =>
      refine ⟨σ, ?_, q, hq, hcloses⟩
      rcases s.begin_cases runtime call with h | ⟨-, h⟩ | ⟨c, rfl, -, h⟩ | ⟨reason, -, h⟩ |
        ⟨event, -, h⟩ <;> rw [State.after, h]
      case inr.inl => exact List.mem_append_left _ hσ
      all_goals exact hσ
    | step j pick =>
      rcases s.step_cases j pick with hs | ⟨τ, p, rest, hnext, hs⟩
      · rw [State.after, hs]
        exact ⟨σ, hσ, q, hq, hcloses⟩
      · rw [State.after, hs] at hc ⊢
        rcases mem_advance_of_mem hnext hσ with hmem | ⟨rfl, hmem⟩
        · exact ⟨σ, hmem, q, hq, hcloses⟩
        · refine ⟨_, hmem, q, ?_, hcloses⟩
          rw [(mem_of_next? hnext).2] at hq
          rcases List.mem_cons.mp hq with rfl | hq
          · cases hc.symm.trans (Point.closed_of_closes hcloses)
          · exact List.mem_append_right _ hq
    | handle pick =>
      rcases s.handle_cases pick with hs | ⟨p, rest, t, -, -, hs⟩ <;> rw [State.after, hs] <;>
        exact ⟨σ, hσ, q, hq, hcloses⟩
    | abandon j =>
      rcases mem_abandon_of_mem j hσ with hmem | ⟨p, rest, htodo, hp⟩
      · exact ⟨σ, hmem, q, hq, hcloses⟩
      · have hprompt := hr.prompt ho σ hσ
        rw [htodo] at hprompt hq
        have hquick : p.isQuick = true := by
          rcases List.mem_cons.mp hq with rfl | hq
          · exact Point.quick_of_closes hcloses
          · exact (List.pairwise_cons.mp hprompt).1 q hq hcloses
        rw [Point.not_suspended_of_quick hquick] at hp
        cases hp
    | collect => exact ⟨σ, by rw [State.after, collect_tasks]; exact hσ, q, hq, hcloses⟩

theorem Doomed.run (h : Doomed s) (hr : Regular s) (as : List Action) : Doomed (s.run as) :=
  (run_induction (P := fun s => Regular s ∧ Doomed s)
    (fun _ a h => ⟨h.1.after a, h.2.after h.1 a⟩) ⟨hr, h⟩ as).2

/-- A call on a cursor is made while its owner has it. -/
theorem held_of_admits {call : Connection.Action} {i : CursorId} (h : s.admits call = true)
    (hi : call.cursor? = some i) : ∃ k, s.conn.cursors[i]? = some k ∧ k.held = true := by
  rw [admits, hi, Option.all_some, Bool.and_eq_true, Option.any_eq_true] at h
  exact h.1

/-- Whether every computation of those who call has come to its end. -/
def Idle (s : State) : Prop :=
  ∀ τ ∈ s.tasks, τ.todo = []

instance (s : State) : Decidable (Idle s) :=
  decidable_of_iff (s.tasks.all Task.isOver = true) (by simp [Idle, Task.isOver])

theorem not_doomed_of_idle (h : Idle s) (ho : s.conn.closed = false) : ¬Doomed s := by
  rintro (hc | ⟨τ, hτ, p, hp, -⟩)
  · rw [ho] at hc
    cases hc
  · rw [h τ hτ] at hp
    cases hp

end State
end Reql.Async
