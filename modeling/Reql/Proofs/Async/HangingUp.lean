import Reql.Proofs.Async.Stopping

/-! The end of a connection that a cursor has for itself, and the end of its writing direction. -/
namespace Reql

/-- Whether a reply tells the owner of a cursor that he is done with it: it is at its end, it has
failed, or he has closed or dropped it. -/
def Connection.Reply.isLast : Connection.Reply → Bool
  | .read none | .read (some (.ok (some _))) | .primed none | .primed (some (.ok ())) => false
  | _ => true

namespace Async

/-- Whether the owner of a cursor has heard from a call that he is done with it. -/
def Task.isLast (i : CursorId) (τ : Task) : Bool :=
  τ.cursor == some i && τ.reply.any (·.isLast)

variable {runtime : Bool} {pick : Nat} {s : Store} {p : Point} {ps qs : List Point} {i : CursorId}
  {k : Cursor}

namespace Point

/-! ### What the owner of the cursor hears -/

/-- Whether the section belongs to a call on a cursor that has its connection for itself. -/
def isOwn (i : CursorId) : Point → Bool
  | read j | prime j | close j | leave j | letGo j => j == i
  | check _ q | lookUp _ q | write _ q | await _ q | feed _ q | flush _ q | wrote _ q =>
    q == .fetch i
  | deregister _ | shutDown .. | drain _ | fail .. => true
  | spawnHangUp | hangUp | awaitWriter | endWriting | reply _ => true
  | _ => false

def tells : Point → Bool
  | letGo _ => true
  | reply r => r.isLast
  | _ => false

/-- The connection is closed before the owner hears that he is done with the cursor. -/
def Announced : List Point → Prop
  | [] => True
  | p :: ps => p.closes = true ∨ p.tells = false ∧ Announced ps

theorem Announced.append (hp : Announced ps) (hq : Announced qs) : Announced (ps ++ qs) := by
  induction ps with
  | nil => exact hq
  | cons p ps ih => exact hp.imp_right fun h => ⟨h.1, ih h.2⟩

theorem own_exec (runtime : Bool) (pick : Nat) (hk : s.conn.cursors[i]? = some k)
    (he : k.exclusive = true) (hown : p.isOwn i = true) :
    (p.tells = false → Announced (p.exec runtime pick s).next) ∧
      ∀ q ∈ (p.exec runtime pick s).next, q.isOwn i = true := by
  have honCursor {f : Cursor → Cursor} {g : Cursor → List Point} {tells : Bool}
      (hg : (tells = false → Announced (g k)) ∧ ∀ q ∈ g k, q.isOwn i = true) :
      (tells = false → Announced (s.onCursor i f g).next) ∧
        ∀ q ∈ (s.onCursor i f g).next, q.isOwn i = true := by
    unfold Store.onCursor
    rw [hk]
    exact hg
  cases p with
  | read j =>
    obtain rfl : j = i := by simpa [isOwn] using hown
    refine honCursor ?_
    unfold afterRead finish
    split <;> simp [Announced, tells, closes, isOwn, he, Connection.Reply.isLast]
  | prime j =>
    obtain rfl : j = i := by simpa [isOwn] using hown
    refine honCursor ?_
    unfold afterPrime finish
    split <;> simp [Announced, tells, closes, isOwn, he, Connection.Reply.isLast]
  | close j =>
    obtain rfl : j = i := by simpa [isOwn] using hown
    refine honCursor ?_
    unfold afterClose
    cases k.inbox.closed <;> simp [Announced, tells, closes, isOwn, he]
  | leave j =>
    obtain rfl : j = i := by simpa [isOwn] using hown
    refine honCursor ?_
    unfold afterLeave
    cases k.inbox.isRunning <;> simp [Announced, tells, closes, isOwn, he]
  | letGo j =>
    obtain rfl : j = i := by simpa [isOwn] using hown
    exact honCursor (by simp [tells, isOwn])
  | wrote error q =>
    obtain rfl : q = .fetch i := by simpa [isOwn] using hown
    cases error with
    | none => simp [exec, Announced, tells, isOwn, Connection.Reply.isLast]
    | some e =>
      refine honCursor ?_
      unfold finish
      simp [Announced, tells, closes, isOwn, he]
  | check token q | lookUp token q | write _ q | await m q =>
    obtain rfl : q = .fetch i := by simpa [isOwn] using hown
    simp only [exec]
    repeat' split
    all_goals simp [Announced, tells, isOwn]
  | feed m q | flush m q =>
    obtain rfl : q = .fetch i := by simpa [isOwn] using hown
    simp only [exec, afterFault]
    repeat' split
    all_goals simp [Announced, tells, closes, isOwn]
  | shutDown cause closing =>
    cases closing <;> simp only [exec] <;> split <;> simp [Announced, tells, isOwn]
  | deregister | drain | fail | spawnHangUp | hangUp | awaitWriter | endWriting | reply =>
    simp only [exec]
    repeat' split
    all_goals simp [Announced, tells, isOwn]
  | _ => cases hown

theorem reply_of_isOwn (hown : p.isOwn i = true) (r : Connection.Reply)
    (hr : (p.exec runtime pick s).reply = some r) : p = reply r := by
  have honCursor (id : CursorId) (f : Cursor → Cursor) (g : Cursor → List Point) :
      (s.onCursor id f g).reply = none := by
    rcases s.onCursor_cases id f g with h | ⟨k, -, h⟩ <;> rw [h] <;> rfl
  cases p with
  | reply r' =>
    obtain rfl := Option.some.inj hr
    rfl
  | read | prime | close | leave | letGo => cases (honCursor _ _ _).symm.trans hr
  | wrote error q =>
    obtain rfl : q = .fetch i := by simpa [isOwn] using hown
    cases error with
    | none => cases hr
    | some e => cases (honCursor _ _ _).symm.trans hr
  | enter | take | register | recheck | halt | spawnStop | route | deliver | reject => cases hown
  | _ =>
    simp only [exec] at hr
    repeat' split at hr
    all_goals cases hr

/-! ### What ends the writing direction -/

/-- Whether the section is about to end the writing direction. What is left to another computation
needs a runtime. -/
def hangsUp (runtime : Bool) : Point → Bool
  | hangUp => true
  | spawnHangUp => runtime
  | _ => false

/-- Whether the section ends the writing direction, or waits for the writer to do so. -/
def isEnding : Point → Bool
  | awaitWriter | endWriting => true
  | _ => false

/-- Whether the section begins what ends the writing direction: a call that closes the connection
does so, and an owner who is done with his cursor if it is he who closes the connection. -/
def startsHangUp (runtime closed : Bool) : Point → Bool
  | shutDown _ .hangUp => true
  | shutDown _ .release => !closed && runtime
  | _ => false

/-- Whether the section has to do with the end of the writing direction. -/
def isTail (p : Point) : Bool :=
  p.hangsUp true || p.isEnding

theorem isTail_of_hangsUp (h : p.hangsUp runtime = true) : p.isTail = true := by
  cases p <;> first | rfl | cases h

/-- Nothing but closing a connection leads to the end of the writing direction. -/
theorem tail_exec (runtime : Bool) (pick : Nat) (s : Store) (hp : p.closes = false)
    (hp' : p.isTail = false) :
    ∀ q ∈ (p.exec runtime pick s).next ++ (p.exec runtime pick s).spawned, q.isTail = false := by
  have hfinish (k : Cursor) : ∀ q ∈ finish k, q.isTail = false := by
    unfold finish
    cases k.exclusive <;> simp [isTail, hangsUp, isEnding]
  have hreply (k : Cursor) (r : Connection.Reply) : ∀ q ∈ finish k ++ [reply r], q.isTail = false :=
    List.forall_mem_append.mpr ⟨hfinish k, by simp [isTail, hangsUp, isEnding]⟩
  cases p with
  | read =>
    refine onCursor_each fun k => ?_
    rcases afterRead_cases _ k with ⟨r, h⟩ | ⟨r, h⟩ | h <;> rw [h]
    · simp [isTail, hangsUp, isEnding]
    · exact hreply k r
    · simp [isTail, hangsUp, isEnding]
  | prime =>
    refine onCursor_each fun k => ?_
    rcases afterPrime_cases k with ⟨r, h⟩ | ⟨r, h⟩ <;> rw [h]
    · simp [isTail, hangsUp, isEnding]
    · exact hreply k r
  | close =>
    refine onCursor_each fun k => ?_
    unfold afterClose
    cases k.inbox.closed <;> cases k.exclusive <;> cases k.inbox.serverDone <;>
      simp [isTail, hangsUp, isEnding]
  | leave =>
    refine onCursor_each fun k => ?_
    unfold afterLeave
    cases k.inbox.isRunning <;> cases k.exclusive <;> simp [isTail, hangsUp, isEnding]
  | letGo | deliver | reject => exact onCursor_each (by simp [isTail, hangsUp, isEnding])
  | wrote error q =>
    cases q <;> cases error
    case query.none => exact onCursor_each (by simp)
    case fetch.some e => exact onCursor_each fun k => hreply k _
    all_goals simp [exec, isTail, hangsUp, isEnding]
  | shutDown => cases hp
  | spawnHangUp | hangUp | awaitWriter | endWriting => cases hp'
  | _ =>
    simp only [exec, afterFault]
    repeat' split
    all_goals simp [isTail, hangsUp, isEnding]

theorem exec_writeClosed (runtime : Bool) (pick : Nat) (s : Store) (hp : p ≠ hangUp) :
    (p.exec runtime pick s).store.conn.writeClosed = s.conn.writeClosed := by
  cases p <;> simp only [exec] <;> (repeat' split) <;>
    simp_all [Store.accept, Store.onInbox, Connection.register, Connection.addCursor,
      Connection.deregister, Connection.modifyInbox]

theorem sum_of_not_tail {w : Point → Bool} (hw : ∀ q, q.isTail = false → w q = false)
    (h : ∀ q ∈ ps, q.isTail = false) : (ps.map fun q => (w q).toNat).sum = 0 :=
  List.sum_eq_zero fun n hn => by
    obtain ⟨q, hq, rfl⟩ := List.mem_map.mp hn
    rw [hw q (h q hq)]
    rfl

/-- What is about to hang up does so, and nothing is added but by closing the connection. -/
theorem exec_hangsUp (runtime : Bool) (pick : Nat) (s : Store) (p : Point) :
    let u := p.exec runtime pick s
    (u.store.conn.writeClosed = s.conn.writeClosed ∧
      (u.next.map fun q => (q.hangsUp runtime).toNat).sum +
          (u.spawned.map fun q => (q.hangsUp true).toNat).sum =
        (p.hangsUp runtime).toNat + (p.startsHangUp runtime s.conn.closed).toNat) ∨
      p = hangUp ∧ u.store.conn.writeClosed = true := by
  have hnone (runtime : Bool) (q : Point) (hq : q.isTail = false) : q.hangsUp runtime = false :=
    Bool.eq_false_iff.mpr fun h => by cases hq.symm.trans (isTail_of_hangsUp h)
  by_cases hhangUp : p = hangUp
  · subst hhangUp
    right
    simp only [exec]
    split
    next hc => exact ⟨trivial, hc⟩
    next => exact ⟨trivial, rfl⟩
  refine .inl ⟨exec_writeClosed _ _ _ hhangUp, ?_⟩
  cases hcloses : p.closes with
  | true =>
    cases p with
    | shutDown cause closing =>
      simp only [exec]
      cases hc : s.conn.closed <;> cases closing <;> simp [hangsUp, startsHangUp]
    | _ => cases hcloses
  | false =>
    cases htail : p.isTail with
    | true =>
      cases p with
      | hangUp => exact absurd rfl hhangUp
      | spawnHangUp => cases runtime <;> simp [exec, hangsUp, startsHangUp]
      | awaitWriter | endWriting => simp [exec, hangsUp, startsHangUp]
      | _ => cases htail
    | false =>
      have hnext := List.forall_mem_append.mp
        (tail_exec runtime pick s hcloses htail)
      rw [sum_of_not_tail (hnone runtime) hnext.1, sum_of_not_tail (hnone true) hnext.2,
        hnone runtime p htail]
      cases p <;> first | rfl | cases hcloses

def ends : Point → Bool
  | endWriting => true
  | _ => false

/-- The writing direction is ended once the flag has been swapped, and only then. -/
theorem exec_isEnding (runtime : Bool) (pick : Nat) (s : Store) (p : Point) :
    let u := p.exec runtime pick s
    p.ends.toNat + (u.next.map fun q => q.isEnding.toNat).sum +
        (u.spawned.map fun q => q.isEnding.toNat).sum + s.conn.writeClosed.toNat =
      p.isEnding.toNat + u.store.conn.writeClosed.toNat := by
  have hnone (q : Point) (hq : q.isTail = false) : q.isEnding = false :=
    (Bool.or_eq_false_iff.mp hq).2
  cases hcloses : p.closes with
  | true =>
    cases p with
    | shutDown cause closing =>
      simp only [exec]
      cases hc : s.conn.closed <;> cases closing <;> simp [isEnding, ends]
    | _ => cases hcloses
  | false =>
    cases htail : p.isTail with
    | true =>
      cases p with
      | hangUp => cases hc : s.conn.writeClosed <;> simp [exec, hc, isEnding, ends]
      | spawnHangUp => cases runtime <;> simp [exec, isEnding, ends]
      | awaitWriter | endWriting => simp [exec, isEnding, ends]
      | _ => cases htail
    | false =>
      have hnext := List.forall_mem_append.mp
        (tail_exec runtime pick s hcloses htail)
      have hkept := exec_writeClosed runtime pick s (p := p)
        (by rintro rfl; cases htail)
      dsimp only
      rw [sum_of_not_tail hnone hnext.1, sum_of_not_tail hnone hnext.2, hnone p htail, hkept]
      cases p <;> first | rfl | cases htail

/-- Nothing that could wait comes between closing a connection and hanging up. -/
def Swift (ps : List Point) : Prop :=
  ps.Pairwise fun p q => q.hangsUp true = true → p.isDraining = true

theorem swift_next : Swift (p.exec runtime pick s).next := by
  cases hcloses : p.closes with
  | true =>
    cases p with
    | shutDown cause closing =>
      cases closing <;> simp only [exec] <;> split <;> simp [Swift, hangsUp, isDraining]
    | _ => cases hcloses
  | false =>
    cases htail : p.isTail with
    | true =>
      cases p with
      | hangUp =>
        simp only [exec]
        split <;> simp [Swift]
      | spawnHangUp | awaitWriter | endWriting => simp [exec, Swift]
      | _ => cases htail
    | false =>
      refine List.pairwise_of_forall_mem_list fun p _ q hq hup => ?_
      have hnot := tail_exec _ _ _ hcloses htail q (List.mem_append_left _ hq)
      rw [isTail_of_hangsUp hup] at hnot
      cases hnot

theorem swift_exec (h : Swift (p :: ps)) : Swift ((p.exec runtime pick s).next ++ ps) := by
  obtain ⟨hp, hps⟩ := List.pairwise_cons.mp h
  refine List.pairwise_append.mpr ⟨swift_next, hps, fun q hq r hr hup => ?_⟩
  have hdraining := hp r hr hup
  cases p with
  | drain cause =>
    obtain rfl := List.mem_singleton.mp hq
    rfl
  | fail cause ids =>
    simp only [exec] at hq
    split at hq
    · cases hq
    · obtain rfl := List.mem_singleton.mp hq
      rfl
  | _ => cases hdraining

/-- What waits is not about to hang up. -/
theorem hangsUp_of_waits (h : Swift ps) (hwaits : ps.head?.any isSuspended = true) :
    ∀ p ∈ ps, p.hangsUp runtime = false := by
  intro q hq
  refine Bool.eq_false_iff.mpr fun hup => ?_
  have hup' : q.hangsUp true = true := by
    cases q <;> first | rfl | cases hup
  cases ps with
  | nil => cases hq
  | cons p ps =>
    rw [List.head?_cons, Option.any_some] at hwaits
    rcases List.mem_cons.mp hq with rfl | hq
    · have hquick : q.isSuspended = false := by
        cases q <;> first | rfl | cases hup'
      cases hquick.symm.trans hwaits
    · have hdraining := (List.pairwise_cons.mp h).1 q hq hup'
      have hquick : p.isSuspended = false := by
        cases p <;> first | rfl | cases hdraining
      cases hquick.symm.trans hwaits

theorem swift_spawned : Swift (p.exec runtime pick s).spawned := by
  cases p <;> simp only [exec] <;> (repeat' split) <;> simp [Swift, Store.onInbox]

/-! ### What the other end reads -/

/-- Only the end of the writing direction ends the stream; and it does, unless the stream fails. -/
theorem exec_link (runtime : Bool) (pick : Nat) (s : Store) (p : Point) :
    let u := p.exec runtime pick s
    u.store.conn.writer.link.fault = s.conn.writer.link.fault ∧
      u.store.conn.writer.link.ended =
        (s.conn.writer.link.ended || p.ends && s.conn.writer.link.fault.isNone) := by
  cases p with
  | feed m q =>
    simp only [exec]
    have hlink := s.conn.writer.makeRoom_link
    repeat' split
    all_goals simp_all [Store.accept, ends]
  | flush m q =>
    simp only [exec]
    have hlink := s.conn.writer.flush_link
    split <;> simp_all [ends]
  | endWriting => simpa [exec, ends] using s.conn.writer.close_link
  | _ =>
    simp only [exec]
    repeat' split
    all_goals simp [Store.onInbox, Connection.register, Connection.addCursor, Connection.deregister,
      Connection.modifyInbox, ends]

end Point

namespace State

variable {s : State} {a : Action} {as : List Action} {j : TaskId} {τ : Task} {rest : List Point}

/-- What a computation keeps to in which the owner of such a cursor has called. -/
structure Told (i : CursorId) (closed : Bool) (τ : Task) : Prop where
  own : ∀ p ∈ τ.todo, p.isOwn i = true
  announced : closed = false → Point.Announced τ.todo
  last : ∀ r, τ.reply = some r → r.isLast = true → closed = true

theorem Told.mono {closed closed' : Bool} (h : Told i closed τ)
    (hc : closed = true → closed' = true) : Told i closed' τ := by
  refine ⟨h.own, fun ho => h.announced ?_, fun r hr hlast => hc (h.last r hr hlast)⟩
  cases closed with
  | false => rfl
  | true => cases (hc rfl).symm.trans ho

/-- The computations in which the owners of such cursors have called. -/
structure Owned (s : State) : Prop where
  there : ∀ τ ∈ s.tasks, ∀ i, τ.cursor = some i → ∃ k, s.conn.cursors[i]? = some k
  told : ∀ τ ∈ s.tasks, ∀ i k, τ.cursor = some i → s.conn.cursors[i]? = some k →
    k.exclusive = true → Told i s.conn.closed τ

theorem owned_start (settings : Settings) : Owned (start settings) :=
  ⟨fun _ hτ => (by cases hτ), fun _ hτ => by cases hτ⟩

theorem told_opening {call : Connection.Action} (hi : call.cursor? = some i) (closed : Bool) :
    Told i closed ⟨call.cursor?, runtime, opening call, none⟩ := by
  cases call <;> cases hi <;>
    exact ⟨by simp [opening, Point.isOwn],
      fun _ => by simp [opening, Point.Announced, Point.tells], fun r hr => by cases hr⟩

theorem told_advance (hk : s.conn.cursors[i]? = some k) (he : k.exclusive = true)
    (h : Told i s.conn.closed τ) (hnext : s.next? j = some (τ, p, rest)) (pick : Nat) :
    Told i (p.exec τ.runtime pick s.store).store.conn.closed { τ with
      todo := (p.exec τ.runtime pick s.store).next ++ rest
      reply := (p.exec τ.runtime pick s.store).reply.or τ.reply } := by
  obtain ⟨hτ, htodo⟩ := mem_of_next? hnext
  have hown : p.isOwn i = true := h.own p (htodo ▸ List.mem_cons_self)
  obtain ⟨htells, hnext⟩ :=
    Point.own_exec τ.runtime pick hk he hown
  refine ⟨fun q hq => ?_, fun ho => ?_, fun r hr hlast => ?_⟩
  · rcases List.mem_append.mp hq with hq | hq
    · exact hnext q hq
    · exact h.own q (htodo ▸ List.mem_cons_of_mem _ hq)
  · rcases htodo ▸ h.announced (Point.open_of_exec ho) with hcloses | ⟨hp, hrest⟩
    · cases (Point.closed_of_closes hcloses).symm.trans ho
    · exact (htells hp).append hrest
  · cases hreply : (p.exec τ.runtime pick s.store).reply with
    | none =>
      rw [hreply] at hr
      exact Point.exec_closed (h.last r hr hlast)
    | some r' =>
      obtain rfl := Point.reply_of_isOwn hown r' hreply
      rw [hreply] at hr
      obtain rfl := Option.some.inj hr
      by_contra ho
      have hopen := Point.open_of_exec (Bool.eq_false_iff.mpr ho)
      rcases htodo ▸ h.announced hopen with hcloses | ⟨hp, -⟩
      · cases hcloses
      · cases hp.symm.trans hlast

theorem Owned.after (h : Owned s) (a : Action) : Owned (s.after a) := by
  have hback {τ : Task} (hτ : τ ∈ s.tasks) {i : CursorId} {k' : Cursor} (hi : τ.cursor = some i)
      (hk' : (s.after a).conn.cursors[i]? = some k') (he : k'.exclusive = true) :
      ∃ k, s.conn.cursors[i]? = some k ∧ k.exclusive = true := by
    obtain ⟨k, hk⟩ := h.there τ hτ i hi
    obtain ⟨l, hl, hages⟩ := ages_after hk a
    obtain rfl := Option.some.inj (hl.symm.trans hk')
    exact ⟨k, hk, hages.exclusive.symm.trans he⟩
  refine ⟨fun σ hσ i hi => ?_, fun σ hσ i k' hi hk' he => ?_⟩
  · have hthere {i : CursorId} (h : ∃ k, s.conn.cursors[i]? = some k) :
        ∃ k, (s.after a).conn.cursors[i]? = some k := by
      obtain ⟨k, hk⟩ := h
      obtain ⟨k', hk', -⟩ := ages_after hk a
      exact ⟨k', hk'⟩
    rcases mem_after_tasks hσ with hmem | ⟨call, runtime, rfl, hadmits, rfl⟩ |
      ⟨j, pick, τ, p, rest, -, hnext, rfl | rfl⟩ | ⟨τ, hτ, rfl⟩
    · exact hthere (h.there σ hmem i hi)
    · obtain ⟨k, hk, -⟩ := held_of_admits hadmits hi
      exact hthere ⟨k, hk⟩
    · exact hthere (h.there τ (mem_of_next? hnext).1 i hi)
    · cases hi
    · exact hthere (h.there τ hτ i hi)
  · have hclosed : s.conn.closed = true → (s.after a).conn.closed = true :=
      fun hc => closed_after hc a
    rcases mem_after_tasks hσ with hmem | ⟨call, runtime, rfl, hadmits, rfl⟩ |
      ⟨j, pick, τ, p, rest, rfl, hnext, rfl | rfl⟩ | ⟨τ, hτ, rfl⟩
    · obtain ⟨k, hk, hek⟩ := hback hmem hi hk' he
      exact (h.told σ hmem i k hi hk hek).mono hclosed
    · exact told_opening hi _
    · have hτ := (mem_of_next? hnext).1
      obtain ⟨k, hk, hek⟩ := hback hτ hi hk' he
      have htold := told_advance hk hek (h.told τ hτ i k hi hk hek) hnext pick
      rw [State.after, step_of_next? hnext]
      exact htold
    · cases hi
    · obtain ⟨k, hk, hek⟩ := hback hτ hi hk' he
      have htold := (h.told τ hτ i k hi hk hek).mono hclosed
      exact ⟨fun p hp => (by cases hp), fun _ => trivial, htold.last⟩

theorem owned_run (settings : Settings) (as : List Action) : Owned ((start settings).run as) :=
  run_induction (fun _ a h => h.after a) (owned_start settings) as

/-- An owner who gives up a cursor that has its connection for itself is about to close it. -/
theorem doomed_of_parts (hr : Regular s) (ha : s.Parts i a) (hk : s.conn.cursors[i]? = some k)
    (he : k.exclusive = true) : Doomed (s.after a) := by
  have hdoomed {p : Point} (hp : s.section? a = some p) (hincoming : p.isIncoming = false)
      (hcloses : ∀ runtime pick, ∃ q ∈ (p.exec runtime pick s.store).next, q.closes = true) :
      Doomed (s.after a) := by
    obtain ⟨j, pick, τ, rest, rfl, hnext⟩ := step_of_section? hr hp hincoming
    rw [after, step_of_next? hnext]
    exact doomed_advance hnext (.inr (hcloses τ.runtime pick))
  have honCursor {f : Cursor → Cursor} {g : Cursor → List Point} (hg : ∃ q ∈ g k, q.closes = true) :
      ∃ q ∈ (s.store.onCursor i f g).next, q.closes = true := by
    unfold Store.onCursor
    rw [show s.store.conn.cursors[i]? = some k from hk]
    exact hg
  rcases ha with hp | hp
  · refine hdoomed hp rfl fun runtime pick => honCursor ?_
    unfold Point.afterClose
    cases k.inbox.closed <;> simp [he, Point.closes]
  · refine hdoomed hp rfl fun runtime pick => honCursor ?_
    unfold Point.afterLeave
    cases k.inbox.isRunning <;> simp [he, Point.closes]

theorem cursor_of_parts {settings : Settings} (ha : ((start settings).run as).Parts i a) :
    ∃ k, ((start settings).run as).conn.cursors[i]? = some k := by
  have hthere {p : Point} (hp : ((start settings).run as).section? a = some p)
      (hincoming : p.isIncoming = false) (howner : p.owner? = some i) :
      ∃ k, ((start settings).run as).conn.cursors[i]? = some k := by
    obtain ⟨j, pick, τ, rest, -, hnext⟩ :=
      step_of_section? ((regular_start settings).run as) hp hincoming
    exact ⟨_, List.getElem?_eq_getElem ((there_run settings as).of_next? hnext i howner)⟩
  rcases ha with hp | hp
  · exact hthere hp rfl rfl
  · exact hthere hp rfl rfl

/-! ### Hanging up -/

/-- Whether an action begins what ends the writing direction. -/
def HangsUp (s : State) (a : Action) : Prop :=
  (s.section? a).any (·.startsHangUp (s.hasRuntime a) s.conn.closed) = true

instance (s : State) (a : Action) : Decidable (s.HangsUp a) :=
  inferInstanceAs (Decidable (_ = true))

/-- Whether a computation is given up that has yet to end the writing direction. -/
def LosesEnd (s : State) (a : Action) : Prop :=
  ∃ j τ, a = .abandon j ∧ s.tasks[j]? = some τ ∧ ∃ p ∈ τ.todo, p.isEnding = true

/-- The writing direction is to be ended. -/
def HungUp (s : State) : Prop :=
  s.conn.writeClosed = true ∨ 0 < s.total fun runtime p => (p.hangsUp runtime).toNat

def endings (s : State) : List Action → Nat
  | [] => 0
  | a :: as => ((s.section? a).any Point.ends).toNat + endings (s.after a) as

theorem swift_after (h : ∀ τ ∈ s.tasks, Point.Swift τ.todo) (a : Action) :
    ∀ τ ∈ (s.after a).tasks, Point.Swift τ.todo := by
  intro σ hσ
  rcases mem_after_tasks hσ with hmem | ⟨call, runtime, -, -, rfl⟩ |
    ⟨j, pick, τ, p, rest, rfl, hnext, rfl | rfl⟩ | ⟨τ, -, rfl⟩
  · exact h σ hmem
  · cases call <;> simp [opening, Point.Swift, Point.hangsUp]
  · obtain ⟨hτ, htodo⟩ := mem_of_next? hnext
    exact Point.swift_exec (htodo ▸ h τ hτ)
  · exact Point.swift_spawned
  · exact .nil

theorem startsHangUp_of_isIncoming {closed : Bool} (h : p.isIncoming = true) :
    p.startsHangUp runtime closed = false := by
  cases p with
  | shutDown cause closing =>
    obtain rfl : closing = .leave := by simpa [Point.isIncoming] using h
    rfl
  | _ => rfl

/-- What is reported neither concerns the writer nor what is left to do for those who call. -/
theorem handle_spares {pick : Nat} (hr : Regular s) (h : s.section? (.handle pick) = some p) :
    p.isIncoming = true ∧ (s.after (.handle pick)).tasks = s.tasks ∧
      (s.after (.handle pick)).conn.writeClosed = s.conn.writeClosed := by
  have hincoming := hr.handler p (List.mem_of_mem_head? h)
  rcases s.handle_cases pick with hs | ⟨q, rest, u, htodo, rfl, hs⟩ <;> rw [after, hs]
  · exact ⟨hincoming, rfl, rfl⟩
  · rw [section?, htodo] at h
    obtain rfl := Option.some.inj h
    exact ⟨hincoming, rfl, (Point.incoming_sparesWriter _ _ _ hincoming).writeClosed⟩

theorem tail_opening (call : Connection.Action) : ∀ p ∈ opening call, p.isTail = false := by
  cases call <;> simp [opening, Point.isTail, Point.hangsUp, Point.isEnding]

/-- Only an action that begins it leads to the end of the writing direction, and nothing prevents
that. -/
theorem hungUp_after (hr : Regular s) (hswift : ∀ τ ∈ s.tasks, Point.Swift τ.todo) (a : Action) :
    HungUp (s.after a) ↔ HungUp s ∨ s.HangsUp a := by
  have hnone (runtime : Bool) (p : Point) (hp : p.isTail = false) : p.hangsUp runtime = false :=
    Bool.eq_false_iff.mpr fun h => by cases hp.symm.trans (Point.isTail_of_hangsUp h)
  cases hsection : s.section? a with
  | none =>
    have hclosed : (s.after a).conn.writeClosed = s.conn.writeClosed :=
      kept_of_section? hsection (fun s' => s'.conn.writeClosed = s.conn.writeClosed) rfl rfl
        (fun _ => rfl) fun _ => rfl
    have htotal : ((s.after a).total fun runtime p => (p.hangsUp runtime).toNat) =
        s.total fun runtime p => (p.hangsUp runtime).toNat := by
      refine total_of_section? hsection (fun call runtime _ => ?_) fun j τ _ hτ hwaits p hp => ?_
      · exact Point.sum_of_not_tail (hnone runtime) (tail_opening call)
      · rw [Point.hangsUp_of_waits (hswift τ (List.mem_of_getElem? hτ)) hwaits p hp]
        rfl
    simp [HungUp, HangsUp, hsection, hclosed, htotal]
  | some p =>
    cases a with
    | step j pick =>
      obtain ⟨⟨τ, q, rest⟩, hnext, rfl⟩ := Option.map_eq_some_iff.mp hsection
      have hruntime : s.hasRuntime (.step j pick) = τ.runtime := by
        rw [hasRuntime, (next?_eq_some.mp hnext).1]
        rfl
      have htotal := total_advance (t := q.exec τ.runtime pick s.store)
        (fun runtime p => (p.hangsUp runtime).toNat) hnext
      have hexec := Point.exec_hangsUp τ.runtime pick s.store q
      rw [after, step_of_next? hnext]
      simp only [HungUp, HangsUp, hsection, hruntime, Option.any_some]
      rcases hexec with ⟨hclosed, hsum⟩ | ⟨rfl, hclosed⟩
      · have hnew : ((s.advance j τ rest (q.exec τ.runtime pick s.store)).total
            fun runtime p => (p.hangsUp runtime).toNat) =
            (s.total fun runtime p => (p.hangsUp runtime).toNat) +
              (q.startsHangUp τ.runtime s.conn.closed).toNat := by
          change _ = _ + (q.startsHangUp τ.runtime s.store.conn.closed).toNat
          omega
        rw [hnew, show (s.advance j τ rest _).conn.writeClosed = s.conn.writeClosed from hclosed]
        cases q.startsHangUp τ.runtime s.conn.closed <;> simp
      · obtain ⟨hτ, htodo⟩ := mem_of_next? hnext
        have hle := le_total (w := fun runtime p => (p.hangsUp runtime).toNat) hτ
          (htodo ▸ List.mem_cons_self (l := rest))
        exact ⟨fun _ => .inl (.inr hle), fun _ => .inl hclosed⟩
    | handle pick =>
      obtain ⟨hincoming, htasks, hclosed⟩ := handle_spares hr hsection
      simp [HungUp, HangsUp, hsection, hclosed, total, htasks, startsHangUp_of_isIncoming hincoming]
    | _ => cases hsection

/-- The writing direction is ended once the flag has been swapped, unless that is given up. -/
theorem endings_after (hr : Regular s) (a : Action) :
    ((s.section? a).any Point.ends).toNat + (s.after a).total (fun _ p => p.isEnding.toNat) +
        s.conn.writeClosed.toNat ≤
      s.total (fun _ p => p.isEnding.toNat) + (s.after a).conn.writeClosed.toNat ∧
    (¬s.LosesEnd a →
      ((s.section? a).any Point.ends).toNat + (s.after a).total (fun _ p => p.isEnding.toNat) +
          s.conn.writeClosed.toNat =
        s.total (fun _ p => p.isEnding.toNat) + (s.after a).conn.writeClosed.toNat) := by
  have hnone (p : Point) (hp : p.isTail = false) : p.isEnding = false :=
    (Bool.or_eq_false_iff.mp hp).2
  cases hsection : s.section? a with
  | none =>
    have hclosed : (s.after a).conn.writeClosed = s.conn.writeClosed :=
      kept_of_section? hsection (fun s' => s'.conn.writeClosed = s.conn.writeClosed) rfl rfl
        (fun _ => rfl) fun _ => rfl
    have htotal (hkept : ¬s.LosesEnd a) : ((s.after a).total fun _ p => p.isEnding.toNat) =
        s.total fun _ p => p.isEnding.toNat := by
      refine total_of_section? hsection (fun call runtime _ => ?_) fun j τ ha hτ _ p hp => ?_
      · exact Point.sum_of_not_tail hnone (tail_opening call)
      · rw [Bool.eq_false_iff.mpr fun hend => hkept ⟨j, τ, ha, hτ, p, hp, hend⟩]
        rfl
    have hle : ((s.after a).total fun _ p => p.isEnding.toNat) ≤
        s.total fun _ p => p.isEnding.toNat := by
      by_cases hkept : s.LosesEnd a
      · obtain ⟨j, τ, rfl, -, -⟩ := hkept
        exact s.total_abandon_le _ j
      · exact Nat.le_of_eq (htotal hkept)
    simp only [Option.any_none, hclosed]
    exact ⟨by simpa using hle, fun hkept => by simp [htotal hkept]⟩
  | some p =>
    rw [Option.any_some]
    refine (fun heq => ⟨Nat.le_of_eq heq, fun _ => heq⟩) ?_
    cases a with
    | step j pick =>
      obtain ⟨⟨τ, q, rest⟩, hnext, rfl⟩ := Option.map_eq_some_iff.mp hsection
      have htotal := total_advance (t := q.exec τ.runtime pick s.store)
        (fun _ p => p.isEnding.toNat) hnext
      have hexec := Point.exec_isEnding τ.runtime pick s.store q
      rw [after, step_of_next? hnext]
      dsimp only at hexec ⊢
      change _ = _ + (q.exec τ.runtime pick s.store).store.conn.writeClosed.toNat
      change _ + s.store.conn.writeClosed.toNat = _
      omega
    | handle pick =>
      obtain ⟨hincoming, htasks, hclosed⟩ := handle_spares hr hsection
      have hends : p.ends = false := by
        cases p <;> first | rfl | cases hincoming
      simp [hclosed, total, htasks, hends]
    | _ => cases hsection

theorem hungUp_run (hr : Regular s) (hswift : ∀ τ ∈ s.tasks, Point.Swift τ.todo)
    (as : List Action) : HungUp (s.run as) ↔ HungUp s ∨ ¬s.Never (·.HangsUp ·) as := by
  induction as generalizing s with
  | nil => simp [Never]
  | cons a as ih =>
    rw [run_cons, ih (hr.after a) (swift_after hswift a), hungUp_after hr hswift a, Never]
    tauto

theorem endings_run (hr : Regular s) (as : List Action) :
    s.endings as + (s.run as).total (fun _ p => p.isEnding.toNat) + s.conn.writeClosed.toNat ≤
      s.total (fun _ p => p.isEnding.toNat) + (s.run as).conn.writeClosed.toNat ∧
    (s.Never (·.LosesEnd ·) as →
      s.endings as + (s.run as).total (fun _ p => p.isEnding.toNat) + s.conn.writeClosed.toNat =
        s.total (fun _ p => p.isEnding.toNat) + (s.run as).conn.writeClosed.toNat) := by
  induction as generalizing s with
  | nil => simp [endings]
  | cons a as ih =>
    obtain ⟨hle, heq⟩ := endings_after hr a
    obtain ⟨hle', heq'⟩ := ih (hr.after a)
    rw [endings, run_cons]
    refine ⟨by omega, fun hnever => ?_⟩
    have hnow := heq hnever.1
    have hthen := heq' hnever.2
    omega

/-- Where the stream has not failed, the other end reads its end. -/
def AtEnd (s : State) : Prop :=
  s.conn.writer.link.fault = none → s.conn.writer.link.ended = true

theorem AtEnd.after (h : AtEnd s) (a : Action) : AtEnd (s.after a) := by
  cases hsection : s.section? a with
  | none =>
    exact kept_of_section? hsection
      (fun s' => s'.conn.writer.link.fault = none → s'.conn.writer.link.ended = true) h h
      (fun _ hfault => by cases hfault) fun _ _ => rfl
  | some p =>
    obtain ⟨runtime, pick, hs⟩ := after_of_section? hsection
    obtain ⟨hfault, hended⟩ := Point.exec_link runtime pick s.store p
    intro hnone
    rw [conn, hs] at hnone ⊢
    rw [hended, show s.store.conn.writer.link.ended = true from h (hfault.symm.trans hnone)]
    rfl

theorem atEnd_of_ends (h : (s.section? a).any Point.ends = true) : AtEnd (s.after a) := by
  obtain ⟨p, hp, hends⟩ := (Option.any_eq_true _ _).mp h
  obtain ⟨runtime, pick, hs⟩ := after_of_section? hp
  obtain ⟨hfault, hended⟩ := Point.exec_link runtime pick s.store p
  intro hnone
  rw [conn, hs] at hnone ⊢
  rw [hended, hends, ← hfault, hnone]
  simp

theorem atEnd_run (h : 0 < s.endings as) : AtEnd (s.run as) := by
  induction as generalizing s with
  | nil => cases h
  | cons a as ih =>
    rw [endings] at h
    rw [run_cons]
    cases hends : (s.section? a).any Point.ends with
    | true => exact run_induction (fun _ a h => h.after a) (atEnd_of_ends hends) as
    | false =>
      rw [hends, Bool.toNat_false, Nat.zero_add] at h
      exact ih h

/-- The stream ends with its writing direction, or when it is given up. -/
theorem endings_of_ended (h : (s.run as).conn.writer.link.ended = true) (hkept : .collect ∉ as) :
    s.conn.writer.link.ended = true ∨ 0 < s.endings as := by
  induction as generalizing s with
  | nil => exact .inl h
  | cons a as ih =>
    rw [List.mem_cons, not_or] at hkept
    rcases ih h hkept.2 with hended | hpos
    · cases hsection : s.section? a with
      | none =>
        left
        rw [← hended]
        exact kept_of_section? hsection
          (fun s' => s.conn.writer.link.ended = s'.conn.writer.link.ended) rfl rfl (fun _ => rfl)
          fun ha => absurd ha.symm hkept.1
      | some p =>
        obtain ⟨runtime, pick, hs⟩ := after_of_section? hsection
        obtain ⟨-, hlink⟩ := Point.exec_link runtime pick s.store p
        rw [conn, hs, hlink, Bool.or_eq_true, Bool.and_eq_true] at hended
        refine hended.imp_right fun hends => ?_
        rw [endings, hsection, Option.any_some, hends.1]
        exact Nat.add_pos_left Nat.one_pos _
    · exact .inr (Nat.lt_of_lt_of_le hpos (Nat.le_add_left _ _))

end State
end Async
end Reql
