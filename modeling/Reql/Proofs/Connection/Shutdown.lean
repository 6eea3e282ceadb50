import Reql.Proofs.Connection.Causes
import Reql.Proofs.Connection.Intake
import Reql.Proofs.Connection.Output

/-! A connection is closed once, for its first cause, and that is told to everyone who waits, if each
call and each shutdown is carried out in one piece. -/
namespace Reql
namespace Connection

open Cursor (remaining results Settled Spent Event)

/-- The owner of the cursor at a place does not give it up. -/
def Keeps (i : CursorId) (as : List Action) : Prop :=
  ∀ a ∈ as, a ≠ .closeCursor i ∧ a ≠ .dropCursor i

/-- A closed connection asks for nothing and writes nothing. -/
structure Refuses (c : Connection) : Prop where
  query : ∀ term options exclusive, c.query term options exclusive = (.error .connectionClosed, c)
  noreplyWait : c.noreplyWait = (.error .connectionClosed, c)
  continueQuery : ∀ t, c.continueQuery t = (some .connectionClosed, c)
  stop : ∀ t, c.stop t = (none, c)
  close : c.close = c.closeWriter
  closeAgain : c.close.close = c.close

/-- In a run the owner of the cursor at a place reads these results, and then only the end; each
call of `next` gets one of them. -/
def Reads (c : Connection) (i : CursorId) (as : List Action)
    (rs : List (Except ClientError (Option Json))) : Prop :=
  as.count (.next i) ≤ (c.readings i as).length ∧
    ∃ n, c.readings i as <+: rs ++ List.replicate n (.ok none)

/-- What closing the connection `c` by the action `a` for the cause `e` means, then and in the
actions `as` that follow. -/
structure Shutdown (c : Connection) (a : Action) (e : ClientError) (as : List Action) : Prop where
  cause : Cause c a e
  /-- Who waits is told the cause, after the values that have arrived. -/
  told : ∀ i k, c.cursors[i]? = some k → k.registered = true → a.cursor? ≠ some i →
    ¬a.Ends c k.token →
      (c.after a).cursors[i]? = some { k with
        registered := false
        inbox := { k.inbox with fetching := false, serverDone := true, error := some e } } ∧
      (Keeps i as → Reads (c.after a) i as (k.inbox.buffer.map (.ok ∘ some) ++ [.error e]))
  /-- Who acts is told by the reply. -/
  actor : ∀ i k, c.cursors[i]? = some k → a = .next i ∨ a = .prime i →
    ((c.act a).1.error? = some e ∨ e = .connectionClosed ∧ k.exclusive = true) ∧
      (Keeps i as → Reads (c.after a) i as [])
  /-- Whose last answer has arrived keeps it and the values before it. -/
  finished : ∀ i k, c.cursors[i]? = some k → k.inbox.serverDone = true → a.cursor? ≠ some i →
    (c.after a).cursors[i]? = some k ∧
      (Keeps i as → Reads (c.after a) i as (remaining k.inbox))
  /-- Nothing that comes later changes the cursors of others. -/
  still : ∀ as₁ b as₂ i, as = as₁ ++ b :: as₂ → b.cursor? ≠ some i →
    ((c.after a).run (as₁ ++ [b])).cursors[i]? = ((c.after a).run as₁).cursors[i]?
  refuses : ∀ as₁, as₁ <+: as → Refuses ((c.after a).run as₁)

variable {c : Connection} {a : Action} {i : CursorId} {k : Cursor} {e : ClientError}

theorem refuses_of_closed (hc : c.closed = true) : Refuses c where
  query term options exclusive := by rw [query, if_pos hc]
  noreplyWait := by rw [noreplyWait, if_pos hc]
  continueQuery t := by rw [continueQuery, if_pos hc]
  stop t := by rw [stop, if_pos hc]
  close := by rw [close, shutDown, if_pos hc]
  closeAgain := by
    have hclosed : c.close.closed = true := close_closed c
    have hwriter : c.close.writeClosed = true := by
      unfold close closeWriter
      split
      · assumption
      · rfl
    have hsame : c.close.shutDown .connectionClosed = c.close := by rw [shutDown, if_pos hclosed]
    rw [close, hsame, closeWriter, if_pos hwriter]

/-- Once nobody is registered, an action concerns only the cursor of the one who acts. -/
theorem Orderly.getElem?_after (h : Orderly c) (hc : c.closed = true) (ha : a.cursor? ≠ some i) :
    (c.after a).cursors[i]? = c.cursors[i]? := by
  have hown : ¬a.Owns c i := by
    rintro (h' | ⟨f, k, -, hk, hr, -⟩)
    · exact ha h'
    · rw [h.closed hc k (List.mem_of_getElem? hk)] at hr
      cases hr
  rcases c.after_cases a with hs | ⟨l, c₁, hs⟩
  · cases hk : c.cursors[i]? with
    | none =>
      rw [List.getElem?_eq_none_iff] at hk ⊢
      rw [hs.length]
      exact hk
    | some k =>
      obtain ⟨k', hk', -, -, hb⟩ := hs.cursors i k hk
      have hr := h.closed hc k (List.mem_of_getElem? hk)
      rw [hk', (hb hown).eq_of_not_registered hr]
  · have hopen := hs.spares.closed hc
    rw [hs.closed] at hopen
    cases hopen

theorem results_length {h : List Event} (hv : ∀ v ∈ h, v.result?.isSome = true) :
    (results h).length = h.length := by
  induction h with
  | nil => rfl
  | cons v h ih =>
    obtain ⟨r, hr⟩ := Option.isSome_iff_exists.mp (hv v List.mem_cons_self)
    have ih := ih fun w hw => hv w (List.mem_cons_of_mem _ hw)
    have hcons : results (v :: h) = r :: results h := by simp [results, hr]
    rw [hcons, List.length_cons, List.length_cons, ih]

/-- Every call of `next` is an event. -/
theorem count_next_le (as : List Action) (hk : c.cursors[i]? = some k) (hs : k.Sound) :
    as.count (.next i) ≤ (c.history i as).length := by
  induction as generalizing c k with
  | nil => exact Nat.le_refl _
  | cons a as ih =>
    obtain ⟨k', hk', h⟩ := steps_after a hk hs
    have ih := ih hk' (h.sound hs)
    rw [history, List.length_append, List.count_cons]
    by_cases ha : a = .next i
    · subst ha
      have hone : (c.eventsAt (.next i) i).length = 1 := by
        simp [eventsAt, hk, hk', event?, Action.cursor?, ownEvent?]
      rw [hone]
      simp only [beq_self_eq_true, if_true]
      omega
    · have hzero : (if (a == .next i) = true then 1 else 0) = 0 := by simp [ha]
      rw [hzero]
      omega

/-- The owner of a settled cursor reads what is left, and never waits. -/
theorem reads_remaining (as : List Action) (hk : c.cursors[i]? = some k) (hset : k.Settled)
    (hkeep : Keeps i as) : Reads c i as (remaining k.inbox) := by
  have hsound : k.Sound := by
    intro hr
    rw [hset.1] at hr
    cases hr
  obtain ⟨k', -, hsteps⟩ := steps_run as hk hsound
  have hrel (v : Event) (hv : v ∈ c.history i as) : v.isRelease = false := by
    cases h : v.isRelease with
    | false => rfl
    | true =>
      rcases release_of_mem_history hv h with hmem | hmem
      · exact absurd rfl (hkeep _ hmem).1
      · exact absurd rfl (hkeep _ hmem).2
  obtain ⟨hpre, hsome⟩ := hset.steps hsteps hrel
  have hcount := count_next_le as hk hsound
  rw [← results_length hsome, results_history as hk hsound] at hcount
  rw [results_history as hk hsound] at hpre
  exact ⟨hcount, _, hpre⟩

theorem lose_of_registered (hs : k.Sound) (hr : k.registered = true) (e : ClientError) :
    k.lose e = { k with
      registered := false
      inbox := { k.inbox with fetching := false, serverDone := true, error := some e } } := by
  obtain ⟨hc, hd⟩ := Inbox.isRunning_iff.mp (hs hr).1
  simp [Cursor.lose, hr, Inbox.fail, hc, hd]

theorem Cause.frame?_eq_none (h : Cause c a e) : a.frame? = none := by
  cases h with
  | close | ended | failed => rfl
  | released ha => cases a <;> first | rfl | cases ha
  | unwritten hq => cases a <;> first | rfl | cases hq

/-- The end or an error that a call hands out is the last that its cursor has. -/
theorem spent_after (hk : c.cursors[i]? = some k) (he : Cause c a e)
    (ha : a = .next i ∨ a = .prime i) :
    ((c.act a).1.error? = some e ∨ e = .connectionClosed ∧ k.exclusive = true) ∧
      ∃ k', (c.after a).cursors[i]? = some k' ∧ k'.Spent := by
  rcases ha with rfl | rfl
  · obtain ⟨k', hk', hstep⟩ := step_next hk
    have hspent (hr : (c.next? i).1 = some (.ok none) ∨ ∃ e, (c.next? i).1 = some (.error e)) :
        ∃ k', (c.after (.next i)).cursors[i]? = some k' ∧ k'.Spent := by
      refine ⟨k', hk', (hstep.spent ?_).2⟩
      rcases hr with hr | ⟨e, hr⟩
      · rw [hr]
        exact Or.inl rfl
      · exact Or.inr ⟨e, by rw [Event.result?_ofRead, hr]⟩
    cases he with
    | released hleaves hk₁ hex =>
      obtain ⟨rfl, hr⟩ := hleaves
      obtain rfl := Option.some.inj (hk.symm.trans hk₁)
      exact ⟨Or.inr ⟨rfl, hex⟩, hspent hr⟩
    | unwritten hq hw htold =>
      have htold := htold.resolve_right (by rintro ⟨_, h⟩; cases h)
      refine ⟨Or.inl htold, hspent (Or.inr ?_)⟩
      rw [act_next] at htold
      rcases hr : (c.next? i).1 with _ | ⟨e' | v⟩ <;> rw [hr] at htold
      · cases htold
      · exact ⟨e', rfl⟩
      · cases htold
  · obtain ⟨k', hk', hsteps⟩ := steps_prime hk
    cases he with
    | released hleaves hk₁ hex =>
      obtain ⟨rfl, e, hr⟩ := hleaves
      obtain rfl := Option.some.inj (hk.symm.trans hk₁)
      have hevent : c.ownEvent? k (.prime i) = some (.failed e) := by simp only [ownEvent?, hr]
      rw [hevent] at hsteps
      obtain ⟨l, hl, rfl⟩ := hsteps
      exact ⟨Or.inr ⟨rfl, hex⟩, l, hk', (hl.spent (Or.inr ⟨e, rfl⟩)).2⟩
    | unwritten hq => cases hq

theorem Spent.reads (as : List Action) (hk : c.cursors[i]? = some k) (hspent : k.Spent)
    (hkeep : Keeps i as) : Reads c i as [] := by
  obtain ⟨hr, hclosed, hb, herr⟩ := hspent
  have hnil : remaining k.inbox = [] := by simp [remaining, hb, herr]
  rw [← hnil]
  exact reads_remaining as hk ⟨hr, Or.inr hclosed⟩ hkeep

/-- Whatever closes an open connection, all that waits is told why, and nothing follows. -/
theorem shutdown_of_closed (h : Orderly c) (ho : c.closed = false)
    (hc : (c.after a).closed = true) (as : List Action) : ∃ e, Shutdown c a e as := by
  obtain ⟨e, hcause, htold⟩ := told_after ho hc
  have hafter := h.after a
  refine ⟨e, {
    cause := hcause
    told := ?told
    actor := ?actor
    finished := ?finished
    still := ?still
    refuses := ?refuses }⟩
  case told =>
    intro i k hk hr ha hends
    have hs := h.sound i k hk
    have hown : ¬a.Owns c i := by
      rintro (h' | ⟨f, _, hf, _⟩)
      · exact ha h'
      · rw [hcause.frame?_eq_none] at hf
        cases hf
    have hlost : (c.after a).cursors[i]? = some (k.lose e) :=
      (htold i k hk hown).resolve_right fun h' => hends h'.1
    rw [lose_of_registered hs hr] at hlost
    refine ⟨hlost, fun hkeep => ?_⟩
    exact reads_remaining as hlost ⟨rfl, Or.inl rfl⟩ hkeep
  case actor =>
    intro i k hk ha
    obtain ⟨hreply, k', hk', hspent⟩ := spent_after hk hcause ha
    exact ⟨hreply, Spent.reads as hk' hspent⟩
  case finished =>
    intro i k hk hdone ha
    have hr : k.registered = false :=
      (h.sound i k hk).not_registered (by simp [Inbox.isRunning, hdone])
    have hown : ¬a.Owns c i := by
      rintro (h' | ⟨f, l, -, hl, hlr, -⟩)
      · exact ha h'
      · obtain rfl := Option.some.inj (hk.symm.trans hl)
        rw [hr] at hlr
        cases hlr
    have hsame : { k with registered := false } = k := by rw [← hr]
    have hkept : (c.after a).cursors[i]? = some k := by
      rcases htold i k hk hown with h' | ⟨-, h'⟩
      · rwa [lose_of_not_registered e hr] at h'
      · rwa [hsame] at h'
    exact ⟨hkept, reads_remaining as hkept ⟨hr, Or.inl hdone⟩⟩
  case still =>
    rintro as₁ b as₂ i - hb
    rw [run_append]
    exact (hafter.run as₁).getElem?_after (closed_run as₁ hc) hb
  case refuses =>
    intro as₁ _
    exact refuses_of_closed (closed_run as₁ hc)

/-- A run that ends closed has been open up to one action that closes it. -/
theorem exists_closing (as : List Action) (ho : c.closed = false) (hc : (c.run as).closed = true) :
    ∃ as₁ a as₂, as = as₁ ++ a :: as₂ ∧ (c.run as₁).closed = false ∧
      ((c.run as₁).after a).closed = true := by
  obtain ⟨as₁, a, as₂, has, hopen, hclosed⟩ :=
    exists_turn (P := fun c => c.closed = true) as (by rw [ho]; decide) hc
  exact ⟨as₁, a, as₂, has, Bool.eq_false_iff.mpr hopen, hclosed⟩

/-- A connection is closed if and only if there has been a cause. -/
theorem closed_iff_cause (s : Settings) (as : List Action) :
    ((start s).run as).closed = true ↔
      ∃ as₁ a as₂ e, as = as₁ ++ a :: as₂ ∧ Cause ((start s).run as₁) a e := by
  constructor
  · intro hc
    obtain ⟨as₁, a, as₂, has, ho, hclosed⟩ := exists_closing as rfl hc
    obtain ⟨e, hcause, -⟩ := told_after ho hclosed
    exact ⟨as₁, a, as₂, e, has, hcause⟩
  · rintro ⟨as₁, a, as₂, e, rfl, hcause⟩
    rw [run_append, run_cons]
    refine closed_run as₂ ?_
    cases ho : ((start s).run as₁).closed with
    | true => exact closed_after a ho
    | false => exact hcause.closed ho

theorem closed_take_iff {as as₁ as₂ : List Action} (has : as = as₁ ++ a :: as₂)
    (ho : (c.run as₁).closed = false) (hc : ((c.run as₁).after a).closed = true) (m : Nat) :
    (c.run (as.take m)).closed = true ↔ as₁.length < m :=
  run_take_iff (P := fun c => c.closed = true) (fun _ a h => closed_after a h) has
    (by rw [ho]; decide) hc m

/-- As long as a connection is open, only frames have been taken from its stream. -/
theorem frame_of_mem_reports {as : List Action} (ho : (c.run as).closed = false)
    {event : FrameEvent} (hevent : event ∈ reports as) : ∃ f, event = .frame f := by
  obtain ⟨b, hb, hbe⟩ := List.mem_filterMap.mp hevent
  obtain rfl : b = .report event := by
    cases b with
    | report _ => rw [Option.some.inj hbe]
    | _ => cases hbe
  obtain ⟨as₁, as₂, rfl⟩ := List.append_of_mem hb
  rw [run_append, run_cons] at ho
  have hopen : ((c.run as₁).handle event).closed = false := open_of_run ho
  cases event with
  | frame f => exact ⟨f, rfl⟩
  | failed e =>
    rw [handle, shutDown_closed] at hopen
    cases hopen
  | ended =>
    rw [handle, shutDown_closed] at hopen
    cases hopen

/-- If it is the stream that closes the connection, all its frames have been routed before. -/
theorem reports_before_closing {limit : FrameLimit} {n : Intake} {as₁ as₂ : List Action}
    {event : FrameEvent} (hn : n.Exact limit) (hlog : n.log = as₁ ++ .report event :: as₂)
    (ho : (c.run as₁).closed = false) (hc : ((c.run as₁).after (.report event)).closed = true) :
    ∃ frames rest tail, Parse limit n.read frames rest ∧ reports as₁ = frames.map .frame ∧
      Intake.Stop limit rest (event :: tail) := by
  obtain ⟨frames, rest, tail, hp, heq, hend⟩ := hn
  have hreports : reports n.log = reports as₁ ++ event :: reports as₂ := by
    rw [hlog]
    simp [reports, Action.event?]
  have hnot (f : Frame) : event ≠ .frame f := by
    rintro rfl
    change (c.run as₁).closed = true at hc
    rw [ho] at hc
    cases hc
  have hstop : Intake.Stop limit rest tail ∨ tail = [] := by
    rcases hend with ⟨-, hnil, -⟩ | ⟨-, hstop⟩
    · exact Or.inr hnil
    · exact Or.inl hstop
  have htail (f : Frame) : .frame f ∉ tail := by
    rcases hstop with hstop | rfl
    · exact hstop.not_frame f
    · exact List.not_mem_nil
  rw [hreports, List.append_assoc, List.cons_append] at heq
  obtain ⟨hframes, rfl⟩ := Intake.split_at_stop heq
    (fun x hx => frame_of_mem_reports ho hx) hnot htail
  exact ⟨frames, rest, _, hp, hframes, hstop.resolve_right (List.cons_ne_nil _ _)⟩

/-- However calls, incoming bytes and the two loops take turns: a connection is closed once, by the
first cause, if there is one; the frames that precede a cause in the stream have been routed; and
the shutdown is told to everyone who waits. -/
theorem closed_once_and_told (s : Settings) (ss : List Stimulus) :
    let n := (Intake.start s.frameLimit).run ss
    (((start s).run n.log).closed = true ↔
      ∃ as₁ a as₂ e, n.log = as₁ ++ a :: as₂ ∧ Cause ((start s).run as₁) a e) ∧
    (((start s).run n.log).closed = true → ∃ as₁ a as₂ e, n.log = as₁ ++ a :: as₂ ∧
      (∀ m, ((start s).run (n.log.take m)).closed = true ↔ as₁.length < m) ∧
      Shutdown ((start s).run as₁) a e as₂ ∧
      ∀ event, a = .report event → ∃ frames rest tail, Parse s.frameLimit n.read frames rest ∧
        reports as₁ = frames.map .frame ∧ Intake.Stop s.frameLimit rest (event :: tail)) := by
  intro n
  refine ⟨closed_iff_cause s n.log, fun hclosed => ?_⟩
  obtain ⟨as₁, a, as₂, hlog, ho, hc⟩ := exists_closing n.log rfl hclosed
  obtain ⟨e, hshut⟩ := shutdown_of_closed ((orderly_start s).run as₁) ho hc as₂
  refine ⟨as₁, a, as₂, e, hlog, closed_take_iff hlog ho hc, hshut, ?_⟩
  rintro event rfl
  exact reports_before_closing ((Intake.exact_start s.frameLimit).run ss) hlog ho hc

/-- The stream ends inside a frame behind a batch: the batch is read, then the error, then the
end. -/
theorem closed_once_and_told_truncated :
    let batch : Frame := ⟨1, Bytes.ofString "\x7b\"t\":3,\"r\":[\"a\"]\x7d"⟩
    let ss : List Stimulus := [.act (.query .anything default false) rfl,
      .chunk (batch.bytes ++ [7]), .finish, .take, .take, .act (.next 0) rfl, .act (.next 0) rfl,
      .act (.next 0) rfl]
    let n := (Intake.start (default : Settings).frameLimit).run ss
    let before : List Action := [.query .anything default false, .report (.frame batch)]
    let after : List Action := [.next 0, .next 0, .next 0]
    n.log = before ++ .report (.failed (.truncated 1)) :: after ∧
      (∃ as₁ a as₂ e, n.log = as₁ ++ a :: as₂ ∧ Shutdown ((start default).run as₁) a e as₂) ∧
      (((start default).run before).after (.report (.failed (.truncated 1)))).readings 0 after =
        [.ok (some (.str "a")), .error .connectionClosed, .ok none] := by
  intro batch ss n before after
  have hlog : n.log = before ++ .report (.failed (.truncated 1)) :: after := by decide +kernel
  obtain ⟨hcause, htold⟩ := closed_once_and_told default ss
  have hclosed : ((start default).run n.log).closed = true :=
    hcause.mpr ⟨before, _, after, _, hlog, .failed _⟩
  obtain ⟨as₁, a, as₂, e, has, -, hshut, -⟩ := htold hclosed
  exact ⟨hlog, ⟨as₁, a, as₂, e, has, hshut⟩, rfl⟩

end Connection
end Reql
