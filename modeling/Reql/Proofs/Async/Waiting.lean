import Reql.Proofs.Async.Handing
import Reql.Proofs.Cursor.History

/-! A query of which the server has sent nothing but batches waits for more. -/
namespace Reql

namespace Inbox

/-- More will arrive, and nobody has given it up. -/
structure GoesOn (s : Inbox) : Prop where
  closed : s.closed = false
  serverDone : s.serverDone = false
  error : s.error = none

variable {s : Inbox}

theorem GoesOn.isRunning (h : s.GoesOn) : s.isRunning = true :=
  isRunning_iff.mpr ⟨h.closed, h.serverDone⟩

theorem GoesOn.step (h : s.GoesOn) :
    ((∃ v, s.step.1 = .value v) ∨ s.step.1 = .wait ∨ s.step.1 = .fetch) ∧ s.step.2.GoesOn := by
  obtain ⟨buffer, serverDone, fetching, closed, isAtom, error, profile⟩ := s
  obtain ⟨rfl, rfl, rfl⟩ := h
  cases buffer with
  | cons v rest => exact ⟨.inl ⟨v, rfl⟩, rfl, rfl, rfl⟩
  | nil =>
    cases fetching with
    | true => exact ⟨.inr (.inl rfl), rfl, rfl, rfl⟩
    | false => exact ⟨.inr (.inr rfl), rfl, rfl, rfl⟩

theorem GoesOn.prime (h : s.GoesOn) : (s.prime.1 = .ready ∨ s.prime.1 = .wait) ∧ s.prime.2 = s := by
  obtain ⟨buffer, serverDone, fetching, closed, isAtom, error, profile⟩ := s
  obtain ⟨rfl, rfl, rfl⟩ := h
  cases buffer with
  | cons v rest => exact ⟨.inl rfl, rfl⟩
  | nil =>
    cases fetching with
    | true => exact ⟨.inr rfl, rfl⟩
    | false => exact ⟨.inl rfl, rfl⟩

theorem GoesOn.deliver (h : s.GoesOn) {r : Response} (hr : r.body.isBatch = true) :
    (s.deliver r).GoesOn := by
  obtain ⟨hclosed, hdone, herror⟩ := h
  cases hbody : r.body with
  | batch values =>
    unfold Inbox.deliver
    rw [if_neg (by rw [hclosed]; decide), hbody]
    exact ⟨hclosed, by simp [hdone, ResponseBody.isBatch], by simp [herror, errorOf]⟩
  | _ =>
    rw [hbody] at hr
    cases hr

end Inbox

/-- The query of a cursor waits for answers and has met no error. -/
structure Cursor.Waits (t : Token) (k : Cursor) : Prop where
  token : k.token = t
  registered : k.registered = true
  inbox : k.inbox.GoesOn

namespace Async

namespace Point

/-- Whether a section lets the cursor at `i`, with the token `t`, wait on. There are `n` cursors. -/
def spares (t : Token) (i : CursorId) (n : Nat) : Point → Prop
  | deregister u => u ≠ t
  | wrote (some _) (.query u _) => u ≠ t
  | wrote (some _) (.fetch id) => id ≠ i
  | check u (.fetch id) | lookUp u (.fetch id) => id = i → u = t ∧ i < n
  | write q (.fetch id) => id = i → q = .bare t .continue
  | await m (.fetch id) | feed m (.fetch id) => id = i → m.payload.length = 3
  | drain _ | fail .. => False
  | route f => f.token = t → f.isBatch = true
  | deliver id r => id = i → r.body.isBatch = true
  | reject id _ => id ≠ i
  | _ => True

variable {runtime : Bool} {pick : Nat} {s : Store} {p q : Point} {t : Token} {i : CursorId}
  {n : Nat}

theorem spares.mono {m : Nat} (h : p.spares t i n) (hn : n ≤ m) : p.spares t i m := by
  have hthere {u : Token} {id : CursorId} (h : id = i → u = t ∧ i < n) : id = i → u = t ∧ i < m :=
    fun hi => ⟨(h hi).1, Nat.lt_of_lt_of_le (h hi).2 hn⟩
  cases p with
  | check u q | lookUp u q =>
    cases q with
    | fetch id => exact hthere h
    | _ => exact trivial
  | write _ q | await _ q | feed _ q => cases q <;> exact h
  | wrote error q => cases q <;> cases error <;> exact h
  | _ => exact h

/-- What lets every cursor but the one with the token wait on. -/
theorem spares_finish {k : Cursor} (hk : k.token ≠ t) (r : Connection.Reply) :
    ∀ q ∈ finish k ++ [reply r], q.spares t i n := by
  unfold finish
  cases k.exclusive <;> simp [spares, hk]

theorem spares_onCursor {id : CursorId} (f : Cursor → Cursor) {g : Cursor → List Point}
    (hg : ∀ k, s.conn.cursors[id]? = some k → ∀ q ∈ g k, q.spares t i n) :
    ∀ q ∈ (s.onCursor id f g).next ++ (s.onCursor id f g).spawned, q.spares t i n := by
  rw [Store.onCursor_spawned, List.append_nil]
  rcases s.onCursor_cases id f g with h | ⟨k, hk, h⟩ <;> rw [h]
  · simp
  · exact hg k hk

/-- The connection stays open in a section, and none comes next that closes it. -/
def KeepsOpen (u : Turn) : Prop :=
  u.store.conn.closed = false ∧ ∀ q ∈ u.next, q.closes = false

theorem not_keepsOpen_afterFault {e : FramingError} {reason : String} (he : e = .io reason)
    (q : Purpose) (s : Store) : ¬KeepsOpen (s.pass (afterFault e q)) := by
  obtain ⟨p, hp, hcloses⟩ := closes_afterFault he q
  intro h
  rw [h.2 p hp] at hcloses
  cases hcloses

variable (hwaits : ∀ k, s.conn.cursors[i]? = some k → k.Waits t)
  (hunique : ∀ l k, s.conn.cursors[l]? = some k → k.token = t → l = i)

include hwaits hunique in
theorem spares_owner {id : CursorId} (hid : p.owner? = some id) (hparts : p ≠ close i ∧ p ≠ leave i)
    (hn : n = s.conn.cursors.length) :
    ∀ q ∈ (p.exec runtime pick s).next ++ (p.exec runtime pick s).spawned, q.spares t i n := by
  have hother {k : Cursor} (hk : s.conn.cursors[id]? = some k) (hne : id ≠ i) : k.token ≠ t :=
    fun ht => hne (hunique id k hk ht)
  cases p with
  | read id' =>
    obtain rfl := Option.some.inj hid
    refine spares_onCursor _ fun k hk => ?_
    by_cases hi : id' = i
    · subst hi
      have hw := hwaits k hk
      have hlt : id' < n := hn ▸ (List.getElem?_eq_some_iff.mp hk).choose
      unfold afterRead
      rcases hw.inbox.step.1 with ⟨v, h⟩ | h | h <;> rw [h]
      · simp [spares]
      · simp [spares]
      · simpa [spares] using ⟨hw.token, hlt⟩
    · rcases afterRead_cases id' k with ⟨r, h⟩ | ⟨r, h⟩ | h <;> rw [h]
      · simp [spares]
      · exact spares_finish (hother hk hi) r
      · simp [spares, hi]
  | prime id' =>
    obtain rfl := Option.some.inj hid
    refine spares_onCursor _ fun k hk => ?_
    by_cases hi : id' = i
    · subst hi
      unfold afterPrime
      rcases (hwaits k hk).inbox.prime.1 with h | h <;> rw [h] <;> simp [spares]
    · rcases afterPrime_cases k with ⟨r, h⟩ | ⟨r, h⟩ <;> rw [h]
      · simp [spares]
      · exact spares_finish (hother hk hi) r
  | close id' =>
    obtain rfl := Option.some.inj hid
    refine spares_onCursor _ fun k hk => ?_
    have hk := hother hk fun hi => hparts.1 (by rw [hi])
    unfold afterClose
    cases k.inbox.closed <;> cases k.exclusive <;> cases k.inbox.serverDone <;> simp [spares, hk]
  | leave id' =>
    obtain rfl := Option.some.inj hid
    refine spares_onCursor _ fun k hk => ?_
    have hk := hother hk fun hi => hparts.2 (by rw [hi])
    unfold afterLeave
    cases k.inbox.isRunning <;> cases k.exclusive <;> simp [spares, hk]
  | letGo id' => exact spares_onCursor _ fun k hk => by simp [spares]
  | _ => cases hid

/-- What becomes of a query that has only been sent batches: it waits on, or its request has been
refused. -/
def Lasts (t : Token) (i : CursorId) (n : Nat) (p : Point) (ps : List Point) : Prop :=
  (∀ q ∈ ps, q.spares t i n) ∨
    ((∃ id, p.query? = some (t, id)) ∧ 0 < p.hopes t ∧ (∀ q, p ≠ wrote none q)) ∧
      ∀ q ∈ ps, q.hopes t = 0

theorem lasts_wrote {q : Purpose} {e : ClientError} (hfetch : q = .fetch i → False)
    (hquery : p.query? = q.query?) (hhopes : p.hopes t = q.hopes t) (hp : ∀ q, p ≠ wrote none q) :
    Lasts t i n p [wrote (some e) q] := by
  cases q with
  | query u id =>
    by_cases hu : u = t
    · subst hu
      exact .inr ⟨⟨⟨id, hquery⟩, by rw [hhopes]; simp [Purpose.hopes], hp⟩, by simp [hopes]⟩
    · exact .inl (by simp [spares, hu])
  | fetch id =>
    have hid : id ≠ i := fun hi => hfetch (by rw [hi])
    exact .inl (by simp [spares, hid])
  | _ => exact .inl (by simp [spares])

theorem lasts_feed {m : Message} {q : Purpose} (hp : (feed m q).spares t i n)
    (hopen : KeepsOpen ((feed m q).exec runtime pick s))
    (hlimit : 3 ≤ s.conn.writer.limit.bytes) :
    Lasts t i n (feed m q) (((feed m q).exec runtime pick s).next ++
      ((feed m q).exec runtime pick s).spawned) := by
  simp only [exec] at hopen ⊢
  have hroomlimit := s.conn.writer.makeRoom_limit
  cases hroom : s.conn.writer.makeRoom with
  | mk e w =>
    rw [hroom] at hroomlimit hopen
    cases e with
    | some e =>
      obtain ⟨reason, he⟩ := FrameWriter.makeRoom_error (congrArg Prod.fst hroom)
      exact absurd hopen (not_keepsOpen_afterFault he q _)
    | none =>
      dsimp only at hopen ⊢
      rcases m.frame.encode_eq w.limit w.buffer with ⟨e, hrefused, he⟩ | ⟨-, bytes, he⟩ <;>
        rw [he] at hopen ⊢
      · unfold Frame.refusal? at hrefused
        split at hrefused
        next hlt =>
          obtain rfl := Option.some.inj hrefused
          refine lasts_wrote ?_ rfl rfl fun _ h => by cases h
          rintro rfl
          have hthree : m.payload.length = 3 := hp rfl
          change w.limit.bytes < m.payload.length at hlt
          change w.limit = s.conn.writer.limit at hroomlimit
          rw [hroomlimit] at hlt
          omega
        next => cases hrefused
      · exact .inl (by simp [spares])

theorem lasts_flush {m : Message} {q : Purpose}
    (hopen : KeepsOpen ((flush m q).exec runtime pick s)) :
    Lasts t i n (flush m q) (((flush m q).exec runtime pick s).next ++
      ((flush m q).exec runtime pick s).spawned) := by
  simp only [exec] at hopen ⊢
  cases hflush : s.conn.writer.flush with
  | mk e w =>
    rw [hflush] at hopen
    cases e with
    | some e =>
      obtain ⟨reason, he⟩ := FrameWriter.flush_error (congrArg Prod.fst hflush)
      exact absurd hopen (not_keepsOpen_afterFault he q _)
    | none => exact .inl (by simp [spares])

theorem lasts_write {m : Query} {q : Purpose} (hp : (write m q).spares t i n) :
    Lasts t i n (write m q) (((write m q).exec runtime pick s).next ++
      ((write m q).exec runtime pick s).spawned) := by
  simp only [exec]
  split
  next payload hpayload =>
    refine .inl ?_
    cases q with
    | fetch id =>
      have hthree : id = i → payload.length = 3 := by
        intro hi
        rw [hp hi, Query.payload_continue] at hpayload
        obtain rfl := Except.ok.inj hpayload
        decide +kernel
      simpa [spares] using hthree
    | _ => simp [spares]
  next e he =>
    refine lasts_wrote ?_ rfl rfl fun _ h => by cases h
    rintro rfl
    rw [hp rfl, Query.payload_continue] at he
    cases he

include hwaits in
theorem lasts_lookUp {u : Token} {q : Purpose} (hp : (lookUp u q).spares t i n)
    (hn : n = s.conn.cursors.length) :
    Lasts t i n (lookUp u q) (((lookUp u q).exec runtime pick s).next ++
      ((lookUp u q).exec runtime pick s).spawned) := by
  simp only [exec]
  split
  next =>
    refine .inl ?_
    cases q with
    | fetch id =>
      have hu : id = i → u = t := fun hi => (hp hi).1
      simpa [spares, Query.bare] using hu
    | _ => simp [spares]
  next hnot =>
    refine lasts_wrote ?_ rfl rfl fun _ h => by cases h
    rintro rfl
    obtain ⟨rfl, hlt⟩ := hp rfl
    refine hnot (List.any_eq_true.mpr ?_)
    obtain ⟨k, hk⟩ : ∃ k, s.conn.cursors[i]? = some k :=
      ⟨_, List.getElem?_eq_getElem (hn ▸ hlt)⟩
    have hw := hwaits k hk
    exact ⟨k, List.mem_of_getElem? hk, by simp [hw.registered, hw.token]⟩

include hwaits in
/-- A frame for the cursor is a batch, and any other one is brought to somebody else. -/
theorem spares_route {f : Frame} (hp : (route f).spares t i n) :
    ∀ q ∈ ((route f).exec runtime pick s).next ++ ((route f).exec runtime pick s).spawned,
      q.spares t i n := by
  simp only [exec]
  split
  next => simp
  next id hid =>
    obtain ⟨hlt, hfound, -⟩ := List.findIdx?_eq_some_iff_getElem.mp hid
    obtain ⟨-, htoken⟩ := Bool.and_eq_true_iff.mp hfound
    have hk := List.getElem?_eq_getElem hlt
    have hbatch (hi : id = i) : f.isBatch = true := by
      subst hi
      exact hp ((beq_iff_eq.mp htoken).symm.trans (hwaits _ hk).token)
    have hother (hid : f.isBatch = false) : f.token ≠ t ∧ id ≠ i := by
      refine ⟨fun ht => ?_, fun hi => ?_⟩
      · rw [hp ht] at hid
        cases hid
      · rw [hbatch hi] at hid
        cases hid
    unfold Frame.isBatch at hbatch hother
    split
    next r hr =>
      rw [hr] at hbatch hother
      split
      next => simpa [spares] using hbatch
      next hend =>
        simpa [spares] using ⟨(hother (Bool.eq_false_iff.mpr hend)).1, hbatch⟩
    next e he =>
      rw [he] at hother
      simpa [spares] using hother rfl

include hwaits hunique in
theorem exec_spares (hp : p.spares t i n) (hn : n = s.conn.cursors.length)
    (hopen : KeepsOpen (p.exec runtime pick s)) (hlimit : 3 ≤ s.conn.writer.limit.bytes)
    (hparts : p ≠ close i ∧ p ≠ leave i) :
    Lasts t i n p ((p.exec runtime pick s).next ++ (p.exec runtime pick s).spawned) := by
  cases p with
  | read | prime | close | leave | letGo =>
    exact .inl (spares_owner hwaits hunique rfl hparts hn)
  | deliver | reject => exact .inl (spares_onCursor _ fun k hk => by simp)
  | feed m q => exact lasts_feed hp hopen hlimit
  | flush m q => exact lasts_flush hopen
  | write q p => exact lasts_write hp
  | lookUp u q => exact lasts_lookUp hwaits hp hn
  | route f => exact .inl (spares_route hwaits hp)
  | wrote error q =>
    cases q <;> cases error
    case query.none => exact .inl (spares_onCursor _ fun k hk => by simp)
    case query.some u id e => exact .inl (by simpa [exec, spares] using hp)
    case fetch.some id e =>
      refine .inl (spares_onCursor _ fun k hk => spares_finish (fun ht => hp ?_) _)
      exact hunique id k hk ht
    all_goals exact .inl (by simp [exec, spares])
  | check u q =>
    have hopen' := hopen.1
    simp only [exec, Store.pass_store] at hopen' ⊢
    rw [if_neg (by rw [hopen']; decide)]
    refine .inl ?_
    cases q with
    | fetch id => simpa [spares] using hp
    | _ => simp [spares]
  | recheck u id r =>
    have hopen' := hopen.1
    simp only [exec, Store.pass_store] at hopen' ⊢
    rw [if_neg (by rw [hopen']; decide)]
    exact .inl (by simp [spares])
  | shutDown cause closing =>
    exact absurd hopen.1 (by rw [closed_of_closes (p := shutDown cause closing) rfl]; decide)
  | drain | fail => exact hp.elim
  | await m q =>
    refine .inl ?_
    cases q with
    | fetch id => simpa [exec, spares] using hp
    | _ => simp [exec, spares]
  | _ =>
    refine .inl ?_
    simp only [exec]
    repeat' split
    all_goals simp [spares]

theorem hopes_of_isIncoming (h : p.isIncoming = true) : p.hopes t = 0 := by
  cases p <;> first | rfl | cases h

theorem quiet_of_isIncoming (h : p.isIncoming = true) :
    ∀ q ∈ (p.exec runtime pick s).next, q.closes = false := by
  cases p with
  | deliver | reject =>
    exact onCursor_next (P := fun ps => ∀ q ∈ ps, q.closes = false) _ (by simp) fun _ => by simp
  | shutDown cause closing =>
    obtain rfl : closing = .leave := by simpa [isIncoming] using h
    simp only [exec]
    split <;> simp [closes]
  | route f =>
    simp only [exec]
    repeat' split
    all_goals simp [closes]
  | fail cause ids =>
    simp only [exec]
    split <;> simp [closes]
  | deregister | drain => simp [exec, closes]
  | _ => cases h

end Point

/-- What lets a cursor wait on leaves it waiting. -/
theorem Touch.waits {i : CursorId} {k k' : Cursor} {p : Point} {t : Token} {n : Nat}
    (ht : Touch i k p k') (hk : k.Waits t) (hp : p.spares t i n)
    (hparts : p ≠ .close i ∧ p ≠ .leave i) (hregister : ∀ r, p ≠ .register t r) : k'.Waits t := by
  obtain ⟨htoken, hregistered, hinbox⟩ := hk
  cases ht with
  | none => exact ⟨htoken, hregistered, hinbox⟩
  | deregister u hu => exact absurd (hu.symm.trans htoken) hp
  | displace u r hu => exact absurd (by rw [← hu, htoken]) (hregister r)
  | drain | fail => exact hp.elim
  | read => exact ⟨htoken, hregistered, hinbox.step.2⟩
  | prime => exact ⟨htoken, hregistered, hinbox.prime.2.symm ▸ hinbox⟩
  | close => exact absurd rfl hparts.1
  | leave => exact absurd rfl hparts.2
  | letGo | handOver => exact ⟨htoken, hregistered, hinbox⟩
  | abandon | reject => exact absurd rfl hp
  | deliver r => exact ⟨htoken, hregistered, hinbox.deliver (hp rfl)⟩

namespace State

variable {s : State} {a : Action} {j : TaskId} {τ : Task} {p : Point} {rest : List Point}
  {t : Token} {i : CursorId} {n : Nat}

/-- The query of a cursor waits, and nothing is under way that concerns it otherwise. -/
structure Waiting (t : Token) (i : CursorId) (s : State) : Prop where
  cursor : ∀ k, s.conn.cursors[i]? = some k → k.Waits t
  tasks : Each (·.spares t i s.conn.cursors.length) s
  handler : ∀ p ∈ s.handler, p.spares t i s.conn.cursors.length

/-- A query has not been written, and never will be. -/
structure Dead (t : Token) (i : CursorId) (s : State) : Prop where
  cursor : ∃ k, s.conn.cursors[i]? = some k ∧ k.token = t ∧ k.held = false
  hopes : s.hopes t = 0
  owner : Each (fun p => p.owner? ≠ some i) s

/-- The owner of a cursor gives it up, by closing or by dropping it. -/
def Parts (s : State) (i : CursorId) (a : Action) : Prop :=
  s.section? a = some (.close i) ∨ s.section? a = some (.leave i)

theorem Dead.after (h : Dead t i s) (hs : Proper n s) (a : Action) : Dead t i (s.after a) := by
  obtain ⟨⟨k, hk, htoken, hheld⟩, hhopes, howner⟩ := h
  have hnamed : 0 < s.named t := htoken ▸ named_of_cursor hk
  have hhopes' : (s.after a).hopes t = 0 :=
    Nat.eq_zero_of_le_zero (hhopes ▸ hs.few.hopes_after_le hs.bound a hnamed)
  obtain ⟨k', hk', htouch⟩ := cursor_after hk a
  refine ⟨⟨k', hk', ?_, Bool.eq_false_iff.mpr fun hheld' => ?_⟩, hhopes', ?_⟩
  · rcases htouch with rfl | ⟨p, -, ht⟩
    · exact htoken
    · exact ht.token_eq.trans htoken
  · rcases htouch with rfl | ⟨p, hp, ht⟩
    · rw [hheld] at hheld'
      cases hheld'
    · rcases ht.held_of hheld' with hheld' | ⟨u, rfl⟩
      · rw [hheld] at hheld'
        cases hheld'
      · obtain ⟨j, pick, τ, rest, -, hnext⟩ := step_of_section? hs.regular hp rfl
        obtain ⟨l, hl, hu⟩ := hs.handed.query.of_next? hnext (u, i) rfl
        obtain rfl := Option.some.inj (hk.symm.trans hl)
        obtain rfl : u = k.token := hu.symm
        obtain ⟨hτ, htodo⟩ := mem_of_next? hnext
        have hle : 1 ≤ s.hopes t := by
          refine Nat.le_trans (Nat.le_of_eq ?_) (le_total (w := fun _ => Point.hopes t) hτ
            (htodo ▸ List.mem_cons_self))
          simp [Point.hopes, Purpose.hopes, htoken]
        rw [hhopes] at hle
        exact absurd hle (Nat.not_succ_le_zero 0)
  · refine howner.after a (fun p hp => hp) (fun call runtime _ hadmits q hq hi => ?_)
      fun j pick τ p rest _ hnext q hq hi => howner.of_next? hnext (Point.exec_owner? q hq hi)
    obtain ⟨l, hl, hl'⟩ := held_of_admits hadmits (owner?_opening q hq hi)
    obtain rfl := Option.some.inj (hk.symm.trans hl)
    rw [hheld] at hl'
    cases hl'

/-- What is assumed of an action in the course of a query: its cursor is registered when it is
added, its owner does not give it up, and the server sends nothing but batches. -/
structure Sustains (t : Token) (i : CursorId) (s : State) (a : Action) : Prop where
  added : ∀ k, (s.after a).conn.cursors[i]? = some k → s.conn.cursors[i]? = none →
    k.token = t ∧ k.registered = true
  unique : ∀ l k, s.conn.cursors[l]? = some k → k.token = t → l = i
  kept : ¬Parts s i a
  batch : ∀ f runtime, a = .begin (.report (.frame f)) runtime → f.token = t → f.isBatch = true

/-- The connection is about to be closed, or the query has not been written, or it waits. -/
def Pending (t : Token) (i : CursorId) (s : State) : Prop :=
  Doomed s ∨ Dead t i s ∨ Waiting t i s

theorem spares_opening {m : Nat} {call : Connection.Action} :
    ∀ q ∈ opening call, q.spares t i m := by
  cases call <;> simp [opening, Point.spares]

theorem spares_incoming {m : Nat} {event : FrameEvent}
    (h : ∀ f, event = .frame f → f.token = t → f.isBatch = true) :
    (incoming event).spares t i m := by
  cases event with
  | frame f => exact h f rfl
  | _ => exact trivial

/-- No other query takes the token of a cursor. -/
theorem Proper.not_register (h : Proper n s) {k : Cursor} (hk : s.conn.cursors[i]? = some k)
    (hp : s.section? a = some p) (r : Request) : p ≠ .register k.token r := by
  rintro rfl
  obtain ⟨j, pick, τ, rest, -, hnext⟩ := step_of_section? h.regular hp rfl
  obtain ⟨hτ, htodo⟩ := mem_of_next? hnext
  obtain ⟨m, -, hm⟩ := h.few
  have hle := hm.named_le k.token
  have hcount : 0 < (s.conn.cursors.map (·.token)).count k.token :=
    List.count_pos_iff.mpr (List.mem_map_of_mem (List.mem_of_getElem? hk))
  have hnames := le_total (w := fun _ => Point.names k.token) hτ (htodo ▸ List.mem_cons_self)
  simp only [Point.names, beq_self_eq_true, Bool.toNat_true] at hnames
  unfold named at hle
  omega

theorem Waiting.cursor_after (h : Waiting t i s) (hs : Proper n s) (ha : Sustains t i s a)
    (hp : ∀ p, s.section? a = some p → p.spares t i s.conn.cursors.length) :
    ∀ k, (s.after a).conn.cursors[i]? = some k → k.Waits t := by
  intro k hk
  rcases cursor_of_after hk with ⟨l, hl, rfl | ⟨p, hsection, ht⟩⟩ | ⟨hi, p, hsection, hadded⟩
  · exact h.cursor _ hl
  · have hl' := h.cursor l hl
    refine ht.waits hl' (hp p hsection) ⟨?_, ?_⟩ fun r => hl'.token ▸ hs.not_register hl hsection r
    · rintro rfl
      exact ha.kept (.inl hsection)
    · rintro rfl
      exact ha.kept (.inr hsection)
  · obtain ⟨htoken, hregistered⟩ :=
      ha.added k hk (by rw [hi]; exact List.getElem?_eq_none (Nat.le_refl _))
    cases p with
    | register u r =>
      obtain rfl := Option.some.inj hadded
      exact ⟨htoken, rfl, rfl, rfl, rfl⟩
    | wrote error q =>
      cases error <;> cases q <;> cases hadded
      cases hregistered
    | _ => cases hadded

/-- Where the request of a query has been refused, nobody will get its cursor. -/
theorem dead_of_refused (hs : Proper n s) (pick : Nat) (hnext : s.next? j = some (τ, p, rest))
    (hunique : ∀ l k, s.conn.cursors[l]? = some k → k.token = t → l = i)
    (hquery : ∃ id, p.query? = some (t, id)) (hhopes : 0 < p.hopes t)
    (hwrote : ∀ q, p ≠ .wrote none q)
    (hzero : ∀ q ∈ (p.exec τ.runtime pick s.store).next ++ (p.exec τ.runtime pick s.store).spawned,
      q.hopes t = 0) : Dead t i (s.after (.step j pick)) := by
  obtain ⟨id, hid⟩ := hquery
  obtain ⟨k, hk, htoken⟩ := hs.handed.query.of_next? hnext _ hid
  obtain rfl := hunique id k hk htoken
  obtain rfl : k.token = t := htoken
  obtain ⟨hτ, htodo⟩ := mem_of_next? hnext
  have hpos : 0 < s.hopes k.token := by
    refine Nat.lt_of_lt_of_le hhopes ?_
    exact le_total (w := fun _ => Point.hopes k.token) hτ (htodo ▸ List.mem_cons_self)
  have hheld : k.held = false := by
    refine Bool.eq_false_iff.mpr fun hheld => ?_
    rw [hs.handed.held id k hk hheld] at hpos
    exact Nat.lt_irrefl 0 hpos
  have howner := hs.handed.owner id k hk hpos
  have hafter : s.after (.step j pick) =
      s.advance j τ rest (p.exec τ.runtime pick s.store) := by
    rw [State.after, step_of_next? hnext]
  refine ⟨?_, ?_, ?_⟩
  · obtain ⟨k', hk', rfl | ⟨p', hp', ht⟩⟩ := State.cursor_after hk (.step j pick)
    · exact ⟨_, hk', rfl, hheld⟩
    · refine ⟨k', hk', ht.token_eq, Bool.eq_false_iff.mpr fun hheld' => ?_⟩
      rw [section?, hnext] at hp'
      obtain rfl := Option.some.inj hp'
      rcases ht.held_of hheld' with hheld' | ⟨u, hu⟩
      · rw [hheld] at hheld'
        cases hheld'
      · exact hwrote _ hu
  · have htotal := total_advance (t := p.exec τ.runtime pick s.store)
      (fun _ => Point.hopes k.token) hnext
    have hle := hs.handed.hopes_le k.token
    have hsum (ps : List Point) (h : ∀ q ∈ ps, q.hopes k.token = 0) :
        (ps.map (Point.hopes k.token)).sum = 0 := List.sum_eq_zero fun m hm => by
      obtain ⟨q, hq, rfl⟩ := List.mem_map.mp hm
      exact h q hq
    rw [hsum _ fun q hq => hzero q (List.mem_append_left _ hq),
      hsum _ fun q hq => hzero q (List.mem_append_right _ hq)] at htotal
    rw [hafter]
    unfold hopes at hle ⊢
    omega
  · rw [hafter]
    exact howner.advance (fun p hp => hp) hnext
      (fun q hq hi => howner.of_next? hnext (Point.exec_owner? q (List.mem_append_left _ hq) hi))
      fun q hq hi => howner.of_next? hnext (Point.exec_owner? q (List.mem_append_right _ hq) hi)

/-- A query waits on where the section that is carried out lets it, and those left to do do. -/
theorem Waiting.kept (h : Waiting t i s) (hs : Proper n s) (ha : Sustains t i s a)
    (hsection : ∀ p, s.section? a = some p → p.spares t i s.conn.cursors.length)
    (htasks : Each (·.spares t i s.conn.cursors.length) (s.after a))
    (hhandler : ∀ p ∈ (s.after a).handler, p.spares t i s.conn.cursors.length) :
    Waiting t i (s.after a) :=
  ⟨h.cursor_after hs ha hsection,
    fun τ hτ p hp => (htasks τ hτ p hp).mono (length_le_after s a),
    fun p hp => (hhandler p hp).mono (length_le_after s a)⟩

theorem Sustains.not_parts (ha : Sustains t i s a) (hp : s.section? a = some p) :
    p ≠ .close i ∧ p ≠ .leave i :=
  ⟨fun hi => ha.kept (.inl (hi ▸ hp)), fun hi => ha.kept (.inr (hi ▸ hp))⟩

theorem Waiting.begin {call : Connection.Action} {runtime : Bool} (h : Waiting t i s)
    (hs : Proper n s) (ha : Sustains t i s (.begin call runtime)) :
    Waiting t i (s.after (.begin call runtime)) := by
  refine h.kept hs ha (fun p hp => by cases hp) ?_ fun p hp => ?_
  · exact h.tasks.after _ (fun _ hp => hp) (fun _ _ _ _ q hq => spares_opening q hq)
      fun _ _ _ _ _ hstep => (by cases hstep)
  · rcases s.begin_handler runtime call with hsame | ⟨event, rfl, hnew⟩
    · rw [State.after, hsame] at hp
      exact h.handler p hp
    · rw [State.after, hnew] at hp
      rcases List.mem_append.mp hp with hp | hp
      · exact h.handler p hp
      · rw [List.mem_singleton.mp hp]
        exact spares_incoming fun f hf => ha.batch f runtime (by rw [hf])

theorem Waiting.step {pick : Nat} (h : Waiting t i s) (hs : Proper n s)
    (ha : Sustains t i s (.step j pick)) (hlimit : 3 ≤ s.conn.writer.limit.bytes) :
    Pending t i (s.after (.step j pick)) := by
  cases hnext : s.next? j with
  | none =>
    rw [State.after, State.step, hnext]
    exact .inr (.inr h)
  | some x =>
    obtain ⟨τ, p, rest⟩ := x
    have hp : s.section? (.step j pick) = some p := by rw [section?, hnext]; rfl
    have hspares := h.tasks.of_next? hnext
    have hafter : s.after (.step j pick) =
        s.advance j τ rest (p.exec τ.runtime pick s.store) := by
      rw [State.after, step_of_next? hnext]
    by_cases hopen : Point.KeepsOpen (p.exec τ.runtime pick s.store)
    · rcases Point.exec_spares h.cursor ha.unique hspares rfl hopen hlimit (ha.not_parts hp) with
        hq | ⟨⟨hquery, hhopes, hwrote⟩, hzero⟩
      · refine .inr (.inr (h.kept hs ha (fun p' hp' => ?_) ?_ ?_))
        · rw [hp] at hp'
          obtain rfl := Option.some.inj hp'
          exact hspares
        · rw [hafter]
          exact h.tasks.advance (fun _ hp => hp) hnext
            (fun q hmem => hq q (List.mem_append_left _ hmem))
            fun q hmem => hq q (List.mem_append_right _ hmem)
        · rw [hafter]
          exact h.handler
      · exact .inr (.inl (dead_of_refused hs pick hnext ha.unique hquery hhopes hwrote hzero))
    · left
      rw [hafter]
      refine doomed_advance hnext ?_
      by_contra hnone
      refine hopen ⟨Bool.eq_false_iff.mpr fun hc => hnone (.inl hc), fun q hq => ?_⟩
      exact Bool.eq_false_iff.mpr fun hc => hnone (.inr ⟨q, hq, hc⟩)

theorem Waiting.handle {pick : Nat} (h : Waiting t i s) (hs : Proper n s)
    (ha : Sustains t i s (.handle pick)) (hlimit : 3 ≤ s.conn.writer.limit.bytes) :
    Pending t i (s.after (.handle pick)) := by
  rcases s.handle_cases pick with hsame | ⟨p, rest, u, hhandler, rfl, hafter⟩
  · rw [State.after, hsame]
    exact .inr (.inr h)
  · have hp : s.section? (.handle pick) = some p := by rw [section?, hhandler]; rfl
    have hmem : p ∈ s.handler := hhandler ▸ List.mem_cons_self
    have hincoming := hs.regular.handler p hmem
    cases hc : (p.exec true pick s.store).store.conn.closed with
    | true =>
      left
      rw [State.after, hafter]
      exact .inl hc
    | false =>
      have hopen : Point.KeepsOpen (p.exec true pick s.store) :=
        ⟨hc, Point.quiet_of_isIncoming hincoming⟩
      rcases Point.exec_spares h.cursor ha.unique (h.handler p hmem) rfl hopen hlimit
        (ha.not_parts hp) with hq | ⟨⟨-, hhopes, -⟩, -⟩
      · refine .inr (.inr (h.kept hs ha (fun p' hp' => ?_) ?_ fun q hqmem => ?_))
        · rw [hp] at hp'
          obtain rfl := Option.some.inj hp'
          exact h.handler p hmem
        · rw [State.after, hafter]
          exact h.tasks
        · rw [State.after, hafter] at hqmem
          rcases List.mem_append.mp hqmem with hqmem | hqmem
          · exact hq q (List.mem_append_left _ hqmem)
          · exact h.handler q (hhandler ▸ List.mem_cons_of_mem _ hqmem)
      · rw [Point.hopes_of_isIncoming hincoming] at hhopes
        cases hhopes

/-- A query waits on as long as nobody gives it up and the server sends nothing but batches. -/
theorem Waiting.after (h : Waiting t i s) (hs : Proper n s) (ha : Sustains t i s a)
    (hlimit : 3 ≤ s.conn.writer.limit.bytes) : Pending t i (s.after a) := by
  cases a with
  | begin call runtime => exact .inr (.inr (h.begin hs ha))
  | step j pick => exact h.step hs ha hlimit
  | handle pick => exact h.handle hs ha hlimit
  | abandon j =>
    refine .inr (.inr (h.kept hs ha (fun p hp => by cases hp) ?_ ?_))
    · exact h.tasks.after _ (fun _ hp => hp) (fun _ _ hcall => (by cases hcall))
        fun _ _ _ _ _ hstep => (by cases hstep)
    · rw [State.after, abandon_handler]
      exact h.handler
  | collect =>
    refine .inr (.inr (h.kept hs ha (fun p hp => by cases hp) ?_ ?_))
    · exact h.tasks.after _ (fun _ hp => hp) (fun _ _ hcall => (by cases hcall))
        fun _ _ _ _ _ hstep => (by cases hstep)
    · rw [State.after, collect_handler]
      exact h.handler

theorem Pending.after (h : Pending t i s) (hs : Proper n s) (ha : Sustains t i s a)
    (hlimit : 3 ≤ s.conn.writer.limit.bytes) : Pending t i (s.after a) := by
  rcases h with h | h | h
  · exact .inl (h.after hs.regular a)
  · exact .inr (.inl (h.after hs a))
  · exact h.after hs ha hlimit

theorem pending_start (settings : Settings) : Pending t i (start settings) := by
  refine .inr (.inr ⟨fun k hk => ?_, fun τ hτ => (by cases hτ), fun p hp => (by cases hp)⟩)
  rw [cursor_start] at hk
  cases hk

theorem Pending.run (h : Pending t i s) (hs : Proper n s) {as : List Action}
    (hn : n + as.countP (·.isQuery) < 2 ^ 64)
    (ha : ∀ bs a cs, as = bs ++ a :: cs → Sustains t i (s.run bs) a)
    (hlimit : 3 ≤ s.conn.writer.limit.bytes) : Pending t i (s.run as) := by
  induction as generalizing s n with
  | nil => exact h
  | cons a as ih =>
    rw [countP_isQuery_cons, ← Nat.add_assoc] at hn
    refine ih (h.after hs (ha [] a as rfl) hlimit) (hs.after a (by omega)) hn
      (fun bs b cs has => ?_) (by rwa [limit_after])
    exact ha (a :: bs) b cs (by rw [has]; rfl)

end State
end Async
end Reql
