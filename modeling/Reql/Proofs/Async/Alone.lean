import Reql.Proofs.Async.Apart

/-! What the owner of a cursor sees of a connection is what he would see if the cursor were alone
on it. -/
namespace Reql

/-- The cursor, whether or not its owner has it. -/
def Cursor.unheld (k : Cursor) : Cursor :=
  { k with held := false }

namespace Async

def Purpose.alone : Purpose → Purpose
  | .query t _ => .query t 0
  | .fetch _ => .fetch 0
  | p => p

/-- The section where every cursor is named `0`. -/
def Point.alone : Point → Point
  | recheck t _ r => recheck t 0 r
  | write q p => write q p.alone
  | await m p => await m p.alone
  | feed m p => feed m p.alone
  | flush m p => flush m p.alone
  | wrote e p => wrote e p.alone
  | check t p => check t p.alone
  | lookUp t p => lookUp t p.alone
  | read _ => read 0
  | prime _ => prime 0
  | close _ => close 0
  | leave _ => leave 0
  | letGo _ => letGo 0
  | fail e ids => fail e (ids.map fun _ => 0)
  | deliver _ r => deliver 0 r
  | reject _ e => reject 0 e
  | p => p

/-- A new connection where there is no cursor but this one. -/
def Store.alone (limit : FrameLimit) (k : Option Cursor) : Store :=
  ⟨{ Connection.start default with cursors := k.toList, writer := .start limit }, []⟩

/-- What a section `u` does with the cursor at `i` is what `v` does where it is alone, unless the
connection is about to be closed. -/
structure Turn.Mirrors (i : CursorId) (u v : Turn) : Prop where
  cursor : v.store.conn.cursors[0]? = (u.store.conn.cursors[i]?).map Cursor.unheld
  reply : v.reply = u.reply
  next : v.next = u.next.map Point.alone ∨ u.next.head?.any Point.closes = true

namespace Point

variable {runtime : Bool} {pick : Nat} {s : Store} {p q : Point} {t : Token} {i : CursorId}
  {k : Cursor} {limit : FrameLimit}

theorem alone_finish (k : Cursor) (r : Connection.Reply) :
    finish k ++ [reply r] = (finish k ++ [reply r]).map alone := by
  unfold finish
  cases k.exclusive <;> rfl

theorem alone_afterRead (k : Cursor) : afterRead 0 k = (afterRead i k).map alone := by
  unfold afterRead
  split
  · rfl
  · exact alone_finish k _
  · exact alone_finish k _
  · rfl
  · rfl

theorem alone_afterPrime (k : Cursor) : afterPrime k = (afterPrime k).map alone := by
  rcases afterPrime_cases k with ⟨r, h⟩ | ⟨r, h⟩ <;> rw [h]
  · rfl
  · exact alone_finish k r

theorem alone_afterClose (k : Cursor) : afterClose k = (afterClose k).map alone := by
  unfold afterClose
  cases k.inbox.closed <;> cases k.exclusive <;> cases k.inbox.serverDone <;> rfl

theorem alone_afterLeave (k : Cursor) : afterLeave 0 k = (afterLeave i k).map alone := by
  unfold afterLeave
  cases k.inbox.isRunning <;> cases k.exclusive <;> rfl

theorem mirrors_onCursor (hk : s.conn.cursors[i]? = some k) (f : Cursor → Cursor)
    (g g' : Cursor → List Point) (hf : f k.unheld = (f k).unheld)
    (hg : g' k.unheld = (g k).map alone) :
    (s.onCursor i f g).Mirrors i ((Store.alone limit (some k.unheld)).onCursor 0 f g') := by
  have hu : s.onCursor i f g =
      s.change { s.conn with cursors := s.conn.cursors.modify i f } (g k) := by
    unfold Store.onCursor
    rw [hk]
  rw [hu]
  refine ⟨?_, rfl, .inl hg⟩
  simp [hk, Store.onCursor, Store.alone, hf]

theorem alone_cursor (hk : s.conn.cursors[i]? = some k) :
    (Store.alone limit (some k.unheld)).conn.cursors[0]? =
      (s.conn.cursors[i]?).map Cursor.unheld := by
  rw [hk]
  rfl

theorem sole_alone (ht : k.token = t) : (Store.alone limit (some k)).Sole t 0 := by
  intro l m hm
  cases l with
  | zero =>
    obtain rfl := Option.some.inj hm
    simpa using ht
  | succ l => cases hm

theorem alone_afterFault (e : FramingError) (q : Purpose) :
    afterFault e q.alone = (afterFault e q).map alone := by
  unfold afterFault
  split <;> rfl

theorem encode_alone (f : Frame) (limit : FrameLimit) (buffer : Bytes) :
    (∃ e, f.encode limit buffer = .error e ∧ f.encode limit [] = .error e) ∨
      ∃ bytes bytes', f.encode limit buffer = .ok bytes ∧ f.encode limit [] = .ok bytes' := by
  rcases f.encode_eq limit buffer with ⟨e, he, hencode⟩ | ⟨hnone, bytes, hencode⟩
  · refine .inl ⟨e, hencode, ?_⟩
    rcases f.encode_eq limit [] with ⟨e', he', hencode'⟩ | ⟨hnone', -⟩
    · rw [hencode', Option.some.inj (he'.symm.trans he)]
    · cases hnone'.symm.trans he
  · refine .inr ⟨bytes, ?_⟩
    rcases f.encode_eq limit [] with ⟨e', he', -⟩ | ⟨-, bytes', hencode'⟩
    · cases hnone.symm.trans he'
    · exact ⟨bytes', hencode, hencode'⟩

/-- What is met in writing does not depend on who else has written, unless the stream fails. -/
theorem mirrors_feed (hk : s.conn.cursors[i]? = some k) (m : Message) (q : Purpose) :
    ((feed m q).exec runtime pick s).Mirrors i
      ((feed m q).alone.exec false 0 (.alone s.conn.writer.limit (some k.unheld))) := by
  have halone : (Store.alone s.conn.writer.limit (some k.unheld)).conn.writer.makeRoom =
      (none, .start s.conn.writer.limit) := rfl
  have hlimit := s.conn.writer.makeRoom_limit
  simp only [exec, alone, halone]
  cases hroom : s.conn.writer.makeRoom with
  | mk e w =>
    rw [hroom] at hlimit
    cases e with
    | some e =>
      obtain ⟨reason, rfl⟩ := FrameWriter.makeRoom_error (congrArg Prod.fst hroom)
      refine ⟨?_, ?_, .inr rfl⟩
      · dsimp only
        split <;> simp [Store.accept, Store.alone, hk]
      · dsimp only
        split <;> rfl
    | none =>
      dsimp only at hlimit ⊢
      rw [← hlimit]
      simp only [FrameWriter.start]
      rcases encode_alone m.frame w.limit w.buffer with ⟨e, he, he'⟩ | ⟨bytes, bytes', he, he'⟩ <;>
        simp only [he, he']
      · exact ⟨by simp [Store.alone, hk], rfl, .inl (alone_afterFault e q)⟩
      · exact ⟨by simp [Store.accept, Store.alone, hk], rfl, .inl rfl⟩

theorem mirrors_flush (hk : s.conn.cursors[i]? = some k) (m : Message) (q : Purpose) :
    ((flush m q).exec runtime pick s).Mirrors i
      ((flush m q).alone.exec false 0 (.alone s.conn.writer.limit (some k.unheld))) := by
  have halone : (Store.alone s.conn.writer.limit (some k.unheld)).conn.writer.flush =
      (none, .start s.conn.writer.limit) := rfl
  simp only [exec, alone, halone]
  cases hflush : s.conn.writer.flush with
  | mk e w =>
    cases e with
    | some e =>
      obtain ⟨reason, rfl⟩ := FrameWriter.flush_error (congrArg Prod.fst hflush)
      exact ⟨by simp [Store.alone, hk], rfl, .inr rfl⟩
    | none => exact ⟨by simp [Store.alone, hk], rfl, .inl rfl⟩

theorem mirrors_deregister (hk : s.conn.cursors[i]? = some k) (u : Token) :
    ((deregister u).exec runtime pick s).Mirrors i
      ((deregister u).exec false 0 (.alone limit (some k.unheld))) := by
  refine ⟨?_, rfl, .inl rfl⟩
  have hsame : k.unheld.deregister u = (k.deregister u).unheld := by
    unfold Cursor.deregister
    change (if k.token = u then _ else _) = _
    split <;> rfl
  simp [exec, Connection.deregister, Store.alone, hk, hsame]

/-- The owner of a cursor goes on as if it were alone. -/
theorem mirrors_mine (hk : s.conn.cursors[i]? = some k) (hsole : s.Sole t i)
    (hp : p.isMine t i = true) (ho : (p.exec runtime pick s).store.conn.closed = false) :
    (p.exec runtime pick s).Mirrors i
      (p.alone.exec false 0 (.alone s.conn.writer.limit (some k.unheld))) := by
  have hopen : s.conn.closed = false := open_of_exec ho
  cases p with
  | read id =>
    obtain rfl := beq_iff_eq.mp hp
    exact mirrors_onCursor hk _ _ _ rfl (alone_afterRead k)
  | prime id =>
    obtain rfl := beq_iff_eq.mp hp
    exact mirrors_onCursor hk _ _ _ rfl (alone_afterPrime k)
  | close id =>
    obtain rfl := beq_iff_eq.mp hp
    exact mirrors_onCursor hk _ _ _ rfl (alone_afterClose k)
  | leave id =>
    obtain rfl := beq_iff_eq.mp hp
    exact mirrors_onCursor hk _ _ _ rfl (alone_afterLeave k)
  | letGo id =>
    obtain rfl := beq_iff_eq.mp hp
    simp only [exec, alone]
    exact mirrors_onCursor hk _ _ _ rfl rfl
  | wrote error q =>
    cases q with
    | fetch id =>
      obtain rfl := beq_iff_eq.mp hp
      cases error with
      | none => exact ⟨alone_cursor hk, rfl, .inl rfl⟩
      | some e =>
        simp only [exec, alone, Purpose.alone, Store.onInbox]
        exact mirrors_onCursor hk _ _ _ rfl (alone_finish k _)
    | other => exact ⟨alone_cursor hk, rfl, .inl rfl⟩
    | query | noreply => cases hp
  | check u q =>
    refine ⟨alone_cursor hk, rfl, .inl ?_⟩
    simp [exec, alone, Store.alone, Connection.start, hopen]
  | lookUp u q =>
    obtain ⟨hu, hq⟩ := Bool.and_eq_true_iff.mp hp
    obtain rfl := beq_iff_eq.mp hu
    have hkt : k.token = u := (hsole i k hk).mpr rfl
    have hreg := isRegistered_of_sole hk hsole
    have hreg' : (Store.alone s.conn.writer.limit (some k.unheld)).conn.isRegistered u =
        k.registered := isRegistered_of_sole (k := k.unheld) (i := 0) rfl (sole_alone hkt)
    refine ⟨alone_cursor hk, rfl, .inl ?_⟩
    simp only [exec, alone, hreg, hreg', Store.pass_next]
    split <;> rfl
  | feed m q => exact mirrors_feed hk m q
  | flush m q => exact mirrors_flush hk m q
  | deregister u => exact mirrors_deregister hk u
  | halt u =>
    refine ⟨alone_cursor hk, rfl, .inl ?_⟩
    simp [exec, alone, Purpose.alone, Store.alone, Connection.start, hopen]
  | shutDown cause closing =>
    cases (closed_of_closes (p := shutDown cause closing) rfl).symm.trans ho
  | write q p =>
    refine ⟨alone_cursor hk, rfl, .inl ?_⟩
    simp only [exec, alone, Store.pass_next]
    split <;> rfl
  | await m q => exact ⟨alone_cursor hk, rfl, .inl rfl⟩
  | spawnStop u => exact ⟨alone_cursor hk, rfl, .inl rfl⟩
  | reply r => exact ⟨alone_cursor hk, rfl, .inl rfl⟩
  | _ => cases hp

theorem mirrors_frame (runtime : Bool) (pick : Nat) (limit : FrameLimit)
    (hk : s.conn.cursors[i]? = some k) (hsole : s.Sole t i) (hp : p.isIncoming = true)
    (hdraining : p.isDraining = false) (hc : p.concerns t i = true) :
    (p.exec runtime pick s).Mirrors i (p.alone.exec false 0 (.alone limit (some k.unheld))) := by
  cases p with
  | deliver id r =>
    obtain rfl := beq_iff_eq.mp hc
    exact mirrors_onCursor hk _ (fun _ => []) (fun _ => []) rfl rfl
  | reject id e =>
    obtain rfl := beq_iff_eq.mp hc
    exact mirrors_onCursor hk _ (fun _ => []) (fun _ => []) rfl rfl
  | deregister u => exact mirrors_deregister hk u
  | route f =>
    obtain rfl := beq_iff_eq.mp hc
    have hkt : k.token = f.token := (hsole i k hk).mpr rfl
    have hfound := findIdx?_of_sole hk hsole
    have hfound' : ((Store.alone limit (some k.unheld)).conn.cursors.findIdx?
        fun k => k.registered && k.token == f.token) = if k.registered then some 0 else none :=
      findIdx?_of_sole (k := k.unheld) (i := 0) rfl (sole_alone hkt)
    simp only [exec, alone, hfound, hfound']
    cases k.registered with
    | false => exact ⟨alone_cursor hk, rfl, .inl rfl⟩
    | true =>
      refine ⟨alone_cursor hk, rfl, .inl ?_⟩
      simp only [if_true, Store.pass_next]
      split
      next => split <;> rfl
      next => rfl
  | shutDown => cases hc
  | drain | fail => cases hdraining
  | _ => cases hp

/-- Nothing comes of a frame before there is a cursor for it. -/
theorem mirrors_none (runtime : Bool) (pick : Nat) (limit : FrameLimit)
    (hk : s.conn.cursors[i]? = none) (hsole : s.Sole t i) (hp : p.isIncoming = true)
    (hdraining : p.isDraining = false) (hc : p.concerns t i = true) :
    (p.exec runtime pick s).Mirrors i (p.alone.exec false 0 (.alone limit none)) := by
  have hnone : (none : Option Cursor) = (s.conn.cursors[i]?).map Cursor.unheld := by rw [hk]; rfl
  have honCursor (f : Cursor → Cursor) (g : Cursor → List Point) :
      (s.onCursor i f g).Mirrors i ((Store.alone limit none).onCursor 0 f g) := by
    have hpass : s.onCursor i f g = s.pass [] := by
      unfold Store.onCursor
      rw [hk]
    rw [hpass]
    exact ⟨hnone, rfl, .inl rfl⟩
  cases p with
  | deliver id r =>
    obtain rfl := beq_iff_eq.mp hc
    exact honCursor _ _
  | reject id e =>
    obtain rfl := beq_iff_eq.mp hc
    exact honCursor _ _
  | deregister u =>
    refine ⟨?_, rfl, .inl rfl⟩
    simp [exec, Connection.deregister, Store.alone, hk, alone, Connection.start]
  | route f =>
    obtain rfl := beq_iff_eq.mp hc
    have hfound : (s.conn.cursors.findIdx? fun k => k.registered && k.token == f.token) = none := by
      refine List.findIdx?_eq_none_iff.mpr fun m hm => ?_
      obtain ⟨l, hl⟩ := List.getElem?_of_mem hm
      have hne : m.token ≠ f.token := fun ht => by
        rw [(hsole l m hl).mp ht, hk] at hl
        cases hl
      simp [hne]
    simp only [exec, alone, hfound]
    exact ⟨hnone, rfl, .inl rfl⟩
  | shutDown => cases hc
  | drain | fail => cases hdraining
  | _ => cases hp

/-- A frame is handled as if its cursor were alone. -/
theorem mirrors_incoming (runtime : Bool) (pick : Nat) (limit : FrameLimit) (hsole : s.Sole t i)
    (hp : p.isIncoming = true) (hdraining : p.isDraining = false) (hc : p.concerns t i = true) :
    (p.exec runtime pick s).Mirrors i
      (p.alone.exec false 0 (.alone limit ((s.conn.cursors[i]?).map Cursor.unheld))) := by
  cases hk : s.conn.cursors[i]? with
  | some k => exact mirrors_frame runtime pick limit hk hsole hp hdraining hc
  | none => exact mirrors_none runtime pick limit hk hsole hp hdraining hc

/-- What is left to do about a frame concerns its cursor. -/
theorem concerns_next (runtime : Bool) (pick : Nat) (hsole : s.Sole t i) (hp : p.isIncoming = true)
    (hc : p.concerns t i = true) (hdraining : p.isDraining = false) :
    ∀ q ∈ (p.exec runtime pick s).next, q.concerns t i = true := by
  cases p with
  | deliver | reject =>
    exact onCursor_next (P := fun ps => ∀ q ∈ ps, q.concerns t i = true) _ (by simp)
      fun _ => by simp
  | deregister => simp [exec]
  | route f =>
    obtain rfl := beq_iff_eq.mp hc
    simp only [exec]
    split
    next => simp
    next id hid =>
      obtain ⟨hlt, hfound, -⟩ := List.findIdx?_eq_some_iff_getElem.mp hid
      obtain ⟨-, ht⟩ := Bool.and_eq_true_iff.mp hfound
      obtain rfl := (hsole id _ (List.getElem?_eq_getElem hlt)).mp (beq_iff_eq.mp ht)
      split
      next => split <;> simp [concerns]
      next => simp [concerns]
  | shutDown => cases hc
  | drain | fail => cases hdraining
  | _ => cases hp

end Point
end Async
end Reql
