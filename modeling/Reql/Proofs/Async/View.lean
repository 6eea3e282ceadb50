import Reql.Proofs.Async.Alone
import Reql.Proofs.Connection.Multiplexing

/-! What there is of a connection for the owner of one cursor, and what happens to that. -/
namespace Reql
namespace Async

/-- A call of the owner: what is left to do of it, and what it has replied. -/
structure Call where
  todo : List Point
  reply : Option Connection.Reply

/-- A cursor, the calls of its owner, and what is left to do about frames with its token. Its name
is `0`, wherever it is. -/
structure View where
  cursor : Option Cursor
  calls : List Call
  reports : List Point

/-- Before the query of the cursor is asked. -/
def View.empty : View :=
  ⟨none, [], []⟩

/-- What happens to a cursor: its query gets it, its owner calls, one of these calls goes on or is
given up, a frame with its token is reported, or something is done about such frames. -/
inductive Happening where
  | add (k : Cursor)
  | call (call : Connection.Action)
  | goOn (call : Nat)
  | giveUp (call : Nat)
  | report (f : Frame)
  | handle
deriving DecidableEq

def View.goOn (limit : FrameLimit) (v : View) (n : Nat) : View :=
  match v.calls[n]? with
  | some ⟨p :: rest, reply⟩ =>
    let t := p.exec false 0 (.alone limit v.cursor)
    { v with
      cursor := t.store.conn.cursors[0]?
      calls := v.calls.set n ⟨t.next ++ rest, t.reply.or reply⟩ }
  | _ => v

def View.giveUp (v : View) (n : Nat) : View :=
  match v.calls[n]? with
  | some c =>
    if c.todo.head?.any Point.isSuspended then
      { v with calls := v.calls.set n { c with todo := [] } }
    else v
  | none => v

/-- What has been reported is handled further. -/
def View.handle (limit : FrameLimit) (v : View) : View :=
  match v.reports with
  | [] => v
  | p :: rest =>
    let t := p.exec false 0 (.alone limit v.cursor)
    { v with cursor := t.store.conn.cursors[0]?, reports := t.next ++ rest }

/-- What becomes of a cursor that is alone on its connection. -/
def View.after (limit : FrameLimit) (v : View) : Happening → View
  | .add k => { v with cursor := some k }
  | .call call => { v with calls := v.calls ++ [⟨State.opening call, none⟩] }
  | .goOn n => v.goOn limit n
  | .giveUp n => v.giveUp n
  | .report f => { v with reports := v.reports ++ [.route f] }
  | .handle => v.handle limit

def View.run (limit : FrameLimit) (v : View) (hs : List Happening) : View :=
  hs.foldl (·.after limit) v

def View.replies (v : View) : List (Option Connection.Reply) :=
  v.calls.map (·.reply)

/-- A call that is not about to close the connection has come as far as the other one. -/
structure Call.Matches (c c' : Call) : Prop where
  reply : c.reply = c'.reply
  todo : c.todo = c'.todo ∨ c.todo.head?.any Point.closes = true

structure View.Matches (v v' : View) : Prop where
  cursor : v.cursor = v'.cursor
  length : v.calls.length = v'.calls.length
  calls : ∀ (n : Nat) (c c' : Call), v.calls[n]? = some c → v'.calls[n]? = some c' → c.Matches c'
  reports : v.reports = v'.reports

namespace View.Matches

variable {v v' : View} {c c' : Call}

theorem refl (v : View) : v.Matches v := by
  refine ⟨rfl, rfl, fun n c c' hc hc' => ?_, rfl⟩
  obtain rfl := Option.some.inj (hc.symm.trans hc')
  exact ⟨rfl, .inl rfl⟩

theorem replies_eq (h : v.Matches v') : v.replies = v'.replies := by
  refine List.ext_getElem? fun n => ?_
  rw [View.replies, View.replies, List.getElem?_map, List.getElem?_map]
  cases hc : v.calls[n]? with
  | none => rw [List.getElem?_eq_none_iff.mpr (h.length ▸ List.getElem?_eq_none_iff.mp hc)]
  | some c =>
    have hlt := (List.getElem?_eq_some_iff.mp hc).choose
    have hc' := List.getElem?_eq_getElem (l := v'.calls) (i := n) (h.length ▸ hlt)
    rw [hc', Option.map_some, Option.map_some, (h.calls n _ _ hc hc').reply]

theorem append (h : v.Matches v') (c : Call) :
    View.Matches { v with calls := v.calls ++ [c] } { v' with calls := v'.calls ++ [c] } := by
  refine ⟨h.cursor, by simp [h.length], fun n d d' hd hd' => ?_, h.reports⟩
  rw [List.getElem?_append] at hd hd'
  rw [← h.length] at hd'
  split at hd
  next hn =>
    rw [if_pos hn] at hd'
    exact h.calls n d d' hd hd'
  next hn =>
    rw [if_neg hn] at hd'
    obtain rfl := Option.some.inj (hd.symm.trans hd')
    exact ⟨rfl, .inl rfl⟩

theorem set (h : v.Matches v') (n : Nat) (hc : c.Matches c') {k k' : Option Cursor}
    (hk : k = k') : View.Matches { v with cursor := k, calls := v.calls.set n c }
      { v' with cursor := k', calls := v'.calls.set n c' } := by
  refine ⟨hk, by simp [h.length], fun l d d' hd hd' => ?_, h.reports⟩
  rw [List.getElem?_set] at hd hd'
  rw [← h.length] at hd'
  split at hd
  next hnl =>
    rw [if_pos hnl] at hd'
    split at hd
    next hlt =>
      rw [if_pos hlt] at hd'
      obtain rfl := Option.some.inj hd
      obtain rfl := Option.some.inj hd'
      exact hc
    next => cases hd
  next hnl =>
    rw [if_neg hnl] at hd'
    exact h.calls l d d' hd hd'

end View.Matches

/-! ### Lists of which a part is looked at -/

section Filter

variable {α : Type} {P : α → Bool} {l : List α} {j : Nat} {x y : α}

theorem getElem?_filter_of (hx : l[j]? = some x) (hP : P x = true) :
    (l.filter P)[(l.take j).countP P]? = some x := by
  induction l generalizing j with
  | nil => cases hx
  | cons z l ih =>
    cases j with
    | zero =>
      obtain rfl := Option.some.inj hx
      simp [hP]
    | succ j =>
      have h := ih (by simpa using hx)
      cases hz : P z <;> simpa [hz] using h

/-- What is put in the place of an element is looked at like that. -/
theorem filter_set (hx : l[j]? = some x) (hy : P y = P x) : (l.set j y).filter P =
    if P x then (l.filter P).set ((l.take j).countP P) y else l.filter P := by
  induction l generalizing j with
  | nil => cases hx
  | cons z l ih =>
    cases j with
    | zero =>
      obtain rfl := Option.some.inj hx
      cases hz : P z <;> simp [hy, hz]
    | succ j =>
      have h := ih (by simpa using hx)
      cases hx' : P x <;> cases hz : P z <;> simp_all

end Filter

namespace Task

/-- Whether a computation is a call of the owner of the cursor at `i`. -/
def isOf (i : CursorId) (τ : Task) : Bool :=
  τ.cursor == some i

def alone (τ : Task) : Call :=
  ⟨τ.todo.map Point.alone, τ.reply⟩

end Task

namespace State

/-- The place of a computation among the calls of the owner of the cursor at `i`. -/
def rank (i : CursorId) (s : State) (j : TaskId) : Nat :=
  (s.tasks.take j).countP (Task.isOf i)

/-- What there is for the owner of the cursor at `i`, which has the token `t`. -/
def view (t : Token) (i : CursorId) (s : State) : View where
  cursor := (s.conn.cursors[i]?).map Cursor.unheld
  calls := (s.tasks.filter (Task.isOf i)).map Task.alone
  reports := (s.handler.filter (Point.concerns t i)).map Point.alone

/-- What an action is for this cursor, if it is anything. -/
def happening? (t : Token) (i : CursorId) (s : State) : Action → Option Happening
  | .begin (.report (.frame f)) _ => if f.token = t then some (.report f) else none
  | .begin call _ =>
    if call.cursor? = some i ∧ s.admits call = true then some (.call (call.rename fun _ => 0))
    else none
  | .step j _ =>
    match s.next? j with
    | some (τ, p, _) =>
      if τ.isOf i then some (.goOn (s.rank i j))
      else if s.conn.cursors.length = i then p.added?.map fun k => .add k.unheld
      else none
    | none => none
  | .handle _ => if s.handler.head?.any (Point.concerns t i) then some .handle else none
  | .abandon j => if s.tasks[j]?.any (Task.isOf i) then some (.giveUp (s.rank i j)) else none
  | .collect => none

def happenings (t : Token) (i : CursorId) (s : State) : List Action → List Happening
  | [] => []
  | a :: as => (s.happening? t i a).toList ++ (s.after a).happenings t i as

variable {s : State} {a : Action} {as : List Action} {t : Token} {i : CursorId} {n m : Nat}
  {limit : FrameLimit} {v : View} {k : Cursor} {j : TaskId} {τ : Task} {p : Point}
  {rest : List Point}

theorem alone_opening (call : Connection.Action) :
    opening (call.rename fun _ => 0) = (opening call).map Point.alone := by
  cases call <;> rfl

theorem closes_alone (p : Point) : p.alone.closes = p.closes := by
  cases p <;> rfl

theorem isSuspended_alone (p : Point) : p.alone.isSuspended = p.isSuspended := by
  cases p <;> rfl

/-- A call that can be made begins a computation. -/
theorem matches_launch (hm : (s.view t i).Matches v) {call : Connection.Action} {runtime : Bool}
    (ha : s.begin runtime call =
      if s.admits call then s.launch ⟨call.cursor?, runtime, opening call, none⟩ else s)
    (hh : s.happening? t i (.begin call runtime) =
      if call.cursor? = some i ∧ s.admits call = true then some (.call (call.rename fun _ => 0))
      else none) :
    ((s.after (.begin call runtime)).view t i).Matches
      (((s.happening? t i (.begin call runtime)).map (v.after limit)).getD v) := by
  rw [after, ha, hh]
  split
  next hadmits =>
    rw [hadmits]
    by_cases hi : call.cursor? = some i
    · rw [if_pos ⟨hi, rfl⟩]
      have hcalls : (s.launch ⟨call.cursor?, runtime, opening call, none⟩).view t i =
          { s.view t i with calls := (s.view t i).calls ++
            [⟨opening (call.rename fun _ => 0), none⟩] } := by
        simp [view, launch, Task.isOf, hi, Task.alone, alone_opening, conn]
      rw [hcalls]
      exact hm.append _
    · rw [if_neg fun h => hi h.1]
      have hsame :
          (s.launch ⟨call.cursor?, runtime, opening call, none⟩).view t i = s.view t i := by
        simp [view, launch, Task.isOf, hi, conn]
      rw [hsame]
      exact hm
  next hadmits =>
    rw [if_neg fun h => hadmits h.2]
    exact hm

theorem matches_begin (hm : (s.view t i).Matches v) (call : Connection.Action) (runtime : Bool) :
    ((s.after (.begin call runtime)).view t i).Matches
      (((s.happening? t i (.begin call runtime)).map (v.after limit)).getD v) := by
  cases call with
  | drop => exact hm
  | breakWriting reason => exact hm
  | report event =>
    cases event with
    | frame f =>
      by_cases hf : f.token = t
      · have hview : (s.after (.begin (.report (.frame f)) runtime)).view t i =
            { s.view t i with reports := (s.view t i).reports ++ [.route f] } := by
          simp [view, after, begin, incoming, Point.concerns, hf, Point.alone, conn]
        rw [hview]
        simp only [happening?, if_pos hf]
        refine ⟨hm.cursor, hm.length, hm.calls, ?_⟩
        simp [View.after, hm.reports]
      · have hview : (s.after (.begin (.report (.frame f)) runtime)).view t i = s.view t i := by
          simp [view, after, begin, incoming, Point.concerns, hf, conn]
        rw [hview]
        simp only [happening?, if_neg hf]
        exact hm
    | failed | ended =>
      simpa [view, after, begin, incoming, Point.concerns, conn, happening?,
        Connection.Action.cursor?] using hm
  | _ => exact matches_launch hm rfl rfl

theorem view_calls (hτ : s.tasks[j]? = some τ) (hi : τ.isOf i = true) :
    (s.view t i).calls[s.rank i j]? = some τ.alone := by
  simp [view, rank, getElem?_filter_of hτ hi]

theorem view_set (t : Token) (i : CursorId) (hτ : s.tasks[j]? = some τ) (τ' : Task)
    (hcursor : τ'.cursor = τ.cursor) :
    ((s.tasks.set j τ').filter (Task.isOf i)).map Task.alone =
      if τ.isOf i then (s.view t i).calls.set (s.rank i j) τ'.alone else (s.view t i).calls := by
  have hsame : τ'.isOf i = τ.isOf i := by
    unfold Task.isOf
    rw [hcursor]
  rw [filter_set hτ hsame]
  split
  · rw [List.map_set]
    rfl
  · rfl

/-- The owner sees nothing of a computation that a section starts. -/
theorem view_advance (hτ : s.tasks[j]? = some τ) (u : Turn) :
    (s.advance j τ rest u).view t i =
      { s.view t i with
        cursor := (u.store.conn.cursors[i]?).map Cursor.unheld
        calls := if τ.isOf i then (s.view t i).calls.set (s.rank i j)
            ⟨(u.next ++ rest).map Point.alone, u.reply.or τ.reply⟩
          else (s.view t i).calls } := by
  have hset := view_set t i hτ { τ with todo := u.next ++ rest, reply := u.reply.or τ.reply } rfl
  have hspawned : ((if u.spawned.isEmpty then [] else [⟨none, true, u.spawned, none⟩] :
      List Task).filter (Task.isOf i)) = [] := by
    split <;> simp [Task.isOf]
  unfold view advance
  dsimp only
  rw [List.filter_append, hspawned, List.append_nil, hset]
  rfl

theorem head_closes_append {ps qs : List Point} (h : ps.head?.any Point.closes = true) :
    ((ps ++ qs).map Point.alone).head?.any Point.closes = true := by
  cases ps with
  | nil => cases h
  | cons p ps => simpa [closes_alone] using h

/-- The owner goes on with a call. -/
theorem matches_goOn (h : Apart t i s) (hsole : s.store.Sole t i) (hm : (s.view t i).Matches v)
    (hnext : s.next? j = some (τ, p, rest)) (hi : τ.isOf i = true) (pick : Nat)
    (ho : (p.exec τ.runtime pick s.store).store.conn.closed = false) :
    ((s.advance j τ rest (p.exec τ.runtime pick s.store)).view t i).Matches
      (v.goOn s.conn.writer.limit (s.rank i j)) := by
  obtain ⟨hτ, htodo, -⟩ := next?_eq_some.mp hnext
  have hmem := List.mem_of_getElem? hτ
  have howner : τ.cursor = some i := beq_iff_eq.mp hi
  have hmine := h.own τ hmem howner p (htodo ▸ List.mem_cons_self)
  obtain ⟨k, hk⟩ := h.there τ hmem howner
  have hmirrors : (p.exec τ.runtime pick s.store).Mirrors i
      (p.alone.exec false 0 (.alone s.conn.writer.limit (some k.unheld))) :=
    Point.mirrors_mine hk hsole hmine ho
  have hcursor : v.cursor = some k.unheld := by
    rw [← hm.cursor, view, hk]
    rfl
  obtain ⟨c, hc⟩ : ∃ c, v.calls[s.rank i j]? = some c := by
    have hlt := (List.getElem?_eq_some_iff.mp (view_calls (t := t) hτ hi)).choose
    exact ⟨_, List.getElem?_eq_getElem (hm.length ▸ hlt)⟩
  obtain ⟨hreply, hctodo⟩ := hm.calls _ _ _ (view_calls hτ hi) hc
  -- a call that is about to close the connection does not go on while that stays open
  have hctodo : c.todo = p.alone :: rest.map Point.alone := by
    refine hctodo.elim (fun h => ?_) fun hcloses => ?_
    · rw [← h, Task.alone, htodo]
      rfl
    · have hpcloses : p.closes = true := by
        simpa [Task.alone, htodo, closes_alone] using hcloses
      cases (Point.closed_of_closes hpcloses).symm.trans ho
  obtain ⟨todo, reply⟩ := c
  obtain rfl : todo = _ := hctodo
  rw [view_advance hτ, if_pos hi]
  unfold View.goOn
  simp only [hc, hcursor]
  refine hm.set _ ⟨?_, ?_⟩ hmirrors.cursor.symm
  · rw [hmirrors.reply, show reply = τ.reply from hreply.symm]
  · rcases hmirrors.next with hnext | hcloses
    · left
      rw [hnext, List.map_append]
    · exact .inr (head_closes_append hcloses)

/-- Somebody else adds the cursor, or hands it over, or does nothing to it. -/
theorem cursor_others (h : Apart t i s) (hs : Proper n s)
    (hsole : (s.after (.step j m)).store.Sole t i) (hnext : s.next? j = some (τ, p, rest))
    (hi : τ.isOf i = false) :
    ((p.exec τ.runtime m s.store).store.conn.cursors[i]?).map Cursor.unheld =
      ((if s.conn.cursors.length = i then p.added? else none).or
        s.conn.cursors[i]?).map Cursor.unheld := by
  obtain ⟨hτ, htodo⟩ := mem_of_next? hnext
  have hlength := exec_length τ.runtime m s.store p
  cases hk : s.conn.cursors[i]? with
  | some k =>
    have hkt : k.token = t := (sole_of_after hsole i k hk).mpr rfl
    have hlt := (List.getElem?_eq_some_iff.mp hk).choose
    obtain ⟨k', hk', htouch⟩ := exec_cursor τ.runtime m p hk
    rw [if_neg (Nat.ne_of_gt hlt), hk']
    refine congrArg some ?_
    rcases h.others τ hτ (beq_eq_false_iff_ne.mp hi) p (htodo ▸ List.mem_cons_self) with hp | hp
    · rw [Point.eq_of_not_concerns htouch (hkt ▸ hp)]
    · have hregister : ∀ r, p ≠ .register k.token r :=
        hs.not_register (a := .step j m) hk (by rw [section?, hnext]; rfl)
      rw [Point.unheld_of_hopes htouch (hkt ▸ hp) hregister]
      rfl
  | none =>
    have hle := List.getElem?_eq_none_iff.mp hk
    by_cases hi : s.conn.cursors.length = i
    · subst hi
      rw [if_pos rfl]
      cases hadded : p.added? with
      | some k =>
        have hadd :
            (p.exec τ.runtime m s.store).store.conn.cursors[s.conn.cursors.length]? = some k :=
          exec_added hadded
        rw [hadd]
        rfl
      | none =>
        rw [hadded] at hlength
        have hnone :
            (p.exec τ.runtime m s.store).store.conn.cursors[s.conn.cursors.length]? = none :=
          List.getElem?_eq_none_iff.mpr (Nat.le_of_eq hlength)
        rw [hnone]
        rfl
    · rw [if_neg hi, List.getElem?_eq_none_iff.mpr]
      · rfl
      · rw [hlength]
        have hone : p.added?.toList.length ≤ 1 := by cases p.added? <;> simp
        have hlt := Nat.lt_of_le_of_ne hle hi
        unfold conn at hlt
        omega

/-- What others do is nothing to the owner, but for his cursor. -/
theorem matches_others (h : Apart t i s) (hs : Proper n s)
    (hsole : (s.after (.step j m)).store.Sole t i) (hm : (s.view t i).Matches v)
    (hnext : s.next? j = some (τ, p, rest)) (hi : τ.isOf i = false) :
    ((s.advance j τ rest (p.exec τ.runtime m s.store)).view t i).Matches
      (((if s.conn.cursors.length = i then p.added?.map fun k => .add k.unheld else none).map
        (v.after limit)).getD v) := by
  have hcursor := cursor_others h hs hsole hnext hi
  rw [view_advance (next?_eq_some.mp hnext).1, hi, if_neg (by decide), hcursor]
  split
  next =>
    cases p.added? with
    | none => exact hm
    | some k => exact ⟨rfl, hm.length, hm.calls, hm.reports⟩
  next => exact hm

theorem matches_step (h : Apart t i s) (hs : Proper n s)
    (hsole : (s.after (.step j m)).store.Sole t i) (ho : (s.after (.step j m)).conn.closed = false)
    (hm : (s.view t i).Matches v) :
    ((s.after (.step j m)).view t i).Matches
      (((s.happening? t i (.step j m)).map (v.after s.conn.writer.limit)).getD v) := by
  cases hnext : s.next? j with
  | none =>
    rw [after, step, hnext]
    simpa [happening?, hnext] using hm
  | some x =>
    obtain ⟨τ, p, rest⟩ := x
    have hafter : s.after (.step j m) = s.advance j τ rest (p.exec τ.runtime m s.store) := by
      rw [after, step_of_next? hnext]
    simp only [happening?, hnext]
    cases hi : τ.isOf i with
    | true =>
      rw [hafter] at ho ⊢
      exact matches_goOn h (sole_of_after hsole) hm hnext hi m ho
    | false =>
      rw [hafter]
      exact matches_others h hs hsole hm hnext hi

/-- A frame for somebody else leaves a cursor as it is. -/
theorem cursor_incoming (runtime : Bool) (pick : Nat) (hsole : s.store.Sole t i)
    (hp : p.isIncoming = true) (hc : p.concerns t i = false) :
    (p.exec runtime pick s.store).store.conn.cursors[i]? = s.conn.cursors[i]? := by
  cases hk : s.conn.cursors[i]? with
  | some k =>
    obtain ⟨k', hk', htouch⟩ := exec_cursor runtime pick p hk
    rw [hk', Point.eq_of_not_concerns htouch ((hsole i k hk).mpr rfl ▸ hc)]
  | none =>
    have hlength := exec_length runtime pick s.store p
    rw [(Point.unnamed_of_isIncoming hp).2] at hlength
    exact List.getElem?_eq_none_iff.mpr (hlength ▸ List.getElem?_eq_none_iff.mp hk)

theorem concerns_incoming {runtime : Bool} {pick : Nat}
    (hsole : (p.exec runtime pick s.store).store.Sole t i) (hp : p.isIncoming = true)
    (hc : p.concerns t i = false)
    (ho : p.closes = true → (p.exec runtime pick s.store).store.conn.closed = false) :
    ∀ q ∈ (p.exec runtime pick s.store).next, q.concerns t i = false := by
  intro q hq
  refine (Point.concerns_exec hsole hc ho q (List.mem_append_left _ hq)).resolve_right fun hq' => ?_
  rw [Point.hopes_of_isIncoming (Point.incoming_next hp q hq)] at hq'
  cases hq'

theorem matches_handle (h : Apart t i s) (hr : Regular s)
    (hsole : (s.after (.handle m)).store.Sole t i)
    (ho : (s.after (.handle m)).conn.closed = false) (hm : (s.view t i).Matches v) :
    ((s.after (.handle m)).view t i).Matches
      (((s.happening? t i (.handle m)).map (v.after limit)).getD v) := by
  have hs := sole_of_after hsole
  cases hhandler : s.handler with
  | nil =>
    rw [after, handle, hhandler]
    simpa [happening?, hhandler] using hm
  | cons p rest =>
    have hp : p ∈ s.handler := hhandler ▸ List.mem_cons_self
    have hincoming := hr.handler p hp
    have hdraining := h.handler p hp
    have hreports := hm.reports
    rw [after, handle, hhandler] at ho hsole ⊢
    unfold view at hreports
    rw [hhandler] at hreports
    cases hc : p.concerns t i with
    | true =>
      have hcursor : v.cursor = (s.conn.cursors[i]?).map Cursor.unheld := hm.cursor.symm
      have hmirrors := Point.mirrors_incoming true m limit hs hincoming hdraining hc
      have hnext := Point.concerns_next true m hs hincoming hc hdraining
      have hquiet : ¬(p.exec true m s.store).next.head?.any Point.closes = true := fun hcloses => by
        obtain ⟨q, hq, hq'⟩ := (Option.any_eq_true _ _).mp hcloses
        rw [Point.quiet_of_isIncoming hincoming q (List.mem_of_mem_head? (Option.mem_def.mpr hq))]
          at hq'
        cases hq'
      rw [List.filter_cons_of_pos hc, List.map_cons] at hreports
      simp only [happening?, hhandler, List.head?_cons, Option.any_some, hc, if_true,
        Option.map_some, Option.getD_some, View.after, View.handle]
      rw [← hreports]
      refine ⟨?_, hm.length, hm.calls, ?_⟩
      · simp only [view, conn, hcursor]
        exact hmirrors.cursor.symm
      · simp only [view, List.filter_append, List.map_append, List.filter_eq_self.mpr hnext,
          hcursor]
        exact congrArg (· ++ _) (hmirrors.next.resolve_right hquiet).symm
    | false =>
      have hnext := concerns_incoming hsole hincoming hc fun _ => ho
      have hnil : (p.exec true m s.store).next.filter (Point.concerns t i) = [] :=
        List.filter_eq_nil_iff.mpr fun q hq => by simp [hnext q hq]
      rw [List.filter_cons_of_neg (by rw [hc]; decide)] at hreports
      simp only [happening?, hhandler, List.head?_cons, Option.any_some, hc]
      refine ⟨?_, hm.length, hm.calls, ?_⟩
      · exact (congrArg (Option.map Cursor.unheld) (cursor_incoming true m hs hincoming hc)).trans
          hm.cursor
      · simpa [view, List.filter_append, hnil] using hreports

/-- A call that waits is given up. -/
theorem matches_abandon (hm : (s.view t i).Matches v) :
    ((s.after (.abandon j)).view t i).Matches
      (((s.happening? t i (.abandon j)).map (v.after limit)).getD v) := by
  cases hτ : s.tasks[j]? with
  | none =>
    rw [after, abandon, hτ]
    simpa [happening?, hτ] using hm
  | some τ =>
    rw [after, abandon, hτ]
    cases hi : τ.isOf i with
    | false =>
      have hset := view_set t i hτ { τ with todo := [] } rfl
      simp only [happening?, hτ, Option.any_some, hi]
      rw [hi, if_neg (by decide)] at hset
      split
      · refine ⟨hm.cursor, ?_, ?_, hm.reports⟩
        · simpa [view, hset] using hm.length
        · simpa [view, hset] using hm.calls
      · exact hm
    | true =>
      have hset := view_set t i hτ { τ with todo := [] } rfl
      rw [hi, if_pos rfl] at hset
      have hcall := view_calls (t := t) hτ hi
      obtain ⟨c, hc⟩ : ∃ c, v.calls[s.rank i j]? = some c :=
        ⟨_, List.getElem?_eq_getElem (hm.length ▸ (List.getElem?_eq_some_iff.mp hcall).choose)⟩
      obtain ⟨hreply, htodo⟩ := hm.calls _ _ _ hcall hc
      have hsuspended : (τ.alone.todo.head?.any Point.isSuspended) =
          τ.todo.head?.any Point.isSuspended := by
        cases htodo : τ.todo <;> simp [Task.alone, htodo, isSuspended_alone]
      simp only [happening?, hτ, Option.any_some, hi, if_true, Option.map_some, Option.getD_some,
        View.after, View.giveUp, hc]
      rcases htodo with htodo | hcloses
      · rw [← htodo, hsuspended]
        split
        · unfold view
          rw [hset]
          have hover : Call.Matches ⟨[], τ.reply⟩ { c with todo := [] } := ⟨hreply, .inl rfl⟩
          exact hm.set _ hover hm.cursor
        · exact hm
      · have hnot : ¬τ.todo.head?.any Point.isSuspended = true := by
          rw [← hsuspended]
          obtain ⟨q, hq, hq'⟩ := (Option.any_eq_true _ _).mp hcloses
          rw [hq, Option.any_some, Point.not_suspended_of_quick (Point.quick_of_closes hq')]
          decide
        rw [if_neg hnot]
        split
        · have hself : (s.view t i).calls.set (s.rank i j) τ.alone = (s.view t i).calls := by
            obtain ⟨hlt, hget⟩ := List.getElem?_eq_some_iff.mp hcall
            rw [← hget, List.set_getElem_self]
          have hover : τ.alone.Matches { c with todo := [] } := ⟨hreply, .inr hcloses⟩
          have hmatches := hm.set (s.rank i j) hover hm.cursor
          rwa [hself] at hmatches
        · exact hm

theorem matches_collect (hm : (s.view t i).Matches v) :
    ((s.after .collect).view t i).Matches v := by
  rcases s.collect_cases with h | h <;> rw [after, h] <;> exact hm

/-- An action does to a cursor what happens to it where it is alone. -/
theorem matches_after (h : Apart t i s) (hs : Proper n s) (hm : (s.view t i).Matches v)
    (hsole : (s.after a).store.Sole t i) (ho : (s.after a).conn.closed = false) :
    ((s.after a).view t i).Matches
      (((s.happening? t i a).map (v.after s.conn.writer.limit)).getD v) := by
  cases a with
  | begin call runtime => exact matches_begin hm call runtime
  | step j pick => exact matches_step h hs hsole ho hm
  | handle pick => exact matches_handle h hs.regular hsole ho hm
  | abandon j => exact matches_abandon hm
  | collect => exact matches_collect hm

/-- What comes of a cursor depends only on what happens to it, as long as the connection is open. -/
theorem matches_run (hs : Proper n s) (hm : (s.view t i).Matches v)
    (hn : n + as.countP (·.isQuery) < 2 ^ 64) (hsole : (s.run as).store.Sole t i)
    (ho : (s.run as).conn.closed = false)
    (hapart : ∀ bs cs, as = bs ++ cs → Apart t i (s.run bs)) :
    ((s.run as).view t i).Matches (v.run s.conn.writer.limit (s.happenings t i as)) := by
  induction as generalizing s v n with
  | nil => exact hm
  | cons a as ih =>
    rw [countP_isQuery_cons, ← Nat.add_assoc] at hn
    have hsole' : (s.after a).store.Sole t i := sole_of_run hsole
    have ho' : (s.after a).conn.closed = false := open_of_run ho
    have hrun := ih (hs.after a (by omega)) (matches_after (hapart [] _ rfl) hs hm hsole' ho') hn
      hsole ho fun bs cs has => hapart (a :: bs) cs (by rw [has]; rfl)
    rw [limit_after] at hrun
    have hhead : v.run s.conn.writer.limit (s.happenings t i (a :: as)) =
        View.run s.conn.writer.limit
          (((s.happening? t i a).map (v.after s.conn.writer.limit)).getD v)
          ((s.after a).happenings t i as) := by
      rw [happenings]
      cases s.happening? t i a <;> rfl
    rw [hhead]
    exact hrun

end State
end Async
end Reql
